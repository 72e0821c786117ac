/-
Shdata.Backend.Stable — backends that leave the bytes of a section alone.

Creations and openings of a section that exists keep its bytes. A resize to
a size that covers the section header keeps the header, and drops whole
words behind it, as the sizes that the library asks for are multiples of 4.
`Stable` names what such a backend knows of its own state: `good` is its
invariant, and `owned inst` says that an instance was created for a section
that is large enough. Both survive whatever the other processes call.

* `shmStable`: a file that does not exist yet holds no bytes, and an instance
  remembers the size that it was created for.
* `rawStable`: memory at a fixed place has no such state.
-/
import Shdata.Solo.Exec

namespace Shdata.Core

open Shdata.Conc Shdata.Bytes Shdata.Layout Shdata.Solo

variable {Ω : Type}

/-- The size of `struct shd_hdr`. -/
def hdrEnd : Int := 56

/-- The bytes of the section header are the same. -/
def SameHdr (m m' : Mem) : Prop := ∀ x, 0 ≤ x → x < hdrEnd → m' x = m x

/-- Every aligned word is kept, or dropped if it lies behind the header. -/
def KeepsWords (m m' : Mem) : Prop :=
  ∀ a, 4 ∣ a → (∀ x, a ≤ x → x < a + 4 → m' x = m x) ∨
    hdrEnd ≤ a ∧ ∀ x, a ≤ x → x < a + 4 → m' x = 0

/-- A size that covers the section header, in whole words. -/
def Whole (size : Int) : Prop := hdrEnd ≤ size ∧ 4 ∣ size

theorem whole_sectionSize {h : HdrUserInfo} (hs : SafeHdr h) : Whole (sectionGetTotalSize lp64 h) :=
  ⟨sectionGetTotalSize_ge hs, sectionGetTotalSize_dvd h⟩

structure Backend.Stable (B : Backend Ω) where
  good : Mem × Ω → Prop
  owned : Nat → Ω → Prop
  call : ∀ t c s, good s → (∀ inst, c = .resize inst → owned inst s.2) →
    good (B.call t c s).1 ∧ KeepsWords s.1 (B.call t c s).1.1
  write : ∀ m m' os inst, owned inst os → good (m, os) → good (m', os)
  created : ∀ t name size s, Whole size → 0 ≤ (B.call t (.create name size) s).2.ret →
    owned (B.call t (.create name size) s).2.inst (B.call t (.create name size) s).1.2
  owned_call : ∀ t c s inst, owned inst s.2 → owned inst (B.call t c s).1.2
  hdr : ReadsHdr B

theorem KeepsWords.refl (m : Mem) : KeepsWords m m := fun _ _ => Or.inl fun _ _ _ => rfl

theorem KeepsWords.trans {m₁ m₂ m₃ : Mem} (h : KeepsWords m₁ m₂) (h' : KeepsWords m₂ m₃) :
    KeepsWords m₁ m₃ := by
  intro a ha
  rcases h' a ha with hkept' | hdrop'
  · rcases h a ha with hkept | ⟨ha0, hzero⟩
    · exact Or.inl fun x h0 h1 => (hkept' x h0 h1).trans (hkept x h0 h1)
    · exact Or.inr ⟨ha0, fun x h0 h1 => (hkept' x h0 h1).trans (hzero x h0 h1)⟩
  · exact Or.inr hdrop'

theorem KeepsWords.sameHdr {m m' : Mem} (h : KeepsWords m m') : SameHdr m m' := by
  intro x h0 h1
  unfold hdrEnd at h1
  rcases h (x / 4 * 4) (Int.dvd_mul_left _ _) with hkept | ⟨ha, -⟩
  · exact hkept x (by omega) (by omega)
  · unfold hdrEnd at ha
    omega

/-- A word that is no `-1` does not become one. -/
theorem KeepsWords.i32_ne {m m' : Mem} (h : KeepsWords m m') {a : Int} (ha : 4 ∣ a)
    (hne : m.i32 a ≠ -1) : m'.i32 a ≠ -1 := by
  rcases h a ha with hkept | ⟨-, hzero⟩
  · rwa [Mem.i32_congr hkept]
  · rw [Mem.i32_congr (m := fun _ => 0) hzero]
    exact show decI32 (List.replicate 4 0) ≠ -1 by decide +kernel

theorem SameHdr.refl (m : Mem) : SameHdr m m := fun _ _ _ => rfl

theorem SameHdr.trans {m₁ m₂ m₃ : Mem} (h : SameHdr m₁ m₂) (h' : SameHdr m₂ m₃) :
    SameHdr m₁ m₃ := fun x h0 h1 => (h' x h0 h1).trans (h x h0 h1)

/-- A read inside the header. -/
theorem SameHdr.read {m m' : Mem} (h : SameHdr m m') {a : Int} {len : Nat} (h0 : 0 ≤ a)
    (h1 : a + len ≤ hdrEnd) : m'.read a len = m.read a len :=
  Mem.read_congr fun x hx0 hx1 => h x (by omega) (by omega)

/-! ## Shared memory files -/

namespace Shm

/-- An absent file has no bytes. -/
def Good (s : Mem × Shm) : Prop := s.2.present = false → ∀ x, s.1 x = 0

/-- An instance of a file, created for at least the header. -/
structure Owned (inst : Nat) (os : Shm) : Prop where
  present : os.present = true
  lt : inst < os.nextInst
  size : Whole (os.creationSize inst)

/-- What holds after a system call that failed, and after one that did not. -/
theorem syscall_cases {α : Type} {s : Mem × Shm} {fail : Int → α}
    {k : Mem × Shm → (Mem × Shm) × α} {P : (Mem × Shm) × α → Prop}
    (hfail : ∀ e, e < 0 → P ((s.1, { s.2 with calls := s.2.calls + 1 }), fail e))
    (hk : P (k (s.1, { s.2 with calls := s.2.calls + 1 }))) : P (syscall s fail k) := by
  unfold syscall
  dsimp only
  split
  · exact hfail _ (by omega)
  · exact hk

theorem release_eq (inst : Nat) (s : Mem × Shm) :
    (release inst s).1 = s.1 ∧ (release inst s).2.present = s.2.present ∧
      (release inst s).2.nextInst = s.2.nextInst ∧
      (release inst s).2.creationSize = s.2.creationSize := by
  unfold release
  split <;> exact ⟨rfl, rfl, rfl, rfl⟩

/-- A new instance keeps the others. -/
theorem owned_openInst {inst : Nat} {s : Mem × Shm} (size : Int) (h : Owned inst s.2) :
    Owned inst (openInst s size).1.2 where
  present := h.present
  lt := Nat.lt_succ_of_lt h.lt
  size := by
    show Whole (Function.update s.2.creationSize s.2.nextInst size inst)
    rw [Function.update_of_ne (Nat.ne_of_lt h.lt)]
    exact h.size

theorem owned_call (t : Nat) (c : BackendCall) (s : Mem × Shm) {inst : Nat} (h : Owned inst s.2) :
    Owned inst (shm.call t c s).1.2 := by
  have hcalls : Owned inst { s.2 with calls := s.2.calls + 1 } := ⟨h.present, h.lt, h.size⟩
  cases c with
  | lookup name => exact syscall_cases (P := fun r => Owned inst r.1.2) (fun _ _ => hcalls) hcalls
  | create name size =>
    refine syscall_cases (P := fun r => Owned inst r.1.2) (fun _ _ => hcalls) ?_
    dsimp only
    rw [if_pos h.present]
    exact owned_openInst size hcalls
  | openSection name =>
    refine syscall_cases (P := fun r => Owned inst r.1.2) (fun _ _ => hcalls) ?_
    dsimp only
    rw [if_pos h.present]
    exact owned_openInst 0 hcalls
  | close i =>
    obtain ⟨-, hp, hn, hc⟩ := release_eq i s
    exact ⟨hp.trans h.present, hn ▸ h.lt, hc ▸ h.size⟩
  | hdrRead i =>
    show Owned inst (readHeader s).1.2
    unfold readHeader
    split
    · exact h
    · exact syscall_cases (P := fun r => Owned inst r.1.2) (fun _ _ => hcalls) hcalls
  | getSectionStart size i =>
    exact syscall_cases (P := fun r => Owned inst r.1.2) (fun _ _ => hcalls) hcalls
  | resize i =>
    exact syscall_cases (P := fun r => Owned inst r.1.2) (fun _ _ => hcalls)
      ⟨h.present, h.lt, h.size⟩
  | lock i =>
    refine syscall_cases (P := fun r => Owned inst r.1.2) (fun _ _ => hcalls) ?_
    dsimp only
    split <;> exact ⟨h.present, h.lt, h.size⟩
  | unlock i =>
    refine syscall_cases (P := fun r => Owned inst r.1.2) (fun _ _ => hcalls) ?_
    obtain ⟨-, hp, hn, hc⟩ := release_eq i (s.1, { s.2 with calls := s.2.calls + 1 })
    exact ⟨hp.trans h.present, hn ▸ h.lt, hc ▸ h.size⟩

theorem owned_created (t : Nat) (name : String) (size : Int) (s : Mem × Shm) (hsize : Whole size)
    (hret : 0 ≤ (shm.call t (.create name size) s).2.ret) :
    Owned (shm.call t (.create name size) s).2.inst (shm.call t (.create name size) s).1.2 := by
  refine syscall_cases (P := fun r : (Mem × Shm) × CreateResult => 0 ≤ r.2.ret → Owned r.2.inst r.1.2)
    (fun e he hr => absurd hr (not_le.mpr he)) (fun _ => ?_) hret
  dsimp only
  split
  · rename_i hp
    refine ⟨hp, Nat.lt_succ_self _, ?_⟩
    show Whole (Function.update s.2.creationSize s.2.nextInst size s.2.nextInst)
    rwa [Function.update_self]
  · refine ⟨rfl, Nat.lt_succ_self _, ?_⟩
    show Whole (Function.update s.2.creationSize s.2.nextInst size s.2.nextInst)
    rwa [Function.update_self]

/-- No call changes a word but by dropping it, if resizes are made on owned instances. -/
theorem call_good (t : Nat) (c : BackendCall) (s : Mem × Shm) (hs : Good s)
    (hc : ∀ inst, c = .resize inst → Owned inst s.2) :
    Good (shm.call t c s).1 ∧ KeepsWords s.1 (shm.call t c s).1.1 := by
  have hsame : ∀ os : Shm, os.present = s.2.present → Good (s.1, os) ∧ KeepsWords s.1 s.1 :=
    fun os hp => ⟨fun h => hs (hp ▸ h), KeepsWords.refl _⟩
  cases c with
  | lookup name =>
    exact syscall_cases (P := fun r => Good r.1 ∧ KeepsWords s.1 r.1.1) (fun _ _ => hsame _ rfl)
      (hsame _ rfl)
  | create name size =>
    refine syscall_cases (P := fun r => Good r.1 ∧ KeepsWords s.1 r.1.1) (fun _ _ => hsame _ rfl) ?_
    dsimp only
    split
    · exact hsame _ rfl
    · rename_i hp
      have habsent : s.2.present = false := by simpa using hp
      refine ⟨fun h => absurd h (by simp [openInst]), fun _ _ => Or.inl fun x _ _ => ?_⟩
      exact (hs habsent x).symm
  | openSection name =>
    refine syscall_cases (P := fun r => Good r.1 ∧ KeepsWords s.1 r.1.1) (fun _ _ => hsame _ rfl) ?_
    dsimp only
    split <;> exact hsame _ rfl
  | close i =>
    obtain ⟨hm, hp, -⟩ := release_eq i s
    show Good (release i s) ∧ KeepsWords s.1 (release i s).1
    rw [hm]
    exact ⟨fun h x => by rw [hm]; exact hs (hp ▸ h) x, KeepsWords.refl _⟩
  | hdrRead i =>
    show Good (readHeader s).1 ∧ KeepsWords s.1 (readHeader s).1.1
    unfold readHeader
    split
    · exact hsame _ rfl
    · exact syscall_cases (P := fun r => Good r.1 ∧ KeepsWords s.1 r.1.1) (fun _ _ => hsame _ rfl)
        (hsame _ rfl)
  | getSectionStart size i =>
    exact syscall_cases (P := fun r => Good r.1 ∧ KeepsWords s.1 r.1.1) (fun _ _ => hsame _ rfl)
      (hsame _ rfl)
  | resize i =>
    have ho := hc i rfl
    refine syscall_cases (P := fun r => Good r.1 ∧ KeepsWords s.1 r.1.1) (fun _ _ => hsame _ rfl) ?_
    refine ⟨fun h => absurd (ho.present.symm.trans h) (by decide), fun a ha => ?_⟩
    obtain ⟨hsize, hdvd⟩ := ho.size
    by_cases hlt : a < s.2.creationSize i
    · exact Or.inl fun x h0 h1 => if_pos (by show x < s.2.creationSize i; omega)
    · exact Or.inr ⟨by omega, fun x h0 h1 => if_neg (by show ¬ x < s.2.creationSize i; omega)⟩
  | lock i =>
    refine syscall_cases (P := fun r => Good r.1 ∧ KeepsWords s.1 r.1.1) (fun _ _ => hsame _ rfl) ?_
    dsimp only
    split <;> exact hsame _ rfl
  | unlock i =>
    refine syscall_cases (P := fun r => Good r.1 ∧ KeepsWords s.1 r.1.1) (fun _ _ => hsame _ rfl) ?_
    obtain ⟨hm, hp, -⟩ := release_eq i (s.1, { s.2 with calls := s.2.calls + 1 })
    exact ⟨fun h x => by rw [hm]; exact hs (hp ▸ h) x, fun _ _ => Or.inl fun x _ _ => congrFun hm x⟩

end Shm

def shmStable : shm.Stable where
  good := Shm.Good
  owned := Shm.Owned
  call := Shm.call_good
  write := fun _ _ _ _ ho _ h => absurd (ho.present.symm.trans h) (by decide)
  created := Shm.owned_created
  owned_call := fun t c s _ h => Shm.owned_call t c s h
  hdr := shm_readsHdr

/-! ## Memory at a fixed place -/

def rawStable (fails : Nat → BackendCall → Option Nat) : (raw fails).Stable where
  good := fun _ => True
  owned := fun _ _ => True
  call := fun _ _ _ _ _ => ⟨trivial, KeepsWords.refl _⟩
  write := fun _ _ _ _ _ _ => trivial
  created := fun _ _ _ _ _ _ => trivial
  owned_call := fun _ _ _ _ _ => trivial
  hdr := raw_readsHdr fails

end Shdata.Core
