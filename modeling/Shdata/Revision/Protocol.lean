/-
Shdata.Revision.Protocol — creations and openings of one section, interleaved.

`Log` records what the revision protocol is about: the creation that is
between its two updates of the revision, the creations that ended with their
revision and header, and how often the header had been written when a thread
copied it. `Consistent` ties the log to
the bytes of the section:

* the revision is even, and that of the last creation that ended, when no
  creation is between its updates, and odd otherwise;
* the revisions of the creations that ended increase;
* the header is that of the last creation that ended.

`Rely` is what the steps of the other threads do, seen from one thread. It is
a preorder, and `rely_harmless` covers every step that neither updates
the revision nor writes the section header.
-/
import Shdata.Backend.Stable
import Shdata.Conc.RelyGuarantee
import Shdata.Revision.Steps

namespace Shdata.Revision

open Shdata.Conc Shdata.Bytes Shdata.Core Shdata.Ring Shdata.Layout Shdata.Solo

variable {Ω : Type} {B : Backend Ω}

/-! ## The log -/

/-- How far the creations of the section are. -/
structure Progress where
  /-- the thread between its two updates of the revision -/
  writer : Option Nat
  /-- the header that was written last -/
  hdr : HdrUserInfo
  /-- revisions and headers of the creations that ended -/
  ended : List (Int × HdrUserInfo)
  /-- how often the user header was written -/
  hdrWrites : Nat

/-- There was a creation. -/
def Progress.Begun (p : Progress) : Prop := p.ended ≠ [] ∨ p.writer.isSome

/-- The number of header writes when a thread copied the header, and whether it
loaded the revision since. -/
structure Log extends Progress where
  copied : Nat → Nat
  loaded : Nat → Bool

/-- The log after an operation. -/
def watch (t : Nat) (o : Op) (w : World Ω) (_ : o.Resp) (γ : Log) : Log :=
  match o with
  | .write .invalidateSection _ _ | .addAndFetch .invalidateSection _ _ =>
    { γ with writer := some t }
  | .write (.hdrWrite h) a _ =>
    { γ with hdr := h, hdrWrites := γ.hdrWrites + if a = lp64.offsetofUserInfo then 1 else 0 }
  | .addAndFetch .updateGlobalRevisionNb a v =>
    if Int.tmod (toI32 (w.mem.i32 a + v)) 2 = 0 then
      { γ with writer := none, ended := γ.ended ++ [(toI32 (w.mem.i32 a + v), γ.hdr)] }
    else
      { γ with writer := none }
  | .backend (.hdrRead _) => { γ with copied := Function.update γ.copied t γ.hdrWrites }
  | .read .updateLocalRevisionNb _ _ =>
    { γ with loaded := Function.update γ.loaded t true }
  | _ => γ

def watched (B : Backend Ω) : Machine Op.Resp Nat (World Ω × Log) := (machine B).ghost watch

/-- The user header in the section. -/
def userHdr (m : Mem) : List UInt8 := m.read 16 24

/-- The log fits the revision, the user header and the magic number of the section. -/
structure Coherent (v : Int) (user magic : List UInt8) (p : Progress) : Prop where
  nonneg : 0 ≤ v
  parity : v % 2 = if p.writer.isSome then 1 else 0
  /-- the second update does not overflow -/
  room : p.writer.isSome → v < 2147483647
  increasing : (p.ended.map Prod.fst).Pairwise (· < ·)
  below : ∀ e ∈ p.ended, e.1 ≤ v
  last : p.writer = none → ∀ e ∈ p.ended.getLast?, e.1 = v ∧ user = encHdrUserInfo e.2
  magic : leNat magic = SHD_MAGIC_NUMBER → p.Begun

structure Consistent (K : B.Stable) (s : World Ω × Log) : Prop where
  good : K.good (s.1.mem, s.1.os)
  coherent : Coherent (nbCreations s.1.mem) (userHdr s.1.mem) (s.1.mem.read 0 8) s.2.toProgress

/-! ## The steps of the other threads -/

/-- What may happen between two operations of thread `u`. -/
structure Rely (K : B.Stable) (u : Nat) (s s' : World Ω × Log) : Prop where
  inv : Consistent K s → Consistent K s'
  owned : ∀ inst, K.owned inst s.1.os → K.owned inst s'.1.os
  /-- the creations that ended meanwhile have new revisions -/
  ended : ∃ new, s'.2.ended = s.2.ended ++ new ∧
    (Consistent K s → ∀ e ∈ new, nbCreations s.1.mem < e.1)
  revision : Consistent K s → nbCreations s.1.mem ≤ nbCreations s'.1.mem
  hdrWrites : s.2.hdrWrites ≤ s'.2.hdrWrites
  user : s'.2.hdrWrites = s.2.hdrWrites → userHdr s'.1.mem = userHdr s.1.mem
  own : s.2.writer = some u →
    s'.2.writer = some u ∧ SameHdr s.1.mem s'.1.mem ∧ s'.2.hdr = s.2.hdr
  other : s'.2.writer = some u → s.2.writer = some u
  begun : s.2.Begun → s'.2.Begun
  copied : s'.2.copied u = s.2.copied u
  loaded : s'.2.loaded u = s.2.loaded u

/-- What thread `t` guarantees to the others. -/
def Guar (K : B.Stable) (t : Nat) (_ : Op) (s s' : World Ω × Log) : Prop :=
  ∀ u, u ≠ t → Rely K u s s'

section Rely

variable {K : B.Stable} {t u : Nat} {s s' s'' : World Ω × Log}

theorem Rely.trans (h : Rely K u s s') (h' : Rely K u s' s'') : Rely K u s s'' where
  inv := fun hs => h'.inv (h.inv hs)
  owned := fun inst ho => h'.owned inst (h.owned inst ho)
  ended := by
    obtain ⟨new, he, hnew⟩ := h.ended
    obtain ⟨new', he', hnew'⟩ := h'.ended
    refine ⟨new ++ new', by rw [he', he, List.append_assoc], fun hs e hmem => ?_⟩
    rcases List.mem_append.mp hmem with hmem | hmem
    · exact hnew hs e hmem
    · exact lt_of_le_of_lt (h.revision hs) (hnew' (h.inv hs) e hmem)
  revision := fun hs => (h.revision hs).trans (h'.revision (h.inv hs))
  hdrWrites := h.hdrWrites.trans h'.hdrWrites
  user := by
    intro heq
    have h₁ := h.hdrWrites
    have h₂ := h'.hdrWrites
    exact (h'.user (by omega)).trans (h.user (by omega))
  own := by
    intro hw
    obtain ⟨hw', hm, hh⟩ := h.own hw
    obtain ⟨hw'', hm', hh'⟩ := h'.own hw'
    exact ⟨hw'', hm.trans hm', hh'.trans hh⟩
  other := fun hw => h.other (h'.other hw)
  begun := fun hb => h'.begun (h.begun hb)
  copied := h'.copied.trans h.copied
  loaded := h'.loaded.trans h.loaded

/-- A creation that ended stays in the log. -/
theorem Rely.mem_ended (h : Rely K u s s') {e : Int × HdrUserInfo} (he : e ∈ s.2.ended) :
    e ∈ s'.2.ended := by
  obtain ⟨new, heq, -⟩ := h.ended
  rw [heq]
  exact List.mem_append_left _ he

theorem nbCreations_of_sameHdr {m m' : Mem} (h : SameHdr m m') :
    nbCreations m' = nbCreations m := congrArg decI32 (h.read (by decide) (by decide))

theorem userHdr_of_sameHdr {m m' : Mem} (h : SameHdr m m') : userHdr m' = userHdr m :=
  h.read (by decide) (by decide)

/-- A step that leaves the section header and the progress alone. -/
theorem rely_of_same (hgood : K.good (s.1.mem, s.1.os) → K.good (s'.1.mem, s'.1.os))
    (howned : ∀ inst, K.owned inst s.1.os → K.owned inst s'.1.os)
    (hmem : SameHdr s.1.mem s'.1.mem) (hlog : s'.2.toProgress = s.2.toProgress)
    (hcopied : s'.2.copied u = s.2.copied u) (hloaded : s'.2.loaded u = s.2.loaded u) :
    Rely K u s s' where
  inv := fun ⟨hg, hc⟩ => by
    refine ⟨hgood hg, ?_⟩
    rw [nbCreations_of_sameHdr hmem, userHdr_of_sameHdr hmem, hlog,
      hmem.read (le_refl 0) (by decide)]
    exact hc
  owned := howned
  ended := ⟨[], by rw [hlog, List.append_nil], fun _ e he => absurd he List.not_mem_nil⟩
  revision := fun _ => le_of_eq (nbCreations_of_sameHdr hmem).symm
  hdrWrites := le_of_eq (by rw [hlog])
  user := fun _ => userHdr_of_sameHdr hmem
  own := fun hw => ⟨by rw [hlog]; exact hw, hmem, by rw [hlog]⟩
  other := fun hw => by rw [hlog] at hw; exact hw
  begun := fun hb => by rw [hlog]; exact hb
  copied := hcopied
  loaded := hloaded

theorem Rely.refl (K : B.Stable) (u : Nat) (s : World Ω × Log) : Rely K u s s :=
  rely_of_same id (fun _ => id) (SameHdr.refl _) rfl rfl rfl

/-- What neither updates the revision nor touches the section header. With `b`,
the data behind the header may be written. -/
def Harmless (b : Bool) : Op → Prop
  | .write .invalidateSection _ _ | .write (.hdrWrite _) _ _ => False
  | .write _ a _ => b = true ∧ hdrEnd ≤ a
  | .addAndFetch _ _ _ | .read .updateLocalRevisionNb _ _ => False
  | .backend (.resize _) | .backend (.hdrRead _) => False
  | _ => True

theorem watch_harmless {b : Bool} {o : Op} (ho : Harmless b o) (w : World Ω)
    (r : o.Resp) (γ : Log) : watch t o w r γ = γ := by
  cases o with
  | read site a len => cases site <;> first | rfl | exact absurd ho id
  | write site a src => cases site <;> first | rfl | exact absurd ho id
  | addAndFetch site a v => exact absurd ho id
  | backend c => cases c <;> first | rfl | exact absurd ho id
  | _ => rfl

/-- A harmless step, whoever makes it. -/
theorem rely_harmless {b : Bool} {o : Op} (ho : Harmless b o)
    (howned : b = true → ∃ inst, K.owned inst s.1.os) (hs : Consistent K s) :
    Rely K u s ((watched B).step t o s).1 := by
  have hlog : ((watched B).step t o s).1.2 = s.2 := watch_harmless ho _ _ _
  have hsame : ∀ {w' : World Ω}, ((watched B).step t o s).1.1 = w' →
      (K.good (w'.mem, w'.os)) → (∀ inst, K.owned inst s.1.os → K.owned inst w'.os) →
      SameHdr s.1.mem w'.mem → Rely K u s ((watched B).step t o s).1 := by
    rintro w' rfl hg hown hmem
    exact rely_of_same (fun _ => hg) hown hmem (by rw [hlog]) (by rw [hlog]) (by rw [hlog])
  cases o with
  | write site a src =>
    obtain ⟨hw, ha⟩ : b = true ∧ hdrEnd ≤ a := by
      cases site <;> first | exact ho | exact absurd ho id
    obtain ⟨inst, hinst⟩ := howned hw
    refine hsame rfl (K.write _ _ _ inst hinst hs.good) (fun _ => id) fun x _ h1 => ?_
    exact Mem.write_of_not_mem (Or.inl (lt_of_lt_of_le h1 ha))
  | addAndFetch site a v => exact absurd ho id
  | backend c =>
    obtain ⟨hg, hmem⟩ := K.call t c (s.1.mem, s.1.os) hs.good fun inst hc => by
      subst hc
      exact absurd ho id
    exact hsame rfl hg (fun inst => K.owned_call t c (s.1.mem, s.1.os) inst) hmem.sameHdr
  | _ => exact hsame rfl hs.good (fun _ => id) (SameHdr.refl _)

/-- A program of harmless operations. -/
theorem wp_harmless {α : Type} {C : Nat → Op → World Ω × Log → Prop} {b : Bool}
    {A : (o : Op) → o.Resp → Prop} {p : ShdProg α} {Q : α → Prop}
    (hp : p.Ensures A (Harmless b) Q) (hA : ∀ o v, A o ((watched B).step t o v).2)
    (howned : b = true → ∃ inst, K.owned inst s.1.os) (hs : Consistent K s) :
    wp (watched B) t C (Rely K t) (Guar K t) p (fun a s' => Q a ∧ Rely K t s s') s := by
  refine wp_of_ensures (fun _ _ _ => Rely.trans) hp (Rely.refl K t s) fun o v ho hv _ => ?_
  have hown : b = true → ∃ inst, K.owned inst v.1.os := fun hw => by
    obtain ⟨inst, hinst⟩ := howned hw
    exact ⟨inst, hv.owned inst hinst⟩
  exact ⟨fun u _ => rely_harmless ho hown (hv.inv hs), rely_harmless ho hown (hv.inv hs), hA o v⟩

/-! ## The steps of a creation -/

/-- What a creation finds when it invalidates the section: no other creation is
between its updates, and the increments do not overflow. A first creation
finds the revision of a new section. -/
def InvalidateOk : Op → World Ω × Log → Prop
  | .write .invalidateSection _ _, s => s.2.writer = none ∧ nbCreations s.1.mem = 0
  | .addAndFetch .invalidateSection _ _, s =>
    s.2.writer = none ∧ nbCreations s.1.mem ≤ 2147483644
  | _, _ => True

/-- The first update of the revision. -/
theorem rely_invalidate {v : World Ω} (ht : u ≠ t) (hwriter : s.2.writer = none)
    (hroom : nbCreations s.1.mem ≤ 2147483644) (howned : ∃ inst, K.owned inst s.1.os)
    (hos : v.os = s.1.os) (hrev : nbCreations v.mem = nbCreations s.1.mem + 1)
    (hmem : Mem.SameOutside s.1.mem v.mem 40 44) :
    Rely K u s (v, { s.2 with writer := some t }) where
  inv := fun ⟨hg, hc⟩ => by
    obtain ⟨inst, hinst⟩ := howned
    have heven := hc.parity
    rw [hwriter] at heven
    have hnonneg := hc.nonneg
    refine ⟨?_, ?_⟩
    · rw [hos]
      exact K.write _ _ _ inst hinst hg
    · rw [hrev]
      refine ⟨by omega, ?_, fun _ => by omega, hc.increasing, fun e he => ?_, ?_, fun _ => ?_⟩
      · change _ = 1
        change _ = 0 at heven
        omega
      · have := hc.below e he
        omega
      · exact fun h => absurd h (by simp)
      · exact Or.inr rfl
  owned := fun inst h => by rw [hos]; exact h
  ended := ⟨[], (List.append_nil _).symm, fun _ e he => absurd he List.not_mem_nil⟩
  revision := fun _ => by rw [hrev]; omega
  hdrWrites := le_refl _
  user := fun _ => hmem.read (Or.inl (by decide))
  own := fun h => absurd (hwriter.symm.trans h) (by simp)
  other := fun h => absurd (Option.some.inj h).symm ht
  begun := fun _ => Or.inr rfl
  copied := rfl
  loaded := rfl

/-- A write of the section header by the thread between its updates. -/
theorem rely_hdrWrite {v : World Ω} {h : HdrUserInfo} {n : Nat} (ht : u ≠ t)
    (hwriter : s.2.writer = some t) (howned : ∃ inst, K.owned inst s.1.os) (hos : v.os = s.1.os)
    (hrev : nbCreations v.mem = nbCreations s.1.mem)
    (huser : n = 0 → userHdr v.mem = userHdr s.1.mem) :
    Rely K u s (v, { s.2 with hdr := h, hdrWrites := s.2.hdrWrites + n }) where
  inv := fun ⟨hg, hc⟩ => by
    obtain ⟨inst, hinst⟩ := howned
    refine ⟨?_, ?_⟩
    · rw [hos]
      exact K.write _ _ _ inst hinst hg
    · rw [hrev]
      refine ⟨hc.nonneg, hc.parity, hc.room, hc.increasing, hc.below, ?_, fun _ => Or.inr ?_⟩
      · exact fun h => absurd (hwriter.symm.trans h) (by simp)
      · show s.2.writer.isSome = true
        rw [hwriter]
        rfl
  owned := fun inst h => by rw [hos]; exact h
  ended := ⟨[], (List.append_nil _).symm, fun _ e he => absurd he List.not_mem_nil⟩
  revision := fun _ => le_of_eq hrev.symm
  hdrWrites := Nat.le_add_right _ _
  user := fun h => huser (Nat.add_eq_left.mp h)
  own := fun h => absurd (Option.some.inj (hwriter.symm.trans h)).symm ht
  other := fun h => h
  begun := fun h => h
  copied := rfl
  loaded := rfl

/-- The second update of the revision. -/
theorem rely_update {v : World Ω} (ht : u ≠ t) (hwriter : s.2.writer = some t)
    (howned : ∃ inst, K.owned inst s.1.os) (huser : userHdr s.1.mem = encHdrUserInfo s.2.hdr)
    (hos : v.os = s.1.os) (hrev : nbCreations v.mem = nbCreations s.1.mem + 1)
    (hmem : Mem.SameOutside s.1.mem v.mem 40 44) :
    Rely K u s (v, { s.2 with
      writer := none, ended := s.2.ended ++ [(nbCreations s.1.mem + 1, s.2.hdr)] }) where
  inv := fun ⟨hg, hc⟩ => by
    obtain ⟨inst, hinst⟩ := howned
    have hodd := hc.parity
    rw [hwriter] at hodd
    have hnonneg := hc.nonneg
    refine ⟨?_, ?_⟩
    · rw [hos]
      exact K.write _ _ _ inst hinst hg
    · rw [hrev, show userHdr v.mem = userHdr s.1.mem from hmem.read (Or.inl (by decide))]
      refine ⟨by omega, ?_, fun h => absurd h (by simp), ?_, fun e he => ?_, fun _ e he => ?_,
        fun _ => Or.inl (by simp)⟩
      · change _ = 0
        change _ = 1 at hodd
        omega
      · rw [List.map_append, List.pairwise_append]
        refine ⟨hc.increasing, List.pairwise_singleton _ _, fun a ha b hb => ?_⟩
        obtain ⟨e, he, rfl⟩ := List.mem_map.mp ha
        obtain rfl := List.mem_singleton.mp hb
        have := hc.below e he
        dsimp only
        omega
      · rcases List.mem_append.mp he with he | he
        · have := hc.below e he
          omega
        · obtain rfl := List.mem_singleton.mp he
          exact le_refl _
      · obtain rfl : (nbCreations s.1.mem + 1, s.2.hdr) = e := by simpa using he
        exact ⟨rfl, huser⟩
  owned := fun inst h => by rw [hos]; exact h
  ended := ⟨[_], rfl, fun _ e he => by
    obtain rfl := List.mem_singleton.mp he
    exact lt_add_one _⟩
  revision := fun _ => by rw [hrev]; omega
  hdrWrites := le_refl _
  user := fun _ => hmem.read (Or.inl (by decide))
  own := fun h => absurd (Option.some.inj (hwriter.symm.trans h)).symm ht
  other := fun h => absurd h (by simp)
  begun := fun _ => Or.inl (by simp)
  copied := rfl
  loaded := rfl

end Rely

end Shdata.Revision
