/-
Shdata.Revision.Ledger — what creations and producers do to the published
index of a section.

`Ledger` is auxiliary state. It counts the creations that began to write, and
keeps what happened since the latest one of them: the counters that
reservations raised, and the indices that commits stored. For every context it
keeps in which epoch, that is after which creation, it made its last reservation.

`Accounted` says that the published index is one of a slot that was reserved
and committed in this epoch. `Session` says the same of the sample that a
context has in progress, if it was reserved in this epoch. A creation keeps
both for every context, as it starts a new epoch (`exec_create_step`).
-/
import Shdata.Backend.Stable
import Shdata.Revision.Steps
import Shdata.Solo.Open

namespace Shdata.Revision

open Shdata.Conc Shdata.Bytes Shdata.Core Shdata.Ring Shdata.Layout Shdata.Solo

variable {Ω : Type} {B : Backend Ω} {K : B.Stable} {t u : Nat} {h : HdrUserInfo}

/-! ## The ledger -/

/-- What happened to a section since the latest creation began to write it. -/
structure Ledger where
  /-- the number of creations that began to write -/
  epoch : Nat
  /-- addresses of the counters that reservations raised -/
  reserved : List Int
  /-- indices that commits stored -/
  committed : List Int
  /-- the epoch of the last reservation of a context -/
  session : Nat → Nat

def Ledger.start : Ledger where
  epoch := 0
  reserved := []
  committed := []
  session := fun _ => 0

/-- The ledger after an operation of context `t`. -/
def note (t : Nat) (o : Op) (_ : World Ω) (_ : o.Resp) (γ : Ledger) : Ledger :=
  match o with
  | .write .invalidateSection _ _ | .addAndFetch .invalidateSection _ _ =>
    { γ with epoch := γ.epoch + 1, reserved := [], committed := [] }
  | .addAndFetch .startSampleWrite a _ =>
    { γ with reserved := a :: γ.reserved, session := Function.update γ.session t γ.epoch }
  | .write .endWriteSession a src =>
    if a = 40 + offsetofWriteIndex then { γ with committed := decI32 src :: γ.committed } else γ
  | _ => γ

def ledgered (B : Backend Ω) : Machine Op.Resp Nat (World Ω × Ledger) := (machine B).ghost note

/-- An operation that the ledger does not record. -/
def Unnoted : Op → Prop
  | .write .invalidateSection _ _ | .write .endWriteSession _ _ => False
  | .addAndFetch .invalidateSection _ _ | .addAndFetch .startSampleWrite _ _ => False
  | _ => True

theorem note_unnoted {o : Op} (ho : Unnoted o) (w : World Ω) (r : o.Resp) (γ : Ledger) :
    note t o w r γ = γ := by
  cases o with
  | write site a src => cases site <;> first | rfl | exact absurd ho id
  | addAndFetch site a v => cases site <;> first | rfl | exact absurd ho id
  | _ => rfl

/-! ## What the ledger accounts for -/

/-- The user header of the section. -/
def hdrAt (m : Mem) : HdrUserInfo := decHdrUserInfo (m.read 16 24)

/-- The data section that the header describes. -/
def descAt (m : Mem) : DataSectionDesc := descOf (hdrAt m)

/-- The slot was reserved and committed since the latest creation. -/
structure Committed (i : Int) (s : World Ω × Ledger) : Prop where
  isSlot : IsSlot (descAt s.1.mem).nbSamples i
  reserved : slot (descAt s.1.mem) i + 32 ∈ s.2.reserved
  committed : i ∈ s.2.committed

structure Accounted (K : B.Stable) (s : World Ω × Ledger) : Prop where
  good : K.good (s.1.mem, s.1.os)
  owned : 0 < s.2.epoch → ∃ inst, K.owned inst s.1.os
  sessions : ∀ u, s.2.session u ≤ s.2.epoch
  safe : 0 < s.2.epoch → SafeHdr (hdrAt s.1.mem)
  /-- a counter that was raised is that of a slot, and not `-1` -/
  counters : ∀ a ∈ s.2.reserved, s.1.mem.i32 a ≠ -1 ∧
    ∃ i, IsSlot (descAt s.1.mem).nbSamples i ∧ a = slot (descAt s.1.mem) i + 32
  index : 0 < s.2.epoch → writeIndex s.1.mem = -1 ∨ Committed (writeIndex s.1.mem) s

/-- A context `t` of the section, maybe of an earlier creation. -/
structure Session (t : Nat) (ctx : ShdCtx) (s : World Ω × Ledger) : Prop where
  sync : ctx.sectMmap.syncTop = 40
  begun : 0 < s.2.epoch
  index : ctx.syncCtx.index ≠ -1 → IsSlot ctx.desc.nbSamples ctx.syncCtx.index
  reserved : ctx.syncCtx.index ≠ -1 → s.2.session t = s.2.epoch →
    ctx.desc = descAt s.1.mem ∧ slot ctx.desc ctx.syncCtx.index + 32 ∈ s.2.reserved

/-- A call of context `t`, as the others see it. -/
structure Moves (t : Nat) (s s' : World Ω × Ledger) : Prop where
  epoch : s.2.epoch ≤ s'.2.epoch
  session : ∀ u, u ≠ t → s'.2.session u = s.2.session u
  hdr : s'.2.epoch = s.2.epoch → hdrAt s'.1.mem = hdrAt s.1.mem
  reserved : s'.2.epoch = s.2.epoch → ∀ a ∈ s.2.reserved, a ∈ s'.2.reserved

section Moves

variable {s s' s'' : World Ω × Ledger}

theorem Moves.refl (t : Nat) (s : World Ω × Ledger) : Moves t s s :=
  ⟨le_refl _, fun _ _ => rfl, fun _ => rfl, fun _ _ => id⟩

theorem Moves.trans (hm : Moves t s s') (hm' : Moves t s' s'') : Moves t s s'' where
  epoch := hm.epoch.trans hm'.epoch
  session := fun u hu => (hm'.session u hu).trans (hm.session u hu)
  hdr := by
    intro he
    have h₁ := hm.epoch
    have h₂ := hm'.epoch
    exact (hm'.hdr (by omega)).trans (hm.hdr (by omega))
  reserved := by
    intro he a ha
    have h₁ := hm.epoch
    have h₂ := hm'.epoch
    exact hm'.reserved (by omega) a (hm.reserved (by omega) a ha)

/-- A context keeps its session while others move. -/
theorem Session.moves {ctx : ShdCtx} (ha : Accounted K s) (hc : Session u ctx s)
    (hm : Moves t s s') (hne : u ≠ t) : Session u ctx s' where
  sync := hc.sync
  begun := lt_of_lt_of_le hc.begun hm.epoch
  index := hc.index
  reserved := by
    intro hidx hsess
    rw [hm.session u hne] at hsess
    have hle := ha.sessions u
    have hepoch := hm.epoch
    obtain ⟨hdesc, hres⟩ := hc.reserved hidx (by omega)
    refine ⟨?_, hm.reserved (by omega) _ hres⟩
    exact hdesc.trans (congrArg descOf (hm.hdr (by omega)).symm)

end Moves

/-! ## Steps that are not recorded -/

/-- Nothing was recorded, and the header, the index and the counters say what they said. -/
structure Quiet (K : B.Stable) (s s' : World Ω × Ledger) : Prop where
  good : K.good (s'.1.mem, s'.1.os)
  owned : ∀ inst, K.owned inst s.1.os → K.owned inst s'.1.os
  ledger : s'.2 = s.2
  hdr : hdrAt s'.1.mem = hdrAt s.1.mem
  index : writeIndex s'.1.mem = writeIndex s.1.mem
  counters : ∀ i, IsSlot (descAt s.1.mem).nbSamples i → nbWrites (descAt s.1.mem) s.1.mem i ≠ -1 →
    nbWrites (descAt s.1.mem) s'.1.mem i ≠ -1

section Quiet

variable {s s' : World Ω × Ledger}

theorem Quiet.desc (hq : Quiet K s s') : descAt s'.1.mem = descAt s.1.mem :=
  congrArg descOf hq.hdr

theorem Quiet.moves (hq : Quiet K s s') : Moves t s s' where
  epoch := by rw [hq.ledger]
  session := fun _ _ => by rw [hq.ledger]
  hdr := fun _ => hq.hdr
  reserved := fun _ a ha => by rwa [hq.ledger]

theorem Quiet.accounted (hq : Quiet K s s') (ha : Accounted K s) : Accounted K s' where
  good := hq.good
  owned := by
    rw [hq.ledger]
    intro he
    obtain ⟨inst, ho⟩ := ha.owned he
    exact ⟨inst, hq.owned inst ho⟩
  sessions := by
    rw [hq.ledger]
    exact ha.sessions
  safe := by
    rw [hq.ledger, hq.hdr]
    exact ha.safe
  counters := by
    intro a hmem
    rw [hq.ledger] at hmem
    obtain ⟨hne, i, hi, rfl⟩ := ha.counters a hmem
    rw [hq.desc]
    exact ⟨hq.counters i hi hne, i, hi, rfl⟩
  index := by
    rw [hq.ledger, hq.index]
    refine fun he => (ha.index he).imp id fun hc => ⟨?_, ?_, ?_⟩
    · rw [hq.desc]
      exact hc.isSlot
    · rw [hq.desc, hq.ledger]
      exact hc.reserved
    · rw [hq.ledger]
      exact hc.committed

end Quiet

/-! ## Steps outside the section -/

/-- The section lost at most words behind its header, and nothing was recorded. -/
structure Kept (K : B.Stable) (s s' : World Ω × Ledger) : Prop where
  good : K.good (s'.1.mem, s'.1.os)
  words : KeepsWords s.1.mem s'.1.mem
  ledger : s'.2 = s.2
  owned : ∀ inst, K.owned inst s.1.os → K.owned inst s'.1.os

section Kept

variable {s s' s'' : World Ω × Ledger}

theorem Kept.refl (hg : K.good (s.1.mem, s.1.os)) : Kept K s s :=
  ⟨hg, KeepsWords.refl _, rfl, fun _ => id⟩

theorem Kept.trans (hk : Kept K s s') (hk' : Kept K s' s'') : Kept K s s'' where
  good := hk'.good
  words := hk.words.trans hk'.words
  ledger := hk'.ledger.trans hk.ledger
  owned := fun inst ho => hk'.owned inst (hk.owned inst ho)

/-- The counters of a section are aligned. -/
theorem counter_dvd {d : DataSectionDesc} (hstart : 4 ∣ d.dataSectionStart) (i : Int) :
    4 ∣ slot d i + 32 := by
  have hstride : 4 ∣ stride d := by
    unfold stride sampleGetSize alignUp
    omega
  exact Int.dvd_add (Int.dvd_add hstart (Int.dvd_mul_of_dvd_right hstride)) (by decide)

theorem descAt_dvd (m : Mem) : 4 ∣ (descAt m).dataSectionStart := by
  show 4 ∣ 56 + up4 (hdrMdataSize (hdrAt m))
  unfold up4
  omega

theorem Kept.quiet (hk : Kept K s s') : Quiet K s s' where
  good := hk.good
  owned := hk.owned
  ledger := hk.ledger
  hdr := congrArg decHdrUserInfo (hk.words.sameHdr.read (by decide) (by decide))
  index := congrArg decI32 (hk.words.sameHdr.read (by decide) (by decide))
  counters := fun i _ hne => hk.words.i32_ne (counter_dvd (descAt_dvd _) i) hne

/-- A program outside the section. -/
theorem exec_kept {α : Type} {p : ShdProg α} {Q : α → Prop}
    (hp : p.Ensures (fun _ _ => True) OffSection Q) (hg : K.good (s.1.mem, s.1.os)) :
    Q (exec (ledgered B) t p s).1 ∧ Kept K s (exec (ledgered B) t p s).2 := by
  refine exec_ensures (ledgered B) t (I := Kept K s) ?_ hp (Kept.refl hg)
  intro o s₁ ho hk
  refine ⟨?_, trivial⟩
  cases o with
  | backend c =>
    obtain ⟨hgood, hwords⟩ := K.call t c (s₁.1.mem, s₁.1.os) hk.good fun inst hc => by
      subst hc
      exact absurd ho id
    exact hk.trans ⟨hgood, hwords, rfl, fun inst => K.owned_call t c (s₁.1.mem, s₁.1.os) inst⟩
  | calloc what => exact hk.trans ⟨hk.good, KeepsWords.refl _, rfl, fun _ => id⟩
  | free what p => exact hk.trans ⟨hk.good, KeepsWords.refl _, rfl, fun _ => id⟩
  | _ => exact absurd ho id

/-- An instance that a creation got is large enough. -/
theorem exec_sectionCreate_kept (hg : K.good (s.1.mem, s.1.os)) (name : String) {size : Int}
    (hsize : Whole size) :
    Kept K s (exec (ledgered B) t (sectionCreate name size) s).2 ∧
      (0 ≤ (exec (ledgered B) t (sectionCreate name size) s).1.ret →
        K.owned (exec (ledgered B) t (sectionCreate name size) s).1.inst
          (exec (ledgered B) t (sectionCreate name size) s).2.1.os) := by
  obtain ⟨-, hk⟩ := exec_kept (B := B) (K := K) (t := t) (initSectionInfos_offSection name) hg
  rw [sectionCreate, exec_bind]
  generalize exec (ledgered B) t (initSectionInfos name) s = r at hk ⊢
  obtain ⟨ret, s₁⟩ := r
  split
  · rename_i hneg
    exact ⟨hk, fun hret => absurd hneg (not_lt.mpr hret)⟩
  · obtain ⟨hgood, hwords⟩ := K.call t (.create name size) (s₁.1.mem, s₁.1.os) hk.good (by simp)
    have howned := K.owned_call t (.create name size) (s₁.1.mem, s₁.1.os)
    exact ⟨hk.trans ⟨hgood, hwords, rfl, howned⟩, K.created t name size (s₁.1.mem, s₁.1.os) hsize⟩

/-- A resize of such an instance. -/
theorem exec_sectionResize_kept (hg : K.good (s.1.mem, s.1.os)) {inst : Nat}
    (ho : K.owned inst s.1.os) : Kept K s (exec (ledgered B) t (sectionResize inst) s).2 := by
  obtain ⟨hgood, hwords⟩ := K.call t (.resize inst) (s.1.mem, s.1.os) hg fun i hi => by
    cases hi
    exact ho
  exact ⟨hgood, hwords, rfl, fun i => K.owned_call t (.resize inst) (s.1.mem, s.1.os) i⟩

end Kept

/-! ## The writes of a creation -/

/-- The bytes after the writing part of a creation, as far as the header goes. -/
theorem exec_createPublish_hdr (hs : SafeHdr h) (mdata : List UInt8) (first : Bool) (w : World Ω) :
    ∃ m, (exec (machine B) t (createPublish (getMmap (getOffsets lp64 h)) (descOf h) h mdata first)
        w).2 = { w with mem := m } ∧ hdrAt m = h ∧ writeIndex m = -1 := by
  rw [createPublish_eq, exec_bind]
  obtain ⟨m₁, he₁, -, -⟩ := exec_invalidateSection (B := B) (t := t) (w := w) first
  rw [he₁, exec_bind, createWrites, exec_bind, exec_hdrWrite]
  obtain ⟨hpub, hidx, -, -⟩ := memHdrWrite_spec h m₁
  -- everything after the header is written behind it
  obtain ⟨-, m₂, he₂, hsame⟩ := exec_ensures (machine B) t (P := DataOp) (A := Computes)
    (I := fun w' => ∃ m, w' = { w with mem := m } ∧ SameHdr (memHdrWrite h m₁) m) (fun o w' ho hI => by
      obtain ⟨m, rfl, hm⟩ := hI
      refine ⟨?_, step_computes o _⟩
      cases o with
      | write site a src =>
        have ha : 56 ≤ a := by
          cases site <;> first | exact ho | exact absurd ho id
        refine ⟨_, rfl, hm.trans fun x _ hx => ?_⟩
        exact Mem.write_of_not_mem (Or.inl (lt_of_lt_of_le hx ha))
      | read site a len => exact ⟨m, rfl, hm⟩
      | samplePtr desc i => exact ⟨m, rfl, hm⟩
      | _ => exact absurd ho id)
    (createData_dataOp hs mdata) ⟨_, rfl, SameHdr.refl _⟩
  rw [he₂]
  obtain ⟨m₃, he₃, -, hout⟩ := exec_updateGlobalRevisionNb (B := B) (t := t)
    (w := { w with mem := m₂ })
  rw [he₃]
  refine ⟨m₃, rfl, ?_, ?_⟩
  · have huser : m₃.read 16 24 = encHdrUserInfo h := by
      rw [hout.read (Or.inl (by decide)), hsame.read (by decide) (by decide), hpub.user]
    rw [hdrAt, huser]
    exact List.append_nil (encHdrUserInfo h) ▸ decHdrUserInfo_append h []
  · have hindex : m₃.i32 44 = m₂.i32 44 := hout.i32 (Or.inr (by decide))
    rw [writeIndex, hindex]
    exact (congrArg decI32 (hsame.read (by decide) (by decide))).trans hidx

/-- The operations after the invalidation are not recorded. -/
theorem createWrites_unnoted (hs : SafeHdr h) (mdata : List UInt8) :
    (createWrites h mdata).Ensures Computes Unnoted fun _ => True := by
  have hdata : ∀ o, DataOp o → Unnoted o := fun o ho => by
    cases o with
    | write site a src => cases site <;> trivial
    | addAndFetch site a v => exact absurd ho id
    | _ => trivial
  -- the header and the synchronization part
  have hhdr : (hdrWrite 0 h).AllOps Unnoted := by
    refine Prog.ensures_perform trivial fun old _ => ?_
    split
    · exact ⟨trivial, fun _ _ => ⟨trivial, fun _ _ => ⟨trivial, fun _ _ => ⟨trivial, fun _ _ =>
        ⟨trivial, fun _ _ => ⟨trivial, fun _ _ => trivial⟩⟩⟩⟩⟩⟩
    · exact ⟨trivial, fun _ _ => ⟨trivial, fun _ _ => ⟨trivial, fun _ _ => ⟨trivial, fun _ _ =>
        ⟨trivial, fun _ _ => trivial⟩⟩⟩⟩⟩
  refine (hhdr.assume fun _ _ _ => trivial).bind fun _ _ => ?_
  exact (createData_dataOp hs mdata).mono hdata fun _ => id

/-- A creation that begins to write starts an epoch. -/
def Ledger.next (γ : Ledger) : Ledger :=
  { γ with epoch := γ.epoch + 1, reserved := [], committed := [] }

theorem exec_createPublish_ledger (hs : SafeHdr h) (mdata : List UInt8) (first : Bool)
    (s : World Ω × Ledger) :
    (exec (ledgered B) t (createPublish (getMmap (getOffsets lp64 h)) (descOf h) h mdata first)
      s).2.2 = s.2.next := by
  have hstep : ∀ o (s' : World Ω × Ledger), Unnoted o → s'.2 = s.2.next →
      ((ledgered B).step t o s').1.2 = s.2.next ∧ Computes o ((ledgered B).step t o s').2 :=
    fun o s' ho hl => ⟨(note_unnoted ho s'.1 _ _).trans hl, step_computes o s'.1⟩
  rw [createPublish_eq, exec_bind]
  have hfirst : (exec (ledgered B) t (syncInvalidateSection 40 first) s).2.2 = s.2.next := by
    cases first <;> rfl
  rw [exec_bind]
  obtain ⟨-, hwrites⟩ := exec_ensures (ledgered B) t (I := fun s' => s'.2 = s.2.next) hstep
    (createWrites_unnoted hs mdata) hfirst
  have hupdate : (syncUpdateGlobalRevisionNb 40).Ensures Computes Unnoted fun _ => True := by
    refine Prog.ensures_perform trivial fun n _ => ?_
    split
    · exact trivial
    · exact ⟨trivial, fun _ _ => trivial⟩
  exact (exec_ensures (ledgered B) t (I := fun s' => s'.2 = s.2.next) hstep hupdate hwrites).2

/-! ## The whole of `shd_create` -/

/-- What a creation leaves, from a section that is accounted for. -/
structure CreateStep (K : B.Stable) (t : Nat) (s : World Ω × Ledger)
    (r : Option ShdCtx × (World Ω × Ledger)) : Prop where
  accounted : Accounted K r.2
  moves : Moves t s r.2
  session : ∀ ctx, r.1 = some ctx → Session t ctx r.2

section CreateStep

variable {s s' : World Ω × Ledger}

theorem CreateStep.kept {r : Option ShdCtx × (World Ω × Ledger)} (hk : Kept K s s')
    (hr : CreateStep K t s' r) : CreateStep K t s r where
  accounted := hr.accounted
  moves := hk.quiet.moves.trans hr.moves
  session := hr.session

theorem exec_createError_step (ha : Accounted K s) (inst : Nat) (ret : Int)
    (ctx : Option CtxAllocs) :
    CreateStep K t s (exec (ledgered B) t (createError inst ret ctx) s) := by
  obtain ⟨hnone, hk⟩ := exec_kept (B := B) (K := K) (t := t)
    (createError_offSection inst ret ctx) ha.good
  exact ⟨hk.quiet.accounted ha, hk.quiet.moves, fun c hc => absurd (hnone.symm.trans hc) (by simp)⟩

/-- After the writes of a creation there is no index, and the epoch is a new one. -/
theorem exec_createPublish_step (ha : Accounted K s) (hs : SafeHdr h)
    (ho : ∃ inst, K.owned inst s.1.os) (mdata : List UInt8) (first : Bool) {s' : World Ω × Ledger}
    (hs' : s' = (exec (ledgered B) t
      (createPublish (getMmap (getOffsets lp64 h)) (descOf h) h mdata first) s).2) :
    Accounted K s' ∧ Moves t s s' ∧ 0 < s'.2.epoch := by
  obtain ⟨inst, hinst⟩ := ho
  obtain ⟨m, hw, hhdr, hidx⟩ := exec_createPublish_hdr (B := B) (t := t) hs mdata first s.1
  have hl : s'.2 = s.2.next := hs' ▸ exec_createPublish_ledger hs mdata first s
  have hworld : s'.1 = { s.1 with mem := m } := by
    rw [hs', ← hw]
    exact (Prod.ext_iff.mp (ghost_exec (machine B) note t _ s)).2
  refine ⟨⟨?_, ?_, ?_, ?_, ?_, ?_⟩, ⟨?_, ?_, ?_, ?_⟩, ?_⟩
  · rw [hworld]
    exact K.write _ _ _ inst hinst ha.good
  · rw [hworld]
    exact fun _ => ⟨inst, hinst⟩
  · rw [hl]
    exact fun u => (ha.sessions u).trans (Nat.le_succ _)
  · rw [hworld]
    exact fun _ => hhdr.symm ▸ hs
  · rw [hl]
    exact fun a hmem => absurd hmem List.not_mem_nil
  · rw [hworld]
    exact fun _ => Or.inl hidx
  · rw [hl]
    exact Nat.le_succ _
  · rw [hl]
    exact fun _ _ => rfl
  · rw [hl]
    exact fun he => absurd he (Nat.succ_ne_self _)
  · rw [hl]
    exact fun he => absurd he (Nat.succ_ne_self _)
  · rw [hl]
    exact Nat.succ_pos _

theorem exec_createWith_step (ha : Accounted K s) (hs : SafeHdr h)
    (ho : ∃ inst, K.owned inst s.1.os) (mdata : List UInt8) (env : Option String)
    (c : CreateResult) {m : CtxMmap}
    (hm : ∀ q, m.parts = some q → q = (getMmap (getOffsets lp64 h), descOf h)) :
    CreateStep K t s (exec (ledgered B) t (createWith h mdata env c m) s) := by
  unfold createWith
  split
  · rename_i a map desc _ hparts
    obtain ⟨rfl, rfl⟩ := Prod.ext_iff.mp (hm _ hparts)
    rw [exec_bind]
    obtain ⟨s₁, hs₁⟩ : ∃ s₁, s₁ = (exec (ledgered B) t (createPublish (getMmap (getOffsets lp64 h))
      (descOf h) h mdata c.firstCreation) s).2 := ⟨_, rfl⟩
    obtain ⟨ha₁, hm₁, hbegun⟩ := exec_createPublish_step ha hs ho mdata c.firstCreation hs₁
    rw [← hs₁]
    have herror : ∀ ret s₂, Kept K s₁ s₂ →
        CreateStep K t s (exec (ledgered B) t (createError c.inst ret (some a)) s₂) := by
      intro ret s₂ hk
      have he := exec_createError_step (t := t) (hk.quiet.accounted ha₁) c.inst ret (some a)
      exact ⟨he.accounted, hm₁.trans (hk.quiet.moves.trans he.moves), he.session⟩
    split
    · exact herror _ s₁ (Kept.refl ha₁.good)
    · have hunlock : (sectionUnlock c.inst).Ensures (fun _ _ => True) OffSection fun _ => True :=
        ⟨trivial, fun _ _ => trivial⟩
      obtain ⟨-, hk⟩ := exec_kept (B := B) (K := K) (t := t) hunlock ha₁.good
      rw [exec_bind]
      split
      · exact herror _ _ hk
      · refine ⟨hk.quiet.accounted ha₁, hm₁.trans hk.quiet.moves, fun ctx hctx => ?_⟩
        obtain rfl := Option.some.inj hctx
        exact ⟨rfl, lt_of_lt_of_le hbegun (hk.quiet.moves (t := t)).epoch, fun hne => absurd rfl hne,
          fun hne => absurd rfl hne⟩
  · exact exec_createError_step ha _ _ _

/-- **A creation keeps the account**, whether it succeeds or not. -/
theorem exec_create_step (ha : Accounted K s) (hs : SafeHdr h) (name : String)
    (mdata : List UInt8) (env : Option String) :
    CreateStep K t s (exec (ledgered B) t (create name h mdata env) s) := by
  rw [create_eq, exec_bind]
  obtain ⟨hk₁, howned⟩ := exec_sectionCreate_kept (B := B) (K := K) (t := t) ha.good name
    (whole_sectionSize hs)
  generalize exec (ledgered B) t (sectionCreate name (sectionGetTotalSize lp64 h)) s = r
    at hk₁ howned ⊢
  obtain ⟨c, s₁⟩ := r
  have ha₁ := hk₁.quiet.accounted ha
  refine CreateStep.kept hk₁ ?_
  dsimp only
  split
  · exact exec_createError_step ha₁ _ _ _
  rename_i hret
  have ho₁ := howned (not_lt.mp hret)
  have hlock : (sectionLock c.inst).Ensures (fun _ _ => True) OffSection fun _ => True :=
    ⟨trivial, fun _ _ => trivial⟩
  obtain ⟨-, hk₂⟩ := exec_kept (B := B) (K := K) (t := t) hlock ha₁.good
  rw [exec_bind]
  generalize exec (ledgered B) t (sectionLock c.inst) s₁ = r at hk₂ ⊢
  obtain ⟨ret, s₂⟩ := r
  have ha₂ := hk₂.quiet.accounted ha₁
  refine CreateStep.kept hk₂ ?_
  dsimp only
  split
  · exact exec_createError_step ha₂ _ _ _
  have hk₃ := exec_sectionResize_kept (B := B) (t := t) ha₂.good (hk₂.owned _ ho₁)
  have ho₂ := hk₂.owned _ ho₁
  rw [exec_bind]
  generalize exec (ledgered B) t (sectionResize c.inst) s₂ = r at hk₃ ⊢
  obtain ⟨resized, s₃⟩ := r
  have ha₃ := hk₃.quiet.accounted ha₂
  refine CreateStep.kept hk₃ ?_
  dsimp only
  split
  · exact exec_createError_step ha₃ _ _ _
  obtain ⟨-, hk₄⟩ := exec_kept (B := B) (K := K) (t := t) (ctxNew_offSection c.inst) ha₃.good
  rw [createRest, exec_bind]
  generalize exec (ledgered B) t (ctxNew c.inst) s₃ = r at hk₄ ⊢
  obtain ⟨ctx, s₄⟩ := r
  have ha₄ := hk₄.quiet.accounted ha₃
  refine CreateStep.kept hk₄ ?_
  dsimp only
  obtain ⟨hparts, hk₅⟩ := exec_kept (B := B) (K := K) (t := t) (ctxMmap_parts c.inst ctx h) ha₄.good
  rw [exec_bind]
  generalize exec (ledgered B) t (ctxMmap c.inst ctx (some h)) s₄ = r at hparts hk₅ ⊢
  obtain ⟨m, s₅⟩ := r
  refine CreateStep.kept hk₅ (exec_createWith_step (hk₅.quiet.accounted ha₄) hs ⟨c.inst, ?_⟩ mdata env c ?_)
  · exact hk₅.owned _ (hk₄.owned _ (hk₃.owned _ ho₂))
  · rintro ⟨map, desc⟩ hq
    obtain ⟨rfl, rfl⟩ := hparts map desc hq
    exact congrArg _ (desc_of_safe hs)

end CreateStep

end Shdata.Revision
