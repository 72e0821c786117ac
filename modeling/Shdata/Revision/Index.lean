/-
Shdata.Revision.Index — the published index, for any number of producers
and creations.

`Scene` is a section and the contexts of its creations. Each call is one step,
and a context may be one of an earlier creation: the library does not refuse its
calls. `index_committed` says that the published index is `-1` or one
that was reserved and committed since the latest creation, in every run whose
calls meet `SceneCall.Ok`:

* a reservation is made by a context whose layout is that of the section, and
  not on a counter that it would raise to `-1`;
* a quantity is written by such a context;
* a commit ends a session that was started after the latest creation.

`index_stale` is a run with a commit that does not.
-/
import Shdata.Producer.Failed
import Shdata.Revision.Ledger

namespace Shdata.Revision

open Shdata.Conc Shdata.Bytes Shdata.Core Shdata.Ring Shdata.Layout Shdata.Solo Shdata.Producer

variable {Ω : Type} {B : Backend Ω} {K : B.Stable} {t u : Nat} {ctx : ShdCtx}
  {s s' : World Ω × Ledger}

/-! ## Programs that the ledger does not record -/

theorem exec_unnoted {α : Type} {p : ShdProg α} (hp : p.AllOps Unnoted) (s : World Ω × Ledger) :
    exec (ledgered B) t p s
      = ((exec (machine B) t p s.1).1, ((exec (machine B) t p s.1).2, s.2)) := by
  have hghost := ghost_exec (machine B) note t p s
  have hledger : (exec (ledgered B) t p s).2.2 = s.2 :=
    exec_inv (ledgered B) t (I := fun s' => s'.2 = s.2)
      (fun o s' ho hl => (note_unnoted ho s'.1 _ _).trans hl) hp rfl
  obtain ⟨hval, hw⟩ := Prod.ext_iff.mp hghost
  exact Prod.ext hval (Prod.ext hw hledger)

/-! ## What a call leaves -/

/-- What a call of context `t` leaves, from a section that is accounted for. -/
structure CallStep (K : B.Stable) (t : Nat) (s : World Ω × Ledger)
    (r : (Int × ShdCtx) × (World Ω × Ledger)) : Prop where
  accounted : Accounted K r.2
  moves : Moves t s r.2
  session : Session t r.1.2 r.2

/-- A session outlives a step that is not recorded. -/
theorem Session.quiet (hc : Session t ctx s) (hq : Quiet K s s') : Session t ctx s' where
  sync := hc.sync
  begun := by rw [hq.ledger]; exact hc.begun
  index := hc.index
  reserved := by
    rw [hq.ledger, hq.desc]
    exact hc.reserved

theorem CallStep.of_quiet {r : (Int × ShdCtx) × (World Ω × Ledger)} (ha : Accounted K s)
    (hc : Session t r.1.2 s) (hq : Quiet K s r.2) : CallStep K t s r :=
  ⟨hq.accounted ha, hq.moves, hc.quiet hq⟩

/-- One more step after a call. -/
theorem CallStep.quiet {r r' : (Int × ShdCtx) × (World Ω × Ledger)} (h : CallStep K t s r)
    (hctx : r'.1.2 = r.1.2) (hq : Quiet K r.2 r'.2) : CallStep K t s r' where
  accounted := hq.accounted h.accounted
  moves := h.moves.trans hq.moves
  session := by
    rw [hctx]
    exact h.session.quiet hq

/-- A write that spares the header, the index and the counters. -/
theorem quiet_write (ha : Accounted K s) (hb : 0 < s.2.epoch) {a : Int} {src : List UInt8}
    (hhdr : 48 ≤ a) (hcnt : ∀ i, IsSlot (descAt s.1.mem).nbSamples i →
      slot (descAt s.1.mem) i + 36 ≤ a ∨ a + src.length ≤ slot (descAt s.1.mem) i + 32) :
    Quiet K s ({ s.1 with mem := s.1.mem.write a src }, s.2) where
  good := by
    obtain ⟨inst, ho⟩ := ha.owned hb
    exact K.write _ _ _ inst ho ha.good
  owned := fun _ => id
  ledger := rfl
  hdr := congrArg decHdrUserInfo (Mem.read_write_disjoint (Or.inl (by push_cast; omega)))
  index := Mem.i32_write_disjoint (Or.inl (by omega))
  counters := by
    intro i hi hne
    have hkeep : nbWrites (descAt s.1.mem) (s.1.mem.write a src) i
        = nbWrites (descAt s.1.mem) s.1.mem i :=
      Mem.i32_write_disjoint (by have := hcnt i hi; omega)
    rw [hkeep]
    exact hne

/-- The layout of a section that has slots is sound. -/
theorem Accounted.soundDesc (ha : Accounted K s) (hb : 0 < s.2.epoch) {i : Int}
    (hi : IsSlot (descAt s.1.mem).nbSamples i) : SoundDesc (descAt s.1.mem) :=
  soundDesc_of_fits ((ha.safe hb).fitsHdr (lt_of_le_of_lt hi.nonneg hi.lt))

/-- Raising the counter of ongoing writes. -/
theorem quiet_raised (ha : Accounted K s) (hb : 0 < s.2.epoch) : Quiet K s (raised s.1, s.2) := by
  refine quiet_write ha hb (le_refl 48) fun i hi => Or.inr ?_
  have hslot := (slot_bounds (ha.soundDesc hb hi) hi).1
  rw [length_encI32]
  push_cast
  omega

/-- A copy to a slot, beside its counter. -/
theorem quiet_sample (ha : Accounted K s) (hb : 0 < s.2.epoch) {i a : Int} {src : List UInt8}
    (hi : IsSlot (descAt s.1.mem).nbSamples i) (h0 : slot (descAt s.1.mem) i ≤ a)
    (h1 : a + src.length ≤ slot (descAt s.1.mem) i + stride (descAt s.1.mem))
    (hcnt : slot (descAt s.1.mem) i + 36 ≤ a ∨ a + src.length ≤ slot (descAt s.1.mem) i + 32) :
    Quiet K s ({ s.1 with mem := s.1.mem.write a src }, s.2) := by
  have hd := ha.soundDesc hb hi
  have hslot := (slot_bounds hd hi).1
  refine quiet_write ha hb (by omega) fun j _ => ?_
  by_cases hij : i = j
  · exact hij ▸ hcnt
  · have hdisj := slot_disjoint hd hij
    have hst := hd.stride_pos
    omega

/-! ## Reservations -/

/-- An attempt to start a sample goes through. -/
def Reserves (ctx : ShdCtx) (m : Mem) : Prop := nbOngoing m = 0 ∧ ctx.syncCtx.index = -1

/-- The layout of the context is that of the section, and the counter of its next slot
is not one below `-1`. -/
structure Reservable (ctx : ShdCtx) (m : Mem) : Prop where
  desc : ctx.desc = descAt m
  pos : 0 < (descAt m).nbSamples
  counter : nbWrites (descAt m) m (indexNext (writeIndex m) (descAt m).nbSamples) ≠ -2

theorem startWriteSession_unnoted (sync : SyncCtx) (hdr : Int) :
    (syncStartWriteSession sync hdr).AllOps Unnoted := by
  refine Prog.ensures_perform trivial fun n _ => ?_
  split
  · split <;> exact trivial
  · exact trivial

/-- An attempt that does not go through only raises the counter of ongoing writes. -/
theorem exec_reserveWrite_not (hsync : ctx.sectMmap.syncTop = 40)
    (hno : ¬ Reserves ctx s.1.mem) : ∃ code < 0,
      exec (ledgered B) t (dataReserveWrite ctx) s = ((code, ctx), (raised s.1, s.2)) := by
  rw [dataReserveWrite, hsync, exec_bind, exec_unnoted (startWriteSession_unnoted _ _),
    exec_startWriteSession]
  by_cases h0 : nbOngoing s.1.mem = 0
  · have hidx : ctx.syncCtx.index ≠ -1 := fun h => hno ⟨h0, h⟩
    refine ⟨-EALREADY, by decide, ?_⟩
    rw [if_pos h0]
    change exec (ledgered B) t (do
      let r ← syncStartSampleWrite ctx.syncCtx 40 _ ctx.desc
      return (r.1, { ctx with syncCtx := r.2 })) (raised s.1, s.2) = _
    rw [exec_bind, syncStartSampleWrite, if_pos hidx]
    rfl
  · rw [if_neg h0]
    split
    · exact ⟨-EALREADY, by decide, rfl⟩
    · exact ⟨-EPERM, by decide, rfl⟩

/-- The ledger after a reservation. -/
def Ledger.reserve (t : Nat) (a : Int) (γ : Ledger) : Ledger :=
  { γ with reserved := a :: γ.reserved, session := Function.update γ.session t γ.epoch }

/-- An attempt that goes through takes the next slot. -/
theorem exec_reserveWrite_ledger {d : DataSectionDesc} (hd : SoundDesc d) (hctx : CtxFor d ctx)
    (hres : Reserves ctx s.1.mem) {i : Int}
    (hidx : i = indexNext (writeIndex s.1.mem) d.nbSamples) :
    exec (ledgered B) t (dataReserveWrite ctx) s =
      ((startCode d.nbSamples ctx.syncCtx.prevIndex i, holding ctx i),
        (bumped d i (raised s.1), s.2.reserve t (slot d i + 32))) := by
  obtain ⟨h0, hno⟩ := hres
  have hworld := exec_reserveWrite (B := B) (t := t) hd hctx h0 hidx
  rw [if_neg (by simp [hno])] at hworld
  have hghost := ghost_exec (machine B) note t (dataReserveWrite ctx) s
  rw [hworld] at hghost
  obtain ⟨hval, hw⟩ := Prod.ext_iff.mp hghost
  refine Prod.ext hval (Prod.ext hw ?_)
  -- the ledger: only the raise of the slot's counter is recorded
  obtain rfl := hctx.desc
  have hi : IsSlot ctx.desc.nbSamples i := hidx ▸ isSlot_indexNext hd.size _
  have hnext : writeIndex (raised s.1).mem = writeIndex s.1.mem :=
    Mem.i32_write_disjoint (by rw [length_encI32]; omega)
  rw [← hnext] at hidx
  rw [dataReserveWrite, hctx.sync, exec_bind, exec_unnoted (startWriteSession_unnoted _ _),
    exec_startWriteSession, if_pos h0]
  change (exec (ledgered B) t (do
    let r ← syncStartSampleWrite ctx.syncCtx 40
      (dataGetSamplePtr ctx.desc (indexNext (writeIndex (raised s.1).mem) ctx.desc.nbSamples)) ctx.desc
    return (r.1, { ctx with syncCtx := r.2 })) (raised s.1, s.2)).2.2 = _
  rw [← hidx, dataGetSamplePtr_eq hd hi, exec_bind, syncStartSampleWrite, nbWritesPtr_slot hd hi,
    if_neg (by simp [hno]), exec_bind]
  rw [exec_bind]
  dsimp only
  split <;> rfl

/-- The state after a reservation is accounted for. -/
theorem bumped_step (ha : Accounted K s) (hb : 0 < s.2.epoch) {i : Int}
    (hi : IsSlot (descAt s.1.mem).nbSamples i)
    (hne : nbWrites (descAt s.1.mem) s.1.mem i ≠ -2) (hdesc : ctx.desc = descAt s.1.mem)
    (hsync : ctx.sectMmap.syncTop = 40) (code : Int) :
    CallStep K t s ((code, holding ctx i), (bumped (descAt s.1.mem) i s.1,
      s.2.reserve t (slot (descAt s.1.mem) i + 32))) := by
  have hd := ha.soundDesc hb hi
  have hslot := (slot_bounds hd hi).1
  have hlen := length_encI32 (nbWrites (descAt s.1.mem) s.1.mem i + 1)
  have hhdr : hdrAt (bumped (descAt s.1.mem) i s.1).mem = hdrAt s.1.mem :=
    congrArg decHdrUserInfo (Mem.read_write_disjoint (Or.inl (by push_cast; omega)))
  have hd' : descAt (bumped (descAt s.1.mem) i s.1).mem = descAt s.1.mem := congrArg descOf hhdr
  have hidx : writeIndex (bumped (descAt s.1.mem) i s.1).mem = writeIndex s.1.mem :=
    Mem.i32_write_disjoint (Or.inl (by omega))
  -- the counter of the slot does not become `-1`, the others are not touched
  have hcnt : ∀ j, IsSlot (descAt s.1.mem).nbSamples j →
      (i = j ∨ nbWrites (descAt s.1.mem) s.1.mem j ≠ -1) →
      nbWrites (descAt s.1.mem) (bumped (descAt s.1.mem) i s.1).mem j ≠ -1 := by
    intro j _ hj
    by_cases hij : i = j
    · subst hij
      have hI : IsI32 (nbWrites (descAt s.1.mem) s.1.mem i) := Mem.isI32_i32 _ _
      rw [nbWrites, bumped, Mem.i32_write_same]
      intro heq
      have hto : toI32 (nbWrites (descAt s.1.mem) s.1.mem i + 1) = toI32 (-1) :=
        heq.trans decI32_minus_one.symm
      rw [toI32_eq_iff] at hto
      unfold IsI32 at hI
      omega
    · have hdisj := slot_disjoint hd hij
      have hst := hd.stride_pos
      have hkeep : nbWrites (descAt s.1.mem) (bumped (descAt s.1.mem) i s.1).mem j
          = nbWrites (descAt s.1.mem) s.1.mem j := Mem.i32_write_disjoint (by omega)
      rw [hkeep]
      exact hj.resolve_left hij
  refine ⟨⟨?_, ha.owned, ?_, ?_, ?_, ?_⟩, ⟨le_refl _, ?_, fun _ => hhdr, ?_⟩, ?_⟩
  · obtain ⟨inst, ho⟩ := ha.owned hb
    exact K.write _ _ _ inst ho ha.good
  · intro u
    by_cases hu : u = t
    · subst hu
      exact le_of_eq (Function.update_self _ _ _)
    · exact (le_of_eq (Function.update_of_ne hu _ _)).trans (ha.sessions u)
  · rw [hhdr]
    exact ha.safe
  · intro a hmem
    rw [hd']
    rcases List.mem_cons.mp hmem with rfl | hmem
    · exact ⟨hcnt i hi (Or.inl rfl), i, hi, rfl⟩
    · obtain ⟨hne', j, hj, rfl⟩ := ha.counters a hmem
      exact ⟨hcnt j hj (Or.inr hne'), j, hj, rfl⟩
  · rw [hidx]
    refine fun he => (ha.index he).imp id fun hc => ⟨?_, ?_, hc.committed⟩
    · rw [hd']
      exact hc.isSlot
    · rw [hd']
      exact List.mem_cons_of_mem _ hc.reserved
  · exact fun u hu => Function.update_of_ne hu _ _
  · exact fun _ a hmem => List.mem_cons_of_mem _ hmem
  · refine ⟨hsync, hb, fun _ => ?_, fun _ _ => ?_⟩
    · show IsSlot ctx.desc.nbSamples i
      rwa [hdesc]
    · rw [hd']
      exact ⟨hdesc, by rw [← hdesc]; exact List.mem_cons_self⟩

/-! ## Copies to the sample in progress -/

/-- A copy to the sample of an index. -/
theorem exec_sampleWrite_ledger {site : Site} (hsite : ∀ a src, Unnoted (.write site a src))
    (desc : DataSectionDesc) (i off : Int) (src : List UInt8) (s : World Ω × Ledger) :
    exec (ledgered B) t (getSamplePtr desc i >>= fun p => sampleWrite site p off src) s
      = (0, ({ s.1 with mem := s.1.mem.write (toU64 (dataGetSamplePtr desc i + off)) src },
          s.2)) := by
  have hops : (getSamplePtr desc i >>= fun p => sampleWrite site p off src).AllOps Unnoted :=
    ⟨trivial, fun _ _ => ⟨hsite _ _, fun _ _ => trivial⟩⟩
  exact exec_unnoted hops s

/-- It spares the counter of the sample. -/
theorem exec_sampleWrite_step (ha : Accounted K s) (hc : Session t ctx s)
    (hidx : ctx.syncCtx.index ≠ -1) (hdesc : ctx.desc = descAt s.1.mem) (site : Site)
    (hsite : ∀ a src, Unnoted (.write site a src)) (off : Int) (src : List UInt8) (h0 : 0 ≤ off)
    (h1 : off + src.length ≤ 32 ∨ 40 ≤ off ∧ off + src.length ≤ 40 + ctx.desc.blobSize) :
    ∃ s', exec (ledgered B) t
        (getSamplePtr ctx.desc ctx.syncCtx.index >>= fun p => sampleWrite site p off src) s = (0, s') ∧
      Quiet K s s' := by
  have hi : IsSlot (descAt s.1.mem).nbSamples ctx.syncCtx.index := hdesc ▸ hc.index hidx
  have hd := ha.soundDesc hc.begun hi
  have hb := slot_bounds hd hi
  have hge := hd.stride_ge
  have hblob := hd.blob
  rw [hdesc] at h1 ⊢
  refine ⟨_, exec_sampleWrite_ledger hsite _ _ _ _ _, ?_⟩
  rw [dataGetSamplePtr_eq hd hi, toU64_of_bounds (by omega) (by omega)]
  exact quiet_sample ha hc.begun hi (by omega) (by omega) (by omega)

theorem exec_writeQuantity_step (ha : Accounted K s) (hc : Session t ctx s)
    (hok : ctx.syncCtx.index ≠ -1 → ctx.desc = descAt s.1.mem) {q : Quantity}
    (hq : Producer.InBounds ctx.desc q) (src : List UInt8) :
    ∃ ret s', exec (ledgered B) t (writeQuantity ctx q src) s = (ret, s') ∧ Quiet K s s' := by
  rw [writeQuantity, dataWriteQuantity, syncGetLocalWriteIndex]
  by_cases hidx : ctx.syncCtx.index = -1
  · exact ⟨-EPERM, s, by rw [if_pos hidx]; rfl, ha.good, fun _ => id, rfl, rfl, rfl, fun _ _ => id⟩
  · rw [if_neg hidx]
    obtain ⟨h0, h1⟩ := hq
    obtain ⟨s', hex, hquiet⟩ := exec_sampleWrite_step (B := B) ha hc hidx (hok hidx)
      .dataWriteQuantity (fun _ _ => trivial) (40 + q.quantityOffset)
      (src.take q.quantitySize) (by omega) (Or.inr ⟨by omega, by
        rw [List.length_take]
        omega⟩)
    exact ⟨0, s', hex, hquiet⟩

/-! ## The calls -/

/-- `shd_data_reserve_write`. -/
theorem exec_reserveWrite_step (ha : Accounted K s) (hc : Session t ctx s)
    (hres : Reserves ctx s.1.mem) (hok : Reservable ctx s.1.mem) : ∃ i s' code,
      exec (ledgered B) t (dataReserveWrite ctx) s = ((code, holding ctx i), s') ∧
      (code = 0 ∨ code = -EFAULT) ∧ i ≠ -1 ∧ ctx.desc = descAt s'.1.mem ∧
      s'.2.session t = s'.2.epoch ∧ CallStep K t s ((code, holding ctx i), s') := by
  obtain ⟨hdesc, hpos, hcounter⟩ := hok
  obtain ⟨i, hidx⟩ : ∃ i, i = indexNext (writeIndex s.1.mem) (descAt s.1.mem).nbSamples := ⟨_, rfl⟩
  have hd : SoundDesc (descAt s.1.mem) := soundDesc_of_fits ((ha.safe hc.begun).fitsHdr hpos)
  have hi : IsSlot (descAt s.1.mem).nbSamples i := hidx ▸ isSlot_indexNext hd.size _
  have hq := quiet_raised ha hc.begun
  have hkeep : nbWrites (descAt s.1.mem) (raised s.1).mem i = nbWrites (descAt s.1.mem) s.1.mem i :=
    Mem.i32_write_disjoint (by
      have := (slot_bounds hd hi).1
      rw [length_encI32]
      omega)
  have hbump := bumped_step (t := t) (hq.accounted ha) (hc.quiet hq).begun (i := i)
    (by rw [hq.desc]; exact hi) (by rw [hq.desc, hkeep, hidx]; exact hcounter)
    (hdesc.trans hq.desc.symm) hc.sync (startCode (descAt s.1.mem).nbSamples ctx.syncCtx.prevIndex i)
  rw [hq.desc] at hbump
  refine ⟨i, _, _, exec_reserveWrite_ledger hd ⟨hdesc, hc.sync⟩ hres hidx, startCode_cases _ _ _, ?_,
    ?_, Function.update_self _ _ _, hbump.accounted, hq.moves.trans hbump.moves, hbump.session⟩
  · have := hi.nonneg
    omega
  · rw [hdesc, ← hq.desc]
    exact (congrArg descOf (hbump.moves.hdr rfl)).symm

/-- `shd_new_sample`. A success leaves a sample of this epoch in progress. -/
theorem exec_newSample_step (ha : Accounted K s) (hc : Session t ctx s)
    (hok : Reserves ctx s.1.mem → Reservable ctx s.1.mem) (metadata : SampleMetadata) :
    CallStep K t s (exec (ledgered B) t (newSample ctx metadata) s) ∧
      (0 ≤ (exec (ledgered B) t (newSample ctx metadata) s).1.1 →
        (exec (ledgered B) t (newSample ctx metadata) s).1.2.desc = ctx.desc ∧
          (exec (ledgered B) t (newSample ctx metadata) s).2.2.session t
            = (exec (ledgered B) t (newSample ctx metadata) s).2.2.epoch) := by
  by_cases hres : Reserves ctx s.1.mem
  · obtain ⟨i, s', code, hex, hcode, hne, hdesc, hsess, hstep⟩ :=
      exec_reserveWrite_step (B := B) ha hc hres (hok hres)
    rcases hcode with rfl | rfl
    · -- the metadata of the new sample
      obtain ⟨s'', hwrite, hquiet⟩ := exec_sampleWrite_step (B := B) (t := t) hstep.accounted
        hstep.session hne hdesc .dataWriteMetadata (fun _ _ => trivial) 0 (encMetadata metadata)
        (le_refl 0) (Or.inl (by rw [length_encMetadata]; decide))
      dsimp only at hwrite hquiet
      rw [newSample, exec_bind, hex]
      dsimp only
      rw [if_neg (show ¬ (0 : Int) < 0 by decide), exec_bind, dataWriteMetadata,
        syncGetLocalWriteIndex, if_neg (show ¬ (holding ctx i).syncCtx.index = -1 from hne), hwrite]
      refine ⟨hstep.quiet rfl hquiet, fun _ => ⟨rfl, ?_⟩⟩
      dsimp only
      rw [exec_pure, hquiet.ledger]
      exact hsess
    · rw [exec_newSample_failed hex (show -EFAULT < 0 by decide) metadata]
      exact ⟨hstep, fun h => absurd h (show ¬ (0 : Int) ≤ -EFAULT by decide)⟩
  · obtain ⟨code, hneg, hex⟩ := exec_reserveWrite_not (B := B) (t := t) hc.sync hres
    rw [exec_newSample_failed hex hneg metadata]
    exact ⟨CallStep.of_quiet ha hc (quiet_raised ha hc.begun), fun h => absurd hneg (not_lt.mpr h)⟩

/-- `shd_commit_sample`. -/
theorem exec_commitSample_step (ha : Accounted K s) (hc : Session t ctx s)
    (hok : ctx.syncCtx.index ≠ -1 → s.2.session t = s.2.epoch) :
    CallStep K t s (exec (ledgered B) t (commitSample ctx) s) := by
  rw [commitSample, dataEndWrite, syncGetLocalWriteIndex]
  by_cases hidx : ctx.syncCtx.index = -1
  · rw [if_pos hidx]
    exact CallStep.of_quiet ha hc ⟨ha.good, fun _ => id, rfl, rfl, rfl, fun _ _ => id⟩
  rw [if_neg hidx, hc.sync]
  obtain ⟨hdesc, hres⟩ := hc.reserved hidx (hok hidx)
  have hi := hc.index hidx
  rw [hdesc] at hi hres
  have hd := ha.soundDesc hc.begun hi
  obtain ⟨m, hm⟩ : ∃ m, m = (s.1.mem.write 44 (encI32 ctx.syncCtx.index)).write 48 (encI32 0) :=
    ⟨_, rfl⟩
  have hto : toI32 ctx.syncCtx.index = ctx.syncCtx.index := hi.isI32 hd.size
  have hdec : decI32 (encI32 ctx.syncCtx.index) = ctx.syncCtx.index :=
    (decI32_encI32 _).trans hto
  change CallStep K t s ((0, released ctx), ({ s.1 with
    mem := (s.1.mem.write 44 (encI32 ctx.syncCtx.index)).write 48 (encI32 0) },
    { s.2 with committed := decI32 (encI32 ctx.syncCtx.index) :: s.2.committed }))
  rw [← hm, hdec]
  have hindex : writeIndex m = ctx.syncCtx.index := by
    rw [hm, writeIndex, Mem.i32_write_disjoint (by omega), Mem.i32_write_same, hto]
  have hsame : ∀ x, x < 44 ∨ 52 ≤ x → m x = s.1.mem x := by
    intro x hx
    rw [hm, Mem.write_of_not_mem (by rw [length_encI32]; omega),
      Mem.write_of_not_mem (by rw [length_encI32]; omega)]
  have hhdr : hdrAt m = hdrAt s.1.mem :=
    congrArg decHdrUserInfo (Mem.read_congr fun x _ h1 => hsame x (Or.inl (by omega)))
  have hd' : descAt m = descAt s.1.mem := congrArg descOf hhdr
  refine ⟨⟨?_, ha.owned, ha.sessions, ?_, ?_, ?_⟩,
    ⟨le_refl _, fun _ _ => rfl, fun _ => hhdr, fun _ _ => id⟩, ?_⟩
  · obtain ⟨inst, ho⟩ := ha.owned hc.begun
    exact K.write _ _ _ inst ho ha.good
  · rw [hhdr]
    exact ha.safe
  · intro a hmem
    obtain ⟨hne, j, hj, rfl⟩ := ha.counters a hmem
    have hb := (slot_bounds hd hj).1
    rw [hd']
    refine ⟨?_, j, hj, rfl⟩
    rwa [Mem.i32_congr fun x h0 _ => hsame x (Or.inr (by omega))]
  · rw [hindex]
    refine fun _ => Or.inr ⟨?_, ?_, List.mem_cons_self⟩
    · rwa [hd']
    · rwa [hd']
  · exact ⟨hc.sync, hc.begun, fun hne => absurd rfl hne, fun hne => absurd rfl hne⟩

/-- `shd_write_new_blob`: the copy and the commit follow a reservation of this epoch. -/
theorem exec_writeNewBlob_step (ha : Accounted K s) (hc : Session t ctx s)
    (hok : Reserves ctx s.1.mem → Reservable ctx s.1.mem) (src : List UInt8) {size : Nat}
    (hsize : (size : Int) ≤ ctx.desc.blobSize) (metadata : SampleMetadata) :
    CallStep K t s (exec (ledgered B) t (writeNewBlob ctx src size metadata) s) := by
  obtain ⟨hnew, hfresh⟩ := exec_newSample_step (B := B) ha hc hok metadata
  by_cases hneg : (exec (ledgered B) t (newSample ctx metadata) s).1.1 < 0
  · rw [exec_writeNewBlob_refused src size metadata hneg]
    exact hnew
  obtain ⟨hdesc, hsess⟩ := hfresh (not_lt.mp hneg)
  rw [writeNewBlob, exec_bind, if_neg hneg]
  generalize exec (ledgered B) t (newSample ctx metadata) s = r at hnew hdesc hsess hneg ⊢
  obtain ⟨⟨ret, ctx'⟩, s'⟩ := r
  have hq : Producer.InBounds ctx'.desc ⟨0, size⟩ :=
    ⟨le_refl 0, by rw [hdesc]; show (0 : Int) + size ≤ _; omega⟩
  obtain ⟨ret', s'', hex, hquiet⟩ := exec_writeQuantity_step (B := B) hnew.accounted hnew.session
    (fun hne => (hnew.session.reserved hne hsess).1) hq src
  dsimp only at hex hsess ⊢
  have hwritten : CallStep K t s ((ret', ctx'), s'') := hnew.quiet rfl hquiet
  rw [exec_bind, hex]
  split
  · exact hwritten
  · have hcommit := exec_commitSample_step (B := B) hwritten.accounted hwritten.session fun _ => by
      show s''.2.session t = s''.2.epoch
      rw [hquiet.ledger]
      exact hsess
    exact ⟨hcommit.accounted, hwritten.moves.trans hcommit.moves, hcommit.session⟩

/-- When a call of context `t` is made as it should. -/
def CallOk (t : Nat) (ctx : ShdCtx) (s : World Ω × Ledger) : ProdCall → Prop
  | .newSample _ | .writeNewBlob _ _ _ => Reserves ctx s.1.mem → Reservable ctx s.1.mem
  | .writeQuantity _ _ => ctx.syncCtx.index ≠ -1 → ctx.desc = descAt s.1.mem
  | .commitSample => ctx.syncCtx.index ≠ -1 → s.2.session t = s.2.epoch

/-- **A call keeps the account.** -/
theorem exec_prodCall_step (ha : Accounted K s) (hc : Session t ctx s) {c : ProdCall}
    (hin : c.InBounds ctx.desc) (hok : CallOk t ctx s c) :
    CallStep K t s (exec (ledgered B) t (prodCall ctx c) s) := by
  cases c with
  | newSample metadata => exact (exec_newSample_step ha hc hok metadata).1
  | writeQuantity q src =>
    obtain ⟨ret, s', hex, hquiet⟩ := exec_writeQuantity_step (B := B) ha hc hok hin src
    rw [prodCall, exec_bind, hex]
    exact CallStep.of_quiet ha hc hquiet
  | commitSample => exact exec_commitSample_step ha hc hok
  | writeNewBlob src size metadata => exact exec_writeNewBlob_step ha hc hok src hin metadata

/-! ## Runs of calls -/

/-- A section and the contexts that creations returned. -/
structure Scene (Ω : Type) where
  st : World Ω × Ledger
  ctxs : Nat → Option ShdCtx

inductive SceneCall where
  | create (name : String) (hdrInfo : HdrUserInfo) (mdata : List UInt8) (env : Option String)
  | prod (c : ProdCall)

def Scene.start (w : World Ω) : Scene Ω where
  st := (w, Ledger.start)
  ctxs := fun _ => none

/-- One call, by the context `t`. -/
def Scene.step (B : Backend Ω) (s : Scene Ω) (t : Nat) : SceneCall → Scene Ω
  | .create name hdrInfo mdata env =>
    let r := exec (ledgered B) t (create name hdrInfo mdata env) s.st
    { st := r.2, ctxs := Function.update s.ctxs t r.1 }
  | .prod c =>
    match s.ctxs t with
    | none => s
    | some ctx =>
      let r := exec (ledgered B) t (prodCall ctx c) s.st
      { st := r.2, ctxs := Function.update s.ctxs t (some r.1.2) }

def Scene.run (B : Backend Ω) : Scene Ω → List (Nat × SceneCall) → Scene Ω
  | s, [] => s
  | s, (t, c) :: cs => Scene.run B (s.step B t c) cs

/-- The section of a creation can be mapped, and a call is made as it should, inside
the blob. -/
def SceneCall.Ok (s : Scene Ω) (t : Nat) : SceneCall → Prop
  | .create _ hdrInfo _ _ => SafeHdr hdrInfo
  | .prod c =>
    match s.ctxs t with
    | none => True
    | some ctx => c.InBounds ctx.desc ∧ CallOk t ctx s.st c

/-- Every call of a run is made as it should in the state that it finds. -/
def Scene.Meets (B : Backend Ω) : Scene Ω → List (Nat × SceneCall) → Prop
  | _, [] => True
  | s, (t, c) :: cs => c.Ok s t ∧ Scene.Meets B (s.step B t c) cs

/-- The invariant of a run. -/
structure Scene.Sound (K : B.Stable) (s : Scene Ω) : Prop where
  accounted : Accounted K s.st
  sessions : ∀ u ctx, s.ctxs u = some ctx → Session u ctx s.st

theorem Scene.sound_start {w : World Ω} (hw : K.good (w.mem, w.os)) :
    (Scene.start w).Sound K where
  accounted :=
    { good := hw
      owned := fun h => absurd h (lt_irrefl 0)
      sessions := fun _ => le_refl 0
      safe := fun h => absurd h (lt_irrefl 0)
      counters := fun a ha => absurd ha List.not_mem_nil
      index := fun h => absurd h (lt_irrefl 0) }
  sessions := fun _ _ h => absurd h (by simp [Scene.start])

/-- Contexts that did not make the call keep their sessions. -/
theorem Scene.Sound.update {s : Scene Ω} (hs : s.Sound K) {st : World Ω × Ledger}
    {o : Option ShdCtx} (ha : Accounted K st) (hm : Moves t s.st st)
    (hc : ∀ ctx, o = some ctx → Session t ctx st) :
    Scene.Sound K ⟨st, Function.update s.ctxs t o⟩ where
  accounted := ha
  sessions := by
    intro u ctx hu
    by_cases hut : u = t
    · subst hut
      dsimp only at hu
      rw [Function.update_self] at hu
      exact hc ctx hu
    · dsimp only at hu
      rw [Function.update_of_ne hut] at hu
      exact (hs.sessions u ctx hu).moves hs.accounted hm hut

/-- One call. -/
theorem Scene.Sound.step {s : Scene Ω} (hs : s.Sound K) {c : SceneCall} (hok : c.Ok s t) :
    (s.step B t c).Sound K := by
  cases c with
  | create name hdrInfo mdata env =>
    have hstep := exec_create_step (B := B) (t := t) hs.accounted hok name mdata env
    exact hs.update hstep.accounted hstep.moves hstep.session
  | prod c =>
    unfold Scene.step
    cases hctx : s.ctxs t with
    | none => exact hs
    | some ctx =>
      unfold SceneCall.Ok at hok
      rw [hctx] at hok
      obtain ⟨hin, hcall⟩ := hok
      have hstep := exec_prodCall_step (B := B) hs.accounted (hs.sessions t ctx hctx) hin hcall
      refine hs.update hstep.accounted hstep.moves fun ctx' he => ?_
      obtain rfl := Option.some.inj he
      exact hstep.session

/-- A whole run. -/
theorem Scene.Sound.run {s : Scene Ω} (hs : s.Sound K) (cs : List (Nat × SceneCall))
    (hm : s.Meets B cs) : (s.run B cs).Sound K := by
  induction cs generalizing s with
  | nil => exact hs
  | cons c cs ih =>
    obtain ⟨t, c⟩ := c
    exact ih (hs.step hm.1) hm.2

/-- The index is `-1`, or that of a slot below the number of slots in the header that was
reserved and committed since the latest creation, and whose counter is not `-1`. -/
def Designates (s : World Ω × Ledger) : Prop :=
  writeIndex s.1.mem = -1 ∨ Committed (writeIndex s.1.mem) s ∧
    nbWrites (descAt s.1.mem) s.1.mem (writeIndex s.1.mem) ≠ -1

/-- **The published index designates a committed sample**, once a creation wrote the
section, in every state of a run whose calls are made as they should. -/
theorem index_committed (K : B.Stable) {w : World Ω} (hw : K.good (w.mem, w.os))
    (cs : List (Nat × SceneCall)) (hm : (Scene.start w).Meets B cs) :
    0 < ((Scene.start w).run B cs).st.2.epoch → Designates ((Scene.start w).run B cs).st := by
  intro hb
  have hs := (Scene.sound_start (K := K) hw).run cs hm
  refine (hs.accounted.index hb).imp id fun hc => ⟨hc, ?_⟩
  exact (hs.accounted.counters _ hc.reserved).1

instance (ctx : ShdCtx) (m : Mem) : Decidable (Reserves ctx m) :=
  inferInstanceAs (Decidable (_ ∧ _))

instance (ctx : ShdCtx) (m : Mem) : Decidable (Reservable ctx m) :=
  decidable_of_iff (ctx.desc = descAt m ∧ 0 < (descAt m).nbSamples ∧
    nbWrites (descAt m) m (indexNext (writeIndex m) (descAt m).nbSamples) ≠ -2)
    ⟨fun h => ⟨h.1, h.2.1, h.2.2⟩, fun h => ⟨h.desc, h.pos, h.counter⟩⟩

instance (t : Nat) (ctx : ShdCtx) (s : World Ω × Ledger) (c : ProdCall) :
    Decidable (CallOk t ctx s c) :=
  match c with
  | .newSample _ | .writeNewBlob _ _ _ =>
    inferInstanceAs (Decidable (Reserves ctx s.1.mem → Reservable ctx s.1.mem))
  | .writeQuantity _ _ => inferInstanceAs (Decidable (¬ _ = _ → _ = _))
  | .commitSample => inferInstanceAs (Decidable (¬ _ = _ → _ = _))

instance (h : HdrUserInfo) : Decidable (SafeHdr h) :=
  decidable_of_iff (hdrNbSamples h ≤ 2147483648 ∧ exactSize h < 18446744073709551616)
    ⟨fun hs => ⟨hs.1, hs.2⟩, fun hs => ⟨hs.small, hs.fits⟩⟩

instance (s : Scene Ω) (t : Nat) (c : SceneCall) : Decidable (c.Ok s t) := by
  unfold SceneCall.Ok
  split
  · infer_instance
  · split <;> infer_instance

instance decidableSceneMeets (B : Backend Ω) :
    (s : Scene Ω) → (cs : List (Nat × SceneCall)) → Decidable (s.Meets B cs)
  | _, [] => isTrue trivial
  | s, (t, c) :: cs =>
    have := decidableSceneMeets B (s.step B t c) cs
    inferInstanceAs (Decidable (c.Ok s t ∧ Scene.Meets B (s.step B t c) cs))

/-- A creation of a section of `n` slots of 4 bytes. -/
def creation (n : UInt32) : SceneCall := .create "section" ⟨4, n, 1, 0⟩ [] none

/-- A sample, then another creation, and a sample of its context. -/
theorem index_committed_twice :
    Designates ((Scene.start Shm.world).run shm [(0, creation 2), (0, .prod (.newSample ⟨⟨1, 0⟩, ⟨1, 0⟩⟩)),
      (0, .prod .commitSample), (1, creation 4), (1, .prod (.newSample ⟨⟨1, 0⟩, ⟨1, 0⟩⟩)),
      (1, .prod (.writeQuantity ⟨0, 4⟩ [1, 2, 3, 4])), (1, .prod .commitSample)]).st := by
  refine index_committed shmStable (fun _ _ => rfl) _ ?_ ?_ <;> decide +kernel

/-- A creation between the reservation and the commit of a context. -/
def recreated : Scene Shm :=
  (Scene.start Shm.world).run shm [(0, creation 2), (0, .prod (.newSample ⟨⟨1, 0⟩, ⟨1, 0⟩⟩)),
    (1, creation 2), (0, .prod .commitSample)]

theorem recreated_index : writeIndex recreated.st.1.mem = 0 ∧
    nbWrites (descAt recreated.st.1.mem) recreated.st.1.mem 0 = -1 := by
  decide +kernel

/-- The index is that of a slot which the new section never used. -/
theorem index_stale : 0 < recreated.st.2.epoch ∧ ¬ Designates recreated.st := by
  obtain ⟨hidx, hcnt⟩ := recreated_index
  refine ⟨by decide +kernel, ?_⟩
  rintro (hnone | ⟨-, hne⟩)
  · rw [hidx] at hnone
    exact absurd hnone (by decide)
  · rw [hidx] at hne
    exact hne hcnt

end Shdata.Revision
