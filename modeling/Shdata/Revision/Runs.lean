/-
Shdata.Revision.Runs — runs of creations and openings of one section.

Any number of threads create the section or open it, one operation at a time.
`parties_safe` composes the specifications of `Creator` and `Opener`. From it:

* `stale_detected`: the creations that ended have different revisions, and a
  revision that was obtained before a creation ended is refused after it;
* `open_coherent`: a context is that of the creation with its revision, if the
  section was left alone between the copy of the header and the last load.

Both rest on every creation finding the section as `InvalidateOk` says. A
first creation that comes late does not: `stale_undetected`.
-/
import Shdata.Revision.Opener

namespace Shdata.Revision

open Shdata.Conc Shdata.Bytes Shdata.Core Shdata.Ring Shdata.Layout Shdata.Solo

variable {Ω : Type} {B : Backend Ω} {K : B.Stable} {t : Nat} {s s' : World Ω × Log}
  {C : Nat → Op → World Ω × Log → Prop} {h : HdrUserInfo}

/-! ## Checks of a revision -/

/-- The calls that compare a revision with that of the section. -/
inductive RevCall where
  | check
  | endRead
  | readSectionHdr
  | readBlobMetadataHdr (size : Nat)

/-- What a thread returns. -/
inductive Outcome where
  | created (ctx : Option ShdCtx)
  | opened (r : Option (ShdCtx × Int))
  | checked (ret : Int)
  deriving DecidableEq

def RevCall.prog (ctx : ShdCtx) (rev : Int) : RevCall → ShdProg Outcome
  | .check => do
    let ret ← syncCheckRevisionNb rev ctx.sectMmap.syncTop
    return .checked ret
  | .endRead => do
    let r ← Core.endRead ctx rev
    return .checked r.1
  | .readSectionHdr => do
    let r ← Core.readSectionHdr ctx rev
    return .checked r.1
  | .readBlobMetadataHdr size => do
    let r ← Core.readBlobMetadataHdr ctx size rev
    return .checked r.1

/-- A harmless operation, or a load of the revision. -/
def CheckOp : Op → Prop
  | .read .checkRevisionNb a len => a = 40 ∧ len = 4
  | o => Harmless false o

/-- The revision is not `rev`. -/
def Outdated (rev : Int) : (o : Op) → o.Resp → Prop
  | .read .checkRevisionNb _ _, bs => decI32 bs ≠ rev
  | _, _ => True

theorem harmless_of_checkOp {o : Op} (ho : CheckOp o) : Harmless false o := by
  cases o with
  | read site a len => cases site <;> trivial
  | _ => exact ho

theorem syncCheckRevisionNb_outdated (rev : Int) :
    (syncCheckRevisionNb rev 40).Ensures (Outdated rev) CheckOp fun ret => ret = -ENODEV := by
  refine ensures_load32 ⟨rfl, rfl⟩ fun bs hbs => ?_
  rw [if_neg (Ne.symm hbs)]
  rfl

theorem endRead_outdated {ctx : ShdCtx} (hsync : ctx.sectMmap.syncTop = 40) (rev : Int) :
    (endRead ctx rev).Ensures (Outdated rev) CheckOp fun r => r.1 < 0 := by
  have hvalid : (dataCheckValidity ctx rev).Ensures (Outdated rev) CheckOp fun r => r.1 < 0 := by
    unfold dataCheckValidity
    split
    · refine Prog.ensures_perform trivial fun p _ => ?_
      have hend : (syncEndReadSession ctx.syncCtx p).Ensures (Outdated rev) CheckOp
          fun _ => True := by
        refine ensures_load32 trivial fun bs _ => ?_
        split <;> exact trivial
      refine hend.bind fun r _ => ?_
      dsimp only
      split
      · assumption
      · rw [hsync]
        refine (syncCheckRevisionNb_outdated rev).bind fun ret hret => ?_
        show ret < 0
        rw [hret]
        decide
    · exact show -EPERM < 0 by decide
  refine hvalid.bind fun r hr => ?_
  rw [if_pos hr]
  split
  · have hend : (dataEndRead r.2).Ensures (Outdated rev) CheckOp fun _ => True :=
      ⟨trivial, fun _ _ => trivial⟩
    exact hend.bind fun _ _ => hr
  · exact hr

theorem readSectionHdr_outdated {ctx : ShdCtx} (hsync : ctx.sectMmap.syncTop = 40) (rev : Int) :
    (readSectionHdr ctx rev).Ensures (Outdated rev) CheckOp fun r => r.1 < 0 := by
  unfold readSectionHdr
  rw [hsync]
  refine (syncCheckRevisionNb_outdated rev).bind fun ret hret => ?_
  have hneg : ret < 0 := by rw [hret]; decide
  rw [if_pos hneg]
  exact hneg

theorem readBlobMetadataHdr_outdated {ctx : ShdCtx} (hsync : ctx.sectMmap.syncTop = 40)
    (size : Nat) (rev : Int) :
    (readBlobMetadataHdr ctx size rev).Ensures (Outdated rev) CheckOp fun r => r.1 < 0 := by
  have hsize : (hdrGetMdataSize ctx.sectMmap.headerTop).Ensures (Outdated rev) CheckOp
      fun _ => True := ⟨trivial, fun _ _ => trivial⟩
  unfold readBlobMetadataHdr
  refine hsize.bind fun n _ => ?_
  split
  · exact show -ENOMEM < 0 by decide
  · rw [hsync]
    refine (syncCheckRevisionNb_outdated rev).bind fun ret hret => ?_
    have hneg : ret < 0 := by rw [hret]; decide
    rw [if_pos hneg]
    exact hneg

/-- Every call with an outdated revision fails. -/
theorem prog_outdated {ctx : ShdCtx} (hsync : ctx.sectMmap.syncTop = 40) (rev : Int)
    (call : RevCall) : (call.prog ctx rev).Ensures (Outdated rev) CheckOp
      fun r => ∃ ret, r = .checked ret ∧ ret < 0 := by
  cases call with
  | check =>
    unfold RevCall.prog
    rw [hsync]
    refine (syncCheckRevisionNb_outdated rev).bind fun ret h => ⟨ret, rfl, ?_⟩
    rw [h]
    decide
  | endRead => exact (endRead_outdated hsync rev).bind fun r h => ⟨r.1, rfl, h⟩
  | readSectionHdr => exact (readSectionHdr_outdated hsync rev).bind fun r h => ⟨r.1, rfl, h⟩
  | readBlobMetadataHdr size =>
    exact (readBlobMetadataHdr_outdated hsync size rev).bind fun r h => ⟨r.1, rfl, h⟩

/-- The same beside creations, once the section is past the revision. -/
theorem wp_prog_outdated (hs : Consistent K s) {ctx : ShdCtx}
    (hsync : ctx.sectMmap.syncTop = 40) {rev : Int} (hrev : rev < nbCreations s.1.mem)
    (call : RevCall) :
    wp (watched B) t C (Rely K t) (Guar K t) (call.prog ctx rev)
      (fun r _ => ∃ ret, r = .checked ret ∧ ret < 0) s := by
  refine wp_mono (wp_of_ensures (fun _ _ _ => Rely.trans) (prog_outdated hsync rev call)
    (Rely.refl K t s) fun o v ho hv _ => ?_) fun _ _ => And.left
  have hinv := hv.inv hs
  have hstep : ∀ u, Rely K u v ((watched B).step t o v).1 := fun u =>
    rely_harmless (harmless_of_checkOp ho) (by simp) hinv
  refine ⟨fun u _ => hstep u, hstep t, ?_⟩
  cases o with
  | read site a len =>
    cases site <;> first | trivial | skip
    obtain ⟨rfl, rfl⟩ := ho
    have hmono := hv.revision hs
    show nbCreations v.1.mem ≠ rev
    omega
  | _ => trivial

/-! ## Creators and openers -/

/-- The call that a thread makes. -/
inductive Role where
  | creator (name : String) (hdrInfo : HdrUserInfo) (mdata : List UInt8) (env : Option String)
  | opener (name : String) (env : Option String)

def Role.prog : Role → ShdProg Outcome
  | .creator name hdrInfo mdata env => do
    let p ← create name hdrInfo mdata env
    return .created p
  | .opener name env => do
    let r ← openCtx name env
    return .opened r

/-- The sections of the creators can be mapped. -/
def Role.Safe : Role → Prop
  | .creator _ hdrInfo _ _ => SafeHdr hdrInfo
  | .opener _ _ => True

def Log.start : Log where
  writer := none
  hdr := ⟨0, 0, 0, 0⟩
  ended := []
  hdrWrites := 0
  copied := fun _ => 0
  loaded := fun _ => false

def parties (w : World Ω) (roles : Nat → Role) : Config Op.Resp Nat (World Ω × Log) Outcome where
  st := (w, Log.start)
  pool := fun t => (roles t).prog

/-- A section that was not created yet. -/
structure Untouched (K : B.Stable) (w : World Ω) : Prop where
  good : K.good (w.mem, w.os)
  nonneg : 0 ≤ nbCreations w.mem
  even : nbCreations w.mem % 2 = 0
  magic : leNat (w.mem.read 0 8) ≠ SHD_MAGIC_NUMBER

theorem consistent_start {w : World Ω} (hw : Untouched K w) : Consistent K (w, Log.start) where
  good := hw.good
  coherent :=
    { nonneg := hw.nonneg
      parity := hw.even
      room := fun h => absurd h (by simp [Log.start])
      increasing := List.Pairwise.nil
      below := fun e he => absurd he List.not_mem_nil
      last := fun _ e he => absurd he (by simp [Log.start])
      magic := fun h => absurd h hw.magic }

/-- What holds of a thread that returned. -/
def Returned (D : Prop) (_ : Nat) (r : Outcome) (s : World Ω × Log) : Prop :=
  (∀ ctx rev, r = .opened (some (ctx, rev)) → OpenedAt D ctx rev s) ∧
    ∀ ret, r = .checked ret → ret < 0

/-- **The composition of all threads.** -/
theorem parties_safe {D : Prop} (hC : ∀ t o s, C t o s → InvalidateOk o s)
    (hD : D → ∀ t o s, C t o s → LoadOk t o s) {w : World Ω} (hw : Untouched K w)
    {roles : Nat → Role} (hroles : ∀ t, (roles t).Safe) :
    Pool.Safe (watched B) C (Rely K) (Guar K) (Returned D) (parties w roles) where
  trans := fun _ _ _ _ => Rely.trans
  compat := fun t u htu _ _ _ hg => hg u htu.symm
  threads := by
    intro t
    have hs := consistent_start hw
    have hrole := hroles t
    show wp _ t C (Rely K t) (Guar K t) (roles t).prog _ _
    cases hr : roles t with
    | creator name hdrInfo mdata env =>
      rw [hr] at hrole
      refine wp_bind (Rely.refl K t) (wp_mono (wp_create hC hrole hs name mdata env) ?_)
      intro p s₁ _ s₂ _
      refine ⟨fun ctx rev he => ?_, fun ret he => ?_⟩
      · cases he
      · cases he
    | opener name env =>
      refine wp_bind (Rely.refl K t) (wp_mono (wp_openCtx hD hs rfl name env) ?_)
      rintro r s₁ ⟨hinv, hopened⟩ s₂ hr₂
      refine ⟨fun ctx rev he => ?_, fun ret he => ?_⟩
      · obtain rfl : r = some (ctx, rev) := by
          cases he
          rfl
        exact (hopened ctx rev rfl).rely hinv hr₂
      · cases he

/-- The state of the log after any run. -/
theorem parties_inv {D : Prop} (hC : ∀ t o s, C t o s → InvalidateOk o s)
    (hD : D → ∀ t o s, C t o s → LoadOk t o s) {w : World Ω} (hw : Untouched K w)
    {roles : Nat → Role} (hroles : ∀ t, (roles t).Safe) {ts : List Nat}
    (hm : (parties w roles).Meets (watched B) C ts) :
    Consistent K ((parties w roles).run (watched B) ts).st :=
  (parties_safe hC hD hw hroles).inv (Rely.refl K) (fun t _ _ _ hg hi => (hg (t + 1) (by omega)).inv hi)
    (consistent_start hw) ts hm

/-! ## Outdated revisions -/

/-- A call of thread `u` fails, whatever the others do meanwhile. -/
def Fails (B : Backend Ω) (c : Config Op.Resp Nat (World Ω × Log) Outcome) (u : Nat)
    (p : ShdProg Outcome) : Prop :=
  ∀ ts, (c.restart u p).Meets (watched B) (fun _ => InvalidateOk) ts →
    ∀ ret, ((c.restart u p).run (watched B) ts).pool u = .ret (.checked ret) → ret < 0

/-- The creations of a run have different revisions, and outdated ones are refused. -/
structure Detects (B : Backend Ω) (c : Config Op.Resp Nat (World Ω × Log) Outcome) : Prop where
  different : (c.st.2.ended.map Prod.fst).Nodup
  /-- a revision that `shd_open` returned before one more creation ended -/
  refused : ∀ u ctx rev, c.pool u = .ret (.opened (some (ctx, rev))) → ∀ ts,
    c.Meets (watched B) (fun _ => InvalidateOk) ts →
    c.st.2.ended.length < (c.run (watched B) ts).st.2.ended.length →
    ∀ ctx' : ShdCtx, ctx'.sectMmap = ctx.sectMmap → ∀ call : RevCall,
      Fails B (c.run (watched B) ts) u (call.prog ctx' rev)

/-- **A stale revision is detected** in every run in which each creation finds the
section as it should: no other creation between its updates, a revision that
does not overflow, and for a first creation the revision 0. -/
theorem stale_detected (K : B.Stable) {w : World Ω} (hw : Untouched K w) {roles : Nat → Role}
    (hroles : ∀ t, (roles t).Safe) (ts : List Nat)
    (hm : (parties w roles).Meets (watched B) (fun _ => InvalidateOk) ts) :
    Detects B ((parties w roles).run (watched B) ts) := by
  have hsafe := parties_safe (C := fun _ => InvalidateOk) (D := False) (fun _ _ _ => id)
    (fun hf => absurd hf id) hw hroles
  have hsafe₁ := hsafe.run (Rely.refl K) ts hm
  have hinv₁ := parties_inv (C := fun _ => InvalidateOk) (D := False) (fun _ _ _ => id)
    (fun hf => absurd hf id) hw hroles hm
  refine ⟨hinv₁.coherent.increasing.imp fun h => ne_of_lt h, ?_⟩
  intro u ctx rev hu ts₂ hm₂ hmore ctx' hctx call
  have hopened := (hsafe₁.post (Rely.refl K) hu).1 ctx rev rfl
  have hrely := hsafe₁.rely_run (Rely.refl K) hu ts₂ hm₂
  have hinv₂ := hrely.inv hinv₁
  -- the creation that ended meanwhile is past the revision
  obtain ⟨new, hended, hnew⟩ := hrely.ended
  have hne : new ≠ [] := by
    rintro rfl
    rw [hended, List.append_nil] at hmore
    exact absurd hmore (lt_irrefl _)
  obtain ⟨e, he⟩ := List.exists_mem_of_ne_nil new hne
  have hlt := hnew hinv₁ e he
  have hle := hinv₂.coherent.below e (by rw [hended]; exact List.mem_append_right _ he)
  have hold : rev < nbCreations (((parties w roles).run (watched B) ts).run (watched B) ts₂).st.1.mem := by
    have hrev := hopened.revision
    omega
  have hsync : ctx'.sectMmap.syncTop = 40 := by
    rw [hctx]
    exact hopened.sync
  have hwp := wp_prog_outdated (B := B) (t := u) (C := fun _ => InvalidateOk) hinv₂ hsync hold call
  have hcall := wp_mono hwp fun r s' ⟨ret, he, hneg⟩ => show Returned False u r s' by
    subst he
    refine ⟨fun _ _ h => ?_, fun ret' h => ?_⟩
    · cases h
    · cases h
      exact hneg
  intro ts₃ hm₃ ret hret
  have hsafe₂ := (hsafe₁.run (Rely.refl K) ts₂ hm₂).restart hcall
  exact ((hsafe₂.run (Rely.refl K) ts₃ hm₃).post (Rely.refl K) hret).2 ret rfl

instance (o : Op) (s : World Ω × Log) : Decidable (InvalidateOk o s) := by
  unfold InvalidateOk
  split <;> infer_instance

/-- A shared memory file that does not exist. -/
theorem shm_untouched : Untouched shmStable Shm.world where
  good := fun _ _ => rfl
  nonneg := by decide +kernel
  even := by decide +kernel
  magic := by decide

/-- Threads 0 and 1 create the section, with different headers, the others open it. -/
def roles : Nat → Role
  | 0 => .creator "section" ⟨4, 2, 1, 0⟩ [] none
  | 1 => .creator "section" ⟨8, 4, 1, 8⟩ [1, 2, 3, 4, 5, 6, 7, 8] none
  | _ => .opener "section" none

theorem roles_safe : ∀ t, (roles t).Safe
  | 0 => ⟨by decide, by decide⟩
  | 1 => ⟨by decide, by decide⟩
  | _ + 2 => trivial

/-- One creation after the other, and an opening. -/
theorem stale_detected_orderly : Detects shm ((parties Shm.world roles).run (watched shm)
    (List.replicate 50 0 ++ List.replicate 30 2 ++ List.replicate 50 1)) :=
  stale_detected shmStable shm_untouched roles_safe _ (by decide +kernel)

/-- Thread 0 makes the file, thread 1 gets the lock first. Thread 2 opens the
section, and then the late first creation ends. -/
def late (n : Nat) : Config Op.Resp Nat (World Shm × Log) Outcome :=
  (parties Shm.world roles).run (watched shm)
    (List.replicate 2 0 ++ List.replicate 50 1 ++ List.replicate 30 2 ++ List.replicate n 0)

/-- The context and the revision of a thread that opened the section. -/
def Outcome.session : Option Outcome → ShdCtx × Int
  | some (.opened (some r)) => r
  | _ => default

/-- Both creations leave the revision 2, and the revision that thread 2 obtained
before the second one ended is accepted after it. -/
theorem stale_undetected : ((late 0).st.2.ended.map Prod.fst = [2] ∧
    (late 50).st.2.ended.map Prod.fst = [2, 2]) ∧
    (Outcome.session ((late 0).pool 2).returned).2 = 2 ∧
    ((((late 50).restart 2 (RevCall.check.prog (Outcome.session ((late 0).pool 2).returned).1
      2)).run (watched shm) [2]).pool 2).returned = some (.checked 0) := by
  decide +kernel

/-! ## Coherent openings -/

/-- A context is that of the one creation that left its revision. -/
structure OpensCoherently (c : Config Op.Resp Nat (World Ω × Log) Outcome) : Prop where
  coherent : ∀ u ctx rev, c.pool u = .ret (.opened (some (ctx, rev))) →
    ∃ h, (rev, h) ∈ c.st.2.ended ∧ (∀ h', (rev, h') ∈ c.st.2.ended → h' = h) ∧
      ctx.desc.blobSize = hdrBlobSize h ∧ ctx.desc.nbSamples = hdrNbSamples h ∧
      ctx.sectMmap = getMmap (getOffsets lp64 h)

/-- What each step of a run meets for `open_coherent`. -/
def StepOk (t : Nat) (o : Op) (s : World Ω × Log) : Prop := InvalidateOk o s ∧ LoadOk t o s

/-- **An opening is coherent** in every run in which, at the second load of the
revision, the header was not written since it was copied and no creation is between
its updates. The creations find the section as for `stale_detected`. -/
theorem open_coherent (K : B.Stable) {w : World Ω} (hw : Untouched K w) {roles : Nat → Role}
    (hroles : ∀ t, (roles t).Safe) (ts : List Nat)
    (hm : (parties w roles).Meets (watched B) StepOk ts) :
    OpensCoherently ((parties w roles).run (watched B) ts) := by
  have hC : ∀ t o (s : World Ω × Log), StepOk t o s → InvalidateOk o s := fun _ _ _ => And.left
  have hD : True → ∀ t o (s : World Ω × Log), StepOk t o s → LoadOk t o s :=
    fun _ _ _ _ => And.right
  have hsafe := (parties_safe hC hD hw hroles).run (Rely.refl K) ts hm
  have hinv := parties_inv hC hD hw hroles hm
  refine ⟨fun u ctx rev hu => ?_⟩
  obtain ⟨h, hmem, hmap, hblob, hnb⟩ :=
    ((hsafe.post (Rely.refl K) hu).1 ctx rev rfl).coherent trivial
  refine ⟨h, hmem, fun h' hmem' => ?_, hblob, hnb, hmap⟩
  have hnodup : (_ : List Int).Nodup := hinv.coherent.increasing.imp fun hlt => ne_of_lt hlt
  have heq := List.inj_on_of_nodup_map hnodup hmem' hmem rfl
  exact (Prod.ext_iff.mp heq).2

instance (t : Nat) (o : Op) (s : World Ω × Log) : Decidable (LoadOk t o s) := by
  unfold LoadOk
  split <;> infer_instance

instance (t : Nat) (o : Op) (s : World Ω × Log) : Decidable (StepOk t o s) :=
  inferInstanceAs (Decidable (InvalidateOk o s ∧ LoadOk t o s))

/-- An opening beside the end of a creation, after the other one. -/
theorem open_coherent_orderly : OpensCoherently ((parties Shm.world roles).run (watched shm)
    (List.replicate 40 0 ++ List.replicate 7 2 ++ List.replicate 45 1 ++ List.replicate 20 2)) :=
  open_coherent shmStable shm_untouched roles_safe _ (by decide +kernel)

/-- Thread 2 copies the header of the first creation, and the second one ends before
the header is read again. -/
def torn : Config Op.Resp Nat (World Shm × Log) Outcome :=
  (parties Shm.world roles).run (watched shm)
    (List.replicate 50 0 ++ List.replicate 8 2 ++ List.replicate 50 1 ++ List.replicate 30 2)

theorem torn_session : (torn.pool 2).returned
      = some (.opened (some (Outcome.session (torn.pool 2).returned))) ∧
    torn.st.2.ended = [(2, ⟨4, 2, 1, 0⟩), (4, ⟨8, 4, 1, 8⟩)] ∧
    (Outcome.session (torn.pool 2).returned).2 = 4 ∧
    (Outcome.session (torn.pool 2).returned).1.sectMmap
      = getMmap (getOffsets lp64 ⟨4, 2, 1, 0⟩) := by
  decide +kernel

/-- The context has the revision of the second creation and the mapping of the first. -/
theorem open_incoherent : ¬ OpensCoherently torn := by
  obtain ⟨hret, hended, hrev, hmap⟩ := torn_session
  generalize torn = c at *
  generalize Outcome.session (c.pool 2).returned = r at *
  rintro ⟨hcoherent⟩
  obtain ⟨h, hmem, -, -, -, hmmap⟩ := hcoherent 2 r.1 r.2 (Prog.eq_ret_of_returned hret)
  rw [hended, hrev] at hmem
  obtain rfl : h = ⟨8, 4, 1, 8⟩ := by simpa using hmem
  rw [hmap] at hmmap
  exact absurd hmmap (by decide +kernel)

end Shdata.Revision
