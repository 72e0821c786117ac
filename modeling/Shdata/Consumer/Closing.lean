/-
Shdata.Consumer.Closing — what `shd_end_read` leaves of a session.

The end of a read resets the window on success and when the revision changed.
When the first slot of the window was overwritten it returns `-EFAULT` and
leaves the window as it is, so the session stays open: `closed_iff`.

`shd_select_samples` has the same shape at its end. When the metadata array
cannot be allocated it fails, and the window it found stays.
-/
import Shdata.Consumer.Ownership

namespace Shdata.Consumer

open Shdata.Conc Shdata.Bytes Shdata.Core Shdata.Ring Shdata.Layout Shdata.Solo
  Shdata.Producer

/-! ## Sessions -/

/-- A selection is open. -/
structure Opened (ctx : ShdCtx) : Prop where
  start : 0 ≤ ctx.window.startIdx
  nbMatches : 0 ≤ ctx.window.nbMatches

/-- There is no selection. -/
structure Closed (ctx : ShdCtx) : Prop where
  start : ctx.window.startIdx < 0
  nbMatches : ctx.window.nbMatches < 0

/-- A call that fails after its search has set the window. -/
def ConsCall.stranded : ConsCall → Int → Bool
  | .select _, ret => ret = -ENOMEM
  | .readFrom search _ _, ret =>
    ret = -EINVAL && search.nbValuesBeforeDate = 0 && search.nbValuesAfterDate = 0
  | _, _ => false

/-- Reads and ends of reads are refused until a search succeeds. -/
def Refused : List (ConsCall × Int) → Prop
  | [] => True
  | (.read _ _, ret) :: cs => ret = -EPERM ∧ Refused cs
  | (.endRead _, ret) :: cs => ret = -EPERM ∧ Refused cs
  | (.select _, ret) :: cs => ret = 0 ∨ Refused cs
  | (.readFrom _ _ _, ret) :: cs => 0 ≤ ret ∨ Refused cs

/-- `Refused` for any calls on a context, with any interference. -/
def StaysRefused (F : Futils) (ctx : ShdCtx) : Prop :=
  ∀ cs tr rets ctx', (consCalls F cs ctx).Yields tr (rets, ctx') →
    (∀ p ∈ cs.zip rets, p.1.stranded p.2 = false) → Refused (cs.zip rets)

section Calls

variable {F : Futils} {ctx ctx' : ShdCtx} {tr : List (Event Op.Resp)} {ret : Int}

/-- In a ring of fewer than 2^31 slots a window has a positive number of rows. -/
theorem Framed.nbMatches_pos {d : DataSectionDesc} (hN : RingSize d.nbSamples)
    (hlt : d.nbSamples < 2147483648) {w : Window} (h : Framed d w) : 0 < w.nbMatches := by
  have hgap := isSlot_gap hN w.startIdx w.endIdx
  have h0 := hgap.nonneg
  have h1 := hgap.lt
  rw [h.nbMatches, intervalBetween_eq hN h.start h.stop, toI32_of_bounds (by omega) (by omega)]
  omega

/-- The window is the one before the call, or that one reset. -/
def Kept (ctx ctx' : ShdCtx) : Prop :=
  ctx'.window = ctx.window ∨ ctx'.window = (windowReset ctx.window).2

theorem Closed.kept (h : Closed ctx) (hk : Kept ctx ctx') : Closed ctx' := by
  rcases hk with hk | hk
  · exact ⟨hk ▸ h.start, hk ▸ h.nbMatches⟩
  · rw [windowReset, if_pos h.nbMatches] at hk
    exact ⟨hk ▸ h.start, hk ▸ h.nbMatches⟩

theorem Opened.reset (h : Opened ctx) (hk : ctx'.window = (windowReset ctx.window).2) :
    Closed ctx' := by
  rw [windowReset, if_neg (not_lt.mpr h.nbMatches)] at hk
  exact ⟨hk ▸ show (-1 : Int) < 0 by decide, hk ▸ show (-1 : Int) < 0 by decide⟩

/-- A search that fails keeps the window. -/
theorem dataFind_window (hN : RingSize ctx.desc.nbSamples) (hlt : ctx.desc.nbSamples < 2147483648)
    (search : SampleSearch) :
    (dataFind F ctx search).Ensures (fun _ _ => True) (fun _ => True) fun r =>
      r.2.desc = ctx.desc ∧ (r.1 < 0 → Kept ctx r.2) ∧ (0 ≤ r.1 → Framed ctx.desc r.2.window) := by
  refine (dataFind_quiet hN search).mono (fun _ _ => trivial) ?_
  rintro r ⟨-, hdesc, ⟨hneg, hkept⟩ | ⟨hframed, hret⟩⟩
  · exact ⟨hdesc, fun _ => hkept, fun h => absurd hneg (not_lt.mpr h)⟩
  · have hpos := hframed.nbMatches_pos hN hlt
    exact ⟨hdesc, fun h => absurd hret (by omega), fun _ => hframed⟩

theorem selectSamples_window (hN : RingSize ctx.desc.nbSamples)
    (hlt : ctx.desc.nbSamples < 2147483648) (search : SampleSearch) (result : SearchResult) :
    (selectSamples F ctx search result).Ensures (fun _ _ => True) (fun _ => True) fun s =>
      s.ctx.desc = ctx.desc ∧ (s.ret = 0 ∨ s.ret = -ENOMEM ∨ Kept ctx s.ctx) := by
  refine Prog.Ensures.bind (dataFind_window hN hlt search) fun r hr => ?_
  obtain ⟨hdesc, hkept, hframed⟩ := hr
  split
  · rename_i hneg
    exact ⟨hdesc, Or.inr (Or.inr (hkept hneg))⟩
  · rename_i hge
    refine Prog.Ensures.bind (Q := fun m => m.2.2.desc = ctx.desc ∧ (m.1 = -ENOMEM ∨ 0 ≤ m.1))
      ?_ fun m hm => ?_
    · refine Prog.ensures_perform trivial fun p _ => ?_
      cases p with
      | none => exact ⟨hdesc, Or.inl rfl⟩
      | some p =>
        refine Prog.Ensures.bind (Q := fun _ => True) ?_ fun rows _ => ?_
        · exact (windowReadLoop_quiet _ _ _ _ _).mono (fun _ _ => trivial) fun _ _ => trivial
        · refine ⟨hdesc, Or.inr ?_⟩
          rw [← hdesc] at hN hframed
          exact (hframed (not_lt.mp hge)).offset hN
    · obtain ⟨hdesc', hcode⟩ := hm
      split
      · exact ⟨hdesc', by dsimp only; omega⟩
      · exact ⟨hdesc', Or.inl rfl⟩

theorem readFromSample_window (hN : RingSize ctx.desc.nbSamples)
    (hlt : ctx.desc.nbSamples < 2147483648) (search : SampleSearch) (quantity : List Quantity)
    (sizes : List Nat) :
    (readFromSample F ctx search quantity sizes).Ensures (fun _ _ => True) (fun _ => True) fun s =>
      s.ctx.desc = ctx.desc ∧
        (0 ≤ s.ret ∨ (ConsCall.readFrom search quantity sizes).stranded s.ret = true ∨
          Kept ctx s.ctx) := by
  unfold readFromSample
  split
  · exact ⟨rfl, Or.inr (Or.inr (Or.inl rfl))⟩
  · rename_i hone
    refine Prog.Ensures.bind (dataFind_window hN hlt search) fun r hr => ?_
    obtain ⟨hdesc, hkept, hframed⟩ := hr
    split
    · rename_i hneg
      exact ⟨hdesc, Or.inr (Or.inr (hkept hneg))⟩
    · rename_i hge
      have hpos := (hframed (not_lt.mp hge)).nbMatches_pos hN hlt
      refine Prog.Ensures.bind (Q := fun q => 0 ≤ q.1 ∨ q.1 = -EINVAL) ?_ fun q hq => ?_
      · unfold dataReadQuantitySample
        rw [if_neg (by omega)]
        split
        · exact Or.inr rfl
        · refine Prog.ensures_perform trivial fun p _ => ?_
          exact (dataReadQuantitySampleLoop_quiet p _).mono (fun _ _ => trivial)
            fun _ h => Or.inl h
      · refine ⟨hdesc, hq.imp_right fun hq => Or.inl ?_⟩
        obtain ⟨hafter, hbefore⟩ : search.nbValuesAfterDate = 0 ∧ search.nbValuesBeforeDate = 0 :=
          ⟨UInt32.toNat_inj.mp (by simp; omega), UInt32.toNat_inj.mp (by simp; omega)⟩
        simp [ConsCall.stranded, hq, hafter, hbefore]

/-- `shd_end_read` without a selection. -/
theorem endRead_closed (h : Closed ctx) (rev : Int) :
    endRead ctx rev = pure (-EPERM, ctx) := by
  have hcheck : dataCheckValidity ctx rev = pure (-EPERM, ctx) :=
    if_neg (not_le.mpr h.start)
  rw [endRead, hcheck]
  rfl

/-- A call without a selection. -/
theorem consCall_closed (hN : RingSize ctx.desc.nbSamples) (hlt : ctx.desc.nbSamples < 2147483648)
    (h : Closed ctx) {c : ConsCall} (hy : (consCall F ctx c).Yields tr (ret, ctx'))
    (hs : c.stranded ret = false) {cs : List (ConsCall × Int)}
    (hrest : Closed ctx' → ctx'.desc = ctx.desc → Refused cs) : Refused ((c, ret) :: cs) := by
  cases c with
  | select search =>
    obtain ⟨tr₁, s, tr₂, hp, ⟨-, he⟩, -⟩ := Prog.yields_bind.mp hy
    obtain ⟨rfl, rfl⟩ := Prod.mk.inj he
    obtain ⟨⟨hdesc, hret | hret | hkept⟩, -⟩ :=
      (selectSamples_window hN hlt search _).yields hp fun _ _ => trivial
    · exact Or.inl hret
    · exact absurd hs (by simp [ConsCall.stranded, hret])
    · exact Or.inr (hrest (h.kept hkept) hdesc)
  | readFrom search quantity sizes =>
    obtain ⟨tr₁, s, tr₂, hp, ⟨-, he⟩, -⟩ := Prog.yields_bind.mp hy
    obtain ⟨rfl, rfl⟩ := Prod.mk.inj he
    obtain ⟨⟨hdesc, hret | hret | hkept⟩, -⟩ :=
      (readFromSample_window hN hlt search quantity sizes).yields hp fun _ _ => trivial
    · exact Or.inl hret
    · exact absurd hs (by rw [hret]; decide)
    · exact Or.inr (hrest (h.kept hkept) hdesc)
  | read quantity dst =>
    obtain ⟨tr₁, r, tr₂, hp, ⟨-, he⟩, -⟩ := Prog.yields_bind.mp hy
    obtain ⟨rfl, rfl⟩ := Prod.mk.inj he
    obtain ⟨hret, -⟩ := (readQuantity_quiet quantity dst).yields hp fun _ _ => trivial
    exact ⟨hret h.nbMatches, hrest h rfl⟩
  | endRead rev =>
    change (Core.endRead ctx rev).Yields tr (ret, ctx') at hy
    rw [endRead_closed h] at hy
    obtain ⟨-, he⟩ := hy
    obtain ⟨rfl, rfl⟩ := Prod.mk.inj he
    exact ⟨rfl, hrest h rfl⟩

/-- Any calls without a selection, whatever the section holds meanwhile. -/
theorem consCalls_refused (hN : RingSize ctx.desc.nbSamples) (hlt : ctx.desc.nbSamples < 2147483648)
    (h : Closed ctx) (cs : List ConsCall) {rets : List Int}
    (hy : (consCalls F cs ctx).Yields tr (rets, ctx'))
    (hs : ∀ p ∈ cs.zip rets, p.1.stranded p.2 = false) : Refused (cs.zip rets) := by
  induction cs generalizing ctx tr rets with
  | nil => exact trivial
  | cons c cs ih =>
    obtain ⟨tr₁, r, tr', hc, hrest, -⟩ := Prog.yields_bind.mp hy
    obtain ⟨tr₂, rs, tr₃, hcs, ⟨-, he⟩, -⟩ := Prog.yields_bind.mp hrest
    obtain ⟨rfl, rfl⟩ := Prod.mk.inj he
    rw [List.zip_cons_cons] at hs ⊢
    refine consCall_closed hN hlt h hc (hs _ List.mem_cons_self) fun hclosed hdesc => ?_
    exact ih (hdesc ▸ hN) (hdesc ▸ hlt) hclosed hcs fun p hp => hs p (List.mem_cons_of_mem _ hp)

end Calls

/-! ## The end of a session -/

section Ends

variable {Ω : Type} {B : Backend Ω} {t : Nat} {w : World Ω} {ctx : ShdCtx}

/-- The first slot of the window was overwritten: the window stays. -/
theorem exec_endRead_overwritten (h : Opened ctx)
    (hne : ctx.syncCtx.nbWrites ≠ startCounter ctx w.mem) (rev : Int) :
    exec (machine B) t (endRead ctx rev) w = ((-EFAULT, spentSnapshot ctx), w) := by
  rw [endRead, exec_bind, exec_dataCheckValidity h.start, if_pos hne]
  rfl

/-- It was not overwritten: the window is reset, with either return code. -/
theorem exec_endRead_kept (h : Opened ctx)
    (heq : ctx.syncCtx.nbWrites = startCounter ctx w.mem) (rev : Int) :
    Closed (exec (machine B) t (endRead ctx rev) w).1.2 ∧
      (exec (machine B) t (endRead ctx rev) w).1.2.desc = ctx.desc := by
  rw [endRead, exec_bind, exec_dataCheckValidity h.start, if_neg (not_not.mpr heq)]
  by_cases hrev : rev = w.mem.i32 ctx.sectMmap.syncTop
  · rw [if_pos hrev, if_neg (show ¬ (0 : Int) < 0 by decide)]
    exact ⟨h.reset rfl, rfl⟩
  · rw [if_neg hrev, if_pos (show -ENODEV < 0 by decide), if_pos rfl]
    exact ⟨h.reset rfl, rfl⟩

/-- With a selection a read of no bytes is not refused. -/
theorem exec_readQuantity_opened (h : 0 ≤ ctx.window.nbMatches) :
    (exec (machine B) t (readQuantity ctx (some ⟨0, 0⟩) 0) w).1.1 ≠ -EPERM := by
  rw [readQuantity, dataReadQuantity, dataReadRows, if_neg (not_lt.mpr h),
    if_neg (by simp [toU64]), exec_bind]
  show ((_ : Nat) : Int) ≠ -EPERM
  have hneg : -EPERM < 0 := by decide
  omega

/-- **The end of a read closes the session** exactly if the first slot of its
window was not overwritten. -/
theorem closed_iff (B : Backend Ω) (F : Futils) (t : Nat) (w : World Ω) {ctx : ShdCtx}
    (hN : RingSize ctx.desc.nbSamples) (hlt : ctx.desc.nbSamples < 2147483648) (h : Opened ctx)
    (rev : Int) :
    StaysRefused F (exec (machine B) t (endRead ctx rev) w).1.2 ↔
      ctx.syncCtx.nbWrites = startCounter ctx w.mem := by
  constructor
  · intro hrefused
    by_contra hne
    -- the next read is served
    have hopen : 0 ≤ (spentSnapshot ctx).window.nbMatches := h.nbMatches
    rw [exec_endRead_overwritten h hne] at hrefused
    have hy := yields_exec (machine B) t
      (consCalls F [.read (some ⟨0, 0⟩) 0] (spentSnapshot ctx)) w
    have hcall := hrefused [.read (some ⟨0, 0⟩) 0] _ _ _ hy ?_
    · rw [consCalls, exec_bind] at hcall
      have hret := hcall.1
      rw [consCall, exec_bind] at hret
      exact exec_readQuantity_opened hopen hret
    · rintro ⟨c, ret⟩ hp
      obtain rfl := (List.mem_singleton.mp (List.of_mem_zip hp).1 : c = _)
      rfl
  · intro heq cs tr rets ctx' hy hs
    obtain ⟨hclosed, hdesc⟩ := exec_endRead_kept (B := B) (t := t) h heq rev
    exact consCalls_refused (hdesc ▸ hN) (hdesc ▸ hlt) hclosed cs hy hs

end Ends

/-! ## A selection that stays -/

/-- A producer writes one sample to a section of 2 slots, a consumer selects it,
and the producer writes `n` more. The result is the consumer's context. -/
def selectedThen (n : Nat) : ShdProg ShdCtx := do
  let p ← create "section" ⟨4, 2, 1, 0⟩ [] none
  let first ← prodCalls [.writeNewBlob [1, 2, 3, 4] 4 ⟨⟨0, 0⟩, ⟨0, 0⟩⟩] (p.getD default)
  let c ← openCtx "section" none
  let s ← selectSamples libfutils (c.map Prod.fst |>.getD default) latestSearch ⟨0, 0⟩
  let _ ← prodCalls (List.replicate n (.writeNewBlob [1, 2, 3, 4] 4 ⟨⟨0, 0⟩, ⟨0, 0⟩⟩)) first.2
  return s.ctx

def holdsSelection (n : Nat) : ShdCtx × World Shm :=
  exec (machine shm) 0 (selectedThen n) Shm.world

/-- After one more sample the slot of the selection is as it was. -/
theorem closed_after_one : Opened (holdsSelection 1).1 ∧ StaysRefused libfutils
    (exec (machine shm) 1 (endRead (holdsSelection 1).1 2) (holdsSelection 1).2).1.2 := by
  have hopen : Opened (holdsSelection 1).1 := ⟨by decide +kernel, by decide +kernel⟩
  exact ⟨hopen, (closed_iff shm libfutils 1 (holdsSelection 1).2
    ⟨by decide +kernel, by decide +kernel⟩ (by decide +kernel) hopen 2).mpr (by decide +kernel)⟩

/-- After two it was overwritten. The end of the read says so, and the next read of
the blob copies a row. -/
theorem overwritten_stays_open : Opened (holdsSelection 2).1 ∧
    (exec (machine shm) 1 (consCalls libfutils [.endRead 2, .read none 4] (holdsSelection 2).1)
      (holdsSelection 2).2).1.1 = [-EFAULT, 1] :=
  ⟨⟨by decide +kernel, by decide +kernel⟩, by decide +kernel⟩

end Shdata.Consumer
