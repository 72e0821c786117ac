/-
Shdata.Consumer.Addressed — the slots that a consumer addresses.

A consumer keeps its description of the section from `shd_open` on, while
the write index it starts a search from is the live one. Everything else
that becomes an index comes out of a modulo by the consumer's own number of
slots. So a consumer addresses slots of its own mapping exactly as long as
every `shd_search_start` finds a write index below its own number of slots.

`consCalls_ensures` is about any calls of a consumer and any responses of
the memory: a producer may re-create the section with another geometry, and
write to it, at every step. `addressed_run` is the statement about runs.
-/
import Shdata.Consumer.Search
import Shdata.Solo.Open

namespace Shdata.Consumer

open Shdata.Conc Shdata.Bytes Shdata.Core Shdata.Ring Shdata.Layout Shdata.Producer

/-! ## Calls of a consumer -/

inductive ConsCall where
  | select (search : SampleSearch)
  | readFrom (search : SampleSearch) (quantity : List Quantity) (sizes : List Nat)
  | read (quantity : Option Quantity) (dstSize : Nat)
  | endRead (rev : Int)

/-- One call; the result is its return code and the context it leaves. -/
def consCall (F : Futils) (ctx : ShdCtx) : ConsCall → ShdProg (Int × ShdCtx)
  | .select search => do
    let s ← selectSamples F ctx search ⟨0, 0⟩
    return (s.ret, s.ctx)
  | .readFrom search quantity sizes => do
    let s ← readFromSample F ctx search quantity sizes
    return (s.ret, s.ctx)
  | .read quantity dstSize => do
    let r ← readQuantity ctx quantity dstSize
    return (r.1, ctx)
  | .endRead rev => Core.endRead ctx rev

def consCalls (F : Futils) : List ConsCall → ShdCtx → ShdProg (List Int × ShdCtx)
  | [], ctx => return ([], ctx)
  | c :: cs, ctx => do
    let r ← consCall F ctx c
    let rs ← consCalls F cs r.2
    return (r.1 :: rs.1, rs.2)

/-! ## The indices a call addresses -/

/-- An index that is passed to `shd_data_get_sample_ptr` is one of the ring. -/
def Addresses (d : DataSectionDesc) : Op → Prop
  | .samplePtr desc i => desc = d ∧ IsSlot d.nbSamples i
  | _ => True

instance (d : DataSectionDesc) (o : Op) : Decidable (Addresses d o) := by
  unfold Addresses
  split <;> infer_instance

/-- A window whose indices are slots, as far as they are used. -/
structure WindowOk (d : DataSectionDesc) (w : Window) : Prop where
  start : 0 ≤ w.startIdx → IsSlot d.nbSamples w.startIdx
  read : 0 ≤ w.nbMatches → IsSlot d.nbSamples w.startIdx ∧ IsSlot d.nbSamples w.refIdx

/-- A consumer context between two of its calls. -/
structure ConsOk (d : DataSectionDesc) (ctx : ShdCtx) : Prop where
  desc : ctx.desc = d
  window : WindowOk d ctx.window

theorem windowOk_idle (d : DataSectionDesc) : WindowOk d windowIdle :=
  ⟨fun h => absurd h (by decide), fun h => absurd h (by decide)⟩

theorem windowOk_reset {d : DataSectionDesc} {w : Window} (h : WindowOk d w) :
    WindowOk d (windowReset w).2 := by
  unfold windowReset
  split
  · exact h
  · exact windowOk_idle d

section Ensures

variable {d : DataSectionDesc} {ctx : ShdCtx} {F : Futils}

theorem Searching.addresses {hdr : Int} {o : Op} (h : Searching hdr d o) : Addresses d o := by
  cases o with
  | samplePtr desc i => exact h
  | _ => trivial

theorem windowAround_ok (hN : RingSize d.nbSamples) {search : SampleSearch} {sctx : SearchCtx}
    {ref : Int} (href : IsSlot d.nbSamples ref) : WindowOk d (windowAround search d sctx ref) :=
  ⟨fun _ => isSlot_startIdx hN search sctx ref, fun _ => ⟨isSlot_startIdx hN search sctx ref, href⟩⟩

/-- `shd_data_find`: whatever it returns, the window is one of the ring. -/
theorem dataFind_ensures (hN : RingSize d.nbSamples) (hctx : ConsOk d ctx)
    (search : SampleSearch) :
    (dataFind F ctx search).Ensures (StartIndex (IsSlot d.nbSamples)) (Addresses d)
      fun r => ConsOk d r.2 ∧ (0 ≤ r.1 → 0 ≤ r.2.window.nbMatches) := by
  obtain rfl : ctx.desc = d := hctx.desc
  have hneg : ∀ e : Int, 0 < e → (0 ≤ -e → 0 ≤ ctx.window.nbMatches) := fun e he h => by omega
  refine ensures_load32 trivial fun bs _ => ?_
  split
  · exact ⟨hctx, hneg EAGAIN (by decide)⟩
  split
  · exact ⟨hctx, hneg EINVAL (by decide)⟩
  refine Prog.Ensures.bind ((windowSet_ensures F search hN (fun _ h => h) _ _).mono
    (fun _ => Searching.addresses) fun _ h => h) fun r hr => ?_
  have hok : WindowOk ctx.desc r.2 := by
    rcases hr with ⟨-, hw⟩ | ⟨sctx, ref, -, href, hw, -⟩
    · rw [hw]
      exact windowOk_reset hctx.window
    · rw [hw]
      exact windowAround_ok hN href
  dsimp only
  split
  · rename_i hlt
    exact ⟨⟨rfl, hok⟩, fun h => absurd h (by omega)⟩
  · rename_i hge
    have hmatch : r.1 = r.2.nbMatches := by
      rcases hr with ⟨hlt, -⟩ | ⟨_, _, -, -, -, h⟩
      · exact absurd hlt hge
      · exact h
    have hslot := (hok.read (by omega)).1
    refine Prog.ensures_perform ⟨rfl, hslot⟩ fun p _ => ?_
    refine Prog.Ensures.bind (Q := fun _ => True) ?_ fun sync _ => ?_
    · exact ensures_load32 trivial fun bs' _ => trivial
    · exact ⟨⟨rfl, hok⟩, id⟩

theorem windowReadLoop_ensures {A : (o : Op) → o.Resp → Prop} (hN : RingSize d.nbSamples)
    (size : Nat) (off : Int) (n : Nat) (i : Int) (row : Nat) (hi : IsSlot d.nbSamples i) :
    (windowReadLoop d size off n i row).Ensures A (Addresses d) fun _ => True := by
  induction n generalizing i row with
  | zero => exact trivial
  | succ n ih =>
    refine ⟨⟨rfl, hi⟩, fun p _ => ⟨trivial, fun bs _ => ?_⟩⟩
    exact (ih _ _ (isSlot_indexNext hN i)).bind fun _ _ => trivial

/-- A read of every row of the window. -/
theorem windowRead_ensures {A : (o : Op) → o.Resp → Prop} (hN : RingSize d.nbSamples)
    {w : Window} (hw : WindowOk d w) (size : Nat) (off : Int) :
    (windowRead w d size off).Ensures A (Addresses d) fun _ => True := by
  unfold windowRead
  by_cases hn : 0 ≤ w.nbMatches
  · exact windowReadLoop_ensures hN _ _ _ _ _ (hw.read hn).1
  · rw [show w.nbMatches.toNat = 0 by omega]
    exact trivial

theorem dataReadMetadata_ensures {A : (o : Op) → o.Resp → Prop} (hN : RingSize d.nbSamples)
    (hctx : ConsOk d ctx) :
    (dataReadMetadata ctx).Ensures A (Addresses d) fun r => ConsOk d r.2.2 := by
  refine Prog.ensures_perform trivial fun p _ => ?_
  cases p with
  | none => exact hctx
  | some p =>
    obtain rfl : ctx.desc = d := hctx.desc
    refine Prog.Ensures.bind (windowRead_ensures hN hctx.window sizeofMetadata 0) fun rows _ => ?_
    exact ⟨rfl, hctx.window⟩

theorem selectSamples_ensures (hN : RingSize d.nbSamples) (hctx : ConsOk d ctx)
    (search : SampleSearch) (result : SearchResult) :
    (selectSamples F ctx search result).Ensures (StartIndex (IsSlot d.nbSamples)) (Addresses d)
      fun s => ConsOk d s.ctx := by
  refine (dataFind_ensures hN hctx search).bind fun r hr => ?_
  split
  · exact hr.1
  · refine (dataReadMetadata_ensures hN hr.1).bind fun m hm => ?_
    split <;> exact hm

theorem dataReadRows_ensures {A : (o : Op) → o.Resp → Prop} (hN : RingSize d.nbSamples)
    (hctx : ConsOk d ctx) (size : Nat) (off : Int) (dst : Nat) :
    (dataReadRows ctx size off dst).Ensures A (Addresses d) fun _ => True := by
  unfold dataReadRows
  split
  · exact trivial
  split
  · exact trivial
  · rw [hctx.desc]
    exact (windowRead_ensures hN hctx.window size off).bind fun _ _ => trivial

theorem readQuantity_ensures {A : (o : Op) → o.Resp → Prop} (hN : RingSize d.nbSamples)
    (hctx : ConsOk d ctx) (quantity : Option Quantity) (dst : Nat) :
    (readQuantity ctx quantity dst).Ensures A (Addresses d) fun _ => True := by
  cases quantity with
  | none => exact dataReadRows_ensures hN hctx _ _ _
  | some q => exact dataReadRows_ensures hN hctx _ _ _

theorem dataReadQuantitySampleLoop_ensures {A : (o : Op) → o.Resp → Prop} (curr : Int)
    (qs : List (Quantity × Nat)) :
    (dataReadQuantitySampleLoop curr qs).Ensures A (Addresses d) fun _ => True := by
  induction qs with
  | nil => exact trivial
  | cons q qs ih =>
    unfold dataReadQuantitySampleLoop
    split
    · exact ⟨trivial, fun bs _ => ⟨trivial, fun md _ => ih.bind fun _ _ => trivial⟩⟩
    · exact ih.bind fun _ _ => trivial

theorem readFromSample_ensures (hN : RingSize d.nbSamples) (hctx : ConsOk d ctx)
    (search : SampleSearch) (quantity : List Quantity) (sizes : List Nat) :
    (readFromSample F ctx search quantity sizes).Ensures (StartIndex (IsSlot d.nbSamples))
      (Addresses d) fun s => ConsOk d s.ctx := by
  unfold readFromSample
  split
  · exact hctx
  · refine (dataFind_ensures hN hctx search).bind fun r hr => ?_
    split
    · exact hr.1
    · refine Prog.Ensures.bind (Q := fun _ => True) ?_ fun q _ => hr.1
      unfold dataReadQuantitySample
      split
      · exact trivial
      split
      · exact trivial
      · have href := (hr.1.window.read (hr.2 (by omega))).2
        exact ⟨⟨hr.1.desc, href⟩, fun p _ => dataReadQuantitySampleLoop_ensures p _⟩

theorem endRead_ensures {A : (o : Op) → o.Resp → Prop} (hctx : ConsOk d ctx) (rev : Int) :
    (endRead ctx rev).Ensures A (Addresses d) fun r => ConsOk d r.2 := by
  have hend : ∀ c : ShdCtx, ConsOk d c → (dataEndRead c).Ensures A (Addresses d)
      fun r => ConsOk d r.2 :=
    fun c hc => ⟨trivial, fun _ _ => ⟨hc.desc, windowOk_reset hc.window⟩⟩
  refine Prog.Ensures.bind (Q := fun r => ConsOk d r.2) ?_ fun r hr => ?_
  · unfold dataCheckValidity
    split
    · rename_i hge
      have hsame : ∀ sync, ConsOk d { ctx with syncCtx := sync } :=
        fun _ => ⟨hctx.desc, hctx.window⟩
      refine Prog.ensures_perform ⟨hctx.desc, hctx.window.start hge⟩ fun p _ => ?_
      refine Prog.Ensures.bind (Q := fun _ => True) ?_ fun r _ => ?_
      · refine ensures_load32 trivial fun bs _ => ?_
        split <;> exact trivial
      · dsimp only
        split
        · exact hsame _
        · refine Prog.Ensures.bind (Q := fun _ => True) ?_ fun _ _ => hsame _
          refine ensures_load32 trivial fun bs _ => ?_
          split <;> exact trivial
    · exact hctx
  · split
    · split
      · exact (hend _ hr).bind fun e he => he
      · exact hr
    · exact hend _ hr

/-- One call of a consumer. -/
theorem consCall_ensures (hN : RingSize d.nbSamples) (hctx : ConsOk d ctx) (c : ConsCall) :
    (consCall F ctx c).Ensures (StartIndex (IsSlot d.nbSamples)) (Addresses d)
      fun r => ConsOk d r.2 := by
  cases c with
  | select search => exact (selectSamples_ensures hN hctx search _).bind fun s hs => hs
  | readFrom search quantity sizes =>
    exact (readFromSample_ensures hN hctx search quantity sizes).bind fun s hs => hs
  | read quantity dst => exact (readQuantity_ensures hN hctx quantity dst).bind fun _ _ => hctx
  | endRead rev => exact endRead_ensures hctx rev

/-- Any calls of a consumer. -/
theorem consCalls_ensures (hN : RingSize d.nbSamples) (hctx : ConsOk d ctx) (cs : List ConsCall) :
    (consCalls F cs ctx).Ensures (StartIndex (IsSlot d.nbSamples)) (Addresses d)
      fun r => ConsOk d r.2 := by
  induction cs generalizing ctx with
  | nil => exact hctx
  | cons c cs ih =>
    exact (consCall_ensures hN hctx c).bind fun r hr => (ih hr).bind fun rs hrs => hrs

end Ensures

/-! ## Runs -/

/-- Whenever consumer `t` starts a search, the write index of the section is an
index of the consumer's own ring. -/
def StartsInside {Ω : Type} (d : DataSectionDesc) (t u : Nat) (o : Op) (w : World Ω) : Prop :=
  match o with
  | .read .searchStart a len => u = t → IsSlot d.nbSamples (decI32 (w.mem.read a len))
  | _ => True

instance {Ω : Type} (d : DataSectionDesc) (t u : Nat) (o : Op) (w : World Ω) :
    Decidable (StartsInside d t u o w) := by
  unfold StartsInside
  split <;> infer_instance

/-- **A consumer never addresses a slot outside its own mapping**, as long as it
starts its searches inside. The other threads of the pool run any programs,
creations of the section and writes to it among them. -/
theorem addressed_run {Ω : Type} (B : Backend Ω) {d : DataSectionDesc} (hN : RingSize d.nbSamples)
    (F : Futils) {ctx : ShdCtx} (hctx : ConsOk d ctx) (cs : List ConsCall) (t : Nat)
    (c : Config Op.Resp Nat (World Ω) (List Int × ShdCtx))
    (hc : c.pool t = consCalls F cs ctx) (ts : List Nat)
    (hm : c.Meets (machine B) (StartsInside d t) ts) :
    c.Meets (machine B) (fun u o _ => u = t → Addresses d o) ts := by
  refine Config.meets_of_ensures (A := StartIndex (IsSlot d.nbSamples)) ?_
    (hc ▸ consCalls_ensures hN hctx cs) hm
  intro o w ho
  cases o with
  | read site a len =>
    cases site <;> first | exact trivial | exact ho rfl
  | _ => trivial

/-- A consumer that opens a section of 2 slots. A producer then creates it again
with 8 slots and writes `n` samples. The result is the consumer's context. -/
def recreated (n : Nat) : ShdProg (Option ShdCtx) := do
  let _ ← create "section" ⟨4, 2, 1, 0⟩ [] none
  let c ← openCtx "section" none
  let p ← create "section" ⟨4, 8, 1, 0⟩ [] none
  match p with
  | none => return none
  | some p =>
    let _ ← prodCalls (List.replicate n (.writeNewBlob [1, 2, 3, 4] 4 ⟨⟨0, 0⟩, ⟨0, 0⟩⟩)) p
    return c.map fun c => c.1

/-- The consumer selects the latest sample, as thread 1. -/
def staleConsumer (n : Nat) : Config Op.Resp Nat (World Shm) (List Int × ShdCtx) where
  st := (exec (machine shm) 0 (recreated n) Shm.world).2
  pool := fun t => consCalls libfutils (if t = 1 then [.select ⟨⟨0, 0⟩, .latest, 0, 0⟩] else [])
    ((exec (machine shm) 0 (recreated n) Shm.world).1.getD default)

/-- After two samples the write index is still one of the consumer's slots. -/
theorem addressed_run_recreated :
    (staleConsumer 2).Meets (machine shm) (fun u o _ => u = 1 → Addresses ⟨56, 4, 2⟩ o)
      (List.replicate 12 1) := by
  have hdesc : ((exec (machine shm) 0 (recreated 2) Shm.world).1.getD default).desc = ⟨56, 4, 2⟩ := by
    decide +kernel
  have hwindow :
      ((exec (machine shm) 0 (recreated 2) Shm.world).1.getD default).window = windowIdle := by
    decide +kernel
  exact addressed_run shm ⟨by decide, by decide⟩ libfutils
    ⟨hdesc, hwindow ▸ windowOk_idle _⟩ _ 1 (staleConsumer 2) rfl _ (by decide +kernel)

/-- After six samples the consumer of the 2 slots asks for slot 5. -/
theorem addressed_outside :
    ¬ (staleConsumer 6).Meets (machine shm) (fun u o _ => u = 1 → Addresses ⟨56, 4, 2⟩ o)
      [1, 1, 1] := by
  decide +kernel

end Shdata.Consumer
