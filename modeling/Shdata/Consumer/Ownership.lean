/-
Shdata.Consumer.Ownership — who frees the metadata array.

`shd_select_samples` allocates an array and keeps its address in the context.
`shd_end_read` frees that address and keeps it. `shd_read_from_sample` opens a
session that `shd_end_read` ends as well, without an array of its own. So a
release is the first one of its array exactly if a selection allocated since
the release before it: `freed_once_iff`.
-/
import Shdata.Consumer.Addressed
import Shdata.Consumer.Session
import Shdata.Conc.Trace

namespace Shdata.Consumer

open Shdata.Conc Shdata.Bytes Shdata.Core Shdata.Ring Shdata.Layout

/-! ## A search, whatever it reads -/

/-- The program only loads, and whatever it reads its value satisfies `Q`. -/
abbrev Quiet {α : Type} (p : ShdProg α) (Q : α → Prop) : Prop :=
  p.Ensures (fun _ _ => True) Loads Q

theorem isI32_neg_one : IsI32 (-1) := ⟨by omega, by omega⟩

section Values

variable {d : DataSectionDesc} {ctx : SearchCtx} {α : Type} {Q : α → Prop} (F : Futils)

theorem quiet_samplePtr {i : Int} {f : Int → ShdProg α} (h : ∀ p, Quiet (f p) Q) :
    Quiet (getSamplePtr d i >>= f) Q := Prog.ensures_perform trivial fun p _ => h p

theorem quiet_load {site : Site} {a : Int} {f : Int → ShdProg α} (h : ∀ v, IsI32 v → Quiet (f v) Q) :
    Quiet (load32 site a >>= f) Q := ensures_load32 trivial fun _ _ => h _ (isI32_toI32 _)

theorem quiet_timestampCmp {samp : Int} {date : Timespec} {f : Int → ShdProg α}
    (h : ∀ n, Quiet (f n) Q) : Quiet (sampleTimestampCmp F samp date >>= f) Q :=
  Prog.ensures_perform trivial fun _ _ => h _

theorem searchDepthLoop_quiet (n : Nat) (depth : Int) :
    Quiet (searchDepthLoop d ctx n depth) fun _ => True := by
  induction n generalizing depth with
  | zero => exact trivial
  | succ n ih =>
    refine quiet_samplePtr fun p => Prog.ensures_perform trivial fun bs _ => ?_
    dsimp only
    split
    · exact ih _
    · exact trivial

theorem searchGetMaxDepth_quiet : Quiet (searchGetMaxDepth d ctx) fun _ => True := by
  unfold searchGetMaxDepth
  split
  · exact trivial
  · exact searchDepthLoop_quiet _ _

theorem searchNaiveLoop_quiet (date : Timespec) (n : Nat) {m : Int} (searched : Int)
    (hm : IsI32 m) :
    Quiet (searchNaiveLoop F d date n m searched) fun r => IsI32 r.mIndex := by
  induction n generalizing m searched with
  | zero => exact hm
  | succ n ih =>
    refine quiet_samplePtr fun p => quiet_timestampCmp F fun cmp => ?_
    split
    · exact hm
    · exact ih _ (isI32_toI32 _)

theorem searchBinaryLoop_quiet (date : Timespec) (maxDepth : Int) (n : Nat) {s : BinarySearch}
    (hs : IsI32 s.mIndex) :
    Quiet (searchBinaryLoop F d date ctx maxDepth n s) fun s' => IsI32 s'.mIndex := by
  induction n generalizing s with
  | zero => exact hs
  | succ n ih =>
    unfold searchBinaryLoop
    split
    · refine quiet_samplePtr fun p => quiet_timestampCmp F fun res => ?_
      dsimp only
      split
      · exact ih (isI32_toI32 _)
      · exact ih (isI32_toI32 _)
    · exact hs

theorem searchReferenceSample_quiet (date : Timespec) (ht : IsI32 ctx.tIndex)
    (hint : RefSearchHint) :
    Quiet (searchReferenceSample F d date ctx hint) fun r => IsI32 r.mIndex := by
  have hnaive : Quiet (searchReferenceSampleNaive F d date ctx) fun r => IsI32 r.mIndex :=
    searchGetMaxDepth_quiet.bind fun depth _ => searchNaiveLoop_quiet F date _ 0 ht
  cases hint with
  | naive => exact hnaive
  | date => exact hnaive
  | binary =>
    refine searchGetMaxDepth_quiet.bind fun depth _ => ?_
    refine Prog.Ensures.bind (searchBinaryLoop_quiet F date _ _ isI32_neg_one) fun s hs => ?_
    refine Prog.Ensures.bind (Q := fun last : Int × Int => IsI32 last.1) ?_ fun last hlast => ?_
    · split
      · exact quiet_samplePtr fun p => quiet_timestampCmp F fun res => isI32_toI32 _
      · exact hs
    · split
      · split
        · exact isI32_toI32 _
        · exact hlast
      · exact hlast

theorem sampleClosestTimestamp_quiet (before after : Int) (date : Timespec) :
    Quiet (sampleClosestTimestamp F before after date) fun _ => True := by
  refine Prog.ensures_perform trivial fun bs _ => ?_
  dsimp only
  split
  · exact trivial
  · refine Prog.ensures_perform trivial fun bs' _ => ?_
    split <;> exact trivial

theorem windowRefIdx_quiet (search : SampleSearch) (ht : IsI32 ctx.tIndex) (hint : RefSearchHint) :
    Quiet (windowRefIdx F search d ctx hint) IsI32 := by
  have href := searchReferenceSample_quiet (d := d) F search.date ht hint
  unfold windowRefIdx
  split
  · exact ht
  · refine searchGetMaxDepth_quiet.bind fun depth _ => ?_
    split <;> exact isI32_toI32 _
  · refine Prog.Ensures.bind href fun r hr => ?_
    split
    · exact isI32_toI32 _
    · split
      · exact ht
      · refine quiet_samplePtr fun p => quiet_samplePtr fun q => ?_
        refine (sampleClosestTimestamp_quiet F p q search.date).bind fun ret _ => ?_
        split
        · exact isI32_toI32 _
        · exact hr
  · refine Prog.Ensures.bind href fun r _ => ?_
    split
    · split
      · exact isI32_toI32 _
      · exact isI32_neg_one
    · exact isI32_toI32 _
  · refine Prog.Ensures.bind href fun r hr => ?_
    split
    · exact hr
    · exact isI32_neg_one

/-- A window that a search set: it starts at a slot, and its reference sample has
an index that is not negative. -/
structure Framed (d : DataSectionDesc) (w : Window) : Prop where
  start : IsSlot d.nbSamples w.startIdx
  stop : IsSlot d.nbSamples w.endIdx
  ref : 0 ≤ w.refIdx ∧ w.refIdx < 2147483648
  nbMatches : w.nbMatches = toI32 (1 + intervalBetween w.startIdx w.endIdx d.nbSamples)

/-- `shd_window_set`, whatever the section holds. -/
theorem windowSet_quiet (hN : RingSize d.nbSamples) (window : Window) (hdr : Int)
    (search : SampleSearch) (hint : RefSearchHint) :
    Quiet (windowSet F window hdr search d hint) fun r =>
      (r.1 < 0 ∧ r.2 = (windowReset window).2) ∨ (Framed d r.2 ∧ r.1 = r.2.nbMatches) := by
  refine Prog.Ensures.bind (Q := fun sctx => IsI32 sctx.tIndex) ?_ fun sctx ht => ?_
  · exact quiet_load fun v hv => quiet_samplePtr fun p => quiet_load fun n _ => hv
  refine Prog.Ensures.bind (windowRefIdx_quiet F search ht hint) fun ref href => ?_
  dsimp only
  split
  · exact Or.inl ⟨show -ENOENT < 0 by decide, rfl⟩
  · rename_i hneg
    refine Prog.Ensures.bind (Q := fun _ => True) ?_ fun overwritten _ => ?_
    · exact quiet_load fun v _ => quiet_samplePtr fun p => quiet_load fun n _ => trivial
    · split
      · exact Or.inl ⟨show -EFAULT < 0 by decide, rfl⟩
      · refine quiet_samplePtr fun p => Or.inr ⟨⟨isSlot_startIdx hN _ _ _, isSlot_endIdx hN _ _ _,
          ⟨show 0 ≤ ref by omega, href.2⟩, rfl⟩, rfl⟩

/-- The offset of the reference sample in its window is not negative. -/
theorem Framed.offset (hN : RingSize d.nbSamples) {w : Window} (h : Framed d w) :
    0 ≤ toI32 (intervalBetween w.startIdx w.refIdx d.nbSamples) := by
  have h0 := h.start.nonneg
  have h1 := h.start.lt
  obtain ⟨hr0, hr1⟩ := h.ref
  have hs := hN.small
  unfold intervalBetween
  split
  · rw [toU32_of_bounds (by omega) (by omega), toI32_of_bounds (by omega) (by omega)]
    omega
  · rw [toU32_of_bounds (by omega) (by omega), toI32_of_bounds (by omega) (by omega)]
    omega

end Values

/-! ## Calls that do not allocate -/

section Calls

variable {d : DataSectionDesc} {F : Futils} {ctx : ShdCtx}

/-- `shd_data_find`, whatever the section holds. -/
theorem dataFind_quiet (hN : RingSize ctx.desc.nbSamples) (search : SampleSearch) :
    Quiet (dataFind F ctx search) fun r =>
      r.2.metadata = ctx.metadata ∧ r.2.desc = ctx.desc ∧
        ((r.1 < 0 ∧ (r.2.window = ctx.window ∨ r.2.window = (windowReset ctx.window).2)) ∨
          (Framed ctx.desc r.2.window ∧ r.1 = r.2.window.nbMatches)) := by
  refine quiet_load fun v _ => ?_
  split
  · exact ⟨rfl, rfl, Or.inl ⟨show -EAGAIN < 0 by decide, Or.inl rfl⟩⟩
  split
  · exact ⟨rfl, rfl, Or.inl ⟨show -EINVAL < 0 by decide, Or.inl rfl⟩⟩
  refine Prog.Ensures.bind (windowSet_quiet F hN _ _ search _) fun r hr => ?_
  dsimp only
  split
  · rename_i hneg
    refine ⟨rfl, rfl, ?_⟩
    rcases hr with ⟨-, hw⟩ | hw
    · exact Or.inl ⟨hneg, Or.inr hw⟩
    · exact Or.inr hw
  · rename_i hge
    obtain ⟨hw, -⟩ := hr.resolve_left fun h => hge h.1
    refine quiet_samplePtr fun p => Prog.Ensures.bind (Q := fun _ => True) ?_ fun sync _ => ?_
    · exact quiet_load fun n _ => trivial
    · exact ⟨rfl, rfl, Or.inr ⟨hw, rfl⟩⟩

theorem windowReadLoop_quiet (size : Nat) (off : Int) (n : Nat) (i : Int) (row : Nat) :
    Quiet (windowReadLoop d size off n i row) fun _ => True := by
  induction n generalizing i row with
  | zero => exact trivial
  | succ n ih =>
    refine quiet_samplePtr fun p => Prog.ensures_perform trivial fun bs _ => ?_
    exact (ih _ _).bind fun _ _ => trivial

theorem readQuantity_quiet (quantity : Option Quantity) (dst : Nat) :
    Quiet (readQuantity ctx quantity dst) fun r => ctx.window.nbMatches < 0 → r.1 = -EPERM := by
  have hrows : ∀ size off, Quiet (dataReadRows ctx size off dst)
      fun r => ctx.window.nbMatches < 0 → r.1 = -EPERM := by
    intro size off
    unfold dataReadRows
    split
    · exact fun _ => rfl
    · rename_i hge
      split
      · exact fun h => absurd h hge
      · exact (windowReadLoop_quiet _ _ _ _ _).bind fun _ _ h => absurd h hge
  cases quantity with
  | none => exact hrows _ _
  | some q => exact hrows _ _

theorem dataReadQuantitySampleLoop_quiet (curr : Int) (qs : List (Quantity × Nat)) :
    Quiet (dataReadQuantitySampleLoop curr qs) fun r => 0 ≤ r.1 := by
  induction qs with
  | nil => exact le_refl 0
  | cons q qs ih =>
    unfold dataReadQuantitySampleLoop
    split
    · refine ⟨trivial, fun bs _ => ⟨trivial, fun md _ => ?_⟩⟩
      refine (show Quiet (dataReadQuantitySampleLoop curr qs) _ from ih).bind fun r hr => ?_
      show 0 ≤ r.1 + 1
      omega
    · exact Prog.Ensures.bind ih fun r hr => hr

/-- `shd_read_from_sample`, whatever the section holds. -/
theorem readFromSample_quiet (hN : RingSize ctx.desc.nbSamples) (search : SampleSearch)
    (quantity : List Quantity) (sizes : List Nat) :
    Quiet (readFromSample F ctx search quantity sizes) fun s =>
      s.ctx.metadata = ctx.metadata ∧ s.ctx.desc = ctx.desc := by
  unfold readFromSample
  split
  · exact ⟨rfl, rfl⟩
  · refine Prog.Ensures.bind (dataFind_quiet hN search) fun r hr => ?_
    split
    · exact ⟨hr.1, hr.2.1⟩
    · refine Prog.Ensures.bind (Q := fun _ => True) ?_ fun q _ => ⟨hr.1, hr.2.1⟩
      unfold dataReadQuantitySample
      split
      · exact trivial
      split
      · exact trivial
      · exact quiet_samplePtr fun p =>
          (dataReadQuantitySampleLoop_quiet p _).mono (fun _ h => h) fun _ _ => trivial

/-- `shd_data_check_validity`, whatever the section holds. -/
theorem dataCheckValidity_quiet (rev : Int) :
    Quiet (dataCheckValidity ctx rev) fun r =>
      r.2.metadata = ctx.metadata ∧ r.2.desc = ctx.desc ∧ r.2.window = ctx.window ∧
        (r.1 = -EPERM ∨ r.1 = -EFAULT ∨ r.1 = 0 ∨ r.1 = -ENODEV) := by
  unfold dataCheckValidity
  split
  · refine quiet_samplePtr fun p => ?_
    refine Prog.Ensures.bind (Q := fun r => r.1 = -EFAULT ∨ r.1 = 0) ?_ fun r hr => ?_
    · refine quiet_load fun n _ => ?_
      split
      · exact Or.inl rfl
      · exact Or.inr rfl
    · dsimp only
      split
      · exact ⟨rfl, rfl, rfl, by omega⟩
      · refine Prog.Ensures.bind (Q := fun n => n = 0 ∨ n = -ENODEV) ?_ fun n hn => ?_
        · refine quiet_load fun n _ => ?_
          split
          · exact Or.inl rfl
          · exact Or.inr rfl
        · exact ⟨rfl, rfl, rfl, Or.inr (Or.inr hn)⟩
  · exact ⟨rfl, rfl, rfl, Or.inl rfl⟩

end Calls

/-! ## What a call does to the heap -/

/-- An array of metadata is allocated, or an address is freed as one. -/
inductive HeapEvent where
  | alloc (p : Nat)
  | release (p : Option Nat)
  deriving DecidableEq, Repr

def heapEvent : Event Op.Resp → Option HeapEvent
  | ⟨.calloc .metadata, some p⟩ => some (.alloc p)
  | ⟨.free .metadata p, _⟩ => some (.release p)
  | _ => none

def heapEvents (tr : List (Event Op.Resp)) : List HeapEvent := tr.filterMap heapEvent

section Heap

variable {F : Futils} {ctx ctx' : ShdCtx} {tr : List (Event Op.Resp)} {ret : Int}

theorem heapEvents_append (tr₁ tr₂ : List (Event Op.Resp)) :
    heapEvents (tr₁ ++ tr₂) = heapEvents tr₁ ++ heapEvents tr₂ := List.filterMap_append

/-- A program that only loads leaves the heap alone. -/
theorem quiet_heap {α : Type} {p : ShdProg α} {Q : α → Prop} (hp : Quiet p Q) {a : α}
    (hy : p.Yields tr a) : Q a ∧ heapEvents tr = [] := by
  obtain ⟨hQ, hloads⟩ := hp.yields hy fun _ _ => trivial
  refine ⟨hQ, List.filterMap_eq_nil_iff.mpr fun e he => ?_⟩
  have hl := hloads e he
  obtain ⟨o, r⟩ := e
  cases o with
  | calloc what => exact absurd hl id
  | free what p => exact absurd hl id
  | _ => rfl

/-- A selection allocates an array exactly if it succeeds. -/
theorem select_heap (hN : RingSize ctx.desc.nbSamples) {search : SampleSearch}
    {result : SearchResult} {s : Selection}
    (hy : (selectSamples F ctx search result).Yields tr s) :
    s.ctx.desc = ctx.desc ∧
      ((s.ret = 0 ∧ ∃ p, heapEvents tr = [.alloc p] ∧ s.ctx.metadata = some p) ∨
        (s.ret ≠ 0 ∧ heapEvents tr = [] ∧ s.ctx.metadata = ctx.metadata)) := by
  obtain ⟨tr₁, r, tr₂, hfind, hrest, rfl⟩ := Prog.yields_bind.mp hy
  obtain ⟨⟨hmeta, hdesc, hwin⟩, hquiet⟩ := quiet_heap (dataFind_quiet hN search) hfind
  rw [heapEvents_append, hquiet, List.nil_append]
  by_cases hneg : r.1 < 0
  · rw [if_pos hneg] at hrest
    obtain ⟨rfl, rfl⟩ := hrest
    exact ⟨hdesc, Or.inr ⟨show r.1 ≠ 0 by omega, rfl, hmeta⟩⟩
  rw [if_neg hneg] at hrest
  obtain ⟨hframed, -⟩ := hwin.resolve_left fun h => hneg h.1
  rw [← hdesc] at hframed hN
  obtain ⟨tr₃, m, tr₄, hmd, hlast, rfl⟩ := Prog.yields_bind (p := dataReadMetadata r.2).mp hrest
  obtain ⟨p, tr₅, rfl, hrows⟩ := Prog.yields_perform.mp hmd
  cases p with
  | none =>
    obtain ⟨rfl, rfl⟩ := Prog.yields_pure.mp hrows
    obtain ⟨rfl, rfl⟩ := hlast
    exact ⟨hdesc, Or.inr ⟨show -ENOMEM ≠ 0 by decide, rfl, hmeta⟩⟩
  | some p =>
    obtain ⟨tr₆, rows, tr₇, hread, ⟨rfl, rfl⟩, rfl⟩ :=
      Prog.yields_bind (p := windowRead r.2.window r.2.desc sizeofMetadata 0).mp hrows
    obtain ⟨-, hquiet'⟩ := quiet_heap (windowReadLoop_quiet _ _ _ _ _) hread
    have hoff := hframed.offset hN
    rw [if_neg (show ¬ toI32 _ < 0 by omega)] at hlast
    obtain ⟨rfl, rfl⟩ := hlast
    refine ⟨hdesc, Or.inl ⟨rfl, p, ?_, rfl⟩⟩
    rw [List.append_nil, List.append_nil]
    show HeapEvent.alloc p :: heapEvents tr₆ = _
    rw [hquiet']

/-- The end of a read frees the array of the context exactly if it returns 0 or
`-ENODEV`. -/
theorem endRead_heap {rev : Int} (hy : (endRead ctx rev).Yields tr (ret, ctx')) :
    ctx'.desc = ctx.desc ∧ ctx'.metadata = ctx.metadata ∧
      heapEvents tr = if ret = 0 ∨ ret = -ENODEV then [.release ctx.metadata] else [] := by
  obtain ⟨tr₁, r, tr₂, hcheck, hrest, rfl⟩ := Prog.yields_bind.mp hy
  obtain ⟨⟨hmeta, hdesc, -, hret⟩, hquiet⟩ := quiet_heap (dataCheckValidity_quiet rev) hcheck
  rw [heapEvents_append, hquiet, List.nil_append, ← hmeta]
  split at hrest
  · rename_i hneg
    split at hrest
    · rename_i hnodev
      obtain ⟨tr₃, e, tr₄, ⟨u, tr₅, rfl, rfl, rfl⟩, ⟨rfl, he⟩, rfl⟩ := Prog.yields_bind.mp hrest
      obtain ⟨rfl, rfl⟩ := Prod.mk.inj he
      exact ⟨hdesc, rfl, by rw [if_pos (Or.inr hnodev)]; rfl⟩
    · rename_i hno
      obtain ⟨rfl, he⟩ := hrest
      obtain ⟨rfl, rfl⟩ := Prod.mk.inj he
      exact ⟨hdesc, rfl, by rw [if_neg (by omega)]; rfl⟩
  · rename_i hneg
    obtain ⟨u, tr₅, rfl, rfl, he⟩ := hrest
    obtain ⟨rfl, rfl⟩ := Prod.mk.inj he
    exact ⟨hdesc, rfl, by rw [if_pos (Or.inl rfl)]; rfl⟩

/-- The arrays that were allocated. -/
def allocated (evs : List HeapEvent) : List Nat :=
  evs.filterMap fun e => match e with
    | .alloc p => some p
    | .release _ => none

/-- The arrays that were freed; a `free` of NULL frees none. -/
def released (evs : List HeapEvent) : List Nat :=
  evs.filterMap fun e => match e with
    | .alloc _ => none
    | .release p => p

theorem allocated_append (evs evs' : List HeapEvent) :
    allocated (evs ++ evs') = allocated evs ++ allocated evs' := List.filterMap_append

theorem released_append (evs evs' : List HeapEvent) :
    released (evs ++ evs') = released evs ++ released evs' := List.filterMap_append

end Heap

/-! ## Arrays and ends of reads -/

/-- A selection that succeeded. -/
def ConsCall.takes : ConsCall → Int → Bool
  | .select _, ret => ret = 0
  | _, _ => false

/-- The end of a read that was not refused and met no overwrite. -/
def ConsCall.gives : ConsCall → Int → Bool
  | .endRead _, ret => ret = 0 || ret = -ENODEV
  | _, _ => false

/-- What the metadata pointer of a context is: NULL, an array in use, or one that
was given back. -/
inductive Holding where
  | null | live | spent
  deriving DecidableEq, Repr

def Holding.after (h : Holding) (c : ConsCall) (ret : Int) : Holding :=
  if c.takes ret then .live
  else if c.gives ret then (if h = .null then .null else .spent)
  else h

/-- Calls with their return codes such that no read ends while the array of the
selection before is already given back. -/
def Holding.Accepts : Holding → List (ConsCall × Int) → Prop
  | _, [] => True
  | h, (c, ret) :: cs => (c.gives ret → h ≠ .spent) ∧ (h.after c ret).Accepts cs

instance decidableAccepts : (h : Holding) → (cs : List (ConsCall × Int)) → Decidable (h.Accepts cs)
  | _, [] => isTrue trivial
  | h, (c, ret) :: cs =>
    have := decidableAccepts (h.after c ret) cs
    inferInstanceAs (Decidable ((c.gives ret → h ≠ .spent) ∧ (h.after c ret).Accepts cs))

/-- `h` tells what the pointer is, if `freed` are the arrays freed so far. -/
def Holding.Tells (h : Holding) (p : Option Nat) (freed : List Nat) : Prop :=
  match h with
  | .null => p = none
  | .live => ∃ q, p = some q ∧ q ∉ freed
  | .spent => ∃ q, p = some q ∧ q ∈ freed

section Once

variable {F : Futils} {ctx ctx' : ShdCtx} {tr : List (Event Op.Resp)} {ret : Int}

/-- What a call does to the heap and to the pointer, by its return code. -/
theorem consCall_heap (hN : RingSize ctx.desc.nbSamples) {c : ConsCall}
    (hy : (consCall F ctx c).Yields tr (ret, ctx')) :
    ctx'.desc = ctx.desc ∧
      ((c.takes ret = true ∧ ∃ p, heapEvents tr = [.alloc p] ∧ ctx'.metadata = some p) ∨
        (c.takes ret = false ∧ ctx'.metadata = ctx.metadata ∧
          heapEvents tr = if c.gives ret then [.release ctx.metadata] else [])) := by
  cases c with
  | select search =>
    obtain ⟨tr₁, s, tr₂, hs, ⟨rfl, he⟩, rfl⟩ := Prog.yields_bind.mp hy
    obtain ⟨rfl, rfl⟩ := Prod.mk.inj he
    obtain ⟨hdesc, ⟨hret, p, hev, hp⟩ | ⟨hret, hev, hp⟩⟩ := select_heap hN hs
    · exact ⟨hdesc, Or.inl ⟨decide_eq_true hret, p, by rw [List.append_nil, hev], hp⟩⟩
    · exact ⟨hdesc, Or.inr ⟨decide_eq_false hret, hp, by rw [List.append_nil, hev]; rfl⟩⟩
  | readFrom search quantity sizes =>
    obtain ⟨tr₁, s, tr₂, hs, ⟨rfl, he⟩, rfl⟩ := Prog.yields_bind.mp hy
    obtain ⟨rfl, rfl⟩ := Prod.mk.inj he
    obtain ⟨⟨hp, hdesc⟩, hev⟩ := quiet_heap (readFromSample_quiet hN search quantity sizes) hs
    exact ⟨hdesc, Or.inr ⟨rfl, hp, by rw [List.append_nil, hev]; rfl⟩⟩
  | read quantity dst =>
    obtain ⟨tr₁, s, tr₂, hs, ⟨rfl, he⟩, rfl⟩ := Prog.yields_bind.mp hy
    obtain ⟨rfl, rfl⟩ := Prod.mk.inj he
    obtain ⟨-, hev⟩ := quiet_heap (readQuantity_quiet quantity dst) hs
    exact ⟨rfl, Or.inr ⟨rfl, rfl, by rw [List.append_nil, hev]; rfl⟩⟩
  | endRead rev =>
    obtain ⟨hdesc, hp, hev⟩ := endRead_heap hy
    refine ⟨hdesc, Or.inr ⟨rfl, hp, hev.trans ?_⟩⟩
    simp only [ConsCall.gives, Bool.or_eq_true, decide_eq_true_eq]

theorem gives_of_takes {c : ConsCall} (h : c.takes ret = true) : c.gives ret = false := by
  cases c with
  | select search => rfl
  | _ => cases h

/-- Any calls of a consumer: the arrays they free are different from each other
and from those freed before exactly if the calls are accepted. -/
theorem consCalls_released (cs : List ConsCall) {rets : List Int} {h : Holding} {freed : List Nat}
    (hN : RingSize ctx.desc.nbSamples) (htells : h.Tells ctx.metadata freed) (hfreed : freed.Nodup)
    (hnew : (allocated (heapEvents tr)).Nodup)
    (hfresh : ∀ p ∈ allocated (heapEvents tr), p ∉ freed ∧ ctx.metadata ≠ some p)
    (hy : (consCalls F cs ctx).Yields tr (rets, ctx')) :
    (freed ++ released (heapEvents tr)).Nodup ↔ h.Accepts (cs.zip rets) := by
  induction cs generalizing ctx tr rets h freed with
  | nil =>
    obtain ⟨rfl, he⟩ := hy
    obtain ⟨rfl, rfl⟩ := Prod.mk.inj he
    rw [show released (heapEvents []) = [] from rfl, List.append_nil]
    exact iff_of_true hfreed trivial
  | cons c cs ih =>
    obtain ⟨tr₁, r, tr', hc, hrest, rfl⟩ := Prog.yields_bind.mp hy
    obtain ⟨tr₂, rs, tr₃, hcs, ⟨rfl, he⟩, rfl⟩ := Prog.yields_bind.mp hrest
    obtain ⟨rfl, rfl⟩ := Prod.mk.inj he
    rw [List.append_nil] at hnew hfresh ⊢
    rw [heapEvents_append, allocated_append] at hnew hfresh
    rw [heapEvents_append, released_append, List.zip_cons_cons]
    obtain ⟨hdesc, ⟨htake, p, hev, hp⟩ | ⟨htake, hp, hev⟩⟩ := consCall_heap hN hc
    · -- a new array: the pointer is in use, whatever it was
      rw [hev] at hnew hfresh
      obtain ⟨hp', hnew⟩ := List.nodup_cons.mp hnew
      have hafter : h.after c r.1 = .live := if_pos htake
      have hgive : c.gives r.1 = false := gives_of_takes htake
      rw [hev, ← List.append_assoc, show released [HeapEvent.alloc p] = [] from rfl,
        List.append_nil, Holding.Accepts, hafter, hgive,
        ih (hdesc ▸ hN) (h := .live) ⟨p, hp, (hfresh p List.mem_cons_self).1⟩ hfreed hnew
          (fun q hq => ⟨(hfresh q (List.mem_cons_of_mem _ hq)).1, ?_⟩) hcs]
      · simp
      · rw [hp]
        rintro heq
        exact hp' (Option.some.inj heq ▸ hq)
    · have hquiet : allocated (heapEvents tr₁) = [] := by
        rw [hev]
        split <;> rfl
      rw [hquiet, List.nil_append] at hnew hfresh
      rw [← hp] at hfresh htells
      cases hgive : c.gives r.1 with
      | false =>
        have hafter : h.after c r.1 = h := by rw [Holding.after, htake, hgive]; rfl
        rw [hev, hgive, ← List.append_assoc, Holding.Accepts, hafter, hgive,
          ← ih (hdesc ▸ hN) htells hfreed hnew hfresh hcs]
        simp [released]
      | true =>
        rw [hev, hgive, ← List.append_assoc, Holding.Accepts, hgive, ← hp]
        cases h with
        | null =>
          have hafter : Holding.after .null c r.1 = .null := by
            rw [Holding.after, htake, hgive]; rfl
          rw [hafter, ← ih (hdesc ▸ hN) htells hfreed hnew hfresh hcs, htells]
          simp [released]
        | live =>
          obtain ⟨q, hq, hqf⟩ := htells
          have hafter : Holding.after .live c r.1 = .spent := by
            rw [Holding.after, htake, hgive]; rfl
          have hfreed' : (freed ++ [q]).Nodup := by
            rw [← List.concat_eq_append, List.nodup_concat]
            exact ⟨hqf, hfreed⟩
          have hfresh' : ∀ p ∈ allocated (heapEvents tr₂),
              p ∉ freed ++ [q] ∧ r.2.metadata ≠ some p := by
            intro p hmem
            obtain ⟨hpf, hpq⟩ := hfresh p hmem
            refine ⟨fun hin => ?_, hpq⟩
            rcases List.mem_append.mp hin with hin | hin
            · exact hpf hin
            · exact hpq (List.mem_singleton.mp hin ▸ hq)
          have htells' : Holding.Tells .spent r.2.metadata (freed ++ [q]) :=
            ⟨q, hq, List.mem_append_right _ List.mem_cons_self⟩
          rw [hafter, ← ih (hdesc ▸ hN) htells' hfreed' hnew hfresh' hcs, hq]
          simp [released]
        | spent =>
          obtain ⟨q, hq, hqf⟩ := htells
          rw [hq]
          refine iff_of_false (fun hnodup => ?_) fun hacc => hacc.1 rfl rfl
          have hleft := (List.nodup_append.mp hnodup).1
          exact (List.nodup_append.mp hleft).2.2 q hqf q List.mem_cons_self rfl

theorem next_le {Ω : Type} (B : Backend Ω) (u : Nat) (o : Op) (w : World Ω) :
    w.heap.next ≤ ((machine B).step u o w).1.heap.next := by
  cases o with
  | calloc what => exact Nat.le_succ _
  | free what p => cases p <;> exact le_refl _
  | _ => exact le_refl _

/-- An operation allocates at most the next block. -/
theorem step_allocated {Ω : Type} (B : Backend Ω) (u : Nat) (o : Op) (w : World Ω) :
    allocated (heapEvents [⟨o, ((machine B).step u o w).2⟩]) = [] ∨
      (allocated (heapEvents [⟨o, ((machine B).step u o w).2⟩]) = [w.heap.next] ∧
        ((machine B).step u o w).1.heap.next = w.heap.next + 1) := by
  cases o with
  | calloc what =>
    cases what with
    | metadata =>
      have hr : ((machine B).step u (.calloc .metadata) w).2
          = if w.heap.oom w.heap.next then none else some w.heap.next := rfl
      rw [hr]
      cases w.heap.oom w.heap.next with
      | true => exact Or.inl rfl
      | false => exact Or.inr ⟨rfl, rfl⟩
    | _ => exact Or.inl rfl
  | free what p => cases what <;> exact Or.inl rfl
  | _ => exact Or.inl rfl

/-- Every array that a thread of a pool is given is a new one. -/
theorem trace_allocated {Ω α : Type} (B : Backend Ω) (t : Nat)
    (c : Config Op.Resp Nat (World Ω) α) (ts : List Nat) :
    (allocated (heapEvents (c.trace (machine B) t ts))).Nodup := by
  refine (trace_inv (M := machine B) (I := fun tr w => (allocated (heapEvents tr)).Nodup ∧
    ∀ p ∈ allocated (heapEvents tr), w.heap.next ≤ p) ?_ ?_ ?_ t c ts).1
  · rintro u o w tr ⟨hnodup, hge⟩
    exact ⟨hnodup, fun p hp => le_trans (next_le B u o w) (hge p hp)⟩
  · rintro u o w tr ⟨hnodup, hge⟩
    rw [← List.singleton_append, heapEvents_append, allocated_append]
    have hle := next_le B u o w
    rcases step_allocated B u o w with hnil | ⟨hone, hnext⟩
    · rw [hnil, List.nil_append]
      exact ⟨hnodup, fun p hp => le_trans hle (hge p hp)⟩
    · rw [hone, List.singleton_append, List.nodup_cons]
      refine ⟨⟨fun hmem => ?_, hnodup⟩, fun p hp => ?_⟩
      · have := hge _ hmem
        omega
      · rcases List.mem_cons.mp hp with rfl | hp
        · exact le_refl _
        · exact le_trans hle (hge p hp)
  · exact fun w => ⟨List.nodup_nil, fun p hp => absurd hp List.not_mem_nil⟩

/-- **The metadata array is freed once** exactly if no read ends on an array that
an earlier end gave back. The other threads of the pool run any programs, and
`rets` are the return codes the calls happen to get. -/
theorem freed_once_iff {Ω : Type} (B : Backend Ω) (F : Futils) {ctx ctx' : ShdCtx}
    (hN : RingSize ctx.desc.nbSamples) (hctx : ctx.metadata = none) (cs : List ConsCall)
    (rets : List Int) (t : Nat) (c : Config Op.Resp Nat (World Ω) (List Int × ShdCtx))
    (hc : c.pool t = consCalls F cs ctx) (ts : List Nat)
    (hdone : (c.run (machine B) ts).pool t = .ret (rets, ctx')) :
    (released (heapEvents (c.trace (machine B) t ts))).Nodup ↔
      Holding.null.Accepts (cs.zip rets) := by
  have hy := yields_run (machine B) t c ts hdone
  rw [hc] at hy
  have htells : Holding.null.Tells ctx.metadata [] := hctx
  refine consCalls_released cs hN htells List.nodup_nil (trace_allocated B t c ts)
    (fun p _ => ⟨List.not_mem_nil, ?_⟩) hy
  rw [hctx]
  exact (Option.some_ne_none p).symm

end Once

/-! ## Two sessions on one array -/

/-- A producer writes one sample to a section of 2 slots, and a consumer opens it. -/
def openedOnce : ShdProg (Option (ShdCtx × Int)) := do
  let p ← create "section" ⟨4, 2, 1, 0⟩ [] none
  match p with
  | none => return none
  | some p =>
    let _ ← writeNewBlob p [1, 2, 3, 4] 4 ⟨⟨0, 0⟩, ⟨0, 0⟩⟩
    openCtx "section" none

/-- The consumer, as thread 1, and its revision. -/
def opened : ShdCtx × Int := ((exec (machine shm) 0 openedOnce Shm.world).1).getD default

def sessions (cs : List ConsCall) : Config Op.Resp Nat (World Shm) (List Int × ShdCtx) where
  st := (exec (machine shm) 0 openedOnce Shm.world).2
  pool := fun t => consCalls libfutils (if t = 1 then cs else []) opened.1

/-- The latest sample. -/
def latestSearch : SampleSearch := ⟨⟨0, 0⟩, .latest, 0, 0⟩

/-- Two selections, each ended. -/
def ownSessions : List ConsCall :=
  [.select latestSearch, .endRead 2, .select latestSearch, .endRead 2]

/-- A selection, and a read of one quantity in a session of its own. -/
def sharedSessions : List ConsCall :=
  [.select latestSearch, .endRead 2, .readFrom latestSearch [⟨0, 4⟩] [4], .endRead 2]

def sessionsEnd (cs : List ConsCall) : Prog Op.Resp (List Int × ShdCtx) :=
  ((sessions cs).run (machine shm) (List.replicate 80 1)).pool 1

/-- Each of the two arrays is freed once. -/
theorem freed_once_own :
    (released (heapEvents
      ((sessions ownSessions).trace (machine shm) 1 (List.replicate 80 1)))).Nodup := by
  have hdone : (sessionsEnd ownSessions).returned
      = some ([0, 0, 0, 0], ((sessionsEnd ownSessions).returned.getD default).2) := by
    decide +kernel
  exact (freed_once_iff shm libfutils ⟨by decide +kernel, by decide +kernel⟩ (by decide +kernel)
    ownSessions [0, 0, 0, 0] 1 (sessions ownSessions) rfl (List.replicate 80 1)
    (Prog.eq_ret_of_returned hdone)).mpr (by decide)

/-- `shd_read_from_sample` allocates no array, and the end of its session frees the
one of the selection before again. -/
theorem freed_twice :
    ((sessionsEnd sharedSessions).returned.map fun r => r.1) = some [0, 0, 1, 0] ∧
      ¬ (released (heapEvents
        ((sessions sharedSessions).trace (machine shm) 1 (List.replicate 80 1)))).Nodup := by
  decide +kernel

end Shdata.Consumer
