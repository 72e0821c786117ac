/-
Shdata.Consumer.Search — what the search functions do whatever they read.

A search only loads, and asks for the address of slots of its own
description: `Searching` is that, and it holds for every response. The index
of the reference sample it returns is negative or a slot, since every index
it computes comes out of a modulo. One assumption is needed, on the
last write index that `shd_search_start` loads and passes on as it is: `T`
is what the caller knows of it.
-/
import Shdata.Layout.Slots

namespace Shdata.Consumer

open Shdata.Conc Shdata.Bytes Shdata.Core Shdata.Ring Shdata.Layout

/-! ## Operations of a search -/

/-- A load that takes no snapshot and copies no row, or the address of a slot.
The index that the search starts from is loaded from the header at `hdr`. -/
def Searching (hdr : Int) (d : DataSectionDesc) : Op → Prop
  | .read .searchStart a len => a = hdr + offsetofWriteIndex ∧ len = 4
  | .read (.startReadSession _) _ _ => False
  | .read (.windowRead _) _ _ => False
  | .read (.dataReadQuantitySample _) _ _ => False
  | .read _ _ _ => True
  | .samplePtr desc i => desc = d ∧ IsSlot d.nbSamples i
  | _ => False

/-- The index that a search starts from satisfies `T`. -/
def StartIndex (T : Int → Prop) : (o : Op) → o.Resp → Prop
  | .read .searchStart _ _, bs => T (decI32 bs)
  | _, _ => True

section Search

variable {hdr : Int} {d : DataSectionDesc} {T : Int → Prop} {ctx : SearchCtx} {α : Type} {Q : α → Prop}

theorem ensures_samplePtr {i : Int} {f : Int → ShdProg α} (hi : IsSlot d.nbSamples i)
    (h : ∀ p, (f p).Ensures (StartIndex T) (Searching hdr d) Q) :
    (getSamplePtr d i >>= f).Ensures (StartIndex T) (Searching hdr d) Q :=
  Prog.ensures_perform ⟨rfl, hi⟩ fun p _ => h p

theorem ensures_isSampleValid {samp : Int} {f : Bool → ShdProg α}
    (h : ∀ b, (f b).Ensures (StartIndex T) (Searching hdr d) Q) :
    (syncIsSampleValid samp >>= f).Ensures (StartIndex T) (Searching hdr d) Q :=
  Prog.ensures_perform trivial fun _ _ => h _

theorem ensures_timestampCmp {F : Futils} {samp : Int} {date : Timespec} {f : Int → ShdProg α}
    (h : ∀ n, (f n).Ensures (StartIndex T) (Searching hdr d) Q) :
    (sampleTimestampCmp F samp date >>= f).Ensures (StartIndex T) (Searching hdr d) Q :=
  Prog.ensures_perform trivial fun _ _ => h _

/-! ## Depth of the search -/

theorem searchDepthLoop_ensures (hN : RingSize d.nbSamples) (n : Nat) (depth : Int) :
    (searchDepthLoop d ctx n depth).Ensures (StartIndex T) (Searching hdr d) fun _ => True := by
  induction n generalizing depth with
  | zero => exact trivial
  | succ n ih =>
    refine ensures_samplePtr (isSlot_indexNBefore hN _ _) fun p => ?_
    refine ensures_isSampleValid fun valid => ?_
    cases valid with
    | true => exact ih _
    | false => exact trivial

theorem searchGetMaxDepth_ensures (hN : RingSize d.nbSamples) :
    (searchGetMaxDepth d ctx).Ensures (StartIndex T) (Searching hdr d) fun _ => True := by
  unfold searchGetMaxDepth
  split
  · exact trivial
  · exact searchDepthLoop_ensures hN _ _

/-! ## Reference sample -/

/-- A reference sample that was found is a slot. -/
def FoundSlot (d : DataSectionDesc) (r : RefSearch) : Prop :=
  r.found = true → IsSlot d.nbSamples r.mIndex

theorem searchNaiveLoop_ensures (F : Futils) (hN : RingSize d.nbSamples) (date : Timespec)
    (n : Nat) (m searched : Int) (hm : IsSlot d.nbSamples m) :
    (searchNaiveLoop F d date n m searched).Ensures (StartIndex T) (Searching hdr d)
      (FoundSlot d) := by
  induction n generalizing m searched with
  | zero => exact fun hf => absurd hf (by simp)
  | succ n ih =>
    refine ensures_samplePtr hm fun p => ensures_timestampCmp fun cmp => ?_
    split
    · exact fun _ => hm
    · exact ih _ _ (isSlot_indexPrevious hN m)

theorem searchReferenceSampleNaive_ensures (F : Futils) (hN : RingSize d.nbSamples)
    (date : Timespec) (ht : IsSlot d.nbSamples ctx.tIndex) :
    (searchReferenceSampleNaive F d date ctx).Ensures (StartIndex T) (Searching hdr d)
      (FoundSlot d) :=
  (searchGetMaxDepth_ensures hN).bind fun _ _ => searchNaiveLoop_ensures F hN date _ _ _ ht

/-- The middle of two indices in a ring of at most 2^30 + 1 slots: their sum is an
`int`. -/
theorem imid_eq {imin imax : Int} (h0 : 0 ≤ imin) (hlt : imin < imax) (h1 : imax ≤ 1073741824) :
    (toI32 (imin + imax)).tdiv 2 = (imin + imax) / 2 := by
  rw [toI32_of_bounds (by omega) (by omega), Int.tdiv_eq_ediv_of_nonneg (by omega)]

/-- The loop of the binary search computed the index it compared last. -/
theorem searchBinaryLoop_ensures (F : Futils) (hN : RingSize d.nbSamples) (date : Timespec)
    (maxDepth : Int) (n : Nat) (s : BinarySearch) (hs : s.res < 0 → IsSlot d.nbSamples s.mIndex) :
    (searchBinaryLoop F d date ctx maxDepth n s).Ensures (StartIndex T) (Searching hdr d)
      fun s' => s'.res < 0 → IsSlot d.nbSamples s'.mIndex := by
  induction n generalizing s with
  | zero => exact hs
  | succ n ih =>
    unfold searchBinaryLoop
    split
    · have hm := isSlot_indexNBefore hN ctx.tIndex
        (toI32 (maxDepth - 1 - (toI32 (s.imin + s.imax)).tdiv 2))
      refine ensures_samplePtr hm fun p => ensures_timestampCmp fun res => ?_
      dsimp only
      split
      · exact ih _ fun _ => hm
      · exact ih _ fun _ => hm
    · exact hs

theorem searchReferenceSampleBinary_ensures (F : Futils) (hN : RingSize d.nbSamples)
    (date : Timespec) :
    (searchReferenceSampleBinary F d date ctx).Ensures (StartIndex T) (Searching hdr d)
      (FoundSlot d) := by
  refine (searchGetMaxDepth_ensures hN).bind fun depth _ => ?_
  refine (searchBinaryLoop_ensures F hN date _ _ _ (by simp)).bind fun s hs => ?_
  refine Prog.Ensures.bind (Q := fun last : Int × Int =>
    last.2 < 0 → IsSlot d.nbSamples last.1) ?_ fun last hlast => ?_
  · split
    · have hm := isSlot_indexNBefore hN ctx.tIndex (toI32 (toI32 depth - 1 - s.imin))
      exact ensures_samplePtr hm fun p => ensures_timestampCmp fun res => fun _ => hm
    · exact hs
  · split
    · split
      · exact fun _ => isSlot_indexPrevious hN _
      · exact fun hf => absurd hf (by simp)
    · rename_i hneg
      exact fun _ => hlast (by omega)

theorem searchReferenceSample_ensures (F : Futils) (hN : RingSize d.nbSamples) (date : Timespec)
    (ht : IsSlot d.nbSamples ctx.tIndex) (hint : RefSearchHint) :
    (searchReferenceSample F d date ctx hint).Ensures (StartIndex T) (Searching hdr d)
      (FoundSlot d) := by
  cases hint with
  | naive => exact searchReferenceSampleNaive_ensures F hN date ht
  | binary => exact searchReferenceSampleBinary_ensures F hN date
  | date => exact searchReferenceSampleNaive_ensures F hN date ht

/-! ## Search methods -/

/-- The index of a reference sample: negative, or a slot. -/
def RefIndex (d : DataSectionDesc) (i : Int) : Prop := i < 0 ∨ IsSlot d.nbSamples i

theorem searchOldest_ensures (hN : RingSize d.nbSamples) :
    (searchOldest d ctx).Ensures (StartIndex T) (Searching hdr d) (RefIndex d) := by
  refine (searchGetMaxDepth_ensures hN).bind fun depth _ => ?_
  split
  · exact Or.inr (isSlot_indexNAfter hN _ _)
  · exact Or.inr (isSlot_indexNBefore hN _ _)

theorem searchFirstMatchAfter_ensures (F : Futils) (hN : RingSize d.nbSamples) (date : Timespec)
    (ht : IsSlot d.nbSamples ctx.tIndex) (hint : RefSearchHint) :
    (searchFirstMatchAfter F d date ctx hint).Ensures (StartIndex T) (Searching hdr d)
      (RefIndex d) := by
  refine (searchReferenceSample_ensures F hN date ht hint).bind fun r _ => ?_
  split
  · split
    · exact Or.inr (isSlot_indexNext hN _)
    · exact Or.inl (show (-1 : Int) < 0 by decide)
  · exact Or.inr (isSlot_indexNext hN _)

theorem searchFirstMatchBefore_ensures (F : Futils) (hN : RingSize d.nbSamples) (date : Timespec)
    (ht : IsSlot d.nbSamples ctx.tIndex) (hint : RefSearchHint) :
    (searchFirstMatchBefore F d date ctx hint).Ensures (StartIndex T) (Searching hdr d)
      (RefIndex d) := by
  refine (searchReferenceSample_ensures F hN date ht hint).bind fun r hr => ?_
  split
  · rename_i hfound
    exact Or.inr (hr hfound)
  · exact Or.inl (show (-1 : Int) < 0 by decide)

theorem sampleClosestTimestamp_ensures (F : Futils) (before after : Int) (date : Timespec) :
    (sampleClosestTimestamp F before after date).Ensures (StartIndex T) (Searching hdr d)
      fun _ => True := by
  refine Prog.ensures_perform trivial fun bs _ => ?_
  dsimp only
  split
  · exact trivial
  · refine Prog.ensures_perform trivial fun bs' _ => ?_
    split <;> exact trivial

theorem searchClosestMatch_ensures (F : Futils) (hN : RingSize d.nbSamples) (date : Timespec)
    (ht : IsSlot d.nbSamples ctx.tIndex) (hint : RefSearchHint) :
    (searchClosestMatch F d date ctx hint).Ensures (StartIndex T) (Searching hdr d) (RefIndex d) := by
  refine (searchReferenceSample_ensures F hN date ht hint).bind fun r hr => ?_
  split
  · exact Or.inr (isSlot_indexNext hN _)
  · rename_i hfound
    have hm : IsSlot d.nbSamples r.mIndex := hr (by simpa using hfound)
    split
    · exact Or.inr ht
    · have ha := isSlot_indexNext hN r.mIndex
      refine ensures_samplePtr hm fun p => ensures_samplePtr ha fun q => ?_
      refine (sampleClosestTimestamp_ensures F p q date).bind fun ret _ => ?_
      split
      · exact Or.inr ha
      · exact Or.inr hm

theorem windowRefIdx_ensures (F : Futils) (search : SampleSearch) (hN : RingSize d.nbSamples)
    (ht : IsSlot d.nbSamples ctx.tIndex) (hint : RefSearchHint) :
    (windowRefIdx F search d ctx hint).Ensures (StartIndex T) (Searching hdr d) (RefIndex d) := by
  unfold windowRefIdx
  split
  · exact Or.inr ht
  · exact searchOldest_ensures hN
  · exact searchClosestMatch_ensures F hN _ ht hint
  · exact searchFirstMatchAfter_ensures F hN _ ht hint
  · exact searchFirstMatchBefore_ensures F hN _ ht hint

/-! ## Windows -/

theorem searchEnd_ensures {i : Int} (hi : IsSlot d.nbSamples i) :
    (searchEnd hdr ctx i d).Ensures (StartIndex T) (Searching hdr d) fun _ => True := by
  refine ⟨trivial, fun bs _ => ?_⟩
  refine ⟨⟨rfl, hi⟩, fun p _ => ?_⟩
  exact ⟨trivial, fun _ _ => trivial⟩

theorem isSlot_startIdx (hN : RingSize d.nbSamples) (search : SampleSearch) (ctx : SearchCtx)
    (ref : Int) : IsSlot d.nbSamples (windowAround search d ctx ref).startIdx :=
  isSlot_indexNBefore hN _ _

theorem isSlot_endIdx (hN : RingSize d.nbSamples) (search : SampleSearch) (ctx : SearchCtx)
    (ref : Int) : IsSlot d.nbSamples (windowAround search d ctx ref).endIdx :=
  isSlot_indexNAfter hN _ _

/-- What a search that was not refused makes of the window: the window around a
slot, seen from the index that the search started from. -/
def WindowSet (T : Int → Prop) (d : DataSectionDesc) (search : SampleSearch) (r : Int × Window) :
    Prop :=
  ∃ ctx ref, T ctx.tIndex ∧ IsSlot d.nbSamples ref ∧ r.2 = windowAround search d ctx ref ∧
    r.1 = r.2.nbMatches

/-- `shd_window_set` fails, or the window is one around a slot. A failure leaves
the idle window. -/
theorem windowSet_ensures (F : Futils) (search : SampleSearch) (hN : RingSize d.nbSamples)
    (hT : ∀ i, T i → IsSlot d.nbSamples i) (window : Window) (hint : RefSearchHint) :
    (windowSet F window hdr search d hint).Ensures (StartIndex T) (Searching hdr d)
      fun r => (r.1 < 0 ∧ r.2 = (windowReset window).2) ∨ WindowSet T d search r := by
  refine ⟨⟨rfl, rfl⟩, fun bs ht => ?_⟩
  refine ⟨⟨rfl, hT _ ht⟩, fun p _ => ?_⟩
  refine ⟨trivial, fun bs' _ => ?_⟩
  have href := @windowRefIdx_ensures hdr d T _ F search hN
    (show IsSlot d.nbSamples (⟨decI32 bs, decI32 bs'⟩ : SearchCtx).tIndex from hT _ ht) hint
  refine href.bind fun ref href => ?_
  split
  · exact Or.inl ⟨show -ENOENT < 0 by decide, rfl⟩
  · rename_i hneg
    have hslot : IsSlot d.nbSamples ref := href.resolve_left hneg
    refine (searchEnd_ensures (isSlot_startIdx hN search _ ref)).bind fun overwritten _ => ?_
    split
    · exact Or.inl ⟨show -EFAULT < 0 by decide, rfl⟩
    · exact ensures_samplePtr hslot fun p => Or.inr ⟨⟨decI32 bs, decI32 bs'⟩, ref, ht, hslot, rfl, rfl⟩

end Search

end Shdata.Consumer
