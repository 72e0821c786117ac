/-
Shdata.Consumer.Window — the window around a reference sample, in exact
integers.

Seen from the last write index `t`, the slot `ref` has `gap (t + 1) ref`
slots behind it and `gap ref t` before it, `N - 1` in all. The window takes
as many of each as the search asks for and there are. With a request of at
most `N` slots no conversion of `shd_window_set` changes a value, and the
walk that starts at slot `t + 1` meets the slots of the window in order.
-/
import Shdata.Consumer.Search

namespace Shdata.Consumer

open Shdata.Bytes Shdata.Core Shdata.Ring Shdata.Layout

/-- A request of at most `N` slots, as an exact sum. -/
def Fits (N : Int) (search : SampleSearch) : Prop :=
  (search.nbValuesBeforeDate.toNat : Int) + search.nbValuesAfterDate.toNat + 1 ≤ N

/-- Slots of the window before the reference sample. -/
def nbBefore (N t ref : Int) (search : SampleSearch) : Int :=
  min (gap N (t + 1) ref) search.nbValuesBeforeDate.toNat

/-- Slots of the window after the reference sample. -/
def nbAfter (N t ref : Int) (search : SampleSearch) : Int :=
  min (gap N ref t) search.nbValuesAfterDate.toNat

/-- A window of `nbBefore` slots, the reference sample, and `nbAfter` slots. -/
structure Around (N t ref : Int) (search : SampleSearch) (w : Window) : Prop where
  start : w.startIdx = (ref - nbBefore N t ref search) % N
  refIdx : w.refIdx = ref
  nbMatches : w.nbMatches = toI32 (nbBefore N t ref search + 1 + nbAfter N t ref search)

section Window

variable {N t ref : Int} {search : SampleSearch}

theorem gap_succ_add_gap (hN : 0 < N) (t ref : Int) : gap N (t + 1) ref + gap N ref t = N - 1 := by
  have hg := gap_nonneg hN (t + 1) ref
  have hlt := gap_lt hN (t + 1) ref
  have h : gap N ref t = (N - 1 - gap N (t + 1) ref) % N := by
    unfold gap
    have hd := Int.emod_add_mul_ediv (ref - (t + 1)) N
    have he : t - ref = N - 1 - (ref - (t + 1)) % N + N * (-1 - (ref - (t + 1)) / N) := by
      rw [Int.mul_sub]
      omega
    rw [he, Int.add_mul_emod_self_left]
  rw [h, Int.emod_eq_of_lt (by omega) (by omega)]
  omega

theorem nbBefore_bounds (hN : 0 < N) (t ref : Int) (search : SampleSearch) :
    0 ≤ nbBefore N t ref search ∧ nbBefore N t ref search ≤ gap N (t + 1) ref ∧
      nbBefore N t ref search ≤ search.nbValuesBeforeDate.toNat := by
  have := gap_nonneg hN (t + 1) ref
  unfold nbBefore
  omega

theorem nbAfter_bounds (hN : 0 < N) (t ref : Int) (search : SampleSearch) :
    0 ≤ nbAfter N t ref search ∧ nbAfter N t ref search ≤ gap N ref t ∧
      nbAfter N t ref search ≤ search.nbValuesAfterDate.toNat := by
  have := gap_nonneg hN ref t
  unfold nbAfter
  omega

/-- The window has at most `N` slots, and no slot but the last `N` uses of the
ring: walking from slot `t + 1` on one meets it in order. -/
theorem window_inOrder (hN : 0 < N) (t ref : Int) (search : SampleSearch) :
    gap N (t + 1) (ref - nbBefore N t ref search)
      + (nbBefore N t ref search + 1 + nbAfter N t ref search) ≤ N := by
  obtain ⟨hb0, hb1, -⟩ := nbBefore_bounds hN t ref search
  obtain ⟨ha0, ha1, -⟩ := nbAfter_bounds hN t ref search
  have hsum := gap_succ_add_gap hN t ref
  have hg := gap_nonneg hN ref t
  have hstart : gap N (t + 1) (ref - nbBefore N t ref search)
      = gap N (t + 1) ref - nbBefore N t ref search := by
    have h : (ref - nbBefore N t ref search) % N
        = (t + 1 + (gap N (t + 1) ref - nbBefore N t ref search)) % N := by
      have := Int.emod_add_emod (t + 1 + gap N (t + 1) ref) N (-nbBefore N t ref search)
      rw [add_gap_emod, Int.emod_add_emod] at this
      rw [Int.sub_eq_add_neg, this]
      congr 1
      omega
    rw [← gap_emod_right, h, gap_emod_right, gap_add _ (by omega) (by omega)]
  omega

/-- The reference sample is `nbBefore` slots after the start. -/
theorem intervalBetween_ref (hN : RingSize N) (href : IsSlot N ref) (t : Int)
    (search : SampleSearch) :
    intervalBetween ((ref - nbBefore N t ref search) % N) ref N = nbBefore N t ref search := by
  obtain ⟨hb0, hb1, -⟩ := nbBefore_bounds hN.pos t ref search
  have hlt := gap_lt hN.pos (t + 1) ref
  rw [intervalBetween_eq hN (isSlot_emod hN _) href, gap_emod_left]
  unfold gap
  rw [show ref - (ref - nbBefore N t ref search) = nbBefore N t ref search by omega]
  exact Int.emod_eq_of_lt hb0 (by omega)

/-- The end of the window around a slot. -/
theorem endIdx_windowAround (d : DataSectionDesc) (hN : RingSize d.nbSamples)
    (hfit : Fits d.nbSamples search) {ctx : SearchCtx} (ht : IsSlot d.nbSamples ctx.tIndex)
    (href : IsSlot d.nbSamples ref) :
    (windowAround search d ctx ref).endIdx
      = (ref + nbAfter d.nbSamples ctx.tIndex ref search) % d.nbSamples := by
  have hsmall := hN.small
  have hafter : toI32 search.nbValuesAfterDate.toNat = search.nbValuesAfterDate.toNat :=
    toI32_of_bounds (by omega) (by unfold Fits at hfit; omega)
  have hnewer : nbMoreRecentSamples d ctx ref = gap d.nbSamples ref ctx.tIndex := by
    rw [nbMoreRecentSamples, intervalBetween_eq hN href ht, toI32_gap hN]
  obtain ⟨ha0, ha1, -⟩ := nbAfter_bounds hN.pos ctx.tIndex ref search
  have hlt := gap_lt hN.pos ref ctx.tIndex
  have hr0 := href.nonneg
  have hr1 := href.lt
  simp only [windowAround, hnewer, hafter]
  exact indexNAfter_eq hN (by unfold nbAfter at *; omega) (by unfold nbAfter at *; omega)

/-- What `shd_window_set` makes of a reference sample. -/
theorem around_windowAround (d : DataSectionDesc) (hN : RingSize d.nbSamples)
    (hfit : Fits d.nbSamples search) {ctx : SearchCtx} (ht : IsSlot d.nbSamples ctx.tIndex)
    (href : IsSlot d.nbSamples ref) :
    Around d.nbSamples ctx.tIndex ref search (windowAround search d ctx ref) := by
  have hsmall := hN.small
  have hbefore : toI32 search.nbValuesBeforeDate.toNat = search.nbValuesBeforeDate.toNat :=
    toI32_of_bounds (by omega) (by unfold Fits at hfit; omega)
  have hnext : indexNext ctx.tIndex d.nbSamples = (ctx.tIndex + 1) % d.nbSamples :=
    indexNext_eq hN (by have := ht.nonneg; omega) ht.lt
  have holder : nbOlderSamples d ctx ref = gap d.nbSamples (ctx.tIndex + 1) ref := by
    rw [nbOlderSamples, hnext, intervalBetween_eq hN (isSlot_emod hN _) href, gap_emod_left,
      toI32_gap hN]
  obtain ⟨hb0, hb1, -⟩ := nbBefore_bounds hN.pos ctx.tIndex ref search
  obtain ⟨ha0, ha1, -⟩ := nbAfter_bounds hN.pos ctx.tIndex ref search
  have hglt := gap_lt hN.pos (ctx.tIndex + 1) ref
  have hnlt := gap_lt hN.pos ref ctx.tIndex
  have hsum := gap_succ_add_gap hN.pos ctx.tIndex ref
  have hr0 := href.nonneg
  have hr1 := href.lt
  have hstart : (windowAround search d ctx ref).startIdx
      = (ref - nbBefore d.nbSamples ctx.tIndex ref search) % d.nbSamples := by
    simp only [windowAround, holder, hbefore]
    exact indexNBefore_eq hN (by unfold nbBefore at *; omega) (by unfold nbBefore at *; omega)
  have hend : (windowAround search d ctx ref).endIdx
      = (ref + nbAfter d.nbSamples ctx.tIndex ref search) % d.nbSamples :=
    endIdx_windowAround d hN hfit ht href
  refine ⟨hstart, rfl, ?_⟩
  have hlen : intervalBetween (windowAround search d ctx ref).startIdx
      (windowAround search d ctx ref).endIdx d.nbSamples
        = nbBefore d.nbSamples ctx.tIndex ref search + nbAfter d.nbSamples ctx.tIndex ref search := by
    rw [hstart, hend, intervalBetween_eq hN (isSlot_emod hN _) (isSlot_emod hN _), gap_emod_left,
      gap_emod_right]
    unfold gap
    rw [Int.emod_eq_of_lt (by omega) (by omega)]
    omega
  show toI32 (1 + intervalBetween (windowAround search d ctx ref).startIdx
    (windowAround search d ctx ref).endIdx d.nbSamples) = _
  rw [hlen]
  congr 1
  omega

/-- A search for one sample. -/
def Single (search : SampleSearch) : Prop :=
  search.nbValuesBeforeDate.toNat = 0 ∧ search.nbValuesAfterDate.toNat = 0

theorem Single.fits (hN : RingSize N) (h : Single search) : Fits N search := by
  have := hN.pos
  unfold Fits
  rw [h.1, h.2]
  omega

/-- The window of a search for one sample. -/
theorem windowAround_single (d : DataSectionDesc) (hN : RingSize d.nbSamples) (h : Single search)
    {ctx : SearchCtx} (ht : IsSlot d.nbSamples ctx.tIndex) (href : IsSlot d.nbSamples ref) :
    windowAround search d ctx ref = ⟨ref, ref, ref, 1⟩ := by
  have hfit := h.fits hN
  have haround := around_windowAround d hN hfit ht href
  have hstop := endIdx_windowAround d hN hfit ht href
  obtain ⟨hb0, -, hb1⟩ := nbBefore_bounds hN.pos ctx.tIndex ref search
  obtain ⟨ha0, -, ha1⟩ := nbAfter_bounds hN.pos ctx.tIndex ref search
  rw [h.1] at hb1
  rw [h.2] at ha1
  have hbefore : nbBefore d.nbSamples ctx.tIndex ref search = 0 := by omega
  have hafter : nbAfter d.nbSamples ctx.tIndex ref search = 0 := by omega
  have hstart := haround.start
  have hnb := haround.nbMatches
  rw [hbefore, Int.sub_zero, href.emod] at hstart
  rw [hafter, Int.add_zero, href.emod] at hstop
  rw [hbefore, hafter, toI32_of_bounds (by omega) (by omega)] at hnb
  exact (Window.mk.injEq ..).mpr ⟨hstart, haround.refIdx, hstop, hnb⟩

end Window

end Shdata.Consumer
