/-
Shdata.Progress.Reading — how many operations a call of a consumer takes.

The section may hold any bytes, and they may change at every step. A call of a
consumer then still performs loads and uses the heap only, and no more of
them than the size of the ring and of the request allow: the depth scan, the two
searches and the copies all count rounds (`selectSamples_within`,
`readFromSample_within`, `readQuantity_within`, `endRead_within`).

The binary search is the exception. Its interval shrinks as long as the sum of
its bounds is an `int` (`searchBinaryLoop_ends`); with more than 2^30 + 1
samples the number of rounds is that of the run (`spare`).
-/
import Shdata.Conc.Bounded
import Shdata.Readers.Calls

namespace Shdata.Progress

open Shdata.Conc Shdata.Bytes Shdata.Core Shdata.Ring Shdata.Layout Shdata.Consumer Shdata.Readers

variable {F : Futils} {d : DataSectionDesc} {ctx : ShdCtx} {sctx : SearchCtx} {n : Nat}

/-- A program of at most `n` loads and uses of the heap. -/
abbrev Takes {α : Type} (p : ShdProg α) (n : Nat) (Q : α → Prop) : Prop := p.Within Reads n Q

/-! ## Search -/

/-- One load of a timestamp. -/
theorem sampleTimestampCmp_within (sample : Int) (date : Timespec) :
    Takes (sampleTimestampCmp F sample date) 1 fun _ => True :=
  Prog.within_perform trivial fun _ => Prog.within_ret trivial

/-- The second timestamp is loaded only if the first difference could be formed. -/
theorem sampleClosestTimestamp_within (before after : Int) (date : Timespec) :
    Takes (sampleClosestTimestamp F before after date) 2 fun _ => True := by
  refine Prog.within_perform trivial fun bs => ?_
  dsimp only
  split
  · exact Prog.within_ret trivial
  · refine Prog.within_perform trivial fun bs' => ?_
    split <;> exact Prog.within_ret trivial

/-- By induction on the slots that are left; the depth grows by at most one for each. -/
theorem searchDepthLoop_within (n : Nat) (depth : Int) :
    Takes (searchDepthLoop d sctx n depth) (2 * n) fun v => depth ≤ v ∧ v ≤ depth + n := by
  induction n generalizing depth with
  | zero => exact Prog.within_ret ⟨le_refl _, by simp⟩
  | succ n ih =>
    refine Prog.within_perform (n := 2 * n + 1) trivial fun p => ?_
    refine Prog.within_perform (n := 2 * n) trivial fun bs => ?_
    dsimp only
    split
    · exact (ih (depth + 1)).mono (le_refl _) fun v hv => ⟨by omega, by push_cast; omega⟩
    · exact Prog.within_ret ⟨le_refl _, by push_cast; omega⟩

/-- A depth is at most the size of the ring, whatever the counters hold. -/
theorem searchGetMaxDepth_within (hN : 0 ≤ d.nbSamples) :
    Takes (searchGetMaxDepth d sctx) (2 * d.nbSamples.toNat) fun v => 0 ≤ v ∧ v ≤ d.nbSamples := by
  unfold searchGetMaxDepth
  split
  · exact Prog.within_ret ⟨hN, le_refl _⟩
  · exact (searchDepthLoop_within _ 0).mono (le_refl _) fun v hv => ⟨hv.1, by omega⟩

/-- A pointer and a comparison for each round. -/
theorem searchNaiveLoop_within (date : Timespec) (n : Nat) (i searched : Int) :
    Takes (searchNaiveLoop F d date n i searched) (2 * n) fun _ => True := by
  induction n generalizing i searched with
  | zero => exact Prog.within_ret trivial
  | succ n ih =>
    refine Prog.within_perform (n := 2 * n + 1) trivial fun p => ?_
    refine Prog.within_perform (n := 2 * n) trivial fun bs => ?_
    dsimp only
    split
    · exact Prog.within_ret trivial
    · exact ih _ _

/-- No more rounds than the loop is followed for. -/
theorem searchBinaryLoop_within (date : Timespec) (depth : Int) (n : Nat) (s : BinarySearch) :
    Takes (searchBinaryLoop F d date sctx depth n s) (2 * n) fun _ => True := by
  induction n generalizing s with
  | zero => exact Prog.within_ret trivial
  | succ n ih =>
    unfold searchBinaryLoop
    split
    · refine Prog.within_perform (n := 2 * n + 1) trivial fun p => ?_
      refine Prog.within_perform (n := 2 * n) trivial fun bs => ?_
      dsimp only
      split
      · exact ih _
      · exact ih _
    · exact Prog.within_ret trivial

/-- Up to 2^30 + 1 samples the loop ends by itself: each round makes `imax - imin`
smaller, whatever the samples are, and a loop that is followed for that many rounds
is over. -/
theorem searchBinaryLoop_ends (date : Timespec) (depth : Int) {n k : Nat} {s : BinarySearch}
    (h0 : 0 ≤ s.imin) (h1 : s.imax ≤ 1073741824) (hk : s.imax - s.imin ≤ k) (hkn : k ≤ n) :
    Takes (searchBinaryLoop F d date sctx depth n s) (2 * k) fun s' => s'.imax ≤ s'.imin := by
  induction n generalizing k s with
  | zero => exact Prog.within_ret (by omega)
  | succ n ih =>
    unfold searchBinaryLoop
    split
    · rename_i hround
      have hmiddle := imid_eq h0 hround h1
      obtain ⟨k, rfl⟩ : ∃ l, k = l + 1 := ⟨k - 1, by omega⟩
      refine Prog.within_perform (n := 2 * k + 1) trivial fun p => ?_
      refine Prog.within_perform (n := 2 * k) trivial fun bs => ?_
      dsimp only
      rw [hmiddle, toI32_of_bounds (x := (s.imin + s.imax) / 2 + 1) (by omega) (by omega)]
      split
      · exact ih (by dsimp only; omega) h1 (by dsimp only; omega) (by omega)
      · exact ih h0 (by dsimp only; omega) (by dsimp only; omega) (by omega)
    · exact Prog.within_ret (by omega)

/-- The rounds of a search that a run follows beyond the depth: none where the search
ends by itself. -/
def spare (F : Futils) (hint : RefSearchHint) (N : Int) : Nat :=
  if hint = .binary ∧ 1073741825 < N then F.rounds else 0

/-- A depth as an `int` is no larger than the ring. -/
theorem toI32_depth_le {v : Int} (h : 0 ≤ v ∧ v ≤ d.nbSamples) :
    (toI32 v).toNat ≤ d.nbSamples.toNat := by
  have : toI32 v ≤ v := by
    unfold toI32
    omega
  omega

/-- The depth scan and a loop of as many rounds. -/
theorem searchReferenceSampleNaive_within (hN : 0 ≤ d.nbSamples) (date : Timespec) :
    Takes (searchReferenceSampleNaive F d date sctx) (4 * d.nbSamples.toNat) fun _ => True := by
  refine Prog.Within.mono (n := 2 * d.nbSamples.toNat + 2 * d.nbSamples.toNat)
    ((searchGetMaxDepth_within hN).bind fun v hv => ?_) (by omega) fun _ h => h
  exact (searchNaiveLoop_within date _ _ _).mono
    (Nat.mul_le_mul_left 2 (toI32_depth_le hv)) fun _ h => h

/-- The loop of a search at depth `v`. A ring of up to 2^30 + 1 slots is bisected by
`searchBinaryLoop_ends`, a larger one for as long as the run follows the loop. -/
theorem searchBinaryLoop_depth (date : Timespec) {v : Int} (hv : 0 ≤ v ∧ v ≤ d.nbSamples) :
    Takes (searchBinaryLoop F d date sctx (toI32 v) (v.toNat + F.rounds)
      ⟨0, toI32 (toI32 v - 1), 0, 0, -1, 0⟩)
      (2 * (d.nbSamples.toNat + spare F .binary d.nbSamples)) fun _ => True := by
  obtain ⟨hv0, hvN⟩ := hv
  by_cases hlarge : 1073741825 < d.nbSamples
  · rw [spare, if_pos ⟨rfl, hlarge⟩]
    exact (searchBinaryLoop_within date _ _ _).mono (by omega) fun _ h => h
  · have hv32 : toI32 v = v := toI32_of_bounds hv0 (by omega)
    have himax : toI32 (v - 1) = v - 1 := toI32_of_isI32 ⟨by omega, by omega⟩
    rw [hv32, himax]
    exact (searchBinaryLoop_ends (k := v.toNat) date _ (le_refl 0) (by dsimp only; omega)
      (by dsimp only; omega) (by omega)).mono (by omega) fun _ _ => trivial

/-- The depth, the loop, and a last comparison if `imin` was not the one probed last. -/
theorem searchReferenceSampleBinary_within (hN : 0 ≤ d.nbSamples) (date : Timespec) :
    Takes (searchReferenceSampleBinary F d date sctx)
      (4 * d.nbSamples.toNat + 2 * spare F .binary d.nbSamples + 2) fun _ => True := by
  refine Prog.Within.mono (n := 2 * d.nbSamples.toNat
      + (2 * (d.nbSamples.toNat + spare F .binary d.nbSamples) + (2 + 0)))
    ((searchGetMaxDepth_within hN).bind fun v hv => ?_) (by omega) fun _ h => h
  refine (searchBinaryLoop_depth date hv).bind fun s _ => ?_
  refine Prog.Within.bind (Q := fun _ => True) ?_ fun last _ => ?_
  · split
    · exact Prog.within_perform trivial fun p =>
        (sampleTimestampCmp_within p date).map fun _ h => h
    · exact Prog.within_ret trivial
  · split
    · split <;> exact Prog.within_ret trivial
    · exact Prog.within_ret trivial

/-- The hint decides whether there can be rounds to spare. -/
theorem searchReferenceSample_within (hN : 0 ≤ d.nbSamples) (date : Timespec)
    (hint : RefSearchHint) : Takes (searchReferenceSample F d date sctx hint)
      (4 * d.nbSamples.toNat + 2 * spare F hint d.nbSamples + 2) fun _ => True := by
  cases hint with
  | naive => exact (searchReferenceSampleNaive_within hN date).mono (by omega) fun _ h => h
  | binary => exact searchReferenceSampleBinary_within hN date
  | date => exact (searchReferenceSampleNaive_within hN date).mono (by omega) fun _ h => h

/-- The reference sample of any method. -/
theorem windowRefIdx_within (hN : 0 ≤ d.nbSamples) (search : SampleSearch) (hint : RefSearchHint) :
    Takes (windowRefIdx F search d sctx hint)
      (4 * d.nbSamples.toNat + 2 * spare F hint d.nbSamples + 6) fun _ => True := by
  have hsearch : Takes (searchReferenceSample F d search.date sctx hint)
      (4 * d.nbSamples.toNat + 2 * spare F hint d.nbSamples + 2) fun _ => True :=
    searchReferenceSample_within hN search.date hint
  unfold windowRefIdx
  split
  · exact Prog.within_ret trivial
  · refine Prog.Within.mono (n := 2 * d.nbSamples.toNat) (Prog.Within.bind (m := 0)
      (searchGetMaxDepth_within hN) fun v _ => ?_) (by omega) fun _ h => h
    split <;> exact Prog.within_ret trivial
  · refine hsearch.bind (m := 4) fun r _ => ?_
    split
    · exact Prog.within_ret trivial
    split
    · exact Prog.within_ret trivial
    refine Prog.within_perform trivial fun before => Prog.within_perform trivial fun after => ?_
    refine Prog.Within.bind (m := 0) (sampleClosestTimestamp_within before after _) fun ret _ => ?_
    split <;> exact Prog.within_ret trivial
  · refine (hsearch.bind (m := 0) fun r _ => ?_).mono (by omega) fun _ h => h
    split
    · split <;> exact Prog.within_ret trivial
    · exact Prog.within_ret trivial
  · refine (hsearch.bind (m := 0) fun r _ => ?_).mono (by omega) fun _ h => h
    split <;> exact Prog.within_ret trivial

/-! ## Windows -/

/-- Whatever indices were read, a window has no more samples than the ring. -/
theorem nbMatches_windowAround (hN : RingSize d.nbSamples) (search : SampleSearch) (ref : Int) :
    (windowAround search d sctx ref).nbMatches ≤ d.nbSamples := by
  have hstart := isSlot_indexNBefore hN ref
    (min (nbOlderSamples d sctx ref) (toI32 search.nbValuesBeforeDate.toNat))
  have hend := isSlot_indexNAfter hN ref
    (min (nbMoreRecentSamples d sctx ref) (toI32 search.nbValuesAfterDate.toNat))
  have hle : ∀ g, IsSlot d.nbSamples g → toI32 (1 + g) ≤ d.nbSamples := by
    rintro g ⟨h0, h1⟩
    unfold toI32
    omega
  show toI32 (1 + intervalBetween _ _ d.nbSamples) ≤ d.nbSamples
  rw [intervalBetween_eq hN hstart hend]
  exact hle _ (isSlot_gap hN _ _)

/-- The index of the last sample, the pointer to it, and its counter. -/
theorem searchStart_within (hdr : Int) : Takes (searchStart hdr d) 3 fun _ => True := by
  refine Prog.within_perform trivial fun bs => ?_
  refine Prog.within_perform trivial fun p => ?_
  exact Prog.within_perform trivial fun bs' => Prog.within_ret trivial

/-- Index, pointer and counter once more, for the test that ends a search. -/
theorem searchEnd_within (hdr start : Int) : Takes (searchEnd hdr sctx start d) 3 fun _ => True := by
  refine Prog.within_perform trivial fun bs => ?_
  refine Prog.within_perform trivial fun p => ?_
  exact Prog.within_perform trivial fun bs' => Prog.within_ret trivial

/-- A search, its two ends, and the pointer for the log message. -/
theorem windowSet_within (hN : RingSize d.nbSamples) (window : Window) (hdr : Int)
    (search : SampleSearch) (hint : RefSearchHint) :
    Takes (windowSet F window hdr search d hint)
      (4 * d.nbSamples.toNat + 2 * spare F hint d.nbSamples + 13)
      fun r => 0 ≤ r.1 → r.2.nbMatches ≤ d.nbSamples := by
  have hpos := hN.pos
  refine Prog.Within.mono
    (n := 3 + (4 * d.nbSamples.toNat + 2 * spare F hint d.nbSamples + 6 + (3 + 1)))
    ((searchStart_within hdr).bind fun sctx _ => ?_) (by omega) fun _ h => h
  refine (windowRefIdx_within (by omega) search hint).bind fun ref _ => ?_
  split
  · exact Prog.within_ret fun h0 => absurd h0 (show ¬ 0 ≤ -ENOENT by decide)
  · refine (searchEnd_within hdr _).bind fun overwritten _ => ?_
    split
    · exact Prog.within_ret fun h0 => absurd h0 (show ¬ 0 ≤ -EFAULT by decide)
    · exact Prog.within_perform trivial fun p =>
        Prog.within_ret fun _ => nbMatches_windowAround hN search ref

/-- By induction on the rows: a pointer and a copy each. -/
theorem windowReadLoop_within (size : Nat) (off : Int) (n : Nat) (i : Int) (row : Nat) :
    Takes (windowReadLoop d size off n i row) (2 * n) fun _ => True := by
  induction n generalizing i row with
  | zero => exact Prog.within_ret trivial
  | succ n ih =>
    refine Prog.within_perform (n := 2 * n + 1) trivial fun p => ?_
    refine Prog.within_perform (n := 2 * n) trivial fun bs => ?_
    exact (ih _ _).map fun _ h => h

/-! ## Calls -/

/-- A context of the same ring, with a window that fits the ring if the call succeeded. -/
def Fitting (ctx : ShdCtx) (ret : Int) (ctx' : ShdCtx) : Prop :=
  ctx'.desc = ctx.desc ∧ (0 ≤ ret → ctx'.window.nbMatches ≤ ctx.desc.nbSamples)

/-- Nothing is asked of the window of a call that failed. -/
theorem fitting_of_failed {ret : Int} (h : ret < 0) (ctx : ShdCtx) {ctx' : ShdCtx}
    (hdesc : ctx'.desc = ctx.desc) : Fitting ctx ret ctx' :=
  ⟨hdesc, fun h0 => absurd h0 (not_le.mpr h)⟩

/-- A search that succeeds leaves a window that fits, and the copies that follow count on it. -/
theorem dataFind_within (hN : RingSize ctx.desc.nbSamples) (search : SampleSearch) :
    Takes (dataFind F ctx search)
      (4 * ctx.desc.nbSamples.toNat + 2 * spare F ctx.hint ctx.desc.nbSamples + 16)
      fun r => Fitting ctx r.1 r.2 := by
  refine Prog.within_perform
    (n := 4 * ctx.desc.nbSamples.toNat + 2 * spare F ctx.hint ctx.desc.nbSamples + 15)
    trivial fun bs => ?_
  dsimp only
  split
  · exact Prog.within_ret (fitting_of_failed (show -EAGAIN < 0 by decide) ctx rfl)
  split
  · exact Prog.within_ret (fitting_of_failed (show -EINVAL < 0 by decide) ctx rfl)
  refine Prog.Within.bind (m := 2) (windowSet_within hN _ _ search _) fun r hr => ?_
  split
  · rename_i hneg
    exact Prog.within_ret (fitting_of_failed hneg ctx rfl)
  · refine Prog.within_perform trivial fun p => Prog.within_perform trivial fun bs' => ?_
    exact Prog.within_ret ⟨rfl, fun _ => hr (by omega)⟩

/-- The array, then one row for each match. -/
theorem dataReadMetadata_within :
    Takes (dataReadMetadata ctx) (2 * ctx.window.nbMatches.toNat + 1) fun m =>
      m.2.2.desc = ctx.desc ∧ m.2.2.window = ctx.window := by
  refine Prog.within_perform (n := 2 * ctx.window.nbMatches.toNat) trivial fun p => ?_
  cases p with
  | none => exact Prog.within_ret ⟨rfl, rfl⟩
  | some p => exact (windowReadLoop_within _ _ _ _ _).map fun _ _ => ⟨rfl, rfl⟩

/-- The window is no larger than the ring, so the metadata takes no more than two operations
a slot. -/
theorem selectSamples_within (hN : RingSize ctx.desc.nbSamples) (search : SampleSearch)
    (result : SearchResult) :
    Takes (selectSamples F ctx search result)
      (6 * ctx.desc.nbSamples.toNat + 2 * spare F ctx.hint ctx.desc.nbSamples + 17)
      fun s => Fitting ctx s.ret s.ctx := by
  refine Prog.Within.mono (n := 4 * ctx.desc.nbSamples.toNat
      + 2 * spare F ctx.hint ctx.desc.nbSamples + 16 + (2 * ctx.desc.nbSamples.toNat + 1))
    ((dataFind_within hN search).bind fun r hr => ?_) (by omega) fun _ h => h
  obtain ⟨hdesc, hwindow⟩ := hr
  split
  · rename_i hneg
    exact Prog.within_ret (fitting_of_failed hneg ctx hdesc)
  · have hle := hwindow (by omega)
    refine Prog.Within.bind (m := 0) (dataReadMetadata_within.mono (by omega) fun _ h => h)
      fun m hm => ?_
    obtain ⟨hdesc', hsame⟩ := hm
    split
    · exact Prog.within_ret ⟨hdesc'.trans hdesc, fun _ => hsame ▸ hle⟩
    · exact Prog.within_ret ⟨hdesc'.trans hdesc, fun _ => hsame ▸ hle⟩

/-- A read without a selection, or into a buffer that is too small, takes no operation. -/
theorem dataReadRows_within (size : Nat) (off : Int) (dst : Nat) :
    Takes (dataReadRows ctx size off dst) (2 * ctx.window.nbMatches.toNat) fun _ => True := by
  unfold dataReadRows
  split
  · exact Prog.within_ret trivial
  split
  · exact Prog.within_ret trivial
  exact (windowReadLoop_within _ _ _ _ _).map fun _ h => h

theorem readQuantity_within (quantity : Option Quantity) (dst : Nat) :
    Takes (readQuantity ctx quantity dst) (2 * ctx.window.nbMatches.toNat) fun _ => True := by
  cases quantity with
  | none => exact dataReadRows_within _ _ _
  | some q => exact dataReadRows_within _ _ _

/-- By induction on the quantities: a row takes two copies, or none if its buffer is too
small. -/
theorem dataReadQuantitySampleLoop_within (p : Int) (qs : List (Quantity × Nat)) :
    Takes (dataReadQuantitySampleLoop p qs) (2 * qs.length) fun _ => True := by
  induction qs with
  | nil => exact Prog.within_ret trivial
  | cons q qs ih =>
    unfold dataReadQuantitySampleLoop
    split
    · refine Prog.within_perform (n := 2 * qs.length + 1) trivial fun bs => ?_
      exact Prog.within_perform (n := 2 * qs.length) trivial fun md => ih.map fun _ h => h
    · exact (ih.map fun _ h => h).mono (by rw [List.length_cons]; omega) fun _ h => h

theorem dataReadQuantitySample_within (qs : List (Quantity × Nat)) :
    Takes (dataReadQuantitySample ctx qs) (2 * qs.length + 1) fun _ => True := by
  unfold dataReadQuantitySample
  split
  · exact Prog.within_ret trivial
  split
  · exact Prog.within_ret trivial
  exact Prog.within_perform (n := 2 * qs.length) trivial fun p => dataReadQuantitySampleLoop_within p _

/-- As many rows as there are buffers, since the lists are zipped. -/
theorem readFromSample_within (hN : RingSize ctx.desc.nbSamples) (search : SampleSearch)
    (quantity : List Quantity) (sizes : List Nat) :
    Takes (readFromSample F ctx search quantity sizes)
      (4 * ctx.desc.nbSamples.toNat + 2 * spare F ctx.hint ctx.desc.nbSamples
        + 2 * sizes.length + 17) fun s => Fitting ctx s.ret s.ctx := by
  unfold readFromSample
  split
  · exact Prog.within_ret (fitting_of_failed (show -EINVAL < 0 by decide) ctx rfl)
  refine Prog.Within.mono (n := 4 * ctx.desc.nbSamples.toNat
      + 2 * spare F ctx.hint ctx.desc.nbSamples + 16 + (2 * sizes.length + 1))
    ((dataFind_within hN search).bind fun r hr => ?_) (by omega) fun _ h => h
  obtain ⟨hdesc, hwindow⟩ := hr
  split
  · rename_i hneg
    exact Prog.within_ret (fitting_of_failed hneg ctx hdesc)
  · have hle := hwindow (by omega)
    refine Prog.Within.bind (m := 0) ((dataReadQuantitySample_within _).mono ?_ fun _ h => h)
      fun q _ => Prog.within_ret ⟨hdesc, fun _ => hle⟩
    rw [List.length_zip]
    omega

theorem syncEndReadSession_within (sync : SyncCtx) (samp : Int) :
    Takes (syncEndReadSession sync samp) 1 fun _ => True := by
  refine Prog.within_perform trivial fun bs => ?_
  dsimp only
  split <;> exact Prog.within_ret trivial

theorem syncCheckRevisionNb_within (rev hdr : Int) :
    Takes (syncCheckRevisionNb rev hdr) 1 fun _ => True := by
  refine Prog.within_perform trivial fun bs => ?_
  dsimp only
  split <;> exact Prog.within_ret trivial

/-- The counter of the first slot and the revision, each loaded once. -/
theorem dataCheckValidity_within (rev : Int) :
    Takes (dataCheckValidity ctx rev) 3 fun r => r.2.desc = ctx.desc := by
  unfold dataCheckValidity
  split
  · refine Prog.within_perform (n := 2) trivial fun p => ?_
    refine (syncEndReadSession_within ctx.syncCtx _).bind (m := 1) fun r _ => ?_
    dsimp only
    split
    · exact Prog.within_ret rfl
    · exact (syncCheckRevisionNb_within rev _).map fun _ _ => rfl
  · exact Prog.within_ret rfl

/-- Three for the check and one for the array. -/
theorem endRead_within (rev : Int) :
    Takes (Core.endRead ctx rev) 4 fun e => e.2.desc = ctx.desc := by
  have hend : ∀ ctx' : ShdCtx, Takes (dataEndRead ctx') 1 fun e => e.2.desc = ctx'.desc :=
    fun ctx' => Prog.within_perform trivial fun _ => Prog.within_ret rfl
  refine Prog.Within.bind (m := 1) (dataCheckValidity_within rev) fun r hr => ?_
  split
  · split
    · exact (hend r.2).map fun e he => he.trans hr
    · exact Prog.within_ret hr
  · exact (hend r.2).mono (le_refl _) fun e he => he.trans hr

theorem readSectionHdr_within (rev : Int) : Takes (readSectionHdr ctx rev) 2 fun _ => True := by
  refine Prog.Within.bind (m := 1) (syncCheckRevisionNb_within rev _) fun ret _ => ?_
  split
  · exact Prog.within_ret trivial
  · exact Prog.within_perform trivial fun bs => Prog.within_ret trivial

/-- The size, the revision, and one copy. -/
theorem readBlobMetadataHdr_within (size : Nat) (rev : Int) :
    Takes (readBlobMetadataHdr ctx size rev) 3 fun _ => True := by
  refine Prog.within_perform (n := 2) trivial fun bs => ?_
  dsimp only
  split
  · exact Prog.within_ret trivial
  · refine Prog.Within.bind (m := 1) (syncCheckRevisionNb_within rev _) fun ret _ => ?_
    split
    · exact Prog.within_ret trivial
    · exact Prog.within_perform trivial fun bs' => Prog.within_ret trivial

/-! ## Sessions -/

/-- The operations that select the samples of a session on a ring of `N` slots, in a
run that follows a binary search for `rounds` more rounds. -/
def selectingSteps (rounds N : Nat) : Selecting → Nat
  | .select _ => 6 * N + 2 * rounds + 17
  | .readFrom _ _ sizes => 4 * N + 2 * rounds + 2 * sizes.length + 17

/-- The operations of a session. -/
def sessionSteps (rounds N : Nat) (r : ReadSession) : Nat :=
  selectingSteps rounds N r.selecting + 2 * N * r.reads.length + 4

/-- The operations of the sessions of a consumer, one after the other. -/
def sessionsSteps (rounds N : Nat) : List ReadSession → Nat
  | [] => 0
  | r :: rs => sessionSteps rounds N r + sessionsSteps rounds N rs

/-- No search has more rounds to spare than the run follows. -/
theorem spare_le (F : Futils) (hint : RefSearchHint) (N : Int) : spare F hint N ≤ F.rounds := by
  unfold spare
  split <;> omega

/-- By induction on the reads, all of the same window. -/
theorem readAll_within {N : Nat} (hwin : ctx.window.nbMatches.toNat ≤ N)
    (qs : List (Option Quantity × Nat)) : Takes (readAll ctx qs) (2 * N * qs.length) fun _ => True := by
  induction qs with
  | nil => exact Prog.within_ret trivial
  | cons q qs ih =>
    refine Prog.Within.mono (n := 2 * N + 2 * N * qs.length) (Prog.Within.bind
      (Q := fun _ => True) ((readQuantity_within q.1 q.2).mono (by omega) fun _ h => h) fun r _ => ?_)
      (by rw [List.length_cons, Nat.mul_succ]; omega) fun _ h => h
    exact ih.map fun _ h => h

/-- Either call that opens a session. -/
theorem openSession_within (hN : RingSize ctx.desc.nbSamples) (sel : Selecting) :
    Takes (openSession F ctx sel) (selectingSteps F.rounds ctx.desc.nbSamples.toNat sel)
      fun o => Fitting ctx o.1 o.2.2 := by
  have hspare := spare_le F ctx.hint ctx.desc.nbSamples
  cases sel with
  | select search =>
    have h := (selectSamples_within (F := F) hN search ⟨0, 0⟩).mono
      (m := selectingSteps F.rounds ctx.desc.nbSamples.toNat (.select search))
      (by dsimp only [selectingSteps]; omega) fun _ h => h
    exact h.map fun _ h => h
  | readFrom search quantity sizes =>
    have h := (readFromSample_within (F := F) hN search quantity sizes).mono
      (m := selectingSteps F.rounds ctx.desc.nbSamples.toNat (.readFrom search quantity sizes))
      (by dsimp only [selectingSteps]; omega) fun _ h => h
    exact h.map fun _ h => h

/-- The three parts of a session; one that could not be opened ends there. -/
theorem session_within (hN : RingSize ctx.desc.nbSamples) (r : ReadSession) :
    Takes (session F ctx r) (sessionSteps F.rounds ctx.desc.nbSamples.toNat r)
      fun a => a.2.desc = ctx.desc := by
  unfold sessionSteps
  rw [Nat.add_assoc]
  refine (openSession_within hN r.selecting).bind fun o ho => ?_
  obtain ⟨hdesc, hwindow⟩ := ho
  split
  · exact Prog.within_ret hdesc
  · have hle := hwindow (by omega)
    refine (readAll_within (by omega) r.reads).bind fun rows _ => ?_
    exact (endRead_within r.rev).map fun e he => he.trans hdesc

/-- The sessions of a consumer, whatever the section holds and however it changes. -/
theorem sessions_within (hN : RingSize ctx.desc.nbSamples) (rs : List ReadSession) :
    Takes (sessions F rs ctx) (sessionsSteps F.rounds ctx.desc.nbSamples.toNat rs)
      fun _ => True := by
  induction rs generalizing ctx with
  | nil => exact Prog.within_ret trivial
  | cons r rs ih =>
    refine (session_within hN r).bind fun a ha => ?_
    have hrest := @ih a.2 (ha ▸ hN)
    rw [ha] at hrest
    exact hrest.map fun _ h => h

end Shdata.Progress
