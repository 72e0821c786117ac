/-
Shdata.Consumer.Scan — the searches of a section at rest.

The samples are counted by age: the latest one has age 0, and the slot of
age `x` is `x` slots before it. `shd_search_get_max_depth` finds how many
ages there are to look at, and the naive search goes through them upwards.
Both stop at the first age with a property, so each is a `First`.
-/
import Shdata.Consumer.Session
import Shdata.Ring.First

namespace Shdata.Consumer

open Shdata.Conc Shdata.Bytes Shdata.Core Shdata.Ring Shdata.Layout Shdata.Solo

/-! ## Ages -/

/-- The slot of age `x`, if the latest sample is in slot `t`. -/
def ageSlot (N t : Int) (x : Nat) : Int := (t - x) % N

/-- The timestamp in a slot. -/
def slotStamp (d : DataSectionDesc) (m : Mem) (i : Int) : Timespec := decTimespec (m.read (slot d i) 16)

/-- The sample of age `x` is before the date, as `time_timespec_cmp` sees it. -/
def Older (F : Futils) (d : DataSectionDesc) (m : Mem) (date : Timespec) (t : Int) (x : Nat) : Prop :=
  F.timespecCmp (slotStamp d m (ageSlot d.nbSamples t x)) date < 0

section Ages

variable {N t : Int} {x : Nat}

theorem isSlot_ageSlot (hN : RingSize N) (t : Int) (x : Nat) : IsSlot N (ageSlot N t x) :=
  isSlot_emod hN _

theorem ageSlot_zero (ht : IsSlot N t) : ageSlot N t 0 = t := by
  rw [ageSlot, Nat.cast_zero, Int.sub_zero, ht.emod]

/-- The slot before one is that of the next age. -/
theorem indexPrevious_ageSlot (hN : RingSize N) (t : Int) (x : Nat) :
    indexPrevious (ageSlot N t x) N = ageSlot N t (x + 1) := by
  have h := emod_add_emod (N := N) (t - x) (-1)
  rw [indexPrevious_eq hN (isSlot_ageSlot hN t x), ageSlot, ageSlot, Int.sub_eq_add_neg, h]
  congr 1
  push_cast
  ring

/-- The slot after one is that of the age before. -/
theorem indexNext_ageSlot (hN : RingSize N) (t : Int) (x : Nat) :
    indexNext (ageSlot N t (x + 1)) N = ageSlot N t x := by
  have hslot := isSlot_ageSlot hN t (x + 1)
  rw [indexNext_eq hN (by have := hslot.nonneg; omega) hslot.lt, ageSlot, ageSlot, emod_add_emod]
  congr 1
  push_cast
  ring

theorem indexNBefore_ageSlot (hN : RingSize N) (ht : IsSlot N t) (hx : (x : Int) ≤ N) :
    indexNBefore t x N = ageSlot N t x := by
  have h0 := ht.nonneg
  have h1 := ht.lt
  have hs := hN.small
  exact indexNBefore_eq hN (by omega) (by omega)

end Ages

/-! ## Single steps -/

variable {Ω : Type} {B : Backend Ω} {u : Nat} {d : DataSectionDesc} {w : World Ω} {t : Int}
  {F : Futils} {date : Timespec} {ctx : SearchCtx}

theorem exec_syncIsSampleValid (hd : SoundDesc d) {i : Int} (hi : IsSlot d.nbSamples i) :
    exec (machine B) u (syncIsSampleValid (slot d i)) w
      = (decide (nbWrites d w.mem i ≠ -1), w) := by
  rw [syncIsSampleValid, nbWritesPtr_slot hd hi]
  rfl

theorem exec_syncGetNbWrites (hd : SoundDesc d) {i : Int} (hi : IsSlot d.nbSamples i) :
    exec (machine B) u (syncGetNbWrites (slot d i)) w = (nbWrites d w.mem i, w) := by
  rw [syncGetNbWrites, nbWritesPtr_slot hd hi]
  rfl

theorem exec_sampleTimestampCmp (i : Int) :
    exec (machine B) u (sampleTimestampCmp F (slot d i) date) w
      = (F.timespecCmp (slotStamp d w.mem i) date, w) := rfl

/-! ## Depth -/

/-- The sample of age `x` is not valid. -/
def Invalid (d : DataSectionDesc) (m : Mem) (t : Int) (x : Nat) : Prop :=
  nbWrites d m (ageSlot d.nbSamples t x) = -1

theorem exec_searchDepthLoop (ctx : SearchCtx) (hd : SoundDesc d)
    (ht : IsSlot d.nbSamples ctx.tIndex) (n x : Nat) (hx : ((x + n : Nat) : Int) ≤ d.nbSamples) :
    ∃ v, First (Invalid d w.mem ctx.tIndex) x (x + n) v ∧
      exec (machine B) u (searchDepthLoop d ctx n x) w = ((v : Int), w) := by
  induction n generalizing x with
  | zero => exact ⟨x, First.done _ x, rfl⟩
  | succ n ih =>
    have hsmall := hd.size.small
    have hx32 : toI32 (x : Int) = x := toI32_of_bounds (by omega) (by omega)
    have hloop : exec (machine B) u (searchDepthLoop d ctx (n + 1) x) w
        = exec (machine B) u (if nbWrites d w.mem (ageSlot d.nbSamples ctx.tIndex x) ≠ -1
            then searchDepthLoop d ctx n (x + 1) else pure (x : Int)) w := by
      rw [searchDepthLoop, exec_bind, hx32, exec_getSamplePtr,
        indexNBefore_ageSlot hd.size ht (by omega),
        dataGetSamplePtr_eq hd (isSlot_ageSlot hd.size _ _), exec_bind,
        exec_syncIsSampleValid hd (isSlot_ageSlot hd.size _ _)]
      simp only [decide_eq_true_eq]
    rw [hloop]
    by_cases hinv : Invalid d w.mem ctx.tIndex x
    · rw [if_neg (by exact not_not.mpr hinv)]
      exact ⟨x, First.here (Nat.le_add_right x (n + 1)) hinv, rfl⟩
    · obtain ⟨v, hv, hex⟩ := ih (x + 1) (by omega)
      rw [show x + 1 + n = x + (n + 1) by omega] at hv
      rw [if_pos (by exact hinv)]
      exact ⟨v, First.pass hinv hv, hex⟩

/-- What `shd_search_get_max_depth` returns: the size of the ring if the counter of
the latest sample is positive, else the first age that is not valid. -/
def Depth (d : DataSectionDesc) (m : Mem) (t : Int) (D : Nat) : Prop :=
  if 0 < nbWrites d m t then (D : Int) = d.nbSamples
  else First (Invalid d m t) 0 d.nbSamples.toNat D

theorem Depth.le (hN : RingSize d.nbSamples) {m : Mem} {D : Nat} (h : Depth d m t D) :
    (D : Int) ≤ d.nbSamples := by
  have hpos := hN.pos
  unfold Depth at h
  split at h
  · omega
  · have := h.le_hi
    omega

theorem Depth.unique {m : Mem} {D D' : Nat} (h : Depth d m t D) (h' : Depth d m t D') :
    D = D' := by
  unfold Depth at h h'
  split at h
  · rename_i hpos
    rw [if_pos hpos] at h'
    omega
  · rename_i hneg
    rw [if_neg hneg] at h'
    exact h.unique h'

/-- The context that `shd_search_start` fills. -/
def searchCtx (d : DataSectionDesc) (m : Mem) : SearchCtx := ⟨writeIndex m, nbWrites d m (writeIndex m)⟩

theorem exec_searchGetMaxDepth (hd : SoundDesc d) (ht : IsSlot d.nbSamples (writeIndex w.mem)) :
    ∃ D, Depth d w.mem (writeIndex w.mem) D ∧
      exec (machine B) u (searchGetMaxDepth d (searchCtx d w.mem)) w = ((D : Int), w) := by
  have hpos := hd.size.pos
  unfold searchGetMaxDepth Depth
  by_cases htop : 0 < nbWrites d w.mem (writeIndex w.mem)
  · refine ⟨d.nbSamples.toNat, ?_, ?_⟩
    · rw [if_pos htop]
      omega
    · rw [if_pos (show (searchCtx d w.mem).nbWritesTop > 0 from htop), exec_pure,
        Int.toNat_of_nonneg hpos.le]
  · obtain ⟨v, hv, hex⟩ := exec_searchDepthLoop (B := B) (u := u) (w := w)
      (searchCtx d w.mem) hd ht d.nbSamples.toNat 0 (by omega)
    rw [Nat.zero_add] at hv
    refine ⟨v, ?_, ?_⟩
    · rw [if_neg htop]
      exact hv
    · rw [if_neg (show ¬ (searchCtx d w.mem).nbWritesTop > 0 from htop)]
      exact hex

/-! ## The naive search -/

theorem exec_searchNaiveLoop (hd : SoundDesc d) (date : Timespec) (n x : Nat) (s : Int) :
    ∃ a, First (Older F d w.mem date t) x (x + n) a ∧ ∃ s',
      exec (machine B) u (searchNaiveLoop F d date n (ageSlot d.nbSamples t x) s) w
        = (⟨decide (a < x + n), ageSlot d.nbSamples t a, s'⟩, w) := by
  induction n generalizing x s with
  | zero =>
    refine ⟨x, First.done _ x, s, ?_⟩
    rw [Nat.add_zero, decide_eq_false (lt_irrefl x)]
    rfl
  | succ n ih =>
    rw [searchNaiveLoop, exec_bind, exec_getSamplePtr,
      dataGetSamplePtr_eq hd (isSlot_ageSlot hd.size _ _), exec_bind, exec_sampleTimestampCmp]
    dsimp only
    by_cases hold : Older F d w.mem date t x
    · rw [if_pos (by exact hold)]
      refine ⟨x, First.here (Nat.le_add_right x (n + 1)) hold, s + 1, ?_⟩
      rw [decide_eq_true (show x < x + (n + 1) by omega)]
      rfl
    · rw [if_neg (by exact hold), indexPrevious_ageSlot hd.size]
      obtain ⟨a, ha, s', hex⟩ := ih (x + 1) (s + 1)
      rw [show x + 1 + n = x + (n + 1) by omega] at ha hex
      exact ⟨a, First.pass hold ha, s', hex⟩

/-- The naive search stops at the youngest sample before the date. -/
theorem exec_searchReferenceSampleNaive (hd : SoundDesc d) (hlt : d.nbSamples < 2147483648)
    (date : Timespec)
    (ht : IsSlot d.nbSamples (writeIndex w.mem)) {D : Nat} (hD : Depth d w.mem (writeIndex w.mem) D) :
    ∃ a, First (Older F d w.mem date (writeIndex w.mem)) 0 D a ∧ ∃ s,
      exec (machine B) u (searchReferenceSampleNaive F d date (searchCtx d w.mem)) w
        = (⟨decide (a < D), ageSlot d.nbSamples (writeIndex w.mem) a, s⟩, w) := by
  obtain ⟨D', hD', hex⟩ := exec_searchGetMaxDepth (B := B) (u := u) (w := w) hd ht
  obtain rfl := hD.unique hD'
  have hle := hD.le hd.size
  have hD32 : (toI32 (D : Int)).toNat = D := by
    rw [toI32_of_bounds (by omega) (by omega)]
    exact Int.toNat_natCast D
  obtain ⟨a, ha, s, hloop⟩ := exec_searchNaiveLoop (B := B) (u := u) (w := w) (F := F)
    (t := writeIndex w.mem) hd date D 0 0
  rw [Nat.zero_add] at ha hloop
  refine ⟨a, ha, s, ?_⟩
  rw [searchReferenceSampleNaive, exec_bind, hex, hD32]
  rw [ageSlot_zero ht] at hloop
  exact hloop

/-! ## The methods that take a date -/

/-- A search of the reference sample found the sample of age `a`, if that is one
of the `D` youngest. -/
structure Finds (N t : Int) (D a : Nat) (r : RefSearch) : Prop where
  found : r.found = true ↔ a < D
  index : a < D → r.mIndex = ageSlot N t a

section Methods

variable {hint : RefSearchHint} {r : RefSearch} {D a : Nat}

theorem ageSlot_ne (h : 0 < a) (hlt : (a : Int) < d.nbSamples) (ht : IsSlot d.nbSamples t) :
    ageSlot d.nbSamples t a ≠ t := by
  have hne := emod_ne_of_lt (N := d.nbSamples) (i := t - a) (j := t) (by omega) (by omega)
  rwa [ht.emod] at hne

theorem exec_searchFirstMatchBefore
    (hex : exec (machine B) u (searchReferenceSample F d date ctx hint) w = (r, w))
    (hr : Finds d.nbSamples ctx.tIndex D a r) :
    exec (machine B) u (searchFirstMatchBefore F d date ctx hint) w
      = (if a < D then ageSlot d.nbSamples ctx.tIndex a else -1, w) := by
  rw [searchFirstMatchBefore, exec_bind, hex]
  by_cases ha : a < D
  · rw [if_pos ha, if_pos (hr.found.mpr ha), hr.index ha]
    rfl
  · rw [if_neg ha, if_neg fun hf => ha (hr.found.mp hf)]
    rfl

theorem exec_searchFirstMatchAfter (hN : RingSize d.nbSamples) (ht : IsSlot d.nbSamples ctx.tIndex)
    (hD : (D : Int) ≤ d.nbSamples)
    (hex : exec (machine B) u (searchReferenceSample F d date ctx hint) w = (r, w))
    (hr : Finds d.nbSamples ctx.tIndex D a r) :
    exec (machine B) u (searchFirstMatchAfter F d date ctx hint) w
      = (if a < D then (if a = 0 then -1 else ageSlot d.nbSamples ctx.tIndex (a - 1))
          else indexNext ctx.tIndex d.nbSamples, w) := by
  rw [searchFirstMatchAfter, exec_bind, hex]
  by_cases ha : a < D
  · rw [if_pos ha, if_pos (hr.found.mpr ha), hr.index ha]
    cases a with
    | zero =>
      rw [ageSlot_zero ht, if_neg (not_not.mpr rfl), if_pos rfl]
      rfl
    | succ a =>
      rw [if_pos (ageSlot_ne (Nat.succ_pos a) (by omega) ht), if_neg (Nat.succ_ne_zero a),
        indexNext_ageSlot hN, Nat.add_sub_cancel]
      rfl
  · rw [if_neg ha, if_neg fun hf => ha (hr.found.mp hf)]
    rfl

/-- `shd_sample_closest_timestamp` of two timestamps. -/
def closestTimestamp (F : Futils) (before after date : Timespec) : Int :=
  if (F.timespecDiff before date).1 < 0 then (F.timespecDiff before date).1
  else if (F.timespecDiff date after).1 < 0 then (F.timespecDiff date after).1
  else F.timespecCmp (F.timespecDiff date after).2 (F.timespecDiff before date).2

theorem exec_sampleClosestTimestamp (F : Futils) (i j : Int) (date : Timespec) :
    exec (machine B) u (sampleClosestTimestamp F (slot d i) (slot d j) date) w
      = (closestTimestamp F (slotStamp d w.mem i) (slotStamp d w.mem j) date, w) := by
  rw [sampleClosestTimestamp, exec_bind, exec_memcpyOut, closestTimestamp]
  dsimp only
  change exec _ _ (if (F.timespecDiff (slotStamp d w.mem i) date).1 < 0 then _ else _) w = _
  by_cases h₁ : (F.timespecDiff (slotStamp d w.mem i) date).1 < 0
  · rw [if_pos h₁, if_pos h₁]
    rfl
  · rw [if_neg h₁, if_neg h₁, exec_bind, exec_memcpyOut]
    dsimp only
    change exec _ _ (if (F.timespecDiff date (slotStamp d w.mem j)).1 < 0 then _ else _) w = _
    by_cases h₂ : (F.timespecDiff date (slotStamp d w.mem j)).1 < 0
    · rw [if_pos h₂, if_pos h₂]
      rfl
    · rw [if_neg h₂, if_neg h₂]
      rfl

theorem exec_searchClosestMatch (hd : SoundDesc d) (ht : IsSlot d.nbSamples ctx.tIndex)
    (hD : (D : Int) ≤ d.nbSamples)
    (hex : exec (machine B) u (searchReferenceSample F d date ctx hint) w = (r, w))
    (hr : Finds d.nbSamples ctx.tIndex D a r) :
    exec (machine B) u (searchClosestMatch F d date ctx hint) w
      = (if a < D then
          (if a = 0 then ctx.tIndex
            else if closestTimestamp F (slotStamp d w.mem (ageSlot d.nbSamples ctx.tIndex a))
              (slotStamp d w.mem (ageSlot d.nbSamples ctx.tIndex (a - 1))) date < 0
            then ageSlot d.nbSamples ctx.tIndex (a - 1) else ageSlot d.nbSamples ctx.tIndex a)
          else indexNext ctx.tIndex d.nbSamples, w) := by
  rw [searchClosestMatch, exec_bind, hex]
  dsimp only
  by_cases ha : a < D
  · rw [if_pos ha, if_neg (not_not.mpr (hr.found.mpr ha)), hr.index ha]
    cases a with
    | zero =>
      rw [ageSlot_zero ht, if_pos rfl, if_pos rfl]
      rfl
    | succ a =>
      rw [if_neg (ageSlot_ne (Nat.succ_pos a) (by omega) ht), if_neg (Nat.succ_ne_zero a),
        indexNext_ageSlot hd.size, Nat.add_sub_cancel, exec_bind, exec_getSamplePtr,
        dataGetSamplePtr_eq hd (isSlot_ageSlot hd.size _ _), exec_bind, exec_getSamplePtr,
        dataGetSamplePtr_eq hd (isSlot_ageSlot hd.size _ _), exec_bind,
        exec_sampleClosestTimestamp]
      dsimp only
      split <;> rfl
  · rw [if_neg ha, if_pos fun hf => ha (hr.found.mp hf)]
    rfl

end Methods

/-! ## The window -/

theorem exec_searchStart (hd : SoundDesc d) (ht : IsSlot d.nbSamples (writeIndex w.mem)) :
    exec (machine B) u (searchStart 40 d) w = (searchCtx d w.mem, w) := by
  have hlast : exec (machine B) u (syncGetLastWriteIndex .searchStart 40) w
      = (writeIndex w.mem, w) := rfl
  rw [searchStart, exec_bind, hlast, exec_bind, exec_getSamplePtr, dataGetSamplePtr_eq hd ht,
    exec_bind, exec_syncGetNbWrites hd ht]
  rfl

/-- `shd_search_end` compares the number of new samples, modulo the size of the
ring, with the number of slots before the window. -/
theorem exec_searchEnd (ctx : SearchCtx) (hd : SoundDesc d) (ht : IsSlot d.nbSamples ctx.tIndex)
    (hnew : IsSlot d.nbSamples (writeIndex w.mem)) {i : Int} (hi : IsSlot d.nbSamples i) :
    exec (machine B) u (searchEnd 40 ctx i d) w
      = (decide (gap d.nbSamples (ctx.tIndex + 1) i < gap d.nbSamples ctx.tIndex (writeIndex w.mem) ∧
          ctx.nbWritesTop ≤ nbWrites d w.mem i), w) := by
  have hlast : exec (machine B) u (syncGetLastWriteIndex .searchEnd 40) w
      = (writeIndex w.mem, w) := rfl
  have hmargin : toI32 (intervalBetween (indexNext ctx.tIndex d.nbSamples) i d.nbSamples)
      = gap d.nbSamples (ctx.tIndex + 1) i := by
    rw [indexNext_eq hd.size (by have := ht.nonneg; omega) ht.lt,
      intervalBetween_eq hd.size (isSlot_emod hd.size _) hi, gap_emod_left, toI32_gap hd.size]
  have hcount : toI32 (intervalBetween ctx.tIndex (writeIndex w.mem) d.nbSamples)
      = gap d.nbSamples ctx.tIndex (writeIndex w.mem) := by
    rw [intervalBetween_eq hd.size ht hnew, toI32_gap hd.size]
  have hnn := gap_nonneg hd.size.pos (ctx.tIndex + 1) i
  rw [searchEnd, exec_bind, hlast]
  dsimp only
  rw [hmargin, hcount, exec_bind, exec_getSamplePtr, dataGetSamplePtr_eq hd hi, exec_bind,
    exec_syncGetNbWrites hd hi]
  refine Prod.ext (Bool.eq_iff_iff.mpr ?_) rfl
  simp only [exec_pure, Bool.and_eq_true, decide_eq_true_eq]
  omega

/-- `shd_window_set` at rest: no sample is new when the search ends. -/
theorem exec_windowSet_atRest (hd : SoundDesc d) (ht : IsSlot d.nbSamples (writeIndex w.mem))
    (window : Window) (search : SampleSearch) (hint : RefSearchHint) {ref : Int}
    (href : exec (machine B) u (windowRefIdx F search d (searchCtx d w.mem) hint) w = (ref, w)) :
    exec (machine B) u (windowSet F window 40 search d hint) w
      = (if ref < 0 then (-ENOENT, (windowReset window).2)
          else ((windowAround search d (searchCtx d w.mem) ref).nbMatches,
            windowAround search d (searchCtx d w.mem) ref), w) := by
  rw [windowSet, exec_bind, exec_searchStart hd ht]
  dsimp only
  rw [exec_bind, href]
  dsimp only
  by_cases hneg : ref < 0
  · rw [if_pos hneg, if_pos hneg]
    rfl
  · have hstart := isSlot_startIdx hd.size search (searchCtx d w.mem) ref
    have hend := exec_searchEnd (B := B) (u := u) (searchCtx d w.mem) hd ht ht hstart
    have hfalse : ¬ (gap d.nbSamples ((searchCtx d w.mem).tIndex + 1)
          (windowAround search d (searchCtx d w.mem) ref).startIdx
        < gap d.nbSamples (searchCtx d w.mem).tIndex (writeIndex w.mem) ∧
        (searchCtx d w.mem).nbWritesTop
          ≤ nbWrites d w.mem (windowAround search d (searchCtx d w.mem) ref).startIdx) := by
      have hself : gap d.nbSamples (searchCtx d w.mem).tIndex (writeIndex w.mem) = 0 := gap_self _
      have hnn := gap_nonneg hd.size.pos ((searchCtx d w.mem).tIndex + 1)
        (windowAround search d (searchCtx d w.mem) ref).startIdx
      omega
    rw [if_neg hneg, if_neg hneg, exec_bind, hend, decide_eq_false hfalse]
    rfl

end Shdata.Consumer
