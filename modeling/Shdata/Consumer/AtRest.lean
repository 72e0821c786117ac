/-
Shdata.Consumer.AtRest — a section between two write sessions.

Any number of producers made `k ≥ 1` commits and none is in a session. Then the
sample of age `x` is commit `k - 1 - x`, as long as the ring retains it, and
the searches of `Shdata.Consumer.Scan` are about the timestamps of commits.

`shd_search_get_max_depth` never looks at more samples than the ring
retains. It may look at fewer: a counter that went round passes for one of a
slot that was never written.
-/
import Shdata.Consumer.Exact
import Shdata.Consumer.Scan

namespace Shdata.Consumer

open Shdata.Conc Shdata.Bytes Shdata.Core Shdata.Ring Shdata.Layout Shdata.Trace Shdata.Producer
  Shdata.Solo

variable {Ω : Type} {B : Backend Ω} {d : DataSectionDesc} {s : World Ω × History}

/-! ## Sections at rest -/

/-- A section that producers wrote to, with none in a session. -/
structure AtRest (B : Backend Ω) (d : DataSectionDesc) (s : World Ω × History) : Prop where
  reached : Reached B d s
  quiet : ∀ t, s.2.writing t = false
  committed : s.2.commits ≠ []

namespace AtRest

theorem ring (h : AtRest B d s) (hd : SoundDesc d) :
    RingMem d s.2.commits.length s.2.commits s.1.mem := by
  have hinv := h.reached.inv hd
  have hring := hinv.ring
  rwa [(hinv.idle h.quiet).2] at hring

theorem index (h : AtRest B d s) (hd : SoundDesc d) :
    writeIndex s.1.mem = ((s.2.commits.length : Int) - 1) % d.nbSamples :=
  (h.ring hd).index_last h.committed

theorem isSlot_index (h : AtRest B d s) (hd : SoundDesc d) :
    IsSlot d.nbSamples (writeIndex s.1.mem) :=
  (h.ring hd).isSlot_index hd h.committed

theorem pos (h : AtRest B d s) : 0 < s.2.commits.length :=
  List.length_pos_iff.mpr h.committed

end AtRest

/-- A section of 4 slots to which one producer wrote. -/
theorem atRest_partlyFilled (k : Nat) (hk : k < 1000)
    (hongoing : nbOngoing (partlyFilled k).1.mem ≠ toI32 (1 + (partlyFilled k).2.refused))
    (hne : (partlyFilled k).2.commits ≠ []) : AtRest shm ⟨56, 4, 4⟩ (partlyFilled k) := by
  have hf : FitsHdr ⟨4, 4, 1, 0⟩ := ⟨⟨by decide, by decide⟩, by decide⟩
  refine ⟨partlyFilled_reached k hk, fun t => ?_, hne⟩
  by_contra hw
  exact hongoing (((partlyFilled_reached k hk).inv (soundDesc_of_fits hf)).held t (by simpa using hw))

/-! ## Timestamps of commits -/

/-- The timestamp that a producer gave to a sample. -/
def stamp (c : Commit) : Timespec := decTimespec (c.metadata.take 16)

/-- The timestamp of commit `j`. -/
def stampAt (log : List Commit) (j : Nat) : Timespec := ((log[j]?).map stamp).getD ⟨0, 0⟩

/-- The slot of a retained commit holds its timestamp. -/
theorem slotStamp_retained {log : List Commit} {m : Mem} (hr : RingMem d log.length log m) {j : Nat}
    (hj : Retained d.nbSamples log.length j) :
    slotStamp d m (j % d.nbSamples) = stampAt log j := by
  have hc := List.getElem?_eq_getElem hj.lt
  obtain ⟨hmeta, -⟩ := hr.samples j _ hc hj.recent
  have hread := Mem.read_drop_take m (slot d (j % d.nbSamples)) 32 0 16 (by omega)
  rw [List.drop_zero, Nat.cast_zero, Int.add_zero] at hread
  rw [stampAt, hc, Option.map_some, Option.getD_some, stamp, ← hmeta, metadataOf, hread]
  rfl

/-- The commit of age `x`, as a slot. -/
theorem ageSlot_eq (N : Int) {k x : Nat} (hx : x < k) :
    ageSlot N (((k : Int) - 1) % N) x = ((k - 1 - x : Nat) : Int) % N := by
  rw [ageSlot, Int.sub_eq_add_neg, emod_add_emod]
  congr 1
  omega

/-- Ages below `k` and the size of the ring are those of retained commits. -/
theorem retained_age {N : Int} {k x : Nat} (hx : x < k) (hN : (x : Int) < N) :
    Retained N k (k - 1 - x) :=
  ⟨by omega, by omega⟩

/-! ## Depth -/

/-- Slot `k` was not used by the first `k < N` commits. -/
theorem invalid_unused {k : Nat} {log : List Commit} {m : Mem}
    (hr : RingMem d k log m) (hk : 0 < k) (hlt : (k : Int) < d.nbSamples) :
    Invalid d m (((k : Int) - 1) % d.nbSamples) k := by
  have hslot : ageSlot d.nbSamples (((k : Int) - 1) % d.nbSamples) k = d.nbSamples - 1 := by
    rw [ageSlot, Int.sub_eq_add_neg, emod_add_emod]
    have hturn : ((k : Int) - 1 + -k) % d.nbSamples = (d.nbSamples - 1) % d.nbSamples := by
      rw [show (k : Int) - 1 + -k = d.nbSamples - 1 - d.nbSamples by ring, Int.sub_emod_right]
    rw [hturn, emod_of_bounds (by omega) (by omega)]
  have hlaps := laps_last (N := d.nbSamples) (i := d.nbSamples - 1) (by omega) (by omega) k
  rw [emod_of_bounds (by omega) (by omega), if_neg (by omega),
    Int.ediv_eq_zero_of_lt (by omega) (by omega)] at hlaps
  rw [Invalid, hslot, hr.counts _ ⟨by omega, by omega⟩, hlaps]
  exact toI32_of_isI32 ⟨by omega, by omega⟩

/-- The counter of the latest sample is the number of full turns before it. -/
theorem nbWrites_latest (hd : SoundDesc d) {k : Nat} {log : List Commit} {m : Mem}
    (hr : RingMem d k log m) :
    nbWrites d m (((k : Int) - 1) % d.nbSamples) = toI32 (((k : Int) - 1) / d.nbSamples) := by
  have hslot := isSlot_emod hd.size ((k : Int) - 1)
  rw [hr.counts _ hslot, laps_last hslot.nonneg hslot.lt, if_pos (le_refl _)]
  congr 1
  ring

/-- The search looks at retained samples only. -/
theorem depth_le_commits (hd : SoundDesc d) {k : Nat} {log : List Commit} {m : Mem}
    (hr : RingMem d k log m) (hk : 0 < k) {D : Nat}
    (hD : Depth d m (((k : Int) - 1) % d.nbSamples) D) : D ≤ k := by
  by_contra hgt
  have hle := hD.le hd.size
  have hlt : (k : Int) < d.nbSamples := by omega
  unfold Depth at hD
  rw [nbWrites_latest hd hr, Int.ediv_eq_zero_of_lt (by omega) (by omega),
    toI32_of_isI32 ⟨by omega, by omega⟩, if_neg (lt_irrefl 0)] at hD
  exact hD.skips k (Nat.zero_le k) (by omega) (invalid_unused hr hk hlt)

/-- The scan for the depth reaches commit `j`: the counter of the latest sample is
positive, or none from commit `j` on has the counter of a slot never written. -/
def Scanned (d : DataSectionDesc) (m : Mem) (k j : Nat) : Prop :=
  0 < nbWrites d m (((k : Int) - 1) % d.nbSamples) ∨
    ∀ i : Nat, j ≤ i → i < k → nbWrites d m ((i : Int) % d.nbSamples) ≠ -1

/-- The ages below the depth are those of the scanned commits. -/
theorem lt_depth_iff {m : Mem} {k D x : Nat}
    (hD : Depth d m (((k : Int) - 1) % d.nbSamples) D) (hx : x < k) (hN : (x : Int) < d.nbSamples) :
    x < D ↔ Scanned d m k (k - 1 - x) := by
  unfold Depth at hD
  unfold Scanned
  by_cases htop : 0 < nbWrites d m (((k : Int) - 1) % d.nbSamples)
  · rw [if_pos htop] at hD
    exact iff_of_true (by omega) (Or.inl htop)
  · rw [if_neg htop] at hD
    rw [hD.lt_iff (by omega), or_iff_right htop]
    constructor
    · intro h i hi hik
      have hage := h (k - 1 - i) (by omega)
      rwa [Invalid, ageSlot_eq _ (by omega), show k - 1 - (k - 1 - i) = i by omega] at hage
    · intro h y hy
      rw [Invalid, ageSlot_eq _ (by omega)]
      exact h (k - 1 - y) (by omega) (by omega)

/-! ## Calls -/

/-- The context after a search that found nothing. -/
def missedCtx (ctx : ShdCtx) : ShdCtx := { ctx with window := (windowReset ctx.window).2 }

/-- What `shd_data_find` answers when the index of the reference sample is `ref`. -/
structure Answers (r : Int × ShdCtx) (ref : Int) : Prop where
  none : ref < 0 → r.1 = -ENOENT
  some : 0 ≤ ref → 0 < r.1 ∧ r.2.window.refIdx = ref

theorem dataFind_answers (h : AtRest B d s) (hd : SoundDesc d) (hlt : d.nbSamples < 2147483648)
    {F : Futils} {ctx : ShdCtx} (hctx : CtxFor d ctx) {search : SampleSearch}
    (hfit : Fits d.nbSamples search) {u : Nat} {ref : Int} (hslot : ref < 0 ∨ IsSlot d.nbSamples ref)
    (href : exec (machine B) u (windowRefIdx F search d (searchCtx d s.1.mem) ctx.hint) s.1
      = (ref, s.1)) :
    Answers (exec (machine B) u (dataFind F ctx search) s.1).1 ref := by
  have ht := h.isSlot_index hd
  have hset := exec_windowSet_atRest hd ht ctx.window search ctx.hint href
  have hsize : ¬ d.nbSamples <
      toU32 ((search.nbValuesAfterDate.toNat : Int) + search.nbValuesBeforeDate.toNat + 1) := by
    unfold Fits at hfit
    rw [toU32_of_bounds (by omega) (by omega)]
    omega
  have hne : writeIndex s.1.mem ≠ -1 := by
    have := ht.nonneg
    omega
  rcases hslot with hneg | hslot
  · rw [if_pos hneg] at hset
    have hlast : exec (machine B) u (syncGetLastWriteIndex .dataFind 40) s.1
        = (writeIndex s.1.mem, s.1) := rfl
    have hex : exec (machine B) u (dataFind F ctx search) s.1 = ((-ENOENT, missedCtx ctx), s.1) := by
      obtain rfl := hctx.desc
      rw [dataFind, hctx.sync, exec_bind, hlast, if_neg hne, if_neg hsize, exec_bind, hset]
      rfl
    rw [hex]
    exact ⟨fun _ => rfl, fun h0 => absurd hneg (not_lt.mpr h0)⟩
  · rw [if_neg (not_lt.mpr hslot.nonneg)] at hset
    have haround := around_windowAround d hd.size hfit
      (show IsSlot d.nbSamples (searchCtx d s.1.mem).tIndex from ht) hslot
    have hin := window_inOrder hd.size.pos (searchCtx d s.1.mem).tIndex ref search
    have hgap := gap_nonneg hd.size.pos ((searchCtx d s.1.mem).tIndex + 1)
      (ref - nbBefore d.nbSamples (searchCtx d s.1.mem).tIndex ref search)
    obtain ⟨hb, -, -⟩ := nbBefore_bounds hd.size.pos (searchCtx d s.1.mem).tIndex ref search
    obtain ⟨ha, -, -⟩ := nbAfter_bounds hd.size.pos (searchCtx d s.1.mem).tIndex ref search
    have hpos : 0 < (windowAround search d (searchCtx d s.1.mem) ref).nbMatches := by
      rw [haround.nbMatches, toI32_of_bounds (by omega) (by omega)]
      omega
    rw [exec_dataFind_found hd F hctx hne hsize hset hpos.le (isSlot_startIdx hd.size _ _ _)]
    exact ⟨fun h0 => absurd h0 (not_lt.mpr hslot.nonneg), fun _ => ⟨hpos, haround.refIdx⟩⟩

end Shdata.Consumer
