/-
Shdata.Consumer.Bisect — the binary search against the naive one.

The binary search numbers the samples it looks at from the oldest on: number `i`
of `D` has age `D - 1 - i`. If those from age `a` on are before the date, the
numbers below `D - a` are, and the loop closes in on `D - a`, or on the
latest sample if all are (`Bracket`).

With one sample to look at the loop makes no round and the result of the
comparison keeps its initial value, so a sample before the date is missed:
`binary_iff`.

Up to 2^30 + 1 slots `imin + imax` is an `int`. Above, the loop need not end:
`searchBinaryLoop_endless`.
-/
import Shdata.Consumer.Dates

namespace Shdata.Consumer

open Shdata.Conc Shdata.Bytes Shdata.Core Shdata.Ring Shdata.Layout Shdata.Trace Shdata.Producer
  Shdata.Solo

variable {Ω : Type} {B : Backend Ω} {u : Nat} {d : DataSectionDesc} {w : World Ω} {F : Futils}
  {date : Timespec}

/-! ## The loop -/

/-- The samples of age `a` on, among the `D` youngest, are those before the date. -/
def SplitAt (F : Futils) (d : DataSectionDesc) (m : Mem) (date : Timespec) (t : Int) (D a : Nat) :
    Prop :=
  ∀ x, x < D → (Older F d m date t x ↔ a ≤ x)

/-- The variables of the loop: the numbers below `imin` are before the date, those
from `imax` on are not, the latest sample apart. -/
structure Bracket (D a : Nat) (b : BinarySearch) : Prop where
  low : 0 ≤ b.imin
  mid : b.imin ≤ b.imax
  high : b.imax < D
  before : b.imin + a ≤ D
  after : b.imax + 1 = D ∨ (D : Int) ≤ b.imax + a

/-- What the last probe found. -/
structure Probed (F : Futils) (d : DataSectionDesc) (m : Mem) (date : Timespec) (t : Int)
    (D : Nat) (b : BinarySearch) : Prop where
  index : b.mIndex = ageSlot d.nbSamples t (D - 1 - b.imid.toNat)
  res : b.res = F.timespecCmp (slotStamp d m b.mIndex) date
  bounds : 0 ≤ b.imid ∧ b.imid < D

section Loop

variable {ctx : SearchCtx} {D a : Nat}

/-- The comparison with sample number `i`. -/
theorem cmp_iff {t : Int} (hsplit : SplitAt F d w.mem date t D a) {i : Nat} (hi : i < D) :
    F.timespecCmp (slotStamp d w.mem (ageSlot d.nbSamples t (D - 1 - i))) date < 0
      ↔ i + a < D := by
  have h := hsplit (D - 1 - i) (by omega)
  rw [Older] at h
  rw [h]
  omega

/-- The slot of sample number `i`. -/
theorem index_probe (hd : SoundDesc d) (ht : IsSlot d.nbSamples ctx.tIndex)
    (hD : (D : Int) ≤ d.nbSamples) {i : Nat} (hi : i < D) :
    indexNBefore ctx.tIndex (toI32 ((D : Int) - 1 - i)) d.nbSamples
      = ageSlot d.nbSamples ctx.tIndex (D - 1 - i) := by
  have hcast : (D : Int) - 1 - i = ((D - 1 - i : Nat) : Int) := by omega
  have hle := hd.size.small
  rw [hcast, toI32_of_bounds (by omega) (by omega)]
  exact indexNBefore_ageSlot hd.size ht (by omega)

/-- The variables after the comparison with sample number `i`. -/
def probed (F : Futils) (d : DataSectionDesc) (m : Mem) (date : Timespec) (t : Int) (D i : Nat)
    (b : BinarySearch) : BinarySearch :=
  { b with
    imid := i
    res := F.timespecCmp (slotStamp d m (ageSlot d.nbSamples t (D - 1 - i))) date
    mIndex := ageSlot d.nbSamples t (D - 1 - i)
    searched := toU32 (b.searched + 1) }

/-- Half an `int`, towards zero. -/
theorem tdiv_two_bounds {x : Int} (h : IsI32 x) :
    -1073741824 ≤ x.tdiv 2 ∧ x.tdiv 2 ≤ 1073741823 := by
  obtain ⟨hlow, hhigh⟩ := h
  rw [Int.tdiv_eq_ediv, Int.sign_eq_one_of_pos (show (0 : Int) < 2 by decide)]
  split <;> omega

/-- A loop that is over returns its variables, however long it is followed. -/
theorem searchBinaryLoop_over (ctx : SearchCtx) (date : Timespec) (depth : Int) (n : Nat)
    {b : BinarySearch} (h : ¬ b.imin < b.imax) :
    searchBinaryLoop F d date ctx depth n b = .ret b := by
  cases n with
  | zero => rfl
  | succ n => rw [searchBinaryLoop, if_neg h, Prog.pure_eq]

/-- One round of the loop. -/
theorem exec_searchBinaryLoop_succ (hd : SoundDesc d) (ht : IsSlot d.nbSamples ctx.tIndex)
    (hD : (D : Int) ≤ d.nbSamples) (n : Nat) {b : BinarySearch} (hlt : b.imin < b.imax) {i : Nat}
    (hi : (i : Int) = (toI32 (b.imin + b.imax)).tdiv 2) (hiD : i < D) :
    exec (machine B) u (searchBinaryLoop F d date ctx D (n + 1) b) w
      = exec (machine B) u (searchBinaryLoop F d date ctx D n
          (if F.timespecCmp (slotStamp d w.mem (ageSlot d.nbSamples ctx.tIndex (D - 1 - i))) date < 0
            then { probed F d w.mem date ctx.tIndex D i b with imin := toI32 ((i : Int) + 1) }
            else { probed F d w.mem date ctx.tIndex D i b with imax := (i : Int) })) w := by
  have hslot := isSlot_ageSlot hd.size ctx.tIndex (D - 1 - i)
  rw [searchBinaryLoop, if_pos hlt]
  dsimp only
  rw [← hi, index_probe hd ht hD hiD, exec_bind, exec_getSamplePtr, dataGetSamplePtr_eq hd hslot,
    exec_bind, exec_sampleTimestampCmp]
  dsimp only
  split <;> rfl

/-- The loop narrows the bracket to one number. A loop that made a round ends with
a probe. -/
theorem exec_searchBinaryLoop (ctx : SearchCtx) (hd : SoundDesc d) (ht : IsSlot d.nbSamples ctx.tIndex)
    (hD : (D : Int) ≤ d.nbSamples) (hlt : d.nbSamples ≤ 1073741825)
    (hsplit : SplitAt F d w.mem date ctx.tIndex D a) (n : Nat) (b : BinarySearch)
    (hb : Bracket D a b) (hn : b.imax - b.imin ≤ n) :
    ∃ b', exec (machine B) u (searchBinaryLoop F d date ctx D n b) w = (b', w) ∧
      Bracket D a b' ∧ b'.imin = b'.imax ∧
      (b.imin < b.imax ∨ Probed F d w.mem date ctx.tIndex D b →
        Probed F d w.mem date ctx.tIndex D b') := by
  induction n generalizing b with
  | zero =>
    have hmid := hb.mid
    exact ⟨b, rfl, hb, by omega, fun h => h.resolve_left (by omega)⟩
  | succ n ih =>
    have hmid := hb.mid
    by_cases hround : b.imin < b.imax
    · have hlow := hb.low
      have hhigh := hb.high
      have hmiddle := imid_eq hlow hround (by omega)
      obtain ⟨i, hi⟩ : ∃ i : Nat, (i : Int) = (b.imin + b.imax) / 2 :=
        ⟨((b.imin + b.imax) / 2).toNat, by omega⟩
      have hiD : i < D := by omega
      have hcmp := cmp_iff hsplit hiD
      have hnext : toI32 ((i : Int) + 1) = i + 1 := toI32_of_bounds (by omega) (by omega)
      rw [exec_searchBinaryLoop_succ hd ht hD n hround (hi.trans hmiddle.symm) hiD, hnext]
      by_cases hi' : i + a < D
      · -- the sample is before the date: the upper half
        rw [if_pos (hcmp.mpr hi')]
        obtain ⟨b', hex, hb', heq, hprobe⟩ := ih
          { probed F d w.mem date ctx.tIndex D i b with imin := (i : Int) + 1 }
          ⟨by dsimp only; omega, by dsimp only [probed]; omega, hhigh, by dsimp only; omega, hb.after⟩
          (by dsimp only [probed]; omega)
        exact ⟨b', hex, hb', heq, fun _ => hprobe (Or.inr ⟨rfl, rfl, by dsimp only [probed]; omega⟩)⟩
      · rw [if_neg fun hc => hi' (hcmp.mp hc)]
        obtain ⟨b', hex, hb', heq, hprobe⟩ := ih
          { probed F d w.mem date ctx.tIndex D i b with imax := (i : Int) }
          ⟨hlow, by dsimp only [probed]; omega, by dsimp only; omega, hb.before,
            Or.inr (by dsimp only; omega)⟩ (by dsimp only [probed]; omega)
        exact ⟨b', hex, hb', heq, fun _ => hprobe (Or.inr ⟨rfl, rfl, by dsimp only [probed]; omega⟩)⟩
    · rw [searchBinaryLoop_over ctx date D (n + 1) hround]
      exact ⟨b, rfl, hb, by omega, fun h => h.resolve_left hround⟩

/-- **A binary search need not end.** In a ring that holds 2^30 + 2 samples or more, all
of them before the date, the sum of the last sample's number and of an `imin` just
below it is no `int`: it wraps, and `imin` starts again from below. However many
rounds the loop is followed, it is not over. -/
theorem searchBinaryLoop_endless (ctx : SearchCtx) (hd : SoundDesc d)
    (hall : ∀ i, IsSlot d.nbSamples i → F.timespecCmp (slotStamp d w.mem i) date < 0)
    {depth : Int} (hlarge : 1073741826 ≤ depth) (n : Nat) (b : BinarySearch)
    (hmin : b.imin ≤ 1073741824) (hmax : b.imax = depth - 1) :
    ∃ b', exec (machine B) u (searchBinaryLoop F d date ctx depth n b) w = (b', w) ∧
      b'.imin < b'.imax := by
  induction n generalizing b with
  | zero => exact ⟨b, rfl, by omega⟩
  | succ n ih =>
    have hround : b.imin < b.imax := by omega
    have hslot := isSlot_indexNBefore hd.size ctx.tIndex
      (toI32 (depth - 1 - (toI32 (b.imin + b.imax)).tdiv 2))
    rw [searchBinaryLoop, if_pos hround]
    dsimp only
    rw [exec_bind, exec_getSamplePtr, dataGetSamplePtr_eq hd hslot, exec_bind,
      exec_sampleTimestampCmp]
    dsimp only
    rw [if_pos (hall _ hslot)]
    obtain ⟨hlow, hhigh⟩ := tdiv_two_bounds (isI32_toI32 (b.imin + b.imax))
    have hnext : toI32 ((toI32 (b.imin + b.imax)).tdiv 2 + 1) ≤ 1073741824 := by
      rw [toI32_of_isI32 ⟨by omega, by omega⟩]
      omega
    exact ih _ hnext hmax

/-! ## The search -/

/-- The probe of `imin`, made again only if the last one was of another number. -/
theorem exec_lastProbe (hd : SoundDesc d) (ht : IsSlot d.nbSamples ctx.tIndex)
    (hD : (D : Int) ≤ d.nbSamples) {b : BinarySearch} (hprobe : Probed F d w.mem date ctx.tIndex D b)
    {p : Nat} (hp : (p : Int) = b.imin) (hpD : p < D) :
    exec (machine B) u (if b.imin ≠ b.imid then do
        let mIndex := indexNBefore ctx.tIndex (toI32 ((D : Int) - 1 - b.imin)) d.nbSamples
        let curr ← getSamplePtr d mIndex
        let res ← sampleTimestampCmp F curr date
        return (mIndex, res)
      else
        return (b.mIndex, b.res) : ShdProg (Int × Int)) w
      = ((ageSlot d.nbSamples ctx.tIndex (D - 1 - p),
          F.timespecCmp (slotStamp d w.mem (ageSlot d.nbSamples ctx.tIndex (D - 1 - p))) date), w) := by
  have hslot := isSlot_ageSlot hd.size ctx.tIndex (D - 1 - p)
  by_cases hne : b.imin ≠ b.imid
  · rw [if_pos hne, ← hp]
    dsimp only
    rw [index_probe hd ht hD hpD, exec_bind, exec_getSamplePtr, dataGetSamplePtr_eq hd hslot,
      exec_bind, exec_sampleTimestampCmp]
    rfl
  · have hmid : b.imid.toNat = p := by omega
    rw [if_neg hne, exec_pure, hprobe.res, hprobe.index, hmid]

/-- The binary search finds the sample of age `a`, if it has two samples to look at. -/
theorem exec_searchReferenceSampleBinary (hd : SoundDesc d) (hlt : d.nbSamples ≤ 1073741825)
    (ht : IsSlot d.nbSamples (writeIndex w.mem)) (hDepth : Depth d w.mem (writeIndex w.mem) D)
    (hsplit : SplitAt F d w.mem date (writeIndex w.mem) D a) (ha : a ≤ D) (htwo : 2 ≤ D) :
    ∃ r, exec (machine B) u (searchReferenceSampleBinary F d date (searchCtx d w.mem)) w = (r, w) ∧
      Finds d.nbSamples (writeIndex w.mem) D a r := by
  obtain ⟨D', hD', hmax⟩ := exec_searchGetMaxDepth (B := B) (u := u) (w := w) hd ht
  obtain rfl := hDepth.unique hD'
  have hle := hDepth.le hd.size
  have hD32 : toI32 (D : Int) = D := toI32_of_bounds (by omega) (by omega)
  have himax : toI32 ((D : Int) - 1) = D - 1 := toI32_of_bounds (by omega) (by omega)
  obtain ⟨b, hloop, hb, heq, hprobe⟩ := exec_searchBinaryLoop (B := B) (u := u) (w := w)
    (searchCtx d w.mem) hd ht hle hlt hsplit (D + F.rounds)
    { imin := 0, imax := (D : Int) - 1, imid := 0, res := 0, mIndex := -1, searched := 0 }
    ⟨le_refl 0, by dsimp only; omega, by dsimp only; omega, by dsimp only; omega,
      Or.inl (by dsimp only; omega)⟩ (by dsimp only; push_cast; omega)
  have hprobed := hprobe (Or.inl (by dsimp only; omega))
  have hlow := hb.low
  have hhigh := hb.high
  have hbefore := hb.before
  have hafter := hb.after
  obtain ⟨p, hp⟩ : ∃ p : Nat, (p : Int) = b.imin := ⟨b.imin.toNat, Int.toNat_of_nonneg hlow⟩
  have hpD : p < D := by omega
  have hlast := exec_lastProbe (B := B) (u := u) hd
    (show IsSlot d.nbSamples (searchCtx d w.mem).tIndex from ht) hle hprobed hp hpD
  have hcmp := cmp_iff (t := (searchCtx d w.mem).tIndex) hsplit hpD
  rw [searchReferenceSampleBinary, exec_bind, hmax]
  dsimp only
  rw [hD32, himax, Int.toNat_natCast, exec_bind, hloop, exec_bind]
  erw [hlast]
  dsimp only
  by_cases hge : F.timespecCmp (slotStamp d w.mem
      (ageSlot d.nbSamples (searchCtx d w.mem).tIndex (D - 1 - p))) date ≥ 0
  · have hpa : p + a = D := by
      have : ¬ p + a < D := fun h => absurd (hcmp.mpr h) (not_lt.mpr hge)
      omega
    rw [if_pos hge]
    by_cases hpos : b.imin > 0
    · -- the one before is the youngest before the date
      rw [if_pos hpos, indexPrevious_ageSlot hd.size]
      exact ⟨_, rfl, ⟨by simp; omega, fun _ => by rw [show D - 1 - p + 1 = a by omega]; rfl⟩⟩
    · rw [if_neg hpos]
      exact ⟨_, rfl, ⟨by simp; omega, fun h => by omega⟩⟩
  · have hpa : p + a < D := hcmp.mp (not_le.mp hge)
    rw [if_neg hge]
    exact ⟨_, rfl, ⟨by simp; omega, fun _ => by rw [show D - 1 - p = a by omega]; rfl⟩⟩

/-- With one sample to look at, or none, the loop makes no round and nothing is
found. -/
theorem exec_searchReferenceSampleBinary_few (hd : SoundDesc d) (date : Timespec)
    (ht : IsSlot d.nbSamples (writeIndex w.mem)) (hDepth : Depth d w.mem (writeIndex w.mem) D)
    (hfew : D < 2) :
    ∃ r, exec (machine B) u (searchReferenceSampleBinary F d date (searchCtx d w.mem)) w = (r, w) ∧
      r.found = false := by
  obtain ⟨D', hD', hmax⟩ := exec_searchGetMaxDepth (B := B) (u := u) (w := w) hd ht
  obtain rfl := hDepth.unique hD'
  have hD32 : toI32 (D : Int) = D := toI32_of_bounds (by omega) (by omega)
  rw [searchReferenceSampleBinary, exec_bind, hmax]
  dsimp only
  have himax : toI32 ((D : Int) - 1) = D - 1 := toI32_of_isI32 ⟨by omega, by omega⟩
  rw [hD32, himax, searchBinaryLoop_over _ date D _ (by dsimp only; omega)]
  exact ⟨⟨false, -1, 0⟩, rfl, rfl⟩

end Loop

/-! ## Agreement -/

/-- The two searches find the same reference sample, and the windows set from it are
the same. -/
structure Agrees (B : Backend Ω) (u : Nat) (F : Futils) (d : DataSectionDesc) (date : Timespec)
    (w : World Ω) : Prop where
  found : (exec (machine B) u (searchReferenceSampleBinary F d date (searchCtx d w.mem)) w).1.found
    = (exec (machine B) u (searchReferenceSampleNaive F d date (searchCtx d w.mem)) w).1.found
  index : (exec (machine B) u (searchReferenceSampleNaive F d date (searchCtx d w.mem)) w).1.found
      = true →
    (exec (machine B) u (searchReferenceSampleBinary F d date (searchCtx d w.mem)) w).1.mIndex
      = (exec (machine B) u (searchReferenceSampleNaive F d date (searchCtx d w.mem)) w).1.mIndex
  windows : ∀ (search : SampleSearch) (window : Window), search.date = date →
    search.method = .firstBefore ∨ search.method = .firstAfter ∨ search.method = .closest →
    (exec (machine B) u (windowSet F window 40 search d .binary) w).1
      = (exec (machine B) u (windowSet F window 40 search d .naive) w).1

/-- What the methods by date make of a reference sample does not depend on how it
was searched. -/
theorem windowRefIdx_of_finds (hd : SoundDesc d) (ht : IsSlot d.nbSamples (writeIndex w.mem))
    {D a : Nat} (hD : (D : Int) ≤ d.nbSamples) {search : SampleSearch}
    (hmethod : search.method = .firstBefore ∨ search.method = .firstAfter ∨ search.method = .closest) :
    ∃ ref, ∀ hint r, Finds d.nbSamples (writeIndex w.mem) D a r →
      exec (machine B) u (searchReferenceSample F d search.date (searchCtx d w.mem) hint) w = (r, w) →
      exec (machine B) u (windowRefIdx F search d (searchCtx d w.mem) hint) w = (ref, w) := by
  have hslot : IsSlot d.nbSamples (searchCtx d w.mem).tIndex := ht
  rcases hmethod with hm | hm | hm
  · refine ⟨if a < D then ageSlot d.nbSamples (writeIndex w.mem) a else -1, fun hint r hr hex => ?_⟩
    rw [windowRefIdx, hm]
    exact exec_searchFirstMatchBefore hex hr
  · refine ⟨if a < D then (if a = 0 then -1 else ageSlot d.nbSamples (writeIndex w.mem) (a - 1))
      else indexNext (writeIndex w.mem) d.nbSamples, fun hint r hr hex => ?_⟩
    rw [windowRefIdx, hm]
    exact exec_searchFirstMatchAfter hd.size hslot hD hex hr
  · refine ⟨if a < D then
        (if a = 0 then writeIndex w.mem
          else if closestTimestamp F (slotStamp d w.mem (ageSlot d.nbSamples (writeIndex w.mem) a))
            (slotStamp d w.mem (ageSlot d.nbSamples (writeIndex w.mem) (a - 1))) search.date < 0
          then ageSlot d.nbSamples (writeIndex w.mem) (a - 1)
          else ageSlot d.nbSamples (writeIndex w.mem) a)
      else indexNext (writeIndex w.mem) d.nbSamples, fun hint r hr hex => ?_⟩
    rw [windowRefIdx, hm]
    exact exec_searchClosestMatch hd hslot hD hex hr

/-- The depth of the scan is one sample: it reaches the latest one and no other. -/
def OneScanned (d : DataSectionDesc) (m : Mem) (k : Nat) : Prop :=
  Scanned d m k (k - 1) ∧ ¬ (1 < k ∧ 1 < d.nbSamples ∧ Scanned d m k (k - 2))

section AtRest

variable {s : World Ω × History}

theorem depth_eq_one_iff (hd : SoundDesc d) {k D : Nat} {log : List Commit} {m : Mem}
    (hr : RingMem d k log m) (hk : 0 < k)
    (hD : Depth d m (((k : Int) - 1) % d.nbSamples) D) : D = 1 ↔ OneScanned d m k := by
  have hpos := hd.size.pos
  have hle := hD.le hd.size
  have hcommits := depth_le_commits hd hr hk hD
  have hzero := lt_depth_iff (x := 0) hD (by omega) (by omega)
  rw [Nat.sub_zero] at hzero
  unfold OneScanned
  rw [← hzero]
  by_cases htwo : 1 < k ∧ 1 < d.nbSamples
  · have hone := lt_depth_iff (x := 1) hD (by omega) (by omega)
    rw [Nat.sub_sub] at hone
    rw [← hone]
    omega
  · constructor
    · intro h
      exact ⟨by omega, fun hall => htwo ⟨hall.1, hall.2.1⟩⟩
    · rintro ⟨h0, -⟩
      omega

theorem splitAt_of_first (h : AtRest B d s) (hd : SoundDesc d) (hF : Lexicographic F)
    (hsorted : Sorted s.2.commits) {D a : Nat} (hD : (D : Int) ≤ d.nbSamples)
    (hcommits : D ≤ s.2.commits.length)
    (ha : First (Older F d s.1.mem date (writeIndex s.1.mem)) 0 D a) :
    SplitAt F d s.1.mem date (writeIndex s.1.mem) D a := by
  intro x hx
  refine ha.iff_of_mono (fun x y hxy hy hold => ?_) hx
  rw [older_iff h hd hF date (by omega) (by omega)] at hold ⊢
  exact hsorted.before (by omega) (by omega) hold

/-- **Binary search agrees with naive search** exactly if there is not just one
sample to look at, which is before the date. -/
theorem binary_iff (B : Backend Ω) (hd : SoundDesc d) (hlt : d.nbSamples ≤ 1073741825)
    (h : AtRest B d s) (hsorted : Sorted s.2.commits) (hF : Lexicographic F) (date : Timespec)
    (u : Nat) :
    Agrees B u F d date s.1 ↔
      ¬ (OneScanned d s.1.mem s.2.commits.length ∧
        Before s.2.commits date (s.2.commits.length - 1)) := by
  have ht := h.isSlot_index hd
  have hpos := h.pos
  obtain ⟨D, hD, -⟩ := exec_searchGetMaxDepth (B := B) (u := u) hd ht
  have hsize := hD.le hd.size
  have hDk := hD
  rw [h.index hd] at hDk
  have hcommits := depth_le_commits hd (h.ring hd) hpos hDk
  obtain ⟨a, ha, searched, hnaive⟩ := exec_searchReferenceSampleNaive (B := B) (u := u) (F := F)
    hd (by omega) date ht hD
  have hlatest := older_iff (x := 0) h hd hF date (by omega)
    (by have := hd.size.pos; omega)
  rw [Nat.sub_zero] at hlatest
  rw [← depth_eq_one_iff hd (h.ring hd) hpos hDk]
  have hfinds : Finds d.nbSamples (writeIndex s.1.mem) D a
      ⟨decide (a < D), ageSlot d.nbSamples (writeIndex s.1.mem) a, searched⟩ :=
    ⟨by simp, fun _ => rfl⟩
  constructor
  · rintro hagree ⟨rfl, hbefore⟩
    -- the naive search looks at the latest sample, the binary one at none
    obtain ⟨r, hex, hmiss⟩ := exec_searchReferenceSampleBinary_few (B := B) (u := u) (F := F)
      hd date ht hD (by omega)
    have hfound := hagree.found
    have ha0 : a = 0 := (First.here (Nat.zero_le 1) (hlatest.mpr hbefore)).unique ha |>.symm
    rw [hex, hnaive, hmiss, ha0] at hfound
    exact absurd hfound (by simp)
  · intro hnot
    -- the binary search finds the same age
    obtain ⟨r, hex, hr⟩ : ∃ r, exec (machine B) u
        (searchReferenceSampleBinary F d date (searchCtx d s.1.mem)) s.1 = (r, s.1) ∧
          Finds d.nbSamples (writeIndex s.1.mem) D a r := by
      by_cases htwo : 2 ≤ D
      · exact exec_searchReferenceSampleBinary hd hlt ht hD
          (splitAt_of_first h hd hF hsorted hsize hcommits ha) ha.le_hi htwo
      · obtain ⟨r, hex, hmiss⟩ := exec_searchReferenceSampleBinary_few (B := B) (u := u) (F := F)
          hd date ht hD (by omega)
        have haD : ¬ a < D := by
          intro haD
          have ha0 : a = 0 := by omega
          exact hnot ⟨by omega, hlatest.mp (ha0 ▸ ha.hits haD)⟩
        exact ⟨r, hex, ⟨by rw [hmiss]; simp; omega, fun h => absurd h haD⟩⟩
    refine ⟨?_, ?_, ?_⟩
    · rw [hex, hnaive]
      exact Bool.eq_iff_iff.mpr (hr.found.trans hfinds.found.symm)
    · rw [hex, hnaive]
      intro hfound
      exact hr.index (hfinds.found.mp hfound)
    · rintro search window rfl hmethod
      obtain ⟨ref, href⟩ := windowRefIdx_of_finds (B := B) (u := u) (F := F) hd ht (a := a) hsize hmethod
      rw [exec_windowSet_atRest hd ht window search .binary (href .binary r hr hex),
        exec_windowSet_atRest hd ht window search .naive (href .naive _ hfinds hnaive)]

end AtRest

/-! ## One sample -/

/-- With two samples the searches agree. -/
theorem binary_iff_two : Agrees shm 1 libfutils ⟨56, 4, 4⟩ ⟨1, 0⟩ (partlyFilled 2).1 := by
  have hf : FitsHdr ⟨4, 4, 1, 0⟩ := ⟨⟨by decide, by decide⟩, by decide⟩
  refine (binary_iff shm (soundDesc_of_fits hf) (by decide) atRest_two sorted_two
    libfutils_lexicographic ⟨1, 0⟩ 1).mpr fun h => h.1.2 ⟨?_, by decide, scanned_two _⟩
  rw [length_two]
  decide

/-- With one sample, which is before the date, only the naive search finds it. -/
theorem binary_misses_one :
    (exec (machine shm) 1 (searchReferenceSampleNaive libfutils ⟨56, 4, 4⟩ ⟨1, 0⟩
      (searchCtx ⟨56, 4, 4⟩ (partlyFilled 1).1.mem)) (partlyFilled 1).1).1.found = true ∧
    (exec (machine shm) 1 (searchReferenceSampleBinary libfutils ⟨56, 4, 4⟩ ⟨1, 0⟩
      (searchCtx ⟨56, 4, 4⟩ (partlyFilled 1).1.mem)) (partlyFilled 1).1).1.found = false ∧
    ¬ Agrees shm 1 libfutils ⟨56, 4, 4⟩ ⟨1, 0⟩ (partlyFilled 1).1 := by
  have hnaive : (exec (machine shm) 1 (searchReferenceSampleNaive libfutils ⟨56, 4, 4⟩ ⟨1, 0⟩
      (searchCtx ⟨56, 4, 4⟩ (partlyFilled 1).1.mem)) (partlyFilled 1).1).1.found = true := by
    decide +kernel
  have hbinary : (exec (machine shm) 1 (searchReferenceSampleBinary libfutils ⟨56, 4, 4⟩ ⟨1, 0⟩
      (searchCtx ⟨56, 4, 4⟩ (partlyFilled 1).1.mem)) (partlyFilled 1).1).1.found = false := by
    decide +kernel
  refine ⟨hnaive, hbinary, fun h => ?_⟩
  have hfound := h.found
  rw [hnaive, hbinary] at hfound
  exact absurd hfound (by decide)

end Shdata.Consumer
