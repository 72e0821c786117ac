/-
Shdata.Consumer.Dates — the searches by date.

The timestamps of a section do not decrease in the order of the commits. Then a
date splits the retained samples into those before it and those from it on.
`SHD_FIRST_BEFORE` should select the newest of the former and
`SHD_FIRST_AFTER` the oldest of the latter.

Both follow from where the backward scan stops. When it finds no sample
before the date, `SHD_FIRST_AFTER` answers the slot after the latest sample.
That is the oldest sample of a full ring, and a slot never written of any
other: `splits_iff`.
-/
import Shdata.Consumer.AtRest
import Mathlib.Data.Prod.Lex

namespace Shdata.Consumer

open Shdata.Conc Shdata.Bytes Shdata.Core Shdata.Ring Shdata.Layout Shdata.Trace Shdata.Producer
  Shdata.Solo

variable {Ω : Type} {B : Backend Ω} {d : DataSectionDesc} {s : World Ω × History} {F : Futils}
  {date : Timespec} {u : Nat}

/-! ## The order of dates -/

/-- Seconds first, then nanoseconds. -/
def key (t : Timespec) : ℤ ×ₗ ℤ := toLex (t.tvSec.toInt, t.tvNsec.toInt)

/-- `time_timespec_cmp` has the sign of the comparison of two dates. -/
structure Lexicographic (F : Futils) : Prop where
  before : ∀ a b, F.timespecCmp a b < 0 ↔ key a < key b
  after : ∀ a b, 0 < F.timespecCmp a b ↔ key b < key a

/-- Commit `j` is before the date. -/
def Before (log : List Commit) (date : Timespec) (j : Nat) : Prop := key (stampAt log j) < key date

/-- The timestamps do not decrease. -/
def Sorted (log : List Commit) : Prop :=
  ∀ i j, i ≤ j → j < log.length → key (stampAt log i) ≤ key (stampAt log j)

theorem Sorted.before {log : List Commit} (h : Sorted log) {i j : Nat} (hij : i ≤ j)
    (hj : j < log.length) (hb : Before log date j) : Before log date i :=
  lt_of_le_of_lt (h i j hij hj) hb

/-- The newest commit before the date. -/
structure Newest (N : Int) (log : List Commit) (date : Timespec) (j : Nat) : Prop where
  retained : Retained N log.length j
  before : Before log date j
  last : ∀ i, j < i → i < log.length → ¬ Before log date i

/-- The oldest commit that the ring retains and that is not before the date. -/
structure Oldest (N : Int) (log : List Commit) (date : Timespec) (j : Nat) : Prop where
  retained : Retained N log.length j
  after : ¬ Before log date j
  first : ∀ i, Retained N log.length i → i < j → Before log date i

/-! ## The scan -/

theorem older_iff (h : AtRest B d s) (hd : SoundDesc d) (hF : Lexicographic F) (date : Timespec) {x : Nat}
    (hx : x < s.2.commits.length) (hN : (x : Int) < d.nbSamples) :
    Older F d s.1.mem date (writeIndex s.1.mem) x
      ↔ Before s.2.commits date (s.2.commits.length - 1 - x) := by
  rw [Older, h.index hd, ageSlot_eq _ hx, slotStamp_retained (h.ring hd) (retained_age hx hN),
    hF.before]
  rfl

/-- How the naive search ends. -/
structure NaiveEnd (d : DataSectionDesc) (s : World Ω × History) (date : Timespec) (D a : Nat)
    (r : RefSearch) : Prop where
  finds : Finds d.nbSamples (writeIndex s.1.mem) D a r
  le_size : (D : Int) ≤ d.nbSamples
  le_commits : D ≤ s.2.commits.length
  hit : a < D → Newest d.nbSamples s.2.commits date (s.2.commits.length - 1 - a)
  scanned : a < D → Scanned d s.1.mem s.2.commits.length (s.2.commits.length - 1 - a)
  miss : ¬ a < D → ∀ j, Retained d.nbSamples s.2.commits.length j →
    Scanned d s.1.mem s.2.commits.length j → ¬ Before s.2.commits date j

theorem exec_naive (h : AtRest B d s) (hd : SoundDesc d) (hlt : d.nbSamples < 2147483648)
    (hF : Lexicographic F) (date : Timespec) (u : Nat) :
    ∃ D a r, NaiveEnd d s date D a r ∧
      exec (machine B) u (searchReferenceSample F d date (searchCtx d s.1.mem) .naive) s.1
        = (r, s.1) := by
  have ht := h.isSlot_index hd
  obtain ⟨D, hD, -⟩ := exec_searchGetMaxDepth (B := B) (u := u) hd ht
  obtain ⟨a, ha, searched, hex⟩ := exec_searchReferenceSampleNaive (B := B) (u := u) (F := F)
    hd hlt date ht hD
  have hsize := hD.le hd.size
  have hpos := h.pos
  rw [h.index hd] at hD
  have hcommits := depth_le_commits hd (h.ring hd) hpos hD
  refine ⟨D, a, _, ⟨⟨by simp, fun _ => rfl⟩, hsize, hcommits, fun hlt => ?_, fun hlt => ?_,
    fun hge j hj hscan hb => ?_⟩, hex⟩
  · have hb := (older_iff h hd hF date (by omega) (by omega)).mp (ha.hits hlt)
    refine ⟨retained_age (by omega) (by omega), hb, fun i h0 h1 hbi => ?_⟩
    have hold := (older_iff (x := s.2.commits.length - 1 - i) h hd hF date (by omega) (by omega)).mpr
      (by rwa [show s.2.commits.length - 1 - (s.2.commits.length - 1 - i) = i by omega])
    exact ha.skips _ (Nat.zero_le _) (by omega) hold
  · exact (lt_depth_iff hD (by omega) (by omega)).mp hlt
  · have hjlt := hj.lt
    have hjrec := hj.recent
    have hage : s.2.commits.length - 1 - (s.2.commits.length - 1 - j) = j := by omega
    have hxD := (lt_depth_iff hD (x := s.2.commits.length - 1 - j) (by omega) (by omega)).mpr
      (by rwa [hage])
    have hold := (older_iff (x := s.2.commits.length - 1 - j) h hd hF date (by omega) (by omega)).mpr
      (by rwa [hage])
    exact ha.skips _ (Nat.zero_le _) (by omega) hold

theorem Newest.unique {N : Int} {log : List Commit} {i j : Nat} (hi : Newest N log date i)
    (hj : Newest N log date j) : i = j := by
  rcases Nat.lt_trichotomy i j with hlt | heq | hgt
  · exact absurd hj.before (hi.last j hlt hj.retained.lt)
  · exact heq
  · exact absurd hi.before (hj.last i hgt hi.retained.lt)

/-! ## The two searches -/

/-- A search by date. -/
def byDate (search : SampleSearch) (method : SearchMethod) : SampleSearch :=
  { search with method := method }

theorem fits_byDate {N : Int} {search : SampleSearch} {method : SearchMethod} :
    Fits N (byDate search method) ↔ Fits N search := Iff.rfl

/-- What a search by date answers, alone. -/
def answer (B : Backend Ω) (u : Nat) (F : Futils) (ctx : ShdCtx) (search : SampleSearch)
    (s : World Ω × History) : Int × ShdCtx :=
  (exec (machine B) u (dataFind F ctx search) s.1).1

theorem before_answers (h : AtRest B d s) (hd : SoundDesc d) (hlt : d.nbSamples < 2147483648)
    {ctx : ShdCtx} (hctx : CtxFor d ctx) (hnaive : ctx.hint = .naive) {search : SampleSearch}
    (hfit : Fits d.nbSamples search) {D a : Nat} {r : RefSearch}
    (hr : NaiveEnd d s search.date D a r)
    (hex : exec (machine B) u (searchReferenceSample F d search.date (searchCtx d s.1.mem) .naive) s.1
      = (r, s.1)) :
    Answers (answer B u F ctx (byDate search .firstBefore) s)
      (if a < D then ((s.2.commits.length - 1 - a : Nat) : Int) % d.nbSamples else -1) := by
  refine dataFind_answers h hd hlt hctx (fits_byDate.mpr hfit) ?_ ?_
  · split
    · exact Or.inr (isSlot_emod hd.size _)
    · exact Or.inl (by decide)
  · have hres := exec_searchFirstMatchBefore hex hr.finds
    rw [show (searchCtx d s.1.mem).tIndex = writeIndex s.1.mem from rfl, h.index hd] at hres
    rw [hnaive]
    refine hres.trans (congrArg (fun i => (i, s.1)) ?_)
    by_cases ha : a < D
    · rw [if_pos ha, if_pos ha, ageSlot_eq _ (by have := hr.le_commits; omega)]
    · rw [if_neg ha, if_neg ha]

theorem after_answers (h : AtRest B d s) (hd : SoundDesc d) (hlt : d.nbSamples < 2147483648)
    {ctx : ShdCtx} (hctx : CtxFor d ctx) (hnaive : ctx.hint = .naive) {search : SampleSearch}
    (hfit : Fits d.nbSamples search) {D a : Nat} {r : RefSearch}
    (hr : NaiveEnd d s search.date D a r)
    (hex : exec (machine B) u (searchReferenceSample F d search.date (searchCtx d s.1.mem) .naive) s.1
      = (r, s.1)) :
    Answers (answer B u F ctx (byDate search .firstAfter) s)
      (if a < D then (if a = 0 then -1 else ((s.2.commits.length - a : Nat) : Int) % d.nbSamples)
        else (s.2.commits.length : Int) % d.nbSamples) := by
  refine dataFind_answers h hd hlt hctx (fits_byDate.mpr hfit) ?_ ?_
  · split
    · split
      · exact Or.inl (by decide)
      · exact Or.inr (isSlot_emod hd.size _)
    · exact Or.inr (isSlot_emod hd.size _)
  · have ht := h.isSlot_index hd
    have hres := exec_searchFirstMatchAfter hd.size
      (show IsSlot d.nbSamples (searchCtx d s.1.mem).tIndex from ht) hr.le_size hex hr.finds
    have hnext := (h.ring hd).index_next hd
    rw [show (searchCtx d s.1.mem).tIndex = writeIndex s.1.mem from rfl, hnext, h.index hd] at hres
    rw [hnaive]
    refine hres.trans (congrArg (fun i => (i, s.1)) ?_)
    by_cases ha : a < D
    · rw [if_pos ha, if_pos ha]
      cases a with
      | zero => rfl
      | succ a =>
        have hle := hr.le_commits
        rw [if_neg (Nat.succ_ne_zero a), if_neg (Nat.succ_ne_zero a), Nat.add_sub_cancel,
          ageSlot_eq _ (by omega), show s.2.commits.length - 1 - a = s.2.commits.length - (a + 1) by omega]
    · rw [if_neg ha, if_neg ha]

/-! ## What they should select -/

/-- The selection is around commit `j`. -/
structure Picks (N : Int) (r : Int × ShdCtx) (j : Nat) : Prop where
  code : 0 < r.1
  refIdx : r.2.window.refIdx = (j : Int) % N

/-- The two answers split the retained samples at the date. -/
structure Splits (N : Int) (log : List Commit) (date : Timespec) (before after : Int × ShdCtx) :
    Prop where
  newest : ∀ j, Newest N log date j → Picks N before j
  noNewest : before.1 = -ENOENT ↔ ∀ j, Retained N log.length j → ¬ Before log date j
  oldest : ∀ j, Oldest N log date j → Picks N after j
  noOldest : after.1 = -ENOENT ↔ ∀ j, Retained N log.length j → Before log date j

theorem Answers.picks {N : Int} (hN : RingSize N) {r : Int × ShdCtx} {j : Nat}
    (h : Answers r ((j : Int) % N)) : Picks N r j :=
  have hsome := h.some (isSlot_emod hN _).nonneg
  ⟨hsome.1, hsome.2⟩

theorem Picks.code_ne {N : Int} {r : Int × ShdCtx} {j : Nat} (h : Picks N r j) : r.1 ≠ -ENOENT := by
  have hcode := h.code
  have hneg : -ENOENT < 0 := by decide
  omega

/-- The scan found the newest commit before the date: both answers are right. -/
theorem splits_of_hit {N : Int} (hN : RingSize N) {log : List Commit} (hsorted : Sorted log)
    {a : Nat} (ha : a < log.length) (hnewest : Newest N log date (log.length - 1 - a))
    {before after : Int × ShdCtx}
    (hbefore : Answers before (((log.length - 1 - a : Nat) : Int) % N))
    (hafter : Answers after (if a = 0 then -1 else ((log.length - a : Nat) : Int) % N)) :
    Splits N log date before after := by
  have hpicks := hbefore.picks hN
  have hrec := hnewest.retained.recent
  refine ⟨fun j hj => hj.unique hnewest ▸ hpicks, iff_of_false hpicks.code_ne fun hno => ?_, ?_, ?_⟩
  · exact hno _ hnewest.retained hnewest.before
  · intro j hj
    have hjlt := hj.retained.lt
    cases a with
    | zero => exact absurd (hsorted.before (by omega) (by omega) hnewest.before) hj.after
    | succ a =>
      rw [if_neg (Nat.succ_ne_zero a)] at hafter
      have hnot : ¬ Before log date (log.length - (a + 1)) := hnewest.last _ (by omega) (by omega)
      obtain rfl : j = log.length - (a + 1) := by
        rcases Nat.lt_trichotomy j (log.length - (a + 1)) with hlt | heq | hgt
        · exact absurd (hsorted.before (by omega) (by omega) hnewest.before) hj.after
        · exact heq
        · exact absurd (hj.first _ ⟨by omega, by omega⟩ hgt) hnot
      exact hafter.picks hN
  · cases a with
    | zero =>
      rw [if_pos rfl] at hafter
      exact iff_of_true (hafter.none (by decide)) fun j hj =>
        hsorted.before (by have := hj.lt; omega) (by omega) hnewest.before
    | succ a =>
      rw [if_neg (Nat.succ_ne_zero a)] at hafter
      refine iff_of_false (hafter.picks hN).code_ne fun hall => ?_
      exact hnewest.last (log.length - (a + 1)) (by omega) (by omega)
        (hall _ ⟨by omega, by omega⟩)

/-- The scan found none: the answers are right if there is none and the ring is
full. -/
theorem splits_of_miss {N : Int} (hN : RingSize N) {log : List Commit} (hpos : 0 < log.length)
    {before after : Int × ShdCtx} (hbefore : Answers before (-1))
    (hafter : Answers after ((log.length : Int) % N)) :
    Splits N log date before after ↔
      (∀ j, Retained N log.length j → ¬ Before log date j) ∧ N ≤ log.length := by
  have hcode := hbefore.none (by decide)
  have hpicks := hafter.picks hN
  constructor
  · intro h
    have hnone := h.noNewest.mp hcode
    refine ⟨hnone, ?_⟩
    by_contra hlt
    -- the first commit is the oldest, and the answer is a slot never written
    have hzero : Retained N log.length 0 := ⟨hpos, by omega⟩
    have hfirst := (h.oldest 0 ⟨hzero, hnone 0 hzero, fun i _ hi => absurd hi (Nat.not_lt_zero i)⟩).refIdx
    rw [hpicks.refIdx, emod_of_bounds (by omega) (by omega), Nat.cast_zero, Int.zero_emod] at hfirst
    omega
  · rintro ⟨hnone, hfull⟩
    have hpos' := hN.pos
    refine ⟨fun j hj => absurd hj.before (hnone j hj.retained), iff_of_true hcode hnone, ?_, ?_⟩
    · intro j hj
      have hjrec := hj.retained.recent
      have hj' : (log.length : Int) = j + N := by
        by_contra hne
        exact hnone (log.length - N.toNat) ⟨by omega, by omega⟩
          (hj.first _ ⟨by omega, by omega⟩ (by omega))
      rw [hj', Int.add_emod_right] at hafter
      exact hafter.picks hN
    · refine iff_of_false hpicks.code_ne fun hall => ?_
      have hlast : Retained N log.length (log.length - 1) := ⟨by omega, by omega⟩
      exact hnone _ hlast (hall _ hlast)

/-- **The searches by date split the history** exactly if a retained sample before
the date is within the depth of the scan, or there is none and the ring is
full. -/
theorem splits_iff (B : Backend Ω) (hd : SoundDesc d) (hlt : d.nbSamples < 2147483648)
    (h : AtRest B d s) (hsorted : Sorted s.2.commits) (hF : Lexicographic F) {ctx : ShdCtx}
    (hctx : CtxFor d ctx) (hnaive : ctx.hint = .naive) {search : SampleSearch}
    (hfit : Fits d.nbSamples search) (u : Nat) :
    Splits d.nbSamples s.2.commits search.date (answer B u F ctx (byDate search .firstBefore) s)
        (answer B u F ctx (byDate search .firstAfter) s) ↔
      (∃ j, Retained d.nbSamples s.2.commits.length j ∧ Before s.2.commits search.date j ∧
        Scanned d s.1.mem s.2.commits.length j) ∨
      ((∀ j, Retained d.nbSamples s.2.commits.length j → ¬ Before s.2.commits search.date j) ∧
        d.nbSamples ≤ s.2.commits.length) := by
  obtain ⟨D, a, r, hr, hex⟩ := exec_naive h hd hlt hF search.date u
  have hbefore := before_answers h hd hlt hctx hnaive hfit hr hex
  have hafter := after_answers h hd hlt hctx hnaive hfit hr hex
  by_cases ha : a < D
  · rw [if_pos ha] at hbefore hafter
    have hnewest := hr.hit ha
    exact iff_of_true
      (splits_of_hit hd.size hsorted (lt_of_lt_of_le ha hr.le_commits) hnewest hbefore hafter)
      (Or.inl ⟨_, hnewest.retained, hnewest.before, hr.scanned ha⟩)
  · rw [if_neg ha] at hbefore hafter
    have hnot : ¬ ∃ j, Retained d.nbSamples s.2.commits.length j ∧
        Before s.2.commits search.date j ∧ Scanned d s.1.mem s.2.commits.length j :=
      fun ⟨j, hj, hb, hscan⟩ => hr.miss ha j hj hscan hb
    rw [splits_of_miss hd.size h.pos hbefore hafter, or_iff_right hnot]

/-! ## A section that is not full -/

theorem key_lt_iff {a b : Timespec} : key a < key b ↔
    a.tvSec.toInt < b.tvSec.toInt ∨ a.tvSec.toInt = b.tvSec.toInt ∧ a.tvNsec.toInt < b.tvNsec.toInt := by
  rw [key, key, Prod.Lex.toLex_lt_toLex]

theorem libfutils_lexicographic : Lexicographic libfutils := by
  constructor
  · intro a b
    rw [key_lt_iff]
    simp only [libfutils]
    repeat' split
    all_goals omega
  · intro a b
    rw [key_lt_iff]
    simp only [libfutils]
    repeat' split
    all_goals omega

/-- A date search for one sample. -/
def dateSearch (sec : BitVec 64) : SampleSearch := ⟨⟨sec, 0⟩, .closest, 0, 0⟩

/-! Two samples at the date 0. -/

theorem length_two : (partlyFilled 2).2.commits.length = 2 := by decide +kernel

theorem stampAt_two : ∀ j, j < 2 → stampAt (partlyFilled 2).2.commits j = ⟨0, 0⟩ := by
  decide +kernel

theorem atRest_two : AtRest shm ⟨56, 4, 4⟩ (partlyFilled 2) :=
  atRest_partlyFilled 2 (by decide) (by decide +kernel) (by decide +kernel)

theorem sorted_two : Sorted (partlyFilled 2).2.commits := by
  intro i j hij hj
  rw [length_two] at hj
  rw [stampAt_two i (by omega), stampAt_two j hj]

theorem before_two : Before (partlyFilled 2).2.commits ⟨1, 0⟩ 1 := by
  rw [Before, stampAt_two 1 (by decide), key_lt_iff]
  decide

theorem retained_two : Retained 4 (partlyFilled 2).2.commits.length 1 :=
  ⟨by rw [length_two]; decide, by rw [length_two]; decide⟩

theorem scanned_two :
    ∀ j, Scanned ⟨56, 4, 4⟩ (partlyFilled 2).1.mem (partlyFilled 2).2.commits.length j := by
  intro j
  have hvalid : ∀ i : Nat, i < 2 →
      nbWrites ⟨56, 4, 4⟩ (partlyFilled 2).1.mem ((i : Int) % 4) ≠ -1 := by decide +kernel
  rw [length_two]
  exact Or.inr fun i _ hi => hvalid i hi

theorem fits_dateSearch (sec : BitVec 64) : Fits 4 (dateSearch sec) := by
  show (((0 : UInt32).toNat : Int)) + ((0 : UInt32).toNat : Int) + 1 ≤ 4
  decide

/-- A date after both. -/
theorem splits_iff_two :
    Splits 4 (partlyFilled 2).2.commits ⟨1, 0⟩
      (answer shm 1 libfutils (reader 2) (byDate (dateSearch 1) .firstBefore) (partlyFilled 2))
      (answer shm 1 libfutils (reader 2) (byDate (dateSearch 1) .firstAfter) (partlyFilled 2)) := by
  have hf : FitsHdr ⟨4, 4, 1, 0⟩ := ⟨⟨by decide, by decide⟩, by decide⟩
  have hctx : CtxFor ⟨56, 4, 4⟩ (reader 2) := ⟨by decide +kernel, by decide +kernel⟩
  exact (splits_iff shm (soundDesc_of_fits hf) (by decide) atRest_two sorted_two
    libfutils_lexicographic hctx (by decide +kernel) (fits_dateSearch 1) 1).mpr
    (Or.inl ⟨1, retained_two, before_two, scanned_two 1⟩)

/-- One sample, which is at the date. The search for the first one from the date on
selects slot 1, which was never written. -/
theorem splits_not_one :
    (answer shm 1 libfutils (reader 1) (byDate (dateSearch 0) .firstAfter) (partlyFilled 1)).2.window.refIdx
      = 1 ∧
    ¬ Splits 4 (partlyFilled 1).2.commits ⟨0, 0⟩
      (answer shm 1 libfutils (reader 1) (byDate (dateSearch 0) .firstBefore) (partlyFilled 1))
      (answer shm 1 libfutils (reader 1) (byDate (dateSearch 0) .firstAfter) (partlyFilled 1)) := by
  have hlen : (partlyFilled 1).2.commits.length = 1 := by decide +kernel
  have hstamp : stampAt (partlyFilled 1).2.commits 0 = ⟨0, 0⟩ := by decide +kernel
  have href : (answer shm 1 libfutils (reader 1) (byDate (dateSearch 0) .firstAfter)
      (partlyFilled 1)).2.window.refIdx = 1 := by decide +kernel
  have hnot : ¬ Before (partlyFilled 1).2.commits ⟨0, 0⟩ 0 := by
    rw [Before, hstamp]
    exact lt_irrefl _
  refine ⟨href, fun h => ?_⟩
  have hpick := h.oldest 0 ⟨⟨by rw [hlen]; decide, by rw [hlen]; decide⟩, hnot,
    fun i _ hi => absurd hi (Nat.not_lt_zero i)⟩
  have := hpick.refIdx
  rw [href] at this
  exact absurd this (by decide)

end Shdata.Consumer
