/-
Shdata.Consumer.Closest — the search of the closest sample.

`shd_search_closest_match` compares the two samples on either side of the date,
the newest one before it and the one after that. Since the timestamps do not
decrease, no other sample is closer (`nearest_before`, `nearest_after`). If the scan
finds no sample before the date the function answers the slot after the latest
sample, as `SHD_FIRST_AFTER` does.
-/
import Shdata.Consumer.Dates

namespace Shdata.Consumer

open Shdata.Conc Shdata.Bytes Shdata.Core Shdata.Ring Shdata.Layout Shdata.Trace Shdata.Producer
  Shdata.Solo

variable {Ω : Type} {B : Backend Ω} {d : DataSectionDesc} {s : World Ω × History} {F : Futils}
  {date : Timespec} {u : Nat}

/-! ## Distances -/

/-- A `struct timespec` as POSIX has it: the nanoseconds are less than a second. -/
structure Normal (t : Timespec) : Prop where
  nonneg : 0 ≤ t.tvNsec.toInt
  lt : t.tvNsec.toInt < 1000000000

/-- The date in nanoseconds. -/
def nanos (t : Timespec) : Int := t.tvSec.toInt * 1000000000 + t.tvNsec.toInt

theorem key_lt_iff_nanos {a b : Timespec} (ha : Normal a) (hb : Normal b) :
    key a < key b ↔ nanos a < nanos b := by
  obtain ⟨ha0, ha1⟩ := ha
  obtain ⟨hb0, hb1⟩ := hb
  rw [key_lt_iff, nanos, nanos]
  omega

/-- `time_timespec_diff` gives the exact difference from `a` to `b`. -/
structure ExactDiff (F : Futils) (a b : Timespec) : Prop where
  code : (F.timespecDiff a b).1 = 0
  normal : Normal (F.timespecDiff a b).2
  value : nanos (F.timespecDiff a b).2 = nanos b - nanos a

/-- The absolute distance of commit `j` from the date. -/
def dist (log : List Commit) (date : Timespec) (j : Nat) : Nat :=
  (nanos (stampAt log j) - nanos date).natAbs

/-- Dates whose differences `time_timespec_diff` gives exactly. -/
structure Measured (F : Futils) (N : Int) (log : List Commit) (date : Timespec) : Prop where
  target : Normal date
  stamps : ∀ j, Retained N log.length j → Normal (stampAt log j)
  before : ∀ j, Retained N log.length j → nanos (stampAt log j) ≤ nanos date →
    ExactDiff F (stampAt log j) date
  after : ∀ j, Retained N log.length j → nanos date ≤ nanos (stampAt log j) →
    ExactDiff F date (stampAt log j)

/-- No retained sample is closer to the date than commit `j`, and none before the
date is as close, if commit `j` is not before it. -/
structure Nearest (N : Int) (log : List Commit) (date : Timespec) (j : Nat) : Prop where
  retained : Retained N log.length j
  least : ∀ i, Retained N log.length i → dist log date j ≤ dist log date i
  tie : ∀ i, Retained N log.length i → dist log date i = dist log date j →
    Before log date i → Before log date j

section Neighbours

variable {N : Int} {log : List Commit}

theorem before_iff_nanos (hm : Measured F N log date) {j : Nat} (hj : Retained N log.length j) :
    Before log date j ↔ nanos (stampAt log j) < nanos date :=
  key_lt_iff_nanos (hm.stamps j hj) hm.target

theorem nanos_mono (hm : Measured F N log date) (hsorted : Sorted log) {i j : Nat}
    (hi : Retained N log.length i) (hj : Retained N log.length j) (hij : i ≤ j) :
    nanos (stampAt log i) ≤ nanos (stampAt log j) := by
  have hle := hsorted i j hij hj.lt
  by_contra hgt
  exact absurd ((key_lt_iff_nanos (hm.stamps j hj) (hm.stamps i hi)).mpr (not_le.mp hgt)) (not_lt.mpr hle)

/-- The newest commit before the date is the nearest one, if the commit after it
is not nearer. -/
theorem nearest_before (hm : Measured F N log date) (hsorted : Sorted log) {j : Nat}
    (hj : Newest N log date j)
    (hnext : ∀ i, i = j + 1 → i < log.length → dist log date j ≤ dist log date i) :
    Nearest N log date j := by
  have hbj := (before_iff_nanos hm hj.retained).mp hj.before
  refine ⟨hj.retained, fun i hi => ?_, fun i hi heq hb => hj.before⟩
  rcases Nat.lt_or_ge j i with hlt | hge
  · have hnot := hj.last (j + 1) (by omega) (by have := hi.lt; omega)
    have hret : Retained N log.length (j + 1) :=
      ⟨by have := hi.lt; omega, by have := hj.retained.recent; push_cast; omega⟩
    rw [before_iff_nanos hm hret] at hnot
    have hmono := nanos_mono hm hsorted hret hi (by omega)
    have hle := hnext (j + 1) rfl hret.lt
    unfold dist at hle ⊢
    omega
  · have hmono := nanos_mono hm hsorted hi hj.retained hge
    unfold dist
    omega

/-- The commit after it is the nearest one, if it is nearer. -/
theorem nearest_after (hm : Measured F N log date) (hsorted : Sorted log) {j : Nat}
    (hj : Newest N log date j) (hlt : j + 1 < log.length)
    (hnear : dist log date (j + 1) < dist log date j) : Nearest N log date (j + 1) := by
  have hret : Retained N log.length (j + 1) :=
    ⟨hlt, by have := hj.retained.recent; push_cast; omega⟩
  have hbj := (before_iff_nanos hm hj.retained).mp hj.before
  have hnot := hj.last (j + 1) (by omega) hlt
  rw [before_iff_nanos hm hret] at hnot
  refine ⟨hret, fun i hi => ?_, fun i hi heq hb => ?_⟩
  · rcases Nat.lt_or_ge j i with hji | hge
    · have hmono := nanos_mono hm hsorted hret hi (by omega)
      unfold dist
      omega
    · have hmono := nanos_mono hm hsorted hi hj.retained hge
      unfold dist at hnear ⊢
      omega
  · have hib := (before_iff_nanos hm hi).mp hb
    have hile : i ≤ j := by
      by_contra hgt
      have hmono := nanos_mono hm hsorted hret hi (by omega)
      omega
    have hmono := nanos_mono hm hsorted hi hj.retained hile
    unfold dist at hnear heq
    omega

/-- Without a sample before the date the oldest one is the nearest. -/
theorem nearest_oldest (hm : Measured F N log date) (hsorted : Sorted log)
    (hnone : ∀ j, Retained N log.length j → ¬ Before log date j) {j : Nat}
    (hj : Retained N log.length j) (hold : ∀ i, Retained N log.length i → j ≤ i) :
    Nearest N log date j := by
  refine ⟨hj, fun i hi => ?_, fun i hi _ hb => absurd hb (hnone i hi)⟩
  have hnot := hnone j hj
  rw [before_iff_nanos hm hj] at hnot
  have hmono := nanos_mono hm hsorted hj hi (hold i hi)
  unfold dist
  omega

/-- `shd_sample_closest_timestamp` prefers the sample after the date exactly if it
is nearer. -/
theorem closestTimestamp_iff (hF : Lexicographic F) (hm : Measured F N log date) {i j : Nat}
    (hi : Retained N log.length i) (hj : Retained N log.length j)
    (hib : nanos (stampAt log i) ≤ nanos date) (hjb : nanos date ≤ nanos (stampAt log j)) :
    closestTimestamp F (stampAt log i) (stampAt log j) date < 0 ↔ dist log date j < dist log date i := by
  have h₁ := hm.before i hi hib
  have h₂ := hm.after j hj hjb
  rw [closestTimestamp, h₁.code, h₂.code, if_neg (lt_irrefl 0), if_neg (lt_irrefl 0), hF.before,
    key_lt_iff_nanos h₂.normal h₁.normal, h₁.value, h₂.value]
  unfold dist
  omega

end Neighbours

/-! ## The search -/

theorem closest_answers (h : AtRest B d s) (hd : SoundDesc d) (hlt : d.nbSamples < 2147483648)
    (hF : Lexicographic F) {ctx : ShdCtx} (hctx : CtxFor d ctx) (hnaive : ctx.hint = .naive)
    {search : SampleSearch} (hfit : Fits d.nbSamples search) (hmethod : search.method = .closest)
    (hm : Measured F d.nbSamples s.2.commits search.date) {D a : Nat} {r : RefSearch}
    (hr : NaiveEnd d s search.date D a r)
    (hex : exec (machine B) u (searchReferenceSample F d search.date (searchCtx d s.1.mem) .naive) s.1
      = (r, s.1)) :
    Answers (answer B u F ctx search s)
      (if a < D then
        (if a = 0 then ((s.2.commits.length - 1 : Nat) : Int) % d.nbSamples
          else if dist s.2.commits search.date (s.2.commits.length - a)
            < dist s.2.commits search.date (s.2.commits.length - 1 - a)
          then ((s.2.commits.length - a : Nat) : Int) % d.nbSamples
          else ((s.2.commits.length - 1 - a : Nat) : Int) % d.nbSamples)
        else (s.2.commits.length : Int) % d.nbSamples) := by
  have ht := h.isSlot_index hd
  have hring := h.ring hd
  have hpos := h.pos
  have hsize := hr.le_size
  have hcommits := hr.le_commits
  refine dataFind_answers h hd hlt hctx hfit ?_ ?_
  · split
    · split
      · exact Or.inr (isSlot_emod hd.size _)
      · split
        · exact Or.inr (isSlot_emod hd.size _)
        · exact Or.inr (isSlot_emod hd.size _)
    · exact Or.inr (isSlot_emod hd.size _)
  · have hres := exec_searchClosestMatch hd
      (show IsSlot d.nbSamples (searchCtx d s.1.mem).tIndex from ht) hr.le_size hex hr.finds
    rw [show (searchCtx d s.1.mem).tIndex = writeIndex s.1.mem from rfl, hring.index_next hd,
      h.index hd] at hres
    rw [hnaive, windowRefIdx, hmethod]
    refine hres.trans (congrArg (fun i => (i, s.1)) ?_)
    by_cases ha : a < D
    · rw [if_pos ha, if_pos ha]
      cases a with
      | zero =>
        rw [if_pos rfl, if_pos rfl, Nat.cast_sub (by omega)]
        rfl
      | succ a =>
        have hnewest := hr.hit ha
        have hret : Retained d.nbSamples s.2.commits.length (s.2.commits.length - (a + 1)) :=
          ⟨by omega, by omega⟩
        have hnot := hnewest.last (s.2.commits.length - (a + 1)) (by omega) (by omega)
        rw [before_iff_nanos hm hret] at hnot
        have hbefore := (before_iff_nanos hm hnewest.retained).mp hnewest.before
        have hage : s.2.commits.length - 1 - a = s.2.commits.length - (a + 1) := by omega
        have hiff := closestTimestamp_iff hF hm hnewest.retained hret hbefore.le (not_lt.mp hnot)
        rw [if_neg (Nat.succ_ne_zero a), if_neg (Nat.succ_ne_zero a), Nat.add_sub_cancel,
          ageSlot_eq _ (show a + 1 < s.2.commits.length by omega),
          ageSlot_eq _ (show a < s.2.commits.length by omega), hage,
          slotStamp_retained hring hnewest.retained, slotStamp_retained hring hret]
        by_cases hnear : dist s.2.commits search.date (s.2.commits.length - (a + 1))
            < dist s.2.commits search.date (s.2.commits.length - 1 - (a + 1))
        · rw [if_pos hnear, if_pos (hiff.mpr hnear)]
        · rw [if_neg hnear, if_neg fun hc => hnear (hiff.mp hc)]
    · rw [if_neg ha, if_neg ha]

/-- **The closest search minimises the distance** exactly if the scan reaches a
sample before the date, or the ring is full and no sample is before the date
or the oldest one is the nearest by chance. -/
theorem closest_iff (B : Backend Ω) (hd : SoundDesc d) (hlt : d.nbSamples < 2147483648)
    (h : AtRest B d s) (hsorted : Sorted s.2.commits) (hF : Lexicographic F) {ctx : ShdCtx}
    (hctx : CtxFor d ctx) (hnaive : ctx.hint = .naive) {search : SampleSearch}
    (hfit : Fits d.nbSamples search) (hmethod : search.method = .closest)
    (hm : Measured F d.nbSamples s.2.commits search.date) (u : Nat) :
    (∃ j, Picks d.nbSamples (answer B u F ctx search s) j ∧
        Nearest d.nbSamples s.2.commits search.date j) ↔
      (∃ j, Retained d.nbSamples s.2.commits.length j ∧ Before s.2.commits search.date j ∧
        Scanned d s.1.mem s.2.commits.length j) ∨
      (d.nbSamples ≤ s.2.commits.length ∧
        ((∀ j, Retained d.nbSamples s.2.commits.length j → ¬ Before s.2.commits search.date j) ∨
          Nearest d.nbSamples s.2.commits search.date (s.2.commits.length - d.nbSamples.toNat))) := by
  obtain ⟨D, a, r, hr, hex⟩ := exec_naive h hd hlt hF search.date u
  have hans := closest_answers h hd hlt hF hctx hnaive hfit hmethod hm hr hex
  have hpos := h.pos
  have hN := hd.size.pos
  by_cases ha : a < D
  · have hnewest := hr.hit ha
    have hle := hr.le_commits
    refine iff_of_true ?_ (Or.inl ⟨_, hnewest.retained, hnewest.before, hr.scanned ha⟩)
    rw [if_pos ha] at hans
    cases a with
    | zero =>
      rw [if_pos rfl] at hans
      exact ⟨_, hans.picks hd.size, nearest_before hm hsorted hnewest fun i hi hlt => by omega⟩
    | succ a =>
      rw [if_neg (Nat.succ_ne_zero a)] at hans
      have hsucc : s.2.commits.length - 1 - (a + 1) + 1 = s.2.commits.length - (a + 1) := by omega
      by_cases hnear : dist s.2.commits search.date (s.2.commits.length - (a + 1))
          < dist s.2.commits search.date (s.2.commits.length - 1 - (a + 1))
      · rw [if_pos hnear] at hans
        refine ⟨_, hans.picks hd.size, ?_⟩
        rw [← hsucc] at hnear ⊢
        exact nearest_after hm hsorted hnewest (by omega) hnear
      · rw [if_neg hnear] at hans
        refine ⟨_, hans.picks hd.size, nearest_before hm hsorted hnewest fun i hi _ => ?_⟩
        rw [hi, hsucc]
        exact not_lt.mp hnear
  · rw [if_neg ha] at hans
    have hnot : ¬ ∃ j, Retained d.nbSamples s.2.commits.length j ∧
        Before s.2.commits search.date j ∧ Scanned d s.1.mem s.2.commits.length j :=
      fun ⟨j, hj, hb, hscan⟩ => hr.miss ha j hj hscan hb
    rw [or_iff_right hnot]
    have hpicks := hans.picks hd.size
    constructor
    · rintro ⟨j, hj, hnear⟩
      have hslot := hj.refIdx.symm.trans hpicks.refIdx
      have hjlt := hnear.retained.lt
      have hjrec := hnear.retained.recent
      -- the slot after the latest sample is that of commit `k - N`
      have hturn : (s.2.commits.length : Int) = j + d.nbSamples := by
        by_contra hne
        exact emod_ne_of_lt (N := d.nbSamples) (i := j) (j := s.2.commits.length) (by omega)
          (by omega) hslot
      refine ⟨by omega, Or.inr ?_⟩
      rwa [show s.2.commits.length - d.nbSamples.toNat = j by omega]
    · rintro ⟨hfull, hcase⟩
      have hnear : Nearest d.nbSamples s.2.commits search.date
          (s.2.commits.length - d.nbSamples.toNat) := by
        rcases hcase with hnone | hnear
        · refine nearest_oldest hm hsorted hnone ⟨by omega, by omega⟩ fun i hi => ?_
          have := hi.recent
          omega
        · exact hnear
      refine ⟨_, ?_, hnear⟩
      have hcast : ((s.2.commits.length - d.nbSamples.toNat : Nat) : Int)
          = s.2.commits.length - d.nbSamples := by omega
      have hslot : ((s.2.commits.length - d.nbSamples.toNat : Nat) : Int) % d.nbSamples
          = (s.2.commits.length : Int) % d.nbSamples := by
        rw [hcast, Int.sub_emod_right]
      exact ⟨hpicks.code, hpicks.refIdx.trans hslot.symm⟩

/-! ## A section that is not full -/

theorem measured_two : Measured libfutils 4 (partlyFilled 2).2.commits ⟨1, 0⟩ := by
  have hlt : ∀ j, Retained 4 (partlyFilled 2).2.commits.length j → j < 2 :=
    fun j hj => length_two ▸ hj.lt
  refine ⟨⟨by decide, by decide⟩, fun j hj => ?_, fun j hj _ => ?_, fun j hj hle => ?_⟩
  · rw [stampAt_two j (hlt j hj)]
    exact ⟨by decide, by decide⟩
  · rw [stampAt_two j (hlt j hj)]
    exact ⟨by decide, ⟨by decide, by decide⟩, by decide⟩
  · rw [stampAt_two j (hlt j hj)] at hle
    exact absurd hle (by decide)

/-- Two samples, a second before the date. -/
theorem closest_iff_two :
    ∃ j, Picks 4 (answer shm 1 libfutils (reader 2) (dateSearch 1) (partlyFilled 2)) j ∧
      Nearest 4 (partlyFilled 2).2.commits ⟨1, 0⟩ j := by
  have hf : FitsHdr ⟨4, 4, 1, 0⟩ := ⟨⟨by decide, by decide⟩, by decide⟩
  have hctx : CtxFor ⟨56, 4, 4⟩ (reader 2) := ⟨by decide +kernel, by decide +kernel⟩
  exact (closest_iff shm (soundDesc_of_fits hf) (by decide) atRest_two sorted_two
    libfutils_lexicographic hctx (by decide +kernel) (fits_dateSearch 1) rfl measured_two 1).mpr
    (Or.inl ⟨1, retained_two, before_two, scanned_two 1⟩)

/-- One sample, which is at the date. The search selects slot 1, which was never
written. -/
theorem closest_not_one :
    (answer shm 1 libfutils (reader 1) (dateSearch 0) (partlyFilled 1)).2.window.refIdx = 1 ∧
    ¬ ∃ j, Picks 4 (answer shm 1 libfutils (reader 1) (dateSearch 0) (partlyFilled 1)) j ∧
      Nearest 4 (partlyFilled 1).2.commits ⟨0, 0⟩ j := by
  have hlen : (partlyFilled 1).2.commits.length = 1 := by decide +kernel
  have href : (answer shm 1 libfutils (reader 1) (dateSearch 0) (partlyFilled 1)).2.window.refIdx
      = 1 := by decide +kernel
  refine ⟨href, ?_⟩
  rintro ⟨j, hj, hnear⟩
  have hlt := hnear.retained.lt
  have hslot := hj.refIdx
  rw [hlen] at hlt
  rw [href] at hslot
  omega

end Shdata.Consumer
