/-
Shdata.Ring.Cyclic — sequence numbers that share the slots of a ring.

The `j`-th use of a ring of `N` slots, counted from 0, falls on slot
`j % N`. `gap N i j` is the number of slots from `i` forward to `j`, and
`laps N i r` the number of the first `r` uses that fell on slot `i`.

The uses walk the ring in order, so the first use from `r` on that falls on
slot `s` is number `r + gap N r s` (`hit_iff`). A window of slots that
starts at `s` and is met by the walk in its own order is therefore met as
soon as its first slot is, and never before (`window_hit_iff`): one counter,
that of the first slot, tells whether any slot of the window was used.
-/
import Mathlib.Data.Nat.Count
import Mathlib.Tactic.Ring

namespace Shdata.Ring

/-! ## Distances -/

/-- Slots from `i` forward to `j`. -/
def gap (N i j : Int) : Int := (j - i) % N

section Gap

variable {N : Int}

theorem gap_nonneg (hN : 0 < N) (i j : Int) : 0 ≤ gap N i j :=
  Int.emod_nonneg _ (by omega)

theorem gap_lt (hN : 0 < N) (i j : Int) : gap N i j < N :=
  Int.emod_lt_of_pos _ hN

theorem emod_of_bounds {i : Int} (h0 : 0 ≤ i) (h1 : i < N) : i % N = i :=
  Int.emod_eq_of_lt h0 h1

/-- The slot `x` places after `i`, seen from the remainder of `i`. -/
theorem emod_add_emod (i x : Int) : (i % N + x) % N = (i + x) % N :=
  Int.emod_add_emod i N x

theorem gap_emod_left (i j : Int) : gap N (i % N) j = gap N i j := by
  unfold gap
  rw [Int.sub_emod, Int.emod_emod_of_dvd _ (dvd_refl N), ← Int.sub_emod]

theorem gap_emod_right (i j : Int) : gap N i (j % N) = gap N i j := by
  unfold gap
  rw [Int.sub_emod, Int.emod_emod_of_dvd _ (dvd_refl N), ← Int.sub_emod]

/-- The gap is zero for equal slots only. -/
theorem gap_self (i : Int) : gap N i i = 0 := by
  simp [gap]

/-- Walking the gap leads to the slot. -/
theorem add_gap_emod (i j : Int) : (i + gap N i j) % N = j % N := by
  unfold gap
  rw [Int.add_emod, Int.emod_emod_of_dvd _ (dvd_refl N), ← Int.add_emod]
  congr 1
  ring

/-- A slot that is `x < N` places after `i` has gap `x`. -/
theorem gap_add {x : Int} (i : Int) (h0 : 0 ≤ x) (h1 : x < N) : gap N i (i + x) = x := by
  unfold gap
  rw [show i + x - i = x by ring]
  exact Int.emod_eq_of_lt h0 h1

/-- For slot numbers the gap needs at most one turn. -/
theorem gap_of_slots {i j : Int} (hi0 : 0 ≤ i) (hi : i < N) (hj0 : 0 ≤ j) (hj : j < N) :
    gap N i j = if i ≤ j then j - i else j + N - i := by
  unfold gap
  split
  · exact Int.emod_eq_of_lt (by omega) (by omega)
  · have h : (j - i + N) % N = j + N - i := by
      rw [show j - i + N = j + N - i by ring]
      exact Int.emod_eq_of_lt (by omega) (by omega)
    rw [← h, Int.add_emod_right]

/-- Two numbers less than a turn apart fall on different slots. -/
theorem emod_ne_of_lt {i j : Int} (h : i < j) (hlt : j < i + N) : i % N ≠ j % N := by
  intro he
  have hdvd : N ∣ j - i := Int.dvd_of_emod_eq_zero (Int.emod_eq_emod_iff_emod_sub_eq_zero.mp he.symm)
  have := Int.le_of_dvd (by omega) hdvd
  omega

end Gap

/-! ## First uses of a slot -/

section Hit

variable {N : Int}

/-- A use from `r` on that falls on slot `s` is no earlier than `r + gap`. -/
theorem gap_le_of_hit (hN : 0 < N) {r j s : Int} (hj : r ≤ j) (hs : j % N = s % N) :
    r + gap N r s ≤ j := by
  have h1 : gap N r s = (j - r) % N := by
    rw [← gap_emod_right, ← hs, gap_emod_right, gap]
  have h2 : (j - r) % N ≤ j - r := by
    have := Int.emod_add_mul_ediv (j - r) N
    have hq : 0 ≤ N * ((j - r) / N) := Int.mul_nonneg hN.le (Int.ediv_nonneg (by omega) hN.le)
    omega
  omega

/-- Some use in `[r, r')` falls on slot `s` as soon as the interval reaches
past the gap. -/
theorem hit_iff (hN : 0 < N) (r r' s : Int) :
    (∃ j, r ≤ j ∧ j < r' ∧ j % N = s % N) ↔ r + gap N r s < r' := by
  constructor
  · rintro ⟨j, h0, h1, hs⟩
    have := gap_le_of_hit hN h0 hs
    omega
  · intro h
    have h0 := gap_nonneg hN r s
    exact ⟨r + gap N r s, by omega, h, add_gap_emod r s⟩

/-- A window that the walk from `r` meets in order, `n` slots from `s`, has a
used slot exactly if its first slot was used. -/
theorem window_hit_iff (hN : 0 < N) {r r' s n : Int} (hn : 0 < n) (hw : gap N r s + n ≤ N) :
    (∃ x, 0 ≤ x ∧ x < n ∧ ∃ j, r ≤ j ∧ j < r' ∧ j % N = (s + x) % N)
      ↔ ∃ j, r ≤ j ∧ j < r' ∧ j % N = s % N := by
  constructor
  · rintro ⟨x, h0, h1, hx⟩
    rw [hit_iff hN] at hx ⊢
    have hg : gap N r (s + x) = gap N r s + x := by
      have hsx : (s + x) % N = (r + (gap N r s + x)) % N := by
        rw [← Int.add_assoc, ← emod_add_emod (r + gap N r s) x, add_gap_emod, emod_add_emod]
      rw [← gap_emod_right, hsx, gap_emod_right,
        gap_add r (by have := gap_nonneg hN r s; omega) (by omega)]
    omega
  · rintro ⟨j, h0, h1, hj⟩
    exact ⟨0, le_refl 0, hn, j, h0, h1, by simpa using hj⟩

end Hit

/-! ## Counting the uses of a slot -/

/-- How many of the first `r` uses fell on slot `i`. -/
def laps (N i : Int) (r : Nat) : Nat := Nat.count (fun j : Nat => (j : Int) % N = i) r

section Laps

variable {N : Int}

@[simp] theorem laps_zero (N i : Int) : laps N i 0 = 0 := rfl

theorem laps_succ_self (N : Int) (r : Nat) :
    laps N ((r : Int) % N) (r + 1) = laps N ((r : Int) % N) r + 1 := by
  simp [laps, Nat.count_succ]

theorem laps_succ_of_ne {i : Int} {r : Nat} (h : (r : Int) % N ≠ i) :
    laps N i (r + 1) = laps N i r := by
  simp [laps, Nat.count_succ, h]

theorem laps_mono (N i : Int) {r r' : Nat} (h : r ≤ r') : laps N i r ≤ laps N i r' :=
  Nat.count_monotone _ h

/-- The count of a slot grows exactly over the intervals that use it. -/
theorem laps_lt_iff {i : Int} {r r' : Nat} :
    laps N i r < laps N i r' ↔ ∃ j : Nat, r ≤ j ∧ j < r' ∧ (j : Int) % N = i := by
  constructor
  · intro h
    by_contra hno
    have hle : ∀ n, laps N i (min (r + n) r') ≤ laps N i r := by
      intro n
      induction n with
      | zero => exact laps_mono N i (by omega)
      | succ n ih =>
        by_cases hn : r + n < r'
        · have hne : ((min (r + n) r' : Nat) : Int) % N ≠ i := fun he =>
            hno ⟨min (r + n) r', by omega, by omega, he⟩
          rw [show min (r + (n + 1)) r' = min (r + n) r' + 1 by omega, laps_succ_of_ne hne]
          exact ih
        · rw [show min (r + (n + 1)) r' = min (r + n) r' by omega]
          exact ih
    have := hle r'
    rw [show min (r + r') r' = r' by omega] at this
    omega
  · rintro ⟨j, h0, h1, hj⟩
    calc laps N i r ≤ laps N i j := laps_mono N i h0
      _ < laps N i j + 1 := Nat.lt_succ_self _
      _ = laps N i (j + 1) := by rw [← hj, laps_succ_self]
      _ ≤ laps N i r' := laps_mono N i h1

/-- A quotient from its division. -/
theorem ediv_of_split {x : Int} (q r : Int) (h : r + N * q = x) (h0 : 0 ≤ r) (h1 : r < N) :
    x / N = q :=
  ((Int.ediv_emod_unique (by omega)).mpr ⟨h, h0, h1⟩).1

/-- The count of a slot in closed form. -/
theorem laps_eq {i : Int} (hi0 : 0 ≤ i) (hi : i < N) (r : Nat) :
    (laps N i r : Int) = ((r : Int) - 1 - i) / N + 1 := by
  have hN : 0 < N := by omega
  induction r with
  | zero =>
    have hneg : (((0 : Nat) : Int) - 1 - i) / N = -1 :=
      ediv_of_split (-1) (N - 1 - i) (by push_cast; ring) (by omega) (by omega)
    rw [hneg, laps_zero]
    rfl
  | succ r ih =>
    have hcast : ((r + 1 : Nat) : Int) - 1 - i = (r : Int) - i := by
      push_cast
      ring
    have hdiv := Int.emod_add_mul_ediv ((r : Int) - i) N
    have hlt := Int.emod_lt_of_pos ((r : Int) - i) hN
    have hnn := Int.emod_nonneg ((r : Int) - i) (by omega : N ≠ 0)
    rw [hcast]
    by_cases hr : (r : Int) % N = i
    · -- slot `i` is used: its distance to `r` is a number of turns
      have hzero : ((r : Int) - i) % N = 0 := by
        rw [← hr]
        exact Int.emod_eq_emod_iff_emod_sub_eq_zero.mp (Int.emod_emod_of_dvd _ (dvd_refl N)).symm
      have hprev : ((r : Int) - 1 - i) / N = ((r : Int) - i) / N - 1 :=
        ediv_of_split _ (N - 1) (by rw [Int.mul_sub]; omega) (by omega) (by omega)
      have hlaps := laps_succ_self N r
      rw [hr] at hlaps
      rw [hlaps]
      push_cast
      rw [ih, hprev]
      ring
    · have hpos : ((r : Int) - i) % N ≠ 0 := by
        intro hzero
        refine hr ?_
        have := Int.emod_eq_emod_iff_emod_sub_eq_zero.mpr hzero
        rwa [emod_of_bounds hi0 hi] at this
      have hprev : ((r : Int) - 1 - i) / N = ((r : Int) - i) / N :=
        ediv_of_split _ (((r : Int) - i) % N - 1) (by omega) (by omega) (by omega)
      rw [laps_succ_of_ne hr, ih, hprev]

/-- The slots up to the last one used have one use more than those after it. -/
theorem laps_last {i : Int} (hi0 : 0 ≤ i) (hi : i < N) (r : Nat) :
    (laps N i r : Int) = ((r : Int) - 1) / N + if i ≤ ((r : Int) - 1) % N then 1 else 0 := by
  have hN : 0 < N := by omega
  have hdiv := Int.emod_add_mul_ediv ((r : Int) - 1) N
  have hlt := Int.emod_lt_of_pos ((r : Int) - 1) hN
  have hnn := Int.emod_nonneg ((r : Int) - 1) (by omega : N ≠ 0)
  rw [laps_eq hi0 hi]
  split
  · have hq : ((r : Int) - 1 - i) / N = ((r : Int) - 1) / N :=
      ediv_of_split _ (((r : Int) - 1) % N - i) (by omega) (by omega) (by omega)
    rw [hq]
  · have hq : ((r : Int) - 1 - i) / N = ((r : Int) - 1) / N - 1 :=
      ediv_of_split _ (((r : Int) - 1) % N + N - i) (by rw [Int.mul_sub]; omega) (by omega) (by omega)
    rw [hq]
    ring

end Laps

end Shdata.Ring
