/-
Shdata.Ring.First — where a scan stops.

A scan of the indices from `lo` on stops at the first index with a property,
and at `hi` if there is none. `First p lo hi v` says that it stops at `v`. A
property that stays once it holds has its whole extent told by that one
index (`First.iff_of_mono`), so scans from either end, and bisections, can be
compared by it.
-/
import Mathlib.Order.Nat

namespace Shdata.Ring

/-- A scan from `lo` for a property stops at `v`: `v` is the first index with it,
or the end `hi`. -/
structure First (p : Nat → Prop) (lo hi v : Nat) : Prop where
  lo_le : lo ≤ v
  le_hi : v ≤ hi
  skips : ∀ y, lo ≤ y → y < v → ¬ p y
  hits : v < hi → p v

namespace First

variable {p : Nat → Prop} {lo hi v : Nat}

theorem unique {v' : Nat} (h : First p lo hi v) (h' : First p lo hi v') : v = v' := by
  rcases Nat.lt_trichotomy v v' with hlt | heq | hgt
  · exact absurd (h.hits (lt_of_lt_of_le hlt h'.le_hi)) (h'.skips v h.lo_le hlt)
  · exact heq
  · exact absurd (h'.hits (lt_of_lt_of_le hgt h.le_hi)) (h.skips v' h'.lo_le hgt)

/-- The scan is over. -/
theorem done (p : Nat → Prop) (n : Nat) : First p n n n :=
  ⟨le_refl n, le_refl n, fun _ h0 h1 => absurd h1 (not_lt.mpr h0), fun h => absurd h (lt_irrefl n)⟩

/-- The scan stops where it starts. -/
theorem here (hle : lo ≤ hi) (hp : p lo) : First p lo hi lo :=
  ⟨le_refl lo, hle, fun _ h0 h1 => absurd h1 (not_lt.mpr h0), fun _ => hp⟩

/-- The scan passes one index. -/
theorem pass (hp : ¬ p lo) (h : First p (lo + 1) hi v) : First p lo hi v := by
  refine ⟨Nat.le_of_succ_le h.lo_le, h.le_hi, fun y h0 h1 => ?_, h.hits⟩
  rcases Nat.eq_or_lt_of_le h0 with rfl | hlt
  · exact hp
  · exact h.skips y hlt h1

/-- What lies before the stop of a scan from zero. -/
theorem lt_iff {x : Nat} (h : First p 0 hi v) (hx : x < hi) : x < v ↔ ∀ y, y ≤ x → ¬ p y := by
  constructor
  · intro hlt y hy
    exact h.skips y (Nat.zero_le y) (lt_of_le_of_lt hy hlt)
  · intro hno
    by_contra hge
    have hle : v ≤ x := not_lt.mp hge
    exact hno v hle (h.hits (lt_of_le_of_lt hle hx))

/-- A property that stays once it holds has it exactly from the stop on. -/
theorem iff_of_mono (h : First p 0 hi v) (hmono : ∀ x y, x ≤ y → y < hi → p x → p y) {x : Nat}
    (hx : x < hi) : p x ↔ v ≤ x := by
  constructor
  · intro hp
    by_contra hlt
    exact h.skips x (Nat.zero_le x) (not_le.mp hlt) hp
  · intro hle
    exact hmono v x hle hx (h.hits (lt_of_le_of_lt hle hx))

end First

end Shdata.Ring
