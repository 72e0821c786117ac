/-
Shdata.Layout.Index — the ring helpers of `shd_utils.h` compute what their
names say, as long as the slots of the ring are `int` values.

The helpers convert between `int` and `uint32_t` at every step. With at most
2^31 slots no conversion changes a value: an index is below 2^31, and the
sum of an index and a count of slots is below 2^32. So the helpers are the
modular arithmetic of `Shdata.Ring.Cyclic`.
-/
import Shdata.Core.Utils
import Shdata.Ring.Cyclic

namespace Shdata.Layout

open Shdata.Bytes Shdata.Core Shdata.Ring

/-- A number of slots whose indices are `int` values. -/
structure RingSize (N : Int) : Prop where
  pos : 0 < N
  small : N ≤ 2147483648

/-- An index of a ring of `N` slots. -/
structure IsSlot (N i : Int) : Prop where
  nonneg : 0 ≤ i
  lt : i < N

instance (N i : Int) : Decidable (IsSlot N i) :=
  decidable_of_iff (0 ≤ i ∧ i < N) ⟨fun h => ⟨h.1, h.2⟩, fun h => ⟨h.nonneg, h.lt⟩⟩

section Index

variable {N : Int}

theorem isSlot_emod (hN : RingSize N) (i : Int) : IsSlot N (i % N) :=
  ⟨Int.emod_nonneg _ (by have := hN.pos; omega), Int.emod_lt_of_pos _ hN.pos⟩

theorem IsSlot.emod {i : Int} (h : IsSlot N i) : i % N = i :=
  Int.emod_eq_of_lt h.nonneg h.lt

theorem IsSlot.isI32 {i : Int} (hN : RingSize N) (h : IsSlot N i) : toI32 i = i :=
  toI32_of_bounds h.nonneg (by have := hN.small; have := h.lt; omega)

theorem isSlot_gap (hN : RingSize N) (i j : Int) : IsSlot N (gap N i j) :=
  ⟨gap_nonneg hN.pos i j, gap_lt hN.pos i j⟩

/-- The two ways the source writes a modular index. -/
theorem toI32_toU32_emod (hN : RingSize N) {x : Int} (h0 : 0 ≤ x) (h1 : x < 4294967296) :
    toI32 (toU32 x % N) = x % N := by
  rw [toU32_of_bounds h0 h1, (isSlot_emod hN x).isI32 hN]

theorem indexNAfter_eq (hN : RingSize N) {i n : Int} (h0 : 0 ≤ i + n) (h1 : i + n < 4294967296) :
    indexNAfter i n N = (i + n) % N :=
  toI32_toU32_emod hN h0 h1

theorem indexNBefore_eq (hN : RingSize N) {i n : Int} (h0 : 0 ≤ i + N - n)
    (h1 : i + N - n < 4294967296) : indexNBefore i n N = (i - n) % N := by
  have h : (i + N - n) % N = (i - n) % N := by
    rw [show i + N - n = i - n + N by ring, Int.add_emod_right]
  rw [indexNBefore, toI32_toU32_emod hN h0 h1, h]

/-- The write index of an empty section is `-1`, the slot before the first. -/
theorem indexNext_eq (hN : RingSize N) {i : Int} (h0 : -1 ≤ i) (h1 : i < N) :
    indexNext i N = (i + 1) % N :=
  indexNAfter_eq hN (by omega) (by have := hN.small; omega)

theorem indexPrevious_eq (hN : RingSize N) {i : Int} (hi : IsSlot N i) :
    indexPrevious i N = (i - 1) % N :=
  indexNBefore_eq hN (by have := hi.nonneg; have := hN.pos; omega)
    (by have := hi.lt; have := hN.small; omega)

theorem intervalBetween_eq (hN : RingSize N) {i j : Int} (hi : IsSlot N i) (hj : IsSlot N j) :
    intervalBetween i j N = gap N i j := by
  have hs := hN.small
  obtain ⟨hi0, hi1⟩ := hi
  obtain ⟨hj0, hj1⟩ := hj
  rw [gap_of_slots hi0 hi1 hj0 hj1, intervalBetween]
  split
  · exact toU32_of_bounds (by omega) (by omega)
  · exact toU32_of_bounds (by omega) (by omega)

theorem toI32_gap (hN : RingSize N) (i j : Int) : toI32 (gap N i j) = gap N i j :=
  (isSlot_gap hN i j).isI32 hN

/-- Whatever the arguments are, the result is a slot as soon as the ring has
fewer than 2^31 slots. -/
theorem isSlot_toI32_emod (hN : RingSize N) (x : Int) : IsSlot N (toI32 (toU32 x % N)) := by
  have h := isSlot_emod hN (toU32 x)
  rwa [h.isI32 hN]

theorem isSlot_indexNAfter (hN : RingSize N) (i n : Int) : IsSlot N (indexNAfter i n N) :=
  isSlot_toI32_emod hN _

theorem isSlot_indexNBefore (hN : RingSize N) (i n : Int) : IsSlot N (indexNBefore i n N) :=
  isSlot_toI32_emod hN _

theorem isSlot_indexNext (hN : RingSize N) (i : Int) : IsSlot N (indexNext i N) :=
  isSlot_toI32_emod hN _

theorem isSlot_indexPrevious (hN : RingSize N) (i : Int) : IsSlot N (indexPrevious i N) :=
  isSlot_toI32_emod hN _

end Index

end Shdata.Layout
