/-
Shdata.Bytes.CInt — the fixed-width integers of C, as integers with explicit
conversions.

A C value is an `Int` inside its type's range. `toI32`, `toU32` and `toU64`
are the conversions to `int`, to a 32-bit and to a 64-bit unsigned type: the
value modulo the width, read in the target's range. Conversion to `int` and
the wrap of a signed sum are both the two's complement one.
-/
import Mathlib.Tactic.Ring
import Mathlib.Data.Int.Basic

namespace Shdata.Bytes

/-- Conversion to `int`. The conversions are irreducible, so that no unifier
computes with them; the width is the left summand because an addition
recurses on the right one. -/
@[irreducible] def toI32 (x : Int) : Int := (2147483648 + x) % 4294967296 - 2147483648

/-- Conversion to `uint32_t`. -/
@[irreducible] def toU32 (x : Int) : Int := x % 4294967296

/-- Conversion to a 64-bit `size_t`. -/
@[irreducible] def toU64 (x : Int) : Int := x % 18446744073709551616

/-- The range of `int`. -/
def IsI32 (x : Int) : Prop := -2147483648 ≤ x ∧ x < 2147483648

theorem isI32_toI32 (x : Int) : IsI32 (toI32 x) := by
  unfold IsI32 toI32; omega

theorem toI32_of_isI32 {x : Int} (h : IsI32 x) : toI32 x = x := by
  unfold IsI32 at h; unfold toI32; omega

@[simp] theorem toI32_toI32 (x : Int) : toI32 (toI32 x) = toI32 x :=
  toI32_of_isI32 (isI32_toI32 x)

/-- The wrap commutes with a further addition. -/
theorem toI32_add_toI32 (x y : Int) : toI32 (toI32 x + y) = toI32 (x + y) := by
  unfold toI32; omega

/-- Two values with one wrapped image differ by a multiple of the width. -/
theorem toI32_eq_iff {x y : Int} : toI32 x = toI32 y ↔ (x - y) % 4294967296 = 0 := by
  unfold toI32; omega

/-- Values less than one turn apart are told apart by their wrapped images. -/
theorem toI32_inj_of_lt {x y : Int} (h : x ≤ y) (hlt : y - x < 4294967296)
    (he : toI32 x = toI32 y) : x = y := by
  rw [toI32_eq_iff] at he; omega

theorem toU32_of_bounds {x : Int} (h0 : 0 ≤ x) (h1 : x < 4294967296) : toU32 x = x := by
  unfold toU32; omega

theorem toU32_bounds (x : Int) : 0 ≤ toU32 x ∧ toU32 x < 4294967296 := by
  unfold toU32; omega

theorem toU64_of_bounds {x : Int} (h0 : 0 ≤ x) (h1 : x < 18446744073709551616) :
    toU64 x = x := by
  unfold toU64; omega

theorem toU64_le {x : Int} (h : 0 ≤ x) : toU64 x ≤ x := by
  unfold toU64; omega

theorem toU64_nonneg (x : Int) : 0 ≤ toU64 x := by
  unfold toU64; omega

/-- A small unsigned value keeps its value as an `int`. -/
theorem toI32_of_bounds {x : Int} (h0 : 0 ≤ x) (h1 : x < 2147483648) : toI32 x = x :=
  toI32_of_isI32 ⟨by omega, h1⟩

/-- Converting a wrapped value to unsigned forgets the wrap. -/
@[simp] theorem toU32_toI32 (x : Int) : toU32 (toI32 x) = toU32 x := by
  unfold toU32 toI32; omega

end Shdata.Bytes
