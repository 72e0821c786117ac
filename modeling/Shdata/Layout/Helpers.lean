/-
Shdata.Layout.Helpers — the ring helpers of `shd_utils.h` as C evaluates them.

C leaves a signed sum or difference that is no `int` value undefined, and a
remainder by zero. The evaluations below have no value there; the definitions
in `Shdata.Core.Utils` wrap instead.

With at most 2^30 slots every helper has a value on the arguments it is
meant for, the one that `Shdata.Core.Utils` gives it, and the helpers are an
arithmetic modulo the size of the ring: `ring_helpers`.
-/
import Shdata.Layout.Index

namespace Shdata.Layout

open Shdata.Bytes Shdata.Core Shdata.Ring

/-! ## Operators -/

instance (x : Int) : Decidable (IsI32 x) := inferInstanceAs (Decidable (_ ∧ _))

/-- `a + b` of two `int` values. -/
def addInt (a b : Int) : Option Int := if IsI32 (a + b) then some (a + b) else none

/-- `a - b` of two `int` values. -/
def subInt (a b : Int) : Option Int := if IsI32 (a - b) then some (a - b) else none

/-- `a % b` of two `uint32_t` values. -/
def remU32 (a b : Int) : Option Int := if b = 0 then none else some (a % b)

/-! ## The helpers -/

/-- The first branch subtracts two `int` values, the second one is unsigned because `size`
is. -/
def evalIntervalBetween (idx1 idx2 size : Int) : Option Int :=
  if idx1 ≤ idx2 then do
    let diff ← subInt idx2 idx1
    return toU32 diff
  else
    return toU32 (toU32 (toU32 idx2 + size) - toU32 idx1)

/-- The sum is one of `int` values and converts for the remainder. -/
def evalIndexNAfter (idx n size : Int) : Option Int := do
  let sum ← addInt idx n
  let rem ← remU32 (toU32 sum) size
  return toI32 rem

/-- `size` makes all of it unsigned. -/
def evalIndexNBefore (idx n size : Int) : Option Int := do
  let rem ← remU32 (toU32 (toU32 (toU32 idx + size) - toU32 n)) size
  return toI32 rem

section Eval

variable {i j n N : Int}

/-- Conversions inside an unsigned sum do not change it. -/
theorem toU32_nested (a b c : Int) : toU32 (toU32 (toU32 a + b) - toU32 c) = toU32 (a + b - c) := by
  unfold toU32
  omega

/-! ## Values -/

theorem eval_intervalBetween (h : i ≤ j → IsI32 (j - i)) :
    evalIntervalBetween i j N = some (intervalBetween i j N) := by
  unfold evalIntervalBetween intervalBetween
  split
  · rename_i hle
    rw [subInt, if_pos (h hle)]
    rfl
  · rw [toU32_nested]
    rfl

theorem eval_indexNAfter (hN : N ≠ 0) (h : IsI32 (i + n)) :
    evalIndexNAfter i n N = some (indexNAfter i n N) := by
  rw [evalIndexNAfter, addInt, if_pos h]
  change (remU32 (toU32 (i + n)) N >>= fun rem => some (toI32 rem)) = _
  rw [remU32, if_neg hN]
  rfl

theorem eval_indexNBefore (hN : N ≠ 0) :
    evalIndexNBefore i n N = some (indexNBefore i n N) := by
  rw [evalIndexNBefore, toU32_nested, remU32, if_neg hN]
  rfl

end Eval

/-! ## Laws -/

section Laws

variable {i j n N : Int}

/-- A step forward by a gap. -/
theorem indexNAfter_gap (hN : RingSize N) (hi : IsSlot N i) (hj : IsSlot N j) :
    indexNAfter i (gap N i j) N = j := by
  have hg := isSlot_gap hN i j
  have h0 := hi.nonneg
  have h1 := hi.lt
  have h2 := hg.nonneg
  have h3 := hg.lt
  have hsmall := hN.small
  rw [indexNAfter_eq hN (by omega) (by omega), add_gap_emod, hj.emod]

/-- The ways there and back make one turn. -/
theorem gap_add_gap (hi : IsSlot N i) (hj : IsSlot N j) :
    gap N i j + gap N j i = if i = j then 0 else N := by
  rw [gap_of_slots hi.nonneg hi.lt hj.nonneg hj.lt, gap_of_slots hj.nonneg hj.lt hi.nonneg hi.lt]
  split <;> split <;> split <;> omega

end Laws

/-- No undefined operation in the helpers on the arguments `i`, `j` and `n`. -/
structure Defined (N i j n : Int) : Prop where
  after : evalIndexNAfter i n N = some (indexNAfter i n N)
  before : evalIndexNBefore i n N = some (indexNBefore i n N)
  between : evalIntervalBetween i j N = some (intervalBetween i j N)
  first : evalIndexNAfter (-1) 1 N = some (indexNext (-1) N)

/-- The laws of an arithmetic modulo `N`. -/
structure Modular (N i j n : Int) : Prop where
  after : IsSlot N (indexNAfter i n N)
  before : IsSlot N (indexNBefore i n N)
  beforeAfter : indexNBefore (indexNAfter i n N) n N = i
  afterBefore : indexNAfter (indexNBefore i n N) n N = i
  first : indexNext (-1) N = 0
  betweenAfter : n < N → intervalBetween i (indexNAfter i n N) N = n
  afterBetween : indexNAfter i (toI32 (intervalBetween i j N)) N = j
  roundTrip : intervalBetween i j N + intervalBetween j i N = if i = j then 0 else N

/-- **The ring helpers are defined, and are an arithmetic modulo the size of the ring**, with
at most 2^30 slots, for all slots and all counts up to a whole turn. -/
theorem ring_helpers {N i j n : Int} (hN0 : 1 ≤ N) (hN1 : N ≤ 1073741824) (hi : IsSlot N i)
    (hj : IsSlot N j) (hn0 : 0 ≤ n) (hn1 : n ≤ N) : Defined N i j n ∧ Modular N i j n := by
  have hN : RingSize N := ⟨by omega, by omega⟩
  have hi0 := hi.nonneg
  have hi1 := hi.lt
  have hj0 := hj.nonneg
  have hj1 := hj.lt
  have hafter : indexNAfter i n N = (i + n) % N := indexNAfter_eq hN (by omega) (by omega)
  have hbefore : indexNBefore i n N = (i - n) % N := indexNBefore_eq hN (by omega) (by omega)
  have ha := isSlot_indexNAfter hN i n
  have hb := isSlot_indexNBefore hN i n
  have ha0 := ha.nonneg
  have ha1 := ha.lt
  have hb0 := hb.nonneg
  have hb1 := hb.lt
  refine ⟨⟨?_, ?_, ?_, ?_⟩, ⟨ha, hb, ?_, ?_, ?_, fun hlt => ?_, ?_, ?_⟩⟩
  · exact eval_indexNAfter (by omega) ⟨by omega, by omega⟩
  · exact eval_indexNBefore (by omega)
  · exact eval_intervalBetween fun _ => ⟨by omega, by omega⟩
  · exact eval_indexNAfter (by omega) ⟨by omega, by omega⟩
  · rw [indexNBefore_eq hN (by omega) (by omega), hafter, Int.emod_sub_emod,
      show i + n - n = i by ring, hi.emod]
  · rw [indexNAfter_eq hN (by omega) (by omega), hbefore, emod_add_emod,
      show i - n + n = i by ring, hi.emod]
  · rw [indexNext_eq hN (by omega) (by omega)]
    exact Int.zero_emod N
  · rw [intervalBetween_eq hN hi ha, hafter, gap_emod_right, gap_add i hn0 hlt]
  · rw [intervalBetween_eq hN hi hj, toI32_gap hN, indexNAfter_gap hN hi hj]
  · rw [intervalBetween_eq hN hi hj, intervalBetween_eq hN hj hi, gap_add_gap hi hj]

/-- Both ends of the largest ring, and a whole turn. -/
theorem ring_helpers_largest :
    Defined 1073741824 1073741823 0 1073741824 ∧ Modular 1073741824 1073741823 0 1073741824 :=
  ring_helpers (by decide) (by decide) ⟨by decide, by decide⟩ ⟨by decide, by decide⟩ (by decide)
    (by decide)

/-- One slot more, and the sum of the last slot and a whole turn is no `int` value. -/
example : evalIndexNAfter 1073741824 1073741825 1073741825 = none := by decide

end Shdata.Layout
