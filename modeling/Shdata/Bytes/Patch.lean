/-
Shdata.Bytes.Patch — the bytes that a sequence of copies determines.

A patch gives a byte to the offsets that were written, the last one written
there. A memory shows a patch when it has these bytes; what it has anywhere
else is not said. Copying the same bytes to the patch and to the memory
keeps it so (`Shows.write`).
-/
import Shdata.Bytes.Memory

namespace Shdata.Bytes

/-- The byte of each offset that was written. -/
abbrev Patch := Int → Option UInt8

/-- Nothing was written. -/
def Patch.empty : Patch := fun _ => none

/-- Copy bytes in, from offset `off` on. -/
def Patch.write (p : Patch) (off : Int) (bs : List UInt8) : Patch := fun o =>
  if off ≤ o ∧ o < off + (bs.length : Int) then bs[(o - off).toNat]? else p o

/-- The memory has the bytes of the patch from address `base` on. -/
def Shows (m : Mem) (base : Int) (p : Patch) : Prop :=
  ∀ o v, p o = some v → m (base + o) = v

theorem shows_empty (m : Mem) (base : Int) : Shows m base Patch.empty := by
  intro o v h
  exact absurd h (by simp [Patch.empty])

theorem Shows.write {m : Mem} {base : Int} {p : Patch} (h : Shows m base p) (off : Int)
    (bs : List UInt8) : Shows (m.write (base + off) bs) base (p.write off bs) := by
  intro o v hv
  by_cases ho : off ≤ o ∧ o < off + (bs.length : Int)
  · rw [Patch.write, if_pos ho] at hv
    rw [Mem.write_of_mem (by omega) (by omega), show base + o - (base + off) = o - off by ring]
    simp [hv]
  · rw [Patch.write, if_neg ho] at hv
    rw [Mem.write_of_not_mem (by omega)]
    exact h o v hv

/-- A byte of the patch inside a range that is read. -/
theorem Shows.read {m : Mem} {base : Int} {p : Patch} (h : Shows m base p) {len o : Nat}
    (ho : o < len) {v : UInt8} (hv : p o = some v) : (m.read base len)[o]? = some v := by
  rw [List.getElem?_eq_getElem (by simpa using ho), Mem.getElem_read, h o v hv]

end Shdata.Bytes
