/-
Shdata.Bytes.Memory — byte memories, little-endian values in them, and what a
write leaves alone.

A memory gives a byte to every address. `read` copies a range out, `write`
copies a list of bytes in. The one fact every frame argument rests on is
`read_congr`: a read depends on the bytes of its own range only. From it
come `read_write_disjoint` (a write outside the range is invisible) and,
with `read_write_same`, the load-after-store law of every fixed-width value.
-/
import Shdata.Bytes.CInt
import Mathlib.Data.List.Basic

namespace Shdata.Bytes

/-! ## Little-endian numbers -/

/-- The `n` low bytes of `v`, least significant first. -/
def leBytes : Nat → Nat → List UInt8
  | 0, _ => []
  | n + 1, v => UInt8.ofNat (v % 256) :: leBytes n (v / 256)

/-- The number that a list of bytes denotes. -/
def leNat : List UInt8 → Nat
  | [] => 0
  | b :: bs => b.toNat + 256 * leNat bs

@[simp] theorem length_leBytes (n v : Nat) : (leBytes n v).length = n := by
  induction n generalizing v with
  | zero => rfl
  | succ n ih => simp [leBytes, ih]

theorem leNat_leBytes (n v : Nat) : leNat (leBytes n v) = v % 256 ^ n := by
  induction n generalizing v with
  | zero => simp [leBytes, leNat, Nat.mod_one]
  | succ n ih =>
    have hb : (UInt8.ofNat (v % 256)).toNat = v % 256 := by simp
    rw [leBytes, leNat, ih, hb, Nat.pow_succ, Nat.mul_comm (256 ^ n) 256, Nat.mod_mul]

theorem leNat_lt (bs : List UInt8) : leNat bs < 256 ^ bs.length := by
  induction bs with
  | nil => simp [leNat]
  | cons b bs ih =>
    have hb := b.toNat_lt
    rw [leNat, List.length_cons, Nat.pow_succ]
    omega

theorem leBytes_leNat (bs : List UInt8) : leBytes bs.length (leNat bs) = bs := by
  induction bs with
  | nil => rfl
  | cons b bs ih =>
    have hb := b.toNat_lt
    have hmod : (b.toNat + 256 * leNat bs) % 256 = b.toNat := by omega
    have hdiv : (b.toNat + 256 * leNat bs) / 256 = leNat bs := by omega
    rw [List.length_cons, leBytes, leNat, hmod, hdiv, ih]
    simp

/-! ## Memories -/

/-- A byte at every address. -/
abbrev Mem := Int → UInt8

/-- Copy `len` bytes out, from address `a` on. -/
def Mem.read (m : Mem) (a : Int) (len : Nat) : List UInt8 :=
  (List.range len).map fun i : Nat => m (a + (i : Int))

/-- Copy bytes in, from address `a` on. -/
def Mem.write (m : Mem) (a : Int) (bs : List UInt8) : Mem := fun x =>
  if a ≤ x ∧ x < a + (bs.length : Int) then bs.getD (x - a).toNat 0 else m x

namespace Mem

variable {m m' : Mem} {a b : Int} {len : Nat} {bs : List UInt8}

@[simp] theorem length_read (m : Mem) (a : Int) (len : Nat) : (m.read a len).length = len := by
  simp [read]

@[simp] theorem getElem_read (m : Mem) (a : Int) (len i : Nat) (h : i < (m.read a len).length) :
    (m.read a len)[i] = m (a + (i : Int)) := by
  simp [read]

/-- A read depends on the bytes of its own range only. -/
theorem read_congr (h : ∀ x, a ≤ x → x < a + (len : Int) → m' x = m x) :
    m'.read a len = m.read a len := by
  apply List.map_congr_left
  intro i hi
  have hlt : i < len := List.mem_range.mp hi
  exact h _ (by omega) (by omega)

theorem write_of_mem {x : Int} (h0 : a ≤ x) (h1 : x < a + (bs.length : Int)) :
    m.write a bs x = bs.getD (x - a).toNat 0 := if_pos ⟨h0, h1⟩

theorem write_of_not_mem {x : Int} (h : x < a ∨ a + (bs.length : Int) ≤ x) :
    m.write a bs x = m x := if_neg (by omega)

/-- Memories that agree at an address still do after the same write. -/
theorem write_congr {x : Int} (h : m' x = m x) : m'.write a bs x = m.write a bs x := by
  unfold write
  rw [h]

/-- Writing nothing changes nothing. -/
@[simp] theorem write_nil (m : Mem) (a : Int) : m.write a [] = m := by
  funext x
  exact write_of_not_mem (by simp; omega)

theorem read_write_same (m : Mem) (a : Int) (bs : List UInt8) :
    (m.write a bs).read a bs.length = bs := by
  apply List.ext_getElem (by simp)
  intro i h1 h2
  rw [getElem_read, write_of_mem (by omega) (by omega)]
  simp [h2]

theorem read_write_disjoint (h : a + (len : Int) ≤ b ∨ b + (bs.length : Int) ≤ a) :
    (m.write b bs).read a len = m.read a len :=
  read_congr fun x h0 h1 => write_of_not_mem (by omega)

/-- A part of a range that was read is a read of the part. -/
theorem read_drop_take (m : Mem) (a : Int) (len i n : Nat) (h : i + n ≤ len) :
    ((m.read a len).drop i).take n = m.read (a + (i : Int)) n := by
  apply List.ext_getElem (by simp; omega)
  intro j h1 h2
  simp only [List.getElem_take, List.getElem_drop, getElem_read]
  congr 1
  push_cast
  ring

/-- Bytes of one memory outside a range are the bytes of the other. -/
def SameOutside (m m' : Mem) (a b : Int) : Prop := ∀ x, x < a ∨ b ≤ x → m' x = m x

theorem sameOutside_write (m : Mem) (a : Int) (bs : List UInt8) :
    SameOutside m (m.write a bs) a (a + (bs.length : Int)) :=
  fun _ hx => write_of_not_mem hx

/-- No source of `n` bytes can change a byte of `P` if and only if none of them is
in reach. -/
theorem write_avoids_iff (m : Mem) (a : Int) (n : Nat) (P : Int → Prop) :
    (∀ src : List UInt8, n ≤ src.length → ∀ x, P x → m.write a (src.take n) x = m x) ↔
      ∀ x, a ≤ x → x < a + (n : Int) → ¬ P x := by
  constructor
  · intro h x h0 h1 hx
    -- a source whose bytes all differ from the one in place
    have hkeep := h (List.replicate n (m x + 1)) (by simp) x hx
    rw [List.take_replicate, Nat.min_self, write_of_mem h0 (by simpa using h1)] at hkeep
    have hbyte : (List.replicate n (m x + 1)).getD (x - a).toNat 0 = m x + 1 := by
      rw [List.getD_eq_getElem?_getD, List.getElem?_replicate_of_lt (by omega), Option.getD_some]
    rw [hbyte] at hkeep
    exact absurd hkeep (by simp)
  · intro h src hlen x hx
    refine write_of_not_mem ?_
    rw [List.length_take, Nat.min_eq_left hlen]
    by_contra hin
    exact h x (by omega) (by omega) hx

theorem SameOutside.read (h : SameOutside m m' b c) (hd : a + (len : Int) ≤ b ∨ c ≤ a) :
    m'.read a len = m.read a len :=
  read_congr fun x h0 h1 => h x (by omega)

end Mem

/-! ## `int` values in memory -/

/-- The four bytes of an `int`. -/
def encI32 (v : Int) : List UInt8 := leBytes 4 (toU32 v).toNat

/-- The `int` that four bytes denote. -/
def decI32 (bs : List UInt8) : Int := toI32 (leNat bs : Int)

/-- The `int` at an address. -/
def Mem.i32 (m : Mem) (a : Int) : Int := decI32 (m.read a 4)

@[simp] theorem length_encI32 (v : Int) : (encI32 v).length = 4 := length_leBytes _ _

theorem decI32_encI32 (v : Int) : decI32 (encI32 v) = toI32 v := by
  have h := toU32_bounds v
  have hlt : (toU32 v).toNat % 256 ^ 4 = (toU32 v).toNat := Nat.mod_eq_of_lt (by omega)
  rw [encI32, decI32, leNat_leBytes, hlt, Int.toNat_of_nonneg h.1]
  unfold toI32 toU32
  omega

namespace Mem

variable {m m' : Mem} {a b c : Int} {bs : List UInt8}

theorem isI32_i32 (m : Mem) (a : Int) : IsI32 (m.i32 a) := isI32_toI32 _

@[simp] theorem toI32_i32 (m : Mem) (a : Int) : toI32 (m.i32 a) = m.i32 a :=
  toI32_of_isI32 (isI32_i32 m a)

/-- An `int` reads back as the value stored. -/
theorem i32_write_same (m : Mem) (a v : Int) : (m.write a (encI32 v)).i32 a = toI32 v := by
  have h := read_write_same m a (encI32 v)
  rw [length_encI32] at h
  rw [i32, h, decI32_encI32]

theorem i32_write_disjoint (h : a + 4 ≤ b ∨ b + (bs.length : Int) ≤ a) :
    (m.write b bs).i32 a = m.i32 a := by
  rw [i32, i32, read_write_disjoint (by omega)]

theorem i32_congr (h : ∀ x, a ≤ x → x < a + 4 → m' x = m x) : m'.i32 a = m.i32 a := by
  rw [Mem.i32, Mem.i32, read_congr h]

theorem SameOutside.i32 (h : SameOutside m m' b c) (hd : a + 4 ≤ b ∨ c ≤ a) :
    m'.i32 a = m.i32 a := by
  rw [Mem.i32, Mem.i32, h.read (by omega)]

end Mem

end Shdata.Bytes
