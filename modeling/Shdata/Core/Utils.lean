/-
Shdata.Core.Utils — `shd_utils.h`, the error numbers, and the sizes that the
C data model fixes.

The ring helpers mix `int` and `uint32_t`: `idx + size - n` is computed in
`uint32_t` because `size` is one, `idx + n` is an `int` sum that converts to
`uint32_t` for the modulo, and every result converts back to its declared
type. The definitions keep these conversions.

`Abi` collects what differs between a 64-bit and a 32-bit target: the width
of `size_t` and the struct offsets that the source takes with `sizeof` and
`offsetof`. The memory model is the 64-bit one, `lp64`.
-/
import Shdata.Bytes.CInt

namespace Shdata.Core

open Shdata.Bytes

/-! ## Error numbers -/

def EPERM : Int := 1
def ENOENT : Int := 2
def EAGAIN : Int := 11
def ENOMEM : Int := 12
def EFAULT : Int := 14
def EEXIST : Int := 17
def ENODEV : Int := 19
def EINVAL : Int := 22
def ENOSYS : Int := 38
def EALREADY : Int := 114

/-! ## Data model -/

/-- What the C data model fixes: the width of `size_t` and the layout of
`struct shd_hdr` and `struct shd_sample`. -/
structure Abi where
  word : Nat
  sizeofShdHdr : Int
  offsetofUserInfo : Int
  offsetofSyncInfo : Int
  offsetofBlob : Int

/-- 64-bit targets: 8-byte `size_t`, `time_t` and pointers. -/
def lp64 : Abi where
  word := 64
  sizeofShdHdr := 56
  offsetofUserInfo := 16
  offsetofSyncInfo := 40
  offsetofBlob := 40

/-- Conversion to `size_t`. -/
def Abi.toSize (A : Abi) (x : Int) : Int := x % 2 ^ A.word

/-- `ALIGN_UP(x)` on a `size_t`: clear the two low bits of `x + 3`. -/
def alignUp (A : Abi) (x : Int) : Int := A.toSize (x + 3) - A.toSize (x + 3) % 4

theorem lp64_toSize (x : Int) : lp64.toSize x = toU64 x := by
  unfold toU64
  rfl

/-! ## Ring index helpers -/

/-- `idx2` is known to have happened after `idx1`. -/
def intervalBetween (idx1 idx2 size : Int) : Int :=
  if idx1 ≤ idx2 then toU32 (idx2 - idx1) else toU32 (idx2 + size - idx1)

def indexNAfter (idx n size : Int) : Int := toI32 (toU32 (idx + n) % size)

def indexNBefore (idx n size : Int) : Int := toI32 (toU32 (idx + size - n) % size)

def indexNext (idx size : Int) : Int := indexNAfter idx 1 size

def indexPrevious (idx size : Int) : Int := indexNBefore idx 1 size

end Shdata.Core
