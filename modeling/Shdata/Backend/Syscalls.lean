/-
Shdata.Backend.Syscalls — `shd_shm.c` as a program of system calls.

`Backend.shm` answers a callback in one step. In the source a callback is a
sequence of system calls, and the callbacks of other threads and of other
processes run in between. Here a callback is that sequence.

Each call is one operation. A call that may fail does so when `fails n` is `some e`
for the `n`-th of them, with the error number `e + 1`. An operation returns
`-errno` where the source tests for -1 and reads `errno` next.

`struct shd_shm_priv` stands in a table under its descriptor, which is never
given twice. Its fields are set while nobody else knows it, so `shm_open` sets them
with the descriptor. A mapping starts at the first byte of the section, and
what is left of it is its size.

The section lookup is that of `shd_lookup_default.c`, which always succeeds.
-/
import Shdata.Backend.Shm

namespace Shdata.Core

open Shdata.Conc Shdata.Bytes

/-! ## Operations -/

/-- The flags of `shm_open`: `O_CREAT | O_EXCL | O_RDWR`, `O_EXCL | O_RDWR` and
`O_EXCL | O_RDONLY`. -/
inductive OpenFlags where
  | creatExclRdwr | exclRdwr | exclRdonly
  deriving DecidableEq, Repr

/-- `struct shd_shm_priv`, less its descriptor; `addr` is the size of the mapping. -/
structure ShmPriv where
  addr : Option Int
  writable : Bool
  creationSize : Int
  deriving DecidableEq, Repr

/-- The function that maps the file. -/
inductive MapSite where
  | readHeader | getSection
  deriving DecidableEq, Repr

/-- The system calls of `shd_shm.c`, its uses of the heap and of its private
structures, and the operations of the library that are no callback. -/
inductive SysOp where
  | lib (o : Op)
  | lookup (blobName : String)
  | callocSelf
  | freeSelf
  | asprintf (root : Option String) (blobName : String)
  | freePath
  | shmOpen (path : String) (flags : OpenFlags) (priv : ShmPriv)
  | setCloseOnExec (fd : Nat)
  | loadPriv (fd : Nat)
  | storeAddr (fd : Nat) (size : Int)
  | lseek (fd : Nat)
  | mmap (site : MapSite) (size : Int) (writable : Bool) (fd : Nat)
  | munmap (size : Int)
  | memcpyHdr
  | ftruncate (fd : Nat) (size : Int)
  | flockEx (fd : Nat)
  | flockUn (fd : Nat)
  | close (fd : Nat)
  deriving DecidableEq, Repr

@[reducible] def SysOp.Resp : SysOp → Type
  | .lib o => o.Resp
  | .callocSelf => Bool
  | .asprintf _ _ => Option String
  | .shmOpen _ _ _ => OpenResult
  | .loadPriv _ => ShmPriv
  | .memcpyHdr => List UInt8
  | .freeSelf | .freePath | .storeAddr _ _ | .munmap _ | .close _ => Unit
  | _ => Int

abbrev SysProg (α : Type) := Prog SysOp.Resp α

def sysCall (o : SysOp) : SysProg o.Resp := Prog.perform o

/-! ## The file -/

/-- What `shd_shm.c` acquires and has to give back. -/
inductive ShmResource where
  | self | path | fd | map
  deriving DecidableEq, Repr

/-- The file, once it exists, by its size; the private structure of every
descriptor; and the number of resources that are held. A descriptor has a file. -/
structure ShmSys where
  file : Option Int
  priv : Nat → ShmPriv
  nextFd : Nat
  isSome_file : 0 < nextFd → file.isSome = true
  closed : Nat → Bool
  locked : Option Nat
  held : ShmResource → Int
  fails : Nat → Option Nat
  calls : Nat

namespace ShmSys

/-- Take (`n = 1`) or give back (`n = -1`). -/
def hold (s : ShmSys) (what : ShmResource) (n : Int) : ShmSys :=
  { s with held := Function.update s.held what (s.held what + n) }

/-- The descriptor of `shm_open`. -/
def openFd (s : ShmSys) (size : Int) (priv : ShmPriv) : ShmSys × OpenResult :=
  ({ s with file := some size
            priv := Function.update s.priv s.nextFd priv
            nextFd := s.nextFd + 1
            isSome_file := fun _ => rfl }.hold .fd 1, ⟨0, s.nextFd⟩)

/-- The last close of a descriptor releases its lock. -/
def unlockFd (s : ShmSys) (fd : Nat) : ShmSys :=
  { s with locked := if s.locked = some fd then none else s.locked }

end ShmSys

/-- The next call fails, or `k` gives its effect. -/
def attempt (w : World ShmSys) {α : Type} (fail : Int → α)
    (k : World ShmSys → World ShmSys × α) : World ShmSys × α :=
  let w' := { w with os := { w.os with calls := w.os.calls + 1 } }
  match w.os.fails w.os.calls with
  | some e => (w', fail (-((e : Int) + 1)))
  | none => k w'

/-- What `shm_open` does when the kernel does not fail it. -/
def openFile (flags : OpenFlags) (priv : ShmPriv) (w : World ShmSys) :
    World ShmSys × OpenResult :=
  match flags, w.os.file with
  | .creatExclRdwr, some _ => (w, ⟨-EEXIST, 0⟩)
  | .creatExclRdwr, none =>
    ({ w with mem := fun _ => 0, os := (w.os.openFd 0 priv).1 }, (w.os.openFd 0 priv).2)
  | _, some size => ({ w with os := (w.os.openFd size priv).1 }, (w.os.openFd size priv).2)
  | _, none => (w, ⟨-ENOENT, 0⟩)

/-- `ftruncate` needs a descriptor that was opened for writing. -/
def truncateFile (fd : Nat) (size : Int) (w : World ShmSys) : World ShmSys × Int :=
  if (w.os.priv fd).writable then
    ({ w with mem := fun x => if x < size then w.mem x else 0
              os := { w.os with file := some size, isSome_file := fun _ => rfl } }, 0)
  else
    (w, -EINVAL)

/-- `flock` with `LOCK_EX | LOCK_NB`. -/
def lockFile (fd : Nat) (w : World ShmSys) : World ShmSys × Int :=
  if w.os.locked = none ∨ w.os.locked = some fd then
    ({ w with os := { w.os with locked := some fd } }, 0)
  else
    (w, -EAGAIN)

/-- The operations of the library that are no callback do not need a backend. -/
def noBackend : Backend ShmSys where
  call _ c s := (s, match c with
    | .create _ _ => ⟨-ENOSYS, 0, false⟩
    | .openSection _ => ⟨-ENOSYS, 0⟩
    | .hdrRead _ => ⟨-ENOSYS, []⟩
    | .lookup _ | .close _ | .getSectionStart _ _ | .resize _ | .lock _ | .unlock _ => -ENOSYS)

/-- The effect of an operation. A descriptor that is closed is not used. -/
def sysStep (t : Nat) : (o : SysOp) → World ShmSys → World ShmSys × o.Resp
  | .lib o, w => (machine noBackend).step t o w
  | .lookup _, w => (w, 0)
  | .callocSelf, w => attempt w (fun _ => false) fun w => ({ w with os := w.os.hold .self 1 }, true)
  | .freeSelf, w => ({ w with os := w.os.hold .self (-1) }, ())
  | .asprintf root blobName, w => attempt w (fun _ => none) fun w =>
      ({ w with os := w.os.hold .path 1 }, some (root.getD "" ++ "/shd_" ++ blobName))
  | .freePath, w => ({ w with os := w.os.hold .path (-1) }, ())
  | .shmOpen _ flags priv, w => attempt w (fun e => ⟨e, 0⟩) (openFile flags priv)
  | .setCloseOnExec _, w => attempt w id fun w => (w, 0)
  | .loadPriv fd, w => (w, w.os.priv fd)
  | .storeAddr fd size, w =>
      ({ w with os := { w.os with
          priv := Function.update w.os.priv fd { w.os.priv fd with addr := some size } } }, ())
  | .lseek _, w => (w, w.os.file.getD 0)
  | .mmap _ _ _ _, w => attempt w id fun w => ({ w with os := w.os.hold .map 1 }, 0)
  | .munmap _, w => ({ w with os := w.os.hold .map (-1) }, ())
  | .memcpyHdr, w => (w, w.mem.read 0 56)
  | .ftruncate fd size, w => attempt w id (truncateFile fd size)
  | .flockEx fd, w => attempt w id (lockFile fd)
  | .flockUn fd, w => attempt w id fun w => ({ w with os := w.os.unlockFd fd }, 0)
  | .close fd, w =>
      ({ w with os := { (w.os.unlockFd fd).hold .fd (-1) with
          closed := Function.update w.os.closed fd true } }, ())

def sysMachine : Machine SysOp.Resp Nat (World ShmSys) where
  step := sysStep

/-! ## shd_shm.c -/

/-- `shd_shm_open_internal`: the path is freed on the way out of an error only. -/
def shmOpenInternal (blobName : String) (flags : OpenFlags) (priv : ShmPriv) :
    SysProg OpenResult := do
  match ← sysCall (.asprintf none blobName) with
  | none => return ⟨-ENOMEM, 0⟩
  | some path =>
    let fd ← sysCall (.shmOpen path flags priv)
    if fd.ret < 0 then
      sysCall .freePath
      return fd
    else
      return fd

/-- `shd_shm_open_other_root`. -/
def shmOpenOtherRoot (root blobName : String) (flags : OpenFlags) (priv : ShmPriv) :
    SysProg OpenResult := do
  match ← sysCall (.asprintf (some root) blobName) with
  | none => return ⟨-ENOMEM, 0⟩
  | some path =>
    let fd ← sysCall (.shmOpen path flags priv)
    if fd.ret < 0 then
      sysCall .freePath
      return fd
    else
      let ret ← sysCall (.setCloseOnExec fd.inst)
      if ret < 0 then
        sysCall (.close fd.inst)
        sysCall .freePath
        return ⟨ret, 0⟩
      else
        sysCall .freePath
        return fd

/-- The branch of `open_internal` on the root of its parameter. -/
def openUnder (root : Option String) (blobName : String) (flags : OpenFlags) (priv : ShmPriv) :
    SysProg OpenResult :=
  match root with
  | none => shmOpenInternal blobName flags priv
  | some root => shmOpenOtherRoot root blobName flags priv

/-- `open_internal`. -/
def openInternal (root : Option String) (blobName : String) (flags : OpenFlags)
    (priv : ShmPriv) : SysProg OpenResult := do
  if ← sysCall .callocSelf then
    let r ← openUnder root blobName flags priv
    if r.ret < 0 then
      sysCall .freeSelf
      return r
    else
      return r
  else
    return ⟨-ENOMEM, 0⟩

/-- `shd_shm_create`. -/
def shmCreate (root : Option String) (blobName : String) (size : Int) :
    SysProg CreateResult := do
  let self := ⟨none, true, size⟩
  let r ← openInternal root blobName .creatExclRdwr self
  if r.ret = 0 then
    return ⟨0, r.inst, true⟩
  else if r.ret = -EEXIST then
    let r ← openInternal root blobName .exclRdwr self
    if r.ret < 0 then
      return ⟨r.ret, 0, false⟩
    else
      return ⟨0, r.inst, false⟩
  else
    return ⟨r.ret, 0, false⟩

/-- `shd_shm_open`. -/
def shmOpen (root : Option String) (blobName : String) : SysProg OpenResult := do
  let r ← openInternal root blobName .exclRdonly ⟨none, false, 0⟩
  if r.ret < 0 then
    return ⟨r.ret, 0⟩
  else
    return ⟨0, r.inst⟩

/-- `shd_shm_close`. -/
def shmClose (inst : Nat) : SysProg Int := do
  let self ← sysCall (.loadPriv inst)
  if let some size := self.addr then
    sysCall (.munmap size)
  sysCall (.close inst)
  sysCall .freeSelf
  return 0

/-- `shd_shm_read_header`. It maps `sizeof(hdr)` bytes, which is a pointer's size, and
reads and unmaps `sizeof(*hdr)`: the kernel rounds all to a page. -/
def shmReadHeader (inst : Nat) : SysProg HdrReadResult := do
  let size ← sysCall (.lseek inst)
  if size ≤ 0 then
    return ⟨-ENOMEM, []⟩
  else
    let ret ← sysCall (.mmap .readHeader 8 false inst)
    if ret < 0 then
      return ⟨ret, []⟩
    else
      let hdr ← sysCall .memcpyHdr
      sysCall (.munmap 56)
      return ⟨0, hdr⟩

/-- `shd_shm_get_section`. -/
def shmGetSection (size : Int) (inst : Nat) : SysProg Int := do
  let self ← sysCall (.loadPriv inst)
  let ret ← sysCall (.mmap .getSection size self.writable inst)
  if ret < 0 then
    return ret
  else
    sysCall (.storeAddr inst size)
    return 0

/-- `shd_shm_resize`. -/
def shmResize (inst : Nat) : SysProg Int := do
  let self ← sysCall (.loadPriv inst)
  let ret ← sysCall (.ftruncate inst self.creationSize)
  return if ret < 0 then -1 else 0

/-- `shd_shm_lock`. -/
def shmLock (inst : Nat) : SysProg Int := do
  let ret ← sysCall (.flockEx inst)
  return if ret < 0 then -1 else 0

/-- `shd_shm_unlock`. -/
def shmUnlock (inst : Nat) : SysProg Int := do
  let ret ← sysCall (.flockUn inst)
  return if ret < 0 then -1 else 0

/-- `shd_shm_backend`, behind `shd_section_lookup` of `shd_lookup_default.c`. -/
def shmBackend (root : Option String) : (c : BackendCall) → SysProg c.Resp
  | .lookup blobName => sysCall (.lookup blobName)
  | .create blobName size => shmCreate root blobName size
  | .openSection blobName => shmOpen root blobName
  | .close inst => shmClose inst
  | .hdrRead inst => shmReadHeader inst
  | .getSectionStart size inst => shmGetSection size inst
  | .resize inst => shmResize inst
  | .lock inst => shmLock inst
  | .unlock inst => shmUnlock inst

/-- The library over the system calls. -/
def onShm (root : Option String) : (o : Op) → SysProg o.Resp
  | .backend c => shmBackend root c
  | o => sysCall (.lib o)

end Shdata.Core
