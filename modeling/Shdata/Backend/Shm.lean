/-
Shdata.Backend.Shm — the backends of the repository.

`Faithful` is what the library relies on: apart from the creation and the
resize of a section, no callback changes a byte of it, and `hdr_read` copies
its header.

`shm` is `shd_shm.c` over one file of the shared memory file system. Every
system call may fail: when `errors n` is `some e`, the `n`-th call that can fail
does, with the error number `e + 1`.
`ftruncate` drops the bytes past the new size, and bytes that were never
written read as zero. `flock` belongs to the open file, so closing an
instance releases its lock.

`raw` is `shd_dev_mem.c` and `shd_baremetal.c`, which agree on everything
the library can see: memory at a fixed place, no creation, no size and no
lock.
-/
import Shdata.Core.Api

namespace Shdata.Core

open Shdata.Conc Shdata.Bytes

variable {Ω : Type}

/-- What the library relies on. -/
structure Backend.Faithful (B : Backend Ω) : Prop where
  mem : ∀ t c s, (∀ name size, c ≠ .create name size) → (∀ inst, c ≠ .resize inst) →
    (B.call t c s).1.1 = s.1
  hdr : ∀ t inst s, 0 ≤ (B.call t (.hdrRead inst) s).2.ret →
    (B.call t (.hdrRead inst) s).2.hdr = s.1.read 0 56

/-! ## Shared memory files -/

/-- The state of the file and of its open instances: instance `n` was created
for `creationSize n` bytes. -/
structure Shm where
  present : Bool
  size : Int
  creationSize : Nat → Int
  nextInst : Nat
  locked : Option Nat
  errors : Nat → Option Nat
  calls : Nat

/-- The next system call fails, or `k` gives its effect. -/
def Shm.syscall (s : Mem × Shm) {α : Type} (fail : Int → α)
    (k : Mem × Shm → (Mem × Shm) × α) : (Mem × Shm) × α :=
  let s' := (s.1, { s.2 with calls := s.2.calls + 1 })
  match s.2.errors s.2.calls with
  | some e => (s', fail (-((e : Int) + 1)))
  | none => k s'

/-- `open_internal`: a new instance on the file. -/
def Shm.openInst (s : Mem × Shm) (size : Int) : (Mem × Shm) × Nat :=
  ((s.1, { s.2 with nextInst := s.2.nextInst + 1
                    creationSize := Function.update s.2.creationSize s.2.nextInst size }),
    s.2.nextInst)

/-- `shd_shm_create`: `O_CREAT | O_EXCL` decides `first_creation`. -/
def Shm.create (size : Int) (s : Mem × Shm) : (Mem × Shm) × CreateResult :=
  Shm.syscall s (fun e => ⟨e, 0, false⟩) fun s =>
    if s.2.present then
      let r := Shm.openInst s size
      (r.1, ⟨0, r.2, false⟩)
    else
      let r := Shm.openInst (fun _ => 0, { s.2 with present := true, size := 0 }) size
      (r.1, ⟨0, r.2, true⟩)

/-- `shd_shm_open`. -/
def Shm.openFile (s : Mem × Shm) : (Mem × Shm) × OpenResult :=
  Shm.syscall s (fun e => ⟨e, 0⟩) fun s =>
    if s.2.present then
      let r := Shm.openInst s 0
      (r.1, ⟨0, r.2⟩)
    else
      (s, ⟨-ENOENT, 0⟩)

/-- `shd_shm_read_header`. -/
def Shm.readHeader (s : Mem × Shm) : (Mem × Shm) × HdrReadResult :=
  if s.2.size ≤ 0 then (s, ⟨-ENOMEM, []⟩)
  else Shm.syscall s (fun e => ⟨e, []⟩) fun s => (s, ⟨0, s.1.read 0 56⟩)

/-- `shd_shm_resize`. -/
def Shm.resize (inst : Nat) (s : Mem × Shm) : (Mem × Shm) × Int :=
  Shm.syscall s (fun _ => -1) fun s =>
    ((fun x => if x < s.2.creationSize inst then s.1 x else 0,
      { s.2 with size := s.2.creationSize inst }), 0)

/-- `shd_shm_lock`: `flock` returns -1 when another instance holds the lock. -/
def Shm.lock (inst : Nat) (s : Mem × Shm) : (Mem × Shm) × Int :=
  Shm.syscall s (fun _ => -1) fun s =>
    if s.2.locked = none ∨ s.2.locked = some inst then
      ((s.1, { s.2 with locked := some inst }), 0)
    else
      (s, -1)

/-- Both `LOCK_UN` and the last close of an instance release its lock. -/
def Shm.release (inst : Nat) (s : Mem × Shm) : Mem × Shm :=
  if s.2.locked = some inst then (s.1, { s.2 with locked := none }) else s

/-- No file yet, and system calls that do not fail. -/
def Shm.absent : Shm where
  present := false
  size := 0
  creationSize := fun _ => 0
  nextInst := 0
  locked := none
  errors := fun _ => none
  calls := 0

/-- The world before anything happened. -/
def Shm.world : World Shm where
  mem := fun _ => 0
  heap := ⟨0, fun _ => false, []⟩
  os := Shm.absent

def shm : Backend Shm where
  call _ c s :=
    match c with
    | .lookup _ => Shm.syscall s (fun e => e) fun s => (s, 0)
    | .create _ size => Shm.create size s
    | .openSection _ => Shm.openFile s
    | .close inst => (Shm.release inst s, 0)
    | .hdrRead _ => Shm.readHeader s
    | .getSectionStart _ _ => Shm.syscall s (fun e => e) fun s => (s, 0)
    | .resize inst => Shm.resize inst s
    | .lock inst => Shm.lock inst s
    | .unlock inst => Shm.syscall s (fun _ => -1) fun s => (Shm.release inst s, 0)

theorem Shm.syscall_mem {α : Type} (s : Mem × Shm) (fail : Int → α)
    (k : Mem × Shm → (Mem × Shm) × α) (hk : ∀ s, (k s).1.1 = s.1) :
    (Shm.syscall s fail k).1.1 = s.1 := by
  unfold Shm.syscall
  dsimp only
  split
  · rfl
  · exact hk _

theorem shm_faithful : shm.Faithful where
  mem := by
    intro t c s hcreate hresize
    cases c with
    | lookup name => exact Shm.syscall_mem s _ _ fun _ => rfl
    | create name size => exact absurd rfl (hcreate name size)
    | openSection name =>
      refine Shm.syscall_mem s _ _ fun u => ?_
      dsimp only
      split <;> rfl
    | close inst =>
      show (Shm.release inst s).1 = s.1
      unfold Shm.release
      split <;> rfl
    | hdrRead inst =>
      show (Shm.readHeader s).1.1 = s.1
      unfold Shm.readHeader
      split
      · rfl
      · exact Shm.syscall_mem s _ _ fun _ => rfl
    | getSectionStart size inst => exact Shm.syscall_mem s _ _ fun _ => rfl
    | resize inst => exact absurd rfl (hresize inst)
    | lock inst =>
      refine Shm.syscall_mem s _ _ fun u => ?_
      dsimp only
      split <;> rfl
    | unlock inst =>
      refine Shm.syscall_mem s _ _ fun u => ?_
      show (Shm.release inst u).1 = u.1
      unfold Shm.release
      split <;> rfl
  hdr := by
    intro t inst s hret
    change 0 ≤ (Shm.readHeader s).2.ret at hret
    show (Shm.readHeader s).2.hdr = s.1.read 0 56
    unfold Shm.readHeader at *
    split at hret
    · exact absurd hret (show ¬ 0 ≤ -ENOMEM by decide)
    · rename_i hsize
      rw [if_neg hsize]
      unfold Shm.syscall at *
      dsimp only at hret ⊢
      split at hret
      · dsimp only at hret
        omega
      · rfl

/-! ## Memory at a fixed place -/

/-- `open_internal` of `shd_dev_mem.c` and `create_internal` of
`shd_baremetal.c` may fail, and so may a `mmap`: `fails t c` is the error number
less one. `first_creation` is always false. -/
def raw (fails : Nat → BackendCall → Option Nat) : Backend Unit where
  call t c s :=
    (s, match c with
    | .lookup _ => 0
    | .create name size =>
      match fails t (.create name size) with
      | some e => ⟨-((e : Int) + 1), 0, false⟩
      | none => ⟨0, 0, false⟩
    | .openSection name =>
      match fails t (.openSection name) with
      | some e => ⟨-((e : Int) + 1), 0⟩
      | none => ⟨0, 0⟩
    | .close _ => 0
    | .hdrRead inst =>
      match fails t (.hdrRead inst) with
      | some e => ⟨-((e : Int) + 1), []⟩
      | none => ⟨0, s.1.read 0 56⟩
    | .getSectionStart size inst =>
      match fails t (.getSectionStart size inst) with
      | some e => -((e : Int) + 1)
      | none => 0
    | .resize _ => 0
    | .lock _ => 0
    | .unlock _ => 0)

theorem raw_faithful (fails : Nat → BackendCall → Option Nat) : (raw fails).Faithful where
  mem := fun _ _ _ _ _ => rfl
  hdr := by
    intro t inst s hret
    simp only [raw] at *
    split at hret
    · dsimp only at hret
      omega
    · rfl

end Shdata.Core
