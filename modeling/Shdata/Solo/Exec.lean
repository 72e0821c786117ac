/-
Shdata.Solo.Exec — what the operations of the library do when nothing
interferes.

The equations below let `simp` run a program by hand. `exec_mem` says when a
solo run leaves the bytes alone.
-/
import Shdata.Backend.Shm
import Shdata.Layout.Header
import Shdata.Producer.Runs

namespace Shdata.Solo

open Shdata.Conc Shdata.Bytes Shdata.Core Shdata.Ring Shdata.Layout Shdata.Trace

variable {Ω : Type} (B : Backend Ω) (t : Nat) (w : World Ω)

/-! ## Single operations -/

@[simp] theorem exec_load32 (site : Site) (a : Int) :
    exec (machine B) t (load32 site a) w = (w.mem.i32 a, w) := rfl

@[simp] theorem exec_store32 (site : Site) (a v : Int) :
    exec (machine B) t (store32 site a v) w
      = ((), { w with mem := w.mem.write a (encI32 v) }) := rfl

@[simp] theorem exec_addAndFetch (site : Site) (a v : Int) :
    exec (machine B) t (addAndFetch site a v) w =
      (toI32 (w.mem.i32 a + v), { w with mem := w.mem.write a (encI32 (w.mem.i32 a + v)) }) := rfl

@[simp] theorem exec_memcpyOut (site : Site) (a : Int) (len : Nat) :
    exec (machine B) t (memcpyOut site a len) w = (w.mem.read a len, w) := rfl

@[simp] theorem exec_memcpyIn (site : Site) (a : Int) (src : List UInt8) :
    exec (machine B) t (memcpyIn site a src) w = ((), { w with mem := w.mem.write a src }) := rfl

@[simp] theorem exec_getSamplePtr (desc : DataSectionDesc) (index : Int) :
    exec (machine B) t (getSamplePtr desc index) w = (dataGetSamplePtr desc index, w) := rfl

/-! ## Whole programs -/

section Programs

variable {α : Type} {B t w}

/-- An operation that leaves the bytes alone, on a faithful backend. -/
def KeepsMem : Op → Prop
  | .write _ _ _ | .addAndFetch _ _ _ | .backend (.create _ _) | .backend (.resize _) => False
  | _ => True

theorem step_keepsMem (hB : B.Faithful) {o : Op} (ho : KeepsMem o) (w : World Ω) :
    ((machine B).step t o w).1.mem = w.mem := by
  cases o with
  | read site a len => rfl
  | write site a src => exact absurd ho id
  | addAndFetch site a v => exact absurd ho id
  | samplePtr desc index => rfl
  | calloc what => rfl
  | free what p => rfl
  | backend c =>
    refine hB.mem t c (w.mem, w.os) ?_ ?_
    · rintro name size rfl
      exact ho
    · rintro inst rfl
      exact ho

/-- An operation outside the section: on the heap, or a callback that neither creates,
resizes nor reads it. -/
def OffSection : Op → Prop
  | .calloc _ | .free _ _ => True
  | .backend (.create _ _) | .backend (.resize _) | .backend (.hdrRead _) => False
  | .backend _ => True
  | _ => False

theorem keepsMem_of_offSection {o : Op} (ho : OffSection o) : KeepsMem o := by
  cases o with
  | backend c =>
    cases c with
    | create name size => exact ho
    | resize inst => exact ho
    | _ => trivial
  | calloc what => trivial
  | free what p => trivial
  | _ => exact absurd ho id

/-- The responses of a section whose bytes are those of `m`. -/
def Reads (m : Mem) : (o : Op) → o.Resp → Prop
  | .read _ a len, bs => bs = m.read a len
  | .backend (.hdrRead _), r => leNat (r.hdr.take 8) = SHD_MAGIC_NUMBER → r.hdr = m.read 0 56
  | _, _ => True

/-- A buffer that `hdr_read` fails to fill does not hold the magic number by
accident. The code relies on it: it does not look at the return code. -/
def ReadsHdr (B : Backend Ω) : Prop :=
  ∀ t inst s, leNat ((B.call t (.hdrRead inst) s).2.hdr.take 8) = SHD_MAGIC_NUMBER →
    (B.call t (.hdrRead inst) s).2.hdr = s.1.read 0 56

theorem shm_readsHdr : ReadsHdr shm := by
  intro t inst s
  change leNat ((Shm.readHeader s).2.hdr.take 8) = _ → (Shm.readHeader s).2.hdr = _
  have hnone : leNat (([] : List UInt8).take 8) ≠ SHD_MAGIC_NUMBER := by decide
  unfold Shm.readHeader
  split
  · exact fun h => absurd h hnone
  · unfold Shm.syscall
    dsimp only
    split
    · exact fun h => absurd h hnone
    · exact fun _ => rfl

theorem raw_readsHdr (fails : Nat → BackendCall → Option Nat) : ReadsHdr (raw fails) := by
  intro t inst s
  have hnone : leNat (([] : List UInt8).take 8) ≠ SHD_MAGIC_NUMBER := by decide
  simp only [raw]
  split
  · exact fun h => absurd h hnone
  · exact fun _ => rfl

/-- What a program that writes nothing ensures, when it runs alone. -/
theorem exec_reads (hB : B.Faithful) (hhdr : ReadsHdr B) {p : ShdProg α} {Q : α → Prop}
    (hp : p.Ensures (Reads w.mem) KeepsMem Q) :
    Q (exec (machine B) t p w).1 ∧ (exec (machine B) t p w).2.mem = w.mem := by
  refine exec_ensures (machine B) t (I := fun w' => w'.mem = w.mem) ?_ hp rfl
  intro o u ho hu
  refine ⟨(step_keepsMem hB ho u).trans hu, ?_⟩
  cases o with
  | read site a len => exact congrArg (fun m : Mem => m.read a len) hu
  | backend c =>
    cases c with
    | hdrRead inst =>
      exact fun hmagic => (hhdr t inst _ hmagic).trans (congrArg (fun m : Mem => m.read 0 56) hu)
    | _ => trivial
  | _ => trivial

/-- A program of such operations leaves the bytes alone. -/
theorem exec_mem (hB : B.Faithful) {p : ShdProg α} (hp : p.AllOps KeepsMem) :
    (exec (machine B) t p w).2.mem = w.mem :=
  exec_inv (machine B) t (I := fun w' => w'.mem = w.mem)
    (fun _ _ ho hI => (step_keepsMem hB ho _).trans hI) hp rfl

/-- No operation changes which allocations fail. -/
theorem exec_oom {p : ShdProg α} {r : α} {w' : World Ω} (hex : exec (machine B) t p w = (r, w')) :
    w'.heap.oom = w.heap.oom := by
  induction p generalizing w with
  | ret a =>
    obtain ⟨-, rfl⟩ := Prod.ext_iff.mp hex
    rfl
  | op o k ih =>
    refine (ih _ hex).trans ?_
    cases o with
    | free what q => cases q <;> rfl
    | _ => rfl

theorem exec_oom_tracked {d : DataSectionDesc} {p : ShdProg α} {r : α} {s s' : World Ω × History}
    (hex : exec (tracked B d) t p s = (r, s')) : s'.1.heap.oom = s.1.heap.oom := by
  have hrun := ghost_exec (machine B) (track d) t p s
  rw [show exec ((machine B).ghost (track d)) t p s = (r, s') from hex] at hrun
  exact exec_oom hrun.symm

end Programs

end Shdata.Solo
