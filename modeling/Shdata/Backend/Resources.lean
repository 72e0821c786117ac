/-
Shdata.Backend.Resources — what `shd_shm.c` keeps.

Every callback takes a private structure for each descriptor that it opens and
frees one for each that it closes, on every path out of it. The path string is
another matter: `shd_shm_open_internal` frees it when `shm_open` fails and
forgets it when it does not, where `shd_shm_open_other_root` always frees it.
-/
import Shdata.Conc.Balance
import Shdata.Backend.Refines

namespace Shdata.Core

open Shdata.Conc Shdata.Bytes

/-! ## What an operation takes -/

/-- What an operation takes, or gives back, of each resource. -/
def SysOp.takes : (o : SysOp) → o.Resp → ShmResource → Int
  | .callocSelf, ok, .self => if ok then 1 else 0
  | .freeSelf, _, .self => -1
  | .asprintf _ _, path, .path => if path.isSome then 1 else 0
  | .freePath, _, .path => -1
  | .shmOpen _ _ _, r, .fd => if r.ret < 0 then 0 else 1
  | .close _, _, .fd => -1
  | .mmap _ _ _ _, ret, .map => if ret < 0 then 0 else 1
  | .munmap _, _, .map => -1
  | _, _, _ => 0

/-- The descriptors that an operation opens. -/
def SysOp.opens : (o : SysOp) → o.Resp → Int
  | .shmOpen _ _ _, r => if r.ret < 0 then 0 else 1
  | _, _ => 0

theorem openFile_takes (flags : OpenFlags) (priv : ShmPriv) (w : World ShmSys) :
    (openFile flags priv w).1.os.held = Function.update w.os.held .fd
        (w.os.held .fd + if (openFile flags priv w).2.ret < 0 then 0 else 1) ∧
      ((openFile flags priv w).1.os.nextFd : Int)
        = w.os.nextFd + if (openFile flags priv w).2.ret < 0 then 0 else 1 := by
  unfold openFile
  split <;> simp [ShmSys.openFd, ShmSys.hold, EEXIST, ENOENT]

/-- An attempt gives what it gives when it fails and when it does not. -/
theorem attempt_ind {α : Type} {P : World ShmSys × α → Prop} {w : World ShmSys}
    {fail : Int → α} {k : World ShmSys → World ShmSys × α}
    (hfail : ∀ e : Nat, P (called w, fail (-((e : Int) + 1)))) (hok : P (k (called w))) :
    P (attempt w fail k) := by
  obtain ⟨e, he⟩ | hk := attempt_cases w fail k
  · rw [he]
    exact hfail e
  · rw [hk]
    exact hok

/-- The state says what the responses say. -/
theorem held_step (t : Nat) (o : SysOp) (w : World ShmSys) (what : ShmResource) :
    (sysStep t o w).1.os.held what = w.os.held what + o.takes (sysStep t o w).2 what := by
  have hneg : ∀ e : Nat, -1 < (e : Int) := fun e => by omega
  cases o with
  | lib o => cases o <;> exact (add_zero _).symm
  | callocSelf =>
    refine attempt_ind (P := fun x => x.1.os.held what = w.os.held what
      + SysOp.takes .callocSelf x.2 what) (fun e => ?_) ?_
    · cases what <;> simp [SysOp.takes, called]
    · cases what <;> simp [SysOp.takes, called, ShmSys.hold]
  | asprintf root blobName =>
    refine attempt_ind (P := fun x => x.1.os.held what = w.os.held what
      + SysOp.takes (.asprintf root blobName) x.2 what) (fun e => ?_) ?_
    · cases what <;> simp [SysOp.takes, called]
    · cases what <;> simp [SysOp.takes, called, ShmSys.hold]
  | shmOpen path flags priv =>
    refine attempt_ind (P := fun x => x.1.os.held what = w.os.held what
      + SysOp.takes (.shmOpen path flags priv) x.2 what) (fun e => ?_) ?_
    · cases what <;> simp [SysOp.takes, called, hneg]
    · rw [(openFile_takes flags priv (called w)).1]
      cases what <;> simp [SysOp.takes, called]
  | mmap site size writable fd =>
    refine attempt_ind (P := fun x => x.1.os.held what = w.os.held what
      + SysOp.takes (.mmap site size writable fd) x.2 what) (fun e => ?_) ?_
    · cases what <;> simp [SysOp.takes, called, hneg]
    · cases what <;> simp [SysOp.takes, called, ShmSys.hold]
  | setCloseOnExec | flockUn =>
    exact attempt_ind (P := fun x => x.1.os.held what = w.os.held what + 0)
      (fun e => (add_zero _).symm) (add_zero _).symm
  | flockEx fd =>
    refine attempt_ind (P := fun x => x.1.os.held what = w.os.held what + 0)
      (fun e => (add_zero _).symm) ?_
    unfold lockFile
    split <;> exact (add_zero _).symm
  | ftruncate fd size =>
    refine attempt_ind (P := fun x => x.1.os.held what = w.os.held what + 0)
      (fun e => (add_zero _).symm) ?_
    unfold truncateFile
    split <;> exact (add_zero _).symm
  | _ => cases what <;> simp [sysStep, SysOp.takes, ShmSys.hold, ShmSys.unlockFd]

theorem nextFd_step (t : Nat) (o : SysOp) (w : World ShmSys) :
    ((sysStep t o w).1.os.nextFd : Int) = w.os.nextFd + o.opens (sysStep t o w).2 := by
  cases o with
  | lib o => cases o <;> exact (add_zero _).symm
  | shmOpen path flags priv =>
    refine attempt_ind (P := fun x => (x.1.os.nextFd : Int) = w.os.nextFd
      + SysOp.opens (.shmOpen path flags priv) x.2) (fun e => ?_) ?_
    · have hneg : -1 < (e : Int) := by omega
      simp [SysOp.opens, called, hneg]
    · exact (openFile_takes flags priv (called w)).2
  | callocSelf | asprintf | mmap | setCloseOnExec | flockUn =>
    exact attempt_ind (P := fun x => (x.1.os.nextFd : Int) = w.os.nextFd + 0)
      (fun e => (add_zero _).symm) (add_zero _).symm
  | flockEx fd =>
    refine attempt_ind (P := fun x => (x.1.os.nextFd : Int) = w.os.nextFd + 0)
      (fun e => (add_zero _).symm) ?_
    unfold lockFile
    split <;> exact (add_zero _).symm
  | ftruncate fd size =>
    refine attempt_ind (P := fun x => (x.1.os.nextFd : Int) = w.os.nextFd + 0)
      (fun e => (add_zero _).symm) ?_
    unfold truncateFile
    split <;> exact (add_zero _).symm
  | _ => exact (add_zero _).symm

/-! ## Callbacks -/

/-- Structures that no descriptor stands for, and paths that were not freed for a reason. -/
def unpaid (root : Option String) (o : SysOp) (r : o.Resp) : Int × Int :=
  (o.takes r .self - o.takes r .fd, o.takes r .path - if root.isNone then o.opens r else 0)

/-- The descriptor that was opened has no structure yet. -/
def Unowned (n : Int × Int) (r : OpenResult) (m : Int × Int) : Prop :=
  m = n + if r.ret < 0 then 0 else (-1, 0)

section Opening

variable {n : Int × Int} (blobName : String) (flags : OpenFlags) (priv : ShmPriv)

theorem shmOpenInternal_adds :
    (shmOpenInternal blobName flags priv).Adds (unpaid none) (Unowned n) n := by
  refine Prog.adds_perform fun path => ?_
  cases path with
  | none => exact Prog.adds_pure (by simp [Unowned, unpaid, SysOp.takes, SysOp.opens, ENOMEM])
  | some path =>
    refine Prog.adds_perform fun fd => ?_
    split
    · rename_i hret
      refine Prog.adds_perform fun _ => Prog.adds_pure ?_
      simp [Unowned, unpaid, SysOp.takes, SysOp.opens, hret, add_assoc]
    · rename_i hret
      refine Prog.adds_pure ?_
      simp [Unowned, unpaid, SysOp.takes, SysOp.opens, hret, add_assoc]

theorem shmOpenOtherRoot_adds (root : String) :
    (shmOpenOtherRoot root blobName flags priv).Adds (unpaid (some root)) (Unowned n) n := by
  refine Prog.adds_perform fun path => ?_
  cases path with
  | none => exact Prog.adds_pure (by simp [Unowned, unpaid, SysOp.takes, ENOMEM])
  | some path =>
    refine Prog.adds_perform fun fd => ?_
    split
    · rename_i hret
      refine Prog.adds_perform fun _ => Prog.adds_pure ?_
      simp [Unowned, unpaid, SysOp.takes, hret, add_assoc]
    · rename_i hfd
      refine Prog.adds_perform fun ret => ?_
      split
      · rename_i hret
        refine Prog.adds_perform fun _ => Prog.adds_perform fun _ => Prog.adds_pure ?_
        simp [Unowned, unpaid, SysOp.takes, hret, hfd, add_assoc]
      · refine Prog.adds_perform fun _ => Prog.adds_pure ?_
        simp [Unowned, unpaid, SysOp.takes, hfd, add_assoc]

end Opening

theorem openInternal_balanced (root : Option String) (blobName : String) (flags : OpenFlags)
    (priv : ShmPriv) : (openInternal root blobName flags priv).Balanced (unpaid root) := by
  refine Prog.adds_perform fun ok => ?_
  split
  · rename_i hok
    have hopen : (openUnder root blobName flags priv).Adds (unpaid root) (Unowned (1, 0)) (1, 0) := by
      cases root with
      | none => exact shmOpenInternal_adds blobName flags priv
      | some root => exact shmOpenOtherRoot_adds blobName flags priv root
    have htake : (0 : Int × Int) + unpaid root .callocSelf ok = (1, 0) := by
      simp [unpaid, SysOp.takes, SysOp.opens, hok]
    rw [htake]
    refine Prog.adds_bind hopen fun r m hm => ?_
    obtain rfl : m = _ := hm
    split
    · refine Prog.adds_perform fun _ => Prog.adds_pure ?_
      simp [unpaid, SysOp.takes, SysOp.opens]
    · exact Prog.adds_pure (by simp)
  · rename_i hok
    exact Prog.adds_pure (by simp [unpaid, SysOp.takes, SysOp.opens, hok])

theorem shmCreate_balanced (root : Option String) (blobName : String) (size : Int) :
    (shmCreate root blobName size).Balanced (unpaid root) := by
  refine (openInternal_balanced root blobName _ _).bind fun r => ?_
  split
  · rfl
  · split
    · refine (openInternal_balanced root blobName _ _).bind fun r => ?_
      split <;> rfl
    · rfl

theorem shmOpen_balanced (root : Option String) (blobName : String) :
    (shmOpen root blobName).Balanced (unpaid root) := by
  refine (openInternal_balanced root blobName _ _).bind fun r => ?_
  split <;> rfl

theorem shmClose_balanced (root : Option String) (inst : Nat) :
    (shmClose inst).Balanced (unpaid root) := by
  refine Prog.adds_perform fun self => ?_
  cases self.addr with
  | none =>
    refine Prog.adds_perform fun _ => Prog.adds_perform fun _ => Prog.adds_pure ?_
    simp [unpaid, SysOp.takes, SysOp.opens]
  | some size =>
    refine Prog.adds_perform fun _ => Prog.adds_perform fun _ => Prog.adds_perform fun _ =>
      Prog.adds_pure ?_
    simp [unpaid, SysOp.takes, SysOp.opens]

theorem shmReadHeader_balanced (root : Option String) (inst : Nat) :
    (shmReadHeader inst).Balanced (unpaid root) := by
  refine Prog.adds_perform fun size => ?_
  split
  · exact Prog.adds_pure (by simp [unpaid, SysOp.takes, SysOp.opens])
  · refine Prog.adds_perform fun ret => ?_
    split
    · exact Prog.adds_pure (by simp [unpaid, SysOp.takes, SysOp.opens])
    · refine Prog.adds_perform fun hdr => Prog.adds_perform fun _ => Prog.adds_pure ?_
      simp [unpaid, SysOp.takes, SysOp.opens]

theorem shmGetSection_balanced (root : Option String) (size : Int) (inst : Nat) :
    (shmGetSection size inst).Balanced (unpaid root) := by
  refine Prog.adds_perform fun self => Prog.adds_perform fun ret => ?_
  split
  · exact Prog.adds_pure (by simp [unpaid, SysOp.takes, SysOp.opens])
  · refine Prog.adds_perform fun _ => Prog.adds_pure ?_
    simp [unpaid, SysOp.takes, SysOp.opens]

theorem onShm_balanced (root : Option String) (o : Op) : (onShm root o).Balanced (unpaid root) := by
  cases o with
  | backend c =>
    cases c with
    | create blobName size => exact shmCreate_balanced root blobName size
    | openSection blobName => exact shmOpen_balanced root blobName
    | close inst => exact shmClose_balanced root inst
    | hdrRead inst => exact shmReadHeader_balanced root inst
    | getSectionStart size inst => exact shmGetSection_balanced root size inst
    | resize inst =>
      refine Prog.adds_perform fun self => Prog.adds_perform fun ret => Prog.adds_pure ?_
      simp [unpaid, SysOp.takes, SysOp.opens]
    | _ =>
      refine Prog.adds_perform fun ret => Prog.adds_pure ?_
      simp [unpaid, SysOp.takes, SysOp.opens]
  | _ =>
    refine Prog.adds_perform fun ret => Prog.adds_pure ?_
    simp [unpaid, SysOp.takes, SysOp.opens]

/-! ## Runs -/

variable {α : Type}

/-- The structures that no descriptor stands for, and the paths that were not freed for
a reason. -/
def unpaidHeld (root : Option String) (w : World ShmSys) : Int × Int :=
  (w.os.held .self - w.os.held .fd,
    w.os.held .path - if root.isNone then (w.os.nextFd : Int) else 0)

theorem unpaid_step (root : Option String) (t : Nat) (o : SysOp) (w : World ShmSys) :
    unpaidHeld root (sysMachine.step t o w).1
      = unpaidHeld root w + unpaid root o (sysMachine.step t o w).2 := by
  have hself := held_step t o w .self
  have hfd := held_step t o w .fd
  have hpath := held_step t o w .path
  have hnext := nextFd_step t o w
  refine Prod.ext ?_ ?_
  · show (sysStep t o w).1.os.held .self - (sysStep t o w).1.os.held .fd
      = w.os.held .self - w.os.held .fd
        + (o.takes (sysStep t o w).2 .self - o.takes (sysStep t o w).2 .fd)
    omega
  · show (sysStep t o w).1.os.held .path
        - (if root.isNone then ((sysStep t o w).1.os.nextFd : Int) else 0)
      = w.os.held .path - (if root.isNone then (w.os.nextFd : Int) else 0)
        + (o.takes (sysStep t o w).2 .path - if root.isNone then o.opens (sysStep t o w).2 else 0)
    split <;> omega

/-- **A path is lost for each open of a shared memory file, and nothing else.** Threads run any
programs of the library over `shd_shm.c`, in any interleaving and whatever system calls
fail. When they have returned, a private structure is held for each open descriptor, and
a path for each descriptor that was opened without a root, closed or not. -/
theorem resources_run (root : Option String) (pool : Nat → ShdProg α) (w : World ShmSys)
    (ts : List Nat) {c : Config SysOp.Resp Nat (World ShmSys) α}
    (hc : (overSyscalls root pool w).run sysMachine ts = c)
    (hret : ∀ t ∈ ts, ∃ a, c.pool t = .ret a) :
    c.st.os.held .self - w.os.held .self = c.st.os.held .fd - w.os.held .fd ∧
      c.st.os.held .path - w.os.held .path
        = if root.isNone then (c.st.os.nextFd : Int) - w.os.nextFd else 0 := by
  subst hc
  have hrun := balanced_run (unpaid_step root) (c := overSyscalls root pool w)
    (fun t => Prog.balanced_implement (onShm_balanced root) (pool t)) hret
  have hself := congrArg Prod.fst hrun
  have hpath := congrArg Prod.snd hrun
  simp only [unpaidHeld, overSyscalls] at hself hpath ⊢
  refine ⟨by omega, ?_⟩
  split at hpath <;> rename_i h
  · rw [if_pos h]
    omega
  · rw [if_neg h]
    omega

/-- Two creators and an opener: a creator gives up and keeps its descriptor. -/
theorem resources_run_racers :
    (racersEnd.st.os.held .self - (noFile 16).os.held .self
        = racersEnd.st.os.held .fd - (noFile 16).os.held .fd ∧
      racersEnd.st.os.held .path - (noFile 16).os.held .path
        = (racersEnd.st.os.nextFd : Int) - (noFile 16).os.nextFd) ∧
      racersEnd.st.os.held .fd = 1 ∧ racersEnd.st.os.held .path = 3 := by
  have hmem : ∀ t ∈ racersSchedule, t < 3 := by decide +kernel
  have hdone : ∀ t < 3, (racersEnd.pool t).returned.isSome := by decide +kernel
  have hret : ∀ t ∈ racersSchedule, ∃ a, racersEnd.pool t = .ret a := by
    intro t ht
    obtain ⟨a, ha⟩ := Option.isSome_iff_exists.mp (hdone t (hmem t ht))
    exact ⟨a, Prog.eq_ret_of_returned ha⟩
  have hend : (overSyscalls none racers (noFile 16)).run sysMachine racersSchedule = racersEnd := by
    unfold racersEnd
    rfl
  refine ⟨resources_run none racers (noFile 16) racersSchedule hend hret, ?_, ?_⟩
  · decide +kernel
  · decide +kernel

end Shdata.Core
