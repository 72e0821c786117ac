/-
Shdata.Backend.Refines — `shm` is what `shd_shm.c` computes.

The rest of this development takes a callback as one step and counts one
failure for each. `shm_run` is the reason: a run over the system calls, with
those of the other threads in between, is a run of `shm`, with the same
bytes, the same heap and the same return values.

A system call that decides the outcome of its callback is where the callback
happens, and it adds the outcome to a log. The failures of `shm` are the log of
the whole run.

One failure has no counterpart and is excluded. When the file is new and
`FD_CLOEXEC` cannot be set, the creation fails and leaves an empty file.
-/
import Shdata.Backend.Syscalls
import Shdata.Conc.Implement

namespace Shdata.Core

open Shdata.Conc Shdata.Bytes

/-! ## Outcomes -/

/-- The failure of `shm` that a return code stands for. -/
def outcome (ret : Int) : Option Nat := if ret < 0 then some (-ret - 1).toNat else none

/-- What a system call decides about its callback. The first `shm_open` of a creation decides
nothing when the file exists. -/
def SysOp.decides : (o : SysOp) → o.Resp → List (Option Nat)
  | .lookup _, _ | .memcpyHdr, _ => [none]
  | .callocSelf, ok => if ok then [] else [outcome (-ENOMEM)]
  | .asprintf _ _, path => if path.isSome then [] else [outcome (-ENOMEM)]
  | .shmOpen _ flags _, r =>
      if flags = .creatExclRdwr ∧ r.ret = -EEXIST then [] else [outcome r.ret]
  | .mmap .readHeader _ _ _, ret => if ret < 0 then [outcome ret] else []
  | .mmap .getSection _ _ _, ret | .ftruncate _ _, ret | .flockEx _, ret | .flockUn _, ret =>
      [outcome ret]
  | _, _ => []

/-- The state and the log. -/
abbrev Logged := World ShmSys × List (Option Nat)

def loggedMachine : Machine SysOp.Resp Nat Logged :=
  sysMachine.logged fun _ o _ r => o.decides r

/-- The state of `shm`, after `calls` of its own system calls that fail as `errors` says. -/
def asShm (errors : Nat → Option Nat) (calls : Nat) (w : World ShmSys) : World Shm where
  mem := w.mem
  heap := w.heap
  os :=
    { present := w.os.file.isSome
      size := w.os.file.getD 0
      creationSize := fun fd => (w.os.priv fd).creationSize
      nextInst := w.os.nextFd
      locked := w.os.locked
      errors := errors
      calls := calls }

/-- The state of `shm` if `L` is the log of the whole run. -/
def view (L : List (Option Nat)) (s : Logged) : World Shm :=
  asShm (fun n => L[n]?.join) s.2.length s.1

/-- What a callback relies on while it runs. -/
structure Kept (s u : ShmSys) : Prop where
  nextFd : s.nextFd ≤ u.nextFd
  creationSize : ∀ fd < s.nextFd, (u.priv fd).creationSize = (s.priv fd).creationSize
  size : 0 < s.file.getD 0 → 0 < u.file.getD 0

theorem Kept.refl (s : ShmSys) : Kept s s := ⟨le_rfl, fun _ _ => rfl, id⟩

theorem Kept.trans {s u v : ShmSys} (h : Kept s u) (h' : Kept u v) : Kept s v where
  nextFd := h.nextFd.trans h'.nextFd
  creationSize fd hfd :=
    (h'.creationSize fd (hfd.trans_le h.nextFd)).trans (h.creationSize fd hfd)
  size hs := h'.size (h.size hs)

/-- The descriptor that an operation uses. -/
def SysOp.descriptor : SysOp → Option Nat
  | .setCloseOnExec fd | .loadPriv fd | .storeAddr fd _ | .lseek fd | .mmap _ _ _ fd
  | .ftruncate fd _ | .flockEx fd | .flockUn fd | .close fd => some fd
  | _ => none

/-- The size that an operation gives the file. -/
def SysOp.newSize : SysOp → Option Int
  | .ftruncate _ size => some size
  | _ => none

/-- Sets `FD_CLOEXEC`. -/
def SysOp.Marks : SysOp → Bool
  | .setCloseOnExec _ => true
  | _ => false

/-- What the callers of the backend see to: a descriptor is used while it is open, and the
file is given a positive size. `FD_CLOEXEC` can be set on an open descriptor. -/
def Sane (o : SysOp) (s : ShmSys) : Prop :=
  (∀ fd ∈ o.descriptor, fd < s.nextFd ∧ s.closed fd = false) ∧
    (∀ size ∈ o.newSize, 0 < size) ∧ (o.Marks = true → s.fails s.calls = none)

instance (o : SysOp) (s : ShmSys) : Decidable (Sane o s) :=
  inferInstanceAs (Decidable (_ ∧ _ ∧ _))

/-- A sane step of a run whose whole log is `L`. -/
def SaneStep (L : List (Option Nat)) (t : Nat) (o : SysOp) (s : Logged) : Prop :=
  Sane o s.1.os ∧ (loggedMachine.step t o s).1.2 <+: L

/-! ## One step -/

/-- The state after a call that may fail, whatever it did. -/
def called (w : World ShmSys) : World ShmSys :=
  { w with os := { w.os with calls := w.os.calls + 1 } }

theorem attempt_cases {α : Type} (w : World ShmSys) (fail : Int → α)
    (k : World ShmSys → World ShmSys × α) :
    (∃ e : Nat, attempt w fail k = (called w, fail (-((e : Int) + 1)))) ∨
      attempt w fail k = k (called w) := by
  unfold attempt
  dsimp only
  split
  · rename_i e _
    exact Or.inl ⟨e, rfl⟩
  · exact Or.inr rfl

theorem attempt_os {α : Type} {P : ShmSys → Prop} {w : World ShmSys} {fail : Int → α}
    {k : World ShmSys → World ShmSys × α} (hfail : P (called w).os)
    (hk : P (k (called w)).1.os) : P (attempt w fail k).1.os := by
  obtain ⟨e, he⟩ | hok := attempt_cases w fail k
  · rw [he]
    exact hfail
  · rw [hok]
    exact hk

/-- What `shm_open` does. -/
theorem shmOpen_cases (t : Nat) (path : String) (flags : OpenFlags) (priv : ShmPriv)
    (w : World ShmSys) :
    (∃ e : Nat, sysStep t (.shmOpen path flags priv) w = (called w, ⟨-((e : Int) + 1), 0⟩)) ∨
    (flags = .creatExclRdwr ∧ w.os.file = none ∧ sysStep t (.shmOpen path flags priv) w
      = ({ called w with mem := fun _ => 0, os := ((called w).os.openFd 0 priv).1 },
          ⟨0, w.os.nextFd⟩)) ∨
    (flags ≠ .creatExclRdwr ∧ ∃ size, w.os.file = some size ∧
      sysStep t (.shmOpen path flags priv) w
        = ({ called w with os := ((called w).os.openFd size priv).1 }, ⟨0, w.os.nextFd⟩)) := by
  have hstep : sysStep t (.shmOpen path flags priv) w
      = attempt w (fun e => ⟨e, 0⟩) (openFile flags priv) := rfl
  rw [hstep]
  obtain ⟨e, he⟩ | hok := attempt_cases w (fun e => (⟨e, 0⟩ : OpenResult)) (openFile flags priv)
  · exact Or.inl ⟨e, he⟩
  · rw [hok]
    unfold openFile
    have hcalled : (called w).os.file = w.os.file := rfl
    rw [hcalled]
    cases flags <;> cases hfile : w.os.file
    · exact Or.inr (Or.inl ⟨rfl, rfl, rfl⟩)
    · exact Or.inl ⟨16, rfl⟩
    · exact Or.inl ⟨1, rfl⟩
    · exact Or.inr (Or.inr ⟨by decide, _, rfl, rfl⟩)
    · exact Or.inl ⟨1, rfl⟩
    · exact Or.inr (Or.inr ⟨by decide, _, rfl, rfl⟩)

/-- A new descriptor leaves the others as they are. -/
theorem creationSize_openFd (w : World ShmSys) (priv : ShmPriv) {size : Int} (fd : Nat)
    (hfd : fd < w.os.nextFd) : (((called w).os.openFd size priv).1.priv fd).creationSize
      = (w.os.priv fd).creationSize := by
  simp [ShmSys.openFd, ShmSys.hold, called, Function.update_of_ne hfd.ne]

/-- Every step is interference that a callback allows for. -/
theorem step_kept {t : Nat} {o : SysOp} {w : World ShmSys} (hs : Sane o w.os) :
    Kept w.os (sysStep t o w).1.os := by
  cases o with
  | lib o => cases o <;> exact ⟨le_rfl, fun _ _ => rfl, id⟩
  | callocSelf | asprintf | mmap | setCloseOnExec | flockUn =>
    exact attempt_os ⟨le_rfl, fun _ _ => rfl, id⟩ ⟨le_rfl, fun _ _ => rfl, id⟩
  | flockEx fd =>
    refine attempt_os ⟨le_rfl, fun _ _ => rfl, id⟩ ?_
    unfold lockFile
    split <;> exact ⟨le_rfl, fun _ _ => rfl, id⟩
  | shmOpen path flags priv =>
    obtain ⟨e, hstep⟩ | ⟨-, hfile, hstep⟩ | ⟨-, size, hfile, hstep⟩ :=
      shmOpen_cases t path flags priv w <;> rw [hstep]
    · exact ⟨le_rfl, fun _ _ => rfl, id⟩
    · exact ⟨Nat.le_succ _, creationSize_openFd w priv, by simp [hfile]⟩
    · exact ⟨Nat.le_succ _, creationSize_openFd w priv, by simp [hfile, ShmSys.openFd, ShmSys.hold]⟩
  | storeAddr fd size =>
    refine ⟨le_rfl, fun fd' _ => ?_, id⟩
    by_cases h : fd' = fd
    · simp [sysStep, h]
    · simp [sysStep, Function.update_of_ne h]
  | ftruncate fd size =>
    refine attempt_os ⟨le_rfl, fun _ _ => rfl, id⟩ ?_
    unfold truncateFile
    split
    · exact ⟨le_rfl, fun _ _ => rfl, fun _ => hs.2.1 size rfl⟩
    · exact ⟨le_rfl, fun _ _ => rfl, id⟩
  | _ => exact ⟨le_rfl, fun _ _ => rfl, id⟩

/-! ## Rules -/

/-- A part of the program of a callback. -/
abbrev Part {β : Type} (L : List (Option Nat)) (t : Nat) (c : BackendCall) :
    (Option c.Resp → β → Logged → Prop) → Option c.Resp → SysProg β → Logged → Prop :=
  Runs loggedMachine (machine shm) (SaneStep L) (fun s a => a = view L s)
    (fun s u => Kept s.1.os u.1.os) (fun _ s u => Kept s.1.os u.1.os) t (.backend c)

section Rules

variable {β γ : Type} {L : List (Option Nat)} {t : Nat} {c : BackendCall}
  {Q : Option c.Resp → β → Logged → Prop} {s u : Logged}

/-- The step from `u` to `s` has the effect of the callback, which returns `r`. -/
def Effect (L : List (Option Nat)) (t : Nat) (c : BackendCall) (u s : Logged) (r : c.Resp) : Prop :=
  (machine shm).step t (.backend c) (view L u) = (view L s, r)

theorem part_bind {Q' : Option c.Resp → γ → Logged → Prop} {p : SysProg β} {f : β → SysProg γ}
    {ph : Option c.Resp} (hp : Part L t c Q ph p s)
    (hf : ∀ ph b u, Q ph b u → Part L t c Q' ph (f b) u) : Part L t c Q' ph (p >>= f) s :=
  runs_bind (runs_mono (o := Op.backend c) hf hp)

/-- A step that shows nothing. -/
theorem part_silent {o : SysOp} {f : o.Resp → SysProg β} {ph : Option c.Resp}
    (h : ∀ u, Kept s.1.os u.1.os → Sane o u.1.os → ∀ w r, sysStep t o u.1 = (w, r) →
      view L (w, u.2 ++ o.decides r) = view L u ∧
        Part L t c Q ph (f r) (w, u.2 ++ o.decides r)) :
    Part L t c Q ph (sysCall o >>= f) s := by
  intro u hu hc
  obtain ⟨hview, hrest⟩ := h u hu hc.1 _ _ rfl
  exact ⟨step_kept hc.1, Or.inl ⟨fun a ha => ha.trans hview.symm, hrest⟩⟩

/-- After the step from `u` to `w` the callback had its effect or will have it. -/
def Goes (L : List (Option Nat)) (t : Nat) (c : BackendCall) (Q : Option c.Resp → β → Logged → Prop)
    (p : SysProg β) (u : Logged) (w : World ShmSys) (new : List (Option Nat)) : Prop :=
  view L (w, u.2 ++ new) = view L u ∧ Part L t c Q none p (w, u.2 ++ new) ∨
    ∃ x, Effect L t c u (w, u.2 ++ new) x ∧ Part L t c Q (some x) p (w, u.2 ++ new)

theorem goes_quiet {p : SysProg β} {w : World ShmSys} (hview : view L (w, u.2) = view L u)
    (hp : Part L t c Q none p (w, u.2)) : Goes L t c Q p u w [] := by
  unfold Goes
  rw [List.append_nil]
  exact Or.inl ⟨hview, hp⟩

/-- A step that may have the effect. -/
theorem part_step {o : SysOp} {f : o.Resp → SysProg β}
    (h : ∀ u, Kept s.1.os u.1.os → Sane o u.1.os → ∀ w r, sysStep t o u.1 = (w, r) →
      u.2 ++ o.decides r <+: L → Goes L t c Q (f r) u w (o.decides r)) :
    Part L t c Q none (sysCall o >>= f) s := by
  intro u hu hc
  refine ⟨step_kept hc.1, ?_⟩
  obtain ⟨hview, hrest⟩ | ⟨x, heffect, hrest⟩ :=
    h u hu hc.1 (sysStep t o u.1).1 (sysStep t o u.1).2 rfl hc.2
  · exact Or.inl ⟨fun a ha => ha.trans hview.symm, hrest⟩
  · refine Or.inr ⟨rfl, ?_⟩
    rintro _ rfl
    rw [show (machine shm).step t (.backend c) (view L u) = _ from heffect]
    exact ⟨rfl, hrest⟩

/-- A system call that may fail. -/
theorem part_attempt {o : SysOp} {f : o.Resp → SysProg β} {fail : Int → o.Resp}
    {k : World ShmSys → World ShmSys × o.Resp} (hstep : ∀ w, sysStep t o w = attempt w fail k)
    (hfail : ∀ u (e : Nat), Kept s.1.os u.1.os → u.2 ++ o.decides (fail (-((e : Int) + 1))) <+: L →
      Goes L t c Q (f (fail (-((e : Int) + 1)))) u (called u.1)
        (o.decides (fail (-((e : Int) + 1)))))
    (hok : ∀ u w r, Kept s.1.os u.1.os → k (called u.1) = (w, r) → u.2 ++ o.decides r <+: L →
      Goes L t c Q (f r) u w (o.decides r)) :
    Part L t c Q none (sysCall o >>= f) s := by
  refine part_step fun u hu _ w r heq hlog => ?_
  rw [hstep] at heq
  obtain ⟨e, hcase⟩ | hcase := attempt_cases u.1 fail k <;> rw [hcase] at heq
  · obtain ⟨rfl, rfl⟩ := Prod.mk.inj heq
    exact hfail u e hu hlog
  · exact hok u w r hu heq hlog

/-- What the callback of `shm` gets. -/
def seen (L : List (Option Nat)) (u : Logged) : Mem × Shm := ((view L u).mem, (view L u).os)

/-- The same after a system call of `shm`. -/
def counted (v : Mem × Shm) : Mem × Shm := (v.1, { v.2 with calls := v.2.calls + 1 })

theorem counted_seen (x : Option Nat) :
    counted (seen L u) = seen L (called u.1, u.2 ++ [x]) := by
  simp [seen, counted, view, asShm, called]

/-- The log entry of a step is the failure that `shm` meets. -/
theorem errors_of_log {x : Option Nat} (hlog : u.2 ++ [x] <+: L) :
    (seen L u).2.errors (seen L u).2.calls = x := by
  obtain ⟨rest, rfl⟩ := hlog
  simp [seen, view, asShm]

theorem syscall_fail {α : Type} {v : Mem × Shm} {fail : Int → α}
    {k : Mem × Shm → (Mem × Shm) × α} {e : Nat} (h : v.2.errors v.2.calls = some e) :
    Shm.syscall v fail k = (counted v, fail (-((e : Int) + 1))) := by
  simp [Shm.syscall, counted, h]

theorem syscall_ok {α : Type} {v : Mem × Shm} {fail : Int → α}
    {k : Mem × Shm → (Mem × Shm) × α} (h : v.2.errors v.2.calls = none) :
    Shm.syscall v fail k = k (counted v) := by
  simp [Shm.syscall, counted, h]

theorem outcome_neg (e : Nat) : outcome (-((e : Int) + 1)) = some e := by
  unfold outcome
  rw [if_pos (by omega)]
  congr 1
  omega

theorem effect_of_call {w : World ShmSys} {log : List (Option Nat)} {r : c.Resp}
    (h : shm.call t c (seen L u) = (seen L (w, log), r)) (hheap : w.heap = u.1.heap) :
    Effect L t c u (w, log) r := by
  have hcall : shm.call t c ((view L u).mem, (view L u).os) = _ := h
  simp only [Effect, machine, hcall]
  simp [seen, view, asShm, hheap]

/-- A step that leaves to the callback only that it was called. -/
theorem effect_counted {r : c.Resp} {x : Option Nat}
    (h : shm.call t c (seen L u) = (counted (seen L u), r)) :
    Effect L t c u (called u.1, u.2 ++ [x]) r :=
  effect_of_call (h.trans (by rw [counted_seen x])) rfl

/-! ## Opening -/

/-- How an open ends. The name may be taken when the file is to be new. -/
inductive Opened (c : BackendCall) (flags : OpenFlags) (fail : Int → c.Resp) (ok : Nat → c.Resp) :
    Option c.Resp → OpenResult → Prop
  | opened (n : Nat) : Opened c flags fail ok (some (ok n)) ⟨0, n⟩
  | failed (e : Nat) (h : flags = .creatExclRdwr → (-((e : Int) + 1)) ≠ -EEXIST) :
      Opened c flags fail ok (some (fail (-((e : Int) + 1)))) ⟨-((e : Int) + 1), 0⟩
  | taken (h : flags = .creatExclRdwr) : Opened c flags fail ok none ⟨-EEXIST, 0⟩

/-- A part of the program of a callback that opens the file. -/
abbrev OpenPart (L : List (Option Nat)) (t : Nat) (c : BackendCall) (flags : OpenFlags)
    (fail : Int → c.Resp) (ok : Nat → c.Resp) (p : SysProg OpenResult) (s : Logged) : Prop :=
  Part L t c (fun ph r _ => Opened c flags fail ok ph r) none p s

/-- What `shm` makes of an open. -/
structure Opens (c : BackendCall) (t : Nat) (flags : OpenFlags) (size : Int) (fail : Int → c.Resp)
    (ok : Nat → c.Resp) : Prop where
  fails : ∀ v (e : Nat), v.2.errors v.2.calls = some e →
    shm.call t c v = (counted v, fail (-((e : Int) + 1)))
  absent : flags = .creatExclRdwr → ∀ v, v.2.errors v.2.calls = none → v.2.present = false →
    shm.call t c v = ((Shm.openInst (fun _ => 0, { (counted v).2 with present := true, size := 0 })
      size).1, ok v.2.nextInst)
  present : flags ≠ .creatExclRdwr → ∀ v, v.2.errors v.2.calls = none → v.2.present = true →
    shm.call t c v = ((Shm.openInst (counted v) size).1, ok v.2.nextInst)

section Opening

variable {flags : OpenFlags} {priv : ShmPriv} {fail : Int → c.Resp} {ok : Nat → c.Resp}

theorem decides_opened (path : String) (flags : OpenFlags) (priv : ShmPriv) (n : Nat) :
    (SysOp.shmOpen path flags priv).decides ⟨0, n⟩ = [none] := by
  simp [SysOp.decides, outcome, EEXIST]

/-- The step of `shm_open`. -/
theorem part_shmOpen (h : Opens c t flags priv.creationSize fail ok) {path : String}
    {f : OpenResult → SysProg β}
    (hf : ∀ ph r u, Opened c flags fail ok ph r → Part L t c Q ph (f r) u) :
    Part L t c Q none (sysCall (.shmOpen path flags priv) >>= f) s := by
  refine part_step fun u _ _ w r hstep hlog => ?_
  obtain ⟨e, hcase⟩ | ⟨hflags, hfile, hcase⟩ | ⟨hflags, size, hfile, hcase⟩ :=
    shmOpen_cases t path flags priv u.1 <;> rw [hcase] at hstep <;>
      obtain ⟨rfl, rfl⟩ := Prod.mk.inj hstep
  · by_cases htaken : flags = .creatExclRdwr ∧ -((e : Int) + 1) = -EEXIST
    · -- the file exists, which decides nothing
      simp only [SysOp.decides, htaken, and_self, if_true]
      exact goes_quiet rfl (hf _ _ _ (.taken htaken.1))
    · simp only [SysOp.decides, htaken, if_false, outcome_neg] at hlog ⊢
      exact Or.inr ⟨_, effect_counted (h.fails _ _ (errors_of_log hlog)),
        hf _ _ _ (.failed e fun hflags heq => htaken ⟨hflags, heq⟩)⟩
  · simp only [decides_opened] at hlog ⊢
    refine Or.inr ⟨_, effect_of_call ((h.absent hflags _ (errors_of_log hlog)
      (by simp [seen, view, asShm, hfile])).trans ?_) rfl, hf _ _ _ (.opened _)⟩
    simp [Shm.openInst, seen, counted, view, asShm, ShmSys.openFd, ShmSys.hold, called,
      Function.apply_update fun _ p => ShmPriv.creationSize p]
  · simp only [decides_opened] at hlog ⊢
    refine Or.inr ⟨_, effect_of_call ((h.present hflags _ (errors_of_log hlog)
      (by simp [seen, view, asShm, hfile])).trans ?_) rfl, hf _ _ _ (.opened _)⟩
    simp [Shm.openInst, seen, counted, view, asShm, ShmSys.openFd, ShmSys.hold, called, hfile,
      Function.apply_update fun _ p => ShmPriv.creationSize p]

theorem outcome_enomem : outcome (-ENOMEM) = some 11 := rfl

/-- `asprintf` and `calloc` fail with `-ENOMEM`, or show nothing. -/
theorem part_alloc (h : Opens c t flags priv.creationSize fail ok) {o : SysOp}
    (bad good : o.Resp) {n : ShmResource}
    (hstep : ∀ w, sysStep t o w
      = attempt w (fun _ => bad) fun w => ({ w with os := w.os.hold n 1 }, good))
    (hbad : o.decides bad = [outcome (-ENOMEM)]) (hgood : o.decides good = [])
    {f : o.Resp → SysProg OpenResult} (hf : f bad = .ret ⟨-ENOMEM, 0⟩)
    (hrest : ∀ u, OpenPart L t c flags fail ok (f good) u) :
    OpenPart L t c flags fail ok (sysCall o >>= f) s := by
  refine part_attempt hstep (fun u e _ hlog => ?_) fun u w r _ heq _ => ?_
  · rw [hbad, outcome_enomem] at hlog ⊢
    refine Or.inr ⟨_, effect_counted (h.fails _ _ (errors_of_log hlog)), ?_⟩
    rw [hf]
    exact .failed 11 fun _ => by decide
  · obtain ⟨rfl, rfl⟩ := Prod.mk.inj heq
    rw [hgood]
    exact goes_quiet rfl (hrest _)

/-- Giving something back shows nothing. -/
theorem part_giveBack {o : SysOp} {f : o.Resp → SysProg β} {ph : Option c.Resp}
    (hstep : ∀ w log, view L ((sysStep t o w).1, log) = view L (w, log))
    (hdec : ∀ r, o.decides r = []) (hf : ∀ r u, Part L t c Q ph (f r) u) :
    Part L t c Q ph (sysCall o >>= f) s := by
  refine part_silent fun u _ _ w r heq => ?_
  have hw : w = (sysStep t o u.1).1 := (congrArg Prod.fst heq).symm
  rw [hdec, List.append_nil, hw]
  exact ⟨hstep _ _, hf _ _⟩

theorem part_shmOpenInternal (h : Opens c t flags priv.creationSize fail ok) (blobName : String) :
    OpenPart L t c flags fail ok (shmOpenInternal blobName flags priv) s := by
  refine part_alloc h none (some ("" ++ "/shd_" ++ blobName)) (fun _ => rfl) rfl rfl rfl fun u => ?_
  refine part_shmOpen h fun ph r u hr => ?_
  split
  · exact part_giveBack (fun _ _ => rfl) (fun _ => rfl) fun _ _ => hr
  · exact hr

/-- Descriptors can be marked. -/
theorem part_shmOpenOtherRoot (h : Opens c t flags priv.creationSize fail ok)
    (root blobName : String) :
    OpenPart L t c flags fail ok (shmOpenOtherRoot root blobName flags priv) s := by
  refine part_alloc h none (some (root ++ "/shd_" ++ blobName)) (fun _ => rfl) rfl rfl rfl
    fun u => ?_
  refine part_shmOpen h fun ph r u hr => ?_
  split
  · exact part_giveBack (fun _ _ => rfl) (fun _ => rfl) fun _ _ => hr
  · refine part_silent fun v _ hsane w ret heq => ?_
    have hok : sysStep t (.setCloseOnExec r.inst) v.1 = (called v.1, 0) := by
      simp [sysStep, attempt, hsane.2.2 rfl, called]
    rw [hok] at heq
    obtain ⟨rfl, rfl⟩ := Prod.mk.inj heq
    simp only [SysOp.decides, List.append_nil]
    refine ⟨rfl, ?_⟩
    exact part_giveBack (fun _ _ => rfl) (fun _ => rfl) fun _ _ => hr

theorem part_openInternal (h : Opens c t flags priv.creationSize fail ok)
    (root : Option String) (blobName : String) :
    OpenPart L t c flags fail ok (openInternal root blobName flags priv) s := by
  refine part_alloc h false true (fun _ => rfl) rfl rfl rfl fun u => ?_
  have hopen : OpenPart L t c flags fail ok (openUnder root blobName flags priv) u := by
    cases root with
    | none => exact part_shmOpenInternal h blobName
    | some root => exact part_shmOpenOtherRoot h root blobName
  refine part_bind hopen fun ph r u hr => ?_
  split
  · exact part_giveBack (fun _ _ => rfl) (fun _ => rfl) fun _ _ => hr
  · exact hr

end Opening

/-! ## The callbacks -/

/-- The callback looks atomic. -/
abbrev Atomic (L : List (Option Nat)) (t : Nat) (c : BackendCall) (p : SysProg c.Resp)
    (s : Logged) : Prop :=
  Part L t c (fun ph r _ => ph = some r) none p s

theorem opens_create_new (blobName : String) (size : Int) :
    Opens (.create blobName size) t .creatExclRdwr size (fun e => ⟨e, 0, false⟩)
      fun n => ⟨0, n, true⟩ where
  fails v e he := by simp [shm, Shm.create, syscall_fail he]
  absent _ v he hv := by simp [shm, Shm.create, syscall_ok he, counted, hv, Shm.openInst]
  present hflags := absurd rfl hflags

theorem opens_create_old (blobName : String) (size : Int) :
    Opens (.create blobName size) t .exclRdwr size (fun e => ⟨e, 0, false⟩)
      fun n => ⟨0, n, false⟩ where
  fails v e he := by simp [shm, Shm.create, syscall_fail he]
  absent hflags := by cases hflags
  present _ v he hv := by simp [shm, Shm.create, syscall_ok he, counted, hv, Shm.openInst]

theorem opens_open (blobName : String) :
    Opens (.openSection blobName) t .exclRdonly 0 (fun e => ⟨e, 0⟩) fun n => ⟨0, n⟩ where
  fails v e he := by simp [shm, Shm.openFile, syscall_fail he]
  absent hflags := by cases hflags
  present _ v he hv := by simp [shm, Shm.openFile, syscall_ok he, counted, hv, Shm.openInst]

theorem atomic_create (root : Option String) (blobName : String) (size : Int) :
    Atomic L t (.create blobName size) (shmCreate root blobName size) s := by
  have hnew : OpenPart L t (.create blobName size) .creatExclRdwr (fun e => ⟨e, 0, false⟩)
      (fun n => ⟨0, n, true⟩) (openInternal root blobName .creatExclRdwr ⟨none, true, size⟩) s :=
    part_openInternal (opens_create_new blobName size) root blobName
  refine part_bind hnew fun ph r u hr => ?_
  cases hr with
  | opened n => rfl
  | failed e hne =>
    have h0 : -((e : Int) + 1) ≠ 0 := by omega
    simp only [h0, hne rfl, if_false]
    rfl
  | taken hflags =>
    -- the second open has the effect, on a file that another creator made
    have hold : OpenPart L t (.create blobName size) .exclRdwr (fun e => ⟨e, 0, false⟩)
        (fun n => ⟨0, n, false⟩) (openInternal root blobName .exclRdwr ⟨none, true, size⟩) u :=
      part_openInternal (opens_create_old blobName size) root blobName
    refine part_bind hold fun ph r v hr => ?_
    cases hr with
    | opened n => rfl
    | failed e _ =>
      have hneg : -((e : Int) + 1) < 0 := by omega
      simp only [hneg, if_true]
      rfl
    | taken h => cases h

theorem atomic_open (root : Option String) (blobName : String) :
    Atomic L t (.openSection blobName) (shmOpen root blobName) s := by
  have hopen : OpenPart L t (.openSection blobName) .exclRdonly (fun e => ⟨e, 0⟩) (fun n => ⟨0, n⟩)
      (openInternal root blobName .exclRdonly ⟨none, false, 0⟩) s :=
    part_openInternal (opens_open blobName) root blobName
  refine part_bind hopen fun ph r u hr => ?_
  cases hr with
  | opened n => rfl
  | failed e _ =>
    have hneg : -((e : Int) + 1) < 0 := by omega
    simp only [hneg, if_true]
    rfl
  | taken h => cases h

/-- Both levels release the lock of an instance. -/
theorem release_seen (inst : Nat) (w : World ShmSys) (log : List (Option Nat)) :
    Shm.release inst (seen L (w, log)) = seen L ({ w with os := w.os.unlockFd inst }, log) := by
  by_cases h : w.os.locked = some inst <;> simp [Shm.release, seen, view, asShm, ShmSys.unlockFd, h]

/-- The descriptor of an instance is closed where the callback happens. -/
theorem atomic_close (inst : Nat) : Atomic L t (.close inst) (shmClose inst) s := by
  refine part_giveBack (fun _ _ => rfl) (fun _ => rfl) fun self u => ?_
  have hclose : ∀ v, Atomic L t (.close inst) (do
      sysCall (.close inst)
      sysCall .freeSelf
      return 0) v := by
    intro v
    refine part_step fun x _ _ w r heq _ => Or.inr ⟨0, ?_, ?_⟩
    · obtain ⟨rfl, rfl⟩ := Prod.mk.inj heq
      refine effect_of_call ?_ rfl
      rw [show SysOp.decides (.close inst) _ = [] from rfl, List.append_nil]
      exact Prod.ext (release_seen inst x.1 x.2) rfl
    · exact part_giveBack (fun _ _ => rfl) (fun _ => rfl) fun _ _ => rfl
  cases self.addr with
  | none => exact hclose u
  | some size => exact part_giveBack (fun _ _ => rfl) (fun _ => rfl) fun _ => hclose

theorem atomic_lookup (blobName : String) :
    Atomic L t (.lookup blobName) (sysCall (.lookup blobName)) s := by
  refine part_step fun u _ _ w r heq hlog => Or.inr ⟨0, ?_, ?_⟩
  · obtain ⟨rfl, rfl⟩ := Prod.mk.inj heq
    have hcall : shm.call t (.lookup blobName) (seen L u) = (counted (seen L u), 0) := by
      simp only [shm, syscall_ok (errors_of_log hlog)]
    exact effect_of_call (hcall.trans (by rw [counted_seen none]; rfl)) rfl
  · obtain ⟨-, rfl⟩ := Prod.mk.inj heq
    rfl

theorem atomic_lock (inst : Nat) : Atomic L t (.lock inst) (shmLock inst) s := by
  refine part_attempt (fun _ => rfl) (fun u e _ hlog => ?_) fun u w r _ heq hlog => ?_
  · simp only [SysOp.decides, id, outcome_neg] at hlog ⊢
    refine Or.inr ⟨-1, effect_counted ?_, ?_⟩
    · simp [shm, Shm.lock, syscall_fail (errors_of_log hlog)]
    · show some (-1) = some (if -((e : Int) + 1) < 0 then -1 else 0)
      rw [if_pos (by omega)]
  · unfold lockFile at heq
    split at heq
    · rename_i hfree
      obtain ⟨rfl, rfl⟩ := Prod.mk.inj heq
      have hcall : shm.call t (.lock inst) (seen L u)
          = (((counted (seen L u)).1, { (counted (seen L u)).2 with locked := some inst }), 0) := by
        simp only [shm, Shm.lock, syscall_ok (errors_of_log hlog)]
        exact if_pos hfree
      refine Or.inr ⟨0, effect_of_call (hcall.trans ?_) rfl, rfl⟩
      simp [seen, counted, view, asShm, called, SysOp.decides]
    · obtain ⟨rfl, rfl⟩ := Prod.mk.inj heq
      refine Or.inr ⟨-1, effect_counted ?_, rfl⟩
      simp [shm, Shm.lock, syscall_fail (e := 10) (errors_of_log hlog)]

theorem atomic_unlock (inst : Nat) : Atomic L t (.unlock inst) (shmUnlock inst) s := by
  have hstep : ∀ w, sysStep t (.flockUn inst) w
      = attempt w id fun w => ({ w with os := w.os.unlockFd inst }, (0 : Int)) := fun _ => rfl
  refine part_attempt hstep (fun u e _ hlog => ?_) fun u w r _ heq hlog => ?_
  · simp only [SysOp.decides, id, outcome_neg] at hlog ⊢
    refine Or.inr ⟨-1, effect_counted ?_, ?_⟩
    · simp [shm, syscall_fail (errors_of_log hlog)]
    · show some (-1) = some (if -((e : Int) + 1) < 0 then -1 else 0)
      rw [if_pos (by omega)]
  · obtain ⟨rfl, rfl⟩ := Prod.mk.inj heq
    have hcall : shm.call t (.unlock inst) (seen L u)
        = (Shm.release inst (counted (seen L u)), 0) := by
      simp only [shm, syscall_ok (errors_of_log hlog)]
    refine Or.inr ⟨0, effect_of_call (hcall.trans ?_) rfl, rfl⟩
    rw [counted_seen, release_seen]
    rfl

theorem atomic_resize (inst : Nat) : Atomic L t (.resize inst) (shmResize inst) s := by
  refine part_silent fun v _ hsane w self heq => ?_
  obtain ⟨rfl, rfl⟩ := Prod.mk.inj heq
  rw [show SysOp.decides (.loadPriv inst) _ = [] from rfl, List.append_nil]
  refine ⟨rfl, ?_⟩
  refine part_attempt (fun _ => rfl) (fun u e _ hlog => ?_) fun u w r hkept heq hlog => ?_
  · simp only [SysOp.decides, id, outcome_neg] at hlog ⊢
    refine Or.inr ⟨-1, effect_counted ?_, ?_⟩
    · simp [shm, Shm.resize, syscall_fail (errors_of_log hlog)]
    · show some (-1) = some (if -((e : Int) + 1) < 0 then -1 else 0)
      rw [if_pos (by omega)]
  · -- the size was read before, and is still that of the instance
    have hsize := hkept.creationSize inst (hsane.1 inst rfl).1
    unfold truncateFile at heq
    split at heq
    · obtain ⟨rfl, rfl⟩ := Prod.mk.inj heq
      have hcall : shm.call t (.resize inst) (seen L u)
          = ((fun x => if x < (u.1.os.priv inst).creationSize then u.1.mem x else 0,
              { (counted (seen L u)).2 with size := (u.1.os.priv inst).creationSize }), 0) := by
        simp only [shm, Shm.resize, syscall_ok (errors_of_log hlog)]
        rfl
      have hfile : u.1.os.file.isSome = true :=
        u.1.os.isSome_file (((Nat.zero_le _).trans_lt (hsane.1 inst rfl).1).trans_le hkept.nextFd)
      refine Or.inr ⟨0, effect_of_call (hcall.trans ?_) rfl, rfl⟩
      simp [seen, counted, view, asShm, called, SysOp.decides, hsize, hfile]
    · obtain ⟨rfl, rfl⟩ := Prod.mk.inj heq
      refine Or.inr ⟨-1, effect_counted ?_, rfl⟩
      simp [shm, Shm.resize, syscall_fail (e := 21) (errors_of_log hlog)]

theorem atomic_getSection (size : Int) (inst : Nat) :
    Atomic L t (.getSectionStart size inst) (shmGetSection size inst) s := by
  refine part_giveBack (fun _ _ => rfl) (fun _ => rfl) fun self v => ?_
  have hstep : ∀ w, sysStep t (.mmap .getSection size self.writable inst) w
      = attempt w id fun w => ({ w with os := w.os.hold .map 1 }, (0 : Int)) := fun _ => rfl
  refine part_attempt hstep (fun u e _ hlog => ?_) fun u w r _ heq hlog => ?_
  · simp only [SysOp.decides, id, outcome_neg] at hlog ⊢
    refine Or.inr ⟨-((e : Int) + 1), effect_counted ?_, ?_⟩
    · simp [shm, syscall_fail (errors_of_log hlog)]
    · have hneg : -((e : Int) + 1) < 0 := by omega
      simp only [hneg, if_true]
      rfl
  · obtain ⟨rfl, rfl⟩ := Prod.mk.inj heq
    refine Or.inr ⟨0, effect_of_call ?_ rfl, ?_⟩
    · have hcall : shm.call t (.getSectionStart size inst) (seen L u) = (counted (seen L u), 0) := by
        simp only [shm, syscall_ok (errors_of_log hlog)]
      exact hcall.trans (by rw [counted_seen none]; rfl)
    · refine part_giveBack (fun x log => ?_) (fun _ => rfl) fun _ _ => rfl
      simp [sysStep, view, asShm, Function.apply_update fun _ p => ShmPriv.creationSize p]

/-- A file that has a header. -/
theorem readHeader_eq (hsize : 0 < u.1.os.file.getD 0) : shm.call t (.hdrRead inst) (seen L u)
    = Shm.syscall (seen L u) (fun e => ⟨e, []⟩) fun v => (v, ⟨0, v.1.read 0 56⟩) := by
  have hpos : ¬ (seen L u).2.size ≤ 0 := not_le.mpr hsize
  simp only [shm, Shm.readHeader, if_neg hpos]

/-- The size is tested first, and a file never becomes empty again. -/
theorem atomic_readHeader (inst : Nat) :
    Atomic L t (.hdrRead inst) (shmReadHeader inst) s := by
  refine part_step fun u _ _ w r heq _ => ?_
  obtain ⟨rfl, rfl⟩ := Prod.mk.inj heq
  by_cases hsize : u.1.os.file.getD 0 ≤ 0
  · refine Or.inr ⟨⟨-ENOMEM, []⟩, effect_of_call ?_ rfl, ?_⟩
    · have hempty : (seen L u).2.size ≤ 0 := hsize
      simp only [shm, Shm.readHeader, if_pos hempty, SysOp.decides, List.append_nil]
    · rw [if_pos hsize]
      rfl
  · refine goes_quiet rfl ?_
    rw [if_neg hsize]
    have hstep : ∀ w, sysStep t (.mmap .readHeader 8 false inst) w
        = attempt w id fun w => ({ w with os := w.os.hold .map 1 }, (0 : Int)) := fun _ => rfl
    refine part_attempt hstep (fun v e hkept hlog => ?_) fun v w r hkept heq _ => ?_
    · have hneg : -((e : Int) + 1) < 0 := by omega
      simp only [SysOp.decides, id, hneg, if_true, outcome_neg] at hlog ⊢
      refine Or.inr ⟨⟨-((e : Int) + 1), []⟩, effect_counted ?_, rfl⟩
      rw [readHeader_eq (hkept.size (not_le.mp hsize)), syscall_fail (errors_of_log hlog)]
    · obtain ⟨rfl, rfl⟩ := Prod.mk.inj heq
      refine goes_quiet rfl (part_step fun x hkept' _ w r heq hlog => ?_)
      obtain ⟨rfl, rfl⟩ := Prod.mk.inj heq
      refine Or.inr ⟨⟨0, x.1.mem.read 0 56⟩, effect_of_call ?_ rfl, ?_⟩
      · rw [readHeader_eq (hkept'.size (hkept.size (not_le.mp hsize))),
          syscall_ok (errors_of_log hlog)]
        simp [seen, counted, view, asShm, SysOp.decides]
      · exact part_giveBack (fun _ _ => rfl) (fun _ => rfl) fun _ _ => rfl

end Rules

/-! ## Runs -/

theorem sysCall_performs {L : List (Option Nat)} {t : Nat} {o : Op} {s : Logged}
    (ho : ∀ c, o ≠ .backend c) : Performs loggedMachine (machine shm) (SaneStep L)
      (fun s a => a = view L s) (fun s u => Kept s.1.os u.1.os)
      (fun _ s u => Kept s.1.os u.1.os) t o (sysCall (.lib o)) s := by
  refine performs_step ?_ ?_
  · exact fun u hc => step_kept hc.1
  rintro u _ - rfl
  have hquiet : (loggedMachine.step t (.lib o) u).1 = (((machine noBackend).step t o u.1).1, u.2) :=
    Prod.ext rfl (List.append_nil u.2)
  rw [hquiet]
  cases o with
  | backend c => exact absurd rfl (ho c)
  | _ => exact ⟨rfl, rfl⟩

/-- Every callback looks atomic. -/
theorem onShm_implements (root : Option String) (L : List (Option Nat)) :
    Implements loggedMachine (machine shm) (SaneStep L) (fun s a => a = view L s)
      (fun _ s u => Kept s.1.os u.1.os) (fun _ _ s u => Kept s.1.os u.1.os) (fun _ _ => True)
      (onShm root) where
  refl := fun _ s => Kept.refl s.1.os
  trans := fun _ _ _ _ => Kept.trans
  compat := fun _ _ _ _ _ _ => id
  performs := by
    intro t o s _
    cases o with
    | backend c =>
      refine performs_of_runs ?_
      cases c with
      | lookup blobName => exact atomic_lookup blobName
      | create blobName size => exact atomic_create root blobName size
      | openSection blobName => exact atomic_open root blobName
      | close inst => exact atomic_close inst
      | hdrRead inst => exact atomic_readHeader inst
      | getSectionStart size inst => exact atomic_getSection size inst
      | resize inst => exact atomic_resize inst
      | lock inst => exact atomic_lock inst
      | unlock inst => exact atomic_unlock inst
    | _ => exact sysCall_performs (by simp)

variable {α : Type}

/-- Threads of the library over the system calls. -/
def overSyscalls (root : Option String) (pool : Nat → ShdProg α) (w : World ShmSys) :
    Config SysOp.Resp Nat (World ShmSys) α where
  st := w
  pool := fun t => (pool t).implement (onShm root)

/-- The same threads over `shm`. -/
def overShm (errors : Nat → Option Nat) (pool : Nat → ShdProg α) (w : World ShmSys) :
    Config Op.Resp Nat (World Shm) α where
  st := asShm errors 0 w
  pool := pool

/-- **A run over the system calls is a run of `shm`.** Threads run any programs of the library
over `shd_shm.c`, their system calls interleave, and any of them may fail. For some
failures of the callbacks and some schedule, `shm` runs the same programs to the same bytes,
the same heap and the same file, and each thread that returned has returned the same. -/
theorem shm_run (root : Option String) (pool : Nat → ShdProg α) (w : World ShmSys) (ts : List Nat)
    (hm : (overSyscalls root pool w).Meets sysMachine (fun _ o s => Sane o s.os) ts) :
    ∃ (errors : Nat → Option Nat) (us : List Nat), us.Sublist ts ∧
      (∃ calls, ((overShm errors pool w).run (machine shm) us).st
        = asShm errors calls ((overSyscalls root pool w).run sysMachine ts).st) ∧
      ∀ t a, ((overSyscalls root pool w).run sysMachine ts).pool t = .ret a →
        ((overShm errors pool w).run (machine shm) us).pool t = .ret a := by
  -- the failures are the log of the run
  let start : Config SysOp.Resp Nat Logged α :=
    { st := (w, []), pool := (overSyscalls root pool w).pool }
  let L := (start.run loggedMachine ts).st.2
  have hsane : start.Meets loggedMachine (SaneStep L) ts := meets_logged start ts hm
  obtain ⟨us, hus, hst, hret⟩ := implements_run (onShm_implements root L)
    (c := overShm (fun n => L[n]?.join) pool w) rfl (fun t => (pool t).ensures_true) ts hsane
  have hrun : ({ st := (start.run loggedMachine ts).st.1, pool := (start.run loggedMachine ts).pool } :
      Config SysOp.Resp Nat (World ShmSys) α) = (overSyscalls root pool w).run sysMachine ts :=
    logged_run start ts
  refine ⟨_, us, hus, ⟨L.length, ?_⟩, fun t a ha => hret t a ?_⟩
  · rw [hst, ← hrun]
    rfl
  · rw [← hrun] at ha
    exact ha

/-! ## A race -/

/-- No file yet, and one system call that is interrupted. -/
def noFile (interrupted : Nat) : World ShmSys where
  mem := fun _ => 0
  heap := ⟨0, fun _ => false, []⟩
  os :=
    { file := none
      priv := fun _ => ⟨none, false, 0⟩
      nextFd := 0
      isSome_file := fun h => absurd h (Nat.lt_irrefl 0)
      closed := fun _ => false
      locked := none
      held := fun _ => 0
      fails := fun n => if n = interrupted then some 3 else none
      calls := 0 }

/-- Two creators and an opener of one section, which they close. -/
def racers : Nat → ShdProg Int
  | 0 | 1 => do
    match ← create "section" ⟨4, 2, 1, 0⟩ [] none with
    | none => return -1
    | some ctx => closeCtx ctx none
  | 2 => do
    match ← openCtx "section" none with
    | none => return -1
    | some (ctx, _) => closeCtx ctx none
  | _ => .ret 0

def racersSchedule : List Nat := (List.replicate 50 [0, 0, 1, 2]).flatten

/-- The end of the race if the 17th call that may fail does. -/
def racersEnd : Config SysOp.Resp Nat (World ShmSys) Int :=
  (overSyscalls none racers (noFile 16)).run sysMachine racersSchedule

theorem shm_run_racers : ∃ (errors : Nat → Option Nat) (us : List Nat), us.Sublist racersSchedule ∧
    (∃ calls, ((overShm errors racers (noFile 16)).run (machine shm) us).st
      = asShm errors calls racersEnd.st) ∧
    ∀ t a, racersEnd.pool t = .ret a →
      ((overShm errors racers (noFile 16)).run (machine shm) us).pool t = .ret a := by
  have hsane : (overSyscalls none racers (noFile 16)).Meets sysMachine
      (fun _ o s => Sane o s.os) racersSchedule := by decide +kernel
  unfold racersEnd
  exact shm_run none racers (noFile 16) racersSchedule hsane

end Shdata.Core
