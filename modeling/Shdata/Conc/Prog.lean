/-
Shdata.Conc.Prog — programs of atomic steps, and the two ways to run them.

A `Prog` is a tree: it either returns a value or performs ONE operation and
goes on with a program that depends on the operation's response. Nothing
else happens between two operations, so an operation is the unit of
atomicity. A `Machine` gives every operation its effect on a shared state.

The same program text then has two readings:

* `exec` runs it alone from start to end: one call as one step;
* `Config.run` interleaves the programs of a pool of threads along a
  schedule, one operation at a time. A schedule is any list of thread
  names, so "for every interleaving" is "for every list".

`Machine.ghost` adds auxiliary state that watches the operations without
being read by them; `ghost_run` says that it changes nothing.
-/
import Mathlib.Logic.Function.Basic

namespace Shdata.Conc

/-! ## Programs -/

/-- A program over operations `Op`, where operation `o` answers in `Resp o`. -/
inductive Prog {Op : Type} (Resp : Op → Type) (α : Type) : Type where
  | ret (a : α) : Prog Resp α
  | op (o : Op) (k : Resp o → Prog Resp α) : Prog Resp α

namespace Prog

variable {Op : Type} {Resp : Op → Type} {α β : Type}

/-- Sequential composition: graft `f` onto every leaf. -/
def bind : Prog Resp α → (α → Prog Resp β) → Prog Resp β
  | .ret a, f => f a
  | .op o k, f => .op o fun r => (k r).bind f

instance : Monad (Prog Resp) where
  pure := .ret
  bind := Prog.bind

/-- The program that performs one operation and returns its response. -/
def perform (o : Op) : Prog Resp (Resp o) := .op o .ret

theorem pure_eq (a : α) : (pure a : Prog Resp α) = .ret a := rfl

@[simp] theorem ret_bind (a : α) (f : α → Prog Resp β) : (Prog.ret a >>= f) = f a := rfl

@[simp] theorem op_bind (o : Op) (k : Resp o → Prog Resp α) (f : α → Prog Resp β) :
    (Prog.op o k >>= f) = .op o fun r => k r >>= f := rfl

theorem bind_assoc {γ : Type} (p : Prog Resp α) (f : α → Prog Resp β) (g : β → Prog Resp γ) :
    (p >>= f) >>= g = p >>= fun a => f a >>= g := by
  induction p with
  | ret a => rfl
  | op o k ih => simp only [op_bind, ih]

/-- The value of a program that has returned. -/
def returned : Prog Resp α → Option α
  | .ret a => some a
  | .op _ _ => none

theorem eq_ret_of_returned {p : Prog Resp α} {a : α} (h : p.returned = some a) : p = .ret a := by
  cases p with
  | ret b => rw [Option.some.inj h]
  | op o k => exact absurd h (by simp [returned])

/-- What a program does whatever the state is. If every response meets the
assumption `A`, then every operation satisfies `P` and the value returned
satisfies `Q`. -/
def Ensures (A : (o : Op) → Resp o → Prop) (P : Op → Prop) (Q : α → Prop) :
    Prog Resp α → Prop
  | .ret a => Q a
  | .op o k => P o ∧ ∀ r, A o r → Ensures A P Q (k r)

section Ensures

variable {A : (o : Op) → Resp o → Prop} {P : Op → Prop} {Q : α → Prop}

theorem ensures_perform {o : Op} {f : Resp o → Prog Resp α} (ho : P o)
    (h : ∀ r, A o r → (f r).Ensures A P Q) : (perform o >>= f).Ensures A P Q := ⟨ho, h⟩

theorem Ensures.bind {Q' : β → Prop} {p : Prog Resp α} {f : α → Prog Resp β}
    (hp : p.Ensures A P Q) (hf : ∀ a, Q a → (f a).Ensures A P Q') :
    (p >>= f).Ensures A P Q' := by
  induction p with
  | ret a => exact hf a hp
  | op o k ih => exact ⟨hp.1, fun r hr => ih r (hp.2 r hr)⟩

theorem Ensures.mono {P' : Op → Prop} {Q' : α → Prop} {p : Prog Resp α}
    (hp : p.Ensures A P Q) (hP : ∀ o, P o → P' o) (hQ : ∀ a, Q a → Q' a) :
    p.Ensures A P' Q' := by
  induction p with
  | ret a => exact hQ a hp
  | op o k ih => exact ⟨hP o hp.1, fun r hr => ih r (hp.2 r hr)⟩

/-- A stronger assumption about the responses. -/
theorem Ensures.assume {A' : (o : Op) → Resp o → Prop} {p : Prog Resp α}
    (hp : p.Ensures A P Q) (hA : ∀ o r, A' o r → A o r) : p.Ensures A' P Q := by
  induction p with
  | ret a => exact hp
  | op o k ih => exact ⟨hp.1, fun r hr => ih r (hp.2 r (hA o r hr))⟩

theorem ensures_true (p : Prog Resp α) : p.Ensures A (fun _ => True) fun _ => True := by
  induction p with
  | ret a => trivial
  | op o k ih => exact ⟨trivial, fun r _ => ih r⟩

end Ensures

/-- Every operation on every path of the program satisfies `P`, whatever the
responses are. -/
def AllOps (P : Op → Prop) (p : Prog Resp α) : Prop :=
  p.Ensures (fun _ _ => True) P fun _ => True

theorem allOps_op {P : Op → Prop} {o : Op} {k : Resp o → Prog Resp α} :
    (Prog.op o k).AllOps P ↔ P o ∧ ∀ r, (k r).AllOps P := by
  simp only [AllOps, Ensures, forall_const]

theorem AllOps.bind {P : Op → Prop} {p : Prog Resp α} {f : α → Prog Resp β}
    (hp : p.AllOps P) (hf : ∀ a, (f a).AllOps P) : (p >>= f).AllOps P :=
  Ensures.bind hp fun a _ => hf a

theorem AllOps.mono {P P' : Op → Prop} (h : ∀ o, P o → P' o) {p : Prog Resp α}
    (hp : p.AllOps P) : p.AllOps P' :=
  Ensures.mono hp h fun _ hq => hq

end Prog

/-! ## Machines and solo runs -/

/-- The effect of each operation, performed by thread `t`, on a shared state. -/
structure Machine {Op : Type} (Resp : Op → Type) (T σ : Type) where
  step : T → (o : Op) → σ → σ × Resp o

variable {Op : Type} {Resp : Op → Type} {T σ α β : Type}

/-- Run a program alone to its end. -/
def exec (M : Machine Resp T σ) (t : T) : Prog Resp α → σ → α × σ
  | .ret a, s => (a, s)
  | .op o k, s => exec M t (k (M.step t o s).2) (M.step t o s).1

/-- The operations of a solo run, each with the state it found. -/
def ops (M : Machine Resp T σ) (t : T) : Prog Resp α → σ → List (Op × σ)
  | .ret _, _ => []
  | .op o k, s => (o, s) :: ops M t (k (M.step t o s).2) (M.step t o s).1

section Exec

variable (M : Machine Resp T σ) (t : T)

@[simp] theorem exec_ret (a : α) (s : σ) : exec M t (.ret a : Prog Resp α) s = (a, s) := rfl

@[simp] theorem exec_pure (a : α) (s : σ) : exec M t (pure a : Prog Resp α) s = (a, s) := rfl

@[simp] theorem exec_perform (o : Op) (s : σ) :
    exec M t (Prog.perform o : Prog Resp (Resp o)) s = ((M.step t o s).2, (M.step t o s).1) := rfl

@[simp] theorem exec_bind (p : Prog Resp α) (f : α → Prog Resp β) (s : σ) :
    exec M t (p >>= f) s = exec M t (f (exec M t p s).1) (exec M t p s).2 := by
  induction p generalizing s with
  | ret a => rfl
  | op o k ih => exact ih _ _

theorem ops_bind (p : Prog Resp α) (f : α → Prog Resp β) (s : σ) :
    ops M t (p >>= f) s
      = ops M t p s ++ ops M t (f (exec M t p s).1) (exec M t p s).2 := by
  induction p generalizing s with
  | ret a => rfl
  | op o k ih => exact congrArg _ (ih _ _)

/-- What a program ensures holds of its solo run, if an invariant of the run makes
every response meet the assumption. -/
theorem exec_ensures {A : (o : Op) → Resp o → Prop} {P : Op → Prop} {Q : α → Prop} {I : σ → Prop}
    (hI : ∀ o s, P o → I s → I (M.step t o s).1 ∧ A o (M.step t o s).2) {p : Prog Resp α}
    (hp : p.Ensures A P Q) {s : σ} (hs : I s) :
    Q (exec M t p s).1 ∧ I (exec M t p s).2 := by
  induction p generalizing s with
  | ret a => exact ⟨hp, hs⟩
  | op o k ih =>
    obtain ⟨hs', hA⟩ := hI o s hp.1 hs
    exact ih _ (hp.2 _ hA) hs'

/-- A solo run returns what the program ensures under every response. -/
theorem exec_value {P : Op → Prop} {Q : α → Prop} {p : Prog Resp α}
    (hp : p.Ensures (fun _ _ => True) P Q) (s : σ) : Q (exec M t p s).1 :=
  (exec_ensures M t (I := fun _ => True) (fun _ _ _ _ => ⟨trivial, trivial⟩) hp trivial).1

/-- A program whose operations all keep an invariant keeps it as a whole. -/
theorem exec_inv {P : Op → Prop} {I : σ → Prop}
    (hI : ∀ o s, P o → I s → I (M.step t o s).1) {p : Prog Resp α} (hp : p.AllOps P)
    {s : σ} (hs : I s) : I (exec M t p s).2 :=
  (exec_ensures M t (fun o s ho h => ⟨hI o s ho h, trivial⟩) hp hs).2

/-- Every operation that a solo run performs is an operation of the program. -/
theorem ops_all {P : Op → Prop} {p : Prog Resp α} (hp : p.AllOps P) {s : σ} :
    ∀ e ∈ ops M t p s, P e.1 := by
  induction p generalizing s with
  | ret a => intro e he; simp [ops] at he
  | op o k ih =>
    intro e he
    rcases List.mem_cons.mp he with rfl | he
    · exact hp.1
    · exact ih _ ((Prog.allOps_op.mp hp).2 _) e he

/-- What a program ensures about its operations, and the invariant, hold at every
step of its solo run. -/
theorem ops_ensures {A : (o : Op) → Resp o → Prop} {P : Op → Prop} {Q : α → Prop} {I : σ → Prop}
    (hI : ∀ o s, P o → I s → I (M.step t o s).1 ∧ A o (M.step t o s).2) {p : Prog Resp α}
    (hp : p.Ensures A P Q) {s : σ} (hs : I s) : ∀ e ∈ ops M t p s, P e.1 ∧ I e.2 := by
  induction p generalizing s with
  | ret a => intro e he; simp [ops] at he
  | op o k ih =>
    intro e he
    obtain ⟨hs', hA⟩ := hI o s hp.1 hs
    rcases List.mem_cons.mp he with rfl | he
    · exact ⟨hp.1, hs⟩
    · exact ih _ (hp.2 _ hA) hs' e he

theorem mem_ops_bind {p : Prog Resp α} {f : α → Prog Resp β} {s : σ} {e : Op × σ} :
    e ∈ ops M t (p >>= f) s ↔
      e ∈ ops M t p s ∨ e ∈ ops M t (f (exec M t p s).1) (exec M t p s).2 := by
  rw [ops_bind, List.mem_append]

end Exec

/-! ## Pools of threads -/

/-- A shared state and the remaining program of every thread. -/
structure Config {Op : Type} (Resp : Op → Type) (T σ α : Type) where
  st : σ
  pool : T → Prog Resp α

namespace Config

variable [DecidableEq T]

/-- Thread `t` performs its next operation; a finished thread does nothing. -/
def tick (M : Machine Resp T σ) (t : T) (c : Config Resp T σ α) : Config Resp T σ α :=
  match c.pool t with
  | .ret _ => c
  | .op o k =>
      { st := (M.step t o c.st).1
        pool := Function.update c.pool t (k (M.step t o c.st).2) }

/-- Run a pool along a schedule. -/
def run (M : Machine Resp T σ) : Config Resp T σ α → List T → Config Resp T σ α
  | c, [] => c
  | c, t :: ts => run M (c.tick M t) ts

theorem run_append (M : Machine Resp T σ) (c : Config Resp T σ α) (ts us : List T) :
    c.run M (ts ++ us) = (c.run M ts).run M us := by
  induction ts generalizing c with
  | nil => rfl
  | cons t ts ih => exact ih _

/-- The next operation of thread `t`, if it has one, satisfies `C` in the
current state. -/
def Next (C : T → Op → σ → Prop) (t : T) (c : Config Resp T σ α) : Prop :=
  match c.pool t with
  | .ret _ => True
  | .op o _ => C t o c.st

/-- Every step of the run along the schedule meets the condition `C`, read in
the state before the step. -/
def Meets (M : Machine Resp T σ) (C : T → Op → σ → Prop) :
    Config Resp T σ α → List T → Prop
  | _, [] => True
  | c, t :: ts => c.Next C t ∧ Meets M C (c.tick M t) ts

instance {C : T → Op → σ → Prop} [∀ t o s, Decidable (C t o s)] (t : T)
    (c : Config Resp T σ α) : Decidable (c.Next C t) := by
  unfold Next
  exact match c.pool t with
  | .ret _ => isTrue trivial
  | .op o _ => inferInstanceAs (Decidable (C t o c.st))

/-- A condition that can be tested can be tested along a schedule. -/
instance decidableMeets (M : Machine Resp T σ) (C : T → Op → σ → Prop)
    [∀ t o s, Decidable (C t o s)] :
    (c : Config Resp T σ α) → (ts : List T) → Decidable (c.Meets M C ts)
  | _, [] => isTrue trivial
  | c, t :: ts =>
    have := decidableMeets M C (c.tick M t) ts
    inferInstanceAs (Decidable (c.Next C t ∧ Meets M C (c.tick M t) ts))

theorem tick_ret {M : Machine Resp T σ} {t : T} {c : Config Resp T σ α} {a : α}
    (h : c.pool t = .ret a) : c.tick M t = c := by
  simp [tick, h]

theorem tick_op {M : Machine Resp T σ} {t : T} {c : Config Resp T σ α} {o : Op}
    {k : Resp o → Prog Resp α} (h : c.pool t = .op o k) :
    c.tick M t = { st := (M.step t o c.st).1
                   pool := Function.update c.pool t (k (M.step t o c.st).2) } := by
  simp [tick, h]

omit [DecidableEq T] in
theorem next_op {C : T → Op → σ → Prop} {t : T} {c : Config Resp T σ α} {o : Op}
    {k : Resp o → Prog Resp α} (h : c.pool t = .op o k) (hn : c.Next C t) : C t o c.st := by
  simpa [Next, h] using hn

/-- A thread that runs alone performs the operations of its solo run. -/
theorem meets_replicate {M : Machine Resp T σ} {C : T → Op → σ → Prop} {t : T}
    {c : Config Resp T σ α} {n : Nat} : c.Meets M C (List.replicate n t) ↔
      ∀ e ∈ (ops M t (c.pool t) c.st).take n, C t e.1 e.2 := by
  induction n generalizing c with
  | zero => simp [Meets]
  | succ n ih =>
    rw [List.replicate_succ, Meets, ih]
    cases hp : c.pool t with
    | ret a => simp [Next, tick_ret hp, hp, ops]
    | op o k => simp [Next, tick_op hp, hp, ops]

theorem meets_append {M : Machine Resp T σ} {C : T → Op → σ → Prop} {c : Config Resp T σ α}
    {ts us : List T} :
    c.Meets M C (ts ++ us) ↔ c.Meets M C ts ∧ (c.run M ts).Meets M C us := by
  induction ts generalizing c with
  | nil => exact ⟨fun h => ⟨trivial, h⟩, And.right⟩
  | cons t ts ih => exact (and_congr_right fun _ => ih).trans and_assoc.symm

/-- A thread that is not scheduled stays where it is. -/
theorem pool_of_notMem (M : Machine Resp T σ) {c : Config Resp T σ α} {t : T} {ts : List T}
    (h : t ∉ ts) : (c.run M ts).pool t = c.pool t := by
  induction ts generalizing c with
  | nil => rfl
  | cons u ts ih =>
    obtain ⟨hu, hts⟩ := not_or.mp (mt List.mem_cons.mpr h)
    refine (ih hts).trans ?_
    cases hp : c.pool u with
    | ret a => rw [tick_ret hp]
    | op o k =>
      rw [tick_op hp]
      exact Function.update_of_ne hu _ _

/-- The condition that always holds restricts no run. -/
theorem meets_true (M : Machine Resp T σ) (c : Config Resp T σ α) (ts : List T) :
    c.Meets M (fun _ _ _ => True) ts := by
  induction ts generalizing c with
  | nil => trivial
  | cons t ts ih => exact ⟨by unfold Next; split <;> trivial, ih _⟩

/-- A condition that all steps of the scheduled threads meet. -/
theorem meets_of_mem {M : Machine Resp T σ} {C : T → Op → σ → Prop} {c : Config Resp T σ α}
    {ts : List T} (h : ∀ t ∈ ts, ∀ o s, C t o s) : c.Meets M C ts := by
  induction ts generalizing c with
  | nil => trivial
  | cons t ts ih =>
    refine ⟨?_, ih fun u hu => h u (List.mem_cons_of_mem t hu)⟩
    unfold Next
    split
    · trivial
    · exact h t List.mem_cons_self _ _

/-- Two conditions on the steps of a run. -/
theorem meets_and {M : Machine Resp T σ} {C D : T → Op → σ → Prop} {c : Config Resp T σ α}
    {ts : List T} (hC : c.Meets M C ts) (hD : c.Meets M D ts) :
    c.Meets M (fun t o s => C t o s ∧ D t o s) ts := by
  induction ts generalizing c with
  | nil => trivial
  | cons t ts ih =>
    refine ⟨?_, ih hC.2 hD.2⟩
    have hc := hC.1
    have hd := hD.1
    unfold Next at *
    split
    · trivial
    · rename_i o k hp
      rw [hp] at hc hd
      exact ⟨hc, hd⟩

theorem meets_mono {M : Machine Resp T σ} {C D : T → Op → σ → Prop}
    (hCD : ∀ t o s, C t o s → D t o s) {c : Config Resp T σ α} {ts : List T}
    (h : c.Meets M C ts) : c.Meets M D ts := by
  induction ts generalizing c with
  | nil => trivial
  | cons t ts ih =>
    refine ⟨?_, ih h.2⟩
    have hc := h.1
    unfold Next at *
    split
    · trivial
    · rename_i o k hp
      rw [hp] at hc
      exact hCD t o c.st hc

theorem meets_forall {ι : Type} {M : Machine Resp T σ} {C : ι → T → Op → σ → Prop}
    {c : Config Resp T σ α} {ts : List T} (h : ∀ i, c.Meets M (C i) ts) :
    c.Meets M (fun t o s => ∀ i, C i t o s) ts := by
  induction ts generalizing c with
  | nil => trivial
  | cons t ts ih =>
    refine ⟨?_, ih fun i => (h i).2⟩
    unfold Next
    split
    · trivial
    · exact fun i => next_op ‹_› (h i).1

/-- What a program does whatever the state is, along any schedule and beside
any other threads. The condition `C` on the state before a step is what makes
its response meet the assumption. -/
theorem meets_of_ensures {M : Machine Resp T σ} {A : (o : Op) → Resp o → Prop} {P : Op → Prop}
    {Q : α → Prop} {C : T → Op → σ → Prop} {t : T}
    (hC : ∀ o s, C t o s → A o (M.step t o s).2) {c : Config Resp T σ α}
    (h : (c.pool t).Ensures A P Q) {ts : List T} (hm : c.Meets M C ts) :
    c.Meets M (fun u o _ => u = t → P o) ts := by
  induction ts generalizing c with
  | nil => trivial
  | cons u ts ih =>
    obtain ⟨hn, hm⟩ := hm
    cases hp : c.pool u with
    | ret a =>
      refine ⟨by simp [Next, hp], ?_⟩
      rw [tick_ret hp] at hm ⊢
      exact ih h hm
    | op o k =>
      by_cases hu : u = t
      · subst hu
        rw [hp] at h
        refine ⟨by simpa [Next, hp] using h.1, ih ?_ hm⟩
        rw [tick_op hp]
        simpa using h.2 _ (hC o c.st (next_op hp hn))
      · refine ⟨by simp [Next, hp, hu], ih ?_ hm⟩
        rw [tick_op hp]
        simpa [Function.update_of_ne (Ne.symm hu)] using h

/-- The same of a pool whose programs all ensure it. -/
theorem meets_of_ensures_all {M : Machine Resp T σ} {A : (o : Op) → Resp o → Prop}
    {P : Op → Prop} {Q : α → Prop} {C : T → Op → σ → Prop}
    (hC : ∀ t o s, C t o s → A o (M.step t o s).2) {c : Config Resp T σ α}
    (h : ∀ t, (c.pool t).Ensures A P Q) {ts : List T} (hm : c.Meets M C ts) :
    c.Meets M (fun _ o _ => P o) ts :=
  meets_mono (fun u _ _ hP => hP u rfl)
    (meets_forall fun t => meets_of_ensures (t := t) (hC t) (h t) hm)

/-- An invariant of the state that makes every response meet the assumption holds at each
step of a pool. -/
theorem meets_invariant {M : Machine Resp T σ} {A : (o : Op) → Resp o → Prop} {P : Op → Prop}
    {Q : α → Prop} {I : σ → Prop}
    (hI : ∀ t o s, P o → I s → I (M.step t o s).1 ∧ A o (M.step t o s).2)
    {c : Config Resp T σ α} (h : ∀ t, (c.pool t).Ensures A P Q) (hs : I c.st) (ts : List T) :
    c.Meets M (fun _ _ s => I s) ts := by
  induction ts generalizing c with
  | nil => trivial
  | cons u ts ih =>
    refine ⟨by unfold Next; split <;> trivial, ?_⟩
    cases hp : c.pool u with
    | ret a =>
      rw [tick_ret hp]
      exact ih h hs
    | op o k =>
      have hu := h u
      rw [hp] at hu
      obtain ⟨hs', hA⟩ := hI u o c.st hu.1 hs
      rw [tick_op hp]
      refine ih (fun t => ?_) hs'
      by_cases ht : t = u
      · subst ht
        simpa using hu.2 _ hA
      · simpa [Function.update_of_ne ht] using h t

end Config

/-! ## Auxiliary state -/

/-- The machine that also keeps an auxiliary state, updated by `g` after each
operation from the state the operation found and its response. -/
def Machine.ghost {γ : Type} (M : Machine Resp T σ)
    (g : T → (o : Op) → σ → Resp o → γ → γ) : Machine Resp T (σ × γ) where
  step t o s := (((M.step t o s.1).1, g t o s.1 (M.step t o s.1).2 s.2), (M.step t o s.1).2)

section Ghost

variable {γ : Type} (M : Machine Resp T σ) (g : T → (o : Op) → σ → Resp o → γ → γ)

/-- A solo run with auxiliary state returns the same value and state. -/
theorem ghost_exec (t : T) (p : Prog Resp α) (s : σ × γ) :
    ((exec (M.ghost g) t p s).1, (exec (M.ghost g) t p s).2.1) = exec M t p s.1 := by
  induction p generalizing s with
  | ret a => rfl
  | op o k ih => exact ih _ _

/-- Auxiliary state is never read: without it the run is the same. -/
theorem ghost_run [DecidableEq T] (c : Config Resp T (σ × γ) α) (ts : List T) :
    ({ st := (c.run (M.ghost g) ts).st.1, pool := (c.run (M.ghost g) ts).pool } :
        Config Resp T σ α)
      = ({ st := c.st.1, pool := c.pool } : Config Resp T σ α).run M ts := by
  induction ts generalizing c with
  | nil => rfl
  | cons t ts ih =>
    simp only [Config.run]
    rw [ih]
    cases h : c.pool t with
    | ret a => rw [Config.tick_ret h, Config.tick_ret (by exact h)]
    | op o k => rw [Config.tick_op h, Config.tick_op (by exact h)]; rfl

/-- A condition that does not read it is met by both runs or by none. -/
theorem ghost_meets [DecidableEq T] {C : T → Op → σ → Prop} (c : Config Resp T (σ × γ) α)
    (ts : List T) : c.Meets (M.ghost g) (fun t o s => C t o s.1) ts ↔
      ({ st := c.st.1, pool := c.pool } : Config Resp T σ α).Meets M C ts := by
  induction ts generalizing c with
  | nil => exact Iff.rfl
  | cons t ts ih =>
    refine and_congr Iff.rfl ?_
    rw [ih]
    cases h : c.pool t with
    | ret a => rw [Config.tick_ret h, Config.tick_ret (by exact h)]
    | op o k => rw [Config.tick_op h, Config.tick_op (by exact h)]; rfl

end Ghost

section Log

variable {β : Type} {M : Machine Resp T σ} {new : T → (o : Op) → σ → Resp o → List β}
  [DecidableEq T]

/-- Auxiliary state that is a log, to which an operation may add. -/
def Machine.logged (M : Machine Resp T σ) (new : T → (o : Op) → σ → Resp o → List β) :
    Machine Resp T (σ × List β) :=
  M.ghost fun t o s r log => log ++ new t o s r

/-- The log is never read. -/
theorem logged_run (c : Config Resp T (σ × List β) α) (ts : List T) :
    ({ st := (c.run (M.logged new) ts).st.1, pool := (c.run (M.logged new) ts).pool } :
        Config Resp T σ α)
      = ({ st := c.st.1, pool := c.pool } : Config Resp T σ α).run M ts :=
  ghost_run M _ c ts

theorem log_prefix (c : Config Resp T (σ × List β) α) (ts : List T) :
    c.st.2 <+: (c.run (M.logged new) ts).st.2 := by
  induction ts generalizing c with
  | nil => exact List.prefix_rfl
  | cons t ts ih =>
    refine List.IsPrefix.trans ?_ (ih _)
    cases hp : c.pool t with
    | ret a => simp [Config.tick_ret hp]
    | op o k =>
      rw [Config.tick_op hp]
      exact List.prefix_append _ _

/-- What a step adds to the log is still there when the run ends. -/
theorem meets_log (c : Config Resp T (σ × List β) α) (ts : List T) :
    c.Meets (M.logged new) (fun t o s => ((M.logged new).step t o s).1.2 <+:
      (c.run (M.logged new) ts).st.2) ts := by
  induction ts generalizing c with
  | nil => trivial
  | cons t ts ih =>
    refine ⟨?_, ih _⟩
    unfold Config.Next
    split
    · trivial
    · rename_i o k hp
      have htick : (c.tick (M.logged new) t).st.2 <+:
          ((c.tick (M.logged new) t).run (M.logged new) ts).st.2 := log_prefix _ ts
      rw [Config.tick_op hp] at htick
      simpa [Config.run, Config.tick_op hp] using htick

/-- A condition on the state, and the log of the whole run. -/
theorem meets_logged {C : T → Op → σ → Prop} (c : Config Resp T (σ × List β) α) (ts : List T)
    (hm : ({ st := c.st.1, pool := c.pool } : Config Resp T σ α).Meets M C ts) :
    c.Meets (M.logged new) (fun t o s => C t o s.1 ∧ ((M.logged new).step t o s).1.2 <+:
      (c.run (M.logged new) ts).st.2) ts :=
  Config.meets_and ((ghost_meets M _ c ts).mpr hm) (meets_log c ts)

end Log

end Shdata.Conc
