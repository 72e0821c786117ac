/-
Shdata.Conc.Trace — what a program did, as the list of its operations.

`Yields p tr a`: against some environment `p` performs the operations of `tr`,
gets the responses recorded there, and returns `a`. Nothing is said about
where the responses come from, so a fact about every `Yields` holds beside
any other threads, under any interference.

`yields_run` says that this covers the threads of a pool: what a thread did
along a schedule is such a trace of its program.
-/
import Shdata.Conc.Prog

namespace Shdata.Conc

variable {Op : Type} {Resp : Op → Type} {T σ α β : Type}

/-! ## Traces of a program -/

/-- An operation and the response that it got. -/
abbrev Event {Op : Type} (Resp : Op → Type) := Sigma Resp

namespace Prog

/-- The program performs the operations of the trace and returns. -/
def Yields : Prog Resp α → List (Event Resp) → α → Prop
  | .ret a, tr, b => tr = [] ∧ b = a
  | .op o k, tr, b => ∃ r tr', tr = ⟨o, r⟩ :: tr' ∧ (k r).Yields tr' b

theorem yields_pure {a b : α} {tr : List (Event Resp)} :
    (pure a : Prog Resp α).Yields tr b ↔ tr = [] ∧ b = a := Iff.rfl

theorem yields_perform {o : Op} {f : Resp o → Prog Resp α} {tr : List (Event Resp)} {b : α} :
    (perform o >>= f).Yields tr b ↔ ∃ r tr', tr = ⟨o, r⟩ :: tr' ∧ (f r).Yields tr' b := Iff.rfl

theorem yields_bind {p : Prog Resp α} {f : α → Prog Resp β} {tr : List (Event Resp)} {b : β} :
    (p >>= f).Yields tr b ↔
      ∃ tr₁ a tr₂, p.Yields tr₁ a ∧ (f a).Yields tr₂ b ∧ tr = tr₁ ++ tr₂ := by
  induction p generalizing tr with
  | ret a =>
    constructor
    · intro h
      exact ⟨[], a, tr, ⟨rfl, rfl⟩, h, rfl⟩
    · rintro ⟨tr₁, a', tr₂, ⟨rfl, rfl⟩, h, rfl⟩
      exact h
  | op o k ih =>
    constructor
    · rintro ⟨r, tr', rfl, h⟩
      obtain ⟨tr₁, a, tr₂, h₁, h₂, rfl⟩ := ih r |>.mp h
      exact ⟨⟨o, r⟩ :: tr₁, a, tr₂, ⟨r, tr₁, rfl, h₁⟩, h₂, rfl⟩
    · rintro ⟨tr₁, a, tr₂, ⟨r, tr', rfl, h₁⟩, h₂, rfl⟩
      exact ⟨r, tr' ++ tr₂, rfl, (ih r).mpr ⟨tr', a, tr₂, h₁, h₂, rfl⟩⟩

/-- What a program ensures, it ensures on every trace. -/
theorem Ensures.yields {A : (o : Op) → Resp o → Prop} {P : Op → Prop} {Q : α → Prop}
    {p : Prog Resp α} (h : p.Ensures A P Q) {tr : List (Event Resp)} {a : α}
    (hy : p.Yields tr a) (hA : ∀ e ∈ tr, A e.1 e.2) : Q a ∧ ∀ e ∈ tr, P e.1 := by
  induction p generalizing tr with
  | ret b =>
    obtain ⟨rfl, rfl⟩ := hy
    exact ⟨h, fun e he => absurd he List.not_mem_nil⟩
  | op o k ih =>
    obtain ⟨r, tr', rfl, hy⟩ := hy
    obtain ⟨hQ, hP⟩ := ih r (h.2 r (hA ⟨o, r⟩ List.mem_cons_self)) hy
      fun e he => hA e (List.mem_cons_of_mem _ he)
    refine ⟨hQ, fun e he => ?_⟩
    rcases List.mem_cons.mp he with rfl | he
    · exact h.1
    · exact hP e he

end Prog

/-! ## Traces of a thread -/

/-- What a solo run did. -/
def execTrace (M : Machine Resp T σ) (t : T) : Prog Resp α → σ → List (Event Resp)
  | .ret _, _ => []
  | .op o k, s => ⟨o, (M.step t o s).2⟩ :: execTrace M t (k (M.step t o s).2) (M.step t o s).1

theorem yields_exec (M : Machine Resp T σ) (t : T) (p : Prog Resp α) (s : σ) :
    p.Yields (execTrace M t p s) (exec M t p s).1 := by
  induction p generalizing s with
  | ret a => exact ⟨rfl, rfl⟩
  | op o k ih => exact ⟨_, _, rfl, ih _ _⟩

section Pool

variable [DecidableEq T]

/-- What thread `t` did along a schedule. -/
def Config.trace (M : Machine Resp T σ) (t : T) : Config Resp T σ α → List T → List (Event Resp)
  | _, [] => []
  | c, u :: us =>
    match c.pool u with
    | .ret _ => trace M t (c.tick M u) us
    | .op o _ =>
      if u = t then ⟨o, (M.step u o c.st).2⟩ :: trace M t (c.tick M u) us
      else trace M t (c.tick M u) us

theorem yields_run (M : Machine Resp T σ) (t : T) (c : Config Resp T σ α) (ts : List T) {a : α}
    (h : (c.run M ts).pool t = .ret a) : (c.pool t).Yields (c.trace M t ts) a := by
  induction ts generalizing c with
  | nil =>
    change c.pool t = .ret a at h
    rw [h]
    exact ⟨rfl, rfl⟩
  | cons u us ih =>
    have hrest := ih (c.tick M u) h
    unfold Config.trace
    cases hp : c.pool u with
    | ret b =>
      rw [Config.tick_ret hp] at hrest ⊢
      exact hrest
    | op o k =>
      dsimp only
      have hupd : (c.tick M u).pool t
          = Function.update c.pool u (k (M.step u o c.st).2) t := by rw [Config.tick_op hp]
      by_cases hu : u = t
      · subst hu
        rw [hupd, Function.update_self] at hrest
        rw [if_pos rfl, hp]
        exact ⟨_, _, rfl, hrest⟩
      · rw [hupd, Function.update_of_ne (Ne.symm hu)] at hrest
        rw [if_neg hu]
        exact hrest

/-- An invariant of the whole pool decides what the trace of one thread can hold:
`E s e` is what an operation of any thread does from a state `s`. -/
theorem trace_inv {M : Machine Resp T σ} {I : List (Event Resp) → σ → Prop}
    (hother : ∀ u o s tr, I tr (M.step u o s).1 → I tr s)
    (hown : ∀ u o s tr, I tr (M.step u o s).1 → I (⟨o, (M.step u o s).2⟩ :: tr) s)
    (hnil : ∀ s, I [] s) (t : T) (c : Config Resp T σ α) (ts : List T) :
    I (c.trace M t ts) c.st := by
  induction ts generalizing c with
  | nil => exact hnil _
  | cons u us ih =>
    have hrest := ih (c.tick M u)
    unfold Config.trace
    cases hp : c.pool u with
    | ret b =>
      rw [Config.tick_ret hp] at hrest ⊢
      exact hrest
    | op o k =>
      rw [Config.tick_op hp] at hrest ⊢
      dsimp only at hrest ⊢
      by_cases hu : u = t
      · rw [if_pos hu]
        exact hown _ _ _ _ hrest
      · rw [if_neg hu]
        exact hother _ _ _ _ hrest

end Pool

end Shdata.Conc
