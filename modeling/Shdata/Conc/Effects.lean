/-
Shdata.Conc.Effects — programs with a second kind of operations.

Some steps of a program touch nothing that is shared, and yet one wants to
speak of them: an allocation, a division. Here they are operations of a
second kind, `O₂`, beside the atomic ones of `O₁`, each with an answer that
depends on the operation only.

`Prog.answer` puts the answers in and leaves a program over `O₁`. It
commutes with sequential composition (`answer_bind`), so a program is
compared with its plain text one construct at a time. `Ensures.of_answer`
carries over what is known of the plain text, `run_answer` and
`run_of_answer` say that both texts have the same runs.
-/
import Shdata.Conc.Prog

namespace Shdata.Conc

variable {O₁ O₂ : Type} {R₁ : O₁ → Type} {R₂ : O₂ → Type} {α β : Type}

namespace Prog

/-- A program that makes no use of the second kind of operations. -/
def inl : Prog R₁ α → Prog (Sum.elim R₁ R₂) α
  | .ret a => .ret a
  | .op o k => .op (.inl o) fun r => (k r).inl

/-- Put in the answers to the second kind of operations. -/
def answer (h : (o : O₂) → R₂ o) : Prog (Sum.elim R₁ R₂) α → Prog R₁ α
  | .ret a => .ret a
  | .op (.inl o) k => .op o fun r => (k r).answer h
  | .op (.inr o) k => (k (h o)).answer h

section Answer

variable (h : (o : O₂) → R₂ o)

@[simp] theorem answer_ret (a : α) :
    (.ret a : Prog (Sum.elim R₁ R₂) α).answer h = .ret a := rfl

@[simp] theorem answer_inl (p : Prog R₁ α) :
    (p.inl : Prog (Sum.elim R₁ R₂) α).answer h = p := by
  induction p with
  | ret a => rfl
  | op o k ih => exact congrArg _ (funext ih)

@[simp] theorem answer_bind (p : Prog (Sum.elim R₁ R₂) α) (f : α → Prog (Sum.elim R₁ R₂) β) :
    (p >>= f).answer h = p.answer h >>= fun a => (f a).answer h := by
  induction p with
  | ret a => rfl
  | op o k ih =>
    cases o with
    | inl o => exact congrArg _ (funext ih)
    | inr o => exact ih (h o)

@[simp] theorem answer_ite {c : Prop} [Decidable c] (p q : Prog (Sum.elim R₁ R₂) α) :
    (if c then p else q).answer h = if c then p.answer h else q.answer h := by
  split <;> rfl

end Answer

/-- What a plain program ensures it still ensures among the others. -/
theorem Ensures.inl {A : (o : O₁) → R₁ o → Prop} {P : O₁ → Prop} {Q : α → Prop}
    {A' : (o : O₁ ⊕ O₂) → Sum.elim R₁ R₂ o → Prop} {P' : O₁ ⊕ O₂ → Prop}
    (hA : ∀ o r, A' (.inl o) r → A o r) (hP : ∀ o, P o → P' (.inl o)) {p : Prog R₁ α}
    (hp : p.Ensures A P Q) : (p.inl : Prog (Sum.elim R₁ R₂) α).Ensures A' P' Q := by
  induction p with
  | ret a => exact hp
  | op o k ih => exact ⟨hP o hp.1, fun r hr => ih r (hp.2 r (hA o r hr))⟩

/-- What is assumed of the responses, when those of the second kind are known. -/
def Answered (h : (o : O₂) → R₂ o) (A : (o : O₁) → R₁ o → Prop) :
    (o : O₁ ⊕ O₂) → Sum.elim R₁ R₂ o → Prop
  | .inl o, r => A o r
  | .inr o, r => r = h o

/-- What the plain program ensures, the program ensures of its operations of the first kind. -/
theorem Ensures.of_answer {h : (o : O₂) → R₂ o} {A : (o : O₁) → R₁ o → Prop} {P : O₁ → Prop}
    {Q : α → Prop} {p : Prog (Sum.elim R₁ R₂) α} (hp : (p.answer h).Ensures A P Q) :
    p.Ensures (Answered h A) (Sum.elim P fun _ => True) Q := by
  induction p with
  | ret a => exact hp
  | op o k ih =>
    cases o with
    | inl o => exact ⟨hp.1, fun r hr => ih r (hp.2 r hr)⟩
    | inr o => exact ⟨trivial, fun r hr => ih r (hr ▸ hp)⟩

end Prog

/-! ## Runs -/

variable {T σ : Type}

/-- The machine that answers the second kind of operations as well. -/
def Machine.answering (M : Machine R₁ T σ) (h : (o : O₂) → R₂ o) :
    Machine (Sum.elim R₁ R₂) T σ where
  step t o s := match o with
    | .inl o => M.step t o s
    | .inr o => (s, h o)

/-- The same pool of plain programs. -/
def Config.answer (h : (o : O₂) → R₂ o) (c : Config (Sum.elim R₁ R₂) T σ α) :
    Config R₁ T σ α where
  st := c.st
  pool := fun t => (c.pool t).answer h

section Runs

variable [DecidableEq T] {M : Machine R₁ T σ} {h : (o : O₂) → R₂ o}

/-- A step that touches the shared state is one of the plain pool. -/
theorem tick_answer_inl {c : Config (Sum.elim R₁ R₂) T σ α} {t : T} {o : O₁}
    {k : R₁ o → Prog (Sum.elim R₁ R₂) α} (hp : c.pool t = .op (.inl o) k) :
    (c.tick (M.answering h) t).answer h = (c.answer h).tick M t := by
  have hplain : (c.answer h).pool t = .op o fun r => (k r).answer h := by
    simp only [Config.answer, hp, Prog.answer]
  rw [Config.tick_op hp, Config.tick_op hplain]
  refine congrArg (Config.mk _) (funext fun u => ?_)
  by_cases hu : u = t
  · subst hu
    simp only [Function.update_self]
    rfl
  · simp only [Function.update_of_ne hu, Config.answer]

/-- Any other step is no step there. -/
theorem tick_answer_inr {c : Config (Sum.elim R₁ R₂) T σ α} {t : T} {o : O₂}
    {k : R₂ o → Prog (Sum.elim R₁ R₂) α} (hp : c.pool t = .op (.inr o) k) :
    (c.tick (M.answering h) t).answer h = c.answer h := by
  rw [Config.tick_op hp]
  refine congrArg (Config.mk _) (funext fun u => ?_)
  by_cases hu : u = t
  · subst hu
    simp only [Function.update_self, hp, Prog.answer]
    rfl
  · simp only [Function.update_of_ne hu]

/-- A run is one of the plain pool, along some of its schedule. -/
theorem run_answer (c : Config (Sum.elim R₁ R₂) T σ α) (ts : List T) :
    ∃ us, us.Sublist ts ∧ (c.run (M.answering h) ts).answer h = (c.answer h).run M us := by
  induction ts generalizing c with
  | nil => exact ⟨[], List.Sublist.refl [], rfl⟩
  | cons t ts ih =>
    obtain ⟨us, hsub, hrun⟩ := ih (c.tick (M.answering h) t)
    rw [Config.run, hrun]
    rcases hp : c.pool t with a | ⟨o | o, k⟩
    · rw [Config.tick_ret hp]
      exact ⟨us, hsub.cons t, rfl⟩
    · rw [tick_answer_inl hp]
      exact ⟨t :: us, hsub.cons_cons t, rfl⟩
    · rw [tick_answer_inr hp]
      exact ⟨us, hsub.cons t, rfl⟩

/-- A step of the plain pool takes one or more steps. -/
theorem tick_of_answer (c : Config (Sum.elim R₁ R₂) T σ α) (t : T) :
    ∃ n, (c.run (M.answering h) (List.replicate n t)).answer h = (c.answer h).tick M t := by
  obtain ⟨p, hp⟩ : ∃ p, c.pool t = p := ⟨_, rfl⟩
  induction p generalizing c with
  | ret a =>
    refine ⟨0, ?_⟩
    rw [Config.tick_ret (a := a) (by simp only [Config.answer, hp, Prog.answer])]
    rfl
  | op o k ih =>
    cases o with
    | inl o => exact ⟨1, tick_answer_inl hp⟩
    | inr o =>
      have hnext : (c.tick (M.answering h) t).pool t = k (h o) := by
        rw [Config.tick_op hp]
        exact Function.update_self t _ c.pool
      obtain ⟨n, hn⟩ := ih _ (c.tick (M.answering h) t) hnext
      refine ⟨n + 1, ?_⟩
      rw [List.replicate_succ, Config.run, hn, tick_answer_inr hp]

/-- And every run of the plain pool is reached. -/
theorem run_of_answer (c : Config (Sum.elim R₁ R₂) T σ α) (us : List T) :
    ∃ ts, (c.run (M.answering h) ts).answer h = (c.answer h).run M us := by
  induction us generalizing c with
  | nil => exact ⟨[], rfl⟩
  | cons t us ih =>
    obtain ⟨n, hn⟩ := tick_of_answer (M := M) (h := h) c t
    obtain ⟨ts, hts⟩ := ih (c.run (M.answering h) (List.replicate n t))
    refine ⟨List.replicate n t ++ ts, ?_⟩
    rw [Config.run_append, hts, hn]
    rfl

end Runs

end Shdata.Conc
