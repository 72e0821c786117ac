/-
Shdata.Conc.Implement — operations that are implemented by programs.

A handler gives every operation of a machine a program over the operations of
a machine below it, and `Prog.implement` replaces each operation by its
program. The steps of different threads then interleave inside them.

`Performs` is what makes such a program look atomic from above: under the
interference of the other threads all its steps but one change nothing
that the relation `R` between the two states can see, one of them has the
effect of the operation, and the program returns its response. It is checked
for one thread and one operation at a time. `implements_run` is the
conclusion: any run of a pool of implemented programs is a run of the pool
itself, in which each operation happens at the step that had its effect.
-/
import Shdata.Conc.Prog

namespace Shdata.Conc

variable {Op Op' : Type} {Resp : Op → Type} {Resp' : Op' → Type} {T σ σ' α β : Type}

/-! ## Programs -/

namespace Prog

/-- Replace every operation by its program. -/
def implement (h : (o : Op) → Prog Resp' (Resp o)) : Prog Resp α → Prog Resp' α
  | .ret a => .ret a
  | .op o k => h o >>= fun r => (k r).implement h

variable (h : (o : Op) → Prog Resp' (Resp o))

@[simp] theorem implement_ret (a : α) : (.ret a : Prog Resp α).implement h = .ret a := rfl

theorem implement_op (o : Op) (k : Resp o → Prog Resp α) :
    (Prog.op o k).implement h = h o >>= fun r => (k r).implement h := rfl

end Prog

/-- The same pool over the machine below. -/
def Config.implement (h : (o : Op) → Prog Resp' (Resp o)) (c : Config Resp T σ α) (s : σ') :
    Config Resp' T σ' α where
  st := s
  pool := fun t => (c.pool t).implement h

/-! ## One operation -/

section Operation

variable (M' : Machine Resp' T σ') (M : Machine Resp T σ) (C : T → Op' → σ' → Prop)
  (R : σ' → σ → Prop) (E : σ' → σ' → Prop) (G : Op' → σ' → σ' → Prop) (t : T)

/-- The step of `o'` changes nothing that `R` can see. -/
def Silent (o' : Op') (s : σ') : Prop := ∀ a, R s a → R (M'.step t o' s).1 a

/-- The steps that remain are silent, and the program returns `r`. -/
def Settles (r : β) : Prog Resp' β → σ' → Prop
  | .ret r', _ => r' = r
  | .op o' k, s => ∀ u, E s u → C t o' u →
      G o' u (M'.step t o' u).1 ∧ Silent M' R t o' u ∧ Settles r (k (M'.step t o' u).2) (M'.step t o' u).1

/-- Silent steps, then one with the effect of `o`, then silent steps again. -/
def Performs (o : Op) : Prog Resp' (Resp o) → σ' → Prop
  | .ret _, _ => False
  | .op o' k, s => ∀ u, E s u → C t o' u →
      G o' u (M'.step t o' u).1 ∧
        (Silent M' R t o' u ∧ Performs o (k (M'.step t o' u).2) (M'.step t o' u).1 ∨
        ∀ a, R u a → R (M'.step t o' u).1 (M.step t o a).1 ∧
          Settles M' C R E G t (M.step t o a).2 (k (M'.step t o' u).2) (M'.step t o' u).1)

end Operation

section Rules

variable {M' : Machine Resp' T σ'} {M : Machine Resp T σ} {C : T → Op' → σ' → Prop}
  {R : σ' → σ → Prop} {E : σ' → σ' → Prop} {G : Op' → σ' → σ' → Prop} {t : T}

theorem Settles.rely (htrans : ∀ a b c, E a b → E b c → E a c) {r : β} {q : Prog Resp' β}
    {s u : σ'} (h : Settles M' C R E G t r q s) (hu : E s u) : Settles M' C R E G t r q u := by
  cases q with
  | ret r' => exact h
  | op o' k => exact fun v hv => h v (htrans _ _ _ hu hv)

theorem Performs.rely (htrans : ∀ a b c, E a b → E b c → E a c) {o : Op}
    {q : Prog Resp' (Resp o)} {s u : σ'} (h : Performs M' M C R E G t o q s) (hu : E s u) :
    Performs M' M C R E G t o q u := by
  cases q with
  | ret r => exact h
  | op o' k => exact fun v hv => h v (htrans _ _ _ hu hv)

/-- An operation that is implemented by one step. -/
theorem performs_step {o : Op} {o' : Op'} {f : Resp' o' → Resp o} {s : σ'}
    (hG : ∀ u, C t o' u → G o' u (M'.step t o' u).1)
    (hR : ∀ u a, C t o' u → R u a →
      R (M'.step t o' u).1 (M.step t o a).1 ∧ f (M'.step t o' u).2 = (M.step t o a).2) :
    Performs M' M C R E G t o (.op o' fun r => .ret (f r)) s :=
  fun u _ hc => ⟨hG u hc, Or.inr fun a ha => hR u a hc ha⟩

end Rules

/-! ## Programs in parts -/

section Runs

variable (M' : Machine Resp' T σ') (M : Machine Resp T σ) (C : T → Op' → σ' → Prop)
  (R : σ' → σ → Prop) (E : σ' → σ' → Prop) (G : Op' → σ' → σ' → Prop) (t : T)

/-- A part of the program of `o`. The effect is still to come (`none`) or gave the response `r`
(`some r`), and the part ends where `Q` holds. -/
def Runs (o : Op) (Q : Option (Resp o) → β → σ' → Prop) :
    Option (Resp o) → Prog Resp' β → σ' → Prop
  | ph, .ret b, s => Q ph b s
  | ph, .op o' k, s => ∀ u, E s u → C t o' u →
      G o' u (M'.step t o' u).1 ∧
        (Silent M' R t o' u ∧ Runs o Q ph (k (M'.step t o' u).2) (M'.step t o' u).1 ∨
        ph = none ∧ ∀ a, R u a → R (M'.step t o' u).1 (M.step t o a).1 ∧
          Runs o Q (some (M.step t o a).2) (k (M'.step t o' u).2) (M'.step t o' u).1)

variable {M' M C R E G t} {o : Op}

theorem runs_bind {Q : Option (Resp o) → α → σ' → Prop} {p : Prog Resp' β}
    {f : β → Prog Resp' α} {ph : Option (Resp o)} {s : σ'}
    (hp : Runs M' M C R E G t o (fun ph b s => Runs M' M C R E G t o Q ph (f b) s) ph p s) :
    Runs M' M C R E G t o Q ph (p >>= f) s := by
  induction p generalizing ph s with
  | ret b => exact hp
  | op o' k ih =>
    intro u hu hc
    obtain ⟨hG, ⟨hsilent, hrest⟩ | ⟨hph, heffect⟩⟩ := hp u hu hc
    · exact ⟨hG, Or.inl ⟨hsilent, ih _ hrest⟩⟩
    · exact ⟨hG, Or.inr ⟨hph, fun a ha => ⟨(heffect a ha).1, ih _ (heffect a ha).2⟩⟩⟩

theorem runs_mono {Q Q' : Option (Resp o) → β → σ' → Prop} (hQ : ∀ ph b s, Q ph b s → Q' ph b s)
    {p : Prog Resp' β} {ph : Option (Resp o)} {s : σ'} (hp : Runs M' M C R E G t o Q ph p s) :
    Runs M' M C R E G t o Q' ph p s := by
  induction p generalizing ph s with
  | ret b => exact hQ ph b s hp
  | op o' k ih =>
    intro u hu hc
    obtain ⟨hG, ⟨hsilent, hrest⟩ | ⟨hph, heffect⟩⟩ := hp u hu hc
    · exact ⟨hG, Or.inl ⟨hsilent, ih _ hrest⟩⟩
    · exact ⟨hG, Or.inr ⟨hph, fun a ha => ⟨(heffect a ha).1, ih _ (heffect a ha).2⟩⟩⟩

/-- The whole program, if it ends with the response of its effect. -/
theorem settles_of_runs {r : Resp o} {q : Prog Resp' (Resp o)} {s : σ'}
    (h : Runs M' M C R E G t o (fun ph r _ => ph = some r) (some r) q s) :
    Settles M' C R E G t r q s := by
  induction q generalizing s with
  | ret r' => exact (Option.some.inj h).symm
  | op o' k ih =>
    intro u hu hc
    obtain ⟨hG, ⟨hsilent, hrest⟩ | ⟨hph, -⟩⟩ := h u hu hc
    · exact ⟨hG, hsilent, ih _ hrest⟩
    · exact absurd hph (by simp)

theorem performs_of_runs {q : Prog Resp' (Resp o)} {s : σ'}
    (h : Runs M' M C R E G t o (fun ph r _ => ph = some r) none q s) :
    Performs M' M C R E G t o q s := by
  induction q generalizing s with
  | ret r' => exact absurd h (by simp [Runs])
  | op o' k ih =>
    intro u hu hc
    obtain ⟨hG, ⟨hsilent, hrest⟩ | ⟨-, heffect⟩⟩ := h u hu hc
    · exact ⟨hG, Or.inl ⟨hsilent, ih _ hrest⟩⟩
    · exact ⟨hG, Or.inr fun a ha => ⟨(heffect a ha).1, settles_of_runs (heffect a ha).2⟩⟩

end Runs

/-! ## Pools -/

/-- What is checked of a handler: the operations `P t` of thread `t` look atomic under
the interference `E t`, and a step of one thread is interference to the others. -/
structure Implements (M' : Machine Resp' T σ') (M : Machine Resp T σ) (C : T → Op' → σ' → Prop)
    (R : σ' → σ → Prop) (E : T → σ' → σ' → Prop) (G : T → Op' → σ' → σ' → Prop) (P : T → Op → Prop)
    (h : (o : Op) → Prog Resp' (Resp o)) : Prop where
  refl : ∀ t a, E t a a
  trans : ∀ t a b c, E t a b → E t b c → E t a c
  compat : ∀ t u, t ≠ u → ∀ o a b, G t o a b → E u a b
  performs : ∀ t o s, P t o → Performs M' M C R (E t) (G t) t o (h o) s

/-- How far a thread is with its program. -/
inductive Stage (M' : Machine Resp' T σ') (M : Machine Resp T σ) (C : T → Op' → σ' → Prop)
    (R : σ' → σ → Prop) (E : σ' → σ' → Prop) (G : Op' → σ' → σ' → Prop) (t : T)
    (h : (o : Op) → Prog Resp' (Resp o)) : Prog Resp α → Prog Resp' α → σ' → Prop
  | done {a : α} {s : σ'} : Stage M' M C R E G t h (.ret a) (.ret a) s
  | before {o : Op} {k : Resp o → Prog Resp α} {q : Prog Resp' (Resp o)} {s : σ'}
      (hq : Performs M' M C R E G t o q s) :
      Stage M' M C R E G t h (.op o k) (q >>= fun r => (k r).implement h) s
  | after {o : Op} {r : Resp o} {k : Resp o → Prog Resp α} {q : Prog Resp' (Resp o)} {s : σ'}
      (hq : Settles M' C R E G t r q s) :
      Stage M' M C R E G t h (k r) (q >>= fun r => (k r).implement h) s

section Stage

variable {M' : Machine Resp' T σ'} {M : Machine Resp T σ} {C : T → Op' → σ' → Prop}
  {R : σ' → σ → Prop} {E : σ' → σ' → Prop} {G : Op' → σ' → σ' → Prop} {t : T}
  {h : (o : Op) → Prog Resp' (Resp o)} {p : Prog Resp α} {q : Prog Resp' α} {s u : σ'}

theorem Stage.rely (htrans : ∀ a b c, E a b → E b c → E a c)
    (hs : Stage M' M C R E G t h p q s) (hu : E s u) : Stage M' M C R E G t h p q u := by
  cases hs with
  | done => exact .done
  | before hq => exact .before (hq.rely htrans hu)
  | after hq => exact .after (hq.rely htrans hu)

/-- A program that has not started. -/
theorem stage_implement {P : Op → Prop} (hP : ∀ o s, P o → Performs M' M C R E G t o (h o) s)
    (hp : p.AllOps P) : Stage M' M C R E G t h p (p.implement h) s := by
  cases p with
  | ret a => exact .done
  | op o k => exact .before (hP o s hp.1)

/-- A program that looks atomic performs at least one step. -/
theorem implement_eq_ret {a : α} {P : Op → Prop}
    (hP : ∀ o s, P o → Performs M' M C R E G t o (h o) s) (hp : p.AllOps P) (s : σ')
    (heq : p.implement h = .ret a) : p = .ret a := by
  cases p with
  | ret b => exact congrArg _ (Prog.ret.inj heq)
  | op o k =>
    have hperf := hP o s hp.1
    rw [Prog.implement_op] at heq
    cases hq : h o with
    | ret r => rw [hq] at hperf; exact absurd hperf id
    | op o' k' => rw [hq] at heq; exact absurd heq (by simp)

/-- A thread that has returned below has returned above. -/
theorem Stage.of_ret {a : α} {P : Op → Prop}
    (hP : ∀ o s, P o → Performs M' M C R E G t o (h o) s) (hp : p.AllOps P)
    (hs : Stage M' M C R E G t h p (.ret a) s) : p = .ret a := by
  generalize hq : (Prog.ret a : Prog Resp' α) = q at hs
  cases hs with
  | done => exact congrArg _ (Prog.ret.inj hq).symm
  | @before o k q' _ hperf =>
    cases q' with
    | ret r => exact absurd hperf id
    | op o' k' => exact absurd hq (by simp)
  | @after o r k q' _ hset =>
    cases q' with
    | op o' k' => exact absurd hq (by simp)
    | ret r' =>
      obtain rfl : r' = r := hset
      exact implement_eq_ret hP hp s hq.symm

end Stage

/-- A pool below that implements a pool above. -/
structure Simulates (M' : Machine Resp' T σ') (M : Machine Resp T σ) (C : T → Op' → σ' → Prop)
    (R : σ' → σ → Prop) (E : T → σ' → σ' → Prop) (G : T → Op' → σ' → σ' → Prop) (P : T → Op → Prop)
    (h : (o : Op) → Prog Resp' (Resp o)) (c' : Config Resp' T σ' α) (c : Config Resp T σ α) :
    Prop where
  st : R c'.st c.st
  ops : ∀ t, (c.pool t).AllOps (P t)
  threads : ∀ t, Stage M' M C R (E t) (G t) t h (c.pool t) (c'.pool t) c'.st

section Simulates

variable [DecidableEq T] {M' : Machine Resp' T σ'} {M : Machine Resp T σ}
  {C : T → Op' → σ' → Prop} {R : σ' → σ → Prop} {E : T → σ' → σ' → Prop}
  {G : T → Op' → σ' → σ' → Prop} {P : T → Op → Prop} {h : (o : Op) → Prog Resp' (Resp o)}
  {c' : Config Resp' T σ' α} {c : Config Resp T σ α}

omit [DecidableEq T] in
theorem Simulates.start (hI : Implements M' M C R E G P h) {s : σ'} (hs : R s c.st)
    (hc : ∀ t, (c.pool t).AllOps (P t)) : Simulates M' M C R E G P h (c.implement h s) c where
  st := hs
  ops := hc
  threads t := stage_implement (hI.performs t) (hc t)

/-- The other threads see a step as interference. -/
theorem Simulates.step (hI : Implements M' M C R E G P h) (hsim : Simulates M' M C R E G P h c' c)
    {t : T} {o' : Op'} (k' : Resp' o' → Prog Resp' α)
    (hG : G t o' c'.st (M'.step t o' c'.st).1) {p : Prog Resp α} {a : σ} (hp : p.AllOps (P t))
    (hst : R (M'.step t o' c'.st).1 a)
    (hstage : Stage M' M C R (E t) (G t) t h p (k' (M'.step t o' c'.st).2)
      (M'.step t o' c'.st).1) :
    Simulates M' M C R E G P h
      { st := (M'.step t o' c'.st).1
        pool := Function.update c'.pool t (k' (M'.step t o' c'.st).2) }
      { st := a, pool := Function.update c.pool t p } where
  st := hst
  ops u := by
    by_cases hu : u = t
    · subst hu
      simpa using hp
    · simpa [Function.update_of_ne hu] using hsim.ops u
  threads u := by
    by_cases hu : u = t
    · subst hu
      simpa using hstage
    · simp only [Function.update_of_ne hu]
      exact (hsim.threads u).rely (hI.trans u) (hI.compat t u (Ne.symm hu) o' _ _ hG)

/-- A step of an operation that had no effect yet. -/
theorem Simulates.tick_before (hI : Implements M' M C R E G P h)
    (hsim : Simulates M' M C R E G P h c' c) {t : T} (hn : c'.Next C t) {o : Op}
    {k : Resp o → Prog Resp α} {q : Prog Resp' (Resp o)} (hp : c.pool t = .op o k)
    (hq : c'.pool t = q >>= fun r => (k r).implement h)
    (hperf : Performs M' M C R (E t) (G t) t o q c'.st) :
    ∃ us : List T, us.Sublist [t] ∧
      Simulates M' M C R E G P h (c'.tick M' t) (c.run M us) := by
  have hops := hsim.ops t
  rw [hp] at hops
  cases q with
  | ret r => exact absurd hperf id
  | op o' k' =>
    obtain ⟨hG, ⟨hsilent, hrest⟩ | heffect⟩ := hperf c'.st (hI.refl t _) (Config.next_op hq hn)
    · have hsame : Function.update c.pool t (Prog.op o k) = c.pool := by
        rw [← hp, Function.update_eq_self]
      have hnext := hsim.step hI (fun r => k' r >>= fun r => (k r).implement h) hG hops
        (hsilent _ hsim.st) (.before hrest)
      rw [hsame] at hnext
      refine ⟨[], List.nil_sublist _, ?_⟩
      rw [Config.tick_op hq]
      exact hnext
    · obtain ⟨hst, hrest⟩ := heffect _ hsim.st
      refine ⟨[t], List.Sublist.refl _, ?_⟩
      show Simulates M' M C R E G P h _ (c.tick M t)
      rw [Config.tick_op hq, Config.tick_op hp]
      exact hsim.step hI (fun r => k' r >>= fun r => (k r).implement h) hG (hops.2 _ trivial)
        hst (.after hrest)

/-- One step below is one step above or none. -/
theorem Simulates.tick (hI : Implements M' M C R E G P h)
    (hsim : Simulates M' M C R E G P h c' c) (t : T) (hn : c'.Next C t) :
    ∃ us : List T, us.Sublist [t] ∧
      Simulates M' M C R E G P h (c'.tick M' t) (c.run M us) := by
  have hthread := hsim.threads t
  have hops := hsim.ops t
  generalize hp : c.pool t = p at hthread hops
  generalize hq : c'.pool t = q at hthread
  cases hthread with
  | done => exact ⟨[], List.nil_sublist _, by rw [Config.tick_ret hq]; exact hsim⟩
  | before hperf => exact hsim.tick_before hI hn hp hq hperf
  | @after o r k q' _ hset =>
    cases q' with
    | ret r' =>
      -- the operation is over, so this is a step of what follows
      obtain rfl : r' = r := hset
      cases hk : k r' with
      | ret a =>
        have hdone : c'.pool t = .ret a := by rw [hq, Prog.ret_bind, hk, Prog.implement_ret]
        exact ⟨[], List.nil_sublist _, by rw [Config.tick_ret hdone]; exact hsim⟩
      | op o₂ k₂ =>
        rw [hk] at hp hops
        refine hsim.tick_before hI hn hp ?_ (hI.performs t o₂ _ hops.1)
        rw [hq, Prog.ret_bind, hk, Prog.implement_op]
    | op o' k' =>
      obtain ⟨hG, hsilent, hrest⟩ := hset c'.st (hI.refl t _) (Config.next_op hq hn)
      have hsame : Function.update c.pool t (k r) = c.pool := by
        rw [← hp, Function.update_eq_self]
      have hnext := hsim.step hI (fun r => k' r >>= fun r => (k r).implement h) hG hops
        (hsilent _ hsim.st) (.after hrest)
      rw [hsame] at hnext
      refine ⟨[], List.nil_sublist _, ?_⟩
      rw [Config.tick_op hq]
      exact hnext

theorem Simulates.run (hI : Implements M' M C R E G P h)
    (hsim : Simulates M' M C R E G P h c' c) (ts : List T) (hm : c'.Meets M' C ts) :
    ∃ us : List T, us.Sublist ts ∧
      Simulates M' M C R E G P h (c'.run M' ts) (c.run M us) := by
  induction ts generalizing c' c with
  | nil => exact ⟨[], List.Sublist.refl _, hsim⟩
  | cons t ts ih =>
    obtain ⟨us, hus, hnext⟩ := hsim.tick hI t hm.1
    obtain ⟨vs, hvs, hlast⟩ := ih hnext hm.2
    refine ⟨us ++ vs, hus.append hvs, ?_⟩
    rw [Config.run_append]
    exact hlast

end Simulates

/-- **A run of the implementation is a run of what it implements.** Each operation happens at
the step that had its effect; the states are related, and a thread that has
returned has returned the same value. -/
theorem implements_run [DecidableEq T] {M' : Machine Resp' T σ'} {M : Machine Resp T σ}
    {C : T → Op' → σ' → Prop} {R : σ' → σ → Prop} {E : T → σ' → σ' → Prop}
    {G : T → Op' → σ' → σ' → Prop} {P : T → Op → Prop} {h : (o : Op) → Prog Resp' (Resp o)}
    (hI : Implements M' M C R E G P h) {c : Config Resp T σ α} {s : σ'} (hs : R s c.st)
    (hc : ∀ t, (c.pool t).AllOps (P t)) (ts : List T) (hm : (c.implement h s).Meets M' C ts) :
    ∃ us : List T, us.Sublist ts ∧ R ((c.implement h s).run M' ts).st (c.run M us).st ∧
      ∀ t a, ((c.implement h s).run M' ts).pool t = .ret a → (c.run M us).pool t = .ret a := by
  obtain ⟨us, hus, hsim⟩ := (Simulates.start hI hs hc).run hI ts hm
  refine ⟨us, hus, hsim.st, fun t a ha => ?_⟩
  have hthread := hsim.threads t
  rw [ha] at hthread
  exact hthread.of_ret (hI.performs t) (hsim.ops t)

end Shdata.Conc
