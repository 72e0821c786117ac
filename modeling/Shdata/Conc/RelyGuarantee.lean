/-
Shdata.Conc.RelyGuarantee — reasoning about one thread of a pool at a time.

`wp M t C R G p Q s`: thread `t` may run `p` from `s` while the other threads
move the state along `R` between its operations; every operation `o` it
performs moves the state along `G o`, and when it returns `a` in a state
`s'`, `Q a s'` holds. Only operations that meet the condition `C` in the state
before them are looked at: a run outside `C` is not constrained.

`Pool.Safe` says that every thread of a pool has such a specification and
that each thread's guarantee is part of every other thread's rely.
`Pool.Safe.run` carries this along any schedule, which is the parallel
composition rule: the threads were verified one at a time, the conclusion
is about all interleavings.

With the identity as rely, `wp` is about the solo run (`exec_of_wp`), so one
specification of a call serves both readings of its program.
-/
import Shdata.Conc.Prog

namespace Shdata.Conc

variable {Op : Type} {Resp : Op → Type} {T σ α β : Type}

/-! ## Specifications of one thread -/

/-- The weakest precondition of a program under interference. -/
def wp (M : Machine Resp T σ) (t : T) (C : T → Op → σ → Prop) (R : σ → σ → Prop)
    (G : Op → σ → σ → Prop) : Prog Resp α → (α → σ → Prop) → σ → Prop
  | .ret a, Q, s => ∀ s', R s s' → Q a s'
  | .op o k, Q, s => ∀ s', R s s' → C t o s' →
      G o s' (M.step t o s').1 ∧ wp M t C R G (k (M.step t o s').2) Q (M.step t o s').1

section Rules

variable {M : Machine Resp T σ} {t : T} {C : T → Op → σ → Prop} {R : σ → σ → Prop}
  {G : Op → σ → σ → Prop}

theorem wp_ret {Q : α → σ → Prop} {a : α} {s : σ} (h : ∀ s', R s s' → Q a s') :
    wp M t C R G (.ret a : Prog Resp α) Q s := h

theorem wp_perform {Q : α → σ → Prop} {o : Op} {f : Resp o → Prog Resp α} {s : σ}
    (h : ∀ s', R s s' → C t o s' →
      G o s' (M.step t o s').1 ∧ wp M t C R G (f (M.step t o s').2) Q (M.step t o s').1) :
    wp M t C R G (Prog.perform o >>= f) Q s := h

/-- Interference before the first operation is already accounted for. -/
theorem wp_rely (htrans : ∀ a b c, R a b → R b c → R a c) {p : Prog Resp α}
    {Q : α → σ → Prop} {s s' : σ} (h : wp M t C R G p Q s) (hs : R s s') :
    wp M t C R G p Q s' := by
  cases p with
  | ret a => exact fun u hu => h u (htrans _ _ _ hs hu)
  | op o k => exact fun u hu hc => h u (htrans _ _ _ hs hu) hc

theorem wp_mono {p : Prog Resp α} {Q Q' : α → σ → Prop} {s : σ}
    (h : wp M t C R G p Q s) (hQ : ∀ a s', Q a s' → Q' a s') : wp M t C R G p Q' s := by
  induction p generalizing s with
  | ret a => exact fun u hu => hQ _ _ (h u hu)
  | op o k ih => exact fun u hu hc => ⟨(h u hu hc).1, ih _ (h u hu hc).2⟩

theorem wp_bind (hrefl : ∀ a, R a a) {p : Prog Resp α} {f : α → Prog Resp β}
    {Q : β → σ → Prop} {s : σ} (h : wp M t C R G p (fun a s' => wp M t C R G (f a) Q s') s) :
    wp M t C R G (p >>= f) Q s := by
  induction p generalizing s with
  | ret a => exact h s (hrefl s)
  | op o k ih => exact fun u hu hc => ⟨(h u hu hc).1, ih _ (h u hu hc).2⟩

/-- A stronger guarantee and a narrower rely give the same specification. -/
theorem wp_weaken {R' : σ → σ → Prop} {G' : Op → σ → σ → Prop} {p : Prog Resp α} {Q : α → σ → Prop} {s : σ}
    (h : wp M t C R G p Q s) (hR : ∀ a b, R' a b → R a b) (hG : ∀ o a b, G o a b → G' o a b) :
    wp M t C R' G' p Q s := by
  induction p generalizing s with
  | ret a => exact fun u hu => h u (hR _ _ hu)
  | op o k ih =>
    exact fun u hu hc => ⟨hG _ _ _ (h u (hR _ _ hu) hc).1, ih _ (h u (hR _ _ hu) hc).2⟩

/-- Under a stronger condition on the operations. -/
theorem wp_condition {C' : T → Op → σ → Prop} (hC : ∀ o a, C' t o a → C t o a) {p : Prog Resp α}
    {Q : α → σ → Prop} {s : σ} (h : wp M t C R G p Q s) : wp M t C' R G p Q s := by
  induction p generalizing s with
  | ret a => exact h
  | op o k ih => exact fun u hu hc => ⟨(h u hu (hC o u hc)).1, ih _ (h u hu (hC o u hc)).2⟩

/-- A thread that takes no step. -/
theorem wp_stopped (hC : ∀ o a, ¬ C t o a) (p : Prog Resp α) (s : σ) :
    wp M t C R G p (fun _ _ => True) s := by
  cases p with
  | ret a => exact fun _ _ => trivial
  | op o k => exact fun u _ hc => absurd hc (hC o u)

/-- An invariant that interference and the operations of the program keep. What the
program ensures about its value holds in the end, and so does the invariant. -/
theorem wp_invariant {A : (o : Op) → Resp o → Prop} {P : Op → Prop} {Q : α → Prop} {I : σ → Prop}
    (hrely : ∀ a b, I a → R a b → I b)
    (hstep : ∀ o u, P o → I u → C t o u →
      G o u (M.step t o u).1 ∧ I (M.step t o u).1 ∧ A o (M.step t o u).2)
    {p : Prog Resp α} (hp : p.Ensures A P Q) {s : σ} (hs : I s) :
    wp M t C R G p (fun a s' => Q a ∧ I s') s := by
  induction p generalizing s with
  | ret a => exact fun u hu => ⟨hp, hrely _ _ hs hu⟩
  | op o k ih =>
    intro u hu hc
    obtain ⟨hG, hI, hA⟩ := hstep o u hp.1 (hrely _ _ hs hu) hc
    exact ⟨hG, ih _ (hp.2 _ hA) hI⟩

/-- A program that moves the state no further than interference does. What it
ensures about its value holds, and the state it leaves is one that
interference could have left. -/
theorem wp_of_ensures {A : (o : Op) → Resp o → Prop} {P : Op → Prop} {Q : α → Prop}
    (htrans : ∀ a b c, R a b → R b c → R a c) {p : Prog Resp α} (hp : p.Ensures A P Q)
    {s₀ s : σ} (hs : R s₀ s)
    (hstep : ∀ o u, P o → R s₀ u → C t o u →
      G o u (M.step t o u).1 ∧ R u (M.step t o u).1 ∧ A o (M.step t o u).2) :
    wp M t C R G p (fun a s' => Q a ∧ R s₀ s') s := by
  refine wp_invariant (I := R s₀) (fun _ _ h hr => htrans _ _ _ h hr) (fun o u ho hu hc => ?_) hp hs
  obtain ⟨hG, hR, hA⟩ := hstep o u ho hu hc
  exact ⟨hG, htrans _ _ _ hu hR, hA⟩

/-- Another guarantee, shown of the operations that the program can perform, with an
invariant of theirs and what the program ensures about its value. -/
theorem wp_guarantee {P : Op → Prop} {G' : Op → σ → σ → Prop} {I : σ → Prop}
    (hrely : ∀ a b, I a → R a b → I b)
    (hstep : ∀ o u, P o → I u → C t o u → G' o u (M.step t o u).1 ∧ I (M.step t o u).1)
    {p : Prog Resp α} {Q' : α → Prop} {Q : α → σ → Prop} {s : σ} (h : wp M t C R G p Q s)
    (hp : p.Ensures (fun _ _ => True) P Q') (hs : I s) :
    wp M t C R G' p (fun a s' => Q' a ∧ I s' ∧ Q a s') s := by
  induction p generalizing s with
  | ret a => exact fun u hu => ⟨hp, hrely _ _ hs hu, h u hu⟩
  | op o k ih =>
    intro u hu hc
    obtain ⟨hG, hI⟩ := hstep o u hp.1 (hrely _ _ hs hu) hc
    exact ⟨hG, ih _ (h u hu hc).2 (hp.2 _ trivial) hI⟩

/-- What neither interference nor the operations of the program can undo. -/
theorem wp_frame {I : σ → Prop} (hR : ∀ a b, I a → R a b → I b)
    (hG : ∀ o a b, I a → G o a b → I b) {p : Prog Resp α} {Q : α → σ → Prop} {s : σ}
    (h : wp M t C R G p Q s) (hs : I s) : wp M t C R G p (fun a s' => Q a s' ∧ I s') s := by
  induction p generalizing s with
  | ret a => exact fun u hu => ⟨h u hu, hR _ _ hs hu⟩
  | op o k ih =>
    intro u hu hc
    obtain ⟨hg, hk⟩ := h u hu hc
    exact ⟨hg, ih _ hk (hG _ _ _ (hR _ _ hs hu) hg)⟩

/-- A specification holds beside auxiliary state. -/
theorem wp_ghost {γ : Type} {g : T → (o : Op) → σ → Resp o → γ → γ}
    {C' : T → Op → σ × γ → Prop} (hC : ∀ o s, C' t o s → C t o s.1) {p : Prog Resp α}
    {Q : α → σ → Prop} {s : σ × γ} (h : wp M t C R G p Q s.1) :
    wp (M.ghost g) t C' (fun a b => R a.1 b.1) (fun o a b => G o a.1 b.1) p
      (fun a s' => Q a s'.1) s := by
  induction p generalizing s with
  | ret a => exact fun u hu => h u.1 hu
  | op o k ih =>
    intro u hu hc
    obtain ⟨hg, hk⟩ := h u.1 hu (hC o u hc)
    exact ⟨hg, ih _ hk⟩

/-- Without interference the specification is about the solo run. -/
theorem exec_of_wp {p : Prog Resp α} {Q : α → σ → Prop} {s : σ} (hrefl : ∀ a, R a a)
    (hC : ∀ o s, C t o s) (h : wp M t C R G p Q s) :
    Q (exec M t p s).1 (exec M t p s).2 := by
  induction p generalizing s with
  | ret a => exact h s (hrefl s)
  | op o k ih => exact ih _ (h s (hrefl s) (hC o s)).2

/-- A preorder that contains every guarantee relates the ends of a solo run. -/
theorem exec_guarantee {p : Prog Resp α} {Q : α → σ → Prop} {E : σ → σ → Prop} {s : σ}
    (hrefl : ∀ a, R a a) (hC : ∀ o s, C t o s) (hE : ∀ a, E a a)
    (htrans : ∀ a b c, E a b → E b c → E a c) (hG : ∀ o a b, G o a b → E a b)
    (h : wp M t C R G p Q s) : E s (exec M t p s).2 := by
  induction p generalizing s with
  | ret a => exact hE s
  | op o k ih =>
    obtain ⟨hg, hk⟩ := h s (hrefl s) (hC o s)
    exact htrans _ _ _ (hG _ _ _ hg) (ih _ hk)

end Rules

/-! ## Parallel composition -/

/-- Thread `t` runs another program from here on. -/
def Config.restart [DecidableEq T] (c : Config Resp T σ α) (t : T) (p : Prog Resp α) :
    Config Resp T σ α := { c with pool := Function.update c.pool t p }

/-- Every thread is specified, and each guarantee is part of the other
threads' relies. -/
structure Pool.Safe (M : Machine Resp T σ) (C : T → Op → σ → Prop) (R : T → σ → σ → Prop)
    (G : T → Op → σ → σ → Prop) (Q : T → α → σ → Prop) (c : Config Resp T σ α) : Prop where
  trans : ∀ t a b c, R t a b → R t b c → R t a c
  compat : ∀ t u, t ≠ u → ∀ o a b, G t o a b → R u a b
  threads : ∀ t, wp M t C (R t) (G t) (c.pool t) (Q t) c.st

namespace Pool.Safe

variable [DecidableEq T] {M : Machine Resp T σ} {C : T → Op → σ → Prop}
  {R : T → σ → σ → Prop} {G : T → Op → σ → σ → Prop} {Q : T → α → σ → Prop} {c : Config Resp T σ α}

/-- One operation of one thread. The thread goes on with the rest of its
program; to the others the operation is interference. -/
theorem tick (h : Pool.Safe M C R G Q c) (hrefl : ∀ t a, R t a a) (t : T)
    (hn : c.Next C t) : Pool.Safe M C R G Q (c.tick M t) := by
  cases hp : c.pool t with
  | ret a => rw [Config.tick_ret hp]; exact h
  | op o k =>
    rw [Config.tick_op hp]
    refine ⟨h.trans, h.compat, fun u => ?_⟩
    have ht := h.threads t
    rw [hp] at ht
    obtain ⟨hG, hk⟩ := ht c.st (hrefl t _) (Config.next_op hp hn)
    by_cases hu : u = t
    · subst hu; simpa using hk
    · simp only [Function.update_of_ne hu]
      exact wp_rely (h.trans u) (h.threads u) (h.compat t u (fun e => hu e.symm) _ _ _ hG)

/-- The parallel composition rule. -/
theorem run (h : Pool.Safe M C R G Q c) (hrefl : ∀ t a, R t a a) (ts : List T)
    (hm : c.Meets M C ts) : Pool.Safe M C R G Q (c.run M ts) := by
  induction ts generalizing c with
  | nil => exact h
  | cons t ts ih => exact ih (h.tick hrefl t hm.1) hm.2

omit [DecidableEq T] in
/-- A finished thread's postcondition holds. -/
theorem post (h : Pool.Safe M C R G Q c) (hrefl : ∀ t a, R t a a) {t : T} {a : α}
    (hp : c.pool t = .ret a) : Q t a c.st := by
  have ht := h.threads t
  rw [hp] at ht
  exact ht c.st (hrefl t _)

/-- An invariant that every guarantee keeps holds after every run. -/
theorem inv {I : σ → Prop} (h : Pool.Safe M C R G Q c) (hrefl : ∀ t a, R t a a)
    (hI : ∀ t o a b, G t o a b → I a → I b) (hs : I c.st) (ts : List T) (hm : c.Meets M C ts) :
    I (c.run M ts).st := by
  induction ts generalizing c with
  | nil => exact hs
  | cons t ts ih =>
    refine ih (h.tick hrefl t hm.1) ?_ hm.2
    cases hp : c.pool t with
    | ret a => rw [Config.tick_ret hp]; exact hs
    | op o k =>
      rw [Config.tick_op hp]
      have ht := h.threads t
      rw [hp] at ht
      exact hI t _ _ _ (ht c.st (hrefl t _) (Config.next_op hp hm.1)).1 hs

/-- What the guarantees imply about an operation, under an invariant that they
keep, holds of every step of every run. -/
theorem meets {I : σ → Prop} {D : T → Op → σ → Prop} (h : Pool.Safe M C R G Q c)
    (hrefl : ∀ t a, R t a a) (hI : ∀ t o a b, G t o a b → I a → I b)
    (hD : ∀ t o a, I a → G t o a (M.step t o a).1 → D t o a) (hs : I c.st) (ts : List T)
    (hm : c.Meets M C ts) : c.Meets M D ts := by
  induction ts generalizing c with
  | nil => trivial
  | cons t ts ih =>
    refine ⟨?_, ih (h.tick hrefl t hm.1) ?_ hm.2⟩
    · unfold Config.Next
      split
      · trivial
      · rename_i o k hp
        have ht := h.threads t
        rw [hp] at ht
        exact hD t o c.st hs (ht c.st (hrefl t _) (Config.next_op hp hm.1)).1
    · exact h.inv hrefl hI hs [t] ⟨hm.1, trivial⟩

/-- A finished thread's rely relates the ends of a run. -/
theorem rely_run (h : Pool.Safe M C R G Q c) (hrefl : ∀ t a, R t a a) {t : T} {a : α}
    (hp : c.pool t = .ret a) (ts : List T) (hm : c.Meets M C ts) : R t c.st (c.run M ts).st := by
  induction ts generalizing c with
  | nil => exact hrefl t _
  | cons u ts ih =>
    obtain ⟨hn, hm⟩ := hm
    have hsafe := h.tick hrefl u hn
    cases hu : c.pool u with
    | ret b =>
      have hrest := ih hsafe (by rw [Config.tick_ret hu]; exact hp) hm
      rw [Config.tick_ret hu] at hrest
      simp only [Config.run, Config.tick_ret hu]
      exact hrest
    | op o k =>
      have hne : t ≠ u := by
        rintro rfl
        exact absurd (hp.symm.trans hu) (by simp)
      have hrest := ih hsafe (by rw [Config.tick_op hu]; simpa [Function.update_of_ne hne] using hp) hm
      have hthread := h.threads u
      rw [hu] at hthread
      have hstep := (hthread c.st (hrefl u _) (Config.next_op hu hn)).1
      refine h.trans t _ _ _ (h.compat u t hne.symm o _ _ hstep) ?_
      simp only [Config.run]
      rw [Config.tick_op hu] at hrest ⊢
      exact hrest

/-- A step of another thread is interference. -/
theorem rely_tick (h : Pool.Safe M C R G Q c) (hrefl : ∀ t a, R t a a) {t u : T} (hne : u ≠ t)
    (hn : c.Next C u) : R t c.st (c.tick M u).st := by
  cases hu : c.pool u with
  | ret b =>
    rw [Config.tick_ret hu]
    exact hrefl t _
  | op o k =>
    have hthread := h.threads u
    rw [hu] at hthread
    have hstep := (hthread c.st (hrefl u _) (Config.next_op hu hn)).1
    rw [Config.tick_op hu]
    exact h.compat u t hne o _ _ hstep

/-- The rely of a thread that takes no step relates the ends of a run. -/
theorem rely_stopped (h : Pool.Safe M C R G Q c) (hrefl : ∀ t a, R t a a) {t : T} (ts : List T)
    (ht : t ∉ ts) (hm : c.Meets M C ts) : R t c.st (c.run M ts).st := by
  induction ts generalizing c with
  | nil => exact hrefl t _
  | cons u ts ih =>
    have hne : u ≠ t := fun e => ht (e ▸ List.mem_cons_self)
    have hfirst := h.rely_tick hrefl hne hm.1
    have hrest := ih (h.tick hrefl u hm.1) (fun hmem => ht (List.mem_cons_of_mem u hmem)) hm.2
    exact h.trans t _ _ _ hfirst hrest

/-- A thread may start another program that has a specification. -/
theorem restart (h : Pool.Safe M C R G Q c) {t : T} {p : Prog Resp α}
    (hp : wp M t C (R t) (G t) p (Q t) c.st) : Pool.Safe M C R G Q (c.restart t p) where
  trans := h.trans
  compat := h.compat
  threads := by
    intro u
    by_cases hu : u = t
    · subst hu
      simpa [Config.restart] using hp
    · simpa [Config.restart, Function.update_of_ne hu] using h.threads u

end Pool.Safe

end Shdata.Conc
