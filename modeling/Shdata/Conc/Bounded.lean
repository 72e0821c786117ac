/-
Shdata.Conc.Bounded — programs that finish after a bounded number of their own
operations.

`p.Within P n Q`: whatever the responses are, `p` performs at most `n`
operations, all of them satisfy `P`, and the value it returns satisfies `Q`.
Bounds add up along sequential composition (`Within.bind`). In a pool the
bound is independent of the other threads: a thread that was scheduled `n`
times has returned (`returned_of_count`).
-/
import Mathlib.Data.List.Count
import Shdata.Conc.Prog

namespace Shdata.Conc

variable {Op : Type} {Resp : Op → Type} {T σ α β : Type}

namespace Prog

def Within (P : Op → Prop) : Nat → (α → Prop) → Prog Resp α → Prop
  | _, Q, .ret a => Q a
  | 0, _, .op _ _ => False
  | n + 1, Q, .op o k => P o ∧ ∀ r, Within P n Q (k r)

section Within

variable {P : Op → Prop} {Q : α → Prop} {n m : Nat}

theorem within_ret {a : α} (h : Q a) : (.ret a : Prog Resp α).Within P n Q := by
  cases n <;> exact h

theorem within_perform {o : Op} {f : Resp o → Prog Resp α} (ho : P o)
    (h : ∀ r, (f r).Within P n Q) : (perform o >>= f).Within P (n + 1) Q := ⟨ho, h⟩

theorem Within.mono {Q' : α → Prop} {p : Prog Resp α} (h : p.Within P n Q) (hn : n ≤ m)
    (hQ : ∀ a, Q a → Q' a) : p.Within P m Q' := by
  induction p generalizing n m with
  | ret a =>
    refine within_ret (hQ a ?_)
    cases n <;> exact h
  | op o k ih =>
    cases n with
    | zero => exact absurd h id
    | succ n =>
      obtain ⟨m, rfl⟩ : ∃ l, m = l + 1 := ⟨m - 1, by omega⟩
      exact ⟨h.1, fun r => ih r (h.2 r) (by omega)⟩

/-- Weaker conditions on the operations. -/
theorem Within.weaken {P' : Op → Prop} {p : Prog Resp α} (h : p.Within P n Q)
    (hP : ∀ o, P o → P' o) : p.Within P' n Q := by
  induction p generalizing n with
  | ret a => cases n <;> exact h
  | op o k ih =>
    cases n with
    | zero => exact absurd h id
    | succ n => exact ⟨hP o h.1, fun r => ih r (h.2 r)⟩

theorem Within.bind {Q' : β → Prop} {p : Prog Resp α} {f : α → Prog Resp β}
    (hp : p.Within P n Q) (hf : ∀ a, Q a → (f a).Within P m Q') :
    (p >>= f).Within P (n + m) Q' := by
  induction p generalizing n with
  | ret a =>
    refine (hf a ?_).mono (Nat.le_add_left m n) fun _ h => h
    cases n <;> exact hp
  | op o k ih =>
    cases n with
    | zero => exact absurd hp id
    | succ n =>
      rw [Nat.succ_add]
      exact ⟨hp.1, fun r => ih r (hp.2 r)⟩

/-- The same bound for whatever comes next, if that performs no operation. -/
theorem Within.map {Q' : β → Prop} {p : Prog Resp α} {f : α → β} (hp : p.Within P n Q)
    (hf : ∀ a, Q a → Q' (f a)) : (p >>= fun a => pure (f a)).Within P n Q' :=
  hp.bind (m := 0) fun a ha => within_ret (hf a ha)

theorem Within.ensures {p : Prog Resp α} (h : p.Within P n Q) :
    p.Ensures (fun _ _ => True) P Q := by
  induction p generalizing n with
  | ret a => cases n <;> exact h
  | op o k ih =>
    cases n with
    | zero => exact absurd h id
    | succ n => exact ⟨h.1, fun r _ => ih r (h.2 r)⟩

theorem Within.allOps {p : Prog Resp α} (h : p.Within P n Q) : p.AllOps P :=
  h.ensures.mono (fun _ => id) fun _ _ => trivial

end Within

end Prog

/-- A thread that was scheduled often enough has returned. -/
theorem returned_of_count [DecidableEq T] (M : Machine Resp T σ) {P : Op → Prop} {Q : α → Prop}
    {n : Nat} {c : Config Resp T σ α} {t : T} (h : (c.pool t).Within P n Q) {ts : List T}
    (hn : n ≤ ts.count t) : ∃ a, (c.run M ts).pool t = .ret a ∧ Q a := by
  induction ts generalizing c n with
  | nil =>
    obtain rfl : n = 0 := by simpa using hn
    cases hp : c.pool t with
    | ret a =>
      rw [hp] at h
      exact ⟨a, hp, h⟩
    | op o k =>
      rw [hp] at h
      exact absurd h id
  | cons u ts ih =>
    cases hp : c.pool u with
    | ret a =>
      show ∃ a, ((c.tick M u).run M ts).pool t = .ret a ∧ Q a
      rw [Config.tick_ret hp]
      by_cases hu : u = t
      · subst hu
        rw [hp] at h
        refine ih (n := 0) ?_ (Nat.zero_le _)
        rw [hp]
        exact Prog.within_ret (by cases n <;> exact h)
      · exact ih h (by rwa [List.count_cons_of_ne hu] at hn)
    | op o k =>
      show ∃ a, ((c.tick M u).run M ts).pool t = .ret a ∧ Q a
      rw [Config.tick_op hp]
      by_cases hu : u = t
      · subst hu
        rw [hp] at h
        cases n with
        | zero => exact absurd h id
        | succ n =>
          rw [List.count_cons_self] at hn
          refine ih (n := n) ?_ (by omega)
          simpa using h.2 _
      · refine ih (n := n) ?_ (by rwa [List.count_cons_of_ne hu] at hn)
        simpa [Function.update_of_ne (Ne.symm hu)] using h

end Shdata.Conc
