/-
Shdata.Conc.Balance — quantities that programs give back.

An operation adds to a quantity of the state an amount that its response
tells. `Adds` follows the sum through a program, and a program is balanced if
every way through it adds up to nothing.

Balanced programs may interleave in any way: `balanced_run` says that when the
threads that ran have all returned, the quantity is what it was.
-/
import Mathlib.Algebra.BigOperators.Group.Finset.Piecewise
import Mathlib.Tactic.Abel
import Shdata.Conc.Implement

namespace Shdata.Conc

variable {Op Op' : Type} {Resp : Op → Type} {Resp' : Op' → Type} {T σ α β G : Type}
  [AddCommGroup G]

/-! ## Programs -/

namespace Prog

/-- After the program, which adds to `n`, its value and the amount meet `Q`. -/
def Adds (d : (o : Op) → Resp o → G) (Q : α → G → Prop) : G → Prog Resp α → Prop
  | n, .ret a => Q a n
  | n, .op o k => ∀ r, Adds d Q (n + d o r) (k r)

/-- The program adds nothing in the end. -/
def Balanced (d : (o : Op) → Resp o → G) (p : Prog Resp α) : Prop := p.Adds d (fun _ n => n = 0) 0

variable {d : (o : Op) → Resp o → G} {Q : α → G → Prop} {n : G}

theorem adds_pure {a : α} (h : Q a n) : (pure a : Prog Resp α).Adds d Q n := h

theorem adds_perform {o : Op} {f : Resp o → Prog Resp α} (h : ∀ r, (f r).Adds d Q (n + d o r)) :
    (perform o >>= f).Adds d Q n := h

theorem adds_bind {Q' : β → G → Prop} {p : Prog Resp α} {f : α → Prog Resp β}
    (hp : p.Adds d Q n) (hf : ∀ a m, Q a m → (f a).Adds d Q' m) : (p >>= f).Adds d Q' n := by
  induction p generalizing n with
  | ret a => exact hf a n hp
  | op o k ih => exact fun r => ih r (hp r)

theorem Balanced.bind {p : Prog Resp α} {f : α → Prog Resp β} (hp : p.Balanced d)
    (hf : ∀ a, (f a).Balanced d) : (p >>= f).Balanced d :=
  adds_bind hp fun a m hm => by
    subst hm
    exact hf a

/-- A program over balanced operations. -/
theorem balanced_implement {h : (o : Op') → Prog Resp (Resp' o)} (hh : ∀ o, (h o).Balanced d)
    (p : Prog Resp' α) : (p.implement h).Balanced d := by
  induction p with
  | ret a => rfl
  | op o k ih => exact (hh o).bind ih

end Prog

/-! ## Runs -/

section Run

variable [DecidableEq T] {M : Machine Resp T σ} {d : (o : Op) → Resp o → G} {val : σ → G}
  {S : Finset T} {n : T → G} {c : Config Resp T σ α}

/-- What the threads of `S` owe is what they added to the quantity `v`. -/
structure Accounts (d : (o : Op) → Resp o → G) (val : σ → G) (S : Finset T) (v : G) (n : T → G)
    (c : Config Resp T σ α) : Prop where
  owes : ∀ t, (c.pool t).Adds d (fun _ m => m = 0) (n t)
  total : val c.st = v + ∑ t ∈ S, n t

theorem Accounts.tick {v : G} (h : Accounts d val S v n c)
    (hval : ∀ t o s, val (M.step t o s).1 = val s + d o (M.step t o s).2) {t : T} (ht : t ∈ S) :
    ∃ n', Accounts d val S v n' (c.tick M t) := by
  cases hp : c.pool t with
  | ret a =>
    rw [Config.tick_ret hp]
    exact ⟨n, h⟩
  | op o k =>
    have howes := h.owes t
    rw [hp] at howes
    rw [Config.tick_op hp]
    refine ⟨Function.update n t (n t + d o (M.step t o c.st).2), fun u => ?_, ?_⟩
    · by_cases hu : u = t
      · subst hu
        simpa using howes _
      · simpa [Function.update_of_ne hu] using h.owes u
    · rw [Finset.sum_update_of_mem ht, hval, h.total, ← Finset.add_sum_erase S n ht,
        Finset.sdiff_singleton_eq_erase]
      abel

theorem Accounts.run {v : G} (h : Accounts d val S v n c)
    (hval : ∀ t o s, val (M.step t o s).1 = val s + d o (M.step t o s).2) {ts : List T}
    (hts : ∀ t ∈ ts, t ∈ S) : ∃ n', Accounts d val S v n' (c.run M ts) := by
  induction ts generalizing c n with
  | nil => exact ⟨n, h⟩
  | cons t ts ih =>
    obtain ⟨n₁, h₁⟩ := h.tick hval (hts t List.mem_cons_self)
    exact ih h₁ fun u hu => hts u (List.mem_cons_of_mem t hu)

/-- **What every program gives back is there when they have returned**, along any schedule. -/
theorem balanced_run (hval : ∀ t o s, val (M.step t o s).1 = val s + d o (M.step t o s).2)
    (hp : ∀ t, (c.pool t).Balanced d) {ts : List T}
    (hret : ∀ t ∈ ts, ∃ a, (c.run M ts).pool t = .ret a) : val (c.run M ts).st = val c.st := by
  have hstart : Accounts d val ts.toFinset (val c.st) (fun _ => 0) c :=
    ⟨hp, by simp⟩
  obtain ⟨n, h⟩ := hstart.run (M := M) hval fun t => List.mem_toFinset.mpr
  have hzero : ∑ t ∈ ts.toFinset, n t = 0 := by
    refine Finset.sum_eq_zero fun t ht => ?_
    obtain ⟨a, ha⟩ := hret t (List.mem_toFinset.mp ht)
    have howes := h.owes t
    rw [ha] at howes
    exact howes
  rw [h.total, hzero, add_zero]

end Run

end Shdata.Conc
