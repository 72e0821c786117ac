/-
Shdata.Conc.Erase — threads that the others cannot see.

Some threads of a pool are observed. The others leave the part `view` of the
state alone, and an observed operation depends on that part only. Then
the steps of the unobserved threads can be erased from any schedule:
`run_erase`. Whether these threads run, stop half way or do not exist makes no
difference to the observed ones.
-/
import Shdata.Conc.Prog

namespace Shdata.Conc

variable {Op : Type} {Resp : Op → Type} {T σ ν α : Type}

/-- The operations `P t` of the threads outside `V` keep the view, and those of the
threads in `V` see nothing else. -/
structure Unseen (M : Machine Resp T σ) (view : σ → ν) (V : T → Prop) (P : T → Op → Prop) :
    Prop where
  keeps : ∀ t o s, ¬ V t → P t o → view (M.step t o s).1 = view s
  state : ∀ t o s s', V t → P t o → view s = view s' →
    view (M.step t o s).1 = view (M.step t o s').1
  resp : ∀ t o s s', V t → P t o → view s = view s' → (M.step t o s).2 = (M.step t o s').2

/-- Two configurations that look the same. -/
structure SameView (view : σ → ν) (V : T → Prop) (P : T → Op → Prop)
    (c c' : Config Resp T σ α) : Prop where
  ops : ∀ t, (c.pool t).AllOps (P t)
  st : view c.st = view c'.st
  pool : ∀ t, V t → c.pool t = c'.pool t

variable [DecidableEq T] {M : Machine Resp T σ} {view : σ → ν} {V : T → Prop} {P : T → Op → Prop}
  {c c' : Config Resp T σ α}

/-- The same step on both sides. -/
theorem SameView.tick (hM : Unseen M view V P) (h : SameView view V P c c') {t : T} (ht : V t) :
    SameView view V P (c.tick M t) (c'.tick M t) := by
  have hpool := h.pool t ht
  have hops := h.ops t
  cases hp : c.pool t with
  | ret a => rwa [Config.tick_ret hp, Config.tick_ret (hpool ▸ hp)]
  | op o k =>
    rw [hp] at hops
    rw [Config.tick_op hp, Config.tick_op (hpool ▸ hp)]
    refine ⟨fun u => ?_, hM.state t o _ _ ht hops.1 h.st, fun u hu => ?_⟩
    · by_cases hut : u = t
      · subst hut
        simpa using (Prog.allOps_op.mp hops).2 _
      · simpa [Function.update_of_ne hut] using h.ops u
    · by_cases hut : u = t
      · subst hut
        simp [hM.resp _ o _ _ hu hops.1 h.st]
      · simpa [Function.update_of_ne hut] using h.pool u hu

/-- A step of an unobserved thread on one side only. -/
theorem SameView.tick_left (hM : Unseen M view V P) (h : SameView view V P c c') {t : T}
    (ht : ¬ V t) : SameView view V P (c.tick M t) c' := by
  have hops := h.ops t
  cases hp : c.pool t with
  | ret a => rwa [Config.tick_ret hp]
  | op o k =>
    rw [hp] at hops
    rw [Config.tick_op hp]
    refine ⟨fun u => ?_, (hM.keeps t o _ ht hops.1).trans h.st, fun u hu => ?_⟩
    · by_cases hut : u = t
      · subst hut
        simpa using (Prog.allOps_op.mp hops).2 _
      · simpa [Function.update_of_ne hut] using h.ops u
    · have hut : u ≠ t := fun e => ht (e ▸ hu)
      simpa [Function.update_of_ne hut] using h.pool u hu

theorem SameView.run [DecidablePred V] (hM : Unseen M view V P) (h : SameView view V P c c')
    (ts : List T) : SameView view V P (c.run M ts) (c'.run M (ts.filter V)) := by
  induction ts generalizing c c' with
  | nil => exact h
  | cons t ts ih =>
    by_cases ht : V t
    · rw [List.filter_cons_of_pos (by simpa using ht)]
      exact ih (h.tick hM ht)
    · rw [List.filter_cons_of_neg (by simpa using ht)]
      exact ih (h.tick_left hM ht)

/-- **Erasure.** Without the steps of the unobserved threads the view is the same, and so is
the program that each observed thread has left. -/
theorem run_erase [DecidablePred V] (hM : Unseen M view V P) (hc : ∀ t, (c.pool t).AllOps (P t))
    (ts : List T) : view (c.run M ts).st = view (c.run M (ts.filter V)).st ∧
      ∀ t, V t → (c.run M ts).pool t = (c.run M (ts.filter V)).pool t := by
  have h := SameView.run hM ⟨hc, rfl, fun _ _ => rfl⟩ ts
  exact ⟨h.st, h.pool⟩

end Shdata.Conc
