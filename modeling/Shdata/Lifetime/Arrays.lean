/-
Shdata.Lifetime.Arrays — when a consumer loses a metadata array.

A successful `shd_select_samples` allocates an array and overwrites the pointer to the one
before. `shd_end_read` frees the array unless it finds the samples overwritten, and
`shd_close` frees none. `arrays_returned_iff`: every array that a consumer was given
is freed exactly if each successful selection is ended, with 0 or `-ENODEV`,
before the next one and before the context is closed.
-/
import Shdata.Consumer.Ownership

namespace Shdata.Lifetime

open Shdata.Conc Shdata.Core Shdata.Layout Shdata.Consumer

variable {F : Futils} {ctx ctx' : ShdCtx} {tr : List (Event Op.Resp)} {rets : List Int}

/-- Calls with their return codes such that no array in use is dropped, neither by
a selection nor in the end. -/
def Returns : Holding → List (ConsCall × Int) → Prop
  | h, [] => h ≠ .live
  | h, (c, ret) :: cs => (c.takes ret → h ≠ .live) ∧ Returns (h.after c ret) cs

instance decidableReturns : (h : Holding) → (cs : List (ConsCall × Int)) → Decidable (Returns h cs)
  | h, [] => inferInstanceAs (Decidable (h ≠ .live))
  | h, (c, ret) :: cs =>
    have := decidableReturns (h.after c ret) cs
    inferInstanceAs (Decidable ((c.takes ret → h ≠ .live) ∧ Returns (h.after c ret) cs))

/-- The array in use, if there is one. -/
def inUse (h : Holding) (p : Option Nat) : List Nat := if h = .live then p.toList else []

theorem mem_inUse {h : Holding} {p : Option Nat} {q : Nat} :
    q ∈ inUse h p ↔ h = .live ∧ p = some q := by
  by_cases hlive : h = .live <;> simp [inUse, hlive]

/-- Whether the pointer of the context is NULL. -/
def Points (h : Holding) (p : Option Nat) : Prop := h = .null ↔ p = none

/-- The end of a read frees the array of the last selection. -/
theorem consCalls_released_sub (cs : List ConsCall) (hN : RingSize ctx.desc.nbSamples)
    (hy : (consCalls F cs ctx).Yields tr (rets, ctx')) :
    ∀ p ∈ released (heapEvents tr), p ∈ ctx.metadata.toList ++ allocated (heapEvents tr) := by
  induction cs generalizing ctx tr rets with
  | nil =>
    obtain ⟨rfl, -⟩ := hy
    exact fun p hp => absurd hp List.not_mem_nil
  | cons c cs ih =>
    obtain ⟨tr₁, r, tr', hc, hrest, rfl⟩ := Prog.yields_bind.mp hy
    obtain ⟨tr₂, rs, tr₃, hcs, ⟨rfl, he⟩, rfl⟩ := Prog.yields_bind.mp hrest
    obtain ⟨rfl, rfl⟩ := Prod.mk.inj he
    obtain ⟨hdesc, hheap⟩ := consCall_heap hN hc
    have hsub := ih (hdesc ▸ hN) hcs
    rw [List.append_nil, heapEvents_append, released_append, allocated_append]
    intro p hp
    rcases hheap with ⟨-, q, hev, hq⟩ | ⟨-, hq, hev⟩
    · rw [hev] at hp ⊢
      have := hsub p hp
      rw [hq] at this
      exact List.mem_append_right _ this
    · rw [← hq]
      rcases List.mem_append.mp hp with hp | hp
      · rw [hev] at hp
        split at hp
        · rw [← hq] at hp
          cases hmeta : r.2.metadata with
          | none => simp [released, hmeta] at hp
          | some q =>
            have : p = q := by simpa [released, hmeta] using hp
            simp [this]
        · exact absurd hp List.not_mem_nil
      · rcases List.mem_append.mp (hsub p hp) with hin | hin
        · exact List.mem_append_left _ hin
        · exact List.mem_append_right _ (List.mem_append_right _ hin)

/-- Any calls of a consumer: the array in use and those that are allocated get freed
exactly if none is dropped. -/
theorem consCalls_returned (cs : List ConsCall) {h : Holding} (hN : RingSize ctx.desc.nbSamples)
    (hpoints : Points h ctx.metadata) (hnew : (allocated (heapEvents tr)).Nodup)
    (hfresh : ∀ p ∈ allocated (heapEvents tr), ctx.metadata ≠ some p)
    (hy : (consCalls F cs ctx).Yields tr (rets, ctx')) :
    (∀ p ∈ inUse h ctx.metadata ++ allocated (heapEvents tr), p ∈ released (heapEvents tr)) ↔
      Returns h (cs.zip rets) := by
  induction cs generalizing ctx tr rets h with
  | nil =>
    obtain ⟨rfl, he⟩ := hy
    obtain ⟨rfl, -⟩ := Prod.mk.inj he
    show (∀ p ∈ inUse h ctx.metadata ++ [], p ∈ []) ↔ h ≠ .live
    rw [List.append_nil]
    cases h with
    | live =>
      obtain ⟨q, hq⟩ := Option.ne_none_iff_exists'.mp fun e => absurd (hpoints.mpr e) (by decide)
      refine iff_of_false (fun hall => ?_) fun hne => hne rfl
      exact absurd (hall q (by simp [inUse, hq])) List.not_mem_nil
    | _ => exact iff_of_true (fun p hp => absurd hp List.not_mem_nil) (by decide)
  | cons c cs ih =>
    obtain ⟨tr₁, r, tr', hc, hrest, rfl⟩ := Prog.yields_bind.mp hy
    obtain ⟨tr₂, rs, tr₃, hcs, ⟨rfl, he⟩, rfl⟩ := Prog.yields_bind.mp hrest
    obtain ⟨rfl, rfl⟩ := Prod.mk.inj he
    rw [List.append_nil] at hnew hfresh ⊢
    rw [heapEvents_append, allocated_append] at hnew hfresh
    rw [heapEvents_append, released_append, allocated_append, List.zip_cons_cons, Returns]
    obtain ⟨hdesc, ⟨htake, p, hev, hp⟩ | ⟨htake, hp, hev⟩⟩ := consCall_heap hN hc
    · -- the selection overwrites the pointer to an array in use
      have hafter : h.after c r.1 = .live := if_pos htake
      rw [hev] at hnew hfresh ⊢
      have hpoints' : Points .live r.2.metadata := iff_of_false (by decide) (by simp [hp])
      have hfresh' : ∀ q ∈ allocated (heapEvents tr₂), r.2.metadata ≠ some q := by
        intro q hq he
        obtain rfl : p = q := Option.some.inj (hp.symm.trans he)
        exact (List.nodup_cons.mp hnew).1 hq
      have hnext := ih (hdesc ▸ hN) hpoints' (List.nodup_cons.mp hnew).2 hfresh' hcs
      have hsub := consCalls_released_sub cs (hdesc ▸ hN) hcs
      have huse : inUse .live r.2.metadata = [p] := by rw [hp]; rfl
      rw [huse] at hnext
      rw [hp] at hsub
      rw [hafter, ← hnext]
      constructor
      · refine fun hall => ⟨fun _ hlive => ?_, fun x hx => hall x (List.mem_append_right _ hx)⟩
        obtain ⟨q, hq⟩ := Option.ne_none_iff_exists'.mp fun e => absurd (hpoints.mpr e) (by simp [hlive])
        have hmem := hsub q (hall q (List.mem_append_left _ (mem_inUse.mpr ⟨hlive, hq⟩)))
        exact hfresh q hmem hq
      · rintro ⟨hdead, hall⟩ x hx
        rcases List.mem_append.mp hx with hx | hx
        · exact absurd (mem_inUse.mp hx).1 (hdead htake)
        · exact hall x hx
    · have hquiet : allocated (heapEvents tr₁) = [] := by
        rw [hev]
        split <;> rfl
      rw [hquiet, List.nil_append] at hnew hfresh ⊢
      rw [← hp] at hfresh hpoints
      have hnone : (c.takes r.1 → h ≠ .live) := fun ht => absurd (htake.symm.trans ht) (by decide)
      rw [and_iff_right hnone]
      cases hgive : c.gives r.1 with
      | false =>
        have hafter : h.after c r.1 = h := by rw [Holding.after, htake, hgive]; rfl
        rw [hafter, ← ih (hdesc ▸ hN) hpoints hnew hfresh hcs, hev, hgive, ← hp]
        rfl
      | true =>
        -- the array in use is freed, and no other one
        have hafter : h.after c r.1 = if h = .null then .null else .spent := by
          rw [Holding.after, htake, hgive]
          rfl
        have hpoints' : Points (h.after c r.1) r.2.metadata := by
          rw [hafter]
          refine Iff.trans ?_ hpoints
          by_cases hnull : h = .null <;> simp [hnull]
        have hidle : inUse (h.after c r.1) r.2.metadata = [] := by
          rw [hafter]
          by_cases hnull : h = .null <;> simp [hnull, inUse]
        rw [← ih (hdesc ▸ hN) hpoints' hnew hfresh hcs, hidle, List.nil_append, hev, hgive, ← hp]
        constructor
        · intro hall x hx
          rcases List.mem_append.mp (hall x (List.mem_append_right _ hx)) with hin | hin
          · exact absurd (by simpa [released] using hin) (hfresh x hx)
          · exact hin
        · intro hall x hx
          rcases List.mem_append.mp hx with hx | hx
          · refine List.mem_append_left _ ?_
            simp [released, (mem_inUse.mp hx).2]
          · exact List.mem_append_right _ (hall x hx)

/-- **No metadata array is lost** exactly if each one is given back before the next selection
and before the context is closed. The other threads of the pool run any programs, and
`rets` are the return codes the calls happen to get. -/
theorem arrays_returned_iff {Ω : Type} (B : Backend Ω) (F : Futils) {ctx ctx' : ShdCtx}
    (hN : RingSize ctx.desc.nbSamples) (hctx : ctx.metadata = none) (cs : List ConsCall)
    (rets : List Int) (t : Nat) (c : Config Op.Resp Nat (World Ω) (List Int × ShdCtx))
    (hc : c.pool t = consCalls F cs ctx) (ts : List Nat)
    (hdone : (c.run (machine B) ts).pool t = .ret (rets, ctx')) :
    allocated (heapEvents (c.trace (machine B) t ts))
        ⊆ released (heapEvents (c.trace (machine B) t ts)) ↔
      Returns .null (cs.zip rets) := by
  have hy := yields_run (machine B) t c ts hdone
  rw [hc] at hy
  have hpoints : Points .null ctx.metadata := iff_of_true rfl hctx
  refine consCalls_returned cs hN hpoints (trace_allocated B t c ts) (fun p _ => ?_) hy
  rw [hctx]
  exact (Option.some_ne_none p).symm

/-- Each of the two arrays is given back. -/
theorem arrays_returned_own :
    allocated (heapEvents ((sessions ownSessions).trace (machine shm) 1 (List.replicate 80 1)))
      ⊆ released (heapEvents
        ((sessions ownSessions).trace (machine shm) 1 (List.replicate 80 1))) := by
  have hdone : (sessionsEnd ownSessions).returned
      = some ([0, 0, 0, 0], ((sessionsEnd ownSessions).returned.getD default).2) := by
    decide +kernel
  exact (arrays_returned_iff shm libfutils ⟨by decide +kernel, by decide +kernel⟩
    (by decide +kernel) ownSessions [0, 0, 0, 0] 1 (sessions ownSessions) rfl
    (List.replicate 80 1) (Prog.eq_ret_of_returned hdone)).mpr (by decide)

end Shdata.Lifetime
