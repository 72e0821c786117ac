/-
Shdata.Consumer.Margin — what `shd_search_end` decides.

A search starts after `k` commits and ends after `k + n`. The first slot of
its window was rewritten in between exactly if `n` exceeds the distance `g`
of that slot from the one after the latest sample. The function sees `n`
modulo the size of the ring only, so it misses the overwrites with
`n % N ≤ g < n` (`searchEnd_iff`). The comparison of two counters that it makes
as well decides nothing in the first 2^31 turns (`searchEnd_right_iff_laps`).
-/
import Shdata.Consumer.AtRest

namespace Shdata.Consumer

open Shdata.Conc Shdata.Bytes Shdata.Core Shdata.Ring Shdata.Layout Shdata.Trace Shdata.Producer
  Shdata.Solo

variable {Ω : Type} {B : Backend Ω} {d : DataSectionDesc}

/-! ## Rewritten slots -/

/-- One of the `n` commits after the first `k` went to the slot. -/
def Rewritten (N : Int) (k n : Nat) (i : Int) : Prop := ∃ x : Nat, x < n ∧ ((k : Int) + x) % N = i

theorem rewritten_iff {N : Int} (hN : RingSize N) (k n : Nat) {i : Int} (hi : IsSlot N i) :
    Rewritten N k n i ↔ gap N k i < n := by
  have hhit := hit_iff hN.pos (k : Int) (k + n) i
  rw [hi.emod] at hhit
  have hnn := gap_nonneg hN.pos (k : Int) i
  constructor
  · rintro ⟨x, hx, he⟩
    have := hhit.mp ⟨k + x, by omega, by omega, he⟩
    omega
  · intro h
    obtain ⟨j, h0, h1, hj⟩ := hhit.mpr (by omega)
    refine ⟨(j - k).toNat, by omega, ?_⟩
    rw [Int.toNat_of_nonneg (by omega), show (k : Int) + (j - k) = j by ring]
    exact hj

/-- The number of new samples, as the write index shows it. -/
theorem gap_new (N : Int) (k n : Nat) :
    gap N (((k : Int) - 1) % N) ((((k + n : Nat) : Int) - 1) % N) = (n : Int) % N := by
  rw [gap_emod_left, gap_emod_right, gap]
  congr 1
  push_cast
  ring

/-- The slot after the latest sample is that of the next commit. -/
theorem gap_searchCtx (hd : SoundDesc d) {s : World Ω × History} (h : AtRest B d s) (i : Int) :
    gap d.nbSamples ((searchCtx d s.1.mem).tIndex + 1) i = gap d.nbSamples s.2.commits.length i := by
  show gap d.nbSamples (writeIndex s.1.mem + 1) i = _
  rw [h.index hd, gap_after_last]

/-- What the function answers for a slot at distance `g`: right if it sees enough of the
`n` new samples, modulo the size of the ring. -/
theorem searchEnd_right_iff (B : Backend Ω) (hd : SoundDesc d) {s₀ s₁ : World Ω × History}
    (h₀ : AtRest B d s₀) (h₁ : AtRest B d s₁) {n : Nat}
    (hn : s₁.2.commits.length = s₀.2.commits.length + n) (u : Nat) {i : Int}
    (hi : IsSlot d.nbSamples i) :
    (((exec (machine B) u (searchEnd 40 (searchCtx d s₀.1.mem) i d) s₁.1).1 = true ↔
        Rewritten d.nbSamples s₀.2.commits.length n i) ↔
      (n ≤ gap d.nbSamples s₀.2.commits.length i ∨
        (gap d.nbSamples s₀.2.commits.length i < n % d.nbSamples ∧
          nbWrites d s₀.1.mem (writeIndex s₀.1.mem) ≤ nbWrites d s₁.1.mem i))) := by
  have ht := h₀.isSlot_index hd
  have hnew : gap d.nbSamples (searchCtx d s₀.1.mem).tIndex (writeIndex s₁.1.mem)
      = n % d.nbSamples := by
    show gap d.nbSamples (writeIndex s₀.1.mem) _ = _
    rw [h₀.index hd, h₁.index hd, hn, gap_new]
  have hend := exec_searchEnd (B := B) (u := u) (w := s₁.1) (searchCtx d s₀.1.mem) hd ht
    (h₁.isSlot_index hd) hi
  rw [hnew, gap_searchCtx hd h₀] at hend
  have hlt := gap_lt hd.size.pos (s₀.2.commits.length : Int) i
  rw [hend, rewritten_iff hd.size s₀.2.commits.length n hi, decide_eq_true_eq]
  show (_ ∧ nbWrites d s₀.1.mem (writeIndex s₀.1.mem) ≤ _ ↔ _) ↔ _
  by_cases hle : (n : Int) ≤ gap d.nbSamples s₀.2.commits.length i
  · -- fewer new samples than a turn: the function sees their number
    have hmod : (n : Int) % d.nbSamples = n := emod_of_bounds (by omega) (by omega)
    rw [hmod]
    exact iff_of_true (iff_of_false (fun h => absurd h.1 (by omega)) (by omega)) (Or.inl hle)
  · constructor
    · intro h
      exact Or.inr (h.mpr (by omega))
    · rintro (h | h)
      · exact absurd h hle
      · exact iff_of_true h (by omega)

/-- **What `shd_search_end` tells.** A search starts at rest and ends at rest, `n`
commits of any producers later. The first slot of the window was rewritten
exactly if `n` exceeds its distance from the slot after the latest sample.
The function says so exactly if it was not, or if `n % N` exceeds the
distance as well and the counter of the slot is not below that of the latest
sample at the start. -/
theorem searchEnd_iff (B : Backend Ω) (hd : SoundDesc d) {s₀ s₁ : World Ω × History}
    (h₀ : AtRest B d s₀) (h₁ : AtRest B d s₁) {n : Nat}
    (hn : s₁.2.commits.length = s₀.2.commits.length + n) {u : Nat} {ctx : SearchCtx}
    (hstart : exec (machine B) u (searchStart 40 d) s₀.1 = (ctx, s₀.1)) {i : Int}
    (hi : IsSlot d.nbSamples i) :
    (Rewritten d.nbSamples s₀.2.commits.length n i ↔ gap d.nbSamples (ctx.tIndex + 1) i < n) ∧
    (((exec (machine B) u (searchEnd 40 ctx i d) s₁.1).1 = true ↔
        Rewritten d.nbSamples s₀.2.commits.length n i) ↔
      (n ≤ gap d.nbSamples (ctx.tIndex + 1) i ∨
        (gap d.nbSamples (ctx.tIndex + 1) i < n % d.nbSamples ∧
          nbWrites d s₀.1.mem ctx.tIndex ≤ nbWrites d s₁.1.mem i))) := by
  rw [exec_searchStart hd (h₀.isSlot_index hd)] at hstart
  obtain ⟨rfl, -⟩ := Prod.mk.inj hstart
  rw [gap_searchCtx hd h₀]
  exact ⟨rewritten_iff hd.size s₀.2.commits.length n hi,
    searchEnd_right_iff B hd h₀ h₁ hn u hi⟩

/-- In the first 2^31 turns a slot that was rewritten has a counter that is not below
the one of the latest sample at the start. -/
theorem counter_of_rewritten (hd : SoundDesc d) {s₀ s₁ : World Ω × History} (h₀ : AtRest B d s₀)
    (h₁ : AtRest B d s₁) {n : Nat} (hn : s₁.2.commits.length = s₀.2.commits.length + n)
    (hlaps : (s₁.2.commits.length : Int) < 2147483648 * d.nbSamples) {i : Int}
    (hi : IsSlot d.nbSamples i) (h : Rewritten d.nbSamples s₀.2.commits.length n i) :
    nbWrites d s₀.1.mem (writeIndex s₀.1.mem) ≤ nbWrites d s₁.1.mem i := by
  obtain ⟨x, hx, rfl⟩ := h
  have hpos := hd.size.pos
  have hk := h₀.pos
  rw [nbWrites_laps hd (h₀.ring hd) (by omega) (h₀.isSlot_index hd),
    nbWrites_laps hd (h₁.ring hd) hlaps hi, h₀.index hd]
  -- both are numbers of whole turns, of the last commit before and of commit `k + x`
  have hlast := Int.mul_ediv_add_emod ((s₀.2.commits.length : Int) - 1) d.nbSamples
  have hlater := Int.mul_ediv_add_emod ((s₀.2.commits.length : Int) + x) d.nbSamples
  have hturns : ((s₀.2.commits.length : Int) - 1) / d.nbSamples
      ≤ ((s₀.2.commits.length : Int) + x) / d.nbSamples :=
    Int.ediv_le_ediv hpos (by omega)
  have hmul := Int.mul_le_mul_of_nonneg_left hturns hpos.le
  exact Int.ediv_le_ediv hpos (by omega)

/-- **In the first 2^31 turns** only the number of new samples, modulo the size of the
ring, decides whether the function is right. -/
theorem searchEnd_right_iff_laps (B : Backend Ω) (hd : SoundDesc d) {s₀ s₁ : World Ω × History}
    (h₀ : AtRest B d s₀) (h₁ : AtRest B d s₁) {n : Nat}
    (hn : s₁.2.commits.length = s₀.2.commits.length + n)
    (hlaps : (s₁.2.commits.length : Int) < 2147483648 * d.nbSamples) (u : Nat) {i : Int}
    (hi : IsSlot d.nbSamples i) :
    (((exec (machine B) u (searchEnd 40 (searchCtx d s₀.1.mem) i d) s₁.1).1 = true ↔
        Rewritten d.nbSamples s₀.2.commits.length n i) ↔
      (n ≤ gap d.nbSamples s₀.2.commits.length i ∨
        gap d.nbSamples s₀.2.commits.length i < n % d.nbSamples)) := by
  rw [searchEnd_right_iff B hd h₀ h₁ hn u hi]
  refine or_congr_right ⟨fun h => h.1, fun h => ⟨h, ?_⟩⟩
  have hmod := Int.mul_ediv_add_emod (n : Int) d.nbSamples
  have hturns := Int.mul_nonneg hd.size.pos.le
    (Int.ediv_nonneg (show (0 : Int) ≤ n by omega) hd.size.pos.le)
  exact counter_of_rewritten hd h₀ h₁ hn hlaps hi
    ((rewritten_iff hd.size s₀.2.commits.length n hi).mpr (by omega))

/-! ## A turn of the ring -/

/-- A search that starts with four samples in a ring of four. -/
def startsFull : SearchCtx := searchCtx ⟨56, 4, 4⟩ (partlyFilled 4).1.mem

/-- One more sample: the oldest slot was rewritten, and the search is told. -/
theorem searchEnd_iff_one :
    (exec (machine shm) 1 (searchEnd 40 startsFull 0 ⟨56, 4, 4⟩) (partlyFilled 5).1).1 = true ↔
      Rewritten 4 4 1 0 := by
  have hf : FitsHdr ⟨4, 4, 1, 0⟩ := ⟨⟨by decide, by decide⟩, by decide⟩
  have h₀ := atRest_partlyFilled 4 (by decide) (by decide +kernel) (by decide +kernel)
  have h₁ := atRest_partlyFilled 5 (by decide) (by decide +kernel) (by decide +kernel)
  have hlen : (partlyFilled 4).2.commits.length = 4 := by decide +kernel
  have hd := soundDesc_of_fits hf
  have hstart := exec_searchStart (B := shm) (u := 1) hd (h₀.isSlot_index hd)
  have hiff := (searchEnd_iff shm hd h₀ h₁ (n := 1) (by decide +kernel) hstart (i := 0)
    ⟨by decide, by decide⟩).2.mpr (Or.inr (by decide +kernel))
  rwa [hlen] at hiff

/-- Four more: every slot was rewritten, and the search is told that none was. -/
theorem searchEnd_misses :
    (partlyFilled 4).2.commits.length = 4 ∧ (partlyFilled 8).2.commits.length = 8 ∧
      (exec (machine shm) 1 (searchStart 40 ⟨56, 4, 4⟩) (partlyFilled 4).1).1 = startsFull ∧
      (exec (machine shm) 1 (searchEnd 40 startsFull 0 ⟨56, 4, 4⟩) (partlyFilled 8).1).1 = false ∧
      Rewritten 4 4 4 0 :=
  ⟨by decide +kernel, by decide +kernel, by decide +kernel, by decide +kernel, 0, by decide,
    by decide⟩

end Shdata.Consumer
