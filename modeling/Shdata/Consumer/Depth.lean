/-
Shdata.Consumer.Depth — how deep a search goes.

`shd_search_get_max_depth` is there to keep a search to the samples that were
produced. It tells them by their counters, and a counter is raised when the
write of its slot starts. So it counts the slots that were reserved: with
`k` commits and `r` reservations, `N` as soon as `N ≤ r`, else `k`
(`exec_searchDepth`). That is `min(k, N)` unless the last slot that was
never used is being written: `depth_iff`.
-/
import Shdata.Consumer.Oldest

namespace Shdata.Consumer

open Shdata.Conc Shdata.Bytes Shdata.Core Shdata.Ring Shdata.Layout Shdata.Trace Shdata.Producer
  Shdata.Solo

variable {Ω : Type} {B : Backend Ω} {d : DataSectionDesc} {t : Nat}

/-- `shd_search_get_max_depth` with the context that `shd_search_start` gives. -/
def searchDepth (desc : DataSectionDesc) : ShdProg Int := do
  let ctx ← searchStart 40 desc
  searchGetMaxDepth desc ctx

theorem exec_searchDepth {k r : Nat} {log : List Commit} {w : World Ω} (hd : SoundDesc d)
    (hr : RingMem d r log w.mem) (hlaps : (r : Int) < 2147483648 * d.nbSamples)
    (hlen : log.length = k) (hk : 0 < k) (hkr : k ≤ r) (hrk : r ≤ k + 1) (u : Nat) :
    exec (machine B) u (searchDepth d) w = (if d.nbSamples ≤ r then d.nbSamples else k, w) := by
  have hne : log ≠ [] := List.ne_nil_of_length_pos (by omega)
  have ht := hr.isSlot_index hd hne
  obtain ⟨D, hD, hex⟩ := exec_searchGetMaxDepth (B := B) (u := u) (w := w) hd ht
  rw [hr.index_last hne, hlen] at hD
  rw [searchDepth, exec_bind, exec_searchStart hd ht, hex, depth_eq hd hr hlaps hk hkr hrk hD]

/-- The last slot that was never used is being written. -/
structure LastSlotTaken (d : DataSectionDesc) (h : History) : Prop where
  writing : h.commits.length < h.reserved.length
  last : (h.reserved.length : Int) = d.nbSamples

/-- **The depth of a search is the number of retained samples**, in a state that the only
producer of a section left in the first 2^31 turns, exactly if the last free slot is
not the one that is being written. -/
theorem depth_iff (B : Backend Ω) (hd : SoundDesc d) {s : World Ω × History}
    (hs : OnlyReached B d t s) (hk : s.2.commits ≠ [])
    (hlaps : (s.2.reserved.length : Int) < 2147483648 * d.nbSamples) (u : Nat) :
    (exec (machine B) u (searchDepth d) s.1).1 = min (s.2.commits.length : Int) d.nbSamples ↔
      ¬ LastSlotTaken d s.2 := by
  have hinv := hs.inv hd
  have hphase := hinv.phase
  have hpos : 0 < s.2.commits.length := List.length_pos_iff.mpr hk
  rw [exec_searchDepth hd hinv.ring hlaps rfl hpos (by omega) (by omega) u]
  constructor
  · rintro heq ⟨hwriting, hlast⟩
    rw [if_pos (le_of_eq hlast.symm), min_eq_left (by omega)] at heq
    omega
  · intro hfree
    by_cases hfull : d.nbSamples ≤ s.2.reserved.length
    · have hle : d.nbSamples ≤ s.2.commits.length := by
        by_contra hlt
        exact hfree ⟨by omega, by omega⟩
      rw [if_pos hfull, min_eq_right hle]
    · rw [if_neg hfull, min_eq_left (by omega)]

/-- One commit, and the second of the two slots is being written. -/
theorem depth_iff_two :
    (exec (machine shm) 1 (searchDepth ⟨56, 4, 2⟩) lastSlotTaken.1).1
        = min (lastSlotTaken.2.commits.length : Int) 2 ↔
      ¬ LastSlotTaken ⟨56, 4, 2⟩ lastSlotTaken.2 := by
  have hf : FitsHdr ⟨4, 2, 1, 0⟩ := ⟨⟨by decide, by decide⟩, by decide⟩
  have hone : lastSlotTaken.2.commits.length = 1 := by decide +kernel
  have htwo : lastSlotTaken.2.reserved.length = 2 := by decide +kernel
  refine depth_iff shm (soundDesc_of_fits hf) lastSlotTaken_reached ?_ ?_ 1
  · exact List.ne_nil_of_length_pos (by omega)
  · rw [htwo]
    decide

/-- There the search goes 2 samples deep, and one was committed. -/
theorem depth_too_large :
    OnlyReached shm ⟨56, 4, 2⟩ 0 lastSlotTaken ∧ lastSlotTaken.2.commits.length = 1 ∧
      (exec (machine shm) 1 (searchDepth ⟨56, 4, 2⟩) lastSlotTaken.1).1 = 2 ∧
      (exec (machine shm) 1 (searchDepth ⟨56, 4, 2⟩) lastSlotTaken.1).1
        ≠ min (lastSlotTaken.2.commits.length : Int) 2 :=
  ⟨lastSlotTaken_reached, by decide +kernel, by decide +kernel, by decide +kernel⟩

end Shdata.Consumer
