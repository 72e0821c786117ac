/-
Shdata.Trace.RingMem — what the bytes of a section say about its history.

A section of `N` slots that saw `r` reservations and the commits `log` holds,
between two operations, exactly this:

* `write_index` designates the slot of the last commit, `-1` without one;
* the counter of a slot is one less than the number of reservations of that
  slot (`laps`), as an `int`: it starts at `-1` and is bumped by each of them;
* commit `j` is still in slot `j % N`, unless the reservation `j + N` was
  made.

There is one lemma for each kind of write of a producer: the reset of the
ongoing counter, the reservation, a copy into the reserved slot, the commit.
-/
import Shdata.Layout.Slots

namespace Shdata.Trace

open Shdata.Bytes Shdata.Core Shdata.Ring Shdata.Layout

/-- One commit: who made it, the index it published and the sample it left. -/
structure Commit where
  thread : Nat
  index : Int
  metadata : List UInt8
  blob : List UInt8
  deriving DecidableEq, Repr

/-- The bytes of a section after `r` reservations and the commits `log`. -/
structure RingMem (d : DataSectionDesc) (r : Nat) (log : List Commit) (m : Mem) : Prop where
  index : writeIndex m = if log = [] then -1 else ((log.length : Int) - 1) % d.nbSamples
  counts : ∀ i, IsSlot d.nbSamples i → nbWrites d m i = toI32 ((laps d.nbSamples i r : Int) - 1)
  samples : ∀ (j : Nat) (c : Commit), log[j]? = some c → (r : Int) ≤ j + d.nbSamples →
    metadataOf d m ((j : Int) % d.nbSamples) = c.metadata ∧
      blobOf d m ((j : Int) % d.nbSamples) = c.blob

section RingMem

variable {d : DataSectionDesc} {r : Nat} {log : List Commit} {m m' : Mem}

/-! ## Reading the index -/

theorem RingMem.index_empty (h : RingMem d r [] m) : writeIndex m = -1 := by
  simpa using h.index

theorem RingMem.index_last (h : RingMem d r log m) (hk : log ≠ []) :
    writeIndex m = ((log.length : Int) - 1) % d.nbSamples := by
  simpa [hk] using h.index

theorem RingMem.isSlot_index (hd : SoundDesc d) (h : RingMem d r log m) (hk : log ≠ []) :
    IsSlot d.nbSamples (writeIndex m) := by
  rw [h.index_last hk]
  exact isSlot_emod hd.size _

/-- The slot after the published one is that of the next commit. -/
theorem RingMem.index_next (hd : SoundDesc d) (h : RingMem d r log m) :
    indexNext (writeIndex m) d.nbSamples = (log.length : Int) % d.nbSamples := by
  by_cases hk : log = []
  · subst hk
    rw [h.index_empty, indexNext_eq hd.size (by omega) (by have := hd.size.pos; omega)]
    rfl
  · have hs := h.isSlot_index hd hk
    rw [indexNext_eq hd.size (by have := hs.nonneg; omega) hs.lt, h.index_last hk, emod_add_emod]
    congr 1
    ring

/-! ## Frames -/

theorem metadataOf_congr {i : Int} (h : ∀ x, slot d i ≤ x → x < slot d i + 32 → m' x = m x) :
    metadataOf d m' i = metadataOf d m i :=
  Mem.read_congr fun x h0 h1 => h x h0 (by omega)

theorem blobOf_congr (hd : SoundDesc d) {i : Int}
    (h : ∀ x, slot d i + 40 ≤ x → x < slot d i + stride d → m' x = m x) :
    blobOf d m' i = blobOf d m i :=
  Mem.read_congr fun x h0 h1 => h x h0 (by have := hd.stride_ge; have := hd.blob; omega)

theorem nbWrites_congr {i : Int}
    (h : ∀ x, slot d i + 32 ≤ x → x < slot d i + 36 → m' x = m x) :
    nbWrites d m' i = nbWrites d m i :=
  Mem.i32_congr fun x h0 h1 => h x h0 (by omega)

/-- A write to the header outside the index. -/
theorem RingMem.hdr (hd : SoundDesc d) (h : RingMem d r log m)
    (hs : ∀ x, (44 ≤ x ∧ x < 48) ∨ 56 ≤ x → m' x = m x) : RingMem d r log m' := by
  refine ⟨?_, fun i hi => ?_, fun j c hc hj => ?_⟩
  · have hi : writeIndex m' = writeIndex m := Mem.i32_congr fun x h0 h1 => hs x (by omega)
    rw [hi, h.index]
  · have hb := slot_bounds hd hi
    rw [nbWrites_congr fun x h0 _ => hs x (by omega)]
    exact h.counts i hi
  · have hb := slot_bounds hd (isSlot_emod hd.size (j : Int))
    rw [metadataOf_congr fun x h0 _ => hs x (by omega),
      blobOf_congr hd fun x h0 _ => hs x (by omega)]
    exact h.samples j c hc hj

/-- Bytes that no slot but `p` owns, except for the counter of `p`. -/
def OnlyData (d : DataSectionDesc) (p : Int) (m m' : Mem) : Prop :=
  ∀ x, x < slot d p ∨ (slot d p + 32 ≤ x ∧ x < slot d p + 36) ∨ slot d p + stride d ≤ x →
    m' x = m x

/-- A copy into a slot whose previous sample is given up. -/
theorem RingMem.data (hd : SoundDesc d) (h : RingMem d (log.length + 1) log m)
    (hs : OnlyData d ((log.length : Int) % d.nbSamples) m m') :
    RingMem d (log.length + 1) log m' := by
  have hp := slot_bounds hd (isSlot_emod hd.size (log.length : Int))
  have hsp := hd.stride_pos
  -- every other slot keeps all of its bytes
  have hother : ∀ i x, i ≠ (log.length : Int) % d.nbSamples → slot d i ≤ x →
      x < slot d i + stride d → m' x = m x := by
    intro i x hne h0 h1
    have := slot_disjoint hd hne
    exact hs x (by omega)
  refine ⟨?_, fun i hi => ?_, fun j c hc hj => ?_⟩
  · have hi : writeIndex m' = writeIndex m := Mem.i32_congr fun x h0 h1 => hs x (by omega)
    rw [hi, h.index]
  · rw [← h.counts i hi]
    apply nbWrites_congr
    intro x h0 h1
    by_cases hne : i = (log.length : Int) % d.nbSamples
    · subst hne
      exact hs x (by omega)
    · exact hother i x hne (by omega) (by omega)
  · have hlt : j < log.length := (List.getElem?_eq_some_iff.mp hc).1
    have hne : (j : Int) % d.nbSamples ≠ (log.length : Int) % d.nbSamples :=
      emod_ne_of_lt (by omega) (by push_cast at hj; omega)
    rw [metadataOf_congr fun x h0 h1 => hother _ x hne h0 (by omega),
      blobOf_congr hd fun x h0 h1 => hother _ x hne (by omega) h1]
    exact h.samples j c hc hj

/-! ## Reservation and commit -/

/-- The bump of the counter of the slot after the published one. -/
theorem RingMem.reserve (hd : SoundDesc d) (h : RingMem d log.length log m) :
    RingMem d (log.length + 1) log
      (m.write (slot d ((log.length : Int) % d.nbSamples) + 32)
        (encI32 (nbWrites d m ((log.length : Int) % d.nbSamples) + 1))) := by
  have hslot := isSlot_emod hd.size (log.length : Int)
  have hp := slot_bounds hd hslot
  have hsp := hd.stride_pos
  have hout := Mem.sameOutside_write m (slot d ((log.length : Int) % d.nbSamples) + 32)
    (encI32 (nbWrites d m ((log.length : Int) % d.nbSamples) + 1))
  rw [length_encI32] at hout
  refine ⟨?_, fun i hi => ?_, fun j c hc hj => ?_⟩
  · have hi : writeIndex (m.write _ _) = writeIndex m := hout.i32 (by omega)
    rw [hi, h.index]
  · by_cases hne : i = (log.length : Int) % d.nbSamples
    · subst hne
      have hcnt : (laps d.nbSamples ((log.length : Int) % d.nbSamples) (log.length + 1) : Int) - 1
          = (laps d.nbSamples ((log.length : Int) % d.nbSamples) log.length : Int) - 1 + 1 := by
        rw [laps_succ_self]
        push_cast
        ring
      rw [hcnt, ← toI32_add_toI32, ← h.counts _ hi]
      exact Mem.i32_write_same _ _ _
    · rw [laps_succ_of_ne (fun he => hne he.symm), ← h.counts i hi]
      have := slot_disjoint hd hne
      exact hout.i32 (by omega)
  · have hb := slot_bounds hd (isSlot_emod hd.size (j : Int))
    have hkeep : ∀ x, slot d ((j : Int) % d.nbSamples) ≤ x →
        x < slot d ((j : Int) % d.nbSamples) + stride d →
        x < slot d ((j : Int) % d.nbSamples) + 32 ∨ slot d ((j : Int) % d.nbSamples) + 40 ≤ x →
        x < slot d ((log.length : Int) % d.nbSamples) + 32 ∨
          slot d ((log.length : Int) % d.nbSamples) + 32 + 4 ≤ x := by
      intro x h0 h1 h2
      by_cases hne : (j : Int) % d.nbSamples = (log.length : Int) % d.nbSamples
      · rw [hne] at h0 h1 h2
        omega
      · have := slot_disjoint hd hne
        omega
    rw [metadataOf_congr fun x h0 h1 => hout x (hkeep x h0 (by omega) (by omega)),
      blobOf_congr hd fun x h0 h1 => hout x (hkeep x (by omega) h1 (by omega))]
    exact h.samples j c hc (by push_cast at hj; omega)

/-- The store of the write index: the reserved slot becomes the last sample. -/
theorem RingMem.commit (hd : SoundDesc d) (h : RingMem d (log.length + 1) log m) {c : Commit}
    (hmd : c.metadata = metadataOf d m ((log.length : Int) % d.nbSamples))
    (hblob : c.blob = blobOf d m ((log.length : Int) % d.nbSamples)) :
    RingMem d (log.length + 1) (log ++ [c])
      (m.write 44 (encI32 ((log.length : Int) % d.nbSamples))) := by
  have hslot := isSlot_emod hd.size (log.length : Int)
  have hout := Mem.sameOutside_write m 44 (encI32 ((log.length : Int) % d.nbSamples))
  rw [length_encI32] at hout
  refine ⟨?_, fun i hi => ?_, fun j c' hc hj => ?_⟩
  · have hi : writeIndex (m.write 44 (encI32 ((log.length : Int) % d.nbSamples)))
        = (log.length : Int) % d.nbSamples :=
      (Mem.i32_write_same m 44 _).trans (hslot.isI32 hd.size)
    have hlen : ((log ++ [c]).length : Int) - 1 = log.length := by
      simp
    rw [hi, if_neg (by simp), hlen]
  · have hb := slot_bounds hd hi
    rw [← h.counts i hi]
    exact hout.i32 (by omega)
  · have hb := slot_bounds hd (isSlot_emod hd.size (j : Int))
    rw [metadataOf_congr fun x h0 _ => hout x (by omega),
      blobOf_congr hd fun x h0 _ => hout x (by omega)]
    rcases Nat.lt_trichotomy j log.length with hlt | heq | hgt
    · rw [List.getElem?_append_left hlt] at hc
      exact h.samples j c' hc hj
    · subst heq
      obtain rfl : c = c' := by simpa using hc
      exact ⟨hmd.symm, hblob.symm⟩
    · have := (List.getElem?_eq_some_iff.mp hc).1
      simp at this
      omega

/-! ## Reading a counter -/

/-- In the first 2^31 turns a counter is one less than the uses of its slot. -/
theorem nbWrites_laps (hd : SoundDesc d) (hr : RingMem d r log m)
    (hlaps : (r : Int) < 2147483648 * d.nbSamples) {i : Int} (hi : IsSlot d.nbSamples i) :
    nbWrites d m i = ((r : Int) - 1 - i) / d.nbSamples := by
  have hpos := hd.size.pos
  have h0 := hi.nonneg
  have h1 := hi.lt
  have hup : ((r : Int) - 1 - i) / d.nbSamples < 2147483648 :=
    Int.ediv_lt_of_lt_mul hpos (by omega)
  have hlo : -1 ≤ ((r : Int) - 1 - i) / d.nbSamples :=
    Int.le_ediv_of_mul_le hpos (by omega)
  rw [hr.counts i hi, laps_eq h0 h1, show ∀ x : Int, x + 1 - 1 = x from fun x => by ring]
  exact toI32_of_isI32 ⟨by omega, by omega⟩

/-! ## A new section -/

/-- A section that was just cleared. -/
theorem ringMem_init (hi : writeIndex m = -1)
    (hc : ∀ i, IsSlot d.nbSamples i → nbWrites d m i = -1) : RingMem d 0 [] m := by
  refine ⟨by simpa using hi, fun i his => ?_, fun j c hj _ => by simp at hj⟩
  rw [hc i his, laps_zero, toI32_of_isI32 ⟨by omega, by omega⟩]
  rfl

end RingMem

end Shdata.Trace
