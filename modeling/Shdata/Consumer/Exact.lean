/-
Shdata.Consumer.Exact — which samples a window contains.

With `k` commits the ring retains the last `min k N` of them. A selection
should return, around its reference, as many retained samples on either side
as the search asks for and there are. `shd_window_set` takes the number of
older samples to be the distance from the slot after the last one to the
reference. That is the number of older samples of a full ring. Before the
ring was filled it also counts the slots that were never written.

`exactWindow_iff` says when this makes no difference: the ring is full, or
the search asks for no more older samples than were committed.
-/
import Shdata.Consumer.Session
import Shdata.Producer.OneWriter

namespace Shdata.Consumer

open Shdata.Conc Shdata.Bytes Shdata.Core Shdata.Ring Shdata.Layout Shdata.Trace Shdata.Producer
  Shdata.Solo

variable {Ω : Type}

/-! ## What the window should be -/

/-- Commit `j` of `k` is one of the last `min k N`. -/
structure Retained (N : Int) (k j : Nat) : Prop where
  lt : j < k
  recent : (k : Int) ≤ j + N

/-- Retained commits older than commit `j`. -/
def olderCommits (N : Int) (k j : Nat) : Int := j - max 0 (k - N)

/-- Commits newer than commit `j`. -/
def newerCommits (k j : Nat) : Int := k - 1 - j

/-- The samples before the reference in the window of commit `j`. -/
def wantBefore (N : Int) (search : SampleSearch) (k j : Nat) : Int :=
  min (search.nbValuesBeforeDate.toNat : Int) (olderCommits N k j)

/-- The samples after it. -/
def wantAfter (search : SampleSearch) (k j : Nat) : Int :=
  min (search.nbValuesAfterDate.toNat : Int) (newerCommits k j)

/-- The selection around commit `j` holds retained commits in their order, as many
as were asked for and there are. -/
structure ExactWindow (d : DataSectionDesc) (search : SampleSearch) (log : List Commit) (j : Nat)
    (m : Mem) (sel : Selection) : Prop where
  nbMatches : sel.result.nbMatches
    = 1 + wantBefore d.nbSamples search log.length j + wantAfter search log.length j
  rSampleIdx : sel.result.rSampleIdx = wantBefore d.nbSamples search log.length j
  samples : ∀ x : Nat, (x : Int) < sel.result.nbMatches →
    ∃ (n : Nat) (c : Commit), (n : Int) = j - wantBefore d.nbSamples search log.length j + x ∧
      Retained d.nbSamples log.length n ∧ log[n]? = some c ∧
      metadataOf d m ((sel.ctx.window.startIdx + x) % d.nbSamples) = c.metadata ∧
      blobOf d m ((sel.ctx.window.startIdx + x) % d.nbSamples) = c.blob ∧
      sel.metadata[x]? = some (decMetadata c.metadata)

/-! ## What the window is -/

section Distance

variable {N : Int} {k j : Nat}

theorem gap_after_last (N : Int) (k : Nat) (i : Int) : gap N (((k : Int) - 1) % N + 1) i = gap N k i := by
  rw [← gap_emod_left, emod_add_emod, gap_emod_left]
  congr 1
  ring

/-- The distance that `shd_window_set` takes for the number of older samples. -/
theorem gap_older (hj : Retained N k j) : gap N (((k : Int) - 1) % N + 1) ((j : Int) % N) = j + N - k := by
  have hlt := hj.lt
  have hrec := hj.recent
  rw [gap_after_last, gap_emod_right]
  unfold gap
  rw [← Int.add_emod_right, show (j : Int) - k + N = j + N - k by ring]
  exact Int.emod_eq_of_lt (by omega) (by omega)

theorem gap_newer (hj : Retained N k j) :
    gap N ((j : Int) % N) (((k : Int) - 1) % N) = newerCommits k j := by
  have hlt := hj.lt
  have hrec := hj.recent
  rw [gap_emod_left, gap_emod_right]
  unfold gap newerCommits
  exact Int.emod_eq_of_lt (by omega) (by omega)

theorem nbAfter_eq (hj : Retained N k j) (search : SampleSearch) :
    nbAfter N (((k : Int) - 1) % N) ((j : Int) % N) search = wantAfter search k j := by
  rw [nbAfter, gap_newer hj, wantAfter]
  exact min_comm _ _

/-- The number of older samples is right in a full ring, or if no more are asked
for than there are. -/
theorem nbBefore_eq_iff (hj : Retained N k j) (search : SampleSearch) :
    nbBefore N (((k : Int) - 1) % N) ((j : Int) % N) search = wantBefore N search k j
      ↔ N ≤ k ∨ search.nbValuesBeforeDate.toNat ≤ j := by
  have hlt := hj.lt
  have hrec := hj.recent
  rw [nbBefore, gap_older hj, wantBefore, olderCommits]
  constructor
  · intro h
    by_contra hno
    rw [not_or] at hno
    omega
  · rintro (hfull | hfew)
    · omega
    · omega

end Distance

/-! ## Samples of the window -/

/-- Slot `x` of the window holds the commit that is `x` after the oldest one. -/
theorem window_sample {d : DataSectionDesc} {k : Nat} {log : List Commit} {m : Mem}
    (hr : RingMem d k log m) (hk : log.length = k) {j : Nat} {b : Int} {x : Nat} {start : Int}
    (hstart : start = ((j : Int) % d.nbSamples - b) % d.nbSamples)
    (hlo : (k : Int) - d.nbSamples ≤ j - b) (h0 : 0 ≤ (j : Int) - b) (hx : (j : Int) - b + x < k) :
    ∃ (n : Nat) (c : Commit), (n : Int) = j - b + x ∧ Retained d.nbSamples k n ∧
      log[n]? = some c ∧ metadataOf d m ((start + x) % d.nbSamples) = c.metadata ∧
      blobOf d m ((start + x) % d.nbSamples) = c.blob := by
  obtain ⟨n, hn⟩ : ∃ n : Nat, (n : Int) = j - b + x := ⟨((j : Int) - b + x).toNat, by omega⟩
  have hlt : n < log.length := by omega
  have hslot : (start + x) % d.nbSamples = (n : Int) % d.nbSamples := by
    rw [hstart, emod_add_emod, hn]
    have := emod_add_emod (N := d.nbSamples) (j : Int) (-b + x)
    rw [show (j : Int) % d.nbSamples - b + x = (j : Int) % d.nbSamples + (-b + x) by ring, this]
    congr 1
    ring
  have hs := hr.samples n log[n] (List.getElem?_eq_getElem hlt) (by omega)
  rw [hslot]
  exact ⟨n, log[n], hn, ⟨by omega, by omega⟩, List.getElem?_eq_getElem hlt, hs.1, hs.2⟩

/-- **When a window is exact.** Any number of producers made at least one commit
and none is in a session; a selection succeeded around a retained commit.
The window contains exactly the samples it should if and only if the ring
is full or the search asks for no more older samples than were committed. -/
theorem exactWindow_iff (B : Backend Ω) {d : DataSectionDesc} (hd : SoundDesc d)
    {s : World Ω × History} (hs : Reached B d s) (hquiet : ∀ t, s.2.writing t = false)
    (hk : s.2.commits ≠ []) (F : Futils) {ctx : ShdCtx} (hctx : CtxFor d ctx)
    {search : SampleSearch} (hfit : Fits d.nbSamples search) (t : Nat) (result : SearchResult)
    {sel : Selection} {w' : World Ω}
    (hsel : exec (machine B) t (selectSamples F ctx search result) s.1 = (sel, w'))
    (hret : sel.ret = 0) {j : Nat} (hj : Retained d.nbSamples s.2.commits.length j)
    (href : sel.ctx.window.refIdx = (j : Int) % d.nbSamples) :
    ExactWindow d search s.2.commits j s.1.mem sel ↔
      d.nbSamples ≤ s.2.commits.length ∨ search.nbValuesBeforeDate.toNat ≤ j := by
  have hinv := hs.inv hd
  have hring := hinv.ring
  rw [(hinv.idle hquiet).2] at hring
  have hidx := hring.index_last hk
  have hslot := hring.isSlot_index hd hk
  obtain ⟨-, hselected, hmatch, hrow, hmeta⟩ :=
    exec_selectSamples hd F hfit hctx (Or.inr hslot) result hsel hret
  obtain ⟨ref, hrefslot, haround⟩ := hselected.around
  obtain rfl : ref = (j : Int) % d.nbSamples := haround.refIdx.symm.trans href
  have hnb := haround.nbMatches_eq hd.size hselected.nbMatches
  have hstart := haround.start
  have hidxrow := intervalBetween_ref hd.size hrefslot (writeIndex s.1.mem) search
  rw [← hstart] at hidxrow
  rw [href, hidxrow] at hrow
  obtain ⟨hb0, hb1, -⟩ := nbBefore_bounds hd.size.pos (writeIndex s.1.mem)
    ((j : Int) % d.nbSamples) search
  have hblt := gap_lt hd.size.pos (writeIndex s.1.mem + 1) ((j : Int) % d.nbSamples)
  have hsmall := hd.size.small
  rw [toI32_of_bounds hb0 (by omega)] at hrow
  rw [hidx] at hnb hstart hrow
  rw [nbAfter_eq hj] at hnb
  constructor
  · intro h
    rw [← nbBefore_eq_iff hj search, ← hrow]
    exact h.rSampleIdx
  · intro h
    have hbefore := (nbBefore_eq_iff hj search).mpr h
    rw [hbefore] at hnb hstart hrow
    have hlt := hj.lt
    have hrec := hj.recent
    refine ⟨by rw [hmatch, hnb]; ring, hrow, fun x hx => ?_⟩
    rw [hmatch, hnb] at hx
    have hwb : 0 ≤ (j : Int) - wantBefore d.nbSamples search s.2.commits.length j ∧
        (s.2.commits.length : Int) - d.nbSamples
          ≤ j - wantBefore d.nbSamples search s.2.commits.length j := by
      unfold wantBefore olderCommits
      omega
    have hwa : wantAfter search s.2.commits.length j ≤ s.2.commits.length - 1 - j := by
      unfold wantAfter newerCommits
      omega
    obtain ⟨n, c, hn, hret', hc, hmd, hblob⟩ :=
      window_sample hring rfl (x := x) hstart hwb.2 hwb.1 (by omega)
    refine ⟨n, c, hn, hret', hc, hmd, hblob, ?_⟩
    rw [hmeta, List.getElem?_map, List.getElem?_range (by omega)]
    simp only [Option.map_some, rowOf, Int.add_zero]
    rw [← hmd]
    rfl

/-! ## A ring that is not full -/

/-- One producer writes `k` blobs to a section of 4 slots. -/
def partlyFilled (k : Nat) : World Shm × History :=
  ((producers (created 4).2 (fun _ => (created 4).1.getD default) fun t =>
    if t = 0 then List.replicate k (.writeNewBlob [1, 2, 3, 4] 4 ⟨⟨0, 0⟩, ⟨0, 0⟩⟩) else []).run
      (tracked shm ⟨56, 4, 4⟩) (List.replicate (20 * k) 0)).st

theorem partlyFilled_reached (k : Nat) (hk : k < 1000) : Reached shm ⟨56, 4, 4⟩ (partlyFilled k) := by
  have hf : FitsHdr ⟨4, 4, 1, 0⟩ := ⟨⟨by decide, by decide⟩, by decide⟩
  obtain ⟨hw, hctx⟩ := created_fresh hf (by decide +kernel)
  refine ⟨_, _, _, _, hw, fun _ => hctx, fun t c hc => ?_, fewRefusals_of_short _ _ _ _ ?_, rfl⟩
  · by_cases ht : t = 0
    · rw [if_pos ht] at hc
      obtain rfl := List.eq_of_mem_replicate hc
      exact show (4 : Int) ≤ 4 by decide
    · rw [if_neg ht] at hc
      exact absurd hc (by simp)
  · rw [List.length_replicate]
    exact show 0 + 20 * k < 4294967295 by omega

/-- The context of a consumer that opens the section then. -/
def reader (k : Nat) : ShdCtx :=
  ((exec (machine shm) 1 (openCtx "section" none) (partlyFilled k).1).1.map Prod.fst).getD default

/-- The latest sample and up to `before` older ones. -/
def latest (before : UInt32) : SampleSearch := ⟨⟨0, 0⟩, .latest, before, 0⟩

def selectLatest (k : Nat) (before : UInt32) : Selection × World Shm :=
  exec (machine shm) 1 (selectSamples libfutils (reader k) (latest before) ⟨0, 0⟩) (partlyFilled k).1

/-- Two commits, one older sample asked for. -/
theorem exactWindow_iff_two :
    ExactWindow ⟨56, 4, 4⟩ (latest 1) (partlyFilled 2).2.commits 1 (partlyFilled 2).1.mem
      (selectLatest 2 1).1 := by
  have hf : FitsHdr ⟨4, 4, 1, 0⟩ := ⟨⟨by decide, by decide⟩, by decide⟩
  have hinv := (partlyFilled_reached 2 (by decide)).inv (soundDesc_of_fits hf)
  have hquiet : ∀ t, (partlyFilled 2).2.writing t = false := by
    intro t
    by_contra hw
    have hheld := hinv.held t (by simpa using hw)
    have hongoing : nbOngoing (partlyFilled 2).1.mem ≠ toI32 (1 + (partlyFilled 2).2.refused) := by
      decide +kernel
    exact hongoing hheld
  have hctx : CtxFor ⟨56, 4, 4⟩ (reader 2) := ⟨by decide +kernel, by decide +kernel⟩
  have hlen : (partlyFilled 2).2.commits.length = 2 := by decide +kernel
  have hfit : Fits 4 (latest 1) := by
    unfold Fits
    decide
  refine (exactWindow_iff shm (soundDesc_of_fits hf) (partlyFilled_reached 2 (by decide)) hquiet
    ?_ libfutils hctx hfit 1 ⟨0, 0⟩ (Prod.ext rfl rfl) (by decide +kernel) ⟨?_, ?_⟩
    (by decide +kernel)).mpr (Or.inr (by decide))
  · intro h
    rw [h] at hlen
    exact absurd hlen (by decide)
  · rw [hlen]
    decide
  · rw [hlen]
    decide

/-- One commit, two older samples asked for: the window has three rows, two of
slots that were never written. -/
theorem window_not_exact :
    (selectLatest 1 2).1.ret = 0 ∧ (selectLatest 1 2).1.result = ⟨3, 2⟩ ∧
    ¬ ExactWindow ⟨56, 4, 4⟩ (latest 2) (partlyFilled 1).2.commits 0 (partlyFilled 1).1.mem
      (selectLatest 1 2).1 := by
  have hres : (selectLatest 1 2).1.result = ⟨3, 2⟩ := by decide +kernel
  refine ⟨by decide +kernel, hres, fun h => ?_⟩
  have hrow := h.rSampleIdx
  rw [hres] at hrow
  exact absurd hrow (by decide +kernel)

end Shdata.Consumer
