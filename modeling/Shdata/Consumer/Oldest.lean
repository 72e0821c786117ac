/-
Shdata.Consumer.Oldest — the oldest sample of a section that its only producer
writes to.

The producer may be stopped between any two of its operations, so a sample
may be reserved that is not committed yet. With `k` commits and `r`
reservations the slots that were used are those below `r`. The scan of
`shd_search_get_max_depth` starts at slot `(k - 1) % N` and goes backwards. It
either meets a slot that was never used, after `k` samples, or it meets none
and counts `N`. The second case is that of a full ring, and of a ring whose
last free slot is being written: there the jump of two slots from the latest
sample leads to slot 0.

`oldest_selects`: the search returns commit 0 of a ring that is not full and
the second-oldest retained commit of a full one.
-/
import Shdata.Consumer.Requests

namespace Shdata.Consumer

open Shdata.Conc Shdata.Bytes Shdata.Core Shdata.Ring Shdata.Layout Shdata.Trace Shdata.Producer
  Shdata.Solo

variable {Ω : Type} {B : Backend Ω} {d : DataSectionDesc} {t : Nat}

/-! ## The only producer -/

/-- Thread `t` makes its calls and nobody else does anything. -/
def onlyProducer (w : World Ω) (ctx : ShdCtx) (t : Nat) (calls : List ProdCall) :
    Config Op.Resp Nat (World Ω × History) (List Int × ShdCtx) :=
  producers w (fun _ => ctx) fun u => if u = t then calls else []

/-- A state that the only producer of a section reaches, between any two of its
operations. -/
def OnlyReached (B : Backend Ω) (d : DataSectionDesc) (t : Nat) (s : World Ω × History) : Prop :=
  ∃ w ctx calls ts, Cleared d w.mem ∧ Fresh d ctx ∧ (∀ c ∈ calls, c.InBounds d) ∧
    ((onlyProducer w ctx t calls).run (tracked B d) ts).st = s

/-- To the only producer nothing happens between two of its operations. -/
theorem onlyProducer_safe (B : Backend Ω) (hd : SoundDesc d) {w : World Ω} (hw : Cleared d w.mem)
    {ctx : ShdCtx} (hctx : Fresh d ctx) {calls : List ProdCall} (hcalls : ∀ c ∈ calls, c.InBounds d) :
    Pool.Safe (tracked B d) (fun _ _ _ => True) (fun u a b => u = t → a = b)
      (fun u o a b => u = t ∧ ProdGuar d (· = t) t o a b) (fun _ _ _ => True)
      (onlyProducer w ctx t calls) where
  trans := fun _ _ _ _ h h' hu => (h hu).trans (h' hu)
  compat := fun _ _ hne _ _ _ h hu => absurd (h.1.trans hu.symm) hne
  threads := by
    intro u
    by_cases hu : u = t
    · subst hu
      have hcall := wp_prodCalls (B := B) (solo_setting hd u) calls hcalls
        (own_init (· = u) u hw hctx)
      have hpool : (onlyProducer w ctx u calls).pool u = prodCalls calls ctx := by
        simp [onlyProducer, producers]
      rw [hpool]
      exact wp_weaken (wp_mono hcall fun _ _ _ => trivial) (fun _ _ h => h rfl) fun _ _ _ h => ⟨rfl, h⟩
    · have hpool : (onlyProducer w ctx t calls).pool u = .ret ([], ctx) := by
        simp [onlyProducer, producers, hu, prodCalls, Prog.pure_eq]
      rw [hpool]
      exact wp_ret fun _ _ => trivial

theorem OnlyReached.inv {s : World Ω × History} (hd : SoundDesc d) (h : OnlyReached B d t s) :
    RingInv d (· = t) s := by
  obtain ⟨w, ctx, calls, ts, hw, hctx, hcalls, rfl⟩ := h
  exact (onlyProducer_safe B hd hw hctx hcalls).inv (fun _ _ _ => rfl)
    (fun _ _ _ _ hg hi => (hg.2 hi).inv) (ringInv_init _ hw) ts (Config.meets_true _ _ _)

/-! ## Counters -/

section Counters

variable {k r : Nat} {log : List Commit} {m : Mem}

/-- A slot is invalid if no reservation went to it. -/
theorem nbWrites_unused_iff (hd : SoundDesc d) (hr : RingMem d r log m)
    (hlaps : (r : Int) < 2147483648 * d.nbSamples) {i : Int} (hi : IsSlot d.nbSamples i) :
    nbWrites d m i = -1 ↔ (r : Int) ≤ i := by
  have hpos := hd.size.pos
  have h1 := hi.lt
  rw [nbWrites_laps hd hr hlaps hi]
  constructor
  · intro h
    by_contra hlt
    have := Int.ediv_nonneg (a := (r : Int) - 1 - i) (b := d.nbSamples) (by omega) hpos.le
    omega
  · intro h
    have hup : ((r : Int) - 1 - i) / d.nbSamples < 0 := Int.ediv_lt_of_lt_mul hpos (by omega)
    have hlo : -1 ≤ ((r : Int) - 1 - i) / d.nbSamples :=
      Int.le_ediv_of_mul_le hpos (by omega)
    omega

/-- What the scan counts: all slots if every one was used, else the commits. -/
theorem depth_eq (hd : SoundDesc d) (hr : RingMem d r log m)
    (hlaps : (r : Int) < 2147483648 * d.nbSamples) (hk : 0 < k) (hkr : k ≤ r) (hrk : r ≤ k + 1)
    {D : Nat} (hD : Depth d m (((k : Int) - 1) % d.nbSamples) D) :
    (D : Int) = if d.nbSamples ≤ r then d.nbSamples else k := by
  have hpos := hd.size.pos
  unfold Depth at hD
  by_cases hfull : d.nbSamples ≤ r
  · rw [if_pos hfull]
    by_cases htop : 0 < nbWrites d m (((k : Int) - 1) % d.nbSamples)
    · rwa [if_pos htop] at hD
    · -- no slot is invalid
      have hstop : First (Invalid d m (((k : Int) - 1) % d.nbSamples)) 0 d.nbSamples.toNat
          d.nbSamples.toNat := by
        refine ⟨Nat.zero_le _, le_refl _, fun x _ _ => ?_, fun h => absurd h (lt_irrefl _)⟩
        have hslot := isSlot_ageSlot hd.size (((k : Int) - 1) % d.nbSamples) x
        rw [Invalid, nbWrites_unused_iff hd hr hlaps hslot]
        have := hslot.lt
        omega
      rw [if_neg htop] at hD
      rw [hD.unique hstop, Int.toNat_of_nonneg hpos.le]
  · -- no slot was used twice, and the scan stops at slot `N - 1`, the one of age `k`
    have htop : nbWrites d m (((k : Int) - 1) % d.nbSamples) = 0 := by
      rw [nbWrites_laps hd hr hlaps (isSlot_emod hd.size _), emod_of_bounds (by omega) (by omega)]
      exact Int.ediv_eq_zero_of_lt (by omega) (by omega)
    rw [htop, if_neg (lt_irrefl 0), emod_of_bounds (by omega) (by omega)] at hD
    have hage : ∀ x : Nat, x < k → ageSlot d.nbSamples ((k : Int) - 1) x = k - 1 - x :=
      fun x hx => emod_of_bounds (by omega) (by omega)
    have hlast : ageSlot d.nbSamples ((k : Int) - 1) k = d.nbSamples - 1 := by
      rw [ageSlot, ← Int.add_emod_right, emod_of_bounds (by omega) (by omega)]
      omega
    have hstop : First (Invalid d m ((k : Int) - 1)) 0 d.nbSamples.toNat k := by
      refine ⟨Nat.zero_le k, by omega, fun x _ hx => ?_, fun _ => ?_⟩
      · rw [Invalid, hage x hx, nbWrites_unused_iff hd hr hlaps ⟨by omega, by omega⟩]
        omega
      · rw [Invalid, hlast]
        exact (nbWrites_unused_iff hd hr hlaps ⟨by omega, by omega⟩).mpr (by omega)
    rw [hD.unique hstop, if_neg hfull]

end Counters

/-! ## The search -/

/-- The commit that a search for the oldest sample should find: the first one, or
the second-oldest of the last `N`. -/
def oldestCommit (N : Int) (k : Nat) : Nat := if (k : Int) < N then 0 else (k + 1 - N).toNat

theorem oldestCommit_retained {N : Int} (hN : 2 ≤ N) {k : Nat} (hk : 0 < k) :
    oldestCommit N k < k ∧ (k : Int) < oldestCommit N k + N := by
  unfold oldestCommit
  split <;> omega

/-- The slot two places after the latest sample, once the scan met no free slot. -/
theorem oldestCommit_emod {N : Int} {k : Nat} (hfull : N ≤ k + 1) :
    ((k : Int) + 1) % N = (oldestCommit N k : Int) % N := by
  unfold oldestCommit
  split
  · rw [show (k : Int) + 1 = N by omega, Int.emod_self]
    rfl
  · rw [Int.toNat_of_nonneg (by omega), Int.sub_emod_right]

section Search

variable {k r : Nat} {log : List Commit} {w : World Ω} {u : Nat} {F : Futils} {search : SampleSearch}
  {ctx : ShdCtx}

theorem exec_searchOldest (hd : SoundDesc d) (hN : 2 ≤ d.nbSamples) (hr : RingMem d r log w.mem)
    (hlaps : (r : Int) < 2147483648 * d.nbSamples) (hlen : log.length = k) (hk : 0 < k)
    (hkr : k ≤ r) (hrk : r ≤ k + 1) :
    exec (machine B) u (searchOldest d (searchCtx d w.mem)) w
      = ((oldestCommit d.nbSamples k : Int) % d.nbSamples, w) := by
  have hne : log ≠ [] := List.ne_nil_of_length_pos (by omega)
  have hindex := hr.index_last hne
  have ht := hr.isSlot_index hd hne
  have hsmall := hd.size.small
  obtain ⟨D, hD, hex⟩ := exec_searchGetMaxDepth (B := B) (u := u) (w := w) hd ht
  rw [hindex, hlen] at hD
  have h0 := ht.nonneg
  have h1 := ht.lt
  rw [searchOldest, exec_bind, hex]
  have hdepth := depth_eq hd hr hlaps hk hkr hrk hD
  split at hdepth
  · rename_i hfull
    have hjump : indexNAfter (writeIndex w.mem) 2 d.nbSamples
        = (oldestCommit d.nbSamples k : Int) % d.nbSamples := by
      rw [indexNAfter_eq hd.size (by omega) (by omega), hindex, hlen, emod_add_emod,
        ← oldestCommit_emod (show d.nbSamples ≤ k + 1 by omega)]
      congr 1
      ring
    rw [if_pos hdepth, exec_pure, show (searchCtx d w.mem).tIndex = writeIndex w.mem from rfl, hjump]
  · rename_i hfree
    obtain rfl : D = k := by omega
    have hback : indexNBefore (writeIndex w.mem) (toI32 ((D : Int) - 1)) d.nbSamples = 0 := by
      rw [toI32_of_bounds (by omega) (by omega), show (D : Int) - 1 = ((D - 1 : Nat) : Int) by omega,
        indexNBefore_ageSlot hd.size ht (by omega), hindex, hlen, ageSlot_eq _ (by omega),
        show D - 1 - (D - 1) = 0 by omega]
      rfl
    have hfirst : oldestCommit d.nbSamples D = 0 := if_pos (by omega)
    rw [if_neg (by omega), exec_pure, show (searchCtx d w.mem).tIndex = writeIndex w.mem from rfl,
      hback, hfirst]
    rfl

/-- `shd_data_find` with a search for the oldest sample and no more. -/
theorem exec_dataFind_oldest (hd : SoundDesc d) (hN : 2 ≤ d.nbSamples) (hr : RingMem d r log w.mem)
    (hlaps : (r : Int) < 2147483648 * d.nbSamples) (hlen : log.length = k) (hk : 0 < k)
    (hkr : k ≤ r) (hrk : r ≤ k + 1) (hctx : CtxFor d ctx) (hmethod : search.method = .oldest)
    (hsingle : Single search) {i : Int} (hi : (oldestCommit d.nbSamples k : Int) % d.nbSamples = i) :
    exec (machine B) u (dataFind F ctx search) w
      = ((1, foundCtx d w.mem ctx ⟨i, i, i, 1⟩), w) := by
  have hne : log ≠ [] := List.ne_nil_of_length_pos (by omega)
  have ht := hr.isSlot_index hd hne
  have h0 := ht.nonneg
  have hslot : IsSlot d.nbSamples i := hi ▸ isSlot_emod hd.size _
  have href : exec (machine B) u (windowRefIdx F search d (searchCtx d w.mem) ctx.hint) w = (i, w) := by
    rw [windowRefIdx, hmethod, ← hi]
    exact exec_searchOldest hd hN hr hlaps hlen hk hkr hrk
  have hset := exec_windowSet_atRest hd ht ctx.window search ctx.hint href
  rw [if_neg (not_lt.mpr hslot.nonneg), windowAround_single d hd.size hsingle
    (show IsSlot d.nbSamples (searchCtx d w.mem).tIndex from ht) hslot] at hset
  have hfit : ¬ d.nbSamples <
      toU32 ((search.nbValuesAfterDate.toNat : Int) + search.nbValuesBeforeDate.toNat + 1) := by
    rw [hsingle.1, hsingle.2, toU32_of_bounds (by omega) (by omega)]
    omega
  exact exec_dataFind_found hd F hctx (by omega) hfit hset Int.one_nonneg hslot

end Search

/-! ## The oldest sample -/

/-- Slot `i` holds commit `j` and no reservation after the last commit went to it. -/
structure HoldsCommit (d : DataSectionDesc) (s : World Ω × History) (i : Int) (j : Nat) : Prop where
  sample : ∃ c, s.2.commits[j]? = some c ∧ metadataOf d s.1.mem i = c.metadata ∧
    blobOf d s.1.mem i = c.blob
  notWritten : ∀ x, s.2.commits.length ≤ x → x < s.2.reserved.length → (x : Int) % d.nbSamples ≠ i

/-- **The oldest search is safe.** Whatever state the only producer left the section
in, after at least one commit and in the first 2^31 turns, a search for the
oldest sample and no more returns one slot. It holds the first commit if the
ring is not full and the second-oldest of the last `N` if it is, and it is
not the slot that the producer is writing to. -/
theorem oldest_selects (B : Backend Ω) (hd : SoundDesc d) (hN : 2 ≤ d.nbSamples)
    {s : World Ω × History} (hs : OnlyReached B d t s) (hk : s.2.commits ≠ [])
    (hlaps : (s.2.reserved.length : Int) < 2147483648 * d.nbSamples) (F : Futils) {ctx : ShdCtx}
    (hctx : CtxFor d ctx) {search : SampleSearch} (hmethod : search.method = .oldest)
    (hsingle : Single search) (u : Nat) :
    ∃ i, IsSlot d.nbSamples i ∧
      exec (machine B) u (dataFind F ctx search) s.1
        = ((1, foundCtx d s.1.mem ctx ⟨i, i, i, 1⟩), s.1) ∧
      HoldsCommit d s i (oldestCommit d.nbSamples s.2.commits.length) := by
  have hinv := hs.inv hd
  have hring := hinv.ring
  have hpos : 0 < s.2.commits.length := List.length_pos_iff.mpr hk
  have hphase := hinv.phase
  obtain ⟨hlt, hrecent⟩ := oldestCommit_retained hN hpos
  refine ⟨(oldestCommit d.nbSamples s.2.commits.length : Int) % d.nbSamples, isSlot_emod hd.size _,
    exec_dataFind_oldest hd hN hring hlaps rfl hpos (by omega) (by omega) hctx hmethod hsingle rfl,
    ⟨?_, fun x h0 h1 he => ?_⟩⟩
  · exact ⟨_, List.getElem?_eq_getElem hlt, hring.samples _ _ (List.getElem?_eq_getElem hlt) (by omega)⟩
  · -- the commit and the reservation are less than a turn apart
    exact emod_ne_of_lt (by omega) (by omega) he.symm

/-- The only producer of a section of two slots committed one sample and is writing
the second. -/
def lastSlotTaken : World Shm × History :=
  ((onlyProducer (created 2).2 ((created 2).1.getD default) 0
    [.writeNewBlob [1, 2, 3, 4] 4 ⟨⟨1, 0⟩, ⟨0, 0⟩⟩, .newSample ⟨⟨2, 0⟩, ⟨0, 0⟩⟩]).run
      (tracked shm ⟨56, 4, 2⟩) (List.replicate 40 0)).st

theorem lastSlotTaken_reached : OnlyReached shm ⟨56, 4, 2⟩ 0 lastSlotTaken := by
  have hf : FitsHdr ⟨4, 2, 1, 0⟩ := ⟨⟨by decide, by decide⟩, by decide⟩
  obtain ⟨hw, hctx⟩ := created_fresh hf (by decide +kernel)
  refine ⟨_, _, _, _, hw, hctx, fun c hc => ?_, rfl⟩
  rcases List.mem_cons.mp hc with rfl | hc
  · exact show (4 : Int) ≤ 4 by decide
  · obtain rfl := List.mem_singleton.mp hc
    exact trivial

theorem oldest_selects_transition :
    lastSlotTaken.2.reserved.length = 2 ∧ ∃ i, IsSlot 2 i ∧
      exec (machine shm) 1 (dataFind libfutils ((created 2).1.getD default)
        ⟨⟨0, 0⟩, .oldest, 0, 0⟩) lastSlotTaken.1
        = ((1, foundCtx ⟨56, 4, 2⟩ lastSlotTaken.1.mem ((created 2).1.getD default) ⟨i, i, i, 1⟩),
          lastSlotTaken.1) ∧
      HoldsCommit ⟨56, 4, 2⟩ lastSlotTaken i (oldestCommit 2 lastSlotTaken.2.commits.length) := by
  have hf : FitsHdr ⟨4, 2, 1, 0⟩ := ⟨⟨by decide, by decide⟩, by decide⟩
  have hlen : lastSlotTaken.2.reserved.length = 2 := by decide +kernel
  have hone : lastSlotTaken.2.commits.length = 1 := by decide +kernel
  refine ⟨hlen, oldest_selects shm (soundDesc_of_fits hf) (by decide) lastSlotTaken_reached ?_ ?_
    libfutils (created_ctx hf (by decide +kernel)).1 rfl ⟨rfl, rfl⟩ 1⟩
  · exact List.ne_nil_of_length_pos (by omega)
  · rw [hlen]
    decide

/-- The only producer of a section of four slots committed one sample. It is writing the
second, in slot 1, whose blob is at 140, and wrote 2 at offset -96 of it. -/
def strayIndex : World Shm × History :=
  ((onlyProducer (created 4).2 ((created 4).1.getD default) 0
    [.writeNewBlob [1, 2, 3, 4] 4 ⟨⟨1, 0⟩, ⟨0, 0⟩⟩, .newSample ⟨⟨2, 0⟩, ⟨0, 0⟩⟩,
      .writeQuantity ⟨-96, 4⟩ [2, 0, 0, 0]]).run (tracked shm ⟨56, 4, 4⟩) (List.replicate 40 0)).st

/-- The write moves the write index to slot 2, and the search returns slot 3, which
was never written. -/
theorem strayIndex_oldest :
    strayIndex.2.commits.length = 1 ∧ nbWrites ⟨56, 4, 4⟩ strayIndex.1.mem 3 = -1 ∧
      ¬ ∃ i, IsSlot 4 i ∧
        exec (machine shm) 1 (dataFind libfutils ((created 4).1.getD default)
          ⟨⟨0, 0⟩, .oldest, 0, 0⟩) strayIndex.1
          = ((1, foundCtx ⟨56, 4, 4⟩ strayIndex.1.mem ((created 4).1.getD default) ⟨i, i, i, 1⟩),
            strayIndex.1) ∧
        HoldsCommit ⟨56, 4, 4⟩ strayIndex i (oldestCommit 4 strayIndex.2.commits.length) := by
  refine ⟨by decide +kernel, by decide +kernel, fun ⟨i, _, hex, hholds⟩ => ?_⟩
  have hfound : (exec (machine shm) 1 (dataFind libfutils ((created 4).1.getD default)
      ⟨⟨0, 0⟩, .oldest, 0, 0⟩) strayIndex.1).1.2.window.startIdx = 3 := by decide +kernel
  rw [hex] at hfound
  obtain rfl : i = 3 := hfound
  obtain ⟨c, hc, -, hblob⟩ := hholds.sample
  -- the first commit wrote 1 2 3 4, and slot 3 still holds zeros
  have hfirst : (strayIndex.2.commits[oldestCommit 4 strayIndex.2.commits.length]?).map Commit.blob
      = some [1, 2, 3, 4] := by decide +kernel
  rw [hc, Option.map_some, ← hblob] at hfirst
  exact absurd hfirst (by decide +kernel)

end Shdata.Consumer
