/-
Shdata.Producer.Sole — the calls of the only producer of a section.

Whether a sample is in progress decides what each call should return
(`expectedRets`). It does decide it on a ring of two slots or more; with one
slot the slot after the last one is that slot itself, and the second sample
is taken for a foreign write (`sole_rets_iff`).

Whatever the calls return, the counters of the slots and the two indices are
a function of the number of reservations and the number of commits
(`sole_counters`).
-/
import Shdata.Producer.Foreign

namespace Shdata.Producer

open Shdata.Conc Shdata.Bytes Shdata.Core Shdata.Ring Shdata.Layout Shdata.Trace Shdata.Solo

variable {Ω : Type}

/-! ## What the calls should return -/

/-- The code of a call, by whether a sample is in progress. -/
def ProdCall.expected (busy : Bool) : ProdCall → Int
  | .newSample _ | .writeNewBlob _ _ _ => if busy then -EALREADY else 0
  | .writeQuantity _ _ | .commitSample => if busy then 0 else -EPERM

/-- Whether a sample is in progress after the call. -/
def ProdCall.leaves (busy : Bool) : ProdCall → Bool
  | .newSample _ => true
  | .commitSample => false
  | .writeQuantity _ _ | .writeNewBlob _ _ _ => busy

/-- The samples that the call begins. -/
def ProdCall.begins (busy : Bool) : ProdCall → Nat
  | .newSample _ | .writeNewBlob _ _ _ => if busy then 0 else 1
  | .writeQuantity _ _ | .commitSample => 0

def expectedRets : Bool → List ProdCall → List Int
  | _, [] => []
  | busy, c :: cs => c.expected busy :: expectedRets (c.leaves busy) cs

def samplesBegun : Bool → List ProdCall → Nat
  | _, [] => 0
  | busy, c :: cs => c.begins busy + samplesBegun (c.leaves busy) cs

/-- A sample that was begun is committed or in progress. -/
theorem ProdCall.begins_eq (busy : Bool) (c : ProdCall) :
    c.commits (c.expected busy) + (c.leaves busy).toNat = busy.toNat + c.begins busy := by
  cases c <;> cases busy <;> rfl

/-! ## Between two calls -/

/-- Only `t` ever committed, `n` times. -/
structure Sole (d : DataSectionDesc) (t n : Nat) (busy : Bool) (ctx : ShdCtx)
    (s : World Ω × History) : Prop where
  own : if busy then ∃ f, Pending d (· = t) t n ctx f s else Idle d (· = t) t n ctx s
  keeps : Keeps t ctx s
  thread : ∀ c ∈ s.2.commits, c.thread = t

section Sole

variable {B : Backend Ω} {d : DataSectionDesc} {t n : Nat} {busy : Bool} {ctx : ShdCtx}
  {s : World Ω × History} {c : ProdCall}

theorem commitsBy_thread {log : List Commit} (h : ∀ c ∈ log, c.thread = t) :
    commitsBy t log = log.length :=
  List.countP_eq_length.mpr fun c hc => by simpa using h c hc

theorem foreignSince_thread {log : List Commit} (h : ∀ c ∈ log, c.thread = t) :
    foreignSince t log = 0 := by
  induction log using List.reverseRecOn with
  | nil => rfl
  | append_singleton log c ih => rw [foreignSince_concat, if_pos (h c (by simp))]

/-- A thread commits in its own name. -/
theorem exec_thread {α : Type} (p : ShdProg α) (h : ∀ c ∈ s.2.commits, c.thread = t) :
    ∀ c ∈ (exec (tracked B d) t p s).2.2.commits, c.thread = t := by
  induction p generalizing s with
  | ret a => exact h
  | op o k ih =>
    refine ih _ fun c hc => ?_
    change c ∈ (track d t o s.1 _ s.2).commits at hc
    rcases track_commits d t o s.1 ((machine B).step t o s.1).2 s.2 with hsame | ⟨src, -, hnew⟩
    · rw [hsame] at hc
      exact h c hc
    · rw [hnew] at hc
      rcases List.mem_append.mp hc with hold | hlast
      · exact h c hold
      · rw [List.mem_singleton.mp hlast]

theorem exec_keeps (h : Keeps t ctx s) (c : ProdCall) :
    Keeps t (exec (tracked B d) t (prodCall ctx c) s).1.2
      (exec (tracked B d) t (prodCall ctx c) s).2 :=
  exec_of_wp (C := fun _ _ _ => True) sameLast_refl (fun _ _ => trivial) (wp_prodCall_keeps c h)

theorem Sole.length (h : Sole d t n busy ctx s) : s.2.commits.length = n := by
  rw [← commitsBy_thread h.thread]
  cases busy with
  | false => exact (show Idle d _ t n ctx s from h.own).count
  | true =>
    obtain ⟨f, hp⟩ : ∃ f, Pending d (· = t) t n ctx f s := h.own
    exact hp.count

theorem Sole.inv (h : Sole d t n busy ctx s) : RingInv d (· = t) s := by
  cases busy with
  | false => exact (show Idle d _ t n ctx s from h.own).inv
  | true =>
    obtain ⟨f, hp⟩ : ∃ f, Pending d (· = t) t n ctx f s := h.own
    exact hp.inv

/-- The slot that the producer is about to get is the one that it expects, except
for the second sample of a ring of one slot. -/
theorem Sole.startCode_eq (hd : SoundDesc d) (h : Sole d t n busy ctx s) :
    startCode d.nbSamples ctx.syncCtx.prevIndex ((s.2.commits.length : Int) % d.nbSamples)
      = if 2 ≤ d.nbSamples ∨ n = 0 then 0 else -EFAULT := by
  have hlen := h.length
  rw [h.keeps.prev]
  by_cases hn : n = 0
  · have hnil : s.2.commits = [] := List.eq_nil_of_length_eq_zero (hlen.trans hn)
    rw [if_pos (Or.inr hn), hnil, startCode, if_neg fun he => he.2 rfl]
  · obtain ⟨-, hlast⟩ := lastIndexBy_eq h.inv.commits (by rw [commitsBy_thread h.thread]; omega)
    have hcode := startCode_last hd.size (s.2.commits.length : Int) 0
    rw [hlast, foreignSince_thread h.thread]
    by_cases hN : 2 ≤ d.nbSamples
    · rw [if_pos (Or.inl hN)]
      exact (startCode_cases _ _ _).resolve_right fun he => hcode.mp he ⟨hN, dvd_zero _⟩
    · rw [if_neg (by omega)]
      exact hcode.mpr fun he => hN he.1

/-- A call of the producer, with the state that it leaves. -/
theorem Sole.call (hd : SoundDesc d) (h : Sole d t n busy ctx s) (hc : c.InBounds d)
    (hN : c.begins busy = 0 ∨ 2 ≤ d.nbSamples ∨ n = 0) {ret : Int} {ctx' : ShdCtx}
    {s' : World Ω × History}
    (hex : exec (tracked B d) t (prodCall ctx c) s = ((ret, ctx'), s')) :
    ret = c.expected busy ∧ Sole d t (n + c.commits ret) (c.leaves busy) ctx' s' := by
  have hkeeps := exec_keeps (B := B) (d := d) h.keeps c
  have hthread := exec_thread (B := B) (d := d) (prodCall ctx c) h.thread
  rw [hex] at hkeeps hthread
  suffices hown : ret = c.expected busy ∧ (if c.leaves busy then
      ∃ f, Pending d (· = t) t (n + c.commits ret) ctx' f s'
      else Idle d (· = t) t (n + c.commits ret) ctx' s') from ⟨hown.1, hown.2, hkeeps, hthread⟩
  have hS := solo_setting hd t (Ω := Ω)
  cases busy with
  | false =>
    have hidle : Idle d (· = t) t n ctx s := h.own
    have hstart := h.startCode_eq hd
    cases c with
    | newSample metadata =>
      obtain ⟨f, hr, hp, -⟩ := exec_newSample_idle (B := B) hd hidle metadata
      rw [hstart, if_pos (hN.resolve_left (show ¬ 1 = 0 by decide))] at hr
      change exec (tracked B d) t (newSample ctx metadata) s = _ at hex
      rw [hex] at hr hp
      obtain ⟨rfl, rfl⟩ := Prod.mk.inj hr
      exact ⟨rfl, f, hp⟩
    | writeQuantity q src =>
      have hrun := exec_of_wp (fun _ => rfl) (fun _ _ => trivial)
        (wp_writeQuantity_idle (B := B) hS q src hidle)
      rw [prodCall, exec_bind] at hex
      obtain ⟨hr, rfl⟩ := Prod.ext_iff.mp hex
      obtain ⟨rfl, rfl⟩ := Prod.mk.inj hr
      exact ⟨hrun.1, hrun.2⟩
    | commitSample =>
      obtain ⟨hr, hi⟩ := exec_of_wp (fun _ => rfl) (fun _ _ => trivial)
        (wp_commitSample_idle (B := B) hS hidle)
      change exec (tracked B d) t (commitSample ctx) s = _ at hex
      rw [hex] at hr hi
      obtain ⟨rfl, rfl⟩ := Prod.mk.inj hr
      exact ⟨rfl, hi⟩
    | writeNewBlob src size metadata =>
      obtain ⟨f, hr, hp, -⟩ := exec_newSample_idle (B := B) hd hidle metadata
      rw [hstart, if_pos (hN.resolve_left (show ¬ 1 = 0 by decide))] at hr
      obtain ⟨hr, hi⟩ := exec_writeNewBlob hd src hc metadata hr hp
      change exec (tracked B d) t (writeNewBlob ctx src size metadata) s = _ at hex
      rw [hex] at hr hi
      obtain ⟨rfl, rfl⟩ := Prod.mk.inj hr
      exact ⟨rfl, hi⟩
  | true =>
    obtain ⟨f, hpend⟩ : ∃ f, Pending d (· = t) t n ctx f s := h.own
    have hnew := fun metadata => exec_of_wp (fun _ => rfl) (fun _ _ => trivial)
      (wp_newSample_pending (B := B) hS metadata hpend)
    cases c with
    | newSample metadata =>
      obtain ⟨hr, hp⟩ := hnew metadata
      change exec (tracked B d) t (newSample ctx metadata) s = _ at hex
      rw [hex] at hr hp
      obtain ⟨rfl, rfl⟩ := Prod.mk.inj hr
      exact ⟨rfl, f, hp⟩
    | writeQuantity q src =>
      have hrun := exec_of_wp (p := writeQuantity ctx q src) (fun _ => rfl) (fun _ _ => trivial)
        (wp_writeQuantity_pending (B := B) hS hpend hc)
      rw [prodCall, exec_bind] at hex
      obtain ⟨hr, rfl⟩ := Prod.ext_iff.mp hex
      obtain ⟨rfl, rfl⟩ := Prod.mk.inj hr
      exact ⟨hrun.1, _, hrun.2⟩
    | commitSample =>
      obtain ⟨hr, v, rfl, hi, -⟩ := exec_of_wp (fun _ => rfl) (fun _ _ => trivial)
        (wp_commitSample_pending (B := B) hS hpend)
      change exec (tracked B d) t (commitSample ctx) s = _ at hex
      rw [hex] at hr hi
      obtain ⟨rfl, rfl⟩ := Prod.mk.inj hr
      exact ⟨rfl, hi⟩
    | writeNewBlob src size metadata =>
      obtain ⟨hr, hp⟩ := hnew metadata
      change exec (tracked B d) t (writeNewBlob ctx src size metadata) s = _ at hex
      have hneg : -EALREADY < 0 := by decide
      rw [exec_writeNewBlob_refused src size metadata (by rw [hr]; exact hneg)] at hex
      rw [hex] at hr hp
      obtain ⟨rfl, rfl⟩ := Prod.mk.inj hr
      exact ⟨rfl, f, hp⟩

/-- On a ring of one slot the producer takes its own last sample for one of
somebody else. -/
theorem Sole.refused (hd : SoundDesc d) (h : Sole d t n false ctx s) (hc : c.Starts)
    (hN : ¬ 2 ≤ d.nbSamples) (hn : n ≠ 0) :
    (exec (tracked B d) t (prodCall ctx c) s).1.1 = -EFAULT := by
  have hcode := h.startCode_eq hd
  rw [if_neg (by omega)] at hcode
  have hnew : ∀ metadata, (exec (tracked B d) t (newSample ctx metadata) s).1.1 = -EFAULT := by
    intro metadata
    obtain ⟨f, hr, -⟩ := exec_newSample_idle (B := B) hd h.own metadata
    rw [hr, hcode]
  cases c with
  | newSample metadata => exact hnew metadata
  | writeNewBlob src size metadata =>
    show (exec (tracked B d) t (writeNewBlob ctx src size metadata) s).1.1 = _
    rw [exec_writeNewBlob_refused src size metadata (by rw [hnew]; decide)]
    exact hnew metadata
  | writeQuantity q src => exact absurd hc id
  | commitSample => exact absurd hc id

/-- A call that begins a sample is a first call of its session. -/
theorem ProdCall.begins_ne {busy : Bool} {c : ProdCall} (h : c.begins busy ≠ 0) :
    busy = false ∧ c.Starts ∧ c.begins busy = 1 := by
  cases busy with
  | false =>
    cases c with
    | newSample metadata => exact ⟨rfl, trivial, rfl⟩
    | writeNewBlob src size metadata => exact ⟨rfl, trivial, rfl⟩
    | writeQuantity q src => exact absurd rfl h
    | commitSample => exact absurd rfl h
  | true => cases c <;> exact absurd rfl h

/-- The codes of a list of calls, from any state between two calls. -/
theorem Sole.rets_iff (hd : SoundDesc d) {cs : List ProdCall} (hcs : ∀ c ∈ cs, c.InBounds d)
    (h : Sole d t n busy ctx s) :
    (exec (tracked B d) t (prodCalls cs ctx) s).1.1 = expectedRets busy cs ↔
      2 ≤ d.nbSamples ∨ samplesBegun busy cs = 0 ∨ n + busy.toNat + samplesBegun busy cs ≤ 1 := by
  induction cs generalizing n busy ctx s with
  | nil => exact iff_of_true rfl (Or.inr (Or.inl rfl))
  | cons c cs ih =>
    have hc := hcs c List.mem_cons_self
    have hbegun : samplesBegun busy (c :: cs)
      = c.begins busy + samplesBegun (c.leaves busy) cs := rfl
    rw [exec_prodCalls_cons, expectedRets, List.cons.injEq, hbegun]
    by_cases hok : c.begins busy = 0 ∨ 2 ≤ d.nbSamples ∨ n = 0
    · obtain ⟨hret, hnext⟩ := h.call (B := B) hd hc hok rfl
      have hrest := ih (fun c' hc' => hcs c' (List.mem_cons_of_mem _ hc')) hnext
      have hcount := ProdCall.begins_eq busy c
      rw [hret] at hrest
      rw [hrest, hret]
      have hbusy : c.begins busy = 0 ∨ (busy.toNat = 0 ∧ c.begins busy = 1) := by
        by_cases h0 : c.begins busy = 0
        · exact Or.inl h0
        · obtain ⟨rfl, -, h1⟩ := ProdCall.begins_ne h0
          exact Or.inr ⟨rfl, h1⟩
      constructor
      · rintro ⟨-, hr⟩
        omega
      · intro hr
        exact ⟨rfl, by omega⟩
    · have hbegins : c.begins busy ≠ 0 := fun he => hok (Or.inl he)
      obtain ⟨rfl, hstarts, hone⟩ := ProdCall.begins_ne hbegins
      have hfault := h.refused (B := B) hd hstarts (fun he => hok (Or.inr (Or.inl he)))
        fun he => hok (Or.inr (Or.inr he))
      have hexp : c.expected false = 0 := by
        cases c <;> first | rfl | exact absurd hstarts id
      refine iff_of_false (fun he => ?_) (by omega)
      have := he.1
      rw [hfault, hexp] at this
      exact absurd this (by decide)

end Sole

section Runs

variable {B : Backend Ω} {d : DataSectionDesc} {w : World Ω} {ctx : ShdCtx}

theorem sole_init (t : Nat) (hw : Cleared d w.mem) (hctx : CtxFor d ctx)
    (hsync : ctx.syncCtx = syncCtxInit) : Sole d t 0 false ctx (w, History.init) where
  own := ⟨hctx, ringInv_init _ hw, rfl, by rw [hsync]; rfl, rfl⟩
  keeps := keeps_init hctx hsync
  thread := fun c hc => absurd hc (by simp [History.init])

/-- **A sole producer is never refused, on a ring of two slots or more.** The
calls that the only producer of a section makes return what is expected of them
exactly if the ring has two slots or at most one sample is begun. -/
theorem sole_rets_iff (B : Backend Ω) (hd : SoundDesc d) (hw : Cleared d w.mem)
    (hctx : CtxFor d ctx) (hsync : ctx.syncCtx = syncCtxInit) (t : Nat) {cs : List ProdCall}
    (hcs : ∀ c ∈ cs, c.InBounds d) :
    (exec (tracked B d) t (prodCalls cs ctx) (w, History.init)).1.1 = expectedRets false cs ↔
      2 ≤ d.nbSamples ∨ samplesBegun false cs ≤ 1 := by
  rw [(sole_init t hw hctx hsync).rets_iff (B := B) hd hcs]
  simp only [Bool.toNat_false]
  omega

/-- Calls of every kind, in and out of place. -/
def someCalls : List ProdCall :=
  [.commitSample, .newSample ⟨⟨1, 0⟩, ⟨1, 0⟩⟩, .newSample ⟨⟨2, 0⟩, ⟨2, 0⟩⟩,
    .writeQuantity ⟨1, 2⟩ [8, 9], .commitSample, .writeQuantity ⟨1, 2⟩ [8, 9],
    .writeNewBlob [1, 2, 3, 4] 4 ⟨⟨3, 0⟩, ⟨3, 0⟩⟩]

theorem sole_rets_two :
    (exec (tracked shm (descOf ⟨4, 2, 1, 0⟩)) 0 (prodCalls someCalls ((created 2).1.getD default))
      ((created 2).2, History.init)).1.1 = [-EPERM, 0, -EALREADY, 0, 0, -EPERM, 0] := by
  have hf : FitsHdr ⟨4, 2, 1, 0⟩ := ⟨⟨by decide, by decide⟩, by decide⟩
  have hsome : (created 2).1.isSome := by decide +kernel
  obtain ⟨hctx, hsync⟩ := created_ctx hf hsome
  exact (sole_rets_iff shm (soundDesc_of_fits hf) (created_fresh hf hsome).1 hctx hsync 0
    (by decide)).mpr (Or.inl (by decide))

/-- On a ring of one slot the second sample gets `-EFAULT`. -/
theorem sole_refused_one :
    (exec (tracked shm (descOf ⟨4, 1, 1, 0⟩)) 0
      (prodCalls [.newSample ⟨⟨1, 0⟩, ⟨1, 0⟩⟩, .commitSample, .newSample ⟨⟨2, 0⟩, ⟨2, 0⟩⟩]
        ((created 1).1.getD default)) ((created 1).2, History.init)).1.1 = [0, 0, -EFAULT] := by
  decide +kernel

/-- What the section and the producer's context hold after `r` reservations and `k`
commits. -/
structure EncodesHistory (d : DataSectionDesc) (k r : Nat) (ctx : ShdCtx) (m : Mem) : Prop where
  le : k ≤ r
  le_succ : r ≤ k + 1
  counts : ∀ i, IsSlot d.nbSamples i → nbWrites d m i = (laps d.nbSamples i r : Int) - 1
  index : writeIndex m = if k = 0 then -1 else ((k : Int) - 1) % d.nbSamples
  privateIndex : ctx.syncCtx.index = if r = k + 1 then (k : Int) % d.nbSamples else -1
  /-- The counters drop by one after the last reserved slot, and nowhere else. -/
  drop : 0 < r → ∀ i, IsSlot d.nbSamples i →
    nbWrites d m i = nbWrites d m (((r : Int) - 1) % d.nbSamples)
      - if i ≤ ((r : Int) - 1) % d.nbSamples then 0 else 1

/-- **Slot counters encode the write history.** Whatever the calls of the only
producer returned, the number of its reservations and the number of its
commits that returned 0 determine the counters and the indices. -/
theorem sole_counters (B : Backend Ω) (hd : SoundDesc d) (hw : Cleared d w.mem)
    (hctx : Fresh d ctx) (t : Nat) {cs : List ProdCall} (hcs : ∀ c ∈ cs, c.InBounds d)
    {rets : List Int} {ctx' : ShdCtx} {s' : World Ω × History}
    (hex : exec (tracked B d) t (prodCalls cs ctx) (w, History.init) = ((rets, ctx'), s'))
    (hlaps : (s'.2.reserved.length : Int) < 2147483648 * d.nbSamples) :
    EncodesHistory d (committed cs rets) s'.2.reserved.length ctx' s'.1.mem := by
  have hrun := exec_of_wp (fun _ => rfl) (fun _ _ => trivial)
    (wp_prodCalls (B := B) (solo_setting hd t) cs hcs (own_init (· = t) t hw hctx))
  have hthread := exec_thread (B := B) (d := d) (s := (w, History.init)) (t := t)
    (prodCalls cs ctx) fun c hc => absurd hc (by simp [History.init])
  rw [hex] at hrun hthread
  dsimp only at hrun hthread
  have hk : s'.2.commits.length = committed cs rets := by
    rw [← commitsBy_thread hthread, hrun.count, Nat.zero_add]
  have hinv := hrun.inv
  have hN := hd.size.pos
  -- no counter goes round
  have hcounts : ∀ i, IsSlot d.nbSamples i →
      nbWrites d s'.1.mem i = (laps d.nbSamples i s'.2.reserved.length : Int) - 1 := by
    intro i hi
    rw [hinv.ring.counts i hi]
    have hle : ((s'.2.reserved.length : Int) - 1) / d.nbSamples < 2147483648 :=
      Int.ediv_lt_of_lt_mul hN (by omega)
    have hlast := laps_last hi.nonneg hi.lt s'.2.reserved.length
    refine toI32_of_isI32 ⟨by omega, ?_⟩
    split at hlast <;> omega
  refine ⟨?_, ?_, hcounts, ?_, ?_, ?_⟩
  · rcases hinv.phase with h | h <;> omega
  · rcases hinv.phase with h | h <;> omega
  · rw [hinv.ring.index, ← hk]
    simp only [List.length_eq_zero_iff]
  · rcases hrun with hidle | ⟨f, hpend⟩
    · have hno : ∀ u, s'.2.writing u = false := by
        intro u
        by_contra hu
        have htrue : s'.2.writing u = true := by simpa using hu
        rw [hidle.inv.allowed u htrue, hidle.writing] at htrue
        exact absurd htrue (by decide)
      have hlevel := (hidle.inv.idle hno).2
      rw [hidle.index, if_neg (by omega)]
    · have hlevel := hpend.level
      rw [hpend.index, hk, if_pos (by omega)]
  · intro hr i hi
    have hlast := isSlot_emod hd.size ((s'.2.reserved.length : Int) - 1)
    rw [hcounts i hi, hcounts _ hlast, laps_last hi.nonneg hi.lt, laps_last hlast.nonneg hlast.lt,
      if_pos (le_refl _)]
    split <;> omega

theorem sole_counters_two :
    ∃ rets ctx s, exec (tracked shm (descOf ⟨4, 2, 1, 0⟩)) 0
        (prodCalls someCalls ((created 2).1.getD default)) ((created 2).2, History.init)
          = ((rets, ctx), s) ∧
      EncodesHistory (descOf ⟨4, 2, 1, 0⟩) 2 2 ctx s.1.mem := by
  have hf : FitsHdr ⟨4, 2, 1, 0⟩ := ⟨⟨by decide, by decide⟩, by decide⟩
  have hsome : (created 2).1.isSome := by decide +kernel
  obtain ⟨hw, hctx⟩ := created_fresh hf hsome
  refine ⟨_, _, _, rfl, ?_⟩
  have hcount : committed someCalls (exec (tracked shm (descOf ⟨4, 2, 1, 0⟩)) 0
      (prodCalls someCalls ((created 2).1.getD default)) ((created 2).2, History.init)).1.1 = 2 := by
    decide +kernel
  have hres : (exec (tracked shm (descOf ⟨4, 2, 1, 0⟩)) 0
      (prodCalls someCalls ((created 2).1.getD default))
      ((created 2).2, History.init)).2.2.reserved.length = 2 := by
    decide +kernel
  have henc := sole_counters shm (soundDesc_of_fits hf) hw hctx 0
    (show ∀ c ∈ someCalls, c.InBounds _ by decide) rfl     (by rw [hres]; decide)
  rwa [hcount, hres] at henc

end Runs

end Shdata.Producer
