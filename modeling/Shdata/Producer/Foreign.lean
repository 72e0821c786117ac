/-
Shdata.Producer.Foreign — how a producer notices that others wrote.

A context keeps the slot of its last commit. When it starts a sample,
`shd_sync_start_sample_write` compares the slot that it reserved with the one
after that: the code is `startCode`. Since commits walk the ring in order,
the comparison sees the number of foreign commits modulo the size of the
ring, and `startCode_last` says what it makes of it.

That the kept slot is the one of the last logged commit of the thread
(`Keeps`) needs nothing else to be true of the section. It is a pool
invariant of its own, beside the one of the ring.
-/
import Shdata.Producer.Sessions
import Shdata.Producer.Failed

namespace Shdata.Producer

open Shdata.Conc Shdata.Bytes Shdata.Core Shdata.Ring Shdata.Layout Shdata.Trace Shdata.Solo

variable {Ω : Type}

/-! ## The last commit of a thread -/

/-- The slot of the last commit of a thread, `-1` without one. -/
def lastIndexBy (t : Nat) (log : List Commit) : Int :=
  match (log.filter fun c => c.thread = t).getLast? with
  | none => -1
  | some c => c.index

/-- The commits that others made since the last one of the thread. -/
def foreignSince (t : Nat) (log : List Commit) : Nat :=
  (log.reverse.takeWhile fun c => c.thread ≠ t).length

theorem lastIndexBy_concat (t : Nat) (log : List Commit) (c : Commit) :
    lastIndexBy t (log ++ [c]) = if c.thread = t then c.index else lastIndexBy t log := by
  unfold lastIndexBy
  by_cases h : c.thread = t
  · simp [h]
  · simp [h]

theorem foreignSince_concat (t : Nat) (log : List Commit) (c : Commit) :
    foreignSince t (log ++ [c]) = if c.thread = t then 0 else foreignSince t log + 1 := by
  unfold foreignSince
  by_cases h : c.thread = t
  · simp [h]
  · simp [h]

theorem commitsBy_concat (t : Nat) (log : List Commit) (c : Commit) :
    commitsBy t (log ++ [c]) = commitsBy t log + if c.thread = t then 1 else 0 := by
  unfold commitsBy
  rw [List.countP_append, List.countP_singleton]
  by_cases h : c.thread = t
  · simp [h]
  · simp [h]

/-- Commits walk the ring in order, so the last slot of a thread tells how many
foreign commits followed it, up to a number of laps. -/
theorem lastIndexBy_eq {t : Nat} {N : Int} {log : List Commit}
    (hlog : ∀ (j : Nat) c, log[j]? = some c → c.index = (j : Int) % N)
    (hc : 0 < commitsBy t log) :
    foreignSince t log < log.length ∧
      lastIndexBy t log = ((log.length : Int) - 1 - foreignSince t log) % N := by
  induction log using List.reverseRecOn with
  | nil => exact absurd hc (by simp [commitsBy])
  | append_singleton log c ih =>
    rw [lastIndexBy_concat, foreignSince_concat, List.length_append, List.length_singleton]
    by_cases hct : c.thread = t
    · have hidx := hlog log.length c (by simp)
      rw [if_pos hct, if_pos hct, hidx]
      refine ⟨by omega, ?_⟩
      congr 1
      push_cast
      ring
    · rw [commitsBy_concat, if_neg hct] at hc
      have hlog' : ∀ (j : Nat) c', log[j]? = some c' → c'.index = (j : Int) % N := fun j c' hj =>
        hlog j c' (by
          rw [List.getElem?_append_left (List.getElem?_eq_some_iff.mp hj).1]
          exact hj)
      obtain ⟨hlt, heq⟩ := ih hlog' hc
      rw [if_neg hct, if_neg hct, heq]
      refine ⟨by omega, ?_⟩
      congr 1
      push_cast
      ring

/-! ## The comparison -/

/-- The code for a slot reserved after `f` foreign commits: they are missed when
their number is a multiple of the size of a ring of two slots or more. -/
theorem startCode_last {N : Int} (hN : RingSize N) (k f : Int) :
    startCode N ((k - 1 - f) % N) (k % N) = -EFAULT ↔ ¬ (2 ≤ N ∧ N ∣ f) := by
  have hpos := hN.pos
  have hprev := isSlot_emod hN (k - 1 - f)
  have hinterval : intervalBetween ((k - 1 - f) % N) (k % N) N = (f + 1) % N := by
    rw [intervalBetween_eq hN hprev (isSlot_emod hN k), gap_emod_left, gap_emod_right, gap,
      show k - (k - 1 - f) = f + 1 by ring]
  have hslot := isSlot_emod hN (f + 1)
  have h0 := hslot.nonneg
  have h1 := hslot.lt
  have hsmall := hN.small
  have hne : (k - 1 - f) % N ≠ -1 := by
    have := hprev.nonneg
    omega
  -- the unsigned difference is zero for the slot right after the last one
  have hzero : 0 < toU32 ((f + 1) % N - 1) ↔ (f + 1) % N ≠ 1 := by
    unfold toU32
    omega
  have hdvd : (f + 1) % N = 1 ↔ 2 ≤ N ∧ N ∣ f := by
    constructor
    · intro h
      have hN2 : 2 ≤ N := by omega
      refine ⟨hN2, Int.dvd_of_emod_eq_zero ?_⟩
      have h1N : (1 : Int) % N = 1 := Int.emod_eq_of_lt (by omega) (by omega)
      have hcong : (f + 1) % N = (0 + 1) % N := by
        rw [h, Int.zero_add, h1N]
      have := Int.emod_add_cancel_right (m := f) (n := N) (k := 0) 1
      rw [this.mp hcong, Int.zero_emod]
    · rintro ⟨hN2, q, rfl⟩
      rw [Int.add_comm, Int.add_mul_emod_self_left]
      exact Int.emod_eq_of_lt (by omega) (by omega)
  rw [← hdvd, startCode, hinterval]
  by_cases hone : (f + 1) % N = 1
  · rw [if_neg fun h => hzero.mp h.1 hone]
    exact ⟨fun h => absurd h (show (0 : Int) ≠ -EFAULT by decide), fun h => absurd hone h⟩
  · rw [if_pos ⟨hzero.mpr hone, hne⟩]
    exact ⟨fun _ => hone, fun _ => rfl⟩

/-! ## The slot that a context keeps -/

/-- The context keeps the slot of the thread's last commit. -/
structure Keeps (t : Nat) (ctx : ShdCtx) (s : World Ω × History) : Prop where
  prev : ctx.syncCtx.prevIndex = lastIndexBy t s.2.commits
  index : IsI32 ctx.syncCtx.index
  sync : ctx.sectMmap.syncTop = 40

/-- The rely: nobody else commits for thread `t`. -/
def SameLast (t : Nat) (s s' : World Ω × History) : Prop :=
  lastIndexBy t s'.2.commits = lastIndexBy t s.2.commits

/-- The guarantee: thread `t` commits for nobody else. -/
def LastGuar (t : Nat) (_ : Op) (s s' : World Ω × History) : Prop := ∀ u, u ≠ t → SameLast u s s'

section Keeps

variable {B : Backend Ω} {d : DataSectionDesc} {C : Nat → Op → World Ω × History → Prop} {t : Nat}
  {ctx : ShdCtx} {s s' : World Ω × History}

theorem Keeps.stable (h : Keeps t ctx s) (hR : SameLast t s s') : Keeps t ctx s' :=
  ⟨h.prev.trans hR.symm, h.index, h.sync⟩

theorem sameLast_refl (a : World Ω × History) : SameLast t a a := rfl

theorem sameLast_trans (a b c : World Ω × History) (h : SameLast t a b) (h' : SameLast t b c) :
    SameLast t a c := h'.trans h

/-- An operation of a thread commits for that thread only. -/
theorem step_lastGuar (o : Op) (s : World Ω × History) :
    LastGuar t o s ((tracked B d).step t o s).1 := by
  intro u hu
  show lastIndexBy u (track d t o s.1 _ s.2).commits = _
  rcases track_commits d t o s.1 ((machine B).step t o s.1).2 s.2 with h | ⟨src, -, h⟩
  · rw [h]
  · rw [h, lastIndexBy_concat, if_neg (show ¬ t = u from fun e => hu e.symm)]

theorem step_sameLast {o : Op} (ho : ¬ IsIndexStore o) (s : World Ω × History) :
    SameLast t s ((tracked B d).step t o s).1 := by
  show lastIndexBy t (track d t o s.1 _ s.2).commits = _
  rcases track_commits d t o s.1 ((machine B).step t o s.1).2 s.2 with h | ⟨src, rfl, -⟩
  · rw [h]
  · exact absurd rfl ho

/-- A program without a store of the index keeps the last slot. -/
theorem wp_sameLast {α : Type} {p : ShdProg α} {Q : α → Prop}
    (hp : p.Ensures (fun _ _ => True) (fun o => ¬ IsIndexStore o) Q) :
    wp (tracked B d) t C (SameLast t) (LastGuar t) p (fun a s' => Q a ∧ SameLast t s s') s :=
  wp_of_ensures (R := SameLast t) sameLast_trans hp rfl
    fun o u ho _ _ => ⟨step_lastGuar o u, step_sameLast ho u, trivial⟩

theorem wp_newSample_keeps (metadata : SampleMetadata) (h : Keeps t ctx s) :
    wp (tracked B d) t C (SameLast t) (LastGuar t) (newSample ctx metadata)
      (fun r s' => Keeps t r.2 s') s :=
  wp_mono (wp_sameLast (newSample_noStore ctx h.index metadata)) fun _ _ ⟨⟨hmap, hprev, hidx⟩, hs⟩ =>
    ⟨hprev.trans (h.prev.trans hs.symm), hidx, by rw [hmap]; exact h.sync⟩

theorem wp_writeQuantity_keeps (q : Quantity) (src : List UInt8) (h : Keeps t ctx s) :
    wp (tracked B d) t C (SameLast t) (LastGuar t) (writeQuantity ctx q src)
      (fun _ s' => Keeps t ctx s') s :=
  wp_mono (wp_sameLast (writeQuantity_noStore ctx q src)) fun _ _ hs => h.stable hs.2

theorem wp_commitSample_keeps (h : Keeps t ctx s) :
    wp (tracked B d) t C (SameLast t) (LastGuar t) (commitSample ctx)
      (fun r s' => Keeps t r.2 s') s := by
  rw [commitSample, dataEndWrite, h.sync]
  split
  · exact fun u hu => h.stable hu
  · intro u hu _
    -- the store logs the index that the context keeps from now on
    have hstore : lastIndexBy t ((tracked B d).step t (.write .endWriteSession 44
        (encI32 ctx.syncCtx.index)) u).1.2.commits = ctx.syncCtx.index := by
      show lastIndexBy t (track d t (.write .endWriteSession 44 (encI32 ctx.syncCtx.index)) u.1 ()
        u.2).commits = _
      simp only [track, if_true]
      rw [lastIndexBy_concat, if_pos rfl, decI32_encI32, toI32_of_isI32 h.index]
    refine ⟨step_lastGuar _ u, fun v hv _ => ⟨step_lastGuar _ v, fun x hx => ⟨?_, ?_, h.sync⟩⟩⟩
    · have hreset : SameLast t v ((tracked B d).step t (.write .endWriteSession 48 (encI32 0)) v).1 :=
        step_sameLast (by simp [IsIndexStore]) v
      exact hstore.symm.trans (hv.symm.trans (hreset.symm.trans hx.symm))
    · exact ⟨by show (-2147483648 : Int) ≤ -1; omega, by show (-1 : Int) < 2147483648; omega⟩

theorem wp_writeNewBlob_keeps (src : List UInt8) (size : Nat) (metadata : SampleMetadata)
    (h : Keeps t ctx s) :
    wp (tracked B d) t C (SameLast t) (LastGuar t) (writeNewBlob ctx src size metadata)
      (fun r s' => Keeps t r.2 s') s := by
  rw [writeNewBlob]
  refine wp_bind sameLast_refl (wp_mono (wp_newSample_keeps metadata h) fun r u hr => ?_)
  split
  · exact fun v hv => hr.stable hv
  · refine wp_bind sameLast_refl (wp_mono (wp_writeQuantity_keeps _ src hr) fun ret v hv => ?_)
    split
    · exact fun x hx => hv.stable hx
    · exact wp_commitSample_keeps hv

theorem wp_prodCall_keeps (c : ProdCall) (h : Keeps t ctx s) :
    wp (tracked B d) t C (SameLast t) (LastGuar t) (prodCall ctx c)
      (fun r s' => Keeps t r.2 s') s := by
  cases c with
  | newSample metadata => exact wp_newSample_keeps metadata h
  | writeQuantity q src =>
    refine wp_bind sameLast_refl (wp_mono (wp_writeQuantity_keeps q src h) fun ret u hu => ?_)
    exact fun v hv => hu.stable hv
  | commitSample => exact wp_commitSample_keeps h
  | writeNewBlob src size metadata => exact wp_writeNewBlob_keeps src size metadata h

theorem wp_prodCalls_keeps (cs : List ProdCall) (h : Keeps t ctx s) :
    wp (tracked B d) t C (SameLast t) (LastGuar t) (prodCalls cs ctx)
      (fun r s' => Keeps t r.2 s') s := by
  induction cs generalizing ctx s with
  | nil => exact fun u hu => h.stable hu
  | cons c cs ih =>
    refine wp_bind sameLast_refl (wp_mono (wp_prodCall_keeps c h) fun r u hr => ?_)
    refine wp_bind sameLast_refl (wp_mono (ih hr) fun rs v hrs => ?_)
    exact fun x hx => hrs.stable hx

theorem keeps_init {w : World Ω} (hctx : CtxFor d ctx) (hsync : ctx.syncCtx = syncCtxInit) :
    Keeps t ctx (w, History.init) where
  prev := by rw [hsync]; rfl
  index := by rw [hsync]; exact ⟨by show (-2147483648 : Int) ≤ -1; omega, by decide⟩
  sync := hctx.sync

end Keeps

/-! ## Starting a sample -/

section Starts

variable {B : Backend Ω} {d : DataSectionDesc} {A : Nat → Prop} {t n : Nat} {ctx : ShdCtx}
  {s : World Ω × History} {c : ProdCall}

/-- The invariant does not care who else could be in a session. -/
theorem ringInv_only (h : RingInv d A s) (hs : ∀ u, s.2.writing u = true → u = t) :
    RingInv d (· = t) s :=
  ⟨h.excl, hs, h.idle, h.held, h.phase, h.reserved, h.commits, h.ring⟩

/-- Alone in the section, an idle producer gets the code of the comparison. -/
theorem exec_newSample_idle (hd : SoundDesc d) (h : Idle d (· = t) t n ctx s)
    (metadata : SampleMetadata) :
    ∃ f, (exec (tracked B d) t (newSample ctx metadata) s).1
        = (startCode d.nbSamples ctx.syncCtx.prevIndex ((s.2.commits.length : Int) % d.nbSamples),
          holding ctx ((s.2.commits.length : Int) % d.nbSamples)) ∧
      Pending d (· = t) t n (holding ctx ((s.2.commits.length : Int) % d.nbSamples)) f
        (exec (tracked B d) t (newSample ctx metadata) s).2 ∧
      (exec (tracked B d) t (newSample ctx metadata) s).2.2.commits = s.2.commits := by
  have hi : IsI32 ctx.syncCtx.index := by
    rw [h.index]
    exact ⟨by omega, by omega⟩
  have hcommits := exec_commits (B := B) (d := d)
    ((newSample_noStore ctx hi metadata).mono (fun _ => id) fun _ _ => trivial) t s
  rcases exec_of_wp (fun _ => rfl) (fun _ _ => trivial)
    (wp_newSample_idle (B := B) (solo_setting hd t) metadata h) with
    ⟨-, -, u, v, rfl, hv⟩ | ⟨i, f, hr, hp, -⟩
  · obtain rfl := h.inv.allowed v hv
    rw [h.writing] at hv
    exact absurd hv (by decide)
  · obtain rfl : i = (s.2.commits.length : Int) % d.nbSamples := by
      rw [← hcommits]
      exact hp.index
    exact ⟨f, hr, hp, hcommits⟩

/-- A whole blob after a new sample that was not refused. -/
theorem exec_writeNewBlob (hd : SoundDesc d) (src : List UInt8) {size : Nat}
    (hsize : (size : Int) ≤ d.blobSize) (metadata : SampleMetadata) {i : Int} {f : Mem}
    (h : (exec (tracked B d) t (newSample ctx metadata) s).1 = (0, holding ctx i))
    (hp : Pending d (· = t) t n (holding ctx i) f
      (exec (tracked B d) t (newSample ctx metadata) s).2) :
    (exec (tracked B d) t (writeNewBlob ctx src size metadata) s).1
        = (0, released (holding ctx i)) ∧
      Idle d (· = t) t (n + 1) (released (holding ctx i))
        (exec (tracked B d) t (writeNewBlob ctx src size metadata) s).2 := by
  have hq : InBounds d { quantityOffset := 0, quantitySize := size } := ⟨le_refl 0, by simpa using hsize⟩
  obtain ⟨r, u, hex⟩ : ∃ r u, exec (tracked B d) t (newSample ctx metadata) s = (r, u) :=
    ⟨_, _, rfl⟩
  rw [hex] at h hp
  dsimp only at h
  subst h
  have hwq := exec_of_wp (p := writeQuantity (holding ctx i) _ src) (fun _ => rfl)
    (fun _ _ => trivial) (wp_writeQuantity_pending (B := B) (solo_setting hd t) hp hq)
  obtain ⟨ret, v, hex'⟩ : ∃ ret v, exec (tracked B d) t (writeQuantity (holding ctx i)
    { quantityOffset := 0, quantitySize := size } src) u = (ret, v) := ⟨_, _, rfl⟩
  rw [hex'] at hwq
  obtain ⟨rfl, hp'⟩ := hwq
  obtain ⟨hr, x, rfl, hidle, -⟩ := exec_of_wp (fun _ => rfl) (fun _ _ => trivial)
    (wp_commitSample_pending (B := B) (solo_setting hd t) hp')
  rw [writeNewBlob, exec_bind, hex]
  dsimp only
  rw [if_neg (show ¬ (0 : Int) < 0 by decide), exec_bind, hex']
  dsimp only
  rw [if_neg (show ¬ (0 : Int) < 0 by decide)]
  exact ⟨hr, hidle⟩

/-- The history has no part in what a call returns. -/
theorem exec_tracked {α : Type} (p : ShdProg α) :
    (exec (tracked B d) t p s).1 = (exec (machine B) t p s.1).1 :=
  (Prod.ext_iff.mp (ghost_exec (machine B) (track d) t p s)).1

end Starts

/-! ## Any number of producers -/

/-- What a finished producer keeps, beside what it reports. -/
theorem keeps_safe (B : Backend Ω) {d : DataSectionDesc} {w : World Ω} {ctxs : Nat → ShdCtx}
    (hctx : ∀ t, CtxFor d (ctxs t)) (hsync : ∀ t, (ctxs t).syncCtx = syncCtxInit)
    (calls : Nat → List ProdCall) :
    Pool.Safe (tracked B d) FewRefusals (fun t => SameLast t) (fun t => LastGuar t)
      (fun t r s => Keeps t r.2 s) (producers w ctxs calls) where
  trans := fun _ a b c => sameLast_trans a b c
  compat := fun _ u hne _ _ _ h => h u hne.symm
  threads := fun t => wp_prodCalls_keeps (calls t) (keeps_init (hctx t) (hsync t))

/-- **Foreign writes are detected, unless they went round the ring.** In any run of
any number of producers of one creation, a producer that made a commit starts
a sample. If it is not refused, it gets `-EFAULT` exactly if the ring has one slot
or the number of commits that others made since its last one is no multiple of
the number of slots. -/
theorem foreign_detected_iff (B : Backend Ω) {d : DataSectionDesc} (hd : SoundDesc d)
    {w : World Ω} (hw : Cleared d w.mem) {ctxs : Nat → ShdCtx} (hctx : ∀ t, CtxFor d (ctxs t))
    (hsync : ∀ t, (ctxs t).syncCtx = syncCtxInit) {calls : Nat → List ProdCall}
    (hcalls : ∀ t, ∀ c ∈ calls t, c.InBounds d) (ts : List Nat)
    (hfew : (producers w ctxs calls).Meets (tracked B d) FewRefusals ts) {s : World Ω × History}
    (hs : ((producers w ctxs calls).run (tracked B d) ts).st = s) {t : Nat} {rets : List Int}
    {ctx : ShdCtx}
    (hdone : ((producers w ctxs calls).run (tracked B d) ts).pool t = .ret (rets, ctx))
    (hcommit : 0 < commitsBy t s.2.commits) {c : ProdCall} (hc : c.Starts) (hin : c.InBounds d)
    (hnext : FewRefusals t (.addAndFetch .startWriteSession 48 1) s) {ret : Int}
    (hret : (exec (tracked B d) t (prodCall ctx c) s).1.1 = ret) (hperm : ret ≠ -EPERM)
    (halready : ret ≠ -EALREADY) :
    ret = -EFAULT ↔ ¬ (2 ≤ d.nbSamples ∧ d.nbSamples ∣ foreignSince t s.2.commits) := by
  have hfresh : ∀ t, Fresh d (ctxs t) := fun t => ⟨hctx t, by rw [hsync t]; rfl⟩
  have hown := ((pool_safe B hd hw hfresh hcalls).run (fun t s => prodRely_refl d _ t s) ts
    hfew).post (fun t s => prodRely_refl d _ t s) hdone
  have hkeeps := ((keeps_safe B hctx hsync calls).run (fun _ => sameLast_refl) ts hfew).post
    (fun _ => sameLast_refl) hdone
  rw [hs] at hown hkeeps
  -- a whole blob starts with a new sample
  obtain ⟨md, hcall, hsucceeds⟩ : ∃ md,
      (∀ code < 0, (exec (tracked B d) t (newSample ctx md) s).1.1 = code → ret = code) ∧
      ∀ {n i f}, (exec (tracked B d) t (newSample ctx md) s).1 = (0, holding ctx i) →
        Pending d (· = t) t n (holding ctx i) f
          (exec (tracked B d) t (newSample ctx md) s).2 → ret = 0 := by
    cases c with
    | newSample md =>
      refine ⟨md, fun code _ h => hret.symm.trans h, fun h _ => ?_⟩
      rw [← hret]
      exact (Prod.ext_iff.mp h).1
    | writeNewBlob src size md =>
      refine ⟨md, fun code hneg h => ?_, fun h hp => ?_⟩
      · rw [← hret, ← h]
        show (exec (tracked B d) t (writeNewBlob ctx src size md) s).1.1 = _
        rw [exec_writeNewBlob_refused src size md (by omega)]
      · rw [← hret]
        show (exec (tracked B d) t (writeNewBlob ctx src size md) s).1.1 = 0
        rw [(exec_writeNewBlob hd src hin md h hp).1]
    | writeQuantity q src => exact absurd hc id
    | commitSample => exact absurd hc id
  rcases hown with hidle | ⟨f, hpend⟩
  · by_cases hbusy : ∃ u, s.2.writing u = true
    · -- somebody else is writing: the attempt is refused
      obtain ⟨u, hu⟩ := hbusy
      have hrefused := refused_of_few hidle.inv hu (hnext ⟨u, hu⟩)
      refine absurd (hcall (-EPERM) (by decide) ?_) hperm
      have hbusy : nbOngoing s.1.mem ≠ 0 := fun h0 => hrefused ((attempt_iff _).mpr h0)
      have hres := exec_reserveWrite_refused (B := B) (t := t) hidle.ctxFor hbusy
      rw [if_neg (fun h => h hidle.index)] at hres
      rw [exec_tracked, exec_newSample_failed hres (show -EPERM < 0 by decide)]
    · -- nobody is writing: the comparison decides
      have halone : RingInv d (· = t) s :=
        ringInv_only hidle.inv fun u hu => absurd ⟨u, hu⟩ hbusy
      have hidle' : Idle d (· = t) t _ ctx s :=
        ⟨hidle.ctxFor, halone, hidle.writing, hidle.index, hidle.count⟩
      obtain ⟨f, hnew, hpend, -⟩ := exec_newSample_idle (B := B) hd hidle' md
      obtain ⟨-, hlast⟩ := lastIndexBy_eq hidle.inv.commits hcommit
      rw [← startCode_last hd.size (s.2.commits.length : Int), ← hlast, ← hkeeps.prev]
      rcases startCode_cases d.nbSamples ctx.syncCtx.prevIndex
        ((s.2.commits.length : Int) % d.nbSamples) with hcode | hcode
      · rw [hcode] at hnew ⊢
        obtain rfl := hsucceeds hnew hpend
        exact Iff.rfl
      · rw [hcode] at hnew ⊢
        exact iff_of_true (hcall _ (by decide) (by rw [hnew])) rfl
  · -- in its own session it is told so
    have halone := ringInv_only hpend.inv fun u hu => hpend.inv.excl u t hu hpend.writing
    have hpend' : Pending d (· = t) t _ ctx f s :=
      ⟨hpend.ctxFor, halone, hpend.writing, hpend.level, hpend.index, hpend.mem, hpend.count⟩
    obtain ⟨hnew, -⟩ := exec_of_wp (fun _ => rfl) (fun _ _ => trivial)
      (wp_newSample_pending (B := B) (solo_setting hd t) md hpend')
    exact absurd (hcall (-EALREADY) (by decide) (by rw [hnew])) halready

/-- Producer 0 writes a blob, then producer 1 writes two. The ring has 2 slots. -/
def overtaken (ts : List Nat) : Config Op.Resp Nat (World Shm × History) (List Int × ShdCtx) :=
  (producers (created 2).2 (fun _ => (created 2).1.getD default) fun t =>
    if t = 0 then [.writeNewBlob [1, 2, 3, 4] 4 ⟨⟨1, 0⟩, ⟨1, 0⟩⟩]
    else if t = 1 then [.writeNewBlob [5, 6, 7, 8] 4 ⟨⟨2, 0⟩, ⟨2, 0⟩⟩,
      .writeNewBlob [9, 10, 11, 12] 4 ⟨⟨3, 0⟩, ⟨3, 0⟩⟩]
    else []).run (tracked shm ⟨56, 4, 2⟩) ts

/-- What producer 0 gets when it starts another sample. -/
def nextSample (c : Config Op.Resp Nat (World Shm × History) (List Int × ShdCtx)) : Option Int :=
  (c.pool 0).returned.map fun r =>
    (exec (tracked shm ⟨56, 4, 2⟩) 0 (prodCall r.2 (.newSample ⟨⟨4, 0⟩, ⟨4, 0⟩⟩)) c.st).1.1

theorem foreign_detected_once :
    nextSample (overtaken (List.replicate 11 0 ++ List.replicate 11 1)) = some (-EFAULT) := by
  have hf : FitsHdr ⟨4, 2, 1, 0⟩ := ⟨⟨by decide, by decide⟩, by decide⟩
  have hsome : (created 2).1.isSome := by decide +kernel
  obtain ⟨hw, -⟩ := created_fresh hf hsome
  obtain ⟨hctx, hsync⟩ := created_ctx hf hsome
  obtain ⟨r, hr⟩ := Option.isSome_iff_exists.mp (show ((overtaken (List.replicate 11 0 ++
    List.replicate 11 1)).pool 0).returned.isSome by decide +kernel)
  have hcodes : nextSample (overtaken (List.replicate 11 0 ++ List.replicate 11 1)) ≠ some (-EPERM) ∧
      nextSample (overtaken (List.replicate 11 0 ++ List.replicate 11 1)) ≠ some (-EALREADY) := by
    decide +kernel
  rw [nextSample, hr] at hcodes ⊢
  refine congrArg some ((foreign_detected_iff shm (soundDesc_of_fits hf) hw
    (fun _ => hctx) (fun _ => hsync) (fun t c hc => ?_) _
    (fewRefusals_of_short _ _ _ _ (by decide)) rfl (Prog.eq_ret_of_returned hr) ?_
    (show ProdCall.Starts (.newSample ⟨⟨4, 0⟩, ⟨4, 0⟩⟩) from trivial) trivial ?_ rfl
    (fun h => hcodes.1 (congrArg some h)) (fun h => hcodes.2 (congrArg some h))).mpr ?_)
  · by_cases h0 : t = 0
    · obtain rfl := h0
      obtain rfl := List.mem_singleton.mp hc
      exact show (4 : Int) ≤ 4 by decide
    rw [if_neg h0] at hc
    by_cases h1 : t = 1
    · rw [if_pos h1] at hc
      obtain rfl | rfl : c = _ ∨ c = _ := by simpa using hc
      · exact show (4 : Int) ≤ 4 by decide
      · exact show (4 : Int) ≤ 4 by decide
    · rw [if_neg h1] at hc
      exact absurd hc (by simp)
  · show 0 < commitsBy 0 (overtaken (List.replicate 11 0 ++ List.replicate 11 1)).st.2.commits
    decide +kernel
  · intro _
    show (overtaken (List.replicate 11 0 ++ List.replicate 11 1)).st.2.refused + 1 < 4294967295
    decide +kernel
  · show ¬ ((2 : Int) ≤ 2 ∧ (2 : Int) ∣
      (foreignSince 0 (overtaken (List.replicate 11 0 ++ List.replicate 11 1)).st.2.commits : Int))
    decide +kernel

/-- Two commits by another producer go once round a ring of 2 slots, and the
context that they overtook starts its sample as if nothing had happened. -/
theorem foreign_missed :
    (overtaken (List.replicate 11 0 ++ List.replicate 22 1)).st.2.commits.map Commit.thread
        = [0, 1, 1] ∧
      nextSample (overtaken (List.replicate 11 0 ++ List.replicate 22 1)) = some 0 := by
  decide +kernel

end Shdata.Producer
