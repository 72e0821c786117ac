/-
Shdata.Producer.Calls — one specification for each call of a producer, valid
under any interference of other producers and readers.

Between its calls a producer is in one of two states. `Idle`: it is in no
write session and its context holds no index. `Pending`: it is in the write
session, the slot after the published one is reserved, and its context holds
that slot. Both count the commits that the producer made. A failed
`shd_new_sample` may leave either: a refused attempt leaves the context idle,
`-EFAULT` leaves it pending.

While a producer is in its session nobody else changes the history or a byte
after the header (`Frozen`), so `Pending` can say what the bytes are.

The rely `R` is any relation within `ProdRely`. With the full `ProdRely` the
specifications compose in parallel; with equality they are about a call that
runs alone.
-/
import Shdata.Trace.Track

namespace Shdata.Producer

open Shdata.Conc Shdata.Bytes Shdata.Core Shdata.Ring Shdata.Layout Shdata.Trace

variable {Ω : Type}

/-! ## Interference and guarantee -/

/-- What the other threads may do between two operations of producer `t`. -/
def ProdRely (d : DataSectionDesc) (A : Nat → Prop) (t : Nat) (s s' : World Ω × History) : Prop :=
  RingInv d A s → RingInv d A s' ∧ s'.2.writing t = s.2.writing t ∧
    (s.2.writing t = true → Frozen s s') ∧
    commitsBy t s'.2.commits = commitsBy t s.2.commits

/-- What producer `t` does with one operation. -/
def ProdGuar (d : DataSectionDesc) (A : Nat → Prop) (t : Nat) (o : Op)
    (s s' : World Ω × History) : Prop :=
  RingInv d A s → Moves d A t o s s'

theorem prodRely_refl (d : DataSectionDesc) (A : Nat → Prop) (t : Nat) (s : World Ω × History) :
    ProdRely d A t s s :=
  fun h => ⟨h, rfl, fun _ => Frozen.refl s, rfl⟩

theorem prodRely_trans {d : DataSectionDesc} {A : Nat → Prop} {t : Nat}
    {s s' s'' : World Ω × History} (h : ProdRely d A t s s') (h' : ProdRely d A t s' s'') :
    ProdRely d A t s s'' := by
  intro hi
  obtain ⟨hi', hw, hf, hc⟩ := h hi
  obtain ⟨hi'', hw', hf', hc'⟩ := h' hi'
  exact ⟨hi'', hw'.trans hw, fun ht => (hf ht).trans (hf' (hw.trans ht)), hc'.trans hc⟩

/-- A step of one producer is interference to another. -/
theorem prodGuar_rely {d : DataSectionDesc} {A : Nat → Prop} {t u : Nat} (hne : t ≠ u) {o : Op}
    {s s' : World Ω × History} (h : ProdGuar d A t o s s') : ProdRely d A u s s' := by
  intro hi
  have hm := h hi
  exact ⟨hm.inv, hm.others u (Ne.symm hne), fun hu => hm.frozen u (Ne.symm hne) hu,
    hm.byOthers u (Ne.symm hne)⟩

/-! ## States of a producer -/

/-- No session, no index. -/
structure Idle (d : DataSectionDesc) (A : Nat → Prop) (t n : Nat) (ctx : ShdCtx)
    (s : World Ω × History) : Prop where
  ctxFor : CtxFor d ctx
  inv : RingInv d A s
  writing : s.2.writing t = false
  index : ctx.syncCtx.index = -1
  count : commitsBy t s.2.commits = n

/-- A session was started and no slot is reserved yet. -/
structure Started (d : DataSectionDesc) (A : Nat → Prop) (t n : Nat) (ctx : ShdCtx)
    (s : World Ω × History) : Prop where
  ctxFor : CtxFor d ctx
  inv : RingInv d A s
  writing : s.2.writing t = true
  level : s.2.reserved.length = s.2.commits.length
  index : ctx.syncCtx.index = -1
  count : commitsBy t s.2.commits = n

/-- The slot after the published one is reserved, and the bytes after the header
are those of `f`. -/
structure Pending (d : DataSectionDesc) (A : Nat → Prop) (t n : Nat) (ctx : ShdCtx) (f : Mem)
    (s : World Ω × History) : Prop where
  ctxFor : CtxFor d ctx
  inv : RingInv d A s
  writing : s.2.writing t = true
  level : s.2.reserved.length = s.2.commits.length + 1
  index : ctx.syncCtx.index = (s.2.commits.length : Int) % d.nbSamples
  mem : ∀ x, 56 ≤ x → s.1.mem x = f x
  count : commitsBy t s.2.commits = n

section Stable

variable {d : DataSectionDesc} {A : Nat → Prop} {t n : Nat} {ctx : ShdCtx} {f : Mem}
  {s s' : World Ω × History}

theorem Idle.stable (h : Idle d A t n ctx s) (hR : ProdRely d A t s s') : Idle d A t n ctx s' := by
  obtain ⟨hi, hw, -, hc⟩ := hR h.inv
  exact ⟨h.ctxFor, hi, hw.trans h.writing, h.index, hc.trans h.count⟩

theorem Started.stable (h : Started d A t n ctx s) (hR : ProdRely d A t s s') :
    Started d A t n ctx s' := by
  obtain ⟨hi, hw, hf, hc⟩ := hR h.inv
  have hf := hf h.writing
  exact ⟨h.ctxFor, hi, hw.trans h.writing, by rw [hf.reserved, hf.commits]; exact h.level, h.index,
    hc.trans h.count⟩

theorem Pending.stable (h : Pending d A t n ctx f s) (hR : ProdRely d A t s s') :
    Pending d A t n ctx f s' := by
  obtain ⟨hi, hw, hf, hc⟩ := hR h.inv
  have hf := hf h.writing
  exact ⟨h.ctxFor, hi, hw.trans h.writing, by rw [hf.reserved, hf.commits]; exact h.level,
    by rw [hf.commits]; exact h.index, fun x hx => (hf.mem x hx).trans (h.mem x hx),
    hc.trans h.count⟩

theorem Pending.isSlot (hd : SoundDesc d) (h : Pending d A t n ctx f s) :
    IsSlot d.nbSamples ctx.syncCtx.index := by
  rw [h.index]
  exact isSlot_emod hd.size _

theorem Pending.index_ne (hd : SoundDesc d) (h : Pending d A t n ctx f s) :
    ctx.syncCtx.index ≠ -1 := by
  have := (h.isSlot hd).nonneg
  omega

end Stable

/-! ## One operation at a time -/

/-- The hypotheses on producer `t`: the section is sound, `t` may write, an
attempt to start a session does not succeed while another thread is in one,
and the interference is that of producers. -/
structure Setting (d : DataSectionDesc) (A : Nat → Prop)
    (C : Nat → Op → World Ω × History → Prop) (t : Nat)
    (R : World Ω × History → World Ω × History → Prop) : Prop where
  sound : SoundDesc d
  allowed : A t
  attempt : ∀ s a, RingInv d A s → C t (.addAndFetch .startWriteSession a 1) s →
    ∀ u, u ≠ t → s.2.writing u = true → toI32 (nbOngoing s.1.mem + 1) ≠ 1
  rely : ∀ s s', R s s' → ProdRely d A t s s'
  refl : ∀ s, R s s

/-- A site whose loads are not recorded. -/
def Unrecorded : Site → Prop
  | .startReadSession _ | .windowRead _ | .dataReadQuantitySample _ => False
  | _ => True

section Rules

variable {B : Backend Ω} {d : DataSectionDesc} {A : Nat → Prop}
  {C : Nat → Op → World Ω × History → Prop} {t n : Nat}
  {R : World Ω × History → World Ω × History → Prop}
  {α : Type} {Q : α → World Ω × History → Prop} {s : World Ω × History}

theorem track_read (d : DataSectionDesc) (t : Nat) {site : Site} (hs : Unrecorded site) (a : Int)
    (len : Nat) (w : World Ω) (bs : List UInt8) (h : History) :
    track d t (.read site a len) w bs h = h := by
  cases site <;> first | rfl | exact absurd hs id

theorem wp_load {site : Site} {a : Int} {f : Int → ShdProg α} (hs : Unrecorded site)
    (h : ∀ u, R s u → wp (tracked B d) t C R (ProdGuar d A t) (f (u.1.mem.i32 a)) Q u) :
    wp (tracked B d) t C R (ProdGuar d A t) (load32 site a >>= f) Q s := by
  intro u hu _
  have hsame : ((tracked B d).step t (.read site a 4) u).1 = u :=
    Prod.ext rfl (track_read d t hs a 4 u.1 _ u.2)
  refine ⟨fun hi => ?_, ?_⟩
  · rw [hsame]
    exact moves_same hi rfl rfl id id
  · rw [hsame]
    exact h u hu

theorem wp_samplePtr {desc : DataSectionDesc} {index : Int} {f : Int → ShdProg α}
    (h : ∀ u, R s u →
      wp (tracked B d) t C R (ProdGuar d A t) (f (dataGetSamplePtr desc index)) Q u) :
    wp (tracked B d) t C R (ProdGuar d A t) (getSamplePtr desc index >>= f) Q s := by
  intro u hu _
  exact ⟨fun hi => moves_same hi rfl rfl id id, h u hu⟩

/-! ## Start of a session -/

theorem addr_writeIndex : (40 : Int) + offsetofWriteIndex = 44 := rfl

theorem addr_nbOngoing : (40 : Int) + offsetofNbOngoing = 48 := rfl

/-- The history after an attempt to start a session that read `n`. -/
theorem track_attempt (d : DataSectionDesc) (t : Nat) (a v n : Int) (w : World Ω) (h : History) :
    track d t (.addAndFetch .startWriteSession a v) w n h =
      if n = 1 then { h with writing := Function.update h.writing t true, refused := 0 }
      else { h with refused := h.refused + 1 } := rfl

theorem step_addAndFetch {site : Site} {a v : Int} {u u' : World Ω × History} {n : Int}
    (h : (tracked B d).step t (.addAndFetch site a v) u = (u', n)) :
    u'.1.mem = u.1.mem.write a (encI32 (u.1.mem.i32 a + v)) ∧ n = toI32 (u.1.mem.i32 a + v) ∧
      u'.2 = track d t (.addAndFetch site a v) u.1 n u.2 := by
  obtain ⟨rfl, rfl⟩ := Prod.ext_iff.mp h
  exact ⟨rfl, rfl, rfl⟩

theorem step_write {site : Site} {a : Int} {src : List UInt8} {u u' : World Ω × History}
    {n : Unit} (h : (tracked B d).step t (.write site a src) u = (u', n)) :
    u'.1.mem = u.1.mem.write a src ∧ u'.2 = track d t (.write site a src) u.1 n u.2 := by
  obtain ⟨rfl, rfl⟩ := Prod.ext_iff.mp h
  exact ⟨rfl, rfl⟩

/-- One operation, with names for the state it leaves and its response. -/
theorem wp_step {o : Op} {f : o.Resp → ShdProg α}
    (h : ∀ u u' n, R s u → C t o u → (tracked B d).step t o u = (u', n) →
      (RingInv d A u → Moves d A t o u u') ∧
        wp (tracked B d) t C R (ProdGuar d A t) (f n) Q u') :
    wp (tracked B d) t C R (ProdGuar d A t) (perform o >>= f) Q s :=
  wp_perform fun u hu hc => h u _ _ hu hc rfl

/-- An attempt of an idle producer is refused only while somebody is in a
session. -/
theorem wp_startWriteSession_idle (hS : Setting d A C t R) {ctx : ShdCtx}
    (h : Idle d A t n ctx s) :
    wp (tracked B d) t C R (ProdGuar d A t) (syncStartWriteSession ctx.syncCtx 40)
      (fun ret s' => (ret = -EPERM ∧ Idle d A t n ctx s' ∧ ∃ u v, R s u ∧ u.2.writing v = true) ∨
        (ret = 0 ∧ Started d A t n ctx s')) s := by
  rw [syncStartWriteSession, addr_nbOngoing]
  refine wp_step fun u u' m hu hc hstep => ?_
  obtain ⟨hmem, hm0, hhist⟩ := step_addAndFetch hstep
  have hidle := h.stable (hS.rely _ _ hu)
  rw [track_attempt] at hhist
  by_cases hone : m = 1
  · -- the attempt succeeds, so nobody is in a session
    rw [if_pos hone] at hhist
    rw [hm0] at hone
    have hno : ∀ v, v ≠ t → u.2.writing v = false := by
      intro v hv
      have hne : u.2.writing v ≠ true := fun hw => hS.attempt u _ hidle.inv hc v hv hw hone
      simpa using hne
    have hnone : ∀ v, u.2.writing v = false := by
      intro v
      by_cases hv : v = t
      · rw [hv]; exact hidle.writing
      · exact hno v hv
    have hm : Moves d A t (.addAndFetch .startWriteSession 48 1) u u' :=
      moves_started hS.sound hidle.inv hS.allowed hno hmem hhist hone id id
    refine ⟨fun _ => hm, ?_⟩
    have hstart : Started d A t n ctx u' :=
      ⟨h.ctxFor, hm.inv, by rw [hhist]; simp, by rw [hhist]; exact (hidle.inv.idle hnone).2, h.index,
        by rw [hhist]; exact hidle.count⟩
    rw [if_neg (by rw [hm0, hone]; simp)]
    exact fun v hv => Or.inr ⟨rfl, hstart.stable (hS.rely _ _ hv)⟩
  · rw [if_neg hone] at hhist
    have hm : Moves d A t (.addAndFetch .startWriteSession 48 1) u u' :=
      moves_refused hS.sound hidle.inv hmem hhist (fun e => hone (hm0.trans e)) id id
    refine ⟨fun _ => hm, ?_⟩
    have hidle' : Idle d A t n ctx u' :=
      ⟨h.ctxFor, hm.inv, by rw [hhist]; exact hidle.writing, h.index,
        by rw [hhist]; exact hidle.count⟩
    have hbusy : ∃ v, u.2.writing v = true := by
      by_contra hno
      have hfree : nbOngoing u.1.mem = 0 :=
        (hidle.inv.idle fun v => by simpa using fun hv => hno ⟨v, hv⟩).1
      refine hone (hm0.trans ?_)
      rw [show u.1.mem.i32 48 = 0 from hfree]
      exact toI32_of_isI32 ⟨by omega, by omega⟩
    obtain ⟨b, hb⟩ := hbusy
    rw [if_pos hone, if_neg (by simp [h.index])]
    exact fun v hv => Or.inl ⟨rfl, hidle'.stable (hS.rely _ _ hv), u, b, hu, hb⟩

/-- An attempt of a producer that is in a session. When the counter has gone
round, its own attempt may succeed, and changes nothing for the others. -/
theorem wp_startWriteSession_pending (hS : Setting d A C t R) {ctx : ShdCtx} {f : Mem}
    (h : Pending d A t n ctx f s) :
    wp (tracked B d) t C R (ProdGuar d A t) (syncStartWriteSession ctx.syncCtx 40)
      (fun ret s' => (ret = -EALREADY ∨ ret = 0) ∧ Pending d A t n ctx f s') s := by
  rw [syncStartWriteSession, addr_nbOngoing]
  refine wp_step fun u u' m hu hc hstep => ?_
  obtain ⟨hmem, hm0, hhist⟩ := step_addAndFetch hstep
  have hpend := h.stable (hS.rely _ _ hu)
  rw [track_attempt] at hhist
  have hframe : ∀ x, 56 ≤ x → u'.1.mem x = f x := by
    intro x hx
    rw [hmem, Mem.write_of_not_mem (by rw [length_encI32]; omega)]
    exact hpend.mem x hx
  by_cases hone : m = 1
  · rw [if_pos hone] at hhist
    rw [hm0] at hone
    have hw : u'.2.writing = u.2.writing := by
      rw [hhist]
      funext v
      by_cases hv : v = t
      · simp [hv, hpend.writing]
      · simp [hv]
    have hm : Moves d A t (.addAndFetch .startWriteSession 48 1) u u' := by
      refine moves_ongoing hS.sound hpend.inv hmem (by rw [hhist]) (by rw [hhist])
        (by rw [hhist]; exact ⟨rfl, rfl, rfl⟩) (by rw [hw]; exact hpend.inv.excl)
        (by rw [hw]; exact hpend.inv.allowed) ?_ ?_ (fun v _ => by rw [hw]) id id
      · intro hno
        have := hno t
        rw [hw, hpend.writing] at this
        exact absurd this (by decide)
      · intro v _
        rw [show u.1.mem.i32 48 = nbOngoing u.1.mem from rfl] at *
        rw [hone, hhist]
        exact (toI32_of_isI32 ⟨by omega, by omega⟩).symm
    refine ⟨fun _ => hm, ?_⟩
    have hpend' : Pending d A t n ctx f u' :=
      ⟨h.ctxFor, hm.inv, by rw [hw]; exact hpend.writing, by rw [hhist]; exact hpend.level,
        by rw [hhist]; exact hpend.index, hframe, by rw [hhist]; exact hpend.count⟩
    rw [if_neg (by rw [hm0, hone]; simp)]
    exact fun v hv => ⟨Or.inr rfl, hpend'.stable (hS.rely _ _ hv)⟩
  · rw [if_neg hone] at hhist
    have hm : Moves d A t (.addAndFetch .startWriteSession 48 1) u u' :=
      moves_refused hS.sound hpend.inv hmem hhist (fun e => hone (hm0.trans e)) id id
    refine ⟨fun _ => hm, ?_⟩
    have hpend' : Pending d A t n ctx f u' :=
      ⟨h.ctxFor, hm.inv, by rw [hhist]; exact hpend.writing, by rw [hhist]; exact hpend.level,
        by rw [hhist]; exact hpend.index, hframe, by rw [hhist]; exact hpend.count⟩
    rw [if_pos hone, if_pos (h.index_ne hS.sound)]
    exact fun v hv => ⟨Or.inl rfl, hpend'.stable (hS.rely _ _ hv)⟩

/-! ## Reservation -/

/-- The slot after the published one, as a started or pending producer reads it. -/
theorem RingInv_next (hd : SoundDesc d) {u : World Ω × History} (h : RingInv d A u) :
    indexNext (u.1.mem.i32 44) d.nbSamples = (u.2.commits.length : Int) % d.nbSamples :=
  h.ring.index_next hd

/-- What `shd_sync_start_sample_write` answers for the slot `index` of a ring of
`N` slots to a context whose previous slot is `prev`. -/
def startCode (N prev index : Int) : Int :=
  if 0 < toU32 (intervalBetween prev index N - 1) ∧ prev ≠ -1 then -EFAULT else 0

theorem startCode_cases (N prev index : Int) :
    startCode N prev index = 0 ∨ startCode N prev index = -EFAULT := by
  unfold startCode
  split
  · exact Or.inr rfl
  · exact Or.inl rfl

/-- A context that holds the slot `index`. -/
def holding (ctx : ShdCtx) (index : Int) : ShdCtx :=
  { ctx with syncCtx := { ctx.syncCtx with index := index } }

/-- The reservation by a producer that just started its session. -/
theorem wp_startSampleWrite (hS : Setting d A C t R) {ctx : ShdCtx} {samp : Int}
    (h : Started d A t n ctx s)
    (hsamp : samp = slot d ((s.2.commits.length : Int) % d.nbSamples)) :
    wp (tracked B d) t C R (ProdGuar d A t) (syncStartSampleWrite ctx.syncCtx 40 samp d)
      (fun r s' => ∃ i f, r = (startCode d.nbSamples ctx.syncCtx.prevIndex i,
          (holding ctx i).syncCtx) ∧ Pending d A t n (holding ctx i) f s') s := by
  have hptr : nbWritesPtr samp = samp + 32 := by
    rw [hsamp]
    exact nbWritesPtr_slot hS.sound (isSlot_emod hS.sound.size _)
  rw [syncStartSampleWrite, if_neg (by simp [h.index]), addr_writeIndex, hptr]
  refine wp_step fun u u' m hu hc hstep => ?_
  obtain ⟨hmem, hn, hhist⟩ := step_addAndFetch hstep
  have hst := h.stable (hS.rely _ _ hu)
  obtain ⟨-, -, hf, -⟩ := hS.rely _ _ hu h.inv
  have hcom := (hf h.writing).commits
  rw [hsamp, ← hcom] at hmem hhist
  have hm : Moves d A t (.addAndFetch .startSampleWrite (samp + 32) 1) u u' := by
    refine moves_reserve hS.sound hst.inv hst.writing hst.level hmem ?_ id
    rw [hhist]
    simp [track, offsetofNbWrites]
  refine ⟨fun _ => hm, ?_⟩
  have hlevel : u'.2.reserved.length = u'.2.commits.length + 1 := by
    rw [hhist]
    simp [track, hst.level]
  have hw : u'.2.writing t = true := by
    rw [hhist]
    exact hst.writing
  refine wp_load trivial fun v hv => ?_
  have hpend : Pending d A t n (holding ctx ((u'.2.commits.length : Int) % d.nbSamples))
      u'.1.mem u' :=
    ⟨⟨h.ctxFor.desc, h.ctxFor.sync⟩, hm.inv, hw, hlevel, rfl, fun _ _ => rfl,
      by rw [hhist]; exact hst.count⟩
  have hpv := hpend.stable (hS.rely _ _ hv)
  have hidx : indexNext (v.1.mem.i32 44) d.nbSamples
      = (u'.2.commits.length : Int) % d.nbSamples :=
    (RingInv_next hS.sound hpv.inv).trans hpv.index.symm
  rw [hidx]
  have hret : ∀ code, startCode d.nbSamples ctx.syncCtx.prevIndex
      ((u'.2.commits.length : Int) % d.nbSamples) = code → wp (tracked B d) t C R (ProdGuar d A t)
      (return (code, (holding ctx ((u'.2.commits.length : Int) % d.nbSamples)).syncCtx) :
        ShdProg (Int × SyncCtx)) (fun r s' => ∃ i f, r = (startCode d.nbSamples
          ctx.syncCtx.prevIndex i, (holding ctx i).syncCtx) ∧ Pending d A t n (holding ctx i) f s')
        v := by
    rintro code rfl
    exact fun x hx => ⟨_, _, rfl, hpv.stable (hS.rely _ _ hx)⟩
  dsimp only
  split
  · rename_i hfault
    exact hret _ (if_pos hfault)
  · rename_i hok
    exact hret _ (if_neg hok)

/-- `shd_data_reserve_write` of an idle producer. -/
theorem wp_reserveWrite_idle (hS : Setting d A C t R) {ctx : ShdCtx} (h : Idle d A t n ctx s) :
    wp (tracked B d) t C R (ProdGuar d A t) (dataReserveWrite ctx)
      (fun r s' => (r = (-EPERM, ctx) ∧ Idle d A t n ctx s' ∧
          ∃ u v, R s u ∧ u.2.writing v = true) ∨
        ∃ i f, r = (startCode d.nbSamples ctx.syncCtx.prevIndex i, holding ctx i) ∧
          Pending d A t n (holding ctx i) f s') s := by
  obtain rfl : ctx.desc = d := h.ctxFor.desc
  rw [dataReserveWrite, h.ctxFor.sync]
  refine wp_bind hS.refl (wp_mono (wp_startWriteSession_idle hS h) ?_)
  rintro ret u (⟨rfl, hidle, hbusy⟩ | ⟨rfl, hst⟩)
  · rw [if_pos (by decide)]
    exact fun v hv => Or.inl ⟨rfl, hidle.stable (hS.rely _ _ hv), hbusy⟩
  · rw [if_neg (by decide), syncGetNextWriteIndex, addr_writeIndex, Prog.bind_assoc]
    refine wp_load trivial fun v hv => ?_
    have hv' := hst.stable (hS.rely _ _ hv)
    have hslot := isSlot_emod hS.sound.size (v.2.commits.length : Int)
    rw [RingInv_next hS.sound hv'.inv]
    refine wp_samplePtr fun x hx => ?_
    obtain ⟨-, -, hf, -⟩ := hS.rely _ _ hx hv'.inv
    have hx' := hv'.stable (hS.rely _ _ hx)
    rw [dataGetSamplePtr_eq hS.sound hslot]
    refine wp_bind hS.refl (wp_mono (wp_startSampleWrite hS hx' ?_) ?_)
    · rw [(hf hv'.writing).commits]
    · rintro r y ⟨i, f, rfl, hp⟩
      exact fun z hz => Or.inr ⟨i, f, rfl, hp.stable (hS.rely _ _ hz)⟩

/-- `shd_data_reserve_write` of a pending producer is refused. -/
theorem wp_reserveWrite_pending (hS : Setting d A C t R) {ctx : ShdCtx} {f : Mem}
    (h : Pending d A t n ctx f s) :
    wp (tracked B d) t C R (ProdGuar d A t) (dataReserveWrite ctx)
      (fun r s' => r = (-EALREADY, ctx) ∧ Pending d A t n ctx f s') s := by
  rw [dataReserveWrite, h.ctxFor.sync]
  refine wp_bind hS.refl (wp_mono (wp_startWriteSession_pending hS h) ?_)
  rintro ret u ⟨rfl | rfl, hp⟩
  · rw [if_pos (by decide)]
    exact fun v hv => ⟨rfl, hp.stable (hS.rely _ _ hv)⟩
  · rw [if_neg (by decide), syncGetNextWriteIndex, Prog.bind_assoc]
    refine wp_load trivial fun v hv => ?_
    have hv' := hp.stable (hS.rely _ _ hv)
    refine wp_samplePtr fun x hx => ?_
    have hx' := hv'.stable (hS.rely _ _ hx)
    rw [syncStartSampleWrite, if_pos (h.index_ne hS.sound)]
    exact fun y hy => ⟨rfl, hx'.stable (hS.rely _ _ hy)⟩

/-! ## Copies into the reserved slot -/

/-- A write whose site is not one of the end of a session is not recorded. -/
theorem track_write (d : DataSectionDesc) (t : Nat) {site : Site} (hs : site ≠ .endWriteSession)
    (a : Int) (src : List UInt8) (w : World Ω) (h : History) :
    track d t (.write site a src) w () h = h := by
  cases site <;> first | rfl | exact absurd rfl hs

/-- A copy to the bytes `[off, off + length)` of the reserved slot. -/
theorem wp_sampleWrite (hS : Setting d A C t R) {ctx : ShdCtx} {f : Mem} {site : Site}
    {off : Int} {src : List UInt8} (h : Pending d A t n ctx f s) (hsite : site ≠ .endWriteSession)
    (hoff : 0 ≤ off) (hend : off + src.length ≤ stride d)
    (hcnt : off + src.length ≤ 32 ∨ 36 ≤ off) :
    wp (tracked B d) t C R (ProdGuar d A t)
      (sampleWrite site (slot d ctx.syncCtx.index) off src)
      (fun ret s' => ret = 0 ∧
        Pending d A t n ctx (f.write (slot d ctx.syncCtx.index + off) src) s') s := by
  have hb := slot_bounds hS.sound (h.isSlot hS.sound)
  have haddr : toU64 (slot d ctx.syncCtx.index + off) = slot d ctx.syncCtx.index + off :=
    toU64_of_bounds (by omega) (by omega)
  rw [sampleWrite, haddr]
  refine wp_step fun u u' m hu _ hstep => ?_
  obtain ⟨hmem, hhist⟩ := step_write hstep
  rw [track_write d t hsite] at hhist
  have hp := h.stable (hS.rely _ _ hu)
  have hm : Moves d A t (.write site (slot d ctx.syncCtx.index + off) src) u u' := by
    refine moves_data hS.sound hp.inv hp.writing hp.level hmem hhist ?_ ?_ ?_ ?_
    · rw [← hp.index]; omega
    · rw [← hp.index]; omega
    · rw [← hp.index]; omega
    · cases site <;> first | exact id | exact absurd rfl hsite
  refine ⟨fun _ => hm, fun v hv => ⟨rfl, Pending.stable ⟨h.ctxFor, hm.inv, ?_, ?_, ?_, ?_, ?_⟩
    (hS.rely _ _ hv)⟩⟩
  · rw [hhist]; exact hp.writing
  · rw [hhist]; exact hp.level
  · rw [hhist]; exact hp.index
  · intro x hx
    rw [hmem]
    exact Mem.write_congr (hp.mem x hx)
  · rw [hhist]; exact hp.count

theorem wp_writeMetadata (hS : Setting d A C t R) {ctx : ShdCtx} {f : Mem}
    {metadata : SampleMetadata} (h : Pending d A t n ctx f s) :
    wp (tracked B d) t C R (ProdGuar d A t) (dataWriteMetadata ctx metadata)
      (fun ret s' => ret = 0 ∧ Pending d A t n ctx
        (f.write (slot d ctx.syncCtx.index) (encMetadata metadata)) s') s := by
  rw [dataWriteMetadata, syncGetLocalWriteIndex, if_neg (h.index_ne hS.sound), h.ctxFor.desc]
  refine wp_samplePtr fun u hu => ?_
  have hp := h.stable (hS.rely _ _ hu)
  rw [dataGetSamplePtr_eq hS.sound (h.isSlot hS.sound)]
  have hst := hS.sound.stride_pos
  have hw : wp (tracked B d) t C R (ProdGuar d A t)
      (sampleWrite .dataWriteMetadata (slot d ctx.syncCtx.index) 0 (encMetadata metadata)) _ u :=
    wp_sampleWrite (B := B) hS hp (by decide) (le_refl 0) (by rw [length_encMetadata]; omega)
      (by rw [length_encMetadata]; omega)
  rw [Int.add_zero] at hw
  exact hw

/-- A quantity that lies inside the blob. -/
def InBounds (d : DataSectionDesc) (q : Quantity) : Prop :=
  0 ≤ q.quantityOffset ∧ q.quantityOffset + q.quantitySize ≤ d.blobSize

theorem wp_writeQuantity_pending (hS : Setting d A C t R) {ctx : ShdCtx} {f : Mem}
    {q : Quantity} {src : List UInt8} (h : Pending d A t n ctx f s) (hq : InBounds d q) :
    wp (tracked B d) t C R (ProdGuar d A t) (writeQuantity ctx q src)
      (fun ret s' => ret = 0 ∧ Pending d A t n ctx
        (f.write (slot d ctx.syncCtx.index + (40 + q.quantityOffset))
          (src.take q.quantitySize)) s') s := by
  rw [writeQuantity, dataWriteQuantity, syncGetLocalWriteIndex, if_neg (h.index_ne hS.sound),
    h.ctxFor.desc]
  refine wp_samplePtr fun u hu => ?_
  have hp := h.stable (hS.rely _ _ hu)
  rw [dataGetSamplePtr_eq hS.sound (h.isSlot hS.sound)]
  have hst := hS.sound.stride_ge
  have hlen : (src.take q.quantitySize).length ≤ q.quantitySize := by simp
  obtain ⟨hq0, hq1⟩ := hq
  exact wp_sampleWrite hS hp (by decide) (by show 0 ≤ 40 + q.quantityOffset; omega)
    (by show 40 + q.quantityOffset + _ ≤ _; omega) (by show _ ∨ 36 ≤ 40 + q.quantityOffset; omega)

theorem wp_writeQuantity_idle (hS : Setting d A C t R) {ctx : ShdCtx} (q : Quantity)
    (src : List UInt8) (h : Idle d A t n ctx s) :
    wp (tracked B d) t C R (ProdGuar d A t) (writeQuantity ctx q src)
      (fun ret s' => ret = -EPERM ∧ Idle d A t n ctx s') s := by
  rw [writeQuantity, dataWriteQuantity, syncGetLocalWriteIndex, if_pos h.index]
  exact fun u hu => ⟨rfl, h.stable (hS.rely _ _ hu)⟩

/-! ## New samples -/

theorem wp_newSample_idle (hS : Setting d A C t R) {ctx : ShdCtx} (metadata : SampleMetadata)
    (h : Idle d A t n ctx s) :
    wp (tracked B d) t C R (ProdGuar d A t) (newSample ctx metadata)
      (fun r s' => (r = (-EPERM, ctx) ∧ Idle d A t n ctx s' ∧
          ∃ u v, R s u ∧ u.2.writing v = true) ∨
        ∃ i f, r = (startCode d.nbSamples ctx.syncCtx.prevIndex i, holding ctx i) ∧
          Pending d A t n (holding ctx i) f s' ∧
          (r.1 = 0 → f.read (slot d i) 32 = encMetadata metadata)) s := by
  rw [newSample]
  refine wp_bind hS.refl (wp_mono (wp_reserveWrite_idle hS h) ?_)
  rintro r u (⟨rfl, hidle, hbusy⟩ | ⟨i, f, rfl, hp⟩)
  · rw [if_pos (show -EPERM < 0 by decide)]
    exact fun v hv => Or.inl ⟨rfl, hidle.stable (hS.rely _ _ hv), hbusy⟩
  · rcases startCode_cases d.nbSamples ctx.syncCtx.prevIndex i with hret | hret
    · rw [hret, if_neg (show ¬ (0 : Int) < 0 by decide)]
      refine wp_bind hS.refl (wp_mono (wp_writeMetadata hS hp) ?_)
      rintro ret v ⟨rfl, hp'⟩
      refine fun x hx => Or.inr ⟨i, _, by rw [hret], hp'.stable (hS.rely _ _ hx), fun _ => ?_⟩
      have hsame := Mem.read_write_same f (slot d i) (encMetadata metadata)
      rwa [length_encMetadata] at hsame
    · rw [hret, if_pos (show -EFAULT < 0 by decide)]
      exact fun v hv => Or.inr ⟨i, f, by rw [hret], hp.stable (hS.rely _ _ hv),
        fun h0 => absurd h0 (show ¬ -EFAULT = 0 by decide)⟩

theorem wp_newSample_pending (hS : Setting d A C t R) {ctx : ShdCtx} {f : Mem}
    (metadata : SampleMetadata) (h : Pending d A t n ctx f s) :
    wp (tracked B d) t C R (ProdGuar d A t) (newSample ctx metadata)
      (fun r s' => r = (-EALREADY, ctx) ∧ Pending d A t n ctx f s') s := by
  rw [newSample]
  refine wp_bind hS.refl (wp_mono (wp_reserveWrite_pending hS h) ?_)
  rintro r u ⟨rfl, hp⟩
  rw [if_pos (show -EALREADY < 0 by decide)]
  exact fun v hv => ⟨rfl, hp.stable (hS.rely _ _ hv)⟩

/-! ## Commit -/

theorem wp_commitSample_idle (hS : Setting d A C t R) {ctx : ShdCtx} (h : Idle d A t n ctx s) :
    wp (tracked B d) t C R (ProdGuar d A t) (commitSample ctx)
      (fun r s' => r = (-EPERM, ctx) ∧ Idle d A t n ctx s') s := by
  rw [commitSample, dataEndWrite, syncGetLocalWriteIndex, if_pos h.index]
  exact fun u hu => ⟨rfl, h.stable (hS.rely _ _ hu)⟩

/-- What a commit appends to the log: the sample that the bytes `f` hold in the
slot of the context. -/
def commitOf (d : DataSectionDesc) (t : Nat) (ctx : ShdCtx) (f : Mem) : Commit where
  thread := t
  index := ctx.syncCtx.index
  metadata := metadataOf d f ctx.syncCtx.index
  blob := blobOf d f ctx.syncCtx.index

/-- A context that committed the slot it held. -/
def released (ctx : ShdCtx) : ShdCtx :=
  { ctx with syncCtx := { ctx.syncCtx with prevIndex := ctx.syncCtx.index, index := -1 } }

/-- The commit of a pending producer. The state `v` is the one right after the
reset of the counter, before anybody else moves. -/
theorem wp_commitSample_pending (hS : Setting d A C t R) {ctx : ShdCtx} {f : Mem}
    (h : Pending d A t n ctx f s) :
    wp (tracked B d) t C R (ProdGuar d A t) (commitSample ctx)
      (fun r s' => r = (0, released ctx) ∧ ∃ v, R v s' ∧ Idle d A t (n + 1) (released ctx) v ∧
        v.2.commits = s.2.commits ++ [commitOf d t ctx f]) s := by
  have hslot := h.isSlot hS.sound
  have hb := slot_bounds hS.sound hslot
  rw [commitSample, dataEndWrite, syncGetLocalWriteIndex, if_neg (h.index_ne hS.sound),
    h.ctxFor.sync, syncEndWriteSession, addr_writeIndex, addr_nbOngoing]
  simp only [Prog.bind_assoc]
  -- the store of the index
  refine wp_step fun u u' m hu _ hstep => ?_
  obtain ⟨hmem, hhist⟩ := step_write hstep
  have hp := h.stable (hS.rely _ _ hu)
  obtain ⟨-, -, hf, -⟩ := hS.rely _ _ hu h.inv
  have hdec : decI32 (encI32 ctx.syncCtx.index) = ctx.syncCtx.index := by
    rw [decI32_encI32]
    exact hslot.isI32 hS.sound.size
  have hcommit : (⟨t, ctx.syncCtx.index, metadataOf d u.1.mem ctx.syncCtx.index,
      blobOf d u.1.mem ctx.syncCtx.index⟩ : Commit) = commitOf d t ctx f := by
    have hmd : metadataOf d u.1.mem ctx.syncCtx.index = metadataOf d f ctx.syncCtx.index :=
      metadataOf_congr fun x h0 _ => hp.mem x (by omega)
    have hbl : blobOf d u.1.mem ctx.syncCtx.index = blobOf d f ctx.syncCtx.index :=
      blobOf_congr hS.sound fun x h0 _ => hp.mem x (by omega)
    rw [hmd, hbl, commitOf]
  have hhist' : u'.2 = { u.2 with commits := u.2.commits ++ [commitOf d t ctx f] } := by
    rw [hhist, ← hcommit]
    simp only [track, if_true, hdec]
  have hm : Moves d A t (.write .endWriteSession 44 (encI32 ctx.syncCtx.index)) u u' := by
    refine moves_commit hS.sound hp.inv hp.writing hp.level (c := commitOf d t ctx f) rfl hp.index
      ?_ ?_ (by rw [← hp.index]; exact hmem) hhist' id rfl
    · rw [← hcommit, ← hp.index]
    · rw [← hcommit, ← hp.index]
  refine ⟨fun _ => hm, ?_⟩
  have hw' : u'.2.writing t = true := by rw [hhist']; exact hp.writing
  have hlevel' : u'.2.reserved.length = u'.2.commits.length := by
    rw [hhist']
    simp [hp.level]
  -- the reset of the counter
  refine wp_step fun v v' m hv _ hstep => ?_
  obtain ⟨hmem', hhist₂⟩ := step_write hstep
  obtain ⟨hinv, hw, hfv, -⟩ := hS.rely _ _ hv hm.inv
  have hfv := hfv hw'
  have hhist₂' : v'.2 = { v.2 with writing := Function.update v.2.writing t false } := by
    rw [hhist₂]
    simp [track]
  have hm' : Moves d A t (.write .endWriteSession 48 (encI32 0)) v v' :=
    moves_reset hS.sound hinv (hw.trans hw') (by rw [hfv.reserved, hfv.commits]; exact hlevel')
      hmem' hhist₂' id (by simp [IsIndexStore])
  refine ⟨fun _ => hm', fun x hx => ⟨rfl, v', hx,
    ⟨⟨h.ctxFor.desc, h.ctxFor.sync⟩, hm'.inv, ?_, rfl, ?_⟩, ?_⟩⟩
  · rw [hhist₂']
    simp
  · obtain ⟨-, -, hcount⟩ := hm.store rfl
    rw [hhist₂', hfv.commits, hcount, hp.count]
  · rw [hhist₂', hfv.commits, hhist', (hf h.writing).commits]

end Rules

end Shdata.Producer
