/-
Shdata.Progress.Stopped — a producer that stops inside its write session.

A process may die between `shd_new_sample` and the end of
`shd_commit_sample`. Nobody else resets the counter of ongoing writes, so its session never
ends. `stopped_writer`: from then on no sample is committed and no byte but that counter
changes; no call waits for the dead process, and a producer that comes
later is refused by every call with `-EPERM`.

`recreated` is the way out. Whatever a process left in the section, after a creation that
succeeds the calls of its producer return what they return on a fresh section.
-/
import Shdata.Producer.OneWriter
import Shdata.Producer.Sole
import Shdata.Progress.Calls

namespace Shdata.Progress

open Shdata.Conc Shdata.Bytes Shdata.Core Shdata.Ring Shdata.Layout Shdata.Trace Shdata.Producer
  Shdata.Solo

variable {Ω : Type} {B : Backend Ω} {d : DataSectionDesc} {A : Nat → Prop} {b t n : Nat}
  {s s' : World Ω × History}

/-! ## The others -/

/-- What a producer that stays in its session pins down: all but the counter of ongoing
writes. -/
structure Stuck (s s' : World Ω × History) : Prop where
  commits : s'.2.commits = s.2.commits
  index : writeIndex s'.1.mem = writeIndex s.1.mem
  mem : ∀ x, x < 44 ∨ 52 ≤ x → s'.1.mem x = s.1.mem x

/-- Producer `b` is in its session. -/
structure Busy (d : DataSectionDesc) (b : Nat) (s : World Ω × History) : Prop where
  inv : RingInv d (fun _ => True) s
  writing : s.2.writing b = true

/-- What producer `t` relies on when `b` takes no step. -/
structure StuckRely (d : DataSectionDesc) (b t : Nat) (s s' : World Ω × History) : Prop where
  prod : ProdRely d (fun _ => True) t s s'
  stuck : Busy d b s → Busy d b s' ∧ Stuck s s'

/-- What the other producers guarantee. -/
structure StuckGuar (d : DataSectionDesc) (b t : Nat) (o : Op) (s s' : World Ω × History) :
    Prop where
  other : t ≠ b
  prod : ProdGuar d (fun _ => True) t o s s'

/-- Few refusals, and no step of producer `b`. -/
def WithoutStopped (b t : Nat) (o : Op) (s : World Ω × History) : Prop :=
  FewRefusals t o s ∧ t ≠ b

theorem Stuck.refl (s : World Ω × History) : Stuck s s := ⟨rfl, rfl, fun _ _ => rfl⟩

theorem Stuck.trans {s'' : World Ω × History} (h : Stuck s s') (h' : Stuck s' s'') :
    Stuck s s'' :=
  ⟨h'.commits.trans h.commits, h'.index.trans h.index,
    fun x hx => (h'.mem x hx).trans (h.mem x hx)⟩

theorem stuckRely_refl (d : DataSectionDesc) (b t : Nat) (s : World Ω × History) :
    StuckRely d b t s s :=
  ⟨prodRely_refl d _ t s, fun h => ⟨h, Stuck.refl s⟩⟩

theorem stuckRely_trans {s'' : World Ω × History} (h : StuckRely d b t s s')
    (h' : StuckRely d b t s' s'') : StuckRely d b t s s'' := by
  refine ⟨prodRely_trans h.prod h'.prod, fun hbusy => ?_⟩
  obtain ⟨hbusy', hstuck⟩ := h.stuck hbusy
  obtain ⟨hbusy'', hstuck'⟩ := h'.stuck hbusy'
  exact ⟨hbusy'', hstuck.trans hstuck'⟩

/-- A step of another producer. -/
theorem Busy.step (h : Busy d b s) {o : Op} (hg : StuckGuar d b t o s s') : Busy d b s' := by
  have hm := hg.prod h.inv
  exact ⟨hm.inv, (hm.others b hg.other.symm).trans h.writing⟩

theorem Busy.stuck (hd : SoundDesc d) (h : Busy d b s) {o : Op} (hg : StuckGuar d b t o s s') :
    Stuck s s' := by
  have hm := hg.prod h.inv
  have hfrozen := hm.frozen b hg.other.symm h.writing
  refine ⟨hfrozen.commits, ?_, fun x hx => ?_⟩
  · -- a commit would be another session
    by_cases ho : IsIndexStore o
    · exact absurd (h.inv.excl t b (hm.store ho).1 h.writing) hg.other
    · exact (hm.noStore ho).1
  · have hstart := hd.start
    by_cases hx' : x < d.dataSectionStart
    · exact hm.grows.hdr x (hx.imp id fun h52 => ⟨h52, hx'⟩)
    · exact hfrozen.mem x (by omega)

theorem stuckGuar_rely (hd : SoundDesc d) {u : Nat} (hne : t ≠ u) {o : Op}
    (hg : StuckGuar d b t o s s') : StuckRely d b u s s' :=
  ⟨prodGuar_rely hne hg.prod, fun h => ⟨h.step hg, h.stuck hd hg⟩⟩

/-! ## A producer that comes later -/

theorem stuck_setting (hd : SoundDesc d) (b t : Nat) :
    Setting d (fun _ => True) (WithoutStopped b : _ → _ → World Ω × History → Prop) t
      (StuckRely d b t) where
  sound := hd
  allowed := trivial
  attempt := fun _ _ hi hc u _ hw => refused_of_few hi hw (hc.1 ⟨u, hw⟩)
  rely := fun _ _ h => h.prod
  refl := stuckRely_refl d b t

/-- The specification `Q` of producer `t`, while `b` is in its session. -/
theorem wp_busy {α : Type} (hne : t ≠ b) {p : ShdProg α} {Q : α → World Ω × History → Prop}
    (h : wp (tracked B d) t (WithoutStopped b) (StuckRely d b t)
      (ProdGuar d (fun _ => True) t) p Q s) (hb : Busy d b s) :
    wp (tracked B d) t (WithoutStopped b) (StuckRely d b t) (StuckGuar d b t) p
      (fun a s' => Q a s' ∧ Busy d b s') s :=
  wp_frame (fun _ _ hi hR => (hR.stuck hi).1) (fun _ _ _ hi hg => hi.step hg)
    (wp_weaken h (fun _ _ h => h) fun _ _ _ hg => ⟨hne, hg⟩) hb

theorem wp_newSample_refused (hd : SoundDesc d) (hne : t ≠ b) {ctx : ShdCtx}
    (h : Idle d (fun _ => True) t n ctx s) (hb : Busy d b s) (metadata : SampleMetadata) :
    wp (tracked B d) t (WithoutStopped b) (StuckRely d b t) (StuckGuar d b t)
      (newSample ctx metadata)
      (fun r s' => r = (-EPERM, ctx) ∧ Idle d (fun _ => True) t n ctx s' ∧ Busy d b s') s := by
  refine wp_mono (wp_busy hne (wp_newSample_idle (stuck_setting hd b t) metadata h) hb) ?_
  rintro r u ⟨⟨rfl, hidle, -⟩ | ⟨i, f, rfl, hp, -⟩, hb'⟩
  · exact ⟨rfl, hidle, hb'⟩
  · exact absurd (hp.inv.excl t b hp.writing hb'.writing) hne

/-- Every call of an idle producer is refused. -/
theorem wp_prodCall_refused (hd : SoundDesc d) (hne : t ≠ b) {ctx : ShdCtx}
    (h : Idle d (fun _ => True) t n ctx s) (hb : Busy d b s) (call : ProdCall) :
    wp (tracked B d) t (WithoutStopped b) (StuckRely d b t) (StuckGuar d b t) (prodCall ctx call)
      (fun r s' => r = (-EPERM, ctx) ∧ Idle d (fun _ => True) t n ctx s' ∧ Busy d b s') s := by
  have hS := stuck_setting (Ω := Ω) hd b t
  have hend : ∀ {u : World Ω × History}, Idle d (fun _ => True) t n ctx u → Busy d b u →
      ∀ v, StuckRely d b t u v →
        ((-EPERM, ctx) : Int × ShdCtx) = (-EPERM, ctx) ∧ Idle d (fun _ => True) t n ctx v ∧
          Busy d b v :=
    fun hidle hb' v hv => ⟨rfl, hidle.stable hv.prod, (hv.stuck hb').1⟩
  cases call with
  | newSample metadata => exact wp_newSample_refused hd hne h hb metadata
  | writeQuantity q src =>
    refine wp_bind hS.refl (wp_mono (wp_busy hne (wp_writeQuantity_idle hS q src h) hb) ?_)
    rintro ret u ⟨⟨rfl, hidle⟩, hb'⟩
    exact hend hidle hb'
  | commitSample =>
    refine wp_mono (wp_busy hne (wp_commitSample_idle hS h) hb) ?_
    rintro r u ⟨⟨rfl, hidle⟩, hb'⟩
    exact ⟨rfl, hidle, hb'⟩
  | writeNewBlob src size metadata =>
    refine wp_bind hS.refl (wp_mono (wp_newSample_refused hd hne h hb metadata) ?_)
    rintro r u ⟨rfl, hidle, hb'⟩
    rw [if_pos (show -EPERM < 0 by decide)]
    exact hend hidle hb'

theorem wp_prodCalls_refused (hd : SoundDesc d) (hne : t ≠ b) {ctx : ShdCtx}
    (calls : List ProdCall) (h : Idle d (fun _ => True) t n ctx s) (hb : Busy d b s) :
    wp (tracked B d) t (WithoutStopped b) (StuckRely d b t) (StuckGuar d b t)
      (prodCalls calls ctx) (fun r _ => r = (List.replicate calls.length (-EPERM), ctx)) s := by
  induction calls generalizing s with
  | nil => exact fun _ _ => rfl
  | cons call calls ih =>
    refine wp_bind (stuckRely_refl d b t) (wp_mono (wp_prodCall_refused hd hne h hb call) ?_)
    rintro r u ⟨rfl, hidle, hb'⟩
    refine wp_bind (stuckRely_refl d b t) (wp_mono (ih hidle hb') ?_)
    rintro rs v rfl
    exact fun _ _ => rfl

/-! ## The section -/

section Section

variable {w : World Ω} {ctxs : Nat → ShdCtx} {calls : Nat → List ProdCall}

/-- From the moment at which producer `b` stops. -/
theorem stopped_safe (hd : SoundDesc d) (hw : Cleared d w.mem) (hctx : ∀ u, Fresh d (ctxs u))
    (hcalls : ∀ u, ∀ c ∈ calls u, c.InBounds d) {ts : List Nat}
    (hfew : (producers w ctxs calls).Meets (tracked B d) FewRefusals ts)
    (hb : ((producers w ctxs calls).run (tracked B d) ts).st.2.writing b = true) :
    Busy d b ((producers w ctxs calls).run (tracked B d) ts).st ∧
      Pool.Safe (tracked B d) (WithoutStopped b) (StuckRely d b) (StuckGuar d b)
        (fun u r _ => u ∉ ts → r = (List.replicate (calls u).length (-EPERM), ctxs u))
        ((producers w ctxs calls).run (tracked B d) ts) := by
  have hrefl := fun u (s : World Ω × History) => prodRely_refl d (fun _ => True) u s
  have hsafe := pool_safe B hd hw hctx hcalls
  have hinv := hsafe.inv hrefl (fun _ _ _ _ hg hi => (hg hi).inv) (ringInv_init _ hw) ts hfew
  have hbusy : Busy d b ((producers w ctxs calls).run (tracked B d) ts).st := ⟨hinv, hb⟩
  -- whoever did not move is still idle
  have hidle : ∀ u, u ∉ ts → Idle d (fun _ => True) u 0 (ctxs u)
      ((producers w ctxs calls).run (tracked B d) ts).st := by
    intro u hu
    have hinit : Idle d (fun _ => True) u 0 (ctxs u) (producers w ctxs calls).st :=
      ⟨(hctx u).ctxFor, ringInv_init _ hw, rfl, (hctx u).index, rfl⟩
    exact hinit.stable (hsafe.rely_stopped hrefl ts hu hfew)
  refine ⟨hbusy, fun _ _ _ _ => stuckRely_trans, fun _ _ hne _ _ _ => stuckGuar_rely hd hne, ?_⟩
  intro u
  by_cases hu : u = b
  · subst hu
    refine wp_mono (wp_stopped (fun o a hc => hc.2 rfl) _ _) fun r _ _ hts => ?_
    exact absurd (hb.symm.trans (hidle u hts).writing) (by decide)
  · by_cases hts : u ∈ ts
    · have hthread := (hsafe.run hrefl ts hfew).threads u
      refine wp_mono (wp_weaken (wp_condition (fun _ _ hc => hc.1) hthread) (fun _ _ h => h.prod)
        fun _ _ _ hg => ⟨hu, hg⟩) ?_
      exact fun _ _ _ hnot => absurd hts hnot
    · rw [Config.pool_of_notMem _ hts]
      exact wp_mono (wp_prodCalls_refused hd hu (calls u) (hidle u hts) hbusy) fun _ _ h _ => h

/-- **A producer that stops inside its session.** Producers make calls, and after the
steps `ts` producer `b` is between a successful start of a session and its end. It takes
no step of `ts'`. Then no sample is committed in `ts'` and no byte changes but the counter of
ongoing writes. A producer that comes later and is scheduled often enough has returned from all
its calls, and each was refused with `-EPERM`. -/
theorem stopped_writer (B : Backend Ω) (hd : SoundDesc d) (hw : Cleared d w.mem)
    (hctx : ∀ u, Fresh d (ctxs u)) (hcalls : ∀ u, ∀ c ∈ calls u, c.InBounds d) (ts ts' : List Nat)
    (hfew : (producers w ctxs calls).Meets (tracked B d) FewRefusals (ts ++ ts'))
    (hb : ((producers w ctxs calls).run (tracked B d) ts).st.2.writing b = true)
    (hstop : b ∉ ts') :
    Stuck ((producers w ctxs calls).run (tracked B d) ts).st
        ((producers w ctxs calls).run (tracked B d) (ts ++ ts')).st ∧
      ∀ u, u ∉ ts → 11 * (calls u).length ≤ ts'.count u →
        ((producers w ctxs calls).run (tracked B d) (ts ++ ts')).pool u
          = .ret (List.replicate (calls u).length (-EPERM), ctxs u) := by
  obtain ⟨hfew₁, hfew₂⟩ := Config.meets_append.mp hfew
  obtain ⟨hbusy, hsafe⟩ := stopped_safe hd hw hctx hcalls hfew₁ hb
  have hwithout : ((producers w ctxs calls).run (tracked B d) ts).Meets (tracked B d)
      (WithoutStopped b) ts' :=
    Config.meets_and hfew₂ (Config.meets_of_mem fun t ht _ _ e => hstop (e ▸ ht))
  have hrefl := fun u (s : World Ω × History) => stuckRely_refl d b u s
  rw [Config.run_append]
  refine ⟨((hsafe.rely_stopped hrefl ts' hstop hwithout).stuck hbusy).2, fun u hu hcount => ?_⟩
  have hworks : Works (prodCalls (calls u) (ctxs u)) (11 * (calls u).length) _ :=
    prodCalls_works (calls u)
  obtain ⟨r, hr, -⟩ := returned_of_count (tracked B d)
    (c := (producers w ctxs calls).run (tracked B d) ts)
    (by rw [Config.pool_of_notMem _ hu]; exact hworks) hcount
  rw [hr, (hsafe.run hrefl ts' hwithout).post hrefl hr hu]

/-- Producer 0 starts a sample and then another one; producer 1 writes two blobs. -/
def twoWriters : Config Op.Resp Nat (World Shm × History) (List Int × ShdCtx) :=
  producers (created 2).2 (fun _ => (created 2).1.getD default) fun t =>
    match t with
    | 0 => [.newSample ⟨⟨1, 0⟩, ⟨1, 0⟩⟩, .commitSample]
    | 1 => [.writeNewBlob [1, 2, 3, 4] 4 ⟨⟨2, 0⟩, ⟨2, 0⟩⟩, .commitSample]
    | _ => []

theorem twoWriters_inBounds : ∀ t, ∀ c ∈ (match t with
    | 0 => [.newSample ⟨⟨1, 0⟩, ⟨1, 0⟩⟩, .commitSample]
    | 1 => [.writeNewBlob [1, 2, 3, 4] 4 ⟨⟨2, 0⟩, ⟨2, 0⟩⟩, .commitSample]
    | _ => [] : List ProdCall), c.InBounds ⟨56, 4, 2⟩ := by
  intro t
  match t with
  | 0 => decide
  | 1 => decide
  | _ + 2 => exact fun c hc => absurd hc List.not_mem_nil

/-- Producer 0 stops before it writes the metadata of its sample. -/
theorem stopped_writer_two :
    Stuck (twoWriters.run (tracked shm ⟨56, 4, 2⟩) (List.replicate 5 0)).st
        (twoWriters.run (tracked shm ⟨56, 4, 2⟩)
          (List.replicate 5 0 ++ List.replicate 22 1)).st ∧
      (twoWriters.run (tracked shm ⟨56, 4, 2⟩)
          (List.replicate 5 0 ++ List.replicate 22 1)).pool 1
        = .ret ([-EPERM, -EPERM], (created 2).1.getD default) := by
  have hf : FitsHdr ⟨4, 2, 1, 0⟩ := ⟨⟨by decide, by decide⟩, by decide⟩
  obtain ⟨hw, hctx⟩ := created_fresh hf (by decide +kernel)
  obtain ⟨hstuck, hlate⟩ := stopped_writer (b := 0) shm (soundDesc_of_fits hf) hw (fun _ => hctx)
    twoWriters_inBounds (List.replicate 5 0) (List.replicate 22 1)
    (fewRefusals_of_short _ _ _ _ (by decide)) (by decide +kernel) (by decide)
  exact ⟨hstuck, hlate 1 (by decide) (by decide)⟩

end Section

/-! ## A new creation -/

/-- **A creation restores the section.** A process left any bytes behind, among them those
of a session that never ends. After a creation that succeeds, the calls of its producer
return what is expected of them on a ring of two slots or more. -/
theorem recreated (hB : B.Faithful) {w w₁ : World Ω} {name : String} {h : HdrUserInfo}
    (hf : FitsHdr h) (hN : 2 ≤ hdrNbSamples h) {mdata : List UInt8}
    (hmd : (mdata.take h.blobMetadataHdrSize.toNat).length = h.blobMetadataHdrSize.toNat)
    {env : Option String} {p : ShdCtx}
    (hex : exec (machine B) t (create name h mdata env) w = (some p, w₁)) {cs : List ProdCall}
    (hcs : ∀ c ∈ cs, c.InBounds (descOf h)) :
    (exec (machine B) t (prodCalls cs p) w₁).1.1 = expectedRets false cs := by
  obtain ⟨hpub, hdesc, hmap, hsync, -⟩ := create_spec hB hf hmd hex
  have hctx : CtxFor (descOf h) p := ⟨hdesc, by rw [hmap, getMmap_eq hf]⟩
  have hrets := ((sole_init t hpub.cleared hctx hsync).rets_iff (B := B) (soundDesc_of_fits hf)
    hcs).mpr (Or.inl hN)
  have hplain := ghost_exec (machine B) (track (descOf h)) t (prodCalls cs p) (w₁, History.init)
  rw [← hrets]
  exact (congrArg (fun r => r.1.1) hplain).symm

/-- What producer 0 left behind when it stopped. -/
def abandoned : World Shm :=
  (twoWriters.run (tracked shm ⟨56, 4, 2⟩) (List.replicate 5 0 ++ List.replicate 22 1)).st.1

theorem recreated_abandoned :
    (exec (machine shm) 1 (prodCalls [.writeNewBlob [1, 2, 3, 4] 4 ⟨⟨2, 0⟩, ⟨2, 0⟩⟩, .commitSample]
      ((exec (machine shm) 1 (create "section" ⟨4, 2, 1, 0⟩ [] none) abandoned).1.getD default))
      (exec (machine shm) 1 (create "section" ⟨4, 2, 1, 0⟩ [] none) abandoned).2).1.1
        = [0, -EPERM] := by
  have hf : FitsHdr ⟨4, 2, 1, 0⟩ := ⟨⟨by decide, by decide⟩, by decide⟩
  have hsome : (exec (machine shm) 1 (create "section" ⟨4, 2, 1, 0⟩ [] none) abandoned).1.isSome := by
    decide +kernel
  obtain ⟨p, hp⟩ := Option.isSome_iff_exists.mp hsome
  rw [hp]
  exact recreated shm_faithful hf (by decide) rfl (Prod.ext hp rfl) (by decide)

end Shdata.Progress
