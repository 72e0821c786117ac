/-
Shdata.Producer.OneWriter — at most one writer per section.

Any number of producers make their calls on one creation of a section, one
operation at a time, in any order. The counter of ongoing writes is raised
by every attempt to start a session and cleared by a plain store at the end
of one. It is `1 + refused` during a session and `0` outside, so as long as
it does not go round an attempt made during a session is refused.

`pool_safe` is the parallel composition of the producers' specifications;
`one_writer` reads off what holds in every state and at every step.
-/
import Shdata.Solo.Create

namespace Shdata.Producer

open Shdata.Conc Shdata.Bytes Shdata.Core Shdata.Ring Shdata.Layout Shdata.Trace Shdata.Solo

variable {Ω : Type}

/-! ## Refused attempts -/

/-- During a session, fewer than 2^32 - 1 attempts to start another one. -/
def FewRefusals (_ : Nat) (o : Op) (s : World Ω × History) : Prop :=
  match o with
  | .addAndFetch .startWriteSession _ _ =>
    (∃ u, s.2.writing u = true) → s.2.refused + 1 < 4294967295
  | _ => True

/-- With few refusals an attempt made during a session is refused. -/
theorem refused_of_few {d : DataSectionDesc} {A : Nat → Prop} {s : World Ω × History}
    (h : RingInv d A s) {u : Nat} (hu : s.2.writing u = true)
    (hfew : s.2.refused + 1 < 4294967295) : toI32 (nbOngoing s.1.mem + 1) ≠ 1 := by
  rw [h.held u hu, toI32_add_toI32]
  intro he
  have h1 : toI32 (1 + s.2.refused + 1) = toI32 1 := by
    rw [he, toI32_of_isI32 ⟨by omega, by omega⟩]
  rw [toI32_eq_iff] at h1
  omega

theorem few_setting {d : DataSectionDesc} (hd : SoundDesc d) (t : Nat) :
    Setting d (fun _ => True) (FewRefusals : _ → _ → World Ω × History → Prop) t
      (ProdRely d (fun _ => True) t) where
  sound := hd
  allowed := trivial
  attempt := fun _ _ hi hc u _ hw => refused_of_few hi hw (hc ⟨u, hw⟩)
  rely := fun _ _ h => h
  refl := prodRely_refl d _ t

/-- The number of refusals is at most the number of steps, so no run of fewer
than 2^32 - 2 steps has too many. -/
theorem fewRefusals_of_short {α : Type} (B : Backend Ω) (d : DataSectionDesc) (ts : List Nat)
    (c : Config Op.Resp Nat (World Ω × History) α)
    (h : c.st.2.refused + ts.length < 4294967295) :
    c.Meets (tracked B d) FewRefusals ts := by
  induction ts generalizing c with
  | nil => trivial
  | cons t ts ih =>
    rw [List.length_cons] at h
    have hstep : ∀ (o : Op) (s : World Ω × History),
        ((tracked B d).step t o s).1.2.refused ≤ s.2.refused + 1 := by
      intro o s
      show (track d t o s.1 _ s.2).refused ≤ _
      unfold track
      repeat' split
      all_goals simp
    refine ⟨?_, ih _ ?_⟩
    · unfold Config.Next FewRefusals
      repeat' split
      all_goals first | trivial | exact fun _ => by omega
    · cases hp : c.pool t with
      | ret a => rw [Config.tick_ret hp]; omega
      | op o k =>
        rw [Config.tick_op hp]
        have := hstep o c.st
        dsimp only
        omega

/-! ## All producers together -/

/-- Every thread makes its calls on its own context, from a section that was
just created. -/
def producers (w : World Ω) (ctxs : Nat → ShdCtx) (calls : Nat → List ProdCall) :
    Config Op.Resp Nat (World Ω × History) (List Int × ShdCtx) where
  st := (w, History.init)
  pool := fun t => prodCalls (calls t) (ctxs t)

/-- A finished producer made as many commits as its calls report. -/
def Reported (d : DataSectionDesc) (calls : Nat → List ProdCall) (t : Nat)
    (r : List Int × ShdCtx) (s : World Ω × History) : Prop :=
  Own d (fun _ => True) t (committed (calls t) r.1) r.2 s

/-- The producers of a section, composed in parallel. -/
theorem pool_safe (B : Backend Ω) {d : DataSectionDesc} (hd : SoundDesc d) {w : World Ω}
    (hw : Cleared d w.mem) {ctxs : Nat → ShdCtx} (hctx : ∀ t, Fresh d (ctxs t))
    {calls : Nat → List ProdCall} (hcalls : ∀ t, ∀ c ∈ calls t, c.InBounds d) :
    Pool.Safe (tracked B d) FewRefusals (ProdRely d fun _ => True) (ProdGuar d fun _ => True)
      (Reported d calls) (producers w ctxs calls) where
  trans := fun _ _ _ _ h h' => prodRely_trans h h'
  compat := fun _ _ hne _ _ _ h => prodGuar_rely hne h
  threads := by
    intro t
    have hown := own_init (fun _ => True) t hw (hctx t)
    refine wp_mono (wp_prodCalls (few_setting hd t) (calls t) (hcalls t) hown) ?_
    intro r s' h
    rwa [Nat.zero_add] at h

/-- A state that producers of one creation reach, in any number and any order. -/
def Reached (B : Backend Ω) (d : DataSectionDesc) (s : World Ω × History) : Prop :=
  ∃ w ctxs calls ts, Cleared d w.mem ∧ (∀ t, Fresh d (ctxs t)) ∧
    (∀ t, ∀ c ∈ calls t, c.InBounds d) ∧
    (producers w ctxs calls).Meets (tracked B d) FewRefusals ts ∧
    ((producers w ctxs calls).run (tracked B d) ts).st = s

theorem Reached.inv {B : Backend Ω} {d : DataSectionDesc} {s : World Ω × History}
    (hd : SoundDesc d) (h : Reached B d s) : RingInv d (fun _ => True) s := by
  obtain ⟨w, ctxs, calls, ts, hw, hctx, hcalls, hfew, rfl⟩ := h
  exact (pool_safe B hd hw hctx hcalls).inv (fun t s => prodRely_refl d _ t s)
    (fun _ _ _ _ hg hi => (hg hi).inv) (ringInv_init _ hw) ts hfew

/-- A step of a producer that is in its session where it has to be, and moves the
index by one slot exactly when it commits. -/
def WriterStep (B : Backend Ω) (d : DataSectionDesc) (t : Nat) (o : Op)
    (s : World Ω × History) : Prop :=
  (IsDataWrite o → s.2.writing t = true) ∧
  (IsIndexStore o → s.2.writing t = true ∧
    writeIndex ((tracked B d).step t o s).1.1.mem = (writeIndex s.1.mem + 1) % d.nbSamples) ∧
  (¬ IsIndexStore o → writeIndex ((tracked B d).step t o s).1.1.mem = writeIndex s.1.mem)

theorem index_next {d : DataSectionDesc} (hd : SoundDesc d) {A : Nat → Prop}
    {s : World Ω × History} (h : RingInv d A s) :
    indexNext (writeIndex s.1.mem) d.nbSamples = (writeIndex s.1.mem + 1) % d.nbSamples := by
  have hpos := hd.size.pos
  by_cases hk : s.2.commits = []
  · have hi : writeIndex s.1.mem = -1 := by simpa [hk] using h.ring.index
    rw [hi]
    exact indexNext_eq hd.size (by omega) (by omega)
  · have hs := h.ring.isSlot_index hd hk
    exact indexNext_eq hd.size (by have := hs.nonneg; omega) hs.lt

/-- **At most one writer per section.** In every state of every run at most one
producer is between a successful start of a session and its end; at every
step slot data is written by that producer only, and the write index moves
by one slot modulo the size at a commit and at no other step; and a producer
that finished made exactly the commits that returned 0. -/
theorem one_writer (B : Backend Ω) {d : DataSectionDesc} (hd : SoundDesc d) {w : World Ω}
    (hw : Cleared d w.mem) {ctxs : Nat → ShdCtx} (hctx : ∀ t, Fresh d (ctxs t))
    {calls : Nat → List ProdCall} (hcalls : ∀ t, ∀ c ∈ calls t, c.InBounds d) (ts : List Nat)
    (hfew : (producers w ctxs calls).Meets (tracked B d) FewRefusals ts) :
    (∀ t u, ((producers w ctxs calls).run (tracked B d) ts).st.2.writing t = true →
      ((producers w ctxs calls).run (tracked B d) ts).st.2.writing u = true → t = u) ∧
    (producers w ctxs calls).Meets (tracked B d) (WriterStep B d) ts ∧
    (∀ t r, ((producers w ctxs calls).run (tracked B d) ts).pool t = .ret r →
      commitsBy t ((producers w ctxs calls).run (tracked B d) ts).st.2.commits
        = committed (calls t) r.1) ∧
    RingMem d ((producers w ctxs calls).run (tracked B d) ts).st.2.reserved.length
      ((producers w ctxs calls).run (tracked B d) ts).st.2.commits
      ((producers w ctxs calls).run (tracked B d) ts).st.1.mem := by
  have hsafe := pool_safe B hd hw hctx hcalls
  have hrefl := fun t (s : World Ω × History) => prodRely_refl d (fun _ => True) t s
  have hkeep : ∀ t o (a b : World Ω × History), ProdGuar d (fun _ => True) t o a b →
      RingInv d (fun _ => True) a → RingInv d (fun _ => True) b := fun _ _ _ _ hg hi => (hg hi).inv
  have hinit : RingInv d (fun _ => True) (producers w ctxs calls).st := ringInv_init _ hw
  have hinv := hsafe.inv hrefl hkeep hinit ts hfew
  refine ⟨hinv.excl, ?_, fun t r hr => ((hsafe.run hrefl ts hfew).post hrefl hr).count, hinv.ring⟩
  refine hsafe.meets hrefl hkeep ?_ hinit ts hfew
  intro t o a hi hg
  have hm := hg hi
  refine ⟨hm.data, fun ho => ?_, fun ho => (hm.noStore ho).1⟩
  obtain ⟨hwr, hidx, -⟩ := hm.store ho
  exact ⟨hwr, hidx.trans (index_next hd hi)⟩

/-- Producers 0 and 1 write blobs, one step of each in turn. -/
def twoProducers : Config Op.Resp Nat (World Shm × History) (List Int × ShdCtx) :=
  producers (created 2).2 (fun _ => (created 2).1.getD default) fun t =>
    if t < 2 then [.writeNewBlob [1, 2, 3, 4] 4 ⟨⟨0, 0⟩, ⟨0, 0⟩⟩, .newSample ⟨⟨1, 0⟩, ⟨1, 0⟩⟩] else []

theorem one_writer_twoProducers :
    twoProducers.Meets (tracked shm ⟨56, 4, 2⟩) (WriterStep shm ⟨56, 4, 2⟩)
      [0, 1, 0, 1, 0, 1, 0, 0, 0, 0, 0, 0, 0, 1, 1, 1, 1, 1, 1] := by
  have hf : FitsHdr ⟨4, 2, 1, 0⟩ := ⟨⟨by decide, by decide⟩, by decide⟩
  obtain ⟨hw, hctx⟩ := created_fresh hf (by decide +kernel)
  refine (one_writer shm (soundDesc_of_fits hf) hw (fun _ => hctx) (fun t c hc => ?_) _
    (fewRefusals_of_short _ _ _ _ (by decide))).2.1
  by_cases ht : t < 2
  · rw [if_pos ht] at hc
    obtain rfl | rfl : c = _ ∨ c = _ := by simpa using hc
    · exact show (4 : Int) ≤ 4 by decide
    · trivial
  · rw [if_neg ht] at hc
    exact absurd hc (by simp)

/-- Producer 0 starts a sample in slot 0, whose blob is at 96, and writes a quantity at
offset -48 of it. Producer 1 starts a sample. -/
def strayWriter : Config Op.Resp Nat (World Shm × History) (List Int × ShdCtx) :=
  producers (created 2).2 (fun _ => (created 2).1.getD default) fun t =>
    if t = 0 then [.newSample ⟨⟨0, 0⟩, ⟨0, 0⟩⟩, .writeQuantity ⟨-48, 4⟩ [0, 0, 0, 0]]
    else if t = 1 then [.newSample ⟨⟨1, 0⟩, ⟨1, 0⟩⟩] else []

/-- The write clears the counter of ongoing writes, and both are in a session. -/
theorem strayWriter_both :
    strayWriter.Meets (tracked shm ⟨56, 4, 2⟩) FewRefusals (List.replicate 9 0 ++ [1]) ∧
      ¬ ∀ t u, (strayWriter.run (tracked shm ⟨56, 4, 2⟩)
          (List.replicate 9 0 ++ [1])).st.2.writing t = true →
        (strayWriter.run (tracked shm ⟨56, 4, 2⟩)
          (List.replicate 9 0 ++ [1])).st.2.writing u = true → t = u := by
  refine ⟨fewRefusals_of_short _ _ _ _ (by decide), fun h => ?_⟩
  exact absurd (h 0 1 (by decide +kernel) (by decide +kernel)) (by decide)

end Shdata.Producer
