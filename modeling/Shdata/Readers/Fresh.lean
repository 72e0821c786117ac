/-
Shdata.Readers.Fresh — what any number of consumers are told about the history of
a section.

One producer makes its calls while any number of consumers make sessions, one
operation at a time in any order. In a run whose snapshots find the samples of
their window in place, every session that ends with 0 delivered consecutive
commits, byte for byte, that were retained when it began; a search for the
latest sample delivered one that is at least as new as the last commit before
the session (`reads_fresh`). So what is read never goes back, neither from one
session of a consumer to its next one nor between consumers (`reads_never_back`).
-/
import Shdata.Progress.Reading
import Shdata.Readers.Turns

namespace Shdata.Readers

open Shdata.Conc Shdata.Core Shdata.Ring Shdata.Layout Shdata.Trace Shdata.Producer Shdata.Consumer
  Shdata.Solo

variable {Ω : Type} {B : Backend Ω} {d : DataSectionDesc} {t : Nat} {s s' : World Ω × History}

/-! ## A producer and any number of consumers -/

/-- What a thread returns: the codes of a producer's calls, or what a consumer was told. -/
abbrev Outcome := List Int ⊕ List (Option Answer)

/-- Thread 0 makes the calls of a producer on a section that was just created, thread
`v + 1` the sessions of consumer `v`. -/
def producerConsumers (w : World Ω) (p : ShdCtx) (calls : List ProdCall) (F : Futils)
    (ctxs : Nat → ShdCtx) (rs : Nat → List ReadSession) :
    Config Op.Resp Nat (World Ω × History) Outcome where
  st := (w, History.init)
  pool := fun
    | 0 => prodCalls calls p >>= fun x => pure (.inl x.1)
    | v + 1 => sessions F (rs v) (ctxs v) >>= fun x => pure (.inr x.1)

/-- What they rely on. -/
def CrowdRely (d : DataSectionDesc) : Nat → World Ω × History → World Ω × History → Prop
  | 0 => ProdRely d (· = 0) 0
  | _ + 1 => Onward d

/-- What they guarantee. -/
def CrowdGuar (d : DataSectionDesc) : Nat → Op → World Ω × History → World Ω × History → Prop
  | 0 => ProdGuar d (· = 0) 0
  | _ + 1 => ConsGuar

theorem crowdRely_refl (d : DataSectionDesc) (t : Nat) (s : World Ω × History) :
    CrowdRely d t s s := by
  match t with
  | 0 => exact prodRely_refl d _ 0 s
  | _ + 1 => exact onward_refl d s

theorem crowdRely_trans {a b e : World Ω × History} (h : CrowdRely d t a b)
    (h' : CrowdRely d t b e) : CrowdRely d t a e := by
  match t with
  | 0 => exact prodRely_trans h h'
  | _ + 1 => exact onward_trans h h'

/-- A step of one is no interference to the others. -/
theorem crowdGuar_rely {u : Nat} (hne : t ≠ u) {o : Op} (h : CrowdGuar d t o s s') :
    CrowdRely d u s s' := by
  match t, u with
  | 0, 0 => exact absurd rfl hne
  | 0, _ + 1 => exact onward_of_prodGuar h
  | _ + 1, 0 => exact ConsGuar.prodRely h 0
  | _ + 1, _ + 1 => exact onward_of_consGuar h

theorem crowdGuar_onward {o : Op} (h : CrowdGuar d t o s s') : Onward d s s' := by
  match t with
  | 0 => exact onward_of_prodGuar h
  | _ + 1 => exact onward_of_consGuar h

/-- Every thread is specified, under any condition on the run. -/
theorem crowd_safe (B : Backend Ω) (C : Nat → Op → World Ω × History → Prop) (hd : SoundDesc d)
    {w : World Ω} (hw : Cleared d w.mem) {p : ShdCtx} (hp : Fresh d p) {calls : List ProdCall}
    (hcalls : ∀ c ∈ calls, c.InBounds d) (F : Futils) {ctxs : Nat → ShdCtx}
    (hctxs : ∀ v, CtxFor d (ctxs v)) (rs : Nat → List ReadSession) :
    Pool.Safe (tracked B d) C (CrowdRely d) (CrowdGuar d) (fun _ _ _ => True)
      (producerConsumers w p calls F ctxs rs) where
  trans := fun _ _ _ _ => crowdRely_trans
  compat := fun _ _ hne _ _ _ => crowdGuar_rely hne
  threads
    | 0 => by
      have hset : Setting d (· = 0) C 0
          (ProdRely d (· = 0) 0 : World Ω × History → World Ω × History → Prop) :=
        ⟨hd, rfl, fun _ _ hi _ u hu hwr => absurd (hi.allowed u hwr) hu, fun _ _ h => h,
          prodRely_refl d _ 0⟩
      exact wp_bind (prodRely_refl d _ 0) (wp_mono
        (wp_prodCalls hset calls hcalls (own_init (· = 0) 0 hw hp)) fun _ _ _ =>
          wp_ret fun _ _ => trivial)
    | v + 1 => by
      have hsize : RingSize (ctxs v).desc.nbSamples := (hctxs v).desc ▸ hd.size
      have hreads := (Progress.sessions_within (F := F) hsize (rs v)).ensures
      exact wp_bind (onward_refl d) (wp_mono (wp_invariant (I := fun _ => True)
        (fun _ _ _ _ => trivial) (fun o u ho _ _ => ⟨step_consGuar ho _ u, trivial, trivial⟩)
        hreads trivial) fun _ _ _ => wp_ret fun _ _ => trivial)

/-- From the moment at which consumer `v` starts, its sessions are in turn. -/
theorem crowd_starts (hd : SoundDesc d) {F : Futils} {ctx : ShdCtx} (hctx : CtxFor d ctx)
    {rs : List ReadSession} (hrs : ∀ r ∈ rs, Asks d r)
    {c : Config Op.Resp Nat (World Ω × History) Outcome}
    (h : Pool.Safe (tracked B d) (IntactSnapshots d) (CrowdRely d) (CrowdGuar d)
      (fun _ _ _ => True) c) (hinv : RingInv d (· = 0) c.st) {v : Nat}
    (hv : c.pool (v + 1) = sessions F rs ctx >>= fun x => pure (.inr x.1)) :
    Pool.Safe (tracked B d) (IntactSnapshots d) (CrowdRely d) (CrowdGuar d)
      (fun t x s => t = v + 1 → ∀ as, x = .inr as →
        InTurn d s.2.commits c.st.2.commits.length rs as) c where
  trans := h.trans
  compat := h.compat
  threads t := by
    by_cases ht : t = v + 1
    · subst ht
      rw [hv]
      refine wp_bind (onward_refl d) (wp_mono (wp_frame (I := fun s => RingInv d (· = 0) s)
        (fun _ _ hi hR => (hR hi).1) (fun o _ _ hi hg => (onward_of_consGuar hg hi).1)
        (wp_sessions hd (fun _ _ h => h) rs hrs hctx hinv (le_refl _)) hinv) ?_)
      rintro x s ⟨hturn, hs⟩
      refine wp_ret fun s' hR _ as has => ?_
      obtain rfl := Sum.inr.inj has
      exact hturn.longer (hR hs).2.2
    · exact wp_mono (h.threads t) fun _ _ _ he => absurd he ht

/-- What consumer `v` was told, once its sessions are over. -/
def delivered (c : Config Op.Resp Nat (World Ω × History) Outcome) (v : Nat) :
    Option (List (Option Answer)) :=
  match c.pool (v + 1) with
  | .ret (.inr as) => some as
  | _ => none

theorem pool_of_delivered {c : Config Op.Resp Nat (World Ω × History) Outcome} {v : Nat}
    {as : List (Option Answer)} (h : delivered c v = some as) :
    c.pool (v + 1) = .ret (.inr as) := by
  unfold delivered at h
  split at h
  · rename_i bs hpool
    rw [hpool, Option.some.inj h]
  · exact absurd h (by simp)

/-- **What consumers are told.** A producer makes any calls and any number of consumers
make sessions, one operation at a time in any order. Take a run whose snapshots find the
samples of their window in place, and a consumer that started after its first part.
Each session of that consumer that ended with 0 delivered consecutive commits, byte
for byte, among the last ones when the session began; a search for the latest sample
delivered one as new as the last commit at that moment. The first session
began with the commits of the first part of the run, and each other one with at least
what the session before it delivered. -/
theorem reads_fresh (B : Backend Ω) (hd : SoundDesc d) {w : World Ω} (hw : Cleared d w.mem)
    {p : ShdCtx} (hp : Fresh d p) {calls : List ProdCall} (hcalls : ∀ c ∈ calls, c.InBounds d)
    (F : Futils) {ctxs : Nat → ShdCtx} (hctxs : ∀ v, CtxFor d (ctxs v))
    {rs : Nat → List ReadSession} (hrs : ∀ v, ∀ r ∈ rs v, Asks d r) (ts ts' : List Nat)
    (hok : (producerConsumers w p calls F ctxs rs).Meets (tracked B d) (IntactSnapshots d)
      (ts ++ ts'))
    {v : Nat} (hv : v + 1 ∉ ts) {as : List (Option Answer)}
    (has : delivered ((producerConsumers w p calls F ctxs rs).run (tracked B d) (ts ++ ts')) v
      = some as) :
    InTurn d
      ((producerConsumers w p calls F ctxs rs).run (tracked B d) (ts ++ ts')).st.2.commits
      ((producerConsumers w p calls F ctxs rs).run (tracked B d) ts).st.2.commits.length
      (rs v) as := by
  obtain ⟨hok₁, hok₂⟩ := Config.meets_append.mp hok
  have hsafe := crowd_safe B (IntactSnapshots d) hd hw hp hcalls F hctxs rs
  have hinv := hsafe.inv (crowdRely_refl d) (fun t o a b hg hi => (crowdGuar_onward hg hi).1)
    (ringInv_init _ hw) ts hok₁
  have hstart := crowd_starts hd (hctxs v) (hrs v) (hsafe.run (crowdRely_refl d) ts hok₁) hinv
    (Config.pool_of_notMem _ hv)
  rw [Config.run_append] at has ⊢
  exact (hstart.run (crowdRely_refl d) ts' hok₂).post (crowdRely_refl d) (pool_of_delivered has)
    rfl as rfl

instance decidableIntact (d : DataSectionDesc) (win : Window) (h : History) :
    Decidable (∃ j, IntactAt d win h j) :=
  have (j : Nat) : Decidable (IntactAt d win h j) := by
    unfold IntactAt
    infer_instance
  decidable_of_iff (∃ j < (h.commits.length + 1 - win.nbMatches : Int).toNat, IntactAt d win h j)
    ⟨fun ⟨j, _, hj⟩ => ⟨j, hj⟩, fun ⟨j, hj⟩ => ⟨j, by have := hj.2.1; omega, hj⟩⟩

instance (d : DataSectionDesc) (t : Nat) (o : Op) (s : World Ω × History) :
    Decidable (IntactSnapshots d t o s) :=
  decidable_of_iff ((∀ win ∈ snapshotOf o, ∃ j, IntactAt d win s.2 j) ∧
      (endsReading o = true → (s.2.reserved.length : Int) ≤ 4294967296 * d.nbSamples))
    ⟨fun h => ⟨h.1, h.2⟩, fun h => ⟨h.intact, h.few⟩⟩

/-- The last two samples and their blobs. -/
def lastTwo : ReadSession := ⟨.select ⟨⟨0, 0⟩, .latest, 1, 0⟩, [(none, 8)], 2⟩

/-- Two slots. The producer writes three blobs and each consumer reads the last two. -/
def threeBlobsCrowd : Config Op.Resp Nat (World Shm × History) Outcome :=
  producerConsumers (created 2).2 ((created 2).1.getD default)
    [.writeNewBlob [1, 2, 3, 4] 4 ⟨⟨1, 0⟩, ⟨1, 0⟩⟩, .writeNewBlob [5, 6, 7, 8] 4 ⟨⟨2, 0⟩, ⟨2, 0⟩⟩,
      .writeNewBlob [9, 10, 11, 12] 4 ⟨⟨3, 0⟩, ⟨3, 0⟩⟩]
    libfutils (fun _ => (created 2).1.getD default) fun _ => [lastTwo]

/-- Consumer `v` makes its session after two blobs, and the third write starts while it
is open. -/
def whileWriting (v : Nat) : List Nat :=
  List.replicate 10 (v + 1) ++ List.replicate 3 0 ++ List.replicate 13 (v + 1)

/-- The only session of a consumer. -/
theorem only_of_map {as : List (Option Answer)} {ret : Int}
    (h : (as.map fun a => a.map Answer.ret) = [some ret]) : ∃ a, as = [some a] ∧ a.ret = ret := by
  obtain ⟨a, rfl, ha⟩ := List.map_eq_singleton_iff.mp h
  obtain ⟨x, rfl, hx⟩ := Option.map_eq_some_iff.mp ha
  exact ⟨x, rfl, hx⟩

theorem lastTwo_asks : Asks ⟨56, 4, 2⟩ lastTwo where
  count := by decide
  reads q hq quantity h := by
    obtain rfl : q = (none, 8) := by simpa [lastTwo] using hq
    exact absurd h (by simp)
  quantities q hq := absurd hq List.not_mem_nil

theorem threeBlobs_inBounds : ∀ c ∈ ([.writeNewBlob [1, 2, 3, 4] 4 ⟨⟨1, 0⟩, ⟨1, 0⟩⟩,
    .writeNewBlob [5, 6, 7, 8] 4 ⟨⟨2, 0⟩, ⟨2, 0⟩⟩,
    .writeNewBlob [9, 10, 11, 12] 4 ⟨⟨3, 0⟩, ⟨3, 0⟩⟩] : List ProdCall), c.InBounds ⟨56, 4, 2⟩ := by
  decide

/-- The session ends with 0. -/
theorem reads_fresh_threeBlobs : ∃ a, a.ret = 0 ∧
    InTurn ⟨56, 4, 2⟩
      (threeBlobsCrowd.run (tracked shm ⟨56, 4, 2⟩)
        (List.replicate 22 0 ++ whileWriting 0)).st.2.commits
      (threeBlobsCrowd.run (tracked shm ⟨56, 4, 2⟩) (List.replicate 22 0)).st.2.commits.length
      [lastTwo] [some a] := by
  have hf : FitsHdr ⟨4, 2, 1, 0⟩ := ⟨⟨by decide, by decide⟩, by decide⟩
  obtain ⟨hw, hp⟩ := created_fresh hf (by decide +kernel)
  have hret : (delivered (threeBlobsCrowd.run (tracked shm ⟨56, 4, 2⟩)
      (List.replicate 22 0 ++ whileWriting 0)) 0).map (·.map fun a => a.map Answer.ret)
      = some [some 0] := by decide +kernel
  obtain ⟨as, has, hmap⟩ := Option.map_eq_some_iff.mp hret
  obtain ⟨a, rfl, ha⟩ := only_of_map hmap
  exact ⟨a, ha, reads_fresh shm (soundDesc_of_fits hf) hw hp threeBlobs_inBounds libfutils
    (fun _ => hp.ctxFor) (fun _ r hr => List.mem_singleton.mp hr ▸ lastTwo_asks) _ _
    (by decide +kernel) (by decide +kernel) has⟩

/-- **Reads never go back.** In such a run a consumer `u` is done before a consumer `v` starts.
Whatever a session of `u` delivered, a search of `v` for the latest sample delivers one
that is at least as new. -/
theorem reads_never_back (B : Backend Ω) (hd : SoundDesc d) {w : World Ω} (hw : Cleared d w.mem)
    {p : ShdCtx} (hp : Fresh d p) {calls : List ProdCall} (hcalls : ∀ c ∈ calls, c.InBounds d)
    (F : Futils) {ctxs : Nat → ShdCtx} (hctxs : ∀ v, CtxFor d (ctxs v))
    {rs : Nat → List ReadSession} (hrs : ∀ v, ∀ r ∈ rs v, Asks d r) (ts ts' : List Nat)
    (hok : (producerConsumers w p calls F ctxs rs).Meets (tracked B d) (IntactSnapshots d)
      (ts ++ ts'))
    {u v : Nat} (hv : v + 1 ∉ ts) {as bs : List (Option Answer)}
    (has : delivered ((producerConsumers w p calls F ctxs rs).run (tracked B d) ts) u = some as)
    (hbs : delivered ((producerConsumers w p calls F ctxs rs).run (tracked B d) (ts ++ ts')) v
      = some bs)
    {i k : Nat} {r r' : ReadSession} {a b : Answer} (hr : (rs u)[i]? = some r)
    (ha : as[i]? = some (some a)) (haret : a.ret = 0) (hr' : (rs v)[k]? = some r')
    (hb : bs[k]? = some (some b)) (hbret : b.ret = 0)
    (hlatest : (searchOf r'.selecting).method = .latest) :
    ∃ j j', Delivers d
        ((producerConsumers w p calls F ctxs rs).run (tracked B d) ts).st.2.commits r a j ∧
      Delivers d ((producerConsumers w p calls F ctxs rs).run (tracked B d) (ts ++ ts')).st.2.commits
        r' b j' ∧
      j + a.nb ≤ j' + b.ref + 1 := by
  have hu : delivered ((producerConsumers w p calls F ctxs rs).run (tracked B d) ([] ++ ts)) u
      = some as := has
  have hfirst := reads_fresh B hd hw hp hcalls F hctxs hrs [] ts (Config.meets_append.mp hok).1
    List.not_mem_nil hu
  have hthen := reads_fresh B hd hw hp hcalls F hctxs hrs ts ts' hok hv hbs
  obtain ⟨_, j, _, hj⟩ := hfirst.session hr ha haret
  obtain ⟨n, j', hn, hj'⟩ := hthen.session hr' hb hbret
  refine ⟨j, j', hj.toDelivers, hj'.toDelivers, ?_⟩
  exact (hj.committed.trans hn).trans (hj'.latest hlatest)

/-- The second consumer starts when the first is done. -/
theorem reads_never_back_threeBlobs : ∃ a b j j',
    Delivers ⟨56, 4, 2⟩ (threeBlobsCrowd.run (tracked shm ⟨56, 4, 2⟩)
      (List.replicate 22 0 ++ List.replicate 23 1)).st.2.commits lastTwo a j ∧
    Delivers ⟨56, 4, 2⟩ (threeBlobsCrowd.run (tracked shm ⟨56, 4, 2⟩)
      (List.replicate 22 0 ++ List.replicate 23 1 ++ whileWriting 1)).st.2.commits lastTwo b j' ∧
    j + a.nb ≤ j' + b.ref + 1 := by
  have hf : FitsHdr ⟨4, 2, 1, 0⟩ := ⟨⟨by decide, by decide⟩, by decide⟩
  obtain ⟨hw, hp⟩ := created_fresh hf (by decide +kernel)
  have hfirst : (delivered (threeBlobsCrowd.run (tracked shm ⟨56, 4, 2⟩)
      (List.replicate 22 0 ++ List.replicate 23 1)) 0).map (·.map fun a => a.map Answer.ret)
      = some [some 0] := by decide +kernel
  have hthen : (delivered (threeBlobsCrowd.run (tracked shm ⟨56, 4, 2⟩)
      (List.replicate 22 0 ++ List.replicate 23 1 ++ whileWriting 1)) 1).map
      (·.map fun a => a.map Answer.ret) = some [some 0] := by decide +kernel
  obtain ⟨as, has, hret⟩ := Option.map_eq_some_iff.mp hfirst
  obtain ⟨bs, hbs, hret'⟩ := Option.map_eq_some_iff.mp hthen
  obtain ⟨a, rfl, ha⟩ : ∃ a, as = [some a] ∧ a.ret = 0 := only_of_map hret
  obtain ⟨b, rfl, hb⟩ : ∃ b, bs = [some b] ∧ b.ret = 0 := only_of_map hret'
  exact ⟨a, b, reads_never_back shm (soundDesc_of_fits hf) hw hp threeBlobs_inBounds libfutils
    (fun _ => hp.ctxFor) (fun _ r hr => List.mem_singleton.mp hr ▸ lastTwo_asks) _ _
    (by decide +kernel) (by decide +kernel) has hbs (i := 0) (k := 0) rfl rfl ha rfl rfl hb rfl⟩

end Shdata.Readers
