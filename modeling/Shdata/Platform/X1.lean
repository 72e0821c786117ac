/-
Shdata.Platform.X1 — the addition of `shd_lookup_x1.c` is not atomic.

On that platform the sections shared with the coprocessor use
`bpmp_add_and_fetch`, which reads the counter, writes the sum and reads the
counter again. Another process can run in between. The rest of this
development takes the addition as one step.

`x1_run` says when that is justified: if only one thread writes the section,
whatever it does, every run over the three-step addition is a run over the atomic
one, with the same bytes and the same return values. Consumers write nothing,
so a producer and any number of consumers are such threads
(`x1_producer_consumers`).
-/
import Shdata.Conc.Implement
import Shdata.Progress.Calls
import Shdata.Readers.Fresh

namespace Shdata.Platform

open Shdata.Conc Shdata.Bytes Shdata.Core Shdata.Layout Shdata.Trace Shdata.Producer Shdata.Consumer
  Shdata.Solo Shdata.Readers

variable {Ω : Type} {B : Backend Ω} {α : Type}

/-! ## The primitive -/

/-- `bpmp_add_and_fetch`. -/
def bpmpAddAndFetch (site : Site) (a v : Int) : ShdProg Int := do
  let n ← load32 site a
  store32 site a (n + v)
  load32 site a

/-- The library over `bpmp_sync_primitives`. -/
def bpmpPrimitives : (o : Op) → ShdProg o.Resp
  | .addAndFetch site a v => bpmpAddAndFetch site a v
  | o => perform o

/-! ## One writer -/

/-- What thread `t` relies on: the writer on the bytes of the section, the others on
nothing. -/
def BytesKept (writer : Nat) (t : Nat) (w w' : World Ω) : Prop := t = writer → w'.mem = w.mem

/-- What thread `t` guarantees. -/
def WritesAlone (writer : Nat) (t : Nat) (_ : Op) (w w' : World Ω) : Prop :=
  t ≠ writer → w'.mem = w.mem

/-- The operations of thread `t`. -/
def WriterOrReader (writer : Nat) (t : Nat) (o : Op) : Prop := t ≠ writer → KeepsMem o

section Implements

variable {writer t : Nat} {C : Nat → Op → World Ω → Prop}

/-- An operation other than the addition is one step. -/
theorem performs_perform (hB : B.Faithful) {o : Op} (ho : WriterOrReader writer t o)
    (s : World Ω) :
    Performs (machine B) (machine B) C Eq (BytesKept writer t) (WritesAlone writer t) t o
      (perform o) s :=
  performs_step (fun u _ ht => step_keepsMem hB (ho ht) u)
    fun _ _ _ ha => ha ▸ ⟨rfl, rfl⟩

/-- The addition of the only writer. -/
theorem performs_bpmpAddAndFetch (site : Site) (a v : Int) (s : World Ω) :
    Performs (machine B) (machine B) C Eq (BytesKept writer writer) (WritesAlone writer writer)
      writer (.addAndFetch site a v) (bpmpAddAndFetch site a v) s := by
  -- the first load
  intro u _ _
  refine ⟨fun h => absurd rfl h, Or.inl ⟨fun _ h => h, fun x hx _ => ?_⟩⟩
  have hload : x.mem.i32 a = u.mem.i32 a := congrArg (fun m : Mem => m.i32 a) (hx rfl)
  -- the store has the effect
  refine ⟨fun h => absurd rfl h, Or.inr ?_⟩
  rintro _ rfl
  refine ⟨?_, fun y hy _ => ⟨fun h => absurd rfl h, fun _ h => h, ?_⟩⟩
  · show ({ x with mem := x.mem.write a (encI32 (u.mem.i32 a + v)) } : World Ω)
      = { x with mem := x.mem.write a (encI32 (x.mem.i32 a + v)) }
    rw [hload]
  · have hmem : y.mem = x.mem.write a (encI32 (u.mem.i32 a + v)) := hy rfl
    show y.mem.i32 a = toI32 (x.mem.i32 a + v)
    rw [hmem, Mem.i32_write_same, hload]

/-- Only thread `writer` writes the section. -/
theorem bpmp_implements (hB : B.Faithful) (writer : Nat) :
    Implements (machine B) (machine B) C Eq (BytesKept writer) (WritesAlone writer)
      (WriterOrReader writer) bpmpPrimitives where
  refl := fun _ _ _ => rfl
  trans := fun _ _ _ _ h h' ht => (h' ht).trans (h ht)
  compat := fun t u hne o a b hg hu => hg fun ht => hne (ht.trans hu.symm)
  performs := by
    intro t o s ho
    cases o with
    | addAndFetch site a v =>
      by_cases ht : t = writer
      · subst ht
        exact performs_bpmpAddAndFetch site a v s
      · exact absurd (ho ht) id
    | _ => exact performs_perform hB ho s

end Implements

theorem keepsMem_of_reads {o : Op} (ho : Readers.Reads o) : KeepsMem o := by
  cases o with
  | read site a len => trivial
  | samplePtr desc i => trivial
  | calloc what => trivial
  | free what p => trivial
  | _ => exact absurd ho id

/-- **The addition need not be atomic for one writer.** Threads share a section, and all but
one of them only read it. Every run over `bpmp_add_and_fetch`, whose loads and stores
interleave with the other threads, ends in the state of a run over the atomic addition, in
which every thread that returned has returned the same. -/
theorem x1_run (hB : B.Faithful) {writer : Nat} {c : Config Op.Resp Nat (World Ω) α}
    (hc : ∀ t, t ≠ writer → (c.pool t).AllOps KeepsMem) (ts : List Nat) :
    ∃ us : List Nat, us.Sublist ts ∧
      ((c.implement bpmpPrimitives c.st).run (machine B) ts).st = (c.run (machine B) us).st ∧
      ∀ t a, ((c.implement bpmpPrimitives c.st).run (machine B) ts).pool t = .ret a →
        (c.run (machine B) us).pool t = .ret a := by
  refine implements_run (C := fun _ _ _ => True) (bpmp_implements hB writer) rfl (fun t => ?_) ts
    (Config.meets_true _ _ _)
  by_cases ht : t = writer
  · exact (c.pool t).ensures_true.mono (fun o _ hne => absurd ht hne) fun _ _ => trivial
  · exact (hc t ht).mono fun o ho _ => ho

/-- The addition of a producer that starts a sample, around a search of a consumer. -/
theorem x1_run_stalled : ∃ us : List Nat,
    us.Sublist ([0, 0] ++ List.replicate 29 1 ++ List.replicate 7 0) ∧
    ((Progress.stalled.implement bpmpPrimitives Progress.stalled.st).run (machine shm)
      ([0, 0] ++ List.replicate 29 1 ++ List.replicate 7 0)).st
        = (Progress.stalled.run (machine shm) us).st ∧
    ∀ t a, ((Progress.stalled.implement bpmpPrimitives Progress.stalled.st).run (machine shm)
        ([0, 0] ++ List.replicate 29 1 ++ List.replicate 7 0)).pool t = .ret a →
      (Progress.stalled.run (machine shm) us).pool t = .ret a := by
  refine x1_run shm_faithful (fun t (ht : t ≠ 0) => ?_) _
  match t with
  | 0 => exact absurd rfl ht
  | 1 =>
    have hsize : RingSize ((created 2).1.getD default).desc.nbSamples :=
      ⟨by decide +kernel, by decide +kernel⟩
    exact ((Progress.selectSamples_within hsize _ _).allOps.mono fun o => keepsMem_of_reads).bind
      fun _ => trivial
  | _ + 2 => exact trivial

/-- Two producers start a sample. -/
def twoProducers : Config Op.Resp Nat (World Shm) Int where
  st := (created 2).2
  pool := fun
    | 0 | 1 => do
      let r ← newSample ((created 2).1.getD default) ⟨⟨1, 0⟩, ⟨1, 0⟩⟩
      return r.1
    | _ => .ret 0

/-- With two writers both additions return 1, and both producers are in a session. -/
example : ∀ t < 2, ((twoProducers.implement bpmpPrimitives (created 2).2).run (machine shm)
    ([0, 1, 0, 1, 0, 1] ++ List.replicate 8 0 ++ List.replicate 8 1)).pool t = .ret 0 := by
  refine fun t ht => Prog.eq_ret_of_returned ?_
  revert t
  decide +kernel

/-! ## A producer and its consumers -/

/-- The same threads over the three-step addition. -/
def onX1 (c : Config Op.Resp Nat (World Ω × History) α) : Config Op.Resp Nat (World Ω) α :=
  ({ st := c.st.1, pool := c.pool } : Config Op.Resp Nat (World Ω) α).implement bpmpPrimitives c.st.1

section Crowd

variable {d : DataSectionDesc} {w : World Ω} {p : ShdCtx} {calls : List ProdCall}
  {ctxs : Nat → ShdCtx} {rs : Nat → List ReadSession}

/-- **One producer over `bpmp_add_and_fetch`.** A producer makes any calls and any number of
consumers any sessions, with the loads and stores of each addition interleaved. The section
ends with the bytes of a run over the atomic addition, whose ring invariant holds, and
each thread that returned was told the same there. -/
theorem x1_producer_consumers (hB : B.Faithful) (hd : SoundDesc d) (hw : Cleared d w.mem)
    (hp : Fresh d p) (hcalls : ∀ c ∈ calls, c.InBounds d) (F : Futils)
    (hctxs : ∀ v, CtxFor d (ctxs v)) (ts : List Nat) :
    ∃ us : List Nat, us.Sublist ts ∧
      RingInv d (· = 0) ((producerConsumers w p calls F ctxs rs).run (tracked B d) us).st ∧
      ((onX1 (producerConsumers w p calls F ctxs rs)).run (machine B) ts).st
        = ((producerConsumers w p calls F ctxs rs).run (tracked B d) us).st.1 ∧
      ∀ t a, ((onX1 (producerConsumers w p calls F ctxs rs)).run (machine B) ts).pool t = .ret a →
        ((producerConsumers w p calls F ctxs rs).run (tracked B d) us).pool t = .ret a := by
  have hreaders : ∀ t, t ≠ 0 → ((producerConsumers w p calls F ctxs rs).pool t).AllOps KeepsMem := by
    intro t ht
    obtain ⟨v, rfl⟩ : ∃ v, t = v + 1 := ⟨t - 1, by omega⟩
    have hsize : RingSize (ctxs v).desc.nbSamples := (hctxs v).desc ▸ hd.size
    exact ((Progress.sessions_within hsize (rs v)).allOps.mono fun o => keepsMem_of_reads).bind
      fun _ => trivial
  obtain ⟨us, hus, hst, hret⟩ := x1_run (B := B) (c := { st := w, pool := _ }) hB hreaders ts
  have hghost := ghost_run (machine B) (track d) (producerConsumers w p calls F ctxs rs) us
  have hinv := (crowd_safe B (fun _ _ _ => True) hd hw hp hcalls F hctxs rs).inv (crowdRely_refl d)
    (fun t o a b hg hi => (crowdGuar_onward hg hi).1) (ringInv_init _ hw) us
    (Config.meets_true _ _ _)
  refine ⟨us, hus, hinv, hst.trans (congrArg Config.st hghost).symm, fun t a ha => ?_⟩
  exact (congrFun (congrArg Config.pool hghost) t).trans (hret t a ha)

/-- Three blobs, the third while a consumer reads. -/
theorem x1_producer_consumers_threeBlobs : ∃ us : List Nat,
    us.Sublist (List.replicate 30 0 ++ whileWriting 0) ∧
    RingInv ⟨56, 4, 2⟩ (· = 0) (threeBlobsCrowd.run (tracked shm ⟨56, 4, 2⟩) us).st ∧
    ((onX1 threeBlobsCrowd).run (machine shm) (List.replicate 30 0 ++ whileWriting 0)).st
      = (threeBlobsCrowd.run (tracked shm ⟨56, 4, 2⟩) us).st.1 ∧
    ∀ t a, ((onX1 threeBlobsCrowd).run (machine shm)
        (List.replicate 30 0 ++ whileWriting 0)).pool t = .ret a →
      (threeBlobsCrowd.run (tracked shm ⟨56, 4, 2⟩) us).pool t = .ret a := by
  have hf : FitsHdr ⟨4, 2, 1, 0⟩ := ⟨⟨by decide, by decide⟩, by decide⟩
  obtain ⟨hw, hp⟩ := created_fresh hf (by decide +kernel)
  exact x1_producer_consumers shm_faithful (soundDesc_of_fits hf) hw hp threeBlobs_inBounds
    libfutils (fun _ => hp.ctxFor) _

end Crowd

end Shdata.Platform
