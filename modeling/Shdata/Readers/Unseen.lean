/-
Shdata.Readers.Unseen — consumers are invisible to producers.

Producers and consumers work on one section, one operation at a time in any
order. A consumer stores nothing in the section, and a producer sees nothing
but the section. So the bytes of the section, what every producer was told and what it has
left to do are those of the same run without the steps of the consumers
(`consumers_unseen`). A consumer that stops inside a search or never ends its session
delays nobody and changes nothing.
-/
import Shdata.Conc.Erase
import Shdata.Progress.Calls
import Shdata.Readers.Fresh

namespace Shdata.Readers

open Shdata.Conc Shdata.Bytes Shdata.Core Shdata.Layout Shdata.Trace Shdata.Producer Shdata.Consumer
  Shdata.Solo Shdata.Progress

variable {Ω : Type}

/-- What a process does with a section. -/
inductive Role where
  | producer (ctx : ShdCtx) (calls : List ProdCall)
  | consumer (ctx : ShdCtx) (rs : List ReadSession)

namespace Role

def IsProducer : Role → Prop
  | producer _ _ => True
  | consumer _ _ => False

instance : DecidablePred IsProducer := fun r =>
  match r with
  | producer _ _ => isTrue trivial
  | consumer _ _ => isFalse id

/-- The ring that a consumer searches has indices of type `int`. -/
def InRing : Role → Prop
  | producer _ _ => True
  | consumer ctx _ => RingSize ctx.desc.nbSamples

def prog (F : Futils) : Role → ShdProg Outcome
  | producer ctx calls => prodCalls calls ctx >>= fun x => pure (.inl x.1)
  | consumer ctx rs => sessions F rs ctx >>= fun x => pure (.inr x.1)

/-- The operations of a process. -/
def Ops (r : Role) (o : Op) : Prop := if r.IsProducer then OnSection o else Readers.Reads o

end Role

/-- Processes that work on one section. -/
def processes (w : World Ω) (F : Futils) (roles : Nat → Role) :
    Config Op.Resp Nat (World Ω) Outcome where
  st := w
  pool := fun t => (roles t).prog F

theorem Role.prog_ops (F : Futils) {r : Role} (hr : r.InRing) : (r.prog F).AllOps r.Ops := by
  cases r with
  | producer ctx calls => exact (prodCalls_works calls).allOps.bind fun _ => trivial
  | consumer ctx rs => exact (sessions_within hr rs).allOps.bind fun _ => trivial

/-- A producer sees the bytes only, and a consumer does not change them. -/
theorem mem_unseen (B : Backend Ω) (roles : Nat → Role) :
    Unseen (machine B) World.mem (fun t => (roles t).IsProducer) fun t => (roles t).Ops where
  keeps := by
    intro t o s ht ho
    rw [Role.Ops, if_neg ht] at ho
    cases o with
    | read site a len => rfl
    | samplePtr desc i => rfl
    | calloc what => rfl
    | free what p => rfl
    | _ => exact absurd ho id
  state := by
    intro t o s s' ht ho hmem
    rw [Role.Ops, if_pos ht] at ho
    cases o with
    | read site a len => exact hmem
    | write site a src => exact congrArg (fun m : Mem => m.write a src) hmem
    | addAndFetch site a v =>
      exact congrArg (fun m : Mem => m.write a (encI32 (m.i32 a + v))) hmem
    | samplePtr desc i => exact hmem
    | _ => exact absurd ho id
  resp := by
    intro t o s s' ht ho hmem
    rw [Role.Ops, if_pos ht] at ho
    cases o with
    | read site a len => exact congrArg (fun m : Mem => m.read a len) hmem
    | write site a src => rfl
    | addAndFetch site a v => exact congrArg (fun m : Mem => toI32 (m.i32 a + v)) hmem
    | samplePtr desc i => rfl
    | _ => exact absurd ho id

/-- **Consumers are invisible.** Producers and consumers make any calls, one operation at a
time in any order. Without the steps of the consumers the section holds the same
bytes, and each producer was told the same and has the same left to do. -/
theorem consumers_unseen (B : Backend Ω) (F : Futils) (w : World Ω) {roles : Nat → Role}
    (hroles : ∀ t, (roles t).InRing) (ts : List Nat) :
    ((processes w F roles).run (machine B) ts).st.mem
        = ((processes w F roles).run (machine B)
            (ts.filter fun t => (roles t).IsProducer)).st.mem ∧
      ∀ t, (roles t).IsProducer → ((processes w F roles).run (machine B) ts).pool t
        = ((processes w F roles).run (machine B)
            (ts.filter fun t => (roles t).IsProducer)).pool t :=
  run_erase (mem_unseen B roles) (fun t => Role.prog_ops F (hroles t)) ts

/-- One producer, and consumers that read the last two samples. -/
def threeBlobsRoles : Nat → Role
  | 0 => .producer ((created 2).1.getD default) [.writeNewBlob [1, 2, 3, 4] 4 ⟨⟨1, 0⟩, ⟨1, 0⟩⟩,
      .writeNewBlob [5, 6, 7, 8] 4 ⟨⟨2, 0⟩, ⟨2, 0⟩⟩, .writeNewBlob [9, 10, 11, 12] 4 ⟨⟨3, 0⟩, ⟨3, 0⟩⟩]
  | _ + 1 => .consumer ((created 2).1.getD default) [lastTwo]

/-- Consumer 1 reads while the third blob is written, and consumer 2 stops in its search. -/
theorem consumers_unseen_threeBlobs :
    ((processes (created 2).2 libfutils threeBlobsRoles).run (machine shm)
        (List.replicate 22 0 ++ whileWriting 0 ++ List.replicate 4 2)).st.mem
      = ((processes (created 2).2 libfutils threeBlobsRoles).run (machine shm)
          (List.replicate 25 0)).st.mem := by
  refine (consumers_unseen shm libfutils (created 2).2 (fun t => ?_) _).1
  match t with
  | 0 => trivial
  | _ + 1 => exact ⟨by decide +kernel, by decide +kernel⟩

end Shdata.Readers
