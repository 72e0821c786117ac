/-
Shdata.Explicit.Runs — remainders by zero in the runs of a section.

After a creation its thread makes calls on the context, and any other
threads create or open the section and make calls of their own, a step of
one thread at a time. The remainders are steps as well (`pool_runs`: apart
from them the runs are those of `Shdata.Core`).

`shd_create` accepts a header of zero slots. Then the first `shd_new_sample`
divides by zero. With any other header nobody does, as long as each later
creation asks for a slot and each opening finds one in the header:
`divisors_iff`.
-/
import Shdata.Explicit.Divisions

namespace Shdata.Explicit

open Shdata.Conc Shdata.Bytes Shdata.Core Shdata.Layout Shdata.Solo

variable {Ω : Type} {B : Backend Ω} {t : Nat} {w : World Ω}

/-! ## Any number of contexts -/

/-- If the operation is a remainder, it is not one by zero. -/
def NonZero : Op ⊕ Modulo → Prop
  | .inl _ => True
  | .inr m => m.size ≠ 0

instance (o : Op ⊕ Modulo) : Decidable (NonZero o) := by
  unfold NonZero
  split <;> infer_instance

/-- The number of slots that an opening loads from the header is not zero. -/
def LoadsSize : (o : Op) → o.Resp → Prop
  | .read site a len, bs => (site, a, len) = (.dataSectionDescNew, 24, 4) → leNat bs ≠ 0
  | _, _ => True

theorem apiCalls_nonZero {A : (o : Op ⊕ Modulo) → Sum.elim Op.Resp Modulo.Resp o → Prop}
    (F : Futils) (calls : List ApiCall) {ctx : ShdCtx} (hN : ctx.desc.nbSamples ≠ 0) :
    (apiCalls F calls ctx).Ensures A NonZero fun _ => True := by
  refine (apiCalls_ensures calls).mono (fun o ho => ?_) fun _ => id
  cases o with
  | inl o => trivial
  | inr m =>
    change m.size = ctx.desc.nbSamples at ho
    exact fun h0 => hN (ho.symm.trans h0)

theorem hdrNbSamples_ne {h : HdrUserInfo} (hpos : h.maxNbSamples ≠ 0) : hdrNbSamples h ≠ 0 :=
  Int.natCast_ne_zero.mpr fun h0 => hpos (UInt32.toNat_inj.mp h0)

/-- What a thread does with the section: it creates or opens it, and makes calls. -/
inductive Party where
  | creator (name : String) (hdrInfo : HdrUserInfo) (mdata : List UInt8) (env : Option String)
      (calls : List ApiCall)
  | opener (name : String) (env : Option String) (calls : List ApiCall)

namespace Party

def prog (F : Futils) : Party → RingProg (List Int)
  | .creator name hdrInfo mdata env calls => do
    let r ← (create name hdrInfo mdata env).inl
    match r with
    | none => return []
    | some ctx => apiCalls F calls ctx
  | .opener name env calls => do
    let r ← (openCtx name env).inl
    match r with
    | none => return []
    | some p => apiCalls F calls p.1

/-- The same in `Shdata.Core`. -/
def coreProg (F : Futils) : Party → ShdProg (List Int)
  | .creator name hdrInfo mdata env calls => do
    let r ← create name hdrInfo mdata env
    match r with
    | none => return []
    | some ctx => coreCalls F calls ctx
  | .opener name env calls => do
    let r ← openCtx name env
    match r with
    | none => return []
    | some p => coreCalls F calls p.1

/-- A creation asks for one slot or more. -/
def Sized : Party → Prop
  | .creator _ hdrInfo _ _ _ => hdrInfo.maxNbSamples ≠ 0
  | .opener _ _ _ => True

theorem prog_answer (F : Futils) (p : Party) : (p.prog F).answer remainder = p.coreProg F := by
  cases p with
  | creator name hdrInfo mdata env calls =>
    rw [prog, coreProg, Prog.answer_bind, Prog.answer_inl]
    refine congrArg _ (funext fun r => ?_)
    cases r with
    | none => rfl
    | some ctx => exact apiCalls_answer F calls ctx
  | opener name env calls =>
    rw [prog, coreProg, Prog.answer_bind, Prog.answer_inl]
    refine congrArg _ (funext fun r => ?_)
    cases r with
    | none => rfl
    | some q => exact apiCalls_answer F calls q.1

/-- A creation that asks for a slot, or an opening that finds one, divides by no zero. -/
theorem prog_ensures (F : Futils) (p : Party) (hp : p.Sized) :
    (p.prog F).Ensures (Prog.Answered remainder LoadsSize) NonZero fun _ => True := by
  cases p with
  | creator name hdrInfo mdata env calls =>
    refine ((create_ensures name hdrInfo mdata env).inl (fun _ _ => id) fun _ _ => trivial).bind
      fun r hr => ?_
    cases r with
    | none => trivial
    | some ctx =>
      refine apiCalls_nonZero F calls ?_
      rw [hr ctx rfl]
      exact hdrNbSamples_ne hp
  | opener name env calls =>
    have hopen : (openCtx name env).Ensures LoadsSize KeepsMem
        fun r => ∀ q, r = some q → q.1.desc.nbSamples ≠ 0 :=
      openCtx_ensures (A := LoadsSize) (R := (· ≠ 0))
        (fun bs hbs => Int.natCast_ne_zero.mpr (hbs rfl)) name env
    refine (hopen.inl (fun _ _ => id) fun _ _ => trivial).bind fun r hr => ?_
    cases r with
    | none => trivial
    | some q => exact apiCalls_nonZero F calls (hr q rfl)

end Party

/-! ## Runs -/

/-- The machine of the library, with its remainders. -/
def ringMachine (B : Backend Ω) : Machine (Sum.elim Op.Resp Modulo.Resp) Nat (World Ω) :=
  (machine B).answering remainder

/-- Thread `t` makes calls on a context, the other threads are parties of their own. -/
def sharing (F : Futils) (t : Nat) (ctx : ShdCtx) (calls : List ApiCall) (others : Nat → Party)
    (w : World Ω) : Config (Sum.elim Op.Resp Modulo.Resp) Nat (World Ω) (List Int) where
  st := w
  pool := fun u => if u = t then apiCalls F calls ctx else (others u).prog F

/-- The same threads in `Shdata.Core`. -/
def coreSharing (F : Futils) (t : Nat) (ctx : ShdCtx) (calls : List ApiCall)
    (others : Nat → Party) (w : World Ω) : Config Op.Resp Nat (World Ω) (List Int) where
  st := w
  pool := fun u => if u = t then coreCalls F calls ctx else (others u).coreProg F

/-- Apart from the remainders, the runs are those of `Shdata.Core`. -/
theorem pool_runs (F : Futils) (ctx : ShdCtx) (calls : List ApiCall) (others : Nat → Party) :
    (∀ ts, ∃ us, us.Sublist ts ∧
      ((sharing F t ctx calls others w).run (ringMachine B) ts).answer remainder
        = (coreSharing F t ctx calls others w).run (machine B) us) ∧
    ∀ us, ∃ ts, ((sharing F t ctx calls others w).run (ringMachine B) ts).answer remainder
      = (coreSharing F t ctx calls others w).run (machine B) us := by
  have hcore : (sharing F t ctx calls others w).answer remainder
      = coreSharing F t ctx calls others w := by
    refine congrArg (Config.mk _) (funext fun u => ?_)
    dsimp only [sharing]
    split
    · exact apiCalls_answer F calls ctx
    · exact (others u).prog_answer F
  rw [← hcore]
  exact ⟨run_answer _, run_of_answer _⟩

/-- When an opening loads the number of slots, the header does not say zero. -/
def OpensFilled (_ : Nat) (o : Op ⊕ Modulo) (w : World Ω) : Prop :=
  match o with
  | .inl (.read site a len) =>
    (site, a, len) = (.dataSectionDescNew, 24, 4) → leNat (w.mem.read a len) ≠ 0
  | _ => True

instance (u : Nat) (o : Op ⊕ Modulo) (w : World Ω) : Decidable (OpensFilled u o w) := by
  unfold OpensFilled
  split <;> infer_instance

/-- **A run of parties that ask for a slot, or find one, has no remainder by zero**, whatever
the schedule, the memory and the backend are. -/
theorem sharing_nonZero {F : Futils} {ctx : ShdCtx} (hN : ctx.desc.nbSamples ≠ 0)
    (calls : List ApiCall) {others : Nat → Party} (hothers : ∀ u, (others u).Sized)
    {ts : List Nat}
    (hm : (sharing F t ctx calls others w).Meets (ringMachine B) OpensFilled ts) :
    (sharing F t ctx calls others w).Meets (ringMachine B) (fun _ o _ => NonZero o) ts := by
  refine Config.meets_of_ensures_all (A := Prog.Answered remainder LoadsSize)
    (Q := fun _ => True) ?_ (fun u => ?_) hm
  · intro u o w' ho
    cases o with
    | inr m => rfl
    | inl o => cases o <;> exact ho
  · dsimp only [sharing]
    split
    · exact apiCalls_nonZero F calls hN
    · exact (others u).prog_ensures F (hothers u)

/-! ## A section of zero slots -/

/-- The first three operations of a `shd_new_sample` whose attempt succeeds. -/
theorem newSample_steps (F : Futils) (ctx : ShdCtx) (metadata : SampleMetadata) :
    ∃ (k₁ : Int → RingProg (List Int)) (k₂ : List UInt8 → RingProg (List Int))
      (k₃ : List UInt8 → Int → RingProg (List Int)),
      apiCalls F [.prod (.newSample metadata)] ctx
        = .op (.inl (.addAndFetch .startWriteSession (ctx.sectMmap.syncTop + offsetofNbOngoing) 1))
          k₁ ∧
      k₁ 1 = .op (.inl (.read .getNextWriteIndex
        (ctx.sectMmap.syncTop + offsetofWriteIndex) 4)) k₂ ∧
      ∀ bs, k₂ bs = .op (.inr ⟨toU32 (decI32 bs + 1), ctx.desc.nbSamples⟩) (k₃ bs) :=
  ⟨_, _, _, rfl, rfl, fun _ => rfl⟩

/-- Where nobody is in a write session it comes to a remainder by the number of slots. -/
theorem ops_newSample (F : Futils) {ctx : ShdCtx} (metadata : SampleMetadata)
    (hfree : w.mem.i32 (ctx.sectMmap.syncTop + offsetofNbOngoing) = 0) :
    ∃ w' m, m.size = ctx.desc.nbSamples ∧
      (ops (ringMachine B) t (apiCalls F [.prod (.newSample metadata)] ctx) w).take 3 =
        [(.inl (.addAndFetch .startWriteSession (ctx.sectMmap.syncTop + offsetofNbOngoing) 1), w),
          (.inl (.read .getNextWriteIndex (ctx.sectMmap.syncTop + offsetofWriteIndex) 4), w'),
          (.inr m, w')] := by
  obtain ⟨k₁, k₂, k₃, h₁, h₂, h₃⟩ := newSample_steps F ctx metadata
  have hone : toI32 (w.mem.i32 (ctx.sectMmap.syncTop + offsetofNbOngoing) + 1) = 1 := by
    rw [hfree]
    exact toI32_of_isI32 ⟨by omega, by omega⟩
  obtain ⟨w', hw'⟩ : ∃ w', ((ringMachine B).step t (.inl (.addAndFetch .startWriteSession
    (ctx.sectMmap.syncTop + offsetofNbOngoing) 1)) w).1 = w' := ⟨_, rfl⟩
  refine ⟨w', ⟨toU32 (w'.mem.i32 (ctx.sectMmap.syncTop + offsetofWriteIndex) + 1),
    ctx.desc.nbSamples⟩, rfl, ?_⟩
  rw [h₁]
  change List.take 3 (_ :: ops (ringMachine B) t (k₁ (toI32 _)) _) = _
  rw [hone, h₂, hw']
  change List.take 3 (_ :: _ :: ops (ringMachine B) t (k₂ (w'.mem.read _ 4)) w') = _
  rw [h₃]
  rfl

/-- `shd_mdata_hdr_write` writes nothing before the metadata. -/
theorem exec_mdataHdrWrite_before (src : List UInt8) (size : Nat) :
    ∃ m, (exec (machine B) t (mdataHdrWrite 56 src size) w).2 = { w with mem := m } ∧
      ∀ x, x < 56 → m x = w.mem x := by
  rw [mdataHdrWrite, exec_bind, exec_memcpyOut]
  split
  · exact ⟨_, rfl, fun x hx => Mem.write_of_not_mem (Or.inl hx)⟩
  · exact ⟨_, rfl, fun x _ => rfl⟩

/-- There is nothing to clear in zero slots. -/
theorem exec_dataClearSection_zero {d : DataSectionDesc} (hd : d.nbSamples = 0) :
    (exec (machine B) t (dataClearSection d) w).2 = w := by
  have hsize : dataGetTotalSize lp64 d.blobSize d.nbSamples = 0 := by
    rw [dataGetTotalSize, hd, Int.zero_mul]
    rfl
  rw [dataClearSection, exec_bind, hsize, hd]
  exact congrArg (fun m => { w with mem := m }) (Mem.write_nil w.mem d.dataSectionStart)

/-- The writing part of a creation of zero slots leaves nobody in a write session. -/
theorem createPublish_ongoing {h : HdrUserInfo} {desc : DataSectionDesc}
    (hd : desc.nbSamples = 0) (mdata : List UInt8) (first : Bool) :
    nbOngoing (exec (machine B) t (createPublish (getMmap (getOffsets lp64 h)) desc h mdata first)
      w).2.mem = 0 := by
  have hsync : (getMmap (getOffsets lp64 h)).syncTop = 40 := rfl
  have hblob : (getMmap (getOffsets lp64 h)).metadataBlobTop = 56 := rfl
  have htop : (getMmap (getOffsets lp64 h)).sectionTop = 0 := rfl
  obtain ⟨m₁, he₁, -, -⟩ := exec_invalidateSection (B := B) (t := t) (w := w) first
  obtain ⟨-, -, hong, -⟩ := memHdrWrite_spec h m₁
  obtain ⟨m₃, he₃, ho₃⟩ := exec_mdataHdrWrite_before (B := B) (t := t)
    (w := { w with mem := memHdrWrite h m₁ }) mdata h.blobMetadataHdrSize.toNat
  obtain ⟨m₅, he₅, -, ho₅⟩ := exec_updateGlobalRevisionNb (B := B) (t := t)
    (w := { w with mem := m₃ })
  rw [createPublish, hsync, hblob, htop, exec_bind, he₁, exec_bind, exec_hdrWrite, exec_bind, he₃,
    exec_bind, exec_dataClearSection_zero hd, he₅]
  calc nbOngoing m₅ = nbOngoing m₃ := ho₅.i32 (by omega)
    _ = nbOngoing (memHdrWrite h m₁) := Mem.i32_congr fun x _ hx => ho₃ x (by omega)
    _ = 0 := hong

/-- A creation of zero slots that succeeds. -/
theorem create_zero (hB : B.Faithful) {name : String} {h : HdrUserInfo} {mdata : List UInt8}
    {env : Option String} {ctx : ShdCtx} {w₁ : World Ω} (hzero : h.maxNbSamples = 0)
    (hex : exec (machine B) t (create name h mdata env) w = (some ctx, w₁)) :
    ctx.desc.nbSamples = 0 ∧
      w₁.mem.i32 (ctx.sectMmap.syncTop + offsetofNbOngoing) = 0 := by
  obtain ⟨inst, a, first, w', -, hw, rfl⟩ := exec_create hex
  have hN : hdrNbSamples h = 0 := by
    rw [hdrNbSamples, hzero]
    rfl
  refine ⟨hN, ?_⟩
  change nbOngoing w₁.mem = 0
  rw [hw]
  change nbOngoing (B.call t (.unlock inst) (_, _)).1.1 = 0
  rw [hB.mem t (.unlock inst) _ (by simp) (by simp)]
  exact createPublish_ongoing hN mdata first

/-- **No ring helper divides by zero in any run after a creation, exactly if the creation
was asked for a slot.** The other parties that create the section ask for one too, and each
opening finds one in the header. -/
theorem divisors_iff (hB : B.Faithful) {name : String} {h : HdrUserInfo} {mdata : List UInt8}
    {env : Option String} {ctx : ShdCtx} {w₁ : World Ω}
    (hex : exec (machine B) t (create name h mdata env) w = (some ctx, w₁)) :
    (∀ F calls others ts, (∀ u, (others u : Party).Sized) →
      (sharing F t ctx calls others w₁).Meets (ringMachine B) OpensFilled ts →
      (sharing F t ctx calls others w₁).Meets (ringMachine B) (fun _ o _ => NonZero o) ts) ↔
    h.maxNbSamples ≠ 0 := by
  constructor
  · intro hall hzero
    obtain ⟨hN, hfree⟩ := create_zero hB hzero hex
    obtain ⟨w', m, hm, hops⟩ := ops_newSample (B := B) (t := t) libfutils ⟨⟨0, 0⟩, ⟨0, 0⟩⟩ hfree
    have hrun := hall libfutils [.prod (.newSample ⟨⟨0, 0⟩, ⟨0, 0⟩⟩)]
      (fun _ => .opener name none []) (List.replicate 3 t) (fun _ => trivial)
    have hpool : (sharing libfutils t ctx [.prod (.newSample ⟨⟨0, 0⟩, ⟨0, 0⟩⟩)]
        (fun _ => .opener name none []) w₁).pool t = _ := if_pos rfl
    have hst : (sharing libfutils t ctx [.prod (.newSample ⟨⟨0, 0⟩, ⟨0, 0⟩⟩)]
        (fun _ => .opener name none []) w₁).st = w₁ := rfl
    rw [Config.meets_replicate, Config.meets_replicate, hpool, hst, hops] at hrun
    have hnz : NonZero (.inr m) := hrun (fun e he => ?_) (.inr m, w') (by simp)
    · exact hnz (hm.trans hN)
    · -- none of the three operations is the load of an opening
      simp only [List.mem_cons, List.not_mem_nil, or_false] at he
      rcases he with rfl | rfl | rfl
      · trivial
      · exact fun hload => absurd hload (by simp)
      · trivial
  · intro hpos F calls others ts hothers hm
    refine sharing_nonZero ?_ calls hothers hm
    obtain ⟨inst, a, first, w', -, -, rfl⟩ := exec_create hex
    exact hdrNbSamples_ne hpos

/-- Calls on the context of `created n`, beside threads that open the section and select its
latest sample. -/
def createdRun (n : UInt32) (calls : List ApiCall) :
    Config (Sum.elim Op.Resp Modulo.Resp) Nat (World Shm) (List Int) :=
  sharing libfutils 0 ((created n).1.getD default) calls
    (fun _ => .opener "section" none [.cons (.select ⟨⟨0, 0⟩, .latest, 0, 0⟩)]) (created n).2

/-- Four slots: a sample is written, then a thread opens the section and selects. -/
theorem divisors_iff_four :
    (createdRun 4 [.prod (.writeNewBlob [1, 2, 3, 4] 4 ⟨⟨0, 0⟩, ⟨0, 0⟩⟩)]).Meets (ringMachine shm)
      (fun _ o _ => NonZero o) (List.replicate 14 0 ++ List.replicate 40 1) := by
  have hsome : (created 4).1.isSome := by decide +kernel
  obtain ⟨ctx, hctx⟩ := Option.isSome_iff_exists.mp hsome
  have hex : exec (machine shm) 0 (create "section" ⟨4, 4, 1, 0⟩ [] none) Shm.world
      = (some ((created 4).1.getD default), (created 4).2) := by
    rw [hctx]
    exact Prod.ext hctx rfl
  exact (divisors_iff shm_faithful hex).mpr (by decide) libfutils _ _ _ (fun _ => trivial)
    (by decide +kernel)

/-- With zero slots the creation succeeds as well, and the first sample divides by zero. -/
theorem zero_slots_divide : (created 0).1.isSome ∧
    ¬ (createdRun 0 [.prod (.newSample ⟨⟨0, 0⟩, ⟨0, 0⟩⟩)]).Meets (ringMachine shm)
      (fun _ o _ => NonZero o) [0, 0, 0] :=
  ⟨by decide +kernel, by decide +kernel⟩

end Shdata.Explicit
