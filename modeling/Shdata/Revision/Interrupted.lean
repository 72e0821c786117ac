/-
Shdata.Revision.Interrupted — a creation after creations that stopped half way.

The revision is kept odd by two blind increments: what they make of it depends
on the value found in the section. `create_iff` says when a creation that runs
alone, in whatever the creations before it left, returns a context with an even
revision that was odd during its writes.

A creation that stops between the two increments leaves an odd number, and
then the next one leaves it odd again and fails: `interrupted_fails`.
-/
import Shdata.Revision.Steps
import Shdata.Solo.Open

namespace Shdata.Revision

open Shdata.Conc Shdata.Bytes Shdata.Core Shdata.Ring Shdata.Layout Shdata.Solo

variable {Ω : Type} {B : Backend Ω} {t : Nat} {w : World Ω} {h : HdrUserInfo}

/-! ## Backend calls that succeed -/

/-- The response of a backend call that succeeded. -/
def Succeeds : (o : Op) → o.Resp → Prop
  | .backend (.lookup _), r => 0 ≤ r
  | .backend (.create _ _), r => 0 ≤ r.ret
  | .backend (.openSection _), r => 0 ≤ r.ret
  | .backend (.close _), r => 0 ≤ r
  | .backend (.hdrRead _), r => 0 ≤ r.ret
  | .backend (.getSectionStart _ _), r => 0 ≤ r
  | .backend (.resize _), r => 0 ≤ r
  | .backend (.lock _), r => 0 ≤ r
  | .backend (.unlock _), r => 0 ≤ r
  | _, _ => True

/-- Every backend call of a solo run succeeds. -/
def BackendOk {α : Type} (B : Backend Ω) (t : Nat) (p : ShdProg α) (w : World Ω) : Prop :=
  ∀ e ∈ ops (machine B) t p w, Succeeds e.1 ((machine B).step t e.1 e.2).2

theorem BackendOk.bind {α β : Type} {p : ShdProg α} {f : α → ShdProg β}
    (hok : BackendOk B t (p >>= f) w) : BackendOk B t p w ∧
      BackendOk B t (f (exec (machine B) t p w).1) (exec (machine B) t p w).2 :=
  ⟨fun e he => hok e ((mem_ops_bind _ _).mpr (Or.inl he)),
    fun e he => hok e ((mem_ops_bind _ _).mpr (Or.inr he))⟩

theorem BackendOk.call {c : BackendCall} (hok : BackendOk B t (callBackend c) w) :
    Succeeds (.backend c) (B.call t c (w.mem, w.os)).2 :=
  hok _ List.mem_cons_self

/-! ## The section that a creation finds -/

/-- The calls of a creation before it allocates its context. -/
def createSection (blobName : String) (hdrInfo : HdrUserInfo) : ShdProg CreateResult := do
  let c ← sectionCreate blobName (sectionGetTotalSize lp64 hdrInfo)
  let _ ← sectionLock c.inst
  let _ ← sectionResize c.inst
  return c

/-- The answer of the backend, and the world in which the section is locked and
has its size. -/
def found (B : Backend Ω) (t : Nat) (blobName : String) (hdrInfo : HdrUserInfo) (w : World Ω) :
    CreateResult × World Ω :=
  exec (machine B) t (createSection blobName hdrInfo) w

/-- A name that is no file name is refused. -/
theorem exec_sectionCreate_slash {name : String} (hname : '/' ∈ name.toList) (size : Int) :
    exec (machine B) t (sectionCreate name size) w = (⟨-EINVAL, 0, false⟩, w) := by
  rw [sectionCreate, initSectionInfos, if_pos hname]
  rfl

theorem initSectionInfos_ret {name : String} (hname : '/' ∉ name.toList)
    (hok : BackendOk B t (initSectionInfos name) w) :
    (exec (machine B) t (initSectionInfos name) w).1 = 0 := by
  rw [initSectionInfos, if_neg hname] at hok ⊢
  have hlookup : (0 : Int) ≤ (B.call t (.lookup name) (w.mem, w.os)).2 := hok.bind.1.call
  rw [exec_bind]
  change (exec (machine B) t (if (B.call t (.lookup name) (w.mem, w.os)).2 < 0
    then return -ENOENT else return 0) _).1 = 0
  rw [if_neg (not_lt.mpr hlookup)]
  rfl

theorem sectionCreate_ret {name : String} (hname : '/' ∉ name.toList) {size : Int}
    (hok : BackendOk B t (sectionCreate name size) w) :
    0 ≤ (exec (machine B) t (sectionCreate name size) w).1.ret := by
  obtain ⟨hinit, hcreate⟩ := hok.bind
  have hzero : ¬ (exec (machine B) t (initSectionInfos name) w).1 < 0 := by
    rw [initSectionInfos_ret hname hinit]
    exact lt_irrefl 0
  rw [if_neg hzero] at hcreate
  rw [sectionCreate, exec_bind, if_neg hzero]
  exact hcreate.call

/-! ## The context of a creation -/

/-- The allocations that `shd_create` checks succeed. The second one, for the copy of
the name, is not looked at. -/
def AllocsOk (heap : Heap) : Prop :=
  ∀ i ∈ [0, 2, 3, 4, 5], heap.oom (heap.next + i) = false

instance (heap : Heap) : Decidable (AllocsOk heap) :=
  inferInstanceAs (Decidable (∀ i ∈ [0, 2, 3, 4, 5], heap.oom (heap.next + i) = false))

theorem exec_calloc (what : Alloc) : exec (machine B) t (calloc what) w
    = (if w.heap.oom w.heap.next then none else some w.heap.next,
      { w with heap := { w.heap with next := w.heap.next + 1 } }) := rfl

/-- `shd_ctx_new` succeeds exactly if the blocks that it checks are allocated. -/
theorem exec_ctxNew (inst : Nat) (w : World Ω) :
    ((exec (machine B) t (ctxNew inst) w).1.isSome ↔
      ∀ i ∈ [0, 2, 3], w.heap.oom (w.heap.next + i) = false) ∧
    ((exec (machine B) t (ctxNew inst) w).1.isSome → (exec (machine B) t (ctxNew inst) w).2
      = { w with heap := { w.heap with next := w.heap.next + 4 } }) := by
  have herr : ∀ a w, (exec (machine B) t (ctxNewError inst a) w).1 = none := by
    intro a w
    simp only [ctxNewError, exec_bind, exec_pure]
  cases h0 : w.heap.oom w.heap.next
  case true => simp [ctxNew, exec_calloc, h0]
  cases h2 : w.heap.oom (w.heap.next + 2)
  case true => simp [ctxNew, exec_calloc, h0, h2, herr]
  cases h3 : w.heap.oom (w.heap.next + 3) <;>
    simp [ctxNew, exec_calloc, h0, h2, h3, herr]

/-- `shd_ctx_mmap` too, once the backend has mapped the section. -/
theorem exec_ctxMmap (inst : Nat) (a : CtxAllocs)
    (hok : BackendOk B t (ctxMmap inst (some a) (some h)) w) :
    ((exec (machine B) t (ctxMmap inst (some a) (some h)) w).1.parts.isSome ↔
      ∀ i ∈ [0, 1], w.heap.oom (w.heap.next + i) = false) ∧
    ((exec (machine B) t (ctxMmap inst (some a) (some h)) w).1.parts.isSome →
      (exec (machine B) t (ctxMmap inst (some a) (some h)) w).1.ret = 0 ∧
      (exec (machine B) t (ctxMmap inst (some a) (some h)) w).1.allocs.isSome) := by
  have hmap : ¬ (exec (machine B) t (callBackend
      (.getSectionStart (getOffsets lp64 h).totalSize inst)) w).1 < 0 :=
    not_lt.mpr hok.bind.1.bind.1.call
  have hheap : (exec (machine B) t (callBackend
      (.getSectionStart (getOffsets lp64 h).totalSize inst)) w).2.heap = w.heap := rfl
  cases h0 : w.heap.oom w.heap.next
  case true =>
    simp [ctxMmap, sectionMappingNew, sectionMap, exec_calloc, hmap, hheap, h0]
  cases h1 : w.heap.oom (w.heap.next + 1) <;>
    simp [ctxMmap, sectionMappingNew, sectionMap, dataSectionDescNew, exec_calloc, hmap, hheap,
      h0, h1]

/-! ## Creations that renew the revision -/

/-- What a creation that runs alone should do: return a context, leave an even
revision, and keep it odd while it writes. -/
structure Renews (B : Backend Ω) (t : Nat) (p : ShdProg (Option ShdCtx)) (w : World Ω) :
    Prop where
  context : (exec (machine B) t p w).1.isSome
  even : nbCreations (exec (machine B) t p w).2.mem % 2 = 0
  odd : ∀ e ∈ ops (machine B) t p w, Updates e.1 → nbCreations e.2.mem % 2 = 1

theorem not_renews {p : ShdProg (Option ShdCtx)} (hnone : (exec (machine B) t p w).1 = none) :
    ¬ Renews B t p w :=
  fun hp => absurd hp.context (by simp [hnone])

/-- What comes before the first write does not matter. -/
theorem renews_bind {α : Type} {p : ShdProg α} {f : α → ShdProg (Option ShdCtx)}
    (hp : p.AllOps fun o => ¬ Updates o) : Renews B t (p >>= f) w ↔
      Renews B t (f (exec (machine B) t p w).1) (exec (machine B) t p w).2 := by
  constructor
  · rintro ⟨hctx, heven, hodd⟩
    rw [exec_bind] at hctx heven
    exact ⟨hctx, heven, fun e he => hodd e ((mem_ops_bind _ _).mpr (Or.inr he))⟩
  · rintro ⟨hctx, heven, hodd⟩
    refine ⟨by rwa [exec_bind], by rwa [exec_bind], fun e he hup => ?_⟩
    rcases (mem_ops_bind _ _).mp he with he | he
    · exact absurd hup (ops_all (machine B) t hp e he)
    · exact hodd e he hup

theorem not_updates_of_offSection {o : Op} (ho : OffSection o) : ¬ Updates o := by
  cases o with
  | write site a src => exact absurd ho id
  | addAndFetch site a v => exact absurd ho id
  | _ => exact id

/-- Before the context there are only backend calls. -/
theorem sectionCreate_calls (name : String) (size : Int) :
    (sectionCreate name size).AllOps fun o => ∃ c, o = .backend c := by
  have hinit : (initSectionInfos name).AllOps fun o => ∃ c, o = .backend c := by
    unfold initSectionInfos
    split
    · exact trivial
    · refine Prog.ensures_perform ⟨_, rfl⟩ fun ret _ => ?_
      split <;> exact trivial
  refine Prog.AllOps.bind hinit fun ret => ?_
  split
  · exact trivial
  · exact ⟨⟨_, rfl⟩, fun _ _ => trivial⟩

theorem not_updates_of_call {o : Op} (ho : ∃ c, o = .backend c) : ¬ Updates o := by
  obtain ⟨c, rfl⟩ := ho
  exact id

theorem sectionLock_not_updates (inst : Nat) : (sectionLock inst).AllOps fun o => ¬ Updates o :=
  ⟨id, fun _ _ => trivial⟩

theorem sectionResize_not_updates (inst : Nat) :
    (sectionResize inst).AllOps fun o => ¬ Updates o := ⟨id, fun _ _ => trivial⟩

theorem found_heap (name : String) (h : HdrUserInfo) (w : World Ω) :
    (found B t name h w).2.heap = w.heap := by
  have hcalls : (createSection name h).AllOps fun o => ∃ c, o = .backend c :=
    Prog.AllOps.bind (sectionCreate_calls name _) fun c =>
      ⟨⟨_, rfl⟩, fun _ _ => ⟨⟨_, rfl⟩, fun _ _ => trivial⟩⟩
  refine exec_inv (machine B) t (I := fun u => u.heap = w.heap) ?_ hcalls rfl
  rintro o u ⟨c, rfl⟩ hu
  exact hu

/-! ## Between the two updates -/

/-- The second update is its first operation, the other one reads. -/
theorem ops_updateGlobalRevisionNb (w : World Ω) :
    ∀ e ∈ ops (machine B) t (syncUpdateGlobalRevisionNb 40) w, Updates e.1 → e.2 = w := by
  intro e he hup
  rw [syncUpdateGlobalRevisionNb, mem_ops_bind] at he
  rcases he with he | he
  · obtain rfl := List.mem_singleton.mp he
    rfl
  · split at he
    · exact absurd he List.not_mem_nil
    · obtain rfl := List.mem_singleton.mp he
      exact absurd hup id

theorem updates_mem (w : World Ω) :
    ∃ e ∈ ops (machine B) t (syncUpdateGlobalRevisionNb 40) w, Updates e.1 :=
  ⟨(.addAndFetch .updateGlobalRevisionNb 40 1, w), List.mem_cons_self, trivial⟩

/-- What `createPublish` returns and leaves, and the revision at its writes. -/
theorem createPublish_rev (hB : B.Faithful) (hs : SafeHdr h) (mdata : List UInt8) (first : Bool)
    (w : World Ω) {p : ShdProg Int}
    (hp : p = createPublish (getMmap (getOffsets lp64 h)) (descOf h) h mdata first) {r : Int}
    (hr : r = revInvalidated first (nbCreations w.mem)) :
    (exec (machine B) t p w).1 = revUpdated r ∧
      nbCreations (exec (machine B) t p w).2.mem = toI32 (r + 1) ∧
      (∀ e ∈ ops (machine B) t p w, Updates e.1 → nbCreations e.2.mem = r) ∧
      ∃ e ∈ ops (machine B) t p w, Updates e.1 := by
  rw [createPublish_eq] at hp
  subst hp
  obtain ⟨m₁, he₁, hr₁, -⟩ := exec_invalidateSection (B := B) (t := t) (w := w) first
  -- the revision between the two updates
  have hkeep : ∀ (o : Op) (u : World Ω), KeepsRevision o → nbCreations u.mem = r →
      nbCreations ((machine B).step t o u).1.mem = r ∧ Computes o ((machine B).step t o u).2 :=
    fun o u ho hu => ⟨(step_keepsRevision hB ho u).trans hu, step_computes o u⟩
  have hinv : nbCreations (exec (machine B) t (syncInvalidateSection 40 first) w).2.mem = r := by
    rw [he₁, hr]
    exact hr₁
  have hwrites := createWrites_keepsRevision hs mdata
  have hmid := (exec_ensures (machine B) t hkeep hwrites hinv).2
  obtain ⟨m₂, he₂, hr₂, -⟩ := exec_updateGlobalRevisionNb (B := B) (t := t)
    (w := (exec (machine B) t (createWrites h mdata)
      (exec (machine B) t (syncInvalidateSection 40 first) w).2).2)
  rw [hmid] at he₂ hr₂
  refine ⟨?_, ?_, ?_, ?_⟩
  · rw [exec_bind, exec_bind, he₂]
  · rw [exec_bind, exec_bind, he₂]
    exact hr₂
  · intro e he hup
    rw [mem_ops_bind, mem_ops_bind] at he
    rcases he with he | he | he
    · cases first with
      | true =>
        obtain rfl := List.mem_singleton.mp he
        exact absurd hup id
      | false =>
        obtain rfl := List.mem_singleton.mp he
        exact absurd hup id
    · exact (ops_ensures (machine B) t hkeep hwrites hinv e he).2
    · rw [ops_updateGlobalRevisionNb _ e he hup]
      exact hmid
  · obtain ⟨e, he, hup⟩ := updates_mem (B := B) (t := t) (exec (machine B) t (createWrites h mdata)
      (exec (machine B) t (syncInvalidateSection 40 first) w).2).2
    refine ⟨e, ?_, hup⟩
    rw [mem_ops_bind, mem_ops_bind]
    exact Or.inr (Or.inr he)

/-! ## The whole of `shd_create` -/

/-- A revision that a creation keeps odd and leaves even. -/
def Raises (first : Bool) (v : Int) : Prop :=
  first = true ∨ (v % 2 = 0 ∧ -2 ≤ v ∧ v ≤ 2147483644)

theorem isI32_nbCreations (m : Mem) : IsI32 (nbCreations m) := Mem.isI32_i32 m 40

/-- The second update succeeds on an even number that is not negative. -/
theorem revUpdated_nonneg (r : Int) :
    0 ≤ revUpdated r ↔ toI32 (r + 1) % 2 = 0 ∧ 0 ≤ toI32 (r + 1) := by
  unfold revUpdated
  generalize toI32 (r + 1) = n
  split
  · rename_i hodd
    have hfault : ¬ (0 : Int) ≤ -EFAULT := by decide
    exact iff_of_false hfault fun h => hodd (Int.tmod_eq_zero_of_dvd (Int.dvd_of_emod_eq_zero h.1))
  · rename_i heven
    exact ⟨fun h => ⟨Int.emod_eq_zero_of_dvd (Int.dvd_of_tmod_eq_zero (not_not.mp heven)), h⟩, And.right⟩

/-- The two updates of a revision. -/
theorem raises_iff {first : Bool} {v r : Int} (hv : IsI32 v) (hr : r = revInvalidated first v) :
    (0 ≤ revUpdated r ∧ toI32 (r + 1) % 2 = 0 ∧ r % 2 = 1) ↔ Raises first v := by
  obtain ⟨h0, h1⟩ := hv
  rw [revUpdated_nonneg, hr]
  cases first with
  | true => exact iff_of_true (by simp [revInvalidated, toI32]) (Or.inl rfl)
  | false =>
    have hinv : revInvalidated false v = toI32 (v + 1) := rfl
    have hraises : Raises false v ↔ v % 2 = 0 ∧ -2 ≤ v ∧ v ≤ 2147483644 := by simp [Raises]
    rw [hinv, hraises]
    unfold toI32
    omega

/-- The writing part and the unlock. -/
theorem createWith_iff (hB : B.Faithful) (hs : SafeHdr h) {mdata : List UInt8}
    {env : Option String} {c : CreateResult} {m : CtxMmap} {a : CtxAllocs}
    (ha : m.allocs = some a) (hparts : m.parts = some (getMmap (getOffsets lp64 h), descOf h))
    (hok : BackendOk B t (createWith h mdata env c m) w) :
    Renews B t (createWith h mdata env c m) w ↔ Raises c.firstCreation (nbCreations w.mem) := by
  obtain ⟨r, hr⟩ : ∃ r, r = revInvalidated c.firstCreation (nbCreations w.mem) := ⟨_, rfl⟩
  obtain ⟨hret, hrev, hodd, e₀, he₀, hup₀⟩ := createPublish_rev (t := t) hB hs mdata
    c.firstCreation w rfl hr
  rw [createWith, ha, hparts] at hok ⊢
  dsimp only at hok ⊢
  obtain ⟨-, hok⟩ := hok.bind
  rw [hret] at hok
  rw [← raises_iff (isI32_nbCreations w.mem) hr]
  by_cases hneg : revUpdated r < 0
  · refine iff_of_false (not_renews ?_) fun h => absurd h.1 (not_le.mpr hneg)
    rw [exec_bind, hret, if_pos hneg, exec_createError]
  rw [if_neg hneg] at hok
  have hunlock : ¬ (exec (machine B) t (sectionUnlock c.inst) (exec (machine B) t (createPublish
      (getMmap (getOffsets lp64 h)) (descOf h) h mdata c.firstCreation) w).2).1 < 0 :=
    not_lt.mpr hok.bind.1.call
  have hmem : (exec (machine B) t (sectionUnlock c.inst) (exec (machine B) t (createPublish
      (getMmap (getOffsets lp64 h)) (descOf h) h mdata c.firstCreation) w).2).2.mem = _ :=
    hB.mem t (.unlock c.inst) _ (by simp) (by simp)
  constructor
  · rintro ⟨-, heven, hops⟩
    rw [exec_bind, hret, if_neg hneg, exec_bind, if_neg hunlock, exec_pure, hmem, hrev] at heven
    refine ⟨not_lt.mp hneg, heven, ?_⟩
    rw [← hodd e₀ he₀ hup₀]
    exact hops e₀ ((mem_ops_bind _ _).mpr (Or.inl he₀)) hup₀
  · rintro ⟨-, heven, hr1⟩
    refine ⟨?_, ?_, fun e he hup => ?_⟩
    · rw [exec_bind, hret, if_neg hneg, exec_bind, if_neg hunlock]
      rfl
    · rw [exec_bind, hret, if_neg hneg, exec_bind, if_neg hunlock, exec_pure, hmem, hrev]
      exact heven
    · rcases (mem_ops_bind _ _).mp he with he | he
      · rw [hodd e he hup]
        exact hr1
      · rw [hret, if_neg hneg] at he
        rcases (mem_ops_bind _ _).mp he with he | he
        · obtain rfl := List.mem_singleton.mp he
          exact absurd hup id
        · rw [if_neg hunlock] at he
          exact absurd he List.not_mem_nil

/-- Without a mapping the creation fails. -/
theorem exec_createWith_none {mdata : List UInt8} {env : Option String} {c : CreateResult}
    {m : CtxMmap} (hparts : m.parts = none) (w : World Ω) :
    (exec (machine B) t (createWith h mdata env c m) w).1 = none := by
  rw [createWith, hparts]
  cases m.allocs <;> exact exec_createError _ _ _ _

/-- The mapping that a creation makes is that of its header. -/
theorem exec_ctxMmap_parts (hs : SafeHdr h) (inst : Nat) (ctx : Option CtxAllocs) (w : World Ω)
    {q : SectionMap × DataSectionDesc}
    (hq : (exec (machine B) t (ctxMmap inst ctx (some h)) w).1.parts = some q) :
    q = (getMmap (getOffsets lp64 h), descOf h) := by
  obtain ⟨map, desc⟩ := q
  obtain ⟨rfl, rfl⟩ := exec_value (machine B) t (ctxMmap_parts inst ctx h) _ map desc hq
  exact congrArg _ (desc_of_safe hs)

theorem ctxMmap_offSection (inst : Nat) (ctx : Option CtxAllocs) (h : HdrUserInfo) :
    (ctxMmap inst ctx (some h)).AllOps OffSection :=
  (ctxMmap_parts inst ctx h).mono (fun _ ho => ho) fun _ _ => trivial

/-- What follows the resize. -/
theorem createRest_iff (hB : B.Faithful) (hs : SafeHdr h) {mdata : List UInt8}
    {env : Option String} {c : CreateResult}
    (hok : BackendOk B t (createRest h mdata env c) w) :
    Renews B t (createRest h mdata env c) w ↔
      AllocsOk w.heap ∧ Raises c.firstCreation (nbCreations w.mem) := by
  have hsplit : AllocsOk w.heap ↔ (∀ i ∈ [0, 2, 3], w.heap.oom (w.heap.next + i) = false) ∧
      ∀ i ∈ [0, 1], w.heap.oom (w.heap.next + 4 + i) = false := by
    simp [AllocsOk, Nat.add_assoc, and_assoc]
  obtain ⟨hnew, hheap⟩ := exec_ctxNew (B := B) (t := t) c.inst w
  have hnewOps := Prog.AllOps.mono (fun _ => not_updates_of_offSection) (ctxNew_offSection c.inst)
  have hmmapOps : ∀ ctx, (ctxMmap c.inst ctx (some h)).AllOps fun o => ¬ Updates o :=
    fun ctx => Prog.AllOps.mono (fun _ => not_updates_of_offSection) (ctxMmap_offSection c.inst ctx h)
  obtain ⟨-, hok⟩ := hok.bind
  rw [createRest, renews_bind hnewOps, renews_bind (hmmapOps _), hsplit, ← hnew]
  cases hctx : (exec (machine B) t (ctxNew c.inst) w).1 with
  | none =>
    refine iff_of_false (not_renews (exec_createWith_none rfl _)) fun hp => ?_
    exact absurd hp.1.1 (by simp)
  | some a =>
    rw [hctx] at hok
    obtain ⟨hmmap, hok⟩ := hok.bind
    obtain ⟨hiff, hsome⟩ := exec_ctxMmap c.inst a hmmap
    obtain ⟨w₁, hw₁⟩ : ∃ w₁, (exec (machine B) t (ctxNew c.inst) w).2 = w₁ := ⟨_, rfl⟩
    have hmem₁ : w₁.mem = w.mem := by rw [← hw₁, hheap (by simp [hctx])]
    have hiff' : (∀ i ∈ [0, 1], w₁.heap.oom (w₁.heap.next + i) = false) ↔
        ∀ i ∈ [0, 1], w.heap.oom (w.heap.next + 4 + i) = false := by
      rw [← hw₁, hheap (by simp [hctx])]
    rw [hw₁] at hiff hsome hok ⊢
    rw [← hiff', ← hiff]
    have hmem₂ := exec_mem (t := t) (w := w₁) hB
      (Prog.AllOps.mono (fun _ => keepsMem_of_offSection) (ctxMmap_offSection c.inst (some a) h))
    have hmap : ∀ q, (exec (machine B) t (ctxMmap c.inst (some a) (some h)) w₁).1.parts = some q →
        q = (getMmap (getOffsets lp64 h), descOf h) :=
      fun q hq => exec_ctxMmap_parts hs c.inst (some a) w₁ hq
    obtain ⟨⟨m, w₂⟩, hm⟩ : ∃ r, exec (machine B) t (ctxMmap c.inst (some a) (some h)) w₁ = r :=
      ⟨_, rfl⟩
    rw [hm] at hsome hok hmap hmem₂ ⊢
    dsimp only at hsome hok hmap hmem₂ ⊢
    cases hparts : m.parts with
    | none =>
      refine iff_of_false (not_renews (exec_createWith_none hparts _)) fun hp => ?_
      exact absurd hp.1.2 (by simp)
    | some q =>
      obtain ⟨a', ha'⟩ := Option.isSome_iff_exists.mp (hsome (by rw [hparts]; rfl)).2
      rw [hmap q hparts] at hparts
      rw [createWith_iff hB hs ha' hparts hok, hmem₂, hmem₁]
      simp

/-- **A creation that runs alone** renews the revision exactly if its name is a file
name, its allocations succeed, and the section is new or holds an even revision
between -2 and 2^31 - 4. The world is any: the creations before it may have stopped
anywhere. -/
theorem create_iff (hB : B.Faithful) (hs : SafeHdr h) (t : Nat) (w : World Ω) (name : String)
    (mdata : List UInt8) (env : Option String)
    (hok : BackendOk B t (create name h mdata env) w) :
    Renews B t (create name h mdata env) w ↔ '/' ∉ name.toList ∧ AllocsOk w.heap ∧
      Raises (found B t name h w).1.firstCreation (nbCreations (found B t name h w).2.mem) := by
  rw [create_eq] at hok ⊢
  by_cases hname : '/' ∈ name.toList
  · refine iff_of_false (not_renews ?_) fun hp => hp.1 hname
    rw [exec_bind, exec_sectionCreate_slash hname]
    exact exec_createError _ _ _ _
  obtain ⟨hcreate, hok⟩ := hok.bind
  have hret := sectionCreate_ret hname hcreate
  rw [if_neg (not_lt.mpr hret)] at hok
  obtain ⟨hlock, hok⟩ := hok.bind
  have hlocked : 0 ≤ (exec (machine B) t (sectionLock _) _).1 := hlock.call
  rw [if_neg (not_lt.mpr hlocked)] at hok
  obtain ⟨hresize, hok⟩ := hok.bind
  have hresized : 0 ≤ (exec (machine B) t (sectionResize _) _).1 := hresize.call
  rw [if_neg (not_lt.mpr hresized)] at hok
  rw [renews_bind (Prog.AllOps.mono (fun _ => not_updates_of_call) (sectionCreate_calls name _)),
    if_neg (not_lt.mpr hret), renews_bind (sectionLock_not_updates _),
    if_neg (not_lt.mpr hlocked), renews_bind (sectionResize_not_updates _), if_neg (not_lt.mpr hresized),
    createRest_iff hB hs hok, ← found_heap (B := B) (t := t) name h w]
  simp only [hname, not_false_eq_true, true_and, found, createSection, exec_bind, exec_pure]

/-! ## A creation that stopped -/

/-- No call fails on memory at a fixed place that can be opened and mapped. -/
theorem raw_backendOk {α : Type} (t : Nat) (p : ShdProg α) (w : World Unit) :
    BackendOk (raw fun _ _ => none) t p w := by
  rintro ⟨o, u⟩ -
  cases o with
  | backend c => cases c <;> exact le_refl (0 : Int)
  | _ => trivial

/-- A creation at a fixed place where memory reads as zero. It stops for good after
`n` operations. -/
def halted (n : Nat) : World Unit :=
  (({ st := ⟨fun _ => 0, ⟨0, fun _ => false, []⟩, ()⟩
      pool := fun _ => create "section" ⟨4, 2, 1, 0⟩ [] none } :
    Config Op.Resp Nat (World Unit) (Option ShdCtx)).run
      (machine (raw fun _ _ => none)) (List.replicate n 0)).st

/-- One that stopped before its first update of the revision. -/
theorem create_after_mapping :
    Renews (raw fun _ _ => none) 1 (create "section" ⟨4, 2, 1, 0⟩ [] none) (halted 11) :=
  (create_iff (raw_faithful _) ⟨by decide, by decide⟩ 1 (halted 11) "section" [] none
    (raw_backendOk _ _ _)).mpr ⟨by decide, by decide +kernel, Or.inr (by decide +kernel)⟩

/-- One that stopped after it: the next creation makes the revision even while it
writes, and returns NULL. -/
theorem interrupted_fails :
    BackendOk (raw fun _ _ => none) 1 (create "section" ⟨4, 2, 1, 0⟩ [] none) (halted 12) ∧
      nbCreations (halted 12).mem = 1 ∧
      ¬ Renews (raw fun _ _ => none) 1 (create "section" ⟨4, 2, 1, 0⟩ [] none) (halted 12) := by
  have hnone : (exec (machine (raw fun _ _ => none)) 1 (create "section" ⟨4, 2, 1, 0⟩ [] none)
      (halted 12)).1 = none := by decide +kernel
  exact ⟨raw_backendOk _ _ _, by decide +kernel, not_renews hnone⟩

end Shdata.Revision
