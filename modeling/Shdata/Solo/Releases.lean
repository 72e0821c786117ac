/-
Shdata.Solo.Releases — what a failed `shd_create` or `shd_open` gives back.

The two functions obtain an instance of the backend, a synchronization
context and a window. An `Account` lists what the trace of a call obtained
and what it gave back, in order; a failed call should leave them equal.
Traces are those of `Shdata.Conc.Trace`: the answers of the callbacks, of the
allocator and of the section are any, so the results hold for every backend,
alone or beside other threads.

The exits go wrong in four places. The instance is closed by the context that
owns it, or by `shd_create` if its last return code was not negative. After
a refused lock nobody closes it, nor after a failed allocation of the
context. After a bad revision number both do. And `shd_ctx_new` frees the
synchronization context itself before it destroys a context that still
points to it. `released_iff` says that these are all.
-/
import Shdata.Conc.Trace
import Shdata.Backend.Shm

namespace Shdata.Solo

open Shdata.Conc Shdata.Bytes Shdata.Core

/-! ## Accounts -/

/-- The instance that an operation obtained. -/
def opened : Event Op.Resp → Option Nat
  | ⟨.backend (.create _ _), r⟩ => if 0 ≤ r.ret then some r.inst else none
  | ⟨.backend (.openSection _), r⟩ => if 0 ≤ r.ret then some r.inst else none
  | _ => none

/-- The instance that an operation closed. -/
def closed : Event Op.Resp → Option Nat
  | ⟨.backend (.close inst), _⟩ => some inst
  | _ => none

/-- The block that an operation allocated for `what`. -/
def allocated (what : Alloc) : Event Op.Resp → Option Nat
  | ⟨.calloc what', p⟩ => if what' = what then p else none
  | _ => none

/-- The block for `what` that an operation freed. -/
def freed (what : Alloc) : Event Op.Resp → Option Nat
  | ⟨.free what' p, _⟩ => if what' = what then p else none
  | _ => none

/-- What a trace obtained and what it gave back. -/
@[ext] structure Account where
  opened : List Nat
  closed : List Nat
  syncCtx : List Nat
  syncCtxFreed : List Nat
  window : List Nat
  windowFreed : List Nat
  deriving DecidableEq

namespace Account

instance : Append Account where
  append a b := ⟨a.opened ++ b.opened, a.closed ++ b.closed, a.syncCtx ++ b.syncCtx,
    a.syncCtxFreed ++ b.syncCtxFreed, a.window ++ b.window, a.windowFreed ++ b.windowFreed⟩

theorem append_def (a b : Account) :
    a ++ b = ⟨a.opened ++ b.opened, a.closed ++ b.closed, a.syncCtx ++ b.syncCtx,
      a.syncCtxFreed ++ b.syncCtxFreed, a.window ++ b.window, a.windowFreed ++ b.windowFreed⟩ := rfl

/-- Nothing obtained, nothing given back. -/
def empty : Account := ⟨[], [], [], [], [], []⟩

@[simp] theorem empty_append (a : Account) : empty ++ a = a := rfl

@[simp] theorem append_empty (a : Account) : a ++ empty = a := by
  simp [append_def, empty]

theorem append_assoc (a b c : Account) : a ++ b ++ c = a ++ (b ++ c) := by
  simp [append_def]

/-- An instance obtained. -/
def openedInst (inst : Nat) : Account := ⟨[inst], [], [], [], [], []⟩

/-- An instance closed. -/
def closedInst (inst : Nat) : Account := ⟨[], [inst], [], [], [], []⟩

/-- The blocks of a context that `shd_ctx_new` returned. -/
def allocatedCtx (a : CtxAllocs) : Account := ⟨[], [], a.syncCtx.toList, [], a.window.toList, []⟩

/-- A context destroyed, with the instance it owns. -/
def destroyed (inst : Nat) (a : CtxAllocs) : Account :=
  ⟨[], [inst], [], a.syncCtx.toList, [], a.window.toList⟩

/-- Everything that was obtained was given back, once. -/
structure Balanced (a : Account) : Prop where
  inst : a.closed = a.opened
  syncCtx : a.syncCtxFreed = a.syncCtx
  window : a.windowFreed = a.window

instance (a : Account) : Decidable a.Balanced :=
  decidable_of_iff (a.closed = a.opened ∧ a.syncCtxFreed = a.syncCtx ∧ a.windowFreed = a.window)
    ⟨fun h => ⟨h.1, h.2.1, h.2.2⟩, fun h => ⟨h.inst, h.syncCtx, h.window⟩⟩

theorem balanced_empty : empty.Balanced := ⟨rfl, rfl, rfl⟩

theorem balanced_closed (inst : Nat) : (openedInst inst ++ closedInst inst).Balanced :=
  ⟨rfl, rfl, rfl⟩

/-- A context that is destroyed gives back its blocks and the instance. -/
theorem balanced_destroyed (inst : Nat) (a : CtxAllocs) :
    (openedInst inst ++ (allocatedCtx a ++ destroyed inst a)).Balanced := by
  constructor <;> simp [append_def, openedInst, allocatedCtx, destroyed]

/-- An instance that nobody closes. -/
theorem not_balanced_opened (inst : Nat) : ¬ (openedInst inst).Balanced :=
  fun h => absurd h.inst (by simp [openedInst])

/-- An instance that is closed twice. -/
theorem not_balanced_twice (inst : Nat) (a : CtxAllocs) :
    ¬ (openedInst inst ++ (allocatedCtx a ++ (destroyed inst a ++ closedInst inst))).Balanced :=
  fun h => absurd h.inst (by simp [append_def, openedInst, allocatedCtx, destroyed, closedInst])

end Account

/-- The account of a trace. -/
def account (tr : List (Event Op.Resp)) : Account where
  opened := tr.filterMap opened
  closed := tr.filterMap closed
  syncCtx := tr.filterMap (allocated .syncCtx)
  syncCtxFreed := tr.filterMap (freed .syncCtx)
  window := tr.filterMap (allocated .window)
  windowFreed := tr.filterMap (freed .window)

theorem account_append (tr tr' : List (Event Op.Resp)) :
    account (tr ++ tr') = account tr ++ account tr' := by
  simp [account, Account.append_def]

theorem account_cons (e : Event Op.Resp) (tr : List (Event Op.Resp)) :
    account (e :: tr) = account [e] ++ account tr := account_append [e] tr

@[simp] theorem account_nil : account [] = Account.empty := rfl

/-! ## Answers -/

/-- An answer after which the exits are right: the lock is taken, the context and its
window are allocated, the revision number that a creation leaves is even and
not negative. -/
def GoodAnswer : Event Op.Resp → Prop
  | ⟨.backend (.lock _), r⟩ => 0 ≤ r
  | ⟨.calloc .ctx, p⟩ => p ≠ none
  | ⟨.calloc .window, p⟩ => p ≠ none
  | ⟨.addAndFetch .updateGlobalRevisionNb _ _, n⟩ => Int.tmod n 2 = 0
  | ⟨.read .updateGlobalRevisionNb _ _, bs⟩ => 0 ≤ decI32 bs
  | _ => True

/-- All answers of a trace. -/
def Answered (tr : List (Event Op.Resp)) : Prop := ∀ e ∈ tr, GoodAnswer e

theorem answered_append {tr tr' : List (Event Op.Resp)} :
    Answered (tr ++ tr') ↔ Answered tr ∧ Answered tr' :=
  List.forall_mem_append

@[simp] theorem answered_nil : Answered [] := fun _ he => absurd he List.not_mem_nil

@[simp] theorem answered_cons {e : Event Op.Resp} {tr : List (Event Op.Resp)} :
    Answered (e :: tr) ↔ GoodAnswer e ∧ Answered tr :=
  List.forall_mem_cons

/-! ## Operations that do not count -/

/-- An operation that obtains and gives back nothing of interest, and whose answer is
always good. -/
def Aside : Op → Prop
  | .read .updateGlobalRevisionNb _ _ | .addAndFetch .updateGlobalRevisionNb _ _ => False
  | .read _ _ _ | .write _ _ _ | .addAndFetch _ _ _ | .samplePtr _ _ => True
  | .calloc what => what ≠ .ctx ∧ what ≠ .syncCtx ∧ what ≠ .window
  | .free what _ => what ≠ .syncCtx ∧ what ≠ .window
  | .backend (.create _ _) | .backend (.openSection _) | .backend (.close _)
  | .backend (.lock _) => False
  | .backend _ => True

/-- An event that leaves the account as it is. -/
structure Uncounted (e : Event Op.Resp) : Prop where
  opened : opened e = none
  closed : closed e = none
  syncCtx : allocated .syncCtx e = none
  syncCtxFreed : freed .syncCtx e = none
  window : allocated .window e = none
  windowFreed : freed .window e = none

theorem Aside.event {o : Op} (h : Aside o) (r : o.Resp) :
    Uncounted ⟨o, r⟩ ∧ GoodAnswer ⟨o, r⟩ := by
  cases o with
  | read site a len =>
    cases site <;> first | exact absurd h id | exact ⟨⟨rfl, rfl, rfl, rfl, rfl, rfl⟩, trivial⟩
  | write site a src => exact ⟨⟨rfl, rfl, rfl, rfl, rfl, rfl⟩, trivial⟩
  | addAndFetch site a v =>
    cases site <;> first | exact absurd h id | exact ⟨⟨rfl, rfl, rfl, rfl, rfl, rfl⟩, trivial⟩
  | samplePtr desc i => exact ⟨⟨rfl, rfl, rfl, rfl, rfl, rfl⟩, trivial⟩
  | calloc what =>
    obtain ⟨hctx, hsync, hwindow⟩ := h
    refine ⟨⟨rfl, rfl, if_neg hsync, rfl, if_neg hwindow, rfl⟩, ?_⟩
    cases what <;> first | exact absurd rfl hctx | exact absurd rfl hwindow | trivial
  | free what p =>
    exact ⟨⟨rfl, rfl, rfl, if_neg h.1, rfl, if_neg h.2⟩, trivial⟩
  | backend c =>
    cases c <;> first | exact absurd h id | exact ⟨⟨rfl, rfl, rfl, rfl, rfl, rfl⟩, trivial⟩

/-- A program of such operations. -/
theorem aside_yields {α : Type} {p : ShdProg α} (hp : p.AllOps Aside) {tr : List (Event Op.Resp)} {r : α}
    (hy : p.Yields tr r) : account tr = .empty ∧ Answered tr := by
  obtain ⟨-, hops⟩ := hp.yields hy fun _ _ => trivial
  have hall : ∀ e ∈ tr, Uncounted e ∧ GoodAnswer e := fun e he => (hops e he).event e.2
  refine ⟨?_, fun e he => (hall e he).2⟩
  simp only [account, Account.empty, Account.mk.injEq, List.filterMap_eq_nil_iff]
  exact ⟨fun e he => (hall e he).1.opened, fun e he => (hall e he).1.closed,
    fun e he => (hall e he).1.syncCtx, fun e he => (hall e he).1.syncCtxFreed,
    fun e he => (hall e he).1.window, fun e he => (hall e he).1.windowFreed⟩

theorem sectionMap_aside (inst : Nat) (h : HdrUserInfo) : (sectionMap inst h).AllOps Aside := by
  refine Prog.ensures_perform trivial fun ret _ => ?_
  split
  · exact trivial
  · exact ⟨⟨by decide, by decide, by decide⟩, fun _ _ => trivial⟩

theorem sectionMappingNew_aside (inst : Nat) (h : Option HdrUserInfo) :
    (sectionMappingNew inst h).AllOps Aside := by
  cases h with
  | some h => exact sectionMap_aside inst h
  | none =>
    refine Prog.AllOps.bind (Prog.ensures_perform trivial fun r _ => ?_) fun r => ?_
    · dsimp only
      split
      · exact trivial
      · split <;> exact trivial
    · split
      · exact trivial
      · exact sectionMap_aside inst _

theorem dataSectionDescNew_aside (map : SectionMap) (h : Option HdrUserInfo) :
    (dataSectionDescNew map h).AllOps Aside := by
  refine Prog.ensures_perform ⟨by decide, by decide, by decide⟩ fun p _ => ?_
  cases p with
  | none => exact trivial
  | some p =>
    cases h with
    | some h => exact trivial
    | none => exact ⟨trivial, fun _ _ => ⟨trivial, fun _ _ => trivial⟩⟩

theorem dataClearLoop_aside (d : DataSectionDesc) (n : Nat) (i : Int) :
    (dataClearLoop d n i).AllOps Aside := by
  induction n generalizing i with
  | zero => exact trivial
  | succ n ih => exact ⟨trivial, fun _ _ => ⟨trivial, fun _ _ => ih (i + 1)⟩⟩

theorem invalidateSection_aside (hdr : Int) (first : Bool) :
    (syncInvalidateSection hdr first).AllOps Aside := by
  cases first with
  | true => exact ⟨trivial, fun _ _ => trivial⟩
  | false => exact ⟨trivial, fun _ _ => trivial⟩

theorem hdrWrite_aside (hdr : Int) (h : HdrUserInfo) : (hdrWrite hdr h).AllOps Aside := by
  refine Prog.ensures_perform trivial fun old _ => ?_
  refine Prog.AllOps.bind (p := if old ≠ encHdrUserInfo h then _ else _) ?_ fun _ => ?_
  · split
    · exact ⟨trivial, fun _ _ => trivial⟩
    · exact trivial
  · exact ⟨trivial, fun _ _ => ⟨trivial, fun _ _ => ⟨trivial, fun _ _ => ⟨trivial, fun _ _ =>
      ⟨trivial, fun _ _ => trivial⟩⟩⟩⟩⟩

theorem mdataHdrWrite_aside (a : Int) (src : List UInt8) (n : Nat) :
    (mdataHdrWrite a src n).AllOps Aside := by
  refine Prog.ensures_perform trivial fun old _ => ?_
  split
  · exact ⟨trivial, fun _ _ => trivial⟩
  · exact trivial

/-- Operations that do not count, at the start of a program. -/
theorem aside_bind {α β : Type} {p : ShdProg α} {f : α → ShdProg β} (hp : p.AllOps Aside)
    {tr : List (Event Op.Resp)} {r : β} (hy : (p >>= f).Yields tr r) :
    ∃ a tr', (f a).Yields tr' r ∧ account tr = account tr' ∧ (Answered tr ↔ Answered tr') := by
  obtain ⟨tr₁, a, tr₂, h₁, h₂, rfl⟩ := Prog.yields_bind.mp hy
  obtain ⟨hacc, hans⟩ := aside_yields hp h₁
  refine ⟨a, tr₂, h₂, ?_, ?_⟩
  · rw [account_append, hacc, Account.empty_append]
  · rw [answered_append, and_iff_right hans]

/-! ## Parts of the two calls -/

/-- The revision number that a creation leaves is negative exactly if an answer was
bad. -/
theorem updateGlobalRevisionNb_yields {hdr : Int} {tr : List (Event Op.Resp)} {n : Int}
    (hy : (syncUpdateGlobalRevisionNb hdr).Yields tr n) :
    account tr = .empty ∧ (Answered tr ↔ 0 ≤ n) := by
  obtain ⟨v, tr', rfl, hstep⟩ := Prog.yields_perform.mp hy
  have hgood : GoodAnswer ⟨.addAndFetch .updateGlobalRevisionNb hdr 1, v⟩ ↔ Int.tmod v 2 = 0 :=
    Iff.rfl
  by_cases hodd : Int.tmod v 2 ≠ 0
  · rw [if_pos hodd] at hstep
    obtain ⟨rfl, rfl⟩ := hstep
    refine ⟨rfl, ?_⟩
    rw [answered_cons, hgood]
    exact iff_of_false (fun h => hodd h.1) (by decide)
  · rw [if_neg hodd] at hstep
    obtain ⟨bs, tr', rfl, rfl, rfl⟩ := hstep
    refine ⟨rfl, ?_⟩
    rw [answered_cons, answered_cons, hgood]
    exact ⟨fun h => h.2.1, fun h => ⟨not_not.mp hodd, h, answered_nil⟩⟩

theorem createPublish_yields {map : SectionMap} {d : DataSectionDesc} {h : HdrUserInfo}
    {mdata : List UInt8} {first : Bool} {tr : List (Event Op.Resp)} {n : Int}
    (hy : (createPublish map d h mdata first).Yields tr n) :
    account tr = .empty ∧ (Answered tr ↔ 0 ≤ n) := by
  obtain ⟨_, tr₁, h₁, ha₁, hg₁⟩ := aside_bind (invalidateSection_aside _ _) hy
  obtain ⟨_, tr₂, h₂, ha₂, hg₂⟩ := aside_bind (hdrWrite_aside _ _) h₁
  obtain ⟨_, tr₃, h₃, ha₃, hg₃⟩ := aside_bind (mdataHdrWrite_aside _ _ _) h₂
  have hclear : (dataClearSection d).AllOps Aside := ⟨trivial, fun _ _ => dataClearLoop_aside _ _ _⟩
  obtain ⟨_, tr₄, h₄, ha₄, hg₄⟩ := aside_bind hclear h₃
  rw [ha₁, ha₂, ha₃, ha₄, hg₁, hg₂, hg₃, hg₄]
  exact updateGlobalRevisionNb_yields h₄

theorem ctxDestroy_yields {inst : Nat} {a : CtxAllocs} {tr : List (Event Op.Resp)} {u : Unit}
    (hy : (ctxDestroy inst (some a)).Yields tr u) :
    account tr = .destroyed inst a ∧ Answered tr := by
  obtain ⟨_, _, rfl, _, _, rfl, _, _, rfl, _, _, rfl, _, _, rfl, _, _, rfl, _, _, rfl, rfl, rfl⟩ := hy
  refine ⟨?_, by simp [GoodAnswer]⟩
  obtain ⟨ctx, name, sync, window, map, desc⟩ := a
  cases sync <;> cases window <;> rfl

/-- The error exit of `shd_ctx_new` frees the blocks, and then destroys a context that
still points to them. -/
theorem ctxNewError_yields {inst : Nat} {a : CtxAllocs} {tr : List (Event Op.Resp)}
    {r : Option CtxAllocs} (hy : (ctxNewError inst a).Yields tr r) :
    r = none ∧ Answered tr ∧
      account tr = ⟨[], [], [], a.syncCtx.toList, [], a.window.toList⟩ ++ .destroyed inst a := by
  obtain ⟨_, _, rfl, hfreed⟩ := Prog.yields_perform.mp hy
  obtain ⟨_, _, rfl, hrest⟩ := Prog.yields_perform.mp hfreed
  obtain ⟨tr₁, _, tr₂, hd, ⟨rfl, rfl⟩, rfl⟩ := Prog.yields_bind.mp hrest
  obtain ⟨hacc, hans⟩ := ctxDestroy_yields hd
  refine ⟨rfl, ?_, ?_⟩
  · simp [GoodAnswer, hans]
  · have hfree : account [⟨.free .syncCtx a.syncCtx, ()⟩, ⟨.free .window a.window, ()⟩]
        = ⟨[], [], [], a.syncCtx.toList, [], a.window.toList⟩ := by
      obtain ⟨ctx, name, sync, window, map, desc⟩ := a
      cases sync <;> cases window <;> rfl
    rw [List.append_nil, ← hacc, ← hfree, ← account_append]
    rfl

/-- `shd_ctx_new` for an instance that was just obtained: a context holds its blocks,
and a failure is right exactly if the answers were good. -/
theorem ctxNew_yields {inst : Nat} {tr : List (Event Op.Resp)} {r : Option CtxAllocs}
    (hy : (ctxNew inst).Yields tr r) :
    (∃ a, r = some a ∧ Answered tr ∧ account tr = .allocatedCtx a) ∨
      (r = none ∧ ((Account.openedInst inst ++ account tr).Balanced ↔ Answered tr)) := by
  obtain ⟨ctx, _, rfl, hctx⟩ := Prog.yields_perform.mp hy
  cases ctx with
  | none =>
    obtain ⟨rfl, rfl⟩ := hctx
    refine Or.inr ⟨rfl, iff_of_false (Account.not_balanced_opened inst) fun h => ?_⟩
    exact absurd rfl (h _ List.mem_cons_self)
  | some c =>
    obtain ⟨name, _, rfl, hname⟩ := Prog.yields_perform.mp hctx
    obtain ⟨sync, rest, rfl, hsync⟩ := Prog.yields_perform.mp hname
    dsimp only at hsync
    cases sync with
    | none =>
      rw [if_pos rfl] at hsync
      obtain ⟨rfl, hans, hacc⟩ := ctxNewError_yields hsync
      refine Or.inr ⟨rfl, iff_of_true ?_ (by simp [GoodAnswer, hans])⟩
      have hsplit := account_append
        [⟨.calloc .ctx, some c⟩, ⟨.calloc .blobName, name⟩, ⟨.calloc .syncCtx, none⟩] rest
      rw [hacc] at hsplit
      exact hsplit ▸ ⟨rfl, rfl, rfl⟩
    | some p =>
      rw [if_neg (by simp)] at hsync
      obtain ⟨window, rest', rfl, hwindow⟩ := Prog.yields_perform.mp hsync
      cases window with
      | none =>
        rw [if_pos rfl] at hwindow
        obtain ⟨rfl, hans, hacc⟩ := ctxNewError_yields hwindow
        refine Or.inr ⟨rfl, iff_of_false (fun h => ?_) fun h => ?_⟩
        · have hsplit := account_append [⟨.calloc .ctx, some c⟩, ⟨.calloc .blobName, name⟩,
            ⟨.calloc .syncCtx, some p⟩, ⟨.calloc .window, none⟩] rest'
          rw [hacc] at hsplit
          change account (_ :: _ :: _ :: _ :: rest') = _ at hsplit
          rw [hsplit] at h
          have htwice : [p, p] = [p] := h.syncCtx
          exact absurd htwice (by simp)
        · exact absurd rfl (h ⟨.calloc .window, none⟩ (by simp))
      | some q =>
        rw [if_neg (by simp)] at hwindow
        obtain ⟨rfl, rfl⟩ := hwindow
        exact Or.inl ⟨_, rfl, by simp [GoodAnswer], rfl⟩

/-- `shd_ctx_mmap` fails, or the context has a mapping; its blocks of interest are
those it had. -/
theorem ctxMmap_yields {inst : Nat} {a : CtxAllocs} {h : Option HdrUserInfo}
    {tr : List (Event Op.Resp)} {m : CtxMmap} (hy : (ctxMmap inst (some a) h).Yields tr m) :
    account tr = .empty ∧ Answered tr ∧
      ∃ a', m.allocs = some a' ∧ a'.syncCtx = a.syncCtx ∧ a'.window = a.window ∧
        (m.parts = none ∧ m.ret < 0 ∨ m.parts ≠ none ∧ 0 ≤ m.ret) := by
  obtain ⟨map, tr₁, h₁, ha₁, hg₁⟩ := aside_bind (sectionMappingNew_aside inst h) hy
  rw [ha₁, hg₁]
  cases map with
  | none =>
    obtain ⟨rfl, rfl⟩ := h₁
    exact ⟨rfl, answered_nil, a, rfl, rfl, rfl, Or.inl ⟨rfl, show -EFAULT < 0 by decide⟩⟩
  | some q =>
    obtain ⟨desc, tr₂, h₂, ha₂, hg₂⟩ := aside_bind (dataSectionDescNew_aside q.2 h) h₁
    rw [ha₂, hg₂]
    cases desc with
    | none =>
      obtain ⟨rfl, rfl⟩ := h₂
      exact ⟨rfl, answered_nil, _, rfl, rfl, rfl, Or.inl ⟨rfl, show -EFAULT < 0 by decide⟩⟩
    | some q' =>
      obtain ⟨rfl, rfl⟩ := h₂
      exact ⟨rfl, answered_nil, _, rfl, rfl, rfl, Or.inr ⟨by simp, le_refl 0⟩⟩

/-- The context that an error exit destroys, if there is one. -/
def destroyedIf (inst : Nat) : Option CtxAllocs → Account
  | none => .empty
  | some a => .destroyed inst a

theorem ctxDestroy_any {inst : Nat} {ctx : Option CtxAllocs} {tr : List (Event Op.Resp)} {u : Unit}
    (hy : (ctxDestroy inst ctx).Yields tr u) : account tr = destroyedIf inst ctx ∧ Answered tr := by
  cases ctx with
  | none =>
    obtain ⟨rfl, -⟩ := hy
    exact ⟨rfl, answered_nil⟩
  | some a => exact ctxDestroy_yields hy

/-- The exit of `shd_create` closes the instance itself if the last code was not
negative. -/
theorem createError_yields {inst : Nat} {ret : Int} {ctx : Option CtxAllocs}
    {tr : List (Event Op.Resp)} {r : Option ShdCtx} (hy : (createError inst ret ctx).Yields tr r) :
    Answered tr ∧ account tr = destroyedIf inst ctx ++ if 0 ≤ ret then .closedInst inst else .empty := by
  obtain ⟨tr₁, _, tr₂, h₁, h₂, rfl⟩ := Prog.yields_bind.mp hy
  obtain ⟨hacc, hans⟩ := ctxDestroy_any h₁
  rw [answered_append, account_append, hacc]
  by_cases hret : 0 ≤ ret
  · rw [if_pos (show ret ≥ 0 from hret)] at h₂
    obtain ⟨_, _, rfl, rfl, rfl⟩ := h₂
    rw [if_pos hret]
    exact ⟨⟨hans, by simp [GoodAnswer]⟩, rfl⟩
  · rw [if_neg (show ¬ ret ≥ 0 from hret)] at h₂
    obtain ⟨rfl, rfl⟩ := h₂
    rw [if_neg hret]
    exact ⟨⟨hans, answered_nil⟩, rfl⟩

theorem openError_yields {inst : Nat} {rev : Option Nat} {ctx : Option CtxAllocs}
    {tr : List (Event Op.Resp)} {r : Option (ShdCtx × Int)} (hy : (openError inst rev ctx).Yields tr r) :
    Answered tr ∧ account tr = destroyedIf inst ctx := by
  obtain ⟨_, tr₁, rfl, h₁⟩ := Prog.yields_perform.mp hy
  obtain ⟨tr₂, _, tr₃, h₂, ⟨rfl, rfl⟩, rfl⟩ := Prog.yields_bind.mp h₁
  obtain ⟨hacc, hans⟩ := ctxDestroy_any h₂
  rw [List.append_nil, account_cons, hacc, answered_cons]
  exact ⟨⟨trivial, hans⟩, rfl⟩

/-- The instance of a backend, if it was obtained. -/
def openedIf (ret : Int) (inst : Nat) : Account := if 0 ≤ ret then .openedInst inst else .empty

theorem initSectionInfos_aside (name : String) : (initSectionInfos name).AllOps Aside := by
  unfold initSectionInfos
  split
  · exact trivial
  · refine Prog.ensures_perform trivial fun ret _ => ?_
    split <;> exact trivial

theorem sectionCreate_yields {name : String} {size : Int} {tr : List (Event Op.Resp)}
    {c : CreateResult} (hy : (sectionCreate name size).Yields tr c) :
    account tr = openedIf c.ret c.inst ∧ Answered tr := by
  obtain ⟨ret, tr₁, h₁, ha, hg⟩ := aside_bind (initSectionInfos_aside name) hy
  rw [ha, hg]
  by_cases hret : ret < 0
  · rw [if_pos hret] at h₁
    obtain ⟨rfl, rfl⟩ := h₁
    exact ⟨(if_neg (not_le.mpr hret)).symm, answered_nil⟩
  · rw [if_neg hret] at h₁
    obtain ⟨r, _, rfl, rfl, rfl⟩ := h₁
    refine ⟨?_, by simp [GoodAnswer]⟩
    unfold openedIf
    by_cases hneg : 0 ≤ c.ret <;> simp [account, opened, closed, allocated, freed, hneg,
      Account.openedInst, Account.empty]

theorem sectionOpen_yields {name : String} {tr : List (Event Op.Resp)} {o : OpenResult}
    (hy : (sectionOpen name).Yields tr o) : account tr = openedIf o.ret o.inst ∧ Answered tr := by
  obtain ⟨ret, tr₁, h₁, ha, hg⟩ := aside_bind (initSectionInfos_aside name) hy
  rw [ha, hg]
  by_cases hret : ret < 0
  · rw [if_pos hret] at h₁
    obtain ⟨rfl, rfl⟩ := h₁
    exact ⟨(if_neg (not_le.mpr hret)).symm, answered_nil⟩
  · rw [if_neg hret] at h₁
    obtain ⟨r, _, rfl, rfl, rfl⟩ := h₁
    refine ⟨?_, by simp [GoodAnswer]⟩
    unfold openedIf
    by_cases hneg : 0 ≤ o.ret <;> simp [account, opened, closed, allocated, freed, hneg,
      Account.openedInst, Account.empty]

/-! ## The two calls -/

/-- `shd_ctx_mmap` without a context. -/
theorem ctxMmap_null {inst : Nat} {h : Option HdrUserInfo} {tr : List (Event Op.Resp)} {m : CtxMmap}
    (hy : (ctxMmap inst none h).Yields tr m) : tr = [] ∧ m = ⟨-EINVAL, none, none⟩ := hy

/-- `shd_create` from the allocation of its context on. -/
theorem createRest_yields {inst : Nat} {h : HdrUserInfo} {mdata : List UInt8} {first : Bool}
    {env : Option String} {tr : List (Event Op.Resp)}
    (hy : (do
      let ctx ← ctxNew inst
      let m ← ctxMmap inst ctx (some h)
      match m.allocs, m.parts with
      | some a, some (map, desc) =>
        let revNb ← createPublish map desc h mdata first
        if revNb < 0 then
          createError inst m.ret (some a)
        else
          let ret ← sectionUnlock inst
          if ret < 0 then
            createError inst ret (some a)
          else
            return some (ctxInit inst a map desc env)
      | allocs, _ => createError inst m.ret allocs : ShdProg (Option ShdCtx)).Yields tr none) :
    (Account.openedInst inst ++ account tr).Balanced ↔ Answered tr := by
  obtain ⟨tr₁, ctx, tr₂, h₁, h₂, rfl⟩ := Prog.yields_bind.mp hy
  obtain ⟨tr₃, m, tr₄, h₃, h₄, rfl⟩ := Prog.yields_bind.mp h₂
  rw [account_append, account_append, answered_append, answered_append]
  rcases ctxNew_yields h₁ with ⟨a, rfl, hans, hacc⟩ | ⟨rfl, hiff⟩
  · rw [hacc, and_iff_right hans]
    obtain ⟨hempty, hans', a', hallocs, hsync, hwindow, hparts⟩ := ctxMmap_yields h₃
    rw [hempty, and_iff_right hans', Account.empty_append]
    rw [hallocs] at h₄
    have hsame : Account.allocatedCtx a = Account.allocatedCtx a' := by
      simp only [Account.allocatedCtx, hsync, hwindow]
    rw [hsame]
    rcases hparts with ⟨hnone, hneg⟩ | ⟨hsome, hpos⟩
    · rw [hnone] at h₄
      obtain ⟨hans₄, hacc₄⟩ := createError_yields h₄
      rw [if_neg (not_le.mpr hneg)] at hacc₄
      rw [hacc₄, Account.append_empty]
      exact iff_of_true (Account.balanced_destroyed inst a') hans₄
    · obtain ⟨⟨map, desc⟩, hq⟩ := Option.ne_none_iff_exists'.mp hsome
      rw [hq] at h₄
      obtain ⟨tr₅, revNb, tr₆, h₅, h₆, rfl⟩ := Prog.yields_bind.mp h₄
      obtain ⟨hacc₅, hans₅⟩ := createPublish_yields h₅
      rw [account_append, hacc₅, Account.empty_append, answered_append, hans₅]
      by_cases hrev : revNb < 0
      · -- the context closes the instance, and then the exit does
        rw [if_pos hrev] at h₆
        obtain ⟨-, hacc₆⟩ := createError_yields h₆
        rw [if_pos hpos] at hacc₆
        rw [hacc₆]
        exact iff_of_false (Account.not_balanced_twice inst a') fun h => absurd h.1 (not_le.mpr hrev)
      · rw [if_neg hrev] at h₆
        obtain ⟨ret, tr₇, rfl, h₇⟩ := Prog.yields_perform.mp h₆
        by_cases hret : ret < 0
        · rw [if_pos hret] at h₇
          obtain ⟨hans₇, hacc₇⟩ := createError_yields h₇
          rw [if_neg (not_le.mpr hret)] at hacc₇
          rw [account_cons, hacc₇, Account.append_empty]
          refine iff_of_true (Account.balanced_destroyed inst a') ⟨not_lt.mp hrev, ?_⟩
          exact answered_cons.mpr ⟨trivial, hans₇⟩
        · rw [if_neg hret] at h₇
          exact absurd h₇.2 (by simp)
  · obtain ⟨rfl, rfl⟩ := ctxMmap_null h₃
    obtain ⟨hans₄, hacc₄⟩ := createError_yields h₄
    have hempty : account tr₄ = .empty := hacc₄
    rw [hempty, account_nil, Account.append_empty, Account.append_empty, hiff,
      and_iff_left ⟨answered_nil, hans₄⟩]

/-- A failed `shd_create` gives back everything exactly if all answers were good. -/
theorem create_balanced_iff {name : String} {h : HdrUserInfo} {mdata : List UInt8}
    {env : Option String} {tr : List (Event Op.Resp)}
    (hy : (create name h mdata env).Yields tr none) : (account tr).Balanced ↔ Answered tr := by
  obtain ⟨tr₁, c, tr₂, h₁, h₂, rfl⟩ := Prog.yields_bind.mp hy
  obtain ⟨hacc, hans⟩ := sectionCreate_yields h₁
  rw [account_append, answered_append, hacc, and_iff_right hans]
  by_cases hret : c.ret < 0
  · rw [if_pos hret] at h₂
    obtain ⟨hans₂, hacc₂⟩ := createError_yields h₂
    rw [if_neg (not_le.mpr hret)] at hacc₂
    rw [hacc₂, openedIf, if_neg (not_le.mpr hret)]
    exact iff_of_true Account.balanced_empty hans₂
  rw [if_neg hret] at h₂
  rw [openedIf, if_pos (not_lt.mp hret)]
  obtain ⟨lock, tr₃, rfl, h₃⟩ := Prog.yields_perform.mp h₂
  have hlock : GoodAnswer ⟨.backend (.lock c.inst), lock⟩ ↔ 0 ≤ lock := Iff.rfl
  have hfree : account [⟨.backend (.lock c.inst), lock⟩] = .empty := rfl
  rw [account_cons, hfree, Account.empty_append, answered_cons, hlock]
  by_cases hneg : lock < 0
  · -- nobody closes the instance
    rw [if_pos hneg] at h₃
    obtain ⟨-, hacc₃⟩ := createError_yields h₃
    rw [if_neg (not_le.mpr hneg)] at hacc₃
    rw [hacc₃]
    exact iff_of_false (Account.not_balanced_opened c.inst) fun h => absurd h.1 (not_le.mpr hneg)
  rw [if_neg hneg] at h₃
  rw [and_iff_right (not_lt.mp hneg)]
  have hresize : (sectionResize c.inst).AllOps Aside := ⟨trivial, fun _ _ => trivial⟩
  obtain ⟨resized, tr₄, h₄, ha₄, hg₄⟩ := aside_bind hresize h₃
  rw [ha₄, hg₄]
  by_cases hres : resized < 0
  · rw [if_pos hres] at h₄
    obtain ⟨hans₄, hacc₄⟩ := createError_yields h₄
    rw [if_pos (not_lt.mp hneg)] at hacc₄
    rw [hacc₄]
    exact iff_of_true (Account.balanced_closed c.inst) hans₄
  · rw [if_neg hres] at h₄
    exact createRest_yields h₄

/-- `shd_open` from the allocation of the revision on: the exits destroy the context,
if there is one. -/
theorem openRest_yields {inst : Nat} {ctx : Option CtxAllocs} {env : Option String}
    {tr : List (Event Op.Resp)}
    (hy : (do
      let rev ← calloc .rev
      if rev = none then
        openError inst none ctx
      else
        let m ← ctxMmap inst ctx none
        match m.allocs, m.parts with
        | some a, some (map, desc) =>
          let r ← syncUpdateLocalRevisionNb syncCtxInit map.syncTop
          if r.1 = -EAGAIN then
            openError inst rev (some a)
          else
            return some ({ ctxInit inst a map desc env with syncCtx := r.2 }, r.1)
        | allocs, _ => openError inst rev allocs : ShdProg (Option (ShdCtx × Int))).Yields tr none) :
    Answered tr ∧ match ctx with
      | none => account tr = .empty
      | some a => ∃ a', Account.allocatedCtx a = Account.allocatedCtx a' ∧
          account tr = .destroyed inst a' := by
  have hrev : (calloc .rev).AllOps Aside := ⟨⟨by decide, by decide, by decide⟩, fun _ _ => trivial⟩
  obtain ⟨rev, tr₁, h₁, ha₁, hg₁⟩ := aside_bind hrev hy
  rw [ha₁, hg₁]
  by_cases hoom : rev = none
  · rw [if_pos hoom] at h₁
    obtain ⟨hans, hacc⟩ := openError_yields h₁
    cases ctx with
    | none => exact ⟨hans, hacc⟩
    | some a => exact ⟨hans, a, rfl, hacc⟩
  rw [if_neg hoom] at h₁
  obtain ⟨tr₂, m, tr₃, h₂, h₃, rfl⟩ := Prog.yields_bind.mp h₁
  rw [account_append, answered_append]
  cases ctx with
  | none =>
    obtain ⟨rfl, rfl⟩ := ctxMmap_null h₂
    obtain ⟨hans, hacc⟩ := openError_yields h₃
    exact ⟨⟨answered_nil, hans⟩, hacc⟩
  | some a =>
    obtain ⟨hempty, hans, a', hallocs, hsync, hwindow, -⟩ := ctxMmap_yields h₂
    have hsame : Account.allocatedCtx a = Account.allocatedCtx a' := by
      simp only [Account.allocatedCtx, hsync, hwindow]
    rw [hempty, and_iff_right hans, Account.empty_append]
    rw [hallocs] at h₃
    suffices hdone : Answered tr₃ ∧ account tr₃ = .destroyed inst a' from
      ⟨hdone.1, a', hsame, hdone.2⟩
    cases hparts : m.parts with
    | none =>
      rw [hparts] at h₃
      exact openError_yields h₃
    | some q =>
      rw [hparts] at h₃
      have hupdate : (syncUpdateLocalRevisionNb syncCtxInit q.1.syncTop).AllOps Aside := by
        refine ensures_load32 trivial fun bs _ => ?_
        split
        · exact trivial
        · exact ensures_load32 trivial fun _ _ => trivial
      obtain ⟨r, tr₄, h₄, ha₄, hg₄⟩ := aside_bind hupdate h₃
      rw [ha₄, hg₄]
      by_cases hagain : r.1 = -EAGAIN
      · rw [if_pos hagain] at h₄
        exact openError_yields h₄
      · rw [if_neg hagain] at h₄
        exact absurd h₄.2 (by simp)

/-- A failed `shd_open` gives back everything exactly if all answers were good. -/
theorem open_balanced_iff {name : String} {env : Option String} {tr : List (Event Op.Resp)}
    (hy : (openCtx name env).Yields tr none) : (account tr).Balanced ↔ Answered tr := by
  obtain ⟨tr₁, o, tr₂, h₁, h₂, rfl⟩ := Prog.yields_bind.mp hy
  obtain ⟨hacc, hans⟩ := sectionOpen_yields h₁
  rw [account_append, answered_append, hacc, and_iff_right hans]
  by_cases hret : o.ret < 0
  · rw [if_pos hret] at h₂
    obtain ⟨hans₂, hacc₂⟩ := openError_yields h₂
    rw [hacc₂, openedIf, if_neg (not_le.mpr hret)]
    exact iff_of_true Account.balanced_empty hans₂
  rw [if_neg hret] at h₂
  rw [openedIf, if_pos (not_lt.mp hret)]
  obtain ⟨tr₃, ctx, tr₄, h₃, h₄, rfl⟩ := Prog.yields_bind.mp h₂
  obtain ⟨hans₄, hrest⟩ := openRest_yields h₄
  rw [account_append, answered_append, and_iff_left hans₄]
  rcases ctxNew_yields h₃ with ⟨a, rfl, hans₃, hacc₃⟩ | ⟨rfl, hiff⟩
  · obtain ⟨a', hsame, hacc₄⟩ := hrest
    rw [hacc₃, hacc₄, hsame]
    exact iff_of_true (Account.balanced_destroyed o.inst a') hans₃
  · have hempty : account tr₄ = .empty := hrest
    rw [hempty, Account.append_empty]
    exact hiff

/-- **What a failed call releases.** For every backend, every outcome of the
allocations and every content of the section: a `shd_create` or a `shd_open`
that returns NULL closed the instance of the backend exactly once if it had
obtained one and never otherwise, and freed the synchronization context and
the window exactly once each if it had allocated them, if and only if the
lock was not refused, the context and its window were allocated, and the
revision number was not found odd or negative at the end of a creation. -/
theorem released_iff {tr : List (Event Op.Resp)}
    (hy : (∃ name h mdata env, (create name h mdata env).Yields tr none) ∨
      ∃ name env, (openCtx name env).Yields tr none) :
    (account tr).Balanced ↔ Answered tr := by
  rcases hy with ⟨name, h, mdata, env, hy⟩ | ⟨name, env, hy⟩
  · exact create_balanced_iff hy
  · exact open_balanced_iff hy

/-! ## Failures -/

/-- A creation that runs alone on a shared memory file. -/
def creation : ShdProg (Option ShdCtx) := create "section" ⟨4, 1, 1, 0⟩ [] none

/-- The account of a failed creation. -/
def failedCreation (w : World Shm) : Option Account :=
  if (exec (machine shm) 0 creation w).1 = none then some (account (execTrace (machine shm) 0 creation w))
  else none

/-- Allocation `n` fails. -/
def Shm.outOfMemory (n : Nat) : World Shm := { Shm.world with heap := ⟨0, fun i => i == n, []⟩ }

/-- System call `n` fails. -/
def Shm.failing (n : Nat) : World Shm :=
  { Shm.world with os := { Shm.absent with errors := fun i => if i = n then some 10 else none } }

/-- The file exists, and its revision is the last one that fits an `int`. -/
def Shm.lastRevision : World Shm :=
  { Shm.world with
    mem := Shm.world.mem.write 40 (encI32 2147483646)
    os := { Shm.absent with present := true, size := 104 } }

/-- The fourth system call is the resize. -/
theorem released_iff_resize :
    failedCreation (Shm.failing 3) = some ⟨[0], [0], [], [], [], []⟩ ∧
      Answered (execTrace (machine shm) 0 creation (Shm.failing 3)) := by
  have hnone : (exec (machine shm) 0 creation (Shm.failing 3)).1 = none := by decide +kernel
  have hy := yields_exec (machine shm) 0 creation (Shm.failing 3)
  rw [hnone] at hy
  exact ⟨by decide +kernel, (released_iff (Or.inl ⟨_, _, _, _, hy⟩)).mp (by decide +kernel)⟩

/-- The lock is refused, the context is not allocated, its window is not allocated,
the revision gets negative. -/
theorem released_wrongly :
    failedCreation (Shm.failing 2) = some ⟨[0], [], [], [], [], []⟩ ∧
    failedCreation (Shm.outOfMemory 0) = some ⟨[0], [], [], [], [], []⟩ ∧
    failedCreation (Shm.outOfMemory 3) = some ⟨[0], [0], [2], [2, 2], [], []⟩ ∧
    failedCreation Shm.lastRevision = some ⟨[0], [0, 0], [2], [2], [3], [3]⟩ := by
  decide +kernel

end Shdata.Solo
