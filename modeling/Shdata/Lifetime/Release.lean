/-
Shdata.Lifetime.Release — what a context holds is given back when it is closed.

`shd_create` and `shd_open` obtain an instance of the backend and up to seven
blocks, in four functions of three files; `shd_close` gives them back in two.
In between a producer or a consumer makes any calls. `life_released`: over the
whole life of a context, from the call that made it to `shd_close`, the
instance was closed once, and every block but the metadata arrays was freed once, for
every backend, every content of the section and beside any other threads.

A `Ledger` lists what a trace obtained and gave back, for each kind of block.
-/
import Shdata.Consumer.Ownership
import Shdata.Progress.Calls
import Shdata.Solo.Releases

namespace Shdata.Lifetime

open Shdata.Conc Shdata.Core Shdata.Producer Shdata.Solo Shdata.Progress

/-! ## Ledgers -/

/-- What a trace opened and closed, and which blocks of each kind it allocated and freed. -/
structure Ledger where
  opened : List Nat
  closed : List Nat
  took : Alloc → List Nat
  gave : Alloc → List Nat

namespace Ledger

instance : Append Ledger where
  append a b := ⟨a.opened ++ b.opened, a.closed ++ b.closed, fun what => a.took what ++ b.took what,
    fun what => a.gave what ++ b.gave what⟩

theorem append_def (a b : Ledger) :
    a ++ b = ⟨a.opened ++ b.opened, a.closed ++ b.closed, fun what => a.took what ++ b.took what,
      fun what => a.gave what ++ b.gave what⟩ := rfl

def empty : Ledger := ⟨[], [], fun _ => [], fun _ => []⟩

@[simp] theorem empty_append (a : Ledger) : empty ++ a = a := rfl

/-- The empty ledger is neutral, and the order of three traces does not matter. -/
@[simp] theorem append_empty (a : Ledger) : a ++ empty = a := by
  simp [append_def, empty]

theorem append_assoc (a b c : Ledger) : a ++ b ++ c = a ++ (b ++ c) := by
  simp [append_def]

/-- An instance obtained. -/
def openedInst (inst : Nat) : Ledger := ⟨[inst], [], fun _ => [], fun _ => []⟩

/-- Blocks allocated. -/
def allocated (f : Alloc → List Nat) : Ledger := ⟨[], [], f, fun _ => []⟩

/-- An instance closed. -/
def closedInst (inst : Nat) : Ledger := ⟨[], [inst], fun _ => [], fun _ => []⟩

/-- Blocks freed. -/
def freed (f : Alloc → List Nat) : Ledger := ⟨[], [], fun _ => [], f⟩

/-- Blocks of different kinds are listed apart. -/
theorem allocated_append (f g : Alloc → List Nat) :
    allocated f ++ allocated g = allocated fun what => f what ++ g what := rfl

theorem freed_append (f g : Alloc → List Nat) :
    freed f ++ freed g = freed fun what => f what ++ g what := rfl

end Ledger

/-- The ledger of a trace. -/
def ledger (tr : List (Event Op.Resp)) : Ledger where
  opened := tr.filterMap opened
  closed := tr.filterMap closed
  took what := tr.filterMap (allocated what)
  gave what := tr.filterMap (freed what)

@[simp] theorem ledger_nil : ledger [] = .empty := rfl

/-- The ledger of two traces, one after the other. -/
theorem ledger_append (tr tr' : List (Event Op.Resp)) :
    ledger (tr ++ tr') = ledger tr ++ ledger tr' := by
  simp [ledger, Ledger.append_def]

theorem ledger_cons (e : Event Op.Resp) (tr : List (Event Op.Resp)) :
    ledger (e :: tr) = ledger [e] ++ ledger tr := ledger_append [e] tr

/-! ## Operations that do not count -/

/-- An operation that leaves the ledger as it is. -/
def Plain : Op → Prop
  | .calloc _ | .free _ _ | .backend (.create _ _) | .backend (.openSection _)
  | .backend (.close _) => False
  | _ => True

/-- Loads, stores and additions acquire nothing. -/
theorem plain_of_onSection {o : Op} (ho : OnSection o) : Plain o := by
  cases o with
  | read site a len => trivial
  | write site a src => trivial
  | addAndFetch site a v => trivial
  | samplePtr desc i => trivial
  | _ => exact absurd ho id

/-- Only allocations, frees and the instance of the backend are listed. -/
theorem Plain.event {o : Op} (ho : Plain o) (r : o.Resp) : ledger [⟨o, r⟩] = .empty := by
  cases o with
  | calloc what => exact absurd ho id
  | free what p => exact absurd ho id
  | backend c => cases c <;> first | exact absurd ho id | rfl
  | _ => rfl

/-- By induction on the trace. -/
theorem plain_ledger {tr : List (Event Op.Resp)} (h : ∀ e ∈ tr, Plain e.1) : ledger tr = .empty := by
  induction tr with
  | nil => rfl
  | cons e tr ih =>
    obtain ⟨hfirst, hrest⟩ := List.forall_mem_cons.mp h
    rw [ledger_cons, hfirst.event e.2, ih hrest, Ledger.append_empty]

/-- Such operations at the start of a program. -/
theorem plain_bind {α β : Type} {p : ShdProg α} {f : α → ShdProg β} (hp : p.AllOps Plain)
    {tr : List (Event Op.Resp)} {r : β} (hy : (p >>= f).Yields tr r) :
    ∃ a tr', (f a).Yields tr' r ∧ ledger tr = ledger tr' := by
  obtain ⟨tr₁, a, tr₂, h₁, h₂, rfl⟩ := Prog.yields_bind.mp hy
  obtain ⟨-, hops⟩ := hp.yields h₁ fun _ _ => trivial
  refine ⟨a, tr₂, h₂, ?_⟩
  rw [ledger_append, plain_ledger hops, Ledger.empty_append]

/-! ## The parts of a creation and of an opening -/

/-- The blocks of a context. -/
def held (a : CtxAllocs) : Alloc → List Nat
  | .ctx => a.ctx.toList
  | .blobName => a.blobName.toList
  | .syncCtx => a.syncCtx.toList
  | .window => a.window.toList
  | .map => a.map.toList
  | .desc => a.desc.toList
  | .rev | .metadata => []

/-- An allocation of one kind. -/
def one (what : Alloc) (p : Option Nat) : Alloc → List Nat :=
  fun what' => if what = what' then p.toList else []

/-- An allocation that failed is listed as none. -/
theorem ledger_calloc (what : Alloc) (p : Option Nat) :
    ledger [⟨.calloc what, p⟩] = .allocated (one what p) := by
  have htook : ∀ what', [(⟨.calloc what, p⟩ : Event Op.Resp)].filterMap (allocated what')
      = one what p what' := by
    intro what'
    by_cases h : what = what'
    · cases p <;> simp [allocated, one, h]
    · simp [allocated, one, h]
  exact congrArg (fun f => (⟨[], [], f, fun _ => []⟩ : Ledger)) (funext htook)

/-- So is a `free` of a null pointer. -/
theorem ledger_free (what : Alloc) (p : Option Nat) (r : Unit) :
    ledger [⟨.free what p, r⟩] = .freed (one what p) := by
  have hgave : ∀ what', [(⟨.free what p, r⟩ : Event Op.Resp)].filterMap (freed what')
      = one what p what' := by
    intro what'
    by_cases h : what = what'
    · cases p <;> simp [freed, one, h]
    · simp [freed, one, h]
  exact congrArg (fun f => (⟨[], [], fun _ => [], f⟩ : Ledger)) (funext hgave)

/-- The lookup of the backend acquires nothing. -/
theorem initSectionInfos_plain (name : String) : (initSectionInfos name).AllOps Plain := by
  unfold initSectionInfos
  split
  · trivial
  · refine Prog.ensures_perform trivial fun ret _ => ?_
    split <;> trivial

/-- A section that was created has one instance. -/
theorem sectionCreate_ledger {name : String} {size : Int} {tr : List (Event Op.Resp)}
    {c : CreateResult} (hy : (sectionCreate name size).Yields tr c) (hret : 0 ≤ c.ret) :
    ledger tr = .openedInst c.inst := by
  obtain ⟨ret, tr₁, h₁, hl⟩ := plain_bind (initSectionInfos_plain name) hy
  rw [hl]
  by_cases hneg : ret < 0
  · rw [if_pos hneg] at h₁
    obtain ⟨rfl, rfl⟩ := h₁
    exact absurd hret (not_le.mpr hneg)
  · rw [if_neg hneg] at h₁
    obtain ⟨r, _, rfl, rfl, rfl⟩ := h₁
    simp only [ledger, opened, List.filterMap, if_pos hret]
    rfl

theorem sectionOpen_ledger {name : String} {tr : List (Event Op.Resp)} {o : OpenResult}
    (hy : (sectionOpen name).Yields tr o) (hret : 0 ≤ o.ret) :
    ledger tr = .openedInst o.inst := by
  obtain ⟨ret, tr₁, h₁, hl⟩ := plain_bind (initSectionInfos_plain name) hy
  rw [hl]
  by_cases hneg : ret < 0
  · rw [if_pos hneg] at h₁
    obtain ⟨rfl, rfl⟩ := h₁
    exact absurd hret (not_le.mpr hneg)
  · rw [if_neg hneg] at h₁
    obtain ⟨r, _, rfl, rfl, rfl⟩ := h₁
    simp only [ledger, opened, List.filterMap, if_pos hret]
    rfl

/-- A context that `shd_ctx_new` returns holds what was allocated for it. -/
theorem ctxNew_ledger {inst : Nat} {tr : List (Event Op.Resp)} {a : CtxAllocs}
    (hy : (ctxNew inst).Yields tr (some a)) :
    ledger tr = .allocated (held a) ∧ a.map = none ∧ a.desc = none := by
  obtain ⟨ctx, _, rfl, hctx⟩ := Prog.yields_perform.mp hy
  cases ctx with
  | none => exact absurd hctx.2 (by simp)
  | some c =>
    obtain ⟨name, _, rfl, hname⟩ := Prog.yields_perform.mp hctx
    obtain ⟨sync, _, rfl, hsync⟩ := Prog.yields_perform.mp hname
    dsimp only at hsync
    by_cases hs : sync = none
    · rw [if_pos hs] at hsync
      exact absurd (ctxNewError_yields hsync).1 (by simp)
    rw [if_neg hs] at hsync
    obtain ⟨window, _, rfl, hwindow⟩ := Prog.yields_perform.mp hsync
    by_cases hw : window = none
    · rw [if_pos hw] at hwindow
      exact absurd (ctxNewError_yields hwindow).1 (by simp)
    rw [if_neg hw] at hwindow
    obtain ⟨rfl, ha⟩ := hwindow
    obtain rfl := Option.some.inj ha
    refine ⟨?_, rfl, rfl⟩
    rw [ledger_cons _ (_ :: _), ledger_cons _ (_ :: _), ledger_cons _ (_ :: _)]
    simp only [ledger_calloc, Ledger.allocated_append]
    refine congrArg Ledger.allocated (funext fun what => ?_)
    cases what <;> simp [one, held]

theorem hdrReadBackend_plain (inst : Nat) : (hdrReadBackend inst).AllOps Plain := by
  refine Prog.ensures_perform trivial fun r _ => ?_
  dsimp only
  split
  · trivial
  · split <;> trivial

theorem sectionMap_ledger {inst : Nat} {h : HdrUserInfo} {tr : List (Event Op.Resp)}
    {q : Nat × SectionMap} (hy : (sectionMap inst h).Yields tr (some q)) :
    ledger tr = .allocated (one .map (some q.1)) := by
  obtain ⟨ret, tr₁, rfl, h₁⟩ := Prog.yields_perform.mp hy
  have hstart : ledger [⟨.backend (.getSectionStart _ inst), ret⟩] = .empty :=
    Plain.event (o := .backend (.getSectionStart _ inst)) trivial ret
  rw [ledger_cons, hstart, Ledger.empty_append]
  by_cases hret : ret < 0
  · rw [if_pos hret] at h₁
    exact absurd h₁.2 (by simp)
  · rw [if_neg hret] at h₁
    obtain ⟨p, _, rfl, rfl, hp⟩ := h₁
    cases p with
    | none => exact absurd hp (by simp)
    | some p =>
      obtain rfl := Option.some.inj hp
      exact ledger_calloc _ _

/-- A mapping is one block, with the header given or read. -/
theorem sectionMappingNew_ledger {inst : Nat} {h : Option HdrUserInfo} {tr : List (Event Op.Resp)}
    {q : Nat × SectionMap} (hy : (sectionMappingNew inst h).Yields tr (some q)) :
    ledger tr = .allocated (one .map (some q.1)) := by
  cases h with
  | some h => exact sectionMap_ledger hy
  | none =>
    obtain ⟨r, tr₁, h₁, hl⟩ := plain_bind (hdrReadBackend_plain inst) hy
    rw [hl]
    by_cases hret : r.1 < 0
    · rw [if_pos hret] at h₁
      exact absurd h₁.2 (by simp)
    · rw [if_neg hret] at h₁
      exact sectionMap_ledger h₁

/-- So is a description. -/
theorem dataSectionDescNew_ledger {map : SectionMap} {h : Option HdrUserInfo}
    {tr : List (Event Op.Resp)} {q : Nat × DataSectionDesc}
    (hy : (dataSectionDescNew map h).Yields tr (some q)) :
    ledger tr = .allocated (one .desc (some q.1)) := by
  obtain ⟨p, tr₁, rfl, h₁⟩ := Prog.yields_perform.mp hy
  cases p with
  | none => exact absurd h₁.2 (by simp)
  | some p =>
    cases h with
    | some h =>
      obtain ⟨rfl, hq⟩ := h₁
      obtain rfl := Option.some.inj hq
      exact ledger_calloc _ _
    | none =>
      obtain ⟨_, _, rfl, _, _, rfl, rfl, hq⟩ := h₁
      obtain rfl := Option.some.inj hq
      rw [ledger_cons, ledger_calloc, plain_ledger, Ledger.append_empty]
      simp [Plain]

/-- A context that was mapped holds two more blocks. -/
theorem ctxMmap_ledger {inst : Nat} {a : CtxAllocs} {h : Option HdrUserInfo}
    {tr : List (Event Op.Resp)} {m : CtxMmap} (hy : (ctxMmap inst (some a) h).Yields tr m)
    (hmap : a.map = none) (hdesc : a.desc = none) (hparts : m.parts ≠ none) :
    ∃ a' f, m.allocs = some a' ∧ ledger tr = .allocated f ∧ f .rev = [] ∧
      ∀ what, held a what ++ f what = held a' what := by
  obtain ⟨tr₁, map, tr₂, h₁, h₂, rfl⟩ := Prog.yields_bind.mp hy
  cases map with
  | none =>
    obtain ⟨rfl, rfl⟩ := h₂
    exact absurd rfl hparts
  | some q =>
    obtain ⟨tr₃, desc, tr₄, h₃, h₄, rfl⟩ := Prog.yields_bind.mp h₂
    cases desc with
    | none =>
      obtain ⟨rfl, rfl⟩ := h₄
      exact absurd rfl hparts
    | some q' =>
      obtain ⟨rfl, rfl⟩ := h₄
      refine ⟨_, fun what => one .map (some q.1) what ++ one .desc (some q'.1) what, rfl, ?_, rfl,
        fun what => ?_⟩
      · rw [List.append_nil, ledger_append, sectionMappingNew_ledger h₁,
          dataSectionDescNew_ledger h₃, Ledger.allocated_append]
      · cases what <;> simp [one, held, hmap, hdesc]

/-! ## Creation, opening, closing -/

/-- The error paths return no context, so a context that was returned took none of them. -/
theorem createError_none {inst : Nat} {ret : Int} {ctx : Option CtxAllocs}
    {tr : List (Event Op.Resp)} {r : Option ShdCtx} (hy : (createError inst ret ctx).Yields tr r) :
    r = none := by
  obtain ⟨tr₁, _, tr₂, -, h, -⟩ := Prog.yields_bind.mp hy
  split at h
  · obtain ⟨_, _, -, -, hr⟩ := h
    exact hr
  · exact h.2

theorem openError_none {inst : Nat} {rev : Option Nat} {ctx : Option CtxAllocs}
    {tr : List (Event Op.Resp)} {r : Option (ShdCtx × Int)}
    (hy : (openError inst rev ctx).Yields tr r) : r = none := by
  obtain ⟨_, tr₁, -, h₁⟩ := Prog.yields_perform.mp hy
  obtain ⟨tr₂, _, tr₃, -, h₂, -⟩ := Prog.yields_bind.mp h₁
  exact h₂.2

/-- What a context owns, and nothing else, was obtained when it was made. -/
def Owned (ctx : ShdCtx) (rev : Option Nat) : Ledger :=
  .openedInst ctx.instId ++ .allocated fun what => held ctx.allocs what ++ one .rev rev what

/-- A creation that succeeded: it acquires the section, the blocks of a new context and those
of the mapping, and nothing between them. -/
theorem create_ledger {name : String} {h : HdrUserInfo} {mdata : List UInt8} {env : Option String}
    {tr : List (Event Op.Resp)} {ctx : ShdCtx}
    (hy : (create name h mdata env).Yields tr (some ctx)) : ledger tr = Owned ctx none := by
  have hfail : ∀ {inst ret c tr}, ¬ (createError inst ret c).Yields tr (some ctx) :=
    fun he => absurd (createError_none he) (by simp)
  obtain ⟨tr₁, c, tr₂, h₁, h₂, rfl⟩ := Prog.yields_bind.mp hy
  by_cases hc : c.ret < 0
  · rw [if_pos hc] at h₂
    exact absurd h₂ hfail
  rw [if_neg hc] at h₂
  have hlock : (sectionLock c.inst).AllOps Plain := ⟨trivial, fun _ _ => trivial⟩
  obtain ⟨ret, tr₃, h₃, hl₃⟩ := plain_bind hlock h₂
  by_cases hret : ret < 0
  · rw [if_pos hret] at h₃
    exact absurd h₃ hfail
  rw [if_neg hret] at h₃
  have hresize : (sectionResize c.inst).AllOps Plain := ⟨trivial, fun _ _ => trivial⟩
  obtain ⟨resized, tr₄, h₄, hl₄⟩ := plain_bind hresize h₃
  by_cases hres : resized < 0
  · rw [if_pos hres] at h₄
    exact absurd h₄ hfail
  rw [if_neg hres] at h₄
  obtain ⟨tr₅, a, tr₆, h₅, h₆, rfl⟩ := Prog.yields_bind.mp h₄
  obtain ⟨tr₇, m, tr₈, h₇, h₈, rfl⟩ := Prog.yields_bind.mp h₆
  -- `shd_ctx_mmap` takes a null context, and only then does the call fail
  cases a with
  | none =>
    obtain ⟨-, rfl⟩ := ctxMmap_null h₇
    exact absurd h₈ hfail
  | some a =>
    obtain ⟨hnew, hmap, hdesc⟩ := ctxNew_ledger h₅
    by_cases hparts : m.parts = none
    · rw [hparts] at h₈
      cases hallocs : m.allocs with
      | none => exact absurd (hallocs ▸ h₈) hfail
      | some a' => exact absurd (hallocs ▸ h₈) hfail
    obtain ⟨a', f, hallocs, hmore, -, hheld⟩ := ctxMmap_ledger h₇ hmap hdesc hparts
    obtain ⟨⟨map, desc⟩, hq⟩ := Option.ne_none_iff_exists'.mp hparts
    rw [hallocs, hq] at h₈
    have hpublish := (createPublish_works map desc h mdata c.firstCreation).allOps.mono
      fun _ => plain_of_onSection
    obtain ⟨rev, tr₉, h₉, hl₉⟩ := plain_bind hpublish h₈
    by_cases hrev : rev < 0
    · rw [if_pos hrev] at h₉
      exact absurd h₉ hfail
    rw [if_neg hrev] at h₉
    have hunlock : (sectionUnlock c.inst).AllOps Plain := ⟨trivial, fun _ _ => trivial⟩
    obtain ⟨ret', tr₀, h₀, hl₀⟩ := plain_bind hunlock h₉
    by_cases hret' : ret' < 0
    · rw [if_pos hret'] at h₀
      exact absurd h₀ hfail
    rw [if_neg hret'] at h₀
    obtain ⟨rfl, hctx⟩ := h₀
    obtain rfl := Option.some.inj hctx
    rw [ledger_append, sectionCreate_ledger h₁ (not_lt.mp hc), hl₃, hl₄, ledger_append,
      ledger_append, hl₉, hl₀, ledger_nil, Ledger.append_empty, hnew, hmore,
      Ledger.allocated_append]
    refine congrArg (Ledger.openedInst c.inst ++ Ledger.allocated ·) (funext fun what => ?_)
    simp [one, ctxInit, hheld what]

/-- The block of the revision is not part of the context: the caller keeps it. -/
theorem openCtx_ledger {name : String} {env : Option String} {tr : List (Event Op.Resp)}
    {ctx : ShdCtx} {revNb : Int} (hy : (openCtx name env).Yields tr (some (ctx, revNb))) :
    ∃ rev, ledger tr = Owned ctx rev := by
  have hfail : ∀ {inst rev c tr}, ¬ (openError inst rev c).Yields tr (some (ctx, revNb)) :=
    fun he => absurd (openError_none he) (by simp)
  obtain ⟨tr₁, o, tr₂, h₁, h₂, rfl⟩ := Prog.yields_bind.mp hy
  by_cases ho : o.ret < 0
  · rw [if_pos ho] at h₂
    exact absurd h₂ hfail
  rw [if_neg ho] at h₂
  obtain ⟨tr₃, a, tr₄, h₃, h₄, rfl⟩ := Prog.yields_bind.mp h₂
  obtain ⟨rev, tr₅, rfl, h₅⟩ := Prog.yields_perform.mp h₄
  by_cases hrev : rev = none
  · rw [if_pos hrev] at h₅
    exact absurd h₅ hfail
  rw [if_neg hrev] at h₅
  obtain ⟨tr₆, m, tr₇, h₆, h₇, rfl⟩ := Prog.yields_bind.mp h₅
  cases a with
  | none =>
    obtain ⟨-, rfl⟩ := ctxMmap_null h₆
    exact absurd h₇ hfail
  | some a =>
    obtain ⟨hnew, hmap, hdesc⟩ := ctxNew_ledger h₃
    by_cases hparts : m.parts = none
    · rw [hparts] at h₇
      cases hallocs : m.allocs with
      | none => exact absurd (hallocs ▸ h₇) hfail
      | some a' => exact absurd (hallocs ▸ h₇) hfail
    obtain ⟨a', f, hallocs, hmore, hnorev, hheld⟩ := ctxMmap_ledger h₆ hmap hdesc hparts
    obtain ⟨⟨map, desc⟩, hq⟩ := Option.ne_none_iff_exists'.mp hparts
    rw [hallocs, hq] at h₇
    have hupdate : (syncUpdateLocalRevisionNb syncCtxInit map.syncTop).AllOps Plain := by
      refine ensures_load32 trivial fun bs _ => ?_
      split
      · trivial
      · exact ensures_load32 trivial fun _ _ => trivial
    obtain ⟨r, tr₈, h₈, hl₈⟩ := plain_bind hupdate h₇
    by_cases hagain : r.1 = -EAGAIN
    · rw [if_pos hagain] at h₈
      exact absurd h₈ hfail
    rw [if_neg hagain] at h₈
    obtain ⟨rfl, hctx⟩ := h₈
    obtain ⟨rfl, -⟩ := Prod.mk.inj (Option.some.inj hctx)
    refine ⟨rev, ?_⟩
    rw [ledger_append, sectionOpen_ledger h₁ (not_lt.mp ho), ledger_append, hnew, ledger_cons,
      ledger_calloc, ledger_append, hmore, hl₈, ledger_nil, Ledger.append_empty,
      Ledger.allocated_append, Ledger.allocated_append]
    refine congrArg (Ledger.openedInst o.inst ++ Ledger.allocated ·) (funext fun what => ?_)
    by_cases hwhat : what = .rev
    · subst hwhat
      simp [one, held, hnorev]
    · simp [one, ctxInit, Ne.symm hwhat, hheld what]

/-- The destruction of a context gives back the instance and each of its blocks. -/
theorem ctxDestroy_ledger {inst : Nat} {a : CtxAllocs} {tr : List (Event Op.Resp)} {u : Unit}
    (hy : (ctxDestroy inst (some a)).Yields tr u) :
    ledger tr = .closedInst inst ++ .freed (held a) := by
  obtain ⟨ret, _, rfl, _, _, rfl, _, _, rfl, _, _, rfl, _, _, rfl, _, _, rfl, _, _, rfl, rfl, rfl⟩ := hy
  have hclose : ledger [⟨.backend (.close inst), ret⟩] = .closedInst inst := rfl
  rw [ledger_cons, hclose, ledger_cons, ledger_cons _ (_ :: _), ledger_cons _ (_ :: _),
    ledger_cons _ (_ :: _), ledger_cons _ (_ :: _)]
  simp only [ledger_free, Ledger.freed_append]
  refine congrArg (Ledger.closedInst inst ++ Ledger.freed ·) (funext fun what => ?_)
  cases what <;> simp [one, held]

/-- `shd_close` frees the block of the revision, too. -/
theorem closeCtx_ledger {ctx : ShdCtx} {rev : Option Nat} {tr : List (Event Op.Resp)} {ret : Int}
    (hy : (closeCtx ctx rev).Yields tr ret) :
    ledger tr = .closedInst ctx.instId ++
      .freed fun what => held ctx.allocs what ++ one .rev rev what := by
  obtain ⟨_, tr₁, rfl, h₁⟩ := Prog.yields_perform.mp hy
  obtain ⟨tr₂, _, tr₃, h₂, ⟨rfl, -⟩, rfl⟩ := Prog.yields_bind.mp h₁
  rw [List.append_nil, ledger_cons, ledger_free, ctxDestroy_ledger h₂]
  refine congrArg (fun f => (⟨[], [ctx.instId], fun _ => [], f⟩ : Ledger)) (funext fun what => ?_)
  by_cases hwhat : what = .rev
  · subst hwhat
    simp [Ledger.append_def, Ledger.closedInst, Ledger.freed, one, held]
  · simp [Ledger.append_def, Ledger.closedInst, Ledger.freed, one, Ne.symm hwhat]

/-! ## Calls of a consumer -/

section Consumer

variable {F : Futils} {d : DataSectionDesc} {ctx : ShdCtx}

/-- Loads and metadata arrays only, whatever is read. -/
abbrev ReadsOnly {α : Type} (p : ShdProg α) (Q : α → Prop) : Prop :=
  p.Ensures (fun _ _ => True) Readers.Reads Q

/-- A program that only loads. -/
theorem readsOnly_of_quiet {α : Type} {p : ShdProg α} {Q : α → Prop} (h : Consumer.Quiet p Q) :
    ReadsOnly p fun _ => True := by
  refine h.mono (fun o ho => ?_) fun _ _ => trivial
  cases o with
  | read site a len => trivial
  | samplePtr desc i => trivial
  | _ => exact absurd ho id

/-- A search loads indices, counters and timestamps. -/
theorem windowSet_readsOnly (window : Window) (hdr : Int) (search : SampleSearch)
    (hint : RefSearchHint) : ReadsOnly (windowSet F window hdr search d hint) fun _ => True := by
  refine Prog.Ensures.bind (Q := fun sctx => Bytes.IsI32 sctx.tIndex) ?_ fun sctx ht => ?_
  · exact ensures_load32 trivial fun bs _ => Prog.ensures_perform trivial fun p _ =>
      ensures_load32 trivial fun bs' _ => Bytes.isI32_toI32 _
  refine (readsOnly_of_quiet (Consumer.windowRefIdx_quiet F search ht hint)).bind fun ref _ => ?_
  split
  · trivial
  · refine Prog.Ensures.bind (Q := fun _ => True) ?_ fun overwritten _ => ?_
    · exact ensures_load32 trivial fun bs _ => Prog.ensures_perform trivial fun p _ =>
        ensures_load32 trivial fun bs' _ => trivial
    · split
      · trivial
      · exact Prog.ensures_perform trivial fun p _ => trivial

/-- It changes the window and the snapshot of its context. -/
theorem dataFind_readsOnly (search : SampleSearch) :
    ReadsOnly (dataFind F ctx search) fun r => SameCtx ctx r.2 := by
  refine ensures_load32 trivial fun bs _ => ?_
  split
  · exact SameCtx.refl ctx
  split
  · exact SameCtx.refl ctx
  refine Prog.Ensures.bind (windowSet_readsOnly _ _ search _) fun r _ => ?_
  dsimp only
  split
  · exact ⟨rfl, rfl, rfl⟩
  · refine Prog.ensures_perform trivial fun p _ => ?_
    exact Prog.Ensures.bind (Q := fun _ => True) (ensures_load32 trivial fun _ _ => trivial)
      fun sync _ => ⟨rfl, rfl, rfl⟩

/-- The metadata array is no block of the context. -/
theorem dataReadMetadata_readsOnly :
    ReadsOnly (dataReadMetadata ctx) fun m => SameCtx ctx m.2.2 := by
  refine Prog.ensures_perform trivial fun p _ => ?_
  cases p with
  | none => exact SameCtx.refl ctx
  | some p =>
    exact (readsOnly_of_quiet (Consumer.windowReadLoop_quiet _ _ _ _ _)).bind fun rows _ =>
      ⟨rfl, rfl, rfl⟩

theorem selectSamples_readsOnly (search : SampleSearch) (result : SearchResult) :
    ReadsOnly (selectSamples F ctx search result) fun s => SameCtx ctx s.ctx := by
  refine Prog.Ensures.bind (dataFind_readsOnly search) fun r hr => ?_
  split
  · exact hr
  · refine Prog.Ensures.bind dataReadMetadata_readsOnly fun m hm => ?_
    split
    · exact hr.trans hm
    · exact hr.trans hm

theorem readFromSample_readsOnly (search : SampleSearch) (quantity : List Quantity)
    (sizes : List Nat) :
    ReadsOnly (readFromSample F ctx search quantity sizes) fun s => SameCtx ctx s.ctx := by
  unfold readFromSample
  split
  · exact SameCtx.refl ctx
  refine Prog.Ensures.bind (dataFind_readsOnly search) fun r hr => ?_
  split
  · exact hr
  · refine Prog.Ensures.bind (Q := fun _ => True) ?_ fun q _ => hr
    unfold dataReadQuantitySample
    split
    · trivial
    split
    · trivial
    exact Prog.ensures_perform trivial fun p _ =>
      readsOnly_of_quiet (Consumer.dataReadQuantitySampleLoop_quiet p _)

theorem syncCheckRevisionNb_readsOnly (rev hdr : Int) :
    ReadsOnly (syncCheckRevisionNb rev hdr) fun _ => True := by
  refine ensures_load32 trivial fun bs _ => ?_
  split <;> trivial

/-- The end of a read frees the array on both paths that reach it. -/
theorem endRead_readsOnly (rev : Int) :
    ReadsOnly (Core.endRead ctx rev) fun e => SameCtx ctx e.2 := by
  have hend : ∀ ctx' : ShdCtx, ReadsOnly (dataEndRead ctx') fun e => SameCtx ctx' e.2 :=
    fun ctx' => Prog.ensures_perform trivial fun _ _ => ⟨rfl, rfl, rfl⟩
  have hcheck : ReadsOnly (dataCheckValidity ctx rev) fun r => SameCtx ctx r.2 := by
    unfold dataCheckValidity
    split
    · refine Prog.ensures_perform trivial fun p _ => ?_
      refine Prog.Ensures.bind (Q := fun _ => True) ?_ fun r _ => ?_
      · refine ensures_load32 trivial fun bs _ => ?_
        split <;> trivial
      · split
        · exact ⟨rfl, rfl, rfl⟩
        · exact Prog.Ensures.bind (syncCheckRevisionNb_readsOnly rev _) fun ret _ =>
            ⟨rfl, rfl, rfl⟩
    · exact SameCtx.refl ctx
  refine Prog.Ensures.bind hcheck fun r hr => ?_
  split
  · split
    · exact Prog.Ensures.bind (hend r.2) fun e he => hr.trans he
    · exact hr
  · exact (hend r.2).mono (fun _ h => h) fun e he => hr.trans he

/-- Any call of a session. -/
theorem consCall_readsOnly (c : Consumer.ConsCall) :
    ReadsOnly (Consumer.consCall F ctx c) fun r => SameCtx ctx r.2 := by
  cases c with
  | select search => exact Prog.Ensures.bind (selectSamples_readsOnly search _) fun s hs => hs
  | readFrom search quantity sizes =>
    exact Prog.Ensures.bind (readFromSample_readsOnly search quantity sizes) fun s hs => hs
  | read quantity dst =>
    exact (readsOnly_of_quiet (Consumer.readQuantity_quiet quantity dst)).bind fun r _ =>
      SameCtx.refl ctx
  | endRead rev => exact endRead_readsOnly rev

theorem readSectionHdr_readsOnly (rev : Int) :
    ReadsOnly (readSectionHdr ctx rev) fun _ => True := by
  refine Prog.Ensures.bind (syncCheckRevisionNb_readsOnly rev _) fun ret _ => ?_
  split
  · trivial
  · exact Prog.ensures_perform trivial fun bs _ => trivial

theorem readBlobMetadataHdr_readsOnly (size : Nat) (rev : Int) :
    ReadsOnly (readBlobMetadataHdr ctx size rev) fun _ => True := by
  refine Prog.ensures_perform trivial fun bs _ => ?_
  dsimp only
  split
  · trivial
  · refine Prog.Ensures.bind (syncCheckRevisionNb_readsOnly rev _) fun ret _ => ?_
    split
    · trivial
    · exact Prog.ensures_perform trivial fun bs' _ => trivial

/-- Any call on a context that was opened: one of a session, or the read of a header. -/
inductive ReadCall where
  | cons (call : Consumer.ConsCall)
  | readSectionHdr (rev : Int)
  | readBlobMetadataHdr (size : Nat) (rev : Int)

/-- One call; the result is its return code and the context it leaves. -/
def readCall (F : Futils) (ctx : ShdCtx) : ReadCall → ShdProg (Int × ShdCtx)
  | .cons call => Consumer.consCall F ctx call
  | .readSectionHdr rev => do
    let r ← readSectionHdr ctx rev
    return (r.1, ctx)
  | .readBlobMetadataHdr size rev => do
    let r ← readBlobMetadataHdr ctx size rev
    return (r.1, ctx)

/-- The return codes of the calls, and the context after the last one. -/
def readCalls (F : Futils) : List ReadCall → ShdCtx → ShdProg (List Int × ShdCtx)
  | [], ctx => return ([], ctx)
  | c :: cs, ctx => do
    let r ← readCall F ctx c
    let rs ← readCalls F cs r.2
    return (r.1 :: rs.1, rs.2)

theorem readCall_readsOnly (c : ReadCall) :
    ReadsOnly (readCall F ctx c) fun r => SameCtx ctx r.2 := by
  cases c with
  | cons call => exact consCall_readsOnly call
  | readSectionHdr rev =>
    exact Prog.Ensures.bind (readSectionHdr_readsOnly rev) fun _ _ => SameCtx.refl ctx
  | readBlobMetadataHdr size rev =>
    exact Prog.Ensures.bind (readBlobMetadataHdr_readsOnly size rev) fun _ _ => SameCtx.refl ctx

/-- The calls on an opened context only read, and leave what it holds as it was. -/
theorem readCalls_readsOnly (cs : List ReadCall) :
    ReadsOnly (readCalls F cs ctx) fun r => SameCtx ctx r.2 := by
  induction cs generalizing ctx with
  | nil => exact SameCtx.refl ctx
  | cons c cs ih =>
    refine Prog.Ensures.bind (readCall_readsOnly c) fun r hr => ?_
    exact Prog.Ensures.bind ih fun rs hrs => hr.trans hrs

/-- What an operation of a consumer does to the ledger. -/
theorem reads_event {o : Op} (ho : Readers.Reads o) (r : o.Resp) :
    opened ⟨o, r⟩ = none ∧ closed ⟨o, r⟩ = none ∧
      ∀ what, what ≠ .metadata → allocated what ⟨o, r⟩ = none ∧ freed what ⟨o, r⟩ = none := by
  cases o with
  | read site a len => exact ⟨rfl, rfl, fun _ _ => ⟨rfl, rfl⟩⟩
  | samplePtr desc i => exact ⟨rfl, rfl, fun _ _ => ⟨rfl, rfl⟩⟩
  | calloc what' =>
    cases what' with
    | metadata => exact ⟨rfl, rfl, fun what hwhat => ⟨if_neg (Ne.symm hwhat), rfl⟩⟩
    | _ => exact absurd ho id
  | free what' p =>
    cases what' with
    | metadata => exact ⟨rfl, rfl, fun what hwhat => ⟨rfl, if_neg (Ne.symm hwhat)⟩⟩
    | _ => exact absurd ho id
  | _ => exact absurd ho id

/-- A consumer allocates and frees metadata arrays only. -/
theorem reads_ledger {tr : List (Event Op.Resp)} (h : ∀ e ∈ tr, Readers.Reads e.1) :
    (ledger tr).opened = [] ∧ (ledger tr).closed = [] ∧
      ∀ what, what ≠ .metadata → (ledger tr).took what = [] ∧ (ledger tr).gave what = [] := by
  have hev := fun e he => reads_event (h e he) e.2
  simp only [ledger, List.filterMap_eq_nil_iff]
  exact ⟨fun e he => (hev e he).1, fun e he => (hev e he).2.1, fun what hwhat =>
    ⟨fun e he => ((hev e he).2.2 what hwhat).1, fun e he => ((hev e he).2.2 what hwhat).2⟩⟩

end Consumer

/-! ## The life of a context -/

/-- The trace of a context from the call that made it to `shd_close`. The caller of
`shd_open` passes the block of the revision that it got. -/
inductive Life (F : Futils) : List (Event Op.Resp) → Prop
  | producer {name : String} {h : HdrUserInfo} {mdata : List UInt8} {env : Option String}
      {tr₁ tr₂ tr₃ : List (Event Op.Resp)} {ctx : ShdCtx} {calls : List ProdCall}
      {r : List Int × ShdCtx} {ret : Int} (hcreate : (create name h mdata env).Yields tr₁ (some ctx))
      (hcalls : (prodCalls calls ctx).Yields tr₂ r) (hclose : (closeCtx r.2 none).Yields tr₃ ret) :
      Life F (tr₁ ++ (tr₂ ++ tr₃))
  | consumer {name : String} {env : Option String} {tr₁ tr₂ tr₃ : List (Event Op.Resp)}
      {ctx : ShdCtx} {revNb : Int} {rev : Option Nat} {cs : List ReadCall}
      {r : List Int × ShdCtx} {ret : Int} (hopen : (openCtx name env).Yields tr₁ (some (ctx, revNb)))
      (hrev : (ledger tr₁).took .rev = rev.toList)
      (hcalls : (readCalls F cs ctx).Yields tr₂ r)
      (hclose : (closeCtx r.2 rev).Yields tr₃ ret) : Life F (tr₁ ++ (tr₂ ++ tr₃))

/-- One instance was opened and closed, and each block but the metadata arrays, at most one
of a kind, was freed once. -/
structure Released (l : Ledger) : Prop where
  inst : ∃ inst, l.opened = [inst] ∧ l.closed = [inst]
  blocks : ∀ what, what ≠ .metadata → l.gave what = l.took what ∧ (l.took what).length ≤ 1

/-- One block of each kind at most: the revision is no block of the context. -/
theorem length_held_le (a : CtxAllocs) (rev : Option Nat) (what : Alloc) :
    (held a what ++ one .rev rev what).length ≤ 1 := by
  have hle : ∀ p : Option Nat, p.toList.length ≤ 1 := fun p => by cases p <;> simp
  cases what <;> simp [held, one, hle]

/-- A context is closed after calls that leave its ledger alone. -/
theorem released_of_owned {ctx ctx' : ShdCtx} {rev : Option Nat} {l : Ledger} {tr : List (Event Op.Resp)}
    {ret : Int} (hsame : SameCtx ctx ctx') (hopened : l.opened = []) (hclosed : l.closed = [])
    (hblocks : ∀ what, what ≠ .metadata → l.took what = [] ∧ l.gave what = [])
    (hclose : (closeCtx ctx' rev).Yields tr ret) :
    Released (Owned ctx rev ++ (l ++ ledger tr)) := by
  rw [closeCtx_ledger hclose, hsame.instId, hsame.allocs]
  refine ⟨⟨ctx.instId, ?_, ?_⟩, fun what hwhat => ?_⟩
  · simp [Ledger.append_def, Owned, Ledger.openedInst, Ledger.allocated, Ledger.closedInst,
      Ledger.freed, hopened]
  · simp [Ledger.append_def, Owned, Ledger.openedInst, Ledger.allocated, Ledger.closedInst,
      Ledger.freed, hclosed]
  · obtain ⟨htook, hgave⟩ := hblocks what hwhat
    have hle := length_held_le ctx.allocs rev what
    simpa [Ledger.append_def, Owned, Ledger.openedInst, Ledger.allocated, Ledger.closedInst,
      Ledger.freed, htook, hgave] using hle

/-- **Closing gives everything back.** A creation or an opening succeeded, its owner made any
calls of a producer or a consumer, in any order and with any outcome, and closed the
context. Then the instance of the backend was closed exactly once, and each block
that was allocated for the context was freed exactly once, the metadata arrays apart. -/
theorem life_released {F : Futils} {tr : List (Event Op.Resp)} (h : Life F tr) :
    Released (ledger tr) := by
  cases h with
  | producer hcreate hcalls hclose =>
    obtain ⟨hsame, hops⟩ := (prodCalls_works _).ensures.yields hcalls fun _ _ => trivial
    rw [ledger_append, ledger_append, create_ledger hcreate,
      plain_ledger fun e he => plain_of_onSection (hops e he)]
    exact released_of_owned hsame rfl rfl (fun _ _ => ⟨rfl, rfl⟩) hclose
  | @consumer _ _ _ _ _ ctx _ rev _ _ _ hopen hrev hcalls hclose =>
    obtain ⟨hsame, hops⟩ := (readCalls_readsOnly _).yields hcalls fun _ _ => trivial
    obtain ⟨rev', howned⟩ := openCtx_ledger hopen
    -- the block that the caller passes is the one that the opening allocated
    obtain ⟨hopened, hclosed, hblocks⟩ := reads_ledger hops
    have hlist : rev'.toList = rev.toList := (congrArg (·.took .rev) howned).symm.trans hrev
    have hsame' : rev' = rev := by simpa using congrArg List.head? hlist
    rw [ledger_append, ledger_append, howned, hsame']
    exact released_of_owned hsame hopened hclosed hblocks hclose

/-- A section of two slots with one sample. -/
def oneSample : World Shm :=
  (exec (machine shm) 0 (prodCalls [.writeNewBlob [1, 2, 3, 4] 4 ⟨⟨1, 0⟩, ⟨1, 0⟩⟩]
    ((created 2).1.getD default)) (created 2).2).2

/-- Its consumer. -/
def openedSample : Option (ShdCtx × Int) × World Shm :=
  exec (machine shm) 1 (openCtx "section" none) oneSample

/-- The block of the revision. -/
def openedRev : Option Nat :=
  ((ledger (execTrace (machine shm) 1 (openCtx "section" none) oneSample)).took .rev).head?

/-- A header, a selection, its read, its end, and a selection that is never ended. -/
def reading : List ReadCall :=
  [.readSectionHdr 2, .cons (.select ⟨⟨0, 0⟩, .latest, 0, 0⟩), .cons (.read none 4),
    .cons (.endRead 2), .cons (.select ⟨⟨0, 0⟩, .latest, 0, 0⟩)]

/-- The calls of the consumer. -/
def consumed : (List Int × ShdCtx) × World Shm :=
  exec (machine shm) 1 (readCalls libfutils reading (openedSample.1.getD default).1) openedSample.2

/-- The array of the selection that is not ended stays allocated; all else is given back. -/
theorem life_released_sample :
    Released (ledger (execTrace (machine shm) 1 (openCtx "section" none) oneSample ++
      (execTrace (machine shm) 1 (readCalls libfutils reading (openedSample.1.getD default).1)
          openedSample.2 ++
        execTrace (machine shm) 1 (closeCtx consumed.1.2 openedRev) consumed.2))) := by
  have hsome : openedSample.1.isSome := by decide +kernel
  have hopen := yields_exec (machine shm) 1 (openCtx "section" none) oneSample
  have hget : (exec (machine shm) 1 (openCtx "section" none) oneSample).1
      = some (openedSample.1.getD default) := by
    obtain ⟨o, ho⟩ := Option.isSome_iff_exists.mp hsome
    rw [show (exec (machine shm) 1 (openCtx "section" none) oneSample).1 = openedSample.1 from rfl,
      ho]
    rfl
  rw [hget] at hopen
  exact life_released (.consumer hopen (by decide +kernel) (yields_exec _ _ _ _)
    (yields_exec _ _ _ _))

end Shdata.Lifetime
