/-
Shdata.Solo.Admits — which sections `shd_open` admits.

`shd_open` runs alone, on any backend. What it is told is collected in
`OpenAnswers`: the results of the callbacks, each called in the state that the
one before left, and the bytes of the section once it is mapped. `Checked`
lists what the code tests of them. `exec_openCtx` says that these tests are all
there is: the call returns a context exactly if they pass.

Two tests are missing. The return code of `hdr_read` is overwritten before
anyone looks at it, and the parity test compares C's remainder with `1`, which
no negative number has. `open_admits_iff` is the condition under which
neither matters.
-/
import Shdata.Solo.Open

namespace Shdata.Solo

open Shdata.Conc Shdata.Bytes Shdata.Core Shdata.Ring Shdata.Layout Shdata.Trace Shdata.Producer

variable {Ω : Type} {B : Backend Ω} {t : Nat} {w : World Ω}

/-! ## What the call is told -/

/-- The results of the callbacks of one `shd_open`, and the bytes of the section after
the last of them. -/
structure OpenAnswers where
  lookup : Int
  opened : OpenResult
  hdr : HdrReadResult
  start : Int
  content : Mem

/-- The user header as `shd_hdr_read` copies it. -/
def OpenAnswers.user (a : OpenAnswers) : HdrUserInfo := decHdrUserInfo (a.hdr.hdr.drop 16)

/-- The revision number in the mapped section. -/
def OpenAnswers.revision (a : OpenAnswers) : Int := nbCreations a.content

/-- The answers of a backend, each callback in the state that the one before left. -/
def openAnswers (B : Backend Ω) (t : Nat) (name : String) (s : Mem × Ω) : OpenAnswers :=
  let l := B.call t (.lookup name) s
  let o := B.call t (.openSection name) l.1
  let r := B.call t (.hdrRead o.2.inst) o.1
  let size := (getOffsets lp64 (decHdrUserInfo (r.2.hdr.drop 16))).totalSize
  let m := B.call t (.getSectionStart size o.2.inst) r.1
  { lookup := l.2, opened := o.2, hdr := r.2, start := m.2, content := m.1.1 }

theorem openAnswers_eq {name : String} {s s₁ s₂ s₃ s₄ : Mem × Ω} {lookup start : Int}
    {opened : OpenResult} {hdr : HdrReadResult} (hl : B.call t (.lookup name) s = (s₁, lookup))
    (ho : B.call t (.openSection name) s₁ = (s₂, opened))
    (hr : B.call t (.hdrRead opened.inst) s₂ = (s₃, hdr))
    (hm : B.call t (.getSectionStart (getOffsets lp64 (decHdrUserInfo (hdr.hdr.drop 16))).totalSize
      opened.inst) s₃ = (s₄, start)) :
    openAnswers B t name s = ⟨lookup, opened, hdr, start, s₄.1⟩ := by
  obtain ⟨rfl, rfl⟩ := Prod.ext_iff.mp hl
  obtain ⟨rfl, rfl⟩ := Prod.ext_iff.mp ho
  obtain ⟨rfl, rfl⟩ := Prod.ext_iff.mp hr
  obtain ⟨rfl, rfl⟩ := Prod.ext_iff.mp hm
  rfl

/-- The allocations of a context succeed: the one for the name of the section may
fail. -/
structure CtxAllocated (heap : Heap) : Prop where
  ctx : heap.oom heap.next = false
  syncCtx : heap.oom (heap.next + 2) = false
  window : heap.oom (heap.next + 3) = false

/-- The tests that the code makes of a header. -/
structure HdrChecked (bs : List UInt8) : Prop where
  magic : leNat (bs.take 8) = SHD_MAGIC_NUMBER
  major : leNat ((bs.drop 8).take 4) = SHD_VERSION_MAJOR

/-- The tests that the code makes of a mapping. -/
structure Mapped (heap : Heap) (a : OpenAnswers) : Prop where
  start : 0 ≤ a.start
  map : heap.oom (heap.next + 5) = false
  desc : heap.oom (heap.next + 6) = false

/-- The tests that the code makes of a revision number. -/
structure RevisionChecked (v : Int) : Prop where
  parity : Int.tmod v 2 ≠ 1
  sentinel : v ≠ -EAGAIN

/-- All the tests of `shd_open`. -/
structure Checked (name : String) (heap : Heap) (a : OpenAnswers) : Prop where
  name : '/' ∉ name.toList
  lookup : 0 ≤ a.lookup
  opened : 0 ≤ a.opened.ret
  allocated : CtxAllocated heap
  rev : heap.oom (heap.next + 4) = false
  hdr : HdrChecked a.hdr.hdr
  mapped : Mapped heap a
  revision : RevisionChecked a.revision

/-! ## One function at a time -/

theorem exec_callBackend (c : BackendCall) :
    exec (machine B) t (callBackend c) w = ((B.call t c (w.mem, w.os)).2,
      { w with mem := (B.call t c (w.mem, w.os)).1.1, os := (B.call t c (w.mem, w.os)).1.2 }) := rfl

theorem exec_calloc_ok (what : Alloc) {m : Mem} {heap : Heap} {os : Ω}
    (h : heap.oom heap.next = false) :
    exec (machine B) t (calloc what) ⟨m, heap, os⟩
      = (some heap.next, ⟨m, { heap with next := heap.next + 1 }, os⟩) := by
  change ((if heap.oom heap.next then none else some heap.next), _) = _
  rw [h]
  rfl

theorem exec_calloc_oom (what : Alloc) {m : Mem} {heap : Heap} {os : Ω}
    (h : heap.oom heap.next = true) :
    exec (machine B) t (calloc what) ⟨m, heap, os⟩
      = (none, ⟨m, { heap with next := heap.next + 1 }, os⟩) := by
  change ((if heap.oom heap.next then none else some heap.next), _) = _
  rw [h]
  rfl

/-- An allocation whose result nobody tests. -/
theorem exec_calloc_any (what : Alloc) :
    ∃ p, exec (machine B) t (calloc what) w
      = (p, { w with heap := { w.heap with next := w.heap.next + 1 } }) := ⟨_, rfl⟩

theorem exec_openError (inst : Nat) (rev : Option Nat) (ctx : Option CtxAllocs) (w : World Ω) :
    (exec (machine B) t (openError inst rev ctx) w).1 = none := by
  rw [openError, exec_bind, exec_bind]
  rfl

theorem exec_ctxNewError (inst : Nat) (a : CtxAllocs) (w : World Ω) :
    (exec (machine B) t (ctxNewError inst a) w).1 = none := by
  rw [ctxNewError, exec_bind, exec_bind, exec_bind]
  rfl

/-- `shd_ctx_new` fails exactly if one of three allocations does. -/
theorem exec_ctxNew (inst : Nat) (w : World Ω) :
    (CtxAllocated w.heap ∧ ∃ a, exec (machine B) t (ctxNew inst) w
        = (some a, { w with heap := { w.heap with next := w.heap.next + 4 } })) ∨
      (¬ CtxAllocated w.heap ∧ (exec (machine B) t (ctxNew inst) w).1 = none) := by
  rw [ctxNew, exec_bind]
  cases hctx : w.heap.oom w.heap.next with
  | true =>
    rw [exec_calloc_oom _ hctx]
    exact Or.inr ⟨fun h => absurd h.ctx (by rw [hctx]; decide), rfl⟩
  | false =>
    rw [exec_calloc_ok _ hctx]
    dsimp only
    obtain ⟨name, hname⟩ := exec_calloc_any (B := B) (t := t)
      (w := { w with heap := { w.heap with next := w.heap.next + 1 } }) .blobName
    rw [exec_bind, hname, exec_bind]
    dsimp only
    cases hsync : w.heap.oom (w.heap.next + 2) with
    | true =>
      rw [exec_calloc_oom .syncCtx hsync, if_pos rfl]
      exact Or.inr ⟨fun h => absurd h.syncCtx (by rw [hsync]; decide), exec_ctxNewError _ _ _⟩
    | false =>
      rw [exec_calloc_ok .syncCtx hsync, if_neg (by simp), exec_bind]
      dsimp only
      cases hwindow : w.heap.oom (w.heap.next + 3) with
      | true =>
        rw [exec_calloc_oom .window hwindow, if_pos rfl]
        exact Or.inr ⟨fun h => absurd h.window (by rw [hwindow]; decide), exec_ctxNewError _ _ _⟩
      | false =>
        rw [exec_calloc_ok .window hwindow, if_neg (by simp)]
        exact Or.inl ⟨⟨hctx, hsync, hwindow⟩, _, rfl⟩

/-- `shd_hdr_read` looks at the bytes only. -/
theorem exec_hdrReadBackend (inst : Nat) {r : HdrReadResult} {s : Mem × Ω}
    (hr : B.call t (.hdrRead inst) (w.mem, w.os) = (s, r)) :
    ∃ ret, exec (machine B) t (hdrReadBackend inst) w
        = ((ret, decHdrUserInfo (r.hdr.drop 16)), { w with mem := s.1, os := s.2 }) ∧
      ((HdrChecked r.hdr ∧ ret = 0) ∨ (¬ HdrChecked r.hdr ∧ ret = -EFAULT)) := by
  rw [hdrReadBackend, exec_bind, exec_callBackend, hr]
  dsimp only
  split
  · rename_i hmagic
    exact ⟨-EFAULT, rfl, Or.inr ⟨fun h => hmagic h.magic, rfl⟩⟩
  · rename_i hmagic
    split
    · rename_i hmajor
      exact ⟨-EFAULT, rfl, Or.inr ⟨fun h => hmajor h.major, rfl⟩⟩
    · rename_i hmajor
      exact ⟨0, rfl, Or.inl ⟨⟨not_not.mp hmagic, not_not.mp hmajor⟩, rfl⟩⟩

/-- The mapping of a header, and its description. -/
theorem exec_dataSectionDescNew_ok (map : SectionMap) (h : w.heap.oom w.heap.next = false) :
    ∃ q, exec (machine B) t (dataSectionDescNew map none) w
      = (some q, { w with heap := { w.heap with next := w.heap.next + 1 } }) := by
  rw [dataSectionDescNew, exec_bind, exec_calloc_ok _ h]
  exact ⟨_, rfl⟩

theorem exec_sectionMap (inst : Nat) (h : HdrUserInfo) {start : Int} {s : Mem × Ω}
    (hm : B.call t (.getSectionStart (getOffsets lp64 h).totalSize inst) (w.mem, w.os) = (s, start)) :
    (0 ≤ start ∧ w.heap.oom w.heap.next = false ∧
        exec (machine B) t (sectionMap inst h) w = (some (w.heap.next, getMmap (getOffsets lp64 h)),
          { mem := s.1, os := s.2, heap := { w.heap with next := w.heap.next + 1 } })) ∨
      (¬ (0 ≤ start ∧ w.heap.oom w.heap.next = false) ∧
        (exec (machine B) t (sectionMap inst h) w).1 = none) := by
  rw [sectionMap, exec_bind, exec_callBackend, hm]
  dsimp only
  by_cases hstart : start < 0
  · rw [if_pos hstart]
    exact Or.inr ⟨fun h => absurd h.1 (by omega), rfl⟩
  rw [if_neg hstart, exec_bind]
  cases hoom : w.heap.oom w.heap.next with
  | true =>
    rw [exec_calloc_oom .map hoom]
    exact Or.inr ⟨fun h => absurd h.2 (by decide), rfl⟩
  | false =>
    rw [exec_calloc_ok .map hoom]
    exact Or.inl ⟨by omega, rfl, rfl⟩

/-- `shd_ctx_mmap` of a consumer, in the state that the open of the section left. -/
theorem exec_ctxMmap_open (inst : Nat) (a : CtxAllocs) {r : HdrReadResult} {s s' : Mem × Ω}
    {start : Int} (hr : B.call t (.hdrRead inst) (w.mem, w.os) = (s, r))
    (hm : B.call t (.getSectionStart (getOffsets lp64 (decHdrUserInfo (r.hdr.drop 16))).totalSize inst)
      s = (s', start)) :
    ((HdrChecked r.hdr ∧ 0 ≤ start ∧ w.heap.oom w.heap.next = false ∧
        w.heap.oom (w.heap.next + 1) = false) ∧
      ∃ a' map desc, map.syncTop = 40 ∧ exec (machine B) t (ctxMmap inst (some a) none) w
        = (⟨0, some a', some (map, desc)⟩,
          { mem := s'.1, os := s'.2, heap := { w.heap with next := w.heap.next + 2 } })) ∨
      (¬ (HdrChecked r.hdr ∧ 0 ≤ start ∧ w.heap.oom w.heap.next = false ∧
        w.heap.oom (w.heap.next + 1) = false) ∧
      (exec (machine B) t (ctxMmap inst (some a) none) w).1.parts = none) := by
  obtain ⟨ret, hread, hcheck⟩ := exec_hdrReadBackend (t := t) (w := w) inst hr
  rw [ctxMmap, exec_bind, sectionMappingNew, exec_bind, hread]
  rcases hcheck with ⟨hok, rfl⟩ | ⟨hbad, rfl⟩
  · rw [if_neg (lt_irrefl 0)]
    rcases exec_sectionMap (w := { w with mem := s.1, os := s.2 }) inst _ hm with
      ⟨hstart, hoom, hmap⟩ | ⟨hno, hmap⟩
    · rw [hmap]
      dsimp only
      rw [exec_bind]
      cases hdesc : w.heap.oom (w.heap.next + 1) with
      | true =>
        rw [dataSectionDescNew, exec_bind, exec_calloc_oom .desc hdesc]
        exact Or.inr ⟨fun h => absurd h.2.2.2 (by decide), rfl⟩
      | false =>
        obtain ⟨q, hq⟩ := exec_dataSectionDescNew_ok (B := B) (t := t)
          (w := { mem := s'.1, os := s'.2, heap := { w.heap with next := w.heap.next + 1 } })
          (getMmap (getOffsets lp64 (decHdrUserInfo (r.hdr.drop 16)))) hdesc
        rw [hq]
        exact Or.inl ⟨⟨hok, hstart, hoom, rfl⟩, _, _, _, rfl, rfl⟩
    · refine Or.inr ⟨fun h => hno ⟨h.2.1, h.2.2.1⟩, ?_⟩
      obtain ⟨x, hx⟩ : ∃ x, exec (machine B) t (sectionMap inst (decHdrUserInfo (r.hdr.drop 16)))
        { w with mem := s.1, os := s.2 } = x := ⟨_, rfl⟩
      rw [hx] at hmap ⊢
      rw [hmap]
      rfl
  · rw [if_pos (show -EFAULT < 0 by decide)]
    exact Or.inr ⟨fun h => hbad h.1, rfl⟩

/-- `shd_sync_update_local_revision_nb`: the revision number, if it passes the test. -/
theorem exec_updateLocalRevisionNb (ctx : SyncCtx) :
    ∃ r, exec (machine B) t (syncUpdateLocalRevisionNb ctx 40) w = (r, w) ∧
      ((RevisionChecked (nbCreations w.mem) ∧ r.1 = nbCreations w.mem ∧ r.1 ≠ -EAGAIN) ∨
        (¬ RevisionChecked (nbCreations w.mem) ∧ r.1 = -EAGAIN)) := by
  rw [syncUpdateLocalRevisionNb, exec_bind, exec_load32]
  change ∃ r, exec (machine B) t (if Int.tmod (nbCreations w.mem) 2 = 1 then _ else _) w = _ ∧ _
  by_cases hodd : Int.tmod (nbCreations w.mem) 2 = 1
  · rw [if_pos hodd]
    exact ⟨_, rfl, Or.inr ⟨fun h => h.parity hodd, rfl⟩⟩
  · rw [if_neg hodd]
    refine ⟨_, rfl, ?_⟩
    by_cases heq : nbCreations w.mem = -EAGAIN
    · exact Or.inr ⟨fun h => h.sentinel heq, heq⟩
    · exact Or.inl ⟨⟨hodd, heq⟩, rfl, heq⟩

/-- `shd_section_open`: the callback is called if the name is one of a section. -/
theorem exec_sectionOpen (name : String) {s s' : Mem × Ω} {lookup : Int} {opened : OpenResult}
    (hl : B.call t (.lookup name) (w.mem, w.os) = (s, lookup))
    (ho : B.call t (.openSection name) s = (s', opened)) :
    ('/' ∉ name.toList ∧ 0 ≤ lookup ∧
        exec (machine B) t (sectionOpen name) w = (opened, { w with mem := s'.1, os := s'.2 })) ∨
      (¬ ('/' ∉ name.toList ∧ 0 ≤ lookup) ∧ (exec (machine B) t (sectionOpen name) w).1.ret < 0) := by
  rw [sectionOpen, exec_bind, initSectionInfos]
  by_cases hslash : '/' ∈ name.toList
  · rw [if_pos hslash]
    exact Or.inr ⟨fun h => h.1 hslash, show -EINVAL < 0 by decide⟩
  rw [if_neg hslash, exec_bind, exec_callBackend, hl]
  dsimp only
  by_cases hneg : lookup < 0
  · rw [if_pos hneg]
    exact Or.inr ⟨fun h => absurd h.2 (by omega), show -ENOENT < 0 by decide⟩
  · rw [if_neg hneg]
    refine Or.inl ⟨hslash, by omega, ?_⟩
    rw [exec_pure, if_neg (lt_irrefl 0), exec_callBackend]
    dsimp only
    rw [ho]

/-! ## The whole of `shd_open` -/

/-- The tests of the code decide, and the revision is that of the section. -/
theorem exec_openCtx (B : Backend Ω) (t : Nat) (name : String) (env : Option String) (w : World Ω) :
    (Checked name w.heap (openAnswers B t name (w.mem, w.os)) ∧
      ∃ ctx, (exec (machine B) t (openCtx name env) w).1
        = some (ctx, (openAnswers B t name (w.mem, w.os)).revision)) ∨
      (¬ Checked name w.heap (openAnswers B t name (w.mem, w.os)) ∧
        (exec (machine B) t (openCtx name env) w).1 = none) := by
  obtain ⟨s₁, lookup, hl⟩ : ∃ s r, B.call t (.lookup name) (w.mem, w.os) = (s, r) := ⟨_, _, rfl⟩
  obtain ⟨s₂, opened, ho⟩ : ∃ s r, B.call t (.openSection name) s₁ = (s, r) := ⟨_, _, rfl⟩
  obtain ⟨s₃, hdr, hr⟩ : ∃ s r, B.call t (.hdrRead opened.inst) s₂ = (s, r) := ⟨_, _, rfl⟩
  obtain ⟨s₄, start, hm⟩ : ∃ s r, B.call t (.getSectionStart
    (getOffsets lp64 (decHdrUserInfo (hdr.hdr.drop 16))).totalSize opened.inst) s₃ = (s, r) :=
    ⟨_, _, rfl⟩
  rw [openAnswers_eq hl ho hr hm, openCtx, exec_bind]
  rcases exec_sectionOpen (w := w) name hl ho with ⟨hname, hlookup, hopen⟩ | ⟨hno, hret⟩
  swap
  · rw [if_pos hret]
    exact Or.inr ⟨fun h => hno ⟨h.name, h.lookup⟩, exec_openError _ _ _ _⟩
  rw [hopen]
  dsimp only
  by_cases hret : opened.ret < 0
  · rw [if_pos hret]
    exact Or.inr ⟨fun h => absurd hret (not_lt.mpr h.opened), exec_openError _ _ _ _⟩
  rw [if_neg hret, exec_bind]
  rcases exec_ctxNew (B := B) (t := t) opened.inst { w with mem := s₂.1, os := s₂.2 } with
    ⟨halloc, a, hctx⟩ | ⟨hno, hctx⟩
  swap
  · -- without a context the mapping fails as well
    obtain ⟨x, hx⟩ : ∃ x, exec (machine B) t (ctxNew opened.inst) { w with mem := s₂.1, os := s₂.2 } = x :=
      ⟨_, rfl⟩
    rw [hx] at hctx ⊢
    rw [hctx, exec_bind]
    refine Or.inr ⟨fun h => hno h.allocated, ?_⟩
    split
    · exact exec_openError _ _ _ _
    · exact exec_openError _ _ _ _
  rw [hctx, exec_bind]
  dsimp only
  cases hrev : w.heap.oom (w.heap.next + 4) with
  | true =>
    rw [exec_calloc_oom .rev hrev, if_pos rfl]
    exact Or.inr ⟨fun h => absurd h.rev (by rw [hrev]; decide), exec_openError _ _ _ _⟩
  | false =>
    rw [exec_calloc_ok .rev hrev, if_neg (by simp), exec_bind]
    dsimp only
    rcases exec_ctxMmap_open (w := ⟨s₂.1, { w.heap with next := w.heap.next + 5 }, s₂.2⟩) opened.inst a
      hr hm with ⟨⟨hhdr, hstart, hmap, hdesc⟩, a', map, desc, hsync, hmmap⟩ | ⟨hno, hmmap⟩
    · rw [hmmap]
      dsimp only
      rw [exec_bind, hsync]
      obtain ⟨r, hupd, hcase⟩ := exec_updateLocalRevisionNb (B := B) (t := t) (w := ⟨s₄.1,
        { w.heap with next := w.heap.next + 7 }, s₄.2⟩) syncCtxInit
      rw [hupd]
      rcases hcase with ⟨hok, hval, hne⟩ | ⟨hbad, hagain⟩
      · rw [if_neg hne]
        refine Or.inl ⟨⟨hname, hlookup, not_lt.mp hret, halloc, hrev, hhdr, ⟨hstart, hmap, hdesc⟩, hok⟩, ?_⟩
        rw [hval]
        exact ⟨_, rfl⟩
      · rw [if_pos hagain]
        exact Or.inr ⟨fun h => hbad h.revision, exec_openError _ _ _ _⟩
    · refine Or.inr ⟨fun h => hno ⟨h.hdr, h.mapped.start, h.mapped.map, h.mapped.desc⟩, ?_⟩
      obtain ⟨x, hx⟩ : ∃ x, exec (machine B) t (ctxMmap opened.inst (some a) none)
        ⟨s₂.1, { w.heap with next := w.heap.next + 5 }, s₂.2⟩ = x := ⟨_, rfl⟩
      rw [hx] at hmmap ⊢
      split
      · rename_i hparts
        exact absurd (hmmap.symm.trans hparts) (by simp)
      · exact exec_openError _ _ _ _

/-! ## Admission -/

/-- A section that should be admitted, with the revision stored for the caller. -/
structure ValidSection (heap : Heap) (a : OpenAnswers) (rev : Int) : Prop where
  hdrRead : 0 ≤ a.hdr.ret
  hdr : HdrChecked a.hdr.hdr
  mapped : Mapped heap a
  even : Even a.revision
  stored : rev = a.revision

theorem tmod_two_cases (v : Int) : Int.tmod v 2 = 0 ∨ Int.tmod v 2 = 1 ∨ Int.tmod v 2 = -1 := by
  have h := Int.mul_tdiv_add_tmod v 2
  have hlt := Int.tmod_lt_of_pos v (b := 2) (by omega)
  have hgt : -2 < Int.tmod v 2 := by
    have := Int.lt_tmod_of_pos v (b := 2) (by omega)
    omega
  omega

/-- **What `shd_open` admits.** For every backend, name and section the call returns
contexts of valid sections only, with their revision, if and only if one of
its own tests fails, or `hdr_read` succeeded and the remainder of the
revision number by 2 is not `-1`. -/
theorem open_admits_iff (B : Backend Ω) (t : Nat) (name : String) (env : Option String)
    (w : World Ω) :
    (∀ ctx rev, (exec (machine B) t (openCtx name env) w).1 = some (ctx, rev) →
        ValidSection w.heap (openAnswers B t name (w.mem, w.os)) rev) ↔
      (Checked name w.heap (openAnswers B t name (w.mem, w.os)) →
        0 ≤ (openAnswers B t name (w.mem, w.os)).hdr.ret ∧
          Int.tmod (openAnswers B t name (w.mem, w.os)).revision 2 ≠ -1) := by
  obtain ⟨a, ha⟩ : ∃ a, openAnswers B t name (w.mem, w.os) = a := ⟨_, rfl⟩
  have hrun := exec_openCtx B t name env w
  rw [ha] at hrun ⊢
  rcases hrun with ⟨hok, ctx, hex⟩ | ⟨hno, hex⟩
  · have hparity := hok.revision.parity
    have hcases := tmod_two_cases a.revision
    rw [hex]
    constructor
    · intro h _
      have hvalid := h ctx a.revision rfl
      refine ⟨hvalid.hdrRead, fun hneg => ?_⟩
      obtain ⟨n, hn⟩ := hvalid.even
      rw [hn, ← Int.two_mul, Int.mul_tmod_right] at hneg
      exact absurd hneg (by decide)
    · intro h ctx' rev hsome
      obtain ⟨hret, hneg⟩ := h hok
      have hzero : Int.tmod a.revision 2 = 0 := (hcases.resolve_right fun h => h.elim hparity hneg)
      refine ⟨hret, hok.hdr, hok.mapped, ?_, ?_⟩
      · exact even_iff_two_dvd.mpr (Int.dvd_of_tmod_eq_zero hzero)
      · exact (Prod.ext_iff.mp (Option.some.inj hsome)).2.symm
  · rw [hex]
    exact iff_of_true (fun ctx rev h => absurd h (by simp)) fun h => absurd h hno

/-! ## Sections that should be refused -/

/-- Shared memory files with an `hdr_read` that fails: the buffer is what an earlier
call left on the stack. -/
def staleHdr : Backend Shm where
  call t
    | .hdrRead _, s => (s, ⟨-ENOMEM, s.1.read 0 56⟩)
    | c, s => shm.call t c s

/-- A creation is going on after 2^31 revisions: the revision number is negative and
odd. -/
def negativeRevision : World Shm :=
  { (created 4).2 with mem := (created 4).2.mem.write 40 (encI32 (-3)) }

/-- Both get a context. -/
theorem open_admits_invalid :
    ((exec (machine staleHdr) 1 (openCtx "section" none) (created 4).2).1.map Prod.snd = some 2 ∧
      ¬ ValidSection (created 4).2.heap
        (openAnswers staleHdr 1 "section" ((created 4).2.mem, (created 4).2.os)) 2) ∧
    ((exec (machine shm) 1 (openCtx "section" none) negativeRevision).1.map Prod.snd = some (-3) ∧
      ¬ ValidSection negativeRevision.heap
        (openAnswers shm 1 "section" (negativeRevision.mem, negativeRevision.os)) (-3)) := by
  refine ⟨⟨by decide +kernel, fun h => ?_⟩, by decide +kernel, fun h => ?_⟩
  · exact absurd h.hdrRead (by decide +kernel)
  · exact absurd (h.stored ▸ h.even) (by decide)

end Shdata.Solo
