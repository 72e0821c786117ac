/-
Shdata.Revision.Authors — who ended each creation, and what it left behind the
section header.

`Log` has the revision and the header of each creation. The bytes of the blob
metadata are an argument of the creation only, so `Authors` also records
which thread ended it, and for each thread the revision that it compared last.

`Attributed` ties this to the section: while no creation is between its two
updates of the revision, the metadata in the section are those of the
thread that ended the last creation. `Beside` adds this to `Rely`. That the
steps of a run keep `Rely` is known from `Creator` and `Opener`, so it is part of
what a step is assumed to meet here (`Orderly`).
-/
import Shdata.Revision.Opener

namespace Shdata.Revision

open Shdata.Conc Shdata.Bytes Shdata.Core Shdata.Ring Shdata.Layout Shdata.Solo

/-! ## Creators and readers -/

/-- The calls that read a header of the section. -/
inductive HdrCall where
  | sectionHdr
  | blobMetadataHdr (size : Nat)

/-- The code and what was delivered. -/
inductive HdrRead where
  | sectionHdr (ret : Int) (hdrInfo : Option HdrUserInfo)
  | blobMetadataHdr (ret : Int) (dst : Option (List UInt8))
  deriving DecidableEq

def HdrCall.prog (ctx : ShdCtx) (rev : Int) : HdrCall → ShdProg HdrRead
  | .sectionHdr => do
    let r ← readSectionHdr ctx rev
    return .sectionHdr r.1 r.2
  | .blobMetadataHdr size => do
    let r ← readBlobMetadataHdr ctx size rev
    return .blobMetadataHdr r.1 r.2

def readAll (ctx : ShdCtx) (rev : Int) : List HdrCall → ShdProg (List HdrRead)
  | [] => return []
  | call :: calls => do
    let r ← call.prog ctx rev
    let rs ← readAll ctx rev calls
    return r :: rs

/-- What a thread does: a creation, or an opening followed by any number of reads with the
revision that it gave. -/
inductive Party where
  | creator (name : String) (hdrInfo : HdrUserInfo) (mdata : List UInt8) (env : Option String)
  | reader (name : String) (env : Option String) (calls : List HdrCall)

/-- What a thread returns. -/
inductive Report where
  | created (ctx : Option ShdCtx)
  | unopened
  | read (rev : Int) (reads : List HdrRead)
  deriving DecidableEq

namespace Party

def prog : Party → ShdProg Report
  | .creator name hdrInfo mdata env => do
    let p ← create name hdrInfo mdata env
    return .created p
  | .reader name env calls => do
    let r ← openCtx name env
    match r with
    | none => return .unopened
    | some (ctx, rev) => do
      let reads ← readAll ctx rev calls
      return .read rev reads

/-- The header and the metadata that a creation writes. -/
def hdr : Party → Option HdrUserInfo
  | .creator _ hdrInfo _ _ => some hdrInfo
  | .reader _ _ _ => none

def mdata : Party → List UInt8
  | .creator _ hdrInfo mdata _ => mdata.take hdrInfo.blobMetadataHdrSize.toNat
  | .reader _ _ _ => []

/-- The section of a creation can be mapped, and its metadata are there to be read. -/
def Safe : Party → Prop
  | .creator _ hdrInfo mdata _ =>
    SafeHdr hdrInfo ∧ hdrInfo.blobMetadataHdrSize.toNat ≤ mdata.length
  | .reader _ _ _ => True

end Party

/-! ## Authors -/

/-- A creation that ended. -/
structure Ending where
  revision : Int
  hdr : HdrUserInfo
  author : Nat
  deriving DecidableEq

structure Authors where
  ended : List Ending
  /-- the revision that a thread loaded last to compare it with its own -/
  compared : Nat → Int

variable {Ω : Type}

/-- The record after an operation. -/
def sign (t : Nat) (o : Op) (s : World Ω × Log) (_ : o.Resp) (α : Authors) : Authors :=
  match o with
  | .addAndFetch .updateGlobalRevisionNb a v =>
    if Int.tmod (toI32 (s.1.mem.i32 a + v)) 2 = 0 then
      { α with ended := α.ended ++ [⟨toI32 (s.1.mem.i32 a + v), s.2.hdr, t⟩] }
    else
      α
  | .read .checkRevisionNb a _ =>
    { α with compared := Function.update α.compared t (s.1.mem.i32 a) }
  | _ => α

/-- The state of a section with its log and its authors. -/
abbrev Signed (Ω : Type) := (World Ω × Log) × Authors

def signed (B : Backend Ω) : Machine Op.Resp Nat (Signed Ω) := (watched B).ghost sign

/-- The blob metadata in the section, as long as the header written last says. -/
def mdataIn (s : World Ω × Log) : List UInt8 := s.1.mem.read 56 s.2.hdr.blobMetadataHdrSize.toNat

/-- The authors fit the log and the metadata. With `D`, the metadata were not dropped
by a call of the backend. -/
structure Attributed (D : Prop) (ps : Nat → Party) (s : Signed Ω) : Prop where
  log : s.2.ended.map (fun e => (e.revision, e.hdr)) = s.1.2.ended
  hdr : ∀ e ∈ s.2.ended, (ps e.author).hdr = some e.hdr
  last : s.1.2.writer = none → ∀ e ∈ s.2.ended.getLast?,
    s.1.2.hdr = e.hdr ∧ (D → mdataIn s.1 = (ps e.author).mdata)

/-- What may happen between two operations of thread `u`. -/
structure Beside {B : Backend Ω} (K : B.Stable) (D : Prop) (ps : Nat → Party) (u : Nat)
    (s s' : Signed Ω) : Prop where
  rely : Rely K u s.1 s'.1
  attributed : Attributed D ps s → Attributed D ps s'
  ended : s.2.ended <+: s'.2.ended
  compared : s'.2.compared u = s.2.compared u
  mdata : D → s.1.2.writer = some u → mdataIn s'.1 = mdataIn s.1

/-- What thread `t` guarantees to the others. -/
def GuarBeside {B : Backend Ω} (K : B.Stable) (D : Prop) (ps : Nat → Party) (t : Nat) (_ : Op)
    (s s' : Signed Ω) : Prop := ∀ u, u ≠ t → Beside K D ps u s s'

/-- A call of the backend leaves the blob metadata in place. -/
def KeepsMdata (B : Backend Ω) (t : Nat) : Op → Signed Ω → Prop
  | .backend c, s =>
    (B.call t c (s.1.1.mem, s.1.1.os)).1.1.read 56 s.1.2.hdr.blobMetadataHdrSize.toNat = mdataIn s.1
  | _, _ => True

/-- A step that meets `C`, and keeps what the others rely on as far as the log goes. -/
def Orderly (B : Backend Ω) (K : B.Stable) (C : Nat → Op → Signed Ω → Prop) (t : Nat) (o : Op)
    (s : Signed Ω) : Prop :=
  C t o s ∧ Consistent K s.1 ∧ Guar K t o s.1 ((signed B).step t o s).1.1

variable {B : Backend Ω} {K : B.Stable} {D : Prop} {ps : Nat → Party} {t u : Nat}
  {s s' s'' : Signed Ω}

theorem Beside.refl (K : B.Stable) (D : Prop) (ps : Nat → Party) (u : Nat) (s : Signed Ω) :
    Beside K D ps u s s where
  rely := Rely.refl K u s.1
  attributed := id
  ended := List.prefix_refl _
  compared := rfl
  mdata := fun _ _ => rfl

theorem Beside.trans (h : Beside K D ps u s s') (h' : Beside K D ps u s' s'') :
    Beside K D ps u s s'' where
  rely := h.rely.trans h'.rely
  attributed := fun ha => h'.attributed (h.attributed ha)
  ended := h.ended.trans h'.ended
  compared := h'.compared.trans h.compared
  mdata := fun hd hw => (h'.mdata hd (h.rely.own hw).1).trans (h.mdata hd hw)

/-! ## Steps that write nothing -/

/-- An operation that writes no byte of the section itself. -/
def Passive : Op → Prop
  | .write _ _ _ | .addAndFetch _ _ _ => False
  | _ => True

theorem watch_passive {o : Op} (ho : Passive o) (w : World Ω) (r : o.Resp) (γ : Log) :
    (watch t o w r γ).toProgress = γ.toProgress := by
  cases o with
  | read site a len => cases site <;> rfl
  | write site a src => exact absurd ho id
  | addAndFetch site a v => exact absurd ho id
  | backend c => cases c <;> rfl
  | _ => rfl

theorem sign_ended {o : Op} (ho : ∀ a v, o ≠ .addAndFetch .updateGlobalRevisionNb a v)
    (s : World Ω × Log) (r : o.Resp) (α : Authors) : (sign t o s r α).ended = α.ended := by
  cases o with
  | read site a len => cases site <;> rfl
  | addAndFetch site a v => cases site <;> first | rfl | exact absurd rfl (ho a v)
  | _ => rfl

/-- A record of another thread. -/
theorem sign_compared (hu : u ≠ t) (o : Op) (s : World Ω × Log) (r : o.Resp) (α : Authors) :
    (sign t o s r α).compared u = α.compared u := by
  cases o with
  | read site a len => cases site <;> first | rfl | exact Function.update_of_ne hu _ _
  | addAndFetch site a v =>
    cases site <;> first | rfl | skip
    unfold sign
    dsimp only
    split <;> rfl
  | _ => rfl

variable {C : Nat → Op → Signed Ω → Prop}

/-- A step that leaves the progress and the metadata alone. -/
theorem beside_of_same {o : Op} (hc : Orderly B K C t o s) (hu : u ≠ t)
    (hs' : s' = ((signed B).step t o s).1) (hlog : s'.1.2.toProgress = s.1.2.toProgress)
    (hended : s'.2.ended = s.2.ended) (hmdata : D → mdataIn s'.1 = mdataIn s.1) :
    Beside K D ps u s s' where
  rely := hs' ▸ hc.2.2 u hu
  attributed := fun ha => by
    refine ⟨by rw [hended, hlog]; exact ha.log, by rw [hended]; exact ha.hdr, fun hw e he => ?_⟩
    rw [hlog] at hw
    rw [hended] at he
    obtain ⟨hhdr, hmd⟩ := ha.last hw e he
    exact ⟨by rw [hlog]; exact hhdr, fun hd => (hmdata hd).trans (hmd hd)⟩
  ended := by rw [hended]
  compared := hs' ▸ sign_compared hu o s.1 _ s.2
  mdata := fun hd _ => hmdata hd

/-- A step that writes nothing, whoever makes it. -/
theorem beside_passive (hD : D → ∀ t o s, C t o s → KeepsMdata B t o s) {o : Op} (ho : Passive o)
    (hc : Orderly B K C t o s) (hu : u ≠ t) :
    Beside K D ps u s ((signed B).step t o s).1 := by
  have hlog : ((signed B).step t o s).1.1.2.toProgress = s.1.2.toProgress := watch_passive ho _ _ _
  refine beside_of_same hc hu rfl hlog (sign_ended (fun a v h => ?_) _ _ _) fun hd => ?_
  · subst h
    exact ho
  · unfold mdataIn
    rw [hlog]
    cases o with
    | write site a src => exact absurd ho id
    | addAndFetch site a v => exact absurd ho id
    | backend c => exact hD hd t _ s hc.1
    | _ => rfl

/-- A program that writes nothing. -/
theorem wp_passive (hD : D → ∀ t o s, C t o s → KeepsMdata B t o s) {α : Type} {p : ShdProg α}
    {Q : α → Prop} (hp : p.Ensures (fun _ _ => True) Passive Q) (s : Signed Ω) :
    wp (signed B) t (Orderly B K C) (Beside K D ps t) (GuarBeside K D ps t) p
      (fun a _ => Q a) s := by
  refine wp_mono (wp_invariant (I := fun _ => True) (fun _ _ _ _ => trivial) (fun o v ho _ hc => ?_)
    hp trivial) fun _ _ => And.left
  exact ⟨fun u hu => beside_passive hD ho hc hu, trivial, trivial⟩

/-- What is known of a program beside `Rely` still is, for one that writes nothing, with
what such steps and interference keep. -/
theorem wp_passive_of (hD : D → ∀ t o s, C t o s → KeepsMdata B t o s) (I : Signed Ω → Prop)
    (hI : ∀ {u a b}, I a → Beside K D ps u a b → I b) {α : Type} {p : ShdProg α} {Q' : α → Prop}
    {Q : α → Signed Ω → Prop} {G : Op → Signed Ω → Signed Ω → Prop} (hs : I s)
    (hp : p.Ensures (fun _ _ => True) Passive Q')
    (h : wp (signed B) t (Orderly B K C) (Beside K D ps t) G p Q s) :
    wp (signed B) t (Orderly B K C) (Beside K D ps t) (GuarBeside K D ps t) p
      (fun a s' => Q' a ∧ I s' ∧ Q a s') s := by
  refine wp_guarantee (fun _ _ hi hb => hI hi hb) (fun o v ho hi hc => ?_) h hp hs
  exact ⟨fun u hu => beside_passive hD ho hc hu,
    hI hi (beside_passive (u := t + 1) hD ho hc (by omega))⟩

/-- A specification of the log is one of the authors too. -/
theorem wp_signed {α : Type} {p : ShdProg α} {Q : α → World Ω × Log → Prop}
    (h : wp (watched B) t (fun _ _ _ => True) (Rely K t) (Guar K t) p Q s.1) :
    wp (signed B) t (Orderly B K C) (Beside K D ps t) (fun o a b => Guar K t o a.1 b.1) p
      (fun a s' => Q a s'.1) s :=
  wp_weaken (wp_ghost (fun _ _ _ => trivial) h) (fun _ _ hb => hb.rely) fun _ _ _ => id

theorem passive_of_offSection {o : Op} (ho : OffSection o) : Passive o := by
  cases o with
  | write site a src => exact absurd ho id
  | addAndFetch site a v => exact absurd ho id
  | _ => trivial

/-! ## Steps between the two updates -/

/-- Thread `t` is between its two updates, wrote the header `h` and, with `D`, left the
metadata `m`. -/
structure Holds (t : Nat) (s : Signed Ω) : Prop where
  writer : s.1.2.writer = some t

structure HoldsHdr (t : Nat) (h : HdrUserInfo) (s : Signed Ω) : Prop extends Holds t s where
  hdr : s.1.2.hdr = h

structure HoldsMdata (D : Prop) (t : Nat) (h : HdrUserInfo) (m : List UInt8) (s : Signed Ω) : Prop
    extends HoldsHdr t h s where
  mdata : D → mdataIn s.1 = m

theorem Holds.beside (hw : Holds t s) (hb : Beside K D ps t s s') : Holds t s' :=
  ⟨(hb.rely.own hw.writer).1⟩

theorem HoldsHdr.beside {h : HdrUserInfo} (hw : HoldsHdr t h s) (hb : Beside K D ps t s s') :
    HoldsHdr t h s' :=
  ⟨hw.toHolds.beside hb, (hb.rely.own hw.writer).2.2.trans hw.hdr⟩

theorem HoldsMdata.beside {h : HdrUserInfo} {m : List UInt8} (hw : HoldsMdata D t h m s)
    (hb : Beside K D ps t s s') : HoldsMdata D t h m s' :=
  ⟨hw.toHoldsHdr.beside hb, fun hd => (hb.mdata hd hw.writer).trans (hw.mdata hd)⟩

/-- A step that leaves thread `t` between its updates. -/
theorem beside_holding {o : Op} (hc : Orderly B K C t o s) (hu : u ≠ t)
    (hs' : s' = ((signed B).step t o s).1) (hw : s'.1.2.writer = some t)
    (hlog : s'.1.2.ended = s.1.2.ended) (hended : s'.2.ended = s.2.ended)
    (hother : s.1.2.writer ≠ some u) : Beside K D ps u s s' where
  rely := hs' ▸ hc.2.2 u hu
  attributed := fun ha =>
    { log := by rw [hended, hlog]; exact ha.log
      hdr := by rw [hended]; exact ha.hdr
      last := fun hnone => absurd (hw.symm.trans hnone) (by simp) }
  ended := by rw [hended]
  compared := hs' ▸ sign_compared hu o s.1 _ s.2
  mdata := fun _ h => absurd h hother

/-- What a creation does between its two updates. -/
def WritingOp : Op → Prop
  | .write .invalidateSection _ _ | .addAndFetch _ _ _ => False
  | _ => True

theorem watch_writing {o : Op} (ho : WritingOp o) (w : World Ω) (r : o.Resp) (γ : Log) :
    (watch t o w r γ).writer = γ.writer ∧ (watch t o w r γ).ended = γ.ended := by
  cases o with
  | read site a len => cases site <;> exact ⟨rfl, rfl⟩
  | write site a src => cases site <;> first | exact ⟨rfl, rfl⟩ | exact absurd ho id
  | addAndFetch site a v => exact absurd ho id
  | backend c => cases c <;> exact ⟨rfl, rfl⟩
  | _ => exact ⟨rfl, rfl⟩

theorem beside_writing {o : Op} (hc : Orderly B K C t o s) (ho : WritingOp o) (hw : Holds t s) :
    GuarBeside K D ps t o s ((signed B).step t o s).1 ∧ Holds t ((signed B).step t o s).1 := by
  obtain ⟨hwriter, hlog⟩ := watch_writing (t := t) ho s.1.1 ((signed B).step t o s).2 s.1.2
  have hw' : Holds t ((signed B).step t o s).1 := ⟨hwriter.trans hw.writer⟩
  refine ⟨fun u hu => beside_holding hc hu rfl hw'.writer hlog (sign_ended (fun a v h => ?_) _ _ _)
    fun h => hu (Option.some.inj (hw.writer.symm.trans h)).symm, hw'⟩
  subst h
  exact ho

/-- A program of such operations. -/
theorem wp_writing {α : Type} {p : ShdProg α} (hp : p.AllOps WritingOp) (hw : Holds t s) :
    wp (signed B) t (Orderly B K C) (Beside K D ps t) (GuarBeside K D ps t) p
      (fun _ s' => Holds t s') s := by
  refine wp_mono (wp_invariant (I := Holds t) (fun _ _ h hb => h.beside hb) (fun o v ho hv hc => ?_)
    hp hw) fun _ _ => And.right
  obtain ⟨hg, hw'⟩ := beside_writing hc ho hv
  exact ⟨hg, hw', trivial⟩

/-- The first update. -/
theorem wp_invalidate (hC : ∀ t o s, C t o s → InvalidateOk o s.1) (first : Bool) (s : Signed Ω) :
    wp (signed B) t (Orderly B K C) (Beside K D ps t) (GuarBeside K D ps t)
      (syncInvalidateSection 40 first) (fun _ s' => Holds t s') s := by
  cases first with
  | true =>
    intro s₁ _ hc
    have hnone := (hC t _ s₁ hc.1).1
    refine ⟨fun u hu => beside_holding hc hu rfl rfl rfl rfl (by rw [hnone]; simp), ?_⟩
    exact fun s₃ hb => Holds.beside ⟨rfl⟩ hb
  | false =>
    intro s₁ _ hc
    have hnone := (hC t _ s₁ hc.1).1
    refine ⟨fun u hu => beside_holding hc hu rfl rfl rfl rfl (by rw [hnone]; simp), ?_⟩
    exact fun s₃ hb => Holds.beside ⟨rfl⟩ hb

variable {h : HdrUserInfo}

/-- `shd_hdr_write`. -/
theorem wp_hdrWrite_holds (hw : Holds t s) (h : HdrUserInfo) :
    wp (signed B) t (Orderly B K C) (Beside K D ps t) (GuarBeside K D ps t) (hdrWrite 0 h)
      (fun _ s' => HoldsHdr t h s') s := by
  refine wp_perform fun s₁ hb₁ hc₁ => ?_
  obtain ⟨hg₁, hw₁⟩ := beside_writing hc₁ trivial (hw.beside hb₁)
  refine ⟨hg₁, wp_bind (Beside.refl K D ps t) (wp_mono (Q := fun _ s' => Holds t s') ?_ ?_)⟩
  · refine wp_writing ?_ hw₁
    split
    · exact ⟨trivial, fun _ _ => trivial⟩
    · exact trivial
  intro ret s₂ hw₂
  have hinit : (syncHdrInit (0 + lp64.offsetofSyncInfo)).AllOps WritingOp :=
    ⟨trivial, fun _ _ => ⟨trivial, fun _ _ => trivial⟩⟩
  refine wp_bind (Beside.refl K D ps t) (wp_mono (wp_writing hinit hw₂) ?_)
  intro _ s₃ hw₃
  refine wp_perform fun s₄ hb₄ hc₄ => ?_
  obtain ⟨hg₄, hw₄⟩ := beside_writing hc₄ trivial (hw₃.beside hb₄)
  refine ⟨hg₄, wp_perform fun s₅ hb₅ hc₅ => ?_⟩
  obtain ⟨hg₅, hw₅⟩ := beside_writing hc₅ trivial (hw₄.beside hb₅)
  refine ⟨hg₅, wp_perform fun s₆ hb₆ hc₆ => ?_⟩
  obtain ⟨hg₆, hw₆⟩ := beside_writing hc₆ trivial (hw₅.beside hb₆)
  -- the last write records the header
  exact ⟨hg₆, fun s₇ hb₇ => HoldsHdr.beside ⟨hw₆, rfl⟩ hb₇⟩

/-- `shd_mdata_hdr_write`. -/
theorem wp_mdataHdrWrite_holds {src : List UInt8} (hw : HoldsHdr t h s)
    (hlen : h.blobMetadataHdrSize.toNat ≤ src.length) :
    wp (signed B) t (Orderly B K C) (Beside K D ps t) (GuarBeside K D ps t)
      (mdataHdrWrite 56 src h.blobMetadataHdrSize.toNat)
      (fun _ s' => HoldsMdata D t h (src.take h.blobMetadataHdrSize.toNat) s') s := by
  have htake : (src.take h.blobMetadataHdrSize.toNat).length = h.blobMetadataHdrSize.toNat := by
    rw [List.length_take, Nat.min_eq_left hlen]
  refine wp_perform fun s₁ hb₁ hc₁ => ?_
  have hw₁ := hw.beside hb₁
  obtain ⟨hg₁, hh₁⟩ := beside_writing hc₁ trivial hw₁.toHolds
  refine ⟨hg₁, ?_⟩
  split
  · refine wp_perform fun s₂ hb₂ hc₂ => ?_
    have hw₂ := HoldsHdr.beside ⟨hh₁, hw₁.hdr⟩ hb₂
    obtain ⟨hg₂, hh₂⟩ := beside_writing hc₂ trivial hw₂.toHolds
    refine ⟨hg₂, fun s₃ hb₃ => HoldsMdata.beside ⟨⟨hh₂, hw₂.hdr⟩, fun _ => ?_⟩ hb₃⟩
    have hsame := Mem.read_write_same s₂.1.1.mem 56 (src.take h.blobMetadataHdrSize.toNat)
    rw [htake] at hsame
    show (s₂.1.1.mem.write 56 _).read 56 s₂.1.2.hdr.blobMetadataHdrSize.toNat = _
    rw [hw₂.hdr]
    exact hsame
  · rename_i heq
    refine fun s₃ hb₃ => HoldsMdata.beside ⟨⟨hh₁, hw₁.hdr⟩, fun _ => ?_⟩ hb₃
    show s₁.1.1.mem.read 56 s₁.1.2.hdr.blobMetadataHdrSize.toNat = _
    rw [hw₁.hdr]
    exact not_not.mp heq

theorem writingOp_of_clearOp {b : Int} {o : Op} (ho : ClearOp b o) : WritingOp o := by
  cases o with
  | write site a src => cases site <;> trivial
  | samplePtr desc i => trivial
  | _ => exact absurd ho id

/-- `shd_data_clear_section` starts behind the metadata. -/
theorem wp_dataClearSection_holds {m : List UInt8} (hs : SafeHdr h) (hw : HoldsMdata D t h m s) :
    wp (signed B) t (Orderly B K C) (Beside K D ps t) (GuarBeside K D ps t)
      (dataClearSection (descOf h)) (fun _ s' => HoldsMdata D t h m s') s := by
  refine wp_mono (wp_invariant (I := HoldsMdata D t h m) (fun _ _ hv hb => hv.beside hb)
    (fun o v ho hv hc => ?_) (dataClearSection_clearOp hs) hw) fun _ _ => And.right
  obtain ⟨hg, hh⟩ := beside_writing hc (writingOp_of_clearOp ho) hv.toHolds
  have hlast : h.blobMetadataHdrSize.toNat ≤ up4 (hdrMdataSize h) := le_up4 (hdrMdataSize h)
  refine ⟨hg, ?_, step_computes_watched o v.1⟩
  cases o with
  | write site a src =>
    have ha : (descOf h).dataSectionStart ≤ a := by
      cases site <;> first | exact ho | exact absurd ho id
    have hstart : (descOf h).dataSectionStart = 56 + up4 (hdrMdataSize h) := rfl
    have hhdr : ((signed B).step t (.write site a src) v).1.1.2.hdr = v.1.2.hdr := by
      cases site <;> first | rfl | exact absurd ho id
    refine ⟨⟨hh, hhdr.trans hv.hdr⟩, fun hd => ?_⟩
    have hmem : mdataIn ((signed B).step t (.write site a src) v).1.1 = mdataIn v.1 := by
      unfold mdataIn
      rw [hhdr, hv.hdr]
      exact Mem.read_write_disjoint (Or.inl (by omega))
    exact hmem.trans (hv.mdata hd)
  | samplePtr desc i => exact ⟨⟨hh, hv.hdr⟩, hv.mdata⟩
  | _ => exact absurd ho id

/-! ## The second update, and the whole of a creation -/

/-- The revision that the second update leaves is even. -/
theorem revision_even (hs : Consistent K s.1) (hw : Holds t s) :
    Int.tmod (toI32 (s.1.1.mem.i32 40 + 1)) 2 = 0 := by
  have hodd := hs.coherent.parity
  have hroom := hs.coherent.room (by rw [hw.writer]; rfl)
  have hnonneg := hs.coherent.nonneg
  rw [hw.writer] at hodd
  change nbCreations s.1.1.mem % 2 = 1 at hodd
  have hnext : toI32 (s.1.1.mem.i32 40 + 1) = nbCreations s.1.1.mem + 1 :=
    toI32_of_isI32 ⟨by change _ ≤ nbCreations s.1.1.mem + 1; omega,
      by change nbCreations s.1.1.mem + 1 < _; omega⟩
  rw [hnext]
  exact Int.tmod_eq_zero_of_dvd (by omega)

/-- The second update signs the creation. -/
theorem beside_update {m : List UInt8} (hhdr : (ps t).hdr = some h) (hm : (ps t).mdata = m)
    (hc : Orderly B K C t (.addAndFetch .updateGlobalRevisionNb 40 1) s)
    (hw : HoldsMdata D t h m s) (hu : u ≠ t) :
    Beside K D ps u s ((signed B).step t (.addAndFetch .updateGlobalRevisionNb 40 1) s).1 := by
  have heven := revision_even hc.2.1 hw.toHolds
  obtain ⟨rev, hrev⟩ : ∃ rev, toI32 (s.1.1.mem.i32 40 + 1) = rev := ⟨_, rfl⟩
  obtain ⟨s', hs'⟩ : ∃ s', s' = ((signed B).step t (.addAndFetch .updateGlobalRevisionNb 40 1)
    s).1 := ⟨_, rfl⟩
  have hlog : s'.1.2 = { s.1.2 with
      writer := none, ended := s.1.2.ended ++ [(rev, s.1.2.hdr)] } := by
    rw [hs']
    change (if Int.tmod (toI32 (s.1.1.mem.i32 40 + 1)) 2 = 0 then _ else _) = _
    rw [if_pos heven, hrev]
  have hended : s'.2.ended = s.2.ended ++ [⟨rev, s.1.2.hdr, t⟩] := by
    rw [hs']
    change (if Int.tmod (toI32 (s.1.1.mem.i32 40 + 1)) 2 = 0 then _ else _ : Authors).ended = _
    rw [if_pos heven, hrev]
  have hmdata : mdataIn s'.1 = mdataIn s.1 := by
    unfold mdataIn
    rw [hlog, hs']
    exact Mem.read_write_disjoint (Or.inr (by rw [length_encI32]; decide))
  rw [← hs']
  refine ⟨hs' ▸ hc.2.2 u hu, fun ha => ⟨?_, fun e he => ?_, fun _ e he => ?_⟩, ?_, ?_, ?_⟩
  · rw [hended, hlog, List.map_append, ha.log]
    rfl
  · rw [hended] at he
    rcases List.mem_append.mp he with he | he
    · exact ha.hdr e he
    · obtain rfl := List.mem_singleton.mp he
      exact hhdr.trans (congrArg some hw.hdr.symm)
  · rw [hended] at he
    obtain rfl : (⟨rev, s.1.2.hdr, t⟩ : Ending) = e := by simpa using he
    exact ⟨by rw [hlog], fun hd => hmdata.trans ((hw.mdata hd).trans hm.symm)⟩
  · rw [hended]
    exact List.prefix_append _ _
  · exact hs' ▸ sign_compared hu _ s.1 _ s.2
  · exact fun _ h => absurd (Option.some.inj (hw.writer.symm.trans h)).symm hu

/-- From the invalidation to the new revision. -/
theorem wp_createPublish_signs (hC : ∀ t o s, C t o s → InvalidateOk o s.1)
    (hD : D → ∀ t o s, C t o s → KeepsMdata B t o s) (hs : SafeHdr h) {mdata : List UInt8}
    (hlen : h.blobMetadataHdrSize.toNat ≤ mdata.length) (hhdr : (ps t).hdr = some h)
    (hm : (ps t).mdata = mdata.take h.blobMetadataHdrSize.toNat) (first : Bool) (s : Signed Ω) :
    wp (signed B) t (Orderly B K C) (Beside K D ps t) (GuarBeside K D ps t)
      (createPublish (getMmap (getOffsets lp64 h)) (descOf h) h mdata first) (fun _ _ => True) s := by
  refine wp_bind (Beside.refl K D ps t) (wp_mono (wp_invalidate hC first s) ?_)
  intro _ s₁ hw₁
  refine wp_bind (Beside.refl K D ps t) (wp_mono (wp_hdrWrite_holds hw₁ h) ?_)
  intro _ s₂ hw₂
  refine wp_bind (Beside.refl K D ps t) (wp_mono (wp_mdataHdrWrite_holds hw₂ hlen) ?_)
  intro _ s₃ hw₃
  refine wp_bind (Beside.refl K D ps t) (wp_mono (wp_dataClearSection_holds hs hw₃) ?_)
  intro _ s₄ hw₄
  refine wp_perform fun s₅ hb₅ hc₅ => ?_
  refine ⟨fun u hu => beside_update hhdr hm hc₅ (hw₄.beside hb₅) hu, ?_⟩
  refine wp_mono (wp_passive (Q := fun _ => True) hD ?_ _) fun _ _ _ => trivial
  split
  · exact trivial
  · exact ⟨trivial, fun _ _ => trivial⟩

theorem wp_createError_passive (hD : D → ∀ t o s, C t o s → KeepsMdata B t o s) (inst : Nat)
    (ret : Int) (ctx : Option CtxAllocs) (s : Signed Ω) :
    wp (signed B) t (Orderly B K C) (Beside K D ps t) (GuarBeside K D ps t)
      (createError inst ret ctx) (fun _ _ => True) s :=
  wp_mono (wp_passive hD ((createError_offSection inst ret ctx).mono
    (fun _ => passive_of_offSection) fun _ => id) s) fun _ _ _ => trivial

/-- **A creation leaves its own metadata.** -/
theorem wp_create_signs (hC : ∀ t o s, C t o s → InvalidateOk o s.1)
    (hD : D → ∀ t o s, C t o s → KeepsMdata B t o s) (hs : SafeHdr h) {mdata : List UInt8}
    (hlen : h.blobMetadataHdrSize.toNat ≤ mdata.length) (hhdr : (ps t).hdr = some h)
    (hm : (ps t).mdata = mdata.take h.blobMetadataHdrSize.toNat) (name : String)
    (env : Option String) (s : Signed Ω) :
    wp (signed B) t (Orderly B K C) (Beside K D ps t) (GuarBeside K D ps t)
      (create name h mdata env) (fun _ _ => True) s := by
  have hcall : ∀ c : BackendCall, (callBackend c).AllOps Passive := fun c =>
    ⟨trivial, fun _ _ => trivial⟩
  have hpass : ∀ {α : Type} {p : ShdProg α} {Q : α → Prop},
      p.Ensures (fun _ _ => True) OffSection Q → p.Ensures (fun _ _ => True) Passive Q :=
    fun hp => hp.mono (fun _ => passive_of_offSection) fun _ => id
  rw [create_eq]
  have hsect : (sectionCreate name (sectionGetTotalSize lp64 h)).AllOps Passive := by
    refine Prog.Ensures.bind (hpass (initSectionInfos_offSection name)) fun ret _ => ?_
    split
    · exact trivial
    · exact hcall _
  refine wp_bind (Beside.refl K D ps t) (wp_mono (wp_passive hD hsect s) ?_)
  intro c s₁ _
  split
  · exact wp_createError_passive hD _ _ _ s₁
  refine wp_bind (Beside.refl K D ps t) (wp_mono (wp_passive hD (hcall _) s₁) ?_)
  intro ret s₂ _
  split
  · exact wp_createError_passive hD _ _ _ s₂
  refine wp_bind (Beside.refl K D ps t) (wp_mono (wp_passive hD (hcall _) s₂) ?_)
  intro resized s₃ _
  split
  · exact wp_createError_passive hD _ _ _ s₃
  refine wp_bind (Beside.refl K D ps t)
    (wp_mono (wp_passive hD (hpass (ctxNew_offSection c.inst)) s₃) ?_)
  intro ctx s₄ _
  refine wp_bind (Beside.refl K D ps t)
    (wp_mono (wp_passive hD (hpass (ctxMmap_parts c.inst ctx h)) s₄) ?_)
  intro m s₅ hparts
  unfold createWith
  split
  · rename_i a map desc _ hmap
    obtain ⟨rfl, rfl⟩ := hparts map desc hmap
    rw [desc_of_safe hs]
    refine wp_bind (Beside.refl K D ps t)
      (wp_mono (wp_createPublish_signs hC hD hs hlen hhdr hm _ s₅) ?_)
    intro rev s₆ _
    split
    · exact wp_createError_passive hD _ _ _ s₆
    refine wp_bind (Beside.refl K D ps t) (wp_mono (wp_passive hD (hcall _) s₆) ?_)
    intro ret s₇ _
    split
    · exact wp_createError_passive hD _ _ _ s₇
    · exact fun _ _ => trivial
  · exact wp_createError_passive hD _ _ _ s₅

end Shdata.Revision
