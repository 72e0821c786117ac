/-
Shdata.Revision.Headers — the header reads that check a revision.

`shd_read_section_hdr` and `shd_read_blob_metadata_hdr` compare the revision
before they copy, and nothing after. `header_reads` is about runs in which the
section is still that of the compared revision when the copy is made
(`CopyOk`): what is delivered was written by the creation that ended at this
revision. `header_reads_torn` is a run that is not: a creation ends between the
comparison and the copy.

The composition is made twice. The first one, on the specifications of
`Creator` and `Opener`, shows that the steps of a run are `Orderly`; the
second one carries the authors along.
-/
import Shdata.Revision.Authors
import Shdata.Revision.Runs

namespace Shdata.Revision

open Shdata.Conc Shdata.Bytes Shdata.Core Shdata.Ring Shdata.Layout Shdata.Solo

variable {Ω : Type} {B : Backend Ω} {K : B.Stable} {D : Prop} {ps : Nat → Party} {t u : Nat}
  {s s' : Signed Ω} {C : Nat → Op → Signed Ω → Prop} {h : HdrUserInfo}

/-! ## Openings -/

/-- The mapping of a consumer is that of some header. -/
theorem ctxMmap_passive (inst : Nat) (ctx : Option CtxAllocs) :
    (ctxMmap inst ctx none).Ensures (fun _ _ => True) Passive fun r =>
      ∀ map desc, r.parts = some (map, desc) → ∃ h₀, map = getMmap (getOffsets lp64 h₀) := by
  have hmap : (sectionMappingNew inst none).Ensures (fun _ _ => True) Passive fun r =>
      ∀ q, r = some q → ∃ h₀, q.2 = getMmap (getOffsets lp64 h₀) := by
    have hread : (hdrReadBackend inst).AllOps Passive := by
      refine Prog.ensures_perform trivial fun r _ => ?_
      dsimp only
      split
      · exact trivial
      · split <;> exact trivial
    refine Prog.Ensures.bind hread fun r _ => ?_
    split
    · exact fun q hq => absurd hq (by simp)
    · exact (sectionMap_ensures inst r.2).mono (fun _ => passive_of_offSection)
        fun _ hq q he => ⟨r.2, hq q he⟩
  have hdesc : ∀ map, (dataSectionDescNew map none).Ensures (fun _ _ => True) Passive
      fun r => ∀ q, r = some q → True := by
    intro map
    refine Prog.ensures_perform trivial fun p _ => ?_
    cases p with
    | none => exact fun _ _ => trivial
    | some p => exact ⟨trivial, fun _ _ => ⟨trivial, fun _ _ _ _ => trivial⟩⟩
  refine (ctxMmap_ensures (Q := fun map => ∃ h₀, map = getMmap (getOffsets lp64 h₀))
    (R := fun _ _ => True) hmap (fun map _ => hdesc map) ctx).mono (fun _ => id) ?_
  exact fun r hr map desc hparts => (hr map desc hparts).1

theorem openCtx_passive (name : String) (env : Option String) :
    (openCtx name env).Ensures (fun _ _ => True) Passive fun r =>
      ∀ ctx rev, r = some (ctx, rev) → ∃ h₀, ctx.sectMmap = getMmap (getOffsets lp64 h₀) := by
  have hsync : ∀ map : SectionMap, (syncUpdateLocalRevisionNb syncCtxInit map.syncTop).Ensures
      (fun _ _ => True) Passive fun r => r.1 ≠ -EAGAIN → True := by
    intro map
    refine ensures_load32 trivial fun bs _ => ?_
    split
    · exact fun _ => trivial
    · exact ensures_load32 trivial fun bs' _ _ => trivial
  refine (openCtx_parts (Q := fun map _ => ∃ h₀, map = getMmap (getOffsets lp64 h₀))
    (R := fun _ => True) (fun _ => passive_of_offSection) trivial ctxMmap_passive
    (fun map _ _ => hsync map) name env).mono (fun _ => id) ?_
  exact fun r hr ctx rev he => (hr (ctx, rev) he).1

/-! ## Reads -/

/-- At the copy no creation is between its two updates, and the last one that ended
left the revision that was compared. -/
def CopyOk (t : Nat) : Op → Signed Ω → Prop
  | .read .hdrRead _ _, s | .read .mdataHdrRead _ _, s =>
    s.1.2.writer = none ∧ s.2.ended.getLast?.map Ending.revision = some (s.2.compared t)
  | _, _ => True

/-- What was delivered on success is what the author of the revision wrote. -/
def Delivers (D : Prop) (ps : Nat → Party) (rev : Int) (s : Signed Ω) : HdrRead → Prop
  | .sectionHdr ret hdrInfo =>
    ret = 0 → ∃ e ∈ s.2.ended, e.revision = rev ∧ hdrInfo = (ps e.author).hdr
  | .blobMetadataHdr ret dst =>
    ret = 0 → D → ∃ e ∈ s.2.ended, e.revision = rev ∧ dst = some (ps e.author).mdata

theorem Delivers.beside {rev : Int} {r : HdrRead} (hd : Delivers D ps rev s r)
    (hb : s.2.ended <+: s'.2.ended) : Delivers D ps rev s' r := by
  cases r with
  | sectionHdr ret hdrInfo =>
    intro hret
    obtain ⟨e, he, hread⟩ := hd hret
    exact ⟨e, hb.subset he, hread⟩
  | blobMetadataHdr ret dst =>
    intro hret hD
    obtain ⟨e, he, hread⟩ := hd hret hD
    exact ⟨e, hb.subset he, hread⟩

/-- What a reader knows between two of its steps. While the section is at the revision
`rev`, the header of this revision satisfies `P`. -/
structure Ready (K : B.Stable) (D : Prop) (ps : Nat → Party) (rev : Int) (P : HdrUserInfo → Prop)
    (s : Signed Ω) : Prop where
  inv : Consistent K s.1
  attributed : Attributed D ps s
  revision : rev ≤ nbCreations s.1.1.mem
  known : rev % 2 = 0 → nbCreations s.1.1.mem = rev → ∀ e ∈ s.1.2.ended, e.1 = rev → P e.2

theorem Ready.beside {rev : Int} {P : HdrUserInfo → Prop} (hr : Ready K D ps rev P s)
    (hb : Beside K D ps u s s') : Ready K D ps rev P s' where
  inv := hb.rely.inv hr.inv
  attributed := hb.attributed hr.attributed
  revision := hr.revision.trans (hb.rely.revision hr.inv)
  known := by
    intro heven hrev e he hrev'
    have h₁ := hr.revision
    have h₂ := hb.rely.revision hr.inv
    obtain ⟨new, hended, hnew⟩ := hb.rely.ended
    rw [hended] at he
    rcases List.mem_append.mp he with he | he
    · exact hr.known heven (by omega) e he hrev'
    · -- a creation that ended meanwhile is past the revision
      have := hnew hr.inv e he
      omega

/-- The header in place is that of the revision. -/
theorem Ready.learn {rev : Int} {P Q : HdrUserInfo → Prop} (hr : Ready K D ps rev P s)
    (hq : ∀ h, userHdr s.1.1.mem = encHdrUserInfo h → Q h) : Ready K D ps rev Q s where
  inv := hr.inv
  attributed := hr.attributed
  revision := hr.revision
  known := by
    intro heven hrev e he hrev'
    have hcoh := hr.inv.coherent
    have hwriter : s.1.2.writer = none := by
      have hparity := hcoh.parity
      cases hw : s.1.2.writer with
      | none => rfl
      | some v =>
        rw [hw] at hparity
        change _ = 1 at hparity
        omega
    obtain ⟨e', he'⟩ : ∃ e', s.1.2.ended.getLast? = some e' :=
      Option.isSome_iff_exists.mp (by simpa using List.ne_nil_of_mem he)
    obtain ⟨hlast, huser⟩ := hcoh.last hwriter e' he'
    have hnodup : (s.1.2.ended.map Prod.fst).Nodup := hcoh.increasing.imp fun hlt => ne_of_lt hlt
    have hsame : e = e' :=
      List.inj_on_of_nodup_map hnodup he (List.mem_of_getLast? he') (by omega)
    subst hsame
    exact hq e.2 huser

/-- The last creation that ended, when none is between its updates. -/
theorem Ready.last {rev : Int} {P : HdrUserInfo → Prop} (hr : Ready K D ps rev P s)
    (hw : s.1.2.writer = none) (hlast : s.2.ended.getLast?.map Ending.revision = some rev) :
    ∃ e ∈ s.2.ended, e.revision = rev ∧ userHdr s.1.1.mem = encHdrUserInfo e.hdr ∧
      s.1.2.hdr = e.hdr ∧ P e.hdr ∧ (D → mdataIn s.1 = (ps e.author).mdata) := by
  obtain ⟨e, he, hv⟩ := Option.map_eq_some_iff.mp hlast
  obtain ⟨hhdr, hmd⟩ := hr.attributed.last hw e he
  have hlog : (e.revision, e.hdr) ∈ s.1.2.ended.getLast? := by
    rw [← hr.attributed.log, List.getLast?_map, he]
    rfl
  obtain ⟨hrev, huser⟩ := hr.inv.coherent.last hw _ hlog
  have heven := hr.inv.coherent.parity
  rw [hw] at heven
  change _ = 0 at heven
  have hP := hr.known (by omega) (by omega) _ (List.mem_of_getLast? hlog) hv
  exact ⟨e, List.mem_of_getLast? he, hv, huser, hhdr, hP, hmd⟩

/-- A step of a reader that reads the section. -/
theorem wp_read_section (hD : D → ∀ t o s, C t o s → KeepsMdata B t o s) {α : Type} {rev : Int}
    {P : HdrUserInfo → Prop} {Q : α → Signed Ω → Prop} {site : Site} {a : Int} {len : Nat}
    {f : List UInt8 → ShdProg α} (hsite : site ≠ .updateLocalRevisionNb)
    (hr : Ready K D ps rev P s)
    (hf : ∀ s₁ s₂, Beside K D ps t s s₁ → Ready K D ps rev P s₁ → C t (.read site a len) s₁ →
      s₂ = ((signed B).step t (.read site a len) s₁).1 → s₂.1 = s₁.1 → s₂.2.ended = s₁.2.ended →
      Ready K D ps rev P s₂ →
      wp (signed B) t (Orderly B K C) (Beside K D ps t) (GuarBeside K D ps t)
        (f (s₁.1.1.mem.read a len)) Q s₂) :
    wp (signed B) t (Orderly B K C) (Beside K D ps t) (GuarBeside K D ps t)
      (perform (.read site a len) >>= f) Q s := by
  refine wp_perform fun s₁ hb hc => ⟨fun u hu => beside_passive hD trivial hc hu, ?_⟩
  have hr₁ := hr.beside hb
  have hr₂ := hr₁.beside (beside_passive (o := .read site a len) (u := t + 1) hD trivial hc (by omega))
  refine hf s₁ _ hb hr₁ hc.1 rfl ?_ (sign_ended (by simp) _ _ _) hr₂
  cases site <;> first | rfl | exact absurd rfl hsite

/-- `shd_sync_check_revision_nb`: on success the revision compared is that of the call. -/
theorem wp_syncCheckRevisionNb (hD : D → ∀ t o s, C t o s → KeepsMdata B t o s) {rev : Int}
    {P : HdrUserInfo → Prop} (hr : Ready K D ps rev P s) :
    wp (signed B) t (Orderly B K C) (Beside K D ps t) (GuarBeside K D ps t)
      (syncCheckRevisionNb rev 40)
      (fun ret s' => Ready K D ps rev P s' ∧
        (ret = -ENODEV ∨ ret = 0 ∧ s'.2.compared t = rev)) s := by
  refine wp_read_section hD (by simp) hr fun s₁ s₂ _ _ _ hs₂ _ _ hr₂ => ?_
  have hcompared : s₂.2.compared t = nbCreations s₁.1.1.mem := by
    rw [hs₂]
    exact Function.update_self _ _ _
  show wp _ _ _ _ _ (if rev = nbCreations s₁.1.1.mem then _ else _) _ _
  split
  · rename_i heq
    refine fun s₃ hb₃ => ⟨hr₂.beside hb₃, Or.inr ⟨rfl, ?_⟩⟩
    rw [hb₃.compared, hcompared, ← heq]
  · exact fun s₃ hb₃ => ⟨hr₂.beside hb₃, Or.inl rfl⟩

/-- `shd_read_section_hdr`. -/
theorem wp_readSectionHdr (hD : D → ∀ t o s, C t o s → KeepsMdata B t o s)
    (hcopy : ∀ t o s, C t o s → CopyOk t o s) {rev : Int} {P : HdrUserInfo → Prop} {ctx : ShdCtx}
    (hmap : ∃ h₀, ctx.sectMmap = getMmap (getOffsets lp64 h₀)) (hr : Ready K D ps rev P s) :
    wp (signed B) t (Orderly B K C) (Beside K D ps t) (GuarBeside K D ps t) (readSectionHdr ctx rev)
      (fun r s' => Ready K D ps rev P s' ∧ Delivers D ps rev s' (.sectionHdr r.1 r.2)) s := by
  obtain ⟨h₀, hmap⟩ := hmap
  unfold readSectionHdr
  rw [hmap]
  refine wp_bind (Beside.refl K D ps t) (wp_mono (wp_syncCheckRevisionNb hD hr) ?_)
  rintro ret s₁ ⟨hr₁, rfl | ⟨rfl, hcompared⟩⟩
  · rw [if_pos (by decide)]
    exact fun s₂ hb₂ => ⟨hr₁.beside hb₂, fun hret => absurd hret (by decide)⟩
  rw [if_neg (by decide)]
  refine wp_read_section hD (by simp) hr₁ fun s₂ s₃ hb₂ hr₂ hc hs₃ _ hended hr₃ => ?_
  obtain ⟨hw, hlast⟩ := hcopy t _ s₂ hc
  rw [hb₂.compared, hcompared] at hlast
  obtain ⟨e, he, hrev, huser, -⟩ := hr₂.last hw hlast
  refine fun s₄ hb₄ => ⟨hr₃.beside hb₄, fun _ => ⟨e, hb₄.ended.subset ?_, hrev, ?_⟩⟩
  · rw [hended]
    exact he
  · rw [hr₂.attributed.hdr e he]
    refine congrArg some ?_
    show decHdrUserInfo (s₂.1.1.mem.read 16 24) = e.hdr
    have hdec := decHdrUserInfo_append e.hdr []
    rw [List.append_nil] at hdec
    rw [show s₂.1.1.mem.read 16 24 = _ from huser, hdec]

/-- The size that is loaded is that of the header of the revision. -/
theorem wp_hdrGetMdataSize (hD : D → ∀ t o s, C t o s → KeepsMdata B t o s) {rev : Int}
    {P : HdrUserInfo → Prop} (hr : Ready K D ps rev P s) :
    wp (signed B) t (Orderly B K C) (Beside K D ps t) (GuarBeside K D ps t) (hdrGetMdataSize 16)
      (fun n s' => Ready K D ps rev (fun h => h.blobMetadataHdrSize.toNat = n) s') s := by
  refine wp_read_section hD (by simp) hr fun s₁ s₂ _ _ _ _ hs₂ _ hr₂ s₃ hb₃ => ?_
  refine Ready.beside (hr₂.learn fun h hu => ?_) hb₃
  rw [hs₂] at hu
  exact (read_mdataSize hu).symm

/-- `shd_read_blob_metadata_hdr`. -/
theorem wp_readBlobMetadataHdr (hD : D → ∀ t o s, C t o s → KeepsMdata B t o s)
    (hcopy : ∀ t o s, C t o s → CopyOk t o s) {rev : Int} {P : HdrUserInfo → Prop} {ctx : ShdCtx}
    (hmap : ∃ h₀, ctx.sectMmap = getMmap (getOffsets lp64 h₀)) (size : Nat)
    (hr : Ready K D ps rev P s) :
    wp (signed B) t (Orderly B K C) (Beside K D ps t) (GuarBeside K D ps t)
      (readBlobMetadataHdr ctx size rev)
      (fun r s' => Ready K D ps rev (fun _ => True) s' ∧
        Delivers D ps rev s' (.blobMetadataHdr r.1 r.2)) s := by
  obtain ⟨h₀, hmap⟩ := hmap
  have hdone : ∀ {P : HdrUserInfo → Prop} {s : Signed Ω}, Ready K D ps rev P s →
      Ready K D ps rev (fun _ => True) s := fun hr => hr.learn fun _ _ => trivial
  unfold readBlobMetadataHdr
  rw [hmap]
  refine wp_bind (Beside.refl K D ps t) (wp_mono (wp_hdrGetMdataSize hD hr) ?_)
  intro n s₂ hr₂
  split
  · exact fun s₃ hb₃ => ⟨hdone (hr₂.beside hb₃), fun hret => absurd hret (by decide)⟩
  rename_i hsize
  obtain rfl := not_not.mp hsize
  refine wp_bind (Beside.refl K D ps t) (wp_mono (wp_syncCheckRevisionNb hD hr₂) ?_)
  rintro ret s₃ ⟨hr₃, rfl | ⟨rfl, hcompared⟩⟩
  · rw [if_pos (by decide)]
    exact fun s₄ hb₄ => ⟨hdone (hr₃.beside hb₄), fun hret => absurd hret (by decide)⟩
  rw [if_neg (by decide)]
  refine wp_read_section hD (by simp) hr₃ fun s₄ s₅ hb₄ hr₄ hc _ _ hended hr₅ => ?_
  obtain ⟨hw, hlast⟩ := hcopy t _ s₄ hc
  rw [hb₄.compared, hcompared] at hlast
  obtain ⟨e, he, hrev, -, hhdr, hmd, hmdata⟩ := hr₄.last hw hlast
  refine fun s₆ hb₆ => ⟨hdone (hr₅.beside hb₆), fun _ hd => ⟨e, hb₆.ended.subset ?_, hrev, ?_⟩⟩
  · rw [hended]
    exact he
  · rw [← hmdata hd, mdataIn, hhdr, hmd]
    rfl

/-! ## Readers -/

/-- The operations of the two reads. -/
def HdrReadOp : Op → Prop
  | .read site _ _ => site ≠ .updateLocalRevisionNb
  | _ => False

theorem passive_of_hdrReadOp {o : Op} (ho : HdrReadOp o) : Passive o := by
  cases o with
  | read site a len => trivial
  | _ => exact absurd ho id

theorem harmless_of_hdrReadOp {o : Op} (ho : HdrReadOp o) : Harmless false o := by
  cases o with
  | read site a len => cases site <;> trivial
  | _ => exact absurd ho id

theorem syncCheckRevisionNb_hdrReadOp (rev hdr : Int) :
    (syncCheckRevisionNb rev hdr).AllOps HdrReadOp := by
  refine ensures_load32 (by simp [HdrReadOp]) fun bs _ => ?_
  split <;> exact trivial

theorem prog_hdrReadOp (ctx : ShdCtx) (rev : Int) (call : HdrCall) :
    (call.prog ctx rev).AllOps HdrReadOp := by
  cases call with
  | sectionHdr =>
    have hread : (readSectionHdr ctx rev).AllOps HdrReadOp := by
      refine Prog.AllOps.bind (syncCheckRevisionNb_hdrReadOp _ _) fun ret => ?_
      split
      · exact trivial
      · exact ⟨by simp [HdrReadOp], fun _ _ => trivial⟩
    exact hread.bind fun _ => trivial
  | blobMetadataHdr size =>
    have hsize : (hdrGetMdataSize ctx.sectMmap.headerTop).AllOps HdrReadOp :=
      ⟨by simp [HdrReadOp], fun _ _ => trivial⟩
    have hread : (readBlobMetadataHdr ctx size rev).AllOps HdrReadOp := by
      refine hsize.bind fun n => ?_
      split
      · exact trivial
      · refine Prog.AllOps.bind (syncCheckRevisionNb_hdrReadOp _ _) fun ret => ?_
        split
        · exact trivial
        · exact ⟨by simp [HdrReadOp], fun _ _ => trivial⟩
    exact hread.bind fun _ => trivial

theorem readAll_hdrReadOp (ctx : ShdCtx) (rev : Int) (calls : List HdrCall) :
    (readAll ctx rev calls).AllOps HdrReadOp := by
  induction calls with
  | nil => exact trivial
  | cons call calls ih =>
    exact (prog_hdrReadOp ctx rev call).bind fun _ => ih.bind fun _ => trivial

/-- One read. -/
theorem wp_prog (hD : D → ∀ t o s, C t o s → KeepsMdata B t o s)
    (hcopy : ∀ t o s, C t o s → CopyOk t o s) {rev : Int} {ctx : ShdCtx}
    (hmap : ∃ h₀, ctx.sectMmap = getMmap (getOffsets lp64 h₀)) (call : HdrCall)
    (hr : Ready K D ps rev (fun _ => True) s) :
    wp (signed B) t (Orderly B K C) (Beside K D ps t) (GuarBeside K D ps t) (call.prog ctx rev)
      (fun r s' => Ready K D ps rev (fun _ => True) s' ∧ Delivers D ps rev s' r) s := by
  cases call with
  | sectionHdr =>
    refine wp_bind (Beside.refl K D ps t) (wp_mono (wp_readSectionHdr hD hcopy hmap hr) ?_)
    exact fun r s₁ ⟨hr₁, hd⟩ s₂ hb => ⟨hr₁.beside hb, hd.beside hb.ended⟩
  | blobMetadataHdr size =>
    refine wp_bind (Beside.refl K D ps t) (wp_mono (wp_readBlobMetadataHdr hD hcopy hmap size hr) ?_)
    exact fun r s₁ ⟨hr₁, hd⟩ s₂ hb => ⟨hr₁.beside hb, hd.beside hb.ended⟩

/-- Any number of reads with the revision of one opening. -/
theorem wp_readAll (hD : D → ∀ t o s, C t o s → KeepsMdata B t o s)
    (hcopy : ∀ t o s, C t o s → CopyOk t o s) {rev : Int} {ctx : ShdCtx}
    (hmap : ∃ h₀, ctx.sectMmap = getMmap (getOffsets lp64 h₀)) (calls : List HdrCall)
    (hr : Ready K D ps rev (fun _ => True) s) :
    wp (signed B) t (Orderly B K C) (Beside K D ps t) (GuarBeside K D ps t) (readAll ctx rev calls)
      (fun rs s' => ∀ r ∈ rs, Delivers D ps rev s' r) s := by
  induction calls generalizing s with
  | nil => exact fun s' _ r hr' => absurd hr' List.not_mem_nil
  | cons call calls ih =>
    refine wp_bind (Beside.refl K D ps t) (wp_mono (wp_prog hD hcopy hmap call hr) ?_)
    rintro r s₁ ⟨hr₁, hd⟩
    have hpassive := (readAll_hdrReadOp ctx rev calls).mono fun _ => passive_of_hdrReadOp
    -- the creations that ended stay in the record
    have hkept := wp_passive_of hD (fun s' => s₁.2.ended <+: s'.2.ended)
      (fun hi hb => hi.trans hb.ended) (List.prefix_refl _) hpassive (ih hr₁)
    refine wp_bind (Beside.refl K D ps t) (wp_mono hkept ?_)
    rintro rs s₂ ⟨-, hpre, hrs⟩ s₃ hb₃ r' hr'
    rcases List.mem_cons.mp hr' with rfl | hr'
    · exact hd.beside (hpre.trans hb₃.ended)
    · exact (hrs r' hr').beside hb₃.ended

/-- What holds of a thread that returned. -/
def ReturnedHdr (D : Prop) (ps : Nat → Party) (_ : Nat) (r : Report) (s : Signed Ω) : Prop :=
  ∀ rev reads, r = .read rev reads → ∀ x ∈ reads, Delivers D ps rev s x

/-- A reader, from its opening on. -/
theorem wp_reader (hD : D → ∀ t o s, C t o s → KeepsMdata B t o s)
    (hcopy : ∀ t o s, C t o s → CopyOk t o s) (hs : Consistent K s.1)
    (ha : Attributed D ps s) (hload : s.1.2.loaded t = false) (name : String)
    (env : Option String) (calls : List HdrCall) :
    wp (signed B) t (Orderly B K C) (Beside K D ps t) (GuarBeside K D ps t)
      (Party.reader name env calls).prog (ReturnedHdr D ps t) s := by
  have hopen := wp_passive_of hD (Attributed D ps) (fun ha hb => hb.attributed ha) ha
    (openCtx_passive name env) (wp_signed (wp_openCtx (D := False) (fun hf => absurd hf id) hs hload
      name env))
  refine wp_bind (Beside.refl K D ps t) (wp_mono hopen ?_)
  rintro r s₁ ⟨hmap, ha₁, hinv₁, hopened⟩
  cases r with
  | none => exact fun s₂ _ rev reads he => by cases he
  | some q =>
    obtain ⟨ctx, rev⟩ := q
    have hr₁ : Ready K D ps rev (fun _ => True) s₁ :=
      ⟨hinv₁, ha₁, (hopened ctx rev rfl).revision, fun _ _ _ _ _ => trivial⟩
    refine wp_bind (Beside.refl K D ps t)
      (wp_mono (wp_readAll hD hcopy (hmap ctx rev rfl) calls hr₁) ?_)
    intro reads s₂ hreads s₃ hb₃ rev' reads' he x hx
    cases he
    exact (hreads x hx).beside hb₃.ended

/-! ## Runs -/

def Authors.start : Authors := ⟨[], fun _ => 0⟩

def gathering (w : World Ω) (ps : Nat → Party) : Config Op.Resp Nat (Signed Ω) Report where
  st := ((w, Log.start), Authors.start)
  pool := fun t => (ps t).prog

theorem attributed_start (w : World Ω) : Attributed D ps ((w, Log.start), Authors.start) where
  log := rfl
  hdr := fun e he => absurd he List.not_mem_nil
  last := fun _ e he => absurd he (by simp [Authors.start])

/-- The composition as far as the log goes. -/
theorem gathering_safe (hC : ∀ t o s, C t o s → InvalidateOk o s.1) {w : World Ω}
    (hw : Untouched K w) (hps : ∀ t, (ps t).Safe) :
    Pool.Safe (signed B) C (fun t a b => Rely K t a.1 b.1) (fun t o a b => Guar K t o a.1 b.1)
      (fun _ _ _ => True) (gathering w ps) where
  trans := fun _ _ _ _ => Rely.trans
  compat := fun t u htu _ _ _ hg => hg u htu.symm
  threads := by
    intro t
    have hs := consistent_start hw
    have hparty := hps t
    refine wp_ghost (g := sign) (C := fun _ => InvalidateOk) (Q := fun _ _ => True)
      (fun o s hc => hC t o s hc) ?_
    show wp (watched B) t _ (Rely K t) (Guar K t) (ps t).prog _ (w, Log.start)
    cases hp : ps t with
    | creator name hdrInfo mdata env =>
      rw [hp] at hparty
      refine wp_bind (Rely.refl K t)
        (wp_mono (wp_create (fun _ _ _ => id) hparty.1 hs name mdata env) ?_)
      exact fun _ _ _ _ _ => trivial
    | reader name env calls =>
      refine wp_bind (Rely.refl K t)
        (wp_mono (wp_openCtx (D := False) (fun hf => absurd hf id) hs rfl name env) ?_)
      rintro r s₁ ⟨hinv₁, -⟩
      cases r with
      | none => exact fun _ _ => trivial
      | some q =>
        have hread := (readAll_hdrReadOp q.1 q.2 calls).mono fun _ => harmless_of_hdrReadOp
        refine wp_bind (Rely.refl K t)
          (wp_mono (wp_harmless hread (fun _ _ => trivial) (by simp) hinv₁) ?_)
        exact fun _ _ _ _ _ => trivial

/-- The steps of a run are orderly. -/
theorem meets_orderly (hC : ∀ t o s, C t o s → InvalidateOk o s.1) {w : World Ω}
    (hw : Untouched K w) (hps : ∀ t, (ps t).Safe) {ts : List Nat}
    (hm : (gathering w ps).Meets (signed B) C ts) :
    (gathering w ps).Meets (signed B) (Orderly B K C) ts := by
  refine Config.meets_and hm ((gathering_safe hC hw hps).meets (I := fun s => Consistent K s.1)
    (fun t s => Rely.refl K t s.1) (fun t o a b hg hi => (hg (t + 1) (by omega)).inv hi)
    (fun t o s hi hg => ⟨hi, hg⟩) (consistent_start hw) ts hm)

/-- **The composition with the authors.** -/
theorem gathering_beside (hC : ∀ t o s, C t o s → InvalidateOk o s.1)
    (hcopy : ∀ t o s, C t o s → CopyOk t o s) (hD : D → ∀ t o s, C t o s → KeepsMdata B t o s)
    {w : World Ω} (hw : Untouched K w) (hps : ∀ t, (ps t).Safe) :
    Pool.Safe (signed B) (Orderly B K C) (Beside K D ps) (GuarBeside K D ps) (ReturnedHdr D ps)
      (gathering w ps) where
  trans := fun _ _ _ _ => Beside.trans
  compat := fun t u htu _ _ _ hg => hg u htu.symm
  threads := by
    intro t
    have hparty := hps t
    show wp (signed B) t _ (Beside K D ps t) (GuarBeside K D ps t) (ps t).prog _ _
    cases hp : ps t with
    | creator name hdrInfo mdata env =>
      rw [hp] at hparty
      have hhdr : (ps t).hdr = some hdrInfo := by rw [hp]; rfl
      have hmdata : (ps t).mdata = mdata.take hdrInfo.blobMetadataHdrSize.toNat := by
        rw [hp]; rfl
      refine wp_bind (Beside.refl K D ps t)
        (wp_mono (wp_create_signs hC hD hparty.1 hparty.2 hhdr hmdata name env _) ?_)
      intro p s₁ _ s₂ _ rev reads he
      cases he
    | reader name env calls =>
      exact wp_reader hD hcopy (consistent_start hw) (attributed_start w) rfl name env calls

/-! ## What the reads deliver -/

/-- The one creation that ended at a revision, and the thread that made it. -/
structure EndedBy (ps : Nat → Party) (ended : List Ending) (rev : Int) (e : Ending) : Prop where
  mem : e ∈ ended
  revision : e.revision = rev
  only : ∀ e' ∈ ended, e'.revision = rev → e' = e
  hdr : (ps e.author).hdr = some e.hdr

/-- Every section header that was read is that of the creation of the revision. -/
structure ReadsSection (ps : Nat → Party) (c : Config Op.Resp Nat (Signed Ω) Report) : Prop where
  delivered : ∀ u rev reads, c.pool u = .ret (.read rev reads) → ∀ hdrInfo,
    HdrRead.sectionHdr 0 hdrInfo ∈ reads →
      ∃ e, EndedBy ps c.st.2.ended rev e ∧ hdrInfo = some e.hdr

/-- Every blob metadata that was read is that of the creation of the revision. -/
structure ReadsMetadata (ps : Nat → Party) (c : Config Op.Resp Nat (Signed Ω) Report) : Prop where
  delivered : ∀ u rev reads, c.pool u = .ret (.read rev reads) → ∀ dst,
    HdrRead.blobMetadataHdr 0 dst ∈ reads →
      ∃ e, EndedBy ps c.st.2.ended rev e ∧ dst = some (ps e.author).mdata

/-- What each step of a run meets for `header_reads`. -/
def HeaderOk (t : Nat) (o : Op) (s : Signed Ω) : Prop := InvalidateOk o s.1 ∧ CopyOk t o s

/-- The creation of a revision is one. -/
theorem endedBy (hs : Consistent K s.1) (ha : Attributed D ps s) {e : Ending}
    (he : e ∈ s.2.ended) : EndedBy ps s.2.ended e.revision e where
  mem := he
  revision := rfl
  only := by
    intro e' he' hrev
    have hnodup : (s.2.ended.map Ending.revision).Nodup := by
      have hlog : (s.1.2.ended.map Prod.fst).Nodup :=
        hs.coherent.increasing.imp fun hlt => ne_of_lt hlt
      rw [← ha.log, List.map_map] at hlog
      exact hlog
    exact List.inj_on_of_nodup_map hnodup he' he hrev
  hdr := ha.hdr e he

/-- What a run delivers, under a condition on its steps. -/
theorem delivers_run (hC : ∀ t o s, C t o s → InvalidateOk o s.1)
    (hcopy : ∀ t o s, C t o s → CopyOk t o s) (hD : D → ∀ t o s, C t o s → KeepsMdata B t o s)
    {w : World Ω} (hw : Untouched K w) (hps : ∀ t, (ps t).Safe) {ts : List Nat}
    (hm : (gathering w ps).Meets (signed B) C ts) {c : Config Op.Resp Nat (Signed Ω) Report}
    (hc : (gathering w ps).run (signed B) ts = c) :
    (∀ u rev reads, c.pool u = .ret (.read rev reads) → ∀ r ∈ reads, Delivers D ps rev c.st r) ∧
      ∀ e ∈ c.st.2.ended, EndedBy ps c.st.2.ended e.revision e := by
  subst hc
  have hord := meets_orderly hC hw hps hm
  have hsafe := gathering_beside hC hcopy hD hw hps
  have hinv := hsafe.inv (I := fun s => Consistent K s.1 ∧ Attributed D ps s)
    (fun t s => Beside.refl K D ps t s)
    (fun t o a b hg hi => ⟨(hg (t + 1) (by omega)).rely.inv hi.1,
      (hg (t + 1) (by omega)).attributed hi.2⟩)
    ⟨consistent_start hw, attributed_start w⟩ ts hord
  refine ⟨fun u rev reads hu r hr => ?_, fun e he => endedBy hinv.1 hinv.2 he⟩
  exact ((hsafe.run (fun t s => Beside.refl K D ps t s) ts hord).post
    (fun t s => Beside.refl K D ps t s) hu) rev reads rfl r hr

/-- **Header reads deliver the header of their revision** in every run in which, at
the copy, no creation is between its two updates and the last one that ended
left the revision that was compared; the creations find the section as for
`stale_detected`. They deliver its metadata if no call of the backend drops them. -/
theorem header_reads (K : B.Stable) {w : World Ω} (hw : Untouched K w) {ps : Nat → Party}
    (hps : ∀ t, (ps t).Safe) (ts : List Nat)
    (hm : (gathering w ps).Meets (signed B) HeaderOk ts) :
    ReadsSection ps ((gathering w ps).run (signed B) ts) ∧
      ((gathering w ps).Meets (signed B) (KeepsMdata B) ts →
        ReadsMetadata ps ((gathering w ps).run (signed B) ts)) := by
  refine ⟨⟨fun u rev reads hu hdrInfo hr => ?_⟩, fun hkeeps => ⟨fun u rev reads hu dst hr => ?_⟩⟩
  · obtain ⟨hdelivers, hended⟩ := delivers_run (C := HeaderOk) (D := False) (fun _ _ _ => And.left)
      (fun _ _ _ => And.right) (fun hf => absurd hf id) hw hps hm rfl
    obtain ⟨e, he, rfl, hread⟩ := hdelivers u rev reads hu _ hr rfl
    exact ⟨e, hended e he, hread.trans (hended e he).hdr⟩
  · obtain ⟨hdelivers, hended⟩ := delivers_run (D := True)
      (fun _ _ _ h => h.1.1) (fun _ _ _ h => h.1.2) (fun _ _ _ _ h => h.2) hw hps
      (Config.meets_and hm hkeeps) rfl
    obtain ⟨e, he, rfl, hread⟩ := hdelivers u rev reads hu _ hr rfl trivial
    exact ⟨e, hended e he, hread⟩

instance (t : Nat) (o : Op) (s : Signed Ω) : Decidable (HeaderOk t o s) := by
  unfold HeaderOk CopyOk
  refine @instDecidableAnd _ _ inferInstance ?_
  split <;> infer_instance

instance (t : Nat) (o : Op) (s : Signed Ω) : Decidable (KeepsMdata B t o s) := by
  unfold KeepsMdata
  split <;> infer_instance

/-- Threads 0 and 1 create the section with different headers, the others read them. -/
def readers : Nat → Party
  | 0 => .creator "section" ⟨8, 4, 1, 8⟩ [1, 2, 3, 4, 5, 6, 7, 8] none
  | 1 => .creator "section" ⟨4, 2, 1, 0⟩ [] none
  | _ => .reader "section" none [.blobMetadataHdr 8, .sectionHdr]

theorem readers_safe : ∀ t, (readers t).Safe
  | 0 => ⟨⟨by decide, by decide⟩, by decide⟩
  | 1 => ⟨⟨by decide, by decide⟩, by decide⟩
  | _ + 2 => trivial

/-- A reader beside the start of the second creation. -/
def calm : Config Op.Resp Nat (Signed Shm) Report :=
  (gathering Shm.world readers).run (signed shm)
    (List.replicate 50 0 ++ List.replicate 17 2 ++ List.replicate 8 1 ++ List.replicate 5 2
      ++ List.replicate 40 1)

theorem header_reads_calm : ReadsSection readers calm ∧ ReadsMetadata readers calm ∧
    (calm.pool 2).returned = some (.read 2 [.blobMetadataHdr 0 (some [1, 2, 3, 4, 5, 6, 7, 8]),
      .sectionHdr 0 (some ⟨8, 4, 1, 8⟩)]) := by
  obtain ⟨hsection, hmetadata⟩ := header_reads shmStable shm_untouched readers_safe
    (List.replicate 50 0 ++ List.replicate 17 2 ++ List.replicate 8 1 ++ List.replicate 5 2
      ++ List.replicate 40 1) (by decide +kernel)
  exact ⟨hsection, hmetadata (by decide +kernel), by decide +kernel⟩

/-- Threads 2 and 3 compare the revision, one before each copy, and the second creation
ends before the copies. -/
def tornReads : Config Op.Resp Nat (Signed Shm) Report :=
  (gathering Shm.world readers).run (signed shm)
    (List.replicate 50 0 ++ List.replicate 17 2 ++ List.replicate 19 3 ++ List.replicate 50 1
      ++ List.replicate 5 2 ++ List.replicate 5 3)

theorem tornReads_returned :
    (tornReads.pool 2).returned = some (.read 2 [.blobMetadataHdr 0 (some (List.replicate 8 0)),
      .sectionHdr (-ENODEV) none]) ∧
    (tornReads.pool 3).returned = some (.read 2 [.blobMetadataHdr 0 (some [1, 2, 3, 4, 5, 6, 7, 8]),
      .sectionHdr 0 (some ⟨4, 2, 1, 0⟩)]) ∧
    tornReads.st.2.ended = [⟨2, ⟨8, 4, 1, 8⟩, 0⟩, ⟨4, ⟨4, 2, 1, 0⟩, 1⟩] := by
  decide +kernel

/-- Both reads deliver what the second creation left, with the revision of the first. -/
theorem header_reads_torn : ¬ ReadsSection readers tornReads ∧ ¬ ReadsMetadata readers tornReads := by
  obtain ⟨hmetadata, hsection, hended⟩ := tornReads_returned
  generalize tornReads = c at *
  have hfirst : ∀ e, EndedBy readers c.st.2.ended 2 e → e = ⟨2, ⟨8, 4, 1, 8⟩, 0⟩ := by
    intro e he
    have hmem := he.mem
    rw [hended] at hmem
    rcases List.mem_cons.mp hmem with rfl | hmem
    · rfl
    · obtain rfl := List.mem_singleton.mp hmem
      exact absurd he.revision (by decide)
  refine ⟨fun ⟨hdelivered⟩ => ?_, fun ⟨hdelivered⟩ => ?_⟩
  · obtain ⟨e, he, hread⟩ := hdelivered 3 2 _ (Prog.eq_ret_of_returned hsection)
      (some ⟨4, 2, 1, 0⟩) (by simp)
    rw [hfirst e he] at hread
    exact absurd hread (by decide)
  · obtain ⟨e, he, hread⟩ := hdelivered 2 2 _ (Prog.eq_ret_of_returned hmetadata)
      (some (List.replicate 8 0)) (by simp)
    rw [hfirst e he] at hread
    exact absurd hread (by decide)

end Shdata.Revision
