/-
Shdata.Revision.Opener — what an opening gets, beside creations.

The header is read three times: once as a copy, for the offsets of the
mapping, and twice in the mapping, for the description. The revision is read
twice, afterwards. `Sampled` is what a reading of the header is worth later: it
is about the header in place as long as the header was not written since the
copy.

`wp_openCtx` has two conclusions. The revision is never above the one in the
section. If the header was not written between the copy and the last load of the
revision, which no creation in progress saw (`LoadOk`), the context is that of the
creation with this revision.
-/
import Shdata.Revision.Creator

namespace Shdata.Revision

open Shdata.Conc Shdata.Bytes Shdata.Core Shdata.Ring Shdata.Layout Shdata.Solo

variable {Ω : Type} {B : Backend Ω} {K : B.Stable} {t : Nat} {s s' : World Ω × Log}
  {C : Nat → Op → World Ω × Log → Prop} {h : HdrUserInfo}

/-! ## Readings of the header -/

/-- The user header was not written since thread `t` copied it, or `P` holds of
the header in place. -/
structure Sampled (P : HdrUserInfo → Prop) (t : Nat) (s : World Ω × Log) : Prop where
  le : s.2.copied t ≤ s.2.hdrWrites
  fits : s.2.hdrWrites = s.2.copied t → ∀ h, userHdr s.1.mem = encHdrUserInfo h → P h

theorem Sampled.rely {P : HdrUserInfo → Prop} (hp : Sampled P t s) (hr : Rely K t s s') :
    Sampled P t s' where
  le := by
    rw [hr.copied]
    exact hp.le.trans hr.hdrWrites
  fits := by
    intro heq h hu
    rw [hr.copied] at heq
    have h₁ := hp.le
    have h₂ := hr.hdrWrites
    rw [hr.user (by omega)] at hu
    exact hp.fits (by omega) h hu

/-- What an opener knows between two of its steps. -/
structure Opening (K : B.Stable) (P : HdrUserInfo → Prop) (t : Nat) (s : World Ω × Log) : Prop where
  inv : Consistent K s
  begun : s.2.Begun
  sampled : Sampled P t s
  loaded : s.2.loaded t = false

theorem Opening.rely {P : HdrUserInfo → Prop} (hp : Opening K P t s) (hr : Rely K t s s') :
    Opening K P t s' where
  inv := hr.inv hp.inv
  begun := hr.begun hp.begun
  sampled := hp.sampled.rely hr
  loaded := hr.loaded.trans hp.loaded

theorem Opening.and {P Q : HdrUserInfo → Prop} (hp : Opening K P t s)
    (hq : ∀ h, userHdr s.1.mem = encHdrUserInfo h → Q h) :
    Opening K (fun h => P h ∧ Q h) t s where
  inv := hp.inv
  begun := hp.begun
  sampled := ⟨hp.sampled.le, fun heq h hu => ⟨hp.sampled.fits heq h hu, hq h hu⟩⟩
  loaded := hp.loaded

/-- `shd_hdr_read` through the backend. -/
theorem wp_hdrReadBackend (hs : Consistent K s) (hload : s.2.loaded t = false) (inst : Nat) :
    wp (watched B) t C (Rely K t) (Guar K t) (hdrReadBackend inst)
      (fun r s' => 0 ≤ r.1 ∧ Opening K (fun h => r.2 = h) t s' ∨
        r.1 < 0 ∧ Consistent K s') s := by
  refine wp_perform fun s₁ hr₁ _ => ?_
  have hinv₁ := hr₁.inv hs
  obtain ⟨hg, hwords⟩ := K.call t (.hdrRead inst) (s₁.1.mem, s₁.1.os) hinv₁.good (by simp)
  have hmem := hwords.sameHdr
  have hhdr := K.hdr t inst (s₁.1.mem, s₁.1.os)
  obtain ⟨r, hresp⟩ : ∃ r, r = (B.call t (.hdrRead inst) (s₁.1.mem, s₁.1.os)).2 := ⟨_, rfl⟩
  obtain ⟨s₂, hs₂⟩ : ∃ s₂, s₂ = ((watched B).step t (.backend (.hdrRead inst)) s₁).1 := ⟨_, rfl⟩
  have hgood₂ : K.good (s₂.1.mem, s₂.1.os) := by rw [hs₂]; exact hg
  have hmem₂ : SameHdr s₁.1.mem s₂.1.mem := by rw [hs₂]; exact hmem
  have hcopied : s₂.2.copied t = s₂.2.hdrWrites := by
    rw [hs₂]
    exact Function.update_self _ _ _
  have hrel : ∀ u, u ≠ t → Rely K u s₁ s₂ := fun u hu => by
    refine rely_of_same (fun _ => hgood₂) ?_ hmem₂ ?_ ?_ ?_
    · rw [hs₂]
      exact fun i => K.owned_call t (.hdrRead inst) (s₁.1.mem, s₁.1.os) i
    · rw [hs₂]
      rfl
    · rw [hs₂]
      exact Function.update_of_ne hu _ _
    · rw [hs₂]
      rfl
  have hinv₂ := (hrel (t + 1) (by omega)).inv hinv₁
  have hload₂ : s₂.2.loaded t = false := by
    rw [hs₂]
    exact hr₁.loaded.trans hload
  rw [← hs₂]
  refine ⟨hrel, ?_⟩
  change wp _ _ _ _ _ (if leNat (((B.call t (.hdrRead inst) (s₁.1.mem, s₁.1.os)).2).hdr.take 8)
    ≠ SHD_MAGIC_NUMBER then _ else _) _ _
  rw [← hresp] at hhdr ⊢
  split
  · exact fun s₃ hr₃ => Or.inr ⟨show -EFAULT < 0 by decide, hr₃.inv hinv₂⟩
  rename_i hmagic
  have hbytes := hhdr (not_not.mp hmagic)
  split
  · exact fun s₃ hr₃ => Or.inr ⟨show -EFAULT < 0 by decide, hr₃.inv hinv₂⟩
  refine fun s₃ hr₃ => Or.inl ⟨le_refl 0, Opening.rely ⟨hinv₂, ?_, ⟨le_of_eq hcopied, ?_⟩, hload₂⟩ hr₃⟩
  · refine hinv₂.coherent.magic ?_
    rw [hmem₂.read (le_refl 0) (by decide), ← not_not.mp hmagic, hbytes]
    exact congrArg leNat (Mem.read_drop_take s₁.1.mem 0 56 0 8 (by decide)).symm
  · intro _ h hu
    have hu₁ : s₁.1.mem.read 16 24 = encHdrUserInfo h :=
      (userHdr_of_sameHdr hmem₂).symm.trans hu
    change decHdrUserInfo (((B.call t (.hdrRead inst) (s₁.1.mem, s₁.1.os)).2).hdr.drop 16) = h
    rw [← hresp, hbytes, user_append hu₁]
    exact decHdrUserInfo_append h _

/-! ## The mapping and the description -/

/-- `shd_section_mapping_new` of an opening. -/
theorem wp_sectionMappingNew (hs : Consistent K s) (hload : s.2.loaded t = false) (inst : Nat) :
    wp (watched B) t C (Rely K t) (Guar K t) (sectionMappingNew inst none)
      (fun r s' => Consistent K s' ∧ ∀ q, r = some q → ∃ h₀, q.2 = getMmap (getOffsets lp64 h₀) ∧
        Opening K (fun h => h₀ = h) t s') s := by
  refine wp_bind (Rely.refl K t) (wp_mono (wp_hdrReadBackend hs hload inst) ?_)
  rintro r s₁ (⟨hge, ho⟩ | ⟨hneg, hinv⟩)
  · rw [if_neg (not_lt.mpr hge)]
    refine wp_mono (wp_offSection (sectionMap_ensures inst r.2) ho.inv) ?_
    rintro q s₂ ⟨hq, hr⟩
    exact ⟨hr.inv ho.inv, fun q' hq' => ⟨r.2, hq q' hq', ho.rely hr⟩⟩
  · rw [if_pos hneg]
    exact fun s₂ hr => ⟨hr.inv hinv, fun q hq => absurd hq (by simp)⟩

/-- A read of the section by an opener. -/
theorem wp_read {α : Type} {P : HdrUserInfo → Prop} {Q : α → World Ω × Log → Prop}
    {f : List UInt8 → ShdProg α} (ho : Opening K P t s) (a : Int) (len : Nat)
    (hf : ∀ s', Opening K P t s' →
      wp (watched B) t C (Rely K t) (Guar K t) (f (s'.1.mem.read a len)) Q s') :
    wp (watched B) t C (Rely K t) (Guar K t) (memcpyOut .dataSectionDescNew a len >>= f) Q s := by
  refine wp_perform fun s₁ hr _ => ?_
  have ho₁ := ho.rely hr
  have hstep : ∀ u, Rely K u s₁ ((watched B).step t (.read .dataSectionDescNew a len) s₁).1 :=
    fun u => rely_harmless (b := false) trivial (by simp) ho₁.inv
  exact ⟨fun u _ => hstep u, hf s₁ ho₁⟩

/-- What the reading of the two fields is worth. -/
def Describes (desc : DataSectionDesc) (h : HdrUserInfo) : Prop :=
  desc.blobSize = hdrBlobSize h ∧ desc.nbSamples = hdrNbSamples h

/-- `shd_data_section_desc_new` of an opening. -/
theorem wp_dataSectionDescNew {P : HdrUserInfo → Prop} (ho : Opening K P t s) {map : SectionMap}
    (hmap : map.headerTop = 16) :
    wp (watched B) t C (Rely K t) (Guar K t) (dataSectionDescNew map none)
      (fun r s' => Consistent K s' ∧
        ∀ q, r = some q → Opening K (fun h => P h ∧ Describes q.2 h) t s') s := by
  have hcalloc : (calloc .desc).Ensures (fun _ _ => True) OffSection fun _ => True :=
    ⟨trivial, fun _ _ => trivial⟩
  refine wp_bind (Rely.refl K t) (wp_mono (wp_offSection hcalloc ho.inv) ?_)
  rintro p s₁ ⟨-, hr₁⟩
  have ho₁ := ho.rely hr₁
  cases p with
  | none => exact fun s₂ hr₂ => ⟨hr₂.inv ho₁.inv, fun q hq => absurd hq (by simp)⟩
  | some p =>
    refine wp_read ho₁ _ _ fun s₂ ho₂ => ?_
    have hblob := ho₂.and (Q := fun h => (leNat (s₂.1.mem.read map.headerTop 8) : Int)
      = hdrBlobSize h) fun h hu => by rw [hmap]; exact read_blobSize hu
    refine wp_read hblob _ _ fun s₃ ho₃ => ?_
    have hnb := ho₃.and (Q := fun h => (leNat (s₃.1.mem.read (map.headerTop + 8) 4) : Int)
      = hdrNbSamples h) fun h hu => by rw [hmap]; exact read_maxNbSamples hu
    intro s₄ hr₄
    have ho₄ := hnb.rely hr₄
    refine ⟨ho₄.inv, fun q hq => ?_⟩
    obtain rfl := Option.some.inj hq
    refine ⟨ho₄.inv, ho₄.begun, ⟨ho₄.sampled.le, fun heq h hu => ?_⟩, ho₄.loaded⟩
    obtain ⟨⟨hP, hb⟩, hn⟩ := ho₄.sampled.fits heq h hu
    exact ⟨hP, hb, hn⟩

/-- `shd_ctx_mmap` of an opening. -/
theorem wp_ctxMmap (hs : Consistent K s) (hload : s.2.loaded t = false) (inst : Nat)
    (ctx : Option CtxAllocs) :
    wp (watched B) t C (Rely K t) (Guar K t) (ctxMmap inst ctx none)
      (fun r s' => Consistent K s' ∧ ∀ map desc, r.parts = some (map, desc) →
        ∃ h₀, map = getMmap (getOffsets lp64 h₀) ∧
          Opening K (fun h => h₀ = h ∧ Describes desc h) t s') s := by
  cases ctx with
  | none => exact fun s₁ hr => ⟨hr.inv hs, fun map desc he => absurd he (by simp)⟩
  | some a =>
    refine wp_bind (Rely.refl K t) (wp_mono (wp_sectionMappingNew hs hload inst) ?_)
    rintro q s₁ ⟨hinv₁, hq⟩
    cases q with
    | none => exact fun s₂ hr => ⟨hr.inv hinv₁, fun map desc he => absurd he (by simp)⟩
    | some q =>
      obtain ⟨pm, map⟩ := q
      obtain ⟨h₀, hmap, ho⟩ := hq _ rfl
      obtain rfl : map = getMmap (getOffsets lp64 h₀) := hmap
      refine wp_bind (Rely.refl K t) (wp_mono (wp_dataSectionDescNew ho rfl) ?_)
      rintro q' s₂ ⟨hinv₂, hq'⟩
      cases q' with
      | none => exact fun s₃ hr => ⟨hr.inv hinv₂, fun map desc he => absurd he (by simp)⟩
      | some q' =>
        refine fun s₃ hr => ⟨hr.inv hinv₂, fun map' desc' he => ?_⟩
        obtain ⟨rfl, rfl⟩ := Prod.ext_iff.mp (Option.some.inj he)
        exact ⟨h₀, rfl, (hq' _ rfl).rely hr⟩

/-! ## The revision -/

/-- At the second load of the revision the header was not written since the copy,
and no creation is between its updates. -/
def LoadOk (t : Nat) : Op → World Ω × Log → Prop
  | .read .updateLocalRevisionNb _ _, s =>
    s.2.loaded t = true → s.2.hdrWrites = s.2.copied t ∧ s.2.writer = none
  | _, _ => True

/-- A load of the revision by an opener. -/
theorem load_revision (hs : Consistent K s) {s' : World Ω × Log}
    (hs' : s' = ((watched B).step t (.read .updateLocalRevisionNb 40 4) s).1) :
    Guar K t (.read .updateLocalRevisionNb 40 4) s s' ∧ Consistent K s' ∧ s'.1 = s.1 ∧
      s'.2.toProgress = s.2.toProgress ∧ s'.2.copied = s.2.copied ∧
      s'.2.loaded t = true := by
  have hguar : Guar K t (.read .updateLocalRevisionNb 40 4) s s' := fun u hu => by
    rw [hs']
    exact rely_of_same id (fun _ => id) (SameHdr.refl _) rfl rfl (Function.update_of_ne hu _ _)
  have hinv := (hguar (t + 1) (by omega)).inv hs
  refine ⟨hguar, hinv, ?_⟩
  subst hs'
  exact ⟨rfl, rfl, rfl, Function.update_self _ _ _⟩

/-- `shd_sync_update_local_revision_nb`. Under `D` the second load is a good one. -/
theorem wp_updateLocalRevisionNb {P : HdrUserInfo → Prop} {D : Prop}
    (hD : D → ∀ t o s, C t o s → LoadOk t o s) (ho : Opening K P t s) (sync : SyncCtx) :
    wp (watched B) t C (Rely K t) (Guar K t) (syncUpdateLocalRevisionNb sync 40)
      (fun r s' => Consistent K s' ∧ (r.1 = -EAGAIN ∨ r.1 ≤ nbCreations s'.1.mem ∧
        (D → ∃ h, (r.1, h) ∈ s'.2.ended ∧ P h))) s := by
  refine wp_perform fun s₁ hr₁ _ => ?_
  have ho₁ := ho.rely hr₁
  obtain ⟨s₂, hs₂⟩ : ∃ s₂, s₂ = ((watched B).step t (.read .updateLocalRevisionNb 40 4) s₁).1 :=
    ⟨_, rfl⟩
  obtain ⟨hg₂, hinv₂, hw₂, hp₂, hc₂, hl₂⟩ := load_revision ho₁.inv hs₂
  rw [← hs₂]
  refine ⟨hg₂, ?_⟩
  change wp _ _ _ _ _ (if Int.tmod (nbCreations s₁.1.mem) 2 = 1 then _ else _) _ _
  split
  · exact fun s₃ hr₃ => ⟨hr₃.inv hinv₂, Or.inl rfl⟩
  refine wp_perform fun s₃ hr₃ hc₃ => ?_
  have hinv₃ := hr₃.inv hinv₂
  obtain ⟨s₄, hs₄⟩ : ∃ s₄, s₄ = ((watched B).step t (.read .updateLocalRevisionNb 40 4) s₃).1 :=
    ⟨_, rfl⟩
  obtain ⟨hg₄, hinv₄, hw₄, hp₄, -, -⟩ := load_revision hinv₃ hs₄
  rw [← hs₄]
  refine ⟨hg₄, fun s₅ hr₅ => ⟨hr₅.inv hinv₄, Or.inr ?_⟩⟩
  change nbCreations s₃.1.mem ≤ _ ∧ (D → ∃ h, (nbCreations s₃.1.mem, h) ∈ _ ∧ _)
  have hle := hr₅.revision hinv₄
  rw [hw₄] at hle
  refine ⟨hle, fun hd => ?_⟩
  -- nothing happened to the header since the copy
  obtain ⟨hcopy, hwriter₃⟩ := hD hd t _ s₃ hc₃ (hr₃.loaded.trans hl₂)
  have hsampled : Sampled P t s₂ := by
    refine ⟨?_, ?_⟩
    · rw [hp₂, hc₂]
      exact ho₁.sampled.le
    · rw [hp₂, hc₂, hw₂]
      exact ho₁.sampled.fits
  have hbegun₃ := hr₃.begun (by rw [hp₂]; exact ho₁.begun)
  have hne : s₃.2.ended ≠ [] := hbegun₃.resolve_right (by rw [hwriter₃]; simp)
  obtain ⟨e, he⟩ : ∃ e, s₃.2.ended.getLast? = some e := Option.isSome_iff_exists.mp (by simpa using hne)
  obtain ⟨hrev, huser⟩ := hinv₃.coherent.last hwriter₃ e he
  have hmem : e ∈ s₃.2.ended := List.mem_of_getLast? he
  refine ⟨e.2, ?_, (hsampled.rely hr₃).fits hcopy e.2 huser⟩
  rw [← hrev]
  refine hr₅.mem_ended ?_
  rw [hp₄]
  exact hmem

/-! ## The whole of `shd_open` -/

/-- What `shd_open` returned, for a section whose creations are logged. Under `D` the
context is that of the creation with its revision. -/
structure OpenedAt (D : Prop) (ctx : ShdCtx) (rev : Int) (s : World Ω × Log) : Prop where
  revision : rev ≤ nbCreations s.1.mem
  sync : ctx.sectMmap.syncTop = 40
  coherent : D → ∃ h, (rev, h) ∈ s.2.ended ∧ ctx.sectMmap = getMmap (getOffsets lp64 h) ∧
    Describes ctx.desc h

theorem OpenedAt.rely {D : Prop} {ctx : ShdCtx} {rev : Int} (ho : OpenedAt D ctx rev s)
    (hs : Consistent K s) (hr : Rely K t s s') : OpenedAt D ctx rev s' where
  revision := ho.revision.trans (hr.revision hs)
  sync := ho.sync
  coherent := by
    intro hd
    obtain ⟨h, hmem, hctx⟩ := ho.coherent hd
    exact ⟨h, hr.mem_ended hmem, hctx⟩

theorem wp_openError {D : Prop} (inst : Nat) (rev : Option Nat) (ctx : Option CtxAllocs)
    (hs : Consistent K s) :
    wp (watched B) t C (Rely K t) (Guar K t) (openError inst rev ctx)
      (fun r s' => Consistent K s' ∧ ∀ ctx rev, r = some (ctx, rev) → OpenedAt D ctx rev s') s := by
  refine wp_mono (wp_offSection (openError_offSection inst rev ctx) hs) ?_
  rintro _ s' ⟨rfl, hr⟩
  exact ⟨hr.inv hs, fun ctx rev h => absurd h (by simp)⟩

/-- **An opening, beside creations.** -/
theorem wp_openCtx {D : Prop} (hD : D → ∀ t o s, C t o s → LoadOk t o s) (hs : Consistent K s)
    (hload : s.2.loaded t = false) (name : String) (env : Option String) :
    wp (watched B) t C (Rely K t) (Guar K t) (openCtx name env)
      (fun r s' => Consistent K s' ∧ ∀ ctx rev, r = some (ctx, rev) → OpenedAt D ctx rev s') s := by
  refine wp_bind (Rely.refl K t) (wp_mono (wp_offSection (sectionOpen_offSection name) hs) ?_)
  rintro o s₁ ⟨-, hr₁⟩
  have hinv₁ := hr₁.inv hs
  split
  · exact wp_openError _ _ _ hinv₁
  refine wp_bind (Rely.refl K t) (wp_mono (wp_offSection (ctxNew_offSection o.inst) hinv₁) ?_)
  rintro ctx s₂ ⟨-, hr₂⟩
  have hinv₂ := hr₂.inv hinv₁
  have hcalloc : (calloc .rev).Ensures (fun _ _ => True) OffSection fun _ => True :=
    ⟨trivial, fun _ _ => trivial⟩
  refine wp_bind (Rely.refl K t) (wp_mono (wp_offSection hcalloc hinv₂) ?_)
  rintro rev s₃ ⟨-, hr₃⟩
  have hinv₃ := hr₃.inv hinv₂
  split
  · exact wp_openError _ _ _ hinv₃
  have hload₃ : s₃.2.loaded t = false :=
    (hr₃.loaded.trans (hr₂.loaded.trans hr₁.loaded)).trans hload
  refine wp_bind (Rely.refl K t) (wp_mono (wp_ctxMmap hinv₃ hload₃ o.inst ctx) ?_)
  rintro m s₄ ⟨hinv₄, hm⟩
  split
  · rename_i a map desc _ hparts
    obtain ⟨h₀, rfl, ho⟩ := hm map desc hparts
    refine wp_bind (Rely.refl K t) (wp_mono (wp_updateLocalRevisionNb hD ho syncCtxInit) ?_)
    rintro r s₅ ⟨hinv₅, hr⟩
    split
    · exact wp_openError _ _ _ hinv₅
    · rename_i hagain
      obtain ⟨hle, hcoh⟩ := hr.resolve_left hagain
      refine fun s₆ hr₆ => ⟨hr₆.inv hinv₅, fun ctx' rev' he => ?_⟩
      obtain ⟨rfl, rfl⟩ := Prod.ext_iff.mp (Option.some.inj he)
      refine OpenedAt.rely ⟨hle, rfl, fun hd => ?_⟩ hinv₅ hr₆
      obtain ⟨h, hmem, rfl, hdesc⟩ := hcoh hd
      exact ⟨h₀, hmem, rfl, hdesc⟩
  · exact wp_openError _ _ _ hinv₄

end Shdata.Revision
