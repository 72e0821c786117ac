/-
Shdata.Revision.Creator — what a creation guarantees to the other threads.

`wp_create`: beside any threads that keep `Rely`, every step of `shd_create`
keeps it for them, as long as the creation invalidates the section when it may
(`InvalidateOk`). Nothing is assumed about the calls of the backend that
fail, or about the allocations: the error exits are harmless.
-/
import Shdata.Revision.Protocol
import Shdata.Solo.Open

namespace Shdata.Revision

open Shdata.Conc Shdata.Bytes Shdata.Core Shdata.Ring Shdata.Layout Shdata.Solo

variable {Ω : Type} {B : Backend Ω} {K : B.Stable} {t : Nat} {s s' : World Ω × Log}
  {C : Nat → Op → World Ω × Log → Prop} {h : HdrUserInfo}

/-! ## Between the two updates -/

/-- Thread `t` is between its two updates of the revision. -/
structure Writing (K : B.Stable) (t : Nat) (s : World Ω × Log) : Prop where
  inv : Consistent K s
  owned : ∃ inst, K.owned inst s.1.os
  writer : s.2.writer = some t

theorem Writing.rely (hw : Writing K t s) (hr : Rely K t s s') : Writing K t s' where
  inv := hr.inv hw.inv
  owned := by
    obtain ⟨inst, hinst⟩ := hw.owned
    exact ⟨inst, hr.owned inst hinst⟩
  writer := (hr.own hw.writer).1

/-- One write of `shd_hdr_write`. -/
theorem writing_hdrWrite (hw : Writing K t s) {a : Int} {l : List UInt8}
    (hrev : a + l.length ≤ 40 ∨ 44 ≤ a) (huser : a = 16 ∨ a + l.length ≤ 16 ∨ 40 ≤ a)
    (hs' : s' = ((watched B).step t (.write (.hdrWrite h) a l) s).1) :
    Guar K t (.write (.hdrWrite h) a l) s s' ∧ Writing K t s' ∧ s'.2.hdr = h ∧
      (a ≠ 16 → userHdr s'.1.mem = userHdr s.1.mem) := by
  have hout := Mem.sameOutside_write s.1.mem a l
  have hsame : a ≠ 16 → userHdr (s.1.mem.write a l) = userHdr s.1.mem := fun hne =>
    hout.read (by push_cast; omega)
  have hguar : Guar K t (.write (.hdrWrite h) a l) s s' := fun u hu => by
    rw [hs']
    refine rely_hdrWrite (v := { s.1 with mem := s.1.mem.write a l }) (h := h)
      (n := if a = lp64.offsetofUserInfo then 1 else 0) hu hw.writer hw.owned rfl
      (hout.i32 (by omega)) fun hn => hsame fun ha => ?_
    exact absurd hn (by rw [if_pos (show a = lp64.offsetofUserInfo from ha)]; decide)
  have hinv := (hguar (t + 1) (by omega)).inv hw.inv
  subst hs'
  exact ⟨hguar, ⟨hinv, hw.owned, hw.writer⟩, rfl, hsame⟩

/-- One write of `shd_sync_hdr_init`. -/
theorem writing_hdrInit (hw : Writing K t s) {a : Int} {l : List UInt8} (ha : 44 ≤ a)
    (hs' : s' = ((watched B).step t (.write .hdrInit a l) s).1) :
    Guar K t (.write .hdrInit a l) s s' ∧ Writing K t s' ∧ s'.2.hdr = s.2.hdr ∧
      userHdr s'.1.mem = userHdr s.1.mem := by
  have hout := Mem.sameOutside_write s.1.mem a l
  have hsame : userHdr (s.1.mem.write a l) = userHdr s.1.mem := hout.read (by push_cast; omega)
  have hguar : Guar K t (.write .hdrInit a l) s s' := fun u hu => by
    rw [hs']
    exact rely_hdrWrite (v := { s.1 with mem := s.1.mem.write a l }) (h := s.2.hdr) (n := 0) hu
      hw.writer hw.owned rfl (hout.i32 (by omega)) fun _ => hsame
  have hinv := (hguar (t + 1) (by omega)).inv hw.inv
  subst hs'
  exact ⟨hguar, ⟨hinv, hw.owned, hw.writer⟩, rfl, hsame⟩

/-- The user header is in place. -/
structure Headed (K : B.Stable) (t : Nat) (h : HdrUserInfo) (s : World Ω × Log) : Prop
    extends Writing K t s where
  user : userHdr s.1.mem = encHdrUserInfo h

theorem Headed.rely (hw : Headed K t h s) (hr : Rely K t s s') : Headed K t h s' where
  toWriting := hw.toWriting.rely hr
  user := (userHdr_of_sameHdr (hr.own hw.writer).2.1).trans hw.user

/-- A write of the header that is not the user header. -/
theorem wp_headed_hdrWrite {α : Type} {Q : α → World Ω × Log → Prop} {f : Unit → ShdProg α}
    (hw : Headed K t h s) {a : Int} {l : List UInt8} (ha : a + l.length ≤ 16 ∧ a ≠ 16)
    (hf : ∀ s', Headed K t h s' → s'.2.hdr = h → wp (watched B) t C (Rely K t) (Guar K t) (f ()) Q s') :
    wp (watched B) t C (Rely K t) (Guar K t) (memcpyIn (.hdrWrite h) a l >>= f) Q s := by
  refine wp_perform fun s₁ hr _ => ?_
  have hw₁ := hw.rely hr
  obtain ⟨hg, hw₂, hhdr, huser⟩ := writing_hdrWrite (h := h) (l := l) hw₁.toWriting
    (Or.inl (by omega)) (Or.inr (Or.inl ha.1)) rfl
  exact ⟨hg, hf _ ⟨hw₂, (huser ha.2).trans hw₁.user⟩ hhdr⟩

theorem wp_headed_hdrInit {α : Type} {Q : α → World Ω × Log → Prop} {f : Unit → ShdProg α}
    (hw : Headed K t h s) {a v : Int} (ha : 44 ≤ a)
    (hf : ∀ s', Headed K t h s' → wp (watched B) t C (Rely K t) (Guar K t) (f ()) Q s') :
    wp (watched B) t C (Rely K t) (Guar K t) (store32 .hdrInit a v >>= f) Q s := by
  refine wp_perform fun s₁ hr _ => ?_
  have hw₁ := hw.rely hr
  obtain ⟨hg, hw₂, -, huser⟩ := writing_hdrInit (l := encI32 v) hw₁.toWriting ha rfl
  exact ⟨hg, hf _ ⟨hw₂, huser.trans hw₁.user⟩⟩

/-- `shd_hdr_write`. -/
theorem wp_hdrWrite (hw : Writing K t s) (h : HdrUserInfo) :
    wp (watched B) t C (Rely K t) (Guar K t) (hdrWrite 0 h)
      (fun _ s' => Headed K t h s' ∧ s'.2.hdr = h) s := by
  have hlen := length_encHdrUserInfo h
  refine wp_perform fun s₁ hr₁ _ => ⟨fun u _ => ?_, ?_⟩
  · exact rely_harmless (b := false) trivial (by simp) (hr₁.inv hw.inv)
  have hw₁ := hw.rely hr₁
  refine wp_bind (Rely.refl K t) (wp_mono (Q := fun _ s' => Headed K t h s') ?_ fun _ s₂ hw₂ => ?_)
  · split
    · refine wp_perform fun s₂ hr₂ _ => ?_
      have hmem : userHdr (s₂.1.mem.write 16 (encHdrUserInfo h)) = encHdrUserInfo h := by
        have := Mem.read_write_same s₂.1.mem 16 (encHdrUserInfo h)
        rwa [hlen] at this
      obtain ⟨hg, hw₂, -⟩ := writing_hdrWrite (h := h) (a := 16) (l := encHdrUserInfo h)
        (hw₁.rely hr₂) (Or.inl (by rw [hlen]; decide)) (Or.inl rfl) rfl
      exact ⟨hg, fun s₃ hr₃ => Headed.rely ⟨hw₂, hmem⟩ hr₃⟩
    · rename_i hsame
      exact fun s₂ hr₂ => Headed.rely ⟨hw₁, not_not.mp hsame⟩ hr₂
  refine wp_bind (Rely.refl K t) (wp_mono (Q := fun _ s' => Headed K t h s') ?_ fun _ s₃ hw₃ => ?_)
  · refine wp_headed_hdrInit hw₂ (by decide) fun s₃ hw₃ => ?_
    refine wp_headed_hdrInit hw₃ (by decide) fun s₄ hw₄ => ?_
    exact fun s₅ hr => hw₄.rely hr
  refine wp_headed_hdrWrite hw₃ (by simp) fun s₄ hw₄ _ => ?_
  refine wp_headed_hdrWrite hw₄ (by simp) fun s₅ hw₅ _ => ?_
  refine wp_headed_hdrWrite hw₅ (by simp) fun s₆ hw₆ hhdr => ?_
  exact fun s₇ hr => ⟨hw₆.rely hr, ((hr.own hw₆.writer).2.2).trans hhdr⟩

/-! ## The two updates -/

/-- The first update. -/
theorem wp_invalidateSection (hC : ∀ t o s, C t o s → InvalidateOk o s) (hs : Consistent K s)
    (howned : ∃ inst, K.owned inst s.1.os) (first : Bool) :
    wp (watched B) t C (Rely K t) (Guar K t) (syncInvalidateSection 40 first)
      (fun _ s' => Writing K t s') s := by
  obtain ⟨inst, hinst⟩ := howned
  -- both forms of the update
  have hstep : ∀ (s₁ : World Ω × Log) (v : Int) (s₂ : World Ω × Log), Rely K t s s₁ →
      s₁.2.writer = none → nbCreations s₁.1.mem ≤ 2147483644 →
      toI32 v = nbCreations s₁.1.mem + 1 →
      s₂ = ({ s₁.1 with mem := s₁.1.mem.write 40 (encI32 v) },
        { s₁.2 with writer := some t }) →
      ∀ o, Guar K t o s₁ s₂ ∧ Writing K t s₂ := by
    rintro s₁ v s₂ hr hwriter hroom hv rfl o
    have hrel : ∀ u, u ≠ t → Rely K u s₁ ({ s₁.1 with mem := s₁.1.mem.write 40 (encI32 v) },
        { s₁.2 with writer := some t }) := fun u hu =>
      rely_invalidate hu hwriter hroom ⟨inst, hr.owned inst hinst⟩ rfl
        ((Mem.i32_write_same _ _ _).trans hv) (Mem.sameOutside_write _ _ _)
    exact ⟨hrel, (hrel (t + 1) (by omega)).inv (hr.inv hs), ⟨inst, hr.owned inst hinst⟩, rfl⟩
  cases first with
  | true =>
    intro s₁ hr hc
    obtain ⟨hwriter, hzero⟩ := hC t _ s₁ hc
    obtain ⟨hg, hw⟩ := hstep s₁ 1 _ hr hwriter (by omega) (by
      rw [hzero]
      exact toI32_of_isI32 ⟨by decide, by decide⟩) rfl
      (.write .invalidateSection 40 (encI32 1))
    exact ⟨hg, fun s₃ hr₃ => hw.rely hr₃⟩
  | false =>
    intro s₁ hr hc
    obtain ⟨hwriter, hroom⟩ := hC t _ s₁ hc
    have hnonneg := (hr.inv hs).coherent.nonneg
    obtain ⟨hg, hw⟩ := hstep s₁ (s₁.1.mem.i32 40 + 1) _ hr hwriter hroom
      (toI32_of_isI32 ⟨by change _ ≤ nbCreations s₁.1.mem + 1; omega,
        by change nbCreations s₁.1.mem + 1 < _; omega⟩) rfl (.addAndFetch .invalidateSection 40 1)
    exact ⟨hg, fun s₃ hr₃ => hw.rely hr₃⟩

/-- The second one. -/
theorem wp_updateGlobalRevisionNb (hw : Headed K t h s) (hhdr : s.2.hdr = h) :
    wp (watched B) t C (Rely K t) (Guar K t) (syncUpdateGlobalRevisionNb 40)
      (fun _ s' => Consistent K s') s := by
  refine wp_perform fun s₁ hr _ => ?_
  have hw₁ := hw.rely hr
  have hodd := hw₁.inv.coherent.parity
  have hroom := hw₁.inv.coherent.room (by rw [hw₁.writer]; rfl)
  have hnonneg := hw₁.inv.coherent.nonneg
  rw [hw₁.writer] at hodd
  change _ = 1 at hodd
  have hnext : toI32 (s₁.1.mem.i32 40 + 1) = nbCreations s₁.1.mem + 1 :=
    toI32_of_isI32 ⟨by change _ ≤ nbCreations s₁.1.mem + 1; omega,
      by change nbCreations s₁.1.mem + 1 < _; omega⟩
  have heven : Int.tmod (nbCreations s₁.1.mem + 1) 2 = 0 :=
    Int.tmod_eq_zero_of_dvd (by omega)
  obtain ⟨s₂, hs₂⟩ : ∃ s₂, s₂ = ((watched B).step t (.addAndFetch .updateGlobalRevisionNb 40 1)
    s₁).1 := ⟨_, rfl⟩
  have hlog : s₂.2 = { s₁.2 with
      writer := none, ended := s₁.2.ended ++ [(nbCreations s₁.1.mem + 1, s₁.2.hdr)] } := by
    rw [hs₂]
    change (if Int.tmod (toI32 (s₁.1.mem.i32 40 + 1)) 2 = 0 then _ else _) = _
    rw [hnext, if_pos heven]
  have hrel : ∀ u, u ≠ t → Rely K u s₁ s₂ := fun u hu => by
    have hupd := rely_update (v := s₂.1) hu hw₁.writer hw₁.owned
      (by rw [hw₁.user, (hr.own hw.writer).2.2, hhdr]) (by rw [hs₂]; rfl)
      (by rw [hs₂]; exact (Mem.i32_write_same _ _ _).trans hnext)
      (by rw [hs₂]; exact Mem.sameOutside_write _ _ _)
    rwa [← hlog] at hupd
  have hinv := (hrel (t + 1) (by omega)).inv hw₁.inv
  rw [← hs₂]
  refine ⟨hrel, ?_⟩
  change wp _ _ _ _ _ (if _ then _ else _) _ _
  split
  · exact fun s₃ hr₃ => hr₃.inv hinv
  · refine fun s₃ hr₃ _ => ⟨fun u _ => ?_, fun s₄ hr₄ => ?_⟩
    · exact rely_harmless (b := false) trivial (by simp) (hr₃.inv hinv)
    · exact hr₄.inv ((rely_harmless (u := t) (t := t) (o := .read .updateGlobalRevisionNb 40 4)
        (b := false) trivial (by simp) (hr₃.inv hinv)).inv (hr₃.inv hinv))

theorem harmless_of_dataOp {o : Op} (ho : DataOp o) : Harmless true o := by
  cases o with
  | read site a len => cases site <;> trivial
  | write site a src => cases site <;> first | exact ⟨rfl, ho⟩ | exact absurd ho id
  | samplePtr desc i => trivial
  | _ => exact absurd ho id

theorem harmless_of_offSection {o : Op} (ho : OffSection o) (b : Bool) :
    Harmless b o := by
  cases o with
  | backend c => cases c <;> trivial
  | calloc what => trivial
  | free what p => trivial
  | _ => exact absurd ho id

theorem step_computes_watched (o : Op) (s : World Ω × Log) :
    Computes o ((watched B).step t o s).2 := step_computes o s.1

/-- From the invalidation to the new revision. -/
theorem wp_createPublish (hC : ∀ t o s, C t o s → InvalidateOk o s) (hs : SafeHdr h)
    (hinv : Consistent K s) (howned : ∃ inst, K.owned inst s.1.os) (mdata : List UInt8)
    (first : Bool) :
    wp (watched B) t C (Rely K t) (Guar K t)
      (createPublish (getMmap (getOffsets lp64 h)) (descOf h) h mdata first)
      (fun _ s' => Consistent K s') s := by
  rw [createPublish_eq]
  refine wp_bind (Rely.refl K t) (wp_mono (wp_invalidateSection hC hinv howned first) ?_)
  intro _ s₁ hw₁
  refine wp_bind (Rely.refl K t) (wp_mono (Q := fun _ s' => Headed K t h s' ∧ s'.2.hdr = h) ?_ ?_)
  · refine wp_bind (Rely.refl K t) (wp_mono (wp_hdrWrite hw₁ h) ?_)
    rintro _ s₂ ⟨hw₂, hhdr⟩
    have hdata := (createData_dataOp hs mdata).mono (fun _ => harmless_of_dataOp) fun _ => id
    refine wp_mono (wp_harmless hdata step_computes_watched (fun _ => hw₂.owned) hw₂.inv) ?_
    rintro _ s₃ ⟨-, hr⟩
    exact ⟨hw₂.rely hr, (hr.own hw₂.writer).2.2.trans hhdr⟩
  · rintro _ s₃ ⟨hw₃, hhdr⟩
    exact wp_updateGlobalRevisionNb hw₃ hhdr

/-! ## The whole of `shd_create` -/

/-- A program outside the section. -/
theorem wp_offSection {α : Type} {p : ShdProg α} {Q : α → Prop}
    (hp : p.Ensures (fun _ _ => True) OffSection Q) (hs : Consistent K s) :
    wp (watched B) t C (Rely K t) (Guar K t) p (fun a s' => Q a ∧ Rely K t s s') s :=
  wp_harmless (hp.mono (fun _ ho => harmless_of_offSection ho false) fun _ => id)
    (fun _ _ => trivial) (by simp) hs

theorem wp_createError (inst : Nat) (ret : Int) (ctx : Option CtxAllocs) (hs : Consistent K s) :
    wp (watched B) t C (Rely K t) (Guar K t) (createError inst ret ctx) (fun _ _ => True) s :=
  wp_mono (wp_offSection (createError_offSection inst ret ctx) hs) fun _ _ _ => trivial

/-- An instance that a creation got is large enough for the header. -/
theorem wp_sectionCreate (hs : Consistent K s) (name : String) {size : Int}
    (hsize : Whole size) :
    wp (watched B) t C (Rely K t) (Guar K t) (sectionCreate name size)
      (fun c s' => Rely K t s s' ∧ (0 ≤ c.ret → K.owned c.inst s'.1.os)) s := by
  refine wp_bind (Rely.refl K t) (wp_mono (wp_offSection (initSectionInfos_offSection name) hs) ?_)
  rintro ret s₁ ⟨-, hr₁⟩
  split
  · rename_i hneg
    exact fun s₂ hr₂ => ⟨hr₁.trans hr₂, fun h => absurd hneg (not_lt.mpr h)⟩
  · intro s₂ hr₂ _
    have hinv₂ := hr₂.inv (hr₁.inv hs)
    have hr₃ : ∀ u, Rely K u s₂ ((watched B).step t (.backend (.create name size)) s₂).1 :=
      fun u => rely_harmless (b := false) trivial (by simp) hinv₂
    refine ⟨fun u _ => hr₃ u, fun s₄ hr₄ => ⟨hr₁.trans (hr₂.trans ((hr₃ t).trans hr₄)), fun h => ?_⟩⟩
    exact hr₄.owned _ (K.created t name size (s₂.1.mem, s₂.1.os) hsize h)

/-- A resize of an instance that is large enough. -/
theorem wp_sectionResize (hs : Consistent K s) {inst : Nat} (howned : K.owned inst s.1.os) :
    wp (watched B) t C (Rely K t) (Guar K t) (sectionResize inst)
      (fun _ s' => Rely K t s s') s := by
  intro s₁ hr₁ _
  have hstep : ∀ u, Rely K u s₁ ((watched B).step t (.backend (.resize inst)) s₁).1 := fun u => by
    obtain ⟨hg, hmem⟩ := K.call t (.resize inst) (s₁.1.mem, s₁.1.os) (hr₁.inv hs).good
      fun i hi => by
        cases hi
        exact hr₁.owned inst howned
    exact rely_of_same (fun _ => hg) (fun i => K.owned_call t (.resize inst) (s₁.1.mem, s₁.1.os) i)
      hmem.sameHdr rfl rfl rfl
  exact ⟨fun u _ => hstep u, fun s₂ hr₂ => hr₁.trans ((hstep t).trans hr₂)⟩

theorem wp_createWith (hC : ∀ t o s, C t o s → InvalidateOk o s) (hs : SafeHdr h)
    (hinv : Consistent K s) (howned : ∃ inst, K.owned inst s.1.os) (mdata : List UInt8)
    (env : Option String) (c : CreateResult) {m : CtxMmap}
    (hm : ∀ q, m.parts = some q → q = (getMmap (getOffsets lp64 h), descOf h)) :
    wp (watched B) t C (Rely K t) (Guar K t) (createWith h mdata env c m) (fun _ _ => True) s := by
  unfold createWith
  split
  · rename_i a map desc _ hparts
    obtain ⟨rfl, rfl⟩ := Prod.ext_iff.mp (hm _ hparts)
    refine wp_bind (Rely.refl K t) (wp_mono (wp_createPublish hC hs hinv howned mdata _) ?_)
    intro rev s₁ hs₁
    split
    · exact wp_createError _ _ _ hs₁
    · have hunlock : (sectionUnlock c.inst).Ensures (fun _ _ => True) OffSection fun _ => True :=
        ⟨trivial, fun _ _ => trivial⟩
      refine wp_bind (Rely.refl K t) (wp_mono (wp_offSection hunlock hs₁) ?_)
      rintro ret s₂ ⟨-, hr₂⟩
      split
      · exact wp_createError _ _ _ (hr₂.inv hs₁)
      · exact fun _ _ => trivial
  · exact wp_createError _ _ _ hinv

/-- **A creation keeps what the other threads rely on.** -/
theorem wp_create (hC : ∀ t o s, C t o s → InvalidateOk o s) (hs : SafeHdr h)
    (hinv : Consistent K s) (name : String) (mdata : List UInt8) (env : Option String) :
    wp (watched B) t C (Rely K t) (Guar K t) (create name h mdata env) (fun _ _ => True) s := by
  rw [create_eq]
  refine wp_bind (Rely.refl K t)
    (wp_mono (wp_sectionCreate hinv name (whole_sectionSize hs)) ?_)
  rintro c s₁ ⟨hr₁, howned⟩
  have hinv₁ := hr₁.inv hinv
  split
  · exact wp_createError _ _ _ hinv₁
  rename_i hret
  have howned₁ := howned (not_lt.mp hret)
  have hlock : (sectionLock c.inst).Ensures (fun _ _ => True) OffSection fun _ => True :=
    ⟨trivial, fun _ _ => trivial⟩
  refine wp_bind (Rely.refl K t) (wp_mono (wp_offSection hlock hinv₁) ?_)
  rintro ret s₂ ⟨-, hr₂⟩
  have hinv₂ := hr₂.inv hinv₁
  split
  · exact wp_createError _ _ _ hinv₂
  refine wp_bind (Rely.refl K t) (wp_mono (wp_sectionResize hinv₂ (hr₂.owned _ howned₁)) ?_)
  intro resized s₃ hr₃
  have hinv₃ := hr₃.inv hinv₂
  split
  · exact wp_createError _ _ _ hinv₃
  refine wp_bind (Rely.refl K t) (wp_mono (wp_offSection (ctxNew_offSection c.inst) hinv₃) ?_)
  rintro ctx s₄ ⟨-, hr₄⟩
  have hinv₄ := hr₄.inv hinv₃
  refine wp_bind (Rely.refl K t) (wp_mono (wp_offSection (ctxMmap_parts c.inst ctx h) hinv₄) ?_)
  rintro m s₅ ⟨hparts, hr₅⟩
  refine wp_createWith hC hs (hr₅.inv hinv₄) ⟨c.inst, ?_⟩ mdata env c ?_
  · exact hr₅.owned _ (hr₄.owned _ (hr₃.owned _ (hr₂.owned _ howned₁)))
  · rintro ⟨map, desc⟩ hq
    obtain ⟨rfl, rfl⟩ := hparts map desc hq
    exact congrArg _ (desc_of_safe hs)

end Shdata.Revision
