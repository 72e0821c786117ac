/-
Shdata.Solo.Create — what a creation that runs alone leaves in the section.

`Published` is the state of the bytes after `shd_create`: the library's magic
number and version, the user header, the blob metadata, no sample and no
session. `createPublish_spec` proves it for the part of `shd_create` that
writes, one function at a time; `exec_create` finds that part in a whole
`shd_create` that returned a context.
-/
import Shdata.Solo.Exec

namespace Shdata.Solo

open Shdata.Conc Shdata.Bytes Shdata.Core Shdata.Ring Shdata.Layout Shdata.Trace Shdata.Producer

variable {Ω : Type} {B : Backend Ω} {t : Nat} {w : World Ω}

/-- The section header of a creation. -/
structure PublishedHdr (h : HdrUserInfo) (m : Mem) : Prop where
  magic : leNat (m.read 0 8) = SHD_MAGIC_NUMBER
  major : leNat (m.read 8 4) = SHD_VERSION_MAJOR
  user : m.read 16 24 = encHdrUserInfo h

/-- The bytes after a creation. -/
structure Published (h : HdrUserInfo) (mdata : List UInt8) (m : Mem) : Prop where
  hdr : PublishedHdr h m
  mdata : m.read 56 h.blobMetadataHdrSize.toNat = mdata.take h.blobMetadataHdrSize.toNat
  cleared : Cleared (descOf h) m

/-! ## The headers -/

theorem length_encHdrUserInfo (h : HdrUserInfo) : (encHdrUserInfo h).length = 24 := by
  simp [encHdrUserInfo]

/-- A copy that is skipped when the bytes are there already. -/
theorem read_write_unless (m : Mem) (a : Int) (src : List UInt8) :
    (if m.read a src.length ≠ src then m.write a src else m).read a src.length = src := by
  split
  · exact Mem.read_write_same m a src
  · rename_i h
    simpa using h

theorem sameOutside_write_unless (m : Mem) (a : Int) (src : List UInt8) :
    Mem.SameOutside m (if m.read a src.length ≠ src then m.write a src else m) a
      (a + src.length) := by
  split
  · exact Mem.sameOutside_write m a src
  · exact fun _ _ => rfl

/-- The bytes after `shd_hdr_write`. -/
def memHdrWrite (h : HdrUserInfo) (m : Mem) : Mem :=
  let user := if m.read 16 (encHdrUserInfo h).length ≠ encHdrUserInfo h then
    m.write 16 (encHdrUserInfo h) else m
  ((((user.write 44 (encI32 (-1))).write 48 (encI32 0)).write 0
    (leBytes 8 SHD_MAGIC_NUMBER)).write 8 (leBytes 4 SHD_VERSION_MAJOR)).write 12
      (leBytes 4 SHD_VERSION_MINOR)

theorem exec_hdrWrite (h : HdrUserInfo) :
    (exec (machine B) t (hdrWrite 0 h) w).2 = { w with mem := memHdrWrite h w.mem } := by
  rw [hdrWrite, exec_bind, exec_memcpyOut, exec_bind]
  have hlen : sizeofUserInfo = (encHdrUserInfo h).length := (length_encHdrUserInfo h).symm
  have haddr : (0 : Int) + lp64.offsetofUserInfo = 16 := rfl
  rw [hlen, haddr, memHdrWrite]
  split <;> rfl

theorem memHdrWrite_spec (h : HdrUserInfo) (m : Mem) :
    PublishedHdr h (memHdrWrite h m) ∧ writeIndex (memHdrWrite h m) = -1 ∧
      nbOngoing (memHdrWrite h m) = 0 ∧
      ∀ x, (40 ≤ x ∧ x < 44) ∨ 52 ≤ x → memHdrWrite h m x = m x := by
  have huser := read_write_unless m 16 (encHdrUserInfo h)
  have hout := sameOutside_write_unless m 16 (encHdrUserInfo h)
  have hlen := length_encHdrUserInfo h
  obtain ⟨user, hdef⟩ : ∃ user, (if m.read 16 (encHdrUserInfo h).length ≠ encHdrUserInfo h then
    m.write 16 (encHdrUserInfo h) else m) = user := ⟨_, rfl⟩
  rw [hdef] at huser hout
  unfold memHdrWrite
  rw [hdef]
  rw [hlen] at huser hout
  refine ⟨⟨?_, ?_, ?_⟩, ?_, ?_, ?_⟩
  · rw [Mem.read_write_disjoint (by simp), Mem.read_write_disjoint (by simp)]
    have := Mem.read_write_same ((user.write 44 (encI32 (-1))).write 48 (encI32 0)) 0
      (leBytes 8 SHD_MAGIC_NUMBER)
    rw [length_leBytes] at this
    rw [this, leNat_leBytes]
    decide
  · rw [Mem.read_write_disjoint (by simp)]
    have := Mem.read_write_same (((user.write 44 (encI32 (-1))).write 48 (encI32 0)).write 0
      (leBytes 8 SHD_MAGIC_NUMBER)) 8 (leBytes 4 SHD_VERSION_MAJOR)
    rw [length_leBytes] at this
    rw [this, leNat_leBytes]
    decide
  · rw [Mem.read_write_disjoint (by simp), Mem.read_write_disjoint (by simp),
      Mem.read_write_disjoint (by simp), Mem.read_write_disjoint (by simp),
      Mem.read_write_disjoint (by simp)]
    exact huser
  · rw [writeIndex, Mem.i32_write_disjoint (by simp), Mem.i32_write_disjoint (by simp),
      Mem.i32_write_disjoint (by simp), Mem.i32_write_disjoint (by simp), Mem.i32_write_same]
    exact toI32_of_isI32 ⟨by omega, by omega⟩
  · rw [nbOngoing, Mem.i32_write_disjoint (by simp), Mem.i32_write_disjoint (by simp),
      Mem.i32_write_disjoint (by simp), Mem.i32_write_same]
    exact toI32_of_isI32 ⟨by omega, by omega⟩
  · intro x hx
    rw [Mem.write_of_not_mem (by simp; omega), Mem.write_of_not_mem (by simp; omega),
      Mem.write_of_not_mem (by simp; omega), Mem.write_of_not_mem (by simp; omega),
      Mem.write_of_not_mem (by simp; omega)]
    exact hout x (by omega)

/-- The bytes after `shd_mdata_hdr_write`. -/
theorem exec_mdataHdrWrite (src : List UInt8) {size : Nat} (hsrc : (src.take size).length = size) :
    (exec (machine B) t (mdataHdrWrite 56 src size) w).2 =
      { w with mem := if w.mem.read 56 (src.take size).length ≠ src.take size then
          w.mem.write 56 (src.take size) else w.mem } := by
  rw [mdataHdrWrite, exec_bind, exec_memcpyOut, hsrc]
  split <;> rfl

/-! ## The data section -/

/-- A counter that is invalidated reads as `-1`. -/
theorem decI32_minus_one : toI32 (-1) = -1 := toI32_of_isI32 ⟨by omega, by omega⟩

/-- The loop of `shd_data_clear_section` over slots `[i, i + n)`. -/
theorem exec_dataClearLoop {d : DataSectionDesc} (hd : SoundDesc d) (n : Nat) (i : Int)
    (hi : 0 ≤ i) (hn : i + n ≤ d.nbSamples) (w : World Ω) :
    ∃ m, (exec (machine B) t (dataClearLoop d n i) w).2 = { w with mem := m } ∧
      (∀ j, i ≤ j → j < i + n → nbWrites d m j = -1) ∧
      ∀ x, (∀ j, i ≤ j → j < i + n → x < slot d j + 32 ∨ slot d j + 36 ≤ x) → m x = w.mem x := by
  induction n generalizing i w with
  | zero =>
    exact ⟨w.mem, rfl, fun j h0 h1 => absurd h1 (by omega), fun _ _ => rfl⟩
  | succ n ih =>
    have hslot : IsSlot d.nbSamples i := ⟨hi, by push_cast at hn; omega⟩
    have hptr : dataGetSamplePtr d (toI32 i) = slot d i := by
      rw [hslot.isI32 hd.size, dataGetSamplePtr_eq hd hslot]
    obtain ⟨m, hexec, hcnt, hout⟩ := ih (i + 1) (by omega) (by push_cast at hn; omega)
      { w with mem := w.mem.write (slot d i + 32) (encI32 (-1)) }
    refine ⟨m, ?_, ?_, ?_⟩
    · rw [dataClearLoop, exec_bind, exec_getSamplePtr, hptr, exec_bind, syncInvalidateSample,
        nbWritesPtr_slot hd hslot]
      exact hexec
    · intro j h0 h1
      by_cases hj : j = i
      · subst hj
        have hkeep : nbWrites d m j
            = nbWrites d (w.mem.write (slot d j + 32) (encI32 (-1))) j := by
          apply nbWrites_congr
          intro x hx0 hx1
          refine hout x fun k hk0 hk1 => ?_
          have hne : j ≠ k := by omega
          have := slot_disjoint hd hne
          have := hd.stride_pos
          omega
        rw [hkeep, nbWrites, Mem.i32_write_same, decI32_minus_one]
      · exact hcnt j (by omega) (by push_cast at h1 ⊢; omega)
    · intro x hx
      rw [hout x fun j h0 h1 => hx j (by omega) (by push_cast; omega)]
      have := hx i (le_refl i) (by push_cast; omega)
      exact Mem.write_of_not_mem (by rw [length_encI32]; omega)

/-- `shd_data_clear_section`: all counters are `-1`, and nothing before the data
section changes. -/
theorem exec_dataClearSection {h : HdrUserInfo} (hf : FitsHdr h) (w : World Ω) :
    ∃ m, (exec (machine B) t (dataClearSection (descOf h)) w).2 = { w with mem := m } ∧
      (∀ i, IsSlot (hdrNbSamples h) i → nbWrites (descOf h) m i = -1) ∧
      ∀ x, x < 56 + up4 (hdrMdataSize h) → m x = w.mem x := by
  have hd := soundDesc_of_fits hf
  have hpos := hf.size.pos
  have hnat : ((descOf h).nbSamples.toNat : Int) = hdrNbSamples h :=
    Int.toNat_of_nonneg (by show 0 ≤ hdrNbSamples h; omega)
  obtain ⟨m, hexec, hcnt, hout⟩ := exec_dataClearLoop (B := B) (t := t) hd
    (descOf h).nbSamples.toNat 0 (le_refl 0) (by rw [hnat, Int.zero_add]; exact le_refl _)
    { w with mem := (w.mem.write (descOf h).dataSectionStart (List.replicate
        (dataGetTotalSize lp64 (descOf h).blobSize (descOf h).nbSamples).toNat 0)) }
  refine ⟨m, ?_, ?_, ?_⟩
  · rw [dataClearSection, exec_bind]
    exact hexec
  · intro i hi
    exact hcnt i hi.nonneg (by rw [hnat]; have := hi.lt; omega)
  · intro x hx
    rw [hout x fun j h0 _ => ?_]
    · exact Mem.write_of_not_mem (Or.inl hx)
    · have h0' : slot (descOf h) 0 ≤ slot (descOf h) j := slot_mono hd h0
      have hs0 : slot (descOf h) 0 = 56 + up4 (hdrMdataSize h) := by simp [slot, descOf]
      omega

/-! ## The revision -/

/-- The revision after `shd_sync_invalidate_section`. -/
def revInvalidated (first : Bool) (v : Int) : Int := if first then 1 else toI32 (v + 1)

theorem exec_invalidateSection (first : Bool) :
    ∃ m, (exec (machine B) t (syncInvalidateSection 40 first) w).2 = { w with mem := m } ∧
      nbCreations m = revInvalidated first (nbCreations w.mem) ∧
      Mem.SameOutside w.mem m 40 44 := by
  cases first with
  | true =>
    refine ⟨_, rfl, ?_, Mem.sameOutside_write _ _ _⟩
    rw [nbCreations, Mem.i32_write_same]
    exact toI32_of_isI32 ⟨by omega, by omega⟩
  | false =>
    refine ⟨_, rfl, ?_, Mem.sameOutside_write _ _ _⟩
    rw [nbCreations, Mem.i32_write_same, revInvalidated, if_neg Bool.false_ne_true]
    rfl

/-- What `shd_sync_update_global_revision_nb` returns for the value it finds. -/
def revUpdated (v : Int) : Int := if Int.tmod (toI32 (v + 1)) 2 ≠ 0 then -EFAULT else toI32 (v + 1)

theorem exec_updateGlobalRevisionNb :
    ∃ m, exec (machine B) t (syncUpdateGlobalRevisionNb 40) w
        = (revUpdated (nbCreations w.mem), { w with mem := m }) ∧
      nbCreations m = toI32 (nbCreations w.mem + 1) ∧ Mem.SameOutside w.mem m 40 44 := by
  have hval : nbCreations (w.mem.write 40 (encI32 (w.mem.i32 40 + 1)))
      = toI32 (nbCreations w.mem + 1) := Mem.i32_write_same _ _ _
  refine ⟨w.mem.write 40 (encI32 (w.mem.i32 40 + 1)), ?_, hval, Mem.sameOutside_write _ _ _⟩
  rw [syncUpdateGlobalRevisionNb, exec_bind, exec_addAndFetch, revUpdated]
  change exec (machine B) t (if Int.tmod (toI32 (nbCreations w.mem + 1)) 2 ≠ 0 then _ else _) _ = _
  by_cases hodd : Int.tmod (toI32 (nbCreations w.mem + 1)) 2 ≠ 0
  · rw [if_pos hodd, if_pos hodd]
    rfl
  · rw [if_neg hodd, if_neg hodd, exec_load32]
    exact Prod.ext hval rfl

/-! ## The writing part of `shd_create` -/

/-- From the invalidation to the new revision. -/
theorem createPublish_spec {h : HdrUserInfo} (hf : FitsHdr h) {mdata : List UInt8}
    (hmd : (mdata.take h.blobMetadataHdrSize.toNat).length = h.blobMetadataHdrSize.toNat)
    (first : Bool) (w : World Ω) :
    ∃ m, exec (machine B) t (createPublish (getMmap (getOffsets lp64 h)) (descOf h) h mdata first) w
        = (revUpdated (revInvalidated first (nbCreations w.mem)), { w with mem := m }) ∧
      Published h mdata m ∧
      nbCreations m = toI32 (revInvalidated first (nbCreations w.mem) + 1) := by
  have hd := soundDesc_of_fits hf
  have hle := le_up4 (hdrMdataSize h)
  have hmd0 := hdrMdataSize_nonneg h
  have hstart : ∀ i, IsSlot (hdrNbSamples h) i → 56 ≤ slot (descOf h) i :=
    fun i hi => (slot_bounds hd hi).1
  rw [createPublish, getMmap_eq hf]
  dsimp only
  rw [exec_bind]
  obtain ⟨m₁, he₁, hr₁, ho₁⟩ := exec_invalidateSection (B := B) (t := t) (w := w) first
  rw [he₁, exec_bind, exec_hdrWrite, exec_bind, exec_mdataHdrWrite mdata hmd, exec_bind]
  obtain ⟨hpub, hidx, hong, ho₂⟩ := memHdrWrite_spec h m₁
  have hrd := read_write_unless (memHdrWrite h m₁) 56 (mdata.take h.blobMetadataHdrSize.toNat)
  have ho₃ := sameOutside_write_unless (memHdrWrite h m₁) 56
    (mdata.take h.blobMetadataHdrSize.toNat)
  dsimp only
  generalize (if (memHdrWrite h m₁).read 56 (mdata.take h.blobMetadataHdrSize.toNat).length
      ≠ mdata.take h.blobMetadataHdrSize.toNat then
    (memHdrWrite h m₁).write 56 (mdata.take h.blobMetadataHdrSize.toNat)
    else memHdrWrite h m₁) = m₃ at hrd ho₃ ⊢
  rw [hmd] at hrd ho₃
  obtain ⟨m₄, he₄, hcnt, ho₄⟩ := exec_dataClearSection (B := B) (t := t) hf { w with mem := m₃ }
  rw [he₄]
  obtain ⟨m₅, he₅, hr₅, ho₅⟩ := exec_updateGlobalRevisionNb (B := B) (t := t)
    (w := { w with mem := m₄ })
  rw [he₅]
  -- the revision is not touched between its two updates
  have hrev : nbCreations m₄ = revInvalidated first (nbCreations w.mem) := by
    rw [← hr₁]
    refine Mem.i32_congr fun x h0 h1 => ?_
    exact (ho₄ x (by omega)).trans ((ho₃ x (by omega)).trans (ho₂ x (by omega)))
  refine ⟨m₅, by rw [hrev], ?_, by rw [hr₅, hrev]⟩
  have hmdsz : (h.blobMetadataHdrSize.toNat : Int) = hdrMdataSize h := rfl
  have hhdr : ∀ x, x < 40 ∨ (44 ≤ x ∧ x < 56) → m₅ x = memHdrWrite h m₁ x := by
    intro x hx
    exact (ho₅ x (by omega)).trans ((ho₄ x (by omega)).trans (ho₃ x (by omega)))
  refine ⟨⟨?_, ?_, ?_⟩, ?_, ⟨?_, ?_, ?_⟩⟩
  · rw [Mem.read_congr fun x h0 h1 => hhdr x (by omega)]
    exact hpub.magic
  · rw [Mem.read_congr fun x h0 h1 => hhdr x (by omega)]
    exact hpub.major
  · rw [Mem.read_congr fun x h0 h1 => hhdr x (by omega)]
    exact hpub.user
  · rw [Mem.read_congr fun x h0 h1 => (ho₅ x (by omega)).trans (ho₄ x (by omega))]
    exact hrd
  · rw [writeIndex, Mem.i32_congr fun x h0 h1 => hhdr x (by omega)]
    exact hidx
  · rw [nbOngoing, Mem.i32_congr fun x h0 h1 => hhdr x (by omega)]
    exact hong
  · intro i hi
    rw [← hcnt i hi]
    have := hstart i hi
    exact ho₅.i32 (by omega)

/-! ## The whole of `shd_create` -/

/-- The error exit returns NULL. -/
theorem exec_createError (inst : Nat) (ret : Int) (ctx : Option CtxAllocs) (w : World Ω) :
    (exec (machine B) t (createError inst ret ctx) w).1 = none := by
  rw [createError, exec_bind]
  split
  · rw [exec_bind]
    rfl
  · rfl

/-- A mapping of the section is the layout of the header it was given. -/
theorem sectionMap_ensures {A : (o : Op) → o.Resp → Prop} (inst : Nat) (h : HdrUserInfo) :
    (sectionMap inst h).Ensures A OffSection
      fun r => ∀ q, r = some q → q.2 = getMmap (getOffsets lp64 h) := by
  refine Prog.ensures_perform trivial fun ret _ => ?_
  split
  · rintro q hq
    exact absurd hq (by simp)
  · refine Prog.ensures_perform trivial fun p _ => ?_
    rintro q hq
    cases p with
    | none => exact absurd hq (by simp)
    | some p => rw [← Option.some.inj hq]

theorem dataSectionDescNew_ensures {A : (o : Op) → o.Resp → Prop} (map : SectionMap)
    (h : HdrUserInfo) :
    (dataSectionDescNew map (some h)).Ensures A OffSection
      fun r => ∀ q, r = some q → q.2 = ⟨map.dataTop, hdrBlobSize h, hdrNbSamples h⟩ := by
  refine Prog.ensures_perform trivial fun p _ => ?_
  cases p with
  | none => exact fun q hq => absurd hq (by simp)
  | some p =>
    rintro q hq
    rw [← Option.some.inj hq]
    rfl

/-- A context is mapped in two steps, and what the steps say of the mapping and of the
description holds of the parts of the context. -/
theorem ctxMmap_ensures {A : (o : Op) → o.Resp → Prop} {G : Op → Prop} {Q : SectionMap → Prop}
    {R : SectionMap → DataSectionDesc → Prop} {inst : Nat} {hdrInfo : Option HdrUserInfo}
    (hmap : (sectionMappingNew inst hdrInfo).Ensures A G fun r => ∀ q, r = some q → Q q.2)
    (hdesc : ∀ map, Q map → (dataSectionDescNew map hdrInfo).Ensures A G
      fun r => ∀ q, r = some q → R map q.2) (ctx : Option CtxAllocs) :
    (ctxMmap inst ctx hdrInfo).Ensures A G
      fun r => ∀ map desc, r.parts = some (map, desc) → Q map ∧ R map desc := by
  cases ctx with
  | none => exact fun map desc he => absurd he (by simp)
  | some a =>
    refine hmap.bind fun r hr => ?_
    cases r with
    | none => exact fun map desc he => absurd he (by simp)
    | some q =>
      refine (hdesc q.2 (hr q rfl)).bind fun r' hr' => ?_
      cases r' with
      | none => exact fun map desc he => absurd he (by simp)
      | some q' =>
        rintro map' desc' he
        obtain ⟨rfl, rfl⟩ := Prod.ext_iff.mp (Option.some.inj he)
        exact ⟨hr q rfl, hr' q' rfl⟩

/-- The description that a creation maps is that of its own header. -/
theorem ctxMmap_parts {A : (o : Op) → o.Resp → Prop} (inst : Nat) (ctx : Option CtxAllocs)
    (h : HdrUserInfo) : (ctxMmap inst ctx (some h)).Ensures A OffSection
      fun r => ∀ map desc, r.parts = some (map, desc) →
        map = getMmap (getOffsets lp64 h) ∧
          desc = ⟨map.dataTop, hdrBlobSize h, hdrNbSamples h⟩ :=
  ctxMmap_ensures (sectionMap_ensures inst h) (fun map _ => dataSectionDescNew_ensures map h) ctx

/-- A creation that succeeds went through `createPublish`, on the layout of its
own header, and only the unlock came after it. -/
theorem exec_create {name : String} {h : HdrUserInfo} {mdata : List UInt8} {env : Option String}
    {p : ShdCtx} {w₁ : World Ω}
    (hex : exec (machine B) t (create name h mdata env) w = (some p, w₁)) :
    ∃ inst a first w',
      0 ≤ (exec (machine B) t (createPublish (getMmap (getOffsets lp64 h))
        ⟨(getMmap (getOffsets lp64 h)).dataTop, hdrBlobSize h, hdrNbSamples h⟩ h mdata first) w').1 ∧
      w₁ = (exec (machine B) t (sectionUnlock inst) (exec (machine B) t
        (createPublish (getMmap (getOffsets lp64 h))
          ⟨(getMmap (getOffsets lp64 h)).dataTop, hdrBlobSize h, hdrNbSamples h⟩ h mdata first)
          w').2).2 ∧
      p = ctxInit inst a (getMmap (getOffsets lp64 h))
        ⟨(getMmap (getOffsets lp64 h)).dataTop, hdrBlobSize h, hdrNbSamples h⟩ env := by
  have hnone : ∀ inst ret ctx w', exec (machine B) t (createError inst ret ctx) w' ≠ (some p, w₁) :=
    fun inst ret ctx w' he => absurd (exec_createError (B := B) (t := t) inst ret ctx w')
      (by rw [he]; simp)
  rw [create, exec_bind] at hex
  obtain ⟨c, hc⟩ : ∃ c, (exec (machine B) t
    (sectionCreate name (sectionGetTotalSize lp64 h)) w) = c := ⟨_, rfl⟩
  rw [hc] at hex
  split at hex
  · exact absurd hex (hnone _ _ _ _)
  rw [exec_bind] at hex
  split at hex
  · exact absurd hex (hnone _ _ _ _)
  rw [exec_bind] at hex
  split at hex
  · exact absurd hex (hnone _ _ _ _)
  rw [exec_bind, exec_bind] at hex
  split at hex
  · rename_i a map desc halloc hparts
    obtain ⟨rfl, rfl⟩ := exec_value (machine B) t (ctxMmap_parts _ _ h) _ map desc hparts
    rw [exec_bind] at hex
    split at hex
    · exact absurd hex (hnone _ _ _ _)
    rename_i hrev
    rw [exec_bind] at hex
    split at hex
    · exact absurd hex (hnone _ _ _ _)
    obtain ⟨hp, hw⟩ := Prod.ext_iff.mp hex
    refine ⟨c.1.inst, a, c.1.firstCreation, _, by omega, hw.symm, ?_⟩
    exact (Option.some.inj hp).symm
  · exact absurd hex (hnone _ _ _ _)

/-- What a successful creation returns and leaves. -/
theorem create_spec (hB : B.Faithful) {name : String} {h : HdrUserInfo} (hf : FitsHdr h)
    {mdata : List UInt8}
    (hmd : (mdata.take h.blobMetadataHdrSize.toNat).length = h.blobMetadataHdrSize.toNat)
    {env : Option String} {p : ShdCtx} {w₁ : World Ω}
    (hex : exec (machine B) t (create name h mdata env) w = (some p, w₁)) :
    Published h mdata w₁.mem ∧ p.desc = descOf h ∧
      p.sectMmap = getMmap (getOffsets lp64 h) ∧ p.syncCtx = syncCtxInit ∧
      p.window = windowIdle := by
  obtain ⟨inst, a, first, w', -, hw, rfl⟩ := exec_create hex
  have hdesc : (⟨(getMmap (getOffsets lp64 h)).dataTop, hdrBlobSize h, hdrNbSamples h⟩ :
      DataSectionDesc) = descOf h := by
    rw [getMmap_eq hf]
    rfl
  rw [hdesc] at hw ⊢
  obtain ⟨m, he, hpub, -⟩ := createPublish_spec (B := B) (t := t) hf hmd first w'
  rw [he] at hw
  refine ⟨?_, rfl, rfl, rfl, rfl⟩
  have hmem : w₁.mem = m := by
    rw [hw]
    exact hB.mem t (.unlock inst) _ (by simp) (by simp)
  rwa [hmem]

/-- The context of a creation is that of a producer that made no call yet. -/
theorem create_fresh (hB : B.Faithful) {name : String} {h : HdrUserInfo} (hf : FitsHdr h)
    {mdata : List UInt8}
    (hmd : (mdata.take h.blobMetadataHdrSize.toNat).length = h.blobMetadataHdrSize.toNat)
    {env : Option String} {p : ShdCtx} {w₁ : World Ω}
    (hex : exec (machine B) t (create name h mdata env) w = (some p, w₁)) :
    Cleared (descOf h) w₁.mem ∧ Fresh (descOf h) p := by
  obtain ⟨hpub, hdesc, hmap, hsync, -⟩ := create_spec hB hf hmd hex
  exact ⟨hpub.cleared, ⟨hdesc, by rw [hmap, getMmap_eq hf]⟩, by rw [hsync]; rfl⟩

/-- A section of `n` slots of 4 bytes on a shared memory file. -/
def created (n : UInt32) : Option ShdCtx × World Shm :=
  exec (machine shm) 0 (create "section" ⟨4, n, 1, 0⟩ [] none) Shm.world

theorem created_fresh {n : UInt32} (hf : FitsHdr ⟨4, n, 1, 0⟩) (h : (created n).1.isSome) :
    Cleared (descOf ⟨4, n, 1, 0⟩) (created n).2.mem ∧
      Fresh (descOf ⟨4, n, 1, 0⟩) ((created n).1.getD default) := by
  obtain ⟨p, hp⟩ := Option.isSome_iff_exists.mp h
  rw [hp]
  exact create_fresh shm_faithful hf rfl (Prod.ext hp rfl)

theorem created_ctx {n : UInt32} (hf : FitsHdr ⟨4, n, 1, 0⟩) (h : (created n).1.isSome) :
    CtxFor (descOf ⟨4, n, 1, 0⟩) ((created n).1.getD default) ∧
      ((created n).1.getD default).syncCtx = syncCtxInit := by
  obtain ⟨p, hp⟩ := Option.isSome_iff_exists.mp h
  obtain ⟨-, hdesc, hmap, hsync, -⟩ := create_spec (B := shm) shm_faithful hf rfl (Prod.ext hp rfl)
  have hctx : CtxFor (descOf ⟨4, n, 1, 0⟩) p := ⟨hdesc, by rw [hmap, getMmap_eq hf]⟩
  rw [hp]
  exact ⟨hctx, hsync⟩

end Shdata.Solo
