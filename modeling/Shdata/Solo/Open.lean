/-
Shdata.Solo.Open — what `shd_open` returns when nothing interferes.

The header is read twice, through the backend for the mapping and in the
mapping for the description. Between creations both readings see the one
header that `PublishedHdr` is about, and the context is that of the
creation's own layout.
-/
import Shdata.Solo.Create

namespace Shdata.Solo

open Shdata.Conc Shdata.Bytes Shdata.Core Shdata.Ring Shdata.Layout Shdata.Trace Shdata.Producer

variable {Ω : Type} {B : Backend Ω} {t : Nat} {w : World Ω} {m : Mem} {h : HdrUserInfo}

/-! ## Reading the header -/

theorem leNat_take_append (n v : Nat) (bs : List UInt8) :
    leNat ((leBytes n v ++ bs).take n) = v % 256 ^ n := by
  rw [List.take_left' (length_leBytes n v), leNat_leBytes]

theorem drop_append_leBytes (n v : Nat) (bs : List UInt8) : (leBytes n v ++ bs).drop n = bs :=
  List.drop_left' (length_leBytes n v)

/-- The header survives its encoding. -/
theorem decHdrUserInfo_append (h : HdrUserInfo) (bs : List UInt8) :
    decHdrUserInfo (encHdrUserInfo h ++ bs) = h := by
  obtain ⟨blobSize, maxNbSamples, rate, mdataSize⟩ := h
  have hblob := blobSize.toNat_lt
  have hnb := maxNbSamples.toNat_lt
  have hrate := rate.toNat_lt
  have hmd := mdataSize.toNat_lt
  have h12 : ∀ xs : List UInt8, xs.drop 12 = (xs.drop 8).drop 4 := fun xs => by simp
  have h16 : ∀ xs : List UInt8, xs.drop 16 = ((xs.drop 8).drop 4).drop 4 := fun xs => by simp
  simp only [decHdrUserInfo, encHdrUserInfo, List.append_assoc, h12, h16, leNat_take_append,
    drop_append_leBytes]
  rw [Nat.mod_eq_of_lt (by omega), Nat.mod_eq_of_lt (by omega), Nat.mod_eq_of_lt (by omega),
    Nat.mod_eq_of_lt (by omega)]
  simp

/-- The bytes of the header, read with what comes after them. -/
theorem user_append (hu : m.read 16 24 = encHdrUserInfo h) :
    (m.read 0 56).drop 16 = encHdrUserInfo h ++ (m.read 0 56).drop 40 := by
  have htake : ((m.read 0 56).drop 16).take 24 = encHdrUserInfo h := by
    rw [Mem.read_drop_take m 0 56 16 24 (by omega)]
    exact hu
  calc (m.read 0 56).drop 16
      = ((m.read 0 56).drop 16).take 24 ++ ((m.read 0 56).drop 16).drop 24 :=
        (List.take_append_drop 24 _).symm
    _ = encHdrUserInfo h ++ (m.read 0 56).drop 40 := by rw [htake, List.drop_drop]

/-- `shd_hdr_read` through the backend. -/
theorem hdrReadBackend_ensures (m : Mem) (inst : Nat) :
    (hdrReadBackend inst).Ensures (Reads m) KeepsMem
      fun r => 0 ≤ r.1 → r.2 = decHdrUserInfo ((m.read 0 56).drop 16) := by
  refine Prog.ensures_perform trivial fun r hr => ?_
  dsimp only
  split
  · exact fun hneg => absurd hneg (show ¬ 0 ≤ -EFAULT by decide)
  rename_i hmagic
  split
  · exact fun hneg => absurd hneg (show ¬ 0 ≤ -EFAULT by decide)
  · intro _
    show decHdrUserInfo (r.hdr.drop 16) = _
    rw [hr (not_not.mp hmagic)]

/-- The mapping that a consumer makes. -/
theorem sectionMappingNew_ensures (m : Mem) (inst : Nat) :
    (sectionMappingNew inst none).Ensures (Reads m) KeepsMem fun r =>
      ∀ q, r = some q → q.2 = getMmap (getOffsets lp64 (decHdrUserInfo ((m.read 0 56).drop 16))) := by
  refine (hdrReadBackend_ensures m inst).bind fun r hr => ?_
  split
  · exact fun q hq => absurd hq (by simp)
  · rw [hr (by omega)]
    exact (sectionMap_ensures inst _).mono (fun _ => keepsMem_of_offSection) fun _ => id

/-- The description that a consumer reads in its mapping. -/
theorem dataSectionDescNew_read (m : Mem) {map : SectionMap} (hmap : map.headerTop = 16) :
    (dataSectionDescNew map none).Ensures (Reads m) KeepsMem fun r =>
      ∀ q, r = some q →
        q.2 = ⟨map.dataTop, leNat (m.read 16 8), leNat (m.read (16 + 8) 4)⟩ := by
  refine Prog.ensures_perform trivial fun p _ => ?_
  cases p with
  | none => exact fun q hq => absurd hq (by simp)
  | some p =>
    refine Prog.ensures_perform trivial fun bs hbs => Prog.ensures_perform trivial fun bs' hbs' => ?_
    change bs = m.read map.headerTop 8 at hbs
    change bs' = m.read (map.headerTop + 8) 4 at hbs'
    rw [hmap] at hbs hbs'
    rintro q hq
    rw [← Option.some.inj hq, hbs, hbs']

/-- The mapping and the description of a consumer are what the bytes of the header
give. -/
theorem ctxMmap_ensures_read (m : Mem) (inst : Nat) (ctx : Option CtxAllocs) :
    (ctxMmap inst ctx none).Ensures (Reads m) KeepsMem fun r =>
      ∀ map desc, r.parts = some (map, desc) →
        map = getMmap (getOffsets lp64 (decHdrUserInfo ((m.read 0 56).drop 16))) ∧
          desc = ⟨map.dataTop, leNat (m.read 16 8), leNat (m.read (16 + 8) 4)⟩ :=
  ctxMmap_ensures (sectionMappingNew_ensures m inst)
    (fun map hmap => dataSectionDescNew_read m (by rw [hmap]; rfl)) ctx

/-- A field of the header, read on its own. -/
theorem read_field (hu : m.read 16 24 = encHdrUserInfo h) (i n : Nat) (hle : i + n ≤ 24) :
    m.read (16 + (i : Int)) n = ((encHdrUserInfo h).drop i).take n := by
  rw [← hu, Mem.read_drop_take m 16 24 i n hle]

theorem read_blobSize (hu : m.read 16 24 = encHdrUserInfo h) :
    (leNat (m.read 16 8) : Int) = hdrBlobSize h := by
  have hfield := read_field hu 0 8 (by omega)
  rw [show (16 : Int) + ((0 : Nat) : Int) = 16 by simp] at hfield
  rw [hfield, List.drop_zero, encHdrUserInfo, leNat_take_append]
  exact congrArg _ (Nat.mod_eq_of_lt h.blobSize.toNat_lt)

theorem read_maxNbSamples (hu : m.read 16 24 = encHdrUserInfo h) :
    (leNat (m.read (16 + 8) 4) : Int) = hdrNbSamples h := by
  have hfield := read_field hu 8 4 (by omega)
  rw [show (16 : Int) + ((8 : Nat) : Int) = 16 + 8 by simp] at hfield
  rw [hfield, encHdrUserInfo, drop_append_leBytes, leNat_take_append]
  exact congrArg _ (Nat.mod_eq_of_lt h.maxNbSamples.toNat_lt)

theorem read_mdataSize (hu : m.read 16 24 = encHdrUserInfo h) :
    leNat (m.read (16 + 16) 8) = h.blobMetadataHdrSize.toNat := by
  have hfield := read_field hu 16 8 (by omega)
  rw [show (16 : Int) + ((16 : Nat) : Int) = 16 + 16 by simp] at hfield
  rw [hfield, encHdrUserInfo, show 16 = 8 + (4 + 4) from rfl, ← List.drop_drop, ← List.drop_drop,
    drop_append_leBytes, drop_append_leBytes, drop_append_leBytes,
    List.take_of_length_le (by simp), leNat_leBytes]
  exact Nat.mod_eq_of_lt h.blobMetadataHdrSize.toNat_lt

/-! ## The whole of `shd_open` -/

/-- The allocations of `shd_ctx_new` and the error exits write nothing. -/
theorem ctxDestroy_offSection {A : (o : Op) → o.Resp → Prop} (inst : Nat)
    (ctx : Option CtxAllocs) : (ctxDestroy inst ctx).Ensures A OffSection fun _ => True := by
  cases ctx with
  | none => exact trivial
  | some a =>
    exact ⟨trivial, fun _ _ => ⟨trivial, fun _ _ => ⟨trivial, fun _ _ => ⟨trivial, fun _ _ =>
      ⟨trivial, fun _ _ => ⟨trivial, fun _ _ => ⟨trivial, fun _ _ => trivial⟩⟩⟩⟩⟩⟩⟩

theorem ctxNew_offSection {A : (o : Op) → o.Resp → Prop} (inst : Nat) :
    (ctxNew inst).Ensures A OffSection fun _ => True := by
  have herr : ∀ a, (ctxNewError inst a).Ensures A OffSection fun _ => True := fun a =>
    Prog.ensures_perform trivial fun _ _ => Prog.ensures_perform trivial fun _ _ =>
      (ctxDestroy_offSection inst (some a)).bind fun _ _ => trivial
  refine Prog.ensures_perform trivial fun ctx _ => ?_
  cases ctx with
  | none => exact trivial
  | some c =>
    refine Prog.ensures_perform trivial fun name _ => Prog.ensures_perform trivial fun sync _ => ?_
    dsimp only
    split
    · exact herr _
    · refine Prog.ensures_perform trivial fun window _ => ?_
      split
      · exact herr _
      · exact trivial

theorem openError_offSection {A : (o : Op) → o.Resp → Prop} (inst : Nat) (rev : Option Nat)
    (ctx : Option CtxAllocs) :
    (openError inst rev ctx).Ensures A OffSection fun r => r = none :=
  Prog.ensures_perform trivial fun _ _ => (ctxDestroy_offSection inst ctx).bind fun _ _ => rfl

theorem createError_offSection {A : (o : Op) → o.Resp → Prop} (inst : Nat) (ret : Int)
    (ctx : Option CtxAllocs) :
    (createError inst ret ctx).Ensures A OffSection fun r => r = none := by
  refine (ctxDestroy_offSection inst ctx).bind fun _ _ => ?_
  split
  · exact ⟨trivial, fun _ _ => rfl⟩
  · rfl

theorem initSectionInfos_offSection {A : (o : Op) → o.Resp → Prop} (name : String) :
    (initSectionInfos name).Ensures A OffSection fun _ => True := by
  unfold initSectionInfos
  split
  · exact trivial
  · refine Prog.ensures_perform trivial fun ret _ => ?_
    split <;> exact trivial

theorem sectionOpen_offSection {A : (o : Op) → o.Resp → Prop} (name : String) :
    (sectionOpen name).Ensures A OffSection fun _ => True := by
  refine (initSectionInfos_offSection name).bind fun ret _ => ?_
  split
  · exact trivial
  · exact ⟨trivial, fun _ _ => trivial⟩

/-- What an opening returns is made of the mapping, of the description and of the revision
that it read. -/
theorem openCtx_parts {A : (o : Op) → o.Resp → Prop} {G : Op → Prop}
    {Q : SectionMap → DataSectionDesc → Prop} {R : Int → Prop} (hoff : ∀ o, OffSection o → G o)
    (hrev : G (.calloc .rev))
    (hmap : ∀ inst ctx, (ctxMmap inst ctx none).Ensures A G
      fun r => ∀ map desc, r.parts = some (map, desc) → Q map desc)
    (hsync : ∀ map desc, Q map desc → (syncUpdateLocalRevisionNb syncCtxInit map.syncTop).Ensures
      A G fun r => r.1 ≠ -EAGAIN → R r.1) (name : String) (env : Option String) :
    (openCtx name env).Ensures A G fun r => ∀ p, r = some p →
      Q p.1.sectMmap p.1.desc ∧ p.1.window = windowIdle ∧ R p.2 := by
  have herr : ∀ inst rev ctx, (openError inst rev ctx).Ensures A G fun r => ∀ p, r = some p →
      Q p.1.sectMmap p.1.desc ∧ p.1.window = windowIdle ∧ R p.2 := by
    refine fun inst rev ctx => (openError_offSection inst rev ctx).mono hoff ?_
    rintro r rfl p hp
    exact absurd hp (by simp)
  refine ((sectionOpen_offSection name).mono hoff fun _ => id).bind fun o _ => ?_
  split
  · exact herr _ _ _
  refine ((ctxNew_offSection o.inst).mono hoff fun _ => id).bind fun ctx _ => ?_
  refine Prog.ensures_perform hrev fun rev _ => ?_
  split
  · exact herr _ _ _
  refine (hmap o.inst ctx).bind fun r hr => ?_
  split
  · rename_i a map desc _ hparts
    have hq := hr map desc hparts
    refine (hsync map desc hq).bind fun q hrev' => ?_
    split
    · exact herr _ _ _
    · rename_i hne
      rintro p hp
      obtain rfl := Option.some.inj hp
      exact ⟨hq, rfl, hrev' hne⟩
  · exact herr _ _ _

/-- The mapping and the description of a consumer are those of the header. -/
theorem ctxMmap_read (hp : PublishedHdr h m) (inst : Nat) (ctx : Option CtxAllocs) :
    (ctxMmap inst ctx none).Ensures (Reads m) KeepsMem
      fun r => ∀ map desc, r.parts = some (map, desc) →
        map = getMmap (getOffsets lp64 h) ∧
          desc = ⟨map.dataTop, hdrBlobSize h, hdrNbSamples h⟩ := by
  refine (ctxMmap_ensures_read m inst ctx).mono (fun _ => id) fun r hr map desc hparts => ?_
  obtain ⟨hmap, hdesc⟩ := hr map desc hparts
  rw [user_append hp.user, decHdrUserInfo_append] at hmap
  rw [read_blobSize hp.user, read_maxNbSamples hp.user] at hdesc
  exact ⟨hmap, hdesc⟩

/-- What `shd_open` returns in a section that is not being created. -/
structure Opened (h : HdrUserInfo) (m : Mem) (r : ShdCtx × Int) : Prop where
  desc : r.1.desc = descOf h
  map : r.1.sectMmap = getMmap (getOffsets lp64 h)
  window : r.1.window = windowIdle
  revision : r.2 = nbCreations m

theorem openCtx_ensures (hf : FitsHdr h) (hp : PublishedHdr h m) (name : String)
    (env : Option String) :
    (openCtx name env).Ensures (Reads m) KeepsMem fun r => ∀ q, r = some q → Opened h m q := by
  have hsync : ∀ (map : SectionMap) (desc : DataSectionDesc),
      (map = getMmap (getOffsets lp64 h) ∧ desc = ⟨map.dataTop, hdrBlobSize h, hdrNbSamples h⟩) →
      (syncUpdateLocalRevisionNb syncCtxInit map.syncTop).Ensures (Reads m) KeepsMem
        fun r => r.1 ≠ -EAGAIN → r.1 = nbCreations m := by
    rintro map desc ⟨rfl, -⟩
    rw [show (getMmap (getOffsets lp64 h)).syncTop = 40 from rfl]
    refine ensures_load32 trivial fun bs _ => ?_
    split
    · exact fun hne => absurd rfl hne
    · refine ensures_load32 trivial fun bs' hbs' _ => ?_
      rw [hbs']
      rfl
  refine (openCtx_parts (Q := fun map desc => map = getMmap (getOffsets lp64 h) ∧
      desc = ⟨map.dataTop, hdrBlobSize h, hdrNbSamples h⟩) (R := fun rev => rev = nbCreations m)
    (fun _ => keepsMem_of_offSection) trivial (ctxMmap_read hp) hsync name env).mono
      (fun _ => id) fun r hr q hq => ?_
  obtain ⟨⟨hmap, hdesc⟩, hwindow, hrev⟩ := hr q hq
  rw [hmap, getMmap_eq hf] at hdesc
  exact ⟨hdesc, hmap, hwindow, hrev⟩

/-- `shd_open` alone. -/
theorem open_spec (hB : B.Faithful) (hhdr : ReadsHdr B) (hf : FitsHdr h)
    (hp : PublishedHdr h w.mem) {name : String} {env : Option String} {r : Option (ShdCtx × Int)}
    {w' : World Ω} (hex : exec (machine B) t (openCtx name env) w = (r, w')) :
    w'.mem = w.mem ∧ ∀ q, r = some q → Opened h w.mem q := by
  have := exec_reads (t := t) hB hhdr (openCtx_ensures hf hp name env)
  rw [hex] at this
  exact ⟨this.2, this.1⟩

end Shdata.Solo
