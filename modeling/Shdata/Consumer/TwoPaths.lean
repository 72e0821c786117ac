/-
Shdata.Consumer.TwoPaths — the two ways to read one sample.

`shd_read_from_sample` copies quantities from the sample to the buffers that
the caller describes; `shd_select_samples` and `shd_read_quantity` copy them
through the window. The search is the same one. The copies are not: the first
path takes as many bytes as the BUFFER has, the second as many as the
quantity has. So the buffers agree exactly if none of them is larger than
its quantity (`paths_iff`).
-/
import Shdata.Consumer.Requests

namespace Shdata.Consumer

open Shdata.Conc Shdata.Bytes Shdata.Core Shdata.Ring Shdata.Layout Shdata.Trace Shdata.Producer
  Shdata.Solo

variable {Ω : Type} {B : Backend Ω} {d : DataSectionDesc} {s : World Ω × History} {F : Futils}
  {search : SampleSearch} {ctx : ShdCtx} {quantity : List Quantity}

/-! ## Buffers -/

/-- A `struct shd_quantity_sample` of the caller: the bytes of its buffer and its
metadata. -/
structure Dest where
  bytes : List UInt8
  metadata : SampleMetadata
  deriving DecidableEq

def Dest.size (dest : Dest) : Nat := dest.bytes.length

/-- The structure once a row was copied to it. -/
def Dest.after (dest : Dest) : QuantityRow → Dest
  | none => dest
  | some (bs, md) => ⟨bs ++ dest.bytes.drop bs.length, md⟩

/-- The structure `i` after a call that left `rows`. -/
def destAfter (rows : List QuantityRow) (i : Nat) (dest : Dest) : Dest :=
  dest.after ((rows[i]?).getD none)

/-- The quantities that a call reads: the whole blob if it names none. -/
def wanted (d : DataSectionDesc) (quantity : List Quantity) : List Quantity :=
  if quantity.length > 0 then quantity
  else [{ quantityOffset := 0, quantitySize := d.blobSize.toNat }]

/-- How `shd_read_quantity` is asked for one of them. -/
def asked (quantity : List Quantity) (q : Quantity) : Option Quantity :=
  if quantity.length > 0 then some q else none

/-- The direct read of one sample delivers what the other path does: `sel` is what the
selection returned, `w` the section it left, `read` what the direct path
returned. -/
structure PathsAgree (B : Backend Ω) (u : Nat) (d : DataSectionDesc) (quantity : List Quantity)
    (dests : List Dest) (sel : Selection) (w : World Ω) (read : SampleRead) : Prop where
  count : read.ret = nbRead ((wanted d quantity).zip (dests.map Dest.size))
  /-- The bytes of the quantity and the metadata are those of the other path. -/
  copied : sel.ret = 0 → ∀ i q dest, (wanted d quantity)[i]? = some q → dests[i]? = some dest →
    q.quantitySize ≤ dest.size → ∃ row md,
      (exec (machine B) u (readQuantity sel.ctx (asked quantity q) dest.size) w).1 = (1, [row]) ∧
        sel.metadata = [md] ∧ (destAfter read.rows i dest).metadata = md ∧
        (destAfter read.rows i dest).bytes.take q.quantitySize = row
  /-- The other bytes of the buffer are as they were. -/
  kept : ∀ i q dest, (wanted d quantity)[i]? = some q → dests[i]? = some dest →
    q.quantitySize ≤ dest.size →
      (destAfter read.rows i dest).bytes.drop q.quantitySize = dest.bytes.drop q.quantitySize
  untouched : ∀ i q dest, (wanted d quantity)[i]? = some q → dests[i]? = some dest →
    dest.size < q.quantitySize → destAfter read.rows i dest = dest

/-! ## The two runs -/

/-- A search for one sample at rest: it fails, or its window is one slot. -/
theorem exec_dataFind_single (h : AtRest B d s) (hd : SoundDesc d) (hctx : CtxFor d ctx)
    (hsingle : Single search) (u : Nat) :
    ∃ r, exec (machine B) u (dataFind F ctx search) s.1 = (r, s.1) ∧
      ((r.1 < 0 ∧ r.1 ≠ -ENOMEM) ∨ ∃ ref, IsSlot d.nbSamples ref ∧
        r = (1, foundCtx d s.1.mem ctx ⟨ref, ref, ref, 1⟩)) := by
  have hpos := hd.size.pos
  have haccept : ¬ d.nbSamples < toU32 (requested search) := by
    have hone : requested search = 1 := by
      rw [requested, hsingle.1, hsingle.2]
      rfl
    rw [hone, toU32_of_bounds (by omega) (by omega)]
    omega
  obtain ⟨r, hfind, hcase⟩ := exec_dataFind_accepted (F := F) h hd hctx haccept u
  refine ⟨r, hfind, ?_⟩
  rcases hcase with hno | hmax | ⟨-, ref, hslot, hmatch, hr⟩
  · exact Or.inl (by rw [hno]; decide)
  · exact Or.inl (by rw [hmax]; decide)
  · have ht : IsSlot d.nbSamples (searchCtx d s.1.mem).tIndex := h.isSlot_index hd
    have hwin := windowAround_single d hd.size hsingle ht hslot
    rw [hwin] at hr
    refine Or.inr ⟨ref, hslot, Prod.ext ?_ hr⟩
    rw [hmatch, hr]
    rfl

/-- The address of a slot, as the copies compute it. -/
theorem toU64_slot (hd : SoundDesc d) {ref : Int} (href : IsSlot d.nbSamples ref) :
    toU64 (slot d ref + 0) = slot d ref := by
  have hb := slot_bounds hd href
  have hsp := hd.stride_pos
  rw [Int.add_zero]
  exact toU64_of_bounds (by omega) (by omega)

/-- The copies of the direct path. -/
theorem exec_dataReadQuantitySample (hd : SoundDesc d) (hdesc : ctx.desc = d) {u : Nat}
    {w : World Ω} {ref : Int} (href : IsSlot d.nbSamples ref) (hwin : ctx.window = ⟨ref, ref, ref, 1⟩)
    (qs : List (Quantity × Nat)) :
    exec (machine B) u (dataReadQuantitySample ctx qs) w
      = (((nbRead qs : Int), qs.map (sampleRow w.mem (slot d ref))), w) := by
  subst hdesc
  rw [dataReadQuantitySample, hwin, if_neg (show ¬ (1 : Int) < 0 by decide),
    if_neg (show ¬ (1 : Int) ≠ 1 by decide), exec_bind, exec_getSamplePtr, dataGetSamplePtr_eq hd href,
    exec_dataReadQuantitySampleLoop _ (toU64_slot hd href)]

/-- The direct path, once the search has found a slot. -/
theorem exec_readFromSample_found (hd : SoundDesc d) (hctx : CtxFor d ctx) (hsingle : Single search)
    {u : Nat} {w : World Ω} {ref : Int} (href : IsSlot d.nbSamples ref)
    (hfind : exec (machine B) u (dataFind F ctx search) w
      = ((1, foundCtx d w.mem ctx ⟨ref, ref, ref, 1⟩), w)) (quantity : List Quantity)
    (sizes : List Nat) :
    (exec (machine B) u (readFromSample F ctx search quantity sizes) w).1
      = ⟨nbRead ((wanted d quantity).zip sizes),
          ((wanted d quantity).zip sizes).map (sampleRow w.mem (slot d ref)),
          foundCtx d w.mem ctx ⟨ref, ref, ref, 1⟩⟩ := by
  obtain rfl := hctx.desc
  have hone : ¬ (0 < search.nbValuesAfterDate.toNat ∨ 0 < search.nbValuesBeforeDate.toNat) := by
    rw [hsingle.1, hsingle.2]
    omega
  rw [readFromSample, if_neg hone, exec_bind, hfind]
  dsimp only
  rw [if_neg (show ¬ (1 : Int) < 0 by decide), exec_bind,
    exec_dataReadQuantitySample hd (show (foundCtx ctx.desc w.mem ctx ⟨ref, ref, ref, 1⟩).desc = _
      from rfl) href rfl]
  rfl

/-- The selection, once the search has found a slot. -/
theorem exec_selectSamples_found (hd : SoundDesc d) (hctx : CtxFor d ctx) {u : Nat} {w : World Ω}
    {ref : Int} (href : IsSlot d.nbSamples ref)
    (hfind : exec (machine B) u (dataFind F ctx search) w
      = ((1, foundCtx d w.mem ctx ⟨ref, ref, ref, 1⟩), w)) (result : SearchResult)
    {sel : Selection} {w' : World Ω}
    (hex : exec (machine B) u (selectSamples F ctx search result) w = (sel, w')) :
    sel.ret = -ENOMEM ∨ (sel.ret = 0 ∧ w'.mem = w.mem ∧ sel.ctx.desc = d ∧
      sel.ctx.window = ⟨ref, ref, ref, 1⟩ ∧
      sel.metadata = [decMetadata (w.mem.read (slot d ref) sizeofMetadata)]) := by
  have hfor : CtxFor d (foundCtx d w.mem ctx ⟨ref, ref, ref, 1⟩) := ⟨hctx.desc, hctx.sync⟩
  obtain ⟨m, w₁, hm, hmem, hread⟩ := exec_dataReadMetadata (B := B) (t := u) (w := w) hd hfor href
  rw [selectSamples, exec_bind, hfind] at hex
  dsimp only at hex
  rw [if_neg (show ¬ (1 : Int) < 0 by decide), exec_bind, hm] at hex
  rcases hread with ⟨hoom, -⟩ | ⟨p, rfl⟩
  · rw [if_pos (by rw [hoom]; decide)] at hex
    obtain ⟨rfl, -⟩ := Prod.ext_iff.mp hex
    exact Or.inl hoom
  · have hidx : toI32 (intervalBetween ref ref d.nbSamples) = 0 := by
      rw [intervalBetween_eq hd.size href href, toI32_gap hd.size, gap_self]
    change exec (machine B) u (if toI32 (intervalBetween ref ref d.nbSamples) < 0 then _ else _) w₁
      = _ at hex
    rw [if_neg (by omega)] at hex
    obtain ⟨rfl, rfl⟩ := Prod.ext_iff.mp hex
    refine Or.inr ⟨rfl, hmem, hctx.desc, rfl, ?_⟩
    show [decMetadata (rowOf d w.mem ref 0 sizeofMetadata 0)] = _
    rw [rowOf, show ref + ((0 : Nat) : Int) = ref by simp, href.emod, Int.add_zero]

/-- A quantity read through the window of one slot. -/
theorem exec_readQuantity_single (hd : SoundDesc d) (hin : ∀ q ∈ quantity, InBounds d q)
    {sel : ShdCtx} (hdesc : sel.desc = d) {ref : Int} (href : IsSlot d.nbSamples ref)
    (hwin : sel.window = ⟨ref, ref, ref, 1⟩) {q : Quantity} (hq : q ∈ wanted d quantity)
    {dst : Nat} (hdst : q.quantitySize ≤ dst) {u : Nat} {w : World Ω} :
    (exec (machine B) u (readQuantity sel (asked quantity q) dst) w).1
      = (1, [w.mem.read (slot d ref + (40 + q.quantityOffset)) q.quantitySize]) := by
  have hbounds : InBounds d q ∧ readQuantity sel (asked quantity q) dst
      = dataReadRows sel q.quantitySize (40 + q.quantityOffset) dst := by
    subst hdesc
    unfold wanted at hq
    unfold asked
    split at hq
    · rename_i hsome
      rw [if_pos hsome]
      exact ⟨hin q hq, rfl⟩
    · rename_i hnone
      obtain rfl := List.mem_singleton.mp hq
      have hblob := hd.blob
      rw [if_neg hnone]
      exact ⟨⟨le_refl 0, by simp; omega⟩, rfl⟩
  have hstride := hd.stride_ge
  have hoff : InSample d (40 + q.quantityOffset) q.quantitySize :=
    ⟨by have := hbounds.1.1; omega, by have := hbounds.1.2; omega⟩
  have hone : toU64 sel.window.nbMatches = 1 := by
    rw [hwin]
    exact toU64_of_bounds (x := 1) (by omega) (by omega)
  have hroom : toU64 (q.quantitySize * toU64 sel.window.nbMatches) ≤ dst := by
    have hle := toU64_le (x := (q.quantitySize : Int)) (by omega)
    rw [hone, Int.mul_one]
    omega
  rw [hbounds.2, exec_dataReadRows hd hdesc (by rw [hwin]; exact href) hoff
    (by rw [hwin]; exact Int.one_nonneg)
    hroom, hwin]
  show (1, [rowOf d w.mem ref (40 + q.quantityOffset) q.quantitySize 0]) = _
  rw [rowOf, show ref + ((0 : Nat) : Int) = ref by simp, href.emod]

/-! ## Agreement -/

/-- Every buffer that is large enough has exactly the size of its quantity. -/
def Exactly (d : DataSectionDesc) (quantity : List Quantity) (sizes : List Nat) : Prop :=
  ∀ (i : Nat) (q : Quantity) (size : Nat), (wanted d quantity)[i]? = some q →
    sizes[i]? = some size → q.quantitySize ≤ size → size = q.quantitySize

/-- The structure `i` after the direct path. -/
theorem destAfter_sampleRow {m : Mem} {curr : Int} {dests : List Dest} {i : Nat} {q : Quantity}
    {dest : Dest} (hq : (wanted d quantity)[i]? = some q) (hdest : dests[i]? = some dest) :
    destAfter (((wanted d quantity).zip (dests.map Dest.size)).map (sampleRow m curr)) i dest
      = dest.after (sampleRow m curr (q, dest.size)) := by
  have hzip : ((wanted d quantity).zip (dests.map Dest.size))[i]? = some (q, dest.size) :=
    List.getElem?_zip_eq_some.mpr ⟨hq, by rw [List.getElem?_map, hdest]; rfl⟩
  rw [destAfter, List.getElem?_map, hzip]
  rfl

/-- Where the direct path copies a quantity from. -/
theorem sampleRow_of_le (hd : SoundDesc d) (hin : ∀ q ∈ quantity, InBounds d q) {m : Mem} {ref : Int}
    (href : IsSlot d.nbSamples ref) {q : Quantity} (hq : q ∈ wanted d quantity) {size : Nat}
    (hle : q.quantitySize ≤ size) :
    sampleRow m (slot d ref) (q, size) = some (m.read (slot d ref + (40 + q.quantityOffset)) size,
      decMetadata (m.read (slot d ref) sizeofMetadata)) := by
  have hb := slot_bounds hd href
  have hstride := hd.stride_ge
  have hoff : 0 ≤ q.quantityOffset ∧ q.quantityOffset ≤ d.blobSize := by
    have hblob := hd.blob
    unfold wanted at hq
    split at hq
    · have := hin q hq
      unfold InBounds at this
      omega
    · obtain rfl := List.mem_singleton.mp hq
      exact ⟨le_refl 0, hblob⟩
  have haddr : toU64 (slot d ref + (q.quantityOffset + lp64.offsetofBlob))
      = slot d ref + (40 + q.quantityOffset) := by
    rw [show lp64.offsetofBlob = 40 from rfl, toU64_of_bounds (by omega) (by omega)]
    ring
  rw [sampleRow, if_pos hle, haddr]

/-- What the direct path returns for the sample in slot `ref`. -/
def directRead (d : DataSectionDesc) (m : Mem) (ctx : ShdCtx) (quantity : List Quantity)
    (sizes : List Nat) (ref : Int) : SampleRead :=
  ⟨nbRead ((wanted d quantity).zip sizes),
    ((wanted d quantity).zip sizes).map (sampleRow m (slot d ref)),
    foundCtx d m ctx ⟨ref, ref, ref, 1⟩⟩

/-- A buffer that is larger than its quantity is overwritten after it. -/
theorem exactly_of_agree (hd : SoundDesc d) (hin : ∀ q ∈ quantity, InBounds d q) {m : Mem} {ref : Int}
    (href : IsSlot d.nbSamples ref) {sizes : List Nat} {u : Nat} {sel : Selection} {w : World Ω}
    (hagree : ∀ dests : List Dest, dests.map Dest.size = sizes →
      PathsAgree B u d quantity dests sel w (directRead d m ctx quantity sizes ref)) :
    Exactly d quantity sizes := by
  intro i q size hq hsize hle
  by_contra hne
  -- let the buffers hold another byte than the one that is copied there
  obtain ⟨b, hb⟩ : ∃ b, m (slot d ref + (40 + q.quantityOffset) + q.quantitySize) = b := ⟨_, rfl⟩
  obtain ⟨dests, hdests⟩ : ∃ dests : List Dest,
      dests = sizes.map fun n => ⟨List.replicate n (b + 1), ⟨⟨0, 0⟩, ⟨0, 0⟩⟩⟩ := ⟨_, rfl⟩
  have hsizes : dests.map Dest.size = sizes := by
    rw [hdests, List.map_map]
    simp [Function.comp_def, Dest.size]
  have hdest : dests[i]? = some ⟨List.replicate size (b + 1), ⟨⟨0, 0⟩, ⟨0, 0⟩⟩⟩ := by
    rw [hdests, List.getElem?_map, hsize]
    rfl
  have hlen : (⟨List.replicate size (b + 1), ⟨⟨0, 0⟩, ⟨0, 0⟩⟩⟩ : Dest).size = size := by
    simp [Dest.size]
  have hkept := (hagree dests hsizes).kept i q _ hq hdest (by rw [hlen]; exact hle)
  rw [directRead] at hkept
  dsimp only at hkept
  rw [← hsizes, destAfter_sampleRow hq hdest, hlen,
    sampleRow_of_le hd hin href (List.mem_of_getElem? hq) hle, Dest.after] at hkept
  have hbyte := congrArg (fun bs : List UInt8 => bs[0]?) hkept
  simp only [List.getElem?_drop, Nat.add_zero] at hbyte
  rw [List.getElem?_append_left (by simp; omega), List.getElem?_eq_getElem (by simp; omega),
    Mem.getElem_read, hb, List.getElem?_replicate_of_lt (by omega)] at hbyte
  exact absurd hbyte (by simp)

/-- Buffers of the size of their quantity are filled to their end. -/
theorem agree_of_exactly (hd : SoundDesc d) (hin : ∀ q ∈ quantity, InBounds d q) {m : Mem} {ref : Int}
    (href : IsSlot d.nbSamples ref) {u : Nat} {sel : Selection} {w : World Ω}
    (hsel : sel.ret = 0 → w.mem = m ∧ sel.ctx.desc = d ∧ sel.ctx.window = ⟨ref, ref, ref, 1⟩ ∧
      sel.metadata = [decMetadata (m.read (slot d ref) sizeofMetadata)])
    {dests : List Dest} (hexact : Exactly d quantity (dests.map Dest.size)) :
    PathsAgree B u d quantity dests sel w
      (directRead d m ctx quantity (dests.map Dest.size) ref) := by
  have hrow : ∀ (i : Nat) (q : Quantity) (dest : Dest), (wanted d quantity)[i]? = some q →
      dests[i]? = some dest → q.quantitySize ≤ dest.size → dest.size = q.quantitySize ∧
        destAfter (directRead d m ctx quantity (dests.map Dest.size) ref).rows i dest
          = ⟨m.read (slot d ref + (40 + q.quantityOffset)) q.quantitySize,
              decMetadata (m.read (slot d ref) sizeofMetadata)⟩ := by
    intro i q dest hq hdest hle
    have hsize := hexact i q dest.size hq (by rw [List.getElem?_map, hdest]; rfl) hle
    refine ⟨hsize, ?_⟩
    have hrest : dest.bytes.drop q.quantitySize = [] := List.drop_of_length_le (by
      rw [← hsize]
      exact le_refl _)
    rw [directRead]
    dsimp only
    rw [destAfter_sampleRow hq hdest, sampleRow_of_le hd hin href (List.mem_of_getElem? hq) hle,
      Dest.after, hsize, Mem.length_read, hrest, List.append_nil]
  constructor
  · rfl
  · intro hret i q dest hq hdest hle
    obtain ⟨hmem, hdesc, hwin, hmd⟩ := hsel hret
    have hother := exec_readQuantity_single (B := B) (u := u) (w := w) hd hin hdesc href hwin
      (List.mem_of_getElem? hq) hle
    rw [hmem] at hother
    obtain ⟨-, hafter⟩ := hrow i q dest hq hdest hle
    refine ⟨_, _, hother, hmd, ?_, ?_⟩
    · rw [hafter]
    · rw [hafter]
      exact List.take_of_length_le (by simp)
  · intro i q dest hq hdest hle
    obtain ⟨hsize, hafter⟩ := hrow i q dest hq hdest hle
    rw [hafter, List.drop_of_length_le (by simp), List.drop_of_length_le (by
      rw [← hsize]
      exact le_refl _)]
  · intro i q dest hq hdest hlt
    rw [directRead]
    dsimp only
    rw [destAfter_sampleRow hq hdest, sampleRow, if_neg (not_le.mpr hlt)]
    rfl

/-- **When the two read paths agree.** At rest a search for one sample fails with the
same code on both paths. If it finds one, they agree for all buffers of the
given sizes exactly if every buffer that is large enough has the size of its
quantity. -/
theorem paths_iff (B : Backend Ω) (hd : SoundDesc d) (h : AtRest B d s) (F : Futils)
    (hctx : CtxFor d ctx) (hsingle : Single search) (hin : ∀ q ∈ quantity, InBounds d q)
    (sizes : List Nat) (u : Nat) (result : SearchResult) {sel : Selection} {w : World Ω}
    (hsel : exec (machine B) u (selectSamples F ctx search result) s.1 = (sel, w))
    {read : SampleRead} {w' : World Ω}
    (hread : exec (machine B) u (readFromSample F ctx search quantity sizes) s.1 = (read, w')) :
    (sel.ret < 0 → sel.ret ≠ -ENOMEM → read.ret = sel.ret ∧ read.rows = []) ∧
      (0 ≤ sel.ret ∨ sel.ret = -ENOMEM →
        ((∀ dests : List Dest, dests.map Dest.size = sizes →
            PathsAgree B u d quantity dests sel w read) ↔ Exactly d quantity sizes)) := by
  obtain ⟨r, hfind, hcase⟩ := exec_dataFind_single (F := F) h hd hctx hsingle u
  rcases hcase with ⟨hneg, hmem⟩ | ⟨ref, href, rfl⟩
  · -- the search fails
    have hone : ¬ (0 < search.nbValuesAfterDate.toNat ∨ 0 < search.nbValuesBeforeDate.toNat) := by
      rw [hsingle.1, hsingle.2]
      omega
    rw [selectSamples, exec_bind, hfind, if_pos hneg] at hsel
    rw [readFromSample, if_neg hone, exec_bind, hfind, if_pos hneg] at hread
    obtain ⟨rfl, -⟩ := Prod.ext_iff.mp hsel
    obtain ⟨rfl, -⟩ := Prod.ext_iff.mp hread
    refine ⟨fun _ _ => ⟨rfl, rfl⟩, fun hok => ?_⟩
    have hcode : 0 ≤ r.1 ∨ r.1 = -ENOMEM := hok
    exact absurd (hcode.resolve_right hmem) (not_le.mpr hneg)
  · -- it finds the sample of slot `ref`
    have hfound := exec_readFromSample_found hd hctx hsingle href hfind quantity sizes
    rw [hread] at hfound
    obtain rfl : read = directRead d s.1.mem ctx quantity sizes ref := hfound
    have hselect := exec_selectSamples_found hd hctx href hfind result hsel
    constructor
    · intro hneg hno
      obtain ⟨hzero, -⟩ := hselect.resolve_left hno
      rw [hzero] at hneg
      exact absurd hneg (by decide)
    · refine fun _ => ⟨exactly_of_agree hd hin href, fun hexact dests hsizes => ?_⟩
      subst hsizes
      refine agree_of_exactly hd hin href (fun hzero => ?_) hexact
      exact (hselect.resolve_left (by rw [hzero]; decide)).2

/-- The latest sample of a section with one, read to one buffer of the given size. -/
def readTwoBytes (size : Nat) : SampleRead × World Shm :=
  exec (machine shm) 1 (readFromSample libfutils (reader 1) (latest 0) [⟨0, 2⟩] [size])
    (partlyFilled 1).1

/-- The first two bytes of the blob, to a buffer of two bytes. -/
theorem paths_iff_exact :
    PathsAgree shm 1 ⟨56, 4, 4⟩ [⟨0, 2⟩] [⟨[9, 9], ⟨⟨7, 0⟩, ⟨0, 0⟩⟩⟩] (selectLatest 1 0).1
      (selectLatest 1 0).2 (readTwoBytes 2).1 := by
  have hf : FitsHdr ⟨4, 4, 1, 0⟩ := ⟨⟨by decide, by decide⟩, by decide⟩
  have hctx : CtxFor ⟨56, 4, 4⟩ (reader 1) := ⟨by decide +kernel, by decide +kernel⟩
  have hrest := atRest_partlyFilled 1 (by decide) (by decide +kernel) (by decide +kernel)
  have hin : ∀ q ∈ [(⟨0, 2⟩ : Quantity)], InBounds ⟨56, 4, 4⟩ q := by
    intro q hq
    obtain rfl := List.mem_singleton.mp hq
    exact ⟨by decide, by decide⟩
  have hexact : Exactly ⟨56, 4, 4⟩ [⟨0, 2⟩] [2] := by
    intro i q size hq hsize _
    cases i with
    | zero =>
      obtain rfl := Option.some.inj hq
      exact (Option.some.inj hsize).symm
    | succ i => exact absurd hsize (by simp)
  exact ((paths_iff shm (soundDesc_of_fits hf) hrest libfutils hctx
    (show Single (latest 0) from ⟨by decide, by decide⟩) hin [2] 1 ⟨0, 0⟩
    (show _ = ((selectLatest 1 0).1, _) from Prod.ext rfl rfl) (Prod.ext rfl rfl)).2
      (Or.inl (by decide +kernel))).mpr hexact _ rfl

/-- The same quantity to a buffer of four bytes: the call returns 1 and overwrites the
last two. -/
theorem paths_disagree :
    (readTwoBytes 4).1.ret = 1 ∧
      (destAfter (readTwoBytes 4).1.rows 0 ⟨[9, 9, 9, 9], ⟨⟨0, 0⟩, ⟨0, 0⟩⟩⟩).bytes = [1, 2, 3, 4] ∧
      ¬ PathsAgree shm 1 ⟨56, 4, 4⟩ [⟨0, 2⟩] [⟨[9, 9, 9, 9], ⟨⟨0, 0⟩, ⟨0, 0⟩⟩⟩] (selectLatest 1 0).1
        (selectLatest 1 0).2 (readTwoBytes 4).1 := by
  have hbytes : (destAfter (readTwoBytes 4).1.rows 0 ⟨[9, 9, 9, 9], ⟨⟨0, 0⟩, ⟨0, 0⟩⟩⟩).bytes
      = [1, 2, 3, 4] := by
    decide +kernel
  refine ⟨by decide +kernel, hbytes, fun h => ?_⟩
  have hkept := h.kept 0 ⟨0, 2⟩ _ rfl rfl (by decide)
  rw [hbytes] at hkept
  exact absurd hkept (by decide)

end Shdata.Consumer
