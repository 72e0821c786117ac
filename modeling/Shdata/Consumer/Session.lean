/-
Shdata.Consumer.Session — the calls of a consumer when nothing interferes.

A selection that succeeds leaves a context in the state `Selected`: its
window is one around a slot, seen from the last write index, and its
snapshot is the counter of the first slot. Reads copy the rows of that
window, whatever happened to the section since, and `shd_end_read` compares
the snapshot with the counter the slot has by then.

None of these calls changes a byte of the section.
-/
import Shdata.Consumer.Window
import Shdata.Solo.Exec

namespace Shdata.Consumer

open Shdata.Conc Shdata.Bytes Shdata.Core Shdata.Ring Shdata.Layout Shdata.Solo

variable {Ω : Type} {B : Backend Ω} {t : Nat} {d : DataSectionDesc} {w : World Ω}

/-! ## Search -/

/-- A load, or the address of a slot: it changes nothing. -/
def Loads : Op → Prop
  | .read _ _ _ | .samplePtr _ _ => True
  | _ => False

theorem step_loads {o : Op} (ho : Loads o) (w : World Ω) : ((machine B).step t o w).1 = w := by
  cases o with
  | read site a len => rfl
  | samplePtr desc i => rfl
  | _ => exact absurd ho id

theorem Searching.loads {hdr : Int} {o : Op} (ho : Searching hdr d o) : Loads o := by
  cases o with
  | read site a len => trivial
  | samplePtr desc i => trivial
  | _ => exact absurd ho id

/-- A search that meets no interference starts from the write index. -/
theorem startIndex_searching {o : Op} (ho : Searching 40 d o) (w : World Ω) :
    StartIndex (· = writeIndex w.mem) o ((machine B).step t o w).2 := by
  cases o with
  | read site a len =>
    cases site with
    | searchStart =>
      obtain ⟨rfl, rfl⟩ := ho
      rfl
    | _ => trivial
  | _ => trivial

/-- A search alone returns what it ensures, and changes nothing. -/
theorem exec_searching {α : Type} {p : ShdProg α} {Q : α → Prop}
    (hp : p.Ensures (StartIndex (· = writeIndex w.mem)) (Searching 40 d) Q) :
    Q (exec (machine B) t p w).1 ∧ (exec (machine B) t p w).2 = w := by
  refine exec_ensures (machine B) t (I := (· = w)) ?_ hp rfl
  rintro o _ ho rfl
  exact ⟨step_loads ho.loads _, startIndex_searching ho _⟩

/-- `shd_window_set` alone: it fails, or the window is the one around a slot. -/
theorem exec_windowSet (hN : RingSize d.nbSamples) (F : Futils) (window : Window)
    (search : SampleSearch) (hint : RefSearchHint) (hw : IsSlot d.nbSamples (writeIndex w.mem)) :
    (((exec (machine B) t (windowSet F window 40 search d hint) w).1.1 < 0 ∧
        (exec (machine B) t (windowSet F window 40 search d hint) w).1.2
          = (windowReset window).2) ∨
      WindowSet (· = writeIndex w.mem) d search
        (exec (machine B) t (windowSet F window 40 search d hint) w).1) ∧
    (exec (machine B) t (windowSet F window 40 search d hint) w).2 = w :=
  exec_searching (windowSet_ensures (T := (· = writeIndex w.mem)) F search hN
    (fun _ hi => hi ▸ hw) window hint)

/-! ## Selection -/

/-- What a successful selection leaves in the context. -/
structure Selected (d : DataSectionDesc) (search : SampleSearch) (m : Mem) (ctx : ShdCtx) :
    Prop where
  ctxFor : CtxFor d ctx
  index : IsSlot d.nbSamples (writeIndex m)
  around : ∃ ref, IsSlot d.nbSamples ref ∧
    Around d.nbSamples (writeIndex m) ref search ctx.window
  nbMatches : 0 ≤ ctx.window.nbMatches
  snapshot : ctx.syncCtx.nbWrites = nbWrites d m ctx.window.startIdx

theorem Selected.isSlot_start (hN : RingSize d.nbSamples) {search : SampleSearch} {m : Mem}
    {ctx : ShdCtx} (h : Selected d search m ctx) : IsSlot d.nbSamples ctx.window.startIdx := by
  obtain ⟨ref, -, hw⟩ := h.around
  rw [hw.start]
  exact isSlot_emod hN _

/-- The number of rows of the window, as an exact sum. -/
theorem Around.nbMatches_eq {N t ref : Int} {search : SampleSearch} {w : Window} (hN : RingSize N)
    (h : Around N t ref search w) (h0 : 0 ≤ w.nbMatches) :
    w.nbMatches = nbBefore N t ref search + 1 + nbAfter N t ref search := by
  obtain ⟨hb, -, -⟩ := nbBefore_bounds hN.pos t ref search
  obtain ⟨ha, -, -⟩ := nbAfter_bounds hN.pos t ref search
  have hle := window_inOrder hN.pos t ref search
  have hg := gap_nonneg hN.pos (t + 1) (ref - nbBefore N t ref search)
  have hsmall := hN.small
  have heq := h.nbMatches
  -- only a window of 2^31 slots would wrap, and its count is negative
  by_cases hlt : nbBefore N t ref search + 1 + nbAfter N t ref search < 2147483648
  · rw [heq]
    exact toI32_of_bounds (by omega) hlt
  · have hmax : nbBefore N t ref search + 1 + nbAfter N t ref search = 2147483648 := by omega
    rw [hmax] at heq
    have : toI32 2147483648 = -2147483648 := by
      unfold toI32
      decide
    omega

theorem exec_syncStartReadSession (win : Window) (ctx : SyncCtx) (samp : Int) :
    exec (machine B) t (syncStartReadSession win ctx samp) w
      = ({ ctx with nbWrites := w.mem.i32 (nbWritesPtr samp) }, w) := rfl

/-- The context after a search that was not refused. -/
def foundCtx (d : DataSectionDesc) (m : Mem) (ctx : ShdCtx) (win : Window) : ShdCtx :=
  { ctx with
    window := win
    syncCtx := { ctx.syncCtx with nbWrites := nbWrites d m win.startIdx } }

theorem selected_foundCtx {search : SampleSearch} {m : Mem} {ctx : ShdCtx} (hctx : CtxFor d ctx)
    (hindex : IsSlot d.nbSamples (writeIndex m)) {ref : Int} (href : IsSlot d.nbSamples ref) {win : Window}
    (hwin : Around d.nbSamples (writeIndex m) ref search win) (h0 : 0 ≤ win.nbMatches) :
    Selected d search m (foundCtx d m ctx win) :=
  ⟨⟨hctx.desc, hctx.sync⟩, hindex, ⟨ref, href, hwin⟩, h0, rfl⟩

/-- `shd_data_find` after a search that was not refused. -/
theorem exec_dataFind_found (hd : SoundDesc d) (F : Futils) {search : SampleSearch}
    {ctx : ShdCtx} (hctx : CtxFor d ctx) (hw : writeIndex w.mem ≠ -1)
    (hfit : ¬ d.nbSamples <
      toU32 ((search.nbValuesAfterDate.toNat : Int) + search.nbValuesBeforeDate.toNat + 1))
    {r : Int × Window}
    (hset : exec (machine B) t (windowSet F ctx.window 40 search d ctx.hint) w = (r, w))
    (hr : 0 ≤ r.1) (hstart : IsSlot d.nbSamples r.2.startIdx) :
    exec (machine B) t (dataFind F ctx search) w
      = ((r.2.nbMatches, foundCtx d w.mem ctx r.2), w) := by
  obtain rfl := hctx.desc
  have hlast : exec (machine B) t (syncGetLastWriteIndex .dataFind 40) w
      = (writeIndex w.mem, w) := rfl
  rw [dataFind, hctx.sync, exec_bind, hlast]
  dsimp only
  rw [if_neg hw, if_neg hfit, exec_bind, hset]
  dsimp only
  rw [if_neg (show ¬ r.1 < 0 by omega), exec_bind, exec_getSamplePtr, dataGetSamplePtr_eq hd hstart,
    exec_bind, exec_syncStartReadSession, nbWritesPtr_slot hd hstart]
  rfl

/-- `shd_data_find` alone. -/
theorem exec_dataFind (hd : SoundDesc d) (F : Futils) {search : SampleSearch}
    (hfit : Fits d.nbSamples search) {ctx : ShdCtx} (hctx : CtxFor d ctx)
    (hw : writeIndex w.mem = -1 ∨ IsSlot d.nbSamples (writeIndex w.mem)) :
    ∃ r, exec (machine B) t (dataFind F ctx search) w = (r, w) ∧
      (0 ≤ r.1 → Selected d search w.mem r.2 ∧ r.1 = r.2.window.nbMatches) := by
  obtain rfl := hctx.desc
  have hlast : exec (machine B) t (syncGetLastWriteIndex .dataFind 40) w
      = (writeIndex w.mem, w) := rfl
  by_cases hne : writeIndex w.mem = -1
  · refine ⟨(-EAGAIN, ctx), ?_, fun h => absurd h (show ¬ 0 ≤ -EAGAIN by decide)⟩
    rw [dataFind, hctx.sync, exec_bind, hlast, if_pos hne]
    rfl
  by_cases hsize : ctx.desc.nbSamples <
      toU32 ((search.nbValuesAfterDate.toNat : Int) + search.nbValuesBeforeDate.toNat + 1)
  · refine ⟨(-EINVAL, ctx), ?_, fun h => absurd h (show ¬ 0 ≤ -EINVAL by decide)⟩
    rw [dataFind, hctx.sync, exec_bind, hlast, if_neg hne, if_pos hsize]
    rfl
  have hslot := hw.resolve_left hne
  obtain ⟨hset, hsame⟩ := exec_windowSet (B := B) (t := t) hd.size F ctx.window search ctx.hint hslot
  obtain ⟨r, hr⟩ : ∃ r, exec (machine B) t
    (windowSet F ctx.window 40 search ctx.desc ctx.hint) w = (r, w) := ⟨_, Prod.ext rfl hsame⟩
  rw [hr] at hset
  by_cases hneg : r.1 < 0
  · refine ⟨(r.1, { ctx with window := r.2 }), ?_, fun h => absurd h (show ¬ 0 ≤ r.1 by omega)⟩
    rw [dataFind, hctx.sync, exec_bind, hlast, if_neg hne, if_neg hsize, exec_bind, hr]
    dsimp only
    rw [if_pos hneg]
    rfl
  · obtain ⟨sctx, ref, hT, href, hwin, hmatch⟩ := hset.resolve_left fun h => hneg h.1
    have haround := around_windowAround ctx.desc hd.size hfit (hT ▸ hslot : IsSlot _ sctx.tIndex) href
    rw [hT, ← hwin] at haround
    have hstart : IsSlot ctx.desc.nbSamples r.2.startIdx := by
      rw [haround.start]
      exact isSlot_emod hd.size _
    exact ⟨_, exec_dataFind_found hd F hctx hne hsize hr (by omega) hstart,
      fun h => ⟨selected_foundCtx hctx hslot href haround h, rfl⟩⟩

/-! ## Rows -/

theorem exec_sampleRead (site : Site) (sample off : Int) (len : Nat) :
    exec (machine B) t (sampleRead site sample off len) w
      = (w.mem.read (toU64 (sample + off)) len, w) := rfl

/-- The bytes of row `x` of a window, `size` of them at offset `off` of the
sample. -/
def rowOf (d : DataSectionDesc) (m : Mem) (start off : Int) (size x : Nat) : List UInt8 :=
  m.read (slot d ((start + x) % d.nbSamples) + off) size

/-- An offset inside a sample. -/
structure InSample (d : DataSectionDesc) (off : Int) (size : Nat) : Prop where
  nonneg : 0 ≤ off
  le : off + size ≤ stride d

theorem exec_windowReadLoop (hd : SoundDesc d) {size : Nat} {off : Int} (hoff : InSample d off size)
    (n : Nat) (i : Int) (row : Nat) (hi : IsSlot d.nbSamples i) :
    exec (machine B) t (windowReadLoop d size off n i row) w
      = ((List.range n).map (rowOf d w.mem i off size), w) := by
  induction n generalizing i row with
  | zero => rfl
  | succ n ih =>
    have hb := slot_bounds hd hi
    have haddr : toU64 (slot d i + off) = slot d i + off :=
      toU64_of_bounds (by have := hoff.nonneg; omega) (by have := hoff.le; omega)
    have hnext := isSlot_indexNext hd.size i
    rw [windowReadLoop, exec_bind, exec_getSamplePtr, dataGetSamplePtr_eq hd hi, exec_bind,
      exec_sampleRead, haddr, exec_bind, ih _ _ hnext, exec_pure, List.range_succ_eq_map,
      List.map_cons, List.map_map]
    have h0 : rowOf d w.mem i off size 0 = w.mem.read (slot d i + off) size := by
      rw [rowOf, show i + ((0 : Nat) : Int) = i by simp, hi.emod]
    have hsucc : ∀ x : Nat, rowOf d w.mem (indexNext i d.nbSamples) off size x
        = rowOf d w.mem i off size (x + 1) := by
      intro x
      have hsum : i + 1 + (x : Int) = i + ((x + 1 : Nat) : Int) := by
        push_cast
        ring
      rw [rowOf, rowOf, indexNext_eq hd.size (by have := hi.nonneg; omega) hi.lt, emod_add_emod,
        hsum]
    rw [h0]
    congr 2
    exact List.map_congr_left fun x _ => hsucc x

/-- `shd_window_read` of the window of a selection. -/
theorem exec_windowRead (hd : SoundDesc d) {size : Nat} {off : Int} (hoff : InSample d off size)
    {win : Window} (hwin : IsSlot d.nbSamples win.startIdx) :
    exec (machine B) t (windowRead win d size off) w
      = ((List.range win.nbMatches.toNat).map (rowOf d w.mem win.startIdx off size), w) :=
  exec_windowReadLoop hd hoff _ _ _ hwin

/-! ## The calls -/

/-- `shd_data_read_metadata` alone. -/
theorem exec_dataReadMetadata (hd : SoundDesc d) {ctx : ShdCtx} (hctx : CtxFor d ctx)
    (hstart : IsSlot d.nbSamples ctx.window.startIdx) :
    ∃ r w', exec (machine B) t (dataReadMetadata ctx) w = (r, w') ∧ w'.mem = w.mem ∧
      ((r.1 = -ENOMEM ∧ w.heap.oom w.heap.next = true) ∨
        ∃ p, r = (toI32 (intervalBetween ctx.window.startIdx ctx.window.refIdx d.nbSamples),
          (List.range ctx.window.nbMatches.toNat).map
            (fun x => decMetadata (rowOf d w.mem ctx.window.startIdx 0 sizeofMetadata x)),
          { ctx with metadata := some p })) := by
  obtain rfl := hctx.desc
  have hoff : InSample ctx.desc 0 sizeofMetadata :=
    ⟨le_refl 0, by have := hd.stride_pos; unfold sizeofMetadata; omega⟩
  have hcalloc : exec (machine B) t (calloc .metadata) w
      = (if w.heap.oom w.heap.next then none else some w.heap.next,
        { w with heap := w.heap.calloc.1 }) := rfl
  rw [dataReadMetadata, exec_bind, hcalloc]
  cases hoom : w.heap.oom w.heap.next with
  | true => exact ⟨(-ENOMEM, [], ctx), _, rfl, rfl, Or.inl ⟨rfl, rfl⟩⟩
  | false =>
    refine ⟨_, { w with heap := w.heap.calloc.1 }, ?_, rfl, Or.inr ⟨w.heap.next, rfl⟩⟩
    show exec (machine B) t (windowRead ctx.window ctx.desc sizeofMetadata 0 >>= fun rows =>
      pure (_, rows.map decMetadata, _)) { w with heap := w.heap.calloc.1 } = _
    rw [exec_bind, exec_windowRead hd hoff hstart, exec_pure, List.map_map]
    rfl

/-- `shd_select_samples` alone, when it returns 0. -/
theorem exec_selectSamples (hd : SoundDesc d) (F : Futils) {search : SampleSearch}
    (hfit : Fits d.nbSamples search) {ctx : ShdCtx} (hctx : CtxFor d ctx)
    (hw : writeIndex w.mem = -1 ∨ IsSlot d.nbSamples (writeIndex w.mem)) (result : SearchResult)
    {sel : Selection} {w' : World Ω}
    (hex : exec (machine B) t (selectSamples F ctx search result) w = (sel, w'))
    (hret : sel.ret = 0) :
    w'.mem = w.mem ∧ Selected d search w.mem sel.ctx ∧
      sel.result.nbMatches = sel.ctx.window.nbMatches ∧
      sel.result.rSampleIdx
        = toI32 (intervalBetween sel.ctx.window.startIdx sel.ctx.window.refIdx d.nbSamples) ∧
      sel.metadata = (List.range sel.ctx.window.nbMatches.toNat).map
        fun x => decMetadata (rowOf d w.mem sel.ctx.window.startIdx 0 sizeofMetadata x) := by
  obtain ⟨r, hfind, hsel⟩ := exec_dataFind (B := B) (t := t) hd F hfit hctx hw
  rw [selectSamples, exec_bind, hfind] at hex
  by_cases hneg : r.1 < 0
  · rw [if_pos hneg] at hex
    obtain ⟨rfl, -⟩ := Prod.ext_iff.mp hex
    exact absurd hret (show r.1 ≠ 0 by omega)
  rw [if_neg hneg, exec_bind] at hex
  obtain ⟨hs, hmatch⟩ := hsel (by omega)
  obtain ⟨m, w₁, hm, hmem, hcase⟩ := exec_dataReadMetadata (B := B) (t := t) (w := w) hd hs.ctxFor
    (hs.isSlot_start hd.size)
  rw [hm] at hex
  rcases hcase with ⟨hoom, -⟩ | ⟨p, rfl⟩
  · rw [if_pos (by rw [hoom]; decide)] at hex
    obtain ⟨rfl, -⟩ := Prod.ext_iff.mp hex
    exact absurd hret (show m.1 ≠ 0 by rw [hoom]; decide)
  · by_cases hidx : toI32 (intervalBetween r.2.window.startIdx r.2.window.refIdx d.nbSamples) < 0
    · rw [if_pos hidx] at hex
      obtain ⟨rfl, -⟩ := Prod.ext_iff.mp hex
      exact absurd hret (show toI32 _ ≠ 0 by omega)
    · rw [if_neg hidx] at hex
      obtain ⟨rfl, rfl⟩ := Prod.ext_iff.mp hex
      exact ⟨hmem, ⟨⟨hs.ctxFor.desc, hs.ctxFor.sync⟩, hs.index, hs.around, hs.nbMatches,
        hs.snapshot⟩,
        hmatch, rfl, rfl⟩

/-- The row that `shd_data_read_quantity_sample` leaves for a quantity and the size of
its buffer. -/
def sampleRow (m : Mem) (curr : Int) (q : Quantity × Nat) : QuantityRow :=
  if q.1.quantitySize ≤ q.2 then
    some (m.read (toU64 (curr + (q.1.quantityOffset + lp64.offsetofBlob))) q.2,
      decMetadata (m.read curr sizeofMetadata))
  else none

/-- The number of quantities whose buffer is large enough. -/
def nbRead (qs : List (Quantity × Nat)) : Nat := qs.countP fun q => q.1.quantitySize ≤ q.2

theorem nbRead_cons (q : Quantity × Nat) (qs : List (Quantity × Nat)) :
    nbRead (q :: qs) = nbRead qs + if q.1.quantitySize ≤ q.2 then 1 else 0 := by
  simp only [nbRead, List.countP_cons, decide_eq_true_eq]

theorem exec_dataReadQuantitySampleLoop (curr : Int) (hcurr : toU64 (curr + 0) = curr)
    (qs : List (Quantity × Nat)) :
    exec (machine B) t (dataReadQuantitySampleLoop curr qs) w
      = (((nbRead qs : Int), qs.map (sampleRow w.mem curr)), w) := by
  induction qs with
  | nil => rfl
  | cons q qs ih =>
    rw [dataReadQuantitySampleLoop, List.map_cons, sampleRow, nbRead_cons]
    split
    · rw [exec_bind, exec_sampleRead, exec_bind, exec_sampleRead, hcurr, exec_bind, ih]
      rfl
    · rw [exec_bind, ih]
      rfl

/-- Every row carries the metadata of the sample. -/
theorem sampleRow_metadata {m : Mem} {curr : Int} {qs : List (Quantity × Nat)} {bs : List UInt8}
    {md : SampleMetadata} (h : some (bs, md) ∈ qs.map (sampleRow m curr)) :
    md = decMetadata (m.read curr sizeofMetadata) := by
  obtain ⟨q, -, hq⟩ := List.mem_map.mp h
  unfold sampleRow at hq
  split at hq
  · exact (Prod.ext_iff.mp (Option.some.inj hq)).2.symm
  · exact absurd hq (by simp)

/-- `shd_read_from_sample` alone, when it does not fail in the selection. -/
theorem exec_readFromSample (hd : SoundDesc d) (F : Futils) {search : SampleSearch}
    (hfit : Fits d.nbSamples search) {ctx : ShdCtx} (hctx : CtxFor d ctx)
    (hw : writeIndex w.mem = -1 ∨ IsSlot d.nbSamples (writeIndex w.mem))
    (quantity : List Quantity) (sizes : List Nat) {s : SampleRead} {w' : World Ω}
    (hex : exec (machine B) t (readFromSample F ctx search quantity sizes) w = (s, w'))
    (hret : 0 ≤ s.ret) : w'.mem = w.mem ∧ Selected d search w.mem s.ctx ∧
      s.ctx.window.nbMatches = 1 ∧ ∀ bs md, some (bs, md) ∈ s.rows →
        md = decMetadata (rowOf d w.mem s.ctx.window.startIdx 0 sizeofMetadata 0) := by
  obtain ⟨r, hfind, hsel⟩ := exec_dataFind (B := B) (t := t) hd F hfit hctx hw
  rw [readFromSample] at hex
  split at hex
  · obtain ⟨rfl, -⟩ := Prod.ext_iff.mp hex
    exact absurd hret (show ¬ 0 ≤ -EINVAL by decide)
  rw [exec_bind, hfind] at hex
  by_cases hneg : r.1 < 0
  · rw [if_pos hneg] at hex
    obtain ⟨rfl, -⟩ := Prod.ext_iff.mp hex
    exact absurd hret (show ¬ 0 ≤ r.1 by omega)
  rw [if_neg hneg, exec_bind] at hex
  obtain ⟨hs, hmatch⟩ := hsel (by omega)
  obtain rfl := hs.ctxFor.desc
  obtain ⟨q, w₁, hq⟩ : ∃ q w₁, exec (machine B) t (dataReadQuantitySample r.2
    ((if quantity.length > 0 then quantity
      else [{ quantityOffset := 0, quantitySize := r.2.desc.blobSize.toNat }]).zip sizes)) w
        = (q, w₁) := ⟨_, _, rfl⟩
  rw [hq] at hex
  obtain ⟨rfl, rfl⟩ := Prod.ext_iff.mp hex
  have hnb := hs.nbMatches
  rw [dataReadQuantitySample, if_neg (by omega)] at hq
  by_cases hone : r.2.window.nbMatches = 1
  · obtain ⟨ref, href, haround⟩ := hs.around
    have hlen := haround.nbMatches_eq hd.size hnb
    obtain ⟨hb, -, -⟩ := nbBefore_bounds hd.size.pos (writeIndex w.mem) ref search
    obtain ⟨ha, -, -⟩ := nbAfter_bounds hd.size.pos (writeIndex w.mem) ref search
    have hstart : r.2.window.startIdx = ref := by
      rw [haround.start, show nbBefore r.2.desc.nbSamples (writeIndex w.mem) ref search = 0 by omega,
        Int.sub_zero, href.emod]
    have hb := slot_bounds hd href
    have hsp := hd.stride_pos
    rw [if_neg (by rw [hone]; simp), exec_bind, exec_getSamplePtr, haround.refIdx,
      dataGetSamplePtr_eq hd href] at hq
    rw [exec_dataReadQuantitySampleLoop _
      (by rw [Int.add_zero]; exact toU64_of_bounds (by omega) (by omega))] at hq
    obtain ⟨rfl, rfl⟩ := Prod.ext_iff.mp hq
    refine ⟨rfl, hs, hone, fun bs md h => ?_⟩
    have hrow : rowOf r.2.desc w.mem r.2.window.startIdx 0 sizeofMetadata 0
        = w.mem.read (slot r.2.desc ref) sizeofMetadata := by
      rw [rowOf, hstart, show ref + ((0 : Nat) : Int) = ref by simp, href.emod, Int.add_zero]
    show md = decMetadata (rowOf r.2.desc w.mem r.2.window.startIdx 0 sizeofMetadata 0)
    rw [hrow]
    exact sampleRow_metadata h
  · rw [if_pos hone] at hq
    obtain ⟨rfl, -⟩ := Prod.ext_iff.mp hq
    exact absurd hret (show ¬ 0 ≤ -EINVAL by decide)

/-- Where a read copies from in each sample, and how much. -/
def readRange (d : DataSectionDesc) : Option Quantity → Int × Nat
  | none => (40, d.blobSize.toNat)
  | some q => (40 + q.quantityOffset, q.quantitySize)

/-- A read of every row, when the buffer is large enough. -/
theorem exec_dataReadRows (hd : SoundDesc d) {ctx : ShdCtx} (hdesc : ctx.desc = d)
    (hstart : IsSlot d.nbSamples ctx.window.startIdx) {off : Int} {size : Nat}
    (hin : InSample d off size) (hnb : 0 ≤ ctx.window.nbMatches) {dst : Nat}
    (hdst : toU64 (size * toU64 ctx.window.nbMatches) ≤ dst) :
    exec (machine B) t (dataReadRows ctx size off dst) w
      = ((ctx.window.nbMatches, (List.range ctx.window.nbMatches.toNat).map
          (rowOf d w.mem ctx.window.startIdx off size)), w) := by
  subst hdesc
  rw [dataReadRows, if_neg (by omega), if_neg (by omega), exec_bind, exec_windowRead hd hin hstart,
    exec_pure, List.length_map, List.length_range, Int.toNat_of_nonneg hnb]

/-- `shd_read_quantity` alone, in a session. -/
theorem exec_readQuantity (hd : SoundDesc d) {ctx : ShdCtx} (hdesc : ctx.desc = d)
    (hstart : IsSlot d.nbSamples ctx.window.startIdx) (quantity : Option Quantity)
    (hq : InSample d (readRange d quantity).1 (readRange d quantity).2) (dst : Nat) :
    ∃ r, exec (machine B) t (readQuantity ctx quantity dst) w = (r, w) ∧
      (0 ≤ r.1 → r.1 = ctx.window.nbMatches ∧
        r.2 = (List.range ctx.window.nbMatches.toNat).map
        (rowOf d w.mem ctx.window.startIdx (readRange d quantity).1 (readRange d quantity).2)) := by
  have hrows : readQuantity ctx quantity dst
      = dataReadRows ctx (readRange d quantity).2 (readRange d quantity).1 dst := by
    subst hdesc
    cases quantity <;> rfl
  rw [hrows]
  by_cases hidle : ctx.window.nbMatches < 0
  · rw [dataReadRows, if_pos hidle]
    exact ⟨(-EPERM, []), rfl, fun h => absurd h (show ¬ 0 ≤ -EPERM by decide)⟩
  by_cases hdst : (dst : Int) < toU64 ((readRange d quantity).2 * toU64 ctx.window.nbMatches)
  · rw [dataReadRows, if_neg hidle, if_pos hdst]
    exact ⟨(-EINVAL, []), rfl, fun h => absurd h (show ¬ 0 ≤ -EINVAL by decide)⟩
  · exact ⟨_, exec_dataReadRows hd hdesc hstart hq (by omega) (by omega), fun _ => ⟨rfl, rfl⟩⟩

theorem exec_syncEndReadSession (ctx : SyncCtx) (samp : Int) :
    exec (machine B) t (syncEndReadSession ctx samp) w
      = ((if ctx.nbWrites ≠ w.mem.i32 (nbWritesPtr samp) then -EFAULT else 0,
          { ctx with nbWrites := -1 }), w) := by
  rw [syncEndReadSession, exec_bind, exec_load32]
  by_cases h : ctx.nbWrites ≠ w.mem.i32 (nbWritesPtr samp)
  · rw [if_pos h, if_pos (by exact h)]
    rfl
  · rw [if_neg h, if_neg (by exact h)]
    rfl

theorem exec_syncCheckRevisionNb (rev hdr : Int) :
    exec (machine B) t (syncCheckRevisionNb rev hdr) w
      = (if rev = w.mem.i32 hdr then 0 else -ENODEV, w) := by
  rw [syncCheckRevisionNb, exec_bind, exec_load32]
  by_cases h : rev = w.mem.i32 hdr
  · rw [if_pos h, if_pos (by exact h)]
    rfl
  · rw [if_neg h, if_neg (by exact h)]
    rfl

/-- The counter of the first slot of the window, as `shd_end_read` finds it. -/
def startCounter (ctx : ShdCtx) (m : Mem) : Int :=
  m.i32 (nbWritesPtr (dataGetSamplePtr ctx.desc ctx.window.startIdx))

/-- The context after the comparison of the counters. -/
def spentSnapshot (ctx : ShdCtx) : ShdCtx :=
  { ctx with syncCtx := { ctx.syncCtx with nbWrites := -1 } }

theorem exec_dataCheckValidity {ctx : ShdCtx} (hstart : 0 ≤ ctx.window.startIdx) (rev : Int) :
    exec (machine B) t (dataCheckValidity ctx rev) w =
      ((if ctx.syncCtx.nbWrites ≠ startCounter ctx w.mem then -EFAULT
        else if rev = w.mem.i32 ctx.sectMmap.syncTop then 0 else -ENODEV, spentSnapshot ctx), w) := by
  rw [dataCheckValidity, if_pos hstart, exec_bind, exec_getSamplePtr, exec_bind,
    exec_syncEndReadSession]
  dsimp only
  rw [show w.mem.i32 (nbWritesPtr (dataGetSamplePtr ctx.desc ctx.window.startIdx))
    = startCounter ctx w.mem from rfl]
  by_cases hne : ctx.syncCtx.nbWrites ≠ startCounter ctx w.mem
  · rw [if_pos hne, if_pos (show -EFAULT < 0 by decide), if_pos (by exact hne)]
    rfl
  · rw [if_neg hne, if_neg (show ¬ (0 : Int) < 0 by decide), if_neg (by exact hne), exec_bind,
      exec_syncCheckRevisionNb]
    rfl

/-- `shd_end_read` alone, at the end of a session. -/
theorem exec_endRead (hd : SoundDesc d) {ctx : ShdCtx} (hctx : CtxFor d ctx)
    (hstart : IsSlot d.nbSamples ctx.window.startIdx) (rev : Int) :
    (exec (machine B) t (endRead ctx rev) w).1.1 =
      if ctx.syncCtx.nbWrites ≠ nbWrites d w.mem ctx.window.startIdx then -EFAULT
      else if rev = nbCreations w.mem then 0 else -ENODEV := by
  obtain rfl := hctx.desc
  have hcounter : startCounter ctx w.mem = nbWrites ctx.desc w.mem ctx.window.startIdx := by
    rw [startCounter, dataGetSamplePtr_eq hd hstart, nbWritesPtr_slot hd hstart]
    rfl
  have hrevision : w.mem.i32 ctx.sectMmap.syncTop = nbCreations w.mem := by
    rw [hctx.sync]
    rfl
  rw [endRead, exec_bind, exec_dataCheckValidity hstart.nonneg, hcounter, hrevision]
  by_cases hsame : ctx.syncCtx.nbWrites ≠ nbWrites ctx.desc w.mem ctx.window.startIdx
  · rw [if_pos hsame, if_pos (show -EFAULT < 0 by decide), if_neg (show -EFAULT ≠ -ENODEV by decide)]
    rfl
  · rw [if_neg hsame]
    by_cases hrev : rev = nbCreations w.mem
    · rw [if_pos hrev, if_neg (show ¬ (0 : Int) < 0 by decide)]
      rfl
    · rw [if_neg hrev, if_pos (show -ENODEV < 0 by decide), if_pos rfl]
      rfl

end Shdata.Consumer
