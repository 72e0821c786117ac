/-
Shdata.Consumer.History — the ring refines a bounded history.

The history of a section is the list of the samples that its producer
committed. What a consumer can read of it is its last `min k N` entries: a
selection of the latest `n + 1` samples returns the last `n + 1` of the
list, in their order, and a read returns the bytes that each of them wrote.

`latest_history` follows one section from its creation on: sessions of its
producer, `shd_open`, more sessions, `shd_select_samples`, and the reads.
-/
import Shdata.Consumer.Scan
import Shdata.Producer.Sessions
import Shdata.Solo.Open

namespace Shdata.Consumer

open Shdata.Conc Shdata.Bytes Shdata.Core Shdata.Ring Shdata.Layout Shdata.Trace Shdata.Producer
  Shdata.Solo

variable {Ω : Type} {B : Backend Ω} {t : Nat} {d : DataSectionDesc} {w : World Ω}

/-! ## The latest samples -/

/-- The window of a selection of the latest sample. -/
def latestWindow (d : DataSectionDesc) (m : Mem) (search : SampleSearch) : Window :=
  windowAround search d ⟨writeIndex m, nbWrites d m (writeIndex m)⟩ (writeIndex m)

theorem exec_windowSet_latest (hd : SoundDesc d) (F : Futils) (window : Window)
    {search : SampleSearch} (hlatest : search.method = .latest) (hint : RefSearchHint)
    (hw : IsSlot d.nbSamples (writeIndex w.mem)) :
    exec (machine B) t (windowSet F window 40 search d hint) w
      = (((latestWindow d w.mem search).nbMatches, latestWindow d w.mem search), w) := by
  have href : exec (machine B) t (windowRefIdx F search d (searchCtx d w.mem) hint) w
      = (writeIndex w.mem, w) := by
    rw [windowRefIdx, hlatest]
    rfl
  have hneg : ¬ writeIndex w.mem < 0 := not_lt.mpr hw.nonneg
  rw [exec_windowSet_atRest hd hw window search hint href, if_neg hneg]
  rfl

/-- Asking for the `n + 1` latest samples. -/
structure LatestSearch (N : Int) (n : Nat) (search : SampleSearch) : Prop where
  method : search.method = .latest
  before : search.nbValuesBeforeDate.toNat = n
  after : search.nbValuesAfterDate.toNat = 0
  fits : (n : Int) < N

theorem LatestSearch.around (hd : SoundDesc d) {n : Nat} {search : SampleSearch}
    (h : LatestSearch d.nbSamples n search) {m : Mem} (hw : IsSlot d.nbSamples (writeIndex m)) :
    (latestWindow d m search).startIdx = (writeIndex m - n) % d.nbSamples ∧
      (latestWindow d m search).refIdx = writeIndex m ∧
      (latestWindow d m search).nbMatches = toI32 (n + 1) := by
  have hfit : Fits d.nbSamples search := by
    unfold Fits
    rw [h.before, h.after]
    have := h.fits
    omega
  have haround : Around d.nbSamples (writeIndex m) (writeIndex m) search (latestWindow d m search) :=
    around_windowAround d hd.size hfit
      (show IsSlot _ (⟨writeIndex m, nbWrites d m (writeIndex m)⟩ : SearchCtx).tIndex from hw) hw
  have hpos := hd.size.pos
  have hlast : gap d.nbSamples (writeIndex m + 1) (writeIndex m) = d.nbSamples - 1 := by
    have := gap_succ_add_gap hpos (writeIndex m) (writeIndex m)
    rw [gap_self] at this
    omega
  have hbefore : nbBefore d.nbSamples (writeIndex m) (writeIndex m) search = n := by
    rw [nbBefore, hlast, h.before]
    have := h.fits
    omega
  have hafter : nbAfter d.nbSamples (writeIndex m) (writeIndex m) search = 0 := by
    rw [nbAfter, gap_self, h.after]
    rfl
  have hstart := haround.start
  have hnb := haround.nbMatches
  rw [hbefore] at hstart hnb
  rw [hafter, Int.add_zero] at hnb
  exact ⟨hstart, haround.refIdx, hnb⟩

/-- A selection of the latest samples alone, when the allocation succeeds. -/
theorem exec_selectSamples_latest (hd : SoundDesc d) (F : Futils) {ctx : ShdCtx}
    (hctx : CtxFor d ctx) {n : Nat} {search : SampleSearch}
    (h : LatestSearch d.nbSamples n search) (hn : n + 1 < 2147483648)
    (hw : IsSlot d.nbSamples (writeIndex w.mem)) (hoom : w.heap.oom w.heap.next = false)
    (result : SearchResult) :
    ∃ sel w', exec (machine B) t (selectSamples F ctx search result) w = (sel, w') ∧
      w'.mem = w.mem ∧ sel.ret = 0 ∧ sel.result = ⟨n + 1, n⟩ ∧
      sel.metadata = (List.range (n + 1)).map (fun x => decMetadata
        (rowOf d w.mem ((writeIndex w.mem - n) % d.nbSamples) 0 sizeofMetadata x)) ∧
      sel.ctx.desc = d ∧ sel.ctx.sectMmap = ctx.sectMmap ∧
      sel.ctx.window.startIdx = (writeIndex w.mem - n) % d.nbSamples ∧
      sel.ctx.window.nbMatches = n + 1 := by
  obtain ⟨hstart, href, hnb⟩ := h.around hd hw
  have hfits := h.fits
  rw [toI32_of_bounds (by omega) (by omega)] at hnb
  have hslot := isSlot_emod hd.size (writeIndex w.mem - n)
  have hsize : ¬ d.nbSamples <
      toU32 ((search.nbValuesAfterDate.toNat : Int) + search.nbValuesBeforeDate.toNat + 1) := by
    have hsmall := hd.size.small
    rw [h.before, h.after, toU32_of_bounds (by omega) (by omega)]
    omega
  have hfind := exec_dataFind_found (B := B) (t := t) hd F hctx
    (by have := hw.nonneg; omega) hsize
    (exec_windowSet_latest hd F ctx.window h.method ctx.hint hw)
    (by rw [hnb]; omega) (by rw [hstart]; exact hslot)
  have hfound : CtxFor d (foundCtx d w.mem ctx (latestWindow d w.mem search)) :=
    ⟨hctx.desc, hctx.sync⟩
  have hidx : toI32 (intervalBetween ((writeIndex w.mem - n) % d.nbSamples) (writeIndex w.mem)
      d.nbSamples) = n := by
    rw [intervalBetween_eq hd.size hslot hw, gap_emod_left]
    unfold gap
    rw [show writeIndex w.mem - (writeIndex w.mem - n) = n by ring,
      Int.emod_eq_of_lt (by omega) (by omega)]
    exact toI32_of_bounds (by omega) (by omega)
  obtain ⟨r, w', hm, hmem, hcase⟩ := exec_dataReadMetadata (B := B) (t := t) (w := w) hd hfound
    (show IsSlot _ (latestWindow d w.mem search).startIdx by rw [hstart]; exact hslot)
  rcases hcase with ⟨-, hfail⟩ | ⟨p, rfl⟩
  · rw [hoom] at hfail
    exact absurd hfail (by decide)
  have hrow : toI32 (intervalBetween
      (foundCtx d w.mem ctx (latestWindow d w.mem search)).window.startIdx
      (foundCtx d w.mem ctx (latestWindow d w.mem search)).window.refIdx d.nbSamples) = n := by
    show toI32 (intervalBetween (latestWindow d w.mem search).startIdx
      (latestWindow d w.mem search).refIdx d.nbSamples) = n
    rw [hstart, href]
    exact hidx
  rw [selectSamples, exec_bind, hfind]
  dsimp only
  rw [if_neg (by rw [hnb]; omega), exec_bind, hm]
  dsimp only
  rw [if_neg (by rw [hrow]; omega), exec_pure, hrow, hnb]
  have hlen : ((n : Int) + 1).toNat = n + 1 := by omega
  refine ⟨_, _, rfl, hmem, rfl, rfl, ?_, hctx.desc, rfl, hstart, hnb⟩
  rw [← hstart, ← hlen, ← hnb]
  rfl

/-! ## The headers -/

/-- The section header and the blob metadata of a creation. -/
structure Headers (h : HdrUserInfo) (mdata : List UInt8) (m : Mem) : Prop where
  hdr : PublishedHdr h m
  mdata : m.read 56 h.blobMetadataHdrSize.toNat = mdata.take h.blobMetadataHdrSize.toNat

section Headers

variable {h : HdrUserInfo} {mdata : List UInt8}

/-- Producers leave the headers alone. -/
theorem Headers.grows {s s' : World Ω × History} (hp : Headers h mdata s.1.mem)
    (hg : Grows (descOf h) s s') : Headers h mdata s'.1.mem := by
  have hle := le_up4 (hdrMdataSize h)
  have hlow : ∀ {a : Int} {len : Nat}, a + len ≤ 44 → s'.1.mem.read a len = s.1.mem.read a len :=
    fun ha => Mem.read_congr fun x _ h1 => hg.hdr x (by omega)
  refine ⟨⟨?_, ?_, ?_⟩, ?_⟩
  · rw [hlow (by omega)]
    exact hp.hdr.magic
  · rw [hlow (by omega)]
    exact hp.hdr.major
  · rw [hlow (by omega)]
    exact hp.hdr.user
  · rw [← hp.mdata]
    refine Mem.read_congr fun x h0 h1 => hg.hdr x (Or.inr ⟨by omega, ?_⟩)
    show x < 56 + up4 (hdrMdataSize h)
    unfold hdrMdataSize at *
    omega

theorem nbCreations_grows {s s' : World Ω × History} (hg : Grows d s s') :
    nbCreations s'.1.mem = nbCreations s.1.mem :=
  Mem.i32_congr fun x _ h1 => hg.hdr x (by omega)

/-- `shd_read_section_hdr` alone. -/
theorem exec_readSectionHdr {ctx : ShdCtx} (hmap : ctx.sectMmap = getMmap (getOffsets lp64 h))
    (hp : Headers h mdata w.mem) {rev : Int} (hrev : rev = nbCreations w.mem) :
    exec (machine B) t (readSectionHdr ctx rev) w = ((0, some h), w) := by
  have hdec : decHdrUserInfo (w.mem.read 16 24) = h := by
    have := decHdrUserInfo_append h []
    rwa [List.append_nil, ← hp.hdr.user] at this
  rw [readSectionHdr, hmap, exec_bind, show (getMmap (getOffsets lp64 h)).syncTop = 40 from rfl,
    exec_syncCheckRevisionNb, if_pos (c := rev = w.mem.i32 40) hrev]
  dsimp only
  rw [if_neg (by decide), exec_bind, hdrReadMapped, exec_bind, exec_memcpyOut]
  show ((0, some (decHdrUserInfo (w.mem.read 16 24))), w) = _
  rw [hdec]

/-- `shd_read_blob_metadata_hdr` alone, with the size of the metadata. -/
theorem exec_readBlobMetadataHdr (hf : FitsHdr h) {ctx : ShdCtx}
    (hmap : ctx.sectMmap = getMmap (getOffsets lp64 h)) (hp : Headers h mdata w.mem) {rev : Int}
    (hrev : rev = nbCreations w.mem) :
    exec (machine B) t (readBlobMetadataHdr ctx h.blobMetadataHdrSize.toNat rev) w
      = ((0, some (mdata.take h.blobMetadataHdrSize.toNat)), w) := by
  have hsize : leNat (w.mem.read 32 8) = h.blobMetadataHdrSize.toNat := read_mdataSize hp.hdr.user
  have hget : exec (machine B) t (hdrGetMdataSize 16) w = (leNat (w.mem.read 32 8), w) := rfl
  rw [readBlobMetadataHdr, hmap, getMmap_eq hf, exec_bind, hget, hsize]
  dsimp only
  rw [if_neg (by simp), exec_bind, exec_syncCheckRevisionNb, if_pos (c := rev = w.mem.i32 40) hrev]
  dsimp only
  rw [if_neg (by decide), exec_bind, mdataHdrRead, exec_bind, exec_memcpyOut, hp.mdata]
  rfl

end Headers

/-! ## The history that the ring retains -/

theorem decTimespec_append (ts : Timespec) (bs : List UInt8) :
    decTimespec (encTimespec ts ++ bs) = ts := by
  obtain ⟨sec, nsec⟩ := ts
  have hs := sec.isLt
  have hn := nsec.isLt
  simp only [decTimespec, encTimespec, List.append_assoc, leNat_take_append, drop_append_leBytes]
  rw [Nat.mod_eq_of_lt (by omega), Nat.mod_eq_of_lt (by omega)]
  simp

/-- Metadata survives its encoding. -/
theorem decMetadata_encMetadata (md : SampleMetadata) : decMetadata (encMetadata md) = md := by
  have hlen : (encTimespec md.ts).length = 16 := by simp [encTimespec]
  have hexp := decTimespec_append md.exp []
  have hts := decTimespec_append md.ts []
  rw [List.append_nil] at hexp hts
  rw [decMetadata, encMetadata, List.take_left' hlen, List.drop_left' hlen, hts, hexp]

/-- The last `n` samples of a history. -/
def lastSamples (n : Nat) (wss : List WriteSession) : List WriteSession :=
  wss.drop (wss.length - n)

/-- The row of a read of `size` bytes at offset `off` of the blob has every byte
that the session wrote there. -/
def RowOfSample (off : Int) (size : Nat) (row : List UInt8) (ws : WriteSession) : Prop :=
  row.length = size ∧ ∀ (o : Nat) v, o < size → ws.blob (off + o) = some v → row[o]? = some v

/-- Row `x` of the latest `n + 1` samples is that of commit `k - (n + 1) + x`. -/
theorem latest_row {wss : List WriteSession} {m : Mem} {log : List Commit}
    (hrecs : List.Forall₂ (Records d) wss log) (hring : RingMem d log.length log m) {n x : Nat}
    (hn : n < log.length) (hnN : (n : Int) < d.nbSamples) (hx : x < n + 1)
    {ws : WriteSession} (hws : wss[log.length - (n + 1) + x]? = some ws) :
    decMetadata (rowOf d m ((writeIndex m - n) % d.nbSamples) 0 sizeofMetadata x) = ws.metadata ∧
      ∀ (off : Int) (size : Nat), 0 ≤ off → off + size ≤ d.blobSize →
        RowOfSample off size (rowOf d m ((writeIndex m - n) % d.nbSamples) (40 + off) size x) ws := by
  obtain ⟨j, hj⟩ : ∃ j, j = log.length - (n + 1) + x := ⟨_, rfl⟩
  rw [← hj] at hws
  have hlt : j < log.length := by omega
  have hk : log ≠ [] := by
    rintro rfl
    simp at hlt
  have hrec : Records d ws log[j] := by
    obtain ⟨hlen, hget⟩ := List.forall₂_iff_get.mp hrecs
    obtain ⟨hjw, rfl⟩ := List.getElem?_eq_some_iff.mp hws
    exact hget j hjw hlt
  have hslot : ((writeIndex m - n) % d.nbSamples + x) % d.nbSamples = (j : Int) % d.nbSamples := by
    rw [hring.index_last hk, emod_add_emod,
      show ((log.length : Int) - 1) % d.nbSamples - n + x
        = ((log.length : Int) - 1) % d.nbSamples + (x - n) by ring, emod_add_emod]
    congr 1
    omega
  obtain ⟨hmd, hblob⟩ := hring.samples j log[j] (List.getElem?_eq_getElem hlt) (by omega)
  refine ⟨?_, fun off size h0 h1 => ⟨by simp [rowOf], fun o v ho hv => ?_⟩⟩
  · rw [rowOf, hslot, Int.add_zero]
    rw [show m.read (slot d ((j : Int) % d.nbSamples)) sizeofMetadata
      = metadataOf d m ((j : Int) % d.nbSamples) from rfl, hmd, hrec.metadata]
    exact decMetadata_encMetadata _
  · have hb : off.toNat + o < d.blobSize.toNat := by omega
    have hbyte := hrec.blob (off.toNat + o) v hb (by
      rw [← hv]
      congr 1
      omega)
    rw [← hblob, blobOf, List.getElem?_eq_getElem (by simpa using hb), Mem.getElem_read] at hbyte
    rw [rowOf, hslot, List.getElem?_eq_getElem (by simpa using ho), Mem.getElem_read, ← hbyte]
    congr 2
    push_cast
    rw [Int.toNat_of_nonneg h0]
    ring

/-- The rows of the latest `n + 1` samples are those of the last `n + 1` sessions. -/
theorem latest_rows {wss : List WriteSession} {m : Mem} {log : List Commit}
    (hrecs : List.Forall₂ (Records d) wss log) (hring : RingMem d log.length log m) {n : Nat}
    (hn : n < log.length) (hnN : (n : Int) < d.nbSamples) :
    (List.range (n + 1)).map (fun x => decMetadata
        (rowOf d m ((writeIndex m - n) % d.nbSamples) 0 sizeofMetadata x))
      = (lastSamples (n + 1) wss).map WriteSession.metadata ∧
    ∀ (off : Int) (size : Nat), 0 ≤ off → off + size ≤ d.blobSize →
      List.Forall₂ (RowOfSample off size)
        ((List.range (n + 1)).map
          (rowOf d m ((writeIndex m - n) % d.nbSamples) (40 + off) size))
        (lastSamples (n + 1) wss) := by
  have hlen := hrecs.length_eq
  have hlast : (lastSamples (n + 1) wss).length = n + 1 := by
    rw [lastSamples, List.length_drop]
    omega
  have hget : ∀ x (hx : x < (lastSamples (n + 1) wss).length),
      wss[log.length - (n + 1) + x]? = some (lastSamples (n + 1) wss)[x] := by
    intro x hx
    rw [← List.getElem?_eq_getElem hx, lastSamples, List.getElem?_drop, hlen]
  constructor
  · refine List.ext_getElem (by simp [hlast]) fun x h0 h1 => ?_
    rw [List.length_map] at h1
    rw [List.getElem_map, List.getElem_map, List.getElem_range]
    exact (latest_row hrecs hring hn hnN (by omega) (hget x h1)).1
  · intro off size hoff hsize
    refine List.forall₂_iff_get.mpr ⟨by simp [hlast], fun x h0 h1 => ?_⟩
    rw [List.get_eq_getElem, List.get_eq_getElem, List.getElem_map, List.getElem_range]
    exact (latest_row hrecs hring hn hnN (by omega) (hget x h1)).2 off size hoff hsize

/-- The room that a read asks for is no more than the product. -/
theorem read_fits {size n dst : Nat} (hn : n < 18446744073709551616) (hdst : size * n ≤ dst) :
    toU64 (size * toU64 n) ≤ dst := by
  rw [toU64_of_bounds (Int.natCast_nonneg n) (by omega), ← Nat.cast_mul]
  exact (toU64_le (Int.natCast_nonneg _)).trans (by exact_mod_cast hdst)

/-- **The ring refines a bounded history.** The only producer of a section makes
sessions that all succeed, before and after a consumer opens the section.
Then the latest `n + 1` samples that the consumer selects are the last
`n + 1` sessions, for every `n` below the number of sessions and of slots;
a read returns what each of them wrote; and the headers are those of the
creation. -/
theorem latest_history (hB : B.Faithful) (hhdr : ReadsHdr B) (F : Futils) {name : String}
    {h : HdrUserInfo} (hf : FitsHdr h) (hN : hdrNbSamples h ≤ 1073741824) {mdata : List UInt8}
    (hmd : (mdata.take h.blobMetadataHdrSize.toNat).length = h.blobMetadataHdrSize.toNat)
    {env env' : Option String} (hoom : ∀ n, w.heap.oom n = false) {p₀ : ShdCtx} {w₀ : World Ω}
    (hcreate : exec (machine B) 0 (create name h mdata env) w = (some p₀, w₀))
    {wss₁ wss₂ : List WriteSession} (hws₁ : ∀ ws ∈ wss₁, ws.InBounds (descOf h))
    (hws₂ : ∀ ws ∈ wss₂, ws.InBounds (descOf h))
    {rets₁ : List Int} {p₁ : ShdCtx} {s₁ : World Ω × History}
    (hs₁ : exec (tracked B (descOf h)) 0 (prodCalls (sessionCalls wss₁) p₀) (w₀, History.init)
      = ((rets₁, p₁), s₁)) (hret₁ : ∀ r ∈ rets₁, r = 0)
    {ctx : ShdCtx} {rev : Int} {w₂ : World Ω}
    (hopen : exec (machine B) 1 (openCtx name env') s₁.1 = (some (ctx, rev), w₂))
    {rets₂ : List Int} {p₂ : ShdCtx} {s₃ : World Ω × History}
    (hs₃ : exec (tracked B (descOf h)) 0 (prodCalls (sessionCalls wss₂) p₁) (w₂, s₁.2)
      = ((rets₂, p₂), s₃)) (hret₂ : ∀ r ∈ rets₂, r = 0)
    {n : Nat} (hnk : n < (wss₁ ++ wss₂).length) {search : SampleSearch}
    (hsearch : LatestSearch (hdrNbSamples h) n search) (result : SearchResult) :
    ∃ sel w₄, exec (machine B) 1 (selectSamples F ctx search result) s₃.1 = (sel, w₄) ∧
      sel.ret = 0 ∧ sel.result = ⟨n + 1, n⟩ ∧
      sel.metadata = (lastSamples (n + 1) (wss₁ ++ wss₂)).map WriteSession.metadata ∧
      (∀ (q : Quantity) (dst : Nat), InBounds (descOf h) q → q.quantitySize * (n + 1) ≤ dst →
        ∃ rows, exec (machine B) 1 (readQuantity sel.ctx (some q) dst) w₄ = (((n : Int) + 1, rows), w₄) ∧
          List.Forall₂ (RowOfSample q.quantityOffset q.quantitySize) rows
            (lastSamples (n + 1) (wss₁ ++ wss₂))) ∧
      exec (machine B) 1 (readSectionHdr sel.ctx rev) w₄ = ((0, some h), w₄) ∧
      exec (machine B) 1 (readBlobMetadataHdr sel.ctx h.blobMetadataHdrSize.toNat rev) w₄
        = ((0, some (mdata.take h.blobMetadataHdrSize.toNat)), w₄) := by
  have hd := soundDesc_of_fits hf
  -- the creation
  obtain ⟨hpub, -⟩ := create_spec hB hf hmd hcreate
  obtain ⟨hcleared, hfresh⟩ := create_fresh hB hf hmd hcreate
  have hidle₀ : Idle (descOf h) (· = 0) 0 0 p₀ (w₀, History.init) :=
    ⟨hfresh.ctxFor, ringInv_init _ hcleared, rfl, hfresh.index, rfl⟩
  have hheaders₀ : Headers h mdata w₀.mem := ⟨hpub.hdr, hpub.mdata⟩
  -- the sessions before the consumer opens the section
  obtain ⟨hidle₁, hgrows₁, cs₁, hcs₁, hrecs₁⟩ := sessions_spec hd hws₁ hidle₀ hs₁ hret₁
  have hheaders₁ := hheaders₀.grows hgrows₁
  obtain ⟨hmem₂, hopened⟩ := open_spec hB hhdr hf hheaders₁.hdr hopen
  obtain ⟨hdesc, hmap, -, hrev⟩ := hopened _ rfl
  have hctx : CtxFor (descOf h) ctx := ⟨hdesc, by rw [hmap, getMmap_eq hf]⟩
  -- the sessions after
  have hidle₂ : Idle (descOf h) (· = 0) 0 (0 + wss₁.length) p₁ (w₂, s₁.2) :=
    ⟨hidle₁.ctxFor, hidle₁.inv.congr hmem₂ ⟨rfl, rfl, rfl, rfl⟩, hidle₁.writing, hidle₁.index,
      hidle₁.count⟩
  obtain ⟨hidle₃, hgrows₃, cs₂, hcs₂, hrecs₂⟩ := sessions_spec hd hws₂ hidle₂ hs₃ hret₂
  have hheaders₂ : Headers h mdata w₂.mem := by
    rw [hmem₂]
    exact hheaders₁
  have hheaders₃ := Headers.grows (s := (w₂, s₁.2)) hheaders₂ hgrows₃
  have hlog : s₃.2.commits = cs₁ ++ cs₂ := by
    rw [hcs₂, hcs₁]
    rfl
  have hrecs : List.Forall₂ (Records (descOf h)) (wss₁ ++ wss₂) s₃.2.commits := by
    rw [hlog]
    exact List.rel_append hrecs₁ hrecs₂
  have hlen := hrecs.length_eq
  -- the selection
  have hnone : ∀ t, s₃.2.writing t = false := by
    intro t
    by_contra ht
    have ht0 : t = 0 := hidle₃.inv.allowed t (by simpa using ht)
    exact ht (ht0 ▸ hidle₃.writing)
  have hring := hidle₃.inv.ring
  rw [(hidle₃.inv.idle hnone).2] at hring
  have hk : s₃.2.commits ≠ [] := by
    intro hnil
    rw [hlen, hnil] at hnk
    exact absurd hnk (by simp)
  have hslot := hring.isSlot_index hd hk
  have hoom₃ : s₃.1.heap.oom s₃.1.heap.next = false := by
    have h₂ : w₂.heap.oom = w₀.heap.oom := (exec_oom hopen).trans (exec_oom_tracked hs₁)
    have h₃ : s₃.1.heap.oom = w₂.heap.oom := exec_oom_tracked hs₃
    rw [h₃, h₂, exec_oom hcreate]
    exact hoom _
  obtain ⟨sel, w₄, hex, hmem₄, hret, hres, hmeta, hseldesc, hselmap, hstart, hnb⟩ :=
    exec_selectSamples_latest (B := B) (t := 1) hd F hctx hsearch
      (by have := hsearch.fits; omega) hslot hoom₃ result
  have hheaders₄ : Headers h mdata w₄.mem := by
    rw [hmem₄]
    exact hheaders₃
  have hrev₄ : rev = nbCreations w₄.mem := by
    rw [hmem₄, nbCreations_grows hgrows₃, hmem₂]
    exact hrev
  have hfits := hsearch.fits
  have hpos : n < s₃.2.commits.length := by omega
  obtain ⟨hmetas, hrows⟩ := latest_rows hrecs hring hpos hfits
  refine ⟨sel, w₄, hex, hret, hres, hmeta.trans hmetas, fun q dst hq hdst => ?_, ?_, ?_⟩
  · have hin : InSample (descOf h) (40 + q.quantityOffset) q.quantitySize := by
      have := hd.stride_ge
      exact ⟨by have := hq.1; omega, by have := hq.2; omega⟩
    have hfit : toU64 (q.quantitySize * toU64 sel.ctx.window.nbMatches) ≤ dst := by
      rw [hnb]
      exact read_fits (n := n + 1) (by omega) hdst
    have hexr := exec_dataReadRows (B := B) (t := 1) (w := w₄) hd hseldesc
      (by rw [hstart]; exact isSlot_emod hd.size _) hin (by omega) hfit
    rw [hnb, hstart, hmem₄] at hexr
    exact ⟨_, hexr, hrows q.quantityOffset q.quantitySize hq.1 hq.2⟩
  · exact exec_readSectionHdr (hselmap.trans hmap) hheaders₄ hrev₄
  · exact exec_readBlobMetadataHdr hf (hselmap.trans hmap) hheaders₄ hrev₄

/-- What the sessions of the example write: a whole blob, then two bytes of one. -/
def someSessions : List WriteSession :=
  [⟨⟨⟨1, 0⟩, ⟨1, 0⟩⟩, [(⟨0, 4⟩, [1, 2, 3, 4])]⟩, ⟨⟨⟨2, 0⟩, ⟨2, 0⟩⟩, [(⟨1, 2⟩, [8, 9])]⟩]

def lastSession : List WriteSession := [⟨⟨⟨3, 0⟩, ⟨3, 0⟩⟩, []⟩]

/-- A section of 2 slots, with two sessions. -/
def written₂ : (List Int × ShdCtx) × World Shm × History :=
  exec (tracked shm ⟨56, 4, 2⟩) 0 (prodCalls (sessionCalls someSessions)
    ((created 2).1.getD default)) ((created 2).2, History.init)

def opened₂ : Option (ShdCtx × Int) × World Shm :=
  exec (machine shm) 1 (openCtx "section" none) written₂.2.1

/-- The third session overwrites the first. -/
def written₃ : (List Int × ShdCtx) × World Shm × History :=
  exec (tracked shm ⟨56, 4, 2⟩) 0 (prodCalls (sessionCalls lastSession) written₂.1.2)
    (opened₂.2, written₂.2.2)

theorem latest_history_wrapped :
    ∃ sel w₄, exec (machine shm) 1 (selectSamples libfutils (opened₂.1.getD default).1
        ⟨⟨0, 0⟩, .latest, 1, 0⟩ ⟨0, 0⟩) written₃.2.1 = (sel, w₄) ∧
      sel.metadata = [⟨⟨2, 0⟩, ⟨2, 0⟩⟩, ⟨⟨3, 0⟩, ⟨3, 0⟩⟩] := by
  have hf : FitsHdr ⟨4, 2, 1, 0⟩ := ⟨⟨by decide, by decide⟩, by decide⟩
  have hsome : (created 2).1.isSome := by decide +kernel
  have hopen : opened₂.1.isSome := by decide +kernel
  obtain ⟨p, hp⟩ := Option.isSome_iff_exists.mp hsome
  obtain ⟨q, hq⟩ := Option.isSome_iff_exists.mp hopen
  have hin : ∀ ws ∈ someSessions, ws.InBounds (descOf ⟨4, 2, 1, 0⟩) := by
    unfold WriteSession.InBounds Producer.InBounds
    decide
  have hin' : ∀ ws ∈ lastSession, ws.InBounds (descOf ⟨4, 2, 1, 0⟩) := by
    unfold WriteSession.InBounds Producer.InBounds
    decide
  have hrun₂ : exec (tracked shm (descOf ⟨4, 2, 1, 0⟩)) 0 (prodCalls (sessionCalls someSessions) p)
      ((created 2).2, History.init) = (written₂.1, written₂.2) := by
    rw [written₂, hp]
    rfl
  have hrun₃ : exec (tracked shm (descOf ⟨4, 2, 1, 0⟩)) 0
      (prodCalls (sessionCalls lastSession) written₂.1.2) (opened₂.2, written₂.2.2)
        = (written₃.1, written₃.2) := rfl
  have hlatest : LatestSearch (hdrNbSamples ⟨4, 2, 1, 0⟩) 1 ⟨⟨0, 0⟩, .latest, 1, 0⟩ :=
    ⟨rfl, rfl, rfl, by decide⟩
  obtain ⟨sel, w₄, hex, -, -, hmeta, -⟩ := latest_history shm_faithful shm_readsHdr libfutils hf
    (by decide) rfl (fun _ => rfl) (Prod.ext hp rfl) hin hin' hrun₂ (by decide +kernel)
    (Prod.ext hq rfl) hrun₃ (by decide +kernel) (by decide) hlatest ⟨0, 0⟩
  refine ⟨sel, w₄, ?_, hmeta⟩
  rw [hq]
  exact hex

end Shdata.Consumer
