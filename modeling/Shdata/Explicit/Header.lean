/-
Shdata.Explicit.Header — the number of slots in the header while the section
is in use.

An opening divides by the number that it finds in the header. The producer
of the section writes to the indices and to its own slots, consumers write
nothing. So with a header that fits and with writes inside the blob, each
opening finds the number of slots of the creation, however the calls are
interleaved (`header_run`), and nobody divides by zero: `fits_nonZero`.
-/
import Shdata.Explicit.Runs

namespace Shdata.Explicit

open Shdata.Conc Shdata.Bytes Shdata.Core Shdata.Ring Shdata.Layout Shdata.Solo

variable {Ω : Type} {B : Backend Ω} {t : Nat} {w : World Ω} {h : HdrUserInfo}

/-! ## Operations that leave the header alone -/

/-- An operation that writes nothing before the synchronization part. -/
def Spares : Op → Prop
  | .write _ a _ | .addAndFetch _ a _ => 40 ≤ a
  | .backend (.create _ _) | .backend (.resize _) => False
  | _ => True

theorem spares_of_keepsMem {o : Op} (ho : KeepsMem o) : Spares o := by
  cases o with
  | write site a src => exact absurd ho id
  | addAndFetch site a v => exact absurd ho id
  | backend c => cases c <;> exact ho
  | _ => trivial

theorem spares_of_loads {o : Op} (ho : Consumer.Loads o) : Spares o := by
  cases o with
  | read site a len => trivial
  | samplePtr desc i => trivial
  | _ => exact absurd ho id

theorem step_spares (hB : B.Faithful) {o : Op} (ho : Spares o) (w : World Ω) :
    ((machine B).step t o w).1.mem.read 16 24 = w.mem.read 16 24 := by
  cases o with
  | write site a src =>
    have ha : 40 ≤ a := ho
    exact Mem.read_write_disjoint (Or.inl (by omega))
  | addAndFetch site a v =>
    have ha : 40 ≤ a := ho
    exact Mem.read_write_disjoint (Or.inl (by omega))
  | backend c =>
    refine congrArg (fun m => m.read 16 24) (hB.mem t c (w.mem, w.os) ?_ ?_)
    · rintro name size rfl
      exact ho
    · rintro inst rfl
      exact ho
  | _ => rfl

/-- What the code computes itself, and what an opening finds in the header of `h`. -/
def Answers (h : HdrUserInfo) : (o : Op) → o.Resp → Prop
  | .read site a len, bs =>
    (site, a, len) = (.dataSectionDescNew, 24, 4) → (leNat bs : Int) = hdrNbSamples h
  | .samplePtr desc i, p => p = dataGetSamplePtr desc i
  | _, _ => True

theorem step_answers (hw : w.mem.read 16 24 = encHdrUserInfo h) (o : Op) :
    Answers h o ((machine B).step t o w).2 := by
  cases o with
  | read site a len =>
    intro he
    obtain ⟨rfl, rfl, rfl⟩ : site = .dataSectionDescNew ∧ a = 24 ∧ len = 4 := by simpa using he
    exact read_maxNbSamples hw
  | samplePtr desc i => rfl
  | _ => trivial

/-! ## Calls of the producer -/

/-- The context of a producer of the section between two of its calls. -/
structure Held (d : DataSectionDesc) (ctx : ShdCtx) : Prop where
  ctxFor : CtxFor d ctx
  index : ctx.syncCtx.index = -1 ∨ IsSlot d.nbSamples ctx.syncCtx.index

section Producer

variable {d : DataSectionDesc} {ctx : ShdCtx}

theorem sampleWrite_spares (hd : SoundDesc d) {i off : Int} (hi : IsSlot d.nbSamples i)
    {site : Site} {src : List UInt8} (h0 : 0 ≤ off) (h1 : off ≤ stride d) :
    (sampleWrite site (slot d i) off src).Ensures (Answers h) Spares fun _ => True := by
  have hb := slot_bounds hd hi
  have haddr : toU64 (slot d i + off) = slot d i + off := toU64_of_bounds (by omega) (by omega)
  rw [sampleWrite, haddr]
  exact ⟨show 40 ≤ slot d i + off by omega, fun _ _ => trivial⟩

theorem dataReserveWrite_spares (hd : SoundDesc d) (hc : Held d ctx) :
    (Core.dataReserveWrite ctx).Ensures (Answers h) Spares fun r => Held d r.2 := by
  obtain rfl := hc.ctxFor.desc
  have hsync := hc.ctxFor.sync
  unfold Core.dataReserveWrite syncStartWriteSession Core.syncGetNextWriteIndex
  rw [hsync]
  refine Prog.Ensures.bind (Q := fun _ => True) ?_ fun ret _ => ?_
  · refine Prog.ensures_perform (show (40 : Int) ≤ 40 + offsetofNbOngoing by decide) fun n _ => ?_
    split
    · split <;> trivial
    · trivial
  split
  · exact hc
  have hslot := fun v => isSlot_indexNext hd.size v
  refine Prog.Ensures.bind (Q := IsSlot ctx.desc.nbSamples) (ensures_load32 trivial fun bs _ =>
    hslot _) fun index hindex => Prog.ensures_perform trivial fun (samp : Int) hsamp => ?_
  replace hsamp : samp = slot ctx.desc index := hsamp.trans (dataGetSamplePtr_eq hd hindex)
  have haddr : 40 ≤ nbWritesPtr samp := by
    have hb := (slot_bounds hd hindex).1
    rw [hsamp, nbWritesPtr_slot hd hindex]
    omega
  refine Prog.Ensures.bind
    (Q := fun r => r.2.index = -1 ∨ IsSlot ctx.desc.nbSamples r.2.index) ?_
    fun r hr => ⟨⟨rfl, hsync⟩, hr⟩
  unfold Core.syncStartSampleWrite
  split
  · exact hc.index
  · refine Prog.ensures_perform haddr fun _ _ => ensures_load32 trivial fun bs _ => ?_
    dsimp only
    split
    · exact Or.inr (hslot _)
    · exact Or.inr (hslot _)

theorem dataWriteMetadata_spares (hd : SoundDesc d) (hc : Held d ctx) (metadata : SampleMetadata) :
    (dataWriteMetadata ctx metadata).Ensures (Answers h) Spares fun _ => True := by
  obtain rfl := hc.ctxFor.desc
  have hst := hd.stride_pos
  unfold dataWriteMetadata
  dsimp only
  split
  · trivial
  · rename_i hne
    have hi := hc.index.resolve_left hne
    refine Prog.ensures_perform trivial fun samp hsamp => ?_
    rw [show samp = slot ctx.desc _ from hsamp.trans (dataGetSamplePtr_eq hd hi)]
    exact sampleWrite_spares hd hi (le_refl 0) (by omega)

theorem dataWriteQuantity_spares (hd : SoundDesc d) (hc : Held d ctx) {q : Quantity}
    (hq : Producer.InBounds d q) (src : List UInt8) :
    (dataWriteQuantity ctx q src).Ensures (Answers h) Spares fun _ => True := by
  obtain rfl := hc.ctxFor.desc
  have hst := hd.stride_ge
  obtain ⟨hq0, hq1⟩ := hq
  unfold dataWriteQuantity
  dsimp only
  split
  · trivial
  · rename_i hne
    have hi := hc.index.resolve_left hne
    refine Prog.ensures_perform trivial fun samp hsamp => ?_
    rw [show samp = slot ctx.desc _ from hsamp.trans (dataGetSamplePtr_eq hd hi)]
    have hoff : lp64.offsetofBlob + q.quantityOffset = 40 + q.quantityOffset := rfl
    rw [hoff]
    exact sampleWrite_spares hd hi (by omega) (by omega)

theorem commitSample_spares (hc : Held d ctx) :
    (commitSample ctx).Ensures (Answers h) Spares fun r => Held d r.2 := by
  unfold commitSample dataEndWrite
  dsimp only
  split
  · exact hc
  · rw [hc.ctxFor.sync]
    refine ⟨show (40 : Int) ≤ 40 + offsetofWriteIndex by decide, fun _ _ =>
      ⟨show (40 : Int) ≤ 40 + offsetofNbOngoing by decide, fun _ _ => ?_⟩⟩
    exact ⟨⟨hc.ctxFor.desc, hc.ctxFor.sync⟩, Or.inl rfl⟩

theorem newSample_spares (hd : SoundDesc d) (hc : Held d ctx) (metadata : SampleMetadata) :
    (Core.newSample ctx metadata).Ensures (Answers h) Spares fun r => Held d r.2 := by
  refine (dataReserveWrite_spares hd hc).bind fun r hr => ?_
  split
  · exact hr
  · exact (dataWriteMetadata_spares hd hr metadata).bind fun ret _ => hr

/-- A call whose writes lie inside the blob. -/
theorem prodCall_spares (hd : SoundDesc d) (hc : Held d ctx) {call : Producer.ProdCall}
    (hin : call.InBounds d) :
    (Producer.prodCall ctx call).Ensures (Answers h) Spares fun r => Held d r.2 := by
  cases call with
  | newSample metadata => exact newSample_spares hd hc metadata
  | writeQuantity q src =>
    exact (dataWriteQuantity_spares hd hc hin src).bind fun ret _ => hc
  | commitSample => exact commitSample_spares hc
  | writeNewBlob src size metadata =>
    have hsize : Producer.InBounds d { quantityOffset := 0, quantitySize := size } :=
      ⟨le_refl 0, (Int.zero_add _).trans_le hin⟩
    refine (newSample_spares hd hc metadata).bind fun r hr => ?_
    split
    · exact hr
    refine (dataWriteQuantity_spares hd hr hsize src).bind fun ret _ => ?_
    split
    · exact hr
    · exact commitSample_spares hr

theorem producer_spares {F : Futils} (hd : SoundDesc d) (hc : Held d ctx)
    {calls : List Producer.ProdCall} (hin : ∀ c ∈ calls, c.InBounds d) :
    (coreCalls F (calls.map .prod) ctx).Ensures (Answers h) Spares fun _ => True := by
  induction calls generalizing ctx with
  | nil => trivial
  | cons c cs ih =>
    refine (prodCall_spares hd hc (hin c (by simp))).bind fun r hr => ?_
    exact (ih hr fun c' hc' => hin c' (by simp [hc'])).bind fun rs _ => trivial

end Producer

/-! ## Calls of a consumer -/

/-- A call that a consumer makes. -/
def ApiCall.Consumes : ApiCall → Prop
  | .prod _ => False
  | _ => True

section Consumer

variable {ctx : ShdCtx} {F : Futils}

theorem quiet_spares {α : Type} {p : ShdProg α} {Q : α → Prop} (hp : Consumer.Quiet p Q) :
    p.Ensures (Answers h) Spares Q :=
  (hp.assume fun _ _ _ => trivial).mono (fun _ => spares_of_loads) fun _ => id

theorem selectSamples_spares (hN : RingSize ctx.desc.nbSamples) (search : SampleSearch)
    (result : SearchResult) :
    (Core.selectSamples F ctx search result).Ensures (Answers h) Spares
      fun s => s.ctx.desc = ctx.desc := by
  refine (quiet_spares (Consumer.dataFind_quiet hN search)).bind fun r hr => ?_
  split
  · exact hr.2.1
  refine Prog.Ensures.bind (Q := fun m => m.2.2.desc = ctx.desc) ?_ fun m hm => ?_
  · refine Prog.ensures_perform trivial fun p _ => ?_
    cases p with
    | none => exact hr.2.1
    | some p =>
      exact (quiet_spares (Consumer.windowReadLoop_quiet _ _ _ _ _)).bind fun rows _ => hr.2.1
  · split
    · exact hm
    · exact hm

theorem endRead_spares (rev : Int) : (endRead ctx rev).Ensures (Answers h) Spares
    fun r => r.2.desc = ctx.desc := by
  refine (quiet_spares (Consumer.dataCheckValidity_quiet rev)).bind fun r hr => ?_
  split
  · split
    · exact ⟨trivial, fun _ _ => hr.2.1⟩
    · exact hr.2.1
  · exact ⟨trivial, fun _ _ => hr.2.1⟩

theorem readSectionHdr_quiet (rev : Int) :
    Consumer.Quiet (readSectionHdr ctx rev) fun _ => True := by
  refine Prog.Ensures.bind (Q := fun _ => True) (ensures_load32 trivial fun bs _ => ?_)
    fun ret _ => ?_
  · split <;> trivial
  · split
    · trivial
    · exact ⟨trivial, fun _ _ => trivial⟩

theorem readBlobMetadataHdr_quiet (size : Nat) (rev : Int) :
    Consumer.Quiet (readBlobMetadataHdr ctx size rev) fun _ => True := by
  refine Prog.ensures_perform trivial fun bs _ => ?_
  dsimp only
  split
  · trivial
  refine Prog.Ensures.bind (Q := fun _ => True) (ensures_load32 trivial fun bs' _ => ?_)
    fun ret _ => ?_
  · split <;> trivial
  · split
    · trivial
    · exact ⟨trivial, fun _ _ => trivial⟩

/-- A consumer writes nothing. -/
theorem consumer_spares (hN : RingSize ctx.desc.nbSamples) {call : ApiCall}
    (hc : call.Consumes) :
    (coreCall F ctx call).Ensures (Answers h) Spares fun r => r.2.desc = ctx.desc := by
  cases call with
  | prod call => exact absurd hc id
  | readSectionHdr rev => exact (quiet_spares (readSectionHdr_quiet rev)).bind fun r _ => rfl
  | readBlobMetadataHdr size rev =>
    exact (quiet_spares (readBlobMetadataHdr_quiet size rev)).bind fun r _ => rfl
  | cons call =>
    cases call with
    | select search => exact (selectSamples_spares hN search _).bind fun s hs => hs
    | readFrom search quantity sizes =>
      exact (quiet_spares (Consumer.readFromSample_quiet hN search quantity sizes)).bind
        fun s hs => hs.2
    | read quantity dstSize =>
      exact (quiet_spares (Consumer.readQuantity_quiet quantity dstSize)).bind fun r _ => rfl
    | endRead rev => exact endRead_spares rev

theorem consumer_calls_spares {calls : List ApiCall} (hN : RingSize ctx.desc.nbSamples)
    (hc : ∀ c ∈ calls, c.Consumes) :
    (coreCalls F calls ctx).Ensures (Answers h) Spares fun _ => True := by
  induction calls generalizing ctx with
  | nil => trivial
  | cons c cs ih =>
    refine (consumer_spares hN (hc c (by simp))).bind fun r hr => ?_
    have hN' : RingSize r.2.desc.nbSamples := hr ▸ hN
    exact (ih hN' fun c' hc' => hc c' (by simp [hc'])).bind fun rs _ => trivial

end Consumer

/-! ## Runs -/

/-- A thread that opens the section and reads. -/
def Party.Consumes : Party → Prop
  | .creator _ _ _ _ _ => False
  | .opener _ _ calls => ∀ c ∈ calls, c.Consumes

theorem Party.Consumes.sized {p : Party} (hp : p.Consumes) : p.Sized := by
  cases p with
  | creator name hdrInfo mdata env calls => exact absurd hp id
  | opener name env calls => trivial

theorem Party.Consumes.spares (hf : FitsHdr h) (F : Futils) {p : Party} (hp : p.Consumes) :
    (p.coreProg F).Ensures (Answers h) Spares fun _ => True := by
  cases p with
  | creator name hdrInfo mdata env calls => exact absurd hp id
  | opener name env calls =>
    refine ((openCtx_ensures (R := (· = hdrNbSamples h)) (fun bs hbs => hbs rfl) name env).mono
      (fun _ => spares_of_keepsMem) fun _ => id).bind fun r hr => ?_
    cases r with
    | none => trivial
    | some q => exact consumer_calls_spares (hr q rfl ▸ hf.size) hp

/-- **The header keeps the number of slots.** One producer writes inside its blobs, any number
of consumers open the section and read. -/
theorem header_run (hB : B.Faithful) (hf : FitsHdr h) {F : Futils} {ctx : ShdCtx}
    (hctx : Held (descOf h) ctx) {calls : List Producer.ProdCall}
    (hin : ∀ c ∈ calls, c.InBounds (descOf h)) {others : Nat → Party}
    (hothers : ∀ u, (others u).Consumes) (hw : w.mem.read 16 24 = encHdrUserInfo h)
    (ts : List Nat) : (sharing F t ctx (calls.map .prod) others w).Meets (ringMachine B)
      (fun _ _ w => w.mem.read 16 24 = encHdrUserInfo h) ts := by
  refine Config.meets_invariant (A := Prog.Answered remainder (Answers h))
    (P := Sum.elim Spares fun _ => True) (Q := fun _ => True) ?_ (fun u => ?_) hw ts
  · intro u o w' ho hw'
    cases o with
    | inl o => exact ⟨(step_spares hB ho w').trans hw', step_answers hw' o⟩
    | inr m => exact ⟨hw', rfl⟩
  · refine Prog.Ensures.of_answer ?_
    dsimp only [sharing]
    split
    · rw [apiCalls_answer]
      exact producer_spares (soundDesc_of_fits hf) hctx hin
    · rw [Party.prog_answer]
      exact (hothers u).spares hf F

/-- **In a section with a header that fits nobody divides by zero**, whatever the schedule is. -/
theorem fits_nonZero (hB : B.Faithful) (hf : FitsHdr h) {mdata : List UInt8}
    (hmd : (mdata.take h.blobMetadataHdrSize.toNat).length = h.blobMetadataHdrSize.toNat)
    {name : String} {env : Option String} {ctx : ShdCtx} {w₁ : World Ω}
    (hex : exec (machine B) t (create name h mdata env) w = (some ctx, w₁)) {F : Futils}
    {calls : List Producer.ProdCall} (hin : ∀ c ∈ calls, c.InBounds (descOf h))
    {others : Nat → Party} (hothers : ∀ u, (others u).Consumes) (ts : List Nat) :
    (sharing F t ctx (calls.map .prod) others w₁).Meets (ringMachine B)
      (fun _ o _ => NonZero o) ts := by
  obtain ⟨hpub, hdesc, hmap, hsync, -⟩ := create_spec hB hf hmd hex
  have hctx : Held (descOf h) ctx :=
    ⟨⟨hdesc, by rw [hmap]; rfl⟩, Or.inl (by rw [hsync]; rfl)⟩
  have hN : ctx.desc.nbSamples ≠ 0 := by
    have hpos := hf.size.pos
    rw [hdesc]
    exact ne_of_gt hpos
  refine sharing_nonZero hN _ (fun u => (hothers u).sized) ?_
  refine Config.meets_mono (fun u o w' hw' => ?_)
    (header_run hB hf hctx hin hothers hpub.hdr.user ts)
  -- the load of an opening finds the number of slots of the creation
  cases o with
  | inr m => trivial
  | inl o =>
    cases o with
    | read site a len =>
      intro he
      have hload : (leNat (w'.mem.read a len) : Int) = hdrNbSamples h :=
        step_answers (B := B) (t := t) hw' (.read site a len) he
      have hpos := hf.size.pos
      exact Int.natCast_ne_zero.mp (hload ▸ ne_of_gt hpos)
    | _ => trivial

end Shdata.Explicit
