/-
Shdata.Readers.Calls — the calls of a read session beside one producer and any
other consumers.

One specification for each call, valid under any interference that keeps the
invariant of the section and lets its logs grow. A search may meet any number
of commits and reservations; what a session is worth is decided at its
snapshot (`wp_dataFind`), and what it delivered at the comparison of
`shd_end_read` (`wp_endRead`).
-/
import Shdata.Readers.Sessions

namespace Shdata.Readers

open Shdata.Conc Shdata.Bytes Shdata.Core Shdata.Ring Shdata.Layout Shdata.Trace Shdata.Producer
  Shdata.Consumer

variable {Ω : Type} {B : Backend Ω} {d : DataSectionDesc} {F : Futils} {t : Nat}
  {C : Nat → Op → World Ω × History → Prop} {win : Window} {cnt : Int} {j : Nat} {ctx : ShdCtx}
  {s s' : World Ω × History}

/-! ## Operations of a consumer -/

/-- A load, the address of a slot, or the metadata array. -/
def Reads : Op → Prop
  | .read _ _ _ | .samplePtr _ _ | .calloc .metadata | .free .metadata _ => True
  | _ => False

theorem reads_of_searching {hdr : Int} {o : Op} (ho : Searching hdr d o) : Reads o := by
  cases o with
  | read site a len => trivial
  | samplePtr desc i => trivial
  | _ => exact absurd ho id

theorem step_consGuar {o : Op} (ho : Reads o) (t : Nat) (s : World Ω × History) :
    ConsGuar o s ((tracked B d).step t o s).1 := by
  cases o with
  | read site a len => exact ⟨rfl, by cases site <;> exact ⟨rfl, rfl, rfl, rfl⟩⟩
  | samplePtr desc i => exact ⟨rfl, rfl, rfl, rfl, rfl⟩
  | calloc what => exact ⟨rfl, rfl, rfl, rfl, rfl⟩
  | free what p => exact ⟨rfl, rfl, rfl, rfl, rfl⟩
  | _ => exact absurd ho id

theorem read_consGuar (site : Site) (a : Int) (len t : Nat) (s : World Ω × History) :
    ConsGuar (.read site a len) s ((tracked B d).step t (.read site a len) s).1 :=
  step_consGuar (o := .read site a len) trivial t s

theorem samplePtr_consGuar (desc : DataSectionDesc) (i : Int) (t : Nat) (s : World Ω × History) :
    ConsGuar (.samplePtr desc i) s ((tracked B d).step t (.samplePtr desc i) s).1 :=
  step_consGuar (o := .samplePtr desc i) trivial t s

/-- A part of a session whose responses do not matter. -/
theorem wp_reads {α : Type} {p : ShdProg α} {Q : α → Prop} {I : World Ω × History → Prop}
    (hI : ∀ a b, I a → Onward d a b → I b) (hp : p.Ensures Revision.Computes Reads Q) (h : I s) :
    wp (tracked B d) t C (Onward d) ConsGuar p (fun a s' => Q a ∧ I s') s := by
  refine wp_invariant hI (fun o u ho hu _ => ?_) hp h
  have hg := step_consGuar (B := B) (d := d) ho t u
  exact ⟨hg, hI _ _ hu (onward_of_consGuar hg), Revision.step_computes o u.1⟩

/-- What a part of a session does not undo. -/
theorem wp_lasting {α : Type} {p : ShdProg α} {Q : α → World Ω × History → Prop}
    {X : List Commit → Prop} (hX : Lasting X)
    (h : wp (tracked B d) t C (Onward d) ConsGuar p Q s) (hs : Unless d j X s) :
    wp (tracked B d) t C (Onward d) ConsGuar p (fun a s' => Q a s' ∧ Unless d j X s') s :=
  wp_frame (fun _ _ hu hR => hu.onward hX hR)
    (fun _ _ _ hu hg => hu.onward hX (onward_of_consGuar hg)) h hs

/-! ## Copies -/

/-- `size` bytes at offset `off` of a slot are a part of the commit that it holds. -/
def PartOf (d : DataSectionDesc) (off : Int) (size : Nat) (part : Commit → List UInt8) : Prop :=
  ∀ (m : Mem) (i : Int) (c : Commit), metadataOf d m i = c.metadata → blobOf d m i = c.blob →
    m.read (slot d i + off) size = part c

theorem partOf_metadata (d : DataSectionDesc) : PartOf d 0 sizeofMetadata Commit.metadata := by
  intro m i c hmd _
  rw [Int.add_zero]
  exact hmd

theorem partOf_blob {off : Int} {size : Nat} (h0 : 0 ≤ off) (h1 : off + size ≤ d.blobSize) :
    PartOf d (40 + off) size (blobPart off size) := by
  intro m i c _ hblob
  rw [blobPart, ← hblob, blobOf, Mem.read_drop_take _ _ _ _ _ (by omega),
    Int.toNat_of_nonneg h0, Int.add_assoc]

theorem partOf_readPart (hd : SoundDesc d) {quantity : Option Quantity}
    (hq : ∀ q, quantity = some q → InBounds d q) :
    PartOf d (readRange d quantity).1 (readRange d quantity).2 (readPart d quantity) := by
  cases quantity with
  | none =>
    have hblob : (0 : Int) + ((d.blobSize.toNat : Nat) : Int) ≤ d.blobSize := by
      have := hd.blob
      omega
    exact partOf_blob (le_refl 0) hblob
  | some q => exact partOf_blob (hq q rfl).1 (hq q rfl).2

/-- A copy from the slot of row `x`. -/
theorem Held.copied (hd : SoundDesc d) (h : Held d win cnt j s) {off : Int} {size : Nat}
    (hin : InSample d off size) {part : Commit → List UInt8} (hpart : PartOf d off size part)
    {i : Int} {x : Nat} (hi : i = (win.startIdx + x) % d.nbSamples)
    (hx : (x : Int) < win.nbMatches) :
    Unless d j (fun log => ∃ c, log[j + x]? = some c ∧
      s.1.mem.read (toU64 (dataGetSamplePtr d i + off)) size = part c) s := by
  have hslot : IsSlot d.nbSamples i := hi ▸ isSlot_emod hd.size _
  have hb := slot_bounds hd hslot
  have hoff := hin.nonneg
  have hle := hin.le
  refine ⟨h.inv, fun hkept => ?_⟩
  obtain ⟨c, hc, hmd, hblob⟩ := h.row hkept hx
  rw [← hi] at hmd hblob
  refine ⟨c, hc, ?_⟩
  rw [dataGetSamplePtr_eq hd hslot, toU64_of_bounds (by omega) (by omega)]
  exact hpart _ _ _ hmd hblob

theorem lasting_at {X : Commit → Prop} (k : Nat) :
    Lasting (fun log => ∃ c, log[k]? = some c ∧ X c) := by
  rintro log log' hp ⟨c, hc, hX⟩
  obtain ⟨hlt, rfl⟩ := List.getElem?_eq_some_iff.mp hc
  exact ⟨_, List.prefix_iff_getElem?.mp hp _ hlt, hX⟩

/-- The loop of `shd_window_read`, from row `x` on. -/
theorem wp_windowReadLoop (hd : SoundDesc d) {off : Int} {size : Nat} (hin : InSample d off size)
    {part : Commit → List UInt8} (hpart : PartOf d off size part) (m : Nat) (i : Int) (x row : Nat)
    (hi : i = (win.startIdx + x) % d.nbSamples) (hm : (x : Int) + m ≤ win.nbMatches)
    (h : Held d win cnt j s) :
    wp (tracked B d) t C (Onward d) ConsGuar (windowReadLoop d size off m i row)
      (fun rows s' => rows.length = m ∧ Held d win cnt j s' ∧
        Unless d j (RowsAt part (j + x) m rows) s') s := by
  induction m generalizing i x row s with
  | zero =>
    refine wp_ret fun u hu => ⟨rfl, h.onward hu, (h.onward hu).inv, fun _ => ⟨?_, rfl⟩⟩
    have := (h.onward hu).committed
    omega
  | succ m ih =>
    push_cast at hm
    have hslot : IsSlot d.nbSamples i := hi ▸ isSlot_emod hd.size _
    have hnext : indexNext i d.nbSamples
        = (win.startIdx + ((x + 1 : Nat) : Int)) % d.nbSamples := by
      rw [indexNext_eq hd.size (by have := hslot.nonneg; omega) hslot.lt, hi, emod_add_emod]
      push_cast
      congr 1
      ring
    intro u hu _
    refine ⟨samplePtr_consGuar d i t u, fun v hv _ => ⟨read_consGuar _ _ _ t v, ?_⟩⟩
    have hheld := (h.onward hu).onward hv
    have hstep := onward_of_consGuar (d := d) (read_consGuar (B := B) (d := d) (.windowRead row)
      (toU64 (dataGetSamplePtr d i + off)) size t v)
    have hcopy := (hheld.copied hd hin hpart hi (by omega)).onward (lasting_at _) hstep
    show wp (tracked B d) t C (Onward d) ConsGuar
      (windowReadLoop d size off m (indexNext i d.nbSamples) (row + 1) >>= fun rows =>
        pure (v.1.mem.read (toU64 (dataGetSamplePtr d i + off)) size :: rows)) _ _
    refine wp_bind (onward_refl d) (wp_mono (wp_lasting (lasting_at _)
      (ih _ (x + 1) (row + 1) hnext (by push_cast; omega) (hheld.onward hstep)) hcopy) ?_)
    rintro rows w ⟨⟨hlen, hheld', hrows⟩, hrow⟩
    refine wp_ret fun z hz => ⟨congrArg Nat.succ hlen, hheld'.onward hz, ?_⟩
    refine Unless.onward (RowsAt.lasting _ _ _ _) ⟨hheld'.inv, fun hkept => ?_⟩ hz
    obtain ⟨hle, hrest⟩ := hrows.2 hkept
    obtain ⟨c, hc, hbytes⟩ := hrow.2 hkept
    refine ⟨by omega, ?_⟩
    rw [commitsFrom_succ hc, ← hbytes]
    exact congrArg _ hrest

/-- `shd_window_read`. -/
theorem wp_windowRead (hd : SoundDesc d) {off : Int} {size : Nat} (hin : InSample d off size)
    {part : Commit → List UInt8} (hpart : PartOf d off size part) (h : Held d win cnt j s) :
    wp (tracked B d) t C (Onward d) ConsGuar (windowRead win d size off)
      (fun rows s' => rows.length = win.nbMatches.toNat ∧ Held d win cnt j s' ∧
        Unless d j (RowsAt part j win.nbMatches.toNat rows) s') s := by
  have hslot : IsSlot d.nbSamples win.startIdx := by
    rw [h.start]
    exact isSlot_emod hd.size _
  exact wp_windowReadLoop hd hin hpart _ _ 0 0 (by rw [Nat.cast_zero, Int.add_zero, hslot.emod])
    (by have := h.pos; omega) h

/-! ## Search and snapshot -/

/-- A search that was not refused, around the last sample at the time it started. -/
def AroundLast (d : DataSectionDesc) (search : SampleSearch) (sctx : SearchCtx) (r : Int × Window) :
    Prop :=
  ∃ ref, IsSlot d.nbSamples ref ∧ (search.method = .latest → ref = sctx.tIndex) ∧
    r.2 = windowAround search d sctx ref ∧ r.1 = r.2.nbMatches

theorem windowRefIdx_latest (hd : SoundDesc d) (search : SampleSearch) {sctx : SearchCtx}
    (ht : IsSlot d.nbSamples sctx.tIndex) (hint : RefSearchHint) :
    (windowRefIdx F search d sctx hint).Ensures (StartIndex fun _ => True) (Searching 40 d)
      fun i => RefIndex d i ∧ (search.method = .latest → i = sctx.tIndex) := by
  by_cases hm : search.method = .latest
  · rw [windowRefIdx, hm]
    exact ⟨Or.inr ht, fun _ => rfl⟩
  · exact (windowRefIdx_ensures F search hd.size ht hint).mono (fun _ h => h)
      fun i hi => ⟨hi, fun hl => absurd hl hm⟩

theorem startIndex_true (o : Op) (r : o.Resp) : StartIndex (fun _ => True) o r := by
  unfold StartIndex
  split <;> trivial

/-- `shd_window_set` after `shd_search_start`. -/
theorem windowSetRest_reads (hd : SoundDesc d) (search : SampleSearch) (sctx : SearchCtx)
    (ht : IsSlot d.nbSamples sctx.tIndex) (idle : Window) (hint : RefSearchHint) :
    (windowRefIdx F search d sctx hint >>= fun refIdx =>
      if refIdx < 0 then pure (-ENOENT, idle)
      else searchEnd 40 sctx (windowAround search d sctx refIdx).startIdx d >>= fun overwritten =>
        if overwritten then pure (-EFAULT, idle)
        else getSamplePtr d (windowAround search d sctx refIdx).refIdx >>= fun _ =>
          pure ((windowAround search d sctx refIdx).nbMatches,
            windowAround search d sctx refIdx) : ShdProg (Int × Window)).Ensures Revision.Computes
      Reads fun r => r.1 < 0 ∨ AroundLast d search sctx r := by
  refine Prog.Ensures.assume (A := StartIndex fun _ => True) ?_ fun o r _ => startIndex_true o r
  refine Prog.Ensures.mono (P := Searching 40 d) ?_ (fun _ => reads_of_searching) fun _ h => h
  refine (windowRefIdx_latest hd search ht hint).bind fun ref ⟨href, hlatest⟩ => ?_
  split
  · exact Or.inl (show -ENOENT < 0 by decide)
  · rename_i hneg
    have hslot : IsSlot d.nbSamples ref := href.resolve_left hneg
    refine (searchEnd_ensures (isSlot_startIdx hd.size search _ ref)).bind fun overwritten _ => ?_
    split
    · exact Or.inl (show -EFAULT < 0 by decide)
    · exact ensures_samplePtr hslot fun p => Or.inr ⟨ref, hslot, hlatest, rfl, rfl⟩

/-- What a consumer knows of the section: it had `begun` commits at least, and one. -/
def Seen (d : DataSectionDesc) (begun : Nat) (s : World Ω × History) : Prop :=
  RingInv d (· = 0) s ∧ begun ≤ s.2.commits.length ∧ s.2.commits ≠ []

theorem Seen.onward {begun : Nat} (h : Seen d begun s) (hR : Onward d s s') : Seen d begun s' := by
  obtain ⟨hi, -, hc⟩ := hR h.1
  have hlen := hc.length_le
  have hb := h.2.1
  refine ⟨hi, by omega, fun hnil => h.2.2 ?_⟩
  rw [hnil] at hc
  exact List.prefix_nil.mp hc

/-- `shd_window_set`: the window is one around the last commit `k - 1` of the time when
the search started. -/
theorem wp_windowSet (hd : SoundDesc d) {begun : Nat} (h : Seen d begun s) (window : Window)
    (search : SampleSearch) (hint : RefSearchHint) :
    wp (tracked B d) t C (Onward d) ConsGuar (windowSet F window 40 search d hint)
      (fun r s' => (r.1 < 0 ∨ ∃ (k : Nat) (sctx : SearchCtx), begun ≤ k ∧ k ≤ s'.2.commits.length ∧
        sctx.tIndex = ((k : Int) - 1) % d.nbSamples ∧ AroundLast d search sctx r) ∧
        RingInv d (· = 0) s') s := by
  intro u hu _
  have hseen := h.onward hu
  have hindex : decI32 (u.1.mem.read (40 + offsetofWriteIndex) 4)
      = ((u.2.commits.length : Int) - 1) % d.nbSamples := hseen.1.ring.index_last hseen.2.2
  refine ⟨read_consGuar _ _ _ t u, fun v hv _ => ⟨samplePtr_consGuar _ _ t v, fun w hw _ =>
    ⟨read_consGuar _ _ _ t w, ?_⟩⟩⟩
  have hk : u.2.commits.length ≤ w.2.commits.length := by
    obtain ⟨hi, -, hc⟩ := hv hseen.1
    exact hc.length_le.trans (hw hi).2.2.length_le
  have hslot : IsSlot d.nbSamples (decI32 (u.1.mem.read (40 + offsetofWriteIndex) 4)) := by
    rw [hindex]
    exact isSlot_emod hd.size _
  have hrest := windowSetRest_reads (F := F) hd search
    ⟨decI32 (u.1.mem.read (40 + offsetofWriteIndex) 4),
      decI32 (w.1.mem.read (nbWritesPtr (dataGetSamplePtr d
        (decI32 (u.1.mem.read (40 + offsetofWriteIndex) 4)))) 4)⟩ hslot
    (windowReset window).2 hint
  refine wp_mono (wp_reads (I := fun x => RingInv d (· = 0) x ∧
    u.2.commits.length ≤ x.2.commits.length) ?_ hrest ⟨?_, hk⟩) ?_
  · rintro a b ⟨hi, hle⟩ hR
    obtain ⟨hi', -, hc⟩ := hR hi
    exact ⟨hi', hle.trans hc.length_le⟩
  · exact (((hseen.onward hv).onward hw).onward
      (onward_of_consGuar (step_consGuar (B := B) (o := .read .getNbWrites _ 4) trivial t w))).1
  · rintro r x ⟨hr | hr, hi, hle⟩
    · exact ⟨Or.inl hr, hi⟩
    · exact ⟨Or.inr ⟨_, _, hseen.2.1, hle, hindex, hr⟩, hi⟩

/-- What a snapshot tells about the window: where the reference sample is, and how old
the samples are. -/
structure Found (d : DataSectionDesc) (begun : Nat) (search : SampleSearch) (win : Window)
    (j : Nat) : Prop where
  ref : ∃ x : Nat, toI32 (intervalBetween win.startIdx win.refIdx d.nbSamples) = x ∧
    (x : Int) < win.nbMatches ∧ (search.method = .latest → begun ≤ j + x + 1)
  retained : (begun : Int) ≤ j + d.nbSamples
  single : Single search → win.refIdx = win.startIdx ∧ win.nbMatches = 1

/-- A window whose samples are in place when the snapshot is taken. The last sample of the
time of the search is its reference sample only if it is not older. -/
theorem found_of_intact (hd : SoundDesc d) {begun k : Nat} {search : SampleSearch}
    (hfit : Fits d.nbSamples search) {sctx : SearchCtx} {r : Int × Window} (hbegun : begun ≤ k)
    (hk : k ≤ s.2.commits.length) (ht : sctx.tIndex = ((k : Int) - 1) % d.nbSamples)
    (hr : AroundLast d search sctx r) (hret : 0 ≤ r.1) (hinv : RingInv d (· = 0) s)
    (hj : IntactAt d r.2 s.2 j) : Found d begun search r.2 j ∧ 0 < r.2.nbMatches := by
  obtain ⟨ref, href, hlatest, hwin, hnb⟩ := hr
  obtain ⟨hstart, hcommitted, hkept⟩ := hj
  have hN := hd.size
  have hslot : IsSlot d.nbSamples sctx.tIndex := by
    rw [ht]
    exact isSlot_emod hN _
  have haround := around_windowAround d hN hfit hslot href
  rw [← hwin] at haround
  have hmatches := haround.nbMatches_eq hN (by omega)
  obtain ⟨hb0, hb1, -⟩ := nbBefore_bounds hN.pos sctx.tIndex ref search
  obtain ⟨ha0, -, -⟩ := nbAfter_bounds hN.pos sctx.tIndex ref search
  have hglt := gap_lt hN.pos (sctx.tIndex + 1) ref
  have hsmall := hN.small
  have hphase := hinv.phase
  have hplace : intervalBetween r.2.startIdx r.2.refIdx d.nbSamples
      = nbBefore d.nbSamples sctx.tIndex ref search := by
    rw [haround.start, haround.refIdx]
    exact intervalBetween_ref hN href sctx.tIndex search
  refine ⟨⟨⟨(nbBefore d.nbSamples sctx.tIndex ref search).toNat, ?_, by omega, fun hm => ?_⟩,
    by omega, fun hone => ?_⟩, by omega⟩
  · rw [hplace, toI32_of_bounds hb0 (by omega), Int.toNat_of_nonneg hb0]
  · -- the row of the reference sample holds commit `k - 1` or a later one
    have hmod : ((j : Int) + nbBefore d.nbSamples sctx.tIndex ref search) % d.nbSamples
        = ((k : Int) - 1) % d.nbSamples := by
      rw [← emod_add_emod, ← hstart, haround.start, emod_add_emod, Int.sub_add_cancel, href.emod,
        hlatest hm, ht]
    by_contra hlt
    exact emod_ne_of_lt (N := d.nbSamples) (by omega) (by omega) hmod
  · rw [hwin, windowAround_single d hN hone hslot href]
    exact ⟨rfl, rfl⟩

/-- `shd_data_find`. -/
theorem wp_dataFind (hd : SoundDesc d) (hC : ∀ o s, C t o s → IntactSnapshots d t o s)
    (hctx : CtxFor d ctx) {begun : Nat} (hinv : RingInv d (· = 0) s)
    (hbegun : begun ≤ s.2.commits.length) {search : SampleSearch}
    (hcount : search.nbValuesAfterDate.toNat + search.nbValuesBeforeDate.toNat + 1 < 4294967296) :
    wp (tracked B d) t C (Onward d) ConsGuar (dataFind F ctx search)
      (fun r s' => CtxFor d r.2 ∧ RingInv d (· = 0) s' ∧ (r.1 < 0 ∨
        r.1 = r.2.window.nbMatches ∧ ∃ j, Held d r.2.window r.2.syncCtx.nbWrites j s' ∧
          Found d begun search r.2.window j)) s := by
  rw [dataFind, hctx.sync, hctx.desc]
  intro u hu _
  refine ⟨read_consGuar _ _ _ t u, ?_⟩
  have hinv' := (hu hinv).1
  have hbegun' := hbegun.trans (hu hinv).2.2.length_le
  have hown := onward_of_consGuar (d := d) (read_consGuar (B := B) (d := d) .dataFind 44 4 t u)
  have hfail : ∀ e : Int, 0 < e → wp (tracked B d) t C (Onward d) ConsGuar
      (pure (-e, ctx) : ShdProg (Int × ShdCtx))
      (fun r s' => CtxFor d r.2 ∧ RingInv d (· = 0) s' ∧ (r.1 < 0 ∨
        r.1 = r.2.window.nbMatches ∧ ∃ j, Held d r.2.window r.2.syncCtx.nbWrites j s' ∧
          Found d begun search r.2.window j))
      ((tracked B d).step t (.read .dataFind 44 4) u).1 := fun e he =>
    wp_ret fun v hv => ⟨hctx, (hv (hown hinv').1).1, Or.inl (show -e < 0 by omega)⟩
  show wp (tracked B d) t C (Onward d) ConsGuar
    (if u.1.mem.i32 44 = -1 then pure (-EAGAIN, ctx) else _) _ _
  by_cases hempty : u.1.mem.i32 44 = -1
  · rw [if_pos hempty]
    exact hfail EAGAIN (by decide)
  rw [if_neg hempty]
  by_cases hlarge : d.nbSamples <
      toU32 ((search.nbValuesAfterDate.toNat : Int) + search.nbValuesBeforeDate.toNat + 1)
  · rw [if_pos hlarge]
    exact hfail EINVAL (by decide)
  rw [if_neg hlarge]
  have hfit : Fits d.nbSamples search := by
    rw [toU32_of_bounds (by omega) (by omega)] at hlarge
    unfold Fits
    omega
  have hne : u.2.commits ≠ [] := by
    intro hnil
    have hindex := hinv'.ring.index
    rw [if_pos hnil] at hindex
    exact hempty hindex
  refine wp_bind (onward_refl d) (wp_mono
    (wp_windowSet hd (Seen.onward ⟨hinv', hbegun', hne⟩ hown) ctx.window search ctx.hint) ?_)
  rintro r v ⟨hr, hv⟩
  dsimp only
  have hctx' : CtxFor d { ctx with window := r.2, desc := d } := ⟨rfl, hctx.sync⟩
  by_cases hneg : r.1 < 0
  · rw [if_pos hneg]
    exact wp_ret fun x hx => ⟨hctx', (hx hv).1, Or.inl hneg⟩
  rw [if_neg hneg]
  obtain ⟨k, sctx, hbk, hk, ht, har⟩ := hr.resolve_left hneg
  have hret : r.1 = r.2.nbMatches := by
    obtain ⟨_, _, _, _, h⟩ := har
    exact h
  intro x hx _
  refine ⟨samplePtr_consGuar _ _ t x, fun y hy hsnap => ⟨read_consGuar _ _ _ t y, ?_⟩⟩
  have hix := (hx hv).1
  have hiy := (hy hix).1
  obtain ⟨j, hj⟩ := (hC _ _ hsnap).intact _ rfl
  have hky := hk.trans ((hx hv).2.2.length_le.trans (hy hix).2.2.length_le)
  obtain ⟨hfound, hpos⟩ := found_of_intact hd hfit hbk hky ht har (by omega) hiy hj
  have hheld := held_of_intact hd hiy hpos hj
  have hslot : IsSlot d.nbSamples r.2.startIdx := by
    rw [hheld.start]
    exact isSlot_emod hd.size _
  have hptr : dataGetSamplePtr d r.2.startIdx = slot d r.2.startIdx := dataGetSamplePtr_eq hd hslot
  refine wp_ret fun z hz => ⟨⟨rfl, hctx.sync⟩, ?_, Or.inr ⟨rfl, j, ?_, hfound⟩⟩
  · exact (hz (onward_of_consGuar (read_consGuar (B := B) (d := d) _ _ _ t y) hiy).1).1
  · refine Held.onward ?_ hz
    refine Held.onward ?_ (onward_of_consGuar (read_consGuar (B := B) (d := d) _ _ _ t y))
    show Held d r.2 (y.1.mem.i32 (nbWritesPtr (dataGetSamplePtr d r.2.startIdx))) j y
    rw [hptr, nbWritesPtr_slot hd hslot]
    exact hheld

end Shdata.Readers
