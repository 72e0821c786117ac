/-
Shdata.Consumer.Requests — requests for more samples than the ring has.

`shd_data_find` compares `before + after + 1` with the number of slots, and
computes the sum in `uint32_t`. A request that exceeds the ring is refused as
long as its sum does not wrap to one that fits (`request_iff`). A request
that fits gets a window of at most as many slots as it asks for, in the
order of the ring.
-/
import Shdata.Consumer.AtRest

namespace Shdata.Consumer

open Shdata.Conc Shdata.Bytes Shdata.Core Shdata.Ring Shdata.Layout Shdata.Trace Shdata.Producer
  Shdata.Solo

variable {Ω : Type} {B : Backend Ω} {d : DataSectionDesc} {s : World Ω × History} {F : Futils}
  {search : SampleSearch} {ctx : ShdCtx}

/-! ## Requests -/

/-- The number of samples that a search asks for, as an exact sum. -/
def requested (search : SampleSearch) : Int :=
  (search.nbValuesAfterDate.toNat : Int) + search.nbValuesBeforeDate.toNat + 1

theorem fits_iff (N : Int) (search : SampleSearch) : Fits N search ↔ requested search ≤ N := by
  unfold Fits requested
  omega

/-- A window of the ring, no larger than the request. -/
structure WindowSound (N : Int) (search : SampleSearch) (w : Window) : Prop where
  start : IsSlot N w.startIdx
  ref : IsSlot N w.refIdx
  stop : IsSlot N w.endIdx
  inOrder : gap N w.startIdx w.refIdx ≤ gap N w.startIdx w.endIdx
  pos : 1 ≤ w.nbMatches
  le : w.nbMatches ≤ requested search

/-- The window that a request gets when it fits. -/
theorem windowSound_around (hN : RingSize d.nbSamples) (hfit : Fits d.nbSamples search)
    {sctx : SearchCtx} (ht : IsSlot d.nbSamples sctx.tIndex) {ref : Int}
    (href : IsSlot d.nbSamples ref) (h0 : 0 ≤ (windowAround search d sctx ref).nbMatches) :
    WindowSound d.nbSamples search (windowAround search d sctx ref) := by
  have haround := around_windowAround d hN hfit ht href
  have hstop := endIdx_windowAround d hN hfit ht href
  have hnb := haround.nbMatches_eq hN h0
  obtain ⟨hb0, hb1, hb2⟩ := nbBefore_bounds hN.pos sctx.tIndex ref search
  obtain ⟨ha0, ha1, ha2⟩ := nbAfter_bounds hN.pos sctx.tIndex ref search
  have hsum := gap_succ_add_gap hN.pos sctx.tIndex ref
  -- both ends are less than one turn after the start
  have hgap : ∀ x, 0 ≤ x → x ≤ nbAfter d.nbSamples sctx.tIndex ref search →
      gap d.nbSamples (windowAround search d sctx ref).startIdx (ref + x)
        = nbBefore d.nbSamples sctx.tIndex ref search + x := by
    intro x hx0 hx1
    rw [haround.start, gap_emod_left]
    unfold gap
    rw [show ref + x - (ref - nbBefore d.nbSamples sctx.tIndex ref search)
      = nbBefore d.nbSamples sctx.tIndex ref search + x by ring]
    exact Int.emod_eq_of_lt (by omega) (by omega)
  have href0 := hgap 0 (le_refl 0) ha0
  rw [Int.add_zero, Int.add_zero] at href0
  refine ⟨isSlot_startIdx hN _ _ _, haround.refIdx ▸ href, isSlot_endIdx hN _ _ _, ?_, by omega, ?_⟩
  · rw [haround.refIdx, hstop, gap_emod_right, href0, hgap _ ha0 (le_refl _)]
    omega
  · rw [hnb]
    unfold requested
    omega

/-! ## Selections at rest -/

/-- The search for the reference sample at rest: it changes nothing, and the index is
negative or that of a slot. -/
theorem exec_windowRefIdx (hd : SoundDesc d) {w : World Ω} {u : Nat}
    (ht : IsSlot d.nbSamples (writeIndex w.mem)) (hint : RefSearchHint) :
    ∃ ref, exec (machine B) u (windowRefIdx F search d (searchCtx d w.mem) hint) w = (ref, w) ∧
      (ref < 0 ∨ IsSlot d.nbSamples ref) := by
  have hens : (windowRefIdx F search d (searchCtx d w.mem) hint).Ensures
      (StartIndex (· = writeIndex w.mem)) (Searching 40 d) (RefIndex d) :=
    windowRefIdx_ensures F search hd.size ht hint
  obtain ⟨href, hsame⟩ := exec_searching (B := B) (t := u) hens
  exact ⟨_, Prod.ext rfl hsame, href⟩

/-- What `shd_data_find` answers at rest to a request that it does not refuse. -/
theorem exec_dataFind_accepted (h : AtRest B d s) (hd : SoundDesc d) (hctx : CtxFor d ctx)
    (haccept : ¬ d.nbSamples < toU32 (requested search)) (u : Nat) :
    ∃ r, exec (machine B) u (dataFind F ctx search) s.1 = (r, s.1) ∧
      (r.1 = -ENOENT ∨ r.1 = -2147483648 ∨
        (0 ≤ r.1 ∧ ∃ ref, IsSlot d.nbSamples ref ∧ r.1 = r.2.window.nbMatches ∧
          r.2 = foundCtx d s.1.mem ctx (windowAround search d (searchCtx d s.1.mem) ref))) := by
  have ht := h.isSlot_index hd
  have hne : writeIndex s.1.mem ≠ -1 := by
    have := ht.nonneg
    omega
  have hlast : exec (machine B) u (syncGetLastWriteIndex .dataFind 40) s.1
      = (writeIndex s.1.mem, s.1) := rfl
  obtain ⟨ref, href, hslot⟩ := exec_windowRefIdx (B := B) (F := F) (u := u) hd ht
    ctx.hint
  have hset := exec_windowSet_atRest hd ht ctx.window search ctx.hint href
  obtain rfl := hctx.desc
  have hsize : ¬ ctx.desc.nbSamples <
      toU32 ((search.nbValuesAfterDate.toNat : Int) + search.nbValuesBeforeDate.toNat + 1) := haccept
  rcases hslot with hneg | hslot
  · rw [if_pos hneg] at hset
    refine ⟨(-ENOENT, missedCtx ctx), ?_, Or.inl rfl⟩
    rw [dataFind, hctx.sync, exec_bind, hlast, if_neg hne, if_neg hsize, exec_bind, hset]
    rfl
  rw [if_neg (not_lt.mpr hslot.nonneg)] at hset
  obtain ⟨win, hwin⟩ : ∃ win, windowAround search ctx.desc (searchCtx ctx.desc s.1.mem) ref = win :=
    ⟨_, rfl⟩
  have hstart : IsSlot ctx.desc.nbSamples win.startIdx := hwin ▸ isSlot_startIdx hd.size _ _ _
  have hstop : IsSlot ctx.desc.nbSamples win.endIdx := hwin ▸ isSlot_endIdx hd.size _ _ _
  have hnb : win.nbMatches = toI32 (1 + gap ctx.desc.nbSamples win.startIdx win.endIdx) := by
    rw [← intervalBetween_eq hd.size hstart hstop, ← hwin]
    rfl
  rw [hwin] at hset
  by_cases h0 : 0 ≤ win.nbMatches
  · exact ⟨_, exec_dataFind_found hd F hctx hne hsize hset h0 hstart,
      Or.inr (Or.inr ⟨h0, ref, hslot, rfl, by rw [hwin]⟩)⟩
  · -- only a window of 2^31 slots has a negative count
    refine ⟨(win.nbMatches, { ctx with window := win }), ?_, Or.inr (Or.inl ?_)⟩
    · rw [dataFind, hctx.sync, exec_bind, hlast, if_neg hne, if_neg hsize, exec_bind, hset]
      dsimp only
      rw [if_pos (not_le.mp h0)]
      rfl
    · have hgap := isSlot_gap hd.size win.startIdx win.endIdx
      have hg0 := hgap.nonneg
      have hg1 := hgap.lt
      have hsmall := hd.size.small
      show win.nbMatches = _
      rw [hnb] at h0 ⊢
      unfold toI32 at *
      omega

/-- The code of `shd_select_samples` at rest for such a request, and its window. -/
theorem exec_selectSamples_accepted (h : AtRest B d s) (hd : SoundDesc d) (hctx : CtxFor d ctx)
    (haccept : ¬ d.nbSamples < toU32 (requested search)) {u : Nat} {result : SearchResult}
    {sel : Selection} {w' : World Ω}
    (hex : exec (machine B) u (selectSamples F ctx search result) s.1 = (sel, w')) :
    sel.ret = -ENOENT ∨ sel.ret = -2147483648 ∨ sel.ret = -ENOMEM ∨
      (sel.ret = 0 ∧ ∃ ref, IsSlot d.nbSamples ref ∧ 0 ≤ sel.ctx.window.nbMatches ∧
        sel.ctx.window = windowAround search d (searchCtx d s.1.mem) ref) := by
  obtain ⟨r, hfind, hcase⟩ := exec_dataFind_accepted (F := F) h hd hctx haccept u
  rw [selectSamples, exec_bind, hfind] at hex
  by_cases hneg : r.1 < 0
  · rw [if_pos hneg] at hex
    obtain ⟨rfl, -⟩ := Prod.ext_iff.mp hex
    rcases hcase with hno | hmax | ⟨h0, -⟩
    · exact Or.inl hno
    · exact Or.inr (Or.inl hmax)
    · exact absurd hneg (not_lt.mpr h0)
  obtain ⟨h0, ref, hslot, hmatch, hr⟩ : 0 ≤ r.1 ∧ ∃ ref, IsSlot d.nbSamples ref ∧
      r.1 = r.2.window.nbMatches ∧
        r.2 = foundCtx d s.1.mem ctx (windowAround search d (searchCtx d s.1.mem) ref) := by
    rcases hcase with hno | hmax | hfound
    · exact absurd hneg (by rw [hno]; decide)
    · exact absurd hneg (by rw [hmax]; decide)
    · exact hfound
  have hwin : r.2.window = windowAround search d (searchCtx d s.1.mem) ref := by rw [hr]; rfl
  have hstart : IsSlot d.nbSamples r.2.window.startIdx := hwin ▸ isSlot_startIdx hd.size _ _ _
  have hrefIdx : r.2.window.refIdx = ref := by rw [hwin]; rfl
  have hfor : CtxFor d r.2 := by
    rw [hr]
    exact ⟨hctx.desc, hctx.sync⟩
  rw [if_neg hneg, exec_bind] at hex
  obtain ⟨m, w₁, hm, -, hread⟩ := exec_dataReadMetadata (B := B) (t := u) (w := s.1) hd hfor hstart
  rw [hm] at hex
  rcases hread with ⟨hoom, -⟩ | ⟨p, rfl⟩
  · rw [if_pos (by rw [hoom]; decide)] at hex
    obtain ⟨rfl, -⟩ := Prod.ext_iff.mp hex
    exact Or.inr (Or.inr (Or.inl hoom))
  · have hidx : toI32 (intervalBetween r.2.window.startIdx r.2.window.refIdx d.nbSamples)
        = gap d.nbSamples r.2.window.startIdx r.2.window.refIdx := by
      rw [intervalBetween_eq hd.size hstart (hrefIdx ▸ hslot), toI32_gap hd.size]
    have hnn := gap_nonneg hd.size.pos r.2.window.startIdx r.2.window.refIdx
    rw [if_neg (show ¬ toI32 (intervalBetween r.2.window.startIdx r.2.window.refIdx d.nbSamples) < 0
      by omega)] at hex
    obtain ⟨rfl, -⟩ := Prod.ext_iff.mp hex
    exact Or.inr (Or.inr (Or.inr ⟨rfl, ref, hslot, hmatch ▸ h0, hwin⟩))

/-- **When oversized requests are refused.** At rest a request for more samples
than the ring has is answered `-EINVAL`, and a selection that succeeds has a
sound window, if and only if the exact sum fits the ring or the wrapped one
does not. -/
theorem request_iff (B : Backend Ω) (hd : SoundDesc d) (h : AtRest B d s) (F : Futils)
    (hctx : CtxFor d ctx) (search : SampleSearch) (u : Nat) (result : SearchResult)
    {sel : Selection} {w' : World Ω}
    (hsel : exec (machine B) u (selectSamples F ctx search result) s.1 = (sel, w')) :
    ((d.nbSamples < requested search → sel.ret = -EINVAL) ∧
        (sel.ret = 0 → WindowSound d.nbSamples search sel.ctx.window)) ↔
      requested search ≤ d.nbSamples ∨ d.nbSamples < toU32 (requested search) := by
  have ht := h.isSlot_index hd
  by_cases hrefuse : d.nbSamples < toU32 (requested search)
  · -- refused, whatever the exact sum is
    have hne : writeIndex s.1.mem ≠ -1 := by
      have := ht.nonneg
      omega
    have hlast : exec (machine B) u (syncGetLastWriteIndex .dataFind 40) s.1
        = (writeIndex s.1.mem, s.1) := rfl
    obtain rfl := hctx.desc
    have hsize : ctx.desc.nbSamples <
        toU32 ((search.nbValuesAfterDate.toNat : Int) + search.nbValuesBeforeDate.toNat + 1) := hrefuse
    have hret : sel.ret = -EINVAL := by
      rw [selectSamples, exec_bind, dataFind, hctx.sync, exec_bind, hlast, if_neg hne,
        if_pos hsize] at hsel
      exact (congrArg (fun p => p.1.ret) hsel).symm
    refine iff_of_true ⟨fun _ => hret, fun h0 => ?_⟩ (Or.inr hrefuse)
    rw [hret] at h0
    exact absurd h0 (by decide)
  · have hcode := exec_selectSamples_accepted h hd hctx hrefuse hsel
    have hcodes : sel.ret ≠ -EINVAL := by
      rcases hcode with hc | hc | hc | ⟨hc, -⟩ <;> rw [hc] <;> decide
    constructor
    · intro hP
      by_contra hno
      rw [not_or] at hno
      exact hcodes (hP.1 (not_le.mp hno.1))
    · intro hQ
      have hle := hQ.resolve_right hrefuse
      refine ⟨fun hgt => absurd hle (not_le.mpr hgt), fun h0 => ?_⟩
      rcases hcode with hc | hc | hc | ⟨-, ref, hslot, hnn, hwin⟩
      · exact absurd (hc.symm.trans h0) (by decide)
      · exact absurd (hc.symm.trans h0) (by decide)
      · exact absurd (hc.symm.trans h0) (by decide)
      · rw [hwin] at hnn ⊢
        exact windowSound_around hd.size ((fits_iff _ _).mpr hle) ht hslot hnn

/-- A full ring of 4 slots and a request for 2 samples. -/
theorem request_iff_four :
    (selectLatest 4 1).1.ret = 0 ∧ WindowSound 4 (latest 1) (selectLatest 4 1).1.ctx.window := by
  have hf : FitsHdr ⟨4, 4, 1, 0⟩ := ⟨⟨by decide, by decide⟩, by decide⟩
  have hctx : CtxFor ⟨56, 4, 4⟩ (reader 4) := ⟨by decide +kernel, by decide +kernel⟩
  have hrest := atRest_partlyFilled 4 (by decide) (by decide +kernel) (by decide +kernel)
  have hret : (selectLatest 4 1).1.ret = 0 := by decide +kernel
  exact ⟨hret, ((request_iff shm (soundDesc_of_fits hf) hrest libfutils hctx (latest 1) 1 ⟨0, 0⟩
    (Prod.ext rfl rfl)).mpr (Or.inl (by decide))).2 hret⟩

/-- `before = 2^32 - 1` makes the sum wrap to 0: the request is accepted. -/
theorem request_accepted :
    ¬ ((4 < requested (latest 4294967295) → (selectLatest 4 4294967295).1.ret = -EINVAL) ∧
      ((selectLatest 4 4294967295).1.ret = 0 →
        WindowSound 4 (latest 4294967295) (selectLatest 4 4294967295).1.ctx.window)) := by
  intro h
  have hret := h.1 (by decide)
  have hzero : (selectLatest 4 4294967295).1.ret = 0 := by decide +kernel
  exact absurd (hzero.symm.trans hret) (by decide)

end Shdata.Consumer
