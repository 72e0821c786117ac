/-
Shdata.Consumer.Torn — reads that meet a write.

A producer and a consumer run in parallel, one operation at a time. The
consumer makes one session: a selection, any reads, and `shd_end_read`. When
the producer was not yet in the window at the snapshot (`Ahead`), an end of
read that returns 0 means that no row was torn: `untorn_of_ahead`.

The snapshot comes after the last look that the search takes at the write
index. A write that starts in between bumps the counter before it is read,
so the comparison of `shd_end_read` cannot see it: `torn_unseen`.
-/
import Shdata.Consumer.Addressed
import Shdata.Consumer.Reading

namespace Shdata.Consumer

open Shdata.Conc Shdata.Bytes Shdata.Core Shdata.Ring Shdata.Layout Shdata.Trace Shdata.Producer
  Shdata.Solo

variable {Ω : Type} {B : Backend Ω} {d : DataSectionDesc} {F : Futils}
  {C : Nat → Op → World Ω × History → Prop} {ranges : List (Int × Nat)} {win : Window} {n : Int}
  {k : Nat} {ctx : ShdCtx} {s s' : World Ω × History}

/-! ## The condition -/

/-- The snapshot is taken ahead of the producer, and when the counter is compared the
first slot of the window was reserved fewer than 2^32 times since. -/
def SessionOk (d : DataSectionDesc) : Op → World Ω × History → Prop
  | .read (.startReadSession win) _ _, s => Ahead d win s.2
  | .read .endReadSession _ _, s =>
    (s.2.reserved.drop s.2.reservedAt).count (slot d s.2.window.startIdx) < 4294967296
  | _, _ => True

/-! ## Between two calls -/

/-- Between two calls of a session: there is no selection, or one whose snapshot was
taken ahead of the producer. -/
def Between (d : DataSectionDesc) (ranges : List (Int × Nat)) (ctx : ShdCtx)
    (s : World Ω × History) : Prop :=
  CtxFor d ctx ∧ ((ctx.window.nbMatches < 0 ∧ Unread d s) ∨
    ∃ k, InReading d ranges ctx.window ctx.syncCtx.nbWrites k s)

theorem Between.stable (h : Between d ranges ctx s) (hR : ConsRely d s s') :
    Between d ranges ctx s' := by
  obtain ⟨hctx, ⟨hidle, hbefore⟩ | ⟨k, hin⟩⟩ := h
  · exact ⟨hctx, Or.inl ⟨hidle, hbefore.stable hR⟩⟩
  · exact ⟨hctx, Or.inr ⟨k, hin.stable hR⟩⟩

/-! ## The search -/

/-- The search of a section with a commit starts from one of its slots. -/
theorem startIndex_isSlot (hd : SoundDesc d) (hinv : RingInv d (· = 0) s)
    (hne : s.2.commits ≠ []) {o : Op} (ho : Searching 40 d o) :
    StartIndex (IsSlot d.nbSamples) o ((machine B).step 1 o s.1).2 := by
  have hstart := startIndex_searching (B := B) (t := 1) ho s.1
  cases o with
  | read site a len =>
    cases site with
    | searchStart =>
      show IsSlot d.nbSamples (decI32 _)
      rw [show decI32 _ = writeIndex s.1.mem from hstart]
      exact hinv.ring.isSlot_index hd hne
    | _ => trivial
  | _ => trivial

/-- `shd_window_set` in a section with a commit. -/
theorem wp_windowSet (hd : SoundDesc d) (h : Unread d s) (hne : s.2.commits ≠ [])
    (window : Window) (search : SampleSearch) (hint : RefSearchHint) :
    wp (tracked B d) 1 C (ConsRely d) ConsGuar (windowSet F window 40 search d hint)
      (fun r s' => ((r.1 < 0 ∧ r.2 = (windowReset window).2) ∨
        WindowSet (IsSlot d.nbSamples) d search r) ∧ Unread d s' ∧ s'.2.commits ≠ []) s := by
  refine wp_invariant (I := fun v => Unread d v ∧ v.2.commits ≠ []) ?_ ?_
    (windowSet_ensures F search hd.size (fun _ hi => hi) window hint) ⟨h, hne⟩
  · rintro a b ⟨ha, hnea⟩ hR
    refine ⟨ha.stable hR, fun hnil => hnea ?_⟩
    have hp := (hR ha.inv).2.commits
    rw [hnil] at hp
    exact List.prefix_nil.mp hp
  · rintro o u ho ⟨hu, hneu⟩ -
    obtain ⟨hm, hh⟩ := step_still (B := B) (d := d) (still_of_searching ho) 1 u
    exact ⟨⟨hm, by rw [hh]; exact ⟨rfl, rfl, rfl, rfl⟩⟩, ⟨hu.congr hm hh, by rw [hh]; exact hneu⟩,
      startIndex_isSlot hd hu.inv hneu ho⟩

/-- The snapshot, ahead of the producer. -/
theorem inReading_snapshot (h : Unread d s) (hstart : IsSlot d.nbSamples win.startIdx)
    (hahead : Ahead d win s.2) :
    InReading d ranges win (nbWrites d s.1.mem win.startIdx) s.2.commits.length
      (s.1, { s.2 with window := win, reservedAt := s.2.reserved.length, copies := [] }) where
  inv := h.inv.congr rfl ⟨rfl, rfl, rfl, rfl⟩
  window := rfl
  start := hstart
  snapshot := h.inv.ring.counts _ hstart
  since := by
    have hphase := h.inv.phase
    dsimp only
    omega
  filled := hahead.filled
  committed := le_refl _
  ahead := hahead.ahead
  copies := fun cp hcp => absurd hcp (by simp)

/-- A load that takes no snapshot and copies no row. -/
theorem wp_load32 {α : Type} (site : Site) (a : Int) {f : Int → ShdProg α}
    {Q : α → World Ω × History → Prop} (hsite : Unrecorded site)
    (hf : ∀ u, ConsRely d s u →
      wp (tracked B d) 1 C (ConsRely d) ConsGuar (f (u.1.mem.i32 a)) Q u) :
    wp (tracked B d) 1 C (ConsRely d) ConsGuar (load32 site a >>= f) Q s := by
  intro u hu _
  have hsame : ((tracked B d).step 1 (.read site a 4) u).1 = u :=
    Prod.ext rfl (track_read d 1 hsite a 4 u.1 _ u.2)
  rw [hsame]
  exact ⟨⟨rfl, rfl, rfl, rfl, rfl⟩, hf u hu⟩

/-- `shd_data_find`: it fails, or the session has its snapshot. -/
theorem wp_dataFind (ranges : List (Int × Nat)) (hd : SoundDesc d)
    (hC : ∀ o s, C 1 o s → SessionOk d o s) (hctx : CtxFor d ctx) (hidle : ctx.window.nbMatches < 0) (h : Unread d s)
    (search : SampleSearch) :
    wp (tracked B d) 1 C (ConsRely d) ConsGuar (dataFind F ctx search)
      (fun r s' => CtxFor d r.2 ∧ ((r.1 < 0 ∧ r.2.window.nbMatches < 0 ∧ Unread d s') ∨
        (0 ≤ r.2.window.nbMatches ∧ 0 ≤ r.1 ∧
          (Single search → r.2.window.refIdx = r.2.window.startIdx) ∧
          ∃ k, InReading d ranges r.2.window r.2.syncCtx.nbWrites k s'))) s := by
  rw [dataFind, hctx.sync, hctx.desc]
  refine wp_load32 .dataFind 44 trivial fun u hu => ?_
  have hbefore := h.stable hu
  by_cases hempty : u.1.mem.i32 44 = -1
  · rw [if_pos hempty]
    refine wp_ret fun v hv => ⟨hctx, Or.inl ⟨?_, hidle, hbefore.stable hv⟩⟩
    exact show -EAGAIN < 0 by decide
  rw [if_neg hempty]
  by_cases hlarge : d.nbSamples <
      toU32 ((search.nbValuesAfterDate.toNat : Int) + search.nbValuesBeforeDate.toNat + 1)
  · rw [if_pos hlarge]
    refine wp_ret fun v hv => ⟨hctx, Or.inl ⟨?_, hidle, hbefore.stable hv⟩⟩
    exact show -EINVAL < 0 by decide
  rw [if_neg hlarge]
  have hne : u.2.commits ≠ [] := by
    intro hnil
    have hindex := hbefore.inv.ring.index
    rw [if_pos hnil] at hindex
    exact hempty hindex
  refine wp_bind (consRely_refl d) (wp_mono (wp_windowSet hd hbefore hne _ search _) ?_)
  rintro r v ⟨hset, hv, -⟩
  dsimp only
  have hctx' : CtxFor d { ctx with window := r.2, desc := d } := ⟨rfl, hctx.sync⟩
  by_cases hneg : r.1 < 0
  · rw [if_pos hneg]
    refine wp_ret fun x hx => ⟨hctx', Or.inl ⟨hneg, ?_, hv.stable hx⟩⟩
    rcases hset with ⟨-, hreset⟩ | ⟨sctx, ref, -, -, -, hret⟩
    · show r.2.nbMatches < 0
      rw [hreset, windowReset, if_pos hidle]
      exact hidle
    · show r.2.nbMatches < 0
      omega
  rw [if_neg hneg]
  obtain ⟨sctx, ref, ht, href, hwin, hret⟩ := hset.resolve_left fun hx => hneg hx.1
  have hstart : IsSlot d.nbSamples r.2.startIdx := by
    rw [hwin]
    exact isSlot_startIdx hd.size search sctx ref
  intro x hx _
  refine ⟨⟨rfl, rfl, rfl, rfl, rfl⟩, fun y hy hsnap => ⟨⟨rfl, rfl, rfl, rfl, rfl⟩, ?_⟩⟩
  have hin : InReading d ranges r.2 _ _ _ :=
    inReading_snapshot ((hv.stable hx).stable hy) hstart (hC _ _ hsnap)
  have hptr : dataGetSamplePtr d r.2.startIdx = slot d r.2.startIdx := dataGetSamplePtr_eq hd hstart
  have hnb : 0 ≤ r.2.nbMatches := by omega
  refine wp_ret fun z hz => ⟨⟨rfl, hctx.sync⟩, Or.inr ⟨hnb, hnb, fun hone => ?_,
    y.2.commits.length, ?_⟩⟩
  · show r.2.refIdx = r.2.startIdx
    rw [hwin, windowAround_single d hd.size hone ht href]
  · refine InReading.stable ?_ hz
    show InReading d ranges r.2 (y.1.mem.i32 (nbWritesPtr (dataGetSamplePtr d r.2.startIdx))) _ _
    rw [hptr, nbWritesPtr_slot hd hstart]
    exact hin

/-! ## Calls -/

/-- The call that opens a session. -/
inductive Selecting where
  | select (search : SampleSearch)
  | readFrom (search : SampleSearch) (quantity : List Quantity) (sizes : List Nat)

def Selecting.call : Selecting → ConsCall
  | .select search => .select search
  | .readFrom search quantity sizes => .readFrom search quantity sizes

/-- What the call copies from each sample. -/
def Selecting.asked (d : DataSectionDesc) : Selecting → List (Int × Nat)
  | .select _ => [(0, sizeofMetadata)]
  | .readFrom _ quantity sizes =>
    (0, sizeofMetadata) :: ((if quantity.length > 0 then quantity
      else [{ quantityOffset := 0, quantitySize := d.blobSize.toNat }]).zip sizes).map
        fun q => (q.1.quantityOffset + 40, q.2)

/-- A session of a consumer: a selection, any reads, and the end of the read. -/
structure ReadSession where
  selecting : Selecting
  reads : List (Option Quantity × Nat)
  rev : Int

/-- The reads and the end of a session. -/
def ReadSession.rest (r : ReadSession) : List ConsCall :=
  (r.reads.map fun q => .read q.1 q.2) ++ [.endRead r.rev]

def ReadSession.calls (r : ReadSession) : List ConsCall := r.selecting.call :: r.rest

/-- What the session copies from each sample. -/
def ReadSession.asked (d : DataSectionDesc) (r : ReadSession) : List (Int × Nat) :=
  r.selecting.asked d ++ r.reads.map fun q => readRange d q.1

/-- A selection by either call. -/
theorem wp_selecting (hd : SoundDesc d) (hC : ∀ o s, C 1 o s → SessionOk d o s)
    (hctx : CtxFor d ctx) (hidle : ctx.window.nbMatches < 0) (h : Unread d s) (sel : Selecting)
    (hranges : ∀ r ∈ sel.asked d, r ∈ ranges) :
    wp (tracked B d) 1 C (ConsRely d) ConsGuar (consCall F ctx sel.call)
      (fun r s' => Between d ranges r.2 s') s := by
  cases sel with
  | select search =>
    have hmeta : ((0 : Int), sizeofMetadata) ∈ ranges := hranges _ (by simp [Selecting.asked])
    refine wp_bind (consRely_refl d) (wp_bind (consRely_refl d)
      (wp_mono (wp_dataFind ranges hd hC hctx hidle h search) ?_))
    rintro r u ⟨hctx', ⟨hneg, hnb, hu⟩ | ⟨hnb, hge, -, k, hin⟩⟩
    · rw [if_pos hneg]
      exact wp_ret fun v hv => wp_ret fun x hx =>
        ⟨hctx', Or.inl ⟨hnb, (hu.stable hv).stable hx⟩⟩
    rw [if_neg (not_lt.mpr hge)]
    refine wp_bind (consRely_refl d) (wp_mono (wp_copying hd
      (dataReadMetadata_copyOp hd hctx'.desc hin.start hnb hmeta) hin) ?_)
    rintro m v ⟨⟨hdesc, hmap, hwindow, hsync⟩, hv⟩
    have hbetween : ∀ x, ConsRely d v x → Between d ranges m.2.2 x := fun x hx =>
      ⟨⟨hdesc.trans hctx'.desc, by rw [hmap]; exact hctx'.sync⟩,
        Or.inr ⟨k, by rw [hwindow, hsync]; exact hv.stable hx⟩⟩
    dsimp only
    split
    · exact wp_ret fun x hx => wp_ret fun y hy => hbetween y (consRely_trans hx hy)
    · exact wp_ret fun x hx => wp_ret fun y hy => hbetween y (consRely_trans hx hy)
  | readFrom search quantity sizes =>
    refine wp_bind (consRely_refl d) ?_
    unfold readFromSample
    split
    · exact wp_ret fun v hv => wp_ret fun x hx =>
        ⟨hctx, Or.inl ⟨hidle, (h.stable hv).stable hx⟩⟩
    rename_i hsingle
    refine wp_bind (consRely_refl d) (wp_mono (wp_dataFind ranges hd hC hctx hidle h search) ?_)
    rintro r u ⟨hctx', ⟨hneg, hnb, hu⟩ | ⟨hnb, hge, hone, k, hin⟩⟩
    · rw [if_pos hneg]
      exact wp_ret fun v hv => wp_ret fun x hx =>
        ⟨hctx', Or.inl ⟨hnb, (hu.stable hv).stable hx⟩⟩
    rw [if_neg (not_lt.mpr hge)]
    have hrefIdx := hone ⟨by omega, by omega⟩
    refine wp_bind (consRely_refl d) (wp_mono (wp_copying hd
      (dataReadQuantitySample_copyOp hd hctx'.desc hin.start hrefIdx _ ?_ ?_) hin) ?_)
    · exact hranges _ List.mem_cons_self
    · intro q hq
      rw [hctx'.desc] at hq
      exact hranges _ (List.mem_cons_of_mem _ (List.mem_map_of_mem hq))
    · rintro q v ⟨-, hv⟩
      exact wp_ret fun x hx => wp_ret fun y hy =>
        ⟨hctx', Or.inr ⟨k, (hv.stable hx).stable hy⟩⟩

/-- A read. -/
theorem wp_read (hd : SoundDesc d) (h : Between d ranges ctx s) (quantity : Option Quantity)
    (dst : Nat) (hrange : readRange d quantity ∈ ranges) :
    wp (tracked B d) 1 C (ConsRely d) ConsGuar (consCall F ctx (.read quantity dst))
      (fun r s' => Between d ranges r.2 s') s := by
  obtain ⟨hctx, ⟨hidle, hu⟩ | ⟨k, hin⟩⟩ := h
  · rw [consCall, readQuantity_idle hidle]
    exact wp_ret fun v hv => ⟨hctx, Or.inl ⟨hidle, hu.stable hv⟩⟩
  · refine wp_bind (consRely_refl d) (wp_mono (wp_copying hd
      (readQuantity_copyOp hd hctx.desc hin.start quantity dst hrange) hin) ?_)
    exact fun r u hu => wp_ret fun v hv => ⟨hctx, Or.inr ⟨k, hu.2.stable hv⟩⟩

/-! ## The end of a read -/

/-- The call returned `ret`, and a 0 means that no row was torn. -/
def Ended (d : DataSectionDesc) (ranges : List (Int × Nat)) (ret : Int)
    (s : World Ω × History) : Prop :=
  RingInv d (· = 0) s ∧ (ret = 0 → Untorn d ranges s.2)

theorem Ended.stable {ret : Int} (h : Ended d ranges ret s) (hR : ConsRely d s s') :
    Ended d ranges ret s' := by
  obtain ⟨hinv, hg⟩ := hR h.1
  exact ⟨hinv, fun h0 => (h.2 h0).grows hg⟩

/-- A part of the end of a read that decides nothing about the rows. -/
theorem wp_ended {α : Type} {p : ShdProg α} {Q : α → Prop} {ret : Int}
    (hp : p.Ensures (fun _ _ => True) Still Q) (h : Ended d ranges ret s) :
    wp (tracked B d) 1 C (ConsRely d) ConsGuar p (fun a s' => Q a ∧ Ended d ranges ret s') s :=
  wp_still (fun _ _ h hR => h.stable hR) (fun _ _ h hm hh =>
    ⟨h.1.congr hm (by rw [hh]; exact ⟨rfl, rfl, rfl, rfl⟩), fun h0 => by rw [hh]; exact h.2 h0⟩) hp h

/-- The comparison of the counter. -/
theorem wp_syncEndReadSession (hd : SoundDesc d) (hC : ∀ o s, C 1 o s → SessionOk d o s)
    {sync : SyncCtx} (h : InReading d ranges win sync.nbWrites k s) :
    wp (tracked B d) 1 C (ConsRely d) ConsGuar (syncEndReadSession sync (slot d win.startIdx))
      (fun r s' => (r.1 = -EFAULT ∨ r.1 = 0) ∧ Ended d ranges r.1 s') s := by
  rw [syncEndReadSession, nbWritesPtr_slot hd h.start]
  intro u hu hc
  have hin := h.stable hu
  have hfew := hC _ _ hc
  rw [SessionOk, hin.window] at hfew
  refine ⟨⟨rfl, rfl, rfl, rfl, rfl⟩, ?_⟩
  show wp (tracked B d) 1 C (ConsRely d) ConsGuar
    (if sync.nbWrites ≠ nbWrites d u.1.mem win.startIdx then
        pure (-EFAULT, { sync with nbWrites := -1 })
      else pure (0, { sync with nbWrites := -1 })) _ u
  by_cases heq : sync.nbWrites = nbWrites d u.1.mem win.startIdx
  · rw [if_neg (not_not.mpr heq)]
    have hended : Ended d ranges 0 u :=
      ⟨hin.inv, fun _ => hin.untorn hd (hin.not_lapped hd hfew heq)⟩
    exact wp_ret fun v hv => ⟨Or.inr rfl, hended.stable hv⟩
  · rw [if_pos heq]
    have hended : Ended d ranges (-EFAULT) u :=
      ⟨hin.inv, fun h0 => absurd h0 (by decide)⟩
    exact wp_ret fun v hv => ⟨Or.inl rfl, hended.stable hv⟩

theorem syncCheckRevisionNb_still (rev syncTop : Int) :
    (syncCheckRevisionNb rev syncTop).Ensures (fun _ _ => True) Still fun _ => True := by
  refine ensures_load32 trivial fun bs _ => ?_
  split <;> exact trivial

theorem dataCheckValidity_still (ctx : ShdCtx) (rev : Int) :
    (dataCheckValidity ctx rev).Ensures (fun _ _ => True) Still fun _ => True := by
  unfold dataCheckValidity
  split
  · refine Prog.ensures_perform trivial fun p _ => ?_
    refine Prog.Ensures.bind (Q := fun _ => True) ?_ fun r _ => ?_
    · refine ensures_load32 trivial fun bs _ => ?_
      split <;> exact trivial
    · dsimp only
      split
      · exact trivial
      · exact (syncCheckRevisionNb_still _ _).bind fun _ _ => trivial
  · exact trivial

/-- What `shd_end_read` does after the check only frees memory. -/
theorem endReadRest_still (r : Int × ShdCtx) :
    (if r.1 < 0 then
      (if r.1 = -ENODEV then dataEndRead r.2 >>= fun e => pure (r.1, e.2) else pure r)
      else dataEndRead r.2 : ShdProg (Int × ShdCtx)).Ensures (fun _ _ => True) Still
        fun _ => True := by
  have hend : (dataEndRead r.2).Ensures (fun _ _ => True) Still fun _ => True :=
    ⟨trivial, fun _ _ => trivial⟩
  split
  · split
    · exact hend.bind fun _ _ => trivial
    · exact trivial
  · exact hend

/-- `shd_data_check_validity` of a session with a snapshot. -/
theorem wp_dataCheckValidity (hd : SoundDesc d) (hC : ∀ o s, C 1 o s → SessionOk d o s)
    (hctx : CtxFor d ctx) (h : InReading d ranges ctx.window ctx.syncCtx.nbWrites k s) (rev : Int) :
    wp (tracked B d) 1 C (ConsRely d) ConsGuar (dataCheckValidity ctx rev)
      (fun r s' => (r.1 = -EFAULT ∧ Ended d ranges r.1 s') ∨ Ended d ranges 0 s') s := by
  rw [dataCheckValidity, if_pos h.start.nonneg, hctx.desc]
  intro u hu _
  refine ⟨⟨rfl, rfl, rfl, rfl, rfl⟩, ?_⟩
  show wp (tracked B d) 1 C (ConsRely d) ConsGuar
    (syncEndReadSession ctx.syncCtx (dataGetSamplePtr d ctx.window.startIdx) >>= _) _ u
  rw [dataGetSamplePtr_eq hd h.start]
  refine wp_bind (consRely_refl d) (wp_mono (wp_syncEndReadSession hd hC (h.stable hu)) ?_)
  rintro r v ⟨hret | hret, hended⟩
  · dsimp only
    rw [hret] at hended ⊢
    rw [if_pos (show -EFAULT < 0 by decide)]
    exact wp_ret fun x hx => Or.inl ⟨rfl, hended.stable hx⟩
  · dsimp only
    rw [hret] at hended ⊢
    rw [if_neg (show ¬ (0 : Int) < 0 by decide)]
    refine wp_bind (consRely_refl d)
      (wp_mono (wp_ended (syncCheckRevisionNb_still rev ctx.sectMmap.syncTop) hended) ?_)
    exact fun ret x hx => wp_ret fun y hy => Or.inr (hx.2.stable hy)

/-- `shd_end_read`. -/
theorem wp_endRead (hd : SoundDesc d) (hC : ∀ o s, C 1 o s → SessionOk d o s)
    (h : Between d ranges ctx s) (rev : Int) :
    wp (tracked B d) 1 C (ConsRely d) ConsGuar (Core.endRead ctx rev)
      (fun r s' => Ended d ranges r.1 s') s := by
  obtain ⟨hctx, ⟨hidle, hu⟩ | ⟨k, hin⟩⟩ := h
  · -- nothing was copied
    have hended : Ended d ranges 0 s := by
      refine ⟨hu.inv, fun _ row => ⟨⟨0, 0, [], []⟩, fun cp hcp => absurd hcp ?_⟩⟩
      rw [hu.copies]
      exact List.not_mem_nil
    exact wp_mono (wp_ended ((dataCheckValidity_still ctx rev).bind
      fun r _ => endReadRest_still r) hended) fun r v hv => ⟨hv.2.1, fun _ => hv.2.2 rfl⟩
  · refine wp_bind (consRely_refl d) (wp_mono (wp_dataCheckValidity hd hC hctx hin rev) ?_)
    rintro r u (⟨hret, hended⟩ | hended)
    · rw [hret, if_pos (show -EFAULT < 0 by decide),
        if_neg (show ¬ -EFAULT = -ENODEV by decide)]
      exact wp_ret fun v hv => hended.stable hv
    · exact wp_mono (wp_ended (endReadRest_still r) hended) fun r v hv =>
        ⟨hv.2.1, fun _ => hv.2.2 rfl⟩

/-! ## A session -/

/-- The reads and the end of a session. -/
theorem wp_rest (hd : SoundDesc d) (hC : ∀ o s, C 1 o s → SessionOk d o s) (rev : Int)
    (reads : List (Option Quantity × Nat)) (hranges : ∀ q ∈ reads, readRange d q.1 ∈ ranges)
    (h : Between d ranges ctx s) :
    wp (tracked B d) 1 C (ConsRely d) ConsGuar
      (consCalls F ((reads.map fun q => .read q.1 q.2) ++ [.endRead rev]) ctx)
      (fun r s' => ∃ ret, r.1.getLast? = some ret ∧ Ended d ranges ret s') s := by
  induction reads generalizing ctx s with
  | nil =>
    refine wp_bind (consRely_refl d) (wp_mono (wp_endRead hd hC h rev) ?_)
    rintro r u hended
    refine wp_bind (consRely_refl d) (wp_ret fun v hv => wp_ret fun x hx => ⟨r.1, rfl, ?_⟩)
    exact (hended.stable hv).stable hx
  | cons q reads ih =>
    refine wp_bind (consRely_refl d)
      (wp_mono (wp_read hd h q.1 q.2 (hranges q List.mem_cons_self)) ?_)
    rintro r u hbetween
    refine wp_bind (consRely_refl d) (wp_mono
      (ih (fun q' hq' => hranges q' (List.mem_cons_of_mem _ hq')) hbetween) ?_)
    rintro rs v ⟨ret, hlast, hended⟩
    refine wp_ret fun x hx => ⟨ret, ?_, hended.stable hx⟩
    show (r.1 :: rs.1).getLast? = some ret
    rw [List.getLast?_cons, hlast, Option.getD_some]

/-- A whole session: its last call returns 0 only if no row was torn. -/
theorem wp_session (hd : SoundDesc d) (hC : ∀ o s, C 1 o s → SessionOk d o s)
    (hctx : CtxFor d ctx) (hidle : ctx.window.nbMatches < 0) (h : Unread d s) (r : ReadSession) :
    wp (tracked B d) 1 C (ConsRely d) ConsGuar (consCalls F r.calls ctx)
      (fun x s' => ∃ ret, x.1.getLast? = some ret ∧ Ended d (r.asked d) ret s') s := by
  have hasked : ∀ q ∈ r.selecting.asked d, q ∈ r.asked d := fun q => List.mem_append_left _
  have hreads : ∀ q ∈ r.reads, readRange d q.1 ∈ r.asked d := fun q hq =>
    List.mem_append_right _ (List.mem_map_of_mem hq)
  refine wp_bind (consRely_refl d) (wp_mono (wp_selecting hd hC hctx hidle h r.selecting hasked) ?_)
  rintro x u hbetween
  refine wp_bind (consRely_refl d) (wp_mono (wp_rest hd hC r.rev r.reads hreads hbetween) ?_)
  rintro xs v ⟨ret, hlast, hended⟩
  refine wp_ret fun y hy => ⟨ret, ?_, hended.stable hy⟩
  show (x.1 :: xs.1).getLast? = some ret
  rw [List.getLast?_cons, hlast, Option.getD_some]

/-! ## A producer and a consumer -/

/-- Thread 0 makes the calls of a producer on a section that was just created, thread 1
one session of a consumer. -/
def producerConsumer (w : World Ω) (p : ShdCtx) (calls : List ProdCall) (F : Futils) (c : ShdCtx)
    (r : ReadSession) : Config Op.Resp Nat (World Ω × History) (List Int × ShdCtx) where
  st := (w, History.init)
  pool := fun
    | 0 => prodCalls calls p
    | 1 => consCalls F r.calls c
    | _ => .ret ([], default)

/-- What the two rely on. -/
def PairRely (d : DataSectionDesc) : Nat → World Ω × History → World Ω × History → Prop
  | 0 => ProdRely d (· = 0) 0
  | 1 => ConsRely d
  | _ => fun _ _ => True

/-- What the two guarantee. -/
def PairGuar (d : DataSectionDesc) : Nat → Op → World Ω × History → World Ω × History → Prop
  | 0 => ProdGuar d (· = 0) 0
  | 1 => ConsGuar
  | _ => fun _ _ _ => False

/-- The last call of the session returns 0 only if no row was torn. -/
def PairPost (d : DataSectionDesc) (r : ReadSession) :
    Nat → List Int × ShdCtx → World Ω × History → Prop
  | 1 => fun x s => ∃ ret, x.1.getLast? = some ret ∧ Ended d (r.asked d) ret s
  | _ => fun _ _ => True

theorem pairRely_refl (d : DataSectionDesc) (t : Nat) (s : World Ω × History) :
    PairRely d t s s := by
  match t with
  | 0 => exact prodRely_refl d _ 0 s
  | 1 => exact consRely_refl d s
  | _ + 2 => exact trivial

theorem pairRely_trans {a b e : World Ω × History} (t : Nat) (h : PairRely d t a b)
    (h' : PairRely d t b e) : PairRely d t a e := by
  match t with
  | 0 => exact prodRely_trans h h'
  | 1 => exact consRely_trans h h'
  | _ + 2 => exact trivial

/-- A step of one is no interference to the other. -/
theorem pairGuar_rely {t u : Nat} (hne : t ≠ u) {o : Op} (h : PairGuar d t o s s') :
    PairRely d u s s' := by
  match t, u with
  | 0, 0 => exact absurd rfl hne
  | 0, 1 => exact fun hi => ⟨(h hi).inv, (h hi).grows⟩
  | 1, 0 => exact ConsGuar.prodRely h 0
  | 1, 1 => exact absurd rfl hne
  | _, _ + 2 => exact trivial
  | _ + 2, _ => exact absurd h id

/-- The condition on the steps of the consumer. -/
def SnapshotAhead (d : DataSectionDesc) (t : Nat) (o : Op) (s : World Ω × History) : Prop :=
  t = 1 → SessionOk d o s

/-- The producer and the consumer, composed in parallel. -/
theorem pair_safe (B : Backend Ω) (hd : SoundDesc d) {w : World Ω} (hw : Cleared d w.mem)
    {p : ShdCtx} (hp : Fresh d p) {calls : List ProdCall} (hcalls : ∀ c ∈ calls, c.InBounds d)
    (F : Futils) {c : ShdCtx} (hc : CtxFor d c) (hidle : c.window.nbMatches < 0) (r : ReadSession) :
    Pool.Safe (tracked B d) (SnapshotAhead d) (PairRely d) (PairGuar d) (PairPost d r)
      (producerConsumer w p calls F c r) where
  trans := fun t _ _ _ => pairRely_trans t
  compat := fun _ _ hne _ _ _ => pairGuar_rely hne
  threads
    | 0 => by
      have hset : Setting d (· = 0) (SnapshotAhead d) 0
          (ProdRely d (· = 0) 0 : World Ω × History → World Ω × History → Prop) :=
        ⟨hd, rfl, fun _ _ hi _ u hu hwr => absurd (hi.allowed u hwr) hu, fun _ _ h => h,
          prodRely_refl d _ 0⟩
      exact wp_mono (wp_prodCalls hset calls hcalls (own_init (· = 0) 0 hw hp)) fun _ _ _ => trivial
    | 1 => wp_session hd (fun _ _ h => h rfl) hc hidle ⟨ringInv_init _ hw, rfl⟩ r
    | _ + 2 => wp_ret fun _ _ => trivial

/-- What the last call of the session returned, once it is over. -/
def endReadRet (c : Config Op.Resp Nat (World Ω × History) (List Int × ShdCtx)) : Option Int :=
  match c.pool 1 with
  | .ret x => x.1.getLast?
  | .op _ _ => none

/-- **What `shd_end_read` detects.** A producer makes any calls and a consumer one
session, one operation at a time in any order. In a run that takes its snapshot ahead of
the producer, a session whose `shd_end_read` returned 0 copied each of its rows from
one sample, and that sample was committed when it was copied. -/
theorem untorn_of_ahead (B : Backend Ω) (hd : SoundDesc d) {w : World Ω} (hw : Cleared d w.mem)
    {p : ShdCtx} (hp : Fresh d p) {calls : List ProdCall} (hcalls : ∀ c ∈ calls, c.InBounds d)
    (F : Futils) {c : ShdCtx} (hc : CtxFor d c) (hidle : c.window.nbMatches < 0) (r : ReadSession)
    (ts : List Nat)
    (hok : (producerConsumer w p calls F c r).Meets (tracked B d) (SnapshotAhead d) ts)
    (hend : endReadRet ((producerConsumer w p calls F c r).run (tracked B d) ts) = some 0) :
    Untorn d (r.asked d) ((producerConsumer w p calls F c r).run (tracked B d) ts).st.2 := by
  have hsafe := (pair_safe B hd hw hp hcalls F hc hidle r).run (pairRely_refl d) ts hok
  unfold endReadRet at hend
  cases hpool : ((producerConsumer w p calls F c r).run (tracked B d) ts).pool 1 with
  | op o k => rw [hpool] at hend; exact absurd hend (by simp)
  | ret x =>
  rw [hpool] at hend
  obtain ⟨ret, hlast, hended⟩ := hsafe.post (pairRely_refl d) hpool
  rw [show x.1.getLast? = some 0 from hend] at hlast
  obtain rfl := Option.some.inj hlast
  exact hended.2 rfl

instance (d : DataSectionDesc) (win : Window) (h : History) : Decidable (Ahead d win h) :=
  decidable_of_iff (d.nbSamples ≤ h.commits.length ∧ ∀ x < win.nbMatches.toNat,
      (win.startIdx + x) % d.nbSamples = (h.commits.length : Int) % d.nbSamples →
        x = 0 ∧ h.reserved.length = h.commits.length)
    ⟨fun h => ⟨h.1, fun x hx => h.2 x (by omega)⟩,
      fun h => ⟨h.filled, fun x hx => h.ahead x (by omega)⟩⟩

instance (d : DataSectionDesc) (t : Nat) (o : Op) (s : World Ω × History) :
    Decidable (SnapshotAhead d t o s) := by
  unfold SnapshotAhead SessionOk
  split <;> infer_instance

/-- Two slots. The producer writes three blobs and the consumer selects the last two
and reads them. -/
def threeBlobs : Config Op.Resp Nat (World Shm × History) (List Int × ShdCtx) :=
  producerConsumer (created 2).2 ((created 2).1.getD default)
    [.writeNewBlob [1, 2, 3, 4] 4 ⟨⟨1, 0⟩, ⟨1, 0⟩⟩, .writeNewBlob [5, 6, 7, 8] 4 ⟨⟨2, 0⟩, ⟨2, 0⟩⟩,
      .writeNewBlob [9, 10, 11, 12] 4 ⟨⟨3, 0⟩, ⟨3, 0⟩⟩]
    libfutils ((created 2).1.getD default) ⟨.select ⟨⟨0, 0⟩, .latest, 1, 0⟩, [(none, 8)], 2⟩

/-- After two blobs the consumer takes `n` steps, then the producer `m`, and then the
consumer ends its session. -/
def interleaved (n m : Nat) : Config Op.Resp Nat (World Shm × History) (List Int × ShdCtx) :=
  threeBlobs.run (tracked shm ⟨56, 4, 2⟩)
    (List.replicate 22 0 ++ List.replicate n 1 ++ List.replicate m 0 ++ List.replicate (23 - n) 1)

/-- The third write starts after the snapshot, and reserves no slot before the end. -/
theorem untorn_of_ahead_threeBlobs :
    Untorn ⟨56, 4, 2⟩ [(0, 32), (40, 4)] (interleaved 10 3).st.2 := by
  have hf : FitsHdr ⟨4, 2, 1, 0⟩ := ⟨⟨by decide, by decide⟩, by decide⟩
  obtain ⟨hw, hp⟩ := created_fresh hf (by decide +kernel)
  refine untorn_of_ahead shm (soundDesc_of_fits hf) hw hp (fun c hc => ?_) libfutils hp.ctxFor
    (by decide +kernel) ⟨.select ⟨⟨0, 0⟩, .latest, 1, 0⟩, [(none, 8)], 2⟩ _ (by decide +kernel)
    (by decide +kernel)
  obtain rfl | rfl | rfl : c = _ ∨ c = _ ∨ c = _ := by simpa using hc
  all_goals exact show (4 : Int) ≤ 4 by decide

/-- The third write starts after the search and before the snapshot. The consumer copies
its metadata with the blob of the first, and `shd_end_read` returns 0. -/
theorem torn_unseen :
    (threeBlobs.run (tracked shm ⟨56, 4, 2⟩) (List.replicate 22 0)).st.2.commits.length = 2 ∧
    endReadRet (interleaved 9 7) = some 0 ∧
    ¬ Untorn ⟨56, 4, 2⟩ [(0, 32), (40, 4)] (interleaved 9 7).st.2 := by
  refine ⟨by decide +kernel, by decide +kernel, fun h => ?_⟩
  obtain ⟨c, hc⟩ := h 0
  have hcopy : (⟨0, 56, encMetadata ⟨⟨3, 0⟩, ⟨3, 0⟩⟩, 2⟩ : Copy)
      ∈ (interleaved 9 7).st.2.copies := by decide +kernel
  have hcommits : ∀ c ∈ (interleaved 9 7).st.2.commits.take 2, ∃ v ∈ [1, 2],
      sampleByte c (56 + ((0 : Nat) : Int) - slot ⟨56, 4, 2⟩
        (((interleaved 9 7).st.2.window.startIdx + ((0 : Nat) : Int)) % 2)) = some v := by
    decide +kernel
  obtain ⟨hmem, hof⟩ := hc _ hcopy rfl
  obtain ⟨v, hv, hbyte⟩ := hcommits c hmem
  have hget : some (3 : UInt8) = some v := hof.bytes 0 v (by decide) hbyte
  rw [← Option.some.inj hget] at hv
  exact absurd hv (by decide)

end Shdata.Consumer
