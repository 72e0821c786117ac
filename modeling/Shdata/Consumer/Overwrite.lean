/-
Shdata.Consumer.Overwrite — when a session that started between two writes is
told that its samples were overwritten.

`shd_end_read` compares one counter, that of the first slot of the window,
with its value at the selection. The producer reserves the slots in the
order of the ring, starting with the one after the last commit, and the
window lies in that order on the ring (`window_inOrder`). So the first slot
is reserved before any other slot of the window is, for any number of laps.

A session is a run of whole calls: the producer and the consumer take turns
in any order. The invariant of the run is `InSession`.
-/
import Shdata.Consumer.Session
import Shdata.Solo.Create

namespace Shdata.Consumer

open Shdata.Conc Shdata.Bytes Shdata.Core Shdata.Ring Shdata.Layout Shdata.Trace Shdata.Producer
  Shdata.Solo

variable {Ω : Type} {B : Backend Ω} {d : DataSectionDesc}

/-! ## Sessions -/

/-- A selection by either call that succeeded: its context, its metadata rows and
the world after it. -/
inductive Selects (B : Backend Ω) (F : Futils) (search : SampleSearch) (ctx : ShdCtx) (w : World Ω) :
    ShdCtx → (Nat → SampleMetadata → Prop) → World Ω → Prop where
  | select {result : SearchResult} {s : Selection} {w' : World Ω} :
      exec (machine B) 1 (selectSamples F ctx search result) w = (s, w') → s.ret = 0 →
      Selects B F search ctx w s.ctx (fun x md => s.metadata[x]? = some md) w'
  | readFrom {quantity : List Quantity} {sizes : List Nat} {s : SampleRead} {w' : World Ω} :
      exec (machine B) 1 (readFromSample F ctx search quantity sizes) w = (s, w') → 0 ≤ s.ret →
      Selects B F search ctx w s.ctx (fun x md => x = 0 ∧ ∃ bs, some (bs, md) ∈ s.rows) w'

/-- A call of the producer, or a read of the consumer. -/
inductive Turn where
  | produce (call : ProdCall)
  | read (quantity : Option Quantity) (dstSize : Nat)

/-- What a producer writes and a consumer reads lies inside the blob. -/
def Turn.InBounds (d : DataSectionDesc) : Turn → Prop
  | .produce call => call.InBounds d
  | .read (some q) _ => Producer.InBounds d q
  | .read none _ => True

/-- A read and what it returned. -/
structure Read where
  quantity : Option Quantity
  ret : Int
  rows : List (List UInt8)
  deriving DecidableEq

/-- The section with its history, the two contexts, and the reads so far. -/
structure Session (Ω : Type) where
  st : World Ω × History
  prod : ShdCtx
  cons : ShdCtx
  reads : List Read

/-- One call, taken as one step. -/
def turn (B : Backend Ω) (d : DataSectionDesc) (s : Session Ω) : Turn → Session Ω
  | .produce call =>
    let r := exec (tracked B d) 0 (prodCall s.prod call) s.st
    { s with st := r.2, prod := r.1.2 }
  | .read quantity dstSize =>
    let r := exec (machine B) 1 (readQuantity s.cons quantity dstSize) s.st.1
    { s with st := (r.2, s.st.2), reads := s.reads ++ [⟨quantity, r.1.1, r.1.2⟩] }

def turns (B : Backend Ω) (d : DataSectionDesc) : Session Ω → List Turn → Session Ω
  | s, [] => s
  | s, u :: us => turns B d (turn B d s u) us

/-! ## Reservations of a slot -/

/-- The reservations are those of the slots in the order of the ring. -/
def InOrder (d : DataSectionDesc) (reserved : List Int) : Prop :=
  ∀ (j : Nat) a, reserved[j]? = some a → a = slot d ((j : Int) % d.nbSamples)

/-- The laps of a slot are its reservations. -/
theorem laps_eq_count (hd : SoundDesc d) (i : Int) (reserved : List Int) (h : InOrder d reserved) :
    laps d.nbSamples i reserved.length = reserved.count (slot d i) := by
  induction reserved using List.reverseRecOn with
  | nil => rfl
  | append_singleton l a ih =>
    have hl : InOrder d l := by
      intro j b hj
      have hlt := (List.getElem?_eq_some_iff.mp hj).1
      exact h j b (by rw [List.getElem?_append_left hlt, hj])
    have ha : a = slot d ((l.length : Int) % d.nbSamples) := h l.length a (by simp)
    rw [List.length_append, List.length_singleton, List.count_append]
    by_cases hs : (l.length : Int) % d.nbSamples = i
    · subst hs
      rw [laps_succ_self, ih hl, ha]
      simp
    · have hne : a ≠ slot d i := fun he => hs (slot_inj hd (ha ▸ he))
      rw [laps_succ_of_ne hs, ih hl]
      simp [hne]

/-- A slot is among the reservations from number `r` on. -/
theorem mem_drop_iff (hd : SoundDesc d) {i : Int} {reserved : List Int} (h : InOrder d reserved)
    (r : Nat) :
    slot d i ∈ reserved.drop r ↔
      ∃ j : Nat, r ≤ j ∧ j < reserved.length ∧ (j : Int) % d.nbSamples = i := by
  rw [List.mem_iff_getElem?]
  constructor
  · rintro ⟨n, hn⟩
    rw [List.getElem?_drop] at hn
    have hlt := (List.getElem?_eq_some_iff.mp hn).1
    exact ⟨r + n, by omega, hlt, (slot_inj hd (h _ _ hn)).symm⟩
  · rintro ⟨j, hr, hlt, hj⟩
    refine ⟨j - r, ?_⟩
    rw [List.getElem?_drop, Nat.add_sub_cancel' hr, List.getElem?_eq_getElem hlt]
    rw [h j _ (List.getElem?_eq_getElem hlt), hj]

/-- Some slot of the window of `c` is among the reservations from `r` on. -/
def Overwritten (d : DataSectionDesc) (c : ShdCtx) (r : Nat) (reserved : List Int) : Prop :=
  ∃ x : Nat, (x : Int) < c.window.nbMatches ∧
    slot d ((c.window.startIdx + x) % d.nbSamples) ∈ reserved.drop r

theorem Overwritten.mono {c : ShdCtx} {r : Nat} {reserved reserved' : List Int}
    (h : Overwritten d c r reserved) (hp : reserved <+: reserved') :
    Overwritten d c r reserved' := by
  obtain ⟨x, hx, hmem⟩ := h
  exact ⟨x, hx, (hp.drop r).subset hmem⟩

/-- The first slot of the window is reserved before any other one of it. -/
theorem overwritten_iff_start (hd : SoundDesc d) {search : SampleSearch} {m : Mem} {c : ShdCtx}
    (hc : Selected d search m c) {r : Nat} (hm : gap d.nbSamples (writeIndex m + 1) c.window.startIdx
      = gap d.nbSamples r c.window.startIdx)
    {reserved : List Int} (h : InOrder d reserved) :
    Overwritten d c r reserved ↔ laps d.nbSamples c.window.startIdx r
      < laps d.nbSamples c.window.startIdx reserved.length := by
  obtain ⟨ref, href, haround⟩ := hc.around
  have hstart := hc.isSlot_start hd.size
  have hnb := haround.nbMatches_eq hd.size hc.nbMatches
  have hle := window_inOrder hd.size.pos (writeIndex m) ref search
  rw [← hnb, ← gap_emod_right, ← haround.start, hm] at hle
  obtain ⟨hb, -, -⟩ := nbBefore_bounds hd.size.pos (writeIndex m) ref search
  obtain ⟨ha, -, -⟩ := nbAfter_bounds hd.size.pos (writeIndex m) ref search
  have hwin := @window_hit_iff d.nbSamples hd.size.pos r reserved.length c.window.startIdx
    c.window.nbMatches (by omega) hle
  rw [hstart.emod] at hwin
  rw [laps_lt_iff]
  constructor
  · rintro ⟨x, hx, hmem⟩
    obtain ⟨j, h0, h1, hj⟩ := (mem_drop_iff hd h r).mp hmem
    obtain ⟨i, hi0, hi1, hi⟩ := hwin.mp ⟨x, by omega, hx, j, by omega, by omega, hj⟩
    refine ⟨i.toNat, by omega, by omega, ?_⟩
    rw [Int.toNat_of_nonneg (by omega)]
    exact hi
  · rintro ⟨j, h0, h1, hj⟩
    refine ⟨0, by simpa using (by omega : 0 < c.window.nbMatches), ?_⟩
    rw [show c.window.startIdx + ((0 : Nat) : Int) = c.window.startIdx by simp, hstart.emod]
    exact (mem_drop_iff hd h r).mpr ⟨j, h0, by omega, hj⟩

/-! ## The invariant of a session -/

/-- The rows that a read of the window returns when the bytes are those of `m`. -/
def windowRows (d : DataSectionDesc) (m : Mem) (win : Window) (off : Int) (size : Nat) :
    List (List UInt8) :=
  (List.range win.nbMatches.toNat).map (rowOf d m win.startIdx off size)

/-- A session that selected the window of `c` in the state `s₀`: as long as no slot
of the window was reserved, every read returned what the window held. -/
structure InSession (d : DataSectionDesc) (c : ShdCtx) (s₀ : World Ω × History) (s : Session Ω) :
    Prop where
  own : ∃ n, Own d (· = 0) 0 n s.prod s.st
  grows : Grows d s₀ s.st
  cons : s.cons = c
  reads : ∀ r ∈ s.reads, 0 ≤ r.ret → Overwritten d c s₀.2.reserved.length s.st.2.reserved ∨
    r.rows = windowRows d s₀.1.mem c.window (readRange d r.quantity).1 (readRange d r.quantity).2

/-- An offset range that leaves out the counter. -/
theorem rowOf_untouched (hd : SoundDesc d) {s₀ s : World Ω × History} (hg : Grows d s₀ s)
    (h : InOrder d s.2.reserved) (hidle : s₀.2.reserved.length = s₀.2.commits.length)
    {start off : Int} {size x : Nat} (hoff : InSample d off size)
    (hcnt : off + size ≤ 32 ∨ 36 ≤ off)
    (hx : slot d ((start + x) % d.nbSamples) ∉ s.2.reserved.drop s₀.2.reserved.length) :
    rowOf d s.1.mem start off size x = rowOf d s₀.1.mem start off size x := by
  have hslot := isSlot_emod hd.size (start + x)
  have h0 := hoff.nonneg
  have h1 := hoff.le
  refine Mem.read_congr fun y hy0 hy1 => hg.untouched _ hslot (fun j hj0 hj1 hj => hx ?_) y
    (by omega) (by omega) (by omega)
  exact (mem_drop_iff hd h _).mpr ⟨j, by omega, hj1, hj⟩

theorem inSample_readRange (hd : SoundDesc d) {quantity : Option Quantity} {dst : Nat}
    (hq : (Turn.read quantity dst).InBounds d) :
    InSample d (readRange d quantity).1 (readRange d quantity).2 ∧ 36 ≤ (readRange d quantity).1 := by
  have hst := hd.stride_ge
  have hblob := hd.blob
  cases quantity with
  | none => exact ⟨⟨show (0 : Int) ≤ 40 by decide, show 40 + (d.blobSize.toNat : Int) ≤ _ by omega⟩,
      show (36 : Int) ≤ 40 by decide⟩
  | some q =>
    obtain ⟨hq0, hq1⟩ : 0 ≤ q.quantityOffset ∧ q.quantityOffset + q.quantitySize ≤ d.blobSize := hq
    exact ⟨⟨show 0 ≤ 40 + q.quantityOffset by omega,
      show 40 + q.quantityOffset + (q.quantitySize : Int) ≤ _ by omega⟩,
      show 36 ≤ 40 + q.quantityOffset by omega⟩

/-- A call of either side keeps the invariant. -/
theorem inSession_turn (hd : SoundDesc d) {c : ShdCtx} {s₀ : World Ω × History} {s : Session Ω}
    (hc : c.desc = d) (hstart : IsSlot d.nbSamples c.window.startIdx)
    (hidle : s₀.2.reserved.length = s₀.2.commits.length)
    (hs : InSession d c s₀ s) (u : Turn) (hu : u.InBounds d) :
    InSession d c s₀ (turn B d s u) := by
  obtain ⟨n, hown⟩ := hs.own
  cases u with
  | produce call =>
    have hwp := wp_prodCall (B := B) (solo_setting hd 0) call hu hown
    have hown' := exec_of_wp (fun _ => rfl) (fun _ _ => trivial) hwp
    obtain ⟨-, hgrows⟩ := soloGuar_exec hwp hown.inv
    refine ⟨⟨_, hown'⟩, hs.grows.trans hgrows, hs.cons, fun r hr h0 => ?_⟩
    rcases hs.reads r hr h0 with hover | hrows
    · exact Or.inl (hover.mono hgrows.reserved)
    · exact Or.inr hrows
  | read quantity dst =>
    obtain ⟨hoff, hcnt⟩ := inSample_readRange hd hu
    obtain ⟨r, hr, hrows⟩ := exec_readQuantity (B := B) (t := 1) (w := s.st.1) hd hc hstart quantity
      hoff dst
    have hturn : turn B d s (.read quantity dst)
        = { s with reads := s.reads ++ [⟨quantity, r.1, r.2⟩] } := by
      simp only [turn, hs.cons, hr]
    rw [hturn]
    refine ⟨⟨n, hown⟩, hs.grows, hs.cons, fun e he h0 => ?_⟩
    rcases List.mem_append.mp he with he | he
    · exact hs.reads e he h0
    · obtain rfl : e = ⟨quantity, r.1, r.2⟩ := by simpa using he
      by_cases hover : Overwritten d c s₀.2.reserved.length s.st.2.reserved
      · exact Or.inl hover
      · refine Or.inr ((hrows h0).2.trans (List.map_congr_left fun x hx => ?_))
        have hlt : (x : Int) < c.window.nbMatches := by
          have := List.mem_range.mp hx
          omega
        exact rowOf_untouched hd hs.grows hown.inv.reserved hidle hoff (Or.inr hcnt)
          fun hmem => hover ⟨x, hlt, hmem⟩

theorem inSession_turns (hd : SoundDesc d) {c : ShdCtx} {s₀ : World Ω × History}
    (hc : c.desc = d) (hstart : IsSlot d.nbSamples c.window.startIdx)
    (hidle : s₀.2.reserved.length = s₀.2.commits.length) (us : List Turn)
    (hus : ∀ u ∈ us, u.InBounds d) {s : Session Ω} (hs : InSession d c s₀ s) :
    InSession d c s₀ (turns B d s us) := by
  induction us generalizing s with
  | nil => exact hs
  | cons u us ih =>
    exact ih (fun v hv => hus v (by simp [hv])) (inSession_turn hd hc hstart hidle hs u (hus u (by simp)))

/-! ## The end of a session -/

/-- The counter of the first slot moved exactly if a slot of the window was
reserved, as long as no slot is reserved 2^32 times. -/
theorem snapshot_ne_iff (hd : SoundDesc d) {search : SampleSearch} {s₀ s : World Ω × History}
    {A : Nat → Prop} (hinv₀ : RingInv d A s₀) (hinv : RingInv d A s) (hg : Grows d s₀ s)
    (hidle : s₀.2.reserved.length = s₀.2.commits.length) (hk : s₀.2.commits ≠ []) {c : ShdCtx}
    (hc : Selected d search s₀.1.mem c)
    (hfew : (s.2.reserved.drop s₀.2.reserved.length).count (slot d c.window.startIdx) < 4294967296) :
    c.syncCtx.nbWrites ≠ nbWrites d s.1.mem c.window.startIdx ↔
      Overwritten d c s₀.2.reserved.length s.2.reserved := by
  have hstart := hc.isSlot_start hd.size
  have hring := hinv₀.ring
  have hgap : gap d.nbSamples (writeIndex s₀.1.mem + 1) c.window.startIdx
      = gap d.nbSamples s₀.2.reserved.length c.window.startIdx := by
    rw [hring.index_last hk, hidle, ← gap_emod_left, emod_add_emod, gap_emod_left]
    congr 1
    ring
  rw [overwritten_iff_start hd hc hgap hinv.reserved, hc.snapshot, hring.counts _ hstart,
    hinv.ring.counts _ hstart]
  have hmono := laps_mono d.nbSamples c.window.startIdx hg.reserved.length_le
  -- the difference of the two counts is the number of reservations in between
  obtain ⟨rest, hrest⟩ := hg.reserved
  have hcount := laps_eq_count hd c.window.startIdx s.2.reserved hinv.reserved
  have hcount₀ := laps_eq_count hd c.window.startIdx s₀.2.reserved hinv₀.reserved
  rw [← hrest, List.drop_left] at hfew
  rw [← hrest, List.count_append, ← hcount₀] at hcount
  rw [hrest] at hcount
  constructor
  · intro hne
    by_contra hle
    have heq : laps d.nbSamples c.window.startIdx s₀.2.reserved.length
        = laps d.nbSamples c.window.startIdx s.2.reserved.length := by omega
    exact hne (by rw [heq])
  · intro hlt heq
    have := toI32_inj_of_lt (by omega) (by omega) heq
    omega

/-- What a selection leaves, whichever call made it. -/
theorem Selects.spec (hd : SoundDesc d) {F : Futils} {search : SampleSearch}
    (hfit : Fits d.nbSamples search) {ctx : ShdCtx} (hctx : CtxFor d ctx) {w w' : World Ω}
    (hw : writeIndex w.mem = -1 ∨ IsSlot d.nbSamples (writeIndex w.mem)) {c : ShdCtx}
    {isMeta : Nat → SampleMetadata → Prop} (h : Selects B F search ctx w c isMeta w') :
    w'.mem = w.mem ∧ Selected d search w.mem c ∧
      ∀ x md, isMeta x md → (x : Int) < c.window.nbMatches ∧
        md = decMetadata (rowOf d w.mem c.window.startIdx 0 sizeofMetadata x) := by
  cases h with
  | select hex hret =>
    obtain ⟨hmem, hsel, -, -, hmeta⟩ := exec_selectSamples hd F hfit hctx hw _ hex hret
    refine ⟨hmem, hsel, fun x md hx => ?_⟩
    rw [hmeta, List.getElem?_map, Option.map_eq_some_iff] at hx
    obtain ⟨y, hy, rfl⟩ := hx
    obtain ⟨hlt, rfl⟩ := List.getElem?_eq_some_iff.mp hy
    rw [List.getElem_range]
    rw [List.length_range] at hlt
    exact ⟨by omega, rfl⟩
  | readFrom hex hret =>
    obtain ⟨hmem, hsel, hone, hmeta⟩ := exec_readFromSample hd F hfit hctx hw _ _ hex hret
    refine ⟨hmem, hsel, fun x md hx => ?_⟩
    obtain ⟨rfl, bs, hbs⟩ := hx
    exact ⟨by rw [hone]; decide, hmeta bs md hbs⟩

/-- **Overwrite detection is exact.** The only producer of a section makes any
calls; while it is in no session a consumer selects a window; then both go
on in any order. `shd_end_read` returns `-EFAULT` exactly if a slot of the
window was reserved since the selection. Otherwise it returns 0 and every
row read is, like its metadata row, what its slot held at the selection. -/
theorem endRead_exact (B : Backend Ω) (hd : SoundDesc d) {w₀ : World Ω} (hw₀ : Cleared d w₀.mem)
    {p₀ : ShdCtx} (hp₀ : Fresh d p₀) (cs : List ProdCall) (hcs : ∀ call ∈ cs, call.InBounds d)
    {rets : List Int} {p : ShdCtx} {s₀ : World Ω × History}
    (hs₀ : exec (tracked B d) 0 (prodCalls cs p₀) (w₀, History.init) = ((rets, p), s₀))
    (hquiet : s₀.2.writing 0 = false) (F : Futils) {ctx : ShdCtx} (hctx : CtxFor d ctx)
    {search : SampleSearch} (hfit : Fits d.nbSamples search) {c : ShdCtx}
    {isMeta : Nat → SampleMetadata → Prop} {w : World Ω}
    (hsel : Selects B F search ctx s₀.1 c isMeta w) (us : List Turn)
    (hus : ∀ u ∈ us, u.InBounds d) {s : Session Ω}
    (hs : turns B d ⟨(w, s₀.2), p, c, []⟩ us = s)
    (hfew : ∀ i, IsSlot d.nbSamples i →
      (s.st.2.reserved.drop s₀.2.reserved.length).count (slot d i) < 4294967296)
    {rev : Int} (hrev : rev = nbCreations s₀.1.mem) :
    ((exec (machine B) 1 (endRead s.cons rev) s.st.1).1.1 = -EFAULT ↔
      Overwritten d c s₀.2.reserved.length s.st.2.reserved) ∧
    ((exec (machine B) 1 (endRead s.cons rev) s.st.1).1.1 ≠ -EFAULT →
      (exec (machine B) 1 (endRead s.cons rev) s.st.1).1.1 = 0 ∧
      ∀ r ∈ s.reads, 0 ≤ r.ret → r.rows = windowRows d s₀.1.mem c.window
        (readRange d r.quantity).1 (readRange d r.quantity).2) ∧
    ∀ x md, isMeta x md → (x : Int) < c.window.nbMatches ∧
      md = decMetadata (rowOf d s₀.1.mem c.window.startIdx 0 sizeofMetadata x) := by
  -- the producer is idle when the selection is made
  have hwp := wp_prodCalls (B := B) (solo_setting hd 0) cs hcs (own_init (· = 0) 0 hw₀ hp₀)
  have hown := exec_of_wp (fun _ => rfl) (fun _ _ => trivial) hwp
  rw [hs₀, Nat.zero_add] at hown
  have hidle : Idle d (· = 0) 0 (committed cs rets) p s₀ := by
    rcases hown with hidle | ⟨f, hpend⟩
    · exact hidle
    · exact absurd hpend.writing (by rw [hquiet]; decide)
  have hinv₀ := hidle.inv
  have hnone : ∀ t, s₀.2.writing t = false := by
    intro t
    by_contra ht
    have ht0 : t = 0 := hinv₀.allowed t (by simpa using ht)
    exact ht (ht0 ▸ hquiet)
  have hlevel := (hinv₀.idle hnone).2
  have hwi : writeIndex s₀.1.mem = -1 ∨ IsSlot d.nbSamples (writeIndex s₀.1.mem) := by
    by_cases hk : s₀.2.commits = []
    · exact Or.inl (by simpa [hk] using hinv₀.ring.index)
    · exact Or.inr (hinv₀.ring.isSlot_index hd hk)
  obtain ⟨hmem, hselected, hmeta⟩ := hsel.spec hd hfit hctx hwi
  have hstart := hselected.isSlot_start hd.size
  -- the selection changes no byte and no history
  have hinv : RingInv d (· = 0) (w, s₀.2) := hinv₀.congr hmem ⟨rfl, rfl, rfl, rfl⟩
  have hinit : InSession d c (w, s₀.2) ⟨(w, s₀.2), p, c, []⟩ :=
    ⟨⟨_, Or.inl ⟨hidle.ctxFor, hinv, hquiet, hidle.index, hidle.count⟩⟩, Grows.refl d _, rfl,
      fun r hr => absurd hr (by simp)⟩
  have hrun := inSession_turns (B := B) hd hselected.ctxFor.desc hstart
    (show (w, s₀.2).2.reserved.length = (w, s₀.2).2.commits.length from hlevel) us hus hinit
  rw [hs] at hrun
  obtain ⟨n, hown'⟩ := hrun.own
  have hend := exec_endRead (B := B) (t := 1) (w := s.st.1) hd hselected.ctxFor hstart rev
  rw [← hrun.cons] at hend
  have hsame : rev = nbCreations s.st.1.mem := by
    rw [hrev, ← hmem]
    exact (Mem.i32_congr fun x h0 h1 => hrun.grows.hdr x (by omega)).symm
  rw [if_pos hsame] at hend
  have hk : s₀.2.commits ≠ [] := by
    intro hk
    have hindex : writeIndex s₀.1.mem = -1 := by simpa [hk] using hinv₀.ring.index
    have := hselected.index.nonneg
    omega
  have hiff := snapshot_ne_iff hd hinv hown'.inv hrun.grows hlevel hk
    (show Selected d search w.mem c by rw [hmem]; exact hselected) (hfew _ hstart)
  rw [← hrun.cons] at hiff
  by_cases hover : Overwritten d s.cons s₀.2.reserved.length s.st.2.reserved
  · rw [if_pos (hiff.mpr hover)] at hend
    rw [hend, ← hrun.cons]
    exact ⟨⟨fun _ => hover, fun _ => rfl⟩, fun h => absurd rfl h, by rw [hrun.cons]; exact hmeta⟩
  · rw [if_neg fun hne => hover (hiff.mp hne)] at hend
    rw [hend]
    rw [hrun.cons] at hover
    refine ⟨⟨fun h => absurd h (by decide), fun h => absurd h hover⟩, fun _ => ⟨rfl, fun r hr h0 => ?_⟩,
      hmeta⟩
    rw [← hmem]
    exact (hrun.reads r hr h0).resolve_left hover

/-- A section of 2 slots whose producer wrote two blobs. -/
def full : (List Int × ShdCtx) × World Shm × History :=
  exec (tracked shm ⟨56, 4, 2⟩) 0
    (prodCalls (List.replicate 2 (.writeNewBlob [1, 2, 3, 4] 4 ⟨⟨0, 0⟩, ⟨0, 0⟩⟩))
      ((created 2).1.getD default)) ((created 2).2, History.init)

/-- A consumer that opens it and selects both samples. -/
def selectBoth : Selection × World Shm :=
  exec (machine shm) 1 (selectSamples libfutils
    (((exec (machine shm) 1 (openCtx "section" none) full.2.1).1.map Prod.fst).getD default)
    ⟨⟨0, 0⟩, .latest, 1, 0⟩ ⟨0, 0⟩) full.2.1

/-- The consumer reads the blobs, then the producer reserves the older slot. -/
def lapped : Session Shm :=
  turns shm ⟨56, 4, 2⟩ ⟨(selectBoth.2, full.2.2), full.1.2, selectBoth.1.ctx, []⟩
    [.read none 8, .produce (.newSample ⟨⟨1, 0⟩, ⟨1, 0⟩⟩)]

theorem endRead_exact_lapped :
    (exec (machine shm) 1 (endRead lapped.cons 2) lapped.st.1).1.1 = -EFAULT ↔
      Overwritten ⟨56, 4, 2⟩ selectBoth.1.ctx full.2.2.reserved.length lapped.st.2.reserved := by
  have hf : FitsHdr ⟨4, 2, 1, 0⟩ := ⟨⟨by decide, by decide⟩, by decide⟩
  obtain ⟨hw, hp⟩ := created_fresh hf (by decide +kernel)
  have hctx : CtxFor ⟨56, 4, 2⟩ (((exec (machine shm) 1 (openCtx "section" none) full.2.1).1.map
      Prod.fst).getD default) := ⟨by decide +kernel, by decide +kernel⟩
  have hfit : Fits 2 ⟨⟨0, 0⟩, .latest, 1, 0⟩ := by
    unfold Fits
    decide
  refine (endRead_exact shm (soundDesc_of_fits hf) hw hp _ (fun call hcall => ?_) (Prod.ext rfl rfl)
    (by decide +kernel) libfutils hctx hfit (.select (Prod.ext rfl rfl) (by decide +kernel)) _
    (fun u hu => ?_) rfl (fun i hi => ?_) (by decide +kernel)).1
  · obtain rfl := List.eq_of_mem_replicate hcall
    exact show (4 : Int) ≤ 4 by decide
  · obtain rfl | rfl : u = _ ∨ u = _ := by simpa using hu
    · trivial
    · trivial
  · have h0 := hi.nonneg
    have h1 : i < 2 := hi.lt
    obtain rfl | rfl : i = 0 ∨ i = 1 := by omega
    · decide +kernel
    · decide +kernel

/-- A section of 2 slots whose producer wrote one blob. -/
def halfFull : (List Int × ShdCtx) × World Shm × History :=
  exec (tracked shm ⟨56, 4, 2⟩) 0
    (prodCalls [.writeNewBlob [1, 2, 3, 4] 4 ⟨⟨0, 0⟩, ⟨0, 0⟩⟩] ((created 2).1.getD default))
    ((created 2).2, History.init)

/-- A consumer that opens it and selects the sample. -/
def selectOnly : Selection × World Shm :=
  exec (machine shm) 1 (selectSamples libfutils
    (((exec (machine shm) 1 (openCtx "section" none) halfFull.2.1).1.map Prod.fst).getD default)
    ⟨⟨0, 0⟩, .latest, 0, 0⟩ ⟨0, 0⟩) halfFull.2.1

/-- The producer starts a sample in the other slot, and the consumer reads the four
bytes behind the blob of its own. -/
def strayRead : Session Shm :=
  turns shm ⟨56, 4, 2⟩ ⟨(selectOnly.2, halfFull.2.2), halfFull.1.2, selectOnly.1.ctx, []⟩
    [.produce (.newSample ⟨⟨7, 0⟩, ⟨7, 0⟩⟩), .read (some ⟨4, 4⟩) 4]

/-- `shd_end_read` returns 0, and what was read is not what the slot held at the
selection: the bytes belong to the slot that was rewritten. -/
theorem strayRead_unnoticed :
    (exec (machine shm) 1 (endRead strayRead.cons 2) strayRead.st.1).1.1 = 0 ∧
      ¬ ∀ r ∈ strayRead.reads, 0 ≤ r.ret → r.rows = windowRows ⟨56, 4, 2⟩ halfFull.2.1.mem
        selectOnly.1.ctx.window (readRange ⟨56, 4, 2⟩ r.quantity).1
        (readRange ⟨56, 4, 2⟩ r.quantity).2 := by
  refine ⟨by decide +kernel, fun h => ?_⟩
  have hrow := h ⟨some ⟨4, 4⟩, 1, [[7, 0, 0, 0]]⟩ (by decide +kernel) (by decide)
  exact absurd hrow (by decide +kernel)

end Shdata.Consumer
