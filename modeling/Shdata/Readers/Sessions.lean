/-
Shdata.Readers.Sessions — the read sessions of any number of consumers.

A client opens a session, stops if nothing was selected, makes its reads and
ends the session; `session` returns everything that the calls deliver. The
theorems of this folder are about these values, not about auxiliary state.

Commit number `j` is the `j`-th sample that the section ever saw. `Held` is
the invariant of an open session whose window is the commits `j`, `j + 1`,
and so on. As long as the slot of commit `j` is not reserved again (`Kept`)
each row is that of its commit; the counter that `shd_end_read` compares is the
number of times that slot was used.
-/
import Shdata.Consumer.Torn

namespace Shdata.Readers

open Shdata.Conc Shdata.Bytes Shdata.Core Shdata.Ring Shdata.Layout Shdata.Trace Shdata.Producer
  Shdata.Consumer

variable {Ω : Type}

/-! ## Sessions -/

/-- What a session delivers: the rows of the selection with the place of the
reference sample, or the quantities of the single sample; the rows of each
read; and what `shd_end_read` returned. -/
structure Answer where
  nb : Nat
  ref : Nat
  metadata : List SampleMetadata
  quantities : List QuantityRow
  reads : List (Int × List (List UInt8))
  ret : Int

/-- The call that opens a session: its return code, what it delivers, and the context. -/
def openSession (F : Futils) (ctx : ShdCtx) : Selecting → ShdProg (Int × Answer × ShdCtx)
  | .select search => do
    let s ← selectSamples F ctx search ⟨0, 0⟩
    return (s.ret,
      { nb := s.result.nbMatches.toNat
        ref := s.result.rSampleIdx.toNat
        metadata := s.metadata
        quantities := []
        reads := []
        ret := 0 }, s.ctx)
  | .readFrom search quantity sizes => do
    let s ← readFromSample F ctx search quantity sizes
    return (s.ret, { nb := 1, ref := 0, metadata := [], quantities := s.rows, reads := [], ret := 0 },
      s.ctx)

/-- The reads of a session, one after the other. -/
def readAll (ctx : ShdCtx) : List (Option Quantity × Nat) →
    ShdProg (List (Int × List (List UInt8)))
  | [] => return []
  | q :: qs => do
    let r ← readQuantity ctx q.1 q.2
    let rs ← readAll ctx qs
    return r :: rs

/-- A session of a client that stops when its selection fails. -/
def session (F : Futils) (ctx : ShdCtx) (r : ReadSession) : ShdProg (Option Answer × ShdCtx) := do
  let o ← openSession F ctx r.selecting
  if o.1 < 0 then
    return (none, o.2.2)
  else
    let rows ← readAll o.2.2 r.reads
    let e ← Core.endRead o.2.2 r.rev
    return (some { o.2.1 with reads := rows, ret := e.1 }, e.2)

def sessions (F : Futils) : List ReadSession → ShdCtx → ShdProg (List (Option Answer) × ShdCtx)
  | [], ctx => return ([], ctx)
  | r :: rs, ctx => do
    let a ← session F ctx r
    let as ← sessions F rs a.2
    return (a.1 :: as.1, as.2)

/-- The search of a session. -/
def searchOf : Selecting → SampleSearch
  | .select search => search
  | .readFrom search _ _ => search

/-- The quantities that `shd_read_from_sample` goes through, each with the size of its
buffer. -/
def quantitiesOf (d : DataSectionDesc) : Selecting → List (Quantity × Nat)
  | .select _ => []
  | .readFrom _ quantity sizes =>
    (if quantity.length > 0 then quantity
      else [{ quantityOffset := 0, quantitySize := d.blobSize.toNat }]).zip sizes

/-- What a client may ask for: a number of samples that is no `uint32_t` overflow, and
bytes that lie inside the blob. A copy of `shd_read_from_sample` is as long as its buffer. -/
structure Asks (d : DataSectionDesc) (r : ReadSession) : Prop where
  count : (searchOf r.selecting).nbValuesAfterDate.toNat
    + (searchOf r.selecting).nbValuesBeforeDate.toNat + 1 < 4294967296
  reads : ∀ q ∈ r.reads, ∀ quantity, q.1 = some quantity → InBounds d quantity
  quantities : ∀ q ∈ quantitiesOf d r.selecting,
    0 ≤ q.1.quantityOffset ∧ q.1.quantityOffset + q.2 ≤ d.blobSize

/-! ## The samples of a history -/

/-- The part of a blob that a read delivers. -/
def blobPart (off : Int) (size : Nat) (c : Commit) : List UInt8 :=
  (c.blob.drop off.toNat).take size

/-- What a read delivers of one sample. -/
def readPart (d : DataSectionDesc) : Option Quantity → Commit → List UInt8
  | none => blobPart 0 d.blobSize.toNat
  | some q => blobPart q.quantityOffset q.quantitySize

/-- Commits `j` to `j + n - 1` of a history. -/
def commitsFrom {α : Type} (part : Commit → α) (log : List Commit) (j n : Nat) : List α :=
  ((log.drop j).take n).map part

section CommitsFrom

variable {α : Type} {part : Commit → α} {log log' : List Commit} {j n : Nat}

theorem commitsFrom_succ {c : Commit} (h : log[j]? = some c) :
    commitsFrom part log j (n + 1) = part c :: commitsFrom part log (j + 1) n := by
  obtain ⟨hlt, rfl⟩ := List.getElem?_eq_some_iff.mp h
  rw [commitsFrom, List.drop_eq_getElem_cons hlt, List.take_succ_cons, List.map_cons]
  rfl

/-- A longer history has the same commits. -/
theorem commitsFrom_longer (h : log <+: log') (hn : j + n ≤ log.length) :
    commitsFrom part log' j n = commitsFrom part log j n := by
  obtain ⟨more, rfl⟩ := h
  unfold commitsFrom
  rw [List.drop_append_of_le_length (by omega),
    List.take_append_of_le_length (by rw [List.length_drop]; omega)]

theorem map_commitsFrom {β : Type} (f : α → β) :
    (commitsFrom part log j n).map f = commitsFrom (f ∘ part) log j n := by
  rw [commitsFrom, List.map_map]
  rfl

end CommitsFrom

/-! ## The snapshot -/

/-- The samples of a window are the commits from `j` on, and none of their slots was
reserved again. -/
def IntactAt (d : DataSectionDesc) (win : Window) (h : History) (j : Nat) : Prop :=
  win.startIdx = (j : Int) % d.nbSamples ∧ (j : Int) + win.nbMatches ≤ h.commits.length ∧
    (h.reserved.length : Int) ≤ j + d.nbSamples

/-- The window of a snapshot. -/
def snapshotOf : Op → Option Window
  | .read (.startReadSession win) _ _ => some win
  | _ => none

/-- The load that `shd_end_read` compares with the snapshot. -/
def endsReading : Op → Bool
  | .read .endReadSession _ _ => true
  | _ => false

/-- The condition on a run: a snapshot finds the samples of its window in place, and
fewer than 2^32 rounds of the ring were written. -/
structure IntactSnapshots (d : DataSectionDesc) (_ : Nat) (o : Op) (s : World Ω × History) :
    Prop where
  intact : ∀ win ∈ snapshotOf o, ∃ j, IntactAt d win s.2 j
  few : endsReading o = true → (s.2.reserved.length : Int) ≤ 4294967296 * d.nbSamples

/-- Only commits `j` and before it may have lost their slot. -/
def Kept (d : DataSectionDesc) (j : Nat) (h : History) : Prop :=
  (h.reserved.length : Int) ≤ j + d.nbSamples

/-- `X` holds of the commits, unless the slot of commit `j` was reserved again. -/
def Unless (d : DataSectionDesc) (j : Nat) (X : List Commit → Prop) (s : World Ω × History) :
    Prop :=
  RingInv d (· = 0) s ∧ (Kept d j s.2 → X s.2.commits)

/-- A property of a history that later commits do not change. -/
def Lasting (X : List Commit → Prop) : Prop := ∀ log log', log <+: log' → X log → X log'

/-- The rows are those of commits `j` to `j + n - 1`. -/
def RowsAt {α : Type} (part : Commit → α) (j n : Nat) (rows : List α) (log : List Commit) : Prop :=
  j + n ≤ log.length ∧ rows = commitsFrom part log j n

theorem RowsAt.lasting {α : Type} (part : Commit → α) (j n : Nat) (rows : List α) :
    Lasting (RowsAt part j n rows) := by
  rintro log log' hp ⟨hn, hrows⟩
  exact ⟨hn.trans hp.length_le, hrows.trans (commitsFrom_longer hp hn).symm⟩

/-- An open session with window `win`, whose snapshot read the counter `cnt`. -/
structure Held (d : DataSectionDesc) (win : Window) (cnt : Int) (j : Nat)
    (s : World Ω × History) : Prop where
  inv : RingInv d (· = 0) s
  start : win.startIdx = (j : Int) % d.nbSamples
  pos : 0 < win.nbMatches
  committed : (j : Int) + win.nbMatches ≤ s.2.commits.length
  snapshot : cnt = toI32 ((j : Int) / d.nbSamples)

/-! ## Interference -/

/-- What a consumer relies on: the invariant of the section, and that its logs only
grow. -/
def Onward (d : DataSectionDesc) (s s' : World Ω × History) : Prop :=
  RingInv d (· = 0) s →
    RingInv d (· = 0) s' ∧ s.2.reserved <+: s'.2.reserved ∧ s.2.commits <+: s'.2.commits

section Interference

variable {d : DataSectionDesc} {win : Window} {cnt : Int} {j : Nat} {s s' : World Ω × History}

theorem onward_refl (d : DataSectionDesc) (s : World Ω × History) : Onward d s s :=
  fun h => ⟨h, List.prefix_refl _, List.prefix_refl _⟩

theorem onward_trans {s'' : World Ω × History} (h : Onward d s s') (h' : Onward d s' s'') :
    Onward d s s'' := by
  intro hi
  obtain ⟨hi', hr, hc⟩ := h hi
  obtain ⟨hi'', hr', hc'⟩ := h' hi'
  exact ⟨hi'', hr.trans hr', hc.trans hc'⟩

/-- A step of a consumer is no more than that for the other consumers. -/
theorem onward_of_consGuar {o : Op} (h : ConsGuar o s s') : Onward d s s' := by
  obtain ⟨hr, hc, -, -⟩ := h.logs
  intro hi
  refine ⟨hi.congr h.mem h.logs, ?_, ?_⟩
  · rw [hr]
  · rw [hc]

theorem onward_of_prodGuar {o : Op} (h : ProdGuar d (· = 0) 0 o s s') : Onward d s s' :=
  fun hi => ⟨(h hi).inv, (h hi).grows.reserved, (h hi).grows.commits⟩

theorem Held.onward (h : Held d win cnt j s) (hR : Onward d s s') : Held d win cnt j s' := by
  obtain ⟨hi, -, hc⟩ := hR h.inv
  have := h.committed
  have := hc.length_le
  exact ⟨hi, h.start, h.pos, by omega, h.snapshot⟩

theorem Unless.onward {X : List Commit → Prop} (hX : Lasting X) (h : Unless d j X s)
    (hR : Onward d s s') : Unless d j X s' := by
  obtain ⟨hi, hr, hc⟩ := hR h.1
  have hlen := hr.length_le
  exact ⟨hi, fun hkept => hX _ _ hc (h.2 (by unfold Kept at *; omega))⟩

end Interference

/-! ## The rows of an open session -/

section Rows

variable {d : DataSectionDesc} {win : Window} {cnt : Int} {j : Nat} {s : World Ω × History}

/-- As long as the first slot was not reserved again, row `x` is commit `j + x`. -/
theorem Held.row (h : Held d win cnt j s) (hkept : Kept d j s.2) {x : Nat}
    (hx : (x : Int) < win.nbMatches) :
    ∃ c, s.2.commits[j + x]? = some c ∧
      metadataOf d s.1.mem ((win.startIdx + x) % d.nbSamples) = c.metadata ∧
      blobOf d s.1.mem ((win.startIdx + x) % d.nbSamples) = c.blob := by
  have hcommitted := h.committed
  have hget := List.getElem?_eq_getElem (show j + x < s.2.commits.length by omega)
  have hslot : (win.startIdx + x) % d.nbSamples = ((j + x : Nat) : Int) % d.nbSamples := by
    rw [h.start, emod_add_emod]
    push_cast
    rfl
  rw [hslot]
  refine ⟨_, hget, h.inv.ring.samples _ _ hget ?_⟩
  unfold Kept at hkept
  push_cast
  omega

/-- The uses of the slot of commit `j`, up to the turn after it. -/
theorem laps_kept {N : Int} (hN : 0 < N) {j r : Nat} (h0 : j < r) (h1 : (r : Int) ≤ j + N) :
    (laps N ((j : Int) % N) r : Int) = (j : Int) / N + 1 := by
  have hdiv := Int.emod_add_mul_ediv (j : Int) N
  have hnn := Int.emod_nonneg (j : Int) (by omega : N ≠ 0)
  have hlt := Int.emod_lt_of_pos (j : Int) hN
  rw [laps_eq hnn hlt]
  congr 1
  exact ediv_of_split _ ((r : Int) - 1 - j) (by omega) (by omega) (by omega)

/-- The snapshot of a window whose samples are in place. -/
theorem held_of_intact (hd : SoundDesc d) (hinv : RingInv d (· = 0) s)
    (hpos : 0 < win.nbMatches) (hj : IntactAt d win s.2 j) :
    Held d win (nbWrites d s.1.mem win.startIdx) j s := by
  obtain ⟨hstart, hcommitted, hkept⟩ := hj
  have hphase := hinv.phase
  refine ⟨hinv, hstart, hpos, hcommitted, ?_⟩
  rw [hstart, hinv.ring.counts _ (isSlot_emod hd.size _),
    laps_kept hd.size.pos (show j < s.2.reserved.length by omega) hkept]
  congr 1
  ring

/-- The counter of the first slot tells whether it was reserved again. -/
theorem Held.kept_of_eq (hd : SoundDesc d) (h : Held d win cnt j s)
    (hfew : (s.2.reserved.length : Int) ≤ 4294967296 * d.nbSamples)
    (heq : cnt = nbWrites d s.1.mem win.startIdx) : Kept d j s.2 := by
  by_contra hlost
  unfold Kept at hlost
  have hpos := hd.size.pos
  have hslot := isSlot_emod hd.size (j : Int)
  have hcommitted := h.committed
  have hwin := h.pos
  -- one more use of the slot than at the snapshot
  have hfirst := laps_kept hpos (show j < j + 1 by omega) (show ((j + 1 : Nat) : Int) ≤ j + d.nbSamples by
    push_cast; omega)
  have hmore : laps d.nbSamples ((j : Int) % d.nbSamples) (j + 1)
      < laps d.nbSamples ((j : Int) % d.nbSamples) s.2.reserved.length := by
    refine laps_lt_iff.mpr ⟨j + d.nbSamples.toNat, by omega, by omega, ?_⟩
    push_cast
    rw [Int.toNat_of_nonneg (by omega), Int.add_emod_right]
  have hlast : (laps d.nbSamples ((j : Int) % d.nbSamples) s.2.reserved.length : Int)
      ≤ 4294967296 := by
    rw [laps_eq hslot.nonneg hslot.lt]
    have hnn := hslot.nonneg
    have : ((s.2.reserved.length : Int) - 1 - (j : Int) % d.nbSamples) / d.nbSamples
        < 4294967296 := Int.ediv_lt_of_lt_mul hpos (by omega)
    omega
  have hjn : 0 ≤ (j : Int) / d.nbSamples := Int.ediv_nonneg (by omega) (by omega)
  rw [h.start, h.inv.ring.counts _ hslot, h.snapshot] at heq
  have := toI32_inj_of_lt (by omega) (by omega) heq
  omega

end Rows

end Shdata.Readers
