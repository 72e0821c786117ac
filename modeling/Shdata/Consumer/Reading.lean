/-
Shdata.Consumer.Reading — a read session while the producer goes on.

The snapshot of `shd_data_find` is taken after the search, so what it is worth
depends on where the producer is at that moment. `Ahead` says that it has
not reached the window: the slot that it writes next is not one of the
window's, or it is the first one and no write is going on. From then on the
producer meets the window at its first slot, the one whose counter the
session compares.

`InReading` is the invariant between two operations of such a session, with
`k` the number of commits at the snapshot. Row `x` is a copy of the commit
that its slot held at that time, or the first slot was reserved since.
-/
import Shdata.Consumer.Overwrite
import Shdata.Revision.Steps

namespace Shdata.Consumer

open Shdata.Conc Shdata.Bytes Shdata.Core Shdata.Ring Shdata.Layout Shdata.Trace Shdata.Producer

variable {Ω : Type} {B : Backend Ω} {d : DataSectionDesc} {C : Nat → Op → World Ω × History → Prop}
  {ranges : List (Int × Nat)} {win : Window} {n : Int} {k : Nat} {s s' : World Ω × History}

/-! ## Rows of samples -/

/-- Byte `o` of the structure in which commit `c` left its sample: the metadata, and the
blob after the counter. -/
def sampleByte (c : Commit) (o : Int) : Option UInt8 :=
  if o < 0 then none
  else if o < 32 then c.metadata[o.toNat]?
  else if o < 40 then none
  else c.blob[(o - 40).toNat]?

/-- A copy of one of the ranges from slot `i`: its bytes of the sample are those that
commit `c` left. -/
structure CopyOf (d : DataSectionDesc) (i : Int) (ranges : List (Int × Nat)) (c : Commit)
    (cp : Copy) : Prop where
  range : ∃ r ∈ ranges, cp.addr = toU64 (slot d i + r.1) ∧ cp.bytes.length = r.2
  bytes : ∀ (o : Nat) v, o < cp.bytes.length →
    sampleByte c (cp.addr + o - slot d i) = some v → cp.bytes[o]? = some v

/-- The copies of each row since the snapshot are copies of one sample, and it was
committed when they were made. -/
def Untorn (d : DataSectionDesc) (ranges : List (Int × Nat)) (h : History) : Prop :=
  ∀ row : Nat, ∃ c : Commit, ∀ cp ∈ h.copies, cp.row = row →
    c ∈ h.commits.take cp.committed ∧
      CopyOf d ((h.window.startIdx + row) % d.nbSamples) ranges c cp

/-- A copy of a slot whose bytes are those of a commit. -/
theorem copyOf_read {m : Mem} {i : Int} {c : Commit} (hmd : metadataOf d m i = c.metadata)
    (hblob : blobOf d m i = c.blob) {row : Nat} {a : Int} {len committed : Nat}
    (hrange : ∃ r ∈ ranges, a = toU64 (slot d i + r.1) ∧ len = r.2) :
    CopyOf d i ranges c ⟨row, a, m.read a len, committed⟩ := by
  refine ⟨by simpa using hrange, fun o v ho hv => ?_⟩
  change sampleByte c (a + o - slot d i) = some v at hv
  have hbyte : m (a + o) = v := by
    -- a byte of the slot, counted from its start
    have hat : ∀ (off : Int) (size p : Nat), off + p = a + o - slot d i →
        (m.read (slot d i + off) size)[p]? = some v → m (a + o) = v := by
      intro off size p hp hget
      obtain ⟨hlt, hget⟩ := List.getElem?_eq_some_iff.mp hget
      rw [Mem.getElem_read] at hget
      rw [← hget]
      congr 1
      omega
    rw [sampleByte, ← hmd, ← hblob] at hv
    split at hv
    · exact absurd hv (by simp)
    split at hv
    · refine hat 0 32 (a + o - slot d i).toNat (by omega) ?_
      rwa [Int.add_zero]
    split at hv
    · exact absurd hv (by simp)
    · exact hat 40 d.blobSize.toNat (a + o - slot d i - 40).toNat (by omega) hv
  rw [List.getElem?_eq_getElem ho, Mem.getElem_read, hbyte]

/-! ## The snapshot -/

/-- The ring is full, and the slot of the next commit is not in the window, or it is the
first one of it and nobody is writing it. -/
structure Ahead (d : DataSectionDesc) (win : Window) (h : History) : Prop where
  filled : d.nbSamples ≤ h.commits.length
  ahead : ∀ x : Nat, (x : Int) < win.nbMatches →
    (win.startIdx + x) % d.nbSamples = (h.commits.length : Int) % d.nbSamples →
      x = 0 ∧ h.reserved.length = h.commits.length

/-- The number of the commit that slot `i` held when there were `k`. -/
def heldBy (N : Int) (k : Nat) (i : Int) : Nat := (k - N + gap N k i).toNat

theorem heldBy_spec {N : Int} (hN : 0 < N) (hk : N ≤ k) {i : Int} (hi : i % N = i) :
    (heldBy N k i : Int) = k - N + gap N k i ∧ heldBy N k i < k ∧ (heldBy N k i : Int) % N = i := by
  have h0 := gap_nonneg hN k i
  have h1 := gap_lt hN k i
  have hj : (heldBy N k i : Int) = k - N + gap N k i := Int.toNat_of_nonneg (by omega)
  refine ⟨hj, by omega, ?_⟩
  rw [hj, show (k : Int) - N + gap N k i = k + gap N k i - N by ring, Int.sub_emod_right,
    add_gap_emod, hi]

/-- The first slot of the window was reserved since the snapshot. -/
def Lapped (d : DataSectionDesc) (win : Window) (h : History) : Prop :=
  laps d.nbSamples win.startIdx h.reservedAt < laps d.nbSamples win.startIdx h.reserved.length

/-- A session with window `win` that read the counter `n` in its snapshot, when there
were `k` commits. -/
structure InReading (d : DataSectionDesc) (ranges : List (Int × Nat)) (win : Window) (n : Int)
    (k : Nat) (s : World Ω × History) : Prop where
  inv : RingInv d (· = 0) s
  window : s.2.window = win
  start : IsSlot d.nbSamples win.startIdx
  snapshot : n = toI32 ((laps d.nbSamples win.startIdx s.2.reservedAt : Int) - 1)
  since : k ≤ s.2.reservedAt ∧ s.2.reservedAt ≤ k + 1 ∧ s.2.reservedAt ≤ s.2.reserved.length
  filled : d.nbSamples ≤ k
  committed : k ≤ s.2.commits.length
  ahead : ∀ x : Nat, (x : Int) < win.nbMatches →
    (win.startIdx + x) % d.nbSamples = (k : Int) % d.nbSamples → x = 0 ∧ s.2.reservedAt = k
  copies : ∀ cp ∈ s.2.copies, (cp.row : Int) < win.nbMatches ∧ k ≤ cp.committed ∧
    (Lapped d win s.2 ∨ ∃ c, s.2.commits[heldBy d.nbSamples k
        ((win.startIdx + cp.row) % d.nbSamples)]? = some c ∧
      CopyOf d ((win.startIdx + cp.row) % d.nbSamples) ranges c cp)

/-- The producer meets the window in its own order. -/
theorem InReading.inOrder (hd : SoundDesc d) (h : InReading d ranges win n k s) :
    gap d.nbSamples k win.startIdx + win.nbMatches ≤ d.nbSamples := by
  by_contra hlt
  have hpos := hd.size.pos
  have hg0 := gap_nonneg hpos k win.startIdx
  have hg1 := gap_lt hpos k win.startIdx
  obtain ⟨x, hx⟩ : ∃ x : Nat, (x : Int) = d.nbSamples - gap d.nbSamples k win.startIdx :=
    ⟨(d.nbSamples - gap d.nbSamples k win.startIdx).toNat, Int.toNat_of_nonneg (by omega)⟩
  have hslot : (win.startIdx + x) % d.nbSamples = (k : Int) % d.nbSamples := by
    have hwalk := add_gap_emod (N := d.nbSamples) k win.startIdx
    rw [← emod_add_emod, ← hwalk, emod_add_emod, hx,
      show (k : Int) + gap d.nbSamples k win.startIdx
        + (d.nbSamples - gap d.nbSamples k win.startIdx) = k + d.nbSamples by ring,
      Int.add_emod_right]
  have := (h.ahead x (by omega) hslot).1
  omega

/-- As long as the first slot was not reserved again, every slot of the window holds the
commit that it held at the snapshot. -/
theorem InReading.held (hd : SoundDesc d) (h : InReading d ranges win n k s)
    (hlap : ¬ Lapped d win s.2) {x : Nat} (hx : (x : Int) < win.nbMatches) :
    ∃ c, s.2.commits[heldBy d.nbSamples k ((win.startIdx + x) % d.nbSamples)]? = some c ∧
      metadataOf d s.1.mem ((win.startIdx + x) % d.nbSamples) = c.metadata ∧
      blobOf d s.1.mem ((win.startIdx + x) % d.nbSamples) = c.blob := by
  have hpos := hd.size.pos
  have hslot := isSlot_emod hd.size (win.startIdx + x)
  obtain ⟨hj, hlt, hmod⟩ := heldBy_spec hpos h.filled hslot.emod
  have hcommitted := h.committed
  have hget := List.getElem?_eq_getElem (show heldBy d.nbSamples k
    ((win.startIdx + x) % d.nbSamples) < s.2.commits.length by omega)
  have hkept : (s.2.reserved.length : Int)
      ≤ heldBy d.nbSamples k ((win.startIdx + x) % d.nbSamples) + d.nbSamples := by
    by_contra hover
    -- the slot was reserved after the snapshot, hence so was the first one
    have hg0 := gap_nonneg hpos k ((win.startIdx + x) % d.nbSamples)
    have hwin := (@window_hit_iff d.nbSamples hpos k s.2.reserved.length win.startIdx
      win.nbMatches (by omega) (h.inOrder hd)).mp
        ⟨x, by omega, hx, k + gap d.nbSamples k ((win.startIdx + x) % d.nbSamples), by omega,
          by omega, by rw [add_gap_emod, hslot.emod]⟩
    obtain ⟨y, hy0, hy1, hy⟩ := hwin
    rw [h.start.emod] at hy
    obtain ⟨hs0, hs1, -⟩ := h.since
    by_cases hat : (s.2.reservedAt : Int) ≤ y
    · refine hlap (laps_lt_iff.mpr ⟨y.toNat, by omega, by omega, ?_⟩)
      rw [Int.toNat_of_nonneg (by omega)]
      exact hy
    · have hyk : y = k := by omega
      have hfirst : (win.startIdx + ((0 : Nat) : Int)) % d.nbSamples = (k : Int) % d.nbSamples := by
        rw [Nat.cast_zero, Int.add_zero, h.start.emod, ← hy, hyk]
      have := (h.ahead 0 (by omega) hfirst).2
      omega
  have hsample := h.inv.ring.samples _ _ hget hkept
  rw [hmod] at hsample
  exact ⟨_, hget, hsample⟩

/-- Without a lap every row is a copy of the commit that its slot held. -/
theorem InReading.untorn (hd : SoundDesc d) (h : InReading d ranges win n k s)
    (hlap : ¬ Lapped d win s.2) : Untorn d ranges s.2 := by
  intro row
  by_cases hrow : (row : Int) < win.nbMatches
  · obtain ⟨c, hc, -⟩ := h.held hd hlap hrow
    refine ⟨c, fun cp hcp he => ?_⟩
    obtain ⟨-, hcommitted, hcopy⟩ := h.copies cp hcp
    obtain ⟨c', hc', hof⟩ := hcopy.resolve_left hlap
    rw [he, hc] at hc'
    rw [he, ← Option.some.inj hc'] at hof
    have hheld := (heldBy_spec hd.size.pos h.filled
      (isSlot_emod hd.size (win.startIdx + row)).emod).2.1
    refine ⟨List.mem_of_getElem? ((List.getElem?_take_of_lt ?_).trans hc), ?_⟩
    · omega
    · rw [h.window]
      exact hof
  · refine ⟨⟨0, 0, [], []⟩, fun cp hcp he => absurd (h.copies cp hcp).1 ?_⟩
    rw [he]
    exact hrow

/-- The counter of the first slot is the one of the snapshot: the slot was not reserved
in between. -/
theorem InReading.not_lapped (hd : SoundDesc d) (h : InReading d ranges win n k s)
    (hfew : (s.2.reserved.drop s.2.reservedAt).count (slot d win.startIdx) < 4294967296)
    (heq : n = nbWrites d s.1.mem win.startIdx) : ¬ Lapped d win s.2 := by
  intro hlap
  unfold Lapped at hlap
  have hlen : (s.2.reserved.take s.2.reservedAt).length = s.2.reservedAt := by
    rw [List.length_take]
    exact Nat.min_eq_left h.since.2.2
  have hinOrder : InOrder d (s.2.reserved.take s.2.reservedAt) := by
    intro j a hj
    obtain ⟨hlt, rfl⟩ := List.getElem?_eq_some_iff.mp hj
    exact h.inv.reserved j _ (List.prefix_iff_getElem?.mp (List.take_prefix _ _) j hlt)
  have htake := laps_eq_count hd win.startIdx _ hinOrder
  have hall := laps_eq_count hd win.startIdx s.2.reserved h.inv.reserved
  have hsplit := congrArg (List.count (slot d win.startIdx))
    (List.take_append_drop s.2.reservedAt s.2.reserved)
  rw [List.count_append] at hsplit
  rw [hlen] at htake
  rw [h.snapshot, h.inv.ring.counts _ h.start] at heq
  have := toI32_inj_of_lt (by omega) (by omega) heq
  omega

/-! ## Interference -/

/-- What the consumer relies on: the invariant of the section, and that its history
only grows. -/
def ConsRely (d : DataSectionDesc) (s s' : World Ω × History) : Prop :=
  RingInv d (· = 0) s → RingInv d (· = 0) s' ∧ Grows d s s'

/-- What the consumer does with one operation: nothing that a producer could see. -/
structure ConsGuar (_ : Op) (s s' : World Ω × History) : Prop where
  mem : s'.1.mem = s.1.mem
  logs : s'.2.reserved = s.2.reserved ∧ s'.2.commits = s.2.commits ∧
    s'.2.writing = s.2.writing ∧ s'.2.refused = s.2.refused

theorem consRely_refl (d : DataSectionDesc) (s : World Ω × History) : ConsRely d s s :=
  fun h => ⟨h, Grows.refl d s⟩

theorem consRely_trans {a b c : World Ω × History} (h : ConsRely d a b) (h' : ConsRely d b c) :
    ConsRely d a c := fun hi =>
  ⟨(h' (h hi).1).1, (h hi).2.trans (h' (h hi).1).2⟩

theorem Lapped.grows {h h' : History} (hl : Lapped d win h) (hat : h'.reservedAt = h.reservedAt)
    (hres : h.reserved <+: h'.reserved) : Lapped d win h' := by
  have hmono := laps_mono d.nbSamples win.startIdx hres.length_le
  unfold Lapped at *
  rw [hat]
  omega

theorem InReading.stable (h : InReading d ranges win n k s) (hR : ConsRely d s s') :
    InReading d ranges win n k s' := by
  obtain ⟨hinv, hg⟩ := hR h.inv
  obtain ⟨hwindow, hat, hcopies⟩ := hg.session
  obtain ⟨h0, h1, h2⟩ := h.since
  have hres := hg.reserved.length_le
  refine ⟨hinv, hwindow.trans h.window, h.start, by rw [hat]; exact h.snapshot,
    by rw [hat]; exact ⟨h0, h1, by omega⟩, h.filled, h.committed.trans hg.commits.length_le,
    by rw [hat]; exact h.ahead, fun cp hcp => ?_⟩
  rw [hcopies] at hcp
  obtain ⟨hrow, hcommitted, hcopy⟩ := h.copies cp hcp
  refine ⟨hrow, hcommitted, hcopy.imp (fun hl => hl.grows hat hg.reserved) ?_⟩
  rintro ⟨c, hc, hof⟩
  obtain ⟨hlt, rfl⟩ := List.getElem?_eq_some_iff.mp hc
  exact ⟨_, List.prefix_iff_getElem?.mp hg.commits _ hlt, hof⟩

theorem Untorn.grows (h : Untorn d ranges s.2) (hg : Grows d s s') : Untorn d ranges s'.2 := by
  obtain ⟨hwindow, -, hcopies⟩ := hg.session
  intro row
  obtain ⟨c, hc⟩ := h row
  refine ⟨c, fun cp hcp he => ?_⟩
  rw [hcopies] at hcp
  obtain ⟨hmem, hof⟩ := hc cp hcp he
  rw [hwindow]
  exact ⟨(hg.commits.take cp.committed).subset hmem, hof⟩

/-- The consumer's steps are no interference to a producer. -/
theorem ConsGuar.prodRely {o : Op} (h : ConsGuar o s s') (t : Nat) :
    ProdRely d (· = 0) t s s' := by
  obtain ⟨hres, hcommits, hwriting, hrefused⟩ := h.logs
  intro hi
  refine ⟨hi.congr h.mem h.logs, by rw [hwriting], fun _ => ?_, by rw [hcommits]⟩
  exact ⟨hres, hcommits, fun x _ => by rw [h.mem]⟩

/-! ## Operations of the consumer -/

/-- A load that the history does not record, the address of a slot, or the heap. -/
def Still : Op → Prop
  | .read site _ _ => Unrecorded site
  | .samplePtr _ _ | .calloc _ | .free _ _ => True
  | _ => False

theorem still_of_searching {hdr : Int} {o : Op} (ho : Searching hdr d o) : Still o := by
  cases o with
  | read site a len =>
    cases site with
    | startReadSession => exact ho
    | windowRead => exact ho
    | dataReadQuantitySample => exact ho
    | _ => trivial
  | samplePtr desc i => trivial
  | _ => exact absurd ho id

theorem step_still {o : Op} (ho : Still o) (t : Nat) (s : World Ω × History) :
    ((tracked B d).step t o s).1.1.mem = s.1.mem ∧ ((tracked B d).step t o s).1.2 = s.2 := by
  cases o with
  | read site a len => exact ⟨rfl, track_read d t ho a len s.1 _ s.2⟩
  | samplePtr desc i => exact ⟨rfl, rfl⟩
  | calloc what => exact ⟨rfl, rfl⟩
  | free what p => exact ⟨rfl, rfl⟩
  | _ => exact absurd ho id

/-- A copy of one of the ranges from the slot of a row, the address of a slot, or the
heap. -/
def CopyOp (d : DataSectionDesc) (ranges : List (Int × Nat)) (win : Window) : Op → Prop
  | .read (.windowRead row) a len | .read (.dataReadQuantitySample row) a len =>
    (row : Int) < win.nbMatches ∧ ∃ r ∈ ranges,
      a = toU64 (slot d ((win.startIdx + row) % d.nbSamples) + r.1) ∧ len = r.2
  | .samplePtr _ _ | .calloc _ | .free _ _ => True
  | _ => False

/-- No row was copied. -/
structure Unread (d : DataSectionDesc) (s : World Ω × History) : Prop where
  inv : RingInv d (· = 0) s
  copies : s.2.copies = []

theorem Unread.stable (h : Unread d s) (hR : ConsRely d s s') : Unread d s' := by
  obtain ⟨hinv, hg⟩ := hR h.inv
  exact ⟨hinv, hg.session.2.2.trans h.copies⟩

theorem Unread.congr (h : Unread d s) (hm : s'.1.mem = s.1.mem) (hh : s'.2 = s.2) : Unread d s' :=
  ⟨h.inv.congr hm (by rw [hh]; exact ⟨rfl, rfl, rfl, rfl⟩), by rw [hh]; exact h.copies⟩

theorem InReading.congr (h : InReading d ranges win n k s) (hm : s'.1.mem = s.1.mem)
    (hh : s'.2 = s.2) : InReading d ranges win n k s' := by
  refine ⟨h.inv.congr hm (by rw [hh]; exact ⟨rfl, rfl, rfl, rfl⟩), ?_, h.start, ?_, ?_, h.filled,
    ?_, ?_, ?_⟩
  · rw [hh]; exact h.window
  · rw [hh]; exact h.snapshot
  · rw [hh]; exact h.since
  · rw [hh]; exact h.committed
  · rw [hh]; exact h.ahead
  · rw [hh]; exact h.copies

/-- A copy of a row. -/
theorem InReading.copy (hd : SoundDesc d) (h : InReading d ranges win n k s) {row : Nat} {a : Int}
    {len : Nat} (hrow : (row : Int) < win.nbMatches)
    (hrange : ∃ r ∈ ranges, a = toU64 (slot d ((win.startIdx + row) % d.nbSamples) + r.1) ∧
      len = r.2) :
    InReading d ranges win n k (s.1, { s.2 with
      copies := s.2.copies ++ [⟨row, a, s.1.mem.read a len, s.2.commits.length⟩] }) := by
  refine ⟨h.inv.congr rfl ⟨rfl, rfl, rfl, rfl⟩, h.window, h.start, h.snapshot, h.since, h.filled,
    h.committed, h.ahead, fun cp hcp => ?_⟩
  rcases List.mem_append.mp hcp with hcp | hcp
  · exact h.copies cp hcp
  · obtain rfl := List.mem_singleton.mp hcp
    refine ⟨hrow, h.committed, ?_⟩
    by_cases hlap : Lapped d win s.2
    · exact Or.inl hlap
    · obtain ⟨c, hc, hmd, hblob⟩ := h.held hd hlap hrow
      exact Or.inr ⟨c, hc, copyOf_read hmd hblob hrange⟩

/-- An operation of a session keeps its invariant. -/
theorem InReading.step (hd : SoundDesc d) (h : InReading d ranges win n k s) {o : Op}
    (ho : CopyOp d ranges win o) :
    ConsGuar o s ((tracked B d).step 1 o s).1 ∧
      InReading d ranges win n k ((tracked B d).step 1 o s).1 := by
  have hstill : ∀ {o : Op}, Still o → ConsGuar o s ((tracked B d).step 1 o s).1 ∧
      InReading d ranges win n k ((tracked B d).step 1 o s).1 := by
    intro o ho
    obtain ⟨hm, hh⟩ := step_still (B := B) (d := d) ho 1 s
    exact ⟨⟨hm, by rw [hh]; exact ⟨rfl, rfl, rfl, rfl⟩⟩, h.congr hm hh⟩
  cases o with
  | read site a len =>
    cases site with
    | windowRead row => exact ⟨⟨rfl, rfl, rfl, rfl, rfl⟩, h.copy hd ho.1 ho.2⟩
    | dataReadQuantitySample row => exact ⟨⟨rfl, rfl, rfl, rfl, rfl⟩, h.copy hd ho.1 ho.2⟩
    | _ => exact absurd ho id
  | samplePtr desc i => exact hstill trivial
  | calloc what => exact hstill trivial
  | free what p => exact hstill trivial
  | _ => exact absurd ho id

/-- A part of the session that copies rows. -/
theorem wp_copying (hd : SoundDesc d) {α : Type} {p : ShdProg α} {Q : α → Prop}
    (hp : p.Ensures Revision.Computes (CopyOp d ranges win) Q)
    (h : InReading d ranges win n k s) :
    wp (tracked B d) 1 C (ConsRely d) ConsGuar p
      (fun a s' => Q a ∧ InReading d ranges win n k s') s := by
  refine wp_invariant (fun _ _ h hR => h.stable hR) (fun o u ho hu _ => ?_) hp h
  obtain ⟨hg, hu'⟩ := hu.step (B := B) hd ho
  exact ⟨hg, hu', Revision.step_computes o u.1⟩

/-- A part of the session that the history does not record. -/
theorem wp_still {α : Type} {p : ShdProg α} {Q : α → Prop} {I : World Ω × History → Prop}
    (hrely : ∀ a b, I a → ConsRely d a b → I b)
    (hcongr : ∀ a b, I a → b.1.mem = a.1.mem → b.2 = a.2 → I b)
    (hp : p.Ensures (fun _ _ => True) Still Q) (h : I s) :
    wp (tracked B d) 1 C (ConsRely d) ConsGuar p (fun a s' => Q a ∧ I s') s := by
  refine wp_invariant hrely (fun o u ho hu _ => ?_) hp h
  obtain ⟨hm, hh⟩ := step_still (B := B) (d := d) ho 1 u
  exact ⟨⟨hm, by rw [hh]; exact ⟨rfl, rfl, rfl, rfl⟩⟩, hcongr _ _ hu hm hh, trivial⟩

/-! ## Parts of a session -/

theorem windowReadLoop_copyOp (hd : SoundDesc d) {size : Nat} {off : Int}
    (hrange : (off, size) ∈ ranges) (m : Nat) (i : Int) (row : Nat)
    (hi : i = (win.startIdx + row) % d.nbSamples) (hm : (row : Int) + m ≤ win.nbMatches) :
    (windowReadLoop d size off m i row).Ensures Revision.Computes (CopyOp d ranges win)
      fun _ => True := by
  induction m generalizing i row with
  | zero => exact trivial
  | succ m ih =>
    push_cast at hm
    have hslot : IsSlot d.nbSamples i := hi ▸ isSlot_emod hd.size _
    have hnext : indexNext i d.nbSamples = (win.startIdx + ((row + 1 : Nat) : Int)) % d.nbSamples := by
      rw [indexNext_eq hd.size (by have := hslot.nonneg; omega) hslot.lt, hi, emod_add_emod]
      push_cast
      congr 1
      ring
    refine Prog.ensures_perform trivial fun p hp => ?_
    have hptr : p = slot d i := (show p = _ from hp).trans (dataGetSamplePtr_eq hd hslot)
    refine Prog.ensures_perform ⟨by omega, _, hrange, ?_, rfl⟩ fun bs _ => ?_
    · rw [hptr, hi]
    · exact (ih _ _ hnext (by push_cast; omega)).bind fun _ _ => trivial

theorem windowRead_copyOp (hd : SoundDesc d) (hstart : IsSlot d.nbSamples win.startIdx)
    {size : Nat} {off : Int} (hrange : (off, size) ∈ ranges) (hnb : 0 ≤ win.nbMatches) :
    (windowRead win d size off).Ensures Revision.Computes (CopyOp d ranges win) fun _ => True :=
  windowReadLoop_copyOp hd hrange _ _ 0 (by rw [Nat.cast_zero, Int.add_zero, hstart.emod])
    (by omega)

/-- The metadata rows of a selection. -/
theorem dataReadMetadata_copyOp (hd : SoundDesc d) {ctx : ShdCtx} (hdesc : ctx.desc = d)
    (hstart : IsSlot d.nbSamples ctx.window.startIdx) (hnb : 0 ≤ ctx.window.nbMatches)
    (hrange : ((0 : Int), sizeofMetadata) ∈ ranges) :
    (dataReadMetadata ctx).Ensures Revision.Computes (CopyOp d ranges ctx.window)
      fun m => m.2.2.desc = ctx.desc ∧ m.2.2.sectMmap = ctx.sectMmap ∧
        m.2.2.window = ctx.window ∧ m.2.2.syncCtx = ctx.syncCtx := by
  refine Prog.ensures_perform trivial fun p _ => ?_
  cases p with
  | none => exact ⟨rfl, rfl, rfl, rfl⟩
  | some p =>
    rw [hdesc]
    exact (windowRead_copyOp hd hstart hrange hnb).bind fun _ _ => ⟨rfl, rfl, rfl, rfl⟩

/-- The rows of a read. -/
theorem readQuantity_copyOp (hd : SoundDesc d) {ctx : ShdCtx} (hdesc : ctx.desc = d)
    (hstart : IsSlot d.nbSamples ctx.window.startIdx) (quantity : Option Quantity) (dst : Nat)
    (hrange : readRange d quantity ∈ ranges) :
    (readQuantity ctx quantity dst).Ensures Revision.Computes (CopyOp d ranges ctx.window)
      fun _ => True := by
  have hrows : readQuantity ctx quantity dst
      = dataReadRows ctx (readRange d quantity).2 (readRange d quantity).1 dst := by
    subst hdesc
    cases quantity <;> rfl
  rw [hrows, dataReadRows]
  split
  · exact trivial
  split
  · exact trivial
  · rw [hdesc]
    exact (windowRead_copyOp hd hstart hrange (by omega)).bind fun _ _ => trivial

theorem readQuantity_idle {ctx : ShdCtx} (hidle : ctx.window.nbMatches < 0)
    (quantity : Option Quantity) (dst : Nat) :
    readQuantity ctx quantity dst = pure (-EPERM, []) := by
  cases quantity with
  | none => exact if_pos hidle
  | some q => exact if_pos hidle

theorem dataReadQuantitySampleLoop_copyOp {curr : Int} (qs : List (Quantity × Nat))
    (hcurr : curr = slot d ((win.startIdx + ((0 : Nat) : Int)) % d.nbSamples))
    (hnb : 0 < win.nbMatches) (hmeta : ((0 : Int), sizeofMetadata) ∈ ranges)
    (hqs : ∀ q ∈ qs, (q.1.quantityOffset + 40, q.2) ∈ ranges) :
    (dataReadQuantitySampleLoop curr qs).Ensures Revision.Computes (CopyOp d ranges win)
      fun _ => True := by
  induction qs with
  | nil => exact trivial
  | cons q qs ih =>
    have hrest := ih fun q' hq' => hqs q' (List.mem_cons_of_mem _ hq')
    unfold dataReadQuantitySampleLoop
    split
    · refine Prog.ensures_perform ⟨hnb, _, hqs q List.mem_cons_self, by rw [hcurr]; rfl, rfl⟩
        fun bs _ => ?_
      refine Prog.ensures_perform ⟨hnb, _, hmeta, by rw [hcurr], rfl⟩ fun md _ => ?_
      exact hrest.bind fun _ _ => trivial
    · exact hrest.bind fun _ _ => trivial

/-- The rows of `shd_read_from_sample`. -/
theorem dataReadQuantitySample_copyOp (hd : SoundDesc d) {ctx : ShdCtx} (hdesc : ctx.desc = d)
    (hstart : IsSlot d.nbSamples ctx.window.startIdx)
    (href : ctx.window.refIdx = ctx.window.startIdx) (qs : List (Quantity × Nat))
    (hmeta : ((0 : Int), sizeofMetadata) ∈ ranges)
    (hqs : ∀ q ∈ qs, (q.1.quantityOffset + 40, q.2) ∈ ranges) :
    (dataReadQuantitySample ctx qs).Ensures Revision.Computes (CopyOp d ranges ctx.window)
      fun _ => True := by
  unfold dataReadQuantitySample
  split
  · exact trivial
  split
  · exact trivial
  · rw [hdesc, href]
    refine Prog.ensures_perform trivial fun p hp => ?_
    refine dataReadQuantitySampleLoop_copyOp qs ?_ (by omega) hmeta hqs
    rw [show p = _ from hp, dataGetSamplePtr_eq hd hstart, Nat.cast_zero, Int.add_zero,
      hstart.emod]

end Shdata.Consumer
