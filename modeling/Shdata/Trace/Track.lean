/-
Shdata.Trace.Track — the history of a section as auxiliary state, and the
invariant that ties it to the bytes.

`track` watches the operations of all threads. It logs the reservations (the
bumps of slot counters) and the commits (the stores of the write index) in
the order in which they happen, and who is between a successful
`shd_sync_start_write_session` and the reset of the counter of ongoing
writes. For the reader of the section it keeps the window of the last
snapshot and the rows copied since. Nothing reads it: `ghost_run` applies.

`RingInv` holds between any two operations of any number of producers, as
long as no attempt to start a session succeeds while another thread is in
one. `Moves` is what one operation of a producer may do. The lemmas below
establish it for each operation that writes.
-/
import Shdata.Conc.RelyGuarantee
import Shdata.Trace.RingMem

namespace Shdata.Trace

open Shdata.Conc Shdata.Bytes Shdata.Core Shdata.Ring Shdata.Layout

/-! ## The history -/

/-- A row that a reader copied: from where, which bytes, and how many commits
there were at that time. -/
structure Copy where
  row : Nat
  addr : Int
  bytes : List UInt8
  committed : Nat
  deriving DecidableEq, Repr

/-- What `track` records. `refused` counts the attempts to start a session
that failed since the last one that succeeded; `window`, `reservedAt` and
`copies` are about the last snapshot of a reader. -/
structure History where
  reserved : List Int
  commits : List Commit
  writing : Nat → Bool
  refused : Nat
  window : Window
  reservedAt : Nat
  copies : List Copy

/-- Nothing happened yet. -/
def History.init : History where
  reserved := []
  commits := []
  writing := fun _ => false
  refused := 0
  window := windowIdle
  reservedAt := 0
  copies := []

variable {Ω : Type}

/-- The effect of one operation of thread `t` on the history. -/
def track (d : DataSectionDesc) (t : Nat) (o : Op) (w : World Ω) (resp : o.Resp) (h : History) :
    History :=
  match o, resp with
  | .addAndFetch site a _, n =>
    match site with
    | .startWriteSession =>
      if n = 1 then { h with writing := Function.update h.writing t true, refused := 0 }
      else { h with refused := h.refused + 1 }
    | .startSampleWrite => { h with reserved := h.reserved ++ [a - offsetofNbWrites] }
    | _ => h
  | .write site a src, _ =>
    match site with
    | .endWriteSession =>
      -- the store of the index, then the reset of the counter
      if a = 44 then
        { h with commits := h.commits ++
            [{ thread := t
               index := decI32 src
               metadata := metadataOf d w.mem (decI32 src)
               blob := blobOf d w.mem (decI32 src) }] }
      else { h with writing := Function.update h.writing t false }
    | _ => h
  | .read site a _, bs =>
    match site with
    | .startReadSession window =>
      { h with window := window, reservedAt := h.reserved.length, copies := [] }
    | .windowRead row => { h with copies := h.copies ++ [⟨row, a, bs, h.commits.length⟩] }
    | .dataReadQuantitySample row =>
      { h with copies := h.copies ++ [⟨row, a, bs, h.commits.length⟩] }
    | _ => h
  | _, _ => h

/-- A store of the write index, and nothing else, is logged as a commit. -/
theorem track_commits (d : DataSectionDesc) (t : Nat) (o : Op) (w : World Ω) (resp : o.Resp)
    (h : History) :
    (track d t o w resp h).commits = h.commits ∨
      ∃ src, o = .write .endWriteSession 44 src ∧
        (track d t o w resp h).commits = h.commits ++
          [⟨t, decI32 src, metadataOf d w.mem (decI32 src), blobOf d w.mem (decI32 src)⟩] := by
  cases o with
  | write site a src =>
    cases site with
    | endWriteSession =>
      by_cases ha : a = 44
      · subst ha
        exact Or.inr ⟨src, rfl, by simp [track]⟩
      · exact Or.inl (by simp [track, ha])
    | _ => exact Or.inl rfl
  | addAndFetch site a v =>
    cases site with
    | startWriteSession =>
      refine Or.inl ?_
      simp only [track]
      split <;> rfl
    | _ => exact Or.inl rfl
  | read site a len => cases site <;> exact Or.inl rfl
  | _ => exact Or.inl rfl

/-- The machine of the library with the history. -/
def tracked (B : Backend Ω) (d : DataSectionDesc) :
    Machine Op.Resp Nat (World Ω × History) :=
  (machine B).ghost (track d)

/-! ## The invariant -/

/-- The section and its history agree, and at most one of the threads `A`
allows is in a write session. -/
structure RingInv (d : DataSectionDesc) (A : Nat → Prop) (s : World Ω × History) : Prop where
  excl : ∀ t u, s.2.writing t = true → s.2.writing u = true → t = u
  allowed : ∀ t, s.2.writing t = true → A t
  idle : (∀ t, s.2.writing t = false) →
    nbOngoing s.1.mem = 0 ∧ s.2.reserved.length = s.2.commits.length
  held : ∀ t, s.2.writing t = true → nbOngoing s.1.mem = toI32 (1 + s.2.refused)
  phase : s.2.reserved.length = s.2.commits.length ∨
    s.2.reserved.length = s.2.commits.length + 1
  reserved : ∀ (j : Nat) a, s.2.reserved[j]? = some a → a = slot d ((j : Int) % d.nbSamples)
  commits : ∀ (j : Nat) c, s.2.commits[j]? = some c → c.index = (j : Int) % d.nbSamples
  ring : RingMem d s.2.reserved.length s.2.commits s.1.mem

/-- Everything a thread in a write session relies on: the history and all bytes
after the section header. -/
structure Frozen (s s' : World Ω × History) : Prop where
  reserved : s'.2.reserved = s.2.reserved
  commits : s'.2.commits = s.2.commits
  mem : ∀ x, 56 ≤ x → s'.1.mem x = s.1.mem x

/-- What every observer of the section can rely on: the logs grow, the header
keeps all but the index and the ongoing counter, and a slot that is not
reserved keeps its sample. -/
structure Grows (d : DataSectionDesc) (s s' : World Ω × History) : Prop where
  reserved : s.2.reserved <+: s'.2.reserved
  commits : s.2.commits <+: s'.2.commits
  hdr : ∀ x, x < 44 ∨ (52 ≤ x ∧ x < d.dataSectionStart) → s'.1.mem x = s.1.mem x
  untouched : ∀ i, IsSlot d.nbSamples i →
    (∀ j : Nat, s.2.commits.length ≤ j → j < s'.2.reserved.length → (j : Int) % d.nbSamples ≠ i) →
    ∀ x, slot d i ≤ x → x < slot d i + stride d → (x < slot d i + 32 ∨ slot d i + 36 ≤ x) →
      s'.1.mem x = s.1.mem x
  session : s'.2.window = s.2.window ∧ s'.2.reservedAt = s.2.reservedAt ∧
    s'.2.copies = s.2.copies

/-- The commits that a thread made. -/
def commitsBy (t : Nat) (log : List Commit) : Nat := log.countP fun c => c.thread = t

/-- A write of sample data, by the functions that make one. -/
def IsDataWrite : Op → Prop
  | .write .dataWriteMetadata _ _ | .write .dataWriteQuantity _ _
  | .addAndFetch .startSampleWrite _ _ => True
  | _ => False

/-- A store of the write index. -/
def IsIndexStore : Op → Prop
  | .write .endWriteSession a _ => a = 44
  | _ => False

/-- What one operation of producer `t` may do. -/
structure Moves (d : DataSectionDesc) (A : Nat → Prop) (t : Nat) (o : Op)
    (s s' : World Ω × History) : Prop where
  inv : RingInv d A s'
  others : ∀ u, u ≠ t → s'.2.writing u = s.2.writing u
  frozen : ∀ u, u ≠ t → s.2.writing u = true → Frozen s s'
  grows : Grows d s s'
  byOthers : ∀ u, u ≠ t → commitsBy u s'.2.commits = commitsBy u s.2.commits
  data : IsDataWrite o → s.2.writing t = true
  store : IsIndexStore o → s.2.writing t = true ∧
    writeIndex s'.1.mem = indexNext (writeIndex s.1.mem) d.nbSamples ∧
    commitsBy t s'.2.commits = commitsBy t s.2.commits + 1
  noStore : ¬ IsIndexStore o →
    writeIndex s'.1.mem = writeIndex s.1.mem ∧ s'.2.commits = s.2.commits

theorem Frozen.refl (s : World Ω × History) : Frozen s s := ⟨rfl, rfl, fun _ _ => rfl⟩

theorem Frozen.trans {s s' s'' : World Ω × History} (h : Frozen s s') (h' : Frozen s' s'') :
    Frozen s s'' :=
  ⟨h'.reserved.trans h.reserved, h'.commits.trans h.commits,
    fun x hx => (h'.mem x hx).trans (h.mem x hx)⟩

theorem Grows.refl (d : DataSectionDesc) (s : World Ω × History) : Grows d s s :=
  ⟨List.prefix_refl _, List.prefix_refl _, fun _ _ => rfl, fun _ _ _ _ _ _ _ => rfl,
    rfl, rfl, rfl⟩

theorem Grows.trans {d : DataSectionDesc} {s s' s'' : World Ω × History} (h : Grows d s s')
    (h' : Grows d s' s'') : Grows d s s'' := by
  refine ⟨h.reserved.trans h'.reserved, h.commits.trans h'.commits,
    fun x hx => (h'.hdr x hx).trans (h.hdr x hx), fun i hi hj x h0 h1 h2 => ?_,
    h'.session.1.trans h.session.1, h'.session.2.1.trans h.session.2.1,
    h'.session.2.2.trans h.session.2.2⟩
  have hk := h.commits.length_le
  have hr := h'.reserved.length_le
  rw [h'.untouched i hi (fun j hj0 hj1 => hj j (by omega) hj1) x h0 h1 h2]
  exact h.untouched i hi (fun j hj0 hj1 => hj j hj0 (by omega)) x h0 h1 h2

/-! ## One operation of a producer -/

section Moves

variable {d : DataSectionDesc} {A : Nat → Prop} {t : Nat} {o : Op} {s s' : World Ω × History}

/-- The invariant is about the history and the bytes. -/
theorem RingInv.congr (h : RingInv d A s) (hm : s'.1.mem = s.1.mem)
    (hh : s'.2.reserved = s.2.reserved ∧ s'.2.commits = s.2.commits ∧
      s'.2.writing = s.2.writing ∧ s'.2.refused = s.2.refused) : RingInv d A s' := by
  obtain ⟨hr, hc, hw, hf⟩ := hh
  constructor
  · rw [hw]; exact h.excl
  · rw [hw]; exact h.allowed
  · rw [hw, hm, hr, hc]; exact h.idle
  · rw [hw, hm, hf]; exact h.held
  · rw [hr, hc]; exact h.phase
  · rw [hr]; exact h.reserved
  · rw [hc]; exact h.commits
  · rw [hr, hc, hm]; exact h.ring

/-- An operation that changes neither bytes nor history. -/
theorem moves_same (h : RingInv d A s) (hm : s'.1.mem = s.1.mem) (hh : s'.2 = s.2)
    (hd : ¬ IsDataWrite o) (hi : ¬ IsIndexStore o) : Moves d A t o s s' where
  inv := h.congr hm ⟨by rw [hh], by rw [hh], by rw [hh], by rw [hh]⟩
  others := fun u _ => by rw [hh]
  frozen := fun u _ _ => ⟨by rw [hh], by rw [hh], fun x _ => by rw [hm]⟩
  grows := by
    refine ⟨by rw [hh], by rw [hh], fun x _ => by rw [hm], fun _ _ _ x _ _ _ => by rw [hm], ?_⟩
    rw [hh]
    exact ⟨rfl, rfl, rfl⟩
  byOthers := fun u _ => by rw [hh]
  data := fun h => absurd h hd
  store := fun h => absurd h hi
  noStore := fun _ => ⟨by rw [hm], by rw [hh]⟩

/-- A write to the section header that leaves the index alone and keeps the
logs. -/
theorem moves_ongoing (hd : SoundDesc d) (h : RingInv d A s) {v : Int}
    (hm : s'.1.mem = s.1.mem.write 48 (encI32 v)) (hr : s'.2.reserved = s.2.reserved)
    (hc : s'.2.commits = s.2.commits)
    (hsess : s'.2.window = s.2.window ∧ s'.2.reservedAt = s.2.reservedAt ∧
      s'.2.copies = s.2.copies)
    (hexcl : ∀ t u, s'.2.writing t = true → s'.2.writing u = true → t = u)
    (hallow : ∀ t, s'.2.writing t = true → A t)
    (hidle : (∀ t, s'.2.writing t = false) → toI32 v = 0 ∧
      s.2.reserved.length = s.2.commits.length)
    (hheld : ∀ t, s'.2.writing t = true → toI32 v = toI32 (1 + s'.2.refused))
    (hothers : ∀ u, u ≠ t → s'.2.writing u = s.2.writing u)
    (hnd : ¬ IsDataWrite o) (hni : ¬ IsIndexStore o) : Moves d A t o s s' := by
  have hout := Mem.sameOutside_write s.1.mem 48 (encI32 v)
  rw [length_encI32, ← hm] at hout
  have hong : nbOngoing s'.1.mem = toI32 v := by
    rw [nbOngoing, hm]
    exact Mem.i32_write_same _ _ _
  have hwi : writeIndex s'.1.mem = writeIndex s.1.mem := hout.i32 (by omega)
  have hstart := hd.start
  refine ⟨⟨hexcl, hallow, ?_, ?_, ?_, ?_, ?_, ?_⟩, hothers, fun u _ _ => ?_, ?_, fun u _ => by rw [hc],
    fun hx => absurd hx hnd, fun hx => absurd hx hni, fun _ => ⟨hwi, hc⟩⟩
  · rw [hong, hr, hc]; exact hidle
  · rw [hong]; exact hheld
  · rw [hr, hc]; exact h.phase
  · rw [hr]; exact h.reserved
  · rw [hc]; exact h.commits
  · rw [hr, hc]
    exact h.ring.hdr hd fun x hx => hout x (by omega)
  · exact ⟨hr, hc, fun x hx => hout x (by omega)⟩
  · refine ⟨by rw [hr], by rw [hc], fun x hx => hout x (by omega), fun i hi _ x h0 _ _ => ?_, hsess⟩
    have := slot_bounds hd hi
    exact hout x (by omega)

/-- A refused attempt to start a session. -/
theorem moves_refused (hd : SoundDesc d) (h : RingInv d A s)
    (hm : s'.1.mem = s.1.mem.write 48 (encI32 (nbOngoing s.1.mem + 1)))
    (hh : s'.2 = { s.2 with refused := s.2.refused + 1 })
    (hne : toI32 (nbOngoing s.1.mem + 1) ≠ 1)
    (hnd : ¬ IsDataWrite o) (hni : ¬ IsIndexStore o) : Moves d A t o s s' := by
  have hw : s'.2.writing = s.2.writing := by rw [hh]
  refine moves_ongoing hd h hm (by rw [hh]) (by rw [hh]) (by rw [hh]; exact ⟨rfl, rfl, rfl⟩)
    (by rw [hw]; exact h.excl) (by rw [hw]; exact h.allowed) ?_ ?_ (fun u _ => by rw [hw]) hnd hni
  · intro hno
    rw [hw] at hno
    -- without a session the counter is 0, so the attempt would have succeeded
    rw [(h.idle hno).1] at hne
    exact absurd (toI32_of_isI32 ⟨by omega, by omega⟩) hne
  · intro u hu
    rw [hw] at hu
    have hsucc : ((s.2.refused + 1 : Nat) : Int) = s.2.refused + 1 := by push_cast; rfl
    rw [h.held u hu, toI32_add_toI32, hh, hsucc, Int.add_assoc]

/-- A successful attempt to start a session. -/
theorem moves_started (hd : SoundDesc d) (h : RingInv d A s) (ht : A t)
    (hno : ∀ u, u ≠ t → s.2.writing u = false)
    (hm : s'.1.mem = s.1.mem.write 48 (encI32 (nbOngoing s.1.mem + 1)))
    (hh : s'.2 = { s.2 with writing := Function.update s.2.writing t true, refused := 0 })
    (hone : toI32 (nbOngoing s.1.mem + 1) = 1)
    (hnd : ¬ IsDataWrite o) (hni : ¬ IsIndexStore o) : Moves d A t o s s' := by
  have hw : ∀ u, s'.2.writing u = true ↔ u = t := by
    intro u
    rw [hh]
    by_cases hu : u = t
    · simp [hu]
    · simp [hu, hno u hu]
  refine moves_ongoing hd h hm (by rw [hh]) (by rw [hh]) (by rw [hh]; exact ⟨rfl, rfl, rfl⟩)
    ?_ ?_ ?_ ?_ ?_ hnd hni
  · intro u v hu hv
    rw [(hw u).mp hu, (hw v).mp hv]
  · intro u hu
    rw [(hw u).mp hu]
    exact ht
  · intro hnone
    have := hnone t
    rw [(hw t).mpr rfl] at this
    exact absurd this (by decide)
  · intro u _
    rw [hone, hh]
    exact (toI32_of_isI32 ⟨by omega, by omega⟩).symm
  · intro u hu
    rw [hh]
    simp [hu]

/-- The reset of the counter at the end of a session. -/
theorem moves_reset (hd : SoundDesc d) (h : RingInv d A s) (ht : s.2.writing t = true)
    (hr : s.2.reserved.length = s.2.commits.length)
    (hm : s'.1.mem = s.1.mem.write 48 (encI32 0))
    (hh : s'.2 = { s.2 with writing := Function.update s.2.writing t false })
    (hnd : ¬ IsDataWrite o) (hni : ¬ IsIndexStore o) : Moves d A t o s s' := by
  have hw : ∀ u, s'.2.writing u = false := by
    intro u
    rw [hh]
    by_cases hu : u = t
    · simp [hu]
    · have hne : s.2.writing u ≠ true := fun hx => hu (h.excl u t hx ht)
      simpa [hu] using hne
  refine moves_ongoing hd h hm (by rw [hh]) (by rw [hh]) (by rw [hh]; exact ⟨rfl, rfl, rfl⟩)
    ?_ ?_ (fun _ => ⟨toI32_of_isI32 ⟨by omega, by omega⟩, hr⟩)
    ?_ ?_ hnd hni
  · intro u v hu
    rw [hw u] at hu
    exact absurd hu (by decide)
  · intro u hu
    rw [hw u] at hu
    exact absurd hu (by decide)
  · intro u hu
    rw [hw u] at hu
    exact absurd hu (by decide)
  · intro u hu
    rw [hh]
    simp [hu]

/-- The only thread in a session is `t`: nobody else is frozen. -/
theorem RingInv.frozen_others (h : RingInv d A s) (ht : s.2.writing t = true) :
    ∀ u, u ≠ t → s.2.writing u = true → Frozen s s' :=
  fun u hu hw => absurd (h.excl u t hw ht) hu

/-- The reservation of the slot after the published one. -/
theorem moves_reserve (hd : SoundDesc d) (h : RingInv d A s) (ht : s.2.writing t = true)
    (hr : s.2.reserved.length = s.2.commits.length)
    (hm : s'.1.mem = s.1.mem.write (slot d ((s.2.commits.length : Int) % d.nbSamples) + 32)
      (encI32 (nbWrites d s.1.mem ((s.2.commits.length : Int) % d.nbSamples) + 1)))
    (hh : s'.2 = { s.2 with reserved := s.2.reserved ++
      [slot d ((s.2.commits.length : Int) % d.nbSamples)] })
    (hni : ¬ IsIndexStore o) : Moves d A t o s s' := by
  have hslot := isSlot_emod hd.size (s.2.commits.length : Int)
  have hp := slot_bounds hd hslot
  have hsp := hd.stride_pos
  have hout := Mem.sameOutside_write s.1.mem
    (slot d ((s.2.commits.length : Int) % d.nbSamples) + 32)
    (encI32 (nbWrites d s.1.mem ((s.2.commits.length : Int) % d.nbSamples) + 1))
  rw [length_encI32, ← hm] at hout
  have hw : s'.2.writing = s.2.writing := by rw [hh]
  have hc : s'.2.commits = s.2.commits := by rw [hh]
  have hlen : s'.2.reserved.length = s.2.commits.length + 1 := by
    rw [hh]
    simp [hr]
  have hong : nbOngoing s'.1.mem = nbOngoing s.1.mem := hout.i32 (by omega)
  have hwi : writeIndex s'.1.mem = writeIndex s.1.mem := hout.i32 (by omega)
  refine ⟨⟨?_, ?_, ?_, ?_, ?_, ?_, ?_, ?_⟩, fun u _ => by rw [hw], h.frozen_others ht, ?_,
    fun u _ => by rw [hc], fun _ => ht, fun hx => absurd hx hni, fun _ => ⟨hwi, hc⟩⟩
  · rw [hw]; exact h.excl
  · rw [hw]; exact h.allowed
  · intro hno
    rw [hw] at hno
    rw [hno t] at ht
    exact absurd ht (by decide)
  · intro u hu
    rw [hw] at hu
    rw [hong, h.held u hu, hh]
  · rw [hc]
    exact Or.inr hlen
  · intro j a hj
    rw [hh] at hj
    rcases Nat.lt_trichotomy j s.2.reserved.length with hlt | heq | hgt
    · rw [List.getElem?_append_left hlt] at hj
      exact h.reserved j a hj
    · subst heq
      rw [hr]
      simpa using hj.symm
    · have := (List.getElem?_eq_some_iff.mp hj).1
      simp at this
      omega
  · rw [hc]; exact h.commits
  · rw [hlen, hc, hm]
    have hring := h.ring
    rw [hr] at hring
    exact hring.reserve hd
  · refine ⟨by rw [hh]; exact List.prefix_append _ _, by rw [hc], ?_, ?_, by rw [hh]; exact ⟨rfl, rfl, rfl⟩⟩
    · intro x hx
      have h0 : slot d 0 ≤ slot d ((s.2.commits.length : Int) % d.nbSamples) :=
        slot_mono hd hslot.nonneg
      have hs0 : slot d 0 = d.dataSectionStart := by simp [slot]
      have := hd.start
      exact hout x (by omega)
    · intro i hi hj x h0 h1 h2
      have hne : i ≠ (s.2.commits.length : Int) % d.nbSamples :=
        fun he => hj s.2.commits.length (le_refl _) (by omega) he.symm
      have := slot_disjoint hd hne
      exact hout x (by omega)

/-- A copy into the reserved slot. -/
theorem moves_data (hd : SoundDesc d) (h : RingInv d A s) (ht : s.2.writing t = true)
    (hr : s.2.reserved.length = s.2.commits.length + 1) {a : Int} {src : List UInt8}
    (hm : s'.1.mem = s.1.mem.write a src) (hh : s'.2 = s.2)
    (ha : slot d ((s.2.commits.length : Int) % d.nbSamples) ≤ a)
    (hb : a + src.length ≤ slot d ((s.2.commits.length : Int) % d.nbSamples) + stride d)
    (hcnt : a + src.length ≤ slot d ((s.2.commits.length : Int) % d.nbSamples) + 32 ∨
      slot d ((s.2.commits.length : Int) % d.nbSamples) + 36 ≤ a)
    (hni : ¬ IsIndexStore o) : Moves d A t o s s' := by
  have hslot := isSlot_emod hd.size (s.2.commits.length : Int)
  have hp := slot_bounds hd hslot
  have hsp := hd.stride_pos
  have hout := Mem.sameOutside_write s.1.mem a src
  rw [← hm] at hout
  have hong : nbOngoing s'.1.mem = nbOngoing s.1.mem := hout.i32 (by omega)
  have hwi : writeIndex s'.1.mem = writeIndex s.1.mem := hout.i32 (by omega)
  refine ⟨⟨?_, ?_, ?_, ?_, ?_, ?_, ?_, ?_⟩, fun u _ => by rw [hh], h.frozen_others ht, ?_,
    fun u _ => by rw [hh], fun _ => ht, fun hx => absurd hx hni, fun _ => ⟨hwi, by rw [hh]⟩⟩
  · rw [hh]; exact h.excl
  · rw [hh]; exact h.allowed
  · rw [hong, hh]; exact h.idle
  · rw [hong, hh]; exact h.held
  · rw [hh]; exact h.phase
  · rw [hh]; exact h.reserved
  · rw [hh]; exact h.commits
  · rw [hh]
    have hring := h.ring
    rw [hr] at hring ⊢
    exact hring.data hd fun x hx => hout x (by omega)
  · refine ⟨by rw [hh], by rw [hh], ?_, ?_, by rw [hh]; exact ⟨rfl, rfl, rfl⟩⟩
    · intro x hx
      have h0 : slot d 0 ≤ slot d ((s.2.commits.length : Int) % d.nbSamples) :=
        slot_mono hd hslot.nonneg
      have hs0 : slot d 0 = d.dataSectionStart := by simp [slot]
      have := hd.start
      exact hout x (by omega)
    · intro i hi hj x h0 h1 h2
      rw [hh] at hj
      have hne : i ≠ (s.2.commits.length : Int) % d.nbSamples :=
        fun he => hj s.2.commits.length (le_refl _) (by omega) he.symm
      have := slot_disjoint hd hne
      exact hout x (by omega)

/-- The store of the write index. -/
theorem moves_commit (hd : SoundDesc d) (h : RingInv d A s) (ht : s.2.writing t = true)
    (hr : s.2.reserved.length = s.2.commits.length + 1) {c : Commit}
    (hthread : c.thread = t) (hidx : c.index = (s.2.commits.length : Int) % d.nbSamples)
    (hmd : c.metadata = metadataOf d s.1.mem ((s.2.commits.length : Int) % d.nbSamples))
    (hblob : c.blob = blobOf d s.1.mem ((s.2.commits.length : Int) % d.nbSamples))
    (hm : s'.1.mem = s.1.mem.write 44 (encI32 ((s.2.commits.length : Int) % d.nbSamples)))
    (hh : s'.2 = { s.2 with commits := s.2.commits ++ [c] })
    (hnd : ¬ IsDataWrite o) (hi : IsIndexStore o) : Moves d A t o s s' := by
  have hout := Mem.sameOutside_write s.1.mem 44
    (encI32 ((s.2.commits.length : Int) % d.nbSamples))
  rw [length_encI32, ← hm] at hout
  have hstart := hd.start
  have hw : s'.2.writing = s.2.writing := by rw [hh]
  have hres : s'.2.reserved = s.2.reserved := by rw [hh]
  have hc : s'.2.commits = s.2.commits ++ [c] := by rw [hh]
  have hong : nbOngoing s'.1.mem = nbOngoing s.1.mem := hout.i32 (by omega)
  have hring := h.ring
  rw [hr] at hring
  refine ⟨⟨?_, ?_, ?_, ?_, ?_, ?_, ?_, ?_⟩, fun u _ => by rw [hw], h.frozen_others ht, ?_, ?_,
    fun hx => absurd hx hnd, fun _ => ⟨ht, ?_, ?_⟩, fun hx => absurd hi hx⟩
  · rw [hw]; exact h.excl
  · rw [hw]; exact h.allowed
  · intro hno
    rw [hw] at hno
    rw [hno t] at ht
    exact absurd ht (by decide)
  · intro u hu
    rw [hw] at hu
    rw [hong, h.held u hu, hh]
  · rw [hres, hc, hr]
    simp
  · rw [hres]; exact h.reserved
  · intro j c' hj
    rw [hc] at hj
    rcases Nat.lt_trichotomy j s.2.commits.length with hlt | heq | hgt
    · rw [List.getElem?_append_left hlt] at hj
      exact h.commits j c' hj
    · subst heq
      obtain rfl : c = c' := by simpa using hj
      exact hidx
    · have := (List.getElem?_eq_some_iff.mp hj).1
      simp at this
      omega
  · rw [hres, hr, hc, hm]
    exact hring.commit hd hmd hblob
  · refine ⟨by rw [hres], by rw [hc]; exact List.prefix_append _ _, fun x hx => hout x (by omega),
      fun i hi _ x h0 _ _ => ?_, by rw [hh]; exact ⟨rfl, rfl, rfl⟩⟩
    have := slot_bounds hd hi
    exact hout x (by omega)
  · intro u hu
    rw [hc, commitsBy, commitsBy, List.countP_append]
    simp [hthread, Ne.symm hu]
  · rw [hring.index_next hd, writeIndex, hm]
    exact (Mem.i32_write_same _ _ _).trans ((isSlot_emod hd.size _).isI32 hd.size)
  · rw [hc, commitsBy, commitsBy, List.countP_append]
    simp [hthread]

end Moves

end Shdata.Trace
