/-
Shdata.Layout.Agree — the computations of the layout of a section agree, as
long as the clearing of the slots leaves the header alone.

The requested size and the mapped size are one number on every target: a
rounded offset stays a multiple of 4 when it wraps (`requested_eq_mapped`).

A consumer computes its layout from the header in memory. After that header
is written, the creation fills the data section with zeros and stores -1 in
the counter of every slot. The unsigned loop counter converts to an `int`
index, so the counters from slot 2^31 on are stored below the data section. The
pointers wrap, a single counter never does (`counterAddr_end`).
`mem_createPublish` gives each byte of the header after all this, and
`consumerLayout_eq_iff` reads off when it is still the one that was written.
-/
import Shdata.Core.Target
import Shdata.Layout.Header
import Shdata.Solo.Open

namespace Shdata.Layout

open Shdata.Conc Shdata.Bytes Shdata.Core Shdata.Solo

/-! ## Sizes -/

section Sizes

variable {T : Target} {h : HdrUserInfo}

/-- **The requested size is the mapped size.** -/
theorem requested_eq_mapped (hT : T.Ok) (h : HdrUserInfo) :
    sectionGetTotalSize T.toAbi h = (getOffsets T.toAbi h).totalSize := by
  obtain ⟨n, hn⟩ : ∃ n, dataGetTotalSize T.toAbi h.blobSize.toNat h.maxNbSamples.toNat = n :=
    ⟨_, rfl⟩
  simp only [sectionGetTotalSize, getOffsets, hn, alignUp, Abi.toSize]
  rcases hT.word with hw | hw <;> rw [hw] <;> norm_num only <;> omega

/-- The blob metadata and the data section come after the synchronization part. -/
theorem metadataTop_ge (hT : T.Ok) :
    T.offsetofSyncInfo + 12 ≤ (getOffsets T.toAbi h).metadataOffset := by
  have h0 := hT.sync
  have h1 := hT.hdr_ge
  have h2 := hT.hdr_le
  show _ ≤ alignUp T.toAbi T.sizeofShdHdr
  unfold alignUp Abi.toSize
  rcases hT.word with hw | hw <;> rw [hw] <;> norm_num only <;> omega

end Sizes

/-! ## Bytes of a number -/

/-- The number in a range of a memory is `v` when every byte of the range is the one of
`v`. -/
theorem leNat_read_eq_iff (m : Mem) (a : Int) {n v : Nat} (hv : v < 256 ^ n) :
    leNat (m.read a n) = v ↔ ∀ k : Nat, k < n → m (a + k) = (leBytes n v).getD k 0 := by
  have hlen : (m.read a n).length = n := m.length_read a n
  have hbytes : leNat (m.read a n) = v ↔ m.read a n = leBytes n v := by
    constructor
    · intro he
      have := leBytes_leNat (m.read a n)
      rw [hlen, he] at this
      exact this.symm
    · intro he
      rw [he, leNat_leBytes, Nat.mod_eq_of_lt hv]
  rw [hbytes]
  constructor
  · intro he k hk
    have hget := m.getElem_read a n k (by omega)
    rw [← hget, List.getD_eq_getElem?_getD, ← he, List.getElem?_eq_getElem, Option.getD_some]
  · intro hall
    refine List.ext_getElem (by simp) fun k h1 h2 => ?_
    rw [m.getElem_read, hall k (by omega), List.getD_eq_getElem?_getD,
      List.getElem?_eq_getElem h2, Option.getD_some]

/-! ## Layouts from the fields -/

/-- A field of the user info that a layout is computed from: its address, its size and
its value. -/
structure HdrField where
  addr : Int
  size : Nat
  value : Nat

/-- The byte `k` of a field. -/
def HdrField.byte (f : HdrField) (k : Nat) : UInt8 := (leBytes f.size f.value).getD k 0

/-- Every field but the rate. -/
def layoutFields (T : Target) (h : HdrUserInfo) : List HdrField :=
  [⟨T.offsetofUserInfo, T.wordBytes, h.blobSize.toNat⟩,
    ⟨T.offsetofUserInfo + T.wordBytes, 4, h.maxNbSamples.toNat⟩,
    ⟨T.offsetofUserInfo + (T.wordBytes + 8 : Nat), T.wordBytes, h.blobMetadataHdrSize.toNat⟩]

/-- The `size_t` fields of a header are values of the `size_t` of the target. -/
structure HdrOf (T : Target) (h : HdrUserInfo) : Prop where
  blob : h.blobSize.toNat < 2 ^ T.word
  mdata : h.blobMetadataHdrSize.toNat < 2 ^ T.word

section Fields

variable {T : Target} {h : HdrUserInfo}

theorem pow_wordBytes (hT : T.Ok) : 256 ^ T.wordBytes = 2 ^ T.word := by
  unfold Target.wordBytes
  rcases hT.word with hw | hw
  · rw [hw]; rfl
  · rw [hw]; rfl

theorem pow_wordBytes_le (hT : T.Ok) : 256 ^ T.wordBytes ≤ 2 ^ 64 := by
  rw [pow_wordBytes hT]
  rcases hT.word with hw | hw
  · rw [hw]; decide
  · rw [hw]

/-- The fields come before the synchronization part. -/
theorem layoutFields_addr (hT : T.Ok) {f : HdrField} (hf : f ∈ layoutFields T h) {k : Nat}
    (hk : k < f.size) : f.addr + (k : Int) < T.offsetofSyncInfo := by
  have huser := hT.user
  have hsync := hT.sync
  simp only [layoutFields, List.mem_cons, List.not_mem_nil, or_false] at hf
  rcases hf with rfl | rfl | rfl <;> simp only at hk ⊢ <;> omega

/-- Every value fits its field. -/
theorem layoutFields_lt (hT : T.Ok) (hh : HdrOf T h) :
    ∀ f ∈ layoutFields T h, f.value < 256 ^ f.size := by
  intro f hf
  simp only [layoutFields, List.mem_cons, List.not_mem_nil, or_false] at hf
  rcases hf with rfl | rfl | rfl
  · exact (pow_wordBytes hT).symm ▸ hh.blob
  · exact h.maxNbSamples.toNat_lt
  · exact (pow_wordBytes hT).symm ▸ hh.mdata

/-- The fields of a header that is copied out of a memory. -/
theorem decHdrUserInfo_read (hT : T.Ok) (m : Mem) (a : Int) :
    (T.decHdrUserInfo (m.read a T.sizeofUserInfo)).blobSize.toNat
        = leNat (m.read a T.wordBytes) ∧
      (T.decHdrUserInfo (m.read a T.sizeofUserInfo)).maxNbSamples.toNat
        = leNat (m.read (a + T.wordBytes) 4) ∧
      (T.decHdrUserInfo (m.read a T.sizeofUserInfo)).blobMetadataHdrSize.toNat
        = leNat (m.read (a + (T.wordBytes + 8 : Nat)) T.wordBytes) := by
  have hsize : T.sizeofUserInfo = 8 + 2 * T.wordBytes := rfl
  have hword : ∀ b : Int, leNat (m.read b T.wordBytes) < 2 ^ 64 := fun b => by
    have := leNat_lt (m.read b T.wordBytes)
    rw [Mem.length_read] at this
    exact lt_of_lt_of_le this (pow_wordBytes_le hT)
  have hfour : leNat (m.read (a + T.wordBytes) 4) < 2 ^ 32 := by
    have := leNat_lt (m.read (a + T.wordBytes) 4)
    rwa [Mem.length_read] at this
  have htake : (m.read a T.sizeofUserInfo).take T.wordBytes = m.read a T.wordBytes := by
    have := m.read_drop_take a T.sizeofUserInfo 0 T.wordBytes (by omega)
    simpa using this
  have hnb := m.read_drop_take a T.sizeofUserInfo T.wordBytes 4 (by omega)
  have hmd := m.read_drop_take a T.sizeofUserInfo (T.wordBytes + 8) T.wordBytes (by omega)
  simp only [Target.decHdrUserInfo, htake, hnb, hmd]
  exact ⟨UInt64.toNat_ofNat_of_lt' (hword a), UInt32.toNat_ofNat_of_lt' hfour,
    UInt64.toNat_ofNat_of_lt' (hword _)⟩

/-- The offsets depend on three fields. -/
theorem getOffsets_congr {A : Abi} {h h' : HdrUserInfo}
    (hblob : h'.blobSize.toNat = h.blobSize.toNat)
    (hnb : h'.maxNbSamples.toNat = h.maxNbSamples.toNat)
    (hmd : h'.blobMetadataHdrSize.toNat = h.blobMetadataHdrSize.toNat) :
    getOffsets A h' = getOffsets A h := by
  simp only [getOffsets, hblob, hnb, hmd]

/-- A consumer and a producer agree when the fields in memory are those of the
producer's header. -/
theorem consumerLayout_eq_iff_fields (hT : T.Ok) (m : Mem) :
    T.consumerLayout m = T.producerLayout h ↔
      ∀ f ∈ layoutFields T h, leNat (m.read f.addr f.size) = f.value := by
  obtain ⟨hblob, hnb, hmd⟩ := decHdrUserInfo_read hT m T.offsetofUserInfo
  constructor
  · intro he f hf
    have hdesc := congrArg Target.Layout.desc he
    have hmdata := congrArg (fun l => l.offsets.metadataSize) he
    simp only [layoutFields, List.mem_cons, List.not_mem_nil, or_false] at hf
    rcases hf with rfl | rfl | rfl
    · exact Int.ofNat.inj (congrArg DataSectionDesc.blobSize hdesc)
    · exact Int.ofNat.inj (congrArg DataSectionDesc.nbSamples hdesc)
    · rw [← hmd]
      exact Int.ofNat.inj hmdata
  · intro hall
    have h1 := hall _ (List.mem_cons_self)
    have h2 := hall _ (List.mem_cons_of_mem _ List.mem_cons_self)
    have h3 := hall _ (List.mem_cons_of_mem _ (List.mem_cons_of_mem _ List.mem_cons_self))
    have hoffsets := getOffsets_congr (A := T.toAbi) (hblob.trans h1) (hnb.trans h2) (hmd.trans h3)
    have hblob' : leNat (m.read (getMmap (getOffsets T.toAbi h)).headerTop T.wordBytes)
        = h.blobSize.toNat := h1
    have hnb' : leNat (m.read ((getMmap (getOffsets T.toAbi h)).headerTop + T.wordBytes) 4)
        = h.maxNbSamples.toNat := h2
    simp only [Target.consumerLayout, Target.producerLayout, hoffsets, hblob', hnb']

end Fields

/-! ## The header after a creation -/

/-- Where the clearing stores the counter of the slot that it reaches at `i`. The sum
is a pointer, so it wraps. -/
def counterAddr (T : Target) (d : DataSectionDesc) (i : Int) : Int :=
  T.toSize (T.dataGetSamplePtr d (toI32 i) + T.offsetofNbWrites)

/-- The clearing stores the counter of a slot over the byte at `x`. -/
def Stamped (T : Target) (d : DataSectionDesc) (x : Int) : Prop :=
  ∃ i : Nat, i < d.nbSamples.toNat ∧ counterAddr T d i ≤ x ∧ x < counterAddr T d i + 4

/-- The clearing fills the byte at `x` with zero. -/
def Zeroed (T : Target) (d : DataSectionDesc) (x : Int) : Prop :=
  d.dataSectionStart ≤ x ∧
    x < d.dataSectionStart + (dataGetTotalSize T.toAbi d.blobSize d.nbSamples).toNat

/-- What the clearing of the section of `h` writes over the fields of the header is
what they hold already. -/
structure HeaderKept (T : Target) (h : HdrUserInfo) : Prop where
  stamped : ∀ f ∈ layoutFields T h, ∀ k : Nat, k < f.size →
    Stamped T (T.producerLayout h).desc (f.addr + k) → f.byte k = 255
  zeroed : ∀ f ∈ layoutFields T h, ∀ k : Nat, k < f.size →
    ¬ Stamped T (T.producerLayout h).desc (f.addr + k) →
      Zeroed T (T.producerLayout h).desc (f.addr + k) → f.byte k = 0

section Writes

variable {Ω : Type} {B : Backend Ω} {t : Nat} {T : Target} {h : HdrUserInfo}

theorem encI32_minus_one : encI32 (-1) = List.replicate 4 255 := by decide +kernel

/-- The bytes after the loop of the clearing, from slot `i` on for `n` slots. -/
theorem mem_dataClearLoop (d : DataSectionDesc) (n i : Nat) (w : World Ω) (x : Int) :
    ((∃ j, i ≤ j ∧ j < i + n ∧ counterAddr T d j ≤ x ∧ x < counterAddr T d j + 4) →
        (exec (machine B) t (T.dataClearLoop d n i) w).2.mem x = 255) ∧
      ((¬ ∃ j, i ≤ j ∧ j < i + n ∧ counterAddr T d j ≤ x ∧ x < counterAddr T d j + 4) →
        (exec (machine B) t (T.dataClearLoop d n i) w).2.mem x = w.mem x) := by
  induction n generalizing i w with
  | zero => exact ⟨fun ⟨j, h0, h1, _⟩ => absurd h1 (by omega), fun _ => rfl⟩
  | succ n ih =>
    obtain ⟨hin, hout⟩ := ih (i + 1)
      { w with mem := w.mem.write (counterAddr T d i) (encI32 (-1)) }
    have hstep : (exec (machine B) t (T.dataClearLoop d (n + 1) i) w).2.mem x
        = (exec (machine B) t (T.dataClearLoop d n (i + 1 : Nat))
            { w with mem := w.mem.write (counterAddr T d i) (encI32 (-1)) }).2.mem x := rfl
    rw [hstep]
    by_cases hlater : ∃ j, i + 1 ≤ j ∧ j < i + 1 + n ∧ counterAddr T d j ≤ x ∧
      x < counterAddr T d j + 4
    · refine ⟨fun _ => hin hlater, fun hno => ?_⟩
      obtain ⟨j, h0, h1, hj⟩ := hlater
      exact absurd ⟨j, by omega, by omega, hj⟩ hno
    · rw [hout hlater]
      dsimp only
      constructor
      · rintro ⟨j, h0, h1, hle, hlt⟩
        -- only the counter of slot `i` is left
        have hj : j = i := by
          by_contra hne
          exact hlater ⟨j, by omega, by omega, hle, hlt⟩
        subst hj
        rw [Mem.write_of_mem hle (by rw [length_encI32]; exact hlt), encI32_minus_one,
          List.getD_eq_getElem?_getD, List.getElem?_replicate_of_lt (by omega), Option.getD_some]
      · intro hno
        refine Mem.write_of_not_mem ?_
        rw [length_encI32]
        by_contra hin
        exact hno ⟨i, le_refl i, by omega, by omega, by omega⟩

/-- The bytes after the clearing of a data section. -/
theorem mem_dataClearSection (d : DataSectionDesc) (w : World Ω) (x : Int) :
    (Stamped T d x → (exec (machine B) t (T.dataClearSection d) w).2.mem x = 255) ∧
      (¬ Stamped T d x → Zeroed T d x →
        (exec (machine B) t (T.dataClearSection d) w).2.mem x = 0) ∧
      (¬ Stamped T d x → ¬ Zeroed T d x →
        (exec (machine B) t (T.dataClearSection d) w).2.mem x = w.mem x) := by
  have hloop := mem_dataClearLoop (B := B) (t := t) (T := T) d d.nbSamples.toNat 0
    { w with mem := (w.mem.write d.dataSectionStart
        (List.replicate (dataGetTotalSize T.toAbi d.blobSize d.nbSamples).toNat 0)) } x
  have hiff : (∃ j, 0 ≤ j ∧ j < 0 + d.nbSamples.toNat ∧ counterAddr T d (j : Nat) ≤ x ∧
      x < counterAddr T d (j : Nat) + 4) ↔ Stamped T d x := by
    simp [Stamped]
  rw [hiff] at hloop
  refine ⟨hloop.1, fun hs hz => (hloop.2 hs).trans ?_, fun hs hz => (hloop.2 hs).trans ?_⟩
  · have hlt := hz.2
    dsimp only
    rw [Mem.write_of_mem hz.1 (by rw [List.length_replicate]; exact hlt),
      List.getD_eq_getElem?_getD, List.getElem?_replicate_of_lt (by have := hz.1; omega),
      Option.getD_some]
  · refine Mem.write_of_not_mem ?_
    rw [List.length_replicate]
    unfold Zeroed at hz
    omega

@[simp] theorem length_encHdrUserInfo_target (T : Target) (h : HdrUserInfo) :
    (T.encHdrUserInfo h).length = T.sizeofUserInfo := by
  simp only [Target.encHdrUserInfo, Target.sizeofUserInfo, List.length_append, length_leBytes]
  omega

/-- `shd_hdr_write` leaves the header in the section. -/
theorem read_hdrWrite (hT : T.Ok) (h : HdrUserInfo) (w : World Ω) :
    (exec (machine B) t (T.hdrWrite 0 h) w).2.mem.read T.offsetofUserInfo T.sizeofUserInfo
      = T.encHdrUserInfo h := by
  have huser := hT.user
  have hsync := hT.sync
  have hsize : T.sizeofUserInfo = 8 + 2 * T.wordBytes := rfl
  have hsame := read_write_unless w.mem T.offsetofUserInfo (T.encHdrUserInfo h)
  rw [length_encHdrUserInfo_target] at hsame
  have hread : ∀ m : Mem, (((((m.write (T.offsetofSyncInfo + offsetofWriteIndex)
      (encI32 (-1))).write (T.offsetofSyncInfo + offsetofNbOngoing) (encI32 0)).write 0
        (leBytes 8 SHD_MAGIC_NUMBER)).write 8 (leBytes 4 SHD_VERSION_MAJOR)).write 12
          (leBytes 4 SHD_VERSION_MINOR)).read T.offsetofUserInfo T.sizeofUserInfo
      = m.read T.offsetofUserInfo T.sizeofUserInfo := fun m => by
    refine Mem.read_congr fun x h0 h1 => ?_
    rw [Mem.write_of_not_mem (by simp; omega), Mem.write_of_not_mem (by simp; omega),
      Mem.write_of_not_mem (by simp; omega),
      Mem.write_of_not_mem (by rw [offsetofNbOngoing]; omega),
      Mem.write_of_not_mem (by rw [offsetofWriteIndex]; omega)]
  rw [Target.hdrWrite, exec_bind, exec_memcpyOut, exec_bind, Int.zero_add T.offsetofUserInfo,
    Int.zero_add T.offsetofSyncInfo]
  dsimp only
  split
  · rename_i hne
    rw [if_pos hne] at hsame
    exact (hread _).trans hsame
  · rename_i heq
    rw [if_neg heq] at hsame
    exact (hread _).trans hsame

/-- The blob metadata are written from their own address on. -/
theorem mem_mdataHdrWrite (a : Int) (src : List UInt8) (n : Nat) (w : World Ω) {x : Int}
    (hx : x < a) : (exec (machine B) t (mdataHdrWrite a src n) w).2.mem x = w.mem x := by
  rw [mdataHdrWrite, exec_bind, exec_memcpyOut]
  split
  · exact Mem.write_of_not_mem (Or.inl hx)
  · rfl

theorem mem_updateGlobalRevisionNb (a : Int) (w : World Ω) {x : Int} (hx : x < a) :
    (exec (machine B) t (syncUpdateGlobalRevisionNb a) w).2.mem x = w.mem x := by
  rw [syncUpdateGlobalRevisionNb, exec_bind, exec_addAndFetch]
  split
  · exact Mem.write_of_not_mem (Or.inl hx)
  · exact Mem.write_of_not_mem (Or.inl hx)

/-- The fields of a memory that holds the header. -/
theorem read_field_target (hT : T.Ok) (hh : HdrOf T h) {m : Mem}
    (hm : m.read T.offsetofUserInfo T.sizeofUserInfo = T.encHdrUserInfo h) :
    ∀ f ∈ layoutFields T h, leNat (m.read f.addr f.size) = f.value := by
  have hsize : T.sizeofUserInfo = 8 + 2 * T.wordBytes := rfl
  have hfield : ∀ i n : Nat, i + n ≤ T.sizeofUserInfo →
      m.read (T.offsetofUserInfo + (i : Int)) n = ((T.encHdrUserInfo h).drop i).take n :=
    fun i n hle => by rw [← hm, Mem.read_drop_take m _ _ _ _ hle]
  have hdrop : (T.encHdrUserInfo h).drop T.wordBytes
      = leBytes 4 h.maxNbSamples.toNat ++
        (leBytes 4 h.rate.toNat ++ leBytes T.wordBytes h.blobMetadataHdrSize.toNat) :=
    drop_append_leBytes _ _ _
  intro f hf
  have hlt := layoutFields_lt hT hh f hf
  simp only [layoutFields, List.mem_cons, List.not_mem_nil, or_false] at hf
  rcases hf with rfl | rfl | rfl
  · have h0 := hfield 0 T.wordBytes (by omega)
    simp only [Nat.cast_zero, Int.add_zero, List.drop_zero] at h0
    rw [h0, Target.encHdrUserInfo, leNat_take_append, Nat.mod_eq_of_lt hlt]
  · rw [hfield T.wordBytes 4 (by omega), hdrop, leNat_take_append, Nat.mod_eq_of_lt hlt]
  · rw [hfield (T.wordBytes + 8) T.wordBytes (by omega), ← List.drop_drop, hdrop,
      show 8 = 4 + 4 from rfl, ← List.drop_drop, drop_append_leBytes, drop_append_leBytes,
      List.take_of_length_le (by simp), leNat_leBytes, Nat.mod_eq_of_lt hlt]

/-- Each byte of the header after the part of a creation that writes. -/
theorem mem_createPublish (hT : T.Ok) (hh : HdrOf T h) (mdata : List UInt8) (first : Bool)
    (w : World Ω) {m : Mem}
    (hm : (exec (machine B) t (T.createPublish (getMmap (getOffsets T.toAbi h))
      (T.producerLayout h).desc h mdata first) w).2.mem = m) :
    ∀ f ∈ layoutFields T h, ∀ k : Nat, k < f.size →
      (Stamped T (T.producerLayout h).desc (f.addr + k) → m (f.addr + k) = 255) ∧
        (¬ Stamped T (T.producerLayout h).desc (f.addr + k) →
          Zeroed T (T.producerLayout h).desc (f.addr + k) → m (f.addr + k) = 0) ∧
        (¬ Stamped T (T.producerLayout h).desc (f.addr + k) →
          ¬ Zeroed T (T.producerLayout h).desc (f.addr + k) → m (f.addr + k) = f.byte k) := by
  have htop := metadataTop_ge (h := h) hT
  intro f hf k hk
  have hval := layoutFields_lt hT hh f hf
  have hin := layoutFields_addr hT hf hk
  rw [Target.createPublish, exec_bind, exec_bind, exec_bind, exec_bind] at hm
  rw [← hm, mem_updateGlobalRevisionNb (getMmap (getOffsets T.toAbi h)).syncTop _ hin]
  obtain ⟨hs, hz, hkeep⟩ := mem_dataClearSection (B := B) (t := t) (T := T)
    (T.producerLayout h).desc (exec (machine B) t (mdataHdrWrite
      (getMmap (getOffsets T.toAbi h)).metadataBlobTop mdata h.blobMetadataHdrSize.toNat)
        (exec (machine B) t (T.hdrWrite (getMmap (getOffsets T.toAbi h)).sectionTop h)
          (exec (machine B) t (syncInvalidateSection (getMmap (getOffsets T.toAbi h)).syncTop
            first) w).2).2).2 (f.addr + k)
  refine ⟨hs, hz, fun h1 h2 => (hkeep h1 h2).trans ?_⟩
  have hbefore : f.addr + (k : Int) < (getMmap (getOffsets T.toAbi h)).metadataBlobTop := by
    show _ < (getOffsets T.toAbi h).metadataOffset
    omega
  rw [mem_mdataHdrWrite _ _ _ _ hbefore]
  have hread := read_field_target hT hh (read_hdrWrite (B := B) (t := t) hT h
    (exec (machine B) t (syncInvalidateSection (getMmap (getOffsets T.toAbi h)).syncTop first)
      w).2) f hf
  exact (leNat_read_eq_iff _ _ hval).mp hread k hk

/-- When a consumer gets the layout of the creation. -/
theorem consumerLayout_eq_iff (hT : T.Ok) (hh : HdrOf T h) (mdata : List UInt8) (first : Bool)
    (w : World Ω) :
    T.consumerLayout (exec (machine B) t (T.createPublish (getMmap (getOffsets T.toAbi h))
      (T.producerLayout h).desc h mdata first) w).2.mem = T.producerLayout h ↔
        HeaderKept T h := by
  obtain ⟨m, hm⟩ : ∃ m, (exec (machine B) t (T.createPublish (getMmap (getOffsets T.toAbi h))
    (T.producerLayout h).desc h mdata first) w).2.mem = m := ⟨_, rfl⟩
  have hbytes := mem_createPublish hT hh mdata first w hm
  rw [hm, consumerLayout_eq_iff_fields hT]
  have hlt := layoutFields_lt hT hh
  constructor
  · intro hall
    have hval : ∀ f ∈ layoutFields T h, ∀ k : Nat, k < f.size → m (f.addr + k) = f.byte k :=
      fun f hf => (leNat_read_eq_iff m f.addr (hlt f hf)).mp (hall f hf)
    exact
      { stamped := fun f hf k hk hs => by rw [← hval f hf k hk, (hbytes f hf k hk).1 hs]
        zeroed := fun f hf k hk hs hz => by
          rw [← hval f hf k hk, (hbytes f hf k hk).2.1 hs hz] }
  · intro hkept f hf
    refine (leNat_read_eq_iff m f.addr (hlt f hf)).mpr fun k hk => ?_
    obtain ⟨hs, hz, hkeep⟩ := hbytes f hf k hk
    by_cases hst : Stamped T (T.producerLayout h).desc (f.addr + k)
    · exact (hs hst).trans (hkept.stamped f hf k hk hst).symm
    · by_cases hzr : Zeroed T (T.producerLayout h).desc (f.addr + k)
      · exact (hz hst hzr).trans (hkept.zeroed f hf k hk hst hzr).symm
      · exact hkeep hst hzr

end Writes

/-! ## Headers that are kept -/

/-- The size of a section on a target, as an exact sum. -/
def exactSizeOn (T : Target) (h : HdrUserInfo) : Int :=
  alignUp T.toAbi T.sizeofShdHdr + up4 (hdrMdataSize h)
    + hdrNbSamples h * up4 (T.offsetofBlob + hdrBlobSize h)

section Kept

variable {T : Target} {h : HdrUserInfo}

theorem toSize_of_bounds {A : Abi} {x : Int} (h0 : 0 ≤ x) (h1 : x < 2 ^ A.word) :
    A.toSize x = x := Int.emod_eq_of_lt h0 h1

/-- `ALIGN_UP` of a size whose aligned value is representable. -/
theorem alignUp_target (hT : T.Ok) {x : Int} (h0 : 0 ≤ x) (h1 : up4 x < 2 ^ T.word) :
    alignUp T.toAbi x = up4 x := by
  have hM : (4 : Int) ∣ 2 ^ T.word := by
    rcases hT.word with hw | hw
    · rw [hw]; decide
    · rw [hw]; decide
  unfold up4 at *
  rw [alignUp, toSize_of_bounds (by omega) (by omega)]
  omega

/-- The data section of a size that does not wrap. -/
theorem dataOffset_target (hT : T.Ok) (hfits : exactSizeOn T h < 2 ^ T.word) :
    (getOffsets T.toAbi h).dataOffset
      = (getOffsets T.toAbi h).metadataOffset + up4 (hdrMdataSize h) := by
  have hmd := hdrMdataSize_nonneg h
  have hblob := up4_nonneg (x := T.offsetofBlob + hdrBlobSize h)
    (by have := hdrBlobSize_nonneg h; have := hT.blob; omega)
  have hslots : 0 ≤ hdrNbSamples h * up4 (T.offsetofBlob + hdrBlobSize h) :=
    Int.mul_nonneg (Int.natCast_nonneg _) hblob
  have htop := metadataTop_ge (h := h) hT
  have hsync := hT.sync
  obtain ⟨a, ha⟩ : ∃ a, alignUp T.toAbi T.sizeofShdHdr = a := ⟨_, rfl⟩
  have hdvd : 4 ∣ a := by
    rw [← ha]
    unfold alignUp
    omega
  have hmeta : (getOffsets T.toAbi h).metadataOffset = a := ha
  rw [hmeta] at htop ⊢
  unfold exactSizeOn at hfits
  rw [ha] at hfits
  have hle := le_up4 (hdrMdataSize h)
  have hup : up4 (a + hdrMdataSize h) = a + up4 (hdrMdataSize h) := by
    unfold up4
    omega
  show alignUp T.toAbi (T.toSize (alignUp T.toAbi T.sizeofShdHdr + hdrMdataSize h)) = _
  rw [ha, toSize_of_bounds (by omega) (by omega), alignUp_target hT (by omega) (by omega), hup]

/-- A counter of a size that does not wrap lies in the data section. -/
theorem counterAddr_ge (hT : T.Ok) (hfits : exactSizeOn T h < 2 ^ T.word)
    (hsmall : hdrNbSamples h ≤ 2147483648) {i : Nat} (hi : (i : Int) < hdrNbSamples h) :
    (getOffsets T.toAbi h).dataOffset ≤ counterAddr T (T.producerLayout h).desc i := by
  have hd := dataOffset_target hT hfits
  have hsize : (getOffsets T.toAbi h).metadataOffset + up4 (hdrMdataSize h)
      + hdrNbSamples h * up4 (T.offsetofBlob + hdrBlobSize h) < 2 ^ T.word := hfits
  rw [← hd] at hsize
  have htop := metadataTop_ge (h := h) hT
  have hsync := hT.sync
  have hnb := hT.nbWrites
  have hnb' := hT.nbWrites_le
  have hmd := up4_nonneg (hdrMdataSize_nonneg h)
  have hpos : 0 ≤ T.offsetofBlob + hdrBlobSize h := by
    have := hdrBlobSize_nonneg h
    have := hT.blob
    omega
  have hblob := up4_nonneg hpos
  have hinside : T.offsetofNbWrites < up4 (T.offsetofBlob + hdrBlobSize h) := by
    have := le_up4 (T.offsetofBlob + hdrBlobSize h)
    have := hdrBlobSize_nonneg h
    omega
  obtain ⟨s, hs⟩ : ∃ s, up4 (T.offsetofBlob + hdrBlobSize h) = s := ⟨_, rfl⟩
  rw [hs] at hsize hblob hinside
  have hone : 1 * s ≤ hdrNbSamples h * s :=
    Int.mul_le_mul_of_nonneg_right (by omega) hblob
  have hlast : (i : Int) * s + s ≤ hdrNbSamples h * s := by
    have hle := Int.mul_le_mul_of_nonneg_right (show (i : Int) + 1 ≤ hdrNbSamples h by omega) hblob
    rwa [Int.add_mul, Int.one_mul] at hle
  have hstart : 0 ≤ (i : Int) * s := Int.mul_nonneg (by omega) hblob
  have hword : (2147483648 : Int) < 2 ^ T.word := by
    rcases hT.word with hw | hw
    · rw [hw]; decide
    · rw [hw]; decide
  have hstride : sampleGetSize T.toAbi (hdrBlobSize h) = s := by
    rw [sampleGetSize, alignUp_target hT hpos (by omega), hs]
  have hptr : T.dataGetSamplePtr (T.producerLayout h).desc (toI32 i)
      = (getOffsets T.toAbi h).dataOffset + i * s := by
    rw [toI32_of_bounds (by omega) (by omega)]
    show T.toSize ((getOffsets T.toAbi h).dataOffset
      + T.toSize i * sampleGetSize T.toAbi (hdrBlobSize h)) = _
    rw [hstride, toSize_of_bounds (x := (i : Int)) (by omega) (by omega),
      toSize_of_bounds (by omega) (by omega)]
  rw [counterAddr, hptr, toSize_of_bounds (by omega) (by omega)]
  omega

/-- A counter is stored at a multiple of 4, wherever its pointer wraps to: no store runs
past the last address. -/
theorem counterAddr_end (hT : T.Ok) (h : HdrUserInfo) (i : Int) :
    counterAddr T (T.producerLayout h).desc i + 4 ≤ 2 ^ T.word := by
  have hup : ∀ x, 4 ∣ alignUp T.toAbi x := fun x => by
    unfold alignUp
    omega
  have hstart : 4 ∣ (T.producerLayout h).desc.dataSectionStart := hup _
  obtain ⟨c, hc⟩ : 4 ∣ T.toSize (toI32 i)
      * sampleGetSize T.toAbi (T.producerLayout h).desc.blobSize := Dvd.dvd.mul_left (hup _) _
  have hnb := hT.nbWrites_dvd
  rw [counterAddr, Target.dataGetSamplePtr, hc]
  unfold Abi.toSize
  rcases hT.word with hw | hw <;> rw [hw] <;> norm_num only <;> omega

/-- A size that does not wrap and `int` indices are enough. -/
theorem headerKept_of_fits (hT : T.Ok) (hfits : exactSizeOn T h < 2 ^ T.word)
    (hsmall : hdrNbSamples h ≤ 2147483648) : HeaderKept T h := by
  have hd := dataOffset_target hT hfits
  have htop := metadataTop_ge (h := h) hT
  have hmd := up4_nonneg (hdrMdataSize_nonneg h)
  have hin : ∀ f ∈ layoutFields T h, ∀ k : Nat, k < f.size →
      f.addr + (k : Int) < (getOffsets T.toAbi h).dataOffset := fun f hf k hk => by
    have := layoutFields_addr hT hf hk
    omega
  constructor
  · intro f hf k hk ⟨i, hi, hle, _⟩
    have hge := counterAddr_ge hT hfits hsmall (i := i) (by
      have hi' : i < h.maxNbSamples.toNat := hi
      show (i : Int) < (h.maxNbSamples.toNat : Int)
      omega)
    have := hin f hf k hk
    omega
  · intro f hf k hk _ hz
    have := hin f hf k hk
    exact absurd hz.1 (not_le.mpr this)

end Kept

/-! ## Creations and openings -/

section Lp64

variable {Ω : Type} {B : Backend Ω} {t : Nat} {h : HdrUserInfo}

theorem lp64Target_ok : lp64Target.Ok where
  word := Or.inr rfl
  user := rfl
  sync := rfl
  hdr_ge := by decide
  hdr_le := by decide
  blob := by decide
  nbWrites := by decide
  nbWrites_le := by decide
  nbWrites_dvd := by decide

theorem ilp32Target_ok : ilp32Target.Ok where
  word := Or.inl rfl
  user := rfl
  sync := rfl
  hdr_ge := by decide
  hdr_le := by decide
  blob := by decide
  nbWrites := by decide
  nbWrites_le := by decide
  nbWrites_dvd := by decide

theorem hdrOf_lp64 (h : HdrUserInfo) : HdrOf lp64Target h :=
  ⟨h.blobSize.toNat_lt, h.blobMetadataHdrSize.toNat_lt⟩

theorem dataGetSamplePtr_lp64 (d : DataSectionDesc) (i : Int) :
    lp64Target.dataGetSamplePtr d i = dataGetSamplePtr d i := by
  rw [dataGetSamplePtr, ← lp64_toSize, ← lp64_toSize]
  rfl

theorem nbWritesPtr_lp64 (samp : Int) :
    lp64Target.toSize (samp + lp64Target.offsetofNbWrites) = nbWritesPtr samp :=
  lp64_toSize _

theorem exec_dataClearLoop_lp64 (d : DataSectionDesc) (n : Nat) (i : Int) (w : World Ω) :
    exec (machine B) t (lp64Target.dataClearLoop d n i) w
      = exec (machine B) t (dataClearLoop d n i) w := by
  induction n generalizing i w with
  | zero => rfl
  | succ n ih =>
    rw [Target.dataClearLoop, dataClearLoop, exec_bind, exec_bind, exec_getSamplePtr, exec_bind,
      dataGetSamplePtr_lp64, nbWritesPtr_lp64]
    exact ih _ _

/-- On a 64-bit target, the functions are those that run on the memory. -/
theorem exec_createPublish_lp64 (map : SectionMap) (desc : DataSectionDesc) (mdata : List UInt8)
    (first : Bool) (w : World Ω) :
    exec (machine B) t (lp64Target.createPublish map desc h mdata first) w
      = exec (machine B) t (createPublish map desc h mdata first) w := by
  rw [Target.createPublish, createPublish, exec_bind, exec_bind, exec_bind, exec_bind, exec_bind,
    exec_bind, exec_bind, exec_bind, Target.dataClearSection, dataClearSection, exec_bind,
    exec_bind, exec_dataClearLoop_lp64]
  rfl

/-- When a consumer gets the layout of a whole creation. -/
theorem create_consumerLayout (hB : B.Faithful) {name : String} {mdata : List UInt8}
    {env : Option String} {p : ShdCtx} {w w₁ : World Ω}
    (hex : exec (machine B) t (create name h mdata env) w = (some p, w₁)) :
    (p.sectMmap = getMmap (lp64Target.producerLayout h).offsets ∧
        p.desc = (lp64Target.producerLayout h).desc) ∧
      (lp64Target.consumerLayout w₁.mem = lp64Target.producerLayout h ↔
        HeaderKept lp64Target h) := by
  obtain ⟨inst, a, first, w', -, hw, rfl⟩ := exec_create hex
  refine ⟨⟨rfl, rfl⟩, ?_⟩
  have hmem : w₁.mem = (exec (machine B) t (lp64Target.createPublish (getMmap (getOffsets lp64 h))
      (lp64Target.producerLayout h).desc h mdata first) w').2.mem := by
    rw [hw, exec_createPublish_lp64]
    exact hB.mem t (.unlock inst) _ (by simp) (by simp)
  rw [hmem]
  exact consumerLayout_eq_iff lp64Target_ok (hdrOf_lp64 h) mdata first w'

/-- The user info, in the bytes of the whole header. -/
theorem decHdrUserInfo_drop (m : Mem) :
    decHdrUserInfo ((m.read 0 56).drop 16) = lp64Target.decHdrUserInfo (m.read 16 24) := by
  have hpart : ∀ i n : Nat, i + n ≤ 24 →
      (((m.read 0 56).drop 16).drop i).take n = ((m.read 16 24).drop i).take n := by
    intro i n hle
    rw [List.drop_drop, m.read_drop_take 0 56 (16 + i) n (by omega),
      m.read_drop_take 16 24 i n hle]
    congr 1
    push_cast
    omega
  have h0 := hpart 0 8 (by omega)
  simp only [List.drop_zero] at h0
  rw [decHdrUserInfo, h0, hpart 8 4 (by omega), hpart 12 4 (by omega), hpart 16 8 (by omega)]
  rfl

/-- What a consumer maps is the layout that it derives from the header in memory. -/
theorem ctxMmap_consumerLayout (m : Mem) (inst : Nat) (ctx : Option CtxAllocs) :
    (ctxMmap inst ctx none).Ensures (Reads m) KeepsMem fun r =>
      ∀ map desc, r.parts = some (map, desc) →
        map = getMmap (lp64Target.consumerLayout m).offsets ∧
          desc = (lp64Target.consumerLayout m).desc := by
  refine (ctxMmap_ensures_read m inst ctx).mono (fun _ => id) fun r hr map desc hparts => ?_
  obtain ⟨rfl, rfl⟩ := hr map desc hparts
  rw [decHdrUserInfo_drop]
  exact ⟨rfl, rfl⟩

end Lp64

/-! ## The agreement -/

/-- **When all computations of the layout agree.** The size that a creation requests
is always the size that it maps. Once the creation is complete, a consumer
derives from the header in memory the layout of the producer if and only if
the clearing of the section left the header as it was. -/
theorem layouts_agree_iff {Ω : Type} (B : Backend Ω) (t : Nat) (w : World Ω) {T : Target}
    (hT : T.Ok) {h : HdrUserInfo} (hh : HdrOf T h) (mdata : List UInt8) (first : Bool) :
    sectionGetTotalSize T.toAbi h = (getOffsets T.toAbi h).totalSize ∧
      (T.consumerLayout (exec (machine B) t (T.createPublish (getMmap (getOffsets T.toAbi h))
        (T.producerLayout h).desc h mdata first) w).2.mem = T.producerLayout h ↔
          HeaderKept T h) :=
  ⟨requested_eq_mapped hT h, consumerLayout_eq_iff hT hh mdata first w⟩

/-- What a consumer finds after the first creation of a section on a target. -/
def layoutFound (T : Target) (h : HdrUserInfo) (mdata : List UInt8) : Target.Layout :=
  T.consumerLayout (exec (machine shm) 0 (T.createPublish (getMmap (getOffsets T.toAbi h))
    (T.producerLayout h).desc h mdata true) Shm.world).2.mem

theorem layouts_agree_iff_four :
    layoutFound ilp32Target ⟨4, 4, 1, 0⟩ [] = ilp32Target.producerLayout ⟨4, 4, 1, 0⟩ ∧
      layoutFound lp64Target ⟨4, 4, 1, 0⟩ [] = lp64Target.producerLayout ⟨4, 4, 1, 0⟩ := by
  have h32 := layouts_agree_iff shm 0 Shm.world ilp32Target_ok
    (show HdrOf ilp32Target ⟨4, 4, 1, 0⟩ from ⟨by decide, by decide⟩) [] true
  have h64 := layouts_agree_iff shm 0 Shm.world lp64Target_ok (hdrOf_lp64 ⟨4, 4, 1, 0⟩) [] true
  exact ⟨h32.2.mpr (headerKept_of_fits ilp32Target_ok (by decide +kernel) (by decide)),
    h64.2.mpr (headerKept_of_fits lp64Target_ok (by decide +kernel) (by decide))⟩

/-- A header with 2^31 + 1 slots of 44 bytes, whose data section starts at 2^31 * 44. -/
def manySlots : HdrUserInfo := ⟨4, 2147483649, 1, 94489280456⟩

/-- The counter of the last slot is stored over the size of the blob metadata. -/
theorem layouts_disagree :
    layoutFound lp64Target manySlots (List.replicate 94489280456 0)
      ≠ lp64Target.producerLayout manySlots := by
  intro heq
  have hkept := (consumerLayout_eq_iff lp64Target_ok (hdrOf_lp64 manySlots) _ _ _).mp heq
  have hfield : (⟨32, 8, 94489280456⟩ : HdrField) ∈ layoutFields lp64Target manySlots :=
    List.mem_cons_of_mem _ (List.mem_cons_of_mem _ List.mem_cons_self)
  have hstamped : Stamped lp64Target (lp64Target.producerLayout manySlots).desc (32 + (0 : Nat)) :=
    ⟨2147483648, by decide +kernel, by decide +kernel, by decide +kernel⟩
  exact absurd (hkept.stamped _ hfield 0 (by decide) hstamped) (by decide +kernel)

end Shdata.Layout
