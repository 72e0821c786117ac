/-
Shdata.Consumer.Copies — where `shd_read_quantity` copies from, and how much.

Row `x` of a read is one `memcpy` from the slot `x` places after the start of
the window (`mem_ops_windowReadLoop`). The size of the destination is
compared with the product of the size and the number of rows; the offset and
the size of the quantity are compared with nothing. `reads_inside_iff` says
which quantities are read from the blobs of the window only.
-/
import Shdata.Consumer.Requests
import Shdata.Producer.Frame

namespace Shdata.Consumer

open Shdata.Conc Shdata.Bytes Shdata.Core Shdata.Ring Shdata.Layout Shdata.Trace Shdata.Producer
  Shdata.Solo

variable {Ω : Type} {B : Backend Ω} {t : Nat} {d : DataSectionDesc} {w : World Ω} {ctx : ShdCtx}

/-! ## Selections that are open -/

/-- The window of a selection that found `nb_matches` samples. -/
structure OpenWindow (N : Int) (win : Window) : Prop where
  start : IsSlot N win.startIdx
  pos : 1 ≤ win.nbMatches
  le : win.nbMatches ≤ N

/-- The window of a selection made while nothing else ran. -/
theorem Selected.openWindow {search : SampleSearch} (hN : RingSize d.nbSamples)
    (h : Selected d search w.mem ctx) : OpenWindow d.nbSamples ctx.window := by
  obtain ⟨ref, -, haround⟩ := h.around
  have hnb := haround.nbMatches_eq hN h.nbMatches
  obtain ⟨hb, -, -⟩ := nbBefore_bounds hN.pos (writeIndex w.mem) ref search
  obtain ⟨ha, -, -⟩ := nbAfter_bounds hN.pos (writeIndex w.mem) ref search
  have hin := window_inOrder hN.pos (writeIndex w.mem) ref search
  have hgap := gap_nonneg hN.pos (writeIndex w.mem + 1)
    (ref - nbBefore d.nbSamples (writeIndex w.mem) ref search)
  exact ⟨h.isSlot_start hN, by omega, by omega⟩

/-! ## The copies of a read -/

/-- The copies of `shd_window_read`. -/
theorem mem_ops_windowReadLoop (hd : SoundDesc d) {size : Nat} {off : Int} (n : Nat) (i : Int)
    (row : Nat) (hi : IsSlot d.nbSamples i) (site : Site) (a : Int) (len : Nat) :
    Op.read site a len ∈ (ops (machine B) t (windowReadLoop d size off n i row) w).map Prod.fst ↔
      ∃ x : Nat, x < n ∧ site = .windowRead (row + x) ∧
        a = toU64 (slot d ((i + x) % d.nbSamples) + off) ∧ len = size := by
  induction n generalizing i row with
  | zero =>
    refine iff_of_false ?_ (by simp)
    exact List.not_mem_nil (a := Op.read site a len)
  | succ n ih =>
    have hnext := isSlot_indexNext hd.size i
    have hptr : ∀ {α : Type} (f : Int → ShdProg α), (ops (machine B) t (getSamplePtr d i >>= f) w).map
        Prod.fst = .samplePtr d i :: (ops (machine B) t (f (slot d i)) w).map Prod.fst := by
      intro α f
      rw [← dataGetSamplePtr_eq hd hi]
      rfl
    have hread : ∀ {α : Type} (a : Int) (f : List UInt8 → ShdProg α),
        (ops (machine B) t (sampleRead (.windowRead row) a off size >>= f) w).map Prod.fst
          = .read (.windowRead row) (toU64 (a + off)) size
            :: (ops (machine B) t (f (w.mem.read (toU64 (a + off)) size)) w).map Prod.fst :=
      fun _ _ => rfl
    have htail : ∀ row' : List UInt8, (ops (machine B) t (windowReadLoop d size off n
        (indexNext i d.nbSamples) (row + 1) >>= fun rows => pure (row' :: rows)) w).map Prod.fst
          = (ops (machine B) t (windowReadLoop d size off n (indexNext i d.nbSamples) (row + 1)) w).map
            Prod.fst := by
      intro row'
      rw [ops_bind, List.map_append]
      exact List.append_nil _
    -- slot `x` after the next one is slot `x + 1` after this one
    have hshift : ∀ x : Nat, (indexNext i d.nbSamples + (x : Int)) % d.nbSamples
        = (i + ((x + 1 : Nat) : Int)) % d.nbSamples := by
      intro x
      rw [indexNext_eq hd.size (by have := hi.nonneg; omega) hi.lt, emod_add_emod]
      congr 1
      push_cast
      ring
    have hzero : (i + ((0 : Nat) : Int)) % d.nbSamples = i := by
      rw [Nat.cast_zero, Int.add_zero, hi.emod]
    rw [windowReadLoop, hptr, hread, htail, List.mem_cons, List.mem_cons, ih _ _ hnext]
    constructor
    · rintro (h | h | ⟨x, hx, hsite, ha, hlen⟩)
      · exact absurd h (by simp)
      · obtain ⟨rfl, rfl, rfl⟩ := Op.read.inj h
        exact ⟨0, by omega, rfl, by rw [hzero], rfl⟩
      · refine ⟨x + 1, by omega, ?_, ?_, hlen⟩
        · rw [hsite]
          congr 1
          omega
        · rw [ha, hshift]
    · rintro ⟨x, hx, rfl, rfl, rfl⟩
      cases x with
      | zero => exact Or.inr (Or.inl (by rw [hzero]; rfl))
      | succ x =>
        refine Or.inr (Or.inr ⟨x, by omega, ?_, by rw [hshift], rfl⟩)
        congr 1
        omega

theorem length_windowReadLoop (size : Nat) (off : Int) (n : Nat) (i : Int) (row : Nat) :
    (exec (machine B) t (windowReadLoop d size off n i row) w).1.length = n := by
  induction n generalizing i row w with
  | zero => rfl
  | succ n ih =>
    rw [windowReadLoop, exec_bind, exec_bind, exec_bind, exec_pure, List.length_cons, ih]

/-- The range of a read, inside the blob or without bytes. -/
def RangeInside (d : DataSectionDesc) : Option Quantity → Prop
  | none => True
  | some q => Inside d q

instance (d : DataSectionDesc) (quantity : Option Quantity) : Decidable (RangeInside d quantity) :=
  match quantity with
  | none => inferInstanceAs (Decidable True)
  | some q => inferInstanceAs (Decidable (Inside d q))

/-- An operation that, if it copies a row, copies it from the blob of its slot. -/
def FromBlob (d : DataSectionDesc) (win : Window) : Op → Prop
  | .read site a len => ∃ row : Nat, (row : Int) < win.nbMatches ∧ site = .windowRead row ∧
      (len = 0 ∨ slot d ((win.startIdx + row) % d.nbSamples) + 40 ≤ a ∧
        a + len ≤ slot d ((win.startIdx + row) % d.nbSamples) + 40 + d.blobSize)
  | _ => True

/-- The rows of one range come from the blobs exactly if the range lies inside. -/
theorem range_inside_iff (hd : SoundDesc d) (quantity : Option Quantity) {i : Int}
    (hi : IsSlot d.nbSamples i) :
    ((readRange d quantity).2 = 0 ∨ slot d i + 40 ≤ toU64 (slot d i + (readRange d quantity).1) ∧
        toU64 (slot d i + (readRange d quantity).1) + (readRange d quantity).2
          ≤ slot d i + 40 + d.blobSize) ↔ RangeInside d quantity := by
  cases quantity with
  | none =>
    have hb := slot_bounds hd hi
    have hblob := hd.blob
    have hs := hd.stride_ge
    have haddr : toU64 (slot d i + 40) = slot d i + 40 := toU64_of_bounds (by omega) (by omega)
    refine iff_of_true (Or.inr ?_) trivial
    show slot d i + 40 ≤ toU64 (slot d i + 40) ∧
      toU64 (slot d i + 40) + d.blobSize.toNat ≤ slot d i + 40 + d.blobSize
    rw [haddr]
    omega
  | some q => exact copy_inside_iff hd hi q

/-- The bytes of the rows of a window fit a section that fits. -/
theorem rows_lt (hd : SoundDesc d) {win : Window} (hopen : OpenWindow d.nbSamples win) :
    d.blobSize * win.nbMatches < 18446744073709551616 := by
  have hblob := hd.blob
  have hpos := hopen.pos
  calc d.blobSize * win.nbMatches
      ≤ stride d * d.nbSamples := by
        have hs := hd.stride_ge
        exact Int.mul_le_mul (by omega) hopen.le (by omega) (by omega)
    _ = d.nbSamples * stride d := Int.mul_comm _ _
    _ < 18446744073709551616 := by
        have hfits := hd.fits
        have hstart := hd.start
        omega

/-- **Where a read copies from, and how much.** A read that does not fail returns the
number of rows of the selection. As long as their total size is a `size_t` it
is at most that of the destination, and it always is for whole blobs. All
copies are from the blobs of the window exactly if the quantity is inside. -/
theorem reads_inside_iff (B : Backend Ω) (hd : SoundDesc d) (hdesc : ctx.desc = d)
    (hopen : OpenWindow d.nbSamples ctx.window) (quantity : Option Quantity) (dst : Nat) (t : Nat)
    (w : World Ω) (hret : 0 ≤ (exec (machine B) t (readQuantity ctx quantity dst) w).1.1) :
    (exec (machine B) t (readQuantity ctx quantity dst) w).1.1 = ctx.window.nbMatches ∧
      ((readRange d quantity).2 * ctx.window.nbMatches < 18446744073709551616 ∨ quantity = none →
        (readRange d quantity).2 * ctx.window.nbMatches ≤ dst) ∧
      ((∀ e ∈ ops (machine B) t (readQuantity ctx quantity dst) w, FromBlob d ctx.window e.1) ↔
        RangeInside d quantity) := by
  have hpos := hopen.pos
  have hnb : toU64 ctx.window.nbMatches = ctx.window.nbMatches :=
    toU64_of_bounds (by omega) (by have := hopen.le; have := hd.size.small; omega)
  have hrows : readQuantity ctx quantity dst
      = dataReadRows ctx (readRange d quantity).2 (readRange d quantity).1 dst := by
    subst hdesc
    cases quantity <;> rfl
  rw [hrows] at hret ⊢
  have hroom : ¬ (dst : Int) < toU64 ((readRange d quantity).2 * toU64 ctx.window.nbMatches) := by
    intro hlt
    rw [dataReadRows, if_neg (by omega), if_pos hlt] at hret
    exact absurd hret (show ¬ 0 ≤ -EINVAL by decide)
  rw [dataReadRows, if_neg (by omega), if_neg hroom, exec_bind, exec_pure]
  rw [hnb] at hroom
  refine ⟨?_, fun hfit => ?_, ?_⟩
  · show ((exec (machine B) t (windowReadLoop ctx.desc _ _ ctx.window.nbMatches.toNat _ _) w).1.length : Int)
      = ctx.window.nbMatches
    rw [length_windowReadLoop, Int.toNat_of_nonneg (by omega)]
  · have hlt : (readRange d quantity).2 * ctx.window.nbMatches < 18446744073709551616 := by
      rcases hfit with hfit | rfl
      · exact hfit
      · have hblob := hd.blob
        show (d.blobSize.toNat : Int) * ctx.window.nbMatches < _
        rw [Int.toNat_of_nonneg hblob]
        exact rows_lt hd hopen
    rw [toU64_of_bounds (Int.mul_nonneg (by omega) (by omega)) hlt] at hroom
    omega
  · -- one copy for each row
    have hcopies : ∀ site a len, Op.read site a len ∈ (ops (machine B) t (windowRead ctx.window ctx.desc
        (readRange d quantity).2 (readRange d quantity).1 >>= fun rows =>
          pure ((rows.length : Int), rows)) w).map Prod.fst ↔
        ∃ x : Nat, x < ctx.window.nbMatches.toNat ∧ site = .windowRead (0 + x) ∧
          a = toU64 (slot d ((ctx.window.startIdx + x) % d.nbSamples) + (readRange d quantity).1) ∧
          len = (readRange d quantity).2 := by
      intro site a len
      rw [ops_bind, List.map_append]
      subst hdesc
      exact (congrArg _ (List.append_nil _)).to_iff.trans
        (mem_ops_windowReadLoop hd _ _ _ hopen.start site a len)
    constructor
    · intro h
      obtain ⟨e, he, hop⟩ := List.mem_map.mp ((hcopies _ _ _).mpr ⟨0, by omega, rfl, rfl, rfl⟩)
      have hfrom := h e he
      rw [hop] at hfrom
      obtain ⟨row, -, hrow, hrange⟩ := hfrom
      obtain rfl : 0 + 0 = row := Site.windowRead.inj hrow
      exact (range_inside_iff hd quantity (isSlot_emod hd.size _)).mp hrange
    · rintro hin ⟨o, w'⟩ he
      cases o with
      | read site a len =>
        obtain ⟨x, hx, rfl, rfl, rfl⟩ := (hcopies site a len).mp (List.mem_map.mpr ⟨_, he, rfl⟩)
        rw [Nat.zero_add]
        exact ⟨x, by omega, rfl,
          (range_inside_iff hd quantity (isSlot_emod hd.size _)).mpr hin⟩
      | _ => trivial

/-- The last two bytes of both samples of a selection. -/
theorem reads_inside_two :
    (exec (machine shm) 1 (readQuantity (selectLatest 2 1).1.ctx (some ⟨2, 2⟩) 4)
        (selectLatest 2 1).2).1.1 = 2 ∧
      ((2 : Nat) : Int) * (selectLatest 2 1).1.ctx.window.nbMatches ≤ (4 : Nat) ∧
      ∀ e ∈ ops (machine shm) 1 (readQuantity (selectLatest 2 1).1.ctx (some ⟨2, 2⟩) 4)
        (selectLatest 2 1).2, FromBlob ⟨56, 4, 4⟩ (selectLatest 2 1).1.ctx.window e.1 := by
  have hf : FitsHdr ⟨4, 4, 1, 0⟩ := ⟨⟨by decide, by decide⟩, by decide⟩
  have hd : SoundDesc ⟨56, 4, 4⟩ := soundDesc_of_fits hf
  have hnb : (selectLatest 2 1).1.ctx.window.nbMatches = 2 := by decide +kernel
  have hfits : Fits 4 (latest 1) := by
    unfold Fits
    decide
  -- the selection was made at rest
  obtain ⟨-, hselected, -⟩ := exec_selectSamples hd libfutils hfits
    ⟨by decide +kernel, by decide +kernel⟩ (Or.inr ⟨by decide +kernel, by decide +kernel⟩) ⟨0, 0⟩
    (Prod.ext rfl rfl : exec (machine shm) 1 (selectSamples libfutils (reader 2) (latest 1) ⟨0, 0⟩)
      (partlyFilled 2).1 = ((selectLatest 2 1).1, (selectLatest 2 1).2)) (by decide +kernel)
  obtain ⟨hcount, hroom, hcopies⟩ := reads_inside_iff shm hd hselected.ctxFor.desc
    (hselected.openWindow hd.size) (some ⟨2, 2⟩) 4 1 (selectLatest 2 1).2 (by decide +kernel)
  refine ⟨hcount.trans hnb, hroom (Or.inl ?_), hcopies.mpr (by decide +kernel)⟩
  rw [hnb]
  decide

/-- A quantity 8 bytes before the blob: the call returns 1 and copies the counter of
the slot. -/
theorem reads_outside :
    (exec (machine shm) 1 (readQuantity (selectLatest 1 0).1.ctx (some ⟨-8, 4⟩) 4)
        (selectLatest 1 0).2).1 = (1, [[0, 0, 0, 0]]) ∧
      ¬ ∀ e ∈ ops (machine shm) 1 (readQuantity (selectLatest 1 0).1.ctx (some ⟨-8, 4⟩) 4)
        (selectLatest 1 0).2, FromBlob ⟨56, 4, 4⟩ (selectLatest 1 0).1.ctx.window e.1 := by
  refine ⟨by decide +kernel, fun h => ?_⟩
  have hread : Op.read (.windowRead 0) 88 4 ∈ (ops (machine shm) 1
      (readQuantity (selectLatest 1 0).1.ctx (some ⟨-8, 4⟩) 4) (selectLatest 1 0).2).map Prod.fst := by
    decide +kernel
  obtain ⟨e, he, hop⟩ := List.mem_map.mp hread
  have hfrom := h e he
  rw [hop] at hfrom
  obtain ⟨row, -, hrow, hempty | hin⟩ := hfrom
  · exact absurd hempty (by decide)
  · obtain rfl := Site.windowRead.inj hrow
    exact absurd hin.1 (by decide +kernel)

end Shdata.Consumer
