/-
Shdata.Readers.Turns — what the sessions of one consumer deliver, beside any
interference.

`Genuine` says that a session delivered consecutive commits, byte for byte,
which were retained when it began; `InTurn` says it of the sessions of a
consumer, where each one begins with at least what the one before it delivered.
`wp_openSession`, `wp_readAll` and `wp_endRead` follow the three parts of a
session, and `wp_sessions` is their composition.
-/
import Shdata.Readers.Calls

namespace Shdata.Readers

open Shdata.Conc Shdata.Bytes Shdata.Core Shdata.Ring Shdata.Layout Shdata.Trace Shdata.Producer
  Shdata.Consumer Shdata.Solo

variable {Ω : Type} {B : Backend Ω} {d : DataSectionDesc} {F : Futils} {t : Nat}
  {C : Nat → Op → World Ω × History → Prop} {win : Window} {cnt : Int} {j : Nat} {ctx : ShdCtx}
  {s s' : World Ω × History}

/-! ## What a session delivers -/

/-- What `shd_read_from_sample` delivers of a commit for one quantity and the size of its
buffer. -/
def quantityRow (c : Commit) (q : Quantity × Nat) : QuantityRow :=
  if q.1.quantitySize ≤ q.2 then
    some (blobPart q.1.quantityOffset q.2 c, decMetadata c.metadata)
  else none

/-- The rows of the call that opened the session. -/
def OpeningRows (d : DataSectionDesc) (sel : Selecting) (a : Answer) (j : Nat)
    (log : List Commit) : Prop :=
  match sel with
  | .select _ => RowsAt (fun c => decMetadata c.metadata) j a.nb a.metadata log
  | .readFrom _ _ _ => ∃ c, log[j]? = some c ∧
      a.quantities = (quantitiesOf d sel).map (quantityRow c)

/-- The rows of one read, unless it failed. -/
def ReadRows (d : DataSectionDesc) (j nb : Nat) (q : Option Quantity × Nat)
    (out : Int × List (List UInt8)) (log : List Commit) : Prop :=
  0 ≤ out.1 → out.1 = nb ∧ RowsAt (readPart d q.1) j nb out.2 log

/-- The rows of a session are commits `j` and following. -/
structure Delivers (d : DataSectionDesc) (log : List Commit) (r : ReadSession) (a : Answer)
    (j : Nat) : Prop where
  committed : j + a.nb ≤ log.length
  ref : a.ref < a.nb
  opening : OpeningRows d r.selecting a j log
  reads : List.Forall₂ (fun q out => ReadRows d j a.nb q out log) r.reads a.reads

/-- The same of a session that began when there were `begun` commits: they were retained
then, and the latest is no older than the last one of them. -/
structure Genuine (d : DataSectionDesc) (log : List Commit) (begun : Nat) (r : ReadSession)
    (a : Answer) (j : Nat) : Prop extends Delivers d log r a j where
  retained : (begun : Int) ≤ j + d.nbSamples
  latest : (searchOf r.selecting).method = .latest → begun ≤ j + a.ref + 1

/-- The sessions of one consumer, of which the first began when there were `begun` commits:
each one begins when the one before it is over, and was told the truth if it ended
with 0. -/
def InTurn (d : DataSectionDesc) (log : List Commit) :
    Nat → List ReadSession → List (Option Answer) → Prop
  | _, [], [] => True
  | begun, r :: rs, a :: as => ∃ done, begun ≤ done ∧ done ≤ log.length ∧
      (∀ x, a = some x → x.ret = 0 → ∃ j, Genuine d log begun r x j ∧ j + x.nb ≤ done) ∧
      InTurn d log done rs as
  | _, _, _ => False

/-- What was delivered is a fact about commits that are there, and the log only grows. -/
theorem OpeningRows.lasting (d : DataSectionDesc) (sel : Selecting) (a : Answer) (j : Nat) :
    Lasting (OpeningRows d sel a j) := by
  cases sel with
  | select search => exact RowsAt.lasting _ _ _ _
  | readFrom search quantity sizes => exact lasting_at _

/-- The rows of a read speak of commits that are there, too. -/
theorem ReadRows.lasting (d : DataSectionDesc) (j nb : Nat) (q : Option Quantity × Nat)
    (out : Int × List (List UInt8)) : Lasting (ReadRows d j nb q out) :=
  fun _ _ hp h h0 => ⟨(h h0).1, RowsAt.lasting _ _ _ _ _ _ hp (h h0).2⟩

/-- So do those of all reads. -/
theorem forall₂_readRows_lasting (d : DataSectionDesc) (j nb : Nat)
    (qs : List (Option Quantity × Nat)) (outs : List (Int × List (List UInt8))) :
    Lasting fun log => List.Forall₂ (fun q out => ReadRows d j nb q out log) qs outs :=
  fun _ _ hp h => h.imp fun q out hq => ReadRows.lasting d j nb q out _ _ hp hq

/-- The rows of a session are the same commits in a longer log. -/
theorem Delivers.longer {log log' : List Commit} (hp : log <+: log') {r : ReadSession} {a : Answer}
    (h : Delivers d log r a j) : Delivers d log' r a j where
  committed := h.committed.trans hp.length_le
  ref := h.ref
  opening := OpeningRows.lasting d _ a j _ _ hp h.opening
  reads := forall₂_readRows_lasting d j _ _ _ _ _ hp h.reads

theorem Genuine.longer {log log' : List Commit} (hp : log <+: log') {begun : Nat} {r : ReadSession}
    {a : Answer} (h : Genuine d log begun r a j) : Genuine d log' begun r a j :=
  ⟨h.toDelivers.longer hp, h.retained, h.latest⟩

/-- By induction on the sessions. -/
theorem InTurn.longer {log log' : List Commit} (hp : log <+: log') {begun : Nat}
    {rs : List ReadSession} {as : List (Option Answer)} (h : InTurn d log begun rs as) :
    InTurn d log' begun rs as := by
  induction rs generalizing begun as with
  | nil => cases as with
    | nil => trivial
    | cons a as => exact absurd h id
  | cons r rs ih => cases as with
    | nil => exact absurd h id
    | cons a as =>
      obtain ⟨done, h0, h1, hgenuine, hrest⟩ := h
      refine ⟨done, h0, h1.trans hp.length_le, fun x hx hret => ?_, ih hrest⟩
      obtain ⟨j, hj, hover⟩ := hgenuine x hx hret
      exact ⟨j, hj.longer hp, hover⟩

/-- A session of a consumer by its number. -/
theorem InTurn.session {log : List Commit} {begun : Nat} {rs : List ReadSession}
    {as : List (Option Answer)} (h : InTurn d log begun rs as) {i : Nat} {r : ReadSession}
    {a : Answer} (hr : rs[i]? = some r) (ha : as[i]? = some (some a)) (hret : a.ret = 0) :
    ∃ b j, begun ≤ b ∧ Genuine d log b r a j := by
  induction rs generalizing begun as i with
  | nil => exact absurd hr (by simp)
  | cons r' rs ih => cases as with
    | nil => exact absurd h id
    | cons a' as =>
      obtain ⟨done, h0, -, hgenuine, hrest⟩ := h
      cases i with
      | zero =>
        obtain rfl : r' = r := by simpa using hr
        obtain rfl : a' = some a := by simpa using ha
        obtain ⟨j, hj, -⟩ := hgenuine a rfl hret
        exact ⟨begun, j, le_refl _, hj⟩
      | succ i =>
        obtain ⟨b, j, hb, hj⟩ := ih hrest (by simpa using hr) (by simpa using ha)
        exact ⟨b, j, h0.trans hb, hj⟩

/-! ## The opening call -/

/-- The metadata rows of a selection. -/
theorem wp_dataReadMetadata (hd : SoundDesc d) (hctx : CtxFor d ctx)
    (h : Held d ctx.window cnt j s) :
    wp (tracked B d) t C (Onward d) ConsGuar (dataReadMetadata ctx)
      (fun m s' => CtxFor d m.2.2 ∧ m.2.2.window = ctx.window ∧ m.2.2.syncCtx = ctx.syncCtx ∧
        Held d ctx.window cnt j s' ∧ (m.1 < 0 ∨
          m.1 = toI32 (intervalBetween ctx.window.startIdx ctx.window.refIdx d.nbSamples) ∧
          Unless d j (RowsAt (fun c => decMetadata c.metadata) j ctx.window.nbMatches.toNat m.2.1)
            s')) s := by
  have hin : InSample d 0 sizeofMetadata :=
    ⟨le_refl 0, by have := hd.stride_pos; unfold sizeofMetadata; omega⟩
  intro u hu _
  have hg := step_consGuar (B := B) (d := d) (o := .calloc .metadata) trivial t u
  refine ⟨hg, ?_⟩
  have hheld := (h.onward hu).onward (onward_of_consGuar hg)
  generalize ((tracked B d).step t (.calloc .metadata) u).2 = p
  cases p with
  | none =>
    exact wp_ret fun v hv => ⟨hctx, rfl, rfl, hheld.onward hv, Or.inl (show -ENOMEM < 0 by decide)⟩
  | some p =>
    obtain rfl := hctx.desc
    show wp (tracked B ctx.desc) t C (Onward ctx.desc) ConsGuar
      (windowRead ctx.window ctx.desc sizeofMetadata 0 >>= fun rows =>
        pure (toI32 (intervalBetween ctx.window.startIdx ctx.window.refIdx ctx.desc.nbSamples),
          rows.map decMetadata, { ctx with metadata := some p })) _ _
    refine wp_bind (onward_refl _) (wp_mono
      (wp_windowRead hd hin (partOf_metadata _) hheld) ?_)
    rintro rows v ⟨-, hv, hrows⟩
    refine wp_ret fun x hx => ⟨⟨rfl, hctx.sync⟩, rfl, rfl, hv.onward hx, Or.inr ⟨rfl, ?_⟩⟩
    refine Unless.onward (RowsAt.lasting _ _ _ _) ⟨hv.inv, fun hkept => ?_⟩ hx
    obtain ⟨hn, heq⟩ := hrows.2 hkept
    refine ⟨hn, ?_⟩
    show rows.map decMetadata = _
    rw [heq, map_commitsFrom]
    rfl

/-- The rows of a single sample. -/
theorem wp_dataReadQuantitySampleLoop (hd : SoundDesc d) (h : Held d win cnt j s) {curr : Int}
    (hcurr : curr = dataGetSamplePtr d win.startIdx) (qs : List (Quantity × Nat))
    (hqs : ∀ q ∈ qs, 0 ≤ q.1.quantityOffset ∧ q.1.quantityOffset + q.2 ≤ d.blobSize) :
    wp (tracked B d) t C (Onward d) ConsGuar (dataReadQuantitySampleLoop curr qs)
      (fun r s' => 0 ≤ r.1 ∧ Held d win cnt j s' ∧
        Unless d j (fun log => ∃ c, log[j]? = some c ∧ r.2 = qs.map (quantityRow c)) s') s := by
  have hslot : IsSlot d.nbSamples win.startIdx := by
    rw [h.start]
    exact isSlot_emod hd.size _
  have hfirst : win.startIdx = (win.startIdx + ((0 : Nat) : Int)) % d.nbSamples := by
    rw [Nat.cast_zero, Int.add_zero, hslot.emod]
  have hpos := h.pos
  induction qs generalizing s with
  | nil =>
    refine wp_ret fun u hu => ⟨le_refl 0, h.onward hu, (h.onward hu).inv, fun _ => ?_⟩
    have hlt : j < u.2.commits.length := by
      have := (h.onward hu).committed
      omega
    exact ⟨_, List.getElem?_eq_getElem hlt, rfl⟩
  | cons q qs ih =>
    have hq := hqs q List.mem_cons_self
    have hrest : ∀ {u}, Held d win cnt j u → _ := fun {u} hu => ih (s := u) hu fun q' hq' =>
      hqs q' (List.mem_cons_of_mem _ hq')
    unfold dataReadQuantitySampleLoop
    by_cases hsize : q.1.quantitySize ≤ q.2
    · -- two copies of the row, with steps of the other threads before and between them
      rw [if_pos hsize]
      have hblob : InSample d (q.1.quantityOffset + 40) q.2 :=
        ⟨by omega, by have := hd.stride_ge; omega⟩
      have hmeta : InSample d 0 sizeofMetadata :=
        ⟨le_refl 0, by have := hd.stride_pos; unfold sizeofMetadata; omega⟩
      have hpart : PartOf d (q.1.quantityOffset + 40) q.2 (blobPart q.1.quantityOffset q.2) := by
        rw [Int.add_comm]
        exact partOf_blob hq.1 hq.2
      intro u hu _
      refine ⟨read_consGuar _ _ _ t u, fun v hv _ => ⟨read_consGuar _ _ _ t v, ?_⟩⟩
      have hown := onward_of_consGuar (d := d) (read_consGuar (B := B) (d := d)
        (.dataReadQuantitySample 0) (toU64 (curr + (q.1.quantityOffset + 40))) q.2 t u)
      have hown' := onward_of_consGuar (d := d) (read_consGuar (B := B) (d := d)
        (.dataReadQuantitySample 0) (toU64 (curr + 0)) sizeofMetadata t v)
      have hu' := h.onward hu
      have hv' := (hu'.onward hown).onward hv
      have hbs := (((hu'.copied hd hblob hpart hfirst (by omega)).onward (lasting_at _) hown).onward
        (lasting_at _) hv).onward (lasting_at _) hown'
      have hmd := (hv'.copied hd hmeta (partOf_metadata d) hfirst (by omega)).onward (lasting_at _)
        hown'
      rw [← hcurr] at hbs hmd
      show wp (tracked B d) t C (Onward d) ConsGuar (dataReadQuantitySampleLoop curr qs >>= fun r =>
        pure (r.1 + 1, some (u.1.mem.read (toU64 (curr + (q.1.quantityOffset + 40))) q.2,
          decMetadata (v.1.mem.read (toU64 (curr + 0)) sizeofMetadata)) :: r.2)) _ _
      refine wp_bind (onward_refl d) (wp_mono (wp_lasting (lasting_at _)
        (wp_lasting (lasting_at _) (hrest (hv'.onward hown')) hbs) hmd) ?_)
      rintro r x ⟨⟨⟨hr, hx, hrows⟩, hbs'⟩, hmd'⟩
      refine wp_ret fun y hy => ⟨by dsimp only; omega, hx.onward hy, ?_⟩
      refine Unless.onward (lasting_at _) ⟨hx.inv, fun hkept => ?_⟩ hy
      obtain ⟨c, hc, heq⟩ := hrows.2 hkept
      obtain ⟨c₁, hc₁, heq₁⟩ := hbs'.2 hkept
      obtain ⟨c₂, hc₂, heq₂⟩ := hmd'.2 hkept
      rw [Nat.add_zero, hc] at hc₁ hc₂
      obtain rfl := Option.some.inj hc₁
      obtain rfl := Option.some.inj hc₂
      refine ⟨c, hc, ?_⟩
      dsimp only
      rw [List.map_cons, quantityRow, if_pos hsize, heq₁, heq₂, heq]
    · rw [if_neg hsize]
      refine wp_bind (onward_refl d) (wp_mono (hrest h) ?_)
      rintro r x ⟨hr, hx, hrows⟩
      refine wp_ret fun y hy => ⟨hr, hx.onward hy, ?_⟩
      refine Unless.onward (lasting_at _) ⟨hx.inv, fun hkept => ?_⟩ hy
      obtain ⟨c, hc, heq⟩ := hrows.2 hkept
      refine ⟨c, hc, ?_⟩
      dsimp only
      rw [List.map_cons, quantityRow, if_neg hsize, heq]

/-- A session that was opened. -/
def Open (d : DataSectionDesc) (begun : Nat) (r : ReadSession) (a : Answer) (ctx : ShdCtx) (j : Nat)
    (s : World Ω × History) : Prop :=
  Held d ctx.window ctx.syncCtx.nbWrites j s ∧ (a.nb : Int) = ctx.window.nbMatches ∧
    (begun : Int) ≤ j + d.nbSamples ∧ a.ref < a.nb ∧
    ((searchOf r.selecting).method = .latest → begun ≤ j + a.ref + 1) ∧
    Unless d j (OpeningRows d r.selecting a j) s

/-- The steps of the other threads leave a session open: they may overwrite its rows, and
then the end of the session finds the counter changed. -/
theorem Open.onward {begun : Nat} {r : ReadSession} {a : Answer} (h : Open d begun r a ctx j s)
    (hR : Onward d s s') : Open d begun r a ctx j s' := by
  obtain ⟨hheld, hnb, hretained, href, hlatest, hrows⟩ := h
  exact ⟨hheld.onward hR, hnb, hretained, href, hlatest,
    hrows.onward (OpeningRows.lasting _ _ _ _) hR⟩

/-- The call that opens a session. -/
theorem wp_openSession (hd : SoundDesc d) (hC : ∀ o s, C t o s → IntactSnapshots d t o s)
    (hctx : CtxFor d ctx) {begun : Nat} (hinv : RingInv d (· = 0) s)
    (hbegun : begun ≤ s.2.commits.length) {r : ReadSession} (hr : Asks d r) :
    wp (tracked B d) t C (Onward d) ConsGuar (openSession F ctx r.selecting)
      (fun o s' => CtxFor d o.2.2 ∧ RingInv d (· = 0) s' ∧
        (o.1 < 0 ∨ ∃ j, Open d begun r o.2.1 o.2.2 j s')) s := by
  have hcount := hr.count
  have hquantities := hr.quantities
  unfold Open
  cases hsel : r.selecting with
  | select search =>
    rw [hsel] at hcount
    refine wp_bind (onward_refl d) (wp_bind (onward_refl d)
      (wp_mono (wp_dataFind hd hC hctx hinv hbegun hcount) ?_))
    rintro o u ⟨hctx', hu, hfound⟩
    by_cases hneg : o.1 < 0
    · rw [if_pos hneg]
      exact wp_ret fun v hv => wp_ret fun x hx =>
        ⟨hctx', (hx (hv hu).1).1, Or.inl hneg⟩
    rw [if_neg hneg]
    obtain ⟨hret, j, hheld, ⟨x, hx, hxlt, hlatest⟩, hretained, -⟩ := hfound.resolve_left hneg
    refine wp_bind (onward_refl d) (wp_mono (wp_dataReadMetadata hd hctx' hheld) ?_)
    rintro m v ⟨hctx'', hwin, hsync, hv, hm⟩
    dsimp only
    by_cases hmneg : m.1 < 0
    · rw [if_pos hmneg]
      exact wp_ret fun y hy => wp_ret fun z hz =>
        ⟨hctx'', (hz (hy hv.inv).1).1, Or.inl hmneg⟩
    rw [if_neg hmneg]
    obtain ⟨hmret, hrows⟩ := hm.resolve_left hmneg
    have hplace : m.1.toNat = x := by omega
    have hnb : o.1.toNat = o.2.window.nbMatches.toNat := by rw [hret]
    refine wp_ret fun y hy => wp_ret fun z hz =>
      ⟨hctx'', (hz (hy hv.inv).1).1, Or.inr ⟨j, ?_⟩⟩
    dsimp only
    rw [hwin, hsync, hplace, hnb]
    have hpos := hv.pos
    exact ⟨(hv.onward hy).onward hz, by omega, hretained, by omega, hlatest,
      (hrows.onward (RowsAt.lasting _ _ _ _) hy).onward (RowsAt.lasting _ _ _ _) hz⟩
  | readFrom search quantity sizes =>
    rw [hsel] at hcount hquantities
    refine wp_bind (onward_refl d) ?_
    unfold readFromSample
    split
    · exact wp_ret fun v hv => wp_ret fun x hx =>
        ⟨hctx, (hx (hv hinv).1).1, Or.inl (show -EINVAL < 0 by decide)⟩
    rename_i hsingle
    refine wp_bind (onward_refl d) (wp_mono (wp_dataFind hd hC hctx hinv hbegun hcount) ?_)
    rintro o u ⟨hctx', hu, hfound⟩
    by_cases hneg : o.1 < 0
    · rw [if_pos hneg]
      exact wp_ret fun v hv => wp_ret fun x hx =>
        ⟨hctx', (hx (hv hu).1).1, Or.inl hneg⟩
    rw [if_neg hneg]
    obtain ⟨-, j, hheld, ⟨x, -, hxlt, hlatest⟩, hretained, hone⟩ := hfound.resolve_left hneg
    obtain ⟨href, hnb⟩ := hone ⟨by omega, by omega⟩
    obtain rfl : x = 0 := by omega
    have hqs : ((if quantity.length > 0 then quantity
        else [{ quantityOffset := 0, quantitySize := o.2.desc.blobSize.toNat }]).zip sizes)
        = quantitiesOf d (.readFrom search quantity sizes) := by
      rw [hctx'.desc]
      rfl
    dsimp only
    rw [hqs, dataReadQuantitySample, if_neg (by omega), if_neg (by omega), hctx'.desc, href]
    refine wp_bind (onward_refl d) fun v hv _ => ⟨samplePtr_consGuar _ _ t v, ?_⟩
    refine wp_mono (wp_dataReadQuantitySampleLoop hd ((hheld.onward hv).onward
      (onward_of_consGuar (samplePtr_consGuar (B := B) (d := d) _ _ t v))) rfl _ hquantities) ?_
    rintro q y ⟨-, hy, hrows⟩
    refine wp_ret fun z hz => wp_ret fun w hw =>
      ⟨hctx', (hw (hz hy.inv).1).1, Or.inr ⟨j, (hy.onward hz).onward hw, ?_⟩⟩
    exact ⟨by dsimp only; omega, hretained, Nat.zero_lt_one, hlatest,
      (hrows.onward (lasting_at _) hz).onward (lasting_at _) hw⟩

/-! ## Reads and end -/

/-- One read of an open session. -/
theorem wp_readQuantity (hd : SoundDesc d) (hctx : CtxFor d ctx) (h : Held d ctx.window cnt j s)
    {nb : Nat} (hnb : (nb : Int) = ctx.window.nbMatches) {q : Option Quantity × Nat}
    (hq : ∀ quantity, q.1 = some quantity → InBounds d quantity) :
    wp (tracked B d) t C (Onward d) ConsGuar (readQuantity ctx q.1 q.2)
      (fun out s' => Held d ctx.window cnt j s' ∧ Unless d j (ReadRows d j nb q out) s') s := by
  have hrows : readQuantity ctx q.1 q.2
      = dataReadRows ctx (readRange d q.1).2 (readRange d q.1).1 q.2 := by
    obtain rfl := hctx.desc
    obtain ⟨quantity, dst⟩ := q
    cases quantity <;> rfl
  have hin : InSample d (readRange d q.1).1 (readRange d q.1).2 := by
    have hge := hd.stride_ge
    have hblob := hd.blob
    obtain ⟨quantity, dst⟩ := q
    cases quantity with
    | none =>
      refine ⟨show (0 : Int) ≤ 40 by decide, ?_⟩
      show (40 : Int) + (d.blobSize.toNat : Nat) ≤ stride d
      omega
    | some quantity =>
      obtain ⟨h0, h1⟩ := hq quantity rfl
      refine ⟨show (0 : Int) ≤ 40 + quantity.quantityOffset by omega, ?_⟩
      show 40 + quantity.quantityOffset + (quantity.quantitySize : Int) ≤ stride d
      omega
  rw [hrows, dataReadRows, if_neg (by have := h.pos; omega)]
  split
  · refine wp_ret fun u hu => ⟨h.onward hu, (h.onward hu).inv, fun _ h0 => ?_⟩
    exact absurd h0 (show ¬ 0 ≤ -EINVAL by decide)
  · rw [hctx.desc]
    refine wp_bind (onward_refl d) (wp_mono
      (wp_windowRead hd hin (partOf_readPart hd hq) h) ?_)
    rintro rows u ⟨hlen, hu, hrows⟩
    refine wp_ret fun v hv => ⟨hu.onward hv, Unless.onward (ReadRows.lasting _ _ _ _ _)
      ⟨hu.inv, fun hkept _ => ?_⟩ hv⟩
    have hwin : ctx.window.nbMatches.toNat = nb := by omega
    rw [hwin] at hlen hrows
    exact ⟨congrArg Nat.cast hlen, hrows.2 hkept⟩

/-- The reads of an open session. -/
theorem wp_readAll (hd : SoundDesc d) (hctx : CtxFor d ctx) (h : Held d ctx.window cnt j s)
    {nb : Nat} (hnb : (nb : Int) = ctx.window.nbMatches) (qs : List (Option Quantity × Nat))
    (hqs : ∀ q ∈ qs, ∀ quantity, q.1 = some quantity → InBounds d quantity) :
    wp (tracked B d) t C (Onward d) ConsGuar (readAll ctx qs)
      (fun outs s' => Held d ctx.window cnt j s' ∧
        Unless d j (fun log => List.Forall₂ (fun q out => ReadRows d j nb q out log) qs outs) s')
      s := by
  induction qs generalizing s with
  | nil => exact wp_ret fun u hu => ⟨h.onward hu, (h.onward hu).inv, fun _ => List.Forall₂.nil⟩
  | cons q qs ih =>
    refine wp_bind (onward_refl d) (wp_mono
      (wp_readQuantity hd hctx h hnb (hqs q List.mem_cons_self)) ?_)
    rintro out u ⟨hu, hout⟩
    refine wp_bind (onward_refl d) (wp_mono (wp_lasting (ReadRows.lasting _ _ _ _ _)
      (ih hu fun q' hq' => hqs q' (List.mem_cons_of_mem _ hq')) hout) ?_)
    rintro outs v ⟨⟨hv, houts⟩, hout'⟩
    refine wp_ret fun x hx => ⟨hv.onward hx, Unless.onward (forall₂_readRows_lasting _ _ _ _ _)
      ⟨hv.inv, fun hkept => ?_⟩ hx⟩
    exact List.Forall₂.cons (hout'.2 hkept) (houts.2 hkept)

/-- The revision is loaded and compared. -/
theorem syncCheckRevisionNb_reads (rev hdr : Int) :
    (syncCheckRevisionNb rev hdr).Ensures Revision.Computes Reads fun _ => True := by
  refine ensures_load32 trivial fun bs _ => ?_
  split
  · trivial
  · trivial

/-- The end of a read after the comparison of the counter. -/
theorem endReadRest_reads (hctx : CtxFor d ctx) (ret : Int) :
    (if ret < 0 then
      (if ret = -ENODEV then dataEndRead ctx >>= fun e => pure (ret, e.2) else pure (ret, ctx))
      else dataEndRead ctx : ShdProg (Int × ShdCtx)).Ensures Revision.Computes Reads
        fun e => CtxFor d e.2 := by
  have hend : (dataEndRead ctx).Ensures Revision.Computes Reads fun e => CtxFor d e.2 :=
    ⟨trivial, fun _ _ => ⟨hctx.desc, hctx.sync⟩⟩
  split
  · split
    · exact hend.bind fun e he => he
    · exact hctx
  · exact hend

/-- `shd_end_read` returns 0 only if what the session was told holds. -/
theorem wp_endRead (hd : SoundDesc d) (hC : ∀ o s, C t o s → IntactSnapshots d t o s)
    (hctx : CtxFor d ctx) (h : Held d ctx.window ctx.syncCtx.nbWrites j s)
    {X : List Commit → Prop} (hX : Lasting X) (hs : Unless d j X s) (rev : Int) :
    wp (tracked B d) t C (Onward d) ConsGuar (Core.endRead ctx rev)
      (fun e s' => CtxFor d e.2 ∧ RingInv d (· = 0) s' ∧ (e.1 = 0 → X s'.2.commits)) s := by
  have hslot : IsSlot d.nbSamples ctx.window.startIdx := by
    rw [h.start]
    exact isSlot_emod hd.size _
  rw [Core.endRead, dataCheckValidity, if_pos hslot.nonneg, hctx.desc]
  intro u hu _
  refine ⟨samplePtr_consGuar _ _ t u, fun v hv hfew => ⟨read_consGuar _ _ _ t v, ?_⟩⟩
  have hheld := (h.onward hu).onward hv
  have hown := onward_of_consGuar (d := d) (read_consGuar (B := B) (d := d) .endReadSession
    (nbWritesPtr (dataGetSamplePtr d ctx.window.startIdx)) 4 t v)
  have hptr : nbWritesPtr (dataGetSamplePtr d ctx.window.startIdx)
      = slot d ctx.window.startIdx + 32 := by
    rw [dataGetSamplePtr_eq hd hslot, nbWritesPtr_slot hd hslot]
  show wp (tracked B d) t C (Onward d) ConsGuar
    (((if ctx.syncCtx.nbWrites ≠ v.1.mem.i32 (nbWritesPtr (dataGetSamplePtr d ctx.window.startIdx)) then
        pure (-EFAULT, { ctx.syncCtx with nbWrites := -1 })
      else pure (0, { ctx.syncCtx with nbWrites := -1 })) >>= _) >>= _) _ _
  by_cases heq : ctx.syncCtx.nbWrites
      = v.1.mem.i32 (nbWritesPtr (dataGetSamplePtr d ctx.window.startIdx))
  · -- the counter is that of the snapshot: the rows were still there at this load
    rw [if_neg (not_not.mpr heq)]
    rw [hptr] at heq
    have hkept := hheld.kept_of_eq hd ((hC _ _ hfew).few rfl) heq
    have hXv := ((hs.onward hX hu).onward hX hv).2 hkept
    refine wp_mono (wp_reads (I := fun x => RingInv d (· = 0) x ∧ X x.2.commits)
      (Q := fun e : Int × ShdCtx => CtxFor d e.2) ?_ ?_ ⟨(hown hheld.inv).1, ?_⟩) ?_
    · rintro a b ⟨hi, hXa⟩ hR
      exact ⟨(hR hi).1, hX _ _ (hR hi).2.2 hXa⟩
    · refine Prog.Ensures.bind (Q := fun r : Int × ShdCtx => CtxFor d r.2) ?_ fun r hr =>
        endReadRest_reads hr r.1
      exact (syncCheckRevisionNb_reads rev _).bind fun ret _ => ⟨rfl, hctx.sync⟩
    · exact hX _ _ (hown hheld.inv).2.2 hXv
    · exact fun e x hx => ⟨hx.1, hx.2.1, fun _ => hx.2.2⟩
  · rw [if_pos heq]
    exact wp_ret fun x hx => ⟨⟨rfl, hctx.sync⟩, (hx (hown hheld.inv).1).1,
      fun h0 => absurd h0 (show -EFAULT ≠ 0 by decide)⟩

/-! ## Sessions -/

/-- A session that began when there were `begun` commits. -/
theorem wp_session (hd : SoundDesc d) (hC : ∀ o s, C t o s → IntactSnapshots d t o s)
    (hctx : CtxFor d ctx) {begun : Nat} (hinv : RingInv d (· = 0) s)
    (hbegun : begun ≤ s.2.commits.length) {r : ReadSession} (hr : Asks d r) :
    wp (tracked B d) t C (Onward d) ConsGuar (session F ctx r)
      (fun a s' => CtxFor d a.2 ∧ RingInv d (· = 0) s' ∧
        ∀ x, a.1 = some x → x.ret = 0 → ∃ j, Genuine d s'.2.commits begun r x j) s := by
  refine wp_bind (onward_refl d) (wp_mono (wp_openSession hd hC hctx hinv hbegun hr) ?_)
  rintro o u ⟨hctx', hu, ho⟩
  by_cases hneg : o.1 < 0
  · -- nothing was opened, nothing is delivered
    rw [if_pos hneg]
    exact wp_ret fun v hv => ⟨hctx', (hv hu).1, fun x hx => absurd hx (by simp)⟩
  rw [if_neg hneg]
  obtain ⟨j, hheld, hnb, hretained, href, hlatest, hopening⟩ := ho.resolve_left hneg
  refine wp_bind (onward_refl d) (wp_mono (wp_lasting (OpeningRows.lasting _ _ _ _)
    (wp_readAll hd hctx' hheld hnb r.reads hr.reads) hopening) ?_)
  rintro outs v ⟨⟨hv, houts⟩, hopening'⟩
  have hboth : Lasting fun log => OpeningRows d r.selecting o.2.1 j log ∧
      j + o.2.1.nb ≤ log.length ∧
      List.Forall₂ (fun q out => ReadRows d j o.2.1.nb q out log) r.reads outs :=
    fun log log' hp h => ⟨OpeningRows.lasting _ _ _ _ _ _ hp h.1, h.2.1.trans hp.length_le,
      forall₂_readRows_lasting _ _ _ _ _ _ _ hp h.2.2⟩
  refine wp_bind (onward_refl d) (wp_mono (wp_endRead hd hC hctx' hv hboth
    ⟨hv.inv, fun hkept => ⟨hopening'.2 hkept, ?_, houts.2 hkept⟩⟩ r.rev) ?_)
  · have := hv.committed
    omega
  · rintro e x ⟨hctx'', hx, hend⟩
    refine wp_ret fun y hy => ⟨hctx'', (hy hx).1, fun z hz hret => ⟨j, ?_⟩⟩
    obtain rfl := Option.some.inj hz
    obtain ⟨hrows, hlen, hreads⟩ := hend hret
    refine Genuine.longer (hy hx).2.2 ⟨⟨hlen, href, ?_, hreads⟩, hretained, hlatest⟩
    cases hsel : r.selecting with
    | select search => rw [hsel] at hrows; exact hrows
    | readFrom search quantity sizes => rw [hsel] at hrows; exact hrows

/-- The sessions of one consumer. -/
theorem wp_sessions (hd : SoundDesc d) (hC : ∀ o s, C t o s → IntactSnapshots d t o s)
    (rs : List ReadSession) (hrs : ∀ r ∈ rs, Asks d r) (hctx : CtxFor d ctx) {begun : Nat}
    (hinv : RingInv d (· = 0) s) (hbegun : begun ≤ s.2.commits.length) :
    wp (tracked B d) t C (Onward d) ConsGuar (sessions F rs ctx)
      (fun as s' => InTurn d s'.2.commits begun rs as.1) s := by
  induction rs generalizing ctx s begun with
  | nil => exact wp_ret fun u hu => trivial
  | cons r rs ih =>
    refine wp_bind (onward_refl d) (wp_mono
      (wp_frame (I := fun x => RingInv d (· = 0) x ∧ begun ≤ x.2.commits.length) ?_ ?_
        (wp_session hd hC hctx hinv hbegun (hrs r List.mem_cons_self)) ⟨hinv, hbegun⟩) ?_)
    · exact fun a b ha hR => ⟨(hR ha.1).1, ha.2.trans (hR ha.1).2.2.length_le⟩
    · exact fun o a b ha hg =>
        ⟨(onward_of_consGuar hg ha.1).1, ha.2.trans (onward_of_consGuar hg ha.1).2.2.length_le⟩
    rintro a u ⟨⟨hctx', hu, hgenuine⟩, -, hover⟩
    refine wp_bind (onward_refl d) (wp_mono
      (wp_frame (I := fun x => RingInv d (· = 0) x ∧ u.2.commits <+: x.2.commits) ?_ ?_
        (ih (fun r' hr' => hrs r' (List.mem_cons_of_mem _ hr')) hctx' hu (le_refl _))
        ⟨hu, List.prefix_refl _⟩) ?_)
    · exact fun x y hx hR => ⟨(hR hx.1).1, hx.2.trans (hR hx.1).2.2⟩
    · exact fun o x y hx hg =>
        ⟨(onward_of_consGuar hg hx.1).1, hx.2.trans (onward_of_consGuar hg hx.1).2.2⟩
    rintro as v ⟨hrest, hv, hlonger⟩
    refine wp_ret fun x hx => ?_
    have hfinal := hlonger.trans (hx hv).2.2
    refine ⟨u.2.commits.length, hover, hfinal.length_le, fun y hy hret => ?_,
      hrest.longer (hx hv).2.2⟩
    obtain ⟨j, hj⟩ := hgenuine y hy hret
    exact ⟨j, hj.longer hfinal, hj.committed⟩

end Shdata.Readers
