/-
Shdata.Producer.Sessions — the write sessions of the only producer of a
section, as a history of samples.

A session is `shd_new_sample`, any number of `shd_write_quantity`, and
`shd_commit_sample`. It determines the metadata of its sample, and the bytes
of the blob that it wrote. `exec_sessions` says that a run of sessions that
all succeed commits one sample for each session, in their order, and that
each of them is the sample that its session wrote.
-/
import Shdata.Producer.Runs
import Shdata.Bytes.Patch

namespace Shdata.Producer

open Shdata.Conc Shdata.Bytes Shdata.Core Shdata.Ring Shdata.Layout Shdata.Trace

variable {Ω : Type} {B : Backend Ω} {d : DataSectionDesc}

/-! ## Sessions -/

structure WriteSession where
  metadata : SampleMetadata
  writes : List (Quantity × List UInt8)

/-- The calls of a session. -/
def WriteSession.calls (ws : WriteSession) : List ProdCall :=
  .newSample ws.metadata :: (ws.writes.map (fun q => .writeQuantity q.1 q.2) ++ [.commitSample])

/-- The bytes of the blob that copies leave, on top of what was written before. -/
def written : List (Quantity × List UInt8) → Patch → Patch
  | [], p => p
  | (q, src) :: rest, p => written rest (p.write q.quantityOffset (src.take q.quantitySize))

/-- The bytes of the blob that a session wrote. -/
def WriteSession.blob (ws : WriteSession) : Patch := written ws.writes Patch.empty

def WriteSession.InBounds (d : DataSectionDesc) (ws : WriteSession) : Prop :=
  ∀ q ∈ ws.writes, Producer.InBounds d q.1

/-- The commit holds the sample that the session wrote. -/
structure Records (d : DataSectionDesc) (ws : WriteSession) (c : Commit) : Prop where
  metadata : c.metadata = encMetadata ws.metadata
  length : c.blob.length = d.blobSize.toNat
  blob : ∀ (o : Nat) v, o < d.blobSize.toNat → ws.blob o = some v → c.blob[o]? = some v

/-! ## Lists of calls -/

theorem exec_prodCalls_append {σ : Type} (M : Machine Op.Resp Nat σ) (t : Nat)
    (xs ys : List ProdCall) (ctx : ShdCtx) (s : σ) :
    exec M t (prodCalls (xs ++ ys) ctx) s =
      (((exec M t (prodCalls xs ctx) s).1.1 ++
          (exec M t (prodCalls ys (exec M t (prodCalls xs ctx) s).1.2)
            (exec M t (prodCalls xs ctx) s).2).1.1,
        (exec M t (prodCalls ys (exec M t (prodCalls xs ctx) s).1.2)
          (exec M t (prodCalls xs ctx) s).2).1.2),
        (exec M t (prodCalls ys (exec M t (prodCalls xs ctx) s).1.2)
          (exec M t (prodCalls xs ctx) s).2).2) := by
  induction xs generalizing ctx s with
  | nil => rfl
  | cons x xs ih =>
    simp only [List.cons_append, prodCalls, exec_bind, exec_pure, ih]

theorem exec_prodCalls_cons {σ : Type} (M : Machine Op.Resp Nat σ) (t : Nat) (c : ProdCall)
    (cs : List ProdCall) (ctx : ShdCtx) (s : σ) :
    exec M t (prodCalls (c :: cs) ctx) s =
      (((exec M t (prodCall ctx c) s).1.1 ::
          (exec M t (prodCalls cs (exec M t (prodCall ctx c) s).1.2)
            (exec M t (prodCall ctx c) s).2).1.1,
        (exec M t (prodCalls cs (exec M t (prodCall ctx c) s).1.2)
          (exec M t (prodCall ctx c) s).2).1.2),
        (exec M t (prodCalls cs (exec M t (prodCall ctx c) s).1.2)
          (exec M t (prodCall ctx c) s).2).2) := by
  simp only [prodCalls, exec_bind, exec_pure]

/-! ## Commits are made by the store of the write index only -/

theorem exec_commits {α : Type} {p : ShdProg α} (hp : p.AllOps fun o => ¬ IsIndexStore o)
    (t : Nat) (s : World Ω × History) :
    (exec (tracked B d) t p s).2.2.commits = s.2.commits := by
  refine exec_inv (tracked B d) t (I := fun u => u.2.commits = s.2.commits) ?_ hp rfl
  intro o u ho hu
  rw [← hu]
  rcases track_commits d t o u.1 ((machine B).step t o u.1).2 u.2 with hsame | ⟨src, rfl, -⟩
  · exact hsame
  · exact absurd rfl ho

/-- A new sample stores no index, and keeps the slot of the last commit. -/
theorem newSample_noStore (ctx : ShdCtx) (hi : IsI32 ctx.syncCtx.index)
    (metadata : SampleMetadata) :
    (newSample ctx metadata).Ensures (fun _ _ => True) (fun o => ¬ IsIndexStore o)
      fun r => r.2.sectMmap = ctx.sectMmap ∧ r.2.syncCtx.prevIndex = ctx.syncCtx.prevIndex ∧
        IsI32 r.2.syncCtx.index := by
  have hstart : ∀ hdr, (syncStartWriteSession ctx.syncCtx hdr).AllOps fun o => ¬ IsIndexStore o := by
    intro hdr
    refine Prog.ensures_perform id fun n _ => ?_
    split
    · split <;> exact trivial
    · exact trivial
  have hsample : ∀ hdr samp desc, (syncStartSampleWrite ctx.syncCtx hdr samp desc).Ensures
      (fun _ _ => True) (fun o => ¬ IsIndexStore o)
      fun r => r.2.prevIndex = ctx.syncCtx.prevIndex ∧ IsI32 r.2.index := by
    intro hdr samp desc
    unfold syncStartSampleWrite
    split
    · exact ⟨rfl, hi⟩
    · refine Prog.ensures_perform id fun _ _ => ensures_load32 id fun bs _ => ?_
      dsimp only
      split <;> exact ⟨rfl, isI32_toI32 _⟩
  have hreserve : (dataReserveWrite ctx).Ensures (fun _ _ => True) (fun o => ¬ IsIndexStore o)
      fun r => r.2.sectMmap = ctx.sectMmap ∧ r.2.syncCtx.prevIndex = ctx.syncCtx.prevIndex ∧
        IsI32 r.2.syncCtx.index := by
    refine Prog.Ensures.bind (hstart _) fun ret _ => ?_
    split
    · exact ⟨rfl, rfl, hi⟩
    · refine Prog.Ensures.bind (Q := fun _ => True) (ensures_load32 id fun bs _ => trivial)
        fun index _ => Prog.ensures_perform id fun p _ => Prog.Ensures.bind (hsample _ _ _)
          fun r hr => ⟨rfl, hr.1, hr.2⟩
  refine hreserve.bind fun r hr => ?_
  split
  · exact hr
  · refine Prog.Ensures.bind (Q := fun _ => True) ?_ fun _ _ => hr
    unfold dataWriteMetadata
    dsimp only
    split
    · exact trivial
    · exact Prog.ensures_perform id fun p _ => Prog.ensures_perform id fun _ _ => trivial

theorem writeQuantity_noStore (ctx : ShdCtx) (q : Quantity) (src : List UInt8) :
    (writeQuantity ctx q src).AllOps fun o => ¬ IsIndexStore o := by
  unfold writeQuantity dataWriteQuantity
  dsimp only
  split
  · exact trivial
  · exact Prog.ensures_perform id fun p _ => Prog.ensures_perform id fun _ _ => trivial

/-! ## One session -/

/-- The producer is in the session whose sample has this metadata, and `p` are the
bytes of the blob that were written so far. -/
def Filling (d : DataSectionDesc) (n : Nat) (ctx : ShdCtx) (metadata : SampleMetadata) (p : Patch)
    (s : World Ω × History) : Prop :=
  ∃ f, Pending d (· = 0) 0 n ctx f s ∧
    f.read (slot d ctx.syncCtx.index) 32 = encMetadata metadata ∧
    Shows f (slot d ctx.syncCtx.index + 40) p

/-- A new sample that was not refused starts the session. -/
theorem exec_newSample (hd : SoundDesc d) {n : Nat} {ctx : ShdCtx} {s : World Ω × History}
    (h : Idle d (· = 0) 0 n ctx s) (metadata : SampleMetadata)
    (hret : (exec (tracked B d) 0 (newSample ctx metadata) s).1.1 = 0) :
    Filling d n (exec (tracked B d) 0 (newSample ctx metadata) s).1.2 metadata Patch.empty
        (exec (tracked B d) 0 (newSample ctx metadata) s).2 ∧
      (exec (tracked B d) 0 (newSample ctx metadata) s).2.2.commits = s.2.commits := by
  have hwp := wp_newSample_idle (B := B) (solo_setting hd 0) metadata h
  have hi32 : IsI32 ctx.syncCtx.index := by
    rw [h.index]
    exact ⟨by omega, by omega⟩
  refine ⟨?_, exec_commits ((newSample_noStore ctx hi32 metadata).mono (fun _ => id) fun _ _ => trivial) 0 s⟩
  rcases exec_of_wp (fun _ => rfl) (fun _ _ => trivial) hwp with ⟨hr, -⟩ | ⟨i, f, hr, hp, hmd⟩
  · rw [hr] at hret
    exact absurd hret (show ¬ -EPERM = 0 by decide)
  · have hctx := (Prod.ext_iff.mp hr).2
    dsimp only at hctx
    rw [hctx]
    exact ⟨f, hp, hmd hret, shows_empty f _⟩

/-- The copies of the session. They all succeed. -/
theorem exec_writes (hd : SoundDesc d) {n : Nat} {ctx : ShdCtx} {metadata : SampleMetadata}
    (ws : List (Quantity × List UInt8)) (hws : ∀ q ∈ ws, InBounds d q.1) {p : Patch}
    {s : World Ω × History} (h : Filling d n ctx metadata p s) :
    ∃ rets s', exec (tracked B d) 0 (prodCalls (ws.map fun q => .writeQuantity q.1 q.2) ctx) s
        = ((rets, ctx), s') ∧
      Filling d n ctx metadata (written ws p) s' ∧ s'.2.commits = s.2.commits := by
  induction ws generalizing p s with
  | nil => exact ⟨[], s, rfl, h, rfl⟩
  | cons q ws ih =>
    obtain ⟨f, hp, hmd, hshows⟩ := h
    obtain ⟨q, src⟩ := q
    have hq : InBounds d q := hws (q, src) (by simp)
    have hwp : wp _ _ _ _ _ (writeQuantity ctx q src) _ _ :=
      wp_writeQuantity_pending (B := B) (solo_setting hd 0) hp hq
    obtain ⟨-, hp'⟩ := exec_of_wp (fun _ => rfl) (fun _ _ => trivial) hwp
    have hcommits := exec_commits (B := B) (d := d) (writeQuantity_noStore ctx q src) 0 s
    obtain ⟨ret, s₁, hex⟩ : ∃ ret s₁, exec (tracked B d) 0 (writeQuantity ctx q src) s = (ret, s₁) :=
      ⟨_, _, rfl⟩
    rw [hex] at hp' hcommits
    have hfill : Filling d n ctx metadata
        (p.write q.quantityOffset (src.take q.quantitySize)) s₁ := by
      refine ⟨_, hp', ?_, ?_⟩
      · rw [Mem.read_write_disjoint (by have := hq.1; omega)]
        exact hmd
      · have := hshows.write q.quantityOffset (src.take q.quantitySize)
        rwa [Int.add_assoc] at this
    obtain ⟨rets, s', hexs, hfill', hcommits'⟩ := ih (fun q' hq' => hws q' (by simp [hq'])) hfill
    refine ⟨ret :: rets, s', ?_, hfill', hcommits'.trans hcommits⟩
    have hcall : exec (tracked B d) 0 (prodCall ctx (.writeQuantity q src)) s = ((ret, ctx), s₁) := by
      rw [prodCall, exec_bind, hex]
      rfl
    rw [List.map_cons, exec_prodCalls_cons, hcall]
    dsimp only
    rw [hexs]

/-- The commit ends the session and logs its sample. -/
theorem exec_commitSample (hd : SoundDesc d) {n : Nat} {ctx : ShdCtx} {ws : WriteSession}
    {s : World Ω × History} (h : Filling d n ctx ws.metadata ws.blob s) :
    Idle d (· = 0) 0 (n + 1) (exec (tracked B d) 0 (commitSample ctx) s).1.2
        (exec (tracked B d) 0 (commitSample ctx) s).2 ∧
      ∃ c, (exec (tracked B d) 0 (commitSample ctx) s).2.2.commits = s.2.commits ++ [c] ∧
        Records d ws c := by
  obtain ⟨f, hp, hmd, hshows⟩ := h
  have hwp := wp_commitSample_pending (B := B) (solo_setting hd 0) hp
  obtain ⟨hr, v, rfl, hidle, hcommits⟩ := exec_of_wp (fun _ => rfl) (fun _ _ => trivial) hwp
  have hctx := (Prod.ext_iff.mp hr).2
  dsimp only at hctx
  rw [hctx]
  refine ⟨hidle, _, hcommits, hmd, by simp [commitOf, blobOf], fun o v ho hv => ?_⟩
  exact hshows.read ho hv

/-- A session that succeeds commits its sample. -/
theorem exec_session (hd : SoundDesc d) {n : Nat} {ctx : ShdCtx} {s : World Ω × History}
    (h : Idle d (· = 0) 0 n ctx s) (ws : WriteSession) (hws : ws.InBounds d)
    (hret : ∀ r ∈ (exec (tracked B d) 0 (prodCalls ws.calls ctx) s).1.1, r = 0) :
    Idle d (· = 0) 0 (n + 1) (exec (tracked B d) 0 (prodCalls ws.calls ctx) s).1.2
        (exec (tracked B d) 0 (prodCalls ws.calls ctx) s).2 ∧
      ∃ c, (exec (tracked B d) 0 (prodCalls ws.calls ctx) s).2.2.commits = s.2.commits ++ [c] ∧
        Records d ws c := by
  rw [WriteSession.calls, exec_prodCalls_cons, exec_prodCalls_append] at hret ⊢
  obtain ⟨hfill, hcommits⟩ := exec_newSample (B := B) hd h ws.metadata (hret _ (by
    exact List.mem_cons_self))
  obtain ⟨rets, s', hexs, hfill', hcommits'⟩ := exec_writes (B := B) hd ws.writes hws hfill
  obtain ⟨hidle, c, hc, hrec⟩ := exec_commitSample (B := B) hd
    (show Filling d n _ ws.metadata ws.blob _ from hfill')
  have hlast : exec (tracked B d) 0 (prodCall ctx (.newSample ws.metadata)) s
      = exec (tracked B d) 0 (newSample ctx ws.metadata) s := rfl
  rw [hlast, hexs, exec_prodCalls_cons]
  refine ⟨hidle, c, ?_, hrec⟩
  rw [← hcommits, ← hcommits']
  exact hc

/-! ## Runs of sessions -/

/-- The calls of sessions, one after the other. -/
def sessionCalls (wss : List WriteSession) : List ProdCall := wss.flatMap WriteSession.calls

/-- Sessions that all succeed commit one sample each, in their order. -/
theorem exec_sessions (hd : SoundDesc d) (wss : List WriteSession)
    (hws : ∀ ws ∈ wss, ws.InBounds d) {n : Nat} {ctx : ShdCtx} {s : World Ω × History}
    (h : Idle d (· = 0) 0 n ctx s)
    (hret : ∀ r ∈ (exec (tracked B d) 0 (prodCalls (sessionCalls wss) ctx) s).1.1, r = 0) :
    Idle d (· = 0) 0 (n + wss.length)
        (exec (tracked B d) 0 (prodCalls (sessionCalls wss) ctx) s).1.2
        (exec (tracked B d) 0 (prodCalls (sessionCalls wss) ctx) s).2 ∧
      ∃ cs, (exec (tracked B d) 0 (prodCalls (sessionCalls wss) ctx) s).2.2.commits
          = s.2.commits ++ cs ∧ List.Forall₂ (Records d) wss cs := by
  induction wss generalizing n ctx s with
  | nil => exact ⟨h, [], (List.append_nil _).symm, .nil⟩
  | cons ws wss ih =>
    rw [sessionCalls, List.flatMap_cons, exec_prodCalls_append] at hret ⊢
    obtain ⟨hidle, c, hc, hrec⟩ := exec_session (B := B) hd h ws (hws ws (by simp))
      fun r hr => hret r (List.mem_append.mpr (Or.inl hr))
    obtain ⟨hidle', cs, hcs, hrecs⟩ := ih (fun ws' hws' => hws ws' (by simp [hws'])) hidle
      fun r hr => hret r (List.mem_append.mpr (Or.inr hr))
    refine ⟨?_, c :: cs, ?_, .cons hrec hrecs⟩
    · rw [List.length_cons, show n + (wss.length + 1) = n + 1 + wss.length by omega]
      exact hidle'
    · rw [hc, List.append_assoc] at hcs
      exact hcs

theorem sessionCalls_inBounds {wss : List WriteSession} (h : ∀ ws ∈ wss, ws.InBounds d) :
    ∀ c ∈ sessionCalls wss, c.InBounds d := by
  intro c hc
  obtain ⟨ws, hws, hc⟩ := List.mem_flatMap.mp hc
  rcases List.mem_cons.mp hc with rfl | hc
  · trivial
  rcases List.mem_append.mp hc with hc | hc
  · obtain ⟨q, hq, rfl⟩ := List.mem_map.mp hc
    exact h ws hws q hq
  · obtain rfl := List.mem_singleton.mp hc
    trivial

/-- A run of sessions, with names for what it returns and leaves. -/
theorem sessions_spec (hd : SoundDesc d) {wss : List WriteSession}
    (hws : ∀ ws ∈ wss, ws.InBounds d) {n : Nat} {ctx : ShdCtx} {s : World Ω × History}
    (h : Idle d (· = 0) 0 n ctx s) {rets : List Int} {ctx' : ShdCtx} {s' : World Ω × History}
    (hex : exec (tracked B d) 0 (prodCalls (sessionCalls wss) ctx) s = ((rets, ctx'), s'))
    (hret : ∀ r ∈ rets, r = 0) :
    Idle d (· = 0) 0 (n + wss.length) ctx' s' ∧ Grows d s s' ∧
      ∃ cs, s'.2.commits = s.2.commits ++ cs ∧ List.Forall₂ (Records d) wss cs := by
  have hrun := exec_sessions (B := B) hd wss hws h (by rw [hex]; exact hret)
  have hguar := soloGuar_exec (wp_prodCalls (B := B) (solo_setting hd 0) (sessionCalls wss)
    (sessionCalls_inBounds hws) (Or.inl h))
  rw [hex] at hrun hguar
  exact ⟨hrun.1, (hguar h.inv).2, hrun.2⟩

end Shdata.Producer
