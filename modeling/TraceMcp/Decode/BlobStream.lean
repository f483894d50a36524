import TraceMcp.Decode.BlobBranches
import TraceMcp.Lib.Runs

/-!
# What a chunk sends

The batches of a decode go out through the clamp of `flush`: no time goes back
before one that was sent. The clamp goes on from batch to batch, so it is one
clamp of everything that was emitted (`flushAll_flatten`). A chunk that is
decoded sends what the history of its decode says, clamped
(`chunkBatches_history`), and its branches are those that libipt told, but for
their times (`chunkBatches_branches`).
-/

namespace TraceMcp.Decode

open TraceMcp.Lib

/-! ## The clamp -/

/-- What the clamp makes of an element: a time may be put later. -/
def Clamped (y x : Tagged) : Prop :=
  x = y ∨ ∃ v c, y.1 = some v ∧ v ≤ c ∧ x = (some c, retime c y.2)

theorem clampBatch_clamped (mono : Nat) (xs : Batch) :
    List.Forall₂ Clamped xs (clampBatch mono xs).2 := by
  induction xs generalizing mono with
  | nil => exact .nil
  | cons x xs ih =>
    obtain ⟨t, rec⟩ := x
    cases t with
    | none => exact .cons (.inl rfl) (ih mono)
    | some v =>
      exact .cons (.inr ⟨v, max v mono, rfl, Nat.le_max_left v mono, rfl⟩) (ih (max v mono))

theorem clampBatch_append (mono : Nat) (xs ys : Batch) :
    clampBatch mono (xs ++ ys) = ((clampBatch (clampBatch mono xs).1 ys).1,
      (clampBatch mono xs).2 ++ (clampBatch (clampBatch mono xs).1 ys).2) := by
  induction xs generalizing mono with
  | nil => rfl
  | cons x xs ih =>
    obtain ⟨t, rec⟩ := x
    cases t with
    | none =>
      rw [List.cons_append, clampBatch, ih]
      rfl
    | some v =>
      rw [List.cons_append, clampBatch, ih]
      rfl

/-- Where a batch ends does not matter. -/
theorem flushAll_flatten (mono : Nat) (batches : List Batch) :
    (flushAll mono batches).flatten = (clampBatch mono batches.flatten).2 := by
  induction batches generalizing mono with
  | nil => rfl
  | cons batch batches ih =>
    cases batch with
    | nil => exact ih mono
    | cons x xs => rw [flushAll, List.flatten_cons, ih, List.flatten_cons, clampBatch_append]

/-- An element as it is pushed, before the clamp. -/
def Emitted.tagged (cpu : Nat) (e : Emitted) : Tagged := (e.time, e.record cpu)

theorem chunkBatches_flatten (native : Libipt) (file : List UInt8) (b : AuxBlob) :
    (chunkBatches native file b).flatten = (clampBatch 0
      ((native.decodeBlob (blobBytes file b) b.cpu).flushes.flatten.map (Emitted.tagged b.cpu))).2 := by
  rw [chunkBatches, flushAll_flatten, List.map_flatten]
  rfl

namespace Blob

variable {δ : Type} {lib : BlockDecoder δ} {ctx : Context} {d : δ} {told : List Answer} {r : BlobRun}

/-! ## A decode -/

/-- `decode_blob` comes to an end with `r`, and this is what libipt told it. -/
def Decodes (lib : BlockDecoder δ) (ctx : Context) (d : δ) (told : List Answer) (r : BlobRun) : Prop :=
  ∃ n, (run lib ctx d n).1 = told ∧ (run lib ctx d n).2.pc = .stop r.outcome ∧
    r.flushes = (run lib ctx d n).2.loop.sent

theorem run_stopped {n : Nat} {result : Result Nat} (hstop : (run lib ctx d n).2.pc = .stop result)
    (k : Nat) : run lib ctx d (n + k) = run lib ctx d n := by
  induction k with
  | zero => rfl
  | succ k ih =>
    -- a machine that has stopped makes no more steps
    show ((step lib ctx (run lib ctx d (n + k)).2).1.toList ++ (run lib ctx d (n + k)).1,
      (step lib ctx (run lib ctx d (n + k)).2).2) = run lib ctx d n
    rw [ih, step, hstop]
    rfl

/-- A decode ends in one way. -/
theorem Decodes.unique {told' : List Answer} {r' : BlobRun} (h : Decodes lib ctx d told r)
    (h' : Decodes lib ctx d told' r') : told = told' ∧ r = r' := by
  obtain ⟨n, htold, hstop, hsent⟩ := h
  obtain ⟨n', htold', hstop', hsent'⟩ := h'
  have hrun : run lib ctx d n = run lib ctx d n' := by
    rw [← run_stopped hstop n', ← run_stopped hstop' n, Nat.add_comm]
  refine ⟨by rw [← htold, ← htold', hrun], ?_⟩
  rw [hrun, hstop', Pc.stop.injEq] at hstop
  rw [hrun, ← hsent'] at hsent
  obtain ⟨flushes, outcome⟩ := r
  obtain ⟨flushes', outcome'⟩ := r'
  exact congr (congrArg BlobRun.mk hsent) hstop.symm

/-- What it flushes is what its history says, up to the point where it fails. -/
theorem Decodes.flushed (h : Decodes lib ctx d told r) :
    r.flushes.flatten <+: (history ctx told).out ∧ ∀ n, r.outcome = .ok n →
      r.flushes.flatten = (history ctx told).out ∧ n = (history ctx told).emitted := by
  obtain ⟨n, rfl, hstop, hsent⟩ := h
  obtain ⟨hout, -, hended⟩ := run_history lib ctx d n
  rw [hsent]
  refine ⟨⟨_, hout⟩, fun branches hok => ?_⟩
  rw [hok] at hstop
  exact hended branches hstop

/-! ## A chunk -/

variable {native : Libipt} {file : List UInt8} {b : AuxBlob}

/-- A chunk sends what the history of its decode says, clamped, up to the point
where the decode fails. -/
theorem chunkBatches_history
    (h : Decodes lib ctx d told (native.decodeBlob (blobBytes file b) b.cpu)) :
    (chunkBatches native file b).flatten <+:
        (clampBatch 0 ((history ctx told).out.map (Emitted.tagged b.cpu))).2 ∧
      ∀ n, (native.decodeBlob (blobBytes file b) b.cpu).outcome = .ok n →
        (chunkBatches native file b).flatten =
          (clampBatch 0 ((history ctx told).out.map (Emitted.tagged b.cpu))).2 ∧
        n = (history ctx told).emitted := by
  obtain ⟨⟨rest, hout⟩, hended⟩ := h.flushed
  rw [chunkBatches_flatten]
  constructor
  · rw [← hout, List.map_append, clampBatch_append]
    exact List.prefix_append _ _
  · intro n hok
    obtain ⟨hall, hcount⟩ := hended n hok
    rw [hall]
    exact ⟨rfl, hcount⟩

/-- `x` is `s` as the clamp lets it through. -/
def SentAs (s : Sample) (x : Tagged) : Prop :=
  ∃ t, x = (t, .sample { s with timeNs := t }) ∧ ∀ v ∈ s.timeNs, ∃ c ∈ t, v ≤ c

theorem clamped_sample {cpu : Nat} {s : Sample} {x : Tagged}
    (h : Clamped ((Emitted.sample s).tagged cpu) x) : SentAs s x := by
  rcases h with rfl | ⟨v, c, hv, hle, rfl⟩
  · exact ⟨s.timeNs, rfl, fun v hv => ⟨v, hv, Nat.le_refl v⟩⟩
  · refine ⟨some c, rfl, fun u hu => ⟨c, rfl, ?_⟩⟩
    rw [show s.timeNs = some v from hv] at hu
    exact Option.some.inj hu ▸ hle

/-- Only a sample is sent as one. -/
theorem sample_of_clamped {cpu : Nat} {e : Emitted} {x : Tagged} (h : Clamped (e.tagged cpu) x)
    {s : Sample} (hx : x.2 = .sample s) : ∃ s', e = .sample s' := by
  cases e with
  | sample s' => exact ⟨s', rfl⟩
  | error err =>
    rcases h with rfl | ⟨v, c, -, -, rfl⟩
    · cases hx
    · cases hx
  | overflow t =>
    rcases h with rfl | ⟨v, c, -, -, rfl⟩
    · cases hx
    · cases hx

/-- The plain branches a chunk sends are branches that libipt told, with their
time or a later one, and when the decode ends well each of these is sent. -/
theorem chunkBatches_branches
    (h : Decodes lib ctx d told (native.decodeBlob (blobBytes file b) b.cpu)) :
    (∀ x ∈ (chunkBatches native file b).flatten, ∀ s, x.2 = .sample s → Plain s →
        ∃ s', Branch ctx told s' ∧ SentAs s' x) ∧
      ∀ n, (native.decodeBlob (blobBytes file b) b.cpu).outcome = .ok n → ∀ s, Branch ctx told s →
        ∃ x ∈ (chunkBatches native file b).flatten, SentAs s x ∨ SentAs (ended s) x := by
  obtain ⟨hfront, hended⟩ := chunkBatches_history h
  obtain ⟨hplain, hbranch⟩ := history_branches ctx told
  have hclamped := clampBatch_clamped 0 ((history ctx told).out.map (Emitted.tagged b.cpu))
  constructor
  · -- back from what is sent to what was said
    intro x hx s hs hs'
    obtain ⟨y, hy, hyx⟩ := forall₂_mem_right hclamped x (hfront.subset hx)
    obtain ⟨e, he, rfl⟩ := List.mem_map.mp hy
    obtain ⟨s₀, rfl⟩ := sample_of_clamped hyx hs
    have hsent := clamped_sample hyx
    refine ⟨s₀, hplain s₀ he ?_, hsent⟩
    obtain ⟨t, rfl, -⟩ := hsent
    cases hs
    exact hs'
  · -- and forth, where all of it is sent
    intro n hok s hs
    rw [(hended n hok).1]
    have hsent : ∀ s', .sample s' ∈ (history ctx told).out → ∃ x ∈ (clampBatch 0
        ((history ctx told).out.map (Emitted.tagged b.cpu))).2, SentAs s' x := by
      intro s' hmem
      obtain ⟨x, hx, hyx⟩ := forall₂_mem_left hclamped _ (List.mem_map_of_mem hmem)
      exact ⟨x, hx, clamped_sample hyx⟩
    rcases hbranch s hs with hmem | hmem
    · obtain ⟨x, hx, hsx⟩ := hsent s hmem
      exact ⟨x, hx, .inl hsx⟩
    · obtain ⟨x, hx, hsx⟩ := hsent _ hmem
      exact ⟨x, hx, .inr hsx⟩

end Blob

end TraceMcp.Decode
