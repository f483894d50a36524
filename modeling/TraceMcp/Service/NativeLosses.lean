import TraceMcp.Decode.Losses
import TraceMcp.Service.NativeOrder

/-!
# Losses in native streams

`run_native_stream` of `src/service.rs` merges the native streams into one
sink. A lost record is sideband to the merge, which takes sideband only from
stream 0; but an overflow found by a decode worker is a lost record too, and
it is on the worker's stream. So the losses that reach the sink are exactly
those of stream 0, and none is dropped only when no worker meets an overflow.
-/

namespace TraceMcp.Service

open TraceMcp.Lib TraceMcp.Decode

/-! ## The whole run -/

/-- `StreamStats`. -/
structure StreamStats where
  lines : Nat
  bytes : Nat
  samples : Nat
  unparsed : Nat
  streams : Nat

/-- The first error among the decode threads. -/
def firstError (handles : List (Result Nat)) : Option Error :=
  handles.findSome? fun
    | .error e => some e
    | .ok _ => none

/-- The branches the decode threads report. -/
def sampleTotal (handles : List (Result Nat)) : Nat :=
  (handles.map fun
    | .ok n => n
    | .error _ => 0).sum

/-- `run_native_stream`: what the sink becomes, and the statistics. -/
def runNativeStream {σ : Type} (lib : Libipt) (pd : PerfData) (file : List UInt8)
    (tailDiv parallelism : Nat) (sink : σ → RawRecord → Result σ) (s : σ) :
    Result (StreamStats × σ) := do
  let ns ← spawnNativeStreams lib pd file tailDiv parallelism
  let s ← mergeRecords sink s ns.receivers
  match firstError ns.handles with
  | some e => .error e
  | none =>
    let samples := sampleTotal ns.handles
    .ok (⟨samples, 0, samples, 0, ns.streams⟩, s)

theorem runNativeStream_ok {σ : Type} {lib : Libipt} {pd : PerfData} {file : List UInt8}
    {tailDiv parallelism : Nat} {sink : σ → RawRecord → Result σ} {s s' : σ} {stats : StreamStats}
    (h : runNativeStream lib pd file tailDiv parallelism sink s = .ok (stats, s')) :
    ∃ ns, spawnNativeStreams lib pd file tailDiv parallelism = .ok ns ∧
      mergeRecords sink s ns.receivers = .ok s' := by
  unfold runNativeStream at h
  obtain ⟨ns, hns, h⟩ := bind_ok.mp h
  obtain ⟨s₁, hs₁, h⟩ := bind_ok.mp h
  refine ⟨ns, hns, ?_⟩
  split at h
  next => cases h
  next =>
    cases h
    exact hs₁

/-! ## Counting losses -/

/-- The losses all streams carry. -/
def losses (receivers : List (List Batch)) : List RawRecord :=
  ((receivers.map List.flatten).flatten.map Prod.snd).filter isLoss

/-- Of a merge, the losses of stream 0 reach the sink and no others. -/
theorem delivered_losses {receivers : List (List Batch)} {out : List (Nat × Tagged)}
    (h : Merges mergeKey (streamOf receivers) out) :
    (delivered out).filter isLoss = ((streamOf receivers 0).map Prod.snd).filter isLoss := by
  rw [← h.stream 0, delivered, List.map_map, List.filter_map, List.filter_map,
    List.filter_filter, List.filter_filter]
  refine congrArg _ (List.filter_congr fun x _ => ?_)
  cases hrec : x.2.2 <;> simp [Function.comp_apply, hrec, isLoss, sideband, bne, beq_eq_decide]

theorem losses_cons (rx : List Batch) (receivers : List (List Batch)) :
    losses (rx :: receivers) = (rx.flatten.map Prod.snd).filter isLoss ++ losses receivers := by
  rw [losses, List.map_cons, List.flatten_cons, List.map_append, List.filter_append]
  rfl

section Overflows

variable (lib : Libipt) (file : List UInt8)

/-- The overflow events in a chunk. -/
def overflows (b : AuxBlob) : Nat :=
  (lib.decodeBlob (blobBytes file b) b.cpu).flushes.flatten.countP fun
    | .overflow _ => true
    | _ => false

/-- No decode worker meets an overflow. -/
def OverflowFree (parallelism : Nat) (items : List AuxBlob) : Prop :=
  ∀ group ∈ deal parallelism items, ∀ b ∈ decodedBy lib file group, overflows lib file b = 0

instance (parallelism : Nat) (items : List AuxBlob) :
    Decidable (OverflowFree lib file parallelism items) :=
  inferInstanceAs (Decidable (∀ _ ∈ _, ∀ _ ∈ _, _))

end Overflows

variable {lib : Libipt} {file : List UInt8}

theorem isLoss_retime (t : Nat) (rec : RawRecord) : isLoss (retime t rec) = isLoss rec := by
  cases rec <;> rfl

theorem clampBatch_losses (m : Nat) (xs : Batch) :
    (clampBatch m xs).2.countP (fun x => isLoss x.2) = xs.countP fun x => isLoss x.2 := by
  induction xs generalizing m with
  | nil => rfl
  | cons x xs ih =>
    obtain ⟨t, rec⟩ := x
    cases t with
    | none =>
      show List.countP _ ((none, rec) :: (clampBatch m xs).2) = _
      rw [List.countP_cons, List.countP_cons, ih]
    | some v =>
      show List.countP _ ((some _, retime _ rec) :: (clampBatch (max v m) xs).2) = _
      rw [List.countP_cons, List.countP_cons, ih, isLoss_retime]

theorem flushAll_losses (m : Nat) (batches : List Batch) :
    (flushAll m batches).flatten.countP (fun x => isLoss x.2) =
      batches.flatten.countP fun x => isLoss x.2 := by
  induction batches generalizing m with
  | nil => rfl
  | cons batch batches ih =>
    cases batch with
    | nil => exact ih m
    | cons x xs =>
      rw [flushAll, List.flatten_cons, List.flatten_cons, List.countP_append, List.countP_append,
        ih, clampBatch_losses]

/-- A chunk sends one loss for each overflow. -/
theorem chunkBatches_losses (b : AuxBlob) :
    (chunkBatches lib file b).flatten.countP (fun x => isLoss x.2) = overflows lib file b := by
  rw [chunkBatches, flushAll_losses, ← List.map_flatten, List.countP_map, overflows]
  refine List.countP_congr fun e _ => ?_
  cases e <;> exact Iff.rfl

/-- The losses of a worker's stream are the overflows of its chunks. -/
theorem runWorker_losses (group : List AuxBlob) :
    (((runWorker lib file group).1.flatten.map Prod.snd).filter isLoss).length =
      ((decodedBy lib file group).map (overflows lib file)).sum := by
  rw [← List.countP_eq_length_filter, List.countP_map, runWorker_batches]
  generalize decodedBy lib file group = bs
  induction bs with
  | nil => rfl
  | cons b bs ih =>
    rw [List.flatMap_cons, List.flatten_append, List.countP_append, ih, List.map_cons,
      List.sum_cons]
    exact congrArg (· + _) (chunkBatches_losses b)

section Run

variable {pd : PerfData} {tailDiv parallelism : Nat} {ns : NativeStreams}

/-- The workers lose nothing exactly when they meet no overflow. -/
theorem workerLosses_eq_nil (items : List AuxBlob) :
    losses ((deal parallelism items).map fun g => (runWorker lib file g).1) = [] ↔
      OverflowFree lib file parallelism items := by
  rw [OverflowFree]
  generalize deal parallelism items = groups
  induction groups with
  | nil => exact ⟨fun _ _ h => absurd h List.not_mem_nil, fun _ => rfl⟩
  | cons g groups ih =>
    rw [List.map_cons, losses_cons, List.append_eq_nil_iff, ih, List.forall_mem_cons,
      ← List.length_eq_zero_iff, runWorker_losses, List.sum_eq_zero_iff_forall_eq_nat,
      List.forall_mem_map]

/-- No loss is dropped: every loss on a stream reaches the sink once, and the
analysis has one gap and counts one record for each. -/
structure LossesKept (ns : NativeStreams) (ir : AnalysisIr) : Prop where
  reached : ∃ recs, handed ns.receivers = .ok recs ∧
    (recs.filter isLoss).Perm (losses ns.receivers)
  shown : Lossy (losses ns.receivers).length ir

/-- A native decode drops no loss exactly when no decode worker meets an
overflow. -/
theorem runNativeStream_lossesKept_iff {r₀ r : Reconstructor} {stats : StreamStats}
    {ir : AnalysisIr} (hbuilt : Built r₀)
    (hns : spawnNativeStreams lib pd file tailDiv parallelism = .ok ns)
    (hrun : runNativeStream lib pd file tailDiv parallelism Reconstructor.push r₀ =
      .ok (stats, r))
    (hfin : r.finish = .ok ir) :
    LossesKept ns ir ↔
      OverflowFree lib file parallelism (planChunks pd file tailDiv parallelism) := by
  obtain ⟨ns', hns', hmerged⟩ := runNativeStream_ok hrun
  obtain rfl := Except.ok.inj (hns.symm.trans hns')
  obtain ⟨out, hout, hhanded, hsink⟩ := handed_merges ns.receivers
  have hpush : r₀.pushAll (delivered out) = .ok r := (hsink _ r₀).symm.trans hmerged
  have hlossy := finish_lossy hbuilt hpush hfin
  have hreceivers := spawnNativeStreams_ok hns
  -- The losses of all streams are those handed out and those of the workers.
  have hsplit : losses ns.receivers = (delivered out).filter isLoss ++
      losses ((deal parallelism (planChunks pd file tailDiv parallelism)).map fun g =>
        (runWorker lib file g).1) := by
    rw [delivered_losses hout, hreceivers, losses_cons]
    rfl
  rw [← workerLosses_eq_nil]
  constructor
  · intro hkept
    obtain ⟨recs, hrecs, hperm⟩ := hkept.reached
    obtain rfl := Except.ok.inj (hhanded.symm.trans hrecs)
    have hlen := hperm.length_eq
    rw [hsplit, List.length_append] at hlen
    exact List.length_eq_zero_iff.mp (by omega)
  · intro hnone
    rw [hnone, List.append_nil] at hsplit
    refine ⟨⟨_, hhanded, List.Perm.of_eq hsplit.symm⟩, ?_⟩
    rw [hsplit, ← List.countP_eq_length_filter]
    exact hlossy

end Run

/-! ## One overflow -/

/-- One blob on one CPU; the kernel reports a loss of its own at 5. -/
def oneCpu : PerfData := ⟨1, [.lost 5 0 3], [⟨0, 0, 1, 0⟩]⟩

/-- A chunk with `n` overflows before its branches. -/
def overflowing (n : Nat) : Libipt where
  fillSectionCache := .ok ()
  decodeBlob := fun _ _ =>
    ⟨[List.replicate n (.overflow (some 10)) ++ [migratingBranch 0 20]], .ok 1⟩

/-- `runNativeStream_lossesKept_iff` on a trace without overflows: the kernel's
loss is shown. -/
theorem runNativeStream_lossesKept_kernelLoss :
    ∃ ns stats r ir, spawnNativeStreams (overflowing 0) oneCpu [0] 0 1 = .ok ns ∧
      runNativeStream (overflowing 0) oneCpu [0] 0 1 Reconstructor.push bare = .ok (stats, r) ∧
      r.finish = .ok ir ∧ LossesKept ns ir := by
  obtain ⟨⟨stats, r⟩, hrun, hp⟩ := ok_of_any
    (x := runNativeStream (overflowing 0) oneCpu [0] 0 1 Reconstructor.push bare)
    (p := fun x => x.2.finish.toOption.isSome) (by decide +kernel)
  obtain ⟨ir, hir⟩ := Option.isSome_iff_exists.mp hp
  obtain ⟨ir, hfin, -⟩ := ok_of_any (x := r.finish) (p := fun _ => true) (by rw [hir]; rfl)
  obtain ⟨ns, hns, -⟩ := runNativeStream_ok hrun
  have hbuilt : Built bare := .new ..
  exact ⟨ns, stats, r, ir, hns, hrun, hfin,
    (runNativeStream_lossesKept_iff hbuilt hns hrun hfin).mpr (by decide)⟩

/-- An overflow on the worker's stream: the streams carry two losses, the
kernel's and the overflow, and one is shown. -/
theorem overflow_dropped :
    ∃ ns stats r ir, spawnNativeStreams (overflowing 1) oneCpu [0] 0 1 = .ok ns ∧
      runNativeStream (overflowing 1) oneCpu [0] 0 1 Reconstructor.push bare = .ok (stats, r) ∧
      r.finish = .ok ir ∧ (losses ns.receivers).length = 2 ∧ ptLosses ir.gaps = 1 ∧
      ¬ LossesKept ns ir := by
  obtain ⟨⟨stats, r⟩, hrun, hp⟩ := ok_of_any
    (x := runNativeStream (overflowing 1) oneCpu [0] 0 1 Reconstructor.push bare)
    (p := fun x => x.2.finish.toOption.any fun ir => ptLosses ir.gaps == 1) (by decide +kernel)
  obtain ⟨ir, hfin, hgaps⟩ := ok_of_any hp
  obtain ⟨ns, hns, hlen⟩ := ok_of_any
    (x := spawnNativeStreams (overflowing 1) oneCpu [0] 0 1)
    (p := fun ns => (losses ns.receivers).length == 2) (by decide +kernel)
  refine ⟨ns, stats, r, ir, hns, hrun, hfin, eq_of_beq hlen, eq_of_beq hgaps, ?_⟩
  intro hkept
  have hshown := hkept.shown.gaps
  rw [eq_of_beq hlen, eq_of_beq hgaps] at hshown
  cases hshown

end TraceMcp.Service
