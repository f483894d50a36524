import TraceMcp.Lib.Ordered
import TraceMcp.Service.Merge

/-!
# The order of native streams

A worker's stream is its chunks one after another, each clamped on its own.
So it is in time order exactly when every chunk is over before the next ones
dealt to the same worker start. Chunks of one CPU are; chunks of different
CPUs cover the same time, and nothing sorts them before they are dealt.

The merge only looks at stream heads: given ordered streams it hands out the
samples of all of them in order, and the sideband cannot disturb that.
-/

namespace TraceMcp.Service

open TraceMcp.Lib TraceMcp.Decode

/-! ## The clamp -/

theorem clampBatch_last (m : Nat) (xs : Batch) :
    (clampBatch m xs).1 = (xs.filterMap (·.1)).foldl (fun m v => max v m) m := by
  induction xs generalizing m with
  | nil => rfl
  | cons x xs ih =>
    obtain ⟨t, rec⟩ := x
    cases t with
    | none => exact ih m
    | some v => exact ih (max v m)

theorem clampBatch_times (m : Nat) (xs : Batch) :
    (clampBatch m xs).2.filterMap (·.1) = runningMax m (xs.filterMap (·.1)) := by
  induction xs generalizing m with
  | nil => rfl
  | cons x xs ih =>
    obtain ⟨t, rec⟩ := x
    cases t with
    | none => exact ih m
    | some v => exact congrArg (max v m :: ·) (ih (max v m))

/-- A chunk's records go out with the running maxima of its times. -/
theorem flushAll_times (m : Nat) (batches : List Batch) :
    (flushAll m batches).flatten.filterMap (·.1) =
      runningMax m (batches.flatten.filterMap (·.1)) := by
  induction batches generalizing m with
  | nil => rfl
  | cons batch batches ih =>
    cases batch with
    | nil => exact ih m
    | cons x xs =>
      rw [flushAll, List.flatten_cons, List.flatten_cons, List.filterMap_append,
        List.filterMap_append, runningMax_append, ih, clampBatch_times, clampBatch_last]

/-- The tag of a sample is its own time. -/
def Dated (x : Tagged) : Prop := ∀ s, x.2 = .sample s → s.timeNs = x.1

theorem clampBatch_dated {m : Nat} {xs : Batch} (h : ∀ x ∈ xs, Dated x) :
    ∀ x ∈ (clampBatch m xs).2, Dated x := by
  induction xs generalizing m with
  | nil => exact h
  | cons x xs ih =>
    have hxs := fun y hy => h y (List.mem_cons_of_mem x hy)
    obtain ⟨t, rec⟩ := x
    intro y hy
    cases t with
    | none =>
      rcases List.mem_cons.mp hy with rfl | hy
      · exact h _ List.mem_cons_self
      · exact ih hxs y hy
    | some v =>
      rcases List.mem_cons.mp hy with rfl | hy
      · intro s hs
        cases rec with
        | sample s' =>
          cases hs
          rfl
        | mmap | task | switch | lost | decoderError => cases hs
      · exact ih hxs y hy

theorem flushAll_dated {m : Nat} {batches : List Batch}
    (h : ∀ batch ∈ batches, ∀ x ∈ batch, Dated x) :
    ∀ x ∈ (flushAll m batches).flatten, Dated x := by
  induction batches generalizing m with
  | nil => exact fun x hx => absurd hx List.not_mem_nil
  | cons batch batches ih =>
    have hrest := fun b hb => h b (List.mem_cons_of_mem batch hb)
    cases batch with
    | nil => exact ih hrest
    | cons y ys =>
      intro x hx
      rw [flushAll, List.flatten_cons] at hx
      rcases List.mem_append.mp hx with hx | hx
      · exact clampBatch_dated (h _ List.mem_cons_self) x hx
      · exact ih hrest x hx

/-! ## Chunks and workers -/

section Chunks

variable (lib : Libipt) (file : List UInt8)

/-- The times a chunk is decoded with, before the clamp. -/
def chunkTimes (b : AuxBlob) : List Nat :=
  (lib.decodeBlob (blobBytes file b) b.cpu).flushes.flatten.filterMap Emitted.time

/-- The chunks a worker comes to: a failing one is its last. -/
def decoded : List AuxBlob → List AuxBlob
  | [] => []
  | b :: rest =>
    match (lib.decodeBlob (blobBytes file b) b.cpu).outcome with
    | .error _ => [b]
    | .ok _ => b :: decoded rest

/-- The same, with nothing decoded when the section cache cannot be filled. -/
def decodedBy (group : List AuxBlob) : List AuxBlob :=
  match lib.fillSectionCache with
  | .error _ => []
  | .ok _ => decoded lib file group

/-- Chunk `a` is over before chunk `b` starts. -/
def Precedes (a b : AuxBlob) : Prop := EndsBefore (chunkTimes lib file a) (chunkTimes lib file b)

instance (a b : AuxBlob) : Decidable (Precedes lib file a b) :=
  inferInstanceAs (Decidable (EndsBefore _ _))

/-- Chunks of one CPU cover increasing time. -/
def CpuOrdered (items : List AuxBlob) : Prop :=
  items.Pairwise fun a b => a.cpu = b.cpu → Precedes lib file a b

instance (items : List AuxBlob) : Decidable (CpuOrdered lib file items) :=
  inferInstanceAs (Decidable (List.Pairwise _ _))

/-- Of two chunks of different CPUs decoded by one worker, the first is over
before the second starts. -/
def DealtInOrder (parallelism : Nat) (items : List AuxBlob) : Prop :=
  ∀ group ∈ deal parallelism items,
    (decodedBy lib file group).Pairwise fun a b => a.cpu ≠ b.cpu → Precedes lib file a b

instance (parallelism : Nat) (items : List AuxBlob) :
    Decidable (DealtInOrder lib file parallelism items) :=
  inferInstanceAs (Decidable (∀ _ ∈ _, List.Pairwise _ _))

end Chunks

variable {lib : Libipt} {file : List UInt8}

theorem chunkBatches_times (b : AuxBlob) :
    (chunkBatches lib file b).flatten.filterMap (·.1) = runningMax 0 (chunkTimes lib file b) := by
  have hmap : ∀ flushes : List (List Emitted),
      ((flushes.map fun batch => batch.map fun e => (e.time, e.record b.cpu)).flatten.filterMap
        fun x : Tagged => x.1) = flushes.flatten.filterMap Emitted.time := by
    intro flushes
    rw [← List.map_flatten, List.filterMap_map]
    rfl
  rw [chunkBatches, flushAll_times, hmap, chunkTimes]

theorem chunkBatches_dated (b : AuxBlob) :
    ∀ x ∈ (chunkBatches lib file b).flatten, Dated x := by
  refine flushAll_dated ?_
  intro batch hbatch x hx
  obtain ⟨es, -, rfl⟩ := List.mem_map.mp hbatch
  obtain ⟨e, -, rfl⟩ := List.mem_map.mp hx
  intro s hs
  cases e with
  | sample s' =>
    cases hs
    rfl
  | error | overflow => cases hs

/-- A worker sends what its chunks send. -/
theorem runWorker_batches (group : List AuxBlob) :
    (runWorker lib file group).1 = (decodedBy lib file group).flatMap (chunkBatches lib file) := by
  have hgroup : ∀ group, (decodeGroup lib file group).1 =
      (decoded lib file group).flatMap (chunkBatches lib file) := by
    intro group
    induction group with
    | nil => rfl
    | cons b rest ih =>
      rw [decodeGroup, decoded]
      cases (lib.decodeBlob (blobBytes file b) b.cpu).outcome with
      | error e => exact (List.flatMap_singleton ..).symm
      | ok n =>
        show chunkBatches lib file b ++ (decodeGroup lib file rest).1 = _
        rw [ih, List.flatMap_cons]
  unfold runWorker decodedBy
  cases lib.fillSectionCache with
  | error e => rfl
  | ok => exact hgroup group

theorem decodedBy_sublist (lib : Libipt) (file : List UInt8) (group : List AuxBlob) :
    List.Sublist (decodedBy lib file group) group := by
  have hdecoded : ∀ group, List.Sublist (decoded lib file group) group := by
    intro group
    induction group with
    | nil => exact .slnil
    | cons b rest ih =>
      rw [decoded]
      split
      next => exact (List.nil_sublist rest).cons_cons b
      next => exact ih.cons_cons b
  unfold decodedBy
  split
  next => exact List.nil_sublist group
  next => exact hdecoded group

/-- The stream of a worker is in order exactly when its chunks are. -/
theorem runWorker_ordered (group : List AuxBlob) :
    ((runWorker lib file group).1.flatten.filterMap (·.1)).Pairwise (· ≤ ·) ↔
      (decodedBy lib file group).Pairwise (Precedes lib file) := by
  have htimes : ∀ bs : List AuxBlob,
      (bs.flatMap (chunkBatches lib file)).flatten.filterMap (·.1) =
        bs.flatMap fun b => runningMax 0 (chunkTimes lib file b) := by
    intro bs
    induction bs with
    | nil => rfl
    | cons b bs ih =>
      rw [List.flatMap_cons, List.flatMap_cons, List.flatten_append, List.filterMap_append,
        chunkBatches_times, ih]
  rw [runWorker_batches, htimes, List.pairwise_flatMap]
  constructor
  · exact fun h => h.2.imp runningMax_endsBefore.mp
  · exact fun h => ⟨fun b _ => runningMax_sorted .., h.imp runningMax_endsBefore.mpr⟩

/-! ## Dealing -/

/-- Whoever is dealt items gets them in their order. -/
theorem dealFrom_sublist {α : Type} {workers i : Nat} {groups : List (List α)} {items pre : List α}
    (h : ∀ g ∈ groups, List.Sublist g pre) :
    ∀ g ∈ dealFrom workers i groups items, List.Sublist g (pre ++ items) := by
  induction items generalizing i groups pre with
  | nil =>
    rw [List.append_nil]
    exact h
  | cons item items ih =>
    rw [dealFrom, List.append_cons]
    refine ih fun g hg => ?_
    obtain ⟨j, hj⟩ := List.mem_iff_getElem?.mp hg
    rw [List.getElem?_modify] at hj
    obtain ⟨g₀, hg₀, rfl⟩ := Option.map_eq_some_iff.mp hj
    have hsub := h g₀ (List.mem_of_getElem? hg₀)
    split
    next => exact hsub.append (List.Sublist.refl [item])
    next => exact hsub.trans (List.sublist_append_left ..)

theorem deal_sublist {α : Type} {parallelism : Nat} {items : List α} :
    ∀ g ∈ deal parallelism items, List.Sublist g items := by
  intro g hg
  have hmem := List.mem_of_mem_filter hg
  have hnil : ∀ g ∈ List.replicate (workerCount parallelism items.length) ([] : List α),
      List.Sublist g [] := by
    intro g hg
    rw [List.eq_of_mem_replicate hg]
  have hsub : List.Sublist g ([] ++ items) := dealFrom_sublist hnil g hmem
  rwa [List.nil_append] at hsub

/-! ## What the sink sees -/

/-- The times of the samples of task `k`. -/
def threadTimes (k : Key) (recs : List RawRecord) : List Nat :=
  recs.filterMap fun
    | .sample s => if (s.pid, s.tid) = k then s.timeNs else none
    | _ => none

/-- The samples of a thread that reach the sink are among the timed records of
the worker streams. -/
theorem threadTimes_sublist {out : List (Nat × Tagged)} (k : Key)
    (hdated : ∀ x ∈ out, x.1 ≠ 0 → Dated x.2) (hfirst : ∀ x ∈ out, x.1 = 0 → ∀ s, x.2.2 ≠ .sample s) :
    List.Sublist (threadTimes k (delivered out))
      ((out.filter fun x => x.1 != 0).filterMap fun x => x.2.1) := by
  rw [threadTimes, delivered, List.filterMap_map, List.filterMap_filter, List.filterMap_filter]
  refine filterMap_sublist ?_
  rintro ⟨i, t, rec⟩ hx v hv
  rw [Option.ite_none_right_eq_some] at hv ⊢
  have hv := hv.2
  cases rec with
  | sample s =>
    have hi : i ≠ 0 := fun hi => hfirst _ hx hi s rfl
    refine ⟨bne_iff_ne.mpr hi, ?_⟩
    rw [Function.comp_apply, Option.ite_none_right_eq_some] at hv
    rw [← hdated _ hx hi s rfl]
    exact hv.2
  | mmap | task | switch | lost | decoderError => cases hv

/-- The order of native decode is kept: by every worker's stream, and for
every thread by what the merge hands to the sink. -/
structure OrderKept (ns : NativeStreams) : Prop where
  streams : ∀ rx ∈ ns.receivers.tail, (rx.flatten.filterMap (·.1)).Pairwise (· ≤ ·)
  merged : ∃ recs, handed ns.receivers = .ok recs ∧ ∀ k, (threadTimes k recs).Pairwise (· ≤ ·)

/-- Sideband holds no samples. -/
theorem sidebandRecords_sample (pd : PerfData) :
    ∀ x ∈ sidebandRecords pd, ∀ s, x.2 ≠ .sample s := by
  intro x hx s heq
  obtain ⟨e, -, he⟩ := List.mem_filterMap.mp hx
  obtain ⟨rec, hrec, rfl⟩ := Option.map_eq_some_iff.mp he
  obtain rfl : rec = .sample s := heq
  cases e with
  | mmap pid tid time start len pgoff exec path =>
    rw [Sideband.record, Option.ite_none_right_eq_some] at hrec
    cases hrec.2
  | itraceStart => cases hrec
  | comm | fork | exit | switch | lost => cases Option.some.inj hrec

section Spawn

variable {pd : PerfData} {tailDiv parallelism : Nat} {ns : NativeStreams}

theorem spawnNativeStreams_ok (h : spawnNativeStreams lib pd file tailDiv parallelism = .ok ns) :
    ns.receivers = chunksOf 2048 (sidebandRecords pd) ::
      (deal parallelism (planChunks pd file tailDiv parallelism)).map fun g =>
        (runWorker lib file g).1 := by
  unfold spawnNativeStreams at h
  split at h
  next => cases h
  next =>
    cases h
    show _ :: List.map _ (List.map _ _) = _
    rw [List.map_map]
    rfl

/-- Ordered worker streams are handed out in order. -/
theorem spawnNativeStreams_merged
    (h : spawnNativeStreams lib pd file tailDiv parallelism = .ok ns)
    (hstreams : ∀ rx ∈ ns.receivers.tail, (rx.flatten.filterMap (·.1)).Pairwise (· ≤ ·)) :
    ∃ recs, handed ns.receivers = .ok recs ∧ ∀ k, (threadTimes k recs).Pairwise (· ≤ ·) := by
  obtain ⟨out, hout, hhanded, -⟩ := handed_merges ns.receivers
  refine ⟨delivered out, hhanded, fun k => ?_⟩
  have hns := spawnNativeStreams_ok h
  -- A stream other than the first is a worker's, or empty.
  have hworker : ∀ i, i ≠ 0 → streamOf ns.receivers i = [] ∨
      ∃ g, (runWorker lib file g).1 ∈ ns.receivers.tail ∧
        streamOf ns.receivers i = (runWorker lib file g).1.flatten := by
    intro i hi
    obtain ⟨j, rfl⟩ := Nat.exists_eq_succ_of_ne_zero hi
    rw [streamOf, hns, List.getElem?_cons_succ, List.getElem?_map, List.tail_cons]
    cases hg : (deal parallelism (planChunks pd file tailDiv parallelism))[j]? with
    | none => exact Or.inl rfl
    | some g => exact Or.inr ⟨g, List.mem_map_of_mem (List.mem_of_getElem? hg), rfl⟩
  have hsorted := hout.ordered (fun x : Tagged => x.1) (fun i => i != 0) ?_
  · refine hsorted.sublist (threadTimes_sublist k ?_ ?_)
    · intro x hx hi
      have hmem := hout.mem_stream hx
      rcases hworker x.1 hi with hnil | ⟨g, -, hg⟩
      · rw [hnil] at hmem
        cases hmem
      · rw [hg, runWorker_batches, List.mem_flatten] at hmem
        obtain ⟨batch, hbatch, hmem⟩ := hmem
        obtain ⟨b, -, hb⟩ := List.mem_flatMap.mp hbatch
        exact chunkBatches_dated b x.2 (List.mem_flatten.mpr ⟨batch, hb, hmem⟩)
    · intro x hx hi
      have hmem := hout.mem_stream hx
      rw [hi, hns] at hmem
      refine sidebandRecords_sample pd x.2 ?_
      rw [← chunksOf_flatten 2048 (sidebandRecords pd)]
      exact hmem
  · intro i hi
    rcases hworker i (bne_iff_ne.mp hi) with hnil | ⟨g, hmem, hg⟩
    · rw [hnil]
      exact .nil
    · rw [hg]
      exact hstreams _ hmem

/-- Native decode keeps the time order of every worker's stream and of every
thread's samples exactly when no worker is dealt chunks of different CPUs that
overlap in time. -/
theorem spawnNativeStreams_orderKept_iff
    (h : spawnNativeStreams lib pd file tailDiv parallelism = .ok ns)
    (hcpu : CpuOrdered lib file (planChunks pd file tailDiv parallelism)) :
    OrderKept ns ↔ DealtInOrder lib file parallelism (planChunks pd file tailDiv parallelism) := by
  have hns := spawnNativeStreams_ok h
  have hstreams : (∀ rx ∈ ns.receivers.tail, (rx.flatten.filterMap (·.1)).Pairwise (· ≤ ·)) ↔
      DealtInOrder lib file parallelism (planChunks pd file tailDiv parallelism) := by
    rw [hns, List.tail_cons, List.forall_mem_map, DealtInOrder]
    refine forall₂_congr fun g hg => ?_
    rw [runWorker_ordered]
    have hsame := hcpu.sublist ((decodedBy_sublist lib file g).trans
      (deal_sublist g hg))
    constructor
    · intro hord
      refine hord.imp ?_
      intro a b hp _
      exact hp
    · intro hord
      refine (hord.and hsame).imp ?_
      rintro a b ⟨hne, heq⟩
      by_cases hab : a.cpu = b.cpu
      · exact heq hab
      · exact hne hab
  constructor
  · exact fun hkept => hstreams.mp hkept.streams
  · intro hord
    have hrx := hstreams.mpr hord
    exact ⟨hrx, spawnNativeStreams_merged h hrx⟩

end Spawn

/-! ## A migrating thread -/

/-- A branch of task `(7, 1)` while it runs on `cpu`. -/
def migratingBranch (cpu time : Nat) : Emitted :=
  .sample ⟨7, 1, some cpu, some time, .branches, some 16, some 32, .JMP, none, .empty⟩

/-- A thread seen on CPU 1 at 10 and 30, on CPU 0 at 20 and 40. -/
def migratingThread : Libipt where
  fillSectionCache := .ok ()
  decodeBlob := fun _ cpu =>
    ⟨[if cpu = 0 then [migratingBranch 0 20, migratingBranch 0 40]
      else [migratingBranch 1 10, migratingBranch 1 30]], .ok 2⟩

/-- One blob on each of two CPUs. -/
def twoCpus : PerfData := ⟨1, [], [⟨0, 0, 1, 0⟩, ⟨1, 0, 1, 1⟩]⟩

/-- With two workers the thread's samples are merged into their order. -/
theorem spawnNativeStreams_orderKept_twoWorkers :
    ∃ ns, spawnNativeStreams migratingThread twoCpus [0, 0] 0 2 = .ok ns ∧ OrderKept ns := by
  have hok : ∃ ns, spawnNativeStreams migratingThread twoCpus [0, 0] 0 2 = .ok ns := ⟨_, rfl⟩
  obtain ⟨ns, hns⟩ := hok
  exact ⟨ns, hns, (spawnNativeStreams_orderKept_iff hns (by decide)).mpr (by decide)⟩

/-- With one worker CPU 1 comes after CPU 0: its stream goes back in time, and
so do the thread's samples at the sink. -/
theorem migratingThread_outOfOrder :
    ∃ ns, spawnNativeStreams migratingThread twoCpus [0, 0] 0 1 = .ok ns ∧
      CpuOrdered migratingThread [0, 0] (planChunks twoCpus [0, 0] 0 1) ∧
      (∃ rx ∈ ns.receivers.tail, rx.flatten.filterMap (·.1) = [20, 40, 10, 30]) ∧
      (∃ recs, handed ns.receivers = .ok recs ∧ threadTimes (7, 1) recs = [20, 40, 10, 30]) ∧
      ¬ OrderKept ns := by
  obtain ⟨ns, hns, hp⟩ := ok_of_any
    (x := spawnNativeStreams migratingThread twoCpus [0, 0] 0 1)
    (p := fun ns => (ns.receivers.tail.any fun rx =>
        rx.flatten.filterMap (·.1) == [20, 40, 10, 30]) &&
      (handed ns.receivers).toOption.any fun recs => threadTimes (7, 1) recs == [20, 40, 10, 30])
    (by decide +kernel)
  obtain ⟨hrx, hrecs⟩ := Bool.and_eq_true_iff.mp hp
  obtain ⟨rx, hmem, hrx⟩ := List.any_eq_true.mp hrx
  obtain ⟨recs, hhanded, hrecs⟩ := ok_of_any hrecs
  have htimes : rx.flatten.filterMap (·.1) = [20, 40, 10, 30] := eq_of_beq hrx
  refine ⟨ns, hns, by decide, ⟨rx, hmem, htimes⟩, ⟨recs, hhanded, eq_of_beq hrecs⟩, ?_⟩
  intro hkept
  have hord := hkept.streams rx hmem
  rw [htimes] at hord
  exact absurd hord (by decide)

end TraceMcp.Service
