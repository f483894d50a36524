import TraceMcp.Decode.Finish
import TraceMcp.Decode.Frames
import TraceMcp.Decode.Lineage

/-!
# Code that ran before the exec

A launch under perf records the shim before it becomes the target. The decode
of such a capture filters the stream with a tracker: a fresh one, or, for
native and CPU-wide decodes, one that has already observed the whole sideband
(`decode_job_into`, `src/service.rs`). `preExec_dropped_iff` says which of the
samples taken before the exec, or on a thread created before it, either filter
drops.
-/

namespace TraceMcp.Decode

open TraceMcp.Lib PidTracker

/-- Everything but the samples: what the metadata pass prints. -/
def sideband (stream : List RawRecord) : List RawRecord :=
  stream.filter fun
    | .sample _ => false
    | _ => true

/-- How the decode gets its tracker. -/
inductive DecodePath
  | fresh
  | seeded
  deriving DecidableEq

/-- The records a path's tracker has observed before the stream starts. -/
def DecodePath.seed (stream : List RawRecord) : DecodePath → List RawRecord
  | fresh => []
  | seeded => sideband stream

/-- `tracker_for`: the filter a launch capture is decoded with. -/
def trackerFor (exe : String) (stream : List RawRecord) (path : DecodePath) : PidTracker :=
  (PidTracker.default.expectingExecOf exe).observeAll (path.seed stream)

/-- The first exec of the target by a process, in the stream. -/
def FirstExecAt (stream : List RawRecord) (target : String) (e pid : Nat) : Prop :=
  ExecAt stream target e pid ∧ ∀ j < e, ¬ ExecAt stream target j pid

/-- The sample at `i` belongs to a root and was taken before its exec, or on a
thread created before it. -/
def PreExec (stream : List RawRecord) (target : String) (i : Nat) (s : Sample) : Prop :=
  (∃ k, RootAt stream k s.pid) ∧ ∃ e, FirstExecAt stream target e s.pid ∧
    (i < e ∨ ∃ c < e, c < i ∧ ThreadForkAt stream c (s.pid, s.tid) ∧
      ∀ j, c < j → j < i → ¬ ThreadForkAt stream j (s.pid, s.tid))

/-- The records the filter has observed when the sample at `i` arrives. -/
def DecodePath.seen (path : DecodePath) (stream : List RawRecord) (i : Nat) : List RawRecord :=
  path.seed stream ++ stream.take i

/-- The filter's state at the sample at `i`. -/
theorem trackerFor_observeAll (exe : String) (stream : List RawRecord) (path : DecodePath)
    (i : Nat) :
    (trackerFor exe stream path).observeAll (stream.take i) =
      after exe (path.seen stream i) (path.seen stream i).length := by
  rw [after_length, DecodePath.seen, observeAll_append]
  rfl

namespace Reconstructor

/-- The decode of `stream` gets to the sample `s` at `i` in state `r`. -/
def MeetsSample (r₀ : Reconstructor) (stream : List RawRecord) (i : Nat) (r : Reconstructor)
    (s : Sample) : Prop :=
  r₀.pushAll (stream.take i) = .ok r ∧ stream[i]? = some (.sample s)

/-- A sample is dropped when its process is not marked by what the filter has
observed, or its thread lingers from before the mark. -/
theorem drops_sample_iff {exe : String} {path : DecodePath} {stream : List RawRecord}
    {r₀ r : Reconstructor} {i : Nat} {s : Sample}
    (h : (r₀.withPidFilter (trackerFor exe stream path)).MeetsSample stream i r s) :
    r.drops (.sample s) = true ↔
      ¬ Marked (path.seen stream i) (targetOf exe) (path.seen stream i).length s.pid ∨
        Lingers (path.seen stream i) (targetOf exe) (path.seen stream i).length (s.pid, s.tid) := by
  have hfilter : r.pidFilter = some ((trackerFor exe stream path).observeAll (stream.take i)) :=
    pushAll_pidFilter h.1
  rw [trackerFor_observeAll] at hfilter
  have hdrops : r.drops (.sample s) = true ↔
      ¬ (after exe (path.seen stream i) (path.seen stream i).length).isLiveThread s.pid s.tid =
        true := by
    rw [drops, hfilter]
    simp only [Option.any_some, observe, foreignPid]
    by_cases hlive : (after exe (path.seen stream i)
        (path.seen stream i).length).isLiveThread s.pid s.tid = true
    · simp [hlive]
    · simp [hlive]
  rw [hdrops, isLiveThread_iff]
  by_cases hmark : Marked (path.seen stream i) (targetOf exe) (path.seen stream i).length s.pid
  · simp [hmark]
  · simp [hmark]

end Reconstructor

open Reconstructor

/-- On either path the samples of a root from before its exec, and those of
threads created before it, are kept out of reconstruction exactly if, when
such a sample arrives, no exec has marked its process among the records the
filter has observed, the seeding pass included, or they hold a FORK of its
thread under the unmarked process with no EXIT of the thread since. -/
theorem preExec_dropped_iff (exe : String) (path : DecodePath) (stream : List RawRecord)
    (r₀ : Reconstructor) :
    (∀ i r s, (r₀.withPidFilter (trackerFor exe stream path)).MeetsSample stream i r s →
        PreExec stream (targetOf exe) i s → r.drops (.sample s) = true) ↔
      ∀ i r s, (r₀.withPidFilter (trackerFor exe stream path)).MeetsSample stream i r s →
        PreExec stream (targetOf exe) i s →
          ¬ Marked (path.seen stream i) (targetOf exe) (path.seen stream i).length s.pid ∨
          Lingers (path.seen stream i) (targetOf exe) (path.seen stream i).length (s.pid, s.tid) := by
  constructor
  · intro h i r s hmeets hpre
    exact (drops_sample_iff hmeets).mp (h i r s hmeets hpre)
  · intro h i r s hmeets hpre
    exact (drops_sample_iff hmeets).mpr (h i r s hmeets hpre)

/-- The shim runs under the root's pid until it becomes the target. -/
def shimStream : List RawRecord :=
  [.task ⟨.comm, 10, 10, none, none, none, some "perf-exec"⟩,
   .sample ⟨10, 10, some 0, some 1000, .branches, some 0x1000, some 0x2000, .CALL, none, .empty⟩,
   .task ⟨.exec, 10, 10, none, none, some 2000, some "pt_fixture"⟩]

/-- A tracker that has seen the whole sideband lets the shim's samples in. -/
theorem preExec_seededFilter :
    ¬ ∀ (exe : String) (path : DecodePath) (stream : List RawRecord) (r₀ : Reconstructor) (i : Nat)
      (r : Reconstructor) (s : Sample),
      (r₀.withPidFilter (trackerFor exe stream path)).MeetsSample stream i r s →
        PreExec stream (targetOf exe) i s → r.drops (.sample s) = true := by
  intro h
  let s : Sample :=
    ⟨10, 10, some 0, some 1000, .branches, some 0x1000, some 0x2000, .CALL, none, .empty⟩
  obtain ⟨r, hr, hkept⟩ := ok_of_any
    (x := (bare.withPidFilter (trackerFor "/x/pt_fixture" shimStream .seeded)).pushAll
      (shimStream.take 1))
    (p := fun r => !r.drops (.sample s)) (by decide +kernel)
  have htarget : targetOf "/x/pt_fixture" = "pt_fixture" := by decide +kernel
  have hdrops := h "/x/pt_fixture" .seeded shimStream bare 1 r s ⟨hr, rfl⟩ (by
    rw [htarget]
    refine ⟨⟨0, _, rfl, ⟨.inl rfl, rfl⟩, rfl⟩, 2, ⟨⟨_, rfl, ⟨.inr rfl, rfl⟩, rfl⟩, ?_⟩, .inl (by decide)⟩
    intro j hj ⟨t, ht, hnames, _⟩
    match j, hj, ht with
    | 0, _, ht =>
      cases ht
      exact absurd hnames.2 (by decide)
    | 1, _, ht => cases ht)
  rw [hdrops] at hkept
  exact absurd hkept (by decide)

end TraceMcp.Decode
