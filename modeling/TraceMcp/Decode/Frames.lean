import TraceMcp.Decode.Reconstruct
import TraceMcp.Lib.Runs

/-!
# What a sample only reads

Pushing a sample writes rows, counters, the symbol tables and the state of its
own thread. Everything else a reconstructor holds (its images and mappings,
where the rings start, the process filter, the thread identities, the names of
tasks) is read and left alone. `surroundings` collects that part, and
`pushSample_surroundings` is the frame.
-/

namespace TraceMcp.Decode

open TraceMcp.Lib

/-- The part of a reconstructor that samples only read. -/
structure Surroundings where
  analysisId : String
  images : List ArchivedImage
  index : List ImageIndex
  mappings : List MappingRecord
  mappingAbs : List (Option Nat)
  mapsByPid : FastMap Nat (List Nat)
  threadIds : ThreadIds
  decoderErrors : Nat
  lostRecords : Nat
  budgetBytes : Nat
  cpuFirstAbs : FastMap Nat Nat
  trigger : Option (Nat × Nat)
  extraNotes : List String
  pidFilter : Option PidTracker
  foreignSamples : Nat
  foreignPids : Finset Nat
  comms : FastMap Key String

namespace Reconstructor

def surroundings (r : Reconstructor) : Surroundings where
  analysisId := r.analysisId
  images := r.images
  index := r.index
  mappings := r.mappings
  mappingAbs := r.mappingAbs
  mapsByPid := r.mapsByPid
  threadIds := r.threadIds
  decoderErrors := r.decoderErrors
  lostRecords := r.lostRecords
  budgetBytes := r.budgetBytes
  cpuFirstAbs := r.cpuFirstAbs
  trigger := r.trigger
  extraNotes := r.extraNotes
  pidFilter := r.pidFilter
  foreignSamples := r.foreignSamples
  foreignPids := r.foreignPids
  comms := r.comms

variable {r r' : Reconstructor} {k : Key} {abs : Option Nat} {eid : LocalId}

/-! ## The small writes -/

@[simp] theorem noteAbs_surroundings (t : Option Nat) :
    (r.noteAbs t).surroundings = r.surroundings := by
  unfold noteAbs
  split
  · split <;> rfl
  · rfl

@[simp] theorem thread_surroundings : (r.thread k).surroundings = r.surroundings := by
  unfold thread
  split <;> rfl

@[simp] theorem modThread_surroundings (f : ThreadState → ThreadState) :
    (r.modThread k f).surroundings = r.surroundings := by
  unfold modThread
  split <;> rfl

@[simp] theorem emitSpan_surroundings (s : FunctionSpan) :
    (r.emitSpan s).surroundings = r.surroundings := by
  unfold emitSpan
  split <;> rfl

@[simp] theorem emitStack_surroundings (t : ThreadId) (endAbs : Option Nat)
    (c : SpanCompleteness → SpanCompleteness) (stack : List OpenSpan) :
    (r.emitStack t endAbs c stack).surroundings = r.surroundings := by
  unfold emitStack
  induction stack generalizing r with
  | nil => rfl
  | cons o rest ih => rw [List.foldl_cons, ih, emitSpan_surroundings]

@[simp] theorem pushGap_surroundings (t : ThreadId) (kind : GapKind) (a b : Option Nat) (x : Bool)
    (reason : String) : (r.pushGap t kind a b x reason).surroundings = r.surroundings :=
  rfl

@[simp] theorem recordGap_surroundings (kind : GapKind) (a b : Option Nat) (x : Bool)
    (reason : String) : (r.recordGap k kind a b x reason).surroundings = r.surroundings := by
  simp [recordGap]

@[simp] theorem pushOpen_surroundings (f : Option LocalId) (c : SpanCompleteness) :
    (r.pushOpen k f abs eid c).surroundings = r.surroundings := by
  rw [pushOpen, modThread_surroundings]
  rfl

@[simp] theorem pushOpenIn_surroundings (f : Option LocalId) :
    (r.pushOpenIn k f abs eid).surroundings = r.surroundings := by
  unfold pushOpenIn
  split
  · exact pushOpen_surroundings ..
  · rfl

@[simp] theorem closeSpan_surroundings (o : OpenSpan) (c : SpanCompleteness) :
    (r.closeSpan k o abs eid c).surroundings = r.surroundings := by
  simp [closeSpan]

@[simp] theorem interruptThread_surroundings :
    (r.interruptThread k).surroundings = r.surroundings := by
  unfold interruptThread
  split
  · rfl
  · simp

/-! ## Resolving addresses -/

@[simp] theorem internFunction_surroundings (key : Nat) (image : String) (fr : FuncRange) :
    (r.internFunction key image fr).1.surroundings = r.surroundings := by
  unfold internFunction
  split <;> rfl

@[simp] theorem internLocation_surroundings (key : Nat) (image : String) (rel ip : Nat)
    (func : Option LocalId) :
    (r.internLocation key image rel ip func).1.surroundings = r.surroundings := by
  unfold internLocation
  split <;> rfl

@[simp] theorem noteMissingImage_surroundings (path : String) :
    (r.noteMissingImage path).surroundings = r.surroundings := by
  unfold noteMissingImage
  split <;> rfl

@[simp] theorem resolveUncached_surroundings (pid ip : Nat) :
    (r.resolveUncached pid ip).1.surroundings = r.surroundings := by
  unfold resolveUncached
  split
  · rfl
  · split
    · rfl
    · split
      · dsimp only
        split <;> simp
      · simp

@[simp] theorem resolve_surroundings (pid : Nat) (ip : Option Nat) :
    (r.resolve pid ip).1.surroundings = r.surroundings := by
  unfold resolve
  split
  · rfl
  · split
    · rfl
    · exact resolveUncached_surroundings ..

/-! ## The parts of a sample -/

@[simp] theorem attributeBlock_surroundings (pid start stop : Nat) (t0 t1 : Option Nat) :
    (r.attributeBlock k pid start stop t0 t1).surroundings = r.surroundings := by
  unfold attributeBlock
  split
  · rfl
  · split
    · rfl
    · dsimp only
      split <;> rfl

@[simp] theorem attributeSample_surroundings (s : Sample) (b : BoundaryFlags) :
    (r.attributeSample k s b).surroundings = r.surroundings := by
  unfold attributeSample
  split
  · rfl
  · dsimp only
    rw [modThread_surroundings]
    split
    · split <;> simp
    · rfl

@[simp] theorem beginSample_surroundings (s : Sample) :
    (r.beginSample s).surroundings = r.surroundings := by
  unfold beginSample
  dsimp only
  rw [modThread_surroundings, thread_surroundings]
  split
  · exact noteAbs_surroundings ..
  · exact noteAbs_surroundings ..

@[simp] theorem checkRegression_surroundings (prev now : Option Nat) :
    (r.checkRegression k prev now).surroundings = r.surroundings := by
  unfold checkRegression
  split <;> simp

@[simp] theorem noteTime_surroundings (prev now : Option Nat) :
    (r.noteTime k prev now).surroundings = r.surroundings := by
  unfold noteTime
  split
  · rfl
  · dsimp only
    rw [modThread_surroundings]
    split
    · split <;> rfl
    · rfl

@[simp] theorem noteTrigger_surroundings (s : Sample) (b : BoundaryFlags) :
    (r.noteTrigger s b).surroundings = r.surroundings := by
  unfold noteTrigger
  split
  · split <;> rfl
  · rfl

theorem emitEvent_surroundings {ev : FlowEvent} (h : r.emitEvent ev = .ok r') :
    r'.surroundings = r.surroundings := by
  unfold emitEvent at h
  split at h
  · dsimp only at h
    split at h
    · obtain ⟨_, _, rfl⟩ := map_ok.mp h
      rfl
    · cases h
      rfl
  · cases h
    rfl

theorem retainEvent_surroundings {s : Sample} {kind : FlowKind} {b : BoundaryFlags}
    {src dst : Resolved} (h : r.retainEvent k s kind b src dst eid = .ok r') :
    r'.surroundings = r.surroundings := by
  unfold retainEvent at h
  split at h
  · cases h
    rfl
  · obtain ⟨r₁, h₁, h⟩ := bind_ok.mp h
    cases h
    rw [modThread_surroundings]
    exact emitEvent_surroundings h₁

theorem checkBudget_surroundings (h : r.checkBudget = .ok r') :
    r'.surroundings = r.surroundings := by
  unfold checkBudget at h
  split at h
  · cases h
  · cases h
    rfl

/-! ## The transfers -/

@[simp] theorem crossRingHole_surroundings (p : PendingEnd) (cpu cpuFirst : Option Nat) :
    (r.crossRingHole k p abs cpu cpuFirst).surroundings = r.surroundings := by
  unfold crossRingHole
  dsimp only
  rw [modThread_surroundings, recordGap_surroundings, interruptThread_surroundings]
  rfl

@[simp] theorem resumeHere_surroundings (p : PendingEnd) (dst : Resolved) :
    (r.resumeHere k p dst abs eid).surroundings = r.surroundings := by
  unfold resumeHere
  dsimp only
  split <;> simp

@[simp] theorem loseContinuity_surroundings (p : PendingEnd) (what : String) :
    (r.loseContinuity k p abs what).surroundings = r.surroundings := by
  simp [loseContinuity]

@[simp] theorem settlePending_surroundings (b : BoundaryFlags) (src dst : Resolved)
    (cpu : Option Nat) :
    (r.settlePending k b src dst abs cpu eid).1.surroundings = r.surroundings := by
  unfold settlePending
  split
  · rfl
  · dsimp only
    split
    · split <;> simp
    · split
      · split <;> simp
      · simp

@[simp] theorem applyBoundary_surroundings (b : BoundaryFlags) (src dst : Resolved)
    (cpu : Option Nat) :
    (r.applyBoundary k b src dst abs cpu eid).surroundings = r.surroundings := by
  unfold applyBoundary
  split
  · simp
  · split
    · simp
    · split
      · split <;> simp
      · rfl

@[simp] theorem noteUnwind_surroundings (src dst : Resolved) :
    (r.noteUnwind k src dst).surroundings = r.surroundings := by
  unfold noteUnwind
  split
  · split <;> rfl
  · rfl

@[simp] theorem orphanReturn_surroundings (src dst : Resolved) :
    (r.orphanReturn k src dst abs eid).surroundings = r.surroundings := by
  unfold orphanReturn
  dsimp only
  rw [pushOpenIn_surroundings, emitSpan_surroundings, modThread_surroundings]
  rfl

@[simp] theorem applyReturn_surroundings (src dst : Resolved) :
    (r.applyReturn k src dst abs eid).surroundings = r.surroundings := by
  unfold applyReturn
  split <;> simp

@[simp] theorem tailCall_surroundings (target : LocalId) :
    (r.tailCall k target abs eid).surroundings = r.surroundings := by
  unfold tailCall
  dsimp only
  rw [modThread_surroundings, pushOpen_surroundings]
  split <;> simp

@[simp] theorem applyJump_surroundings (src dst : Resolved) :
    (r.applyJump k src dst abs eid).surroundings = r.surroundings := by
  unfold applyJump
  split
  · split <;> simp
  · split <;> simp
  · rfl

@[simp] theorem applyFlow_surroundings (kind : FlowKind) (b : BoundaryFlags)
    (src dst : Resolved) (cpu : Option Nat) :
    (r.applyFlow k kind b src dst abs cpu eid).surroundings = r.surroundings := by
  unfold applyFlow
  dsimp only
  split
  · simp
  · split
    · simp
    · split <;> simp

/-- A sample leaves its surroundings alone. -/
theorem pushSample_surroundings {s : Sample} (h : r.pushSample s = .ok r') :
    r'.surroundings = r.surroundings := by
  unfold pushSample at h
  dsimp only at h
  obtain ⟨r₁, h₁, h⟩ := bind_ok.mp h
  rw [checkBudget_surroundings h]
  refine (applyFlow_surroundings ..).trans ?_
  refine (retainEvent_surroundings h₁).trans ?_
  refine (attributeSample_surroundings ..).trans ?_
  simp

/-! ## The filter -/

theorem retireThread_pidFilter : (r.retireThread k abs).pidFilter = r.pidFilter := by
  unfold retireThread
  split
  · rfl
  · exact congrArg Surroundings.pidFilter (emitStack_surroundings ..)

theorem noteComm_pidFilter (comm : Option String) :
    (r.noteComm k comm).pidFilter = r.pidFilter := by
  unfold noteComm
  split
  · split
    · exact congrArg Surroundings.pidFilter (modThread_surroundings _)
    · rfl
  · rfl

theorem pushTask_pidFilter (t : TaskEvent) : (r.pushTask t).pidFilter = r.pidFilter := by
  have habs : (r.noteAbs t.timeNs).pidFilter = r.pidFilter :=
    congrArg Surroundings.pidFilter (noteAbs_surroundings _)
  unfold pushTask
  dsimp only
  rw [noteComm_pidFilter, noteExit]
  split
  · rw [retireThread_pidFilter]
    exact habs
  · exact habs

theorem pushDecoderError_pidFilter (e : DecoderErrorEvent) :
    (r.pushDecoderError e).pidFilter = r.pidFilter := by
  have habs : (noteAbs { r with decoderErrors := r.decoderErrors + 1 } e.timeNs).pidFilter =
      r.pidFilter := congrArg Surroundings.pidFilter (noteAbs_surroundings _)
  unfold pushDecoderError
  dsimp only
  generalize noteAbs { r with decoderErrors := r.decoderErrors + 1 } e.timeNs = r₁ at habs
  refine Eq.trans ?_ habs
  split
  next pid tid _ _ =>
    have hframe : ((r₁.thread (pid, tid)).interruptThread (pid, tid)).surroundings =
        r₁.surroundings := by simp
    exact congrArg Surroundings.pidFilter ((recordGap_surroundings ..).trans hframe)
  next => rfl

theorem accept_pidFilter {rec : RawRecord} (h : r.accept rec = .ok r') :
    r'.pidFilter = r.pidFilter := by
  cases rec with
  | sample s => exact congrArg Surroundings.pidFilter (pushSample_surroundings h)
  | mmap m =>
    obtain rfl := Except.ok.inj h
    exact congrArg Surroundings.pidFilter (noteAbs_surroundings m.timeNs)
  | task t =>
    obtain rfl := Except.ok.inj h
    exact pushTask_pidFilter t
  | switch pid tid time out =>
    obtain rfl := Except.ok.inj h
    exact congrArg Surroundings.pidFilter (noteAbs_surroundings time)
  | lost e =>
    obtain rfl := Except.ok.inj h
    rfl
  | decoderError e =>
    obtain rfl := Except.ok.inj h
    exact pushDecoderError_pidFilter e

theorem noteCpuFirst_pidFilter (rec : RawRecord) :
    (r.noteCpuFirst rec).pidFilter = r.pidFilter := by
  unfold noteCpuFirst
  split
  next s =>
    split
    next =>
      split <;> rfl
    next => rfl
  next => rfl

/-- The filter sees every record, and only `push` moves it. -/
theorem push_pidFilter {rec : RawRecord} (h : r.push rec = .ok r') :
    r'.pidFilter = r.pidFilter.map (·.observe rec) := by
  unfold push at h
  have hcpu := noteCpuFirst_pidFilter (r := r) rec
  generalize r.noteCpuFirst rec = r₁ at h hcpu
  dsimp only at h
  rw [← hcpu]
  cases hf : r₁.pidFilter with
  | none =>
    rw [hf] at h
    rw [accept_pidFilter h, hf]
    rfl
  | some f =>
    rw [hf] at h
    dsimp only at h
    split at h
    · exact accept_pidFilter h
    · split at h
      · cases h
        rfl
      · cases h
        rfl

theorem pushAll_pidFilter {recs : List RawRecord} (h : r.pushAll recs = .ok r') :
    r'.pidFilter = r.pidFilter.map fun f => recs.foldl PidTracker.observe f := by
  induction recs generalizing r with
  | nil =>
    cases h
    simp
  | cons rec recs ih =>
    obtain ⟨r₁, h₁, h⟩ := bind_ok.mp h
    rw [ih h, push_pidFilter h₁, Option.map_map]
    rfl

end Reconstructor

end TraceMcp.Decode
