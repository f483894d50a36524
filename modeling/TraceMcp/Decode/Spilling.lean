import TraceMcp.Decode.Frames
import TraceMcp.Decode.Finish

/-!
# Spilling does not change the analysis

With a spill directory, `emit_event` and `emit_span` write rows to disk instead
of keeping them, and `finish` rebases the files in a second pass. `resident`
maps a spilling reconstructor to the one that kept the same rows in memory.
Every operation commutes with it, because rows are only ever appended: nothing
but the budget checks and `finish` looks at them.

The one exception is the budgets, which watch different counters. `Unlimited`
says that neither can be exceeded.
-/

namespace TraceMcp.Decode

open TraceMcp.Lib

namespace Reconstructor

/-- The reconstructor that kept its rows in memory: spilled rows follow the
resident ones, and the budget that watches the rows is the spill's. -/
def resident (r : Reconstructor) : Reconstructor :=
  { r with
    events := r.events ++ r.spill.elim [] Spill.events
    spans := r.spans ++ r.spill.elim [] Spill.spans
    budgetBytes := r.spill.elim r.budgetBytes Spill.budget
    spill := none }

variable {r r' : Reconstructor} {k : Key} {abs : Option Nat} {eid : LocalId}

/-! ## What the operations read is unchanged -/

@[simp] theorem resident_threads : r.resident.threads = r.threads := rfl
@[simp] theorem resident_stateOf : r.resident.stateOf k = r.stateOf k := rfl
@[simp] theorem resident_threadOrder : r.resident.threadOrder = r.threadOrder := rfl
@[simp] theorem resident_findMapping (pid lo hi : Nat) :
    r.resident.findMapping pid lo hi = r.findMapping pid lo hi := rfl
@[simp] theorem resident_mappings : r.resident.mappings = r.mappings := rfl
@[simp] theorem resident_imageAt (path : String) : r.resident.imageAt path = r.imageAt path := rfl
@[simp] theorem resident_index : r.resident.index = r.index := rfl
@[simp] theorem resident_images : r.resident.images = r.images := rfl
@[simp] theorem resident_funcIndex : r.resident.funcIndex = r.funcIndex := rfl
@[simp] theorem resident_locIndex : r.resident.locIndex = r.locIndex := rfl
@[simp] theorem resident_ipCache : r.resident.ipCache = r.ipCache := rfl
@[simp] theorem resident_inline : r.resident.inline = r.inline := rfl
@[simp] theorem resident_describeBlock (inl : InlineState) (pid start stop : Nat) :
    r.resident.describeBlock inl pid start stop = r.describeBlock inl pid start stop := rfl
@[simp] theorem resident_cpuFirstAbs : r.resident.cpuFirstAbs = r.cpuFirstAbs := rfl
@[simp] theorem resident_trigger : r.resident.trigger = r.trigger := rfl
@[simp] theorem resident_samples : r.resident.samples = r.samples := rfl
@[simp] theorem resident_pidFilter : r.resident.pidFilter = r.pidFilter := rfl

/-! ## Rows and threads -/

theorem emitSpan_resident (s : FunctionSpan) : (r.emitSpan s).resident = r.resident.emitSpan s := by
  unfold emitSpan
  cases h : r.spill with
  | none => simp [resident, h]
  | some sp => simp [resident, h]

theorem emitStack_resident (t : ThreadId) (endAbs : Option Nat)
    (c : SpanCompleteness → SpanCompleteness) (stack : List OpenSpan) :
    (r.emitStack t endAbs c stack).resident = r.resident.emitStack t endAbs c stack := by
  unfold emitStack
  induction stack generalizing r with
  | nil => rfl
  | cons o rest ih => rw [List.foldl_cons, List.foldl_cons, ih, emitSpan_resident]

theorem noteAbs_resident (t : Option Nat) : (r.noteAbs t).resident = r.resident.noteAbs t := by
  unfold noteAbs
  split
  · split <;> rfl
  · rfl

theorem thread_resident : (r.thread k).resident = r.resident.thread k := by
  unfold thread
  rw [resident_threads]
  split <;> rfl

theorem modThread_resident (f : ThreadState → ThreadState) :
    (r.modThread k f).resident = r.resident.modThread k f := by
  unfold modThread
  rw [resident_threads]
  split <;> rfl

theorem recordGap_resident (kind : GapKind) (a b : Option Nat) (x : Bool) (reason : String) :
    (r.recordGap k kind a b x reason).resident = r.resident.recordGap k kind a b x reason :=
  modThread_resident _

theorem pushOpen_resident (f : Option LocalId) (c : SpanCompleteness) :
    (r.pushOpen k f abs eid c).resident = r.resident.pushOpen k f abs eid c :=
  modThread_resident _

theorem pushOpenIn_resident (f : Option LocalId) :
    (r.pushOpenIn k f abs eid).resident = r.resident.pushOpenIn k f abs eid := by
  unfold pushOpenIn
  split
  · exact pushOpen_resident ..
  · rfl

theorem closeSpan_resident (o : OpenSpan) (c : SpanCompleteness) :
    (r.closeSpan k o abs eid c).resident = r.resident.closeSpan k o abs eid c := by
  unfold closeSpan
  rw [emitSpan_resident, modThread_resident, resident_stateOf]

theorem interruptThread_resident :
    (r.interruptThread k).resident = r.resident.interruptThread k := by
  unfold interruptThread
  rw [resident_threads]
  split
  · rfl
  · rw [emitStack_resident, modThread_resident]

theorem retireThread_resident :
    (r.retireThread k abs).resident = r.resident.retireThread k abs := by
  unfold retireThread
  rw [resident_threads]
  split
  next => rfl
  next st _ =>
    have hrows := emitStack_resident (r := { r with
      threads := r.threads.erase k
      threadOrder := r.threadOrder.filter (· ≠ k) }) st.id abs openCompleteness st.stack
    exact congrArg (fun r : Reconstructor =>
      { r with
        threadIds := (r.threadIds.takeExited k).1
        retired := r.retired ++ [{ st with
          stack := []
          spans := st.spans + st.stack.length
          pendingEnd := none }] }) hrows

/-! ## Addresses and inline attribution -/

theorem internFunction_resident (key : Nat) (image : String) (fr : FuncRange) :
    r.resident.internFunction key image fr =
      ((r.internFunction key image fr).1.resident, (r.internFunction key image fr).2) := by
  unfold internFunction
  rw [resident_funcIndex]
  split <;> rfl

theorem internLocation_resident (key : Nat) (image : String) (rel ip : Nat)
    (func : Option LocalId) :
    r.resident.internLocation key image rel ip func =
      ((r.internLocation key image rel ip func).1.resident,
        (r.internLocation key image rel ip func).2) := by
  unfold internLocation
  rw [resident_locIndex]
  split <;> rfl

theorem noteMissingImage_resident (path : String) :
    (r.noteMissingImage path).resident = r.resident.noteMissingImage path := by
  unfold noteMissingImage
  split <;> rfl

theorem resolveUncached_resident (pid ip : Nat) :
    r.resident.resolveUncached pid ip =
      ((r.resolveUncached pid ip).1.resident, (r.resolveUncached pid ip).2) := by
  unfold resolveUncached
  rw [resident_findMapping, resident_mappings]
  split
  · rfl
  · split
    · rfl
    · rw [resident_imageAt]
      split
      · dsimp only [resident_index, resident_images]
        split
        · simp only [internFunction_resident, internLocation_resident]
        · simp only [internLocation_resident]
      · dsimp only
        simp only [← noteMissingImage_resident, internLocation_resident]

theorem resolve_resident (pid : Nat) (ip : Option Nat) :
    r.resident.resolve pid ip = ((r.resolve pid ip).1.resident, (r.resolve pid ip).2) := by
  unfold resolve
  rw [resident_ipCache]
  split
  · rfl
  · split
    · rfl
    · rw [resolveUncached_resident]
      rfl

theorem attributeBlock_resident (pid start stop : Nat) (t0 t1 : Option Nat) :
    (r.attributeBlock k pid start stop t0 t1).resident =
      r.resident.attributeBlock k pid start stop t0 t1 := by
  unfold attributeBlock
  rw [resident_inline]
  split
  · rfl
  · split
    · rfl
    · dsimp only [resident_describeBlock]
      split <;> rfl

theorem attributeSample_resident (s : Sample) (b : BoundaryFlags) :
    (r.attributeSample k s b).resident = r.resident.attributeSample k s b := by
  unfold attributeSample
  rw [resident_inline, resident_stateOf]
  split
  · rfl
  · dsimp only
    rw [modThread_resident]
    split
    · split
      · rfl
      · rw [attributeBlock_resident]
    · rfl

/-! ## The parts of a sample -/

theorem beginSample_resident (s : Sample) :
    (r.beginSample s).resident = r.resident.beginSample s := by
  unfold beginSample
  dsimp only
  rw [modThread_resident, thread_resident]
  -- counting an unknown time touches neither the rows nor the budget
  have habs : (noteAbs { r with samples := r.samples + 1 } s.timeNs).resident =
      noteAbs { r.resident with samples := r.samples + 1 } s.timeNs := noteAbs_resident _
  split
  · rw [resident_samples, ← habs]
    rfl
  · rw [resident_samples, ← habs]

theorem checkRegression_resident (prev now : Option Nat) :
    (r.checkRegression k prev now).resident = r.resident.checkRegression k prev now := by
  unfold checkRegression
  split
  · rw [recordGap_resident, interruptThread_resident]
  · rfl

theorem noteTime_resident (prev now : Option Nat) :
    (r.noteTime k prev now).resident = r.resident.noteTime k prev now := by
  unfold noteTime
  split
  · rfl
  · dsimp only
    rw [modThread_resident]
    split
    · split <;> rfl
    · rfl

theorem noteTrigger_resident (s : Sample) (b : BoundaryFlags) :
    (r.noteTrigger s b).resident = r.resident.noteTrigger s b := by
  unfold noteTrigger
  rw [resident_trigger]
  split
  · split <;> rfl
  · rfl

/-! ## The transfers -/

theorem crossRingHole_resident (p : PendingEnd) (cpu cpuFirst : Option Nat) :
    (r.crossRingHole k p abs cpu cpuFirst).resident =
      r.resident.crossRingHole k p abs cpu cpuFirst := by
  unfold crossRingHole
  dsimp only
  rw [modThread_resident, recordGap_resident, interruptThread_resident]
  rfl

theorem resumeHere_resident (p : PendingEnd) (dst : Resolved) :
    (r.resumeHere k p dst abs eid).resident = r.resident.resumeHere k p dst abs eid := by
  unfold resumeHere
  dsimp only
  rw [← recordGap_resident, resident_stateOf]
  split
  · exact pushOpenIn_resident _
  · rfl

theorem loseContinuity_resident (p : PendingEnd) (what : String) :
    (r.loseContinuity k p abs what).resident = r.resident.loseContinuity k p abs what := by
  unfold loseContinuity
  rw [recordGap_resident, interruptThread_resident]

theorem settlePending_resident (b : BoundaryFlags) (src dst : Resolved) (cpu : Option Nat) :
    r.resident.settlePending k b src dst abs cpu eid =
      ((r.settlePending k b src dst abs cpu eid).1.resident,
        (r.settlePending k b src dst abs cpu eid).2) := by
  unfold settlePending
  rw [resident_stateOf]
  split
  · rfl
  · dsimp only
    rw [← modThread_resident, resident_cpuFirstAbs]
    split
    · rw [← crossRingHole_resident]
      split
      · rw [pushOpenIn_resident]
      · rfl
    · split
      · split
        · rw [resumeHere_resident]
        · rw [pushOpenIn_resident, loseContinuity_resident]
      · rw [loseContinuity_resident]

theorem applyBoundary_resident (b : BoundaryFlags) (src dst : Resolved) (cpu : Option Nat) :
    (r.applyBoundary k b src dst abs cpu eid).resident =
      r.resident.applyBoundary k b src dst abs cpu eid := by
  unfold applyBoundary
  split
  · exact modThread_resident _
  · split
    · rw [recordGap_resident, interruptThread_resident]
    · split
      · rw [resident_stateOf]
        split
        · exact pushOpenIn_resident _
        · rfl
      · rfl

theorem noteUnwind_resident (src dst : Resolved) :
    (r.noteUnwind k src dst).resident = r.resident.noteUnwind k src dst := by
  unfold noteUnwind
  rw [resident_stateOf]
  split
  · split <;> rfl
  · rfl

theorem orphanReturn_resident (src dst : Resolved) :
    (r.orphanReturn k src dst abs eid).resident = r.resident.orphanReturn k src dst abs eid := by
  unfold orphanReturn
  dsimp only
  rw [pushOpenIn_resident, emitSpan_resident, modThread_resident, ← resident_stateOf,
    modThread_resident]
  rfl

theorem applyReturn_resident (src dst : Resolved) :
    (r.applyReturn k src dst abs eid).resident = r.resident.applyReturn k src dst abs eid := by
  unfold applyReturn
  rw [resident_stateOf]
  split
  · exact orphanReturn_resident ..
  · dsimp only
    rw [noteUnwind_resident, closeSpan_resident, modThread_resident]

theorem tailCall_resident (target : LocalId) :
    (r.tailCall k target abs eid).resident = r.resident.tailCall k target abs eid := by
  unfold tailCall
  dsimp only
  rw [modThread_resident, pushOpen_resident, resident_stateOf]
  split
  · rw [closeSpan_resident, modThread_resident]
  · rw [modThread_resident]

theorem applyJump_resident (src dst : Resolved) :
    (r.applyJump k src dst abs eid).resident = r.resident.applyJump k src dst abs eid := by
  unfold applyJump
  split
  · split
    · exact tailCall_resident _
    · rfl
  · rw [resident_stateOf]
    split
    · exact modThread_resident _
    · rfl
  · rfl

theorem applyFlow_resident (r : Reconstructor) (k : Key) (abs : Option Nat) (eid : LocalId)
    (kind : FlowKind) (b : BoundaryFlags) (src dst : Resolved) (cpu : Option Nat) :
    (r.applyFlow k kind b src dst abs cpu eid).resident =
      r.resident.applyFlow k kind b src dst abs cpu eid := by
  unfold applyFlow
  rw [settlePending_resident]
  dsimp only
  split
  · rfl
  · split
    · exact applyBoundary_resident ..
    · split
      · exact pushOpen_resident ..
      · exact applyReturn_resident ..
      · exact applyJump_resident ..
      · exact applyJump_resident ..
      all_goals rfl

/-! ## Unlimited budgets -/

/-- Neither the resident budget nor the spill's can be exceeded. -/
structure Unlimited (r : Reconstructor) : Prop where
  kept : r.budgetBytes = wordSize - 1
  written : r.resident.budgetBytes = wordSize - 1

/-- What keeps the budget of every reconstructor keeps both budgets. -/
theorem Unlimited.of_kept (h : Unlimited r) (hb : r'.budgetBytes = r.budgetBytes)
    (hr : r'.resident.budgetBytes = r.resident.budgetBytes) : Unlimited r' :=
  ⟨hb.trans h.kept, hr.trans h.written⟩

/-- A sample's operations read the surroundings only. -/
theorem Unlimited.of_surroundings (h : Unlimited r) (hb : r'.surroundings = r.surroundings)
    (hr : r'.resident.surroundings = r.resident.surroundings) : Unlimited r' :=
  h.of_kept (congrArg Surroundings.budgetBytes hb) (congrArg Surroundings.budgetBytes hr)

theorem spillCheck_unlimited {sp : Spill} (h : sp.budget = wordSize - 1) :
    spillCheck sp = .ok () := by
  have hbytes : sp.bytes.toNat < wordSize := sp.bytes.toNat_lt
  exact if_neg (by omega)

theorem checkBudget_unlimited (h : r.budgetBytes = wordSize - 1) : r.checkBudget = .ok r := by
  have hretained : r.retainedBytes < wordSize := Nat.mod_lt _ (by decide)
  exact if_neg (by omega)

/-- An event is written on both sides: with no limit, checking after every
65536th row never fails. -/
theorem emitEvent_resident (h : Unlimited r) (ev : FlowEvent) :
    ∃ r', r.emitEvent ev = .ok r' ∧ r.resident.emitEvent ev = .ok r'.resident := by
  cases hsp : r.spill with
  | none =>
    refine ⟨{ r with eventsN := r.eventsN + 1, events := r.events ++ [ev] }, ?_, ?_⟩
    · rw [emitEvent, hsp]
    · simp [emitEvent, resident, hsp]
  | some sp =>
    have hbudget : sp.budget = wordSize - 1 := by
      simpa [resident, hsp] using h.written
    refine ⟨{ r with
      eventsN := r.eventsN + 1
      spill := some { sp with
        bytes := sp.bytes + UInt64.ofNat (sp.eventLen ev)
        events := sp.events ++ [ev]
        eventsN := sp.eventsN + 1 } }, ?_, ?_⟩
    · unfold emitEvent
      rw [hsp]
      dsimp only
      split
      · exact map_ok.mpr ⟨(), spillCheck_unlimited hbudget, rfl⟩
      · rfl
    · simp [emitEvent, resident, hsp]

theorem retainEvent_resident (k : Key) (eid : LocalId) (h : Unlimited r) (s : Sample)
    (kind : FlowKind) (b : BoundaryFlags) (src dst : Resolved) :
    ∃ r', r.retainEvent k s kind b src dst eid = .ok r' ∧
      r.resident.retainEvent k s kind b src dst eid = .ok r'.resident := by
  unfold retainEvent
  split
  · exact ⟨r, rfl, rfl⟩
  · obtain ⟨r', hr, hres⟩ := emitEvent_resident h
      { id := eid
        thread := (r.stateOf k).id
        sequence := (r.stateOf k).lastSeq
        time := absTime s.timeNs
        fromLoc := src.loc
        toLoc := dst.loc
        kind := kind
        boundary := b
        virtFrom := s.ip
        virtTo := s.addr }
    refine ⟨r'.modThread k fun st => { st with retained := st.retained + 1 }, ?_, ?_⟩
    · exact bind_ok.mpr ⟨r', hr, rfl⟩
    · exact bind_ok.mpr ⟨r'.resident, hres, by rw [modThread_resident]; rfl⟩

/-- A sample is applied on both sides alike. -/
theorem pushSample_resident (h : Unlimited r) (s : Sample) :
    ∃ r', r.pushSample s = .ok r' ∧ r.resident.pushSample s = .ok r'.resident := by
  unfold pushSample
  simp only [← beginSample_resident, resident_stateOf, ← checkRegression_resident,
    ← noteTime_resident, ← noteTrigger_resident, resolve_resident, ← attributeSample_resident]
  -- `p` is the state in which the event gets its number; up to there no row was written
  generalize hp : attributeSample _ _ s _ = p
  have hsur : p.surroundings = r.surroundings := by
    rw [← hp]
    simp
  have hresolve (r : Reconstructor) (pid : Nat) (ip : Option Nat) :
      (r.resolve pid ip).1.resident = (r.resident.resolve pid ip).1 := by
    rw [resolve_resident]
  have hres : p.resident.surroundings = r.resident.surroundings := by
    rw [← hp]
    simp [attributeSample_resident, hresolve, beginSample_resident, checkRegression_resident,
      noteTime_resident, noteTrigger_resident]
  generalize Prod.snd (Reconstructor.resolve _ s.pid s.ip) = src
  generalize Prod.snd (Reconstructor.resolve _ s.pid s.addr) = dst
  generalize flagsKind s.flags = kind
  generalize flagsBoundary s.flags = b
  have hU : Unlimited { p with nextEvent := nextId p.nextEvent } := h.of_surroundings hsur hres
  obtain ⟨q, hq, hq'⟩ := retainEvent_resident (s.pid, s.tid) p.nextEvent hU s kind b
    src dst
  -- the transfer starts from `c`, which knows the call site, and ends in `d`
  obtain ⟨c, hc⟩ : ∃ c : Reconstructor,
      { q with curCallSite := if kind = FlowKind.call then s.ip else none } = c := ⟨_, rfl⟩
  have hckept : c.budgetBytes = wordSize - 1 := by
    rw [← hc]
    exact (congrArg Surroundings.budgetBytes (retainEvent_surroundings hq)).trans hU.kept
  have hcwritten : c.resident.budgetBytes = wordSize - 1 := by
    rw [← hc]
    exact (congrArg Surroundings.budgetBytes (retainEvent_surroundings hq')).trans hU.written
  have hflow := applyFlow_resident c (s.pid, s.tid) s.timeNs p.nextEvent kind b src dst s.cpu
  refine ⟨{ c.applyFlow (s.pid, s.tid) kind b src dst s.timeNs s.cpu p.nextEvent with
    curCallSite := none }, bind_ok.mpr ⟨q, hq, ?_⟩, bind_ok.mpr ⟨q.resident, hq', ?_⟩⟩
  · rw [hc]
    refine checkBudget_unlimited ?_
    exact (congrArg Surroundings.budgetBytes (applyFlow_surroundings ..)).trans hckept
  · have hcres : { q.resident with
        curCallSite := if kind = FlowKind.call then s.ip else none } = c.resident := by
      rw [← hc]
      rfl
    rw [hcres]
    refine Eq.trans ?_ (checkBudget_unlimited ?_)
    · exact congrArg (fun r : Reconstructor => checkBudget { r with curCallSite := none }) hflow.symm
    · have hbudget := congrArg budgetBytes hflow
      refine Eq.trans hbudget ?_
      exact (congrArg Surroundings.budgetBytes (applyFlow_surroundings ..)).trans hcwritten

/-! ## The other records -/

theorem noteComm_resident (comm : Option String) :
    (r.noteComm k comm).resident = r.resident.noteComm k comm := by
  unfold noteComm
  split
  · split
    · exact modThread_resident _
    · rfl
  · rfl

theorem noteExit_resident (t : TaskEvent) :
    (r.noteExit t).resident = r.resident.noteExit t := by
  unfold noteExit
  rw [resident_threads]
  split
  · exact retireThread_resident
  · rfl

theorem pushMmap_resident (m : MmapEvent) : (r.pushMmap m).resident = r.resident.pushMmap m := by
  unfold pushMmap
  dsimp only
  rw [← noteAbs_resident]
  rfl

theorem pushTask_resident (t : TaskEvent) : (r.pushTask t).resident = r.resident.pushTask t := by
  unfold pushTask
  dsimp only
  rw [noteComm_resident, noteExit_resident, ← noteAbs_resident]
  rfl

theorem pushDecoderError_resident (e : DecoderErrorEvent) :
    (r.pushDecoderError e).resident = r.resident.pushDecoderError e := by
  have habs : (noteAbs { r with decoderErrors := r.decoderErrors + 1 } e.timeNs).resident =
      noteAbs { r.resident with decoderErrors := r.resident.decoderErrors + 1 } e.timeNs :=
    noteAbs_resident _
  unfold pushDecoderError
  dsimp only
  rw [← habs]
  split
  · rw [recordGap_resident, interruptThread_resident, thread_resident]
  · rfl

theorem noteCpuFirst_resident (rec : RawRecord) :
    (r.noteCpuFirst rec).resident = r.resident.noteCpuFirst rec := by
  unfold noteCpuFirst
  rw [resident_cpuFirstAbs]
  split
  · split
    · split <;> rfl
    · rfl
  · rfl

/-! ## The budgets are never touched -/

theorem retireThread_budgetBytes : (r.retireThread k abs).budgetBytes = r.budgetBytes := by
  unfold retireThread
  split
  · rfl
  · exact congrArg Surroundings.budgetBytes (emitStack_surroundings ..)

theorem noteComm_budgetBytes (comm : Option String) :
    (r.noteComm k comm).budgetBytes = r.budgetBytes := by
  unfold noteComm
  split
  · split
    · exact congrArg Surroundings.budgetBytes (modThread_surroundings _)
    · rfl
  · rfl

theorem noteExit_budgetBytes (t : TaskEvent) : (r.noteExit t).budgetBytes = r.budgetBytes := by
  unfold noteExit
  split
  · exact retireThread_budgetBytes
  · rfl

theorem pushTask_budgetBytes (t : TaskEvent) : (r.pushTask t).budgetBytes = r.budgetBytes := by
  unfold pushTask
  dsimp only
  rw [noteComm_budgetBytes, noteExit_budgetBytes]
  exact congrArg Surroundings.budgetBytes (noteAbs_surroundings _)

theorem pushDecoderError_budgetBytes (e : DecoderErrorEvent) :
    (r.pushDecoderError e).budgetBytes = r.budgetBytes := by
  have habs : (noteAbs { r with decoderErrors := r.decoderErrors + 1 } e.timeNs).budgetBytes =
      r.budgetBytes := congrArg Surroundings.budgetBytes (noteAbs_surroundings _)
  unfold pushDecoderError
  dsimp only
  generalize noteAbs { r with decoderErrors := r.decoderErrors + 1 } e.timeNs = r₁ at habs
  refine Eq.trans ?_ habs
  split
  next pid tid _ _ =>
    have hframe : ((r₁.thread (pid, tid)).interruptThread (pid, tid)).surroundings =
        r₁.surroundings := by simp
    exact congrArg Surroundings.budgetBytes ((recordGap_surroundings ..).trans hframe)
  next => rfl

theorem accept_budgetBytes {rec : RawRecord} (h : r.accept rec = .ok r') :
    r'.budgetBytes = r.budgetBytes := by
  cases rec with
  | sample s => exact congrArg Surroundings.budgetBytes (pushSample_surroundings h)
  | mmap m =>
    obtain rfl := Except.ok.inj h
    exact congrArg Surroundings.budgetBytes (noteAbs_surroundings m.timeNs)
  | task t =>
    obtain rfl := Except.ok.inj h
    exact pushTask_budgetBytes t
  | switch pid tid time out =>
    obtain rfl := Except.ok.inj h
    exact congrArg Surroundings.budgetBytes (noteAbs_surroundings time)
  | lost e =>
    obtain rfl := Except.ok.inj h
    rfl
  | decoderError e =>
    obtain rfl := Except.ok.inj h
    exact pushDecoderError_budgetBytes e

theorem noteCpuFirst_budgetBytes (rec : RawRecord) :
    (r.noteCpuFirst rec).budgetBytes = r.budgetBytes := by
  unfold noteCpuFirst
  split
  · split
    · split <;> rfl
    · rfl
  · rfl

/-! ## A record and a stream -/

theorem accept_resident (h : Unlimited r) (rec : RawRecord) :
    ∃ r', r.accept rec = .ok r' ∧ r.resident.accept rec = .ok r'.resident := by
  cases rec with
  | sample s => exact pushSample_resident h s
  | mmap m => exact ⟨_, rfl, congrArg Except.ok (pushMmap_resident m).symm⟩
  | task t => exact ⟨_, rfl, congrArg Except.ok (pushTask_resident t).symm⟩
  | switch pid tid time out => exact ⟨_, rfl, congrArg Except.ok (noteAbs_resident time).symm⟩
  | lost e => exact ⟨_, rfl, rfl⟩
  | decoderError e => exact ⟨_, rfl, congrArg Except.ok (pushDecoderError_resident e).symm⟩

theorem accept_unlimited (h : Unlimited r) (rec : RawRecord) :
    ∃ r', r.accept rec = .ok r' ∧ r.resident.accept rec = .ok r'.resident ∧ Unlimited r' := by
  obtain ⟨r', hr, hres⟩ := accept_resident h rec
  exact ⟨r', hr, hres, h.of_kept (accept_budgetBytes hr) (accept_budgetBytes hres)⟩

/-- One record: both sides take it, and stay in step. -/
theorem push_resident (h : Unlimited r) (rec : RawRecord) :
    ∃ r', r.push rec = .ok r' ∧ r.resident.push rec = .ok r'.resident ∧ Unlimited r' := by
  have hcpu : Unlimited (r.noteCpuFirst rec) := by
    refine h.of_kept (noteCpuFirst_budgetBytes rec) ?_
    rw [noteCpuFirst_resident]
    exact noteCpuFirst_budgetBytes rec
  unfold push
  dsimp only
  rw [← noteCpuFirst_resident, resident_pidFilter]
  generalize r.noteCpuFirst rec = q at hcpu
  split
  · exact accept_unlimited hcpu rec
  next f _ =>
    have hf : Unlimited { q with pidFilter := some (f.observe rec) } :=
      hcpu.of_kept rfl rfl
    split
    · exact accept_unlimited hf rec
    · split
      · exact ⟨_, rfl, rfl, hf.of_kept rfl rfl⟩
      · exact ⟨_, rfl, rfl, hf⟩

/-- A whole stream: both sides take every record of it. -/
theorem pushAll_resident (recs : List RawRecord) (h : Unlimited r) :
    ∃ r', r.pushAll recs = .ok r' ∧ r.resident.pushAll recs = .ok r'.resident ∧ Unlimited r' := by
  induction recs generalizing r with
  | nil => exact ⟨r, rfl, rfl, h⟩
  | cons rec rest ih =>
    obtain ⟨q, hq, hqres, hU⟩ := push_resident h rec
    obtain ⟨r', hr, hres, hU'⟩ := ih hU
    unfold pushAll
    exact ⟨r', foldlM_cons_ok.mpr ⟨q, hq, hr⟩, foldlM_cons_ok.mpr ⟨q.resident, hqres, hres⟩, hU'⟩

/-! ## Closing what is open -/

theorem closeThread_resident : (r.closeThread k).resident = r.resident.closeThread k := by
  unfold closeThread
  dsimp only
  rw [emitStack_resident, modThread_resident, resident_stateOf]

theorem closeThread_surroundings : (r.closeThread k).surroundings = r.surroundings := by
  simp [closeThread]

theorem closeAll_resident : r.closeAll.resident = r.resident.closeAll := by
  unfold closeAll
  rw [resident_threadOrder]
  generalize r.threadOrder = ks
  induction ks generalizing r with
  | nil => rfl
  | cons k ks ih => rw [List.foldl_cons, List.foldl_cons, ih, closeThread_resident]

theorem closeAll_surroundings : r.closeAll.surroundings = r.surroundings := by
  unfold closeAll
  generalize r.threadOrder = ks
  induction ks generalizing r with
  | nil => rfl
  | cons k ks ih => rw [List.foldl_cons, ih, closeThread_surroundings]

theorem closeAll_unlimited (h : Unlimited r) : Unlimited r.closeAll := by
  refine h.of_surroundings closeAll_surroundings ?_
  rw [closeAll_resident]
  exact closeAll_surroundings

/-- Without a spill there is nothing to bring back. -/
theorem resident_eq_self (h : r.spill = none) : r.resident = r := by
  cases r
  subst h
  simp [resident]

/-- Giving a reconstructor a spill directory changes nothing else. -/
theorem resident_withSpill (h : r.spill = none) (hb : r.budgetBytes = wordSize - 1)
    (eventLen : FlowEvent → Nat) (spanLen : FunctionSpan → Nat) :
    (r.withSpill (wordSize - 1) eventLen spanLen).resident = r := by
  cases r
  subst h hb
  simp [resident, withSpill]

end Reconstructor

/-! ## Two analyses with the same content -/

/-- The events of an analysis, wherever they are kept. -/
def AnalysisIr.allEvents (ir : AnalysisIr) : List FlowEvent :=
  ir.events ++ (ir.spilled.map (·.1)).getD []

/-- The spans of an analysis, wherever they are kept. -/
def AnalysisIr.allSpans (ir : AnalysisIr) : List FunctionSpan :=
  ir.spans ++ (ir.spilled.map (·.2)).getD []

/-- The same analysis, up to where the rows are kept: spans in any order,
everything else equal. -/
structure SameAnalysis (a b : AnalysisIr) : Prop where
  analysisId : a.analysisId = b.analysisId
  origin : a.origin = b.origin
  threads : a.threads = b.threads
  functions : a.functions = b.functions
  locations : a.locations = b.locations
  events : a.allEvents = b.allEvents
  spans : a.allSpans.Perm b.allSpans
  gaps : a.gaps = b.gaps
  mappings : a.mappings = b.mappings
  quality : a.quality = b.quality
  inlineRows : a.inlineRows = b.inlineRows
  samplesKept : a.samplesKept = b.samplesKept
  eventCount : a.eventCount = b.eventCount
  spanCount : a.spanCount = b.spanCount
  triggerHitNs : a.triggerHitNs = b.triggerHitNs

/-- Both fail, or both finish with the same analysis. -/
def Agree : Result AnalysisIr → Result AnalysisIr → Prop
  | .ok a, .ok b => SameAnalysis a b
  | .error _, .error _ => True
  | _, _ => False

theorem Agree.refl : ∀ x, Agree x x
  | .ok _ => ⟨rfl, rfl, rfl, rfl, rfl, rfl, .rfl, rfl, rfl, rfl, rfl, rfl, rfl, rfl, rfl⟩
  | .error _ => trivial

namespace Reconstructor

variable {r : Reconstructor}

theorem incomplete_append (xs ys : List FunctionSpan) :
    incomplete (xs ++ ys) = incomplete xs + incomplete ys := by
  simp [incomplete]

theorem incomplete_perm {xs ys : List FunctionSpan} (h : xs.Perm ys) :
    incomplete xs = incomplete ys :=
  (h.filter _).length_eq

@[simp] theorem resident_origin : r.resident.origin = r.origin := rfl

/-- Rebasing and counting in memory, or in a second pass over the files. -/
theorem finish_agree (h : Unlimited r) : Agree r.resident.finish r.finish := by
  have hbudget := (closeAll_unlimited h).written
  unfold finish
  rw [resident_origin, ← closeAll_resident]
  generalize r.closeAll = c at hbudget
  cases r.origin with
  | error e => trivial
  | ok o =>
  cases hsp : c.spill with
  | none =>
    rw [resident_eq_self hsp]
    exact Agree.refl _
  | some sp =>
    have hcheck : spillCheck sp = .ok () :=
      spillCheck_unlimited (by simpa [resident, hsp] using hbudget)
    have hevents : c.resident.events = c.events ++ sp.events := by simp [resident, hsp]
    have hspans : c.resident.spans = c.spans ++ sp.spans := by simp [resident, hsp]
    have hgaps : c.resident.gaps = c.gaps := rfl
    have hnone : c.resident.finishSpill o = .ok none := rfl
    have hsome : c.finishSpill o = (do
        let events ← sp.events.mapM (rebaseEvent o)
        let spans ← sp.spans.mapM (rebaseSpan o)
        pure (some (events, spans))) := by
      rw [finishSpill, hsp]
      dsimp only
      rw [hcheck]
      rfl
    dsimp only [bind, Except.bind]
    rw [hevents, hspans, hgaps, hnone, hsome, List.mapM_append, List.mapM_append]
    -- whichever part holds a time before the origin, both sides fail
    cases c.events.mapM (rebaseEvent o) with
    | error e => trivial
    | ok es =>
    cases sp.events.mapM (rebaseEvent o) with
    | error e => cases c.spans.mapM (rebaseSpan o) <;> trivial
    | ok es' =>
    cases c.spans.mapM (rebaseSpan o) with
    | error e => trivial
    | ok ss =>
    cases sp.spans.mapM (rebaseSpan o) with
    | error e => trivial
    | ok ss' =>
    cases c.gaps.mapM (rebaseGap o) with
    | error e => trivial
    | ok gs =>
      have hall : ((ss ++ ss').mergeSort fun a b => a.id ≤ b.id).Perm
          ((ss.mergeSort fun a b => a.id ≤ b.id) ++ ss') :=
        (List.mergeSort_perm _ _).trans ((List.mergeSort_perm _ _).symm.append_right _)
      have hcount : incomplete ((ss ++ ss').mergeSort fun a b => a.id ≤ b.id) + 0 =
          incomplete (ss.mergeSort fun a b => a.id ≤ b.id) + incomplete ss' := by
        rw [incomplete_perm hall, incomplete_append, Nat.add_zero]
      refine ⟨rfl, rfl, rfl, rfl, rfl, ?_, ?_, rfl, rfl, ?_, rfl, rfl, rfl, rfl, rfl⟩
      · exact List.append_nil _
      · exact (List.Perm.of_eq (List.append_nil _)).trans hall
      · show QualityReport.mk _ _ _ _ _ _ _ _ _ = QualityReport.mk _ _ _ _ _ _ _ _ _
        exact congrArg (fun n => QualityReport.mk _ _ n _ _ _ _ _ _) hcount

/-- A spilling reconstructor and one that keeps its rows, neither with a limit:
both take every record stream, and both fail to finish or finish with the same
analysis. -/
theorem withSpill_agrees (h : r.spill = none) (hb : r.budgetBytes = wordSize - 1)
    (eventLen : FlowEvent → Nat) (spanLen : FunctionSpan → Nat) (recs : List RawRecord) :
    ∃ kept written, r.pushAll recs = .ok kept ∧
      (r.withSpill (wordSize - 1) eventLen spanLen).pushAll recs = .ok written ∧
      Agree kept.finish written.finish := by
  have hself := resident_withSpill h hb eventLen spanLen
  have hU : Unlimited (r.withSpill (wordSize - 1) eventLen spanLen) := ⟨hb, hself ▸ hb⟩
  obtain ⟨written, hw, hk, hU'⟩ := pushAll_resident recs hU
  rw [hself] at hk
  exact ⟨written.resident, written, hk, hw, finish_agree hU'⟩

/-- `g` is entered and left open, `f` is entered and returns. -/
def oneReturns : List RawRecord :=
  [mapped, branchAt 1 100 .CALL 0x10 0x1010, branchAt 1 110 .CALL 0x1020 0x20,
    branchAt 1 120 .RETURN 0x30 0x1030]

/-- `withSpill_agrees` on it: the spans are written in the order they end. -/
theorem withSpill_agrees_oneReturns :
    ∃ kept written, traced.pushAll oneReturns = .ok kept ∧
      (traced.withSpill (wordSize - 1) (fun _ => 1) fun _ => 1).pushAll oneReturns = .ok written ∧
      Agree kept.finish written.finish :=
  withSpill_agrees rfl rfl _ _ oneReturns

example : ((traced.withSpill (wordSize - 1) (fun _ => 1) fun _ => 1).pushAll oneReturns >>=
    finish).toOption.map (fun ir => (ir.spilled.map fun rows => rows.2.map (·.id))) =
      some (some [1, 0]) := by
  decide +kernel

end Reconstructor

end TraceMcp.Decode
