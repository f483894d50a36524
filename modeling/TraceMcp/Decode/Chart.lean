import TraceMcp.Decode.Forest

/-!
# The chart of a reconstruction

What a reconstructor keeps of time besides its span ledger: the earliest time
it noted, the event rows, the coverage segments of each thread, and the holes
in the rings. A sample touches the chart at four places only (its time is
noted, its thread's newest segment extended, its event kept, and the coverage
cut where it crosses a ring hole), and everything else it does is invisible
here. `push_chart` says what a record does to the chart.
-/

namespace TraceMcp.Decode

open TraceMcp.Lib

/-- What the chart keeps of a thread; the newest segment comes first. -/
structure Cover where
  id : ThreadId
  segments : List (Nat × Nat)

/-- A `RingTruncation` gap. -/
structure Hole where
  thread : ThreadId
  start : Option Nat
  stop : Option Nat
  deriving DecidableEq

/-- The chart; `stale` are span rows left in memory while rows are spilled. -/
structure Chart where
  earliest : Option Nat
  events : List FlowEvent
  stale : List FunctionSpan
  live : Key → Option Cover
  past : List Cover
  holes : List Hole

def coverOf (st : ThreadState) : Cover := ⟨st.id, st.segments⟩

def holeOf (g : GapRecord) : Hole := ⟨g.thread, g.start.relativeNs, g.stop.relativeNs⟩

/-- The event rows written so far, resident or spilled. -/
def eventRows (r : Reconstructor) : List FlowEvent :=
  r.events ++ (r.spill.map Spill.events).getD []

/-- The resident span rows of a reconstructor that spills. -/
def staleSpans (r : Reconstructor) : List FunctionSpan :=
  match r.spill with
  | some _ => r.spans
  | none => []

/-- The chart of a reconstructor. -/
def chart (r : Reconstructor) : Chart where
  earliest := r.minAbs
  events := eventRows r
  stale := staleSpans r
  live := fun k => (r.threads.get k).map coverOf
  past := r.retired.map coverOf
  holes := (r.gaps.filter fun g => g.kind = .ringTruncation).map holeOf

/-- A segment that lasts until `t` as well. -/
def Cover.extend (t : Option Nat) (c : Cover) : Cover :=
  { c with segments := match t with
    | none => c.segments
    | some t => match c.segments with
      | seg :: rest => (seg.1, max seg.2 t) :: rest
      | [] => [(t, t)] }

/-- The coverage ends at `left` and starts again at `now`. -/
def Cover.cut (left now : Option Nat) (c : Cover) : Cover :=
  { c with segments := match now with
    | none => c.segments
    | some t => (t, t) :: match c.segments, left with
      | seg :: rest, some left => (seg.1, left) :: rest
      | segs, _ => segs }

namespace Chart

/-- `t` is noted, unless it is zero. -/
def note (C : Chart) (t : Option Nat) : Chart :=
  match t with
  | some t => if t ≠ 0 then { C with earliest := some (C.earliest.elim t (min · t)) } else C
  | none => C

/-- Thread `k` is there afterwards. -/
def ensure (C : Chart) (k : Key) (id : ThreadId) : Chart :=
  match C.live k with
  | some _ => C
  | none => { C with live := Function.update C.live k (some ⟨id, []⟩) }

/-- The coverage of `k`, changed by `f`. -/
def modCover (C : Chart) (k : Key) (f : Cover → Cover) : Chart :=
  match C.live k with
  | some c => { C with live := Function.update C.live k (some (f c)) }
  | none => C

def addEvents (C : Chart) (rows : List FlowEvent) : Chart :=
  { C with events := C.events ++ rows }

/-- A hole from `start` to `stop`, which cuts the coverage of thread `k` at
`now`. -/
def addHole (C : Chart) (k : Key) (start stop now : Option Nat) : Chart :=
  match C.live k with
  | some c => { C.modCover k (Cover.cut start now) with
      holes := C.holes ++ [⟨c.id, start, stop⟩] }
  | none => C

/-- Thread `k` has exited. -/
def retire (C : Chart) (k : Key) : Chart :=
  match C.live k with
  | some c => { C with live := Function.update C.live k none, past := C.past ++ [c] }
  | none => C

end Chart

open Reconstructor

variable {r r' : Reconstructor} {k : Key} {l : Lane} {abs : Option Nat} {eid : LocalId}

/-! ## Writes the chart does not see -/

theorem modThread_chart {f : ThreadState → ThreadState} (hf : ∀ st, coverOf (f st) = coverOf st) :
    chart (r.modThread k f) = chart r := by
  unfold modThread
  split
  next st hst =>
    have hlive : (fun k' => (FastMap.get (r.threads.insert k (f st)) k').map coverOf) =
        fun k' => (r.threads.get k').map coverOf := by
      funext k'
      rw [FastMap.get_insert]
      split
      next hk =>
        subst hk
        rw [hst, Option.map_some, Option.map_some, hf]
      next => rfl
    show { chart r with
      live := fun k' => (FastMap.get (r.threads.insert k (f st)) k').map coverOf } = chart r
    rw [hlive]
    rfl
  next => rfl

@[simp] theorem emitSpan_chart (s : FunctionSpan) : chart (r.emitSpan s) = chart r := by
  unfold emitSpan
  split
  next sp hsp => simp only [chart, eventRows, staleSpans, hsp, Option.map_some, Option.getD_some]
  next hsp => simp only [chart, eventRows, staleSpans, hsp]

@[simp] theorem emitStack_chart (t : ThreadId) (endAbs : Option Nat)
    (c : SpanCompleteness → SpanCompleteness) (stack : List OpenSpan) :
    chart (r.emitStack t endAbs c stack) = chart r := by
  unfold emitStack
  induction stack generalizing r with
  | nil => rfl
  | cons o rest ih => rw [List.foldl_cons, ih, emitSpan_chart]

theorem pushGap_chart (t : ThreadId) {kind : GapKind} (a b : Option Nat) (x : Bool)
    (reason : String) (hkind : kind ≠ .ringTruncation) :
    chart (r.pushGap t kind a b x reason) = chart r := by
  simp only [chart, eventRows, staleSpans, pushGap, List.filter_append, List.filter_singleton]
  rw [decide_eq_false hkind, cond_false, List.append_nil]

theorem recordGap_chart {kind : GapKind} (a b : Option Nat) (x : Bool) (reason : String)
    (hkind : kind ≠ .ringTruncation) : chart (r.recordGap k kind a b x reason) = chart r := by
  unfold recordGap
  rw [modThread_chart (by intro st; rfl)]
  exact pushGap_chart _ a b x reason hkind

@[simp] theorem pushOpen_chart (f : Option LocalId) (c : SpanCompleteness) :
    chart (r.pushOpen k f abs eid c) = chart r := by
  unfold pushOpen
  rw [modThread_chart (by intro st; rfl)]
  rfl

@[simp] theorem pushOpenIn_chart (f : Option LocalId) :
    chart (r.pushOpenIn k f abs eid) = chart r := by
  unfold pushOpenIn
  split
  next => exact pushOpen_chart ..
  next => rfl

@[simp] theorem closeSpan_chart (o : OpenSpan) (c : SpanCompleteness) :
    chart (r.closeSpan k o abs eid c) = chart r := by
  rw [closeSpan, emitSpan_chart]
  exact modThread_chart (by intro st; rfl)

@[simp] theorem interruptThread_chart : chart (r.interruptThread k) = chart r := by
  unfold interruptThread
  split
  next => rfl
  next =>
    rw [emitStack_chart]
    exact modThread_chart (by intro st; rfl)

/-- An interruption with its gap. -/
theorem interrupt_gap_chart {kind : GapKind} (a b : Option Nat) (x : Bool) (reason : String)
    (hkind : kind ≠ .ringTruncation) :
    chart ((r.interruptThread k).recordGap k kind a b x reason) = chart r :=
  (recordGap_chart a b x reason hkind).trans interruptThread_chart

/-! ## Resolving and attributing -/

@[simp] theorem internFunction_chart (key : Nat) (image : String) (fr : FuncRange) :
    chart (r.internFunction key image fr).1 = chart r := by
  unfold internFunction
  split <;> rfl

@[simp] theorem internLocation_chart (key : Nat) (image : String) (rel ip : Nat)
    (func : Option LocalId) : chart (r.internLocation key image rel ip func).1 = chart r := by
  unfold internLocation
  split <;> rfl

@[simp] theorem noteMissingImage_chart (path : String) :
    chart (r.noteMissingImage path) = chart r := by
  unfold noteMissingImage
  split <;> rfl

@[simp] theorem resolveUncached_chart (pid ip : Nat) :
    chart (r.resolveUncached pid ip).1 = chart r := by
  unfold resolveUncached
  split
  · rfl
  · split
    · rfl
    · split
      · dsimp only
        split <;> simp
      · simp

@[simp] theorem resolve_chart (pid : Nat) (ip : Option Nat) :
    chart (r.resolve pid ip).1 = chart r := by
  unfold resolve
  split
  · rfl
  · split
    · rfl
    · exact resolveUncached_chart ..

@[simp] theorem attributeBlock_chart (pid start stop : Nat) (t0 t1 : Option Nat) :
    chart (r.attributeBlock k pid start stop t0 t1) = chart r := by
  unfold attributeBlock
  split
  · rfl
  · split
    · rfl
    · dsimp only
      split <;> rfl

@[simp] theorem attributeSample_chart (s : Sample) (b : BoundaryFlags) :
    chart (r.attributeSample k s b) = chart r := by
  unfold attributeSample
  split
  · rfl
  · dsimp only
    rw [modThread_chart (by intro st; rfl)]
    split
    · split <;> simp
    · rfl

@[simp] theorem noteTrigger_chart (s : Sample) (b : BoundaryFlags) :
    chart (r.noteTrigger s b) = chart r := by
  unfold noteTrigger
  split
  · split <;> rfl
  · rfl

@[simp] theorem noteTime_chart (prev now : Option Nat) :
    chart (r.noteTime k prev now) = chart r := by
  unfold noteTime
  split
  · rfl
  · dsimp only
    rw [modThread_chart (by intro st; rfl)]
    split
    · split <;> rfl
    · rfl

@[simp] theorem checkRegression_chart (prev now : Option Nat) :
    chart (r.checkRegression k prev now) = chart r := by
  unfold checkRegression
  split
  · exact interrupt_gap_chart _ _ _ _ (by decide)
  · rfl

/-! ## Applying a transfer -/

theorem resumeHere_chart (p : PendingEnd) (dst : Resolved) :
    chart (r.resumeHere k p dst abs eid) = chart r := by
  have hgap : chart (r.recordGap k .traceBoundary p.abs abs (p.abs.isSome && abs.isSome)
      p.reason) = chart r := recordGap_chart _ _ _ _ (by decide)
  unfold resumeHere
  dsimp only
  split
  · exact (pushOpenIn_chart _).trans hgap
  · exact hgap

theorem loseContinuity_chart (p : PendingEnd) (what : String) :
    chart (r.loseContinuity k p abs what) = chart r :=
  interrupt_gap_chart _ _ _ _ (by decide)

theorem applyBoundary_chart (b : BoundaryFlags) (src dst : Resolved) (cpu : Option Nat) :
    chart (r.applyBoundary k b src dst abs cpu eid) = chart r := by
  unfold applyBoundary
  split
  · exact modThread_chart (by intro st; rfl)
  · split
    · exact interrupt_gap_chart _ _ _ _ (by decide)
    · split
      · split <;> simp
      · rfl

@[simp] theorem noteUnwind_chart (src dst : Resolved) :
    chart (r.noteUnwind k src dst) = chart r := by
  unfold noteUnwind
  split
  · split <;> rfl
  · rfl

@[simp] theorem orphanReturn_chart (src dst : Resolved) :
    chart (r.orphanReturn k src dst abs eid) = chart r := by
  unfold orphanReturn
  dsimp only
  rw [pushOpenIn_chart, emitSpan_chart, modThread_chart (by intro st; rfl)]
  rfl

@[simp] theorem applyReturn_chart (src dst : Resolved) :
    chart (r.applyReturn k src dst abs eid) = chart r := by
  unfold applyReturn
  split
  · exact orphanReturn_chart ..
  · rw [noteUnwind_chart, closeSpan_chart]
    exact modThread_chart (by intro st; rfl)

@[simp] theorem tailCall_chart (target : LocalId) :
    chart (r.tailCall k target abs eid) = chart r := by
  unfold tailCall
  dsimp only
  rw [modThread_chart (by intro st; rfl), pushOpen_chart]
  split
  · rw [closeSpan_chart]
    exact modThread_chart (by intro st; rfl)
  · exact modThread_chart (by intro st; rfl)

@[simp] theorem applyJump_chart (src dst : Resolved) :
    chart (r.applyJump k src dst abs eid) = chart r := by
  unfold applyJump
  split
  · split
    · exact tailCall_chart ..
    · rfl
  · split
    · exact modThread_chart (by intro st; rfl)
    · rfl
  · rfl

/-! ## Writes to the chart -/

theorem noteAbs_chart (t : Option Nat) : chart (r.noteAbs t) = (chart r).note t := by
  cases t with
  | none => rfl
  | some t =>
    by_cases ht : t ≠ 0
    · simp only [noteAbs, Chart.note, if_pos ht]
      rfl
    · simp only [noteAbs, Chart.note, if_neg ht]

/-- Changing thread `k` changes its cover and nothing else. -/
theorem modThread_cover {f : ThreadState → ThreadState} {g : Cover → Cover}
    (hf : ∀ st, coverOf (f st) = g (coverOf st)) :
    chart (r.modThread k f) = (chart r).modCover k g := by
  cases hst : r.threads.get k with
  | none =>
    have hlive : (chart r).live k = none := congrArg (Option.map coverOf) hst
    simp only [modThread, hst, Chart.modCover, hlive]
  | some st =>
    have hcover : (chart r).live k = some (coverOf st) := congrArg (Option.map coverOf) hst
    have hlive : (fun k' => (FastMap.get (r.threads.insert k (f st)) k').map coverOf) =
        Function.update (chart r).live k (some (g (coverOf st))) := by
      funext k'
      rw [FastMap.get_insert]
      by_cases hk : k' = k
      · rw [if_pos hk, hk, Function.update_self, Option.map_some, hf]
      · rw [if_neg hk, Function.update_of_ne hk]
        rfl
    simp only [modThread, hst, Chart.modCover, hcover]
    rw [← hlive]
    rfl

/-- The thread of a sample, created on its first appearance. -/
theorem thread_chart (k : Key) :
    chart (r.thread k) = (chart r).ensure k (r.threadIds.id k.1 k.2) := by
  cases hst : r.threads.get k with
  | some st =>
    have hlive : (chart r).live k = some (coverOf st) := congrArg (Option.map coverOf) hst
    simp only [Reconstructor.thread, hst, Chart.ensure, hlive]
  | none =>
    have hnone : (chart r).live k = none := congrArg (Option.map coverOf) hst
    have hlive : (fun k' => (FastMap.get (r.threads.insert k (r.newThread k)) k').map coverOf) =
        Function.update (chart r).live k (some ⟨r.threadIds.id k.1 k.2, []⟩) := by
      funext k'
      rw [FastMap.get_insert]
      by_cases hk : k' = k
      · rw [if_pos hk, hk, Function.update_self]
        rfl
      · rw [if_neg hk, Function.update_of_ne hk]
        rfl
    simp only [Reconstructor.thread, hst, Chart.ensure, hnone]
    rw [← hlive]
    rfl

theorem touchThread_cover (s : Sample) (st : ThreadState) :
    coverOf (touchThread s st) = (coverOf st).extend s.timeNs := by
  unfold touchThread Cover.extend coverOf
  rfl

/-- The prologue of a sample, on the chart. -/
theorem beginSample_chart (s : Sample) : chart (r.beginSample s) =
    (((chart r).note s.timeNs).ensure (s.pid, s.tid) (r.threadIds.id s.pid s.tid)).modCover
      (s.pid, s.tid) (Cover.extend s.timeNs) := by
  unfold beginSample
  dsimp only
  rw [modThread_cover (touchThread_cover s), thread_chart]
  have hnote : chart (noteAbs { r with samples := r.samples + 1 } s.timeNs) =
      (chart r).note s.timeNs := noteAbs_chart s.timeNs
  have hids : (noteAbs { r with samples := r.samples + 1 } s.timeNs).threadIds = r.threadIds :=
    congrArg Surroundings.threadIds (noteAbs_surroundings s.timeNs)
  generalize noteAbs { r with samples := r.samples + 1 } s.timeNs = r₁ at hnote hids
  rw [← hnote, ← hids]
  split <;> rfl

theorem emitEvent_chart {ev : FlowEvent} (h : r.emitEvent ev = .ok r') :
    chart r' = (chart r).addEvents [ev] := by
  unfold emitEvent at h
  split at h
  next sp hsp =>
    have hrows : chart { r with
        eventsN := r.eventsN + 1
        spill := some { sp with
          bytes := sp.bytes + UInt64.ofNat (sp.eventLen ev)
          events := sp.events ++ [ev]
          eventsN := sp.eventsN + 1 } } = (chart r).addEvents [ev] := by
      simp only [chart, Chart.addEvents, eventRows, staleSpans, hsp, Option.map_some,
        Option.getD_some, List.append_assoc]
    dsimp only at h
    split at h
    · obtain ⟨_, _, rfl⟩ := map_ok.mp h
      exact hrows
    · cases h
      exact hrows
  next hsp =>
    cases h
    simp only [chart, Chart.addEvents, eventRows, staleSpans, hsp, Option.map_none,
      Option.getD_none, List.append_nil]

theorem retainEvent_chart {s : Sample} {kind : FlowKind} {b : BoundaryFlags} {src dst : Resolved}
    (h : r.retainEvent k s kind b src dst eid = .ok r') :
    ∃ rows, (∀ e ∈ rows, e.time = absTime s.timeNs) ∧ chart r' = (chart r).addEvents rows := by
  unfold retainEvent at h
  split at h
  next =>
    cases h
    refine ⟨[], fun e he => absurd he List.not_mem_nil, ?_⟩
    rw [Chart.addEvents, List.append_nil]
  next =>
    obtain ⟨r₁, h₁, h⟩ := bind_ok.mp h
    cases h
    refine ⟨[_], ?_, (modThread_chart (by intro st; rfl)).trans (emitEvent_chart h₁)⟩
    intro e he
    rw [List.mem_singleton.mp he]

theorem ringGap_chart (hlive : ∃ c, (chart r).live k = some c) (p : PendingEnd)
    (stop now : Option Nat) (x : Bool) (reason : String) :
    chart ((r.recordGap k .ringTruncation p.abs stop x reason).modThread k (cutSegments p now)) =
      (chart r).addHole k p.abs stop now := by
  obtain ⟨c, hc⟩ := hlive
  obtain ⟨st, hst, rfl⟩ := Option.map_eq_some_iff.mp hc
  have hcut : ∀ st, coverOf (cutSegments p now st) = (coverOf st).cut p.abs now := by
    intro st
    unfold cutSegments Cover.cut coverOf
    cases now <;> rfl
  have hid : (r.stateOf k).id = (coverOf st).id := by
    rw [stateOf, hst]
    rfl
  rw [modThread_cover hcut]
  unfold recordGap
  rw [modThread_chart (by intro st; rfl), hid]
  simp only [Chart.addHole, hc]
  have hpush : chart (r.pushGap (coverOf st).id .ringTruncation p.abs stop x reason) =
      { chart r with holes := (chart r).holes ++ [⟨(coverOf st).id, p.abs, stop⟩] } := by
    simp only [chart, eventRows, staleSpans, pushGap, List.filter_append, List.map_append]
    simp [holeOf, absTime_relativeNs]
  rw [hpush]
  simp only [Chart.modCover, hc]

/-- The trace end a sample resumes from across a ring hole, if it does; the
sample's thread is `k`, and `stop` is where its CPU's ring starts. -/
def holeFrom (pending : Option PendingEnd) (cpu stop : Option Nat) : Option PendingEnd :=
  pending.filter fun p => ringHole p cpu stop

/-- A crossing cuts the coverage of `k`. -/
def Chart.cross (C : Chart) (k : Key) (now stop : Option Nat) (p : Option PendingEnd) : Chart :=
  match p with
  | some p => C.addHole k p.abs (stop.or now) now
  | none => C

theorem live_of_lane (h : (ledger r).lanes k = some l) : ∃ c, (chart r).live k = some c := by
  obtain ⟨st, hst, -⟩ := lanes_ledger.mp h
  exact ⟨coverOf st, congrArg (Option.map coverOf) hst⟩

theorem crossRingHole_chart (hlive : ∃ c, (chart r).live k = some c) (p : PendingEnd)
    (abs cpu stop : Option Nat) :
    chart (r.crossRingHole k p abs cpu stop) = (chart r).addHole k p.abs (stop.or abs) abs := by
  unfold crossRingHole
  dsimp only
  have hint : chart (interruptThread { r with ringHoles := r.ringHoles + 1 } k) = chart r :=
    interruptThread_chart
  rw [ringGap_chart (hint ▸ hlive), hint]

theorem settlePending_chart (h : (ledger r).lanes k = some l) (b : BoundaryFlags)
    (src dst : Resolved) (abs cpu : Option Nat) (eid : LocalId) :
    chart (r.settlePending k b src dst abs cpu eid).1 =
      (chart r).cross k abs (cpu.bind r.cpuFirstAbs.get)
        (holeFrom l.pending cpu (cpu.bind r.cpuFirstAbs.get)) := by
  have hlive := live_of_lane h
  unfold settlePending
  rw [stateOf_pendingEnd h]
  split
  next hp => rw [hp]; rfl
  next p hp =>
    have hclear : chart (r.modThread k fun st => { st with pendingEnd := none }) = chart r :=
      modThread_chart (by intro st; rfl)
    have hcpu : (r.modThread k fun st => { st with pendingEnd := none }).cpuFirstAbs =
        r.cpuFirstAbs := congrArg Surroundings.cpuFirstAbs (modThread_surroundings _)
    dsimp only
    rw [hcpu, hp, holeFrom, Option.filter_some]
    generalize r.modThread k (fun st => { st with pendingEnd := none }) = r₁ at hclear
    split
    next hhole =>
      have hcross := crossRingHole_chart (hclear ▸ hlive) p abs cpu
        (cpu.bind r.cpuFirstAbs.get)
      rw [hclear] at hcross
      split
      next => exact (pushOpenIn_chart _).trans hcross
      next => exact hcross
    next hhole =>
      show _ = chart r
      split
      next =>
        split
        next => exact (resumeHere_chart p dst).trans hclear
        next => exact (pushOpenIn_chart _).trans ((loseContinuity_chart p _).trans hclear)
      next => exact (loseContinuity_chart p _).trans hclear

theorem applyFlow_chart (h : (ledger r).lanes k = some l) (kind : FlowKind) (b : BoundaryFlags)
    (src dst : Resolved) (abs cpu : Option Nat) (eid : LocalId) :
    chart (r.applyFlow k kind b src dst abs cpu eid) =
      (chart r).cross k abs (cpu.bind r.cpuFirstAbs.get)
        (holeFrom l.pending cpu (cpu.bind r.cpuFirstAbs.get)) := by
  have hsettle := settlePending_chart h b src dst abs cpu eid
  unfold applyFlow
  dsimp only
  rw [← hsettle]
  split
  next => rfl
  next =>
    split
    next => exact applyBoundary_chart ..
    next =>
      cases kind with
      | call => exact pushOpen_chart ..
      | ret => exact applyReturn_chart ..
      | jump => exact applyJump_chart ..
      | conditional => exact applyJump_chart ..
      | traceBegin => rfl
      | traceEnd => rfl
      | asyncBoundary => rfl

/-! ## Records -/

namespace Reconstructor

/-- Where the ring of the sample's CPU starts. -/
def ringStart (r : Reconstructor) (s : Sample) : Option Nat := s.cpu.bind r.cpuFirstAbs.get

/-- The trace end the sample resumes from across a ring hole, if it does. -/
def crossing (r : Reconstructor) (s : Sample) : Option PendingEnd :=
  holeFrom (r.stateOf (s.pid, s.tid)).pendingEnd s.cpu (r.ringStart s)

end Reconstructor

/-- The time a record is noted with; that of a loss is not looked at. -/
def notedTime : RawRecord → Option Nat
  | .sample s => s.timeNs
  | .mmap m => m.timeNs
  | .task t => t.timeNs
  | .switch _ _ timeNs _ => timeNs
  | .lost _ => none
  | .decoderError e => e.timeNs

/-- What an accepted record does to the chart. -/
inductive Charted (r : Reconstructor) : RawRecord → Chart → Prop
  /-- A sample: its time, its coverage, its rows, and the ring hole behind it. -/
  | sample {s : Sample} (rows : List FlowEvent) : (∀ e ∈ rows, e.time = absTime s.timeNs) →
      Charted r (.sample s) ((((((chart r).note s.timeNs).ensure (s.pid, s.tid)
        (r.threadIds.id s.pid s.tid)).modCover (s.pid, s.tid) (Cover.extend s.timeNs)).addEvents
          rows).cross (s.pid, s.tid) s.timeNs (r.ringStart s) (r.crossing s))
  /-- A decoder error of a named thread. -/
  | error {e : DecoderErrorEvent} {k : Key} : Ledger.namedKey (.decoderError e) = some k →
      Charted r (.decoderError e) (((chart r).note e.timeNs).ensure k (r.threadIds.id k.1 k.2))
  /-- The exit of a listed task. -/
  | exit {t : TaskEvent} :
      Charted r (.task t) (((chart r).note t.timeNs).retire (t.pid, t.tid))
  /-- Any other record: at most its time. -/
  | quiet {rec : RawRecord} : Charted r rec ((chart r).note (notedTime rec))

/-- The pending trace end a transfer finds is the one before the sample. -/
theorem pending_checkRegression {L : Ledger} {l₀ : Lane} (h₀ : L.lanes k = some l₀)
    (now : Option Nat) (h : (L.checkRegression k l₀ now).lanes k = some l) :
    l.pending = l₀.pending := by
  unfold Ledger.checkRegression at h
  split at h
  next =>
    rw [Ledger.cut, Ledger.addGap_lanes, Ledger.emit_lanes, Ledger.setLane_lanes_self] at h
    cases h
    rfl
  next =>
    rw [h₀] at h
    cases h
    rfl

theorem stateOf_ensure_pending (h : ((ledger r).ensure k).lanes k = some l) :
    l.pending = (r.stateOf k).pendingEnd := by
  cases hlane : (ledger r).lanes k with
  | none =>
    rw [Ledger.ensure_lane hlane] at h
    cases h
    rw [stateOf, lanes_ledger_none.mp hlane]
    rfl
  | some l₁ =>
    simp only [Ledger.ensure, hlane] at h
    cases h
    exact (stateOf_pendingEnd hlane).symm

theorem pushSample_chart {s : Sample} (h : r.pushSample s = .ok r') :
    Charted r (.sample s) (chart r') := by
  unfold pushSample at h
  dsimp only at h
  -- The ledger says which trace end is pending when the transfer is applied.
  have hbegin := beginSample_ledger (r := r) s
  have hchart := beginSample_chart (r := r) s
  have hsur := beginSample_surroundings (r := r) s
  obtain ⟨l₀, h₀⟩ := ensure_lanes_isSome (ledger r) (s.pid, s.tid)
  have hp₀ := stateOf_ensure_pending h₀
  generalize r.beginSample s = r₁ at h hbegin hchart hsur
  rw [← hbegin] at h₀
  rw [stateOf_lastAbs h₀] at h
  have hcheck := checkRegression_ledger h₀ s.timeNs
  obtain ⟨l, hl⟩ := checkRegression_lanes h₀ s.timeNs
  have hp := pending_checkRegression h₀ s.timeNs hl
  have hchart₂ : chart (r₁.checkRegression (s.pid, s.tid) l₀.lastAbs s.timeNs) = chart r₁ :=
    checkRegression_chart ..
  have hsur₂ := checkRegression_surroundings (r := r₁) (k := (s.pid, s.tid)) l₀.lastAbs s.timeNs
  generalize r₁.checkRegression (s.pid, s.tid) l₀.lastAbs s.timeNs = r₂ at h hcheck hchart₂ hsur₂
  rw [← hcheck] at hl
  have htime := noteTime_ledger hl l₀.lastAbs s.timeNs
  have hchart₃ : chart (r₂.noteTime (s.pid, s.tid) l₀.lastAbs s.timeNs) = chart r₁ :=
    (noteTime_chart ..).trans hchart₂
  have hsur₃ : (r₂.noteTime (s.pid, s.tid) l₀.lastAbs s.timeNs).surroundings = r.surroundings :=
    (noteTime_surroundings ..).trans (hsur₂.trans hsur)
  generalize r₂.noteTime (s.pid, s.tid) l₀.lastAbs s.timeNs = r₃ at h htime hchart₃ hsur₃
  -- Up to the event nothing is seen.
  obtain ⟨r₄, hledger₄, hchart₄, hsur₄, h⟩ : ∃ r₄, ledger r₄ = ledger r₃ ∧ chart r₄ = chart r₃ ∧
      r₄.surroundings = r₃.surroundings ∧ ∃ src dst eid,
        (r₄.retainEvent (s.pid, s.tid) s (flagsKind s.flags) (flagsBoundary s.flags) src dst eid >>=
          fun r => checkBudget { ({ r with
            curCallSite := if flagsKind s.flags = FlowKind.call then s.ip else none }.applyFlow
              (s.pid, s.tid) (flagsKind s.flags) (flagsBoundary s.flags) src dst s.timeNs s.cpu
                eid) with curCallSite := none }) = .ok r' := by
    refine ⟨_, ?_, ?_, ?_, _, _, _, h⟩
    · refine (attributeSample_ledger ..).trans ?_
      exact (resolve_ledger ..).trans ((resolve_ledger ..).trans (noteTrigger_ledger ..))
    · refine (attributeSample_chart ..).trans ?_
      exact (resolve_chart ..).trans ((resolve_chart ..).trans (noteTrigger_chart ..))
    · refine (attributeSample_surroundings ..).trans ?_
      exact (resolve_surroundings ..).trans
        ((resolve_surroundings ..).trans (noteTrigger_surroundings ..))
  obtain ⟨src, dst, eid, h⟩ := h
  obtain ⟨r₅, hretain, hflow⟩ := bind_ok.mp h
  obtain ⟨rows, hrows, hevents⟩ := retainEvent_chart hretain
  have hlane₅ : (ledger r₅).lanes (s.pid, s.tid) = some { l with
      lastAbs := s.timeNs.or l.lastAbs } := by
    rw [retainEvent_ledger hretain, hledger₄, htime, Ledger.setLane_lanes_self]
  have hcpu : r₅.cpuFirstAbs = r.cpuFirstAbs := congrArg Surroundings.cpuFirstAbs
    ((retainEvent_surroundings hretain).trans (hsur₄.trans hsur₃))
  rw [checkBudget_eq hflow]
  have hfinal := applyFlow_chart (r := { r₅ with
    curCallSite := if flagsKind s.flags = FlowKind.call then s.ip else none }) hlane₅
    (flagsKind s.flags) (flagsBoundary s.flags) src dst s.timeNs s.cpu eid
  have hpending : holeFrom l.pending s.cpu (s.cpu.bind r₅.cpuFirstAbs.get) = r.crossing s := by
    rw [hp, hp₀, hcpu]
    rfl
  have heq : chart r₅ = ((((chart r).note s.timeNs).ensure (s.pid, s.tid)
      (r.threadIds.id s.pid s.tid)).modCover (s.pid, s.tid) (Cover.extend s.timeNs)).addEvents
        rows := by
    rw [hevents, hchart₄, hchart₃, hchart]
  have hresult := Charted.sample (r := r) rows hrows
  rw [← heq, ← hpending, ringStart, ← hcpu] at hresult
  exact hfinal ▸ hresult

theorem retireThread_chart : chart (r.retireThread k abs) = (chart r).retire k := by
  cases hst : r.threads.get k with
  | none =>
    have hnone : (chart r).live k = none := congrArg (Option.map coverOf) hst
    simp only [retireThread, hst, Chart.retire, hnone]
  | some st =>
    have hcover : (chart r).live k = some (coverOf st) := congrArg (Option.map coverOf) hst
    have hlive : (fun k' => (FastMap.get (r.threads.erase k) k').map coverOf) =
        Function.update (chart r).live k none := by
      funext k'
      rw [FastMap.get_erase]
      by_cases hk : k' = k
      · rw [if_pos hk, hk, Function.update_self]
        rfl
      · rw [if_neg hk, Function.update_of_ne hk]
        rfl
    have hstack := emitStack_chart (r := { r with
      threads := r.threads.erase k
      threadOrder := r.threadOrder.filter (· ≠ k) }) st.id abs openCompleteness st.stack
    simp only [retireThread, hst, Chart.retire, hcover]
    rw [← hlive]
    generalize emitStack _ st.id abs openCompleteness st.stack = r₁ at hstack
    have hpast : { chart r₁ with past := (chart r₁).past ++ [coverOf st] } =
        { chart r with
          live := fun k' => (FastMap.get (r.threads.erase k) k').map coverOf
          past := (chart r).past ++ [coverOf st] } := by
      rw [hstack]
      rfl
    rw [← hpast]
    simp only [chart, eventRows, staleSpans, List.map_append]
    rfl

theorem noteComm_chart (comm : Option String) : chart (r.noteComm k comm) = chart r := by
  unfold noteComm
  split
  next c =>
    split
    next => exact modThread_chart (r := { r with comms := r.comms.insert k c }) (by intro st; rfl)
    next => rfl
  next => rfl

theorem pushTask_chart (t : TaskEvent) : Charted r (.task t) (chart (r.pushTask t)) := by
  unfold pushTask
  dsimp only
  rw [noteComm_chart]
  have hnote : chart { r.noteAbs t.timeNs with
      threadIds := (r.noteAbs t.timeNs).threadIds.observe (.task t) } =
      (chart r).note t.timeNs := noteAbs_chart t.timeNs
  generalize { r.noteAbs t.timeNs with
    threadIds := (r.noteAbs t.timeNs).threadIds.observe (.task t) } = r₁ at hnote
  unfold noteExit
  split
  next =>
    rw [retireThread_chart, hnote]
    exact .exit
  next =>
    rw [hnote]
    exact .quiet

theorem pushDecoderError_chart (e : DecoderErrorEvent) :
    Charted r (.decoderError e) (chart (r.pushDecoderError e)) := by
  have hkind : errorGapKind e.code ≠ .ringTruncation := by
    unfold errorGapKind
    split <;> decide
  unfold pushDecoderError
  dsimp only
  have hnote : chart (noteAbs { r with decoderErrors := r.decoderErrors + 1 } e.timeNs) =
      (chart r).note e.timeNs := noteAbs_chart e.timeNs
  have hids : (noteAbs { r with decoderErrors := r.decoderErrors + 1 } e.timeNs).threadIds =
      r.threadIds := congrArg Surroundings.threadIds (noteAbs_surroundings e.timeNs)
  generalize noteAbs { r with decoderErrors := r.decoderErrors + 1 } e.timeNs = r₁ at hnote hids
  split
  next pid tid hpid htid =>
    rw [interrupt_gap_chart _ _ _ _ hkind, thread_chart, hnote, hids]
    refine .error ?_
    rw [Ledger.namedKey, hpid, htid]
    rfl
  next =>
    rw [pushGap_chart _ _ _ _ _ hkind, hnote]
    exact .quiet

theorem accept_chart {rec : RawRecord} (h : r.accept rec = .ok r') :
    Charted r rec (chart r') := by
  cases rec with
  | sample s => exact pushSample_chart h
  | mmap m =>
    obtain rfl := Except.ok.inj h
    have heq : chart (r.pushMmap m) = (chart r).note m.timeNs := noteAbs_chart (r := r) m.timeNs
    rw [heq]
    exact .quiet
  | task t =>
    obtain rfl := Except.ok.inj h
    exact pushTask_chart t
  | switch pid tid time out =>
    obtain rfl := Except.ok.inj h
    rw [noteAbs_chart]
    exact .quiet
  | lost e =>
    obtain rfl := Except.ok.inj h
    have heq : chart r.pushLost = chart r :=
      pushGap_chart (r := { r with lostRecords := r.lostRecords + 1 }) _ _ _ _ _ (by decide)
    rw [heq]
    exact .quiet
  | decoderError e =>
    obtain rfl := Except.ok.inj h
    exact pushDecoderError_chart e

theorem noteCpuFirst_chart (rec : RawRecord) : chart (r.noteCpuFirst rec) = chart r := by
  unfold noteCpuFirst
  split
  next s =>
    split
    next =>
      split <;> rfl
    next => rfl
  next => rfl

/-- The filter has no part in it. -/
theorem Charted.filtered {f : Option PidTracker} {rec : RawRecord} {C : Chart}
    (h : Charted { r with pidFilter := f } rec C) : Charted r rec C := by
  cases h with
  | sample rows hrows => exact .sample rows hrows
  | error hkey => exact .error hkey
  | exit => exact .exit
  | quiet => exact .quiet

/-- A record the filter drops leaves the chart as it is; any other record does
to it what it does. -/
theorem push_chart {rec : RawRecord} (h : r.push rec = .ok r') :
    if r.drops rec then chart r' = chart r else Charted (r.noteCpuFirst rec) rec (chart r') := by
  unfold push at h
  have hcpu := noteCpuFirst_chart (r := r) rec
  have hfilter := noteCpuFirst_pidFilter (r := r) rec
  generalize r.noteCpuFirst rec = r₁ at h hcpu hfilter ⊢
  dsimp only at h
  rw [← hcpu, drops, ← hfilter]
  cases hf : r₁.pidFilter with
  | none =>
    rw [hf] at h
    exact accept_chart h
  | some f =>
    rw [hf] at h
    dsimp only at h
    cases hforeign : foreignPid (f.observe rec) rec with
    | none =>
      rw [hforeign] at h
      simp only [Option.any_some, hforeign, Option.isSome_none, Bool.false_eq_true, if_false]
      exact (accept_chart h).filtered
    | some p =>
      rw [hforeign] at h
      simp only [Option.any_some, hforeign, Option.isSome_some, if_true]
      dsimp only at h
      split at h
      next => cases h; rfl
      next => cases h; rfl

/-! ## The ends of a run -/

theorem Built.chart (h : Built r) : chart r = ⟨none, [], [], fun _ => none, [], []⟩ := by
  induction h with
  | new analysisId images build => rfl
  | withNote note _ ih => exact ih
  | withTrigger addr hits _ ih => exact ih
  | withPidFilter f _ ih => exact ih
  | withBudget bytes _ ih => exact ih
  | withInlineAttribution tools _ ih => exact ih
  | @withSpill r budget eventLen spanLen hr ih =>
    have hevents : r.events = [] :=
      (List.append_eq_nil_iff.mp (congrArg Chart.events ih)).1
    have hspans : r.spans = [] := by
      cases hsp : r.spill with
      | none =>
        have hrows := congrArg Ledger.spans hr.ledger
        simpa only [Decode.ledger, spanRows, hsp, Ledger.empty] using hrows
      | some sp =>
        have hstale := congrArg Chart.stale ih
        simpa only [Decode.chart, staleSpans, hsp] using hstale
    have heq : Decode.chart (r.withSpill budget eventLen spanLen) =
        { Decode.chart r with events := r.events ++ [], stale := r.spans } := rfl
    rw [heq, ih, hevents, hspans]
    rfl

theorem closeThread_chart : chart (r.closeThread k) = chart r := by
  unfold closeThread
  dsimp only
  rw [emitStack_chart]
  exact modThread_chart (by intro st; rfl)

/-- Closing the open frames leaves the chart as it is. -/
theorem closeAll_chart : chart r.closeAll = chart r := by
  unfold closeAll
  generalize r.threadOrder = ks
  induction ks generalizing r with
  | nil => rfl
  | cons k ks ih => rw [List.foldl_cons, ih, closeThread_chart]

end TraceMcp.Decode
