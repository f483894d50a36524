import TraceMcp.Decode.Records
import TraceMcp.Decode.Images

/-!
# Streaming call reconstruction

`src/decode/reconstruct.rs`: records are pushed one at a time; function
transfers become stored events, calls and returns become spans, and every
loss of continuity becomes a gap. Each thread keeps a stack of open frames
(innermost first here; the source's `Vec` grows at the other end), a pending
`tr end`, and its coverage segments (newest first here).

The source's long functions are cut at their own seams: `pushSample` into the
prologue, the time-regression check, the trigger, inline attribution and the
retention of the event; `applyFlow` into the settling of a pending trace end,
the boundary cases and the four kinds of transfer.

The resolved ends of a transfer, `from` and `to` in the source, are `src` and
`dst`. The DWARF loader and the instruction decoder are libraries:
`InlineTools` stands for them.
-/

namespace TraceMcp.Decode

open TraceMcp.Lib

/-! ## State -/

/-- `OpenSpan`: a frame of a thread's stack. -/
structure OpenSpan where
  id : LocalId
  function : Option LocalId
  parent : Option LocalId
  startAbs : Option Nat
  startEvent : LocalId
  completeness : SpanCompleteness
  callSite : Option Nat

/-- `PendingEnd`: a `tr end` whose stack has not been unwound yet. -/
structure PendingEnd where
  fromFn : Option LocalId
  fromLoc : Option LocalId
  abs : Option Nat
  cpu : Option Nat
  reason : String

/-- `ThreadState`. -/
structure ThreadState where
  id : ThreadId
  pid : Nat
  tid : Nat
  stack : List OpenSpan
  lastAbs : Option Nat
  lastSeq : Nat
  comm : Option String
  firstAbs : Option Nat
  branches : Nat
  retained : Nat
  spans : Nat
  gaps : Nat
  pendingEnd : Option PendingEnd
  segments : List (Nat × Nat)
  lastCpu : Option Nat
  blockStart : Option (Nat × Option Nat)

/-- `BlockInfo`: cached facts about one straight-line block. -/
structure BlockInfo where
  function : Option LocalId
  chainKey : Nat
  instructions : Nat

/-- `InlineAgg`; the counters are `u64`. -/
structure InlineAgg where
  instructions : Nat
  blocks : Nat
  elapsed : Nat

/-- One more block of `n` instructions that took `elapsed`. -/
def InlineAgg.add (e : InlineAgg) (n elapsed : Nat) : InlineAgg where
  instructions := (e.instructions + n) % wordSize
  blocks := (e.blocks + 1) % wordSize
  elapsed := (e.elapsed + elapsed) % wordSize

/-- `Resolved`: location, function and covering mapping of an address. -/
structure Resolved where
  loc : Option LocalId
  func : Option LocalId
  map : Option Nat

def Resolved.none : Resolved := ⟨.none, .none, .none⟩

/-- The libraries behind inline attribution: the number of instructions in a
byte slice from one address up to another (`iced_x86`), and the demangled
DWARF frames at an image address, innermost first (`addr2line`). -/
structure InlineTools where
  countInsns : List UInt8 → Nat → Nat → Nat
  frames : String → Nat → List String

/-- (thread, function, chain index) for inline aggregation. -/
abbrev InlineKey := Key × Option LocalId × Nat

/-- `InlineState`. The per-image loader cache is inside `tools`. -/
structure InlineState where
  tools : InlineTools
  chains : List (List String)
  chainIndex : FastMap (List String) Nat
  blocks : FastMap (Nat × Nat × Nat) BlockInfo
  agg : FastMap InlineKey InlineAgg
  blockCount : Nat

/-- `Spill`: rows written to disk while decoding, with the serialised length
of a row. Writing a line never fails here; exceeding the budget does. -/
structure Spill where
  budget : Nat
  eventLen : FlowEvent → Nat
  spanLen : FunctionSpan → Nat
  bytes : UInt64
  events : List FlowEvent
  spans : List FunctionSpan
  eventsN : Nat
  spansN : Nat

/-- `Reconstructor`. -/
structure Reconstructor where
  analysisId : String
  images : List ArchivedImage
  index : List ImageIndex
  mappings : List MappingRecord
  mappingAbs : List (Option Nat)
  mapsByPid : FastMap Nat (List Nat)
  threads : FastMap Key ThreadState
  threadOrder : List Key
  retired : List ThreadState
  threadIds : ThreadIds
  functions : List FunctionRecord
  funcIndex : FastMap (Nat × Nat) LocalId
  locations : List CodeLocation
  locIndex : FastMap (Nat × Nat) LocalId
  ipCache : FastMap (Nat × Nat) Resolved
  events : List FlowEvent
  spans : List FunctionSpan
  gaps : List GapRecord
  nextEvent : LocalId
  nextSpan : LocalId
  nextGap : LocalId
  decoderErrors : Nat
  missingImageSamples : Nat
  missingImagePaths : List String
  unwindMismatch : Nat
  unwindExamples : List String
  lostRecords : Nat
  timeUnknown : Nat
  samples : Nat
  minAbs : Option Nat
  budgetBytes : Nat
  cpuFirstAbs : FastMap Nat Nat
  ringHoles : Nat
  minTimeStep : Option Nat
  trigger : Option (Nat × Nat)
  triggerTraps : Nat
  triggerHitAbs : Option Nat
  curCallSite : Option Nat
  inline : Option InlineState
  spill : Option Spill
  extraNotes : List String
  eventsN : Nat
  spansN : Nat
  pidFilter : Option PidTracker
  foreignSamples : Nat
  foreignPids : Finset Nat
  comms : FastMap Key String

namespace Reconstructor

/-- `Reconstructor::new`; `build` is `ImageIndex::build`, the ELF library's view
of an image's bytes. -/
def new (analysisId : String) (images : List ArchivedImage) (build : List UInt8 → ImageIndex) :
    Reconstructor where
  analysisId := analysisId
  images := images
  index := images.map fun i => build i.bytes
  mappings := []
  mappingAbs := []
  mapsByPid := ∅
  threads := ∅
  threadOrder := []
  retired := []
  threadIds := .default
  functions := []
  funcIndex := ∅
  locations := []
  locIndex := ∅
  ipCache := ∅
  events := []
  spans := []
  gaps := []
  nextEvent := 0
  nextSpan := 0
  nextGap := 0
  decoderErrors := 0
  missingImageSamples := 0
  missingImagePaths := []
  unwindMismatch := 0
  unwindExamples := []
  lostRecords := 0
  timeUnknown := 0
  samples := 0
  minAbs := none
  budgetBytes := wordSize - 1
  cpuFirstAbs := ∅
  ringHoles := 0
  minTimeStep := none
  trigger := none
  triggerTraps := 0
  triggerHitAbs := none
  curCallSite := none
  inline := none
  spill := none
  extraNotes := []
  eventsN := 0
  spansN := 0
  pidFilter := none
  foreignSamples := 0
  foreignPids := ∅
  comms := ∅

def withNote (r : Reconstructor) (note : String) : Reconstructor :=
  { r with extraNotes := r.extraNotes ++ [note] }

def withTrigger (r : Reconstructor) (addr hits : Nat) : Reconstructor :=
  { r with trigger := some (addr, max hits 1) }

def withPidFilter (r : Reconstructor) (tracker : PidTracker) : Reconstructor :=
  { r with pidFilter := some tracker }

/-- `with_spill`; the two files start empty. -/
def withSpill (r : Reconstructor) (budget : Nat) (eventLen : FlowEvent → Nat)
    (spanLen : FunctionSpan → Nat) : Reconstructor :=
  { r with spill := some ⟨budget, eventLen, spanLen, 0, [], [], 0, 0⟩ }

def withBudget (r : Reconstructor) (bytes : Nat) : Reconstructor :=
  { r with budgetBytes := bytes }

def withInlineAttribution (r : Reconstructor) (tools : InlineTools) : Reconstructor :=
  { r with inline := some ⟨tools, [], ∅, ∅, ∅, 0⟩ }

/-! ## Emitting rows -/

/-- `Spill::check`. -/
def spillCheck (sp : Spill) : Result Unit :=
  if sp.bytes.toNat > sp.budget then
    .error ((Error.limit s!"derived artifact budget {sp.budget} exceeded while writing {sp.eventsN} events and {sp.spansN} spans").withNext
      "Capture with a smaller aux_bytes_per_buffer or fewer cpus")
  else .ok ()

/-- `emit_event`. -/
def emitEvent (r : Reconstructor) (ev : FlowEvent) : Result Reconstructor :=
  match r.spill with
  | some sp =>
    let sp := { sp with
      bytes := sp.bytes + UInt64.ofNat (sp.eventLen ev)
      events := sp.events ++ [ev]
      eventsN := sp.eventsN + 1 }
    let r := { r with eventsN := r.eventsN + 1, spill := some sp }
    if sp.eventsN % 65536 = 0 then (spillCheck sp).map fun _ => r else .ok r
  | none => .ok { r with eventsN := r.eventsN + 1, events := r.events ++ [ev] }

/-- `emit_span`. -/
def emitSpan (r : Reconstructor) (span : FunctionSpan) : Reconstructor :=
  match r.spill with
  | some sp =>
    { r with
      spansN := r.spansN + 1
      spill := some { sp with
        bytes := sp.bytes + UInt64.ofNat (sp.spanLen span)
        spans := sp.spans ++ [span]
        spansN := sp.spansN + 1 } }
  | none => { r with spansN := r.spansN + 1, spans := r.spans ++ [span] }

/-- `retained_bytes`: approximate resident bytes of the kept rows, a `u64`. -/
def retainedBytes (r : Reconstructor) : Nat :=
  (r.events.length * 96 + r.spans.length * 112 + r.locations.length * 128
    + r.functions.length * 256 + r.gaps.length * 128) % wordSize

/-- `note_abs`: the earliest nonzero time seen. -/
def noteAbs (r : Reconstructor) (t : Option Nat) : Reconstructor :=
  match t with
  | some t => if t ≠ 0 then { r with minAbs := some (r.minAbs.elim t (min · t)) } else r
  | none => r

/-! ## Threads -/

/-- The state `thread` gives a task on its first appearance. -/
def newThread (r : Reconstructor) (k : Key) : ThreadState where
  id := r.threadIds.id k.1 k.2
  pid := k.1
  tid := k.2
  stack := []
  lastAbs := none
  lastSeq := 0
  comm := r.comms.get k
  firstAbs := none
  branches := 0
  retained := 0
  spans := 0
  gaps := 0
  pendingEnd := none
  segments := []
  lastCpu := none
  blockStart := none

/-- The state of thread `k` (`self.threads[&k]`), or the one it would start
with. -/
def stateOf (r : Reconstructor) (k : Key) : ThreadState :=
  (r.threads.get k).getD (r.newThread k)

/-- `thread`: the entry of `k`, created on its first appearance. -/
def thread (r : Reconstructor) (k : Key) : Reconstructor :=
  match r.threads.get k with
  | some _ => r
  | none =>
    { r with
      threads := r.threads.insert k (r.newThread k)
      threadOrder := r.threadOrder ++ [k] }

/-- `threads.get_mut(&k)`, changed by `f`. -/
def modThread (r : Reconstructor) (k : Key) (f : ThreadState → ThreadState) : Reconstructor :=
  match r.threads.get k with
  | some st => { r with threads := r.threads.insert k (f st) }
  | none => r

/-! ## Gaps and spans -/

/-- `push_gap`. -/
def pushGap (r : Reconstructor) (thread : ThreadId) (kind : GapKind)
    (startAbs endAbs : Option Nat) (extentKnown : Bool) (reason : String) : Reconstructor :=
  { r with
    nextGap := nextId r.nextGap
    gaps := r.gaps ++ [
      { id := r.nextGap
        thread := thread
        kind := kind
        start := absTime startAbs
        stop := absTime endAbs
        extentKnown := extentKnown
        reason := reason }] }

/-- A gap of thread `k`, counted on it. -/
def recordGap (r : Reconstructor) (k : Key) (kind : GapKind) (startAbs endAbs : Option Nat)
    (extentKnown : Bool) (reason : String) : Reconstructor :=
  (r.pushGap (r.stateOf k).id kind startAbs endAbs extentKnown reason).modThread k
    fun st => { st with gaps := st.gaps + 1 }

/-- `push_open`. -/
def pushOpen (r : Reconstructor) (k : Key) (function : Option LocalId) (abs : Option Nat)
    (eid : LocalId) (completeness : SpanCompleteness) : Reconstructor :=
  { r with nextSpan := nextId r.nextSpan }.modThread k fun (st : ThreadState) =>
    { st with stack :=
      { id := r.nextSpan
        function := function
        parent := st.stack.head?.map OpenSpan.id
        startAbs := abs
        startEvent := eid
        completeness := completeness
        callSite := r.curCallSite } :: st.stack }

/-- `push_open` of a frame entered before its start was seen, when the place is
inside a known function. -/
def pushOpenIn (r : Reconstructor) (k : Key) (function : Option LocalId) (abs : Option Nat)
    (eid : LocalId) : Reconstructor :=
  match function with
  | some f => r.pushOpen k (some f) abs eid .openStart
  | none => r

/-- The row a frame becomes when it is closed. -/
def spanOf (thread : ThreadId) (o : OpenSpan) (endAbs : Option Nat) (endEvent : LocalId)
    (completeness : SpanCompleteness) : FunctionSpan where
  id := o.id
  thread := thread
  function := o.function
  parent := o.parent
  start := absTime o.startAbs
  stop := absTime endAbs
  completeness := completeness
  evidence := (o.startEvent, endEvent)
  callSite := o.callSite

/-- `close_span`. -/
def closeSpan (r : Reconstructor) (k : Key) (o : OpenSpan) (endAbs : Option Nat)
    (endEvent : LocalId) (completeness : SpanCompleteness) : Reconstructor :=
  (r.modThread k fun st => { st with spans := st.spans + 1 }).emitSpan
    (spanOf (r.stateOf k).id o endAbs endEvent completeness)

/-- The completeness of a frame still open when its thread or the capture ends. -/
def openCompleteness : SpanCompleteness → SpanCompleteness
  | .openStart | .openBoth => .openBoth
  | _ => .openEnd

/-- Emit every frame of `stack`, innermost first, as ended at `endAbs`. -/
def emitStack (r : Reconstructor) (thread : ThreadId) (endAbs : Option Nat)
    (completeness : SpanCompleteness → SpanCompleteness) (stack : List OpenSpan) :
    Reconstructor :=
  stack.foldl (fun r o =>
    r.emitSpan (spanOf thread o endAbs o.startEvent (completeness o.completeness))) r

/-- `retire_thread`: the task exited; its open frames close at `abs`. -/
def retireThread (r : Reconstructor) (k : Key) (abs : Option Nat) : Reconstructor :=
  match r.threads.get k with
  | none => r
  | some st =>
    let r := { r with
      threads := r.threads.erase k
      threadOrder := r.threadOrder.filter (· ≠ k) }
    let r := r.emitStack st.id abs openCompleteness st.stack
    { r with
      threadIds := (r.threadIds.takeExited k).1
      retired := r.retired ++ [{ st with
        stack := []
        spans := st.spans + st.stack.length
        pendingEnd := none }] }

/-- `interrupt_thread`: every open frame ends in a gap. -/
def interruptThread (r : Reconstructor) (k : Key) : Reconstructor :=
  match r.threads.get k with
  | none => r
  | some st =>
    (r.modThread k fun st => { st with stack := [], spans := st.spans + st.stack.length }).emitStack
      st.id none (fun _ => .interruptedByGap) st.stack

/-! ## Address resolution -/

/-- The newest mapping of `pid` covering `[lo, hi]`. -/
def findMapping (r : Reconstructor) (pid lo hi : Nat) : Option Nat :=
  (r.mapsByPid.get pid).bind fun maps => maps.reverse.find? fun i =>
    (r.mappings[i]?).any fun m => m.start ≤ lo && hi < m.stop

/-- The archived image recorded at `path`. -/
def imageAt (r : Reconstructor) (path : String) : Option Nat :=
  r.images.findIdx? fun i => i.identity.path = path

/-- The id of a function, allocated on first sight. -/
def internFunction (r : Reconstructor) (imageKey : Nat) (imageId : String) (fr : FuncRange) :
    Reconstructor × LocalId :=
  match r.funcIndex.get (imageKey, fr.start) with
  | some id => (r, id)
  | none =>
    let id := asU32 r.functions.length
    ({ r with
      funcIndex := r.funcIndex.insert (imageKey, fr.start) id
      functions := r.functions ++ [⟨id, fr.name, fr.demangled, imageId, fr.start, fr.stop⟩] }, id)

/-- The id of a location, allocated on first sight. -/
def internLocation (r : Reconstructor) (imageKey : Nat) (imageId : String) (rel ip : Nat)
    (func : Option LocalId) : Reconstructor × LocalId :=
  match r.locIndex.get (imageKey, rel) with
  | some id => (r, id)
  | none =>
    let id := asU32 r.locations.length
    ({ r with
      locIndex := r.locIndex.insert (imageKey, rel) id
      locations := r.locations ++ [⟨id, imageId, rel, some ip, func⟩] }, id)

/-- Count a sample in an unarchived mapping, once per path in the list. -/
def noteMissingImage (r : Reconstructor) (path : String) : Reconstructor :=
  if path ≠ "" ∧ path.toList.head? ≠ some '[' then
    { r with
      missingImageSamples := r.missingImageSamples + 1
      missingImagePaths :=
        if path ∈ r.missingImagePaths then r.missingImagePaths
        else r.missingImagePaths ++ [path] }
  else r

/-- `resolve_uncached`. -/
def resolveUncached (r : Reconstructor) (pid ip : Nat) : Reconstructor × Resolved :=
  match r.findMapping pid ip ip with
  | none => (r, .none)
  | some mapIdx =>
    match r.mappings[mapIdx]? with
    | none => (r, .none)
    | some map =>
      match r.imageAt map.path with
      | some ii =>
        let idx := (r.index[ii]?).getD ⟨[], []⟩
        let imageId := ((r.images[ii]?).map (·.identity.contentHash)).getD ""
        let rel := (idx.relativeAddr ip map.start map.pgoff).getD (ip - map.start)
        match idx.function rel with
        | some fr =>
          let (r, f) := r.internFunction (asU32 ii) imageId fr
          let (r, l) := r.internLocation (asU32 ii) imageId rel ip (some f)
          (r, ⟨some l, some f, some mapIdx⟩)
        | none =>
          let (r, l) := r.internLocation (asU32 ii) imageId rel ip none
          (r, ⟨some l, none, some mapIdx⟩)
      | none =>
        -- Keyed by mapping index, so distinct paths never collide with images.
        let r := r.noteMissingImage map.path
        let (r, l) := r.internLocation (2 ^ 32 - 1 - mapIdx) map.path (ip - map.start) ip none
        (r, ⟨some l, none, some mapIdx⟩)

/-- `resolve`: through the per-pid address cache. -/
def resolve (r : Reconstructor) (pid : Nat) (ip : Option Nat) : Reconstructor × Resolved :=
  match ip with
  | none => (r, .none)
  | some ip =>
    match r.ipCache.get (pid, ip) with
    | some res => (r, res)
    | none =>
      let (r, res) := r.resolveUncached pid ip
      ({ r with ipCache := r.ipCache.insert (pid, ip) res }, res)

/-! ## Inline attribution -/

/-- The index of a chain of inlined names, allocated on first sight. -/
def internChain (inl : InlineState) (chain : List String) : InlineState × Nat :=
  match inl.chainIndex.get chain with
  | some i => (inl, i)
  | none =>
    ({ inl with
      chains := inl.chains ++ [chain]
      chainIndex := inl.chainIndex.insert chain (asU32 inl.chains.length) },
      asU32 inl.chains.length)

/-- What a block `[start, stop]` of `pid` consists of, resolved from the
mappings: its function, its inline chain and its instruction count. -/
def describeBlock (r : Reconstructor) (inl : InlineState) (pid start stop : Nat) :
    Option (InlineState × BlockInfo) := do
  let mapIdx ← r.findMapping pid start stop
  let map ← r.mappings[mapIdx]?
  let ii ← r.imageAt map.path
  let idx ← r.index[ii]?
  let image ← r.images[ii]?
  let relStart ← idx.relativeAddr start map.start map.pgoff
  let relEnd ← idx.relativeAddr stop map.start map.pgoff
  let function := (idx.function relStart).bind fun fr => r.funcIndex.get (asU32 ii, fr.start)
  let off ← ImageIndex.fileOffset start map.start map.pgoff
  let offEnd ← ImageIndex.fileOffset stop map.start map.pgoff
  guard (offEnd < image.bytes.length)
  let sliceEnd := min (offEnd + 16) image.bytes.length
  let n := inl.tools.countInsns ((image.bytes.take sliceEnd).drop off) relStart relEnd
  -- The outermost frame is the symbol itself.
  let chain := (inl.tools.frames image.archivePath relStart).dropLast
  let (inl, chainKey) := internChain inl chain
  pure (inl, ⟨function, chainKey, n⟩)

/-- `attribute_block`: count a straight-line block on the inline chain at its
start. -/
def attributeBlock (r : Reconstructor) (k : Key) (pid start endIp : Nat) (t0 t1 : Option Nat) :
    Reconstructor :=
  match r.inline with
  | none => r
  | some inl =>
    if endIp < start ∨ endIp - start > 2 ^ 20 then r
    else
      let elapsed := match t0, t1 with
        | some a, some b => if a ≤ b then b - a else 0
        | _, _ => 0
      let found := match inl.blocks.get (pid, start, endIp) with
        | some info => some (inl, info)
        | none => (r.describeBlock inl pid start endIp).map fun ((inl, info) : InlineState × BlockInfo) =>
          (if inl.blocks.entries.length < 4000000 then
            { inl with blocks := inl.blocks.insert (pid, start, endIp) info } else inl, info)
      match found with
      | none => r
      | some (inl, info) =>
        let key : InlineKey := (k, info.function, info.chainKey)
        let e := (inl.agg.get key).getD ⟨0, 0, 0⟩
        { r with inline := some { inl with
          blockCount := inl.blockCount + 1
          agg := inl.agg.insert key (e.add info.instructions elapsed) } }

/-! ## Applying one sample to its thread -/

/-- Whether the thread resumed on a CPU whose ring does not reach back to its
trace end. -/
def ringHole (pending : PendingEnd) (cpu cpuFirst : Option Nat) : Bool :=
  cpu.isSome && cpu ≠ pending.cpu && match pending.abs, cpuFirst with
    | some left, some first => decide (left < first)
    | some _, none => true
    | none, _ => false

def showCpu : Option Nat → String
  | some c => toString c
  | none => "?"

/-- Cut the coverage at a ring hole and start a new segment. -/
def cutSegments (pending : PendingEnd) (abs : Option Nat) (st : ThreadState) : ThreadState :=
  match abs with
  | none => st
  | some t =>
    { st with segments := (t, t) :: match st.segments, pending.abs with
      | seg :: rest, some left => (seg.1, left) :: rest
      | segs, _ => segs }

/-- Execution in between was overwritten: end continuity and note the hole. -/
def crossRingHole (r : Reconstructor) (k : Key) (pending : PendingEnd)
    (abs cpu cpuFirst : Option Nat) : Reconstructor :=
  let r := { r with ringHoles := r.ringHoles + 1 }
  let r := r.interruptThread k
  let holeEnd := cpuFirst.or abs
  let r := r.recordGap k .ringTruncation pending.abs holeEnd
    (pending.abs.isSome && holeEnd.isSome)
    s!"thread moved from cpu {showCpu pending.cpu} to cpu {showCpu cpu}; execution in between was overwritten in the AUX ring"
  r.modThread k (cutSegments pending abs)

/-- Kernel work in between: the stack is preserved. A history that began
mid-function has no frame yet, and gets one. -/
def resumeHere (r : Reconstructor) (k : Key) (pending : PendingEnd) (dst : Resolved)
    (abs : Option Nat) (eid : LocalId) : Reconstructor :=
  let r := r.recordGap k .traceBoundary pending.abs abs
    (pending.abs.isSome && abs.isSome) pending.reason
  if (r.stateOf k).stack.isEmpty then r.pushOpenIn k dst.func (pending.abs.or abs) eid else r

/-- Continuity ended somewhere during a trace end. -/
def loseContinuity (r : Reconstructor) (k : Key) (pending : PendingEnd) (abs : Option Nat)
    (what : String) : Reconstructor :=
  (r.interruptThread k).recordGap k .unknown pending.abs abs false
    s!"{pending.reason}; {what}"

/-- The first part of `apply_flow`: settle a pending `tr end`. The flag says
whether the sample is used up by it. -/
def settlePending (r : Reconstructor) (k : Key) (boundary : BoundaryFlags)
    (src dst : Resolved) (abs cpu : Option Nat) (eid : LocalId) : Reconstructor × Bool :=
  match (r.stateOf k).pendingEnd with
  | none => (r, false)
  | some pending =>
    let r := r.modThread k fun st => { st with pendingEnd := none }
    let cpuFirst := cpu.bind r.cpuFirstAbs.get
    if ringHole pending cpu cpuFirst then
      let r := r.crossRingHole k pending abs cpu cpuFirst
      if boundary.traceBegin then (r.pushOpenIn k (dst.func.or src.func) abs eid, true)
      else (r, false)
    else if boundary.traceBegin then
      if pending.fromFn.isSome ∧ dst.func = pending.fromFn then
        (r.resumeHere k pending dst abs eid, true)
      else
        ((r.loseContinuity k pending abs "resumed elsewhere").pushOpenIn k
          (dst.func.or src.func) abs eid, true)
    else (r.loseContinuity k pending abs "no trace start before next sample", false)

/-- Why a trace ended. -/
def endReason (b : BoundaryFlags) : String :=
  if b.syscall then "syscall"
  else if b.asyncEvent then "async"
  else if b.interrupt then "interrupt"
  else "trace end"

/-- The boundary cases of `apply_flow`. -/
def applyBoundary (r : Reconstructor) (k : Key) (boundary : BoundaryFlags)
    (src dst : Resolved) (abs cpu : Option Nat) (eid : LocalId) : Reconstructor :=
  if boundary.traceEnd then
    r.modThread k fun st => { st with
      pendingEnd := some ⟨src.func, src.loc, abs, cpu, endReason boundary⟩ }
  else if boundary.asyncEvent || boundary.interrupt || boundary.transaction then
    -- Control moved somewhere not followed.
    (r.interruptThread k).recordGap k .unknown abs none false "async or interrupt transfer"
  else if boundary.traceBegin then
    if (r.stateOf k).stack.isEmpty then r.pushOpenIn k (dst.func.or src.func) abs eid else r
  else r

/-- The name of a function, for the unwind examples. -/
def functionName (r : Reconstructor) (id : Option LocalId) : String :=
  ((id.bind fun i => r.functions[i]?).map (·.demangled)).getD "<unknown>"

/-- Compare the frame a return landed in with the reconstructed caller. -/
def noteUnwind (r : Reconstructor) (k : Key) (src dst : Resolved) : Reconstructor :=
  match ((r.stateOf k).stack.head?).map (·.function), dst.func with
  | some (some top), some t =>
    if top ≠ t then
      { r with
        unwindMismatch := r.unwindMismatch + 1
        unwindExamples :=
          if r.unwindExamples.length < 5 then
            r.unwindExamples ++ [s!"return from {r.functionName src.func} landed in {r.functionName (some t)} but the open frame is {r.functionName (some top)}"]
          else r.unwindExamples }
    else r
  | _, _ => r

/-- A return without an open frame: its span is known only at its end, and the
caller becomes the open context. -/
def orphanReturn (r : Reconstructor) (k : Key) (src dst : Resolved) (abs : Option Nat)
    (eid : LocalId) : Reconstructor :=
  let id := r.nextSpan
  let r := { r with nextSpan := nextId r.nextSpan }.modThread k fun st =>
    { st with spans := st.spans + 1 }
  let r := r.emitSpan
    { id := id
      thread := (r.stateOf k).id
      function := src.func
      parent := none
      start := .unknown
      stop := absTime abs
      completeness := .uncertainUnwind
      evidence := (eid, eid)
      callSite := none }
  r.pushOpenIn k dst.func abs eid

/-- The completeness of a frame closed by its own return. -/
def returnCompleteness (c : SpanCompleteness) : SpanCompleteness :=
  if c = .openStart then .openBoth else .complete

/-- The `Return` case of `apply_flow`. -/
def applyReturn (r : Reconstructor) (k : Key) (src dst : Resolved) (abs : Option Nat)
    (eid : LocalId) : Reconstructor :=
  match (r.stateOf k).stack with
  | [] => r.orphanReturn k src dst abs eid
  | o :: rest =>
    let r := r.modThread k fun st => { st with stack := rest }
    let r := r.closeSpan k o abs eid (returnCompleteness o.completeness)
    r.noteUnwind k src dst

/-- Give the innermost frame another parent. -/
def reparentTop (parent : Option LocalId) : List OpenSpan → List OpenSpan
  | top :: rest => { top with parent := parent } :: rest
  | [] => []

/-- A tail call: the current frame ends and the target inherits its parent. -/
def tailCall (r : Reconstructor) (k : Key) (target : LocalId) (abs : Option Nat)
    (eid : LocalId) : Reconstructor :=
  let popped := (r.stateOf k).stack.head?
  let r := r.modThread k fun st => { st with stack := st.stack.tail }
  let r := match popped with
    | some o => r.closeSpan k o abs eid .uncertainUnwind
    | none => r
  let r := r.pushOpen k (some target) abs eid .openStart
  r.modThread k fun st => { st with stack := reparentTop (popped.bind (·.parent)) st.stack }

/-- A call landed in an unsymbolized stub that jumps into a named function:
name the open frame. -/
def nameTop (f : LocalId) : List OpenSpan → List OpenSpan
  | top :: rest => { top with function := some f } :: rest
  | [] => []

/-- The `Jump` and `Conditional` case of `apply_flow`. -/
def applyJump (r : Reconstructor) (k : Key) (src dst : Resolved) (abs : Option Nat)
    (eid : LocalId) : Reconstructor :=
  match src.func, dst.func with
  | some a, some b => if a ≠ b then r.tailCall k b abs eid else r
  | none, some b =>
    if ((r.stateOf k).stack.head?).map (·.function) = some none then
      r.modThread k fun st => { st with stack := nameTop b st.stack }
    else r
  | _, none => r

/-- `apply_flow`. -/
def applyFlow (r : Reconstructor) (k : Key) (kind : FlowKind) (boundary : BoundaryFlags)
    (src dst : Resolved) (abs cpu : Option Nat) (eid : LocalId) : Reconstructor :=
  let (r, settled) := r.settlePending k boundary src dst abs cpu eid
  if settled then r
  else if boundary.takesPrecedence then r.applyBoundary k boundary src dst abs cpu eid
  else match kind with
    | .call => r.pushOpen k dst.func abs eid .openEnd
    | .ret => r.applyReturn k src dst abs eid
    | .jump | .conditional => r.applyJump k src dst abs eid
    | .traceBegin | .traceEnd | .asyncBoundary => r

/-! ## Pushing a record -/

/-- What a sample changes on its own thread before anything is decided. -/
def touchThread (s : Sample) (st : ThreadState) : ThreadState :=
  { st with
    branches := st.branches + 1
    lastSeq := st.lastSeq + 1
    firstAbs := if st.firstAbs.isNone then s.timeNs else st.firstAbs
    segments := match s.timeNs with
      | none => st.segments
      | some t => match st.segments with
        | seg :: rest => (seg.1, max seg.2 t) :: rest
        | [] => [(t, t)]
    lastCpu := s.cpu.or st.lastCpu }

/-- The prologue of `push_sample`. -/
def beginSample (r : Reconstructor) (s : Sample) : Reconstructor :=
  let r := { r with samples := r.samples + 1 }.noteAbs s.timeNs
  let r := if s.timeNs.isNone then { r with timeUnknown := r.timeUnknown + 1 } else r
  (r.thread (s.pid, s.tid)).modThread (s.pid, s.tid) (touchThread s)

/-- Time went backwards between `prev` and `now`. -/
def regresses (prev now : Option Nat) : Bool :=
  match prev, now with
  | some p, some n => decide (n < p)
  | _, _ => false

/-- A time regression is a discontinuity, never clamped. -/
def checkRegression (r : Reconstructor) (k : Key) (prev now : Option Nat) : Reconstructor :=
  if regresses prev now then
    (r.interruptThread k).recordGap k .timeRegression prev now true "time regression"
  else r

/-- The smallest positive time step, and the thread's last time. -/
def noteTime (r : Reconstructor) (k : Key) (prev now : Option Nat) : Reconstructor :=
  match now with
  | none => r
  | some t =>
    let r := match prev with
      | some p =>
        if p < t then
          { r with minTimeStep := some (r.minTimeStep.elim (t - p) (min · (t - p))) }
        else r
      | none => r
    r.modThread k fun st => { st with lastAbs := some t }

/-- The trap of a symbol trigger, seen as a boundary leaving its address. -/
def noteTrigger (r : Reconstructor) (s : Sample) (boundary : BoundaryFlags) : Reconstructor :=
  match r.trigger with
  | some (addr, _) =>
    if s.ip = some addr ∧ (boundary.traceEnd || boundary.interrupt || boundary.asyncEvent) then
      { r with
        triggerTraps := r.triggerTraps + 1
        triggerHitAbs := if s.timeNs.isSome then s.timeNs else r.triggerHitAbs }
    else r
  | none => r

/-- Attribute the block this branch terminates and start the next one. -/
def attributeSample (r : Reconstructor) (k : Key) (s : Sample) (boundary : BoundaryFlags) :
    Reconstructor :=
  if r.inline.isNone then r
  else
    let prev := (r.stateOf k).blockStart
    let r := match prev, s.ip with
      | some (bs, t0), some ip =>
        if boundary.traceBegin then r else r.attributeBlock k s.pid bs ip t0 s.timeNs
      | _, _ => r
    let next := if boundary.traceEnd || boundary.asyncEvent || boundary.interrupt then none
      else (s.addr.filter (· ≠ 0)).map fun a => (a, s.timeNs)
    r.modThread k fun st => { st with blockStart := next }

/-- A plain jump inside one function (or, without function evidence, inside one
mapping) is counted but not kept. -/
def isIntra (kind : FlowKind) (boundary : BoundaryFlags) (src dst : Resolved) : Bool :=
  (kind = .jump ∨ kind = .conditional) && !boundary.any && decide (src.func = dst.func) &&
    (src.func.isSome ||
      (decide (src.map = dst.map) && (decide (kind = .conditional) || src.map.isNone)))

/-- Keep the sample as a flow event unless it is a plain intra-function jump. -/
def retainEvent (r : Reconstructor) (k : Key) (s : Sample) (kind : FlowKind)
    (boundary : BoundaryFlags) (src dst : Resolved) (eid : LocalId) : Result Reconstructor :=
  if isIntra kind boundary src dst then .ok r
  else do
    let st := r.stateOf k
    let r ← r.emitEvent
      { id := eid
        thread := st.id
        sequence := st.lastSeq
        time := absTime s.timeNs
        fromLoc := src.loc
        toLoc := dst.loc
        kind := kind
        boundary := boundary
        virtFrom := s.ip
        virtTo := s.addr }
    pure (r.modThread k fun st => { st with retained := st.retained + 1 })

/-- The resident budget, looked at every 65536 samples. -/
def checkBudget (r : Reconstructor) : Result Reconstructor :=
  if r.samples % 65536 = 0 ∧ r.retainedBytes > r.budgetBytes then
    .error ((Error.limit s!"resident decode budget {r.budgetBytes} exceeded after {r.samples} samples ({r.events.length} events, {r.spans.length} spans, {r.locations.length} locations resident)").withNext
      "Capture with a smaller aux_bytes_per_buffer or fewer cpus")
  else .ok r

/-- `push_sample`. -/
def pushSample (r : Reconstructor) (s : Sample) : Result Reconstructor := do
  let k : Key := (s.pid, s.tid)
  let r := r.beginSample s
  let prev := (r.stateOf k).lastAbs
  let r := r.checkRegression k prev s.timeNs
  let r := r.noteTime k prev s.timeNs
  let boundary := flagsBoundary s.flags
  let kind := flagsKind s.flags
  let r := r.noteTrigger s boundary
  let (r, src) := r.resolve s.pid s.ip
  let (r, dst) := r.resolve s.pid s.addr
  let r := r.attributeSample k s boundary
  let eid := r.nextEvent
  let r := { r with nextEvent := nextId r.nextEvent }
  let r ← r.retainEvent k s kind boundary src dst eid
  let r := { r with curCallSite := if kind = FlowKind.call then s.ip else none }
  let r := r.applyFlow k kind boundary src dst s.timeNs s.cpu eid
  checkBudget { r with curCallSite := none }

/-- `push` on a mapping record. -/
def pushMmap (r : Reconstructor) (m : MmapEvent) : Reconstructor :=
  let r := r.noteAbs m.timeNs
  let idx := asU32 r.mappings.length
  { r with
    mappings := r.mappings ++ [
      { generation := idx
        pid := m.pid
        start := m.start
        stop := satAdd m.start m.len
        pgoff := m.pgoff
        prot := m.prot
        path := m.path
        buildId := (r.images.find? fun i => i.identity.path = m.path).bind (·.identity.buildId)
        validFrom := .unknown
        validTo := none }]
    mappingAbs := r.mappingAbs ++ [m.timeNs.filter (· ≠ 0)]
    mapsByPid := r.mapsByPid.insert m.pid ((r.mapsByPid.get m.pid).getD [] ++ [idx])
    ipCache := FastMap.retain (fun (key : Nat × Nat) _ => key.1 ≠ m.pid) r.ipCache }

/-- Remember the name of task `k`, also on a thread it already has. -/
def noteComm (r : Reconstructor) (k : Key) (comm : Option String) : Reconstructor :=
  match comm with
  | some c =>
    if k.1 ≠ 0 ∧ c ≠ "perf-exec" then
      { r with comms := r.comms.insert k c }.modThread k fun st => { st with comm := some c }
    else r
  | none => r

/-- The exit of a task that has a thread retires it. -/
def noteExit (r : Reconstructor) (t : TaskEvent) : Reconstructor :=
  if t.kind = .exit ∧ (r.threads.get (t.pid, t.tid)).isSome then
    r.retireThread (t.pid, t.tid) t.timeNs
  else r

/-- `push` on a task record. -/
def pushTask (r : Reconstructor) (t : TaskEvent) : Reconstructor :=
  let r := r.noteAbs t.timeNs
  let r := { r with threadIds := r.threadIds.observe (.task t) }
  (r.noteExit t).noteComm (t.pid, t.tid) t.comm

/-- `push` on a loss record. -/
def pushLost (r : Reconstructor) : Reconstructor :=
  { r with lostRecords := r.lostRecords + 1 }.pushGap .unknown .ptLoss none none false
    "PERF_RECORD_LOST"

/-- The gap kind of a decoder error. -/
def errorGapKind (code : Option Nat) : GapKind :=
  if code = some 5 then .missingImage else .decoderError

/-- `push` on a decoder error: it interrupts the thread it names; without one
the loss is recorded without guessing which stack it interrupted. -/
def pushDecoderError (r : Reconstructor) (e : DecoderErrorEvent) : Reconstructor :=
  let r := { r with decoderErrors := r.decoderErrors + 1 }.noteAbs e.timeNs
  match e.pid, e.tid with
  | some pid, some tid =>
    ((r.thread (pid, tid)).interruptThread (pid, tid)).recordGap (pid, tid)
      (errorGapKind e.code) e.timeNs none false e.message
  | _, _ => r.pushGap .unknown (errorGapKind e.code) e.timeNs none false e.message

/-- The pid a record is dropped for by the process-tree filter, if it is. -/
def foreignPid (f : PidTracker) : RawRecord → Option Nat
  | .sample s => if f.isLiveThread s.pid s.tid then none else some s.pid
  | .decoderError e => e.pid.filter fun p => !(e.tid.any fun t => f.isLiveThread p t)
  | .mmap m => if f.mappingIsLive m then none else some m.pid
  | .task t => if f.contains t.pid then none else some t.pid
  | _ => none

/-- Whether the process-tree filter drops a record. -/
def drops (r : Reconstructor) (rec : RawRecord) : Bool :=
  r.pidFilter.any fun f => (foreignPid (f.observe rec) rec).isSome

/-- Where each CPU's ring starts, from every sample, foreign ones included. -/
def noteCpuFirst (r : Reconstructor) : RawRecord → Reconstructor
  | .sample s => match s.cpu, s.timeNs with
    | some cpu, some t =>
      if (r.cpuFirstAbs.get cpu).isSome then r
      else { r with cpuFirstAbs := r.cpuFirstAbs.insert cpu t }
    | _, _ => r
  | _ => r

/-- A record that passed the filter. -/
def accept (r : Reconstructor) : RawRecord → Result Reconstructor
  | .mmap m => .ok (r.pushMmap m)
  | .task t => .ok (r.pushTask t)
  | .switch _ _ timeNs _ => .ok (r.noteAbs timeNs)
  | .lost _ => .ok r.pushLost
  | .decoderError e => .ok (r.pushDecoderError e)
  | .sample s => r.pushSample s

/-- `push`. -/
def push (r : Reconstructor) (rec : RawRecord) : Result Reconstructor :=
  let r := r.noteCpuFirst rec
  match r.pidFilter with
  | none => r.accept rec
  | some f =>
    let f := f.observe rec
    let r := { r with pidFilter := some f }
    match foreignPid f rec with
    | none => r.accept rec
    | some p => match rec with
      | .sample _ =>
        .ok { r with
          foreignSamples := r.foreignSamples + 1
          foreignPids := if r.foreignPids.card < 64 then insert p r.foreignPids
            else r.foreignPids }
      | _ => .ok r

/-- A whole record stream, pushed in order; the first error ends it. -/
def pushAll (r : Reconstructor) (recs : List RawRecord) : Result Reconstructor :=
  recs.foldlM push r

end Reconstructor

end TraceMcp.Decode
