import TraceMcp.Decode.Reconstruct

/-!
# Finishing an analysis

`Reconstructor::finish`: frames still open are closed, every stored absolute
time is rebased onto the earliest time of the capture, and the tables and
quality counters of the analysis are assembled. The wording of the quality
notes is presentation; `Note` keeps the data they are made of.
-/

namespace TraceMcp.Decode

open TraceMcp.Lib

/-- One quality note, as the data its text is made of. -/
inductive Note
  | caller (text : String)
  | samplesDecoded (samples retained : Nat)
  | lostRecords (n : Nat)
  | foreignSamples (samples pids : Nat)
  | ringHoles (n : Nat)
  | timeUnknown (n : Nat)
  | missingImages (samples : Nat) (paths : List String)
  | unwindMismatch (n : Nat) (examples : List String)
  | historyStart
  | triggerObserved (hits addr atNs traps pastNs : Nat)
  | triggerMissing (addr traps hits : Nat)
  | granularity (stepNs : Nat)
  | granularityUnknown
  | durationsAreEstimates
  | inlineBlocks (n : Nat)
  deriving DecidableEq

/-- `QualityReport`. -/
structure QualityReport where
  timing : TimeQuality
  gapCount : Nat
  incompleteSpanCount : Nat
  missingImageCount : Nat
  decoderErrorCount : Nat
  ringTruncation : Bool
  undecodablePrefix : Bool
  notes : List Note
  gapsByKind : FastMap String Nat

/-- `AnalysisIr`: the finished analysis. The origin is its absolute time; a
spilled analysis has its rows in `spilled` instead of `events` and `spans`. -/
structure AnalysisIr where
  analysisId : String
  origin : Nat
  threads : List ThreadLifetime
  functions : List FunctionRecord
  locations : List CodeLocation
  events : List FlowEvent
  spans : List FunctionSpan
  gaps : List GapRecord
  mappings : List MappingRecord
  quality : QualityReport
  inlineRows : List InlineRow
  samplesKept : Nat
  eventCount : Nat
  spanCount : Nat
  spilled : Option (List FlowEvent × List FunctionSpan)
  triggerHitNs : Option Nat

/-- `rebase`: a time relative to the origin; an earlier time is an error. -/
def rebase (t : EventTime) (origin : Nat) : Result EventTime :=
  match t.relativeNs with
  | none => .ok t
  | some abs =>
    match checkedSub abs origin with
    | some d => .ok { t with relativeNs := some d }
    | none => .error (.decodeFailed s!"timestamp {abs} precedes snapshot origin {origin}")

/-- `rel_time`. -/
def relTime (abs : Option Nat) (origin : Nat) : EventTime :=
  match abs with
  | none => .unknown
  | some t => .estimate (t - origin)

def rebaseEvent (origin : Nat) (e : FlowEvent) : Result FlowEvent := do
  let time ← rebase e.time origin
  pure { e with time := time }

def rebaseSpan (origin : Nat) (s : FunctionSpan) : Result FunctionSpan := do
  let start ← rebase s.start origin
  let stop ← rebase s.stop origin
  pure { s with start := start, stop := stop }

def rebaseGap (origin : Nat) (g : GapRecord) : Result GapRecord := do
  let start ← rebase g.start origin
  let stop ← rebase g.stop origin
  pure { g with start := start, stop := stop }

/-- The mappings with the times they are valid from. -/
def datedMappings (maps : List MappingRecord) (abs : List (Option Nat)) (origin : Nat) :
    List MappingRecord :=
  match maps, abs with
  | m :: ms, a :: as => { m with validFrom := relTime a origin } :: datedMappings ms as origin
  | ms, _ => ms

/-- A row of the thread table. -/
def lifetimeOf (origin : Nat) (t : ThreadState) : ThreadLifetime where
  id := t.id
  pid := t.pid
  tid := t.tid
  start := relTime t.firstAbs origin
  stop := t.lastAbs.map fun a => relTime (some a) origin
  comm := t.comm
  branchCount := t.branches
  eventCount := t.retained
  spanCount := t.spans
  gapCount := t.gaps
  coveredNs := (t.segments.map fun seg => seg.2 - seg.1).sum
  segmentCount := t.segments.length
  -- `MAX_SEGMENTS_LISTED` oldest segments; the count above is exact.
  segments := (t.segments.reverse.take 32).map fun seg => (seg.1 - origin, seg.2 - origin)

/-- Lexicographic order of inline chains. -/
def chainLe : List String → List String → Bool
  | [], _ => true
  | _ :: _, [] => false
  | a :: as, b :: bs => a < b || (a == b && chainLe as bs)

/-- The row order of inline attribution: most instructions first. -/
def inlineRowLe (a b : InlineRow) : Bool :=
  b.instructions < a.instructions || (a.instructions == b.instructions && chainLe a.chain b.chain)

/-- Gap records counted per kind. -/
def countByKind (gaps : List GapRecord) : FastMap String Nat :=
  gaps.foldl (fun m g => m.insert g.kind.name ((FastMap.get m g.kind.name).getD 0 + 1)) ∅

namespace Reconstructor

/-- A trailing `tr end` with nothing after it: the stack was open at the end
of the snapshot, not interrupted. -/
def closeThread (r : Reconstructor) (k : Key) : Reconstructor :=
  let st := r.stateOf k
  (r.modThread k fun st => { st with
    stack := []
    spans := st.spans + st.stack.length
    pendingEnd := none }).emitStack st.id none openCompleteness st.stack

/-- Close the open frames of every live thread. -/
def closeAll (r : Reconstructor) : Reconstructor := r.threadOrder.foldl closeThread r

/-- Snapshot-relative time of the last timed sample of any live thread. -/
def lastNs (r : Reconstructor) (origin : Nat) : Nat :=
  (((r.threads.values.filterMap (·.lastAbs)).max?).getD origin) - origin

/-- The note about the symbol trigger, when one was set. -/
def triggerNote (r : Reconstructor) (origin : Nat) : List Note :=
  match r.trigger with
  | none => []
  | some (addr, hits) =>
    match r.triggerHitAbs.map (· - origin) with
    | some t => [.triggerObserved hits addr t r.triggerTraps (r.lastNs origin - t)]
    | none => [.triggerMissing addr r.triggerTraps hits]

def notes (r : Reconstructor) (origin : Nat) : List Note :=
  r.extraNotes.map .caller
    ++ [.samplesDecoded r.samples r.eventsN]
    ++ (if r.lostRecords > 0 then [.lostRecords r.lostRecords] else [])
    ++ (if r.foreignSamples > 0 then [.foreignSamples r.foreignSamples r.foreignPids.card] else [])
    ++ (if r.ringHoles > 0 then [.ringHoles r.ringHoles] else [])
    ++ (if r.timeUnknown > 0 then [.timeUnknown r.timeUnknown] else [])
    ++ (if r.missingImagePaths ≠ [] then
          [.missingImages r.missingImageSamples r.missingImagePaths] else [])
    ++ (if r.unwindMismatch > 0 then [.unwindMismatch r.unwindMismatch r.unwindExamples] else [])
    ++ [.historyStart]
    ++ r.triggerNote origin
    ++ [match r.minTimeStep with
        | some step => .granularity step
        | none => .granularityUnknown]
    ++ [.durationsAreEstimates]
    ++ (match r.inline with
        | some inl => [.inlineBlocks inl.blockCount]
        | none => [])

/-- The thread an inline row is shown under. -/
def inlineThread (r : Reconstructor) (k : Key) : ThreadId :=
  match r.threads.get k with
  | some t => t.id
  | none =>
    match r.retired.find? fun t => t.pid = k.1 ∧ t.tid = k.2 with
    | some t => t.id
    | none => .task k.2 0

def inlineRows (r : Reconstructor) : List InlineRow :=
  match r.inline with
  | none => []
  | some inl =>
    (inl.agg.entries.map fun e =>
      { thread := r.inlineThread e.1.1
        function := e.1.2.1
        chain := (inl.chains[e.1.2.2]?).getD []
        instructions := e.2.instructions
        blocks := e.2.blocks
        elapsedNs := e.2.elapsed : InlineRow }).mergeSort inlineRowLe

/-- The thread table: exited threads in exit order, then the live ones. -/
def threadList (r : Reconstructor) (origin : Nat) : List ThreadLifetime :=
  (r.retired ++ r.threadOrder.map r.stateOf).map (lifetimeOf origin)

def incomplete (spans : List FunctionSpan) : Nat :=
  (spans.filter fun s => s.completeness ≠ .complete).length

/-- The snapshot origin: the earliest time of the capture. -/
def origin (r : Reconstructor) : Result Nat :=
  match r.minAbs with
  | some t => .ok t
  | none => .error (.decodeFailed
      "no usable timestamps in capture; cannot establish snapshot origin")

/-- The rebased copies of the spilled rows. -/
def finishSpill (r : Reconstructor) (origin : Nat) :
    Result (Option (List FlowEvent × List FunctionSpan)) :=
  match r.spill with
  | none => .ok none
  | some sp => do
    spillCheck sp
    let events ← sp.events.mapM (rebaseEvent origin)
    let spans ← sp.spans.mapM (rebaseSpan origin)
    pure (some (events, spans))

/-- `finish`. -/
def finish (r : Reconstructor) : Result AnalysisIr := do
  let origin ← r.origin
  let r := r.closeAll
  let events ← r.events.mapM (rebaseEvent origin)
  let spans ← r.spans.mapM (rebaseSpan origin)
  let spilled ← r.finishSpill origin
  let gaps ← r.gaps.mapM (rebaseGap origin)
  let spans := spans.mergeSort fun a b => a.id ≤ b.id
  pure
    { analysisId := r.analysisId
      origin := origin
      threads := r.threadList origin
      functions := r.functions
      locations := r.locations
      events := events
      spans := spans
      gaps := gaps
      mappings := datedMappings r.mappings r.mappingAbs origin
      quality :=
        { timing := .decoderEstimate
          gapCount := gaps.length
          incompleteSpanCount := incomplete spans + incomplete ((spilled.map (·.2)).getD [])
          missingImageCount := r.missingImagePaths.length
          decoderErrorCount := r.decoderErrors
          ringTruncation := r.lostRecords > 0 || r.ringHoles > 0
          undecodablePrefix := false
          notes := r.notes origin
          gapsByKind := countByKind gaps }
      inlineRows := r.inlineRows
      samplesKept := r.samples
      eventCount := r.eventsN
      spanCount := r.spansN
      spilled := spilled
      triggerHitNs := r.triggerHitAbs.map (· - origin) }

end Reconstructor

/-- `reconstruct`: an analysis from an in-memory record list. -/
def reconstruct (analysisId : String) (images : List ArchivedImage)
    (build : List UInt8 → ImageIndex) (records : List RawRecord) : Result AnalysisIr := do
  let r ← (Reconstructor.new analysisId images build).pushAll records
  r.finish

/-! ## Small streams

Inputs for the runs on concrete streams that go with the theorems. -/

/-- A branch of task `(7, tid)` on CPU 0. -/
def branchAt (tid time : Nat) (flags : Flags) (ip addr : Nat) : RawRecord :=
  .sample ⟨7, tid, some 0, some time, .branches, some ip, some addr, flags, none, .empty⟩

/-- A decoder error naming task `(7, tid)`. -/
def errorAt (tid time : Nat) : RawRecord :=
  .decoderError ⟨some time, some 0, some 7, some tid, none, some 6, "trace mismatch"⟩

/-- A reconstructor without images. -/
def bare : Reconstructor := .new "a" [] fun _ => ⟨[], []⟩

/-- A reconstructor with one image, of two functions. -/
def traced : Reconstructor :=
  .new "a" [⟨⟨"/bin/p", "h", none, true⟩, "p", []⟩]
    fun _ => ⟨[], [⟨"f", "f", 0, 0x1000⟩, ⟨"g", "g", 0x1000, 0x2000⟩]⟩

/-- The mapping of that image, at address 0 of process 7. -/
def mapped : RawRecord := .mmap ⟨7, 7, some 1, 0, 0x2000, 0, "r-xp", "/bin/p"⟩

end TraceMcp.Decode
