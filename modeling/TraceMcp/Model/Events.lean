import Mathlib.Algebra.GroupWithZero.Nat
import TraceMcp.Model.Error

/-!
# The analysis records

The row types of a decoded trace (`src/model/events.rs`, `ids.rs`,
`json.rs`): times, control-flow kinds, boundary bits, spans, gaps, thread
lifetimes. `u64` values (times, addresses, counts) are `Nat`; the `u32` row
numbers wrap (`nextId`), as the release build's counters do. The source's
field `end` is `stop` here, and `from`/`to` are `fromLoc`/`toLoc`.
-/

namespace TraceMcp

/-- `LocalId`: a row number inside one analysis. -/
abbrev LocalId := Nat

/-- `as u32`. -/
def asU32 (n : Nat) : Nat := n % 2 ^ 32

/-- The `u32` counter after one more row (`next += 1`, wrapping). -/
def nextId (n : LocalId) : LocalId := asU32 (n + 1)

/-- `ThreadId`. The source renders it as a string; the three shapes it ever
renders are kept apart here and `render` gives the text. -/
inductive ThreadId
  /-- `t_unknown`: no thread could be named. -/
  | unknown
  /-- `t_<tid>`, or `t_<tid>_g<n>` for the `n`-th reuse of the tid. -/
  | task (tid generation : Nat)
  deriving DecidableEq

/-- The text of a thread id. -/
def ThreadId.render : ThreadId → String
  | .unknown => "t_unknown"
  | .task tid 0 => s!"t_{tid}"
  | .task tid (g + 1) => s!"t_{tid}_g{g + 1}"

inductive TimeQuality
  | decoderEstimate
  | markerClock
  | unknown
  deriving DecidableEq

/-- `EventTime`: an optional time with its quality. Until `finish` the time
is absolute; `finish` rebases it onto the snapshot origin. -/
structure EventTime where
  relativeNs : Option Nat
  quality : TimeQuality
  deriving DecidableEq

namespace EventTime

def unknown : EventTime := ⟨none, .unknown⟩

def estimate (ns : Nat) : EventTime := ⟨some ns, .decoderEstimate⟩

end EventTime

inductive FlowKind
  | call
  | ret
  | jump
  | conditional
  | asyncBoundary
  | traceBegin
  | traceEnd
  deriving DecidableEq

/-- `BoundaryFlags`: independent boundary bits of one sample. -/
structure BoundaryFlags where
  traceBegin : Bool
  traceEnd : Bool
  asyncEvent : Bool
  transaction : Bool
  interrupt : Bool
  syscall : Bool
  deriving DecidableEq

namespace BoundaryFlags

def takesPrecedence (b : BoundaryFlags) : Bool :=
  b.traceBegin || b.traceEnd || b.asyncEvent || b.interrupt || b.syscall || b.transaction

def any (b : BoundaryFlags) : Bool := b.takesPrecedence

end BoundaryFlags

/-- `FlowEvent`: one retained function transfer. -/
structure FlowEvent where
  id : LocalId
  thread : ThreadId
  sequence : Nat
  time : EventTime
  fromLoc : Option LocalId
  toLoc : Option LocalId
  kind : FlowKind
  boundary : BoundaryFlags
  virtFrom : Option Nat
  virtTo : Option Nat

inductive SpanCompleteness
  | complete
  | openStart
  | openEnd
  | openBoth
  | interruptedByGap
  | uncertainUnwind
  deriving DecidableEq

/-- `FunctionSpan`. The evidence range is its first and last event id. -/
structure FunctionSpan where
  id : LocalId
  thread : ThreadId
  function : Option LocalId
  parent : Option LocalId
  start : EventTime
  stop : EventTime
  completeness : SpanCompleteness
  evidence : LocalId × LocalId
  callSite : Option Nat
  deriving DecidableEq

inductive GapKind
  | ringTruncation
  | undecodablePrefix
  | ptLoss
  | missingImage
  | decoderError
  | timeRegression
  /-- Tracing paused and resumed in the same function; the call stack was
  preserved across the gap. -/
  | traceBoundary
  | unknown
  deriving DecidableEq

/-- The serialised (`snake_case`) name of a gap kind, the key of
`gaps_by_kind`. -/
def GapKind.name : GapKind → String
  | .ringTruncation => "ring_truncation"
  | .undecodablePrefix => "undecodable_prefix"
  | .ptLoss => "pt_loss"
  | .missingImage => "missing_image"
  | .decoderError => "decoder_error"
  | .timeRegression => "time_regression"
  | .traceBoundary => "trace_boundary"
  | .unknown => "unknown"

structure GapRecord where
  id : LocalId
  thread : ThreadId
  kind : GapKind
  start : EventTime
  stop : EventTime
  extentKnown : Bool
  reason : String
  deriving DecidableEq

/-- `MappingRecord`: an executable mapping of a pid. -/
structure MappingRecord where
  generation : Nat
  pid : Nat
  start : Nat
  stop : Nat
  pgoff : Nat
  prot : String
  path : String
  buildId : Option String
  validFrom : EventTime
  validTo : Option EventTime

/-- `ThreadLifetime`: one row of the finished thread table. -/
structure ThreadLifetime where
  id : ThreadId
  pid : Nat
  tid : Nat
  start : EventTime
  stop : Option EventTime
  comm : Option String
  branchCount : Nat
  eventCount : Nat
  spanCount : Nat
  gapCount : Nat
  coveredNs : Nat
  segmentCount : Nat
  segments : List (Nat × Nat)

structure FunctionRecord where
  id : LocalId
  name : String
  demangled : String
  imageId : String
  start : Nat
  stop : Nat

/-- `CodeLocation`; the source position fields are filled in by queries, never
by reconstruction, and are left out. -/
structure CodeLocation where
  id : LocalId
  imageId : String
  imageOffset : Nat
  virtIp : Option Nat
  function : Option LocalId

/-- `InlineRow`: blocks attributed to one DWARF inline chain. -/
structure InlineRow where
  thread : ThreadId
  function : Option LocalId
  chain : List String
  instructions : Nat
  blocks : Nat
  elapsedNs : Nat

/-- Absolute perf time carried inside an `EventTime` until `finish`. -/
def absTime : Option Nat → EventTime
  | some t => .estimate t
  | none => .unknown

@[simp] theorem absTime_relativeNs (t : Option Nat) : (absTime t).relativeNs = t := by
  cases t <;> rfl

end TraceMcp
