import TraceMcp.Lib.Text
import TraceMcp.Model.Error
import TraceMcp.Model.Events

/-!
# Sessions, jobs and requests

What the coordinator keeps and what its callers send (`src/model/ids.rs`,
`src/model/trace.rs`, `src/model/config.rs`, `src/service.rs`), with the
checks a request must pass before anything is started.
-/

namespace TraceMcp

/-! ## Identifiers -/

structure RequestId where
  raw : String
  deriving DecidableEq

structure SessionId where
  raw : String
  deriving DecidableEq

structure SnapshotId where
  raw : String
  deriving DecidableEq

structure JobId where
  raw : String
  deriving DecidableEq

structure AnalysisId where
  raw : String
  deriving DecidableEq

structure ReportId where
  raw : String
  deriving DecidableEq

/-! ## Phases -/

/-- `SessionPhase`. -/
inductive SessionPhase
  | starting
  | armed
  | finalizing
  | captured
  | failed
  | cancelled
  deriving DecidableEq

/-- `JobPhase`. -/
inductive JobPhase
  | queued
  | running
  | succeeded
  | failed
  | cancelled
  deriving DecidableEq

/-- `JobKind`. -/
inductive JobKind
  | initialDecode
  | instructionDecode
  | compare
  deriving DecidableEq

/-- `JobRecord`. -/
structure JobRecord where
  jobId : JobId
  kind : JobKind
  phase : JobPhase
  snapshotId : Option SnapshotId
  analysisId : Option AnalysisId
  reportId : Option ReportId
  error : Option String
  deriving DecidableEq

/-- `CaptureReason`. -/
inductive CaptureReason
  | snapshot
  | afterMs
  | targetExit
  | timeLimit
  | stop
  | trigger
  deriving DecidableEq

/-- `StopRequest`: what a capture task is told over its watch channel. -/
inductive StopRequest
  | finish (reason : CaptureReason)
  | abort
  deriving DecidableEq

/-! ## Start requests -/

/-- `Target`. The environment is listed in key order. -/
inductive Target
  | launch (argv : List String) (cwd : Option String) (env : List (String × String))
  | attach (pid : Nat)
  deriving DecidableEq

namespace Target

def validate : Target → Result Unit
  | .launch argv _ _ =>
    if argv.headD "" = "" then .error (.invalidArgument "launch argv must be non-empty")
    else .ok ()
  | .attach pid =>
    if pid = 0 then .error (.invalidArgument "attach pid must be > 0") else .ok ()

def ownsWorkload : Target → Bool
  | .launch .. => true
  | .attach _ => false

end Target

/-- `Trigger`. -/
inductive Trigger
  | symbol (symbol : String) (hits : Nat)
  | fifo
  deriving DecidableEq

/-- `WorkloadMeta`. -/
structure WorkloadMeta where
  label : Option String
  inputFingerprint : Option String
  deriving DecidableEq

/-- Nothing is left of `s` once trimmed. -/
def blank (s : String) : Bool := s.toList.all Lib.isWhitespace

/-- `TimingProfile`. -/
inductive TimingProfile
  | lowBandwidth
  | balanced
  | detailed
  deriving DecidableEq

/-- `AddressFilterKind`. -/
inductive AddressFilterKind
  | filter
  | tracestop
  | start
  | stop
  deriving DecidableEq

/-- `AddressFilter`. -/
structure AddressFilter where
  kind : AddressFilterKind
  symbol : String
  image : Option String
  deriving DecidableEq

/-- `IntelPtConfig`. -/
structure IntelPtConfig where
  timing : TimingProfile
  auxBytesPerBuffer : Option Nat
  /-- Not serialized: set when the topology filled in the size. -/
  auxBytesAuto : Bool
  maxTotalAuxBytes : Nat
  maxCaptureMs : Nat
  cpus : Option (List Nat)
  addressFilters : List AddressFilter
  deriving DecidableEq

/-- `IntelPtConfig::default`. -/
def IntelPtConfig.default : IntelPtConfig where
  timing := .balanced
  auxBytesPerBuffer := none
  auxBytesAuto := false
  maxTotalAuxBytes := 128 * 1024 * 1024
  maxCaptureMs := 30000
  cpus := none
  addressFilters := []

/-- `DEFAULT_AUX_BYTES`: 4 MiB. -/
def defaultAuxBytes : Nat := 4 * 1024 * 1024

def isPowerOfTwo (n : Nat) : Bool := n != 0 && n &&& (n - 1) == 0

/-- `validate_aux_bytes`. -/
def validateAuxBytes (aux pageSize : Nat) : Result Unit :=
  if !isPowerOfTwo pageSize then
    .error (.new .unsupportedPtConfig s!"unusable page size {pageSize}")
  else if aux % pageSize ≠ 0 || !isPowerOfTwo aux then
    .error ((Error.new .unsupportedPtConfig
      s!"aux_bytes_per_buffer {aux} must be a power of two multiple of page size {pageSize}").withNext
      "Choose 256KiB, 1MiB, or 4MiB")
  else .ok ()

/-- The first CPU that is listed again. -/
def repeatedCpu : List Nat → List Nat → Option Nat
  | _, [] => none
  | seen, c :: cpus => if c ∈ seen then some c else repeatedCpu (c :: seen) cpus

/-- `IntelPtConfig::validate`. -/
def IntelPtConfig.validate (config : IntelPtConfig) (pageSize : Nat) : Result Unit := do
  if config.maxCaptureMs = 0 then
    throw (.invalidArgument "max_capture_ms must be > 0")
  let aux := config.auxBytesPerBuffer.getD defaultAuxBytes
  validateAuxBytes aux pageSize
  match config.cpus with
  | some [] => throw (.invalidArgument "cpus must list at least one CPU")
  | some cpus =>
    match repeatedCpu [] cpus with
    | some c => throw (.invalidArgument s!"cpus lists CPU {c} twice")
    | none => pure ()
  | none => pure ()
  if config.addressFilters.any fun f => blank f.symbol then
    throw (.invalidArgument "address filter symbol must not be empty")
  if config.maxTotalAuxBytes < aux then
    throw (.new .unsupportedPtConfig "max_total_aux_bytes is smaller than aux_bytes_per_buffer")

/-- `StartRequest`. -/
structure StartRequest where
  requestId : RequestId
  target : Target
  config : IntelPtConfig
  afterMs : Option Nat
  workload : Option WorkloadMeta
  trigger : Option Trigger
  tailMs : Option Nat
  deriving DecidableEq

/-- `normalize_capture_bound`: requested stop times raise the safety cap. -/
def normalizeCaptureBound (config : IntelPtConfig) (afterMs tailMs : Option Nat) :
    Result IntelPtConfig :=
  if afterMs = some 0 then .error (.invalidArgument "after_ms must be > 0")
  else .ok { config with
    maxCaptureMs := max (max config.maxCaptureMs (afterMs.getD 0)) (tailMs.getD 0) }

/-- The trigger checks of `handle_start`. -/
def checkTrigger (target : Target) : Option Trigger → Result Unit
  | some (.symbol symbol hits) =>
    if !target.ownsWorkload then
      .error (.invalidArgument "symbol triggers require a launch target")
    else if blank symbol then .error (.invalidArgument "trigger symbol must not be empty")
    else if hits = 0 then .error (.invalidArgument "trigger hits must be >= 1")
    else .ok ()
  | some .fifo =>
    if !target.ownsWorkload then
      .error ((Error.invalidArgument
        "fifo triggers require a launch target: only a launched workload inherits $TRACE_MCP_TRIGGER").withNext
        "Use after_ms or trace_snapshot for an attached process")
    else .ok ()
  | none => .ok ()

/-- The request checks at the top of `handle_start`, which also normalize the
capture bound. -/
def StartRequest.check (req : StartRequest) (pageSize : Nat) : Result StartRequest := do
  req.target.validate
  req.config.validate pageSize
  let config ← normalizeCaptureBound req.config req.afterMs req.tailMs
  checkTrigger req.target req.trigger
  pure { req with config := config }

/-! ## Decode requests -/

/-- `JSON_SAFE_INT_MAX`. -/
def jsonSafeIntMax : Nat := 2 ^ 53 - 1

/-- `validate_relative_ns`. -/
def validateRelativeNs (ns : Nat) : Result Nat :=
  if ns > jsonSafeIntMax then
    .error (.invalidArgument s!"relative_ns {ns} exceeds JSON-safe integer {jsonSafeIntMax}")
  else .ok ns

/-- `Selection`. -/
structure Selection where
  threadId : Option ThreadId
  startNs : Option Nat
  endNs : Option Nat

/-- `Selection::validate`. -/
def Selection.validate (s : Selection) : Result Unit := do
  match s.startNs with
  | some ns => discard (validateRelativeNs ns)
  | none => pure ()
  match s.endNs with
  | some ns => discard (validateRelativeNs ns)
  | none => pure ()
  match s.startNs, s.endNs with
  | some a, some b =>
    if b ≤ a then throw (.invalidArgument "start_ns must be < end_ns") else pure ()
  | _, _ => pure ()

/-- `DetailSel`. -/
inductive DetailSel
  | calls (fast : Bool)
  | instructions (selection : Selection)

/-- `DetailLevel`. -/
inductive DetailLevel
  | calls
  | instructions
  deriving DecidableEq

structure DecodeRequest where
  snapshotId : SnapshotId
  detail : DetailSel

/-- `Limits`, as far as admission reads them. -/
structure Limits where
  maxActiveCaptures : Nat
  maxDecodeJobs : Nat
  maxPendingExpensive : Nat

/-- `Limits::default`. -/
def Limits.default : Limits := ⟨1, 1, 4⟩

end TraceMcp
