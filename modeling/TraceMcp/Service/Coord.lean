import TraceMcp.Lib.FastMap
import TraceMcp.Model.Session

/-!
# The coordinator

`Coord` of `src/service.rs` and its message handlers. The coordinator owns the
session and job tables and four admission counters; captures, decodes and
compares run in tasks of their own and report back by message.

A handler returns the new coordinator, its reply and the tasks it spawned.
What it asks the outside (generated ids, the store, the checks of a target) is
an argument: an `…Env` holds the answers one call gets. `dec` is
`saturating_sub(1)`; it is an argument too, so that a run can be compared with
one whose decrement differs at zero.
-/

namespace TraceMcp.Service

open TraceMcp.Lib

/-- `Session`. `stop` is its watch channel, if it has one, with the last
request sent. -/
structure Session where
  id : SessionId
  requestId : RequestId
  requestHash : String
  target : Target
  config : IntelPtConfig
  afterMs : Option Nat
  workload : Option WorkloadMeta
  phase : SessionPhase
  snapshotId : Option SnapshotId
  decodeJob : Option JobId
  stop : Option (Option StopRequest)
  /-- Counted in `activeCaptures` until released exactly once. -/
  slotHeld : Bool

/-- `Coord`. -/
structure Coord where
  limits : Limits
  sessions : FastMap SessionId Session
  byRequest : FastMap RequestId SessionId
  jobs : FastMap JobId JobRecord
  cacheJobs : FastMap String JobId
  activeCaptures : Nat
  runningDecode : Nat
  pendingExpensive : Nat
  reservedDecode : Nat

/-- A capture task that has not reported yet. -/
structure CaptureTask where
  session : SessionId
  snapshot : SnapshotId
  armed : Bool
  deriving DecidableEq

/-- A decode or compare worker that has not reported yet: the record it will
send back and the slots it gives back with it. -/
structure Worker where
  record : JobRecord
  decodeSlot : Bool
  expensiveSlot : Bool
  deriving DecidableEq

namespace Coord

/-- Change a session that exists. -/
def modSession (c : Coord) (id : SessionId) (f : Session → Session) : Coord :=
  { c with sessions := c.sessions.modify id f }

def setJob (c : Coord) (rec : JobRecord) : Coord :=
  { c with jobs := c.jobs.insert rec.jobId rec }

/-- `cancel_queued_session_job`. -/
def cancelQueuedSessionJob (c : Coord) (session : SessionId) : Coord :=
  match (c.sessions.get session).bind (·.decodeJob) with
  | none => c
  | some job =>
    { c with jobs := c.jobs.modify job fun j =>
      if j.phase = .queued then { j with phase := .cancelled } else j }

/-! ## Starting up -/

/-- A session file as `load_persisted` reads it. -/
structure StoredSession where
  id : SessionId
  requestId : Option RequestId
  requestHash : String
  state : Option SessionPhase
  snapshotId : Option SnapshotId
  decodeJob : Option JobId
  target : Target
  config : IntelPtConfig
  afterMs : Option Nat
  workload : Option WorkloadMeta

/-- A capture does not survive a restart. -/
def storedPhase : Option SessionPhase → SessionPhase
  | none | some .starting | some .armed | some .finalizing => .failed
  | some phase => phase

/-- One session file; without a request id it is skipped. -/
def loadSession (c : Coord) (v : StoredSession) : Coord :=
  match v.requestId with
  | none => c
  | some requestId =>
    { c with
      byRequest := c.byRequest.insert requestId v.id
      sessions := c.sessions.insert v.id
        { id := v.id
          requestId := requestId
          requestHash := v.requestHash
          target := v.target
          config := v.config
          afterMs := v.afterMs
          workload := v.workload
          phase := storedPhase v.state
          snapshotId := v.snapshotId
          decodeJob := v.decodeJob
          stop := none
          slotHeld := false } }

/-- The coordinator `run_coord` starts with. -/
def empty (limits : Limits) : Coord := ⟨limits, ∅, ∅, ∅, ∅, 0, 0, 0, 0⟩

/-- `load_persisted`: the session files, the job files, and the cache keys
found in analyses and reports. -/
def loadPersisted (limits : Limits) (sessions : List StoredSession) (jobs : List JobRecord)
    (cache : List (String × JobId)) : Coord :=
  let c := sessions.foldl loadSession (empty limits)
  let c := jobs.foldl setJob c
  cache.foldl (fun c e => { c with cacheJobs := c.cacheJobs.insert e.1 e.2 }) c

/-! ## `handle_start` -/

/-- What one start asks the outside. -/
structure StartEnv where
  pageSize : Nat
  /-- `start_request_hash`, of the normalized request. -/
  requestHash : StartRequest → String
  ensureBudget : Result Unit
  /-- `validate_ready_topology`, which settles the AUX size. -/
  readyTopology : Result IntelPtConfig
  /-- The executable of the target: resolved, readable, ELF64. -/
  checkTarget : Result Unit
  sessionId : SessionId
  snapshotId : SnapshotId
  persist : Result Unit

structure StartResponse where
  sessionId : SessionId
  state : SessionPhase

/-- The session a start creates. -/
def newSession (env : StartEnv) (req : StartRequest) (hash : String) (config : IntelPtConfig) :
    Session where
  id := env.sessionId
  requestId := req.requestId
  requestHash := hash
  target := req.target
  config := config
  afterMs := req.afterMs
  workload := req.workload
  phase := .starting
  snapshotId := some env.snapshotId
  decodeJob := none
  stop := some none
  slotHeld := true

/-- Register a session: it holds a capture slot and has reserved a decode. -/
def addSession (c : Coord) (s : Session) : Coord :=
  { c with
    byRequest := c.byRequest.insert s.requestId s.id
    sessions := c.sessions.insert s.id s
    activeCaptures := c.activeCaptures + 1
    reservedDecode := c.reservedDecode + 1 }

/-- The admission checks of `handle_start`, in its order. -/
def admission (c : Coord) (env : StartEnv) : Result IntelPtConfig :=
  if c.limits.maxActiveCaptures ≤ c.activeCaptures then
    .error ((Error.new .sessionBusy "an active capture already exists").withNext
      "Wait for it to finish or cancel it")
  else do
    env.ensureBudget
    if c.limits.maxPendingExpensive ≤ c.reservedDecode + c.pendingExpensive then
      .error (.mkBusy "expensive job queue is full")
    else do
      let config ← env.readyTopology
      env.checkTarget
      env.persist
      pure config

/-- `handle_start`. An error leaves the coordinator as it was. -/
def handleStart (c : Coord) (env : StartEnv) (req : StartRequest) :
    Result (Coord × StartResponse × List CaptureTask) := do
  let req ← req.check env.pageSize
  let hash := env.requestHash req
  match c.byRequest.get req.requestId with
  | some existing =>
    match c.sessions.get existing with
    | some s =>
      if s.requestHash ≠ "" ∧ s.requestHash ≠ hash then
        .error (.invalidArgument "request_id reused with a different body")
      else .ok (c, ⟨s.id, s.phase⟩, [])
    -- The source unwraps here; a known request always has its session.
    | none => .error (.notFound existing.raw)
  | none =>
    let config ← c.admission env
    let s := newSession env req hash config
    pure (c.addSession s, ⟨s.id, .starting⟩, [⟨s.id, env.snapshotId, false⟩])

/-! ## Task messages -/

section Tasks

variable (dec : Nat → Nat)

/-- `release_capture_slot`: give back a session's capture slot exactly once. -/
def releaseCaptureSlot (c : Coord) (session : SessionId) : Coord :=
  match c.sessions.get session with
  | some s =>
    if s.slotHeld then
      { c with
        sessions := c.sessions.insert session { s with slotHeld := false }
        activeCaptures := dec c.activeCaptures }
    else c
  | none => c

/-- `handle_internal` on `Armed`. -/
def handleArmed (c : Coord) (session : SessionId) : Coord :=
  c.modSession session fun s => if s.phase = .starting then { s with phase := .armed } else s

/-- `handle_internal` on `Failed`. -/
def handleFailed (c : Coord) (session : SessionId) : Coord :=
  let c := c.modSession session fun s =>
    if s.phase ≠ .cancelled then { s with phase := .failed } else s
  let c := c.cancelQueuedSessionJob session
  let c := c.releaseCaptureSlot dec session
  { c with reservedDecode := dec c.reservedDecode }

/-- A publication that comes too late. -/
def blocked (c : Coord) (session : SessionId) : Bool :=
  (c.sessions.get session).any fun s => s.phase = .cancelled || s.phase = .failed

/-- `handle_internal` on a `Published` whose session was cancelled or failed. -/
def handleBlocked (c : Coord) (session : SessionId) (snapshot : SnapshotId) : Coord :=
  let c := c.modSession session fun s =>
    if s.snapshotId.isNone then { s with snapshotId := some snapshot } else s
  let c := c.cancelQueuedSessionJob session
  let c := c.releaseCaptureSlot dec session
  { c with reservedDecode := dec c.reservedDecode }

/-- The ids generated while a publication is handled. -/
structure PublishEnv where
  jobId : JobId
  analysisId : AnalysisId

/-- The record of a new initial decode. -/
def queuedDecode (job : JobId) (snapshot : SnapshotId) : JobRecord :=
  ⟨job, .initialDecode, .queued, some snapshot, none, none, none⟩

/-- Start the initial decode of a published snapshot on the reserved slot. -/
def startDecode (c : Coord) (job : JobId) (snapshot : SnapshotId) (analysis : AnalysisId) :
    Coord × List Worker :=
  let record := { queuedDecode job snapshot with analysisId := some analysis }
  let c := c.setJob { record with phase := .running }
  ({ c with
      runningDecode := c.runningDecode + 1
      reservedDecode := dec c.reservedDecode },
    [⟨record, true, false⟩])

/-- `handle_internal` on `Published`. -/
def handlePublished (c : Coord) (env : PublishEnv) (session : SessionId) (snapshot : SnapshotId) :
    Coord × List Worker :=
  if c.blocked session then (c.handleBlocked dec session snapshot, [])
  else
    match c.sessions.get session with
    | none => (c, [])
    | some s =>
      let job := s.decodeJob.getD env.jobId
      let c := { c with sessions := c.sessions.insert session { s with
        phase := .captured, snapshotId := some snapshot, decodeJob := some job } }
      let c := c.releaseCaptureSlot dec session
      c.startDecode dec job snapshot env.analysisId

/-- `handle_internal` on `JobFinished`. -/
def handleJobFinished (c : Coord) (rec : JobRecord) (decodeSlot expensiveSlot : Bool) : Coord :=
  let c := if decodeSlot then { c with runningDecode := dec c.runningDecode } else c
  let c := if expensiveSlot then { c with pendingExpensive := dec c.pendingExpensive } else c
  c.setJob rec

end Tasks

/-- The record a worker reports with. -/
def finishedRecord (rec : JobRecord) : Result Unit → JobRecord
  | .ok () => { rec with phase := .succeeded }
  | .error e => { rec with phase := .failed, error := some e.display }

/-! ## `handle_snapshot` -/

/-- What one snapshot asks the outside. -/
structure SnapshotEnv where
  snapshotId : SnapshotId
  jobId : JobId
  persist : Result Unit

structure SnapshotResponse where
  snapshotId : SnapshotId
  jobId : JobId
  state : SessionPhase

/-- The armed branch of `handle_snapshot`: the session finalizes, its task is
told to finish and its decode is queued. That a `send` fails once the task has
dropped its end is ignored there: `stop` is what was sent last, not what arrived. -/
def finalizeSession (c : Coord) (env : SnapshotEnv) (session : SessionId) (s : Session)
    (reason : CaptureReason) : Coord × Result SnapshotResponse :=
  let snap := s.snapshotId.getD env.snapshotId
  let job := s.decodeJob.getD env.jobId
  let s := { s with snapshotId := some snap, decodeJob := some job, phase := .finalizing }
  let c := { c with sessions := c.sessions.insert session s }
  match env.persist with
  | .error e => (c, .error e)
  | .ok () =>
    let s := { s with stop := s.stop.map fun _ => some (.finish reason) }
    let c := { c with sessions := c.sessions.insert session s }
    (c.setJob (queuedDecode job snap), .ok ⟨snap, job, .finalizing⟩)

/-- `handle_snapshot`. -/
def handleSnapshot (c : Coord) (env : SnapshotEnv) (session : SessionId) (reason : CaptureReason) :
    Coord × Result SnapshotResponse :=
  match c.sessions.get session with
  | none => (c, .error (.notFound session.raw))
  | some s =>
    match s.phase with
    | .starting => (c, .error (.new .notReady "session is still starting"))
    | .failed => (c, .error (.new .cancelled "session failed"))
    | .cancelled => (c, .error (.cancelled "session cancelled"))
    | .finalizing | .captured =>
      match s.snapshotId, s.decodeJob with
      | none, _ => (c, .error (.notFound "snapshot"))
      | some _, none => (c, .error (.notFound "job"))
      | some snap, some job => (c, .ok ⟨snap, job, s.phase⟩)
    | .armed => c.finalizeSession env session s reason

/-! ## `handle_cancel` -/

inductive CancelTarget
  | session (id : SessionId)
  | job (id : JobId)

/-- What a cancel reports. -/
inductive CancelReply
  | session (id : SessionId) (state : SessionPhase)
  | succeeded (j : JobRecord)
  | job (id : JobId)

/-- `handle_cancel` of a session. -/
def cancelSession (dec : Nat → Nat) (c : Coord) (id : SessionId) : Coord × Result CancelReply :=
  match c.sessions.get id with
  | none => (c, .error (.notFound id.raw))
  | some s =>
    match s.phase with
    | .captured | .cancelled | .failed => (c, .ok (.session id s.phase))
    | .starting | .armed | .finalizing =>
      let c := { c with sessions := c.sessions.insert id { s with
        phase := .cancelled, stop := s.stop.map fun _ => some .abort } }
      (c.releaseCaptureSlot dec id, .ok (.session id .cancelled))

/-- `handle_cancel` of a job. -/
def cancelJob (c : Coord) (id : JobId) : Coord × Result CancelReply :=
  match c.jobs.get id with
  | some j =>
    if j.phase = .succeeded then (c, .ok (.succeeded j))
    else ({ c with jobs := c.jobs.insert id { j with phase := .cancelled } }, .ok (.job id))
  | none => (c, .ok (.job id))

/-- `handle_cancel`. -/
def handleCancel (dec : Nat → Nat) (c : Coord) : CancelTarget → Coord × Result CancelReply
  | .session id => c.cancelSession dec id
  | .job id => c.cancelJob id

/-! ## `handle_prune` -/

structure PruneRequest where
  snapshotIds : List SnapshotId
  listOnly : Bool

/-- What one prune asks the store. -/
structure PruneEnv where
  snapshotSizes : Result (List (SnapshotId × Nat))
  /-- Given what was removed before it. -/
  removeSnapshot : List (SnapshotId × Nat) → SnapshotId → Result Nat
  usedBytes : Result Nat

structure PruneReport where
  snapshots : List (SnapshotId × Nat)
  removed : List (SnapshotId × Nat)
  skipped : List (SnapshotId × String)
  usedBytes : Nat

/-- Why a snapshot cannot be removed now. -/
def pruneObstacle (c : Coord) (id : SnapshotId) : Option String :=
  if c.jobs.values.any fun j =>
      j.snapshotId = some id && (j.phase = .queued || j.phase = .running) then
    some "a job is queued or running on it"
  else if c.sessions.values.any fun s => s.snapshotId = some id &&
      (s.phase = .starting || s.phase = .armed || s.phase = .finalizing) then
    some "its capture has not finished"
  else none

/-- Remove one snapshot, and with it the cache entries of its jobs. -/
def pruneOne (env : PruneEnv)
    (acc : Coord × List (SnapshotId × Nat) × List (SnapshotId × String)) (id : SnapshotId) :
    Coord × List (SnapshotId × Nat) × List (SnapshotId × String) :=
  let (c, removed, skipped) := acc
  match c.pruneObstacle id with
  | some reason => (c, removed, skipped ++ [(id, reason)])
  | none =>
    match env.removeSnapshot removed id with
    | .ok bytes =>
      ({ c with cacheJobs := c.cacheJobs.retain fun _ job =>
          (c.jobs.get job).bind (·.snapshotId) ≠ some id },
        removed ++ [(id, bytes)], skipped)
    | .error e => (c, removed, skipped ++ [(id, e.reason)])

/-- `handle_prune`. -/
def handlePrune (c : Coord) (env : PruneEnv) (req : PruneRequest) : Coord × Result PruneReport :=
  match env.snapshotSizes with
  | .error e => (c, .error e)
  | .ok sizes =>
    let (c, removed, skipped) :=
      if req.listOnly then (c, [], []) else req.snapshotIds.foldl (pruneOne env) (c, [], [])
    let sizes := sizes.mergeSort fun a b => b.2 ≤ a.2
    (c, env.usedBytes.map fun used => ⟨sizes, removed, skipped, used⟩)

/-! ## `handle_decode` and `handle_compare` -/

/-- What one decode request asks the outside; `key` is its cache key. -/
structure DecodeEnv where
  loadManifest : Result Unit
  key : String
  /-- `find_analysis_by_key`. -/
  storedAnalysis : Option (AnalysisId × Option JobId)
  jobId : JobId
  analysisId : AnalysisId

structure DecodeResponse where
  analysisId : AnalysisId
  jobId : Option JobId
  cached : Bool

/-- The level of a decode request; instructions need a bounded selection. -/
def detailLevel : DetailSel → Result DetailLevel
  | .calls _ => .ok .calls
  | .instructions selection => do
    selection.validate
    if selection.threadId.isNone || selection.startNs.isNone || selection.endNs.isNone then
      throw (.invalidArgument
        "instruction decode requires thread_id and a bounded start_ns/end_ns")
    pure .instructions

/-- A decode that was asked for before. -/
def cachedDecode (c : Coord) (env : DecodeEnv) : Option DecodeResponse :=
  match env.storedAnalysis with
  | some (aid, job) => some ⟨aid, job, true⟩
  | none =>
    match (c.cacheJobs.get env.key).bind fun jid => (c.jobs.get jid).map fun j => (jid, j) with
    | some (jid, j) => some (match j.analysisId with
      | some aid => ⟨aid, some jid, true⟩
      | none => ⟨env.analysisId, some jid, false⟩)
    | none => none

/-- Queue a job under its cache key. -/
def queueJob (c : Coord) (key : String) (rec : JobRecord) : Coord :=
  { c.setJob rec with cacheJobs := c.cacheJobs.insert key rec.jobId }

/-- `handle_decode`. An error leaves the coordinator as it was. -/
def handleDecode (c : Coord) (env : DecodeEnv) (req : DecodeRequest) :
    Result (Coord × DecodeResponse × List Worker) := do
  env.loadManifest
  let detail ← detailLevel req.detail
  match c.cachedDecode env with
  | some cached => pure (c, cached, [])
  | none =>
    if c.limits.maxDecodeJobs ≤ c.runningDecode then .error (.mkBusy "decode worker is busy")
    else
      let record : JobRecord := ⟨env.jobId,
        if detail = .instructions then .instructionDecode else .initialDecode, .queued,
        some req.snapshotId, some env.analysisId, none, none⟩
      let c := c.queueJob env.key record
      .ok ({ c with runningDecode := c.runningDecode + 1 },
        ⟨env.analysisId, some env.jobId, false⟩, [⟨record, true, false⟩])

/-- What one compare request asks the outside; `key` is its cache key. -/
structure CompareEnv where
  key : String
  jobId : JobId
  reportId : ReportId

/-- `handle_compare`. An error leaves the coordinator as it was. -/
def handleCompare (c : Coord) (env : CompareEnv) : Result (Coord × JobId × List Worker) :=
  match c.cacheJobs.get env.key with
  | some jid => .ok (c, jid, [])
  | none =>
    if c.limits.maxPendingExpensive ≤ c.pendingExpensive then .error (.mkBusy "compare queue full")
    else
      let record : JobRecord :=
        ⟨env.jobId, .compare, .queued, none, none, some env.reportId, none⟩
      let c := c.queueJob env.key record
      .ok ({ c with pendingExpensive := c.pendingExpensive + 1 }, env.jobId,
        [⟨record, false, true⟩])

end Coord

end TraceMcp.Service
