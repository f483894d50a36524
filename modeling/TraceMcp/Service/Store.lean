import TraceMcp.Service.Coord

/-!
# The store

What the daemon keeps on disk (`src/store.rs`), as far as the coordinator and
its workers read it back: snapshot directories with their published analyses,
comparison reports, and the session and job files.

Everything that changes the store is a `Write`, and a handler's writes are a
list of them in the source's order: a daemon that stops may have made any
first few of them.
-/

namespace TraceMcp

deriving instance DecidableEq for Selection, DetailSel, DecodeRequest

namespace Service

open TraceMcp.Lib Coord

/-! ## Requests and their cache keys -/

/-- `CompareSide`, as far as the analysis to compare is chosen by it. -/
structure CompareSide where
  snapshotId : SnapshotId
  analysisId : Option AnalysisId
  deriving DecidableEq

/-- `CompareRequest`. `options` is everything else it says, which only the
cache key and the report's rows depend on. -/
structure CompareRequest where
  baseline : CompareSide
  candidate : CompareSide
  options : String
  deriving DecidableEq

/-- The cache keys: `decode_cache_key` of a snapshot as its manifest describes
it, and the key of a serialized `CompareRequest`. Both are SHA-256 digests that
are taken to tell their inputs apart: a decode's key names its snapshot, and no
other request has a comparison's key. -/
structure Keys where
  decode : SnapshotId → DetailSel → String
  compare : CompareRequest → String
  snapshotOf : String → Option SnapshotId
  snapshotOf_decode : ∀ id detail, snapshotOf (decode id detail) = some id
  snapshotOf_compare : ∀ req, snapshotOf (compare req) = none
  compare_injective : Function.Injective compare

/-! ### Keys to replay with -/

/-- A string in a form that ends itself. -/
def spell (s : String) : List Char := s.toList.flatMap (fun c => ['1', c]) ++ ['0']

theorem spell_append {cs cs' : List Char} : ∀ {xs xs' : List Char},
    (cs.flatMap fun c => ['1', c]) ++ ['0'] ++ xs = (cs'.flatMap fun c => ['1', c]) ++ ['0'] ++ xs' →
      cs = cs' ∧ xs = xs' := by
  induction cs generalizing cs' with
  | nil =>
    intro xs xs' h
    cases cs' with
    | nil => exact ⟨rfl, by simpa using h⟩
    | cons c' cs' => simp at h
  | cons c cs ih =>
    intro xs xs' h
    cases cs' with
    | nil => simp at h
    | cons c' cs' =>
      simp only [List.flatMap_cons, List.cons_append, List.nil_append, List.cons.injEq,
        true_and] at h
      obtain ⟨rfl, h⟩ := h
      obtain ⟨rfl, rfl⟩ := ih h
      exact ⟨rfl, rfl⟩

theorem spell_inj {s s' : String} {xs xs' : List Char} (h : spell s ++ xs = spell s' ++ xs') :
    s = s' ∧ xs = xs' := by
  obtain ⟨hs, hxs⟩ := spell_append h
  exact ⟨String.toList_inj.mp hs, hxs⟩

def CompareSide.spell (side : CompareSide) : List Char :=
  Service.spell side.snapshotId.raw ++ match side.analysisId with
    | none => ['0']
    | some id => '1' :: Service.spell id.raw

theorem CompareSide.spell_inj {a b : CompareSide} {xs xs' : List Char}
    (h : a.spell ++ xs = b.spell ++ xs') : a = b ∧ xs = xs' := by
  obtain ⟨⟨sa⟩, ida⟩ := a
  obtain ⟨⟨sb⟩, idb⟩ := b
  simp only [CompareSide.spell, List.append_assoc] at h
  obtain ⟨rfl, hrest⟩ := Service.spell_inj h
  cases ida with
  | none =>
    cases idb with
    | none => exact ⟨rfl, by simpa using hrest⟩
    | some => simp at hrest
  | some ida =>
    cases idb with
    | none => simp at hrest
    | some idb =>
      obtain ⟨ra⟩ := ida
      obtain ⟨rb⟩ := idb
      obtain ⟨rfl, rfl⟩ := Service.spell_inj (List.cons.inj hrest).2
      exact ⟨rfl, rfl⟩

/-- Keys that spell out what they are made of. -/
def Keys.plain : Keys where
  decode id detail := String.ofList ('d' :: (match detail with
    | .calls true => 'f'
    | .calls false => 'c'
    | .instructions _ => 'i') :: id.raw.toList)
  compare req := String.ofList ('c' ::
    (req.baseline.spell ++ (req.candidate.spell ++ (spell req.options ++ []))))
  snapshotOf key := match key.toList with
    | 'd' :: _ :: raw => some ⟨String.ofList raw⟩
    | _ => none
  snapshotOf_decode id detail := by simp
  snapshotOf_compare req := by simp
  compare_injective req req' h := by
    have hlist := congrArg String.toList h
    simp only [String.toList_ofList, List.cons.injEq, true_and] at hlist
    obtain ⟨hbase, hlist⟩ := CompareSide.spell_inj hlist
    obtain ⟨hcand, hlist⟩ := CompareSide.spell_inj hlist
    obtain ⟨hopt, -⟩ := spell_inj hlist
    cases req
    cases req'
    simp_all

/-! ## Files -/

/-- `IR_VERSION`. -/
def irVersion : Nat := 42

/-- `AnalysisManifest`, as far as analyses are looked up by it, and the time
its file was written. -/
structure AnalysisManifest where
  analysisId : AnalysisId
  detail : DetailLevel
  decodeMode : String
  irVersion : Nat
  cacheKey : String
  modified : Nat
  deriving DecidableEq

/-- Newest IR first, then a full decode over a fast one, then the newest file. -/
def AnalysisManifest.beats (m b : AnalysisManifest) : Bool :=
  let full (a : AnalysisManifest) : Bool := a.decodeMode = "full"
  b.irVersion < m.irVersion || (b.irVersion = m.irVersion &&
    ((!full b && full m) || (full b = full m && b.modified < m.modified)))

/-- A directory under `snapshots/`: whether `manifest.json` is in it, and what
is under `derived/`. -/
structure SnapshotDir where
  manifest : Bool
  derived : List AnalysisManifest
  deriving DecidableEq

/-- The manifest of a report, which has a directory of its own. -/
structure Report where
  cacheKey : String
  jobId : JobId
  baseline : AnalysisId
  candidate : AnalysisId
  deriving DecidableEq

/-- The store. `placed` is not a file: it remembers every snapshot a capture
has published, since ids are never generated again. -/
structure Disk where
  snapshots : FastMap SnapshotId SnapshotDir
  placed : List SnapshotId
  sessions : FastMap SessionId StoredSession
  jobs : FastMap JobId JobRecord
  reports : List Report

/-- One change of the store. -/
inductive Write
  | session (v : StoredSession)
  | job (record : JobRecord)
  /-- A capture's staging directory becomes a snapshot. -/
  | capture (id : SnapshotId)
  | remove (id : SnapshotId)
  /-- A directory is created under the snapshot's. -/
  | touch (id : SnapshotId)
  /-- A staged analysis moves under the snapshot's `derived/`. -/
  | publish (id : SnapshotId) (m : AnalysisManifest)
  | report (r : Report)

namespace Disk

/-- An empty store. -/
def empty : Disk := ⟨∅, [], ∅, ∅, []⟩

/-- A snapshot's directory; `create_dir_all` makes an empty one. -/
def dir (disk : Disk) (id : SnapshotId) : SnapshotDir := (disk.snapshots.get id).getD ⟨false, []⟩

def write (disk : Disk) : Write → Disk
  | .session v => { disk with sessions := disk.sessions.insert v.id v }
  | .job record => { disk with jobs := disk.jobs.insert record.jobId record }
  | .capture id =>
    { disk with
      snapshots := disk.snapshots.insert id ⟨true, []⟩
      placed := disk.placed ++ [id] }
  | .remove id => { disk with snapshots := disk.snapshots.erase id }
  | .touch id => { disk with snapshots := disk.snapshots.insert id (disk.dir id) }
  | .publish id m =>
    let dir := disk.dir id
    { disk with
      snapshots := disk.snapshots.insert id { dir with derived := dir.derived ++ [m] } }
  | .report r => { disk with reports := disk.reports ++ [r] }

/-- A list of writes, in order. -/
def writeAll (disk : Disk) (writes : List Write) : Disk := writes.foldl write disk

/-! ## Reading it back -/

/-- `load_snapshot_manifest`. -/
def loadManifest (disk : Disk) (id : SnapshotId) : Result Unit :=
  if (disk.dir id).manifest then .ok () else .error (.notFound s!"snapshot {id.raw}")

/-- `find_analysis_by_key`: the published analysis with this cache key, and a
job that produced it. -/
def findAnalysisByKey (disk : Disk) (id : SnapshotId) (key : String) :
    Option (AnalysisId × Option JobId) :=
  ((disk.dir id).derived.find? fun m => m.cacheKey = key).map fun m =>
    (m.analysisId,
      (disk.jobs.values.find? fun j => j.analysisId = some m.analysisId).map (·.jobId))

/-- `find_calls_analysis`: the default calls analysis of a snapshot. -/
def findCallsAnalysis (disk : Disk) (id : SnapshotId) : Option AnalysisId :=
  let best := (disk.dir id).derived.foldl (fun best m =>
    if m.detail = .calls ∧ best.all (AnalysisManifest.beats m) then some m else best) none
  best.map (·.analysisId)

/-- The analysis a side of a comparison is about. -/
def analysisOf (disk : Disk) (side : CompareSide) : Option AnalysisId :=
  side.analysisId.or (disk.findCallsAnalysis side.snapshotId)

/-- `compare_job`; `rest` is what reading and comparing the rows come to. -/
def compareJob (disk : Disk) (req : CompareRequest) (key : String) (job : JobId)
    (rest : Result Unit) : Result Report := do
  let some baseline := disk.analysisOf req.baseline
    | throw (.new .detailNotReady "baseline analysis missing")
  let some candidate := disk.analysisOf req.candidate
    | throw (.new .detailNotReady "candidate analysis missing")
  disk.loadManifest req.baseline.snapshotId
  disk.loadManifest req.candidate.snapshotId
  rest
  pure ⟨key, job, baseline, candidate⟩

/-- What a prune finds: `size` of each directory, and whether `removable`. -/
def pruneEnv (disk : Disk) (size : SnapshotId → Nat) (removable : SnapshotId → Result Unit) :
    PruneEnv where
  snapshotSizes := .ok (disk.snapshots.keys.map fun id => (id, size id))
  removeSnapshot removed id :=
    if (disk.snapshots.get id).isSome ∧ id ∉ removed.map Prod.fst then
      (removable id).map fun _ => size id
    else .error (.notFound s!"snapshot {id.raw}")
  usedBytes := .ok ((disk.snapshots.keys.map size).sum)

/-- The cache entries of `load_persisted`: published analyses that a loaded
job produced, and reports. -/
def cacheEntries (disk : Disk) (jobs : List JobRecord) : List (String × JobId) :=
  (disk.snapshots.values.flatMap fun dir => dir.derived.filterMap fun m =>
    (jobs.find? fun j => j.analysisId = some m.analysisId).map fun j => (m.cacheKey, j.jobId)) ++
  disk.reports.map fun r => (r.cacheKey, r.jobId)

/-- `load_persisted`. -/
def load (disk : Disk) (limits : Limits) : Coord :=
  loadPersisted limits disk.sessions.values disk.jobs.values (disk.cacheEntries disk.jobs.values)

end Disk

/-- The session file `persist_session` writes. -/
def Session.stored (s : Session) : StoredSession :=
  ⟨s.id, some s.requestId, s.requestHash, some s.phase, s.snapshotId, s.decodeJob, s.target,
    { s.config with auxBytesAuto := false }, s.afterMs, s.workload⟩

namespace Coord

/-- `persist_session` of a session that exists. -/
def sessionFile (c : Coord) (id : SessionId) : List Write :=
  ((c.sessions.get id).map fun s => Write.session s.stored).toList

/-- The file of a job that exists. -/
def jobFile (c : Coord) (id : JobId) : List Write := ((c.jobs.get id).map Write.job).toList

/-- The job file `cancel_queued_session_job` writes, if it cancels. -/
def cancelledFile (c : Coord) (session : SessionId) : List Write :=
  match (c.sessions.get session).bind (·.decodeJob) with
  | none => []
  | some job =>
    if (c.jobs.get job).any (·.phase = .queued) then
      (c.cancelQueuedSessionJob session).jobFile job
    else []

end Coord

end Service

end TraceMcp
