import TraceMcp.Lib.Tally
import TraceMcp.Service.Duties
import TraceMcp.Service.Store

/-!
# The daemon

The coordinator, its tasks and the store together. Here a worker is known by
what it was asked to do: it reads and writes the store on its own, and reports
afterwards. The daemon can stop between two events or after any first few
writes of one; what is in memory is lost then, and it starts again from the
store.

`handle_sys` connects it with the coordinator's own runs: an event is at most
one message of `System`.
-/

namespace TraceMcp.Service

open TraceMcp.Lib Coord

/-- What a worker was asked to do. -/
inductive Work
  | decode (req : DecodeRequest) (analysis : AnalysisId)
  | compare (req : CompareRequest) (report : ReportId)
  deriving DecidableEq

namespace Work

/-- The snapshot a worker decodes. -/
def decodes : Work → Option SnapshotId
  | .decode req _ => some req.snapshotId
  | .compare .. => none

/-- The worker decodes or compares the snapshot. -/
def uses (work : Work) (id : SnapshotId) : Prop :=
  match work with
  | .decode req _ => req.snapshotId = id
  | .compare req _ => req.baseline.snapshotId = id ∨ req.candidate.snapshotId = id

instance (work : Work) (id : SnapshotId) : Decidable (work.uses id) :=
  match work with
  | .decode req _ => inferInstanceAs (Decidable (req.snapshotId = id))
  | .compare req _ =>
    inferInstanceAs (Decidable (req.baseline.snapshotId = id ∨ req.candidate.snapshotId = id))

end Work

/-- A worker whose report has not been handled; `outcome` once it has written
its files. -/
structure Task where
  worker : Worker
  work : Work
  outcome : Option (Except Error Unit)
  deriving DecidableEq

/-- The job a task was spawned for. -/
def Task.job (t : Task) : JobId := t.worker.record.jobId

/-- The daemon while it runs. -/
structure Daemon where
  coord : Coord
  captures : List CaptureTask
  tasks : List Task
  disk : Disk

/-- What happens to a daemon. A `request` is a message that says all there is
to know; the others also depend on the store. -/
inductive Event
  | request (msg : Msg)
  | prune (size : SnapshotId → Nat) (removable : SnapshotId → Result Unit) (req : PruneRequest)
  | decode (job : JobId) (analysis : AnalysisId) (req : DecodeRequest)
  | compare (job : JobId) (report : ReportId) (req : CompareRequest)
  /-- A capture task moves its staging directory to `snapshots/` and notes in
  the session file that it has. -/
  | captured (t : CaptureTask)
  /-- A decode worker lays out its build-id cache. -/
  | opened (t : Task)
  /-- A worker has done its work and writes what came of it: `rest` is its
  outcome as far as the store does not settle it, with the time. -/
  | worked (t : Task) (rest : Result Nat)
  | reported (t : Task)

namespace Daemon

/-- The coordinator and its tasks, without the store. -/
def sys (d : Daemon) : System := ⟨d.coord, d.captures, d.tasks.map Task.worker⟩

variable (keys : Keys)

/-! ## One event -/

/-- What `handle_decode` finds on disk. -/
def decodeEnv (d : Daemon) (job : JobId) (analysis : AnalysisId) (req : DecodeRequest) :
    DecodeEnv where
  loadManifest := d.disk.loadManifest req.snapshotId
  key := keys.decode req.snapshotId req.detail
  storedAnalysis := d.disk.findAnalysisByKey req.snapshotId
    (keys.decode req.snapshotId req.detail)
  jobId := job
  analysisId := analysis

/-- The message the coordinator handles. -/
def msg (d : Daemon) : Event → Option Msg
  | .request msg => some msg
  | .prune size removable req => some (.prune (d.disk.pruneEnv size removable) req)
  | .decode job analysis req => some (.decode (d.decodeEnv keys job analysis req) req)
  | .compare job report req => some (.compare ⟨keys.compare req, job, report⟩)
  | .reported t => t.outcome.map (Msg.jobFinished t.worker)
  | .captured _ | .opened _ | .worked .. => none

/-- What a worker spawned by an event is asked to do. -/
def workOf : Event → Option Work
  | .request (.published env t) => some (.decode ⟨t.snapshot, .calls false⟩ env.analysisId)
  | .decode _ analysis req => some (.decode req analysis)
  | .compare _ report req => some (.compare req report)
  | _ => none

/-- The snapshots a prune removes. -/
def removed (d : Daemon) (size : SnapshotId → Nat) (removable : SnapshotId → Result Unit)
    (req : PruneRequest) : List SnapshotId :=
  if req.listOnly then []
  else (req.snapshotIds.foldl (pruneOne (d.disk.pruneEnv size removable))
    (d.coord, [], [])).2.1.map Prod.fst

/-- The manifest a decode publishes. -/
def analysisManifest (req : DecodeRequest) (analysis : AnalysisId) (modified : Nat) :
    AnalysisManifest where
  analysisId := analysis
  detail := match req.detail with
    | .calls _ => .calls
    | .instructions _ => .instructions
  decodeMode := match req.detail with
    | .calls true => "fast"
    | _ => "full"
  irVersion := irVersion
  cacheKey := keys.decode req.snapshotId req.detail
  modified := modified

/-- What a worker's work comes to: its files before the job's, and its outcome. -/
def outcomeOf (d : Daemon) (t : Task) (rest : Result Nat) : List Write × Except Error Unit :=
  match t.work with
  | .decode req analysis =>
    match rest with
    | .ok modified => ([.publish req.snapshotId (analysisManifest keys req analysis modified)], .ok ())
    | .error e => ([], .error e)
  | .compare req _ =>
    match d.disk.compareJob req (keys.compare req) t.job (rest.map fun _ => ()) with
    | .ok r => ([.report r], .ok ())
    | .error e => ([], .error e)

/-- The files an event writes, in order; `s` is the coordinator after it. -/
def writes (d : Daemon) (s : System) : Event → List Write
  | .request (.start env _) => s.coord.sessionFile env.sessionId
  | .request (.snapshot env id _) =>
    if (d.coord.sessions.get id).any (·.phase = .armed) ∧ env.persist.toOption.isSome then
      s.coord.sessionFile id ++
        (((s.coord.sessions.get id).bind (·.decodeJob)).map s.coord.jobFile).getD []
    else []
  | .request (.cancel (.session id)) =>
    if (d.coord.sessions.get id).any fun s =>
        s.phase = .starting || s.phase = .armed || s.phase = .finalizing then
      s.coord.sessionFile id
    else []
  | .request (.cancel (.job id)) =>
    if (d.coord.jobs.get id).any (·.phase ≠ .succeeded) then s.coord.jobFile id else []
  | .request (.armed t) => s.coord.sessionFile t.session
  | .request (.failed t) => d.coord.cancelledFile t.session ++ s.coord.sessionFile t.session
  | .request (.published _ t) =>
    if d.coord.blocked t.session then
      d.coord.cancelledFile t.session ++ s.coord.sessionFile t.session
    else
      s.coord.sessionFile t.session ++
        (((s.coord.sessions.get t.session).bind (·.decodeJob)).map fun job =>
          Write.job (queuedDecode job t.snapshot)).toList
  | .request _ => []
  | .prune size removable req => (d.removed size removable req).map .remove
  | .decode job _ _ => s.coord.jobFile job
  | .compare .. => []
  | .captured t =>
    .capture t.snapshot :: ((d.disk.sessions.get t.session).map fun v =>
      Write.session { v with state := some .captured }).toList
  | .opened t => (t.work.decodes.map Write.touch).toList
  | .worked t rest =>
    let (files, outcome) := d.outcomeOf keys t rest
    files ++ [.job (finishedRecord t.worker.record outcome)]
  | .reported _ => []

/-- The coordinator and its tasks after an event. -/
def sysAfter (d : Daemon) (e : Event) : System :=
  match d.msg keys e with
  | some msg => d.sys.handle saturatingPred msg
  | none => d.sys

/-- The workers after an event, with their work. -/
def tasksAfter (d : Daemon) (e : Event) : List Task :=
  match e with
  | .worked t rest => d.tasks.map fun t' =>
    if t' = t then { t with outcome := some (d.outcomeOf keys t rest).2 } else t'
  | .reported t => d.tasks.erase t
  | e => d.tasks ++ (workOf e).toList.flatMap fun work =>
    ((d.sysAfter keys e).workers.drop d.tasks.length).map fun w => ⟨w, work, none⟩

/-- The store after the first `n` writes of an event. -/
def cut (d : Daemon) (e : Event) (n : Nat) : Disk :=
  d.disk.writeAll ((d.writes keys (d.sysAfter keys e) e).take n)

/-- The store after an event. -/
def diskAfter (d : Daemon) (e : Event) : Disk :=
  d.disk.writeAll (d.writes keys (d.sysAfter keys e) e)

/-- The daemon after an event. -/
def handle (d : Daemon) (e : Event) : Daemon :=
  let s := d.sysAfter keys e
  ⟨s.coord, s.captures, d.tasksAfter keys e, d.diskAfter keys e⟩

/-- A daemon starts: `load_persisted`, which also writes the session files
again. -/
def start (limits : Limits) (disk : Disk) : Daemon :=
  let c := disk.load limits
  ⟨c, [], [], disk.writeAll (c.sessions.values.map fun s => .session s.stored)⟩

/-! ## Runs -/

/-- A generated job id names nothing yet. -/
def FreshId (c : Coord) (id : JobId) : Prop :=
  System.FreshJob c id ∧ id ∉ c.cacheJobs.values

/-- The events that can come next. -/
def Enabled (d : Daemon) : Event → Prop
  | .request msg => d.sys.Enabled msg ∧ match msg with
    | .start env _ =>
      env.snapshotId ∉ d.disk.placed ∧ env.snapshotId ∉ d.captures.map CaptureTask.snapshot
    | .snapshot env _ _ => FreshId d.coord env.jobId
    | .published env t => FreshId d.coord env.jobId ∧ t.snapshot ∈ d.disk.placed
    | .armed _ | .failed _ | .cancel _ => True
    | .prune .. | .decode .. | .compare _ | .jobFinished .. => False
  | .prune .. => True
  | .decode job .. | .compare job .. => FreshId d.coord job
  | .captured t => t ∈ d.captures ∧ t.snapshot ∉ d.disk.placed
  | .opened t | .worked t _ => t ∈ d.tasks ∧ t.outcome = none
  | .reported t => t ∈ d.tasks ∧ t.outcome ≠ none

/-- One event of a daemon that keeps running. -/
def Serve (d d' : Daemon) : Prop := ∃ e, d.Enabled e ∧ d' = d.handle keys e

/-- What a daemon that stops leaves on disk: it stops between two events, or
after the first writes of one. -/
def Stop (d : Daemon) (disk : Disk) : Prop :=
  disk = d.disk ∨ ∃ e n, d.Enabled e ∧ disk = d.cut keys e n

/-- A stop and the start after it. -/
def Restart (d d' : Daemon) : Prop := ∃ limits disk, d.Stop keys disk ∧ d' = start limits disk

/-- Some run leads here from a first start on an empty store. -/
def Reachable (d : Daemon) : Prop :=
  ∃ limits, Relation.ReflTransGen (fun d d' => d.Serve keys d' ∨ d.Restart keys d')
    (start limits .empty) d

/-! ## The coordinator's part of it -/

variable {keys} {d d' : Daemon} {e : Event}

/-- The message of an event is one the coordinator can get. -/
theorem Enabled.msg {m : Msg} (hen : d.Enabled e) (hmsg : d.msg keys e = some m) :
    d.sys.Enabled m := by
  cases e with
  | request m' =>
    obtain rfl := Option.some.inj hmsg
    exact hen.1
  | prune size removable req =>
    obtain rfl := Option.some.inj hmsg
    exact trivial
  | decode job analysis req =>
    obtain rfl := Option.some.inj hmsg
    exact hen.1
  | compare job report req =>
    obtain rfl := Option.some.inj hmsg
    exact hen.1
  | captured | opened | worked => cases hmsg
  | reported t =>
    obtain ⟨outcome, -, rfl⟩ := Option.map_eq_some_iff.mp hmsg
    exact List.mem_map_of_mem hen.1

/-- Only events that name a worker's work spawn one. -/
theorem msg_workers (hen : d.Enabled e) (hwork : workOf e = none) (hnot : ∀ t, e ≠ .reported t) :
    (d.sysAfter keys e).workers = d.sys.workers := by
  unfold sysAfter
  cases e with
  | request m =>
    show (d.sys.handle saturatingPred m).workers = _
    cases m with
    | start env req =>
      rw [System.handle]
      split <;> rfl
    | snapshot | cancel | armed | failed => rfl
    | prune | decode | compare | jobFinished => exact hen.2.elim
    | published => cases hwork
  | prune | captured | opened | worked => rfl
  | decode | compare => cases hwork
  | reported t => exact absurd rfl (hnot t)

/-- New workers come last. -/
theorem handle_workers_append {s : System} {m : Msg}
    (hnot : ∀ w outcome, m ≠ .jobFinished w outcome) :
    ∃ new, (s.handle saturatingPred m).workers = s.workers ++ new := by
  cases m with
  | start env req =>
    rw [System.handle]
    split <;> exact ⟨[], (List.append_nil _).symm⟩
  | snapshot | cancel | prune | armed | failed => exact ⟨[], (List.append_nil _).symm⟩
  | decode env req =>
    rw [System.handle]
    split
    next => exact ⟨_, rfl⟩
    next => exact ⟨[], (List.append_nil _).symm⟩
  | compare env =>
    rw [System.handle]
    split
    next => exact ⟨_, rfl⟩
    next => exact ⟨[], (List.append_nil _).symm⟩
  | published env t => exact ⟨_, rfl⟩
  | jobFinished w outcome => exact absurd rfl (hnot w outcome)

/-- Only a report takes a worker away. -/
theorem sysAfter_workers_append (hen : d.Enabled e) (hnot : ∀ t, e ≠ .reported t) :
    ∃ new, (d.sysAfter keys e).workers = d.sys.workers ++ new := by
  unfold sysAfter
  cases hmsg : d.msg keys e with
  | none => exact ⟨[], (List.append_nil _).symm⟩
  | some m =>
    refine handle_workers_append fun w outcome heq => ?_
    subst heq
    cases e with
    | request => exact (Option.some.inj hmsg ▸ hen).2.elim
    | reported t => exact hnot t rfl
    | prune | decode | compare | captured | opened | worked => cases hmsg

/-- The system of a daemon after an event is the coordinator's own. -/
theorem handle_sys (hM : d.sys.Manned) (hen : d.Enabled e) :
    (d.handle keys e).sys = d.sysAfter keys e := by
  have hworkers : (d.tasksAfter keys e).map Task.worker = (d.sysAfter keys e).workers := by
    have hlen : d.tasks.length = d.sys.workers.length := (List.length_map _).symm
    -- what was spawned is what comes after the workers that were there
    have hspawn : (∀ t, e ≠ .reported t) →
        (d.tasks ++ (workOf e).toList.flatMap fun work =>
          ((d.sysAfter keys e).workers.drop d.tasks.length).map fun w =>
            (⟨w, work, none⟩ : Task)).map Task.worker = (d.sysAfter keys e).workers := by
      intro hnot
      cases hwork : workOf e with
      | none => simp [msg_workers hen hwork hnot, sys]
      | some work =>
        obtain ⟨new, hnew⟩ : ∃ new, (d.sysAfter keys e).workers = d.sys.workers ++ new :=
          sysAfter_workers_append hen hnot
        rw [hnew, hlen]
        simp [sys, Function.comp_def]
    cases e with
    | worked t rest =>
      show (d.tasks.map _).map Task.worker = d.tasks.map Task.worker
      rw [List.map_map]
      refine List.map_congr_left fun t' _ => ?_
      show Task.worker (if t' = t then _ else t') = t'.worker
      split
      next heq => rw [heq]
      next => rfl
    | reported t =>
      obtain ⟨hmem, hout⟩ := hen
      obtain ⟨outcome, hout⟩ := Option.ne_none_iff_exists'.mp hout
      have hnodup : (d.tasks.map Task.worker).Nodup := .of_map Worker.job hM.distinct
      unfold sysAfter
      rw [show d.msg keys (.reported t) = some (.jobFinished t.worker outcome) by
        rw [Daemon.msg, hout]; rfl]
      exact map_erase_of_nodup hnodup hmem
    | request | prune | decode | compare | captured | opened => exact hspawn fun t => nofun
  unfold sys handle
  rw [hworkers]

/-! ## Invariants of runs -/

/-- The coordinator's own invariants. -/
structure InOrder (d : Daemon) : Prop where
  seated : d.sys.Seated
  manned : d.sys.Manned

theorem InOrder.handle (hO : d.InOrder) (hen : d.Enabled e) : (d.handle keys e).InOrder := by
  have hsys : (d.handle keys e).sys = d.sysAfter keys e := handle_sys hO.manned hen
  constructor
  · rw [hsys]
    unfold sysAfter
    split
    next m hmsg => exact hO.seated.handle (hen.msg hmsg)
    next => exact hO.seated
  · rw [hsys]
    unfold sysAfter
    split
    next m hmsg => exact hO.manned.handle hO.seated (hen.msg hmsg)
    next => exact hO.manned

theorem start_inOrder (limits : Limits) (disk : Disk) : (start limits disk).InOrder where
  seated := System.boot_seated limits disk.sessions.values disk.jobs.values
    (disk.cacheEntries disk.jobs.values)
  manned := .of_idle rfl rfl

/-- The rule for invariants of runs: `J` of what is on disk at a stop, `I` in
between. -/
theorem Reachable.invariant {I : Daemon → Prop} {J : Disk → Prop} (hempty : J .empty)
    (hstart : ∀ limits disk, J disk → I (start limits disk))
    (hserve : ∀ d e, d.InOrder → d.Enabled e → I d → I (d.handle keys e))
    (hstop : ∀ d disk, d.InOrder → I d → d.Stop keys disk → J disk) (h : d.Reachable keys) :
    d.InOrder ∧ I d := by
  obtain ⟨limits, hrun⟩ := h
  refine reflTransGen_invariant (P := fun d => d.InOrder ∧ I d) ?_ hrun
    ⟨start_inOrder limits .empty, hstart limits .empty hempty⟩
  intro d d' hstep hI
  rcases hstep with ⟨e, hen, rfl⟩ | ⟨limits, disk, hstop', rfl⟩
  · exact ⟨hI.1.handle hen, hserve d e hI.1 hen hI.2⟩
  · exact ⟨start_inOrder limits disk, hstart limits disk (hstop d disk hI.1 hI.2 hstop')⟩

theorem Reachable.inOrder (h : d.Reachable keys) : d.InOrder :=
  (h.invariant (J := fun _ => True) (I := fun _ => True) trivial (fun _ _ _ => trivial)
    (fun _ _ _ _ _ => trivial) fun _ _ _ _ _ => trivial).1

/-- A run without a stop. -/
def Serves (keys : Keys) : Daemon → Daemon → Prop := Relation.ReflTransGen (Serve keys)

/-- The rule for invariants while the daemon keeps running. -/
theorem Serves.invariant {I : Daemon → Prop}
    (hserve : ∀ d e, d.InOrder → d.Enabled e → I d → I (d.handle keys e))
    (h : Serves keys d d') (hO : d.InOrder) (hI : I d) : d'.InOrder ∧ I d' := by
  refine reflTransGen_invariant (P := fun d => d.InOrder ∧ I d) ?_ h ⟨hO, hI⟩
  intro d d' hstep hI
  obtain ⟨e, hen, rfl⟩ := hstep
  exact ⟨hI.1.handle hen, hserve d e hI.1 hen hI.2⟩

/-! ## Replaying events -/

instance (c : Coord) (id : JobId) : Decidable (FreshId c id) :=
  inferInstanceAs (Decidable (_ ∧ _))

instance (d : Daemon) : (e : Event) → Decidable (d.Enabled e)
  | .request msg => by
    unfold Enabled
    cases msg <;> infer_instance
  | .prune .. => inferInstanceAs (Decidable True)
  | .decode job .. | .compare job .. => inferInstanceAs (Decidable (FreshId d.coord job))
  | .captured t => inferInstanceAs (Decidable (t ∈ d.captures ∧ t.snapshot ∉ d.disk.placed))
  | .opened t | .worked t _ => inferInstanceAs (Decidable (t ∈ d.tasks ∧ t.outcome = none))
  | .reported t => inferInstanceAs (Decidable (t ∈ d.tasks ∧ t.outcome ≠ none))

/-- The events can come in this order. -/
def Replays (keys : Keys) : Daemon → List Event → Prop
  | _, [] => True
  | d, e :: es => d.Enabled e ∧ Replays keys (d.handle keys e) es

instance Replays.decidable (keys : Keys) : (d : Daemon) → (es : List Event) →
    Decidable (Replays keys d es)
  | _, [] => inferInstanceAs (Decidable True)
  | d, e :: es =>
    have := Replays.decidable keys (d.handle keys e) es
    inferInstanceAs (Decidable (_ ∧ _))

theorem Replays.serves : ∀ {es : List Event} {d : Daemon}, Replays keys d es →
    Serves keys d (es.foldl (handle keys) d)
  | [], _, _ => .refl
  | _ :: _, _, ⟨hen, h⟩ => .head ⟨_, hen, rfl⟩ h.serves

/-- What has been replayed from the first start can be reached. -/
theorem Replays.reachable {es : List Event} {limits : Limits}
    (h : Replays keys (start limits .empty) es) :
    (es.foldl (handle keys) (start limits .empty)).Reachable keys :=
  ⟨limits, Relation.ReflTransGen.mono (fun _ _ hserve => Or.inl hserve) _ _ h.serves⟩

end Daemon

end TraceMcp.Service
