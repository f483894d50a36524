import TraceMcp.Service.Phases

/-!
# Who works on a job

A job that is not over is somebody's duty: a worker was spawned for it, or a
capture will publish the snapshot its session queued it for. `Deed` says what
one message does to the job table and to the workers, and `Manned` is what it
keeps: every unreported worker finds its own record in the table, waiting,
running or cancelled, and no two workers or captures share a job.
-/

namespace TraceMcp.Service

open TraceMcp.Lib Coord

/-- The decode job of a session. -/
def Coord.decodeJobOf (c : Coord) (id : SessionId) : Option JobId :=
  (c.sessions.get id).bind (·.decodeJob)

/-- The job a worker was spawned for. -/
def Worker.job (w : Worker) : JobId := w.record.jobId

/-- A decode request is answered from what exists, or a worker is spawned for
a record that names its snapshot and analysis. -/
theorem Coord.handleDecode_cases {c c' : Coord} {env : DecodeEnv} {req : DecodeRequest}
    {resp : DecodeResponse} {workers : List Worker}
    (h : c.handleDecode env req = .ok (c', resp, workers)) :
    env.loadManifest = .ok () ∧
      ((c.cachedDecode env = some resp ∧ c' = c ∧ workers = []) ∨
        (c.cachedDecode env = none ∧ ∃ kind ≠ JobKind.compare, ∃ record : JobRecord,
          record = ⟨env.jobId, kind, .queued, some req.snapshotId, some env.analysisId, none, none⟩ ∧
          c' = { c.queueJob env.key record with runningDecode := c.runningDecode + 1 } ∧
          workers = [⟨record, true, false⟩])) := by
  unfold handleDecode at h
  obtain ⟨⟨⟩, hload, h⟩ := bind_ok.mp h
  obtain ⟨detail, -, h⟩ := bind_ok.mp h
  refine ⟨hload, ?_⟩
  dsimp only at h
  split at h
  next cached hcached =>
    cases h
    exact Or.inl ⟨hcached, rfl, rfl⟩
  next hmiss =>
    split at h
    next => cases h
    next =>
      cases h
      refine Or.inr ⟨hmiss, _, ?_, _, rfl, rfl, rfl⟩
      show (if detail = .instructions then JobKind.instructionDecode else .initialDecode) ≠ _
      split <;> decide

/-- A comparison is answered from the cache, or a worker is spawned for it. -/
theorem Coord.handleCompare_cases {c c' : Coord} {env : CompareEnv} {jid : JobId}
    {workers : List Worker} (h : c.handleCompare env = .ok (c', jid, workers)) :
    (c.cacheJobs.get env.key = some jid ∧ c' = c ∧ workers = []) ∨
      (c.cacheJobs.get env.key = none ∧ ∃ record : JobRecord,
        record = ⟨env.jobId, .compare, .queued, none, none, some env.reportId, none⟩ ∧
        c' = { c.queueJob env.key record with pendingExpensive := c.pendingExpensive + 1 } ∧
        workers = [⟨record, false, true⟩]) := by
  unfold handleCompare at h
  split at h
  next hhit =>
    cases h
    exact Or.inl ⟨hhit, rfl, rfl⟩
  next hmiss =>
    split at h
    next => cases h
    next =>
      cases h
      exact Or.inr ⟨hmiss, _, rfl, rfl, rfl⟩

namespace System

variable {s s' : System} {dec : Nat → Nat} {msg : Msg} {c c' : Coord}

/-! ## The job table -/

/-- The job table, read by id, after `record` is written under `id`. -/
def Files (c c' : Coord) (id : JobId) (record : JobRecord) : Prop :=
  ∀ k, c'.jobs.get k = if k = id then some record else c.jobs.get k

theorem Files.of_insert {id : JobId} {record : JobRecord}
    (h : c'.jobs = c.jobs.insert id record) : Files c c' id record := by
  intro k
  rw [h]
  exact FastMap.get_insert c.jobs id k record

/-- The job id generated for a message. -/
def newJob : Msg → Option JobId
  | .snapshot env _ _ => some env.jobId
  | .published env _ => some env.jobId
  | .decode env _ => some env.jobId
  | .compare env => some env.jobId
  | _ => none

theorem Enabled.fresh {id : JobId} (hen : s.Enabled msg) (hnew : newJob msg = some id) :
    FreshJob s.coord id := by
  cases msg with
  | snapshot env | decode env | compare env =>
    obtain rfl := Option.some.inj hnew
    exact hen
  | published env t =>
    obtain rfl := Option.some.inj hnew
    exact hen.2
  | start | cancel | prune | armed | failed | jobFinished => cases hnew

/-- What a message does to the job table and to the workers. -/
inductive Deed (msg : Msg) (s s' : System) : Prop
  | idle (hjobs : ∀ k, s'.coord.jobs.get k = s.coord.jobs.get k) (hworkers : s'.workers = s.workers)
  | cancelled (id : JobId) (j : JobRecord) (hj : s.coord.jobs.get id = some j)
      (hjobs : Files s.coord s'.coord id { j with phase := .cancelled })
      (hworkers : s'.workers = s.workers)
  /-- A snapshot queues the decode of its session. -/
  | queued (session : SessionId) (id : JobId) (snapshot : SnapshotId)
      (hfresh : newJob msg = some id) (hsession : s'.coord.decodeJobOf session = some id)
      (hlive : ∃ sess, s.coord.sessions.get session = some sess ∧ sess.phase = .armed)
      (hcaptures : s'.captures = s.captures)
      (hjobs : Files s.coord s'.coord id (queuedDecode id snapshot))
      (hworkers : s'.workers = s.workers)
  /-- A worker is spawned, for a new job or for one a capture waited with. -/
  | spawned (w : Worker) (phase : JobPhase) (hphase : phase = .queued ∨ phase = .running)
      (hjob : newJob msg = some w.job ∨
        ∃ t ∈ s.captures, s.coord.decodeJobOf t.session = some w.job ∧
          ∀ t' ∈ s'.captures, t'.session ≠ t.session)
      (hjobs : Files s.coord s'.coord w.job { w.record with phase := phase })
      (hworkers : s'.workers = s.workers ++ [w])
  | reported (w : Worker) (hw : w ∈ s.workers) (outcome : Result Unit)
      (hjobs : Files s.coord s'.coord w.job (finishedRecord w.record outcome))
      (hworkers : s'.workers = s.workers.erase w)

theorem releaseCaptureSlot_decodeJobOf (dec : Nat → Nat) (c : Coord) (id id' : SessionId) :
    (c.releaseCaptureSlot dec id).decodeJobOf id' = c.decodeJobOf id' := by
  unfold releaseCaptureSlot
  split
  next sess hsess =>
    split
    next =>
      unfold decodeJobOf
      rw [FastMap.get_insert]
      split
      next heq => rw [heq, hsess]; rfl
      next => rfl
    next => rfl
  next => rfl

/-- A capture that ends without a snapshot takes its queued job with it. -/
theorem settled_jobs (dec : Nat → Nat) (c : Coord) (id : SessionId) :
    ((∀ k, (settled dec c id).jobs.get k = c.jobs.get k) ∧
        ∀ job j, c.decodeJobOf id = some job → c.jobs.get job = some j → j.phase ≠ .queued) ∨
      ∃ job j, c.decodeJobOf id = some job ∧ c.jobs.get job = some j ∧
        Files c (settled dec c id) job { j with phase := .cancelled } := by
  have heq : (settled dec c id).jobs = (c.cancelQueuedSessionJob id).jobs :=
    releaseCaptureSlot_jobs dec _ id
  unfold Files
  simp only [heq]
  unfold cancelQueuedSessionJob decodeJobOf
  split
  next hnone => exact Or.inl ⟨fun _ => rfl, fun job j hjob => by rw [hnone] at hjob; cases hjob⟩
  next job hjob =>
    cases hj : c.jobs.get job with
    | none =>
      refine Or.inl ⟨fun k => by rw [FastMap.modify_of_none hj], fun job' j' hjob' hj' => ?_⟩
      obtain rfl := Option.some.inj (hjob.symm.trans hjob')
      rw [hj] at hj'
      cases hj'
    | some j =>
      by_cases hqueued : j.phase = .queued
      · refine Or.inr ⟨job, j, hjob, hj, fun k => ?_⟩
        rw [FastMap.modify_of_get hj, if_pos hqueued]
        exact FastMap.get_insert c.jobs job k _
      · refine Or.inl ⟨fun k => ?_, fun job' j' hjob' hj' => ?_⟩
        · rw [FastMap.modify_of_get hj, if_neg hqueued, FastMap.get_insert]
          split
          next heq => rw [heq, hj]
          next => rfl
        · obtain rfl := Option.some.inj (hjob.symm.trans hjob')
          obtain rfl := Option.some.inj (hj.symm.trans hj')
          exact hqueued

theorem Deed.of_coord (hjobs : s'.coord.jobs = s.coord.jobs) (hworkers : s'.workers = s.workers) :
    Deed msg s s' :=
  .idle (fun k => by rw [hjobs]) hworkers

/-- A failed capture and a blocked publication leave the job table alike. -/
theorem Deed.of_settled {id : SessionId} (hc : c.jobs = s.coord.jobs)
    (hcoord : s'.coord.jobs = (settled dec c id).jobs) (hworkers : s'.workers = s.workers) :
    Deed msg s s' := by
  rcases settled_jobs dec c id with ⟨hsame, -⟩ | ⟨job, j, -, hj, hfiles⟩
  · exact .idle (fun k => by rw [hcoord, hsame, hc]) hworkers
  · refine .cancelled job j (hc ▸ hj) (fun k => ?_) hworkers
    rw [hcoord, hfiles, hc]

/-- The decode job a finalizing session gets. -/
theorem finalizeSession_jobs (c : Coord) (env : SnapshotEnv) (id : SessionId) (sess : Session)
    (reason : CaptureReason) (hnone : sess.decodeJob = none) :
    (c.finalizeSession env id sess reason).1.decodeJobOf id = some env.jobId ∧
      ((c.finalizeSession env id sess reason).1.jobs = c.jobs ∨
        ∃ snapshot, (c.finalizeSession env id sess reason).1.jobs =
          c.jobs.insert env.jobId (queuedDecode env.jobId snapshot)) := by
  unfold finalizeSession decodeJobOf
  dsimp only
  split
  next =>
    refine ⟨?_, Or.inl rfl⟩
    rw [FastMap.get_insert_self, hnone]
    rfl
  next =>
    refine ⟨?_, Or.inr ⟨sess.snapshotId.getD env.snapshotId, ?_⟩⟩
    · show (FastMap.get (AList.insert id _ _) id).bind _ = _
      rw [FastMap.get_insert_self, hnone]
      rfl
    · rw [hnone]
      rfl

theorem startDecode_files (dec : Nat → Nat) (job : JobId) (snapshot : SnapshotId)
    (analysis : AnalysisId) (hjobs : c'.jobs = c.jobs) :
    Files c (c'.startDecode dec job snapshot analysis).1 job
      { queuedDecode job snapshot with analysisId := some analysis, phase := .running } := by
  refine .of_insert ?_
  show AList.insert _ _ c'.jobs = _
  rw [hjobs]
  rfl

/-- There is one capture of a session. -/
theorem erase_session_ne (hS : s.Seated) {t t' : CaptureTask} (ht : t ∈ s.captures)
    (ht' : t' ∈ s.captures.erase t) : t'.session ≠ t.session := by
  have hnodup : s.captures.Nodup := .of_map _ hS.distinct
  obtain ⟨hne, hmem⟩ := hnodup.mem_erase_iff.mp ht'
  exact fun heq => hne (List.inj_on_of_nodup_map hS.distinct hmem ht heq)

/-- Each message does one deed. -/
theorem handle_deed (dec : Nat → Nat) (hS : s.Seated) (hen : s.Enabled msg) :
    Deed msg s (s.handle dec msg) := by
  cases msg with
  | start env req =>
    rw [System.handle]
    cases hstart : s.coord.handleStart env req with
    | error e => exact .of_coord rfl rfl
    | ok x =>
      obtain ⟨c', resp, tasks⟩ := x
      rcases handleStart_ok hstart with ⟨rfl, rfl⟩ | ⟨-, -, req', hash, config, rfl, rfl⟩
      · exact .of_coord rfl rfl
      · exact .of_coord rfl rfl
  | snapshot env id reason =>
    rw [System.handle, handleSnapshot]
    split
    next => exact .of_coord rfl rfl
    next sess hsess =>
      split
      next => exact .of_coord rfl rfl
      next => exact .of_coord rfl rfl
      next => exact .of_coord rfl rfl
      next => split <;> exact .of_coord rfl rfl
      next => split <;> exact .of_coord rfl rfl
      -- an armed session finalizes, and its decode is queued if it can be persisted
      next hphase =>
        have hnone : sess.decodeJob = none := hS.undecoded id sess hsess (by rw [hphase]; decide)
        obtain ⟨hjob, hsame | ⟨snapshot, hinsert⟩⟩ :=
          finalizeSession_jobs s.coord env id sess reason hnone
        · exact .of_coord hsame rfl
        · exact .queued id env.jobId snapshot rfl hjob ⟨sess, hsess, hphase⟩ rfl
            (.of_insert hinsert) rfl
  | cancel target =>
    cases target with
    | session id =>
      refine .of_coord ?_ rfl
      show (s.coord.cancelSession dec id).1.jobs = _
      unfold cancelSession
      split
      next => rfl
      next => split <;> first | rfl | exact releaseCaptureSlot_jobs ..
    | job id =>
      rw [System.handle, handleCancel, cancelJob]
      split
      next j hj =>
        split
        next => exact .of_coord rfl rfl
        next => exact .cancelled id j hj (.of_insert rfl) rfl
      next => exact .of_coord rfl rfl
  | prune env req =>
    obtain ⟨cache, hcache⟩ := handlePrune_eq (c := s.coord) env req
    refine .of_coord ?_ rfl
    show (s.coord.handlePrune env req).1.jobs = _
    rw [hcache]
  | decode env req =>
    rw [System.handle]
    cases hdecode : s.coord.handleDecode env req with
    | error e => exact .of_coord rfl rfl
    | ok x =>
      obtain ⟨c', resp, workers⟩ := x
      rcases (handleDecode_cases hdecode).2 with ⟨-, rfl, rfl⟩ | ⟨-, kind, -, record, rfl, rfl, rfl⟩
      · exact .of_coord rfl (List.append_nil _)
      · refine .spawned _ .queued (Or.inl rfl) ?_ (.of_insert rfl) rfl
        exact Or.inl rfl
  | compare env =>
    rw [System.handle]
    cases hcompare : s.coord.handleCompare env with
    | error e => exact .of_coord rfl rfl
    | ok x =>
      obtain ⟨c', resp, workers⟩ := x
      rcases handleCompare_cases hcompare with ⟨-, rfl, rfl⟩ | ⟨-, record, rfl, rfl, rfl⟩
      · exact .of_coord rfl (List.append_nil _)
      · refine .spawned _ .queued (Or.inl rfl) ?_ (.of_insert rfl) rfl
        exact Or.inl rfl
  | armed t => exact .of_coord rfl rfl
  | failed t => exact .of_settled (modSession_jobs t.session _) rfl rfl
  | published env t =>
    -- a session that was cancelled meanwhile is only settled
    cases hblocked : s.coord.blocked t.session with
    | true =>
      rw [System.handle, handlePublished, if_pos hblocked]
      exact .of_settled (modSession_jobs t.session _) rfl (List.append_nil _)
    | false =>
      obtain ⟨sess, hsess, heq⟩ := handlePublished_unblocked dec hS hen.1 env hblocked
      rw [System.handle, heq]
      have hjobs := releaseCaptureSlot_jobs dec { s.coord with
        sessions := s.coord.sessions.insert t.session { sess with
          phase := .captured, snapshotId := some t.snapshot
          decodeJob := some (sess.decodeJob.getD env.jobId) } } t.session
      have hfiles := startDecode_files dec (sess.decodeJob.getD env.jobId) t.snapshot env.analysisId
        hjobs
      refine .spawned ⟨{ queuedDecode (sess.decodeJob.getD env.jobId) t.snapshot with
        analysisId := some env.analysisId }, true, false⟩ .running (Or.inr rfl) ?_ hfiles rfl
      cases hdecode : sess.decodeJob with
      | none => exact Or.inl rfl
      | some job =>
        refine Or.inr ⟨t, hen.1, ?_, fun t' ht' => erase_session_ne hS hen.1 ht'⟩
        rw [decodeJobOf, hsess]
        exact hdecode
  | jobFinished w outcome =>
    refine .reported w hen outcome (.of_insert ?_) rfl
    rw [System.handle, handleJobFinished_eq]
    cases outcome <;> rfl

/-! ## The captures that wait -/

theorem decodeJobOf_of_sessions (h : c'.sessions = c.sessions) (id : SessionId) :
    c'.decodeJobOf id = c.decodeJobOf id := by
  rw [decodeJobOf, decodeJobOf, h]

/-- Rewriting a session without touching its job. -/
theorem decodeJobOf_insert {id : SessionId} {sess sess' : Session}
    (hsess : c.sessions.get id = some sess) (h : c'.sessions = c.sessions.insert id sess')
    (hjob : sess'.decodeJob = sess.decodeJob) (id' : SessionId) :
    c'.decodeJobOf id' = c.decodeJobOf id' := by
  unfold decodeJobOf
  rw [h, FastMap.get_insert]
  split
  next heq => rw [heq, hsess]; exact hjob
  next => rfl

theorem modSession_decodeJobOf {f : Session → Session}
    (hf : ∀ sess, (f sess).decodeJob = sess.decodeJob) (id id' : SessionId) :
    (c.modSession id f).decodeJobOf id' = c.decodeJobOf id' := by
  cases hsess : c.sessions.get id with
  | none => exact decodeJobOf_of_sessions (FastMap.modify_of_none hsess f) id'
  | some sess => exact decodeJobOf_insert hsess (FastMap.modify_of_get hsess f) (hf sess) id'

theorem settled_decodeJobOf (dec : Nat → Nat) (c : Coord) (id id' : SessionId) :
    (settled dec c id).decodeJobOf id' = c.decodeJobOf id' := by
  show (releaseCaptureSlot dec (c.cancelQueuedSessionJob id) id).decodeJobOf id' = _
  rw [releaseCaptureSlot_decodeJobOf]
  exact decodeJobOf_of_sessions (cancelQueuedSessionJob_sessions c id) id'

theorem cancelSession_decodeJobOf (dec : Nat → Nat) (c : Coord) (id id' : SessionId) :
    (c.cancelSession dec id).1.decodeJobOf id' = c.decodeJobOf id' := by
  unfold cancelSession
  split
  next => rfl
  next sess hsess =>
    have habort : { c with sessions := c.sessions.insert id { sess with
        phase := .cancelled, stop := sess.stop.map fun _ => some .abort } }.decodeJobOf id' =
          c.decodeJobOf id' := by
      refine decodeJobOf_insert hsess rfl ?_ id'
      rfl
    split
    next => rfl
    next => rfl
    next => rfl
    all_goals exact (releaseCaptureSlot_decodeJobOf ..).trans habort

/-- The snapshot handler names a job for its own session only. -/
theorem handleSnapshot_decodeJobOf (env : SnapshotEnv) (reason : CaptureReason)
    {id id' : SessionId} (hne : id' ≠ id) :
    (c.handleSnapshot env id reason).1.decodeJobOf id' = c.decodeJobOf id' := by
  unfold handleSnapshot decodeJobOf
  split
  next => rfl
  next sess hsess =>
    split
    next => rfl
    next => rfl
    next => rfl
    next => split <;> rfl
    next => split <;> rfl
    next =>
      unfold finalizeSession
      dsimp only
      split
      next => rw [FastMap.get_insert, if_neg hne]
      next =>
        show (FastMap.get (AList.insert id _ (AList.insert id _ c.sessions)) id').bind _ = _
        rw [AList.insert_insert, FastMap.get_insert, if_neg hne]

theorem handleSnapshot_decodeJobOf_self (hS : s.Seated) (env : SnapshotEnv) (id : SessionId)
    (reason : CaptureReason) :
    (s.coord.handleSnapshot env id reason).1.decodeJobOf id = s.coord.decodeJobOf id ∨
      (s.coord.decodeJobOf id = none ∧
        (s.coord.handleSnapshot env id reason).1.decodeJobOf id = some env.jobId) := by
  unfold handleSnapshot
  split
  next => exact Or.inl rfl
  next sess hsess =>
    split
    next => exact Or.inl rfl
    next => exact Or.inl rfl
    next => exact Or.inl rfl
    next => split <;> exact Or.inl rfl
    next => split <;> exact Or.inl rfl
    next hphase =>
      have hnone : sess.decodeJob = none := hS.undecoded id sess hsess (by rw [hphase]; decide)
      refine Or.inr ⟨?_, (finalizeSession_jobs s.coord env id sess reason hnone).1⟩
      rw [decodeJobOf, hsess]
      exact hnone

/-- A capture waits with a job. -/
def Waits (s : System) (id : SessionId) (job : JobId) : Prop :=
  (∃ t ∈ s.captures, t.session = id) ∧ s.coord.decodeJobOf id = some job

theorem FreshJob.not_waits {id : SessionId} {job : JobId} (h : FreshJob s.coord job) :
    ¬ Waits s id job := by
  intro hwaits
  obtain ⟨-, hjob⟩ := hwaits
  obtain ⟨sess, hsess, hdecode⟩ := Option.bind_eq_some_iff.mp hjob
  exact h.2 sess (FastMap.mem_values.mpr ⟨id, hsess⟩) hdecode

/-- What a message does to the jobs that captures wait with: a snapshot may
name a new one for its session. -/
theorem handle_decodeJobOf (dec : Nat → Nat) (hS : s.Seated) (hen : s.Enabled msg) :
    ∀ t ∈ (s.handle dec msg).captures,
      ((s.handle dec msg).coord.decodeJobOf t.session = s.coord.decodeJobOf t.session ∧
        (s.coord.decodeJobOf t.session ≠ none → ∃ t₀ ∈ s.captures, t₀.session = t.session)) ∨
      (s.coord.decodeJobOf t.session = none ∧ ∃ env reason,
        msg = .snapshot env t.session reason ∧
          (s.handle dec msg).coord.decodeJobOf t.session = some env.jobId) := by
  -- no capture is new and no session's job changes
  have hquiet : ∀ {s' : System}, (∀ t ∈ s'.captures, ∃ t₀ ∈ s.captures, t₀.session = t.session) →
      (∀ t ∈ s'.captures, s'.coord.decodeJobOf t.session = s.coord.decodeJobOf t.session) →
      ∀ t ∈ s'.captures,
        (s'.coord.decodeJobOf t.session = s.coord.decodeJobOf t.session ∧
          (s.coord.decodeJobOf t.session ≠ none → ∃ t₀ ∈ s.captures, t₀.session = t.session)) ∨
        (s.coord.decodeJobOf t.session = none ∧ ∃ env reason,
          msg = .snapshot env t.session reason ∧
            s'.coord.decodeJobOf t.session = some env.jobId) :=
    fun hcap hjob t ht => Or.inl ⟨hjob t ht, fun _ => hcap t ht⟩
  have hself : ∀ t ∈ s.captures, ∃ t₀ ∈ s.captures, t₀.session = t.session :=
    fun t ht => ⟨t, ht, rfl⟩
  cases msg with
  | start env req =>
    rw [System.handle]
    cases hstart : s.coord.handleStart env req with
    | error e => exact hquiet hself fun _ _ => rfl
    | ok x =>
      obtain ⟨c', resp, tasks⟩ := x
      rcases handleStart_ok hstart with ⟨rfl, rfl⟩ | ⟨-, -, req', hash, config, rfl, rfl⟩
      · refine hquiet (fun t ht => ?_) fun _ _ => rfl
        exact hself t (by simpa using ht)
      · have hnone : s.coord.decodeJobOf env.sessionId = none := by
          rw [decodeJobOf, show s.coord.sessions.get env.sessionId = none from hen]
          rfl
        have hget : ∀ id, (s.coord.addSession (newSession env req' hash config)).decodeJobOf id =
            s.coord.decodeJobOf id := by
          intro id
          by_cases heq : id = env.sessionId
          · rw [heq, hnone]
            unfold decodeJobOf
            show (FastMap.get (s.coord.sessions.insert env.sessionId _) env.sessionId).bind _ = _
            rw [FastMap.get_insert_self]
            rfl
          · unfold decodeJobOf
            show (FastMap.get (s.coord.sessions.insert env.sessionId _) id).bind _ = _
            rw [FastMap.get_insert, if_neg heq]
        refine fun t ht => Or.inl ⟨hget t.session, fun hsome => ?_⟩
        rcases List.mem_append.mp ht with ht | ht
        · exact hself t ht
        · rw [List.mem_singleton.mp ht] at hsome
          exact absurd hnone hsome
  | snapshot env id reason =>
    intro t ht
    by_cases heq : t.session = id
    · subst heq
      rcases handleSnapshot_decodeJobOf_self hS env t.session reason with hsame | ⟨hnone, hnew⟩
      · exact Or.inl ⟨hsame, fun _ => ⟨t, ht, rfl⟩⟩
      · exact Or.inr ⟨hnone, env, reason, rfl, hnew⟩
    · exact Or.inl ⟨handleSnapshot_decodeJobOf env reason heq, fun _ => hself t ht⟩
  | cancel target =>
    cases target with
    | session id => exact hquiet hself fun t _ => cancelSession_decodeJobOf dec s.coord id t.session
    | job id => exact hquiet hself fun t _ => decodeJobOf_of_sessions (cancelJob_sessions id) _
  | prune env req =>
    obtain ⟨cache, hcache⟩ := handlePrune_eq (c := s.coord) env req
    refine hquiet hself fun t _ => decodeJobOf_of_sessions ?_ t.session
    show (s.coord.handlePrune env req).1.sessions = _
    rw [hcache]
  | decode env req =>
    rw [System.handle]
    cases hdecode : s.coord.handleDecode env req with
    | error e => exact hquiet hself fun _ _ => rfl
    | ok x =>
      obtain ⟨c', resp, workers⟩ := x
      rcases handleDecode_ok hdecode with ⟨rfl, rfl⟩ | ⟨-, record, -, -, rfl, rfl⟩
      · exact hquiet hself fun _ _ => rfl
      · exact hquiet hself fun _ _ => rfl
  | compare env =>
    rw [System.handle]
    cases hcompare : s.coord.handleCompare env with
    | error e => exact hquiet hself fun _ _ => rfl
    | ok x =>
      obtain ⟨c', resp, workers⟩ := x
      rcases handleCompare_ok hcompare with ⟨rfl, rfl⟩ | ⟨-, -, record, -, -, rfl, rfl⟩
      · exact hquiet hself fun _ _ => rfl
      · exact hquiet hself fun _ _ => rfl
  | armed t =>
    refine hquiet (fun t' ht' => ?_) fun t' _ => modSession_decodeJobOf (fun sess => ?_) _ _
    · rcases List.mem_append.mp ht' with ht' | ht'
      · exact hself t' (List.mem_of_mem_erase ht')
      · exact ⟨t, hen.1, by rw [List.mem_singleton.mp ht']⟩
    · split <;> rfl
  | failed t =>
    refine hquiet (fun t' ht' => hself t' (List.mem_of_mem_erase ht')) fun t' _ => ?_
    refine (settled_decodeJobOf dec _ t.session t'.session).trans ?_
    refine modSession_decodeJobOf (fun sess => ?_) _ _
    split <;> rfl
  | published env t =>
    refine hquiet (fun t' ht' => hself t' (List.mem_of_mem_erase ht')) fun t' ht' => ?_
    have hne : t'.session ≠ t.session := erase_session_ne hS hen.1 ht'
    cases hblocked : s.coord.blocked t.session with
    | true =>
      rw [System.handle, handlePublished, if_pos hblocked]
      refine (settled_decodeJobOf dec _ t.session t'.session).trans ?_
      refine modSession_decodeJobOf (fun sess => ?_) _ _
      split <;> rfl
    | false =>
      obtain ⟨sess, hsess, heq⟩ := handlePublished_unblocked dec hS hen.1 env hblocked
      rw [System.handle, heq]
      refine (releaseCaptureSlot_decodeJobOf dec _ t.session t'.session).trans ?_
      unfold decodeJobOf
      rw [FastMap.get_insert, if_neg hne]
  | jobFinished w outcome =>
    exact hquiet hself fun t _ => decodeJobOf_of_sessions (handleJobFinished_sessions ..) _

/-- A capture that waits with a job has waited with it before, or a snapshot
has just queued it for this session. -/
theorem handle_waits (dec : Nat → Nat) (hS : s.Seated) (hen : s.Enabled msg) {id : SessionId}
    {job : JobId} (hwaits : Waits (s.handle dec msg) id job) :
    Waits s id job ∨ ∃ env reason, msg = .snapshot env id reason ∧ job = env.jobId := by
  obtain ⟨⟨t, ht, rfl⟩, hdecode⟩ := hwaits
  rcases handle_decodeJobOf dec hS hen t ht with ⟨hsame, hcap⟩ | ⟨-, env, reason, hmsg, hnew⟩
  · rw [hsame] at hdecode
    exact Or.inl ⟨hcap (by rw [hdecode]; exact Option.some_ne_none job), hdecode⟩
  · exact Or.inr ⟨env, reason, hmsg, Option.some.inj (hdecode.symm.trans hnew)⟩

/-! ## What a message keeps -/

/-- Every unreported worker finds its record in the job table, not over unless
cancelled; no two workers have a job in common, nor have a worker and a waiting
capture, nor two of those. -/
structure Manned (s : System) : Prop where
  known : ∀ w ∈ s.workers, ∃ phase : JobPhase,
    (phase = .queued ∨ phase = .running ∨ phase = .cancelled) ∧
      s.coord.jobs.get w.job = some { w.record with phase := phase }
  distinct : (s.workers.map Worker.job).Nodup
  apart : ∀ id job, Waits s id job → ∀ w ∈ s.workers, w.job ≠ job
  unique : ∀ id id' job, Waits s id job → Waits s id' job → id = id'

theorem Manned.not_fresh (hM : s.Manned) {w : Worker} (hw : w ∈ s.workers) :
    ¬ FreshJob s.coord w.job := by
  intro hfresh
  obtain ⟨phase, -, hjob⟩ := hM.known w hw
  rw [hfresh.1] at hjob
  cases hjob

/-- A worker whose job is not written keeps its record, but for a cancel. -/
theorem Manned.known_of_other {w : Worker} (hM : s.Manned) (hw : w ∈ s.workers) {id : JobId}
    {record : JobRecord} (hfiles : Files s.coord s'.coord id record) (hne : w.job ≠ id) :
    ∃ phase : JobPhase, (phase = .queued ∨ phase = .running ∨ phase = .cancelled) ∧
      s'.coord.jobs.get w.job = some { w.record with phase := phase } := by
  rw [hfiles, if_neg hne]
  exact hM.known w hw

theorem Manned.of_deed (hM : s.Manned) (hen : s.Enabled msg) (hdeed : Deed msg s s')
    (hwaits : ∀ id job, Waits s' id job →
      Waits s id job ∨ ∃ env reason, msg = .snapshot env id reason ∧ job = env.jobId)
    (hsnapshot : ∀ env id reason, msg = .snapshot env id reason → s'.workers = s.workers) :
    s'.Manned := by
  have hunique : ∀ id id' job, Waits s' id job → Waits s' id' job → id = id' := by
    intro id id' job hid hid'
    rcases hwaits id job hid with hold | ⟨env, reason, rfl, rfl⟩
    · rcases hwaits id' job hid' with hold' | ⟨env, reason, rfl, heq⟩
      · exact hM.unique id id' job hold hold'
      · rw [heq] at hold
        exact absurd hold (FreshJob.not_waits hen)
    · rcases hwaits id' _ hid' with hold' | ⟨env', reason', heq, -⟩
      · exact absurd hold' (FreshJob.not_waits hen)
      · cases heq
        rfl
  -- the workers that were there before
  have hold : ∀ id job, Waits s' id job → ∀ w ∈ s.workers, w.job ≠ job := by
    intro id job hid w hw heq
    rcases hwaits id job hid with hbefore | ⟨env, reason, rfl, rfl⟩
    · exact hM.apart id job hbefore w hw heq
    · exact hM.not_fresh hw (heq ▸ hen)
  cases hdeed with
  | idle hjobs hworkers =>
    refine ⟨fun w hw => ?_, hworkers ▸ hM.distinct, hworkers ▸ hold, hunique⟩
    rw [hjobs]
    exact hM.known w (hworkers ▸ hw)
  | cancelled id j hj hfiles hworkers =>
    refine ⟨fun w hw => ?_, hworkers ▸ hM.distinct, hworkers ▸ hold, hunique⟩
    by_cases heq : w.job = id
    · obtain ⟨phase, -, hjob⟩ := hM.known w (hworkers ▸ hw)
      rw [heq, hj] at hjob
      refine ⟨.cancelled, Or.inr (Or.inr rfl), ?_⟩
      rw [hfiles, if_pos heq, Option.some.inj hjob]
    · exact hM.known_of_other (hworkers ▸ hw) hfiles heq
  | queued session id snapshot hfresh _ _ _ hfiles hworkers =>
    refine ⟨fun w hw => ?_, hworkers ▸ hM.distinct, hworkers ▸ hold, hunique⟩
    refine hM.known_of_other (hworkers ▸ hw) hfiles fun heq => ?_
    exact hM.not_fresh (hworkers ▸ hw) (heq ▸ hen.fresh hfresh)
  | spawned w phase hphase hjob hfiles hworkers =>
    have hnew : ∀ w₀ ∈ s.workers, w₀.job ≠ w.job := by
      intro w₀ hw₀ heq
      rcases hjob with hfresh | ⟨t, ht, hdecode, -⟩
      · exact hM.not_fresh hw₀ (heq ▸ hen.fresh hfresh)
      · exact hM.apart t.session w.job ⟨⟨t, ht, rfl⟩, hdecode⟩ w₀ hw₀ heq
    have halone : ∀ id, ¬ Waits s' id w.job := by
      intro id hid
      rcases hwaits id w.job hid with hbefore | ⟨env, reason, hmsg, -⟩
      · rcases hjob with hfresh | ⟨t, ht, hdecode, hgone⟩
        · exact (hen.fresh hfresh).not_waits hbefore
        · obtain ⟨⟨t', ht', heq⟩, -⟩ := hid
          refine hgone t' ht' (heq.trans ?_)
          exact hM.unique id t.session w.job hbefore ⟨⟨t, ht, rfl⟩, hdecode⟩
      · have hlength := congrArg List.length (hworkers.symm.trans (hsnapshot env id reason hmsg))
        simp at hlength
    refine ⟨fun w' hw' => ?_, ?_, fun id job hid w' hw' => ?_, hunique⟩
    · rw [hworkers, List.mem_append, List.mem_singleton] at hw'
      rcases hw' with hw' | rfl
      · exact hM.known_of_other hw' hfiles (hnew w' hw')
      · refine ⟨phase, ?_, by rw [hfiles, if_pos rfl]⟩
        rcases hphase with rfl | rfl
        · exact Or.inl rfl
        · exact Or.inr (Or.inl rfl)
    · rw [hworkers, List.map_append, List.nodup_append]
      refine ⟨hM.distinct, List.nodup_singleton _, fun job hjob' job' hjob'' heq => ?_⟩
      obtain ⟨w₀, hw₀, rfl⟩ := List.mem_map.mp hjob'
      exact hnew w₀ hw₀ (heq.trans (List.mem_singleton.mp hjob''))
    · rw [hworkers, List.mem_append, List.mem_singleton] at hw'
      rcases hw' with hw' | rfl
      · exact hold id job hid w' hw'
      · rintro rfl
        exact halone id hid
  | reported w hw outcome hfiles hworkers =>
    have hnodup : s.workers.Nodup := .of_map _ hM.distinct
    have hother : ∀ w' ∈ s'.workers, w' ∈ s.workers ∧ w'.job ≠ w.job := by
      intro w' hw'
      rw [hworkers] at hw'
      obtain ⟨hne, hmem⟩ := hnodup.mem_erase_iff.mp hw'
      exact ⟨hmem, fun heq => hne (List.inj_on_of_nodup_map hM.distinct hmem hw heq)⟩
    refine ⟨fun w' hw' => ?_, ?_, fun id job hid w' hw' => ?_, hunique⟩
    · exact hM.known_of_other (hother w' hw').1 hfiles (hother w' hw').2
    · rw [hworkers]
      exact hM.distinct.sublist (List.erase_sublist.map _)
    · exact hold id job hid w' (hother w' hw').1

/-- The workers stay manned. -/
theorem Manned.handle (hM : s.Manned) (hS : s.Seated) (hen : s.Enabled msg) :
    (s.handle dec msg).Manned := by
  refine hM.of_deed hen (handle_deed dec hS hen) (fun _ _ => handle_waits dec hS hen) ?_
  rintro env id reason rfl
  rfl

/-- Nobody works right after a start. -/
theorem Manned.of_idle (hcaptures : s.captures = []) (hworkers : s.workers = []) : s.Manned := by
  have hnot : ∀ id job, ¬ Waits s id job := by
    intro id job hwaits
    obtain ⟨⟨t, ht, -⟩, -⟩ := hwaits
    rw [hcaptures] at ht
    exact List.not_mem_nil ht
  refine ⟨?_, ?_, fun id job hid => absurd hid (hnot id job), fun id _ job hid => absurd hid (hnot id job)⟩
  · rw [hworkers]
    exact fun w hw => absurd hw List.not_mem_nil
  · rw [hworkers]
    exact List.nodup_nil

end System

end TraceMcp.Service
