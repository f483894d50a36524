import TraceMcp.Service.Daemon
import TraceMcp.Service.Duties

/-!
# What a stop leaves behind

While the daemon runs, a job that is not over always has a worker, or a
capture that waits with it, and a session that is not over has its capture
(`Attended`). A restart loses the workers and the captures. `load_persisted`
ends the sessions it finds, but takes the jobs as they are: what was queued on
disk is queued for good, and in the way of every prune of its snapshot.
-/

namespace TraceMcp.Service

open TraceMcp.Lib Coord

namespace System

variable {s s' : System} {dec : Nat → Nat} {msg : Msg} {c : Coord}

/-! ## While the daemon runs -/

/-- Whatever is not over is somebody's duty. -/
structure Attended (s : System) : Prop where
  jobs : ∀ id j, s.coord.jobs.get id = some j → j.phase.terminal = false →
    (∃ w ∈ s.workers, w.job = id) ∨ (j.phase = .queued ∧ ∃ session, Waits s session id)
  sessions : ∀ id sess, s.coord.sessions.get id = some sess → sess.phase.terminal = false →
    ∃ t ∈ s.captures, t.session = id

theorem releaseCaptureSlot_phase (dec : Nat → Nat) {id id' : SessionId} {sess' : Session}
    (h : (c.releaseCaptureSlot dec id).sessions.get id' = some sess') :
    ∃ sess, c.sessions.get id' = some sess ∧ sess'.phase = sess.phase := by
  unfold releaseCaptureSlot at h
  split at h
  next sess hsess =>
    split at h
    next =>
      rw [FastMap.get_insert] at h
      split at h
      next heq =>
        obtain rfl := Option.some.inj h
        exact ⟨sess, heq ▸ hsess, rfl⟩
      next => exact ⟨sess', h, rfl⟩
    next => exact ⟨sess', h, rfl⟩
  next => exact ⟨sess', h, rfl⟩

theorem settled_phase (dec : Nat → Nat) {id id' : SessionId} {sess' : Session}
    (h : (settled dec c id).sessions.get id' = some sess') :
    ∃ sess, c.sessions.get id' = some sess ∧ sess'.phase = sess.phase := by
  have hrelease : ((c.cancelQueuedSessionJob id).releaseCaptureSlot dec id).sessions.get id' =
      some sess' := h
  obtain ⟨sess, hsess, hphase⟩ := releaseCaptureSlot_phase dec hrelease
  rw [cancelQueuedSessionJob_sessions] at hsess
  exact ⟨sess, hsess, hphase⟩

/-- No queued job survives the capture that waited with it. -/
theorem settled_not_queued (dec : Nat → Nat) (c : Coord) (id : SessionId) {job : JobId}
    {j : JobRecord} (hdecode : c.decodeJobOf id = some job)
    (hj : (settled dec c id).jobs.get job = some j) : j.phase ≠ .queued := by
  rcases settled_jobs dec c id with ⟨hsame, hnone⟩ | ⟨job', j', hdecode', hj', hfiles⟩
  · rw [hsame] at hj
    exact hnone job j hdecode hj
  · obtain rfl := Option.some.inj (hdecode.symm.trans hdecode')
    rw [hfiles, if_pos rfl] at hj
    obtain rfl := Option.some.inj hj
    exact JobPhase.noConfusion

/-- A capture stays, or its session and its queued job are over. -/
theorem capture_kept (dec : Nat → Nat) (hS : s.Seated) (hen : s.Enabled msg) {t : CaptureTask}
    (ht : t ∈ s.captures) :
    (∃ t' ∈ (s.handle dec msg).captures, t'.session = t.session) ∨
      ((∀ sess', (s.handle dec msg).coord.sessions.get t.session = some sess' →
          sess'.phase.terminal = true) ∧
        ∀ job j, s.coord.decodeJobOf t.session = some job →
          (s.handle dec msg).coord.jobs.get job = some j → j.phase ≠ .queued) := by
  -- a capture that reports is one of them
  have herase : ∀ t₀, t.session ≠ t₀.session → ∃ t' ∈ s.captures.erase t₀, t'.session = t.session :=
    fun t₀ hne => ⟨t, (List.mem_erase_of_ne fun heq => hne (congrArg _ heq)).mpr ht, rfl⟩
  cases msg with
  | start env req =>
    rw [System.handle]
    split
    next => exact Or.inl ⟨t, List.mem_append_left _ ht, rfl⟩
    next => exact Or.inl ⟨t, ht, rfl⟩
  | snapshot | cancel | prune | jobFinished => exact Or.inl ⟨t, ht, rfl⟩
  | decode =>
    rw [System.handle]
    split <;> exact Or.inl ⟨t, ht, rfl⟩
  | compare =>
    rw [System.handle]
    split <;> exact Or.inl ⟨t, ht, rfl⟩
  | armed t₀ =>
    left
    by_cases heq : t.session = t₀.session
    · exact ⟨{ t₀ with armed := true }, List.mem_append_right _ (List.mem_singleton_self _), heq.symm⟩
    · obtain ⟨t', ht', hsession⟩ := herase t₀ heq
      exact ⟨t', List.mem_append_left _ ht', hsession⟩
  | failed t₀ =>
    by_cases heq : t.session = t₀.session
    · right
      rw [heq]
      refine ⟨fun sess' hsess' => ?_, fun job j hdecode hj => ?_⟩
      · obtain ⟨sess, hsess, hphase⟩ := settled_phase dec hsess'
        rw [show FastMap.get (Coord.modSession _ _ _).sessions _ = _ from
          FastMap.get_modify .., if_pos rfl] at hsess
        obtain ⟨sess₀, -, rfl⟩ := Option.map_eq_some_iff.mp hsess
        rw [hphase]
        by_cases hcancelled : sess₀.phase = .cancelled
        · rw [if_neg (not_not_intro hcancelled), hcancelled]
          rfl
        · rw [if_pos hcancelled]
          rfl
      · refine settled_not_queued dec _ t₀.session ?_ hj
        refine (modSession_decodeJobOf (fun sess => ?_) _ _).trans hdecode
        split <;> rfl
    · exact Or.inl (herase t₀ heq)
  | published env t₀ =>
    by_cases heq : t.session = t₀.session
    · right
      rw [heq]
      cases hblocked : s.coord.blocked t₀.session with
      | true =>
        rw [System.handle, handlePublished, if_pos hblocked]
        refine ⟨fun sess' hsess' => ?_, fun job j hdecode hj => ?_⟩
        · obtain ⟨sess, hsess, hphase⟩ := settled_phase dec hsess'
          rw [show FastMap.get (Coord.modSession _ _ _).sessions _ = _ from
            FastMap.get_modify .., if_pos rfl] at hsess
          obtain ⟨sess₀, hsess₀, rfl⟩ := Option.map_eq_some_iff.mp hsess
          rw [blocked, hsess₀, Option.any_some] at hblocked
          have hsame : (if sess₀.snapshotId.isNone = true then
              { sess₀ with snapshotId := some t₀.snapshot } else sess₀).phase = sess₀.phase := by
            split <;> rfl
          rw [hphase, hsame]
          cases hp : sess₀.phase <;> simp [hp, SessionPhase.terminal] at hblocked ⊢
        · refine settled_not_queued dec _ t₀.session ?_ hj
          refine (modSession_decodeJobOf (fun sess => ?_) _ _).trans hdecode
          split <;> rfl
      | false =>
        obtain ⟨sess, hsess, hpub⟩ := handlePublished_unblocked dec hS hen.1 env hblocked
        rw [System.handle, hpub]
        refine ⟨fun sess' hsess' => ?_, fun job j hdecode hj => ?_⟩
        · obtain ⟨sess₀, hsess₀, hphase⟩ := releaseCaptureSlot_phase dec hsess'
          rw [FastMap.get_insert_self] at hsess₀
          obtain rfl := Option.some.inj hsess₀
          rw [hphase]
          rfl
        · rw [decodeJobOf, hsess] at hdecode
          have hfiles := startDecode_files (c := s.coord) dec (sess.decodeJob.getD env.jobId)
            t₀.snapshot env.analysisId (releaseCaptureSlot_jobs dec { s.coord with
              sessions := s.coord.sessions.insert t₀.session { sess with
                phase := .captured, snapshotId := some t₀.snapshot
                decodeJob := some (sess.decodeJob.getD env.jobId) } } t₀.session)
          have hjob : sess.decodeJob.getD env.jobId = job := by
            rw [show sess.decodeJob = some job from hdecode]
            rfl
          have hrunning := hfiles job
          rw [if_pos hjob.symm] at hrunning
          obtain rfl := Option.some.inj (hrunning.symm.trans hj)
          exact JobPhase.noConfusion
    · exact Or.inl (herase t₀ heq)

/-- What has a job before keeps it, if its capture stays. -/
theorem waits_kept (dec : Nat → Nat) (hS : s.Seated) (hen : s.Enabled msg) {id : SessionId}
    {job : JobId} {j : JobRecord} (hwaits : Waits s id job)
    (hj : (s.handle dec msg).coord.jobs.get job = some j) (hqueued : j.phase = .queued) :
    Waits (s.handle dec msg) id job := by
  obtain ⟨⟨t, ht, rfl⟩, hdecode⟩ := hwaits
  rcases capture_kept dec hS hen ht with ⟨t', ht', hsession⟩ | ⟨-, hnot⟩
  · refine ⟨⟨t', ht', hsession⟩, ?_⟩
    rcases handle_decodeJobOf dec hS hen t' ht' with ⟨hsame, -⟩ | ⟨hnone, -⟩
    · rw [hsession] at hsame
      exact hsame.trans hdecode
    · rw [hsession, hdecode] at hnone
      cases hnone
  · exact absurd hqueued (hnot job j hdecode hj)

theorem Attended.of_deed (hA : s.Attended) (hdeed : Deed msg s s')
    (hkept : ∀ id job j, Waits s id job → s'.coord.jobs.get job = some j → j.phase = .queued →
      Waits s' id job) {id : JobId} {j : JobRecord} (hj : s'.coord.jobs.get id = some j)
    (hlive : j.phase.terminal = false) :
    (∃ w ∈ s'.workers, w.job = id) ∨ (j.phase = .queued ∧ ∃ session, Waits s' session id) := by
  -- a job that was there, and whose worker is still there
  have hold : s.coord.jobs.get id = some j → (∀ w ∈ s.workers, w.job = id → w ∈ s'.workers) →
      (∃ w ∈ s'.workers, w.job = id) ∨ (j.phase = .queued ∧ ∃ session, Waits s' session id) := by
    intro hbefore hworkers
    rcases hA.jobs id j hbefore hlive with ⟨w, hw, hjob⟩ | ⟨hqueued, session, hwaits⟩
    · exact Or.inl ⟨w, hworkers w hw hjob, hjob⟩
    · exact Or.inr ⟨hqueued, session, hkept session id j hwaits hj hqueued⟩
  cases hdeed with
  | idle hjobs hworkers =>
    rw [hjobs] at hj
    exact hold hj fun w hw _ => hworkers ▸ hw
  | cancelled id' j' _ hfiles hworkers =>
    rw [hfiles] at hj
    split at hj
    next =>
      obtain rfl := Option.some.inj hj
      cases hlive
    next => exact hold hj fun w hw _ => hworkers ▸ hw
  | queued session id' snapshot _ hsession hlive' hcaptures hfiles hworkers =>
    rw [hfiles] at hj
    split at hj
    next heq =>
      obtain rfl := Option.some.inj hj
      obtain ⟨sess, hsess, hphase⟩ := hlive'
      obtain ⟨t, ht, hcapture⟩ := hA.sessions session sess hsess (by rw [hphase]; rfl)
      exact Or.inr ⟨rfl, session, ⟨t, hcaptures ▸ ht, hcapture⟩, heq ▸ hsession⟩
    next => exact hold hj fun w hw _ => hworkers ▸ hw
  | spawned w phase _ _ hfiles hworkers =>
    rw [hfiles] at hj
    split at hj
    next heq =>
      exact Or.inl ⟨w, hworkers ▸ List.mem_append_right _ (List.mem_singleton_self w), heq.symm⟩
    next => exact hold hj fun w' hw' _ => hworkers ▸ List.mem_append_left _ hw'
  | reported w hw outcome hfiles hworkers =>
    rw [hfiles] at hj
    split at hj
    next =>
      obtain rfl := Option.some.inj hj
      cases outcome <;> cases hlive
    next hne =>
      refine hold hj fun w' hw' hjob => ?_
      rw [hworkers]
      refine (List.mem_erase_of_ne ?_).mpr hw'
      rintro rfl
      exact hne hjob.symm

/-- Whoever a message leaves with something to do has it as a duty. -/
theorem Attended.handle (hA : s.Attended) (hS : s.Seated) (hen : s.Enabled msg) :
    (s.handle dec msg).Attended := by
  refine ⟨fun id j hj hlive => ?_, fun id sess hsess hlive => ?_⟩
  · exact hA.of_deed (handle_deed dec hS hen)
      (fun _ _ _ hwaits hj hqueued => waits_kept dec hS hen hwaits hj hqueued) hj hlive
  · rcases handle_seats dec hS hen with hadmits | hcontinues
    · obtain ⟨new, -, -, -, hcoord, snapshot, hcap⟩ := hadmits.opened
      by_cases heq : id = new.id
      · exact ⟨_, hcap ▸ List.mem_append_right _ (List.mem_singleton_self _), heq.symm⟩
      · rw [hcoord] at hsess
        have hold : FastMap.get (s.coord.sessions.insert new.id new) id = some sess := hsess
        rw [FastMap.get_insert, if_neg heq] at hold
        obtain ⟨t, ht, hsession⟩ := hA.sessions id sess hold hlive
        exact ⟨t, hcap ▸ List.mem_append_left _ ht, hsession⟩
    · rcases hcontinues.seats id with ⟨-, hnone⟩ | ⟨sess₀, sess', hsess₀, hsess', hseat⟩
      · rw [hnone] at hsess
        cases hsess
      · obtain rfl := Option.some.inj (hsess.symm.trans hsess')
        have hbefore : sess₀.phase.terminal = false := by
          cases hterm : sess₀.phase.terminal with
          | false => rfl
          | true =>
            have hsame := hseat.phase.eq_of_terminal (rank_of_terminal hterm)
            rw [hsame, hterm] at hlive
            cases hlive
        obtain ⟨t, ht, rfl⟩ := hA.sessions id sess₀ hsess₀ hbefore
        rcases capture_kept dec hS hen ht with hkept | ⟨hover, -⟩
        · exact hkept
        · rw [hover sess hsess] at hlive
          cases hlive

/-- A worker has the snapshot, or an unreported capture whose session or
session's job names it. -/
def Engaged (s : System) (id : SnapshotId) : Prop :=
  (∃ w ∈ s.workers, w.record.snapshotId = some id) ∨
    ∃ t ∈ s.captures, ∃ sess, s.coord.sessions.get t.session = some sess ∧
      (sess.snapshotId = some id ∨
        ∃ job j, sess.decodeJob = some job ∧ s.coord.jobs.get job = some j ∧ j.snapshotId = some id)

/-- Where everything is attended, only a task stands in the way of a prune. -/
theorem Attended.prunable (hA : s.Attended) (hM : s.Manned) {id : SnapshotId}
    (hidle : ¬ s.Engaged id) : s.coord.pruneObstacle id = none := by
  have hjobs : ¬ (s.coord.jobs.values.any fun j =>
      j.snapshotId = some id && (j.phase = .queued || j.phase = .running)) = true := by
    intro hany
    obtain ⟨j, hmem, hj⟩ := List.any_eq_true.mp hany
    obtain ⟨job, hget⟩ := FastMap.mem_values.mp hmem
    simp only [Bool.and_eq_true, Bool.or_eq_true, decide_eq_true_eq] at hj
    obtain ⟨hsnapshot, hphase⟩ := hj
    have hlive : j.phase.terminal = false := by
      rcases hphase with hphase | hphase <;> rw [hphase] <;> rfl
    rcases hA.jobs job j hget hlive with ⟨w, hw, rfl⟩ | ⟨-, session, ⟨t, ht, rfl⟩, hdecode⟩
    · obtain ⟨phase, -, hrecord⟩ := hM.known w hw
      obtain rfl := Option.some.inj (hrecord.symm.trans hget)
      exact hidle (Or.inl ⟨w, hw, hsnapshot⟩)
    · obtain ⟨sess, hsess, hjob⟩ := Option.bind_eq_some_iff.mp hdecode
      exact hidle (Or.inr ⟨t, ht, sess, hsess, Or.inr ⟨job, j, hjob, hget, hsnapshot⟩⟩)
  have hsessions : ¬ (s.coord.sessions.values.any fun sess => sess.snapshotId = some id &&
      (sess.phase = .starting || sess.phase = .armed || sess.phase = .finalizing)) = true := by
    intro hany
    obtain ⟨sess, hmem, hsess⟩ := List.any_eq_true.mp hany
    obtain ⟨session, hget⟩ := FastMap.mem_values.mp hmem
    simp only [Bool.and_eq_true, Bool.or_eq_true, decide_eq_true_eq] at hsess
    obtain ⟨hsnapshot, hphase⟩ := hsess
    have hlive : sess.phase.terminal = false := by
      rcases hphase with (hphase | hphase) | hphase <;> rw [hphase] <;> rfl
    obtain ⟨t, ht, rfl⟩ := hA.sessions session sess hget hlive
    exact hidle (Or.inr ⟨t, ht, sess, hget, Or.inl hsnapshot⟩)
  rw [pruneObstacle, if_neg hjobs, if_neg hsessions]

end System

namespace Daemon

open TraceMcp.Service.System

variable {keys : Keys} {d d' : Daemon} {e : Event} {disk : Disk}

/-- Duties are kept while the daemon runs. -/
theorem Serves.attended (h : Serves keys d d') (hO : d.InOrder) (hA : d.sys.Attended) :
    d'.InOrder ∧ d'.sys.Attended := by
  refine h.invariant (I := fun d => d.sys.Attended) (fun d e hO hen hA => ?_) hO hA
  rw [handle_sys hO.manned hen]
  unfold sysAfter
  split
  next m hmsg => exact hA.handle hO.seated (hen.msg hmsg)
  next => exact hA

/-! ## What is on disk -/

/-- Job files are named by the job. -/
def JobsNamed (disk : Disk) : Prop := ∀ id j, disk.jobs.get id = some j → j.jobId = id

theorem JobsNamed.write (h : JobsNamed disk) (w : Write) : JobsNamed (disk.write w) := by
  intro id j hj
  cases w with
  | job record =>
    rw [Disk.write, FastMap.get_insert] at hj
    split at hj
    next heq =>
      obtain rfl := Option.some.inj hj
      exact heq.symm
    next => exact h id j hj
  | session | capture | remove | touch | publish | report => exact h id j hj

theorem JobsNamed.writeAll (h : JobsNamed disk) (writes : List Write) :
    JobsNamed (disk.writeAll writes) :=
  List.foldlRecOn writes _ h fun _ h w _ => h.write w

theorem Reachable.jobsNamed (h : d.Reachable keys) (hstop : d.Stop keys disk) :
    JobsNamed disk := by
  have hcut : ∀ {d : Daemon} {disk : Disk}, JobsNamed d.disk → d.Stop keys disk →
      JobsNamed disk := by
    intro d disk hnamed hstop
    rcases hstop with rfl | ⟨e, n, -, rfl⟩
    · exact hnamed
    · exact hnamed.writeAll _
  refine hcut ?_ hstop
  exact (h.invariant (I := fun d => JobsNamed d.disk) (J := JobsNamed) (fun id j hj => by cases hj)
    (fun limits disk hnamed => hnamed.writeAll _) (fun d e _ _ hnamed => hnamed.writeAll _)
    fun d disk _ hnamed hstop => hcut hnamed hstop).2

theorem loadSessions_jobs (c : Coord) (sessions : List StoredSession) :
    (sessions.foldl loadSession c).jobs = c.jobs := by
  refine List.foldlRecOn (motive := fun c' : Coord => c'.jobs = c.jobs) sessions _ rfl fun c' h v _ => ?_
  unfold loadSession
  split <;> exact h

/-- What is in the table after job files are read: one of the last. -/
theorem setJobs_get (records : List JobRecord) (c : Coord) (id : JobId) :
    ((∀ j ∈ records, j.jobId ≠ id) ∧ (records.foldl setJob c).jobs.get id = c.jobs.get id) ∨
      ∃ j ∈ records, j.jobId = id ∧ (records.foldl setJob c).jobs.get id = some j := by
  induction records generalizing c with
  | nil => exact Or.inl ⟨fun j hj => absurd hj List.not_mem_nil, rfl⟩
  | cons record records ih =>
    rw [List.foldl_cons]
    rcases ih (c.setJob record) with ⟨hnone, hget⟩ | ⟨j, hj, hid, hget⟩
    · rw [hget]
      show _ ∨ ∃ j ∈ record :: records, j.jobId = id ∧
        FastMap.get (c.jobs.insert record.jobId record) id = some j
      by_cases heq : id = record.jobId
      · exact Or.inr ⟨record, List.mem_cons_self, heq.symm, by rw [FastMap.get_insert, if_pos heq]⟩
      · refine Or.inl ⟨fun j hj => ?_, ?_⟩
        · rcases List.mem_cons.mp hj with rfl | hj
          · exact fun h => heq h.symm
          · exact hnone j hj
        · show FastMap.get (c.jobs.insert record.jobId record) id = _
          rw [FastMap.get_insert, if_neg heq]
    · exact Or.inr ⟨j, List.mem_cons_of_mem _ hj, hid, hget⟩

/-- The job table of a daemon that starts is what the job files say. -/
theorem start_jobs (limits : Limits) (hnamed : JobsNamed disk) (id : JobId) :
    (start limits disk).coord.jobs.get id = disk.jobs.get id := by
  have hcache : ∀ (cache : List (String × JobId)) (c : Coord), (cache.foldl
      (fun c e => { c with cacheJobs := c.cacheJobs.insert e.1 e.2 }) c).jobs = c.jobs :=
    fun cache c => List.foldlRecOn (motive := fun c' : Coord => c'.jobs = c.jobs) cache _ rfl
      fun _ h _ _ => h
  show FastMap.get (Disk.load disk limits).jobs id = _
  unfold Disk.load loadPersisted
  dsimp only
  rw [hcache]
  rcases setJobs_get disk.jobs.values (disk.sessions.values.foldl loadSession (empty limits)) id with
    ⟨hnone, hget⟩ | ⟨j, hmem, hid, hget⟩
  · rw [hget, loadSessions_jobs]
    cases hj : disk.jobs.get id with
    | none => rfl
    | some j => exact absurd (hnamed id j hj) (hnone j (FastMap.mem_values.mpr ⟨id, hj⟩))
  · obtain ⟨key, hkey⟩ := FastMap.mem_values.mp hmem
    obtain rfl := (hnamed key j hkey).symm.trans hid
    rw [hget, hkey]

/-- Right after a start nobody has a duty. -/
theorem start_attended_iff (limits : Limits) (hnamed : JobsNamed disk) :
    (start limits disk).sys.Attended ↔ ∀ id j, disk.jobs.get id = some j → j.phase.terminal = true := by
  constructor
  · intro hA id j hj
    by_contra hlive
    rw [← start_jobs limits hnamed] at hj
    rcases hA.jobs id j hj (by simpa using hlive) with ⟨w, hw, -⟩ | ⟨-, session, ⟨t, ht, -⟩, -⟩
    · exact List.not_mem_nil hw
    · exact List.not_mem_nil ht
  · intro hover
    refine ⟨fun id j hj hlive => ?_, fun id sess hsess hlive => ?_⟩
    · rw [show (start limits disk).sys.coord.jobs.get id = _ from start_jobs limits hnamed id] at hj
      rw [hover id j hj] at hlive
      cases hlive
    · have hended := (loadPersisted_loaded limits disk.sessions.values disk.jobs.values
        (disk.cacheEntries disk.jobs.values)).ended id sess hsess
      cases hphase : sess.phase <;> rw [hphase] at hended hlive <;> cases hended <;> cases hlive

/-! ## Phantom work -/

/-- Every job and every session that is not over has a task that will report
it, and in every later state only a task stands in the way of a prune. -/
def NoPhantoms (keys : Keys) (d : Daemon) : Prop :=
  d.sys.Attended ∧ ∀ d', Serves keys d d' → ∀ id, ¬ d'.sys.Engaged id →
    d'.coord.pruneObstacle id = none

/-- A restart leaves no phantom work exactly when every job file at the stop
was of a job that is over. -/
theorem restart_noPhantoms_iff (h : d.Reachable keys) (hstop : d.Stop keys disk)
    (limits : Limits) :
    (start limits disk).NoPhantoms keys ↔
      ∀ id j, disk.jobs.get id = some j → j.phase.terminal = true := by
  have hnamed := h.jobsNamed hstop
  rw [← start_attended_iff limits hnamed]
  refine ⟨fun hclean => hclean.1, fun hA => ⟨hA, fun d' hserves id hidle => ?_⟩⟩
  obtain ⟨hO, hA'⟩ := hserves.attended (start_inOrder limits disk) hA
  exact hA'.prunable hO.manned hidle

/-- A capture whose snapshot has been asked for, but not taken. -/
def askedRun : List Event :=
  [.request (startOf "a"), .request (.armed (captureOf "a" false)),
    .request (.snapshot ⟨⟨"a"⟩, ⟨"j"⟩, .ok ()⟩ ⟨"a"⟩ .snapshot)]

/-- The worker that decodes it, once it is. -/
def askedTask : Task := ⟨decodeOf "j" "a", .decode ⟨⟨"a"⟩, .calls false⟩ ⟨"a"⟩, none⟩

/-- The snapshot is taken and decoded. -/
def decodedRun : List Event :=
  askedRun ++ [.captured (captureOf "a" true), .request (publishOf "a" true),
    .worked askedTask (.ok 7)]

theorem restart_noPhantoms_decodedRun :
    let d := decodedRun.foldl (handle .plain) (start .default .empty)
    (start .default d.disk).NoPhantoms .plain := by
  intro d
  have hreplays : Replays .plain (start .default .empty) decodedRun := by decide +kernel
  have hover : ∀ j ∈ d.disk.jobs.values, j.phase.terminal = true := by decide +kernel
  refine (restart_noPhantoms_iff hreplays.reachable (Or.inl rfl) .default).mpr fun id j hj => ?_
  exact hover j (FastMap.mem_values.mpr ⟨id, hj⟩)

/-- A stop before the snapshot is published leaves its decode queued for good. -/
theorem restart_phantomJob :
    let d := askedRun.foldl (handle .plain) (start .default .empty)
    d.Reachable .plain ∧ d.Stop .plain d.disk ∧ ¬ (start .default d.disk).NoPhantoms .plain := by
  intro d
  have hreplays : Replays .plain (start .default .empty) askedRun := by decide +kernel
  refine ⟨hreplays.reachable, Or.inl rfl, fun hclean => ?_⟩
  have hqueued : ((start .default d.disk).sys.coord.jobs.get ⟨"j"⟩).map (·.phase) = some .queued := by
    decide +kernel
  obtain ⟨j, hj, hphase⟩ := Option.map_eq_some_iff.mp hqueued
  rcases hclean.1.jobs ⟨"j"⟩ j hj (by rw [hphase]; rfl) with ⟨w, hw, -⟩ | ⟨-, session, ⟨t, ht, -⟩, -⟩
  · exact List.not_mem_nil hw
  · exact List.not_mem_nil ht

end Daemon

end TraceMcp.Service
