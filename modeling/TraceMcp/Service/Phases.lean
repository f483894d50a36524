import TraceMcp.Service.Accounting

/-!
# Phases that are final

A session that is captured, failed or cancelled stays so: every handler that
writes a session's phase looks at it first. Jobs are another matter: a
publication and a finished worker write the phase of their job without
looking, and a cancel looks only for success. `Harmless` names the messages
that do not land on a job that is already over.
-/

namespace TraceMcp

/-- Captured, failed or cancelled. -/
def SessionPhase.terminal (p : SessionPhase) : Bool :=
  p = .captured || p = .failed || p = .cancelled

/-- Succeeded, failed or cancelled. -/
def JobPhase.terminal (p : JobPhase) : Bool :=
  p = .succeeded || p = .failed || p = .cancelled

namespace Service

open TraceMcp.Lib Coord

theorem rank_of_terminal {p : SessionPhase} (h : p.terminal = true) : rank p = 3 := by
  cases p with
  | starting | armed | finalizing => cases h
  | captured | failed | cancelled => rfl

namespace System

variable {s s' : System} {dec : Nat → Nat} {msg : Msg}

/-! ## Sessions -/

/-- A message leaves every session where it was or advances it. -/
theorem handle_advance (dec : Nat → Nat) (hS : s.Seated) (hen : s.Enabled msg) {id : SessionId} {sess : Session}
    (hsess : s.coord.sessions.get id = some sess) :
    ∃ sess', (s.handle dec msg).coord.sessions.get id = some sess' ∧
      Advance sess.phase sess'.phase := by
  rcases handle_seats dec hS hen with h | h
  · obtain ⟨new, hnone, -, -, hcoord, -⟩ := h.opened
    refine ⟨sess, ?_, .refl _⟩
    rw [hcoord]
    show FastMap.get (s.coord.sessions.insert new.id new) id = some sess
    rw [FastMap.get_insert, if_neg, hsess]
    rintro rfl
    rw [hnone] at hsess
    cases hsess
  · rcases h.seats id with ⟨hnone, -⟩ | ⟨sess₀, sess', hsess₀, hsess', hseat⟩
    · rw [hnone] at hsess
      cases hsess
    · obtain rfl := Option.some.inj (hsess.symm.trans hsess₀)
      exact ⟨sess', hsess', hseat.phase⟩

/-- Between any two states of a run a session's rank does not decrease, and a
terminal phase does not change. -/
theorem run_sessions_advance (limits : Limits) (sessions : List StoredSession)
    (jobs : List JobRecord) (cache : List (String × JobId))
    (h : Run saturatingPred Any (boot limits sessions jobs cache) s)
    (h' : Run saturatingPred Any s s') {id : SessionId} {sess : Session}
    (hsess : s.coord.sessions.get id = some sess) :
    ∃ sess', s'.coord.sessions.get id = some sess' ∧ rank sess.phase ≤ rank sess'.phase ∧
      (sess.phase.terminal = true → sess'.phase = sess.phase) := by
  have hS := h.seated (boot_seated limits sessions jobs cache)
  have hadvance := h'.invariant
    (I := fun s => ∃ sess', s.coord.sessions.get id = some sess' ∧ Advance sess.phase sess'.phase)
    (fun s msg hS hen _ ⟨mid, hmid, hto⟩ => by
      obtain ⟨sess', hsess', hfrom⟩ := handle_advance saturatingPred hS hen hmid
      exact ⟨sess', hsess', hto.trans hfrom⟩)
    hS ⟨sess, hsess, .refl _⟩
  obtain ⟨sess', hsess', hphase⟩ := hadvance.2
  exact ⟨sess', hsess', hphase.rank_le,
    fun hterm => hphase.eq_of_terminal (rank_of_terminal hterm)⟩

/-- A session that is armed and then cancelled while its task still runs. -/
def cancelledRun : List Msg :=
  [startOf "a", .armed (captureOf "a" false), .cancel (.session ⟨"a"⟩)]

/-- What comes after: the late publication, a snapshot and another cancel. -/
def lateRun : List Msg :=
  [.snapshot ⟨⟨"a"⟩, ⟨"b"⟩, .ok ()⟩ ⟨"a"⟩ .snapshot, publishOf "a" true,
    .cancel (.session ⟨"a"⟩)]

theorem run_sessions_advance_lateRun :
    let s := cancelledRun.foldl (System.handle saturatingPred) (boot .default [] [] [])
    ∃ sess sess', s.coord.sessions.get ⟨"a"⟩ = some sess ∧ sess.phase = .cancelled ∧
      (lateRun.foldl (System.handle saturatingPred) s).coord.sessions.get ⟨"a"⟩ = some sess' ∧
      sess'.phase = sess.phase := by
  intro s
  have hbefore : Replays saturatingPred Any (boot .default [] [] []) cancelledRun := by
    decide +kernel
  have hafter : Replays saturatingPred Any s lateRun := by decide +kernel
  have hphase : (s.coord.sessions.get ⟨"a"⟩).map (·.phase) = some .cancelled := by decide +kernel
  obtain ⟨sess, hsess, hcancelled⟩ := Option.map_eq_some_iff.mp hphase
  obtain ⟨sess', hsess', -, hsame⟩ :=
    run_sessions_advance .default [] [] [] hbefore.run hafter.run hsess
  exact ⟨sess, sess', hsess, hcancelled, hsess', hsame (by rw [hcancelled]; rfl)⟩

/-! ## Jobs -/

/-- The job under `id` is not over. -/
def pending (c : Coord) (id : JobId) : Bool :=
  (c.jobs.get id).all fun j => !j.phase.terminal

theorem pending_iff {c : Coord} {id : JobId} :
    pending c id = true ↔ ∀ j, c.jobs.get id = some j → j.phase.terminal = false := by
  rw [pending, Option.all_eq_true]
  simp only [Bool.not_eq_true']

/-- The message does not land on a job that is over: a worker reports on a
pending job, a publication starts a pending job, and no cancel names a failed
one. -/
def Harmless (s : System) : Msg → Prop
  | .jobFinished w _ => pending s.coord w.record.jobId
  | .published _ t => s.coord.blocked t.session = false →
    ((s.coord.sessions.get t.session).bind (·.decodeJob)).all (pending s.coord)
  | .cancel (.job id) => (s.coord.jobs.get id).map (·.phase) ≠ some .failed
  | _ => True

instance (s : System) : (msg : Msg) → Decidable (s.Harmless msg)
  | .jobFinished _ _ => inferInstanceAs (Decidable (_ = true))
  | .published _ _ => inferInstanceAs (Decidable (_ → _ = true))
  | .cancel (.job _) => inferInstanceAs (Decidable (_ ≠ _))
  | .start .. | .snapshot .. | .cancel (.session _) | .prune .. | .decode .. | .compare _
  | .armed _ | .failed _ => inferInstanceAs (Decidable True)

/-- Jobs that are over keep their phase. -/
def Absorbs (c c' : Coord) : Prop :=
  ∀ id j, c.jobs.get id = some j → j.phase.terminal = true →
    ∃ j', c'.jobs.get id = some j' ∧ j'.phase = j.phase

section Absorbs

variable {c c' c'' : Coord}

theorem Absorbs.of_jobs (h : c'.jobs = c.jobs) : Absorbs c c' :=
  fun _ j hj _ => ⟨j, h ▸ hj, rfl⟩

theorem Absorbs.trans (h : Absorbs c c') (h' : Absorbs c' c'') : Absorbs c c'' := by
  intro id j hj hterm
  obtain ⟨j', hj', hphase⟩ := h id j hj hterm
  obtain ⟨j'', hj'', hphase'⟩ := h' id j' hj' (hphase ▸ hterm)
  exact ⟨j'', hj'', hphase'.trans hphase⟩

/-- Writing a record over a pending one, or one that keeps the phase. -/
theorem Absorbs.insert {id : JobId} {record : JobRecord}
    (hjobs : c'.jobs = c.jobs.insert id record)
    (hkeep : ∀ j, c.jobs.get id = some j → j.phase.terminal = true → record.phase = j.phase) :
    Absorbs c c' := by
  intro id' j hj hterm
  rw [hjobs, FastMap.get_insert]
  split
  next heq => exact ⟨record, rfl, hkeep j (heq ▸ hj) hterm⟩
  next => exact ⟨j, hj, rfl⟩

theorem Absorbs.insert_pending {id : JobId} {record : JobRecord} (hpend : pending c id)
    (hjobs : c'.jobs = c.jobs.insert id record) : Absorbs c c' := by
  refine .insert hjobs fun j hj hterm => ?_
  rw [pending_iff.mp hpend j hj] at hterm
  cases hterm

theorem FreshJob.pending {id : JobId} (h : FreshJob c id) : System.pending c id := by
  rw [System.pending, h.1]
  rfl

/-! ### Each handler -/

theorem modSession_jobs (id : SessionId) (f : Session → Session) :
    (c.modSession id f).jobs = c.jobs := rfl

theorem releaseCaptureSlot_jobs (dec : Nat → Nat) (c : Coord) (id : SessionId) :
    (c.releaseCaptureSlot dec id).jobs = c.jobs := by
  unfold releaseCaptureSlot
  split
  next => split <;> rfl
  next => rfl

/-- Only a queued job is cancelled with its session. -/
theorem cancelQueuedSessionJob_absorbs (c : Coord) (id : SessionId) :
    Absorbs c (c.cancelQueuedSessionJob id) := by
  unfold cancelQueuedSessionJob
  split
  next => exact .of_jobs rfl
  next job _ =>
    cases hjob : c.jobs.get job with
    | none => exact .of_jobs (FastMap.modify_of_none hjob _)
    | some j =>
      refine .insert (FastMap.modify_of_get hjob _) fun j' hj' hterm => ?_
      obtain rfl := Option.some.inj (hjob.symm.trans hj')
      split
      next hqueued =>
        rw [hqueued] at hterm
        cases hterm
      next => rfl

theorem settled_absorbs (dec : Nat → Nat) (c : Coord) (id : SessionId) :
    Absorbs c (settled dec c id) :=
  (cancelQueuedSessionJob_absorbs c id).trans (.of_jobs (releaseCaptureSlot_jobs dec _ id))

/-- A snapshot queues a decode under a new id. -/
theorem handleSnapshot_absorbs (hS : s.Seated) (env : SnapshotEnv)
    (hfresh : FreshJob s.coord env.jobId) (id : SessionId) (reason : CaptureReason) :
    Absorbs s.coord (s.coord.handleSnapshot env id reason).1 := by
  unfold handleSnapshot
  split
  next => exact .of_jobs rfl
  next sess hsess =>
    split
    next => exact .of_jobs rfl
    next => exact .of_jobs rfl
    next => exact .of_jobs rfl
    next => split <;> exact .of_jobs rfl
    next => split <;> exact .of_jobs rfl
    next hphase =>
      have hjob : sess.decodeJob = none := hS.undecoded id sess hsess (by rw [hphase]; decide)
      unfold finalizeSession
      dsimp only
      split
      next => exact .of_jobs rfl
      next =>
        simp only [hjob, Option.getD_none]
        exact .insert_pending hfresh.pending rfl

theorem startDecode_absorbs (dec : Nat → Nat) {job : JobId} {snapshot : SnapshotId}
    {analysis : AnalysisId} (hpend : pending c job) :
    Absorbs c (c.startDecode dec job snapshot analysis).1 :=
  .insert_pending hpend rfl

theorem cancelJob_absorbs {id : JobId}
    (hfailed : (c.jobs.get id).map (·.phase) ≠ some .failed) : Absorbs c (c.cancelJob id).1 := by
  unfold cancelJob
  split
  next j hj =>
    split
    next => exact .of_jobs rfl
    next hsucceeded =>
      refine .insert rfl fun j' hj' hterm => ?_
      obtain rfl := Option.some.inj (hj.symm.trans hj')
      rw [hj] at hfailed
      cases hphase : j.phase with
      | cancelled => rfl
      | succeeded => exact absurd hphase hsucceeded
      | failed => exact absurd (congrArg some hphase) hfailed
      | queued | running =>
        rw [hphase] at hterm
        cases hterm
  next => exact .of_jobs rfl

end Absorbs

/-- A harmless message leaves jobs that are over as they are. -/
theorem handle_absorbs (hS : s.Seated) (hen : s.Enabled msg) (hharm : s.Harmless msg) :
    Absorbs s.coord (s.handle dec msg).coord := by
  cases msg with
  | start env req =>
    rw [System.handle]
    cases hstart : s.coord.handleStart env req with
    | error e => exact .of_jobs rfl
    | ok x =>
      obtain ⟨c', resp, tasks⟩ := x
      rcases handleStart_ok hstart with ⟨rfl, rfl⟩ | ⟨-, -, req', hash, config, rfl, rfl⟩
      · exact .of_jobs rfl
      · exact .of_jobs rfl
  | snapshot env id reason => exact handleSnapshot_absorbs hS env hen id reason
  | cancel target =>
    cases target with
    | job id => exact cancelJob_absorbs hharm
    | session id =>
      refine .of_jobs ?_
      show (s.coord.cancelSession dec id).1.jobs = _
      unfold cancelSession
      split
      next => rfl
      next => split <;> first | rfl | exact releaseCaptureSlot_jobs ..
  | prune env req =>
    obtain ⟨cache, hcache⟩ := handlePrune_eq (c := s.coord) env req
    refine .of_jobs ?_
    show (s.coord.handlePrune env req).1.jobs = _
    rw [hcache]
  | decode env req =>
    rw [System.handle]
    cases hdecode : s.coord.handleDecode env req with
    | error e => exact .of_jobs rfl
    | ok x =>
      obtain ⟨c', resp, workers⟩ := x
      rcases handleDecode_ok hdecode with ⟨rfl, rfl⟩ | ⟨-, record, hid, -, rfl, rfl⟩
      · exact .of_jobs rfl
      · exact .insert_pending (hid ▸ hen.pending) rfl
  | compare env =>
    rw [System.handle]
    cases hcompare : s.coord.handleCompare env with
    | error e => exact .of_jobs rfl
    | ok x =>
      obtain ⟨c', resp, workers⟩ := x
      rcases handleCompare_ok hcompare with ⟨rfl, rfl⟩ | ⟨-, -, record, hid, -, rfl, rfl⟩
      · exact .of_jobs rfl
      · exact .insert_pending (hid ▸ hen.pending) rfl
  | armed t => exact .of_jobs rfl
  | failed t =>
    show Absorbs _ (settled dec (s.coord.modSession t.session _) t.session)
    exact (Absorbs.of_jobs (modSession_jobs t.session _)).trans (settled_absorbs dec _ t.session)
  | published env t =>
    -- blocked, the session is settled; otherwise its job, which is pending, runs
    cases hblocked : s.coord.blocked t.session with
    | true =>
      show Absorbs _ (s.coord.handlePublished dec env t.session t.snapshot).1
      rw [handlePublished, if_pos hblocked]
      show Absorbs _ (settled dec (s.coord.modSession t.session _) t.session)
      exact (Absorbs.of_jobs (modSession_jobs t.session _)).trans (settled_absorbs dec _ t.session)
    | false =>
      obtain ⟨sess, hsess, heq⟩ := handlePublished_unblocked dec hS hen.1 env hblocked
      have hpend : pending s.coord (sess.decodeJob.getD env.jobId) := by
        have hjob := hharm hblocked
        rw [hsess, Option.bind_some] at hjob
        cases hdecode : sess.decodeJob with
        | none => exact hen.2.pending
        | some job => rwa [hdecode] at hjob
      show Absorbs _ (s.coord.handlePublished dec env t.session t.snapshot).1
      rw [heq]
      have hjobs := releaseCaptureSlot_jobs dec { s.coord with
        sessions := s.coord.sessions.insert t.session { sess with
          phase := .captured, snapshotId := some t.snapshot
          decodeJob := some (sess.decodeJob.getD env.jobId) } } t.session
      exact (Absorbs.of_jobs hjobs).trans
        (startDecode_absorbs dec (by rwa [pending, hjobs]))
  | jobFinished w outcome =>
    have hjobs : (s.handle dec (.jobFinished w outcome)).coord.jobs =
        s.coord.jobs.insert w.record.jobId (finishedRecord w.record outcome) := by
      rw [System.handle, handleJobFinished_eq]
      cases outcome <;> rfl
    exact .insert_pending hharm hjobs

/-- In a run of harmless messages a job that is over never changes its phase,
whatever happened before. -/
theorem run_jobs_absorb (limits : Limits) (sessions : List StoredSession)
    (jobs : List JobRecord) (cache : List (String × JobId))
    (h : Run saturatingPred Any (boot limits sessions jobs cache) s)
    (h' : Run saturatingPred Harmless s s') {id : JobId} {j : JobRecord}
    (hj : s.coord.jobs.get id = some j) (hterm : j.phase.terminal = true) :
    ∃ j', s'.coord.jobs.get id = some j' ∧ j'.phase = j.phase := by
  have hS := h.seated (boot_seated limits sessions jobs cache)
  have habsorbs := h'.invariant (I := fun s' => Absorbs s.coord s'.coord)
    (fun _ _ hS hen hharm hI => hI.trans (handle_absorbs hS hen hharm)) hS (.of_jobs rfl)
  exact habsorbs.2 id j hj hterm

/-- The phase of a job. -/
def jobPhase (s : System) (id : JobId) : Option JobPhase := (s.coord.jobs.get id).map (·.phase)

/-- A capture that is snapshot, published and decoded. -/
def decodedRun : List Msg :=
  [startOf "a", .armed (captureOf "a" false), .snapshot ⟨⟨"a"⟩, ⟨"j"⟩, .ok ()⟩ ⟨"a"⟩ .snapshot,
    publishOf "a" true, .jobFinished (decodeOf "j" "a") (.ok ())]

/-- A late cancel of its job, and a second capture whose job is cancelled
while it is being recorded. -/
def harmlessRun : List Msg :=
  [.cancel (.job ⟨"j"⟩), startOf "b", .armed (captureOf "b" false),
    .snapshot ⟨⟨"b"⟩, ⟨"b"⟩, .ok ()⟩ ⟨"b"⟩ .stop, .cancel (.job ⟨"b"⟩), .failed (captureOf "b" true)]

theorem run_jobs_absorb_harmlessRun :
    let s := decodedRun.foldl (System.handle saturatingPred) (boot .default [] [] [])
    s.jobPhase ⟨"j"⟩ = some .succeeded ∧
      (harmlessRun.foldl (System.handle saturatingPred) s).jobPhase ⟨"j"⟩ = some .succeeded := by
  intro s
  have hbefore : Replays saturatingPred Any (boot .default [] [] []) decodedRun := by
    decide +kernel
  have hafter : Replays saturatingPred Harmless s harmlessRun := by decide +kernel
  have hphase : s.jobPhase ⟨"j"⟩ = some .succeeded := by decide +kernel
  obtain ⟨j, hj, hsucceeded⟩ := Option.map_eq_some_iff.mp hphase
  obtain ⟨j', hj', hsame⟩ := run_jobs_absorb .default [] [] [] hbefore.run hafter.run hj
    (by rw [hsucceeded]; rfl)
  exact ⟨hphase, Option.map_eq_some_iff.mpr ⟨j', hj', hsame.trans hsucceeded⟩⟩

/-- The run up to a cancel that lands on a queued decode. -/
def queuedRun : List Msg :=
  [startOf "a", .armed (captureOf "a" false), .snapshot ⟨⟨"a"⟩, ⟨"j"⟩, .ok ()⟩ ⟨"a"⟩ .snapshot,
    .cancel (.job ⟨"j"⟩)]

/-- The run up to a cancel that lands on a running decode. -/
def runningRun : List Msg := [startOf "a", publishOf "a" false, .cancel (.job ⟨"a"⟩)]

/-- The run up to a decode that fails. -/
def failingRun : List Msg :=
  [startOf "a", publishOf "a" false,
    .jobFinished (decodeOf "a" "a") (.error (.new .decodeFailed "no trace"))]

/-- A job that is over changes its phase in all three ways: cancelled while it
was queued it is started, cancelled while its worker ran it succeeds, and
failed it is cancelled. -/
theorem jobs_resume :
    let s₁ := queuedRun.foldl (System.handle saturatingPred) (boot .default [] [] [])
    let s₂ := runningRun.foldl (System.handle saturatingPred) (boot .default [] [] [])
    let s₃ := failingRun.foldl (System.handle saturatingPred) (boot .default [] [] [])
    (s₁.jobPhase ⟨"j"⟩ = some .cancelled ∧ ∃ s', Run saturatingPred Any s₁ s' ∧
      s'.jobPhase ⟨"j"⟩ = some .running) ∧
    (s₂.jobPhase ⟨"a"⟩ = some .cancelled ∧ ∃ s', Run saturatingPred Any s₂ s' ∧
      s'.jobPhase ⟨"a"⟩ = some .succeeded) ∧
    (s₃.jobPhase ⟨"a"⟩ = some .failed ∧ ∃ s', Run saturatingPred Any s₃ s' ∧
      s'.jobPhase ⟨"a"⟩ = some .cancelled) := by
  intro s₁ s₂ s₃
  have hstarted : Replays saturatingPred Any s₁ [publishOf "a" true] := by decide +kernel
  have hsucceeded : Replays saturatingPred Any s₂ [.jobFinished (decodeOf "a" "a") (.ok ())] := by
    decide +kernel
  have hcancelled : Replays saturatingPred Any s₃ [.cancel (.job ⟨"a"⟩)] := by decide +kernel
  refine ⟨⟨?_, _, hstarted.run, ?_⟩, ⟨?_, _, hsucceeded.run, ?_⟩, ⟨?_, _, hcancelled.run, ?_⟩⟩
  all_goals decide +kernel

end System

end Service

end TraceMcp
