import TraceMcp.Service.Carried
import TraceMcp.Service.Phases

/-!
# Snapshot requests

`handle_snapshot` of an armed session writes the session, persists it, tells
the capture and queues the decode, in that order, and gives up where the
persisting fails. By then the session is finalizing, with a job that does not
exist and a capture that has not been told. Every other failure is found before
anything is written. `snapshot_atomic_iff` puts the two together.
-/

namespace TraceMcp.Service

open TraceMcp.Lib Coord

/-- A session whose capture goes on has a channel to stop it by. -/
def Wired (c : Coord) : Prop :=
  ∀ id sess, c.sessions.get id = some sess → rank sess.phase < 2 → sess.stop.isSome = true

/-- What a snapshot request must come to: a failure leaves the session's phase
and ids and the jobs alone, and a success on an armed session has told the
capture to finish and queued its decode. -/
structure Atomic (c : Coord) (env : SnapshotEnv) (id : SessionId) (reason : CaptureReason) :
    Prop where
  failed : ∀ c' e, c.handleSnapshot env id reason = (c', .error e) →
    (c'.sessions.get id).map (fun s => (s.phase, s.snapshotId, s.decodeJob)) =
      (c.sessions.get id).map (fun s => (s.phase, s.snapshotId, s.decodeJob)) ∧ c'.jobs = c.jobs
  done : ∀ c' resp sess, c.handleSnapshot env id reason = (c', .ok resp) →
    c.sessions.get id = some sess → sess.phase = .armed →
      (∃ sess', c'.sessions.get id = some sess' ∧ sess'.stop = some (some (.finish reason))) ∧
        c'.jobs.get resp.jobId = some (queuedDecode resp.jobId resp.snapshotId)

variable {c : Coord} {env : SnapshotEnv} {id : SessionId} {reason : CaptureReason}

/-- The handler of an armed session. -/
theorem handleSnapshot_armed {sess : Session} (hsess : c.sessions.get id = some sess)
    (hphase : sess.phase = .armed) :
    c.handleSnapshot env id reason = c.finalizeSession env id sess reason := by
  unfold handleSnapshot
  rw [hsess]
  dsimp only
  rw [hphase]

/-- Nobody else's request changes anything. -/
theorem handleSnapshot_idle
    (h : ∀ sess, c.sessions.get id = some sess → sess.phase ≠ .armed) :
    (c.handleSnapshot env id reason).1 = c := by
  unfold handleSnapshot
  split
  next => rfl
  next sess hsess =>
    split
    next => rfl
    next => rfl
    next => rfl
    next => split <;> rfl
    next => split <;> rfl
    next hphase => exact absurd hphase (h sess hsess)

theorem finalizeSession_error {sess : Session} {e : Error} (h : env.persist = .error e) :
    c.finalizeSession env id sess reason =
      ({ c with sessions := c.sessions.insert id { sess with
          snapshotId := some (sess.snapshotId.getD env.snapshotId)
          decodeJob := some (sess.decodeJob.getD env.jobId), phase := .finalizing } },
        .error e) := by
  unfold finalizeSession
  rw [h]

theorem finalizeSession_ok {sess : Session} (h : env.persist = .ok ()) :
    ∃ c', c.finalizeSession env id sess reason =
        (c', .ok ⟨sess.snapshotId.getD env.snapshotId, sess.decodeJob.getD env.jobId,
          .finalizing⟩) ∧
      (∃ sess', c'.sessions.get id = some sess' ∧
        sess'.stop = sess.stop.map fun _ => some (.finish reason)) ∧
      c'.jobs = c.jobs.insert (sess.decodeJob.getD env.jobId)
        (queuedDecode (sess.decodeJob.getD env.jobId) (sess.snapshotId.getD env.snapshotId)) := by
  unfold finalizeSession
  rw [h]
  refine ⟨_, rfl, ⟨_, FastMap.get_insert_self .., ?_⟩, ?_⟩
  · rfl
  · rfl

/-- A request is atomic exactly when a session that was armed is persisted and
has a capture to tell. -/
theorem atomic_iff (c : Coord) (env : SnapshotEnv) (id : SessionId) (reason : CaptureReason) :
    Atomic c env id reason ↔ ∀ sess, c.sessions.get id = some sess → sess.phase = .armed →
      env.persist = .ok () ∧ sess.stop.isSome = true := by
  by_cases harmed : ∃ sess, c.sessions.get id = some sess ∧ sess.phase = .armed
  · obtain ⟨sess, hsess, hphase⟩ := harmed
    have hhandle : c.handleSnapshot env id reason = c.finalizeSession env id sess reason :=
      handleSnapshot_armed hsess hphase
    cases hpersist : env.persist with
    | error e =>
      -- the session is finalizing, and was not before
      refine iff_of_false (fun hA => ?_) (fun h => ?_)
      · obtain ⟨hsame, -⟩ := hA.failed _ e (hhandle.trans (finalizeSession_error hpersist))
        rw [FastMap.get_insert_self, hsess, Option.map_some, Option.map_some] at hsame
        have hphases := congrArg (fun o => o.map (·.1)) hsame
        rw [Option.map_some, Option.map_some, hphase] at hphases
        cases hphases
      · cases (h sess hsess hphase).1
    | ok u =>
      obtain ⟨c', hc', ⟨sess', hsess', hstop⟩, hjobs⟩ :=
        @finalizeSession_ok c env id reason sess hpersist
      rw [hc'] at hhandle
      constructor
      · intro hA sess₁ hsess₁ _
        obtain rfl := Option.some.inj (hsess.symm.trans hsess₁)
        obtain ⟨⟨sess₂, hsess₂, hfinish⟩, -⟩ := hA.done c' _ sess hhandle hsess hphase
        obtain rfl := Option.some.inj (hsess'.symm.trans hsess₂)
        rw [hstop] at hfinish
        refine ⟨rfl, ?_⟩
        obtain ⟨last, hlast, -⟩ := Option.map_eq_some_iff.mp hfinish
        rw [hlast]
        rfl
      · intro h
        obtain ⟨last, hlast⟩ := Option.isSome_iff_exists.mp (h sess hsess hphase).2
        refine ⟨?_, ?_⟩
        · intro c₁ e he
          rw [hhandle] at he
          cases (Prod.mk.inj he).2
        · intro c₁ resp sess₁ hok _ _
          rw [hhandle] at hok
          obtain ⟨rfl, hresp⟩ := Prod.mk.inj hok
          obtain rfl := Except.ok.inj hresp
          refine ⟨⟨sess', hsess', ?_⟩, ?_⟩
          · rw [hstop, hlast]
            rfl
          · rw [hjobs]
            apply FastMap.get_insert_self
  · refine iff_of_true ?_ (fun sess hsess hphase => absurd ⟨sess, hsess, hphase⟩ harmed)
    have hidle : (c.handleSnapshot env id reason).1 = c :=
      handleSnapshot_idle fun sess hsess hphase => harmed ⟨sess, hsess, hphase⟩
    refine ⟨?_, ?_⟩
    · intro c' e h
      rw [h] at hidle
      obtain rfl : c' = c := hidle
      exact ⟨rfl, rfl⟩
    · intro c' resp sess _ hsess hphase
      exact absurd ⟨sess, hsess, hphase⟩ harmed

/-! ## Over runs -/

namespace System

variable {s s' : System} {dec : Nat → Nat} {msg : Msg}

/-- Every message keeps the channels of the captures that go on. -/
theorem handle_wired (dec : Nat → Nat) (hS : s.Seated) (hen : s.Enabled msg) (hW : Wired s.coord) :
    Wired (s.handle dec msg).coord := by
  intro id sess' hsess' hrank
  -- a session that was there before was in no later phase
  have hold : ∀ sess, s.coord.sessions.get id = some sess → sess.stop.isSome = true := by
    intro sess hsess
    obtain ⟨sess'', hsess'', hadvance⟩ := handle_advance dec hS hen hsess
    obtain rfl := Option.some.inj (hsess'.symm.trans hsess'')
    exact hW id sess hsess (Nat.lt_of_le_of_lt hadvance.rank_le hrank)
  rcases handle_carries dec s msg with hcarry | ⟨env, req, req', config, rfl, -, -, hadd⟩
  · rcases hcarry.sessions id with ⟨-, hnone⟩ | ⟨sess, sess'', hsess, hsess'', hsame⟩
    · rw [hnone] at hsess'
      cases hsess'
    · obtain rfl := Option.some.inj (hsess'.symm.trans hsess'')
      exact hsame.channel.trans (hold sess hsess)
  · rw [hadd] at hsess'
    have hget := hsess'
    rw [show (s.coord.addSession (newSession env req' (env.requestHash req') config)).sessions.get
        id = _ from FastMap.get_insert ..] at hget
    split at hget
    next =>
      obtain rfl := Option.some.inj hget
      rfl
    next => exact hold sess' hget

theorem boot_wired (limits : Limits) (sessions : List StoredSession) (jobs : List JobRecord)
    (cache : List (String × JobId)) : Wired (boot limits sessions jobs cache).coord := by
  intro id sess hsess hrank
  have hended := (loadPersisted_loaded limits sessions jobs cache).ended id sess hsess
  omega

theorem run_wired {limits : Limits} {sessions : List StoredSession} {jobs : List JobRecord}
    {cache : List (String × JobId)}
    (h : Run saturatingPred Any (boot limits sessions jobs cache) s) : Wired s.coord := by
  have hW := h.invariant (I := fun s => Wired s.coord)
    (fun s msg hS hen _ hW => handle_wired saturatingPred hS hen hW)
    (boot_seated limits sessions jobs cache) (boot_wired limits sessions jobs cache)
  exact hW.2

/-- A snapshot request is atomic exactly when a session that was armed is
persisted and has a capture to tell, and the second is so in every state of a
run. -/
theorem snapshot_atomic_iff (c : Coord) (env : SnapshotEnv) (id : SessionId)
    (reason : CaptureReason) :
    (Atomic c env id reason ↔ ∀ sess, c.sessions.get id = some sess → sess.phase = .armed →
      env.persist = .ok () ∧ sess.stop.isSome = true) ∧
    ∀ (limits : Limits) (sessions : List StoredSession) (jobs : List JobRecord)
      (cache : List (String × JobId)) (s : System),
      Run saturatingPred Any (boot limits sessions jobs cache) s → s.coord = c →
        (Atomic c env id reason ↔ ∀ sess, c.sessions.get id = some sess → sess.phase = .armed →
          env.persist = .ok ()) := by
  refine ⟨atomic_iff c env id reason, fun limits sessions jobs cache s hrun hc => ?_⟩
  subst hc
  refine (atomic_iff s.coord env id reason).trans ⟨?_, ?_⟩
  · intro h sess hsess hphase
    exact (h sess hsess hphase).1
  · intro h sess hsess hphase
    exact ⟨h sess hsess hphase, run_wired hrun id sess hsess (by rw [hphase]; decide)⟩

/-- A session whose capture is armed. -/
def armedRun : List Msg := [startOf "a", .armed (captureOf "a" false)]

/-- `snapshot_atomic_iff` where the store can be written. -/
theorem snapshot_atomic_armedRun :
    Atomic (armedRun.foldl (System.handle saturatingPred) (boot .default [] [] [])).coord
      ⟨⟨"a"⟩, ⟨"b"⟩, .ok ()⟩ ⟨"a"⟩ .snapshot := by
  have hrun : Replays saturatingPred Any (boot .default [] [] []) armedRun := by decide +kernel
  refine ((snapshot_atomic_iff _ ⟨⟨"a"⟩, ⟨"b"⟩, .ok ()⟩ ⟨"a"⟩ .snapshot).2
    .default [] [] [] _ hrun.run rfl).mpr ?_
  intro sess _ _
  rfl

/-- Where it cannot, the failed request has finalized the session. -/
theorem snapshot_unpersisted :
    ¬ ∀ (limits : Limits) (sessions : List StoredSession) (jobs : List JobRecord)
      (cache : List (String × JobId)) (s : System),
      Run saturatingPred Any (boot limits sessions jobs cache) s →
        ∀ env id reason, Atomic s.coord env id reason := by
  intro h
  have hrun : Replays saturatingPred Any (boot .default [] [] []) armedRun := by decide +kernel
  have hatomic := h .default [] [] [] _ hrun.run ⟨⟨"a"⟩, ⟨"b"⟩, .error (.new .decodeFailed "No space left on device")⟩
    ⟨"a"⟩ .snapshot
  have harmed : (((armedRun.foldl (System.handle saturatingPred)
      (boot .default [] [] [])).coord.sessions.get ⟨"a"⟩).map (·.phase)) = some .armed := by
    decide +kernel
  obtain ⟨sess, hsess, hphase⟩ := Option.map_eq_some_iff.mp harmed
  obtain ⟨hsame, -⟩ := hatomic.failed _ _
    ((handleSnapshot_armed hsess hphase).trans (finalizeSession_error rfl))
  rw [FastMap.get_insert_self, hsess, Option.map_some, Option.map_some] at hsame
  have hphases := congrArg (fun o => o.map (·.1)) hsame
  rw [Option.map_some, Option.map_some, hphase] at hphases
  cases hphases

end System

end TraceMcp.Service
