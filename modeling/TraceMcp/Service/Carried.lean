import TraceMcp.Service.Accounting

/-!
# What messages leave alone

The coordinator writes a session's phase, snapshot, job and slot as its capture
goes on; who asked for it, with what, and whether its capture can be told to
stop is settled when it is created. `handle_carries` says so of every message,
and with it that only a start adds a session or a request.
-/

namespace TraceMcp.Service

open TraceMcp.Lib Coord

/-- The same session as far as its request and its channel go. -/
structure Session.Same (s s' : Session) : Prop where
  id : s'.id = s.id
  requestId : s'.requestId = s.requestId
  requestHash : s'.requestHash = s.requestHash
  channel : s'.stop.isSome = s.stop.isSome

theorem Session.Same.refl (s : Session) : s.Same s := ⟨rfl, rfl, rfl, rfl⟩

theorem Session.Same.trans {s s' s'' : Session} (h : s.Same s') (h' : s'.Same s'') : s.Same s'' :=
  ⟨h'.id.trans h.id, h'.requestId.trans h.requestId, h'.requestHash.trans h.requestHash,
    h'.channel.trans h.channel⟩

/-- The sessions are the same ones, for the same requests. -/
structure Carries (c c' : Coord) : Prop where
  requests : c'.byRequest = c.byRequest
  sessions : ∀ id, (c.sessions.get id = none ∧ c'.sessions.get id = none) ∨
    ∃ s s', c.sessions.get id = some s ∧ c'.sessions.get id = some s' ∧ s.Same s'

section Carries

variable {c c' c'' : Coord} {id : SessionId}

theorem Carries.of_eq (hreq : c'.byRequest = c.byRequest) (h : c'.sessions = c.sessions) :
    Carries c c' := by
  refine ⟨hreq, fun id => ?_⟩
  rw [h]
  cases hs : c.sessions.get id with
  | none => exact .inl ⟨rfl, rfl⟩
  | some s => exact .inr ⟨s, s, rfl, rfl, .refl s⟩

theorem Carries.refl (c : Coord) : Carries c c := .of_eq rfl rfl

theorem Carries.trans (h : Carries c c') (h' : Carries c' c'') : Carries c c'' := by
  refine ⟨h'.requests.trans h.requests, fun id => ?_⟩
  rcases h.sessions id with ⟨hnone, hnone'⟩ | ⟨s, s', hs, hs', hsame⟩
  · rcases h'.sessions id with ⟨-, hnone''⟩ | ⟨s', s'', hs', -, -⟩
    · exact .inl ⟨hnone, hnone''⟩
    · rw [hnone'] at hs'
      cases hs'
  · rcases h'.sessions id with ⟨hnone', -⟩ | ⟨t', s'', ht', hs'', hsame'⟩
    · rw [hnone'] at hs'
      cases hs'
    · obtain rfl := Option.some.inj (hs'.symm.trans ht')
      exact .inr ⟨s, s'', hs, hs'', hsame.trans hsame'⟩

/-- Rewriting one session. -/
theorem Carries.insert {s s' : Session} (hs : c.sessions.get id = some s)
    (hreq : c'.byRequest = c.byRequest) (hc : c'.sessions = c.sessions.insert id s')
    (hsame : s.Same s') : Carries c c' := by
  refine ⟨hreq, fun k => ?_⟩
  rw [hc, FastMap.get_insert]
  split
  next heq => exact .inr ⟨s, s', heq ▸ hs, rfl, hsame⟩
  next =>
    cases hk : c.sessions.get k with
    | none => exact .inl ⟨rfl, rfl⟩
    | some t => exact .inr ⟨t, t, rfl, rfl, .refl t⟩

theorem modSession_carries (c : Coord) (id : SessionId) {f : Session → Session}
    (hf : ∀ s : Session, s.Same (f s)) : Carries c (c.modSession id f) := by
  cases hs : c.sessions.get id with
  | none => exact .of_eq rfl (FastMap.modify_of_none hs f)
  | some s => exact .insert hs rfl (FastMap.modify_of_get hs f) (hf s)

theorem cancelQueuedSessionJob_carries (c : Coord) (id : SessionId) :
    Carries c (c.cancelQueuedSessionJob id) := by
  unfold cancelQueuedSessionJob
  split <;> exact .of_eq rfl rfl

theorem releaseCaptureSlot_carries (dec : Nat → Nat) (c : Coord) (id : SessionId) :
    Carries c (c.releaseCaptureSlot dec id) := by
  unfold releaseCaptureSlot
  split
  next s hs =>
    split
    next => exact .insert hs rfl rfl ⟨rfl, rfl, rfl, rfl⟩
    next => exact .refl c
  next => exact .refl c

theorem settled_carries (dec : Nat → Nat) (c : Coord) (id : SessionId) :
    Carries c (settled dec c id) :=
  ((cancelQueuedSessionJob_carries c id).trans (releaseCaptureSlot_carries dec _ id)).trans
    (.of_eq rfl rfl)

theorem handleArmed_carries (c : Coord) (id : SessionId) : Carries c (c.handleArmed id) := by
  refine modSession_carries c id fun s => ?_
  split <;> exact ⟨rfl, rfl, rfl, rfl⟩

theorem handleFailed_carries (dec : Nat → Nat) (c : Coord) (id : SessionId) :
    Carries c (c.handleFailed dec id) := by
  have hfail := modSession_carries c id (f := fun s =>
    if s.phase ≠ .cancelled then { s with phase := .failed } else s) fun s => by
      split <;> exact ⟨rfl, rfl, rfl, rfl⟩
  exact hfail.trans (settled_carries dec _ id)

theorem handlePublished_carries (dec : Nat → Nat) (c : Coord) (env : PublishEnv)
    (id : SessionId) (snapshot : SnapshotId) :
    Carries c (c.handlePublished dec env id snapshot).1 := by
  unfold handlePublished
  split
  next =>
    refine Carries.trans (modSession_carries c id fun s => ?_) (settled_carries dec _ id)
    split <;> exact ⟨rfl, rfl, rfl, rfl⟩
  next =>
    split
    next => exact .refl c
    next s hs =>
      have hcaptured : Carries c { c with sessions := c.sessions.insert id { s with
          phase := .captured, snapshotId := some snapshot
          decodeJob := some (s.decodeJob.getD env.jobId) } } :=
        .insert hs rfl rfl ⟨rfl, rfl, rfl, rfl⟩
      exact (hcaptured.trans (releaseCaptureSlot_carries dec _ id)).trans (.of_eq rfl rfl)

theorem handleSnapshot_carries (c : Coord) (env : SnapshotEnv) (id : SessionId)
    (reason : CaptureReason) : Carries c (c.handleSnapshot env id reason).1 := by
  unfold handleSnapshot
  split
  next => exact .refl c
  next s hs =>
    split
    next => exact .refl c
    next => exact .refl c
    next => exact .refl c
    next => split <;> exact .refl c
    next => split <;> exact .refl c
    next =>
      unfold finalizeSession
      dsimp only
      split
      next => exact .insert hs rfl rfl ⟨rfl, rfl, rfl, rfl⟩
      next =>
        refine .insert hs rfl (AList.insert_insert ..) ⟨rfl, rfl, rfl, ?_⟩
        show (s.stop.map fun _ => some (StopRequest.finish reason)).isSome = s.stop.isSome
        rw [Option.isSome_map]

theorem cancelSession_carries (dec : Nat → Nat) (c : Coord) (id : SessionId) :
    Carries c (c.cancelSession dec id).1 := by
  unfold cancelSession
  split
  next => exact .refl c
  next s hs =>
    have habort : Carries c { c with sessions := c.sessions.insert id { s with
        phase := .cancelled, stop := s.stop.map fun _ => some .abort } } := by
      refine .insert hs rfl rfl ⟨rfl, rfl, rfl, ?_⟩
      show (s.stop.map fun _ => some StopRequest.abort).isSome = s.stop.isSome
      rw [Option.isSome_map]
    split
    next => exact .refl c
    next => exact .refl c
    next => exact .refl c
    all_goals exact habort.trans (releaseCaptureSlot_carries dec _ id)

theorem cancelJob_carries (c : Coord) (id : JobId) : Carries c (c.cancelJob id).1 := by
  unfold cancelJob
  split
  next => split <;> exact .of_eq rfl rfl
  next => exact .refl c

end Carries

/-! ## Starts -/

/-- The answer to a request that has a session. -/
structure Answered (c : Coord) (hash : String) (rid : RequestId) (resp : StartResponse) (s : Session) :
    Prop where
  known : ∃ id, c.byRequest.get rid = some id ∧ c.sessions.get id = some s
  hash : s.requestHash = "" ∨ s.requestHash = hash
  resp : resp = ⟨s.id, s.phase⟩

/-- A start passes the checks, and is answered from the session of its request
or admitted as a new one. -/
theorem handleStart_inv {c c' : Coord} {env : StartEnv} {req : StartRequest} {resp : StartResponse}
    {tasks : List CaptureTask} (h : c.handleStart env req = .ok (c', resp, tasks)) :
    ∃ req', req.check env.pageSize = .ok req' ∧
      ((c' = c ∧ tasks = [] ∧ ∃ s, Answered c (env.requestHash req') req'.requestId resp s) ∨
        (c.byRequest.get req'.requestId = none ∧ ∃ config, c.admission env = .ok config ∧
          c' = c.addSession (newSession env req' (env.requestHash req') config) ∧
          resp = ⟨env.sessionId, .starting⟩ ∧ tasks = [⟨env.sessionId, env.snapshotId, false⟩])) := by
  unfold handleStart at h
  obtain ⟨req', hcheck, h⟩ := bind_ok.mp h
  refine ⟨req', hcheck, ?_⟩
  dsimp only at h
  split at h
  next id hid =>
    split at h
    next s hs =>
      split at h
      next => cases h
      next hhash =>
        cases h
        refine .inl ⟨rfl, rfl, s, ⟨⟨id, hid, hs⟩, ?_, rfl⟩⟩
        by_cases hempty : s.requestHash = ""
        · exact .inl hempty
        · exact .inr (not_not.mp fun hne => hhash ⟨hempty, hne⟩)
    next => cases h
  next hnone =>
    obtain ⟨config, hadmit, h⟩ := bind_ok.mp h
    cases h
    exact .inr ⟨hnone, config, hadmit, rfl, rfl, rfl⟩

namespace System

variable {s s' : System} {dec : Nat → Nat} {msg : Msg}

/-- A message leaves the sessions and the requests as they were, or is a start
that adds one of each. -/
theorem handle_carries (dec : Nat → Nat) (s : System) (msg : Msg) :
    Carries s.coord (s.handle dec msg).coord ∨
      ∃ env req req' config, msg = .start env req ∧ req.check env.pageSize = .ok req' ∧
        s.coord.byRequest.get req'.requestId = none ∧
        (s.handle dec msg).coord =
          s.coord.addSession (newSession env req' (env.requestHash req') config) := by
  cases msg with
  | start env req =>
    rw [handle]
    cases h : s.coord.handleStart env req with
    | error e => exact .inl (.refl _)
    | ok x =>
      obtain ⟨c', resp, tasks⟩ := x
      obtain ⟨req', hcheck, ⟨rfl, rfl, -⟩ | ⟨hnone, config, -, rfl, -, -⟩⟩ := handleStart_inv h
      · exact .inl (.refl _)
      · exact .inr ⟨env, req, req', config, rfl, hcheck, hnone, rfl⟩
  | snapshot env id reason => exact .inl (handleSnapshot_carries s.coord env id reason)
  | cancel target =>
    cases target with
    | session id => exact .inl (cancelSession_carries dec s.coord id)
    | job id => exact .inl (cancelJob_carries s.coord id)
  | prune env req =>
    obtain ⟨cache, hcache⟩ := handlePrune_eq (c := s.coord) env req
    refine .inl ?_
    show Carries s.coord (s.coord.handlePrune env req).1
    rw [hcache]
    exact .of_eq rfl rfl
  | decode env req =>
    rw [handle]
    cases h : s.coord.handleDecode env req with
    | error e => exact .inl (.refl _)
    | ok x =>
      obtain ⟨c', resp, workers⟩ := x
      rcases handleDecode_ok h with ⟨rfl, rfl⟩ | ⟨-, record, -, -, rfl, rfl⟩
      · exact .inl (.refl _)
      · exact .inl (.of_eq rfl rfl)
  | compare env =>
    rw [handle]
    cases h : s.coord.handleCompare env with
    | error e => exact .inl (.refl _)
    | ok x =>
      obtain ⟨c', resp, workers⟩ := x
      rcases handleCompare_ok h with ⟨rfl, rfl⟩ | ⟨-, -, record, -, -, rfl, rfl⟩
      · exact .inl (.refl _)
      · exact .inl (.of_eq rfl rfl)
  | armed t => exact .inl (handleArmed_carries s.coord t.session)
  | failed t => exact .inl (handleFailed_carries dec s.coord t.session)
  | published env t => exact .inl (handlePublished_carries dec s.coord env t.session t.snapshot)
  | jobFinished w outcome =>
    refine .inl ?_
    rw [handle]
    rw [handleJobFinished_eq]
    exact .of_eq rfl rfl

end System

end TraceMcp.Service
