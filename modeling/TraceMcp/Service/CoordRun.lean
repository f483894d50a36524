import Mathlib.Logic.Relation
import TraceMcp.Lib.Runs
import TraceMcp.Service.Coord

/-!
# Runs of the coordinator

The coordinator with the tasks it has spawned, and every message it can get
next: a request from a client, or a report from a task. A task counts as
unreported until its last message is handled, so any order of handling that
keeps each task's own order is a run. Requests that only read are left out,
and a shutdown is the end of a run.

`handle_seats` says once what a message can do to the sessions: they are never
removed, a new one starts at the beginning, and an old one only advances.
-/

namespace TraceMcp.Service

open TraceMcp.Lib Coord

/-- The coordinator and its unreported tasks. -/
structure System where
  coord : Coord
  captures : List CaptureTask
  workers : List Worker

/-- A message, with what handling it asks the outside. -/
inductive Msg
  | start (env : StartEnv) (req : StartRequest)
  | snapshot (env : SnapshotEnv) (session : SessionId) (reason : CaptureReason)
  | cancel (target : CancelTarget)
  | prune (env : PruneEnv) (req : PruneRequest)
  | decode (env : DecodeEnv) (req : DecodeRequest)
  | compare (env : CompareEnv)
  | armed (t : CaptureTask)
  | failed (t : CaptureTask)
  | published (env : PublishEnv) (t : CaptureTask)
  | jobFinished (w : Worker) (outcome : Result Unit)

namespace System

/-- A generated job id names nothing yet. -/
def FreshJob (c : Coord) (id : JobId) : Prop :=
  c.jobs.get id = none ∧ ∀ s ∈ c.sessions.values, s.decodeJob ≠ some id

instance (c : Coord) (id : JobId) : Decidable (FreshJob c id) :=
  inferInstanceAs (Decidable (_ ∧ _))

/-- The messages that can come next: generated ids are new, and a report comes
from a task that has not reported. -/
def Enabled (s : System) : Msg → Prop
  | .start env _ => s.coord.sessions.get env.sessionId = none
  | .snapshot env _ _ => FreshJob s.coord env.jobId
  | .decode env _ => FreshJob s.coord env.jobId
  | .compare env => FreshJob s.coord env.jobId
  | .armed t => t ∈ s.captures ∧ t.armed = false
  | .failed t => t ∈ s.captures
  | .published env t => t ∈ s.captures ∧ FreshJob s.coord env.jobId
  | .jobFinished w _ => w ∈ s.workers
  | .cancel _ | .prune .. => True

instance (s : System) : (msg : Msg) → Decidable (s.Enabled msg)
  | .start env _ => inferInstanceAs (Decidable (s.coord.sessions.get env.sessionId = none))
  | .snapshot env _ _ | .decode env _ | .compare env =>
    inferInstanceAs (Decidable (FreshJob s.coord env.jobId))
  | .armed t => inferInstanceAs (Decidable (t ∈ s.captures ∧ t.armed = false))
  | .failed t => inferInstanceAs (Decidable (t ∈ s.captures))
  | .published env t => inferInstanceAs (Decidable (t ∈ s.captures ∧ FreshJob s.coord env.jobId))
  | .jobFinished w _ => inferInstanceAs (Decidable (w ∈ s.workers))
  | .cancel _ | .prune .. => inferInstanceAs (Decidable True)

/-- One message. -/
def handle (dec : Nat → Nat) (s : System) : Msg → System
  | .start env req =>
    match s.coord.handleStart env req with
    | .ok (c, _, tasks) => { s with coord := c, captures := s.captures ++ tasks }
    | .error _ => s
  | .snapshot env session reason =>
    { s with coord := (s.coord.handleSnapshot env session reason).1 }
  | .cancel target => { s with coord := (s.coord.handleCancel dec target).1 }
  | .prune env req => { s with coord := (s.coord.handlePrune env req).1 }
  | .decode env req =>
    match s.coord.handleDecode env req with
    | .ok (c, _, workers) => { s with coord := c, workers := s.workers ++ workers }
    | .error _ => s
  | .compare env =>
    match s.coord.handleCompare env with
    | .ok (c, _, workers) => { s with coord := c, workers := s.workers ++ workers }
    | .error _ => s
  | .armed t =>
    { s with
      coord := s.coord.handleArmed t.session
      captures := s.captures.erase t ++ [{ t with armed := true }] }
  | .failed t =>
    { s with
      coord := s.coord.handleFailed dec t.session
      captures := s.captures.erase t }
  | .published env t =>
    let (c, workers) := s.coord.handlePublished dec env t.session t.snapshot
    { coord := c, captures := s.captures.erase t, workers := s.workers ++ workers }
  | .jobFinished w outcome =>
    { s with
      coord := s.coord.handleJobFinished dec (finishedRecord w.record outcome) w.decodeSlot
        w.expensiveSlot
      workers := s.workers.erase w }

/-- One enabled message satisfying `P` in the state it finds. -/
def Step (dec : Nat → Nat) (P : System → Msg → Prop) (s s' : System) : Prop :=
  ∃ msg, s.Enabled msg ∧ P s msg ∧ s' = s.handle dec msg

/-- A run of such messages. -/
def Run (dec : Nat → Nat) (P : System → Msg → Prop) : System → System → Prop :=
  Relation.ReflTransGen (Step dec P)

/-- Any message. -/
def Any (_ : System) (_ : Msg) : Prop := True

instance (s : System) (msg : Msg) : Decidable (Any s msg) := inferInstanceAs (Decidable True)

/-- The messages can be handled in this order. -/
def Replays (dec : Nat → Nat) (P : System → Msg → Prop) : System → List Msg → Prop
  | _, [] => True
  | s, msg :: msgs => s.Enabled msg ∧ P s msg ∧ Replays dec P (s.handle dec msg) msgs

instance Replays.decidable (dec : Nat → Nat) (P : System → Msg → Prop)
    [∀ s msg, Decidable (P s msg)] : (s : System) → (msgs : List Msg) →
      Decidable (Replays dec P s msgs)
  | _, [] => inferInstanceAs (Decidable True)
  | s, msg :: msgs =>
    have := Replays.decidable dec P (s.handle dec msg) msgs
    inferInstanceAs (Decidable (_ ∧ _ ∧ _))

theorem Replays.run {dec : Nat → Nat} {P : System → Msg → Prop} :
    ∀ {msgs : List Msg} {s : System}, Replays dec P s msgs →
      Run dec P s (msgs.foldl (handle dec) s)
  | [], _, _ => .refl
  | _ :: _, _, ⟨hen, hP, h⟩ => .head ⟨_, hen, hP, rfl⟩ h.run

/-- The system a coordinator starts with: what is on disk, and no tasks. -/
def boot (limits : Limits) (sessions : List StoredSession) (jobs : List JobRecord)
    (cache : List (String × JobId)) : System :=
  ⟨loadPersisted limits sessions jobs cache, [], []⟩

/-! ### A client to replay -/

/-- A start of `/bin/true` that passes every check; its session, snapshot and
request are called `name`. -/
def startOf (name : String) : Msg :=
  .start
    { pageSize := 4096
      requestHash := fun req => req.requestId.raw
      ensureBudget := .ok ()
      readyTopology := .ok { IntelPtConfig.default with auxBytesPerBuffer := some 1048576 }
      checkTarget := .ok ()
      sessionId := ⟨name⟩
      snapshotId := ⟨name⟩
      persist := .ok () }
    { requestId := ⟨name⟩
      target := .launch ["/bin/true"] none []
      config := { IntelPtConfig.default with auxBytesPerBuffer := some 1048576 }
      afterMs := none
      workload := none
      trigger := none
      tailMs := none }

/-- The capture task of that session. -/
def captureOf (name : String) (armed : Bool) : CaptureTask := ⟨⟨name⟩, ⟨name⟩, armed⟩

/-- Its snapshot is published; a job it needs is called `name`. -/
def publishOf (name : String) (armed : Bool) : Msg :=
  .published ⟨⟨name⟩, ⟨name⟩⟩ (captureOf name armed)

/-- The worker that decodes it. -/
def decodeOf (job name : String) : Worker :=
  ⟨{ queuedDecode ⟨job⟩ ⟨name⟩ with analysisId := some ⟨name⟩ }, true, false⟩

/-- A compare under job and cache key `name`. -/
def compareOf (name : String) : Msg := .compare ⟨name, ⟨name⟩, ⟨name⟩⟩

end System

/-! ## Phases -/

/-- `Starting < Armed < Finalizing < ` the terminal phases. -/
def rank : SessionPhase → Nat
  | .starting => 0
  | .armed => 1
  | .finalizing => 2
  | .captured | .failed | .cancelled => 3

theorem rank_le (p : SessionPhase) : rank p ≤ 3 := by
  cases p <;> decide

/-- A phase stays or goes up; nothing is above a terminal phase. -/
def Advance (p q : SessionPhase) : Prop := q = p ∨ rank p < rank q

theorem Advance.refl (p : SessionPhase) : Advance p p := Or.inl rfl

theorem Advance.rank_le {p q : SessionPhase} (h : Advance p q) : rank p ≤ rank q := by
  rcases h with rfl | h
  · exact Nat.le_refl _
  · exact Nat.le_of_lt h

theorem Advance.trans {p q r : SessionPhase} (h : Advance p q) (h' : Advance q r) :
    Advance p r := by
  rcases h with rfl | h
  · exact h'
  · exact Or.inr (Nat.lt_of_lt_of_le h h'.rank_le)

/-- A terminal phase is final. -/
theorem Advance.eq_of_terminal {p q : SessionPhase} (h : Advance p q) (hp : rank p = 3) :
    q = p := by
  rcases h with h | h
  · exact h
  · have hq := Service.rank_le q
    omega

/-- What a message may do to a session it finds; `pub` is the session it
publishes, if it is a publication. -/
structure Reseat (pub : Option SessionId) (id : SessionId) (s s' : Session) : Prop where
  phase : Advance s.phase s'.phase
  job : s'.decodeJob = s.decodeJob ∨ 2 ≤ rank s'.phase
  captured : s'.phase = .captured → s.phase = .captured ∨ pub = some id

theorem Reseat.refl (pub : Option SessionId) (id : SessionId) (s : Session) : Reseat pub id s s :=
  ⟨.refl _, Or.inl rfl, Or.inl⟩

theorem Reseat.trans {pub : Option SessionId} {id : SessionId} {s s' s'' : Session}
    (h : Reseat pub id s s') (h' : Reseat pub id s' s'') : Reseat pub id s s'' := by
  refine ⟨h.phase.trans h'.phase, ?_, ?_⟩
  · rcases h'.job with heq | hrank
    · rcases h.job with heq' | hrank
      · exact Or.inl (heq.trans heq')
      · exact Or.inr (Nat.le_trans hrank h'.phase.rank_le)
    · exact Or.inr hrank
  · intro hcap
    rcases h'.captured hcap with hcap | hpub
    · exact h.captured hcap
    · exact Or.inr hpub

/-- No session appears or disappears, and each is at most reseated. -/
def Reseats (pub : Option SessionId) (c c' : Coord) : Prop :=
  ∀ id, (c.sessions.get id = none ∧ c'.sessions.get id = none) ∨
    ∃ s s', c.sessions.get id = some s ∧ c'.sessions.get id = some s' ∧ Reseat pub id s s'

section Reseats

variable {pub : Option SessionId} {c c' c'' : Coord} {id : SessionId}

theorem Reseats.of_sessions (h : c'.sessions = c.sessions) : Reseats pub c c' := by
  intro id
  rw [h]
  cases hs : c.sessions.get id with
  | none => exact Or.inl ⟨rfl, rfl⟩
  | some s => exact Or.inr ⟨s, s, rfl, rfl, .refl ..⟩

theorem Reseats.trans (h : Reseats pub c c') (h' : Reseats pub c' c'') : Reseats pub c c'' := by
  intro id
  rcases h id with ⟨hnone, hnone'⟩ | ⟨s, s', hs, hs', hseat⟩
  · rcases h' id with ⟨-, hnone''⟩ | ⟨s', s'', hs', -, -⟩
    · exact Or.inl ⟨hnone, hnone''⟩
    · rw [hnone'] at hs'
      cases hs'
  · rcases h' id with ⟨hnone', -⟩ | ⟨t', s'', ht', hs'', hseat'⟩
    · rw [hnone'] at hs'
      cases hs'
    · obtain rfl := Option.some.inj (hs'.symm.trans ht')
      exact Or.inr ⟨s, s'', hs, hs'', hseat.trans hseat'⟩

/-- Rewriting one session. -/
theorem Reseats.insert {s s' : Session} (hs : c.sessions.get id = some s)
    (hc : c'.sessions = c.sessions.insert id s') (hseat : Reseat pub id s s') :
    Reseats pub c c' := by
  intro k
  rw [hc, FastMap.get_insert]
  split
  next heq => exact Or.inr ⟨s, s', heq ▸ hs, rfl, heq ▸ hseat⟩
  next =>
    cases hk : c.sessions.get k with
    | none => exact Or.inl ⟨rfl, rfl⟩
    | some t => exact Or.inr ⟨t, t, rfl, rfl, .refl ..⟩

theorem modSession_reseats {f : Session → Session}
    (hf : ∀ s, c.sessions.get id = some s → Reseat pub id s (f s)) :
    Reseats pub c (c.modSession id f) := by
  cases hs : c.sessions.get id with
  | none => exact .of_sessions (FastMap.modify_of_none hs f)
  | some s => exact .insert hs (FastMap.modify_of_get hs f) (hf s hs)

theorem cancelQueuedSessionJob_sessions (c : Coord) (id : SessionId) :
    (c.cancelQueuedSessionJob id).sessions = c.sessions := by
  unfold cancelQueuedSessionJob
  split <;> rfl

theorem releaseCaptureSlot_reseats (dec : Nat → Nat) (c : Coord) (id : SessionId) :
    Reseats pub c (c.releaseCaptureSlot dec id) := by
  unfold releaseCaptureSlot
  split
  next s hs =>
    split
    next => exact .insert hs rfl ⟨.refl _, Or.inl rfl, Or.inl⟩
    next => exact .of_sessions rfl
  next => exact .of_sessions rfl

/-- The common end of a failure and of a blocked publication. -/
theorem settle_reseats (dec : Nat → Nat) (h : Reseats pub c c') (id : SessionId) (n : Nat) :
    Reseats pub c { (c'.cancelQueuedSessionJob id).releaseCaptureSlot dec id with
      reservedDecode := n } :=
  (h.trans (.of_sessions (cancelQueuedSessionJob_sessions c' id))).trans
    ((releaseCaptureSlot_reseats dec _ id).trans (.of_sessions rfl))

end Reseats

/-! ## What each message does to the sessions -/

section Handlers

variable {c : Coord} {dec : Nat → Nat}

theorem handleArmed_reseats (id : SessionId) : Reseats none c (c.handleArmed id) := by
  refine modSession_reseats fun s _ => ?_
  split
  next h =>
    refine ⟨Or.inr ?_, Or.inl rfl, nofun⟩
    show rank s.phase < rank .armed
    rw [h]
    decide
  next => exact .refl ..

/-- A failure report comes before any publication of its session. -/
theorem handleFailed_reseats {id : SessionId}
    (hid : ∀ s, c.sessions.get id = some s → s.phase ≠ .captured) :
    Reseats none c (c.handleFailed dec id) := by
  refine settle_reseats dec (modSession_reseats fun s hs => ?_) id _
  split
  next hne =>
    have hcap := hid s hs
    refine ⟨?_, Or.inr (Nat.le_succ 2), nofun⟩
    show Advance s.phase .failed
    cases hp : s.phase with
    | starting | armed | finalizing => exact Or.inr (by decide)
    | captured => exact absurd hp hcap
    | failed => exact .refl _
    | cancelled => exact absurd hp hne
  next => exact .refl ..

theorem handlePublished_reseats (env : PublishEnv) (id : SessionId) (snapshot : SnapshotId) :
    Reseats (some id) c (c.handlePublished dec env id snapshot).1 := by
  unfold handlePublished
  split
  next =>
    refine settle_reseats dec (modSession_reseats fun s _ => ?_) id _
    split
    next => exact ⟨.refl _, Or.inl rfl, Or.inl⟩
    next => exact .refl ..
  next hblocked =>
    split
    next => exact .of_sessions rfl
    next s hs =>
      have hseat : Reseat (some id) id s { s with
          phase := .captured, snapshotId := some snapshot
          decodeJob := some (s.decodeJob.getD env.jobId) } := by
        refine ⟨?_, Or.inr (Nat.le_succ 2), fun _ => Or.inr rfl⟩
        show Advance s.phase .captured
        rw [blocked, hs] at hblocked
        cases hp : s.phase with
        | starting | armed | finalizing => exact Or.inr (by decide)
        | captured => exact .refl _
        | failed | cancelled => simp [hp] at hblocked
      exact (Reseats.insert hs rfl hseat).trans
        ((releaseCaptureSlot_reseats dec _ id).trans (.of_sessions rfl))

theorem handleSnapshot_reseats (env : SnapshotEnv) (id : SessionId) (reason : CaptureReason) :
    Reseats none c (c.handleSnapshot env id reason).1 := by
  unfold handleSnapshot
  split
  next => exact .of_sessions rfl
  next s hs =>
    split
    next => exact .of_sessions rfl
    next => exact .of_sessions rfl
    next => exact .of_sessions rfl
    next => split <;> exact .of_sessions rfl
    next => split <;> exact .of_sessions rfl
    next hp =>
      have hseat : ∀ stop, Reseat none id s { s with
          snapshotId := some (s.snapshotId.getD env.snapshotId)
          decodeJob := some (s.decodeJob.getD env.jobId), phase := .finalizing, stop := stop } := by
        intro stop
        refine ⟨Or.inr ?_, Or.inr (Nat.le_refl 2), nofun⟩
        show rank s.phase < rank .finalizing
        rw [hp]
        decide
      unfold finalizeSession
      dsimp only
      split
      next => exact .insert hs rfl (hseat _)
      next =>
        refine .insert hs ?_ (hseat (s.stop.map fun _ => some (.finish reason)))
        show (AList.insert id _ (AList.insert id _ c.sessions)) = _
        exact AList.insert_insert ..

theorem cancelSession_reseats (id : SessionId) :
    Reseats none c (c.cancelSession dec id).1 := by
  unfold cancelSession
  split
  next => exact .of_sessions rfl
  next s hs =>
    have hseat : rank s.phase < 3 → Reseat none id s { s with
        phase := .cancelled, stop := s.stop.map fun _ => some .abort } := fun hlt =>
      ⟨Or.inr hlt, Or.inr (Nat.le_succ 2), nofun⟩
    have hlive := fun hlt => (Reseats.insert hs rfl (hseat hlt)).trans
      (releaseCaptureSlot_reseats dec { c with sessions := c.sessions.insert id { s with
        phase := .cancelled, stop := s.stop.map fun _ => some .abort } } id)
    split
    next => exact .of_sessions rfl
    next => exact .of_sessions rfl
    next => exact .of_sessions rfl
    next hp => exact hlive (by rw [hp]; decide)
    next hp => exact hlive (by rw [hp]; decide)
    next hp => exact hlive (by rw [hp]; decide)

theorem cancelJob_sessions (id : JobId) : (c.cancelJob id).1.sessions = c.sessions := by
  unfold cancelJob
  split
  next => split <;> rfl
  next => rfl

theorem pruneOne_eq (env : PruneEnv)
    (acc : Coord × List (SnapshotId × Nat) × List (SnapshotId × String)) (id : SnapshotId) :
    ∃ cache, (pruneOne env acc id).1 = { acc.1 with cacheJobs := cache } := by
  obtain ⟨c, removed, skipped⟩ := acc
  unfold pruneOne
  dsimp only
  split
  next => exact ⟨_, rfl⟩
  next => split <;> exact ⟨_, rfl⟩

/-- A prune changes the cache keys and nothing else. -/
theorem handlePrune_eq (env : PruneEnv) (req : PruneRequest) :
    ∃ cache, (c.handlePrune env req).1 = { c with cacheJobs := cache } := by
  have hfold : ∀ (ids : List SnapshotId) acc, ∃ cache,
      (ids.foldl (pruneOne env) acc).1 = { acc.1 with cacheJobs := cache } := by
    intro ids
    induction ids with
    | nil => exact fun acc => ⟨_, rfl⟩
    | cons id ids ih =>
      intro acc
      obtain ⟨cache, hcache⟩ := pruneOne_eq env acc id
      obtain ⟨cache', hcache'⟩ := ih (pruneOne env acc id)
      exact ⟨cache', by rw [List.foldl_cons, hcache', hcache]⟩
  unfold handlePrune
  split
  next => exact ⟨_, rfl⟩
  next =>
    split
    next c' removed skipped heq =>
      split at heq
      next =>
        obtain rfl := (Prod.mk.inj heq).1
        exact ⟨_, rfl⟩
      next =>
        obtain ⟨cache, hcache⟩ := hfold req.snapshotIds (c, [], [])
        rw [heq] at hcache
        exact ⟨cache, hcache⟩

/-- A start is answered from an existing session or admitted under the limits. -/
theorem handleStart_ok {env : StartEnv} {req : StartRequest} {c' : Coord} {resp : StartResponse}
    {tasks : List CaptureTask} (h : c.handleStart env req = .ok (c', resp, tasks)) :
    (c' = c ∧ tasks = []) ∨
      (c.activeCaptures < c.limits.maxActiveCaptures ∧
        c.reservedDecode + c.pendingExpensive < c.limits.maxPendingExpensive ∧
        ∃ req hash config, c' = c.addSession (newSession env req hash config) ∧
          tasks = [⟨env.sessionId, env.snapshotId, false⟩]) := by
  unfold handleStart at h
  obtain ⟨req', -, h⟩ := bind_ok.mp h
  dsimp only at h
  split at h
  next =>
    split at h
    next =>
      split at h
      next => cases h
      next =>
        cases h
        exact Or.inl ⟨rfl, rfl⟩
    next => cases h
  next =>
    obtain ⟨config, hadmit, h⟩ := bind_ok.mp h
    cases h
    unfold admission at hadmit
    split at hadmit
    next => cases hadmit
    next hactive =>
      obtain ⟨-, -, hadmit⟩ := bind_ok.mp hadmit
      split at hadmit
      next => cases hadmit
      next hqueue =>
        exact Or.inr ⟨Nat.lt_of_not_le hactive, Nat.lt_of_not_le hqueue, _, _, _, rfl, rfl⟩

/-- A decode request is answered from what exists or starts a worker under the
limit. -/
theorem handleDecode_ok {env : DecodeEnv} {req : DecodeRequest} {c' : Coord}
    {resp : DecodeResponse} {workers : List Worker}
    (h : c.handleDecode env req = .ok (c', resp, workers)) :
    (c' = c ∧ workers = []) ∨
      (c.runningDecode < c.limits.maxDecodeJobs ∧
        ∃ record : JobRecord, record.jobId = env.jobId ∧ record.kind ≠ .compare ∧
          c' = { c.queueJob env.key record with runningDecode := c.runningDecode + 1 } ∧
          workers = [⟨record, true, false⟩]) := by
  unfold handleDecode at h
  obtain ⟨-, -, h⟩ := bind_ok.mp h
  obtain ⟨detail, -, h⟩ := bind_ok.mp h
  dsimp only at h
  split at h
  next =>
    cases h
    exact Or.inl ⟨rfl, rfl⟩
  next =>
    split at h
    next => cases h
    next hlimit =>
      cases h
      refine Or.inr ⟨Nat.lt_of_not_le hlimit, _, rfl, ?_, rfl, rfl⟩
      show (if detail = .instructions then JobKind.instructionDecode else .initialDecode) ≠ _
      split <;> decide

/-- A compare request is answered from the cache or starts a worker under the
limit on compares. -/
theorem handleCompare_ok {env : CompareEnv} {c' : Coord} {jid : JobId} {workers : List Worker}
    (h : c.handleCompare env = .ok (c', jid, workers)) :
    (c' = c ∧ workers = []) ∨
      (c.cacheJobs.get env.key = none ∧ c.pendingExpensive < c.limits.maxPendingExpensive ∧
        ∃ record : JobRecord, record.jobId = env.jobId ∧ record.kind = .compare ∧
          c' = { c.queueJob env.key record with pendingExpensive := c.pendingExpensive + 1 } ∧
          workers = [⟨record, false, true⟩]) := by
  unfold handleCompare at h
  split at h
  next =>
    cases h
    exact Or.inl ⟨rfl, rfl⟩
  next hmiss =>
    split at h
    next => cases h
    next hlimit =>
      cases h
      exact Or.inr ⟨hmiss, Nat.lt_of_not_le hlimit, _, rfl, rfl, rfl, rfl⟩

theorem handleJobFinished_sessions (record : JobRecord) (decodeSlot expensiveSlot : Bool) :
    (c.handleJobFinished dec record decodeSlot expensiveSlot).sessions = c.sessions := by
  unfold handleJobFinished
  cases decodeSlot <;> cases expensiveSlot <;> rfl

end Handlers

/-! ## The seating of sessions -/

namespace System

/-- Every unreported capture has its session, which is not captured yet, and
sessions that have not been finalized have no decode job. -/
structure Seated (s : System) : Prop where
  listed : ∀ t ∈ s.captures, ∃ sess, s.coord.sessions.get t.session = some sess ∧
    sess.phase ≠ .captured
  distinct : (s.captures.map CaptureTask.session).Nodup
  undecoded : ∀ id sess, s.coord.sessions.get id = some sess → rank sess.phase < 2 →
    sess.decodeJob = none

/-- The session a message publishes. -/
def publishes : Msg → Option SessionId
  | .published _ t => some t.session
  | _ => none

/-- A new session, and everything else as it was. -/
structure Admits (s s' : System) : Prop where
  opened : ∃ sess : Session, s.coord.sessions.get sess.id = none ∧ sess.phase = .starting ∧
    sess.decodeJob = none ∧ s'.coord = s.coord.addSession sess ∧
    ∃ snapshot, s'.captures = s.captures ++ [⟨sess.id, snapshot, false⟩]

/-- The sessions there are, reseated at most; captures may have reported, and
the one of a published session has. -/
structure Continues (msg : Msg) (s s' : System) : Prop where
  seats : Reseats (publishes msg) s.coord s'.coord
  reported : ∃ gone, (s.captures.map CaptureTask.session).Perm
      (gone ++ s'.captures.map CaptureTask.session) ∧
    ∀ id, publishes msg = some id → id ∈ gone

variable {s s' : System} {dec : Nat → Nat} {msg : Msg}

/-- A message that is neither a start nor a report of a capture. -/
theorem Continues.quiet (hpub : publishes msg = none) (hseats : Reseats none s.coord s'.coord)
    (hcap : s'.captures = s.captures) : Continues msg s s' := by
  refine ⟨hpub ▸ hseats, [], ?_, ?_⟩
  · rw [hcap]
    exact .refl _
  · rw [hpub]
    exact nofun

/-- Taking out the task that reports. -/
theorem reported_perm {t : CaptureTask} (ht : t ∈ s.captures) :
    (s.captures.map CaptureTask.session).Perm
      ([t.session] ++ (s.captures.erase t).map CaptureTask.session) :=
  (List.perm_cons_erase ht).map CaptureTask.session

/-- A message admits a session or continues with those there are. -/
theorem handle_seats (dec : Nat → Nat) (hS : s.Seated) (hen : s.Enabled msg) :
    s.Admits (s.handle dec msg) ∨ Continues msg s (s.handle dec msg) := by
  cases msg with
  | start env req =>
    rw [handle]
    cases h : s.coord.handleStart env req with
    | error e => exact Or.inr (.quiet rfl (.of_sessions rfl) rfl)
    | ok x =>
      obtain ⟨c', resp, tasks⟩ := x
      rcases handleStart_ok h with ⟨rfl, rfl⟩ | ⟨-, -, req', hash, config, rfl, rfl⟩
      · exact Or.inr (.quiet rfl (.of_sessions rfl) (List.append_nil _))
      · exact Or.inl ⟨⟨newSession env req' hash config, hen, rfl, rfl, rfl, _, rfl⟩⟩
  | snapshot env id reason => exact Or.inr (.quiet rfl (handleSnapshot_reseats env id reason) rfl)
  | cancel target =>
    cases target with
    | session id => exact Or.inr (.quiet rfl (cancelSession_reseats id) rfl)
    | job id => exact Or.inr (.quiet rfl (.of_sessions (cancelJob_sessions id)) rfl)
  | prune env req =>
    obtain ⟨cache, hcache⟩ := handlePrune_eq (c := s.coord) env req
    refine Or.inr (.quiet rfl (.of_sessions ?_) rfl)
    show (s.coord.handlePrune env req).1.sessions = _
    rw [hcache]
  | decode env req =>
    rw [handle]
    cases h : s.coord.handleDecode env req with
    | error e => exact Or.inr (.quiet rfl (.of_sessions rfl) rfl)
    | ok x =>
      obtain ⟨c', resp, workers⟩ := x
      rcases handleDecode_ok h with ⟨rfl, rfl⟩ | ⟨-, record, -, -, rfl, rfl⟩
      · exact Or.inr (.quiet rfl (.of_sessions rfl) rfl)
      · exact Or.inr (.quiet rfl (.of_sessions rfl) rfl)
  | compare env =>
    rw [handle]
    cases h : s.coord.handleCompare env with
    | error e => exact Or.inr (.quiet rfl (.of_sessions rfl) rfl)
    | ok x =>
      obtain ⟨c', resp, workers⟩ := x
      rcases handleCompare_ok h with ⟨rfl, rfl⟩ | ⟨-, -, record, -, -, rfl, rfl⟩
      · exact Or.inr (.quiet rfl (.of_sessions rfl) rfl)
      · exact Or.inr (.quiet rfl (.of_sessions rfl) rfl)
  | armed t =>
    refine Or.inr ⟨handleArmed_reseats t.session, [], ?_, nofun⟩
    -- the task stays, at the end of the list
    have hmove := (reported_perm hen.1).trans List.perm_append_comm
    rw [List.nil_append, handle, List.map_append]
    exact hmove
  | failed t =>
    refine Or.inr ⟨handleFailed_reseats fun sess hsess => ?_, [t.session], reported_perm hen, nofun⟩
    obtain ⟨sess', hsess', hne⟩ := hS.listed t hen
    obtain rfl := Option.some.inj (hsess.symm.trans hsess')
    exact hne
  | published env t =>
    refine Or.inr ⟨handlePublished_reseats env t.session t.snapshot, [t.session],
      reported_perm hen.1, ?_⟩
    rintro id hid
    obtain rfl := Option.some.inj hid
    exact List.mem_singleton_self _
  | jobFinished w outcome =>
    exact Or.inr (.quiet rfl (.of_sessions (handleJobFinished_sessions ..)) rfl)

theorem Admits.seated (hS : s.Seated) (h : s.Admits s') : s'.Seated := by
  obtain ⟨sess, hnone, hphase, hjob, hcoord, snapshot, hcap⟩ := h.opened
  have hget : ∀ id, s'.coord.sessions.get id =
      if id = sess.id then some sess else s.coord.sessions.get id := by
    intro id
    rw [hcoord]
    exact FastMap.get_insert s.coord.sessions sess.id id sess
  have hother : ∀ t ∈ s.captures, t.session ≠ sess.id := by
    intro t ht heq
    obtain ⟨sess', hsess', -⟩ := hS.listed t ht
    rw [heq, hnone] at hsess'
    cases hsess'
  refine ⟨?_, ?_, ?_⟩
  · intro t ht
    rw [hcap, List.mem_append, List.mem_singleton] at ht
    rcases ht with ht | rfl
    · rw [hget, if_neg (hother t ht)]
      exact hS.listed t ht
    · rw [hget, if_pos rfl]
      refine ⟨sess, rfl, ?_⟩
      rw [hphase]
      decide
  · rw [hcap, List.map_append, List.nodup_append]
    refine ⟨hS.distinct, List.nodup_singleton _, ?_⟩
    intro id hid id' hid' heq
    obtain ⟨t, ht, rfl⟩ := List.mem_map.mp hid
    exact hother t ht (heq.trans (List.mem_singleton.mp hid'))
  · intro id sess' hsess' hrank
    rw [hget] at hsess'
    split at hsess'
    next =>
      obtain rfl := Option.some.inj hsess'
      exact hjob
    next => exact hS.undecoded id sess' hsess' hrank

theorem Continues.seated (hS : s.Seated) (h : Continues msg s s') : s'.Seated := by
  obtain ⟨gone, hperm, hgone⟩ := h.reported
  have hnodup := hperm.nodup_iff.mp hS.distinct
  refine ⟨?_, (List.nodup_append.mp hnodup).2.1, ?_⟩
  · intro t ht
    have hid : t.session ∈ s'.captures.map CaptureTask.session := List.mem_map_of_mem ht
    obtain ⟨t₀, ht₀, heq⟩ := List.mem_map.mp (hperm.mem_iff.mpr (List.mem_append_right gone hid))
    obtain ⟨sess, hsess, hne⟩ := hS.listed t₀ ht₀
    rcases h.seats t.session with ⟨hnone, -⟩ | ⟨sess₀, sess', hsess₀, hsess', hseat⟩
    · rw [← heq, hsess] at hnone
      cases hnone
    · refine ⟨sess', hsess', fun hcap => ?_⟩
      obtain rfl := Option.some.inj (hsess.symm.trans (heq ▸ hsess₀))
      rcases hseat.captured hcap with hcap' | hpub
      · exact hne hcap'
      · -- the published session's task has reported, and there was only one
        exact (List.nodup_append.mp hnodup).2.2 _ (hgone _ hpub) _ hid rfl
  · intro id sess' hsess' hrank
    rcases h.seats id with ⟨-, hnone⟩ | ⟨sess, sess₁, hsess, hsess₁, hseat⟩
    · rw [hnone] at hsess'
      cases hsess'
    · obtain rfl := Option.some.inj (hsess'.symm.trans hsess₁)
      have hjob := hS.undecoded id sess hsess (Nat.lt_of_le_of_lt hseat.phase.rank_le hrank)
      rcases hseat.job with heq | hle
      · rw [heq, hjob]
      · omega

/-- The seating is kept by every message. -/
theorem Seated.handle (hS : s.Seated) (hen : s.Enabled msg) : (s.handle dec msg).Seated := by
  rcases handle_seats dec hS hen with h | h
  · exact h.seated hS
  · exact h.seated hS

/-! ## From the start -/

/-- What a restart leaves: no slot is held, nothing is counted, and every
session is over. -/
structure Loaded (limits : Limits) (c : Coord) : Prop where
  limits : c.limits = limits
  idle : c.activeCaptures = 0 ∧ c.runningDecode = 0 ∧ c.pendingExpensive = 0 ∧ c.reservedDecode = 0
  unheld : c.sessions.count Session.slotHeld = 0
  ended : ∀ id sess, c.sessions.get id = some sess → rank sess.phase = 3

theorem rank_storedPhase (p : Option SessionPhase) : rank (storedPhase p) = 3 := by
  rcases p with _ | p
  · rfl
  · cases p <;> rfl

theorem loadSession_loaded {limits : Limits} {c : Coord} (h : Loaded limits c)
    (v : StoredSession) : Loaded limits (loadSession c v) := by
  unfold loadSession
  split
  next => exact h
  next =>
    refine ⟨h.limits, h.idle, ?_, ?_⟩
    · have hle := FastMap.count_insert_le Session.slotHeld c.sessions v.id
      rw [h.unheld] at hle
      exact Nat.le_zero.mp (hle _)
    · intro id sess hsess
      rw [FastMap.get_insert] at hsess
      split at hsess
      next =>
        obtain rfl := Option.some.inj hsess
        exact rank_storedPhase v.state
      next => exact h.ended id sess hsess

theorem loadPersisted_loaded (limits : Limits) (sessions : List StoredSession)
    (jobs : List JobRecord) (cache : List (String × JobId)) :
    Loaded limits (loadPersisted limits sessions jobs cache) := by
  unfold loadPersisted
  refine List.foldlRecOn cache _ ?_ fun c h e _ => ⟨h.limits, h.idle, h.unheld, h.ended⟩
  refine List.foldlRecOn jobs _ ?_ fun c h j _ => ⟨h.limits, h.idle, h.unheld, h.ended⟩
  refine List.foldlRecOn sessions _ ?_ fun c h v _ => loadSession_loaded h v
  exact ⟨rfl, ⟨rfl, rfl, rfl, rfl⟩, rfl, fun id sess hsess => by cases hsess⟩

theorem boot_seated (limits : Limits) (sessions : List StoredSession) (jobs : List JobRecord)
    (cache : List (String × JobId)) : (boot limits sessions jobs cache).Seated := by
  refine ⟨fun t ht => absurd ht List.not_mem_nil, List.nodup_nil, fun id sess hsess hrank => ?_⟩
  rw [(loadPersisted_loaded limits sessions jobs cache).ended id sess hsess] at hrank
  omega

/-- The rule for invariants of runs: each message may rely on the seating. -/
theorem Run.invariant {P : System → Msg → Prop} {I : System → Prop}
    (hstep : ∀ s msg, s.Seated → s.Enabled msg → P s msg → I s → I (s.handle dec msg))
    (h : Run dec P s s') (hS : s.Seated) (hI : I s) : s'.Seated ∧ I s' := by
  refine reflTransGen_invariant (P := fun s => s.Seated ∧ I s) ?_ h ⟨hS, hI⟩
  rintro s s' ⟨msg, hen, hP, rfl⟩ ⟨hS, hI⟩
  exact ⟨hS.handle hen, hstep s msg hS hen hP hI⟩

theorem Run.seated {P : System → Msg → Prop} (h : Run dec P s s') (hS : s.Seated) : s'.Seated :=
  (h.invariant (I := fun _ => True) (fun _ _ _ _ _ _ => trivial) hS trivial).1

end System

end TraceMcp.Service
