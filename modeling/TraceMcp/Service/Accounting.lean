import TraceMcp.Service.CoordRun

/-!
# The counters of the coordinator

Four counters, seven handlers. `Keeps` is what every handler but the admitting
and the reporting ones does to them; the reporting ones also take one off, and
`Accounts` says it is always there to be taken: in a run no decrement meets a
zero.
-/

namespace TraceMcp.Service

open TraceMcp.Lib Coord

/-- `dec` takes one off, whatever it makes of zero. -/
def TakesOne (dec : Nat → Nat) : Prop := ∀ n, dec (n + 1) = n

/-- `saturating_sub(1)`. -/
def saturatingPred (n : Nat) : Nat := n - 1

theorem saturatingPred_takesOne : TakesOne saturatingPred := Nat.add_sub_cancel (m := 1)

section TakesOne

variable {dec dec' : Nat → Nat} {n : Nat}

theorem TakesOne.add_one (hdec : TakesOne dec) (hn : 0 < n) : dec n + 1 = n := by
  obtain ⟨m, rfl⟩ := Nat.exists_eq_add_one.mpr hn
  rw [hdec]

theorem TakesOne.congr (hdec : TakesOne dec) (hdec' : TakesOne dec') (hn : 0 < n) :
    dec n = dec' n :=
  Nat.add_right_cancel ((hdec.add_one hn).trans (hdec'.add_one hn).symm)

end TakesOne

/-- `activeCaptures` counts the sessions that hold a slot. -/
def SlotsExact (c : Coord) : Prop := c.activeCaptures = c.sessions.count Session.slotHeld

/-- The other counters stay; no slot is taken, and slots given back are
counted. -/
structure Keeps (c c' : Coord) : Prop where
  limits : c'.limits = c.limits
  running : c'.runningDecode = c.runningDecode
  pending : c'.pendingExpensive = c.pendingExpensive
  reserved : c'.reservedDecode = c.reservedDecode
  active : c'.activeCaptures ≤ c.activeCaptures
  slots : SlotsExact c → SlotsExact c'

section Keeps

variable {c c' c'' : Coord} {dec dec' : Nat → Nat}

theorem Keeps.refl (c : Coord) : Keeps c c := ⟨rfl, rfl, rfl, rfl, Nat.le_refl _, id⟩

theorem Keeps.trans (h : Keeps c c') (h' : Keeps c' c'') : Keeps c c'' :=
  ⟨h'.limits.trans h.limits, h'.running.trans h.running, h'.pending.trans h.pending,
    h'.reserved.trans h.reserved, Nat.le_trans h'.active h.active, h'.slots ∘ h.slots⟩

/-- Rewriting a session without touching its slot. -/
theorem Keeps.insert {id : SessionId} {s s' : Session} (hs : c.sessions.get id = some s)
    (hslot : s'.slotHeld = s.slotHeld) (jobs : FastMap JobId JobRecord) :
    Keeps c { c with sessions := c.sessions.insert id s', jobs := jobs } :=
  ⟨rfl, rfl, rfl, rfl, Nat.le_refl _,
    fun h => h.trans (FastMap.count_insert_same Session.slotHeld s' hs hslot).symm⟩

theorem modSession_keeps (id : SessionId) {f : Session → Session}
    (hf : ∀ s, (f s).slotHeld = s.slotHeld) : Keeps c (c.modSession id f) :=
  ⟨rfl, rfl, rfl, rfl, Nat.le_refl _,
    fun h => h.trans (FastMap.count_modify_same Session.slotHeld _ _ f fun s _ => hf s).symm⟩

theorem cancelQueuedSessionJob_keeps (id : SessionId) : Keeps c (c.cancelQueuedSessionJob id) := by
  unfold cancelQueuedSessionJob
  split
  next => exact .refl c
  next => exact ⟨rfl, rfl, rfl, rfl, Nat.le_refl _, fun h => h⟩

/-- A slot that is held has been counted. -/
theorem SlotsExact.pos (h : SlotsExact c) {id : SessionId} {s : Session}
    (hs : c.sessions.get id = some s) (hslot : s.slotHeld = true) : 0 < c.activeCaptures := by
  rw [h]
  exact FastMap.count_pos hs hslot

theorem releaseCaptureSlot_keeps (hdec : TakesOne dec) (h : SlotsExact c) (id : SessionId) :
    Keeps c (c.releaseCaptureSlot dec id) := by
  unfold releaseCaptureSlot
  split
  next s hs =>
    split
    next hslot =>
      have hpos := hdec.add_one (h.pos hs hslot)
      refine ⟨rfl, rfl, rfl, rfl, Nat.le_of_lt (Nat.lt_of_succ_le (Nat.le_of_eq hpos)), fun _ => ?_⟩
      have hcount := FastMap.count_insert_of_get Session.slotHeld { s with slotHeld := false } hs
      rw [hslot, Bool.toNat_true, Bool.toNat_false] at hcount
      rw [SlotsExact] at h
      show dec c.activeCaptures = FastMap.count Session.slotHeld (c.sessions.insert id _)
      omega
    next => exact .refl c
  next => exact .refl c

theorem releaseCaptureSlot_congr (hdec : TakesOne dec) (hdec' : TakesOne dec') (h : SlotsExact c)
    (id : SessionId) : c.releaseCaptureSlot dec id = c.releaseCaptureSlot dec' id := by
  unfold releaseCaptureSlot
  split
  next s hs =>
    split
    next hslot => rw [hdec.congr hdec' (h.pos hs hslot)]
    next => rfl
  next => rfl

/-! ## Each handler -/

theorem handleArmed_keeps (id : SessionId) : Keeps c (c.handleArmed id) := by
  refine modSession_keeps id fun s => ?_
  split <;> rfl

theorem handleSnapshot_keeps (env : SnapshotEnv) (id : SessionId) (reason : CaptureReason) :
    Keeps c (c.handleSnapshot env id reason).1 := by
  unfold handleSnapshot
  split
  next => exact .refl c
  next s hs =>
    split
    next => exact .refl c
    next => exact .refl c
    next => exact .refl c
    next => split <;> exact .refl c
    next => split <;> exact .refl c
    next =>
      unfold finalizeSession
      dsimp only
      split
      next =>
        refine .insert hs ?_ c.jobs
        rfl
      next =>
        -- the session is written twice; the second write is what stays
        show Keeps c { c with
          sessions := AList.insert id _ (AList.insert id _ c.sessions)
          jobs := AList.insert _ _ c.jobs }
        rw [AList.insert_insert]
        refine .insert hs ?_ _
        rfl

theorem cancelJob_keeps (id : JobId) : Keeps c (c.cancelJob id).1 := by
  unfold cancelJob
  split
  next =>
    split
    next => exact .refl c
    next => exact ⟨rfl, rfl, rfl, rfl, Nat.le_refl _, fun h => h⟩
  next => exact .refl c

theorem handlePrune_keeps (env : PruneEnv) (req : PruneRequest) :
    Keeps c (c.handlePrune env req).1 := by
  obtain ⟨cache, hcache⟩ := handlePrune_eq (c := c) env req
  rw [hcache]
  exact ⟨rfl, rfl, rfl, rfl, Nat.le_refl _, fun h => h⟩

theorem abort_keeps {id : SessionId} {s : Session} (hs : c.sessions.get id = some s) :
    Keeps c { c with sessions := c.sessions.insert id { s with
      phase := .cancelled, stop := s.stop.map fun _ => some .abort } } := by
  refine .insert hs ?_ c.jobs
  rfl

/-- A cancel takes a slot back, if the session still holds one. -/
theorem handleCancel_keeps (hdec : TakesOne dec) (h : SlotsExact c) (target : CancelTarget) :
    Keeps c (c.handleCancel dec target).1 := by
  cases target with
  | job id => exact cancelJob_keeps id
  | session id =>
    rw [handleCancel, cancelSession]
    split
    next => exact .refl c
    next s hs =>
      have hlive := abort_keeps hs
      cases s.phase with
      | captured | cancelled | failed => exact .refl c
      | starting | armed | finalizing =>
        exact hlive.trans (releaseCaptureSlot_keeps hdec (hlive.slots h) id)

theorem handleCancel_congr (hdec : TakesOne dec) (hdec' : TakesOne dec') (h : SlotsExact c)
    (target : CancelTarget) : c.handleCancel dec target = c.handleCancel dec' target := by
  cases target with
  | job id => rfl
  | session id =>
    rw [handleCancel, handleCancel, cancelSession, cancelSession]
    split
    next => rfl
    next s hs =>
      have hlive := abort_keeps hs
      cases s.phase with
      | captured | cancelled | failed => rfl
      | starting | armed | finalizing =>
        exact congrArg (·, _) (releaseCaptureSlot_congr hdec hdec' (hlive.slots h) id)

/-- The common end of a failure and of a blocked publication. -/
def settled (dec : Nat → Nat) (c : Coord) (id : SessionId) : Coord :=
  { (c.cancelQueuedSessionJob id).releaseCaptureSlot dec id with
    reservedDecode := dec ((c.cancelQueuedSessionJob id).releaseCaptureSlot dec id).reservedDecode }

theorem settled_keeps (hdec : TakesOne dec) (hc : SlotsExact c) (id : SessionId) :
    Keeps c ((c.cancelQueuedSessionJob id).releaseCaptureSlot dec id) :=
  have hjob := cancelQueuedSessionJob_keeps id
  hjob.trans (releaseCaptureSlot_keeps hdec (hjob.slots hc) id)

theorem settled_congr (hdec : TakesOne dec) (hdec' : TakesOne dec') (hc : SlotsExact c)
    (hpos : 0 < c.reservedDecode) (id : SessionId) : settled dec c id = settled dec' c id := by
  have hrelease := releaseCaptureSlot_congr hdec hdec' ((cancelQueuedSessionJob_keeps id).slots hc) id
  have hreserved := (settled_keeps hdec' hc id).reserved
  rw [settled, settled, hrelease, hreserved, hdec.congr hdec' hpos]

theorem fail_keeps (c : Coord) (id : SessionId) : Keeps c (c.modSession id fun s =>
    if s.phase ≠ .cancelled then { s with phase := .failed } else s) := by
  refine modSession_keeps id fun s => ?_
  split <;> rfl

theorem block_keeps (c : Coord) (id : SessionId) (snapshot : SnapshotId) :
    Keeps c (c.modSession id fun s =>
      if s.snapshotId.isNone then { s with snapshotId := some snapshot } else s) := by
  refine modSession_keeps id fun s => ?_
  split <;> rfl

theorem publish_keeps {id : SessionId} {s : Session} (hs : c.sessions.get id = some s)
    (snapshot : SnapshotId) (job : JobId) :
    Keeps c { c with sessions := c.sessions.insert id { s with
      phase := .captured, snapshotId := some snapshot, decodeJob := some job } } := by
  refine .insert hs ?_ c.jobs
  rfl

end Keeps

/-! ## Over runs -/

/-- A worker on a decode. -/
def Worker.decodes (w : Worker) : Bool := w.record.kind ≠ .compare

/-- A worker on a compare. -/
def Worker.compares (w : Worker) : Bool := w.record.kind = .compare

namespace System

/-- The counters count, and the captures stay under their limit. -/
structure Accounts (limits : Limits) (s : System) : Prop where
  same : s.coord.limits = limits
  active : s.coord.activeCaptures = s.coord.sessions.count Session.slotHeld
  bound : s.coord.activeCaptures ≤ limits.maxActiveCaptures
  reserved : s.coord.reservedDecode = s.captures.length
  running : s.coord.runningDecode = s.workers.countP Worker.decodes
  pending : s.coord.pendingExpensive = s.workers.countP Worker.compares

/-- A worker gives back the slot of its kind of work. -/
def SlotsMatch (s : System) : Prop :=
  ∀ w ∈ s.workers, w.decodeSlot = w.decodes ∧ w.expensiveSlot = w.compares

variable {limits : Limits} {s s' : System} {dec dec' : Nat → Nat} {msg : Msg}

/-- A message that neither admits nor reports. -/
theorem Accounts.keeps (h : s.Accounts limits) (hk : Keeps s.coord s'.coord)
    (hcap : s'.captures.length = s.captures.length) (hwork : s'.workers = s.workers) :
    s'.Accounts limits where
  same := hk.limits.trans h.same
  active := hk.slots h.active
  bound := Nat.le_trans hk.active h.bound
  reserved := hk.reserved.trans (h.reserved.trans hcap.symm)
  running := by rw [hk.running, h.running, hwork]
  pending := by rw [hk.pending, h.pending, hwork]

/-- The captures there are make the reservations positive. -/
theorem Accounts.reserved_pos (h : s.Accounts limits) {t : CaptureTask} (ht : t ∈ s.captures) :
    0 < s.coord.reservedDecode := by
  rw [h.reserved]
  exact List.length_pos_of_mem ht

/-- A capture reports: its reservation is given back. -/
theorem Accounts.reported (hdec : TakesOne dec) (h : s.Accounts limits) {t : CaptureTask}
    (ht : t ∈ s.captures) {c : Coord} (hk : Keeps s.coord c) :
    System.Accounts limits { s with
      coord := { c with reservedDecode := dec c.reservedDecode }, captures := s.captures.erase t } where
  same := hk.limits.trans h.same
  active := hk.slots h.active
  bound := Nat.le_trans hk.active h.bound
  reserved := by
    have hone := hdec.add_one (h.reserved_pos ht)
    have hlen := List.length_erase_of_mem ht
    have hres := h.reserved
    show dec c.reservedDecode = (s.captures.erase t).length
    rw [hk.reserved]
    omega
  running := hk.running.trans h.running
  pending := hk.pending.trans h.pending

/-- A decode starts. -/
theorem Accounts.decodeStarted (h : s.Accounts limits) {w : Worker}
    (hw : w.record.kind ≠ .compare) (jobs : FastMap JobId JobRecord)
    (cache : FastMap String JobId) :
    System.Accounts limits { s with
      coord := { s.coord with
        jobs := jobs, cacheJobs := cache, runningDecode := s.coord.runningDecode + 1 }
      workers := s.workers ++ [w] } where
  same := h.same
  active := h.active
  bound := h.bound
  reserved := h.reserved
  running := by
    show s.coord.runningDecode + 1 = _
    rw [List.countP_append, ← h.running]
    simp [Worker.decodes, hw]
  pending := by
    show s.coord.pendingExpensive = _
    rw [List.countP_append, ← h.pending]
    simp [Worker.compares, hw]

/-- A compare starts. -/
theorem Accounts.compareStarted (h : s.Accounts limits) {w : Worker}
    (hw : w.record.kind = .compare) (jobs : FastMap JobId JobRecord)
    (cache : FastMap String JobId) :
    System.Accounts limits { s with
      coord := { s.coord with
        jobs := jobs, cacheJobs := cache, pendingExpensive := s.coord.pendingExpensive + 1 }
      workers := s.workers ++ [w] } where
  same := h.same
  active := h.active
  bound := h.bound
  reserved := h.reserved
  running := by
    show s.coord.runningDecode = _
    rw [List.countP_append, ← h.running]
    simp [Worker.decodes, hw]
  pending := by
    show s.coord.pendingExpensive + 1 = _
    rw [List.countP_append, ← h.pending]
    simp [Worker.compares, hw]

/-- What one counter of workers is after a report. -/
theorem countP_reported (hdec : TakesOne dec) {p : Worker → Bool} {w : Worker} {n : Nat}
    (hw : w ∈ s.workers) (hn : n = s.workers.countP p) :
    (if p w then dec n else n) = (s.workers.erase w).countP p := by
  have hcount := (List.perm_cons_erase hw).countP_eq p
  rw [List.countP_cons] at hcount
  split
  next hp =>
    rw [if_pos hp] at hcount
    rw [hn, hcount, hdec]
  next hp =>
    rw [if_neg hp] at hcount
    rw [hn, hcount, Nat.add_zero]

theorem handleJobFinished_eq (c : Coord) (record : JobRecord) (decodeSlot expensiveSlot : Bool) :
    c.handleJobFinished dec record decodeSlot expensiveSlot = { c with
      jobs := c.jobs.insert record.jobId record
      runningDecode := if decodeSlot then dec c.runningDecode else c.runningDecode
      pendingExpensive := if expensiveSlot then dec c.pendingExpensive else c.pendingExpensive } := by
  unfold handleJobFinished
  cases decodeSlot <;> cases expensiveSlot <;> rfl

/-- A worker reports: its slots are given back. -/
theorem Accounts.finished (hdec : TakesOne dec) (h : s.Accounts limits) (hm : s.SlotsMatch)
    {w : Worker} (hw : w ∈ s.workers) (outcome : Result Unit) :
    (s.handle dec (.jobFinished w outcome)).Accounts limits := by
  obtain ⟨hdecode, hexpensive⟩ := hm w hw
  rw [System.handle, handleJobFinished_eq, hdecode, hexpensive]
  exact ⟨h.same, h.active, h.bound, h.reserved, countP_reported hdec hw h.running,
    countP_reported hdec hw h.pending⟩

/-- A session is admitted under the capture limit. -/
theorem Accounts.admitted (h : s.Accounts limits) (sess : Session)
    (hnone : s.coord.sessions.get sess.id = none) (hslot : sess.slotHeld = true)
    (hroom : s.coord.activeCaptures < s.coord.limits.maxActiveCaptures) (t : CaptureTask) :
    System.Accounts limits { s with
      coord := s.coord.addSession sess, captures := s.captures ++ [t] } where
  same := h.same
  active := by
    have hcount := FastMap.count_insert_of_none Session.slotHeld sess hnone
    rw [hslot, Bool.toNat_true] at hcount
    show s.coord.activeCaptures + 1 = FastMap.count Session.slotHeld (s.coord.sessions.insert _ _)
    rw [hcount, h.active, Nat.add_comm]
  bound := by
    rw [h.same] at hroom
    exact hroom
  reserved := by
    show s.coord.reservedDecode + 1 = _
    rw [List.length_append, h.reserved, List.length_singleton]
  running := h.running
  pending := h.pending

/-- A publication that is not blocked marks its session and starts a decode. -/
theorem handlePublished_unblocked (dec : Nat → Nat) (hS : s.Seated) {t : CaptureTask} (ht : t ∈ s.captures)
    (env : PublishEnv) (hblocked : s.coord.blocked t.session = false) :
    ∃ sess, s.coord.sessions.get t.session = some sess ∧
      s.coord.handlePublished dec env t.session t.snapshot =
        (releaseCaptureSlot dec { s.coord with
          sessions := s.coord.sessions.insert t.session { sess with
            phase := .captured, snapshotId := some t.snapshot
            decodeJob := some (sess.decodeJob.getD env.jobId) } } t.session).startDecode dec
          (sess.decodeJob.getD env.jobId) t.snapshot env.analysisId := by
  obtain ⟨sess, hsess, -⟩ := hS.listed t ht
  refine ⟨sess, hsess, ?_⟩
  unfold handlePublished
  rw [hblocked, if_neg Bool.false_ne_true, hsess]

theorem Accounts.published (hdec : TakesOne dec) (hS : s.Seated) (h : s.Accounts limits)
    {t : CaptureTask} (ht : t ∈ s.captures) (env : PublishEnv) :
    (s.handle dec (.published env t)).Accounts limits := by
  cases hblocked : s.coord.blocked t.session with
  | true =>
    rw [System.handle, handlePublished, if_pos hblocked]
    have hkeep := block_keeps s.coord t.session t.snapshot
    have hfreed := h.reported hdec ht
      (hkeep.trans (settled_keeps hdec (hkeep.slots h.active) t.session))
    exact hfreed.keeps (.refl _) rfl (List.append_nil _)
  | false =>
    obtain ⟨sess, hsess, heq⟩ := handlePublished_unblocked dec hS ht env hblocked
    rw [System.handle, heq]
    have hkeep := publish_keeps hsess t.snapshot (sess.decodeJob.getD env.jobId)
    have hfreed := h.reported hdec ht
      (hkeep.trans (releaseCaptureSlot_keeps hdec (hkeep.slots h.active) t.session))
    refine hfreed.decodeStarted ?_ _ _
    exact JobKind.noConfusion

/-- The counters count after every message. -/
theorem Accounts.handle (hdec : TakesOne dec) (hS : s.Seated) (hm : s.SlotsMatch)
    (hen : s.Enabled msg) (h : s.Accounts limits) : (s.handle dec msg).Accounts limits := by
  cases msg with
  | start env req =>
    rw [System.handle]
    cases hstart : s.coord.handleStart env req with
    | error e => exact h
    | ok x =>
      obtain ⟨c', resp, tasks⟩ := x
      rcases handleStart_ok hstart with ⟨rfl, rfl⟩ | ⟨hroom, -, req', hash, config, rfl, rfl⟩
      · exact h.keeps (.refl _) (congrArg List.length (List.append_nil _)) rfl
      · exact h.admitted (newSession env req' hash config) hen rfl hroom _
  -- what starts nothing keeps the counters
  | snapshot env id reason => exact h.keeps (handleSnapshot_keeps env id reason) rfl rfl
  | cancel target => exact h.keeps (handleCancel_keeps hdec h.active target) rfl rfl
  | prune env req => exact h.keeps (handlePrune_keeps env req) rfl rfl
  | decode env req =>
    rw [System.handle]
    cases hdecode : s.coord.handleDecode env req with
    | error e => exact h
    | ok x =>
      obtain ⟨c', resp, workers⟩ := x
      rcases handleDecode_ok hdecode with ⟨rfl, rfl⟩ | ⟨-, record, -, hkind, rfl, rfl⟩
      · exact h.keeps (.refl _) rfl (List.append_nil _)
      · exact h.decodeStarted hkind _ _
  | compare env =>
    rw [System.handle]
    cases hcompare : s.coord.handleCompare env with
    | error e => exact h
    | ok x =>
      obtain ⟨c', resp, workers⟩ := x
      rcases handleCompare_ok hcompare with ⟨rfl, rfl⟩ | ⟨-, -, record, -, hkind, rfl, rfl⟩
      · exact h.keeps (.refl _) rfl (List.append_nil _)
      · exact h.compareStarted hkind _ _
  | armed t =>
    refine h.keeps (handleArmed_keeps t.session) ?_ rfl
    show (s.captures.erase t ++ [_]).length = _
    have hpos := List.length_pos_of_mem hen.1
    rw [List.length_append, List.length_erase_of_mem hen.1, List.length_singleton]
    omega
  -- a task that reports gives its slot back
  | failed t =>
    have hkeep := fail_keeps s.coord t.session
    exact h.reported hdec hen
      (hkeep.trans (settled_keeps hdec (hkeep.slots h.active) t.session))
  | published env t => exact h.published hdec hS hen.1 env
  | jobFinished w outcome => exact h.finished hdec hm hen outcome

/-- No message meets a zero it would have to take one off: what `dec` makes of
zero is never seen. -/
theorem Accounts.handle_congr (hdec : TakesOne dec) (hdec' : TakesOne dec') (hS : s.Seated)
    (hm : s.SlotsMatch) (hen : s.Enabled msg) (h : s.Accounts limits) :
    s.handle dec msg = s.handle dec' msg := by
  cases msg with
  | start | snapshot | prune | decode | compare | armed => rfl
  | cancel target => rw [System.handle, System.handle, handleCancel_congr hdec hdec' h.active]
  | failed t =>
    have hkeep := fail_keeps s.coord t.session
    have hsettled := settled_congr hdec hdec' (hkeep.slots h.active)
      (hkeep.reserved ▸ h.reserved_pos hen) t.session
    exact congrArg (fun c => { s with coord := c, captures := s.captures.erase t }) hsettled
  | published env t =>
    rw [System.handle, System.handle]
    cases hblocked : s.coord.blocked t.session with
    | true =>
      have hkeep := block_keeps s.coord t.session t.snapshot
      have hsettled := settled_congr hdec hdec' (hkeep.slots h.active)
        (hkeep.reserved ▸ h.reserved_pos hen.1) t.session
      rw [handlePublished, handlePublished, if_pos hblocked, if_pos hblocked]
      exact congrArg (fun c => (⟨c, s.captures.erase t, s.workers ++ []⟩ : System)) hsettled
    | false =>
      obtain ⟨sess, hsess, heq⟩ := handlePublished_unblocked dec hS hen.1 env hblocked
      obtain ⟨sess', hsess', heq'⟩ := handlePublished_unblocked dec' hS hen.1 env hblocked
      obtain rfl := Option.some.inj (hsess.symm.trans hsess')
      have hkeep := publish_keeps hsess t.snapshot (sess.decodeJob.getD env.jobId)
      have hexact := hkeep.slots h.active
      have hreserved := (hkeep.trans (releaseCaptureSlot_keeps hdec' hexact t.session)).reserved
      rw [heq, heq', releaseCaptureSlot_congr hdec hdec' hexact, startDecode, startDecode, setJob,
        hreserved, hdec.congr hdec' (h.reserved_pos hen.1)]
  | jobFinished w outcome =>
    obtain ⟨hdecode, hexpensive⟩ := hm w hen
    have hrunning := (countP_reported hdec hen h.running).trans
      (countP_reported hdec' hen h.running).symm
    have hpending := (countP_reported hdec hen h.pending).trans
      (countP_reported hdec' hen h.pending).symm
    rw [System.handle, System.handle, handleJobFinished_eq, handleJobFinished_eq, hdecode,
      hexpensive, hrunning, hpending]

theorem handlePublished_workers (c : Coord) (dec : Nat → Nat) (env : PublishEnv) (id : SessionId)
    (snapshot : SnapshotId) :
    (c.handlePublished dec env id snapshot).2 = [] ∨
      ∃ job, (c.handlePublished dec env id snapshot).2 =
        [⟨{ queuedDecode job snapshot with analysisId := some env.analysisId }, true, false⟩] := by
  unfold handlePublished
  split
  next => exact Or.inl rfl
  next =>
    split
    next => exact Or.inl rfl
    next => exact Or.inr ⟨_, rfl⟩

/-- Workers are started with the slot of their kind. -/
theorem SlotsMatch.handle (hm : s.SlotsMatch) : (s.handle dec msg).SlotsMatch := by
  have hadd : ∀ {w c captures}, w.decodeSlot = w.decodes ∧ w.expensiveSlot = w.compares →
      SlotsMatch ⟨c, captures, s.workers ++ [w]⟩ := by
    intro w c captures hw w' hw'
    rcases List.mem_append.mp hw' with hw' | hw'
    · exact hm w' hw'
    · rw [List.mem_singleton.mp hw']
      exact hw
  cases msg with
  | start env req =>
    rw [System.handle]
    split <;> exact hm
  | snapshot | cancel | prune | armed | failed => exact hm
  | decode env req =>
    rw [System.handle]
    cases hdecode : s.coord.handleDecode env req with
    | error e => exact hm
    | ok x =>
      obtain ⟨c', resp, workers⟩ := x
      rcases handleDecode_ok hdecode with ⟨-, rfl⟩ | ⟨-, record, -, hkind, -, rfl⟩
      · exact fun w hw => hm w (by simpa using hw)
      · exact hadd ⟨by simp [Worker.decodes, hkind], by simp [Worker.compares, hkind]⟩
  | compare env =>
    rw [System.handle]
    cases hcompare : s.coord.handleCompare env with
    | error e => exact hm
    | ok x =>
      obtain ⟨c', resp, workers⟩ := x
      rcases handleCompare_ok hcompare with ⟨-, rfl⟩ | ⟨-, -, record, -, hkind, -, rfl⟩
      · exact fun w hw => hm w (by simpa using hw)
      · exact hadd ⟨by simp [Worker.decodes, hkind], by simp [Worker.compares, hkind]⟩
  | published env t =>
    show SlotsMatch ⟨_, _, s.workers ++ (s.coord.handlePublished dec env t.session t.snapshot).2⟩
    rcases handlePublished_workers s.coord dec env t.session t.snapshot with heq | ⟨job, heq⟩
    · rw [heq]
      exact fun w hw => hm w (by simpa using hw)
    · rw [heq]
      exact hadd ⟨rfl, rfl⟩
  | jobFinished w outcome => exact fun w' hw' => hm w' (List.mem_of_mem_erase hw')

theorem boot_accounts (limits : Limits) (sessions : List StoredSession) (jobs : List JobRecord)
    (cache : List (String × JobId)) : (boot limits sessions jobs cache).Accounts limits := by
  have h := loadPersisted_loaded limits sessions jobs cache
  obtain ⟨hactive, hrunning, hpending, hreserved⟩ := h.idle
  exact ⟨h.limits, hactive.trans h.unheld.symm, hactive ▸ Nat.zero_le _, hreserved, hrunning,
    hpending⟩

/-- In every state of every run the counters are what they count, and no
message takes one off a zero. -/
theorem run_accounts (limits : Limits) (sessions : List StoredSession) (jobs : List JobRecord)
    (cache : List (String × JobId)) {s : System}
    (h : Run saturatingPred Any (boot limits sessions jobs cache) s) :
    s.Accounts limits ∧ ∀ msg, s.Enabled msg → ∀ dec, TakesOne dec →
      s.handle saturatingPred msg = s.handle dec msg := by
  have hboot : (boot limits sessions jobs cache).SlotsMatch := fun w hw => nomatch hw
  obtain ⟨hS, hm, haccounts⟩ := h.invariant (I := fun s => s.SlotsMatch ∧ s.Accounts limits)
    (fun s msg hS hen _ hI => ⟨hI.1.handle, hI.2.handle saturatingPred_takesOne hS hI.1 hen⟩)
    (boot_seated limits sessions jobs cache) ⟨hboot, boot_accounts limits sessions jobs cache⟩
  refine ⟨haccounts, fun msg hen dec hdec => ?_⟩
  exact haccounts.handle_congr saturatingPred_takesOne hdec hS hm hen

/-- A capture that is armed, cancelled and blocked, one that is published and
decoded, and a compare. -/
def mixedRun : List Msg :=
  [startOf "a", .armed (captureOf "a" false), .cancel (.session ⟨"a"⟩), publishOf "a" true,
    startOf "b", publishOf "b" false, compareOf "c", .jobFinished (decodeOf "b" "b") (.ok ())]

/-- The compare worker left over. -/
def compareWorker : Worker :=
  ⟨⟨⟨"c"⟩, .compare, .queued, none, none, some ⟨"c"⟩, none⟩, false, true⟩

theorem run_accounts_mixedRun :
    let s := mixedRun.foldl (System.handle saturatingPred) (boot .default [] [] [])
    s.Accounts .default ∧ s.handle saturatingPred (.jobFinished compareWorker (.ok ())) =
      s.handle (fun n => if n = 0 then 7 else n - 1) (.jobFinished compareWorker (.ok ())) :=
  have hrun : Replays saturatingPred Any (boot .default [] [] []) mixedRun := by decide +kernel
  have h := run_accounts .default [] [] [] hrun.run
  ⟨h.1, h.2 _ (by decide +kernel) _ fun _ => rfl⟩

end System

end TraceMcp.Service
