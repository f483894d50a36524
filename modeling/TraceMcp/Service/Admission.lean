import TraceMcp.Service.Accounting

/-!
# The limits on decodes and compares

`max_decode_jobs` and `max_pending_expensive` against what is running and
what is reserved. A start checks both counters of the queue and a decode
request its one, but a publication starts its decode without a look at the
limit, and a compare does not count the reservations.
-/

namespace TraceMcp.Service

open TraceMcp.Lib Coord

namespace System

/-- At most so many decodes, and so many compares and reserved decodes. -/
structure WithinLimits (limits : Limits) (c : Coord) : Prop where
  decodes : c.runningDecode ≤ limits.maxDecodeJobs
  queue : c.reservedDecode + c.pendingExpensive ≤ limits.maxPendingExpensive

/-- The decode of a publication and the compare of a request find room. -/
def FindsRoom (s : System) : Msg → Prop
  | .published _ t =>
    s.coord.blocked t.session = false → s.coord.runningDecode < s.coord.limits.maxDecodeJobs
  | .compare env =>
    s.coord.cacheJobs.get env.key = none →
      s.coord.pendingExpensive < s.coord.limits.maxPendingExpensive →
      s.coord.reservedDecode + s.coord.pendingExpensive < s.coord.limits.maxPendingExpensive
  | _ => True

instance (s : System) : (msg : Msg) → Decidable (s.FindsRoom msg)
  | .published _ _ => inferInstanceAs (Decidable (_ → _))
  | .compare _ => inferInstanceAs (Decidable (_ → _ → _))
  | .start .. | .snapshot .. | .cancel _ | .prune .. | .decode .. | .armed _ | .failed _
  | .jobFinished .. => inferInstanceAs (Decidable True)

variable {limits : Limits} {s s' : System} {msg : Msg}

/-- The counters of a system within its limits, read off its tasks. -/
theorem WithinLimits.iff (h : s.Accounts limits) : WithinLimits limits s.coord ↔
    s.workers.countP Worker.decodes ≤ limits.maxDecodeJobs ∧
      s.captures.length + s.workers.countP Worker.compares ≤ limits.maxPendingExpensive := by
  rw [← h.running, ← h.reserved, ← h.pending]
  exact ⟨fun hw => ⟨hw.decodes, hw.queue⟩, fun hw => ⟨hw.1, hw.2⟩⟩

/-- No new tasks. -/
theorem WithinLimits.quiet (h : s.Accounts limits) (h' : s'.Accounts limits)
    (hcap : s'.captures.length ≤ s.captures.length) (hwork : s'.workers.Sublist s.workers)
    (hin : WithinLimits limits s.coord) : WithinLimits limits s'.coord := by
  obtain ⟨hdecodes, hqueue⟩ := (WithinLimits.iff h).mp hin
  have hdecodes' := hwork.countP_le (p := Worker.decodes)
  have hcompares' := hwork.countP_le (p := Worker.compares)
  exact (WithinLimits.iff h').mpr ⟨by omega, by omega⟩

/-- A decode that found room. -/
theorem WithinLimits.decodeStarted (h : s.Accounts limits) (h' : s'.Accounts limits)
    (hroom : s.coord.runningDecode < s.coord.limits.maxDecodeJobs)
    (hcap : s'.captures.length ≤ s.captures.length) {w : Worker} (hkind : w.record.kind ≠ .compare)
    (hwork : s'.workers = s.workers ++ [w]) (hin : WithinLimits limits s.coord) :
    WithinLimits limits s'.coord := by
  obtain ⟨hdecodes, hqueue⟩ := (WithinLimits.iff h).mp hin
  have hcompare : w.compares = false := decide_eq_false hkind
  rw [h.running, h.same] at hroom
  refine (WithinLimits.iff h').mpr ?_
  rw [hwork, List.countP_append, List.countP_append, List.countP_singleton, List.countP_singleton,
    hcompare]
  constructor
  · split <;> omega
  · rw [if_neg Bool.false_ne_true]
    omega

/-- A compare that found room. -/
theorem WithinLimits.compareStarted (h : s.Accounts limits) (h' : s'.Accounts limits)
    (hroom : s.coord.reservedDecode + s.coord.pendingExpensive < s.coord.limits.maxPendingExpensive)
    (hcap : s'.captures = s.captures) {w : Worker} (hkind : w.record.kind = .compare)
    (hwork : s'.workers = s.workers ++ [w]) (hin : WithinLimits limits s.coord) :
    WithinLimits limits s'.coord := by
  obtain ⟨hdecodes, hqueue⟩ := (WithinLimits.iff h).mp hin
  have hdecode : w.decodes = false := decide_eq_false (not_not_intro hkind)
  rw [h.reserved, h.pending, h.same] at hroom
  refine (WithinLimits.iff h').mpr ?_
  rw [hwork, hcap, List.countP_append, List.countP_append, List.countP_singleton,
    List.countP_singleton, hdecode]
  constructor
  · rw [if_neg Bool.false_ne_true]
    exact hdecodes
  · split <;> omega

/-- A start that is admitted has found room. -/
theorem WithinLimits.admitted (h : s.Accounts limits) (h' : s'.Accounts limits)
    (hroom : s.coord.reservedDecode + s.coord.pendingExpensive < s.coord.limits.maxPendingExpensive)
    (hcap : s'.captures.length = s.captures.length + 1) (hwork : s'.workers = s.workers)
    (hin : WithinLimits limits s.coord) : WithinLimits limits s'.coord := by
  obtain ⟨hdecodes, hqueue⟩ := (WithinLimits.iff h).mp hin
  rw [h.reserved, h.pending, h.same] at hroom
  refine (WithinLimits.iff h').mpr ?_
  rw [hwork, hcap]
  exact ⟨hdecodes, by omega⟩

/-- A message that finds room keeps the limits. -/
theorem WithinLimits.handle (hS : s.Seated) (hm : s.SlotsMatch) (hen : s.Enabled msg)
    (h : s.Accounts limits) (hroom : s.FindsRoom msg) (hin : WithinLimits limits s.coord) :
    WithinLimits limits (s.handle saturatingPred msg).coord := by
  have h' := h.handle saturatingPred_takesOne hS hm hen
  cases msg with
  | start env req =>
    rw [System.handle] at h' ⊢
    cases hstart : s.coord.handleStart env req with
    | error e => exact hin
    | ok x =>
      obtain ⟨c', resp, tasks⟩ := x
      rw [hstart] at h'
      -- a start that is known already admits nothing
      rcases handleStart_ok hstart with ⟨rfl, rfl⟩ | ⟨-, hqueue, req', hash, config, rfl, rfl⟩
      · exact hin
      · exact hin.admitted h h' hqueue List.length_append rfl
  | snapshot | cancel | prune => exact hin.quiet h h' (Nat.le_refl _) (.refl _)
  | decode env req =>
    rw [System.handle] at h' ⊢
    cases hdecode : s.coord.handleDecode env req with
    | error e => exact hin
    | ok x =>
      obtain ⟨c', resp, workers⟩ := x
      rw [hdecode] at h'
      rcases handleDecode_ok hdecode with ⟨rfl, rfl⟩ | ⟨hfree, record, -, hkind, rfl, rfl⟩
      · exact hin
      · exact hin.decodeStarted h h' hfree (Nat.le_refl _) hkind rfl
  | compare env =>
    rw [System.handle] at h' ⊢
    cases hcompare : s.coord.handleCompare env with
    | error e => exact hin
    | ok x =>
      obtain ⟨c', resp, workers⟩ := x
      rw [hcompare] at h'
      rcases handleCompare_ok hcompare with ⟨rfl, rfl⟩ | ⟨hmiss, hfree, record, -, hkind, rfl, rfl⟩
      · exact hin
      · exact hin.compareStarted h h' (hroom hmiss hfree) rfl hkind rfl
  | armed t =>
    refine hin.quiet h h' ?_ (.refl _)
    show (s.captures.erase t ++ [_]).length ≤ _
    have hpos := List.length_pos_of_mem hen.1
    rw [List.length_append, List.length_erase_of_mem hen.1, List.length_singleton]
    omega
  | failed t => exact hin.quiet h h' (List.length_erase_le ..) (.refl _)
  | published env t =>
    -- a publication starts a decode, unless the session is blocked
    cases hblocked : s.coord.blocked t.session with
    | true =>
      refine hin.quiet h h' (List.length_erase_le ..) ?_
      show (s.workers ++ (s.coord.handlePublished _ env t.session t.snapshot).2).Sublist _
      rw [handlePublished, if_pos hblocked, List.append_nil]
    | false =>
      obtain ⟨sess, -, heq⟩ := handlePublished_unblocked saturatingPred hS hen.1 env hblocked
      have hwork : (s.handle saturatingPred (.published env t)).workers = s.workers ++
          [⟨{ queuedDecode (sess.decodeJob.getD env.jobId) t.snapshot with
            analysisId := some env.analysisId }, true, false⟩] := by
        rw [System.handle, heq]
        rfl
      exact hin.decodeStarted h h' (hroom hblocked) (List.length_erase_le ..)
        JobKind.noConfusion hwork
  | jobFinished w outcome => exact hin.quiet h h' (Nat.le_refl _) List.erase_sublist

/-- In a run whose publications and compares find room, the limits hold in
every state. -/
theorem run_withinLimits (limits : Limits) (sessions : List StoredSession) (jobs : List JobRecord)
    (cache : List (String × JobId)) {s : System}
    (h : Run saturatingPred FindsRoom (boot limits sessions jobs cache) s) :
    WithinLimits limits s.coord := by
  have hboot : (boot limits sessions jobs cache).SlotsMatch := fun w hw => nomatch hw
  have haccounts := boot_accounts limits sessions jobs cache
  have hin : WithinLimits limits (boot limits sessions jobs cache).coord :=
    (WithinLimits.iff haccounts).mpr ⟨Nat.zero_le _, Nat.zero_le _⟩
  have hrun := h.invariant
    (I := fun s => s.SlotsMatch ∧ s.Accounts limits ∧ WithinLimits limits s.coord)
    (fun s msg hS hen hroom hI => ⟨hI.1.handle,
      hI.2.1.handle saturatingPred_takesOne hS hI.1 hen, hI.2.2.handle hS hI.1 hen hI.2.1 hroom⟩)
    (boot_seated limits sessions jobs cache) ⟨hboot, haccounts, hin⟩
  exact hrun.2.2.2

/-- One session after the other, with a compare in between. -/
def patientRun : List Msg :=
  [startOf "a", publishOf "a" false, .jobFinished (decodeOf "a" "a") (.ok ()), compareOf "c",
    startOf "b", publishOf "b" false]

theorem run_withinLimits_patientRun :
    WithinLimits .default (patientRun.foldl (System.handle saturatingPred)
      (boot .default [] [] [])).coord :=
  have hrun : Replays saturatingPred FindsRoom (boot .default [] [] []) patientRun := by
    decide +kernel
  run_withinLimits .default [] [] [] hrun.run

/-- A second session is published while the first one is being decoded. -/
def hastyRun : List Msg :=
  [startOf "a", publishOf "a" false, startOf "b", publishOf "b" false]

/-- A capture has reserved its decode, and the queue fills up with compares. -/
def crowdedRun : List Msg :=
  [startOf "a", compareOf "b", compareOf "c", compareOf "d", compareOf "e"]

/-- Both limits are overrun under the default limits: two decodes run where
one may, and five expensive jobs are queued where four may. -/
theorem limits_overrun :
    (∃ s, Run saturatingPred Any (boot .default [] [] []) s ∧
      Limits.default.maxDecodeJobs < s.coord.runningDecode) ∧
    ∃ s, Run saturatingPred Any (boot .default [] [] []) s ∧
      Limits.default.maxPendingExpensive < s.coord.reservedDecode + s.coord.pendingExpensive :=
  have hhasty : Replays saturatingPred Any (boot .default [] [] []) hastyRun := by decide +kernel
  have hcrowded : Replays saturatingPred Any (boot .default [] [] []) crowdedRun := by
    decide +kernel
  ⟨⟨_, hhasty.run, by decide +kernel⟩, ⟨_, hcrowded.run, by decide +kernel⟩⟩

end System

end TraceMcp.Service
