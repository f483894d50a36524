import TraceMcp.Service.Usage

/-!
# Files under their keys

The workers file what they come to under the key of the request, and the
coordinator maps the key to the worker's job. Both outlive the worker. `Filed`
says how they stay together: behind every entry of the map a worker is
unreported, or its job failed or was cancelled, or its result is on disk.
-/

namespace TraceMcp.Service

open TraceMcp.Lib Coord

/-! ## Where files lie -/

/-- The analysis of a side that names one is that one. -/
def Report.Answers (r : Report) (req : CompareRequest) : Prop :=
  (∀ id, req.baseline.analysisId = some id → r.baseline = id) ∧
    ∀ id, req.candidate.analysisId = some id → r.candidate = id

namespace Disk

/-- Files lie where their keys say: only published snapshots have manifests
and analyses, analyses have keys of their snapshot, reports keys of their
request. -/
structure Kept (keys : Keys) (disk : Disk) : Prop where
  placed : ∀ id, (disk.dir id).manifest = true → id ∈ disk.placed
  derived : ∀ id, ∀ m ∈ (disk.dir id).derived,
    keys.snapshotOf m.cacheKey = some id ∧ id ∈ disk.placed
  reports : ∀ r ∈ disk.reports, ∃ req, r.cacheKey = keys.compare req ∧ r.Answers req

/-- A write that files what it writes under its key. -/
def Fits (keys : Keys) (disk : Disk) : Write → Prop
  | .publish id m => keys.snapshotOf m.cacheKey = some id ∧ id ∈ disk.placed
  | .report r => ∃ req, r.cacheKey = keys.compare req ∧ r.Answers req
  | .session _ | .job _ | .capture _ | .remove _ | .touch _ => True

variable {keys : Keys} {disk disk' : Disk} {id : SnapshotId} {w : Write}

theorem dir_insert (snapshots : FastMap SnapshotId SnapshotDir) (id id' : SnapshotId)
    (dir : SnapshotDir) (h : disk'.snapshots = snapshots.insert id dir) :
    disk'.dir id' = if id' = id then dir else (snapshots.get id').getD ⟨false, []⟩ := by
  unfold Disk.dir
  rw [h, FastMap.get_insert]
  split <;> rfl

/-- What one write does to a snapshot's directory. -/
theorem write_dir (disk : Disk) (w : Write) (id : SnapshotId) :
    (disk.write w).dir id = match w with
      | .capture id' => if id = id' then ⟨true, []⟩ else disk.dir id
      | .remove id' => if id = id' then ⟨false, []⟩ else disk.dir id
      | .publish id' m =>
        if id = id' then { disk.dir id' with derived := (disk.dir id').derived ++ [m] }
        else disk.dir id
      | _ => disk.dir id := by
  cases w with
  | session | job | report => rfl
  | capture id' => exact dir_insert disk.snapshots id' id _ rfl
  | publish id' m => exact dir_insert disk.snapshots id' id _ rfl
  | remove id' =>
    show (FastMap.get (disk.snapshots.erase id') id).getD _ = _
    rw [FastMap.get_erase]
    dsimp only
    split <;> rfl
  | touch id' =>
    refine (dir_insert disk.snapshots id' id _ rfl).trans ?_
    split
    next heq => rw [heq]
    next => rfl

theorem mem_publish (disk : Disk) (id : SnapshotId) (m : AnalysisManifest) :
    m ∈ ((disk.write (.publish id m)).dir id).derived := by
  rw [write_dir]
  dsimp only
  rw [if_pos rfl]
  exact List.mem_append_right _ (List.mem_singleton_self m)

/-- Published snapshots stay published. -/
theorem write_placed (disk : Disk) (w : Write) : ∃ more, (disk.write w).placed = disk.placed ++ more := by
  cases w with
  | capture id => exact ⟨[id], rfl⟩
  | session | job | remove | touch | publish | report => exact ⟨[], (List.append_nil _).symm⟩

theorem mem_placed_write (w : Write) (h : id ∈ disk.placed) : id ∈ (disk.write w).placed := by
  obtain ⟨more, hmore⟩ := write_placed disk w
  rw [hmore]
  exact List.mem_append_left _ h

theorem Kept.write (h : disk.Kept keys) (hfits : disk.Fits keys w) : (disk.write w).Kept keys := by
  refine ⟨fun id hmanifest => ?_, fun id m hm => ?_, fun r hr => ?_⟩
  · cases w with
    | session | job | report | touch =>
      rw [write_dir] at hmanifest
      exact h.placed id hmanifest
    | capture id' =>
      rw [write_dir] at hmanifest
      show id ∈ disk.placed ++ [id']
      dsimp only at hmanifest
      split at hmanifest
      next heq => exact List.mem_append_right _ (List.mem_singleton.mpr heq)
      next => exact List.mem_append_left _ (h.placed id hmanifest)
    | remove id' =>
      rw [write_dir] at hmanifest
      dsimp only at hmanifest
      split at hmanifest
      next => cases hmanifest
      next => exact h.placed id hmanifest
    | publish id' m =>
      rw [write_dir] at hmanifest
      dsimp only at hmanifest
      split at hmanifest
      next heq => exact heq ▸ hfits.2
      next => exact h.placed id hmanifest
  · have hold : m ∈ (disk.dir id).derived →
        keys.snapshotOf m.cacheKey = some id ∧ id ∈ (disk.write w).placed := fun hm =>
      ⟨(h.derived id m hm).1, mem_placed_write w (h.derived id m hm).2⟩
    rw [write_dir] at hm
    cases w with
    | session | job | report | touch => exact hold hm
    | capture id' =>
      dsimp only at hm
      split at hm
      next => cases hm
      next => exact hold hm
    | remove id' =>
      dsimp only at hm
      split at hm
      next => cases hm
      next => exact hold hm
    | publish id' m' =>
      dsimp only at hm
      split at hm
      next heq =>
        subst heq
        rcases List.mem_append.mp hm with hm | hm
        · exact hold hm
        · obtain rfl := List.mem_singleton.mp hm
          exact ⟨hfits.1, mem_placed_write _ hfits.2⟩
      next => exact hold hm
  · cases w with
    | report r' =>
      rcases List.mem_append.mp hr with hr | hr
      · exact h.reports r hr
      · obtain rfl := List.mem_singleton.mp hr
        exact hfits
    | session | job | capture | remove | touch | publish => exact h.reports r hr

theorem Fits.write {w' : Write} (h : disk.Fits keys w') (w : Write) :
    (disk.write w).Fits keys w' := by
  cases w' with
  | publish id m => exact ⟨h.1, mem_placed_write w h.2⟩
  | session | job | capture | remove | touch | report => exact h

theorem Kept.writeAll {writes : List Write} (h : disk.Kept keys)
    (hfits : ∀ w ∈ writes, disk.Fits keys w) : (disk.writeAll writes).Kept keys := by
  induction writes generalizing disk with
  | nil => exact h
  | cons w writes ih =>
    exact ih (h.write (hfits w List.mem_cons_self)) fun w' hw' =>
      (hfits w' (List.mem_cons_of_mem w hw')).write w

/-- A snapshot with a manifest had it before, and all its analyses with it,
unless it has just been captured. -/
theorem dir_of_manifest {writes : List Write} (hcapture : Write.capture id ∉ writes)
    (hmanifest : ((disk.writeAll writes).dir id).manifest = true) :
    (disk.dir id).manifest = true ∧
      ∀ m ∈ (disk.dir id).derived, m ∈ ((disk.writeAll writes).dir id).derived := by
  induction writes generalizing disk with
  | nil => exact ⟨hmanifest, fun _ hm => hm⟩
  | cons w writes ih =>
    obtain ⟨hmid, hkept⟩ := ih (fun h => hcapture (List.mem_cons_of_mem w h)) hmanifest
    rw [write_dir] at hmid hkept
    cases w with
    | session | job | report | touch => exact ⟨hmid, hkept⟩
    | capture id' =>
      have hne : id ≠ id' := fun heq => hcapture (heq ▸ List.mem_cons_self)
      dsimp only at hmid hkept
      rw [if_neg hne] at hmid hkept
      exact ⟨hmid, hkept⟩
    | remove id' =>
      dsimp only at hmid hkept
      split at hmid
      next => cases hmid
      next hne =>
        rw [if_neg hne] at hkept
        exact ⟨hmid, hkept⟩
    | publish id' m' =>
      dsimp only at hmid hkept
      split at hmid
      next heq =>
        subst heq
        rw [if_pos rfl] at hkept
        exact ⟨hmid, fun m hm => hkept m (List.mem_append_left _ hm)⟩
      next hne =>
        rw [if_neg hne] at hkept
        exact ⟨hmid, hkept⟩

/-- Reports are not taken back. -/
theorem reports_writeAll {r : Report} (hr : r ∈ disk.reports) (writes : List Write) :
    r ∈ (disk.writeAll writes).reports := by
  refine List.foldlRecOn (motive := fun disk : Disk => r ∈ disk.reports) writes _ hr
    fun disk hr w _ => ?_
  cases w with
  | report => exact List.mem_append_left _ hr
  | session | job | capture | remove | touch | publish => exact hr

theorem placed_writeAll (h : id ∈ disk.placed) (writes : List Write) :
    id ∈ (disk.writeAll writes).placed :=
  List.foldlRecOn (motive := fun disk : Disk => id ∈ disk.placed) writes _ h
    fun _ h w _ => mem_placed_write w h

/-- The result of a cached job is on disk: an analysis of a snapshot that
still has its manifest, or the job's report. -/
def Stores (keys : Keys) (disk : Disk) (key : String) (job : JobId) : Prop :=
  match keys.snapshotOf key with
  | some id => (disk.dir id).manifest = true → ∃ m ∈ (disk.dir id).derived, m.cacheKey = key
  | none => ∃ r ∈ disk.reports, r.cacheKey = key ∧ r.jobId = job

theorem Stores.writeAll {writes : List Write} {key : String} {job : JobId}
    (h : disk.Stores keys key job)
    (hcapture : ∀ id, keys.snapshotOf key = some id → Write.capture id ∉ writes) :
    (disk.writeAll writes).Stores keys key job := by
  unfold Stores at h ⊢
  cases howner : keys.snapshotOf key with
  | some id =>
    rw [howner] at h
    intro hmanifest
    obtain ⟨hbefore, hkept⟩ := dir_of_manifest (hcapture id howner) hmanifest
    obtain ⟨m, hm, hkey⟩ := h hbefore
    exact ⟨m, hkept m hm, hkey⟩
  | none =>
    rw [howner] at h
    obtain ⟨r, hr, hkey⟩ := h
    exact ⟨r, reports_writeAll hr writes, hkey⟩

end Disk

/-! ## What the workers file -/

/-- The key a worker's result is filed under. -/
def Work.key (keys : Keys) : Work → String
  | .decode req _ => keys.decode req.snapshotId req.detail
  | .compare req _ => keys.compare req

theorem Work.snapshotOf_key (keys : Keys) (work : Work) :
    keys.snapshotOf (work.key keys) = work.decodes := by
  cases work with
  | decode req => exact keys.snapshotOf_decode ..
  | compare req => exact keys.snapshotOf_compare req

/-- What a comparison that succeeds reports. -/
theorem Disk.compareJob_ok {disk : Disk} {req : CompareRequest} {key : String} {job : JobId}
    {rest : Result Unit} {r : Report} (h : disk.compareJob req key job rest = .ok r) :
    r.cacheKey = key ∧ r.jobId = job ∧ disk.analysisOf req.baseline = some r.baseline ∧
      disk.analysisOf req.candidate = some r.candidate := by
  unfold compareJob at h
  cases hbase : disk.analysisOf req.baseline with
  | none =>
    rw [hbase] at h
    cases h
  | some baseline =>
    cases hcand : disk.analysisOf req.candidate with
    | none =>
      rw [hbase, hcand] at h
      cases h
    | some candidate =>
      rw [hbase, hcand] at h
      obtain ⟨-, -, h⟩ := bind_ok.mp h
      obtain ⟨-, -, h⟩ := bind_ok.mp h
      obtain ⟨-, -, h⟩ := bind_ok.mp h
      cases h
      exact ⟨rfl, rfl, rfl, rfl⟩

/-- A side that names an analysis is about that one. -/
theorem Disk.analysisOf_named {disk : Disk} {side : CompareSide} {id id' : AnalysisId}
    (h : disk.analysisOf side = some id) (hnamed : side.analysisId = some id') : id = id' := by
  rw [Disk.analysisOf, hnamed] at h
  exact (Option.some.inj h).symm

namespace Daemon

variable {keys : Keys} {d d' : Daemon} {e : Event}

/-- A worker that succeeds has filed its result. -/
theorem outcomeOf_stores {t : Task} {rest : Result Nat}
    (hok : (d.outcomeOf keys t rest).2 = .ok ()) (more : List Write)
    (hmore : ∀ id, Write.capture id ∉ more) :
    (d.disk.writeAll ((d.outcomeOf keys t rest).1 ++ more)).Stores keys (t.work.key keys) t.job := by
  have happend : ∀ (disk : Disk) (files : List Write),
      disk.writeAll (files ++ more) = (disk.writeAll files).writeAll more :=
    fun disk files => List.foldl_append
  rw [happend]
  refine Disk.Stores.writeAll ?_ fun id _ => hmore id
  unfold Disk.Stores
  rw [Work.snapshotOf_key]
  obtain ⟨worker, work, outcome⟩ := t
  cases work with
  | decode req analysis =>
    cases rest with
    | error => cases hok
    | ok modified =>
      intro _
      refine ⟨analysisManifest keys req analysis modified, ?_, rfl⟩
      exact Disk.mem_publish d.disk req.snapshotId _
  | compare req report =>
    unfold outcomeOf at hok ⊢
    dsimp only at hok ⊢
    split at hok
    next r hr =>
      obtain ⟨hkey, hjob, -, -⟩ := Disk.compareJob_ok hr
      exact ⟨r, List.mem_append_right _ (List.mem_singleton_self r), hkey, hjob⟩
    next => cases hok

/-! ## New cache entries -/

/-- A message that makes an entry spawns the worker for it. -/
theorem handle_cacheJobs {s : System} {m : Msg} {key : String} {job : JobId}
    (h : (s.handle saturatingPred m).coord.cacheJobs.get key = some job) :
    s.coord.cacheJobs.get key = some job ∨
      (System.newJob m = some job ∧ (∃ w : Worker, w.job = job ∧
          (s.handle saturatingPred m).workers = s.workers ++ [w]) ∧
        ((∃ env req, m = .decode env req ∧ key = env.key ∧ env.loadManifest = .ok ()) ∨
          ∃ env, m = .compare env ∧ key = env.key)) := by
  have hrelease : ∀ (c : Coord) (id : SessionId),
      (c.releaseCaptureSlot saturatingPred id).cacheJobs = c.cacheJobs := by
    intro c id
    unfold releaseCaptureSlot
    split
    next => split <;> rfl
    next => rfl
  have hcancel : ∀ (c : Coord) (id : SessionId),
      (c.cancelQueuedSessionJob id).cacheJobs = c.cacheJobs := by
    intro c id
    unfold cancelQueuedSessionJob
    split <;> rfl
  cases m with
  | start env req =>
    left
    rw [System.handle] at h
    cases hstart : s.coord.handleStart env req with
    | error err =>
      rw [hstart] at h
      exact h
    | ok x =>
      obtain ⟨c', resp, tasks⟩ := x
      rw [hstart] at h
      rcases handleStart_ok hstart with ⟨rfl, rfl⟩ | ⟨-, -, req', hash, config, rfl, rfl⟩
      · exact h
      · exact h
  | snapshot env id reason =>
    left
    have hsame : (s.coord.handleSnapshot env id reason).1.cacheJobs = s.coord.cacheJobs := by
      unfold handleSnapshot
      split
      next => rfl
      next =>
        split
        next => rfl
        next => rfl
        next => rfl
        next => split <;> rfl
        next => split <;> rfl
        next =>
          unfold finalizeSession
          dsimp only
          split <;> rfl
    exact hsame ▸ h
  | cancel target =>
    left
    have hsame : (s.coord.handleCancel saturatingPred target).1.cacheJobs = s.coord.cacheJobs := by
      cases target with
      | session id =>
        show (s.coord.cancelSession saturatingPred id).1.cacheJobs = _
        unfold cancelSession
        split
        next => rfl
        next => split <;> first | rfl | exact hrelease ..
      | job id =>
        show (s.coord.cancelJob id).1.cacheJobs = _
        unfold cancelJob
        split
        next => split <;> rfl
        next => rfl
    exact hsame ▸ h
  | prune env req =>
    left
    -- a prune only takes entries out
    have hfold : ∀ (ids : List SnapshotId) acc,
        (ids.foldl (pruneOne env) acc).1.cacheJobs.get key = some job →
          acc.1.cacheJobs.get key = some job := by
      intro ids
      induction ids with
      | nil => exact fun _ h => h
      | cons id ids ih =>
        intro acc h
        have hone := ih _ h
        unfold pruneOne at hone
        dsimp only at hone
        split at hone
        next => exact hone
        next =>
          split at hone
          next =>
            rw [FastMap.get_retain] at hone
            exact (Option.filter_eq_some_iff.mp hone).1
          next => exact hone
    have hget : (s.coord.handlePrune env req).1.cacheJobs.get key = some job := h
    unfold handlePrune at hget
    split at hget
    next => exact hget
    next =>
      split at hget
      next c' removed skipped heq =>
        split at heq
        next =>
          obtain rfl := (Prod.mk.inj heq).1
          exact hget
        next =>
          have hmid := hfold req.snapshotIds (s.coord, [], [])
          rw [heq] at hmid
          exact hmid hget
  | decode env req =>
    rw [System.handle] at h ⊢
    cases hdecode : s.coord.handleDecode env req with
    | error err =>
      rw [hdecode] at h
      exact Or.inl h
    | ok x =>
      obtain ⟨c', resp, workers⟩ := x
      rw [hdecode] at h
      obtain ⟨hload, ⟨-, rfl, rfl⟩ | ⟨-, kind, -, record, rfl, rfl, rfl⟩⟩ :=
        handleDecode_cases hdecode
      · exact Or.inl h
      · have hget : FastMap.get (s.coord.cacheJobs.insert env.key env.jobId) key = some job := h
        rw [FastMap.get_insert] at hget
        split at hget
        next heq =>
          obtain rfl := Option.some.inj hget
          exact Or.inr ⟨rfl, ⟨_, rfl, rfl⟩, Or.inl ⟨env, req, rfl, heq, hload⟩⟩
        next => exact Or.inl hget
  | compare env =>
    rw [System.handle] at h ⊢
    cases hcompare : s.coord.handleCompare env with
    | error err =>
      rw [hcompare] at h
      exact Or.inl h
    | ok x =>
      obtain ⟨c', resp, workers⟩ := x
      rw [hcompare] at h
      rcases handleCompare_cases hcompare with ⟨-, rfl, rfl⟩ | ⟨-, record, rfl, rfl, rfl⟩
      · exact Or.inl h
      · have hget : FastMap.get (s.coord.cacheJobs.insert env.key env.jobId) key = some job := h
        rw [FastMap.get_insert] at hget
        split at hget
        next heq =>
          obtain rfl := Option.some.inj hget
          exact Or.inr ⟨rfl, ⟨_, rfl, rfl⟩, Or.inr ⟨env, rfl, heq⟩⟩
        next => exact Or.inl hget
  | armed t => exact Or.inl h
  | failed t =>
    left
    have hsame : (s.coord.handleFailed saturatingPred t.session).cacheJobs = s.coord.cacheJobs := by
      unfold handleFailed
      dsimp only
      rw [hrelease, hcancel]
      rfl
    exact hsame ▸ h
  | published env t =>
    left
    have hsame : (s.coord.handlePublished saturatingPred env t.session t.snapshot).1.cacheJobs =
        s.coord.cacheJobs := by
      unfold handlePublished
      split
      next =>
        unfold handleBlocked
        dsimp only
        rw [hrelease, hcancel]
        rfl
      next =>
        split
        next => rfl
        next => exact hrelease _ _
    exact hsame ▸ h
  | jobFinished w outcome =>
    left
    have hsame : (s.handle saturatingPred (.jobFinished w outcome)).coord.cacheJobs =
        s.coord.cacheJobs := by
      rw [System.handle, System.handleJobFinished_eq]
    exact hsame ▸ h

/-! ## What every entry refers to -/

/-- Cached jobs, their workers and their results belong together. -/
structure Filed (keys : Keys) (d : Daemon) : Prop where
  disk : d.disk.Kept keys
  /-- Only published snapshots are decoded, and have entries. -/
  decoding : ∀ t ∈ d.tasks, ∀ id, t.work.decodes = some id → id ∈ d.disk.placed
  cached : ∀ key job id, d.coord.cacheJobs.get key = some job → keys.snapshotOf key = some id →
    id ∈ d.disk.placed
  /-- No entry is for a job that waits for its capture. -/
  apart : ∀ id job key, d.sys.Waits id job → d.coord.cacheJobs.get key ≠ some job
  /-- The entry of a worker's job is under the key of its work. -/
  keyed : ∀ t ∈ d.tasks, ∀ key, d.coord.cacheJobs.get key = some t.job → key = t.work.key keys
  /-- A worker that has succeeded has filed its result. -/
  done : ∀ t ∈ d.tasks, t.outcome = some (.ok ()) → d.disk.Stores keys (t.work.key keys) t.job
  entry : ∀ key job, d.coord.cacheJobs.get key = some job →
    (∃ t ∈ d.tasks, t.job = job) ∨
      (∃ j, d.coord.jobs.get job = some j ∧ (j.phase = .failed ∨ j.phase = .cancelled)) ∨
      d.disk.Stores keys key job

/-- A job id generated for an event is new. -/
theorem Enabled.freshId {m : Msg} {id : JobId} (hen : d.Enabled e) (hmsg : d.msg keys e = some m)
    (hnew : System.newJob m = some id) : FreshId d.coord id := by
  cases e with
  | request m' =>
    obtain rfl := Option.some.inj hmsg
    cases m' with
    | snapshot env =>
      obtain rfl := Option.some.inj hnew
      exact hen.2
    | published env t =>
      obtain rfl := Option.some.inj hnew
      exact hen.2.1
    | prune | decode | compare | jobFinished => exact hen.2.elim
    | start | cancel | armed | failed => cases hnew
  | decode job analysis req =>
    obtain rfl := Option.some.inj hmsg
    obtain rfl := Option.some.inj hnew
    exact hen
  | compare job report req =>
    obtain rfl := Option.some.inj hmsg
    obtain rfl := Option.some.inj hnew
    exact hen
  | prune =>
    obtain rfl := Option.some.inj hmsg
    cases hnew
  | reported t =>
    obtain ⟨outcome, -, rfl⟩ := Option.map_eq_some_iff.mp hmsg
    cases hnew
  | captured | opened | worked => cases hmsg

/-- No entry is for a new job. -/
theorem FreshId.not_cached {id : JobId} {key : String} (h : FreshId d.coord id) :
    d.coord.cacheJobs.get key ≠ some id :=
  fun hget => h.2 (FastMap.mem_values.mpr ⟨key, hget⟩)

/-- A new entry is under the key of the work that is spawned for it. -/
theorem cache_after {key : String} {job : JobId} (hen : d.Enabled e)
    (h : (d.handle keys e).coord.cacheJobs.get key = some job) :
    d.coord.cacheJobs.get key = some job ∨
      (FreshId d.coord job ∧
        (∃ w : Worker, w.job = job ∧ (d.sysAfter keys e).workers = d.sys.workers ++ [w]) ∧
        ∃ work, workOf e = some work ∧ key = work.key keys ∧
          ∀ id, work.decodes = some id → d.disk.loadManifest id = .ok ()) := by
  have hget : (d.sysAfter keys e).coord.cacheJobs.get key = some job := h
  unfold sysAfter at hget ⊢
  cases hmsg : d.msg keys e with
  | none =>
    rw [hmsg] at hget
    exact Or.inl hget
  | some m =>
    rw [hmsg] at hget
    rcases handle_cacheJobs hget with hold | ⟨hnew, hspawn, hkey⟩
    · exact Or.inl hold
    · refine Or.inr ⟨hen.freshId hmsg hnew, hspawn, ?_⟩
      cases e with
      | request m' =>
        obtain rfl := Option.some.inj hmsg
        rcases hkey with ⟨env, req, rfl, -⟩ | ⟨env, rfl, -⟩
        · exact hen.2.elim
        · exact hen.2.elim
      | decode job analysis req =>
        obtain rfl := Option.some.inj hmsg
        rcases hkey with ⟨env, req', heq, hkey, hload⟩ | ⟨env, heq, -⟩
        · cases heq
          refine ⟨_, rfl, hkey, fun id hid => ?_⟩
          obtain rfl := Option.some.inj hid
          exact hload
        · cases heq
      | compare job report req =>
        obtain rfl := Option.some.inj hmsg
        rcases hkey with ⟨env, req', heq, -⟩ | ⟨env, heq, hkey⟩
        · cases heq
        · cases heq
          exact ⟨_, rfl, hkey, fun id hid => by cases hid⟩
      | prune =>
        obtain rfl := Option.some.inj hmsg
        cases hnew
      | reported t =>
        obtain ⟨outcome, -, rfl⟩ := Option.map_eq_some_iff.mp hmsg
        cases hnew
      | captured | opened | worked => cases hmsg

/-- A new worker's job is new, or a capture waited with it. -/
theorem spawned_job (hO : d.InOrder) (hen : d.Enabled e) {new : List Worker} {w : Worker}
    (hnew : (d.sysAfter keys e).workers = d.sys.workers ++ new) (hw : w ∈ new) :
    FreshId d.coord w.job ∨ ∃ id, d.sys.Waits id w.job := by
  have hsame : (d.sysAfter keys e).workers ≠ d.sys.workers := by
    intro hsame
    have hlength := congrArg List.length (hnew.symm.trans hsame)
    have hpos := List.length_pos_of_mem hw
    rw [List.length_append] at hlength
    omega
  unfold sysAfter at hnew hsame
  cases hmsg : d.msg keys e with
  | none =>
    rw [hmsg] at hsame
    exact absurd rfl hsame
  | some m =>
    rw [hmsg] at hnew hsame
    cases System.handle_deed saturatingPred hO.seated (hen.msg hmsg) with
    | idle _ hworkers => exact absurd hworkers hsame
    | cancelled _ _ _ _ hworkers => exact absurd hworkers hsame
    | queued _ _ _ _ _ _ _ _ hworkers => exact absurd hworkers hsame
    | spawned w' phase _ hjob _ hworkers =>
      have hone : new = [w'] := List.append_cancel_left (hnew.symm.trans hworkers)
      obtain rfl := List.mem_singleton.mp (hone ▸ hw)
      rcases hjob with hfresh | ⟨t, ht, hdecode, -⟩
      · exact Or.inl (hen.freshId hmsg hfresh)
      · exact Or.inr ⟨t.session, ⟨t, ht, rfl⟩, hdecode⟩
    | reported w' hw' outcome _ hworkers =>
      have hlength := congrArg List.length (hnew.symm.trans hworkers)
      rw [List.length_append, List.length_erase_of_mem hw'] at hlength
      have hpos := List.length_pos_of_mem hw
      omega

/-- A published snapshot's worker decodes a snapshot that is there. -/
theorem workOf_placed (hF : d.Filed keys) (hen : d.Enabled e) {work : Work} {id : SnapshotId}
    (hwork : workOf e = some work) {new : List Worker} {w : Worker}
    (hnew : (d.sysAfter keys e).workers = d.sys.workers ++ new) (hw : w ∈ new)
    (hdecodes : work.decodes = some id) : id ∈ d.disk.placed := by
  cases e with
  | request m =>
    cases m with
    | published env t =>
      obtain rfl := Option.some.inj hwork
      obtain rfl := Option.some.inj hdecodes
      exact hen.2.2
    | start | snapshot | cancel | prune | decode | compare | armed | failed | jobFinished =>
      cases hwork
  | decode job analysis req =>
    obtain rfl := Option.some.inj hwork
    obtain rfl := Option.some.inj hdecodes
    -- a worker is spawned only where the manifest was read
    have hload : d.disk.loadManifest req.snapshotId = .ok () := by
      dsimp only [sysAfter, Daemon.msg, System.handle] at hnew
      split at hnew
      next c' resp workers hdecode => exact (handleDecode_cases hdecode).1
      next =>
        have hnil : [] = new := List.append_cancel_left ((List.append_nil _).trans hnew)
        exact absurd (hnil ▸ hw) List.not_mem_nil
    unfold Disk.loadManifest at hload
    split at hload
    next hmanifest => exact hF.disk.placed req.snapshotId hmanifest
    next => cases hload
  | compare job report req =>
    obtain rfl := Option.some.inj hwork
    cases hdecodes
  | prune | captured | opened | worked | reported => cases hwork

/-- Whose writes change what is published. -/
theorem writes_cases {s : System} {w : Write} (hw : w ∈ d.writes keys s e) :
    (∃ v, w = .session v) ∨ (∃ j, w = .job j) ∨ (∃ id, w = .remove id) ∨ (∃ id, w = .touch id) ∨
      (∃ t, e = .captured t ∧ w = .capture t.snapshot) ∨
      ∃ t rest, e = .worked t rest ∧ w ∈ (d.outcomeOf keys t rest).1 := by
  -- what each of the three writers of files can write
  have hsession : ∀ {c : Coord} {id : SessionId}, w ∈ c.sessionFile id → ∃ v, w = .session v := by
    intro c id hw
    obtain ⟨s, -, rfl⟩ := Option.map_eq_some_iff.mp (Option.mem_toList.mp hw)
    exact ⟨_, rfl⟩
  have hjob : ∀ {c : Coord} {id : JobId}, w ∈ c.jobFile id → ∃ j, w = .job j := by
    intro c id hw
    obtain ⟨j, -, rfl⟩ := Option.map_eq_some_iff.mp (Option.mem_toList.mp hw)
    exact ⟨_, rfl⟩
  have hcancelled : ∀ {c : Coord} {id : SessionId}, w ∈ c.cancelledFile id → ∃ j, w = .job j := by
    intro c id hw
    unfold cancelledFile at hw
    split at hw
    next => exact absurd hw List.not_mem_nil
    next =>
      split at hw
      next => exact hjob hw
      next => exact absurd hw List.not_mem_nil
  have hnone : w ∉ ([] : List Write) := List.not_mem_nil
  cases e with
  | request m =>
    cases m with
    | start => exact Or.inl (hsession hw)
    | snapshot env id reason =>
      dsimp only [writes] at hw
      split at hw
      next =>
        rcases List.mem_append.mp hw with hw | hw
        · exact Or.inl (hsession hw)
        · cases hdecode : (s.coord.sessions.get id).bind (·.decodeJob) with
          | none =>
            rw [hdecode] at hw
            exact absurd hw hnone
          | some job =>
            rw [hdecode] at hw
            exact Or.inr (Or.inl (hjob hw))
      next => exact absurd hw hnone
    | cancel target =>
      cases target with
      | session id =>
        dsimp only [writes] at hw
        split at hw
        next => exact Or.inl (hsession hw)
        next => exact absurd hw hnone
      | job id =>
        dsimp only [writes] at hw
        split at hw
        next => exact Or.inr (Or.inl (hjob hw))
        next => exact absurd hw hnone
    | armed => exact Or.inl (hsession hw)
    | failed =>
      rcases List.mem_append.mp hw with hw | hw
      · exact Or.inr (Or.inl (hcancelled hw))
      · exact Or.inl (hsession hw)
    | published env t =>
      -- blocked, the waiting job is cancelled; otherwise it is queued
      dsimp only [writes] at hw
      split at hw
      next =>
        rcases List.mem_append.mp hw with hw | hw
        · exact Or.inr (Or.inl (hcancelled hw))
        · exact Or.inl (hsession hw)
      next =>
        rcases List.mem_append.mp hw with hw | hw
        · exact Or.inl (hsession hw)
        · obtain ⟨job, -, rfl⟩ := Option.map_eq_some_iff.mp (Option.mem_toList.mp hw)
          exact Or.inr (Or.inl ⟨_, rfl⟩)
    | prune | decode | compare | jobFinished => exact absurd hw hnone
  | prune =>
    obtain ⟨id, -, rfl⟩ := List.mem_map.mp hw
    exact Or.inr (Or.inr (Or.inl ⟨id, rfl⟩))
  | decode => exact Or.inr (Or.inl (hjob hw))
  | captured t =>
    rcases List.mem_cons.mp hw with rfl | hw
    · exact Or.inr (Or.inr (Or.inr (Or.inr (Or.inl ⟨t, rfl, rfl⟩))))
    · obtain ⟨v, -, rfl⟩ := Option.map_eq_some_iff.mp (Option.mem_toList.mp hw)
      exact Or.inl ⟨_, rfl⟩
  | opened t =>
    obtain ⟨id, -, rfl⟩ := Option.map_eq_some_iff.mp (Option.mem_toList.mp hw)
    exact Or.inr (Or.inr (Or.inr (Or.inl ⟨id, rfl⟩)))
  | worked t rest =>
    rcases List.mem_append.mp hw with hw | hw
    · exact Or.inr (Or.inr (Or.inr (Or.inr (Or.inr ⟨t, rest, rfl, hw⟩))))
    · exact Or.inr (Or.inl ⟨_, List.mem_singleton.mp hw⟩)
  | compare | reported => exact absurd hw hnone

/-- What a worker files lies where its key says. -/
theorem outcomeOf_fits (hF : d.Filed keys) {t : Task} (ht : t ∈ d.tasks) {rest : Result Nat}
    {w : Write} (hw : w ∈ (d.outcomeOf keys t rest).1) : d.disk.Fits keys w := by
  have hplaced := hF.decoding t ht
  obtain ⟨worker, work, outcome⟩ := t
  cases work with
  | decode req analysis =>
    cases rest with
    | error => exact absurd hw List.not_mem_nil
    | ok modified =>
      obtain rfl := List.mem_singleton.mp hw
      exact ⟨keys.snapshotOf_decode .., hplaced req.snapshotId rfl⟩
  | compare req report =>
    dsimp only [outcomeOf] at hw
    split at hw
    next r hr =>
      obtain rfl := List.mem_singleton.mp hw
      obtain ⟨hkey, -, hbase, hcand⟩ := Disk.compareJob_ok hr
      exact ⟨req, hkey, fun id => Disk.analysisOf_named hbase, fun id => Disk.analysisOf_named hcand⟩
    next => exact absurd hw List.not_mem_nil

/-- What an event writes lies where its key says. -/
theorem writes_fit (hF : d.Filed keys) (hen : d.Enabled e) {s : System} {w : Write}
    (hw : w ∈ d.writes keys s e) : d.disk.Fits keys w := by
  rcases writes_cases hw with ⟨v, rfl⟩ | ⟨j, rfl⟩ | ⟨id, rfl⟩ | ⟨id, rfl⟩ | ⟨t, -, rfl⟩ |
    ⟨t, rest, rfl, hfile⟩
  · exact trivial
  · exact trivial
  · exact trivial
  · exact trivial
  · exact trivial
  · exact outcomeOf_fits hF hen.1 hfile

/-- Only snapshots that were not there are captured. -/
theorem capture_new (hen : d.Enabled e) {s : System} {id : SnapshotId}
    (hw : Write.capture id ∈ d.writes keys s e) : id ∉ d.disk.placed := by
  rcases writes_cases hw with ⟨v, heq⟩ | ⟨j, heq⟩ | ⟨id, heq⟩ | ⟨id, heq⟩ | ⟨t, rfl, heq⟩ |
    ⟨t, rest, rfl, hfile⟩
  · cases heq
  · cases heq
  · cases heq
  · cases heq
  · cases heq
    exact hen.2
  · exfalso
    obtain ⟨worker, work, outcome⟩ := t
    cases work with
    | decode => cases rest <;> simp [outcomeOf] at hfile
    | compare =>
      dsimp only [outcomeOf] at hfile
      split at hfile <;> simp at hfile

/-- A stored result of a published snapshot stays stored. -/
theorem stores_after (hen : d.Enabled e) {key : String} {job : JobId}
    (hstores : d.disk.Stores keys key job)
    (hplaced : ∀ id, keys.snapshotOf key = some id → id ∈ d.disk.placed) :
    (d.handle keys e).disk.Stores keys key job :=
  hstores.writeAll fun id howner hcapture => capture_new hen hcapture (hplaced id howner)

/-- A capture that waits with a job has waited with it before, or the job is
new and nobody works on it yet. -/
theorem waits_after (hO : d.InOrder) (hen : d.Enabled e) {id : SessionId} {job : JobId}
    (hwaits : (d.handle keys e).sys.Waits id job) :
    d.sys.Waits id job ∨ (FreshId d.coord job ∧ workOf e = none) := by
  rw [handle_sys hO.manned hen] at hwaits
  unfold sysAfter at hwaits
  cases hmsg : d.msg keys e with
  | none =>
    rw [hmsg] at hwaits
    exact Or.inl hwaits
  | some m =>
    rw [hmsg] at hwaits
    rcases System.handle_waits saturatingPred hO.seated (hen.msg hmsg) hwaits with
      hbefore | ⟨env, reason, rfl, rfl⟩
    · exact Or.inl hbefore
    · refine Or.inr ⟨hen.freshId hmsg rfl, ?_⟩
      cases e with
      | request m =>
        obtain rfl := Option.some.inj hmsg
        rfl
      | reported t =>
        obtain ⟨outcome, -, heq⟩ := Option.map_eq_some_iff.mp hmsg
        cases heq
      | prune | decode | compare | captured | opened | worked => cases hmsg

/-- A worker stays unreported, or it is the one that reports. -/
theorem task_after (keys : Keys) (e : Event) {t : Task} (ht : t ∈ d.tasks) :
    (∃ t' ∈ (d.handle keys e).tasks, t'.job = t.job) ∨ e = .reported t := by
  show (∃ t' ∈ d.tasksAfter keys e, _) ∨ _
  cases e with
  | worked t₀ rest =>
    refine Or.inl ⟨_, List.mem_map_of_mem ht, ?_⟩
    show Task.job (if t = t₀ then _ else t) = t.job
    split
    next heq => rw [heq]; rfl
    next => rfl
  | reported t₀ =>
    by_cases heq : t = t₀
    · exact Or.inr (heq ▸ rfl)
    · exact Or.inl ⟨t, (List.mem_erase_of_ne heq).mpr ht, rfl⟩
  | request | prune | decode | compare | captured | opened =>
    exact Or.inl ⟨t, List.mem_append_left _ ht, rfl⟩

/-- The workers after an event are those of its system. -/
theorem workers_after (hO : d.InOrder) (hen : d.Enabled e) :
    (d.handle keys e).tasks.map Task.worker = (d.sysAfter keys e).workers :=
  congrArg System.workers (handle_sys hO.manned hen)

/-- An old entry after an event. -/
theorem entry_after (hF : d.Filed keys) (hO : d.InOrder) (hen : d.Enabled e) {key : String}
    {job : JobId} (hget : d.coord.cacheJobs.get key = some job) :
    (∃ t ∈ (d.handle keys e).tasks, t.job = job) ∨
      (∃ j, (d.handle keys e).coord.jobs.get job = some j ∧
        (j.phase = .failed ∨ j.phase = .cancelled)) ∨
      (d.handle keys e).disk.Stores keys key job := by
  have hstores : d.disk.Stores keys key job → (d.handle keys e).disk.Stores keys key job :=
    fun h => stores_after hen h fun id howner => hF.cached key job id hget howner
  by_cases hworking : ∃ t ∈ d.tasks, t.job = job
  · -- the worker is still there, or it reports
    obtain ⟨t, ht, rfl⟩ := hworking
    rcases task_after keys e ht with hstill | rfl
    · exact Or.inl hstill
    · obtain ⟨outcome, hout⟩ := Option.ne_none_iff_exists'.mp hen.2
      cases outcome with
      | ok =>
        obtain rfl := hF.keyed t ht key hget
        exact Or.inr (Or.inr (hstores (hF.done t ht hout)))
      | error err =>
        refine Or.inr (Or.inl ⟨finishedRecord t.worker.record (.error err), ?_, Or.inl rfl⟩)
        show FastMap.get (d.sysAfter keys (.reported t)).coord.jobs t.job = _
        unfold sysAfter
        rw [show d.msg keys (.reported t) = some (.jobFinished t.worker (.error err)) by
          rw [Daemon.msg, hout]; rfl]
        dsimp only
        rw [System.handle, System.handleJobFinished_eq]
        exact FastMap.get_insert_self ..
  · rcases hF.entry key job hget with hworking' | ⟨j, hj, hover⟩ | hstored
    · exact absurd hworking' hworking
    · -- a job that is over is not touched, or started
      show _ ∨ (∃ j, FastMap.get (d.sysAfter keys e).coord.jobs job = some j ∧ _) ∨ _
      have hsame : (d.sysAfter keys e).coord.jobs.get job = d.coord.jobs.get job →
          (∃ t ∈ (d.handle keys e).tasks, t.job = job) ∨
          (∃ j, FastMap.get (d.sysAfter keys e).coord.jobs job = some j ∧
            (j.phase = .failed ∨ j.phase = .cancelled)) ∨
          (d.handle keys e).disk.Stores keys key job :=
        fun h => Or.inr (Or.inl ⟨j, h.trans hj, hover⟩)
      cases hmsg : d.msg keys e with
      | none => exact hsame (by rw [sysAfter, hmsg]; rfl)
      | some m =>
        have hafter : d.sysAfter keys e = d.sys.handle saturatingPred m := by rw [sysAfter, hmsg]
        have hdeed := System.handle_deed saturatingPred hO.seated (hen.msg hmsg)
        rw [← hafter] at hdeed
        cases hdeed with
        | idle hjobs _ => exact hsame (hjobs job)
        | cancelled id j' hj' hfiles _ =>
          by_cases heq : job = id
          · refine Or.inr (Or.inl ⟨{ j' with phase := .cancelled }, ?_, Or.inr rfl⟩)
            rw [hfiles, if_pos heq]
          · exact hsame (by rw [hfiles, if_neg heq]; rfl)
        | queued _ id _ hfresh _ _ _ hfiles _ =>
          refine hsame ?_
          rw [hfiles, if_neg]
          · rfl
          · rintro rfl
            exact (hen.freshId hmsg hfresh).not_cached hget
        | spawned w _ _ _ hfiles hworkers =>
          by_cases heq : job = w.job
          · have hmem : w ∈ (d.handle keys e).tasks.map Task.worker := by
              rw [workers_after hO hen, hworkers]
              exact List.mem_append_right _ (List.mem_singleton_self w)
            obtain ⟨t, ht, rfl⟩ := List.mem_map.mp hmem
            exact Or.inl ⟨t, ht, heq.symm⟩
          · exact hsame (by rw [hfiles, if_neg heq]; rfl)
        | reported w hw _ hfiles _ =>
          refine hsame ?_
          rw [hfiles, if_neg]
          · rfl
          · rintro rfl
            obtain ⟨t, ht, rfl⟩ := List.mem_map.mp hw
            exact hworking ⟨t, ht, rfl⟩
    · exact Or.inr (Or.inr (hstores hstored))

theorem Filed.handle (hF : d.Filed keys) (hO : d.InOrder) (hen : d.Enabled e) :
    (d.handle keys e).Filed keys := by
  have hplaced : ∀ id, id ∈ d.disk.placed → id ∈ (d.handle keys e).disk.placed :=
    fun id h => Disk.placed_writeAll h _
  -- an old task keeps its job, and the job is not new
  have hold : ∀ t ∈ d.tasks, ¬ FreshId d.coord t.job := fun t ht hfresh =>
    hO.manned.not_fresh (List.mem_map_of_mem ht) hfresh.1
  refine ⟨hF.disk.writeAll fun w hw => writes_fit hF hen hw, fun t ht id hdecodes => ?_,
    fun key job id hget howner => ?_, fun id job key hwaits hget => ?_, fun t ht key hget => ?_,
    fun t ht hout => ?_, fun key job hget => ?_⟩
  · -- decoding
    rcases handle_tasks hen ht with ht | ⟨t₀, rest, -, ht₀, rfl⟩ | ⟨-, hwork, ⟨new, hnew, hw⟩, -⟩
    · exact hplaced id (hF.decoding t ht id hdecodes)
    · exact hplaced id (hF.decoding t₀ ht₀ id hdecodes)
    · exact hplaced id (workOf_placed hF hen hwork hnew hw hdecodes)
  · -- cached
    rcases cache_after hen hget with hbefore | ⟨-, ⟨w, -, hnew⟩, work, hwork, rfl, -⟩
    · exact hplaced id (hF.cached key job id hbefore howner)
    · rw [Work.snapshotOf_key] at howner
      exact hplaced id (workOf_placed hF hen hwork hnew (List.mem_singleton_self w) howner)
  · -- apart
    rcases waits_after hO hen hwaits with hbefore | hfresh
    · rcases cache_after hen hget with hcached | ⟨hfresh, -⟩
      · exact hF.apart id job key hbefore hcached
      · exact hfresh.1.not_waits hbefore
    · rcases cache_after hen hget with hcached | ⟨-, -, work, hwork, -⟩
      · exact hfresh.1.not_cached hcached
      · rw [hfresh.2] at hwork
        cases hwork
  · -- keyed
    rcases handle_tasks hen ht with ht | ⟨t₀, rest, -, ht₀, rfl⟩ | ⟨-, hwork, ⟨new, hnew, hw⟩, -⟩
    · rcases cache_after hen hget with hbefore | ⟨hfresh, -⟩
      · exact hF.keyed t ht key hbefore
      · exact absurd hfresh (hold t ht)
    · rcases cache_after hen hget with hbefore | ⟨hfresh, -⟩
      · exact hF.keyed t₀ ht₀ key hbefore
      · exact absurd hfresh (hold t₀ ht₀)
    · rcases cache_after hen hget with hbefore | ⟨-, -, work, hwork', rfl, -⟩
      · rcases spawned_job hO hen hnew hw with hfresh | ⟨id, hwaits⟩
        · exact absurd hbefore hfresh.not_cached
        · exact absurd hbefore (hF.apart id _ key hwaits)
      · rw [Option.some.inj (hwork.symm.trans hwork')]
  · -- done
    rcases handle_tasks hen ht with ht | ⟨t₀, rest, rfl, ht₀, rfl⟩ | ⟨hnone, -⟩
    · refine stores_after hen (hF.done t ht hout) fun id howner => ?_
      rw [Work.snapshotOf_key] at howner
      exact hF.decoding t ht id howner
    · exact outcomeOf_stores (Option.some.inj hout) _ (by simp)
    · rw [hout] at hnone
      cases hnone
  · -- entry
    rcases cache_after hen hget with hbefore | ⟨-, ⟨w, rfl, hnew⟩, -⟩
    · exact entry_after hF hO hen hbefore
    · have hmem : w ∈ (d.handle keys e).tasks.map Task.worker := by
        rw [workers_after hO hen, hnew]
        exact List.mem_append_right _ (List.mem_singleton_self w)
      obtain ⟨t, ht, rfl⟩ := List.mem_map.mp hmem
      exact Or.inl ⟨t, ht, rfl⟩

end Daemon

end TraceMcp.Service
