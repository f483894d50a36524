import TraceMcp.Service.Daemon

/-!
# Snapshots in use

A prune looks for a queued or running job on the snapshot. A decode's record
names its snapshot, so the guard sees an unreported decode unless its job has
been cancelled: the worker goes on, and publishes under the directory that is
gone. A comparison's record names no snapshot, so the guard never sees one.
-/

namespace TraceMcp.Service

open TraceMcp.Lib Coord

/-- A worker's record names the snapshot and the analysis of a decode, and
nothing of a comparison. -/
def Task.Briefed (t : Task) : Prop :=
  t.worker.record.snapshotId = t.work.decodes ∧
    match t.work with
    | .decode _ analysis => t.worker.record.analysisId = some analysis
    | .compare .. => t.worker.record.analysisId = none

namespace Daemon

variable {keys : Keys} {d d' : Daemon} {e : Event}

/-! ## What a worker's record says of its work -/

/-- What a new worker's work is. -/
theorem spawned_briefed {work : Work} {new : List Worker} (hwork : workOf e = some work)
    (hnew : (d.sysAfter keys e).workers = d.sys.workers ++ new) :
    ∀ w ∈ new, Task.Briefed ⟨w, work, none⟩ := by
  unfold sysAfter at hnew
  cases e with
  | request m =>
    cases m with
    | published env t =>
      obtain rfl := Option.some.inj hwork
      have happend : d.sys.workers ++
          (d.coord.handlePublished saturatingPred env t.session t.snapshot).2 =
          d.sys.workers ++ new := hnew
      have heq := List.append_cancel_left happend
      rcases System.handlePublished_workers d.coord saturatingPred env t.session t.snapshot with
        hnil | ⟨job, hone⟩
      · rw [hnil] at heq
        exact fun w hw => absurd (heq ▸ hw) List.not_mem_nil
      · rw [hone] at heq
        intro w hw
        rw [← heq, List.mem_singleton] at hw
        rw [hw]
        exact ⟨rfl, rfl⟩
    | start | snapshot | cancel | prune | decode | compare | armed | failed | jobFinished =>
      cases hwork
  | decode job analysis req =>
    obtain rfl := Option.some.inj hwork
    dsimp only [Daemon.msg, System.handle] at hnew
    split at hnew
    next c' resp workers hdecode =>
      have heq := List.append_cancel_left hnew
      rcases (handleDecode_cases hdecode).2 with ⟨-, -, hnil⟩ | ⟨-, kind, -, record, hrecord, -, hone⟩
      · rw [hnil] at heq
        exact fun w hw => absurd (heq ▸ hw) List.not_mem_nil
      · rw [hone] at heq
        intro w hw
        rw [← heq, List.mem_singleton] at hw
        rw [hw, hrecord]
        exact ⟨rfl, rfl⟩
    next =>
      have hnil : [] = new := List.append_cancel_left ((List.append_nil _).trans hnew)
      exact fun w hw => absurd (hnil ▸ hw) List.not_mem_nil
  | compare job report req =>
    obtain rfl := Option.some.inj hwork
    dsimp only [Daemon.msg, System.handle] at hnew
    split at hnew
    next c' resp workers hcompare =>
      have heq := List.append_cancel_left hnew
      rcases handleCompare_cases hcompare with ⟨-, -, hnil⟩ | ⟨-, record, hrecord, -, hone⟩
      · rw [hnil] at heq
        exact fun w hw => absurd (heq ▸ hw) List.not_mem_nil
      · rw [hone] at heq
        intro w hw
        rw [← heq, List.mem_singleton] at hw
        rw [hw, hrecord]
        exact ⟨rfl, rfl⟩
    next =>
      have hnil : [] = new := List.append_cancel_left ((List.append_nil _).trans hnew)
      exact fun w hw => absurd (hnil ▸ hw) List.not_mem_nil
  | prune | captured | opened | worked | reported => cases hwork

/-- A task after an event was there, has just done its work, or is new. -/
theorem handle_tasks (hen : d.Enabled e) {t : Task} (ht : t ∈ (d.handle keys e).tasks) :
    t ∈ d.tasks ∨
      (∃ t₀ rest, e = .worked t₀ rest ∧ t₀ ∈ d.tasks ∧
        t = { t₀ with outcome := some (d.outcomeOf keys t₀ rest).2 }) ∨
      (t.outcome = none ∧ workOf e = some t.work ∧
        (∃ new, (d.sysAfter keys e).workers = d.sys.workers ++ new ∧ t.worker ∈ new) ∧
        t.Briefed) := by
  have hmem : t ∈ d.tasksAfter keys e := ht
  -- an event that may spawn
  have hspawn : (∀ t₀, e ≠ .reported t₀) →
      t ∈ d.tasks ++ (workOf e).toList.flatMap (fun work =>
        ((d.sysAfter keys e).workers.drop d.tasks.length).map fun w =>
          (⟨w, work, none⟩ : Task)) →
      t ∈ d.tasks ∨ (t.outcome = none ∧ workOf e = some t.work ∧
        (∃ new, (d.sysAfter keys e).workers = d.sys.workers ++ new ∧ t.worker ∈ new) ∧
        t.Briefed) := by
    intro hnot hmem
    rcases List.mem_append.mp hmem with hold | hnew
    · exact Or.inl hold
    · right
      obtain ⟨work, hwork, hnew⟩ := List.mem_flatMap.mp hnew
      obtain ⟨w, hw, rfl⟩ := List.mem_map.mp hnew
      have hwork : workOf e = some work := Option.mem_toList.mp hwork
      obtain ⟨new, happend⟩ := sysAfter_workers_append hen hnot
      have hlen : d.tasks.length = d.sys.workers.length := (List.length_map _).symm
      rw [happend, hlen, List.drop_left] at hw
      exact ⟨rfl, hwork, ⟨new, happend, hw⟩, spawned_briefed hwork happend w hw⟩
  cases e with
  | worked t₀ rest =>
    obtain ⟨t₁, ht₁, rfl⟩ := List.mem_map.mp hmem
    split
    next heq => exact Or.inr (Or.inl ⟨t₀, rest, rfl, hen.1, rfl⟩)
    next => exact Or.inl ht₁
  | reported t₀ => exact Or.inl (List.mem_of_mem_erase hmem)
  | request | prune | decode | compare | captured | opened =>
    rcases hspawn (fun t => nofun) hmem with hold | hnew
    · exact Or.inl hold
    · exact Or.inr (Or.inr hnew)

theorem Reachable.briefed (h : d.Reachable keys) : ∀ t ∈ d.tasks, t.Briefed := by
  refine (h.invariant (I := fun d => ∀ t ∈ d.tasks, t.Briefed) (J := fun _ => True) trivial
    (fun _ _ _ t ht => absurd ht List.not_mem_nil) (fun d e hO hen hI t ht => ?_)
    fun _ _ _ _ _ => trivial).2
  rcases handle_tasks hen ht with hold | ⟨t₀, rest, -, ht₀, rfl⟩ | ⟨-, -, -, hbriefed⟩
  · exact hI t hold
  · exact hI t₀ ht₀
  · exact hbriefed

/-! ## What a prune removes -/

/-- The prune guard reads the job and session tables only. -/
theorem pruneObstacle_congr {c c' : Coord} (hjobs : c'.jobs = c.jobs)
    (hsessions : c'.sessions = c.sessions) (id : SnapshotId) :
    c'.pruneObstacle id = c.pruneObstacle id := by
  rw [pruneObstacle, pruneObstacle, hjobs, hsessions]

/-- A prune of the snapshot goes through. -/
def Removable (d : Daemon) (removable : SnapshotId → Result Unit) (id : SnapshotId) : Prop :=
  d.coord.pruneObstacle id = none ∧ (d.disk.snapshots.get id).isSome ∧ removable id = .ok ()

/-- One requested snapshot, with the tables as they were. -/
theorem pruneOne_removed (size : SnapshotId → Nat) (removable : SnapshotId → Result Unit)
    {c : Coord} (removed : List (SnapshotId × Nat)) (skipped : List (SnapshotId × String))
    (id' : SnapshotId) (hjobs : c.jobs = d.coord.jobs) (hsessions : c.sessions = d.coord.sessions) :
    ∃ c' removed' skipped', pruneOne (d.disk.pruneEnv size removable) (c, removed, skipped) id' =
        (c', removed', skipped') ∧ c'.jobs = d.coord.jobs ∧ c'.sessions = d.coord.sessions ∧
      ∀ id, id ∈ removed'.map Prod.fst ↔
        id ∈ removed.map Prod.fst ∨ (id = id' ∧ d.Removable removable id) := by
  have hguard : c.pruneObstacle id' = d.coord.pruneObstacle id' :=
    pruneObstacle_congr hjobs hsessions id'
  -- a snapshot that is skipped was removed before, or cannot be
  have hskip : (id' ∈ removed.map Prod.fst ∨ ¬ d.Removable removable id') → ∀ id,
      (id ∈ removed.map Prod.fst ↔
        id ∈ removed.map Prod.fst ∨ (id = id' ∧ d.Removable removable id)) := by
    intro hnot id
    refine ⟨Or.inl, fun h => ?_⟩
    rcases h with hold | ⟨rfl, hrem⟩
    · exact hold
    · exact hnot.resolve_right (not_not_intro hrem)
  unfold pruneOne
  dsimp only
  rw [hguard]
  split
  next reason hobstacle =>
    refine ⟨c, removed, _, rfl, hjobs, hsessions, hskip (Or.inr fun hrem => ?_)⟩
    rw [hrem.1] at hobstacle
    cases hobstacle
  next hobstacle =>
    by_cases hthere : (d.disk.snapshots.get id').isSome ∧ id' ∉ removed.map Prod.fst
    · simp only [Disk.pruneEnv, if_pos hthere]
      cases hrem : removable id' with
      | ok =>
        refine ⟨_, _, _, rfl, hjobs, hsessions, fun id => ?_⟩
        rw [List.map_append, List.mem_append]
        refine or_congr_right ?_
        rw [List.map_singleton, List.mem_singleton]
        refine ⟨fun heq => ⟨heq, ?_⟩, fun h => h.1⟩
        rw [heq]
        exact ⟨hobstacle, hthere.1, hrem⟩
      | error err =>
        refine ⟨c, removed, _, rfl, hjobs, hsessions, hskip (Or.inr fun h => ?_)⟩
        rw [h.2.2] at hrem
        cases hrem
    · simp only [Disk.pruneEnv, if_neg hthere]
      refine ⟨c, removed, _, rfl, hjobs, hsessions, hskip ?_⟩
      by_cases hgone : id' ∈ removed.map Prod.fst
      · exact Or.inl hgone
      · exact Or.inr fun h => hthere ⟨h.2.1, hgone⟩

theorem mem_removed_iff {size : SnapshotId → Nat} {removable : SnapshotId → Result Unit}
    {req : PruneRequest} {id : SnapshotId} :
    id ∈ d.removed size removable req ↔
      req.listOnly = false ∧ id ∈ req.snapshotIds ∧ d.Removable removable id := by
  -- over the requested ids, from any accumulator with these tables
  have hfold : ∀ (ids : List SnapshotId) (c : Coord) (removed : List (SnapshotId × Nat))
      (skipped : List (SnapshotId × String)), c.jobs = d.coord.jobs →
      c.sessions = d.coord.sessions →
      (id ∈ (ids.foldl (pruneOne (d.disk.pruneEnv size removable)) (c, removed, skipped)).2.1.map
          Prod.fst ↔ id ∈ removed.map Prod.fst ∨ (id ∈ ids ∧ d.Removable removable id)) := by
    intro ids
    induction ids with
    | nil => simp
    | cons id' ids ih =>
      intro c removed skipped hjobs hsessions
      obtain ⟨c', removed', skipped', hone, hjobs', hsessions', hmem⟩ :=
        pruneOne_removed size removable removed skipped id' hjobs hsessions
      rw [List.foldl_cons, hone, ih c' removed' skipped' hjobs' hsessions', hmem, List.mem_cons]
      tauto
  unfold Daemon.removed
  cases hlist : req.listOnly with
  | true => simp
  | false => simp [hfold req.snapshotIds d.coord [] [] rfl rfl]

/-! ## What a removal takes away -/

/-- The event is this worker's own doing. -/
def Event.by (e : Event) (t : Task) : Prop := e = .opened t ∨ ∃ rest, e = .worked t rest

/-- The write creates something under the snapshot's directory. -/
def Write.creates : Write → SnapshotId → Prop
  | .capture id, id' | .touch id, id' | .publish id _, id' => id = id'
  | .session _, _ | .job _, _ | .remove _, _ | .report _, _ => False

/-- A worker creates files of the snapshot it decodes only. -/
theorem uses_of_creates {s : System} {t : Task} {w : Write} {id : SnapshotId} (hby : Event.by e t)
    (hw : w ∈ d.writes keys s e) (hcreates : Write.creates w id) : t.work.uses id := by
  rcases hby with rfl | ⟨rest, rfl⟩
  · obtain ⟨id', hid', rfl⟩ := Option.map_eq_some_iff.mp (Option.mem_toList.mp hw)
    obtain rfl : id' = id := hcreates
    obtain ⟨worker, work, outcome⟩ := t
    cases work with
    | decode req analysis => exact Option.some.inj hid'
    | compare => cases hid'
  · obtain ⟨worker, work, outcome⟩ := t
    rcases List.mem_append.mp hw with hw | hw
    · cases work with
      | decode req analysis =>
        cases rest with
        | ok modified =>
          obtain rfl := List.mem_singleton.mp hw
          exact hcreates
        | error => exact absurd hw List.not_mem_nil
      | compare req report =>
        dsimp only [outcomeOf] at hw
        split at hw
        next =>
          obtain rfl := List.mem_singleton.mp hw
          exact hcreates.elim
        next => exact absurd hw List.not_mem_nil
    · obtain rfl := List.mem_singleton.mp hw
      exact hcreates.elim

/-- What a prune removes is not in use by any unreported worker, and none of
them creates files under it afterwards. -/
def SafeRemoval (keys : Keys) (d : Daemon) (size : SnapshotId → Nat)
    (removable : SnapshotId → Result Unit) (req : PruneRequest) : Prop :=
  ∀ id ∈ d.removed size removable req,
    (∀ t ∈ d.tasks, ¬ t.work.uses id) ∧
    ∀ d', Serves keys (d.handle keys (.prune size removable req)) d' → ∀ t ∈ d.tasks, ∀ e,
      d'.Enabled e → Event.by e t → ∀ w ∈ d'.writes keys (d'.sysAfter keys e) e,
        ¬ Write.creates w id

/-- No comparison of the snapshot is unreported, and no unreported decode of
it has had its job cancelled. -/
def Unclaimed (d : Daemon) (id : SnapshotId) : Prop :=
  ∀ t ∈ d.tasks, match t.work with
    | .decode req _ =>
      req.snapshotId = id → (d.coord.jobs.get t.job).map (·.phase) ≠ some .cancelled
    | .compare req _ => req.baseline.snapshotId ≠ id ∧ req.candidate.snapshotId ≠ id

theorem unclaimed_of_unused {id : SnapshotId} (h : ∀ t ∈ d.tasks, ¬ t.work.uses id) :
    d.Unclaimed id := by
  intro t ht
  have hunused := h t ht
  obtain ⟨worker, work, outcome⟩ := t
  cases work with
  | decode req analysis => exact fun hdecodes => absurd hdecodes hunused
  | compare req report => exact not_or.mp hunused

/-- An unreported decode whose job has not been cancelled is in the way. -/
theorem decode_obstacle (hO : d.InOrder) {t : Task} (ht : t ∈ d.tasks) (hbriefed : t.Briefed)
    {id : SnapshotId} (hdecodes : t.work.decodes = some id)
    (hphase : (d.coord.jobs.get t.job).map (·.phase) ≠ some .cancelled) :
    d.coord.pruneObstacle id ≠ none := by
  obtain ⟨phase, hlive, hjob⟩ := hO.manned.known t.worker (List.mem_map_of_mem ht)
  have hjob : d.coord.jobs.get t.job = some { t.worker.record with phase := phase } := hjob
  have hbusy : (d.coord.jobs.values.any fun j =>
      j.snapshotId = some id && (j.phase = .queued || j.phase = .running)) = true := by
    refine List.any_eq_true.mpr ⟨_, FastMap.mem_values.mpr ⟨t.job, hjob⟩, ?_⟩
    rw [hjob] at hphase
    rcases hlive with rfl | rfl | rfl
    · simp [hbriefed.1, hdecodes]
    · simp [hbriefed.1, hdecodes]
    · exact absurd rfl hphase
  rw [pruneObstacle, if_pos hbusy]
  exact Option.some_ne_none _

/-- In every reachable state, a prune is safe exactly when the snapshots it can
remove are unclaimed. -/
theorem safeRemoval_iff (h : d.Reachable keys) (size : SnapshotId → Nat)
    (removable : SnapshotId → Result Unit) (req : PruneRequest) :
    d.SafeRemoval keys size removable req ↔
      (req.listOnly = false → ∀ id ∈ req.snapshotIds, d.Removable removable id → d.Unclaimed id) := by
  constructor
  · intro hsafe hlist id hid hrem
    exact unclaimed_of_unused (hsafe id (mem_removed_iff.mpr ⟨hlist, hid, hrem⟩)).1
  · intro hclaim id hid
    obtain ⟨hlist, hmem, hrem⟩ := mem_removed_iff.mp hid
    have hunused : ∀ t ∈ d.tasks, ¬ t.work.uses id := by
      intro t ht huses
      have hun := hclaim hlist id hmem hrem t ht
      have hbriefed := h.briefed t ht
      cases hwork : t.work with
      | decode req' analysis =>
        rw [hwork] at hun huses
        refine decode_obstacle h.inOrder ht hbriefed ?_ (hun huses) hrem.1
        rw [hwork]
        exact congrArg some huses
      | compare req' report =>
        rw [hwork] at hun huses
        rcases huses with hbase | hcand
        · exact hun.1 hbase
        · exact hun.2 hcand
    exact ⟨hunused, fun d' _ t ht e _ hby w hw hcreates =>
      hunused t ht (uses_of_creates hby hw hcreates)⟩

/-! ### Runs -/

open TraceMcp.Service.System

/-- A snapshot `a` is taken, and its first decode starts. -/
def takenRun : List Event :=
  [.request (startOf "a"), .request (.armed (captureOf "a" false)), .captured (captureOf "a" true),
    .request (publishOf "a" true)]

/-- The worker of that decode. -/
def firstTask : Task := ⟨decodeOf "a" "a", .decode ⟨⟨"a"⟩, .calls false⟩ ⟨"a"⟩, none⟩

/-- The decode is done, and `a` is compared with itself. -/
def comparedRun : List Event :=
  takenRun ++ [.worked firstTask (.ok 7), .reported { firstTask with outcome := some (.ok ()) },
    .compare ⟨"c"⟩ ⟨"r"⟩ ⟨⟨⟨"a"⟩, none⟩, ⟨⟨"a"⟩, none⟩, ""⟩]

/-- The decode is cancelled while its worker runs. -/
def abandonedRun : List Event := takenRun ++ [.request (.cancel (.job ⟨"a"⟩))]

/-- A request to prune `a`. -/
def pruneA : PruneRequest := ⟨[⟨"a"⟩], false⟩

/-- The decode of `a` is done, and that of `b` is running. -/
def settledRun : List Event :=
  takenRun ++ [.worked firstTask (.ok 7), .reported { firstTask with outcome := some (.ok ()) },
    .request (startOf "b"), .request (.armed (captureOf "b" false)), .captured (captureOf "b" true),
    .request (publishOf "b" true)]

/-- `a` is removed, which nothing uses. -/
theorem safeRemoval_settledRun :
    let d := settledRun.foldl (handle .plain) (start .default .empty)
    d.SafeRemoval .plain (fun _ => 0) (fun _ => .ok ()) pruneA ∧
      ⟨"a"⟩ ∈ d.removed (fun _ => 0) (fun _ => .ok ()) pruneA ∧ d.tasks.length = 1 := by
  intro d
  have hreplays : Replays .plain (start .default .empty) settledRun := by decide +kernel
  have hunused : ∀ t ∈ d.tasks, ¬ t.work.uses ⟨"a"⟩ := by decide +kernel
  refine ⟨(safeRemoval_iff hreplays.reachable _ _ _).mpr fun _ id hid _ => ?_, ?_, ?_⟩
  · obtain rfl := List.mem_singleton.mp hid
    exact unclaimed_of_unused hunused
  · decide +kernel
  · decide +kernel

/-- A snapshot is removed while it is compared, and another while it is
decoded by a worker whose job was cancelled. -/
theorem prune_removesUsed :
    let d₁ := comparedRun.foldl (handle .plain) (start .default .empty)
    let d₂ := abandonedRun.foldl (handle .plain) (start .default .empty)
    (d₁.Reachable .plain ∧ ¬ d₁.SafeRemoval .plain (fun _ => 0) (fun _ => .ok ()) pruneA) ∧
      (d₂.Reachable .plain ∧ ¬ d₂.SafeRemoval .plain (fun _ => 0) (fun _ => .ok ()) pruneA) := by
  intro d₁ d₂
  have hcompared : Replays .plain (start .default .empty) comparedRun := by decide +kernel
  have habandoned : Replays .plain (start .default .empty) abandonedRun := by decide +kernel
  refine ⟨⟨hcompared.reachable, fun hsafe => ?_⟩, ⟨habandoned.reachable, fun hsafe => ?_⟩⟩
  · have hremoved : (⟨"a"⟩ : SnapshotId) ∈ d₁.removed (fun _ => 0) (fun _ => .ok ()) pruneA := by
      decide +kernel
    have hused : ∃ t ∈ d₁.tasks, t.work.uses ⟨"a"⟩ := by decide +kernel
    obtain ⟨t, ht, huses⟩ := hused
    exact (hsafe ⟨"a"⟩ hremoved).1 t ht huses
  · have hremoved : (⟨"a"⟩ : SnapshotId) ∈ d₂.removed (fun _ => 0) (fun _ => .ok ()) pruneA := by
      decide +kernel
    have hused : ∃ t ∈ d₂.tasks, t.work.uses ⟨"a"⟩ := by decide +kernel
    obtain ⟨t, ht, huses⟩ := hused
    exact (hsafe ⟨"a"⟩ hremoved).1 t ht huses

end Daemon

end TraceMcp.Service
