import TraceMcp.Service.Filing

/-!
# Answers from the cache

A request is answered from the store, or from the job its key maps to. Nothing
takes an entry of the map out when its job fails or is cancelled, and the entry
of a comparison stays when one of the snapshots gets another default analysis.
`answers_sound_iff` says when an answer can be relied on all the same.
-/

namespace TraceMcp.Service

open TraceMcp.Lib Coord

variable {keys : Keys} {disk : Disk}

/-! ## After a start -/

namespace Disk

/-- The entries a start makes are for results that are on disk. -/
theorem Kept.entries (h : disk.Kept keys) {jobs : List JobRecord} {key : String} {job : JobId}
    (hmem : (key, job) ∈ disk.cacheEntries jobs) :
    disk.Stores keys key job ∧ ∀ id, keys.snapshotOf key = some id → id ∈ disk.placed := by
  unfold Stores
  rcases List.mem_append.mp hmem with hmem | hmem
  · obtain ⟨dir, hdir, hmem⟩ := List.mem_flatMap.mp hmem
    obtain ⟨m, hm, hentry⟩ := List.mem_filterMap.mp hmem
    obtain ⟨j, -, hentry⟩ := Option.map_eq_some_iff.mp hentry
    obtain ⟨rfl, -⟩ := Prod.mk.inj hentry
    obtain ⟨id, hid⟩ := FastMap.mem_values.mp hdir
    have hm : m ∈ (disk.dir id).derived := by
      rw [Disk.dir, hid]
      exact hm
    obtain ⟨howner, hplaced⟩ := h.derived id m hm
    rw [howner]
    refine ⟨fun _ => ⟨m, hm, rfl⟩, fun id' hid' => ?_⟩
    obtain rfl := Option.some.inj hid'
    exact hplaced
  · obtain ⟨r, hr, hentry⟩ := List.mem_map.mp hmem
    obtain ⟨rfl, rfl⟩ := Prod.mk.inj hentry
    obtain ⟨req, hkey, -⟩ := h.reports r hr
    have howner : keys.snapshotOf r.cacheKey = none := hkey ▸ keys.snapshotOf_compare req
    rw [howner]
    exact ⟨⟨r, hr, rfl, rfl⟩, fun id hid => by cases hid⟩

/-- A start makes no other entries. -/
theorem load_cacheJobs (limits : Limits) {key : String} {job : JobId}
    (hget : (disk.load limits).cacheJobs.get key = some job) :
    (key, job) ∈ disk.cacheEntries disk.jobs.values := by
  have hsessions : (disk.sessions.values.foldl loadSession (Coord.empty limits)).cacheJobs = ∅ :=
    List.foldlRecOn (motive := fun c : Coord => c.cacheJobs = ∅) _ _ rfl fun c h v _ => by
      unfold loadSession
      split <;> exact h
  have hjobs : (disk.jobs.values.foldl setJob
      (disk.sessions.values.foldl loadSession (Coord.empty limits))).cacheJobs = ∅ :=
    List.foldlRecOn (motive := fun c : Coord => c.cacheJobs = ∅) _ _ hsessions fun _ h _ _ => h
  unfold Disk.load loadPersisted at hget
  dsimp only at hget
  refine List.foldlRecOn (motive := fun c : Coord => c.cacheJobs.get key = some job →
    (key, job) ∈ disk.cacheEntries disk.jobs.values) _ _ (fun h => ?_) (fun c ih entry hmem h => ?_) hget
  · rw [hjobs] at h
    cases h
  · have h : FastMap.get (c.cacheJobs.insert entry.1 entry.2) key = some job := h
    rw [FastMap.get_insert] at h
    split at h
    next heq =>
      obtain rfl := Option.some.inj h
      rw [heq]
      exact hmem
    next => exact ih h

end Disk

namespace Daemon

variable {d : Daemon}

theorem Filed.start (limits : Limits) (hdisk : disk.Kept keys) :
    (start limits disk).Filed keys := by
  -- the session files that are written again change nothing else
  have hwrites : ∀ w ∈ ((disk.load limits).sessions.values.map fun s => Write.session s.stored),
      disk.Fits keys w ∧ ∀ id, Write.capture id ≠ w := by
    intro w hw
    obtain ⟨s, -, rfl⟩ := List.mem_map.mp hw
    exact ⟨trivial, fun id => nofun⟩
  have hentries : ∀ key job, (Daemon.start limits disk).coord.cacheJobs.get key = some job →
      disk.Stores keys key job ∧ ∀ id, keys.snapshotOf key = some id → id ∈ disk.placed :=
    fun key job hget => hdisk.entries (Disk.load_cacheJobs limits hget)
  refine ⟨hdisk.writeAll fun w hw => (hwrites w hw).1, fun t ht => ?_, fun key job id hget howner => ?_,
    fun id job key hwaits => ?_, fun t ht => ?_, fun t ht => ?_, fun key job hget => ?_⟩
  · exact absurd ht List.not_mem_nil
  · exact Disk.placed_writeAll ((hentries key job hget).2 id howner) _
  · obtain ⟨⟨t, ht, -⟩, -⟩ := hwaits
    exact absurd ht List.not_mem_nil
  · exact absurd ht List.not_mem_nil
  · exact absurd ht List.not_mem_nil
  · refine Or.inr (Or.inr ((hentries key job hget).1.writeAll fun id _ hcapture => ?_))
    exact (hwrites _ hcapture).2 id rfl

/-- Cached jobs, workers and results belong together in every state. -/
theorem Reachable.filed (h : d.Reachable keys) : d.Filed keys := by
  have hempty : Disk.Kept keys .empty :=
    ⟨fun id hm => (by cases hm), fun id m hm => absurd hm List.not_mem_nil,
      fun r hr => absurd hr List.not_mem_nil⟩
  refine (h.invariant hempty (fun limits disk hdisk => Filed.start limits hdisk)
    (fun d e hO hen hF => hF.handle hO hen) fun d disk hO hF hstop => ?_).2
  rcases hstop with rfl | ⟨e, n, hen, rfl⟩
  · exact hF.disk
  · exact hF.disk.writeAll fun w hw => writes_fit hF hen (List.mem_of_mem_take hw)

/-! ## What an answer refers to -/

/-- The job is waiting or running, and so is its worker. -/
def Underway (d : Daemon) (job : JobId) : Prop :=
  (∃ j, d.coord.jobs.get job = some j ∧ (j.phase = .queued ∨ j.phase = .running)) ∧
    ∃ t ∈ d.tasks, t.job = job ∧ t.outcome = none

/-- An analysis of what a decode asks for is published under the id it is
answered with, or the job it is answered with is underway. -/
def DecodeRefers (keys : Keys) (d : Daemon) (req : DecodeRequest) (resp : DecodeResponse) : Prop :=
  (∃ m ∈ (d.disk.dir req.snapshotId).derived,
    m.cacheKey = keys.decode req.snapshotId req.detail ∧ m.analysisId = resp.analysisId) ∨
  ∃ job, resp.jobId = some job ∧ d.Underway job

/-- The job a comparison is answered with has reported or is underway, and what
it has reported is computed from the analyses the request selects now. -/
def CompareRefers (keys : Keys) (d : Daemon) (req : CompareRequest) (job : JobId) : Prop :=
  ((∃ r ∈ d.disk.reports, r.cacheKey = keys.compare req ∧ r.jobId = job) ∨ d.Underway job) ∧
  ∀ r ∈ d.disk.reports, r.cacheKey = keys.compare req → r.jobId = job →
    d.disk.analysisOf req.baseline = some r.baseline ∧
      d.disk.analysisOf req.candidate = some r.candidate

/-- The job has not failed and was not cancelled, nor has its worker failed
without having reported yet. -/
def Unfailed (d : Daemon) (job : JobId) : Prop :=
  (∀ j, d.coord.jobs.get job = some j → j.phase ≠ .failed ∧ j.phase ≠ .cancelled) ∧
    ∀ t ∈ d.tasks, t.job = job → ∀ err, t.outcome ≠ some (.error err)

/-- A side that leaves the analysis open has this one as its default. -/
def Default (disk : Disk) (side : CompareSide) (id : AnalysisId) : Prop :=
  side.analysisId = none → disk.findCallsAnalysis side.snapshotId = some id

/-- A cached job whose result is not on disk is underway unless it failed. -/
theorem Filed.underway_iff (hF : d.Filed keys) (hO : d.InOrder) {key : String} {job : JobId}
    (hget : d.coord.cacheJobs.get key = some job) (hnot : ¬ d.disk.Stores keys key job) :
    d.Underway job ↔ d.Unfailed job := by
  constructor
  · intro hunderway
    obtain ⟨⟨j, hj, hphase⟩, t, ht, rfl, hout⟩ := hunderway
    refine ⟨fun j' hj' => ?_, fun t' ht' hjob err hfailed => ?_⟩
    · obtain rfl := Option.some.inj (hj.symm.trans hj')
      rcases hphase with hphase | hphase <;> rw [hphase] <;> exact ⟨nofun, nofun⟩
    · -- no two workers share a job
      have hnodup : (d.tasks.map Task.job).Nodup := by
        have h := hO.manned.distinct
        rwa [show d.sys.workers.map Worker.job = d.tasks.map Task.job from List.map_map] at h
      obtain rfl := List.inj_on_of_nodup_map hnodup ht' ht hjob
      rw [hout] at hfailed
      cases hfailed
  · intro hunfailed
    rcases hF.entry key job hget with ⟨t, ht, rfl⟩ | ⟨j, hj, hover⟩ | hstored
    · obtain ⟨phase, hphase, hj⟩ := hO.manned.known t.worker (List.mem_map_of_mem ht)
      have hj : d.coord.jobs.get t.job = some { t.worker.record with phase := phase } := hj
      refine ⟨⟨_, hj, ?_⟩, t, ht, rfl, ?_⟩
      · rcases hphase with rfl | rfl | rfl
        · exact Or.inl rfl
        · exact Or.inr rfl
        · exact absurd rfl (hunfailed.1 _ hj).2
      · cases hout : t.outcome with
        | none => rfl
        | some outcome =>
          cases outcome with
          | ok =>
            obtain rfl := hF.keyed t ht key hget
            exact absurd (hF.done t ht hout) hnot
          | error err => exact absurd hout (hunfailed.2 t ht rfl err)
    · rcases hover with hover | hover
      · exact absurd hover (hunfailed.1 j hj).1
      · exact absurd hover (hunfailed.1 j hj).2
    · exact absurd hstored hnot

theorem decodeRefers_iff (hF : d.Filed keys) (hO : d.InOrder) {job : JobId} {analysis : AnalysisId}
    {req : DecodeRequest} {c' : Coord} {resp : DecodeResponse}
    (h : d.coord.handleDecode (d.decodeEnv keys job analysis req) req = .ok (c', resp, [])) :
    d.DecodeRefers keys req resp ↔
      (d.disk.findAnalysisByKey req.snapshotId (keys.decode req.snapshotId req.detail) = none →
        ∀ jid, d.coord.cacheJobs.get (keys.decode req.snapshotId req.detail) = some jid →
          d.Unfailed jid) := by
  obtain ⟨hload, ⟨hcached, -, -⟩ | ⟨-, kind, -, record, -, -, hworkers⟩⟩ := handleDecode_cases h
  · unfold cachedDecode at hcached
    split at hcached
    next aid producer hstored =>
      -- answered from the store
      have hstored : d.disk.findAnalysisByKey req.snapshotId
          (keys.decode req.snapshotId req.detail) = some (aid, producer) := hstored
      obtain rfl := Option.some.inj hcached
      refine ⟨fun _ hnone => absurd (hstored.symm.trans hnone) (Option.some_ne_none _),
        fun _ => Or.inl ?_⟩
      obtain ⟨m, hfind, hm⟩ := Option.map_eq_some_iff.mp hstored
      have hkey := List.find?_some hfind
      exact ⟨m, List.mem_of_find?_eq_some hfind, of_decide_eq_true hkey, (Prod.mk.inj hm).1⟩
    next hnone =>
      have hnone : d.disk.findAnalysisByKey req.snapshotId
          (keys.decode req.snapshotId req.detail) = none := hnone
      have hnot : ∀ m ∈ (d.disk.dir req.snapshotId).derived,
          m.cacheKey ≠ keys.decode req.snapshotId req.detail := by
        intro m hm heq
        have hmiss := List.find?_eq_none.mp (Option.map_eq_none_iff.mp hnone) m hm
        exact hmiss (decide_eq_true heq)
      split at hcached
      next jid j hhit =>
        -- answered with the job of the entry
        obtain ⟨jid', hget, hj⟩ := Option.bind_eq_some_iff.mp hhit
        obtain ⟨j', -, heq⟩ := Option.map_eq_some_iff.mp hj
        obtain ⟨rfl, -⟩ := Prod.mk.inj heq
        have hget : d.coord.cacheJobs.get (keys.decode req.snapshotId req.detail) = some jid' := hget
        have hresp : resp.jobId = some jid' := by
          obtain rfl := Option.some.inj hcached
          split <;> rfl
        have hunstored : ¬ d.disk.Stores keys (keys.decode req.snapshotId req.detail) jid' := by
          intro hstores
          unfold Disk.Stores at hstores
          rw [keys.snapshotOf_decode] at hstores
          have hmanifest : (d.disk.dir req.snapshotId).manifest = true := by
            by_contra hno
            have hload : d.disk.loadManifest req.snapshotId = .ok () := hload
            rw [Disk.loadManifest, if_neg hno] at hload
            cases hload
          obtain ⟨m, hm, hkey⟩ := hstores hmanifest
          exact hnot m hm hkey
        have hunderway := hF.underway_iff hO hget hunstored
        constructor
        · intro hrefers _ jid hjid
          obtain rfl := Option.some.inj (hget.symm.trans hjid)
          rcases hrefers with ⟨m, hm, hkey, -⟩ | ⟨job, hjob, hwork⟩
          · exact absurd hkey (hnot m hm)
          · obtain rfl := Option.some.inj (hresp.symm.trans hjob)
            exact hunderway.mp hwork
        · intro hstands
          exact Or.inr ⟨jid', hresp, hunderway.mpr (hstands hnone jid' hget)⟩
      next => cases hcached
  · cases hworkers

theorem compareRefers_iff (hF : d.Filed keys) (hO : d.InOrder) {job jid : JobId} {report : ReportId}
    {req : CompareRequest} {c' : Coord}
    (h : d.coord.handleCompare ⟨keys.compare req, job, report⟩ = .ok (c', jid, [])) :
    d.CompareRefers keys req jid ↔
      (∀ r ∈ d.disk.reports, r.cacheKey = keys.compare req → r.jobId = jid →
        Default d.disk req.baseline r.baseline ∧ Default d.disk req.candidate r.candidate) ∧
      ((∃ r ∈ d.disk.reports, r.cacheKey = keys.compare req ∧ r.jobId = jid) ∨ d.Unfailed jid) := by
  rcases handleCompare_cases h with ⟨hget, -, -⟩ | ⟨-, record, -, -, hworkers⟩
  · have hget : d.coord.cacheJobs.get (keys.compare req) = some jid := hget
    have hstores : d.disk.Stores keys (keys.compare req) jid ↔
        ∃ r ∈ d.disk.reports, r.cacheKey = keys.compare req ∧ r.jobId = jid := by
      unfold Disk.Stores
      rw [keys.snapshotOf_compare]
    have hside : ∀ (side : CompareSide) (id : AnalysisId),
        (∀ id', side.analysisId = some id' → id = id') →
          (d.disk.analysisOf side = some id ↔ Default d.disk side id) := by
      intro side id hnamed
      unfold Disk.analysisOf Default
      cases hopen : side.analysisId with
      | none => simp
      | some id' => simp [hnamed id' hopen]
    -- a report under this key is about this request
    have hcurrent : ∀ r ∈ d.disk.reports, r.cacheKey = keys.compare req →
        ((d.disk.analysisOf req.baseline = some r.baseline ∧
          d.disk.analysisOf req.candidate = some r.candidate) ↔
        (Default d.disk req.baseline r.baseline ∧ Default d.disk req.candidate r.candidate)) := by
      intro r hr hkey
      obtain ⟨req', hkey', hanswers⟩ := hF.disk.reports r hr
      obtain rfl := keys.compare_injective (hkey.symm.trans hkey')
      rw [hside _ _ hanswers.1, hside _ _ hanswers.2]
    unfold CompareRefers
    rw [and_comm]
    refine and_congr ?_ ?_
    · exact forall₂_congr fun r hr => forall_congr' fun hkey =>
        forall_congr' fun _ => hcurrent r hr hkey
    · by_cases hreported : ∃ r ∈ d.disk.reports, r.cacheKey = keys.compare req ∧ r.jobId = jid
      · exact ⟨fun _ => Or.inl hreported, fun _ => Or.inl hreported⟩
      · rw [hF.underway_iff hO hget (mt hstores.mp hreported)]
  · cases hworkers

/-- In every reachable state: an answer without a new job can be relied on
exactly when nothing of what it rests on has failed, been cancelled or been
replaced as a default. -/
theorem answers_sound_iff (h : d.Reachable keys) :
    (∀ job analysis req c' resp,
      d.coord.handleDecode (d.decodeEnv keys job analysis req) req = .ok (c', resp, []) →
        (d.DecodeRefers keys req resp ↔
          (d.disk.findAnalysisByKey req.snapshotId (keys.decode req.snapshotId req.detail) = none →
            ∀ jid, d.coord.cacheJobs.get (keys.decode req.snapshotId req.detail) = some jid →
              d.Unfailed jid))) ∧
    (∀ job report req c' jid,
      d.coord.handleCompare ⟨keys.compare req, job, report⟩ = .ok (c', jid, []) →
        (d.CompareRefers keys req jid ↔
          (∀ r ∈ d.disk.reports, r.cacheKey = keys.compare req → r.jobId = jid →
            Default d.disk req.baseline r.baseline ∧ Default d.disk req.candidate r.candidate) ∧
          ((∃ r ∈ d.disk.reports, r.cacheKey = keys.compare req ∧ r.jobId = jid) ∨
            d.Unfailed jid))) :=
  ⟨fun _ _ _ _ _ hdecode => decodeRefers_iff h.filed h.inOrder hdecode,
    fun _ _ _ _ _ hcompare => compareRefers_iff h.filed h.inOrder hcompare⟩

/-! ### Runs -/

open TraceMcp.Service.System

/-- A decode that spawns nobody has been answered. -/
theorem decode_answered {c : Coord} {env : DecodeEnv} {req : DecodeRequest}
    (h : ((c.handleDecode env req).toOption.map fun x => x.2.2) = some []) :
    ∃ c' resp, c.handleDecode env req = .ok (c', resp, []) := by
  cases hanswer : c.handleDecode env req with
  | error err =>
    rw [hanswer] at h
    cases h
  | ok x =>
    obtain ⟨c', resp, workers⟩ := x
    rw [hanswer] at h
    obtain rfl : workers = [] := Option.some.inj h
    exact ⟨c', resp, rfl⟩

/-- The comparison of `a` with itself. -/
def selfCompare : CompareRequest := ⟨⟨⟨"a"⟩, none⟩, ⟨⟨"a"⟩, none⟩, ""⟩

/-- Its worker. -/
def compareTask : Task :=
  ⟨⟨⟨⟨"c"⟩, .compare, .queued, none, none, some ⟨"r"⟩, none⟩, false, true⟩, .compare selfCompare ⟨"r"⟩,
    none⟩

/-- The comparison has reported. -/
def reportedRun : List Event :=
  comparedRun ++ [.worked compareTask (.ok 0), .reported { compareTask with outcome := some (.ok ()) }]

theorem answers_sound_reportedRun :
    let d := reportedRun.foldl (handle .plain) (start .default .empty)
    (∃ c' resp, d.coord.handleDecode (d.decodeEnv .plain ⟨"x"⟩ ⟨"x"⟩ ⟨⟨"a"⟩, .calls false⟩)
        ⟨⟨"a"⟩, .calls false⟩ = .ok (c', resp, []) ∧
      d.DecodeRefers .plain ⟨⟨"a"⟩, .calls false⟩ resp) ∧
    ∃ c', d.coord.handleCompare ⟨Keys.plain.compare selfCompare, ⟨"x"⟩, ⟨"x"⟩⟩ =
        .ok (c', ⟨"c"⟩, []) ∧
      d.CompareRefers .plain selfCompare ⟨"c"⟩ := by
  intro d
  have hreplays : Replays .plain (start .default .empty) reportedRun := by decide +kernel
  have hsound := answers_sound_iff hreplays.reachable
  constructor
  · have hdecode : ((d.coord.handleDecode (d.decodeEnv .plain ⟨"x"⟩ ⟨"x"⟩ ⟨⟨"a"⟩, .calls false⟩)
        ⟨⟨"a"⟩, .calls false⟩).toOption.map fun x => x.2.2) = some [] := by
      decide +kernel
    have hstored : (d.disk.findAnalysisByKey ⟨"a"⟩ (Keys.plain.decode ⟨"a"⟩ (.calls false))).isSome := by
      decide +kernel
    obtain ⟨c', resp, hanswer⟩ := decode_answered hdecode
    refine ⟨c', resp, hanswer, (hsound.1 _ _ _ _ _ hanswer).mpr fun hnone => ?_⟩
    rw [hnone] at hstored
    cases hstored
  · have hcompare : d.coord.cacheJobs.get (Keys.plain.compare selfCompare) = some ⟨"c"⟩ := by
      decide +kernel
    have hanswer : d.coord.handleCompare ⟨Keys.plain.compare selfCompare, ⟨"x"⟩, ⟨"x"⟩⟩ =
        .ok (d.coord, ⟨"c"⟩, []) := by
      unfold handleCompare
      rw [hcompare]
    refine ⟨d.coord, hanswer, (hsound.2 _ _ _ _ _ hanswer).mpr ⟨?_, Or.inl ?_⟩⟩
    · have hdefault : ∀ r ∈ d.disk.reports, d.disk.findCallsAnalysis ⟨"a"⟩ = some r.baseline ∧
          d.disk.findCallsAnalysis ⟨"a"⟩ = some r.candidate := by
        decide +kernel
      exact fun r hr _ _ => ⟨fun _ => (hdefault r hr).1, fun _ => (hdefault r hr).2⟩
    · decide +kernel

/-- The fast decode of `a`, and its worker. -/
def fastDecode : DecodeRequest := ⟨⟨"a"⟩, .calls true⟩

def fastTask : Task :=
  ⟨⟨⟨⟨"f"⟩, .initialDecode, .queued, some ⟨"a"⟩, some ⟨"f"⟩, none, none⟩, true, false⟩,
    .decode fastDecode ⟨"f"⟩, none⟩

/-- The first decode of `a` fails; a fast one is asked for. -/
def retriedRun : List Event :=
  let err : Error := .new .decodeFailed "no trace"
  takenRun ++ [.worked firstTask (.error err), .reported { firstTask with outcome := some (.error err) },
    .decode ⟨"f"⟩ ⟨"f"⟩ fastDecode]

/-- The fast decode fails too. -/
def failedRun : List Event :=
  let err : Error := .new .decodeFailed "no trace"
  retriedRun ++ [.worked fastTask (.error err), .reported { fastTask with outcome := some (.error err) }]

/-- The fast decode works, `a` is compared with itself, and then a full decode
of `a` works. -/
def replacedRun : List Event :=
  let fullTask : Task :=
    ⟨⟨⟨⟨"g"⟩, .initialDecode, .queued, some ⟨"a"⟩, some ⟨"g"⟩, none, none⟩, true, false⟩,
      .decode ⟨⟨"a"⟩, .calls false⟩ ⟨"g"⟩, none⟩
  retriedRun ++ [.worked fastTask (.ok 7), .reported { fastTask with outcome := some (.ok ()) },
    .compare ⟨"c"⟩ ⟨"r"⟩ selfCompare, .worked compareTask (.ok 0),
    .reported { compareTask with outcome := some (.ok ()) }, .decode ⟨"g"⟩ ⟨"g"⟩ ⟨⟨"a"⟩, .calls false⟩,
    .worked fullTask (.ok 8), .reported { fullTask with outcome := some (.ok ()) }]

/-- A decode is answered with a job that failed, and a comparison with a report
on an analysis that is not the default any more. -/
theorem answers_unsound :
    let d₁ := failedRun.foldl (handle .plain) (start .default .empty)
    let d₂ := replacedRun.foldl (handle .plain) (start .default .empty)
    (d₁.Reachable .plain ∧ ∃ c' resp,
      d₁.coord.handleDecode (d₁.decodeEnv .plain ⟨"x"⟩ ⟨"x"⟩ fastDecode) fastDecode =
          .ok (c', resp, []) ∧
        ¬ d₁.DecodeRefers .plain fastDecode resp) ∧
    (d₂.Reachable .plain ∧ ∃ c',
      d₂.coord.handleCompare ⟨Keys.plain.compare selfCompare, ⟨"x"⟩, ⟨"x"⟩⟩ =
          .ok (c', ⟨"c"⟩, []) ∧
        ¬ d₂.CompareRefers .plain selfCompare ⟨"c"⟩) := by
  intro d₁ d₂
  have hfailed : Replays .plain (start .default .empty) failedRun := by decide +kernel
  have hreplaced : Replays .plain (start .default .empty) replacedRun := by decide +kernel
  refine ⟨⟨hfailed.reachable, ?_⟩, hreplaced.reachable, ?_⟩
  · have hdecode : ((d₁.coord.handleDecode (d₁.decodeEnv .plain ⟨"x"⟩ ⟨"x"⟩ fastDecode)
        fastDecode).toOption.map fun x => x.2.2) = some [] := by
      decide +kernel
    have hnone : d₁.disk.findAnalysisByKey ⟨"a"⟩ (Keys.plain.decode ⟨"a"⟩ (.calls true)) = none := by
      decide +kernel
    have hget : d₁.coord.cacheJobs.get (Keys.plain.decode ⟨"a"⟩ (.calls true)) = some ⟨"f"⟩ := by
      decide +kernel
    have hphase : (d₁.coord.jobs.get ⟨"f"⟩).map (·.phase) = some .failed := by decide +kernel
    obtain ⟨c', resp, hanswer⟩ := decode_answered hdecode
    refine ⟨c', resp, hanswer, fun hrefers => ?_⟩
    have hunfailed := (decodeRefers_iff hfailed.reachable.filed hfailed.reachable.inOrder
      hanswer).mp hrefers hnone ⟨"f"⟩ hget
    obtain ⟨j, hj, hjphase⟩ := Option.map_eq_some_iff.mp hphase
    exact (hunfailed.1 j hj).1 hjphase
  · have hget : d₂.coord.cacheJobs.get (Keys.plain.compare selfCompare) = some ⟨"c"⟩ := by
      decide +kernel
    refine ⟨d₂.coord, ?_, fun hrefers => ?_⟩
    · unfold handleCompare
      rw [hget]
    · have hold : ∃ r ∈ d₂.disk.reports, r.cacheKey = Keys.plain.compare selfCompare ∧
          r.jobId = ⟨"c"⟩ ∧ d₂.disk.analysisOf selfCompare.baseline ≠ some r.baseline := by
        decide +kernel
      obtain ⟨r, hr, hkey, hjob, hother⟩ := hold
      exact hother (hrefers.2 r hr hkey hjob).1

end Daemon

end TraceMcp.Service
