import TraceMcp.Capture.RoundTrip
import TraceMcp.Decode.Lineage
import TraceMcp.Lib.Ordered

/-!
# Finding the process tree in a bundle

The decoder learns the traced processes from one pass over the sideband of a
bundle, with the recorder's root as the start. The recorder writes processes
by pid and dates every FORK 0, so the pass sees a FORK of a child before that
of a parent with a larger pid, and loses the child. `mem_discovered_iff` says
what one pass finds, and `discovered_iff` when that is the tree.
-/

namespace TraceMcp.Capture

open TraceMcp.Lib TraceMcp.Decode

/-! ## One pass over a sideband -/

section Pass

variable {f : PidTracker} {s : Sideband} {sb : List Sideband} {x : Nat}

/-- Observe every record the sideband becomes. -/
def discover (f : PidTracker) (sb : List Sideband) : PidTracker :=
  f.observeAll (sb.filterMap Sideband.record)

/-- The entry names a process as `perf record` names its child. -/
def CallsRoot (s : Sideband) (pid : Nat) : Prop :=
  match s with
  | .comm p _ _ name _ => name = "perf-exec" ∧ p = pid
  | _ => False

def Forks (s : Sideband) (parent pid : Nat) : Prop :=
  match s with
  | .fork p pp _ _ _ => pp = parent ∧ p = pid
  | _ => False

theorem discover_append (f : PidTracker) (sb sb' : List Sideband) :
    discover f (sb ++ sb') = discover (discover f sb) sb' := by
  rw [discover, List.filterMap_append, PidTracker.observeAll_append]
  rfl

theorem discover_cons (f : PidTracker) (s : Sideband) (sb : List Sideband) :
    discover f (s :: sb) = discover (discover f [s]) sb :=
  discover_append f [s] sb

/-- What one entry adds. -/
theorem mem_discover_one :
    x ∈ (discover f [s]).pids ↔
      x ∈ f.pids ∨ CallsRoot s x ∨ ∃ pp, Forks s pp x ∧ pp ∈ f.pids := by
  cases s with
  | comm pid tid time name exec =>
    have hone : discover f [.comm pid tid time name exec] = f.observeTask
        ⟨if exec then .exec else .comm, pid, tid, none, none, recordedTime time, some name⟩ := rfl
    rw [hone, PidTracker.mem_pids_observeTask]
    cases exec <;> simp [TaskEvent.Names, CallsRoot, Forks]
  | fork pid ppid tid ptid time =>
    have hone : discover f [.fork pid ppid tid ptid time] =
        f.observeTask ⟨.fork, pid, tid, some ppid, some ptid, recordedTime time, none⟩ := rfl
    rw [hone, PidTracker.mem_pids_observeTask]
    simp [TaskEvent.Names, CallsRoot, Forks]
  | exit pid ppid tid ptid time =>
    have hone : discover f [.exit pid ppid tid ptid time] =
        f.observeTask ⟨.exit, pid, tid, some ppid, some ptid, recordedTime time, none⟩ := rfl
    rw [hone, PidTracker.mem_pids_observeTask]
    simp [TaskEvent.Names, CallsRoot, Forks]
  | mmap pid tid time start len pgoff exec path =>
    have hsame : discover f [.mmap pid tid time start len pgoff exec path] = f := by
      cases exec <;> rfl
    simp [hsame, CallsRoot, Forks]
  | switch pid tid cpu time out =>
    have hsame : discover f [.switch pid tid cpu time out] = f := rfl
    simp [hsame, CallsRoot, Forks]
  | itraceStart pid tid cpu time =>
    have hsame : discover f [.itraceStart pid tid cpu time] = f := rfl
    simp [hsame, CallsRoot, Forks]
  | lost time cpu n =>
    have hsame : discover f [.lost time cpu n] = f := rfl
    simp [hsame, CallsRoot, Forks]

/-- Where no process is forked, names alone count. -/
theorem mem_discover_still (hstill : ∀ s ∈ sb, ∀ pp y, Forks s pp y → pp = y) :
    x ∈ (discover f sb).pids ↔ x ∈ f.pids ∨ ∃ s ∈ sb, CallsRoot s x := by
  induction sb generalizing f with
  | nil =>
    show x ∈ f.pids ↔ _
    simp
  | cons s sb ih =>
    rw [discover_cons, ih fun s' hs' => hstill s' (List.mem_cons_of_mem s hs'), mem_discover_one]
    have hloop : (∃ pp, Forks s pp x ∧ pp ∈ f.pids) → x ∈ f.pids := by
      intro h
      obtain ⟨pp, hfork, hpp⟩ := h
      obtain rfl := hstill s List.mem_cons_self pp x hfork
      exact hpp
    simp only [List.mem_cons, exists_eq_or_imp]
    grind

theorem mem_discover_of_mem (h : x ∈ f.pids) : x ∈ (discover f sb).pids := by
  induction sb generalizing f with
  | nil => exact h
  | cons s sb ih =>
    rw [discover_cons]
    exact ih (mem_discover_one.mpr (.inl h))

theorem mem_discover_of_called (hs : s ∈ sb) (h : CallsRoot s x) : x ∈ (discover f sb).pids := by
  induction sb generalizing f with
  | nil => cases hs
  | cons s' sb ih =>
    rw [discover_cons]
    rcases List.mem_cons.mp hs with rfl | hs
    · exact mem_discover_of_mem (mem_discover_one.mpr (.inr (.inl h)))
    · exact ih hs

end Pass

/-! ## What a bundle says of processes -/

section Said

variable {f : PidTracker} {s : Sideband} {root : UInt32} {p : ProcInfo} {e : PtEvent} {i x : Nat}
  {events : List PtEvent} {procs : List ProcInfo}

/-- A process is recorded under the name of the root, itself or by a thread. -/
def Called (events : List PtEvent) (procs : List ProcInfo) (pid : Nat) : Prop :=
  (∃ p ∈ procs, p.comm = "perf-exec" ∧ p.pid.toNat = pid) ∨
    ∃ e ∈ events, e.tid ≠ e.pid ∧ e.comm = "perf-exec" ∧ e.pid.toNat = pid

theorem called_procSideband :
    (∃ s ∈ procSideband (some root) p, CallsRoot s x) ↔
      (p.pid = root ∧ root.toNat = x) ∨ (p.comm = "perf-exec" ∧ p.pid.toNat = x) := by
  unfold procSideband
  by_cases hroot : p.pid = root
  · subst hroot
    simp [CallsRoot]
  · simp [hroot, CallsRoot]

theorem called_threadSideband :
    (∃ s ∈ threadSideband e i, CallsRoot s x) ↔
      e.tid ≠ e.pid ∧ e.comm = "perf-exec" ∧ e.pid.toNat = x := by
  unfold threadSideband
  by_cases htid : e.tid = e.pid
  · simp [htid, CallsRoot]
  · by_cases hcomm : e.comm = ""
    · simp [htid, hcomm, CallsRoot]
    · simp [htid, hcomm, CallsRoot]

theorem called_bundleSideband :
    (∃ s ∈ bundleSideband events procs (some root), CallsRoot s x) ↔
      (∃ p ∈ procs, p.pid = root ∧ root.toNat = x) ∨ Called events procs x := by
  have hflat : (∃ s ∈ bundleSideband events procs (some root), CallsRoot s x) ↔
      (∃ p ∈ procs, ∃ s ∈ procSideband (some root) p, CallsRoot s x) ∨
        ∃ y ∈ events.zipIdx, ∃ s ∈ threadSideband y.1 y.2, CallsRoot s x := by
    unfold bundleSideband
    simp only [List.mem_append, List.mem_flatMap]
    constructor
    · intro ⟨s, hs, hx⟩
      rcases hs with ⟨p, hp, hs⟩ | ⟨y, hy, hs⟩
      · exact .inl ⟨p, hp, s, hs, hx⟩
      · exact .inr ⟨y, hy, s, hs, hx⟩
    · intro h
      rcases h with ⟨p, hp, s, hs, hx⟩ | ⟨y, hy, s, hs, hx⟩
      · exact ⟨s, .inl ⟨p, hp, hs⟩, hx⟩
      · exact ⟨s, .inr ⟨y, hy, hs⟩, hx⟩
  have hevents : (∃ y ∈ events.zipIdx,
      y.1.tid ≠ y.1.pid ∧ y.1.comm = "perf-exec" ∧ y.1.pid.toNat = x) ↔
      ∃ e ∈ events, e.tid ≠ e.pid ∧ e.comm = "perf-exec" ∧ e.pid.toNat = x := by
    conv_rhs => rw [← List.zipIdx_map_fst 0 events]
    simp only [List.mem_map, exists_exists_and_eq_and]
  rw [hflat]
  simp only [called_procSideband, called_threadSideband, hevents]
  unfold Called
  grind

/-- Every FORK of a bundle is dated 0. -/
theorem time_of_forks {pp y : Nat} (hs : s ∈ bundleSideband events procs (some root))
    (h : Forks s pp y) : s.time = 0 := by
  unfold bundleSideband procSideband threadSideband at hs
  simp only [List.mem_append, List.mem_flatMap] at hs
  cases s with
  | fork pid ppid tid ptid time =>
    show time = 0
    rcases hs with ⟨p, _, hs⟩ | ⟨y, _, hs⟩
    · by_cases hroot : p.pid = root <;> simp [hroot] at hs
      omega
    · by_cases htid : y.1.tid = y.1.pid <;> by_cases hcomm : y.1.comm = "" <;>
        simp [htid, hcomm] at hs
      all_goals omega
  | _ => exact h.elim

/-- That of a thread stays in its process. -/
theorem forks_threadSideband {pp y : Nat} (hs : s ∈ threadSideband e i) (h : Forks s pp y) :
    pp = y := by
  unfold threadSideband at hs
  cases s with
  | fork pid ppid tid ptid time =>
    by_cases htid : e.tid = e.pid <;> by_cases hcomm : e.comm = "" <;> simp [htid, hcomm] at hs
    all_goals
      obtain ⟨hpp, hy⟩ := h
      omega
  | _ => exact h.elim

/-- The pass over the entries of a process that are dated 0. -/
theorem mem_discover_proc :
    x ∈ (discover f ((procSideband (some root) p).filter (·.time = 0))).pids ↔
      x ∈ f.pids ∨ (p.pid = root ∧ root.toNat = x) ∨
        (p.pid ≠ root ∧ p.ppid.toNat ∈ f.pids ∧ p.pid.toNat = x) ∨
        (p.comm = "perf-exec" ∧ p.execNs.getD 0 = 0 ∧ p.pid.toNat = x) := by
  obtain ⟨maps, hmaps⟩ : ∃ maps, maps = p.maps.map fun m => Sideband.mmap p.pid.toNat p.pid.toNat
    (p.execNs.getD 0).toNat m.start.toNat m.len.toNat m.pgoff.toNat true m.path := ⟨_, rfl⟩
  have hquiet : ∀ s ∈ maps.filter (·.time = 0), ∀ y, ¬ CallsRoot s y ∧ ∀ pp, ¬ Forks s pp y := by
    intro s hs y
    obtain ⟨m, _, rfl⟩ := List.mem_map.mp (hmaps ▸ (List.mem_filter.mp hs).1)
    exact ⟨id, fun _ => id⟩
  have hrest : ∀ g : PidTracker, x ∈ (discover g (maps.filter (·.time = 0))).pids ↔ x ∈ g.pids := by
    intro g
    rw [mem_discover_still fun s hs pp y h => absurd h ((hquiet s hs y).2 pp)]
    exact or_iff_left fun ⟨s, hs, h⟩ => (hquiet s hs x).1 h
  have htime : (p.execNs.getD 0).toNat = 0 ↔ p.execNs.getD 0 = 0 := UInt64.toNat_inj (b := 0)
  unfold procSideband
  rw [List.filter_cons_of_pos (by by_cases hroot : p.pid = root <;> simp [hroot, Sideband.time]),
    discover_cons, ← hmaps]
  have hfirst : ∀ y, y ∈ (discover f [if some p.pid ≠ some root then
      Sideband.fork p.pid.toNat p.ppid.toNat p.pid.toNat p.ppid.toNat 0
      else .comm p.pid.toNat p.pid.toNat 0 "perf-exec" false]).pids ↔
      y ∈ f.pids ∨ (p.pid = root ∧ root.toNat = y) ∨
        (p.pid ≠ root ∧ p.ppid.toNat ∈ f.pids ∧ p.pid.toNat = y) := by
    intro y
    rw [mem_discover_one]
    by_cases hroot : p.pid = root
    · simp [hroot, CallsRoot, Forks]
    · simp [hroot, CallsRoot, Forks, and_comm]
  by_cases hzero : p.execNs.getD 0 = 0
  · rw [List.filter_cons_of_pos (by exact decide_eq_true (htime.mpr hzero)), discover_cons,
      hrest, mem_discover_one, hfirst]
    simp only [CallsRoot, Forks, hzero]
    grind
  · rw [List.filter_cons_of_neg (by exact mt of_decide_eq_true (mt htime.mp hzero)), hrest, hfirst]
    simp only [hzero]
    grind

end Said

/-! ## The tree and what is found of it -/

/-- The tree as it is recorded: the root and its descendants. -/
inductive Family (root : Nat) (procs : List ProcInfo) : Nat → Prop
  | root : Family root procs root
  | child {p : ProcInfo} : p ∈ procs → Family root procs p.ppid.toNat →
      Family root procs p.pid.toNat

/-- What one pass reaches: a child of the root, or of a process found before
it, which is one with a smaller pid. -/
inductive Found (root : Nat) (procs : List ProcInfo) : Nat → Prop
  | root : Found root procs root
  | named {p : ProcInfo} : p ∈ procs → p.comm = "perf-exec" → p.execNs.getD 0 = 0 →
      Found root procs p.pid.toNat
  | child {p : ProcInfo} : p ∈ procs → p.pid.toNat ≠ root →
      p.ppid.toNat = root ∨ p.ppid.toNat < p.pid.toNat → Found root procs p.ppid.toNat →
      Found root procs p.pid.toNat

section Tree

theorem Found.of_subset {root x : Nat} {ps qs : List ProcInfo} (hsub : ps ⊆ qs)
    (h : Found root ps x) : Found root qs x := by
  induction h with
  | root => exact .root
  | named hp hcomm hzero => exact .named (hsub hp) hcomm hzero
  | child hp hne horder _ ih => exact .child (hsub hp) hne horder ih

theorem Called.of_subset {x : Nat} {events : List PtEvent} {ps qs : List ProcInfo} (hsub : ps ⊆ qs)
    (h : Called events ps x) : Called events qs x := by
  rcases h with ⟨p, hp, h⟩ | h
  · exact .inl ⟨p, hsub hp, h⟩
  · exact .inr h

variable {root : UInt32} {procs : List ProcInfo} {events : List PtEvent} {x : Nat}

theorem Found.recorded {root : Nat} (h : Found root procs x) :
    x = root ∨ ∃ p ∈ procs, p.pid.toNat = x := by
  cases h with
  | root => exact .inl rfl
  | named hp _ _ => exact .inr ⟨_, hp, rfl⟩
  | child hp _ _ _ => exact .inr ⟨_, hp, rfl⟩

/-- Where no stranger has the name of the root, only the tree is found. -/
theorem Found.family {root : Nat} (hcalled : ∀ pid, Called events procs pid → Family root procs pid)
    (h : Found root procs x) : Family root procs x := by
  induction h with
  | root => exact .root
  | named hp hcomm _ => exact hcalled _ (.inl ⟨_, hp, hcomm, rfl⟩)
  | child hp _ _ _ ih => exact .child hp ih

/-- The pass over processes in the order of their pids, as far as it got. -/
theorem mem_discover_procs {ps : List ProcInfo} : ∀ {qs : List ProcInfo}, procs = ps ++ qs →
    procs.Pairwise (fun p q => p.pid.toNat < q.pid.toNat) → ∀ x,
    (x ∈ (discover (PidTracker.withRoot root.toNat)
      ((ps.flatMap (procSideband (some root))).filter (·.time = 0))).pids ↔
      x = root.toNat ∨ (Found root.toNat procs x ∧ ∃ p ∈ ps, p.pid.toNat = x)) := by
  induction ps using List.reverseRecOn with
  | nil =>
    intro qs _ _ x
    show x ∈ ({root.toNat} : Finset Nat) ↔ _
    simp
  | append_singleton ps p ih =>
    intro qs hprocs hsorted x
    have hp : p ∈ procs := by simp [hprocs]
    have hparts := hsorted
    rw [hprocs, List.append_assoc, List.pairwise_append, List.singleton_append,
      List.pairwise_cons] at hparts
    have hps : ∀ q ∈ ps, q.pid.toNat < p.pid.toNat := fun q hq => hparts.2.2 q hq p List.mem_cons_self
    -- sorted pids: what has a smaller pid came before, and no two processes share one
    have hplace : ∀ q ∈ procs, q ∈ ps ∨ q = p ∨ p.pid.toNat < q.pid.toNat := by
      intro q hq
      rw [hprocs, List.append_assoc] at hq
      rcases List.mem_append.mp hq with hq | hq
      · exact .inl hq
      · rcases List.mem_cons.mp hq with hq | hq
        · exact .inr (.inl hq)
        · exact .inr (.inr (hparts.2.1.1 q hq))
    have hbefore : ∀ q ∈ procs, q.pid.toNat < p.pid.toNat → q ∈ ps := by
      intro q hq hlt
      rcases hplace q hq with hq | rfl | hgt
      · exact hq
      · omega
      · omega
    have hsame : ∀ q ∈ procs, q.pid.toNat = p.pid.toNat → q = p := by
      intro q hq heq
      rcases hplace q hq with hq | heq | hgt
      · have := hps q hq
        omega
      · exact heq
      · omega
    have ih := @ih (p :: qs) (by rw [hprocs, List.append_assoc]; rfl) hsorted
    rw [List.flatMap_append, List.filter_append, discover_append, List.flatMap_singleton,
      mem_discover_proc, ih, ih]
    constructor
    · intro h
      rcases h with (hroot | ⟨hx, q, hq, hqx⟩) | ⟨_, hroot⟩ | ⟨hne, hparent, rfl⟩ | ⟨hcomm, hzero, rfl⟩
      · exact .inl hroot
      · exact .inr ⟨hx, q, List.mem_append_left _ hq, hqx⟩
      · exact .inl hroot.symm
      · have hne : p.pid.toNat ≠ root.toNat := fun h => hne (UInt32.toNat_inj.mp h)
        refine .inr ⟨?_, p, by simp, rfl⟩
        rcases hparent with hroot | ⟨hfound, q, hq, hqp⟩
        · exact .child hp hne (.inl hroot) (hroot ▸ .root)
        · have := hps q hq
          exact .child hp hne (.inr (by omega)) hfound
      · exact .inr ⟨.named hp hcomm hzero, p, by simp, rfl⟩
    · intro h
      rcases h with hroot | ⟨hx, q, hq, hqx⟩
      · exact .inl (.inl hroot)
      · rcases List.mem_append.mp hq with hq | hq
        · exact .inl (.inr ⟨hx, q, hq, hqx⟩)
        · obtain rfl := List.mem_singleton.mp hq
          cases hx with
          | root => exact .inl (.inl rfl)
          | named hq' hcomm hzero =>
            obtain rfl := hsame _ hq' hqx.symm
            exact .inr (.inr (.inr ⟨hcomm, hzero, rfl⟩))
          -- a child is found through its parent, so the parent must have come before it
          | child hq' hne horder hparent =>
            obtain rfl := hsame _ hq' hqx.symm
            refine .inr (.inr (.inl ⟨fun h => hne (congrArg UInt32.toNat h), ?_, rfl⟩))
            rcases horder with hroot | hlt
            · exact .inl hroot
            · rcases hparent.recorded with hroot | ⟨pp, hpp, heq⟩
              · exact .inl hroot
              · exact .inr ⟨hparent, pp, hbefore pp hpp (by omega), heq⟩

/-- What is tracked after the pass over a bundle. -/
theorem mem_discovered_iff (hsorted : procs.Pairwise fun p q => p.pid.toNat < q.pid.toNat) (x : Nat) :
    x ∈ (discover (PidTracker.withRoot root.toNat)
      ((bundleSideband events procs (some root)).mergeSort fun a b => a.time ≤ b.time)).pids ↔
      Found root.toNat procs x ∨ Called events procs x := by
  obtain ⟨rest, hsort, hrest⟩ := mergeSort_zeros Sideband.time (bundleSideband events procs (some root))
  -- after the processes nothing is forked into the tree
  have hstill : ∀ s ∈ (events.zipIdx.flatMap fun y => threadSideband y.1 y.2).filter (·.time = 0) ++
      rest, ∀ pp y, Forks s pp y → pp = y := by
    intro s hs pp y h
    rcases List.mem_append.mp hs with hs | hs
    · obtain ⟨y, _, hs⟩ := List.mem_flatMap.mp (List.mem_filter.mp hs).1
      exact forks_threadSideband hs h
    · obtain ⟨hs, hlate⟩ := List.mem_filter.mp (hrest.mem_iff.mp hs)
      exact absurd (time_of_forks hs h) (of_decide_eq_true hlate)
  have hall : ∀ s, s ∈ bundleSideband events procs (some root) ↔
      s ∈ (bundleSideband events procs (some root)).mergeSort fun a b => a.time ≤ b.time :=
    fun s => ((List.mergeSort_perm _ _).mem_iff).symm
  have hcalled : (∃ s ∈ bundleSideband events procs (some root), CallsRoot s x) ↔ _ :=
    called_bundleSideband
  have hbundle : bundleSideband events procs (some root) = procs.flatMap (procSideband (some root)) ++
    events.zipIdx.flatMap fun y => threadSideband y.1 y.2 := rfl
  constructor
  · intro h
    rw [hsort, hbundle, List.filter_append, List.append_assoc, discover_append,
      mem_discover_still hstill, mem_discover_procs (List.append_nil procs).symm hsorted] at h
    rcases h with (rfl | ⟨hfound, _⟩) | ⟨s, hs, hx⟩
    · exact .inl .root
    · exact .inl hfound
    · have hs : s ∈ bundleSideband events procs (some root) := by
        rw [hall, hsort, hbundle, List.filter_append, List.append_assoc]
        exact List.mem_append_right _ hs
      rcases hcalled.mp ⟨s, hs, hx⟩ with ⟨_, _, _, rfl⟩ | hx
      · exact .inl .root
      · exact .inr hx
  · intro h
    rcases h with hfound | hx
    · rw [hsort, hbundle, List.filter_append, List.append_assoc, discover_append]
      refine mem_discover_of_mem ?_
      rw [mem_discover_procs (List.append_nil procs).symm hsorted]
      rcases hfound.recorded with hroot | hp
      · exact .inl hroot
      · exact .inr ⟨hfound, hp⟩
    · obtain ⟨s, hs, hx⟩ := hcalled.mpr (.inr hx)
      exact mem_discover_of_called ((hall s).mp hs) hx

end Tree

/-! ## A recorder's bundle -/

namespace DirectRecorder

variable {r : DirectRecorder}

theorem sortedProcs_perm (r : DirectRecorder) : r.sortedProcs.Perm r.procs.values :=
  List.mergeSort_perm _ _

theorem nodup_pids : (r.procs.values.map (·.pid)).Nodup := by
  have hkeys : r.procs.values.map (·.pid) = r.procs.entries.map Sigma.fst := by
    unfold FastMap.values
    rw [List.map_map]
    refine List.map_congr_left fun e he => ?_
    exact r.keyed e.1 e.2 (FastMap.get_eq_some_iff.mpr he)
  rw [hkeys]
  exact r.procs.nodupKeys

theorem sortedProcs_pairwise : r.sortedProcs.Pairwise fun p q => p.pid.toNat < q.pid.toNat := by
  have hle : r.sortedProcs.Pairwise fun p q => p.pid.toNat ≤ q.pid.toNat := by
    refine (List.pairwise_mergeSort ?_ ?_ _).imp fun h => of_decide_eq_true h
    · intro a b c hab hbc
      simp only [decide_eq_true_eq] at hab hbc ⊢
      omega
    · intro a b
      simp only [Bool.or_eq_true, decide_eq_true_eq]
      omega
  have hne : (r.sortedProcs.map (·.pid)).Nodup :=
    ((sortedProcs_perm r).map _).nodup_iff.mpr nodup_pids
  refine hle.imp₂ ?_ (List.pairwise_map.mp hne)
  intro p q hle hne
  have := mt UInt32.toNat_inj.mp hne
  omega

end DirectRecorder

/-- The native pid set of a file: its sideband observed once. -/
def tracked (root : Nat) (pd : PerfData) : Finset Nat :=
  ((PidTracker.withRoot root).observeAll ((sidebandRecords pd.plan).map (·.2))).pids

theorem tracked_eq (root : Nat) (pd : PerfData) :
    tracked root pd = (discover (PidTracker.withRoot root) pd.sideband).pids := by
  unfold tracked discover sidebandRecords
  rw [List.map_filterMap]
  simp only [Option.map_map]
  have hrecord : (fun s : Sideband => s.record.map ((fun x : Tagged => x.2) ∘
      fun rec => (recordedTime s.time, rec))) = Sideband.record := by
    funext s
    exact Option.map_id'
  show (PidTracker.observeAll _ (pd.sideband.filterMap _)).pids = _
  rw [hrecord]

section Recorder

variable {r : DirectRecorder} {root : UInt32} {ratio : UInt32 × UInt32} {file : List UInt8} {n : Nat}

theorem mem_tracked_iff (hroot : r.rootPid = some root) (hwrite : r.write ratio = .ok (file, n))
    (hfit : ∀ b ∈ bundleRecords r.pmu ratio r.events r.sortedProcs r.rootPid, b.length ≤ 65535)
    (hprocs : ∀ p ∈ r.procs.values, NoNulEnd p.comm ∧ ∀ m ∈ p.maps, NoNulEnd m.path)
    (hevents : ∀ e ∈ r.events, NoNulEnd e.comm) (hmax : file.length ≤ isizeMax) :
    ∃ pd, readPerfData file = .ok pd ∧ ∀ pid, pid ∈ tracked root.toNat pd ↔
      Found root.toNat r.procs.values pid ∨ Called r.events r.procs.values pid := by
  have hperm := r.sortedProcs_perm
  have hbundle : (writeBundle r.pmu r.terms ratio r.events r.sortedProcs r.rootPid).1 = file := by
    unfold DirectRecorder.write at hwrite
    split at hwrite
    next => cases hwrite
    next => rw [Except.ok.inj hwrite]
  rw [← hbundle] at hmax
  obtain ⟨blobs, hread, _⟩ := readPerfData_bundle hfit
    (fun p hp => hprocs p (hperm.mem_iff.mp hp)) hevents hmax
  rw [hbundle] at hread
  refine ⟨_, hread, fun pid => ?_⟩
  rw [tracked_eq, hroot, mem_discovered_iff r.sortedProcs_pairwise]
  constructor
  · intro h
    exact h.imp (.of_subset hperm.subset) (.of_subset hperm.subset)
  · intro h
    exact h.imp (.of_subset hperm.symm.subset) (.of_subset hperm.symm.subset)

/-- One pass over the bundle of a recorder tracks its process tree exactly when
no stranger is recorded under the name of the root, and every descendant is
found over parents with smaller pids, or by that name. -/
theorem discovered_iff (hroot : r.rootPid = some root) (hwrite : r.write ratio = .ok (file, n))
    (hfit : ∀ b ∈ bundleRecords r.pmu ratio r.events r.sortedProcs r.rootPid, b.length ≤ 65535)
    (hprocs : ∀ p ∈ r.procs.values, NoNulEnd p.comm ∧ ∀ m ∈ p.maps, NoNulEnd m.path)
    (hevents : ∀ e ∈ r.events, NoNulEnd e.comm) (hmax : file.length ≤ isizeMax) :
    ∃ pd, readPerfData file = .ok pd ∧
      ((∀ pid, pid ∈ tracked root.toNat pd ↔ Family root.toNat r.procs.values pid) ↔
        (∀ pid, Called r.events r.procs.values pid → Family root.toNat r.procs.values pid) ∧
        ∀ pid, Family root.toNat r.procs.values pid →
          Found root.toNat r.procs.values pid ∨ Called r.events r.procs.values pid) := by
  obtain ⟨pd, hread, htracked⟩ := mem_tracked_iff hroot hwrite hfit hprocs hevents hmax
  refine ⟨pd, hread, ?_⟩
  simp only [htracked]
  constructor
  · intro h
    exact ⟨fun pid hcalled => (h pid).mp (.inr hcalled), fun pid hfamily => (h pid).mpr hfamily⟩
  · intro ⟨hcalled, hfamily⟩ pid
    constructor
    · intro h
      rcases h with h | h
      · exact h.family hcalled
      · exact hcalled pid h
    · exact hfamily pid

end Recorder

/-! ### Two trees -/

/-- A shell 10, a process 20 and a process 30, with these parents. -/
def three (parent20 parent30 : UInt32) : List ProcInfo :=
  [⟨10, 1, "sh", [], none⟩, ⟨20, parent20, "make", [], some 1000⟩,
    ⟨30, parent30, "cc", [], some 2000⟩]

/-- The recorder of the shell, which traces its main thread. -/
def recorderOf (parent20 parent30 : UInt32) : DirectRecorder where
  pmu := plainPmu
  terms := plainTerms
  events := [⟨10, 10, "sh", none, ⟨0, 1, 0, true⟩⟩]
  procs := ⟨(three parent20 parent30).map fun p => ⟨p.pid, p⟩, by
    rw [List.NodupKeys, List.keys, List.map_map]
    show [(10 : UInt32), 20, 30].Nodup
    decide⟩
  rootPid := some 10
  notes := []
  keyed := by
    intro pid p hget
    obtain ⟨q, _, heq⟩ := List.mem_map.mp (FastMap.get_eq_some_iff.mp hget)
    cases heq
    rfl

section Three

variable {parent20 parent30 : UInt32}

theorem sortedProcs_recorderOf :
    (recorderOf parent20 parent30).sortedProcs = three parent20 parent30 := by
  show (three parent20 parent30).mergeSort _ = _
  refine List.mergeSort_of_pairwise ?_
  simp [three]

theorem fit_recorderOf :
    ∀ b ∈ bundleRecords plainPmu (0, 0) (recorderOf parent20 parent30).events
      (recorderOf parent20 parent30).sortedProcs (some 10), b.length ≤ 65535 := by
  rw [sortedProcs_recorderOf]
  simp [bundleRecords, procRecords, threadRecords, infoRecord, infoWords, forkRecord, commRecord,
    itraceStartRecord, three, recorderOf, length_record, length_padded]
  decide

theorem length_recorderOf :
    (writeBundle plainPmu plainTerms (0, 0) (recorderOf parent20 parent30).events
      (recorderOf parent20 parent30).sortedProcs (some 10)).1.length ≤ isizeMax := by
  rw [sortedProcs_recorderOf]
  simp [writeBundle, length_fileHeader, length_attrBytes, bundleRecords, procRecords,
    threadRecords, infoRecord, infoWords, forkRecord, commRecord, itraceStartRecord, takenBlobs,
    three, recorderOf, length_record, length_padded]
  decide

theorem names_recorderOf : ∀ p ∈ (recorderOf parent20 parent30).procs.values,
    NoNulEnd p.comm ∧ ∀ m ∈ p.maps, NoNulEnd m.path := by
  show ∀ p ∈ three parent20 parent30, _
  have hnames : NoNulEnd "sh" ∧ NoNulEnd "make" ∧ NoNulEnd "cc" := by decide
  simp [three, hnames]

theorem not_called_recorderOf {pid : Nat} :
    ¬ Called (recorderOf parent20 parent30).events (recorderOf parent20 parent30).procs.values pid := by
  show ¬ Called _ (three parent20 parent30) pid
  simp [Called, three, recorderOf]

end Three

/-- With rising pids the grandchild is found. -/
theorem discovered_rising :
    ∃ file n pd, (recorderOf 10 20).write (0, 0) = .ok (file, n) ∧ readPerfData file = .ok pd ∧
      ∀ pid, pid ∈ tracked 10 pd ↔ Family 10 (recorderOf 10 20).procs.values pid := by
  have hroot : (recorderOf 10 20).rootPid = some 10 := rfl
  have hwrite : (recorderOf 10 20).write (0, 0) = .ok (writeBundle plainPmu plainTerms (0, 0)
      (recorderOf 10 20).events (recorderOf 10 20).sortedProcs (some 10)) := rfl
  obtain ⟨pd, hread, hiff⟩ := discovered_iff hroot hwrite fit_recorderOf names_recorderOf (by decide)
    length_recorderOf
  refine ⟨_, _, pd, hwrite, hread, hiff.mpr ⟨fun pid h => absurd h not_called_recorderOf, ?_⟩⟩
  intro pid h
  left
  induction h with
  | root => exact .root
  | @child p hp _ ih =>
    have hthree : p ∈ three 10 20 := hp
    simp only [three, List.mem_cons, List.not_mem_nil, or_false] at hthree
    rcases hthree with rfl | rfl | rfl
    · exact .root
    · exact .child hp (by decide) (.inl rfl) ih
    · exact .child hp (by decide) (.inr (by decide)) ih

/-- After the pids wrapped the child of 30 got 20, and is lost. -/
theorem discovered_wrapped :
    ∃ file n pd, (recorderOf 30 10).write (0, 0) = .ok (file, n) ∧ readPerfData file = .ok pd ∧
      Family 10 (recorderOf 30 10).procs.values 20 ∧ 20 ∉ tracked 10 pd := by
  have hroot : (recorderOf 30 10).rootPid = some 10 := rfl
  have hwrite : (recorderOf 30 10).write (0, 0) = .ok (writeBundle plainPmu plainTerms (0, 0)
      (recorderOf 30 10).events (recorderOf 30 10).sortedProcs (some 10)) := rfl
  obtain ⟨pd, hread, htracked⟩ := mem_tracked_iff hroot hwrite fit_recorderOf names_recorderOf
    (by decide) length_recorderOf
  refine ⟨_, _, pd, hwrite, hread, ?_, ?_⟩
  · have hchild : Family 10 (recorderOf 30 10).procs.values 30 :=
      .child (p := ⟨30, 10, "cc", [], some 2000⟩) (.tail _ (.tail _ (.head _))) .root
    exact .child (p := ⟨20, 30, "make", [], some 1000⟩) (.tail _ (.head _)) hchild
  · have hlost : ∀ x, Found 10 (three 30 10) x → x ≠ 20 := by
      intro x h
      cases h with
      | root => decide
      | named hp hcomm _ =>
        simp only [three, List.mem_cons, List.not_mem_nil, or_false] at hp
        rcases hp with rfl | rfl | rfl <;> exact absurd hcomm (by decide)
      | child hp _ horder _ =>
        simp only [three, List.mem_cons, List.not_mem_nil, or_false] at hp
        rcases hp with rfl | rfl | rfl
        · decide
        · exact absurd horder (by decide)
        · decide
    intro h
    rcases (htracked 20).mp h with h | h
    · exact hlost 20 h rfl
    · exact not_called_recorderOf h

end TraceMcp.Capture
