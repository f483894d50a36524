import TraceMcp.Lib.Spread
import TraceMcp.Decode.Records

/-!
# What the process tracker knows

`PidTracker` (`src/decode/perf_script.rs`) follows the process tree over the
sideband of a launch. Here its four sets are read off the records: `InTree` is
the fork closure of the `perf-exec` roots in record order, `Marked` the part
of it that had exec'd the target, `Lingers` the threads it keeps excluded.
`isLiveThread_iff` says that this is all a tracker remembers, and
`liveness_law` compares it with what the tracker is for: the threads of the
tree that run the target's code (`RunsTarget`).
-/

namespace TraceMcp.Decode

open TraceMcp.Lib

/-! ## The records, by position -/

section Records

variable (recs : List RawRecord)

def TaskAt (i : Nat) (t : TaskEvent) : Prop := recs[i]? = some (.task t)

/-- A record in which a task takes the name `comm`, by an exec or a COMM. -/
def TaskEvent.Names (t : TaskEvent) (comm : String) : Prop :=
  (t.kind = .comm ∨ t.kind = .exec) ∧ t.comm = some comm

def RootAt (i pid : Nat) : Prop := ∃ t, TaskAt recs i t ∧ t.Names "perf-exec" ∧ t.pid = pid

def ExecAt (target : String) (i pid : Nat) : Prop :=
  ∃ t, TaskAt recs i t ∧ t.Names target ∧ t.pid = pid

def ForkAt (i parent pid : Nat) : Prop :=
  ∃ t, TaskAt recs i t ∧ t.kind = .fork ∧ t.ppid = some parent ∧ t.pid = pid

/-- A FORK that creates a thread inside its process. -/
def ThreadForkAt (i : Nat) (k : Key) : Prop :=
  ∃ t, TaskAt recs i t ∧ t.kind = .fork ∧ t.ppid = some t.pid ∧ t.tid ≠ t.pid ∧ (t.pid, t.tid) = k

def ExitAt (i : Nat) (k : Key) : Prop :=
  ∃ t, TaskAt recs i t ∧ t.kind = .exit ∧ (t.pid, t.tid) = k

variable {recs} in
/-- There is one record at a position. -/
theorem TaskAt.exists_iff {i : Nat} {t : TaskEvent} (h : TaskAt recs i t) {P : TaskEvent → Prop} :
    (∃ t', TaskAt recs i t' ∧ P t') ↔ P t := by
  constructor
  · intro ⟨t', h', hP⟩
    have heq : some (RawRecord.task t') = some (.task t) := h'.symm.trans h
    cases heq
    exact hP
  · exact fun hP => ⟨t, h, hP⟩

/-- The tree after `n` records: the `perf-exec` roots and what they forked. -/
def InTree : Nat → Nat → Prop := Spread (RootAt recs) (ForkAt recs)

/-- After `n` records the process had exec'd the target, or an ancestor had
before the fork that leads here. -/
def Execd (target : String) : Nat → Nat → Prop := Spread (ExecAt recs target) (ForkAt recs)

/-- As `Execd`, but an exec counts only for a process of the tree, and never
under the name that makes roots. -/
def Marked (target : String) : Nat → Nat → Prop :=
  Spread (fun i pid => ExecAt recs target i pid ∧ target ≠ "perf-exec" ∧ InTree recs i pid)
    (fun i parent pid => ForkAt recs i parent pid ∧ InTree recs i parent)

/-- Within the first `n` records the thread was created in a process of the
tree that was not yet marked, and no EXIT of it came since. -/
def Lingers (target : String) (n : Nat) (k : Key) : Prop :=
  ∃ i < n, ThreadForkAt recs i k ∧ InTree recs i k.1 ∧ ¬ Marked recs target i k.1 ∧
    ∀ j, i < j → j < n → ¬ ExitAt recs j k

/-- The thread's most recent creation by a FORK record. -/
def LastThreadForkAt (i : Nat) (k : Key) : Prop :=
  ThreadForkAt recs i k ∧ ∀ j, i < j → ¬ ThreadForkAt recs j k

/-- What liveness is for: the process belongs to the tree and has exec'd the
target, and the thread was created, if a record says when, after that. -/
def RunsTarget (target : String) (pid tid : Nat) : Prop :=
  InTree recs recs.length pid ∧ Execd recs target recs.length pid ∧
    ∀ i, LastThreadForkAt recs i (pid, tid) → Execd recs target i pid

end Records

section Marks

variable {recs : List RawRecord} {target : String} {n pid : Nat}

/-- The tree only ever marks its own processes. -/
theorem Marked.inTree (h : Marked recs target n pid) : InTree recs n pid := by
  cases h with
  | seed hi hexec => exact hexec.2.2.mono (by omega)
  | edge hi hfork _ => exact .edge hi hfork.1 hfork.2

theorem Marked.execd (h : Marked recs target n pid) : Execd recs target n pid := by
  induction h with
  | seed hi hexec => exact .seed hi hexec.1
  | edge hi hfork _ ih => exact .edge hi hfork.1 ih

end Marks

/-! ## The tracker over a run -/

namespace PidTracker

/-- The name the tracker waits for: what the kernel keeps of the base name. -/
def targetOf (exe : String) : String := String.ofList (((fileName exe).getD "").toList.take 15)

def observeAll (f : PidTracker) (recs : List RawRecord) : PidTracker := recs.foldl observe f

theorem observeAll_append (f : PidTracker) (xs ys : List RawRecord) :
    f.observeAll (xs ++ ys) = (f.observeAll xs).observeAll ys :=
  List.foldl_append

/-- A launch-mode tracker after the first `n` records. -/
def after (exe : String) (recs : List RawRecord) (n : Nat) : PidTracker :=
  (default.expectingExecOf exe).observeAll (recs.take n)

/-! ### What one record does to each set -/

section Observe

variable {f : PidTracker} {t : TaskEvent}

theorem observeTask_named (hk : t.kind = .comm ∨ t.kind = .exec) :
    f.observeTask t =
      if t.comm = some "perf-exec" then
        { f with
          pids := insert t.pid f.pids
          execDone := if f.targetComm.isNone then insert t.pid f.execDone else f.execDone }
      else if t.pid ∈ f.pids ∧ f.targetComm.isSome ∧ t.comm = f.targetComm then
        { f with
          execDone := insert t.pid f.execDone
          execTime := match t.timeNs with
            | some ts => f.execTime.insert t.pid ts
            | none => f.execTime }
      else f := by
  have hfork : t.kind ≠ .fork := by rcases hk with hk | hk <;> simp [hk]
  have hexit : t.kind ≠ .exit := by rcases hk with hk | hk <;> simp [hk]
  exact if_congr (and_iff_right hk) rfl (if_congr (and_iff_right hk) rfl
    ((if_neg fun h => hfork h.1).trans (if_neg hexit)))

theorem observeTask_orphan (hk : t.kind = .fork) (hpp : t.ppid = none) : f.observeTask t = f := by
  simp [observeTask, hk, hpp]

theorem observeTask_fork {pp : Nat} (hk : t.kind = .fork) (hpp : t.ppid = some pp) :
    f.observeTask t =
      if pp ∈ f.pids then
        if pp = t.pid ∧ t.tid ≠ t.pid then
          if f.targetComm.isSome ∧ t.pid ∉ f.execDone then
            { f with preExecThreads := insert (t.pid, t.tid) f.preExecThreads }
          else f
        else
          { f with
            pids := insert t.pid f.pids
            execDone := if pp ∈ f.execDone then insert t.pid f.execDone else f.execDone }
      else f := by
  simp [observeTask, hk, hpp]

theorem observeTask_exit (hk : t.kind = .exit) :
    f.observeTask t = { f with preExecThreads := f.preExecThreads.erase (t.pid, t.tid) } := by
  simp [observeTask, hk]

theorem mem_pids_observeTask {p : Nat} :
    p ∈ (f.observeTask t).pids ↔
      p ∈ f.pids ∨ (t.Names "perf-exec" ∧ t.pid = p) ∨
        ∃ pp, (t.kind = .fork ∧ t.ppid = some pp ∧ t.pid = p) ∧ pp ∈ f.pids := by
  unfold TaskEvent.Names
  cases hk : t.kind with
  | comm | exec =>
    rw [observeTask_named (by simp [hk])]
    grind
  | fork =>
    cases hpp : t.ppid with
    | none =>
      rw [observeTask_orphan hk hpp]
      grind
    | some pp =>
      rw [observeTask_fork hk hpp]
      grind
  | exit =>
    rw [observeTask_exit hk]
    simp

theorem targetComm_observeTask : (f.observeTask t).targetComm = f.targetComm := by
  cases hk : t.kind with
  | comm | exec =>
    rw [observeTask_named (by simp [hk])]
    grind
  | fork =>
    cases hpp : t.ppid with
    | none => rw [observeTask_orphan hk hpp]
    | some pp =>
      rw [observeTask_fork hk hpp]
      grind
  | exit => rw [observeTask_exit hk]

theorem mem_execDone_observeTask {target : String} (htarget : f.targetComm = some target)
    {p : Nat} :
    p ∈ (f.observeTask t).execDone ↔
      p ∈ f.execDone ∨
        ((t.Names target ∧ t.pid = p) ∧ target ≠ "perf-exec" ∧ p ∈ f.pids) ∨
        ∃ pp, ((t.kind = .fork ∧ t.ppid = some pp ∧ t.pid = p) ∧ pp ∈ f.pids) ∧
          pp ∈ f.execDone := by
  unfold TaskEvent.Names
  cases hk : t.kind with
  | comm | exec =>
    rw [observeTask_named (by simp [hk]), htarget]
    grind
  | fork =>
    cases hpp : t.ppid with
    | none =>
      rw [observeTask_orphan hk hpp]
      grind
    | some pp =>
      rw [observeTask_fork hk hpp]
      grind
  | exit =>
    rw [observeTask_exit hk]
    simp

/-- A thread is excluded by a FORK under an unmarked process and let go by any
EXIT. -/
theorem mem_preExecThreads_observeTask {target : String} (htarget : f.targetComm = some target)
    {k : Key} :
    k ∈ (f.observeTask t).preExecThreads ↔
      ((t.kind = .fork ∧ t.ppid = some t.pid ∧ t.tid ≠ t.pid ∧ (t.pid, t.tid) = k) ∧
        k.1 ∈ f.pids ∧ k.1 ∉ f.execDone) ∨
      (k ∈ f.preExecThreads ∧ ¬ (t.kind = .exit ∧ (t.pid, t.tid) = k)) := by
  cases hk : t.kind with
  | comm | exec =>
    rw [observeTask_named (by simp [hk])]
    grind
  | fork =>
    cases hpp : t.ppid with
    | none =>
      rw [observeTask_orphan hk hpp]
      grind
    | some pp =>
      rw [observeTask_fork hk hpp]
      grind
  | exit =>
    rw [observeTask_exit hk]
    grind

end Observe

/-! ### The sets over a run -/

section After

variable {exe : String} {recs : List RawRecord} {n : Nat}

theorem after_succ : after exe recs (n + 1) = (after exe recs n).observeAll recs[n]?.toList := by
  unfold after
  rw [List.take_add_one, observeAll_append]

theorem after_succ_task {t : TaskEvent} (h : TaskAt recs n t) :
    after exe recs (n + 1) = (after exe recs n).observeTask t := by
  rw [after_succ, h]
  rfl

theorem after_succ_other (h : ∀ t, ¬ TaskAt recs n t) :
    after exe recs (n + 1) = after exe recs n := by
  rw [after_succ]
  cases hr : recs[n]? with
  | none => rfl
  | some r =>
    cases r with
    | task t => exact absurd hr (h t)
    | _ => rfl

@[simp] theorem targetComm_after : (after exe recs n).targetComm = some (targetOf exe) := by
  induction n with
  | zero => rfl
  | succ n ih =>
    by_cases h : ∃ t, TaskAt recs n t
    · obtain ⟨t, ht⟩ := h
      rw [after_succ_task ht, targetComm_observeTask, ih]
    · rw [after_succ_other (not_exists.mp h), ih]

theorem mem_pids_after : ∀ n p, p ∈ (after exe recs n).pids ↔ InTree recs n p := by
  refine spread_of_pass (fun p => Finset.notMem_empty p) ?_
  intro n p
  unfold RootAt ForkAt
  by_cases h : ∃ t, TaskAt recs n t
  · obtain ⟨t, ht⟩ := h
    simp only [ht.exists_iff]
    rw [after_succ_task ht, mem_pids_observeTask]
  · have hnone := not_exists.mp h
    rw [after_succ_other hnone]
    simp [hnone]

theorem mem_execDone_after :
    ∀ n p, p ∈ (after exe recs n).execDone ↔ Marked recs (targetOf exe) n p := by
  refine spread_of_pass (fun p => Finset.notMem_empty p) ?_
  intro n p
  simp only [← @mem_pids_after exe]
  unfold ExecAt ForkAt
  by_cases h : ∃ t, TaskAt recs n t
  · obtain ⟨t, ht⟩ := h
    simp only [ht.exists_iff]
    rw [after_succ_task ht, mem_execDone_observeTask targetComm_after]
  · have hnone := not_exists.mp h
    rw [after_succ_other hnone]
    simp [hnone]

theorem lingers_succ_iff {target : String} {k : Key} :
    Lingers recs target (n + 1) k ↔
      (ThreadForkAt recs n k ∧ InTree recs n k.1 ∧ ¬ Marked recs target n k.1) ∨
        (Lingers recs target n k ∧ ¬ ExitAt recs n k) := by
  constructor
  · intro ⟨i, hi, hfork, htree, hmark, hexit⟩
    by_cases hin : i = n
    · subst hin
      exact .inl ⟨hfork, htree, hmark⟩
    · refine .inr ⟨⟨i, by omega, hfork, htree, hmark, ?_⟩, hexit n (by omega) (by omega)⟩
      exact fun j hij hjn => hexit j hij (by omega)
  · intro h
    rcases h with ⟨hfork, htree, hmark⟩ | ⟨⟨i, hi, hfork, htree, hmark, hexit⟩, hlast⟩
    · exact ⟨n, by omega, hfork, htree, hmark, fun j hj hjn => by omega⟩
    · refine ⟨i, by omega, hfork, htree, hmark, ?_⟩
      intro j hij hjn
      by_cases hjn' : j = n
      · exact hjn' ▸ hlast
      · exact hexit j hij (by omega)

theorem mem_preExecThreads_after {k : Key} :
    k ∈ (after exe recs n).preExecThreads ↔ Lingers recs (targetOf exe) n k := by
  induction n with
  | zero => exact iff_of_false (Finset.notMem_empty k) fun ⟨i, hi, _⟩ => by omega
  | succ n ih =>
    rw [lingers_succ_iff, ← ih, ← @mem_pids_after exe, ← mem_execDone_after]
    unfold ThreadForkAt ExitAt
    by_cases h : ∃ t, TaskAt recs n t
    · obtain ⟨t, ht⟩ := h
      simp only [ht.exists_iff]
      rw [after_succ_task ht, mem_preExecThreads_observeTask targetComm_after]
    · have hnone := not_exists.mp h
      rw [after_succ_other hnone]
      simp [hnone]

/-- A thread passes the filter when its process is marked and it does not
linger from before. -/
theorem isLiveThread_iff {pid tid : Nat} :
    (after exe recs n).isLiveThread pid tid = true ↔
      Marked recs (targetOf exe) n pid ∧ ¬ Lingers recs (targetOf exe) n (pid, tid) := by
  simp only [isLiveThread, isLive, targetComm_after, Bool.and_eq_true, Bool.or_eq_true,
    decide_eq_true_eq, Bool.not_eq_true', decide_eq_false_iff_not, mem_pids_after,
    mem_execDone_after, mem_preExecThreads_after, Option.isNone_some, Bool.false_eq_true,
    false_or]
  constructor
  · intro ⟨⟨_, hmark⟩, hlinger⟩
    exact ⟨hmark, hlinger⟩
  · intro ⟨hmark, hlinger⟩
    exact ⟨⟨hmark.inTree, hmark⟩, hlinger⟩

theorem after_length : after exe recs recs.length = (default.expectingExecOf exe).observeAll recs := by
  rw [after, List.take_length]

end After

end PidTracker

/-! ## The liveness law -/

open PidTracker

/-- After a record sequence the live threads are exactly those that run the
target when, and only when, the tree saw every exec that counts, and each
exec'd process lets its threads go as their EXIT records say: a thread whose
latest FORK came before the exec has a FORK seen before the mark and no EXIT
since, and a thread forked after it has none. -/
theorem liveness_law (exe : String) (recs : List RawRecord) :
    (∀ pid tid, ((PidTracker.default.expectingExecOf exe).observeAll recs).isLiveThread pid tid =
        true ↔ RunsTarget recs (targetOf exe) pid tid) ↔
      (∀ pid, InTree recs recs.length pid → Execd recs (targetOf exe) recs.length pid →
        Marked recs (targetOf exe) recs.length pid) ∧
      ∀ pid tid, Marked recs (targetOf exe) recs.length pid →
        (Lingers recs (targetOf exe) recs.length (pid, tid) ↔
          ∃ i, LastThreadForkAt recs i (pid, tid) ∧ ¬ Execd recs (targetOf exe) i pid) := by
  rw [← after_length]
  simp only [isLiveThread_iff, RunsTarget]
  constructor
  · intro h
    constructor
    · intro pid htree hexecd
      -- no FORK creates the main thread inside its own process
      have hmain : ∀ i, ¬ LastThreadForkAt recs i (pid, pid) := by
        intro i ⟨⟨t, _, _, _, hne, hk⟩, _⟩
        simp only [Prod.mk.injEq] at hk
        omega
      exact ((h pid pid).mpr ⟨htree, hexecd, fun i hi => absurd hi (hmain i)⟩).1
    · intro pid tid hmark
      have hlive := h pid tid
      simp only [hmark, hmark.inTree, hmark.execd, true_and] at hlive
      rw [← not_iff_not, hlive]
      push Not
      rfl
  · intro ⟨hseen, hexits⟩ pid tid
    constructor
    · intro ⟨hmark, hlinger⟩
      refine ⟨hmark.inTree, hmark.execd, ?_⟩
      intro i hi
      by_contra hexecd
      exact hlinger ((hexits pid tid hmark).mpr ⟨i, hi, hexecd⟩)
    · intro ⟨htree, hexecd, hthread⟩
      have hmark := hseen pid htree hexecd
      refine ⟨hmark, ?_⟩
      intro hlinger
      obtain ⟨i, hi, hnot⟩ := (hexits pid tid hmark).mp hlinger
      exact hnot (hthread i hi)

/-- A launch whose shim has a runtime thread: the kernel ends that thread at
the exec, so its EXIT comes before the exec record. -/
def shimRecords : List RawRecord :=
  [.task ⟨.comm, 10, 10, none, none, none, some "perf-exec"⟩,
   .task ⟨.fork, 10, 11, some 10, some 10, some 1100, none⟩,
   .task ⟨.exit, 10, 11, some 10, some 10, some 1900, none⟩,
   .task ⟨.exec, 10, 10, none, none, some 2000, some "pt_fixture"⟩]

/-- The shim's thread is live after the exec though it never runs the target. -/
theorem liveness_shimThread :
    ¬ ∀ (exe : String) (recs : List RawRecord) (pid tid : Nat),
      ((PidTracker.default.expectingExecOf exe).observeAll recs).isLiveThread pid tid = true ↔
        RunsTarget recs (targetOf exe) pid tid := by
  intro h
  have hlive : ((PidTracker.default.expectingExecOf "/x/pt_fixture").observeAll
      shimRecords).isLiveThread 10 11 = true := by decide +kernel
  have htarget : targetOf "/x/pt_fixture" = "pt_fixture" := by decide +kernel
  obtain ⟨_, _, hthread⟩ := (h _ _ _ _).mp hlive
  have hfork : LastThreadForkAt shimRecords 1 (10, 11) := by
    refine ⟨⟨_, rfl, rfl, rfl, by decide, rfl⟩, ?_⟩
    intro j hj ⟨t, ht, hk, _⟩
    match j, hj, ht with
    | 2, _, ht => cases ht; cases hk
    | 3, _, ht => cases ht; cases hk
  have hexecd := hthread 1 hfork
  rw [htarget] at hexecd
  -- the only record before the FORK names perf-exec
  obtain ⟨i, pid, hi, t, ht, hnames, _⟩ := Spread.exists_seed hexecd
  match i, hi, ht with
  | 0, _, ht =>
    cases ht
    exact absurd hnames.2 (by decide)

end TraceMcp.Decode
