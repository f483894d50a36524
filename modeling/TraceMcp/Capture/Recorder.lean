import TraceMcp.Capture.Bundle
import TraceMcp.Lib.Text

/-!
# The direct recorder's process records

`DirectRecorder::handle_report` and `finish` of `src/capture/direct.rs`. The
launch shim reports each exec, thread and exit of the workload; the recorder
opens a ring for a thread it does not know, and keeps a record of each process
as `/proc` shows it, with the time of its last exec.

The record is read anew by an exec, by a thread whose ring is opened, by the
exit of a leader and by `finish`. A new record has no exec time of its own:
the last two take over the old one, a thread puts none. What execs were
observed is kept beside the recorder (`observe`), and `execTimes_iff` says in
which runs the records have them.
-/

namespace TraceMcp.Capture

open TraceMcp.Lib

/-! ## The recorder -/

/-- `tsc_to_ns`, with the shifts of a release build. -/
def tscToNs (tsc : UInt64) (t : Timing) : UInt64 :=
  let shift := t.shift.toUInt64
  let quot := tsc >>> shift
  let rem := tsc &&& ((1 <<< shift) - 1)
  t.zero + quot * t.mult.toUInt64 + (rem * t.mult.toUInt64) >>> shift

/-- `PtEvent` with its AUX ring. -/
structure RingEvent extends PtEvent where
  auxLen : Nat
  wrapped : Bool

/-- `DirectRecorder` while the workload runs, as far as reports concern it. -/
structure LiveRecorder where
  auxBytes : Nat
  auxBudget : Nat
  auxUsed : Nat
  rootPid : Option UInt32
  events : List RingEvent
  procs : FastMap UInt32 ProcInfo
  notes : List String

/-- What handling one report asks the system. -/
structure ReportEnv where
  /-- The `Tgid:` line of a thread's status. -/
  tgid : UInt32 → Option UInt32
  /-- `ProcInfo::read`. -/
  readProc : UInt32 → Option ProcInfo
  /-- `PtEvent::open` of a thread, with the recorder's event and filter. -/
  openRing : UInt32 → UInt32 → Nat → Result RingEvent
  /-- What a ring holds when it is stopped, and whether it wrapped. -/
  ring : RingEvent → List UInt8 × Bool
  /-- `rdtsc`. -/
  tsc : UInt64

inductive ReportAction
  | none
  | opened (pid : UInt32)
  | leaderExit (pid : UInt32)
  deriving DecidableEq

/-- `now_ns`. -/
def ReportEnv.now (env : ReportEnv) (e : RingEvent) : UInt64 := tscToNs env.tsc e.timing

/-- `tgid_of`. -/
def ReportEnv.tgidOf (env : ReportEnv) (tid : UInt32) : UInt32 := (env.tgid tid).getD tid

/-- `take_snapshot`. -/
def ReportEnv.takeSnapshot (env : ReportEnv) (e : RingEvent) : RingEvent :=
  if e.snapshot.isSome then e
  else { e with snapshot := some (env.ring e).1, wrapped := (env.ring e).2 }

/-- What a report line says. -/
inductive Report
  | exec (tid : UInt32)
  | thread (tid : UInt32)
  | exit (tid : UInt32)
  | error
  | other
  deriving DecidableEq

/-- The first two words of a line, the second as a `u32`. -/
def parseReport (line : List Char) : Report :=
  let ws := Text.words line
  let kind := ws.head?.map String.ofList
  let tid := ((ws.drop 1).head?.bind Text.parseU32).map UInt32.ofNat
  match kind, tid with
  | some "exec", some tid => .exec tid
  | some "thread", some tid => .thread tid
  | some "exit", some tid => .exit tid
  | some "error", _ => .error
  | _, _ => .other

namespace LiveRecorder

variable (r : LiveRecorder) (env : ReportEnv)

/-- The event of a thread. -/
def event (tid : UInt32) : Option RingEvent := r.events.find? fun e => e.tid = tid

def note (text : String) : LiveRecorder := { r with notes := r.notes ++ [text] }

def setProc (pid : UInt32) (p : ProcInfo) : LiveRecorder :=
  { r with procs := r.procs.insert pid p }

/-- The first process that is reported to exec is the root. -/
def withRoot (exec : Bool) (pid : UInt32) : LiveRecorder :=
  if exec && r.rootPid.isNone then { r with rootPid := some pid } else r

/-- The ring size of the next thread: what is left of the budget, as a power of
two, at least 64 KiB. -/
def ringSize : Nat :=
  let size := min r.auxBytes (r.auxBudget - r.auxUsed)
  if 65536 ≤ size then 2 ^ size.log2 else 0

/-- An `exec` of a thread with a ring. -/
def reExec (e : RingEvent) (tid : UInt32) : LiveRecorder × ReportAction :=
  let pid := env.tgidOf tid
  match env.readProc pid with
  | some p => (r.setProc pid { p with execNs := some (env.now e) }, .opened pid)
  | none => (r, .opened pid)

/-- The record of a process one of whose threads got its ring. -/
def openedProc (pid : UInt32) (execNs : Option UInt64) : LiveRecorder :=
  match env.readProc pid with
  | some p => r.setProc pid { p with execNs := execNs }
  | none =>
    { r with procs := r.procs.modify pid fun p => { p with execNs := execNs.or p.execNs } }

/-- An `exec` or `thread` of a thread that may have no ring yet. -/
def openThread (exec : Bool) (tid : UInt32) : LiveRecorder × ReportAction :=
  let pid := env.tgidOf tid
  let r := r.withRoot exec pid
  if (r.event tid).isSome then (r, .none)
  else if r.ringSize = 0 then
    (r.note s!"thread {tid} not traced: AUX budget {r.auxBudget} exhausted", .none)
  else
    match env.openRing pid tid r.ringSize with
    | .ok e =>
      let execNs := if exec then some (env.now e) else none
      (({ r with auxUsed := r.auxUsed + e.auxLen, events := r.events ++ [e] }).openedProc env pid
        execNs, .opened pid)
    | .error err => (r.note s!"thread {tid} could not be traced: {err.display}", .none)

/-- Read a process again, keeping the exec time of its record. -/
def rereadProc (pid : UInt32) : LiveRecorder :=
  match env.readProc pid with
  | some p => r.setProc pid { p with execNs := (r.procs.get pid).bind (·.execNs) }
  | none => r

/-- An `exit`: the thread's ring is stopped, and a leader's maps are still
readable. -/
def exitThread (tid : UInt32) : LiveRecorder × ReportAction :=
  let r := { r with
    events := r.events.modify (r.events.findIdx fun e => e.tid = tid) env.takeSnapshot }
  if env.tgidOf tid = tid then (r.rereadProc env tid, .leaderExit tid) else (r, .none)

/-- `handle_report`; the acknowledgement is left out. -/
def handleReport (line : List Char) : LiveRecorder × ReportAction :=
  match parseReport line with
  | .exec tid =>
    match r.event tid with
    | some e => r.reExec env e tid
    | none => r.openThread env true tid
  | .thread tid => r.openThread env false tid
  | .exit tid => r.exitThread env tid
  | .error => (r.note s!"launch shim: {String.ofList line}", .none)
  | .other => (r, .none)

/-- The pids with a ring, in order. -/
def eventPids : List UInt32 := ((r.events.map (·.pid)).mergeSort (· ≤ ·)).dedup

/-- `finish`, with the processes that are still alive. -/
def finish : LiveRecorder × List UInt32 :=
  let r := { r with events := r.events.map env.takeSnapshot }
  (r.eventPids.foldl (fun r pid => r.rereadProc env pid) r,
    r.eventPids.filter fun pid => (env.readProc pid).isSome)

end LiveRecorder

/-! ## What reports do to the records -/

/-- What a report comes to for the process records. -/
inductive ProcWrite
  | none
  | reExec (pid : UInt32) (t : UInt64)
  | opened (pid : UInt32) (execNs : Option UInt64)
  | reread (pid : UInt32)

namespace ProcWrite

/-- The write of an exec or a thread that may have no ring yet. -/
def ofThread (r : LiveRecorder) (env : ReportEnv) (exec : Bool) (tid : UInt32) : ProcWrite :=
  if (r.event tid).isSome ∨ r.ringSize = 0 then .none
  else
    match env.openRing (env.tgidOf tid) tid r.ringSize with
    | .ok e => .opened (env.tgidOf tid) (if exec then some (env.now e) else Option.none)
    | .error _ => .none

def ofReport (r : LiveRecorder) (env : ReportEnv) : Report → ProcWrite
  | .exec tid =>
    match r.event tid with
    | some e => .reExec (env.tgidOf tid) (env.now e)
    | Option.none => ofThread r env true tid
  | .thread tid => ofThread r env false tid
  | .exit tid => if env.tgidOf tid = tid then .reread tid else .none
  | .error => .none
  | .other => .none

/-- The records after the write. -/
def procs (env : ReportEnv) (m : FastMap UInt32 ProcInfo) : ProcWrite → FastMap UInt32 ProcInfo
  | .none => m
  | .reExec pid t =>
    match env.readProc pid with
    | some p => m.insert pid { p with execNs := some t }
    | Option.none => m
  | .opened pid execNs =>
    match env.readProc pid with
    | some p => m.insert pid { p with execNs := execNs }
    | Option.none => m.modify pid fun p => { p with execNs := execNs.or p.execNs }
  | .reread pid =>
    match env.readProc pid with
    | some p => m.insert pid { p with execNs := (m.get pid).bind (·.execNs) }
    | Option.none => m

/-- The exec that was observed, of which process and when. -/
def exec : ProcWrite → Option (UInt32 × UInt64)
  | .reExec pid t => some (pid, t)
  | .opened pid execNs => execNs.map fun t => (pid, t)
  | _ => Option.none

end ProcWrite

section Writes

variable {r : LiveRecorder} {env : ReportEnv}

theorem rereadProc_procs (r : LiveRecorder) (env : ReportEnv) (pid : UInt32) :
    (r.rereadProc env pid).procs = (ProcWrite.reread pid).procs env r.procs := by
  unfold LiveRecorder.rereadProc ProcWrite.procs
  dsimp only
  cases env.readProc pid <;> rfl

theorem withRoot_event (r : LiveRecorder) (exec : Bool) (pid tid : UInt32) :
    (r.withRoot exec pid).event tid = r.event tid := by
  unfold LiveRecorder.withRoot
  split <;> rfl

theorem withRoot_ringSize (r : LiveRecorder) (exec : Bool) (pid : UInt32) :
    (r.withRoot exec pid).ringSize = r.ringSize := by
  unfold LiveRecorder.withRoot
  split <;> rfl

theorem withRoot_procs (r : LiveRecorder) (exec : Bool) (pid : UInt32) :
    (r.withRoot exec pid).procs = r.procs := by
  unfold LiveRecorder.withRoot
  split <;> rfl

theorem openThread_procs (r : LiveRecorder) (env : ReportEnv) (exec : Bool) (tid : UInt32) :
    (r.openThread env exec tid).1.procs =
      (ProcWrite.ofThread r env exec tid).procs env r.procs := by
  have hprocs := withRoot_procs r exec (env.tgidOf tid)
  unfold LiveRecorder.openThread
  dsimp only
  rw [withRoot_event, withRoot_ringSize]
  unfold ProcWrite.ofThread
  by_cases hknown : (r.event tid).isSome = true
  · rw [if_pos hknown, if_pos (.inl hknown)]
    exact hprocs
  · rw [if_neg hknown]
    by_cases hfull : r.ringSize = 0
    · rw [if_pos hfull, if_pos (.inr hfull)]
      exact hprocs
    · rw [if_neg hfull, if_neg (by rintro (h | h); exacts [hknown h, hfull h])]
      cases env.openRing (env.tgidOf tid) tid r.ringSize with
      | error err => exact hprocs
      | ok e =>
        rw [← hprocs]
        unfold LiveRecorder.openedProc
        dsimp only
        unfold ProcWrite.procs
        dsimp only
        cases env.readProc (env.tgidOf tid) <;> rfl

/-- A report writes what it comes to. -/
theorem handleReport_procs (r : LiveRecorder) (env : ReportEnv) (line : List Char) :
    (r.handleReport env line).1.procs =
      (ProcWrite.ofReport r env (parseReport line)).procs env r.procs := by
  unfold LiveRecorder.handleReport
  cases parseReport line with
  | exec tid =>
    unfold ProcWrite.ofReport
    dsimp only
    cases r.event tid with
    | some e =>
      unfold LiveRecorder.reExec ProcWrite.procs
      dsimp only
      cases env.readProc (env.tgidOf tid) <;> rfl
    | none => exact openThread_procs r env true tid
  | thread tid => exact openThread_procs r env false tid
  | exit tid =>
    unfold LiveRecorder.exitThread ProcWrite.ofReport
    dsimp only
    by_cases hleader : env.tgidOf tid = tid
    · rw [if_pos hleader, if_pos hleader]
      exact rereadProc_procs ..
    · rw [if_neg hleader, if_neg hleader]
      rfl
  | error => rfl
  | other => rfl

end Writes

/-! ## Keeping exec times -/

/-- The last exec observed of each process. -/
abbrev Execs := UInt32 → Option UInt64

/-- Whatever record there is of a process, it has the last exec observed. -/
def Timed (m : FastMap UInt32 ProcInfo) (obs : Execs) : Prop :=
  ∀ pid p t, m.get pid = some p → obs pid = some t → p.execNs = some t

def ProcWrite.observe (obs : Execs) (w : ProcWrite) : Execs :=
  match w.exec with
  | some (pid, t) => Function.update obs pid (some t)
  | Option.none => obs

/-- A write that loses no exec time: an exec of a thread with a ring can be
read, or finds no record, or one of that very time; a thread that gets a ring
belongs to a process without an exec, or to one that cannot be read; and what
is read again has a record, or had no exec. -/
def ProcWrite.Keeps (env : ReportEnv) (m : FastMap UInt32 ProcInfo) (obs : Execs) :
    ProcWrite → Prop
  | .none => True
  | .reExec pid t => env.readProc pid = Option.none → ∀ p, m.get pid = some p → p.execNs = some t
  | .opened pid execNs => env.readProc pid ≠ Option.none → execNs = Option.none →
      obs pid = Option.none
  | .reread pid => env.readProc pid ≠ Option.none → m.get pid = Option.none → obs pid = Option.none

section Timed

variable {m : FastMap UInt32 ProcInfo} {obs : Execs} {env : ReportEnv}

/-- Records stay timed under a new record exactly when that is timed. -/
theorem timed_insert (h : Timed m obs) (pid : UInt32) (p : ProcInfo) :
    Timed (m.insert pid p) obs ↔ ∀ t, obs pid = some t → p.execNs = some t := by
  constructor
  · intro hins t ht
    exact hins pid p t (FastMap.get_insert_self ..) ht
  · intro hp pid' p' t hget ht
    rw [show FastMap.get (m.insert pid p) pid' = _ from FastMap.get_insert ..] at hget
    split at hget
    next heq =>
      obtain rfl := Option.some.inj hget
      exact hp t (heq ▸ ht)
    next => exact h pid' p' t hget ht

/-- An observed exec asks for a record of its time. -/
theorem timed_update {pid : UInt32} (h : ∀ pid' p t, pid' ≠ pid → m.get pid' = some p → obs pid' = some t →
      p.execNs = some t) (t : UInt64) :
    Timed m (Function.update obs pid (some t)) ↔
      ∀ p, m.get pid = some p → p.execNs = some t := by
  constructor
  · intro hup p hp
    exact hup pid p t hp (Function.update_self ..)
  · intro hp pid' p' t' hget ht
    by_cases heq : pid' = pid
    · subst heq
      rw [Function.update_self] at ht
      rw [← ht]
      exact hp p' hget
    · rw [Function.update_of_ne heq] at ht
      exact h pid' p' t' heq hget ht

/-- A record of another process, or one that already has the time, does not
matter to an observed exec. -/
theorem timed_exec (h : Timed m obs) {m' : FastMap UInt32 ProcInfo} {pid : UInt32} {t : UInt64}
    (hother : ∀ pid', pid' ≠ pid → m'.get pid' = m.get pid')
    (hself : ∀ p, m'.get pid = some p → p.execNs = some t) :
    Timed m' (Function.update obs pid (some t)) := by
  refine (timed_update (fun pid' p t' hne hget ht => ?_) t).mpr hself
  rw [hother pid' hne] at hget
  exact h pid' p t' hget ht

/-- A write keeps the exec times exactly when it loses none. -/
theorem ProcWrite.timed_iff (h : Timed m obs) (w : ProcWrite) :
    Timed (w.procs env m) (w.observe obs) ↔ w.Keeps env m obs := by
  cases w with
  | none => exact iff_of_true h trivial
  -- a re-exec is timed, so it is lost only when the process cannot be read again
  | reExec pid t =>
    show Timed (match env.readProc pid with | some p => _ | Option.none => m)
      (Function.update obs pid (some t)) ↔ (env.readProc pid = Option.none → _)
    cases env.readProc pid with
    | none =>
      refine (timed_update (fun pid' p t' _ => h pid' p t') t).trans ?_
      exact ⟨fun hp _ => hp, fun hp => hp rfl⟩
    | some p =>
      refine iff_of_true (timed_exec h (fun pid' hne => ?_) fun p' hget => ?_) nofun
      · exact (FastMap.get_insert ..).trans (if_neg hne)
      · rw [← Option.some.inj ((FastMap.get_insert_self ..).symm.trans hget)]
  -- opening without a time overwrites a time that was observed before
  | opened pid execNs =>
    cases execNs with
    | some t =>
      refine iff_of_true ?_ nofun
      show Timed (match env.readProc pid with | some p => _ | Option.none => _)
        (Function.update obs pid (some t))
      cases env.readProc pid with
      | none =>
        refine timed_exec h (fun pid' hne => ?_) fun p' hget => ?_
        · exact (FastMap.get_modify ..).trans (if_neg hne)
        · rw [show FastMap.get _ pid = _ from FastMap.get_modify .., if_pos rfl] at hget
          obtain ⟨p, -, rfl⟩ := Option.map_eq_some_iff.mp hget
          rfl
      | some p =>
        refine timed_exec h (fun pid' hne => ?_) fun p' hget => ?_
        · exact (FastMap.get_insert ..).trans (if_neg hne)
        · rw [← Option.some.inj ((FastMap.get_insert_self ..).symm.trans hget)]
    | none =>
      show Timed (match env.readProc pid with | some p => _ | Option.none => _) obs ↔
        (env.readProc pid ≠ Option.none → _)
      cases env.readProc pid with
      | none =>
        refine iff_of_true (fun pid' p t hget ht => ?_) fun hne => absurd rfl hne
        rw [show FastMap.get _ pid' = _ from FastMap.get_modify ..] at hget
        split at hget
        next heq =>
          subst heq
          obtain ⟨q, hq, rfl⟩ := Option.map_eq_some_iff.mp hget
          exact h pid' q t hq ht
        next => exact h pid' p t hget ht
      | some p =>
        refine (timed_insert h pid _).trans ⟨fun hp _ _ => ?_, fun hobs t ht => ?_⟩
        · cases hpid : obs pid with
          | none => rfl
          | some t => cases hp t hpid
        · rw [hobs (Option.some_ne_none p) rfl] at ht
          cases ht
  -- a reread takes the time of the old entry over, so it loses one only without an entry
  | reread pid =>
    show Timed (match env.readProc pid with | some p => _ | Option.none => m) obs ↔
      (env.readProc pid ≠ Option.none → _)
    cases env.readProc pid with
    | none => exact iff_of_true h fun hne => absurd rfl hne
    | some p =>
      refine (timed_insert h pid _).trans ⟨fun hp _ hnone => ?_, fun hobs t ht => ?_⟩
      · cases hpid : obs pid with
        | none => rfl
        | some t =>
          have hexec := hp t hpid
          rw [hnone] at hexec
          cases hexec
      · show (m.get pid).bind (·.execNs) = some t
        cases hget : m.get pid with
        | none =>
          rw [hobs (Option.some_ne_none p) hget] at ht
          cases ht
        | some q => exact h pid q t hget ht

end Timed

/-! ## Runs -/

/-- The recorder, and the execs observed so far. -/
structure Watched where
  recorder : LiveRecorder
  execs : Execs

namespace Watched

/-- One report. -/
def report (w : Watched) (step : ReportEnv × List Char) : Watched where
  recorder := (w.recorder.handleReport step.1 step.2).1
  execs := (ProcWrite.ofReport w.recorder step.1 (parseReport step.2)).observe w.execs

def reports (w : Watched) (steps : List (ReportEnv × List Char)) : Watched := steps.foldl report w

def Timed (w : Watched) : Prop := Capture.Timed w.recorder.procs w.execs

/-- The report loses no exec time. -/
def Keeps (w : Watched) (step : ReportEnv × List Char) : Prop :=
  (ProcWrite.ofReport w.recorder step.1 (parseReport step.2)).Keeps step.1 w.recorder.procs w.execs

/-- Neither does the end. -/
def FinishKeeps (w : Watched) (env : ReportEnv) : Prop :=
  ∀ pid ∈ w.recorder.eventPids, (ProcWrite.reread pid).Keeps env w.recorder.procs w.execs

variable {w : Watched} {env : ReportEnv}

theorem report_timed_iff (h : w.Timed) (step : ReportEnv × List Char) :
    (w.report step).Timed ↔ w.Keeps step := by
  unfold Timed report
  rw [handleReport_procs]
  exact ProcWrite.timed_iff h _

theorem get_rereadProc (r : LiveRecorder) (pid pid' : UInt32) :
    (r.rereadProc env pid).procs.get pid' =
      if pid' = pid then
        match env.readProc pid with
        | some p => some { p with execNs := (r.procs.get pid).bind (·.execNs) }
        | none => r.procs.get pid
      else r.procs.get pid' := by
  unfold LiveRecorder.rereadProc
  cases env.readProc pid with
  | none =>
    dsimp only
    split
    next heq => rw [heq]
    next => rfl
  | some p => exact FastMap.get_insert ..

/-- The records after reading some processes again: the same ones, each with
the exec time it had. -/
theorem get_reread (pids : List UInt32) (r : LiveRecorder) (pid : UInt32) :
    (pids.foldl (fun r pid => r.rereadProc env pid) r).procs.get pid =
      if pid ∈ pids then
        match env.readProc pid with
        | some p => some { p with execNs := (r.procs.get pid).bind (·.execNs) }
        | none => r.procs.get pid
      else r.procs.get pid := by
  induction pids generalizing r with
  | nil => exact (if_neg List.not_mem_nil).symm
  | cons pid' pids ih =>
    rw [List.foldl_cons, ih, get_rereadProc]
    by_cases heq : pid = pid'
    · subst heq
      rw [if_pos rfl, if_pos List.mem_cons_self]
      -- reading it once more changes nothing
      cases env.readProc pid with
      | none => exact ite_self _
      | some p => exact ite_self _
    · rw [if_neg heq]
      exact if_congr (by rw [List.mem_cons, or_iff_right heq]) rfl rfl

theorem takeSnapshot_pid (env : ReportEnv) (e : RingEvent) : (env.takeSnapshot e).pid = e.pid := by
  unfold ReportEnv.takeSnapshot
  split <;> rfl

theorem finish_procs (r : LiveRecorder) (env : ReportEnv) (pid : UInt32) :
    (r.finish env).1.procs.get pid =
      if pid ∈ r.eventPids then
        match env.readProc pid with
        | some p => some { p with execNs := (r.procs.get pid).bind (·.execNs) }
        | none => r.procs.get pid
      else r.procs.get pid := by
  have hpids : ({ r with events := r.events.map env.takeSnapshot } : LiveRecorder).eventPids =
      r.eventPids := by
    have hmap : (r.events.map env.takeSnapshot).map (·.pid) = r.events.map (·.pid) := by
      rw [List.map_map]
      exact List.map_congr_left fun e _ => takeSnapshot_pid env e
    unfold LiveRecorder.eventPids
    rw [hmap]
  unfold LiveRecorder.finish
  dsimp only
  rw [get_reread, hpids]

theorem finish_timed_iff (h : w.Timed) (env : ReportEnv) :
    Capture.Timed (w.recorder.finish env).1.procs w.execs ↔ w.FinishKeeps env := by
  constructor
  · intro hend pid hpid hread hnone
    obtain ⟨p, hp⟩ := Option.ne_none_iff_exists'.mp hread
    cases hexec : w.execs pid with
    | none => rfl
    | some t =>
      have hget := finish_procs w.recorder env pid
      rw [if_pos hpid, hp, hnone] at hget
      cases hend pid _ t hget hexec
  · intro hkeeps pid p t hget hexec
    rw [finish_procs] at hget
    split at hget
    next hpid =>
      cases hread : env.readProc pid with
      | none =>
        rw [hread] at hget
        exact h pid p t hget hexec
      | some q =>
        rw [hread] at hget
        rw [← Option.some.inj hget]
        show (w.recorder.procs.get pid).bind (·.execNs) = some t
        cases hold : w.recorder.procs.get pid with
        | none =>
          have hnone := hkeeps pid hpid (by rw [hread]; exact Option.some_ne_none q) hold
          rw [hnone] at hexec
          cases hexec
        | some old => exact h pid old t hold hexec
    next => exact h pid p t hget hexec

/-- Before anything was observed. -/
def start (r : LiveRecorder) : Watched := ⟨r, fun _ => none⟩

theorem start_timed (r : LiveRecorder) : (start r).Timed := fun _ _ _ _ ht => by cases ht

/-- Over every sequence of reports and the end, the records have the last exec
times throughout exactly when no report and not the end loses one. -/
theorem execTimes_iff (r : LiveRecorder) (steps : List (ReportEnv × List Char)) (env : ReportEnv) :
    ((∀ pre post, steps = pre ++ post → ((start r).reports pre).Timed) ∧
      Capture.Timed (((start r).reports steps).recorder.finish env).1.procs
        ((start r).reports steps).execs) ↔
    ((∀ pre step post, steps = pre ++ step :: post → ((start r).reports pre).Keeps step) ∧
      ((start r).reports steps).FinishKeeps env) := by
  have hsnoc : ∀ pre step, (start r).reports (pre ++ [step]) =
      ((start r).reports pre).report step := fun pre step => List.foldl_concat ..
  constructor
  · rintro ⟨htimed, hend⟩
    refine ⟨fun pre step post hsplit => ?_, (finish_timed_iff (htimed steps [] ?_) env).mp hend⟩
    · apply (report_timed_iff (htimed pre (step :: post) hsplit) step).mp
      rw [← hsnoc]
      exact htimed (pre ++ [step]) post (by rw [hsplit, List.append_assoc]; rfl)
    · exact (List.append_nil steps).symm
  · rintro ⟨hkeeps, hend⟩
    have htimed : ∀ pre post, steps = pre ++ post → ((start r).reports pre).Timed := by
      intro pre
      induction pre using List.reverseRecOn with
      | nil => exact fun _ _ => start_timed r
      | append_singleton pre step ih =>
        intro post hsplit
        have hstep : steps = pre ++ step :: post := by rw [hsplit, List.append_assoc]; rfl
        rw [hsnoc]
        exact (report_timed_iff (ih (step :: post) hstep) step).mpr (hkeeps pre step post hstep)
    exact ⟨htimed, (finish_timed_iff (htimed steps [] (List.append_nil steps).symm) env).mpr hend⟩

/-! ### A process with two threads -/

/-- A system where process 7 has every thread. -/
def oneProcess : ReportEnv where
  tgid _ := some 7
  readProc pid := some ⟨pid, 1, "a", [], none⟩
  openRing pid tid size :=
    .ok { pid := pid, tid := tid, comm := "a", snapshot := none, timing := ⟨0, 1, 0, true⟩,
          auxLen := size, wrapped := false }
  ring _ := ([], false)
  tsc := 1000

/-- A recorder with room for two rings. -/
def twoRings : LiveRecorder := ⟨65536, 131072, 0, none, [], ∅, []⟩

/-- The process execs and then starts a thread: its exec time is gone. -/
theorem execTimes_thread :
    ¬ ∀ (r : LiveRecorder) (steps : List (ReportEnv × List Char)) (env : ReportEnv),
      (∀ pre post, steps = pre ++ post → ((start r).reports pre).Timed) ∧
        Capture.Timed (((start r).reports steps).recorder.finish env).1.procs
          ((start r).reports steps).execs := by
  intro h
  have htimed := (h twoRings [(oneProcess, "exec 7".toList), (oneProcess, "thread 8".toList)]
    oneProcess).1 _ [] (List.append_nil _).symm
  have hget : (((start twoRings).reports [(oneProcess, "exec 7".toList),
      (oneProcess, "thread 8".toList)]).recorder.procs.get 7).map (·.execNs) = some none := by
    decide +kernel
  have hexec : ((start twoRings).reports [(oneProcess, "exec 7".toList),
      (oneProcess, "thread 8".toList)]).execs 7 = some 1000 := by
    decide +kernel
  obtain ⟨p, hp, hnone⟩ := Option.map_eq_some_iff.mp hget
  have hsome := htimed 7 p 1000 hp hexec
  rw [hnone] at hsome
  cases hsome

end Watched

end TraceMcp.Capture
