import TraceMcp.Capture.Rings

/-!
# The threads of the direct recorder

`DirectRecorder::poll_threads` of `src/capture/direct.rs`, and what it and the
shim's reports do to the events. Every thread has a ring of its own until the
bundle is written; the budget is what all rings together may take. A thread
that gets no ring is to be noted (`untraced`), but one whose id belonged to a
thread that is gone has the event of that, which records no more.

The events, as far as the budget is about them, are a `Ledger`: a step leaves it
as it is, or books one more ring (`Ledger.Step`).
-/

namespace TraceMcp.Capture

open TraceMcp.Lib

/-! ## Polling -/

/-- The note on a thread without a ring because the budget is used up, as `poll_threads` has it. -/
def pollExhausted (tid : UInt32) : String := s!"thread {tid} not traced: AUX budget exhausted"

def appearedLate (tid : UInt32) : String :=
  s!"thread {tid} appeared after attach: traced from its discovery, not its start"

namespace LiveRecorder

/-- The loop body of `poll_threads`, for a thread of the attached process. -/
def pollThread (env : ReportEnv) (pid : UInt32) (late : Bool) (r : LiveRecorder) (tid : UInt32) :
    LiveRecorder :=
  if (r.event tid).isSome then r
  else
    let remaining := r.auxBudget - r.auxUsed
    let size := min r.auxBytes remaining
    if size < 65536 then r.note (pollExhausted tid)
    else
      match env.openRing pid tid (2 ^ size.log2) with
      | .ok e =>
        let r := { r with auxUsed := r.auxUsed + e.auxLen, events := r.events ++ [e] }
        if late then r.note (appearedLate tid) else r
      | .error err => r.note s!"thread {tid} could not be traced: {err.display}"

/-- `poll_threads`, with the attached process and the threads that its task
directory lists, if it can be read. -/
def pollThreads (env : ReportEnv) (attach : Option UInt32) (tasks : Option (List UInt32))
    (r : LiveRecorder) : LiveRecorder × Nat :=
  match attach, tasks with
  | some pid, some tids =>
    let r := tids.foldl (pollThread env pid !r.events.isEmpty) r
    (r, r.events.length)
  | _, _ => (r, r.events.length)

end LiveRecorder

/-- What happens to the recorder. -/
inductive RecorderStep
  | report (sys : Answers) (line : List Char)
  | poll (sys : Answers) (tasks : Option (List UInt32))

namespace LiveRecorder

def step (page : Nat) (attach : Option UInt32) (r : LiveRecorder) : RecorderStep → LiveRecorder
  | .report sys line => (r.handleReport (sys.env page) line).1
  | .poll sys tasks => (r.pollThreads (sys.env page) attach tasks).1

def run (page : Nat) (attach : Option UInt32) (r : LiveRecorder) (steps : List RecorderStep) :
    LiveRecorder :=
  steps.foldl (step page attach) r

theorem run_concat (page : Nat) (attach : Option UInt32) (r : LiveRecorder)
    (steps : List RecorderStep) (s : RecorderStep) :
    r.run page attach (steps ++ [s]) = (r.run page attach steps).step page attach s :=
  List.foldl_concat ..

end LiveRecorder

/-! ## The ledger -/

/-- The limits, what is used, and the rings with their threads. -/
structure Ledger where
  auxBytes : Nat
  auxBudget : Nat
  auxUsed : Nat
  rings : List (UInt32 × Nat)

namespace Ledger

/-- A size that may be asked of the system: a power of two of at least 64 KiB
that fits a thread's limit and what is left. -/
def Grants (l : Ledger) (size : Nat) : Prop :=
  (∃ k, size = 2 ^ k) ∧ 65536 ≤ size ∧ size ≤ l.auxBytes ∧ size ≤ l.auxBudget - l.auxUsed

def opened (l : Ledger) (tid : UInt32) (len : Nat) : Ledger :=
  { l with auxUsed := l.auxUsed + len, rings := l.rings ++ [(tid, len)] }

/-- Nothing changes, or a thread without a ring gets one. -/
inductive Step (page : Nat) (l : Ledger) : Ledger → Prop
  | same : Step page l l
  | opened (tid : UInt32) (size : Nat) (hnew : tid ∉ l.rings.map Prod.fst) (hsize : l.Grants size) :
    Step page l (l.opened tid (auxLen page size))

/-- The rings add up to what is used, that is within the budget, and every ring
has an admissible size. -/
structure Within (l : Ledger) : Prop where
  used : l.auxUsed = (l.rings.map Prod.snd).sum
  budget : l.auxUsed ≤ l.auxBudget
  sizes : ∀ ring ∈ l.rings, (∃ k, ring.2 = 2 ^ k) ∧ 65536 ≤ ring.2 ∧ ring.2 ≤ l.auxBytes

def OneEach (l : Ledger) : Prop := (l.rings.map Prod.fst).Nodup

variable {l l' : Ledger} {page : Nat}

theorem Step.limits (h : Step page l l') :
    l'.auxBytes = l.auxBytes ∧ l'.auxBudget = l.auxBudget := by
  cases h <;> exact ⟨rfl, rfl⟩

theorem OneEach.step (h : l.OneEach) (hstep : Step page l l') : l'.OneEach := by
  cases hstep with
  | same => exact h
  | opened tid size hnew hsize =>
    show ((l.rings ++ [(tid, auxLen page size)]).map Prod.fst).Nodup
    rw [List.map_append]
    refine List.nodup_append.mpr ⟨h, List.nodup_singleton tid, fun a ha b hb heq => hnew ?_⟩
    have hb : b = tid := List.mem_singleton.mp hb
    rw [← hb, ← heq]
    exact ha

/-- `open` rounds a granted size no further: it is a power of two already, and
no smaller than two pages. -/
theorem auxLen_granted (hpage : page ≤ 32768) {size : Nat} (h : l.Grants size) :
    auxLen page size = size := by
  obtain ⟨⟨k, hk⟩, hmin, -, -⟩ := h
  rw [auxLen, max_eq_left (by omega), hk, nextPow2_pow]

theorem Within.step (hpage : page ≤ 32768) (h : l.Within) (hstep : Step page l l') :
    l'.Within := by
  cases hstep with
  | same => exact h
  | opened tid size hnew hsize =>
    rw [auxLen_granted hpage hsize]
    obtain ⟨hpow, hmin, hbytes, hleft⟩ := hsize
    have hused := h.used
    have hbudget := h.budget
    refine ⟨?_, ?_, fun ring hring => ?_⟩
    · show l.auxUsed + size = ((l.rings ++ [(tid, size)]).map Prod.snd).sum
      rw [List.map_append, List.sum_append, ← hused]
      rfl
    · show l.auxUsed + size ≤ l.auxBudget
      omega
    · rcases List.mem_append.mp hring with hring | hring
      · exact h.sizes ring hring
      · rw [List.mem_singleton.mp hring]
        exact ⟨hpow, hmin, hbytes⟩

end Ledger

/-! ## The recorder keeps a ledger -/

namespace LiveRecorder

def ledger (r : LiveRecorder) : Ledger where
  auxBytes := r.auxBytes
  auxBudget := r.auxBudget
  auxUsed := r.auxUsed
  rings := r.events.map fun e => (e.tid, e.auxLen)

section Frame

variable (r : LiveRecorder) (env : ReportEnv)

theorem note_ledger (text : String) : (r.note text).ledger = r.ledger := rfl

theorem withRoot_ledger (exec : Bool) (pid : UInt32) : (r.withRoot exec pid).ledger = r.ledger := by
  unfold withRoot
  split <;> rfl

theorem reExec_ledger (e : RingEvent) (tid : UInt32) :
    (r.reExec env e tid).1.ledger = r.ledger := by
  unfold reExec
  dsimp only
  split <;> rfl

theorem openedProc_ledger (pid : UInt32) (execNs : Option UInt64) :
    (r.openedProc env pid execNs).ledger = r.ledger := by
  unfold openedProc
  split <;> rfl

theorem rereadProc_ledger (pid : UInt32) : (r.rereadProc env pid).ledger = r.ledger := by
  unfold rereadProc
  split <;> rfl

/-- A stopped event keeps its thread and its ring. -/
theorem takeSnapshot_ring (e : RingEvent) :
    ((env.takeSnapshot e).tid, (env.takeSnapshot e).auxLen) = (e.tid, e.auxLen) := by
  unfold ReportEnv.takeSnapshot
  split <;> rfl

theorem exitThread_ledger (tid : UInt32) : (r.exitThread env tid).1.ledger = r.ledger := by
  have hrings : ∀ n, (r.events.modify n env.takeSnapshot).map (fun e => (e.tid, e.auxLen)) =
      r.events.map fun e => (e.tid, e.auxLen) := by
    intro n
    apply List.ext_getElem?
    intro i
    rw [List.getElem?_map, List.getElem?_map, List.getElem?_modify]
    cases r.events[i]? with
    | none => rfl
    | some e =>
      apply congrArg some
      dsimp only
      split
      · exact takeSnapshot_ring env e
      · rfl
  have hstopped : ∀ n, ({ r with events := r.events.modify n env.takeSnapshot } :
      LiveRecorder).ledger = r.ledger := by
    intro n
    rw [ledger, hrings]
    rfl
  unfold exitThread
  dsimp only
  split
  · rw [rereadProc_ledger, hstopped]
  · exact hstopped _

end Frame

section Steps

variable {r : LiveRecorder} {page : Nat} {sys : Answers}

theorem event_eq_none {tid : UInt32} : (r.event tid) = none ↔ tid ∉ r.ledger.rings.map Prod.fst := by
  unfold event
  rw [List.find?_eq_none, ledger, List.map_map, List.mem_map]
  constructor
  · rintro h ⟨e, he, heq⟩
    exact h e he (decide_eq_true heq)
  · intro h e he heq
    exact h ⟨e, he, of_decide_eq_true heq⟩

/-- The size that is asked for is one the ledger grants. -/
theorem grants_log2 (h : 65536 ≤ min r.auxBytes (r.auxBudget - r.auxUsed)) :
    r.ledger.Grants (2 ^ (min r.auxBytes (r.auxBudget - r.auxUsed)).log2) := by
  have hle := Nat.log2_self_le (n := min r.auxBytes (r.auxBudget - r.auxUsed)) (by omega)
  have hmin : 2 ^ 16 ≤ 2 ^ (min r.auxBytes (r.auxBudget - r.auxUsed)).log2 := pow_le_log2 h
  exact ⟨⟨_, rfl⟩, hmin, hle.trans (min_le_left _ _), hle.trans (min_le_right _ _)⟩

theorem ringSize_grants (h : r.ringSize ≠ 0) : r.ledger.Grants r.ringSize := by
  unfold ringSize at h ⊢
  dsimp only at h ⊢
  split at h
  next hmin =>
    rw [if_pos hmin]
    exact grants_log2 hmin
  next => exact absurd rfl h

/-- Booking an opened event. -/
theorem opened_ledger {pid tid : UInt32} {size : Nat} {e : RingEvent}
    (h : (sys.env page).openRing pid tid size = .ok e) :
    ({ r with auxUsed := r.auxUsed + e.auxLen, events := r.events ++ [e] } : LiveRecorder).ledger =
      r.ledger.opened tid (auxLen page size) := by
  obtain ⟨htid, -, hlen⟩ := openEvent_ok h
  rw [ledger, List.map_append, List.map_singleton, htid, hlen]
  rfl

theorem openThread_ledger (exec : Bool) (tid : UInt32) :
    Ledger.Step page r.ledger (r.openThread (sys.env page) exec tid).1.ledger := by
  have hroot := withRoot_ledger r exec ((sys.env page).tgidOf tid)
  unfold openThread
  dsimp only
  generalize r.withRoot exec ((sys.env page).tgidOf tid) = r₁ at hroot
  rw [← hroot]
  by_cases hknown : (r₁.event tid).isSome = true
  · rw [if_pos hknown]
    exact .same
  · rw [if_neg hknown]
    by_cases hfull : r₁.ringSize = 0
    · rw [if_pos hfull]
      exact .same
    · rw [if_neg hfull]
      cases hopen : (sys.env page).openRing ((sys.env page).tgidOf tid) tid r₁.ringSize with
      | error err => exact .same
      | ok e =>
        dsimp only
        rw [openedProc_ledger, opened_ledger hopen]
        exact .opened tid _ (event_eq_none.mp (Option.not_isSome_iff_eq_none.mp hknown))
          (ringSize_grants hfull)

theorem handleReport_ledger (line : List Char) :
    Ledger.Step page r.ledger (r.handleReport (sys.env page) line).1.ledger := by
  unfold handleReport
  cases parseReport line with
  | exec tid =>
    dsimp only
    cases r.event tid with
    | some e =>
      dsimp only
      rw [reExec_ledger]
      exact .same
    | none => exact openThread_ledger true tid
  | thread tid => exact openThread_ledger false tid
  | exit tid =>
    dsimp only
    rw [exitThread_ledger]
    exact .same
  | error => exact .same
  | other => exact .same

theorem pollThread_ledger (pid : UInt32) (late : Bool) (tid : UInt32) :
    Ledger.Step page r.ledger (r.pollThread (sys.env page) pid late tid).ledger := by
  unfold pollThread
  dsimp only
  by_cases hknown : (r.event tid).isSome = true
  · rw [if_pos hknown]
    exact .same
  · rw [if_neg hknown]
    by_cases hfull : min r.auxBytes (r.auxBudget - r.auxUsed) < 65536
    · rw [if_pos hfull]
      exact .same
    · rw [if_neg hfull]
      have hsize := grants_log2 (not_lt.mp hfull)
      cases hopen : (sys.env page).openRing pid tid
        (2 ^ (min r.auxBytes (r.auxBudget - r.auxUsed)).log2) with
      | error err => exact .same
      | ok e =>
        have hbooked := opened_ledger (r := r) hopen
        have hnew := event_eq_none.mp (Option.not_isSome_iff_eq_none.mp hknown)
        dsimp only
        split
        · rw [note_ledger, hbooked]
          exact .opened tid _ hnew hsize
        · rw [hbooked]
          exact .opened tid _ hnew hsize

end Steps

section Runs

variable {page : Nat} {P : Ledger → Prop} (hstep : ∀ l l', P l → Ledger.Step page l l' → P l')

include hstep

theorem pollThreads_ledger {sys : Answers} (attach : Option UInt32) (tasks : Option (List UInt32))
    {r : LiveRecorder} (hr : P r.ledger) :
    P (r.pollThreads (sys.env page) attach tasks).1.ledger := by
  have hloop : ∀ (pid : UInt32) (late : Bool) (tids : List UInt32) (r : LiveRecorder),
      P r.ledger → P (tids.foldl (pollThread (sys.env page) pid late) r).ledger := by
    intro pid late tids
    induction tids with
    | nil => exact fun r hr => hr
    | cons tid tids ih => exact fun r hr => ih _ (hstep _ _ hr (pollThread_ledger pid late tid))
  cases attach with
  | none => exact hr
  | some pid =>
    cases tasks with
    | none => exact hr
    | some tids => exact hloop pid _ tids r hr

/-- What every step of the ledger keeps, a run of the recorder keeps. -/
theorem run_ledger (attach : Option UInt32) {r : LiveRecorder} (hr : P r.ledger)
    (steps : List RecorderStep) :
    P (r.run page attach steps).ledger := by
  induction steps using List.reverseRecOn with
  | nil => exact hr
  | append_singleton steps s ih =>
    rw [run_concat]
    cases s with
    | report sys line => exact hstep _ _ ih (handleReport_ledger line)
    | poll sys tasks => exact pollThreads_ledger hstep attach tasks ih

end Runs

/-! ## The budget -/

/-- A recorder that has opened nothing yet. -/
def Fresh (r : LiveRecorder) : Prop := r.events = [] ∧ r.auxUsed = 0

/-- Over every sequence of reports and polls: the rings take what the recorder
says they do, which is within its budget, their sizes are powers of two within
the limits, and no thread has two. -/
theorem run_withinBudget {page : Nat} (hpage : page ≤ 32768) (attach : Option UInt32)
    {r : LiveRecorder} (hr : r.Fresh) (steps : List RecorderStep) :
    (r.run page attach steps).auxUsed =
        ((r.run page attach steps).events.map (·.auxLen)).sum ∧
      (r.run page attach steps).auxUsed ≤ r.auxBudget ∧
      (∀ e ∈ (r.run page attach steps).events,
        (∃ k, e.auxLen = 2 ^ k) ∧ 65536 ≤ e.auxLen ∧ e.auxLen ≤ r.auxBytes) ∧
      ((r.run page attach steps).events.map (·.tid)).Nodup := by
  obtain ⟨hevents, hused⟩ := hr
  have hnone : r.ledger.rings = [] := congrArg (List.map _) hevents
  have hwithin : r.ledger.Within := by
    refine ⟨?_, ?_, ?_⟩
    · rw [hnone]
      exact hused
    · show r.auxUsed ≤ r.auxBudget
      omega
    · rw [hnone]
      intro ring hring
      cases hring
  have heach : r.ledger.OneEach := by
    unfold Ledger.OneEach
    rw [hnone]
    exact List.nodup_nil
  -- three invariants of the ledger over the run: the limits, the budget, one ring each
  have hlimits := run_ledger (P := fun l => l.auxBytes = r.auxBytes ∧ l.auxBudget = r.auxBudget)
    (fun l l' h (hs : Ledger.Step page l l') => ⟨hs.limits.1.trans h.1, hs.limits.2.trans h.2⟩)
    attach (r := r) ⟨rfl, rfl⟩ steps
  have hend := run_ledger (fun l l' h hs => h.step hpage hs) attach hwithin steps
  have hone := run_ledger (fun l l' h (hs : Ledger.Step page l l') => h.step hs) attach heach steps
  refine ⟨?_, ?_, fun e he => ?_, ?_⟩
  · have hsum := hend.used
    rw [ledger, List.map_map] at hsum
    exact hsum
  · rw [← hlimits.2]
    exact hend.budget
  · rw [← hlimits.1]
    exact hend.sizes (e.tid, e.auxLen) (List.mem_map_of_mem he)
  · rw [Ledger.OneEach, ledger, List.map_map] at hone
    exact hone

end LiveRecorder

/-! ## Threads that start -/

/-- The thread that a report says has started. -/
def Report.started : Report → Option UInt32
  | .exec tid => some tid
  | .thread tid => some tid
  | _ => none

/-- The notes on a thread that could not be traced. -/
def Untraced (budget : Nat) (tid : UInt32) (text : String) : Prop :=
  text = s!"thread {tid} not traced: AUX budget {budget} exhausted" ∨
    ∃ err : Error, text = s!"thread {tid} could not be traced: {err.display}"

namespace LiveRecorder

/-- There is an event of the thread that is still recording. -/
def Recording (r : LiveRecorder) (tid : UInt32) : Prop :=
  ∃ e ∈ r.events, e.tid = tid ∧ e.snapshot = none

/-- The thread's event has been stopped. -/
def Stopped (r : LiveRecorder) (tid : UInt32) : Prop :=
  ∃ e, r.event tid = some e ∧ e.snapshot ≠ none

/-- What a report on a thread that starts is to come to: the thread is recorded,
or a note says that it is not. -/
def Traced (r r' : LiveRecorder) (tid : UInt32) : Prop :=
  r'.Recording tid ∨ ∃ text, Untraced r.auxBudget tid text ∧ r'.notes = r.notes ++ [text]

section Started

variable {r : LiveRecorder} {page : Nat} {sys : Answers} {tid : UInt32}

theorem event_spec {e : RingEvent} (h : r.event tid = some e) : e ∈ r.events ∧ e.tid = tid := by
  have htid := List.find?_some h
  exact ⟨List.mem_of_find?_eq_some h, of_decide_eq_true htid⟩

/-- With one event a thread, a thread records exactly if its event does. -/
theorem recording_iff (hone : r.ledger.OneEach) {e : RingEvent} (h : r.event tid = some e) :
    r.Recording tid ↔ e.snapshot = none := by
  obtain ⟨he, htid⟩ := event_spec h
  constructor
  · rintro ⟨e', he', htid', hopen⟩
    rw [Ledger.OneEach, ledger, List.map_map] at hone
    have heq : e' = e := List.inj_on_of_nodup_map hone he' he (htid'.trans htid.symm)
    rw [← heq]
    exact hopen
  · exact fun hopen => ⟨e, he, htid, hopen⟩

/-- Where events and notes stay, a thread with an event is traced exactly if
that records. -/
theorem traced_same (hone : r.ledger.OneEach) {r' : LiveRecorder} (hevents : r'.events = r.events)
    (hnotes : r'.notes = r.notes) {e : RingEvent} (h : r.event tid = some e) :
    Traced r r' tid ↔ ¬ r.Stopped tid := by
  have hstopped : r.Stopped tid ↔ e.snapshot ≠ none := by
    unfold Stopped
    rw [h]
    constructor
    · rintro ⟨e', heq, hsome⟩
      rw [Option.some.inj heq]
      exact hsome
    · exact fun hsome => ⟨e, rfl, hsome⟩
  have hnote : ¬ ∃ text, Untraced r.auxBudget tid text ∧ r'.notes = r.notes ++ [text] := by
    rintro ⟨text, -, heq⟩
    have hlen := congrArg List.length (hnotes.symm.trans heq)
    rw [List.length_append, List.length_singleton] at hlen
    omega
  have hrec : r'.Recording tid ↔ r.Recording tid := by
    unfold Recording
    rw [hevents]
  rw [Traced, or_iff_left hnote, hrec, recording_iff hone h, hstopped, not_not]

theorem reExec_frame (r : LiveRecorder) (env : ReportEnv) (e : RingEvent) (tid : UInt32) :
    (r.reExec env e tid).1.events = r.events ∧ (r.reExec env e tid).1.notes = r.notes := by
  unfold reExec
  dsimp only
  split <;> exact ⟨rfl, rfl⟩

theorem openedProc_frame (r : LiveRecorder) (env : ReportEnv) (pid : UInt32)
    (execNs : Option UInt64) : (r.openedProc env pid execNs).events = r.events := by
  unfold openedProc
  split <;> rfl

theorem withRoot_frame (r : LiveRecorder) (exec : Bool) (pid : UInt32) :
    (r.withRoot exec pid).events = r.events ∧ (r.withRoot exec pid).notes = r.notes ∧
      (r.withRoot exec pid).auxBudget = r.auxBudget := by
  unfold withRoot
  split <;> exact ⟨rfl, rfl, rfl⟩

/-- A thread without an event gets one, or a note. -/
theorem openThread_traced (exec : Bool) (h : r.event tid = none) :
    Traced r (r.openThread (sys.env page) exec tid).1 tid := by
  obtain ⟨hevents, hnotes, hbudget⟩ := withRoot_frame r exec ((sys.env page).tgidOf tid)
  unfold openThread
  dsimp only
  rw [withRoot_event, h, Option.isSome_none, if_neg Bool.false_ne_true]
  generalize r.withRoot exec ((sys.env page).tgidOf tid) = r₁ at hevents hnotes hbudget
  by_cases hfull : r₁.ringSize = 0
  · rw [if_pos hfull, Traced, ← hbudget, ← hnotes]
    exact .inr ⟨_, .inl rfl, rfl⟩
  · rw [if_neg hfull]
    cases hopen : (sys.env page).openRing ((sys.env page).tgidOf tid) tid r₁.ringSize with
    | error err =>
      rw [Traced, ← hnotes]
      exact .inr ⟨_, .inr ⟨err, rfl⟩, rfl⟩
    | ok e =>
      obtain ⟨htid, hrec, -⟩ := openEvent_ok hopen
      refine .inl ⟨e, ?_, htid, hrec⟩
      dsimp only
      rw [openedProc_frame]
      exact List.mem_append_right _ (List.mem_singleton_self e)

/-- A report on a thread that starts has it traced exactly if its id has not an
event that was stopped. -/
theorem handleReport_traced_iff (hone : r.ledger.OneEach) {line : List Char}
    (hstart : (parseReport line).started = some tid) :
    Traced r (r.handleReport (sys.env page) line).1 tid ↔ ¬ r.Stopped tid := by
  have hnone : r.event tid = none → ¬ r.Stopped tid := by
    rintro h ⟨e, heq, -⟩
    rw [h] at heq
    cases heq
  unfold handleReport
  cases hreport : parseReport line with
  -- a thread with an event keeps it, and is not opened twice
  | exec tid' =>
    rw [hreport] at hstart
    obtain rfl : tid' = tid := Option.some.inj hstart
    dsimp only
    cases hevent : r.event tid' with
    | some e =>
      obtain ⟨hevents, hnotes⟩ := reExec_frame r (sys.env page) e tid'
      exact traced_same hone hevents hnotes hevent
    | none => exact iff_of_true (openThread_traced true hevent) (hnone hevent)
  | thread tid' =>
    rw [hreport] at hstart
    obtain rfl : tid' = tid := Option.some.inj hstart
    dsimp only
    cases hevent : r.event tid' with
    | some e =>
      have hknown : (r.openThread (sys.env page) false tid').1 = r := by
        unfold openThread
        dsimp only
        rw [withRoot_event, hevent, if_pos (by rfl)]
        rfl
      rw [hknown]
      exact traced_same hone rfl rfl hevent
    | none => exact iff_of_true (openThread_traced false hevent) (hnone hevent)
  | exit tid' =>
    rw [hreport] at hstart
    cases hstart
  | error =>
    rw [hreport] at hstart
    cases hstart
  | other =>
    rw [hreport] at hstart
    cases hstart

end Started

/-! ### Whose events are stopped -/

section Stops

variable {r : LiveRecorder} {page : Nat} {sys : Answers} {tid : UInt32}

/-- Events are only added, and those are recording. -/
def Adds (r r' : LiveRecorder) : Prop :=
  ∃ es, r'.events = r.events ++ es ∧ ∀ e ∈ es, e.snapshot = none

theorem Adds.refl (r : LiveRecorder) : Adds r r :=
  ⟨[], (List.append_nil _).symm, fun _ he => absurd he List.not_mem_nil⟩

theorem Adds.trans {r r' r'' : LiveRecorder} (h : Adds r r') (h' : Adds r' r'') : Adds r r'' := by
  obtain ⟨es, heq, hes⟩ := h
  obtain ⟨es', heq', hes'⟩ := h'
  refine ⟨es ++ es', by rw [heq', heq, List.append_assoc], fun e he => ?_⟩
  rcases List.mem_append.mp he with he | he
  · exact hes e he
  · exact hes' e he

theorem Adds.one {e : RingEvent} {pid : UInt32} {size : Nat}
    (hopen : (sys.env page).openRing pid tid size = .ok e) {r' : LiveRecorder}
    (h : r'.events = r.events ++ [e]) : Adds r r' := by
  refine ⟨[e], h, fun e' he' => ?_⟩
  rw [List.mem_singleton.mp he']
  exact (openEvent_ok hopen).2.1

/-- The exit of a thread `tid` was reported while it had an event. -/
def ExitReported (page : Nat) (attach : Option UInt32) (r : LiveRecorder)
    (steps : List RecorderStep) (tid : UInt32) : Prop :=
  ∃ pre sys line post, steps = pre ++ .report sys line :: post ∧
    parseReport line = .exit tid ∧ ((r.run page attach pre).event tid).isSome

/-- Added events stop no thread's. -/
theorem Adds.stopped_iff {r r' : LiveRecorder} (h : Adds r r') : r'.Stopped tid ↔ r.Stopped tid := by
  obtain ⟨es, heq, hes⟩ := h
  have hevent : r'.event tid = (r.event tid).or (es.find? fun e => e.tid = tid) := by
    rw [event, heq, List.find?_append]
    rfl
  unfold Stopped
  rw [hevent]
  cases r.event tid with
  | some e => rfl
  | none =>
    refine iff_of_false ?_ ?_
    · rintro ⟨e, hfind, hsome⟩
      exact hsome (hes e (List.mem_of_find?_eq_some hfind))
    · rintro ⟨e, hfind, -⟩
      cases hfind

theorem openThread_adds (exec : Bool) (tid : UInt32) :
    Adds r (r.openThread (sys.env page) exec tid).1 := by
  have hevents := (withRoot_frame r exec ((sys.env page).tgidOf tid)).1
  have hroot : Adds r (r.withRoot exec ((sys.env page).tgidOf tid)) :=
    ⟨[], by rw [hevents, List.append_nil], fun _ he => absurd he List.not_mem_nil⟩
  unfold openThread
  dsimp only
  generalize r.withRoot exec ((sys.env page).tgidOf tid) = r₁ at hroot
  split
  · exact hroot
  · split
    · exact hroot
    · split
      next e hopen =>
        refine hroot.trans (Adds.one hopen ?_)
        rw [openedProc_frame]
      next => exact hroot

theorem pollThread_adds (pid : UInt32) (late : Bool) (tid : UInt32) :
    Adds r (r.pollThread (sys.env page) pid late tid) := by
  unfold pollThread
  dsimp only
  split
  · exact Adds.refl r
  · split
    · exact Adds.refl r
    · split
      next e hopen =>
        split
        · exact Adds.one hopen rfl
        · exact Adds.one hopen rfl
      next => exact Adds.refl r

theorem pollThreads_adds (attach : Option UInt32) (tasks : Option (List UInt32))
    (r : LiveRecorder) : Adds r (r.pollThreads (sys.env page) attach tasks).1 := by
  have hloop : ∀ (pid : UInt32) (late : Bool) (tids : List UInt32) (r : LiveRecorder),
      Adds r (tids.foldl (pollThread (sys.env page) pid late) r) := by
    intro pid late tids
    induction tids with
    | nil => exact Adds.refl
    | cons tid tids ih => exact fun r => (pollThread_adds pid late tid).trans (ih _)
  cases attach with
  | none => exact Adds.refl r
  | some pid =>
    cases tasks with
    | none => exact Adds.refl r
    | some tids => exact hloop pid _ tids r

theorem takeSnapshot_spec (env : ReportEnv) (e : RingEvent) :
    (env.takeSnapshot e).tid = e.tid ∧ (env.takeSnapshot e).snapshot ≠ none := by
  unfold ReportEnv.takeSnapshot
  split
  next h => exact ⟨rfl, fun hnone => by rw [hnone] at h; cases h⟩
  next => exact ⟨rfl, Option.some_ne_none _⟩

/-- Changing the first element that has a property, and keeps its key. -/
theorem find?_modify_findIdx (env : ReportEnv) (tid' : UInt32) (es : List RingEvent) :
    ((es.modify (es.findIdx fun e => e.tid = tid') env.takeSnapshot).find? fun e => e.tid = tid) =
      if tid = tid' then (es.find? fun e => e.tid = tid).map env.takeSnapshot
      else es.find? fun e => e.tid = tid := by
  induction es with
  | nil => exact (ite_self _).symm
  | cons e es ih =>
    rw [List.findIdx_cons]
    by_cases hfirst : e.tid = tid'
    · rw [decide_eq_true hfirst, cond_true, List.modify_zero_cons, List.find?_cons, List.find?_cons,
        (takeSnapshot_spec env e).1]
      by_cases hkey : tid = tid'
      · rw [if_pos hkey, decide_eq_true (hfirst.trans hkey.symm)]
        rfl
      · rw [if_neg hkey, decide_eq_false (fun h => hkey (h.symm.trans hfirst))]
    · rw [decide_eq_false hfirst, cond_false, List.modify_succ_cons, List.find?_cons,
        List.find?_cons, ih]
      by_cases hkey : tid = tid'
      · rw [if_pos hkey, if_pos hkey, decide_eq_false (fun h => hfirst (h.trans hkey))]
      · rw [if_neg hkey, if_neg hkey]

/-- An exit stops the thread's event, if it has one, and no other's. -/
theorem exitThread_stopped_iff (env : ReportEnv) (tid' : UInt32) :
    (r.exitThread env tid').1.Stopped tid ↔
      r.Stopped tid ∨ (tid = tid' ∧ (r.event tid).isSome) := by
  have hevent : (r.exitThread env tid').1.event tid =
      if tid = tid' then (r.event tid).map env.takeSnapshot else r.event tid := by
    unfold exitThread
    dsimp only
    split
    · unfold rereadProc
      split
      · exact find?_modify_findIdx env tid' r.events
      · exact find?_modify_findIdx env tid' r.events
    · exact find?_modify_findIdx env tid' r.events
  unfold Stopped
  rw [hevent]
  by_cases hkey : tid = tid'
  · rw [if_pos hkey]
    cases r.event tid with
    | none =>
      refine iff_of_false ?_ ?_
      · rintro ⟨e, heq, -⟩
        cases heq
      · rintro (⟨e, heq, -⟩ | ⟨-, heq⟩)
        · cases heq
        · cases heq
    | some e =>
      exact iff_of_true ⟨_, rfl, (takeSnapshot_spec env e).2⟩ (.inr ⟨hkey, rfl⟩)
  · rw [if_neg hkey, or_iff_left (fun h => hkey h.1)]

theorem step_stopped_iff (attach : Option UInt32) (s : RecorderStep) :
    (r.step page attach s).Stopped tid ↔ r.Stopped tid ∨
      ∃ sys line, s = .report sys line ∧ parseReport line = .exit tid ∧ (r.event tid).isSome := by
  cases s with
  | poll sys tasks =>
    refine (pollThreads_adds attach tasks r).stopped_iff.trans (or_iff_left ?_).symm
    rintro ⟨_, _, heq, -⟩
    cases heq
  | report sys line =>
    -- only an exit stops an event; the other reports add events at most
    have hadds : Adds r (r.handleReport (sys.env page) line).1 → parseReport line ≠ .exit tid →
        ((r.step page attach (.report sys line)).Stopped tid ↔ r.Stopped tid ∨
          ∃ sys' line', RecorderStep.report sys line = .report sys' line' ∧
            parseReport line' = .exit tid ∧ (r.event tid).isSome) := by
      intro hadd hne
      refine hadd.stopped_iff.trans (or_iff_left ?_).symm
      rintro ⟨sys', line', heq, hexit, -⟩
      cases heq
      exact hne hexit
    unfold handleReport at hadds
    cases hreport : parseReport line with
    | exec tid' =>
      rw [hreport] at hadds
      dsimp only at hadds
      refine hadds ?_ (fun h => by cases h)
      cases r.event tid' with
      | some e =>
        have hevents := (reExec_frame r (sys.env page) e tid').1
        exact ⟨[], by rw [List.append_nil]; exact hevents, fun _ he => absurd he List.not_mem_nil⟩
      | none => exact openThread_adds true tid'
    | thread tid' =>
      rw [hreport] at hadds
      exact hadds (openThread_adds false tid') (fun h => by cases h)
    | exit tid' =>
      have hstep : r.step page attach (.report sys line) =
          (r.exitThread (sys.env page) tid').1 := by
        unfold step handleReport
        dsimp only
        rw [hreport]
      rw [hstep, exitThread_stopped_iff]
      refine or_congr_right ⟨?_, ?_⟩
      · rintro ⟨rfl, hsome⟩
        exact ⟨sys, line, rfl, hreport, hsome⟩
      · rintro ⟨sys', line', heq, hexit, hsome⟩
        cases heq
        rw [hreport] at hexit
        cases hexit
        exact ⟨rfl, hsome⟩
    | error =>
      rw [hreport] at hadds
      exact hadds (Adds.refl r) (fun h => by cases h)
    | other =>
      rw [hreport] at hadds
      exact hadds (Adds.refl r) (fun h => by cases h)

/-- In a run of a recorder without events a thread's event is stopped exactly if
the thread had one when its exit was reported. -/
theorem run_stopped_iff (page : Nat) (attach : Option UInt32) {r : LiveRecorder}
    (hr : r.events = []) (steps : List RecorderStep) :
    (r.run page attach steps).Stopped tid ↔ r.ExitReported page attach steps tid := by
  unfold ExitReported
  induction steps using List.reverseRecOn with
  | nil =>
    refine iff_of_false ?_ ?_
    · rintro ⟨e, heq, -⟩
      have hnone : r.event tid = none := by
        rw [event, hr]
        rfl
      rw [show r.run page attach [] = r from rfl, hnone] at heq
      cases heq
    · rintro ⟨pre, sys, line, post, heq, -⟩
      cases pre <;> cases heq
  | append_singleton steps s ih =>
    rw [run_concat, step_stopped_iff, ih]
    constructor
    · rintro (⟨pre, sys, line, post, rfl, hexit, hsome⟩ | ⟨sys, line, rfl, hexit, hsome⟩)
      · exact ⟨pre, sys, line, post ++ [s], by rw [List.append_assoc]; rfl, hexit, hsome⟩
      · exact ⟨steps, sys, line, [], rfl, hexit, hsome⟩
    · rintro ⟨pre, sys, line, post, heq, hexit, hsome⟩
      rcases List.eq_nil_or_concat post with rfl | ⟨post, s', rfl⟩
      · obtain ⟨rfl, hs⟩ := List.append_inj' heq rfl
        exact .inr ⟨sys, line, List.singleton_inj.mp hs, hexit, hsome⟩
      · rw [List.concat_eq_append] at heq
        have heq' : steps ++ [s] = (pre ++ .report sys line :: post) ++ [s'] := by
          rw [heq, List.append_assoc]
          rfl
        obtain ⟨hsteps, -⟩ := List.append_inj' heq' rfl
        exact .inl ⟨pre, sys, line, post, hsteps, hexit, hsome⟩

end Stops

theorem run_oneEach (page : Nat) (attach : Option UInt32) {r : LiveRecorder} (hr : r.events = [])
    (steps : List RecorderStep) : (r.run page attach steps).ledger.OneEach := by
  refine run_ledger (fun l l' h hs => h.step hs) attach ?_ steps
  rw [Ledger.OneEach, ledger, hr]
  exact List.nodup_nil

/-- In a run every thread that is reported to start is traced, or noted, exactly
when none of them has the id of a thread whose exit was reported before, while
that had an event. -/
theorem starts_traced_iff (page : Nat) (attach : Option UInt32) (r : LiveRecorder)
    (hr : r.events = []) (steps : List RecorderStep) :
    (∀ pre sys line post tid, steps = pre ++ .report sys line :: post →
      (parseReport line).started = some tid →
      Traced (r.run page attach pre) (r.run page attach (pre ++ [.report sys line])) tid) ↔
    ∀ pre sys line post tid, steps = pre ++ .report sys line :: post →
      (parseReport line).started = some tid → ¬ r.ExitReported page attach pre tid := by
  have hreport : ∀ pre sys line tid, (parseReport line).started = some tid →
      (Traced (r.run page attach pre) (r.run page attach (pre ++ [.report sys line])) tid ↔
        ¬ r.ExitReported page attach pre tid) := by
    intro pre sys line tid hstart
    rw [run_concat, ← run_stopped_iff page attach hr]
    exact handleReport_traced_iff (run_oneEach page attach hr pre) hstart
  constructor
  · intro h pre sys line post tid hsplit hstart
    exact (hreport pre sys line tid hstart).mp (h pre sys line post tid hsplit hstart)
  · intro h pre sys line post tid hsplit hstart
    exact (hreport pre sys line tid hstart).mpr (h pre sys line post tid hsplit hstart)

/-! ### A thread id that is used twice -/

/-- A system where every call succeeds and every process is process 7. -/
def calm : Answers where
  tgid _ := some 7
  readProc _ := none
  opening _ _ := ⟨none, none, none, none, none, ⟨0, 1, 0, true⟩⟩
  area _ := ⟨0, List.replicate 64 0⟩
  tsc := 0

def threadStart : RecorderStep := .report calm "thread 7".toList

def threadExit : RecorderStep := .report calm "exit 7".toList

/-- A system that maps no ring for thread 8. -/
def refusing : Answers :=
  { calm with
    opening := fun _ tid =>
      { calm.opening 7 7 with
        mapAux := if tid = 8 then some ⟨false, "Cannot allocate memory (os error 12)"⟩ else none } }

/-- What a step reports. -/
def reported : RecorderStep → Option Report
  | .report _ line => some (parseReport line)
  | .poll .. => none

/-- Thread 8 gets no ring, and thread 9 starts when thread 7 is gone. -/
def threadsRun : List RecorderStep :=
  [threadStart, .report refusing "thread 8".toList, threadExit, .report calm "thread 9".toList]

theorem run_withinBudget_threadsRun :
    ((Watched.twoRings.run 4096 none threadsRun).auxUsed =
        ((Watched.twoRings.run 4096 none threadsRun).events.map (·.auxLen)).sum ∧
      (Watched.twoRings.run 4096 none threadsRun).auxUsed ≤ 131072 ∧
      (∀ e ∈ (Watched.twoRings.run 4096 none threadsRun).events,
        (∃ k, e.auxLen = 2 ^ k) ∧ 65536 ≤ e.auxLen ∧ e.auxLen ≤ 65536) ∧
      ((Watched.twoRings.run 4096 none threadsRun).events.map (·.tid)).Nodup) :=
  run_withinBudget (by decide) none ⟨rfl, rfl⟩ _

/-- There are rings of threads 7 and 9, and a note on thread 8. -/
theorem starts_traced_iff_threadsRun :
    (Watched.twoRings.run 4096 none threadsRun).events.map (·.tid) = [7, 9] ∧
      (Watched.twoRings.run 4096 none threadsRun).notes.length = 1 ∧
      ∀ pre sys line post tid, threadsRun = pre ++ RecorderStep.report sys line :: post →
        (parseReport line).started = some tid →
        Traced (Watched.twoRings.run 4096 none pre)
          (Watched.twoRings.run 4096 none (pre ++ [.report sys line])) tid := by
  refine ⟨by decide +kernel, by decide +kernel, ?_⟩
  refine (starts_traced_iff 4096 none Watched.twoRings rfl threadsRun).mpr ?_
  -- no report of a start comes behind one of an exit of the same thread
  have hreuse : (threadsRun.map reported).Pairwise fun earlier later =>
      earlier ≠ (later.bind Report.started).map .exit := by
    decide +kernel
  rintro _ sys line post tid hsplit hstart ⟨pre, sys', line', between, rfl, hexit, -⟩
  rw [hsplit, List.map_append, List.map_cons] at hreuse
  have hexited : some (parseReport line') ∈
      (pre ++ RecorderStep.report sys' line' :: between).map reported := by
    rw [List.map_append, List.map_cons]
    exact List.mem_append_right _ List.mem_cons_self
  have hother := (List.pairwise_append.mp hreuse).2.2 _ hexited _ List.mem_cons_self
  rw [hexit, reported, Option.bind_some, hstart] at hother
  exact hother rfl

/-- Thread 7 starts, exits, and another thread 7 starts: nothing records it, and
nothing says so. -/
theorem starts_reused :
    ¬ ∀ (page : Nat) (attach : Option UInt32) (r : LiveRecorder), r.events = [] →
      ∀ steps pre sys line post tid, steps = pre ++ RecorderStep.report sys line :: post →
        (parseReport line).started = some tid →
        Traced (r.run page attach pre) (r.run page attach (pre ++ [.report sys line])) tid := by
  intro h
  have hstart : (parseReport "thread 7".toList).started = some 7 := by decide +kernel
  have htraced := h 4096 none Watched.twoRings rfl [threadStart, threadExit, threadStart]
    [threadStart, threadExit] calm _ [] 7 rfl hstart
  have hstopped : ((Watched.twoRings.run 4096 none
      [threadStart, threadExit, threadStart]).events.map (·.snapshot.isSome)) = [true] := by
    decide +kernel
  have hnotes : (Watched.twoRings.run 4096 none
      [threadStart, threadExit, threadStart]).notes = [] := by
    decide +kernel
  rcases htraced with ⟨e, he, -, hopen⟩ | ⟨text, -, hnote⟩
  · have hmem := List.mem_map_of_mem (f := fun e : RingEvent => e.snapshot.isSome) he
    rw [show [threadStart, threadExit] ++ [RecorderStep.report calm "thread 7".toList] =
      [threadStart, threadExit, threadStart] from rfl, hstopped, List.mem_singleton, hopen] at hmem
    cases hmem
  · have hlen := congrArg List.length (hnotes.symm.trans hnote)
    rw [List.length_append] at hlen
    exact Nat.succ_ne_zero _ hlen.symm

end LiveRecorder

end TraceMcp.Capture
