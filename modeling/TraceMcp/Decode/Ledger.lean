import Mathlib.Logic.Function.Basic
import TraceMcp.Decode.Finish
import TraceMcp.Lib.Runs

/-!
# The span ledger

What reconstruction is for, without addresses, images, budgets or inline
chains: each thread has a *lane* (its open frames, its pending trace end, its
last time and its two counters), and every record moves lanes forward,
emitting span rows and gap rows on the way. `Move` lists everything a sample
can do to the lane of its thread once its time is noted: enter a frame, leave
one, replace one by a tail call, cut the stack at a gap, and so on.

`Action` is what one record does: for a sample a fixed prologue followed by
moves, for the other records a single write. The facts about forests,
intervals and discontinuities are proved of the ledger; that a reconstructor
refines it is the next file's work.
-/

namespace TraceMcp.Decode

open TraceMcp.Lib

open Reconstructor (spanOf openCompleteness nameTop regresses errorGapKind)

/-- What the ledger keeps of a thread. -/
structure Lane where
  id : ThreadId
  stack : List OpenSpan
  lastAbs : Option Nat
  pending : Option PendingEnd
  spans : Nat
  gaps : Nat

/-- The span ledger. -/
structure Ledger where
  lanes : Key → Option Lane
  order : List Key
  closed : List Lane
  gen : Key → Nat
  spans : List FunctionSpan
  spansN : Nat
  spilling : Bool
  gaps : List GapRecord
  losses : Nat
  nextSpan : LocalId
  nextGap : LocalId

namespace Ledger

/-- The lane a thread starts with. -/
def fresh (L : Ledger) (k : Key) : Lane := ⟨.task k.2 (L.gen k), [], none, none, 0, 0⟩

def setLane (L : Ledger) (k : Key) (l : Lane) : Ledger :=
  { L with lanes := Function.update L.lanes k (some l) }

/-- Append span rows. -/
def emit (L : Ledger) (rows : List FunctionSpan) : Ledger :=
  { L with spans := L.spans ++ rows, spansN := L.spansN + rows.length }

/-- Append a gap row. -/
def addGap (L : Ledger) (thread : ThreadId) (kind : GapKind) (startAbs endAbs : Option Nat)
    (extentKnown : Bool) (reason : String) : Ledger :=
  { L with
    nextGap := nextId L.nextGap
    gaps := L.gaps ++ [⟨L.nextGap, thread, kind, absTime startAbs, absTime endAbs, extentKnown,
      reason⟩] }

/-- Count a loss. -/
def noteLoss (L : Ledger) : Ledger := { L with losses := L.losses + 1 }

/-- Use up a span id. -/
def takeSpanId (L : Ledger) : Ledger := { L with nextSpan := nextId L.nextSpan }

/-- The lane of `k` exists afterwards. -/
def ensure (L : Ledger) (k : Key) : Ledger :=
  match L.lanes k with
  | some _ => L
  | none => { L.setLane k (L.fresh k) with order := L.order ++ [k] }

/-- The rows a stack leaves behind when it is closed all at once. -/
def flushRows (thread : ThreadId) (endAbs : Option Nat)
    (completeness : SpanCompleteness → SpanCompleteness) (stack : List OpenSpan) :
    List FunctionSpan :=
  stack.map fun o => spanOf thread o endAbs o.startEvent (completeness o.completeness)

/-- The lane `l` of `k` loses its open frames to a gap. -/
def cut (L : Ledger) (k : Key) (l : Lane) (pending : Option PendingEnd) (kind : GapKind)
    (startAbs endAbs : Option Nat) (extentKnown : Bool) (reason : String) : Ledger :=
  ((L.setLane k { l with
      stack := []
      pending := pending
      spans := l.spans + l.stack.length
      gaps := l.gaps + 1 }).emit
    (flushRows l.id none (fun _ => .interruptedByGap) l.stack)).addGap
      l.id kind startAbs endAbs extentKnown reason

/-- The task of lane `l` exited: it becomes a closed lane, and its key moves to
the next generation. -/
def retire (L : Ledger) (k : Key) (l : Lane) (endAbs : Option Nat) : Ledger :=
  { L.emit (flushRows l.id endAbs openCompleteness l.stack) with
    lanes := Function.update L.lanes k none
    order := L.order.filter (· ≠ k)
    gen := Function.update L.gen k (L.gen k + 1)
    closed := L.closed ++ [{ l with
      stack := []
      pending := none
      spans := l.spans + l.stack.length }] }

/-- The capture ended: the open frames of `k` close without a known end. -/
def close (L : Ledger) (k : Key) (l : Lane) : Ledger :=
  (L.setLane k { l with
      stack := []
      pending := none
      spans := l.spans + l.stack.length }).emit
    (flushRows l.id none openCompleteness l.stack)

/-- The time regression of a sample, if it is one. -/
def checkRegression (L : Ledger) (k : Key) (l : Lane) (now : Option Nat) : Ledger :=
  if regresses l.lastAbs now then
    L.cut k l l.pending .timeRegression l.lastAbs now true "time regression"
  else L

/-- A frame that may be pushed now: numbered next, its parent the frame below. -/
structure IsFrame (L : Ledger) (o : OpenSpan) (parent : Option LocalId) (start : Option Nat) :
    Prop where
  id_eq : o.id = L.nextSpan
  parent_eq : o.parent = parent
  start_eq : o.startAbs = start

/-- The id of the innermost open frame. -/
def topId (stack : List OpenSpan) : Option LocalId := stack.head?.map OpenSpan.id

/-- The extent of a ring hole is known only when both ends are, and then it
starts before it ends or ends with the current sample. -/
def HoleExtent (p : PendingEnd) (now stop : Option Nat) (known : Bool) : Prop :=
  known = true → ∃ left right, p.abs = some left ∧ stop = some right ∧
    (left < right ∨ now = some right)

/-- What a sample of thread `k`, at time `now`, can do to its lane. -/
inductive Move (k : Key) (now : Option Nat) : Ledger → Ledger → Prop
  /-- Push a frame (a call, a trace begin, the caller an orphan return names). -/
  | enter {L l} (o : OpenSpan) : L.lanes k = some l → IsFrame L o (topId l.stack) now →
      Move k now L (L.setLane k { l with stack := o :: l.stack }).takeSpanId
  /-- Pop the innermost frame at its return. -/
  | leave {L l} (o : OpenSpan) (rest : List OpenSpan) (ev : LocalId) (c : SpanCompleteness) :
      L.lanes k = some l → l.stack = o :: rest →
      Move k now L ((L.setLane k { l with stack := rest, spans := l.spans + 1 }).emit
        [spanOf l.id o now ev c])
  /-- A tail call: the target replaces the innermost frame under its parent. -/
  | tail {L l} (o n : OpenSpan) (rest : List OpenSpan) (ev : LocalId) :
      L.lanes k = some l → l.stack = o :: rest → IsFrame L n o.parent now →
      Move k now L ((L.setLane k { l with stack := n :: rest, spans := l.spans + 1 }).emit
        [spanOf l.id o now ev .uncertainUnwind]).takeSpanId
  /-- A return with no open frame: a row with an end and no start. -/
  | orphan {L l} (s : FunctionSpan) : L.lanes k = some l → l.stack = [] →
      s.id = L.nextSpan → s.thread = l.id → s.parent = none → s.start = .unknown →
      s.stop = absTime now → s.completeness = .uncertainUnwind →
      Move k now L ((L.setLane k { l with spans := l.spans + 1 }).emit [s]).takeSpanId
  /-- Name an unsymbolized innermost frame. -/
  | rename {L l} (f : LocalId) : L.lanes k = some l →
      l.stack.head?.map OpenSpan.function = some none →
      Move k now L (L.setLane k { l with stack := nameTop f l.stack })
  /-- Tracing ended here. -/
  | arm {L l} (p : PendingEnd) : L.lanes k = some l → p.abs = now →
      Move k now L (L.setLane k { l with pending := some p })
  /-- An asynchronous transfer: the stack is not followed any further. -/
  | divert {L l} (reason : String) : L.lanes k = some l →
      Move k now L (L.cut k l l.pending .unknown now none false reason)
  /-- Tracing resumed elsewhere, or never: the pending end becomes a gap. -/
  | lose {L l} (p : PendingEnd) (reason : String) : L.lanes k = some l → l.pending = some p →
      Move k now L (L.cut k l none .unknown p.abs now false reason)
  /-- Tracing resumed beyond a hole in another CPU's ring. -/
  | hole {L l} (p : PendingEnd) (stop : Option Nat) (known : Bool) (reason : String) :
      L.lanes k = some l → l.pending = some p → HoleExtent p now stop known →
      Move k now L (L.cut k l none .ringTruncation p.abs stop known reason)
  /-- Tracing resumed where it ended: the stack is preserved. -/
  | resume {L l} (p : PendingEnd) : L.lanes k = some l → l.pending = some p →
      Move k now L ((L.setLane k { l with pending := none, gaps := l.gaps + 1 }).addGap
        l.id .traceBoundary p.abs now (p.abs.isSome && now.isSome) p.reason)
  /-- The same with an empty stack: the function resumed in gets a frame that
  started, at the latest, at the trace end. -/
  | resumeIn {L l} (p : PendingEnd) (o : OpenSpan) : L.lanes k = some l → l.pending = some p →
      l.stack = [] → IsFrame L o none (p.abs.or now) →
      Move k now L ((L.setLane k { l with
        stack := [o], pending := none, gaps := l.gaps + 1 }).addGap
          l.id .traceBoundary p.abs now (p.abs.isSome && now.isSome) p.reason).takeSpanId

/-- Any number of moves. -/
abbrev Moves (k : Key) (now : Option Nat) := Relation.ReflTransGen (Move k now)

/-- Records without a trace in the ledger. -/
def Silent (L : Ledger) : RawRecord → Prop
  | .mmap _ | .switch .. => True
  | .task t => t.kind ≠ .exit ∨ L.lanes (t.pid, t.tid) = none
  | _ => False

/-- What one record does to the ledger. -/
inductive Action : RawRecord → Ledger → Ledger → Prop
  /-- A sample: its lane, its time, then what its transfer does. -/
  | sample {L L' : Ledger} {s : Sample} (l₀ l : Lane) :
      (L.ensure (s.pid, s.tid)).lanes (s.pid, s.tid) = some l₀ →
      ((L.ensure (s.pid, s.tid)).checkRegression (s.pid, s.tid) l₀ s.timeNs).lanes
        (s.pid, s.tid) = some l →
      Moves (s.pid, s.tid) s.timeNs
        (((L.ensure (s.pid, s.tid)).checkRegression (s.pid, s.tid) l₀ s.timeNs).setLane
          (s.pid, s.tid) { l with lastAbs := s.timeNs.or l.lastAbs }) L' →
      Action (.sample s) L L'
  /-- A decoder error of a named thread. -/
  | error {L : Ledger} {e : DecoderErrorEvent} {pid tid : Nat} {l : Lane} :
      e.pid = some pid → e.tid = some tid →
      (L.ensure (pid, tid)).lanes (pid, tid) = some l →
      Action (.decoderError e) L ((L.ensure (pid, tid)).cut (pid, tid) l l.pending
        (errorGapKind e.code) e.timeNs none false e.message)
  /-- A decoder error of no thread in particular. -/
  | strayError {L : Ledger} {e : DecoderErrorEvent} : (e.pid = none ∨ e.tid = none) →
      Action (.decoderError e) L
        (L.addGap .unknown (errorGapKind e.code) e.timeNs none false e.message)
  /-- A loss. -/
  | lost {L : Ledger} {e : LostEvent} :
      Action (.lost e) L
        (L.noteLoss.addGap .unknown .ptLoss none none false "PERF_RECORD_LOST")
  /-- The exit of a listed task. -/
  | exit {L : Ledger} {t : TaskEvent} {l : Lane} : t.kind = .exit →
      L.lanes (t.pid, t.tid) = some l →
      Action (.task t) L (L.retire (t.pid, t.tid) l t.timeNs)
  /-- Any other record. -/
  | silent {L : Ledger} {rec : RawRecord} : L.Silent rec → Action rec L L

end Ledger

end TraceMcp.Decode
