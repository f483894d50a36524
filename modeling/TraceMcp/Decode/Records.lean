import Mathlib.Data.Finset.Sort
import TraceMcp.Lib.FastMap
import TraceMcp.Model.Events

/-!
# The record stream

What every decoder hands to reconstruction (`src/decode/perf_script.rs`):
samples with perf's flag vocabulary, executable mappings, task sideband,
losses and decoder errors. `PidTracker` is the process-tree filter over that
stream, `ThreadIds` the thread identity shared by all analyses of one
snapshot (`src/decode/reconstruct.rs`).
-/

namespace TraceMcp.Decode

open TraceMcp.Lib

/-- `SampleEvent`: which synthesized event a sample line came from. -/
inductive SampleEvent
  | branches
  | instructions
  | other
  deriving DecidableEq

def SampleEvent.isInstruction : SampleEvent → Bool
  | .instructions => true
  | _ => false

/-- `Flags(u16)`: perf's flag vocabulary as a bit set. -/
structure Flags where
  bits : BitVec 16
  deriving DecidableEq

namespace Flags

def CALL : Flags := ⟨1 <<< 0⟩
def RETURN : Flags := ⟨1 <<< 1⟩
def JCC : Flags := ⟨1 <<< 2⟩
def JMP : Flags := ⟨1 <<< 3⟩
def INT : Flags := ⟨1 <<< 4⟩
def IRET : Flags := ⟨1 <<< 5⟩
def SYSCALL : Flags := ⟨1 <<< 6⟩
def SYSRET : Flags := ⟨1 <<< 7⟩
def ASYNC : Flags := ⟨1 <<< 8⟩
def HW_INT : Flags := ⟨1 <<< 9⟩
def TX_ABORT : Flags := ⟨1 <<< 10⟩
def TR_START : Flags := ⟨1 <<< 11⟩
def TR_END : Flags := ⟨1 <<< 12⟩
def VMENTRY : Flags := ⟨1 <<< 13⟩
def VMEXIT : Flags := ⟨1 <<< 14⟩
/-- A token perf printed that no parser knows. -/
def UNKNOWN : Flags := ⟨1 <<< 15⟩
def EMPTY : Flags := ⟨0⟩

def has (f g : Flags) : Bool := f.bits &&& g.bits != 0

def union (f g : Flags) : Flags := ⟨f.bits ||| g.bits⟩

@[simp] theorem union_empty (f : Flags) : f.union EMPTY = f := by
  simp [union, EMPTY]

end Flags

/-- `InsnBytes`: raw instruction bytes, at most 15 of them on x86. -/
structure InsnBytes where
  bytes : List UInt8
  len_le : bytes.length ≤ 15
  deriving DecidableEq

namespace InsnBytes

def empty : InsnBytes := ⟨[], Nat.zero_le _⟩

/-- One more byte; a sixteenth is dropped. -/
def push (b : InsnBytes) (v : UInt8) : InsnBytes :=
  if h : b.bytes.length < 15 then ⟨b.bytes ++ [v], by simp only [List.length_append, List.length_singleton]; omega⟩ else b

end InsnBytes

/-- `Sample`: one synthesized PT sample. -/
structure Sample where
  pid : Nat
  tid : Nat
  cpu : Option Nat
  timeNs : Option Nat
  event : SampleEvent
  ip : Option Nat
  addr : Option Nat
  flags : Flags
  insnLen : Option Nat
  insn : InsnBytes
  deriving DecidableEq

structure MmapEvent where
  pid : Nat
  tid : Nat
  timeNs : Option Nat
  start : Nat
  len : Nat
  pgoff : Nat
  prot : String
  path : String
  deriving DecidableEq

inductive TaskKind
  | comm
  | exec
  | fork
  | exit
  deriving DecidableEq

structure TaskEvent where
  kind : TaskKind
  pid : Nat
  tid : Nat
  ppid : Option Nat
  ptid : Option Nat
  timeNs : Option Nat
  comm : Option String
  deriving DecidableEq

structure LostEvent where
  timeNs : Option Nat
  cpu : Option Nat
  lost : Nat
  deriving DecidableEq

structure DecoderErrorEvent where
  timeNs : Option Nat
  cpu : Option Nat
  pid : Option Nat
  tid : Option Nat
  ip : Option Nat
  /-- perf's `code N` (5 = failed to get instruction, 6 = trace mismatch). -/
  code : Option Nat
  message : String
  deriving DecidableEq

inductive RawRecord
  | sample (s : Sample)
  | mmap (m : MmapEvent)
  | task (t : TaskEvent)
  | switch (pid tid : Nat) (timeNs : Option Nat) (out : Bool)
  | lost (l : LostEvent)
  | decoderError (e : DecoderErrorEvent)
  deriving DecidableEq

/-- `flags_boundary`: the boundary bits a flag set stands for. -/
def flagsBoundary (f : Flags) : BoundaryFlags where
  traceBegin := f.has .TR_START
  traceEnd := f.has .TR_END
  asyncEvent := f.has .ASYNC || f.has .HW_INT
  transaction := f.has .TX_ABORT
  interrupt := f.has .INT || f.has .IRET || f.has .HW_INT
  syscall := f.has .SYSCALL || f.has .SYSRET

/-- `flags_kind`: the control-flow kind of a flag set, boundaries first. -/
def flagsKind (f : Flags) : FlowKind :=
  if f.has .TR_START then .traceBegin
  else if f.has .TR_END then .traceEnd
  else if f.has .ASYNC || f.has .HW_INT || f.has .INT || f.has .IRET || f.has .SYSCALL
      || f.has .SYSRET || f.has .TX_ABORT || f.has .VMENTRY || f.has .VMEXIT then
    .asyncBoundary
  else if f.has .CALL then .call
  else if f.has .RETURN then .ret
  else if f.has .JCC then .conditional
  else .jump

/-- A task, as the thread tables key it. -/
abbrev Key := Nat × Nat

/-! ## The process-tree filter -/

/-- The last normal component of a path (`Path::file_name`). -/
def fileName (path : String) : Option String :=
  match ((path.toList.splitOn '/').filter fun c => c != [] && c != ['.']).getLast? with
  | some ['.', '.'] => none
  | c => c.map String.ofList

/-- `PidTracker`: the pids of the traced process tree, and for launches which
of them have exec'd the target. -/
structure PidTracker where
  pids : Finset Nat
  targetComm : Option String
  execDone : Finset Nat
  execTime : FastMap Nat Nat
  preExecThreads : Finset Key

namespace PidTracker

def default : PidTracker := ⟨∅, none, ∅, ∅, ∅⟩

def withRoot (pid : Nat) : PidTracker := { default with pids := {pid}, execDone := {pid} }

/-- Launch mode: a root's samples count only after it exec'd `exe` (the kernel
keeps the first 15 characters of the base name). -/
def expectingExecOf (t : PidTracker) (exe : String) : PidTracker :=
  { t with targetComm := some (String.ofList (((fileName exe).getD "").toList.take 15)) }

/-- `observe` on a task record; the branches are tried in the source's order. -/
def observeTask (f : PidTracker) (t : TaskEvent) : PidTracker :=
  let named := t.kind = .comm ∨ t.kind = .exec
  if named ∧ t.comm = some "perf-exec" then
    { f with
      pids := insert t.pid f.pids
      execDone := if f.targetComm.isNone then insert t.pid f.execDone else f.execDone }
  else if named ∧ t.pid ∈ f.pids ∧ f.targetComm.isSome ∧ t.comm = f.targetComm then
    { f with
      execDone := insert t.pid f.execDone
      execTime := match t.timeNs with
        | some ts => f.execTime.insert t.pid ts
        | none => f.execTime }
  else if t.kind = .fork ∧ ∃ pp ∈ t.ppid, pp ∈ f.pids then
    if t.ppid = some t.pid ∧ t.tid ≠ t.pid then
      if f.targetComm.isSome ∧ t.pid ∉ f.execDone then
        { f with preExecThreads := insert (t.pid, t.tid) f.preExecThreads }
      else f
    else
      { f with
        pids := insert t.pid f.pids
        execDone := if ∃ pp ∈ t.ppid, pp ∈ f.execDone then insert t.pid f.execDone
          else f.execDone }
  else if t.kind = .exit then
    { f with preExecThreads := f.preExecThreads.erase (t.pid, t.tid) }
  else f

def observe (f : PidTracker) : RawRecord → PidTracker
  | .task t => f.observeTask t
  | _ => f

def isLive (f : PidTracker) (pid : Nat) : Bool :=
  pid ∈ f.pids && (f.targetComm.isNone || pid ∈ f.execDone)

def isLiveThread (f : PidTracker) (pid tid : Nat) : Bool :=
  f.isLive pid && !decide ((pid, tid) ∈ f.preExecThreads)

/-- A mapping counts only if established at or after the target exec. -/
def mappingIsLive (f : PidTracker) (m : MmapEvent) : Bool :=
  if m.pid ∉ f.pids then false
  else if f.targetComm.isNone then true
  else match f.execTime.get m.pid, m.timeNs with
    | some ex, some t => decide (ex ≤ t)
    | some _, none => false
    | none, _ => decide (m.pid ∈ f.execDone)

def contains (f : PidTracker) (pid : Nat) : Bool := pid ∈ f.pids

/-- The tracked pids, ascending. -/
def pidList (f : PidTracker) : List Nat := f.pids.sort (· ≤ ·)

end PidTracker

/-! ## Thread identities -/

/-- `ThreadIds`: generations per task, and the exits not yet consumed. -/
structure ThreadIds where
  generation : FastMap Key Nat
  exited : Finset Key

namespace ThreadIds

def default : ThreadIds := ⟨∅, ∅⟩

/-- Record a task exit; the next appearance of that tid is a new thread. -/
def observe (ids : ThreadIds) : RawRecord → ThreadIds
  | .task t => if t.kind = .exit then { ids with exited := insert (t.pid, t.tid) ids.exited } else ids
  | _ => ids

/-- The generation a task is in. -/
def gen (ids : ThreadIds) (k : Key) : Nat := (ids.generation.get k).getD 0

/-- True when `k` exited since it was last seen; its generation advances. -/
def takeExited (ids : ThreadIds) (k : Key) : ThreadIds × Bool :=
  if k ∈ ids.exited then
    (⟨ids.generation.insert k (ids.gen k + 1), ids.exited.erase k⟩, true)
  else (ids, false)

def id (ids : ThreadIds) (pid tid : Nat) : ThreadId := .task tid (ids.gen (pid, tid))

theorem gen_observe (ids : ThreadIds) (rec : RawRecord) (k : Key) :
    (ids.observe rec).gen k = ids.gen k := by
  cases rec with
  | task t =>
    simp only [observe]
    split <;> rfl
  | _ => rfl

/-- Only the key taken moves to its next generation, and only if it exited. -/
theorem gen_takeExited (ids : ThreadIds) (k k' : Key) :
    (ids.takeExited k).1.gen k' =
      if k' = k ∧ k ∈ ids.exited then ids.gen k' + 1 else ids.gen k' := by
  by_cases hk : k ∈ ids.exited
  · rw [takeExited, if_pos hk]
    show (FastMap.get (ids.generation.insert k (ids.gen k + 1)) k').getD 0 = _
    rw [FastMap.get_insert]
    by_cases h : k' = k
    · subst h
      simp [hk]
    · simp [h, gen]
  · rw [takeExited, if_neg hk]
    simp [hk]

end ThreadIds

end TraceMcp.Decode
