import TraceMcp.Decode.Chart

/-!
# The symbols of a reconstruction

What address resolution and block attribution read and write: the mapping
table, the interned functions and locations, the two caches, and of each
thread its identity, its last time and the start of its current block. A
sample touches them in one place, between its arrival and the event it may
keep (`pushSample_symbols`); whatever its transfer does to frames, gaps and
rows is not seen here. `push_symbols` says what a record does to them.
-/

namespace TraceMcp.Decode

open TraceMcp.Lib

/-- What is kept of a thread here. -/
structure Runner where
  id : ThreadId
  key : Key
  lastAbs : Option Nat
  blockStart : Option (Nat × Option Nat)

/-- The tables of a reconstructor: where its images are mapped, and what it has
learnt of their addresses. -/
structure Tables where
  images : List ArchivedImage
  index : List ImageIndex
  mappings : List MappingRecord
  mapsByPid : FastMap Nat (List Nat)
  functions : List FunctionRecord
  funcIndex : FastMap (Nat × Nat) LocalId
  locations : List CodeLocation
  locIndex : FastMap (Nat × Nat) LocalId
  ipCache : FastMap (Nat × Nat) Resolved
  inline : Option InlineState

/-- The symbols: the tables, the threads, and the threads that have exited. -/
structure Symbols where
  tables : Tables
  live : Key → Option Runner
  past : List Runner

def runnerOf (st : ThreadState) : Runner := ⟨st.id, (st.pid, st.tid), st.lastAbs, st.blockStart⟩

def tables (r : Reconstructor) : Tables where
  images := r.images
  index := r.index
  mappings := r.mappings
  mapsByPid := r.mapsByPid
  functions := r.functions
  funcIndex := r.funcIndex
  locations := r.locations
  locIndex := r.locIndex
  ipCache := r.ipCache
  inline := r.inline

/-- The symbols of a reconstructor. -/
def symbols (r : Reconstructor) : Symbols where
  tables := tables r
  live := fun k => (r.threads.get k).map runnerOf
  past := r.retired.map runnerOf

namespace Symbols

/-- Thread `k` is there afterwards. -/
def ensure (S : Symbols) (k : Key) (id : ThreadId) : Symbols :=
  match S.live k with
  | some _ => S
  | none => { S with live := Function.update S.live k (some ⟨id, k, none, none⟩) }

/-- Thread `k`, changed by `f`. -/
def modRunner (S : Symbols) (k : Key) (f : Runner → Runner) : Symbols :=
  match S.live k with
  | some w => { S with live := Function.update S.live k (some (f w)) }
  | none => S

/-- The last time of thread `k`, where a time is given. -/
def note (S : Symbols) (k : Key) (now : Option Nat) : Symbols :=
  S.modRunner k fun w => { w with lastAbs := now.or w.lastAbs }

/-- Thread `k` has exited. -/
def retire (S : Symbols) (k : Key) : Symbols :=
  match S.live k with
  | some w => { S with live := Function.update S.live k none, past := S.past ++ [w] }
  | none => S

end Symbols

open Reconstructor

variable {r r' : Reconstructor} {k : Key} {abs : Option Nat} {eid : LocalId}

/-! ## Writes that leave the symbols alone -/

/-- Changing thread `k` changes its runner and nothing else. -/
theorem modThread_runner {f : ThreadState → ThreadState} {g : Runner → Runner}
    (hf : ∀ st, runnerOf (f st) = g (runnerOf st)) :
    symbols (r.modThread k f) = (symbols r).modRunner k g := by
  cases hst : r.threads.get k with
  | none =>
    have hlive : (symbols r).live k = none := congrArg (Option.map runnerOf) hst
    simp only [modThread, hst, Symbols.modRunner, hlive]
  | some st =>
    have hrunner : (symbols r).live k = some (runnerOf st) := congrArg (Option.map runnerOf) hst
    have hlive : (fun k' => (FastMap.get (r.threads.insert k (f st)) k').map runnerOf) =
        Function.update (symbols r).live k (some (g (runnerOf st))) := by
      funext k'
      rw [FastMap.get_insert]
      by_cases hk : k' = k
      · rw [if_pos hk, hk, Function.update_self, Option.map_some, hf]
      · rw [if_neg hk, Function.update_of_ne hk]
        rfl
    simp only [modThread, hst, Symbols.modRunner, hrunner]
    rw [← hlive]
    rfl

theorem Symbols.modRunner_id (S : Symbols) (k : Key) : S.modRunner k (fun w => w) = S := by
  unfold Symbols.modRunner
  split
  next w hw => rw [← hw, Function.update_eq_self]
  next => rfl

theorem modThread_symbols {f : ThreadState → ThreadState}
    (hf : ∀ st, runnerOf (f st) = runnerOf st) : symbols (r.modThread k f) = symbols r := by
  rw [modThread_runner (g := fun w => w) hf, Symbols.modRunner_id]

@[simp] theorem noteAbs_symbols (t : Option Nat) : symbols (r.noteAbs t) = symbols r := by
  unfold noteAbs
  split
  · split <;> rfl
  · rfl

@[simp] theorem emitSpan_symbols (s : FunctionSpan) : symbols (r.emitSpan s) = symbols r := by
  unfold emitSpan
  split <;> rfl

@[simp] theorem emitStack_symbols (t : ThreadId) (endAbs : Option Nat)
    (c : SpanCompleteness → SpanCompleteness) (stack : List OpenSpan) :
    symbols (r.emitStack t endAbs c stack) = symbols r := by
  unfold emitStack
  induction stack generalizing r with
  | nil => rfl
  | cons o rest ih => rw [List.foldl_cons, ih, emitSpan_symbols]

@[simp] theorem recordGap_symbols (kind : GapKind) (a b : Option Nat) (x : Bool)
    (reason : String) : symbols (r.recordGap k kind a b x reason) = symbols r := by
  unfold recordGap
  rw [modThread_symbols (by intro st; rfl)]
  rfl

@[simp] theorem pushOpen_symbols (f : Option LocalId) (c : SpanCompleteness) :
    symbols (r.pushOpen k f abs eid c) = symbols r := by
  unfold pushOpen
  rw [modThread_symbols (by intro st; rfl)]
  rfl

@[simp] theorem pushOpenIn_symbols (f : Option LocalId) :
    symbols (r.pushOpenIn k f abs eid) = symbols r := by
  unfold pushOpenIn
  split
  next => exact pushOpen_symbols ..
  next => rfl

@[simp] theorem closeSpan_symbols (o : OpenSpan) (c : SpanCompleteness) :
    symbols (r.closeSpan k o abs eid c) = symbols r := by
  rw [closeSpan, emitSpan_symbols]
  exact modThread_symbols (by intro st; rfl)

@[simp] theorem interruptThread_symbols : symbols (r.interruptThread k) = symbols r := by
  unfold interruptThread
  split
  next => rfl
  next =>
    rw [emitStack_symbols]
    exact modThread_symbols (by intro st; rfl)

@[simp] theorem noteTrigger_symbols (s : Sample) (b : BoundaryFlags) :
    symbols (r.noteTrigger s b) = symbols r := by
  unfold noteTrigger
  split
  · split <;> rfl
  · rfl

@[simp] theorem checkRegression_symbols (prev now : Option Nat) :
    symbols (r.checkRegression k prev now) = symbols r := by
  unfold checkRegression
  split
  · rw [recordGap_symbols, interruptThread_symbols]
  · rfl

@[simp] theorem noteMissingImage_symbols (path : String) :
    symbols (r.noteMissingImage path) = symbols r := by
  unfold noteMissingImage
  split <;> rfl

@[simp] theorem emitEvent_symbols {ev : FlowEvent} (h : r.emitEvent ev = .ok r') :
    symbols r' = symbols r := by
  unfold emitEvent at h
  split at h
  next =>
    dsimp only at h
    split at h
    next =>
      obtain ⟨u, -, rfl⟩ := map_ok.mp h
      rfl
    next =>
      obtain rfl := Except.ok.inj h
      rfl
  next =>
    obtain rfl := Except.ok.inj h
    rfl

theorem retainEvent_symbols {s : Sample} {kind : FlowKind} {b : BoundaryFlags}
    {src dst : Resolved} (h : r.retainEvent k s kind b src dst eid = .ok r') :
    symbols r' = symbols r := by
  unfold retainEvent at h
  split at h
  next =>
    obtain rfl := Except.ok.inj h
    rfl
  next =>
    obtain ⟨r₁, hemit, h⟩ := bind_ok.mp h
    obtain rfl := Except.ok.inj h
    rw [modThread_symbols (by intro st; rfl), emitEvent_symbols hemit]

/-! ## Transfers -/

@[simp] theorem crossRingHole_symbols (p : PendingEnd) (cpu cpuFirst : Option Nat) :
    symbols (r.crossRingHole k p abs cpu cpuFirst) = symbols r := by
  have hcut : ∀ st, runnerOf (cutSegments p abs st) = runnerOf st := by
    intro st
    unfold cutSegments
    split <;> rfl
  unfold crossRingHole
  dsimp only
  rw [modThread_symbols hcut, recordGap_symbols, interruptThread_symbols]
  rfl

@[simp] theorem resumeHere_symbols (p : PendingEnd) (dst : Resolved) :
    symbols (r.resumeHere k p dst abs eid) = symbols r := by
  unfold resumeHere
  dsimp only
  split
  · rw [pushOpenIn_symbols, recordGap_symbols]
  · exact recordGap_symbols ..

@[simp] theorem loseContinuity_symbols (p : PendingEnd) (what : String) :
    symbols (r.loseContinuity k p abs what) = symbols r := by
  rw [loseContinuity, recordGap_symbols, interruptThread_symbols]

theorem settlePending_symbols (b : BoundaryFlags) (src dst : Resolved) (cpu : Option Nat) :
    symbols (r.settlePending k b src dst abs cpu eid).1 = symbols r := by
  unfold settlePending
  split
  next => rfl
  next p hp =>
    have hclear : symbols (r.modThread k fun st => { st with pendingEnd := none }) = symbols r :=
      modThread_symbols (by intro st; rfl)
    dsimp only
    generalize r.modThread k (fun st => { st with pendingEnd := none }) = r₁ at hclear
    rw [← hclear]
    split
    next => split <;> simp
    next =>
      split
      next => split <;> simp
      next => simp

theorem applyBoundary_symbols (b : BoundaryFlags) (src dst : Resolved) (cpu : Option Nat) :
    symbols (r.applyBoundary k b src dst abs cpu eid) = symbols r := by
  unfold applyBoundary
  split
  · exact modThread_symbols (by intro st; rfl)
  · split
    · rw [recordGap_symbols, interruptThread_symbols]
    · split
      · split <;> simp
      · rfl

@[simp] theorem noteUnwind_symbols (src dst : Resolved) :
    symbols (r.noteUnwind k src dst) = symbols r := by
  unfold noteUnwind
  split
  · split <;> rfl
  · rfl

theorem applyReturn_symbols (src dst : Resolved) :
    symbols (r.applyReturn k src dst abs eid) = symbols r := by
  unfold applyReturn
  split
  · unfold orphanReturn
    dsimp only
    rw [pushOpenIn_symbols, emitSpan_symbols, modThread_symbols (by intro st; rfl)]
    rfl
  · rw [noteUnwind_symbols, closeSpan_symbols]
    exact modThread_symbols (by intro st; rfl)

@[simp] theorem tailCall_symbols (target : LocalId) :
    symbols (r.tailCall k target abs eid) = symbols r := by
  unfold tailCall
  dsimp only
  rw [modThread_symbols (by intro st; rfl), pushOpen_symbols]
  split
  · rw [closeSpan_symbols]
    exact modThread_symbols (by intro st; rfl)
  · exact modThread_symbols (by intro st; rfl)

theorem applyJump_symbols (src dst : Resolved) :
    symbols (r.applyJump k src dst abs eid) = symbols r := by
  unfold applyJump
  split
  · split
    · exact tailCall_symbols ..
    · rfl
  · split
    · exact modThread_symbols (by intro st; rfl)
    · rfl
  · rfl

theorem applyFlow_symbols (kind : FlowKind) (b : BoundaryFlags) (src dst : Resolved)
    (cpu : Option Nat) : symbols (r.applyFlow k kind b src dst abs cpu eid) = symbols r := by
  have hsettle : symbols (r.settlePending k b src dst abs cpu eid).1 = symbols r :=
    settlePending_symbols b src dst cpu
  unfold applyFlow
  dsimp only
  rw [← hsettle]
  split
  next => rfl
  next =>
    split
    next => exact applyBoundary_symbols ..
    next =>
      cases kind with
      | call => exact pushOpen_symbols ..
      | ret => exact applyReturn_symbols ..
      | jump => exact applyJump_symbols ..
      | conditional => exact applyJump_symbols ..
      | traceBegin => rfl
      | traceEnd => rfl
      | asyncBoundary => rfl

/-! ## Threads -/

/-- The thread of a sample, created on its first appearance. -/
theorem thread_symbols (k : Key) :
    symbols (r.thread k) = (symbols r).ensure k (r.threadIds.id k.1 k.2) := by
  cases hst : r.threads.get k with
  | some st =>
    have hlive : (symbols r).live k = some (runnerOf st) := congrArg (Option.map runnerOf) hst
    simp only [Reconstructor.thread, hst, Symbols.ensure, hlive]
  | none =>
    have hnone : (symbols r).live k = none := congrArg (Option.map runnerOf) hst
    have hlive : (fun k' => (FastMap.get (r.threads.insert k (r.newThread k)) k').map runnerOf) =
        Function.update (symbols r).live k (some ⟨r.threadIds.id k.1 k.2, k, none, none⟩) := by
      funext k'
      rw [FastMap.get_insert]
      by_cases hk : k' = k
      · rw [if_pos hk, hk, Function.update_self]
        rfl
      · rw [if_neg hk, Function.update_of_ne hk]
        rfl
    simp only [Reconstructor.thread, hst, Symbols.ensure, hnone]
    rw [← hlive]
    rfl

theorem noteTime_symbols (prev now : Option Nat) :
    symbols (r.noteTime k prev now) = (symbols r).note k now := by
  cases now with
  | none => exact ((symbols r).modRunner_id k).symm
  | some t =>
    unfold noteTime
    dsimp only
    rw [modThread_runner (g := fun w => { w with lastAbs := (some t).or w.lastAbs })
      (by intro st; rfl)]
    show Symbols.modRunner _ k _ = (symbols r).note k (some t)
    congr 1
    split
    · split <;> rfl
    · rfl

theorem retireThread_symbols : symbols (r.retireThread k abs) = (symbols r).retire k := by
  cases hst : r.threads.get k with
  | none =>
    have hnone : (symbols r).live k = none := congrArg (Option.map runnerOf) hst
    simp only [retireThread, hst, Symbols.retire, hnone]
  | some st =>
    have hrunner : (symbols r).live k = some (runnerOf st) := congrArg (Option.map runnerOf) hst
    have hlive : (fun k' => (FastMap.get (r.threads.erase k) k').map runnerOf) =
        Function.update (symbols r).live k none := by
      funext k'
      rw [FastMap.get_erase]
      by_cases hk : k' = k
      · rw [if_pos hk, hk, Function.update_self]
        rfl
      · rw [if_neg hk, Function.update_of_ne hk]
        rfl
    have hstack := emitStack_symbols (r := { r with
      threads := r.threads.erase k
      threadOrder := r.threadOrder.filter (· ≠ k) }) st.id abs openCompleteness st.stack
    simp only [retireThread, hst, Symbols.retire, hrunner]
    rw [← hlive]
    generalize emitStack _ st.id abs openCompleteness st.stack = r₁ at hstack
    have hpast : { symbols r₁ with past := (symbols r₁).past ++ [runnerOf st] } =
        { symbols r with
          live := fun k' => (FastMap.get (r.threads.erase k) k').map runnerOf
          past := (symbols r).past ++ [runnerOf st] } := by
      rw [hstack]
      rfl
    rw [← hpast]
    simp only [symbols, List.map_append]
    rfl

/-! ## Samples -/

namespace Reconstructor

/-- `push_sample` up to the resolution of its addresses. -/
def arrived (r : Reconstructor) (s : Sample) : Reconstructor :=
  let k : Key := (s.pid, s.tid)
  let r := r.beginSample s
  let prev := (r.stateOf k).lastAbs
  let r := r.checkRegression k prev s.timeNs
  let r := r.noteTime k prev s.timeNs
  r.noteTrigger s (flagsBoundary s.flags)

/-- `push_sample` up to the attribution of the block it ends. -/
def attributing (r : Reconstructor) (s : Sample) : Reconstructor :=
  (((r.arrived s).resolve s.pid s.ip).1.resolve s.pid s.addr).1

/-- The block attribution of `push_sample`. -/
def attributed (r : Reconstructor) (s : Sample) : Reconstructor :=
  (r.attributing s).attributeSample (s.pid, s.tid) s (flagsBoundary s.flags)

end Reconstructor

/-- A sample touches the symbols when it arrives, by the resolution of its
addresses and by its block. -/
theorem pushSample_symbols {s : Sample} (h : r.pushSample s = .ok r') :
    symbols r' = symbols (r.attributed s) := by
  unfold pushSample at h
  dsimp only at h
  obtain ⟨r₁, hretain, hflow⟩ := bind_ok.mp h
  have hkept : symbols r₁ = symbols (r.attributed s) := (retainEvent_symbols hretain).trans rfl
  rw [checkBudget_eq hflow, ← hkept]
  exact (applyFlow_symbols ..).trans rfl

theorem arrived_symbols (s : Sample) : symbols (r.arrived s) =
    ((symbols r).ensure (s.pid, s.tid) (r.threadIds.id s.pid s.tid)).note (s.pid, s.tid)
      s.timeNs := by
  have hbegin : symbols (r.beginSample s) =
      (symbols r).ensure (s.pid, s.tid) (r.threadIds.id s.pid s.tid) := by
    unfold beginSample
    dsimp only
    rw [modThread_symbols (by intro st; rfl), thread_symbols]
    have hnote : symbols (noteAbs { r with samples := r.samples + 1 } s.timeNs) = symbols r :=
      noteAbs_symbols s.timeNs
    have hids : (noteAbs { r with samples := r.samples + 1 } s.timeNs).threadIds = r.threadIds :=
      congrArg Surroundings.threadIds (noteAbs_surroundings s.timeNs)
    generalize noteAbs { r with samples := r.samples + 1 } s.timeNs = r₁ at hnote hids
    rw [← hnote, ← hids]
    split <;> rfl
  unfold arrived
  dsimp only
  rw [noteTrigger_symbols, noteTime_symbols, checkRegression_symbols, hbegin]

/-! ## Resolution -/

/-- What has resolved or attributed something leaves the threads alone. -/
def SameThreads (r r' : Reconstructor) : Prop :=
  r'.threads = r.threads ∧ r'.retired = r.retired

theorem SameThreads.symbols (h : SameThreads r r') :
    symbols r' = { symbols r with tables := tables r' } := by
  unfold Decode.symbols
  rw [h.1, h.2]

theorem SameThreads.trans {r'' : Reconstructor} (h : SameThreads r r') (h' : SameThreads r' r'') :
    SameThreads r r'' :=
  ⟨h'.1.trans h.1, h'.2.trans h.2⟩

theorem internFunction_threads (key : Nat) (image : String) (fr : FuncRange) :
    SameThreads r (r.internFunction key image fr).1 := by
  unfold internFunction
  split <;> exact ⟨rfl, rfl⟩

theorem internLocation_threads (key : Nat) (image : String) (rel ip : Nat)
    (func : Option LocalId) : SameThreads r (r.internLocation key image rel ip func).1 := by
  unfold internLocation
  split <;> exact ⟨rfl, rfl⟩

theorem noteMissingImage_threads (path : String) : SameThreads r (r.noteMissingImage path) := by
  unfold noteMissingImage
  split <;> exact ⟨rfl, rfl⟩

theorem resolveUncached_threads (pid ip : Nat) :
    SameThreads r (r.resolveUncached pid ip).1 := by
  unfold resolveUncached
  split
  · exact ⟨rfl, rfl⟩
  · split
    · exact ⟨rfl, rfl⟩
    · split
      · dsimp only
        split
        · exact (internFunction_threads ..).trans (internLocation_threads ..)
        · exact internLocation_threads ..
      · exact (noteMissingImage_threads _).trans (internLocation_threads ..)

theorem resolve_threads (pid : Nat) (ip : Option Nat) : SameThreads r (r.resolve pid ip).1 := by
  unfold resolve
  split
  · exact ⟨rfl, rfl⟩
  · split
    · exact ⟨rfl, rfl⟩
    · exact (resolveUncached_threads ..).trans ⟨rfl, rfl⟩

theorem attributeBlock_threads (pid start stop : Nat) (t0 t1 : Option Nat) :
    SameThreads r (r.attributeBlock k pid start stop t0 t1) := by
  unfold attributeBlock
  split
  · exact ⟨rfl, rfl⟩
  · split
    · exact ⟨rfl, rfl⟩
    · dsimp only
      split <;> exact ⟨rfl, rfl⟩

theorem noteAbs_threads (t : Option Nat) : SameThreads r (r.noteAbs t) := by
  unfold noteAbs
  split
  · split <;> exact ⟨rfl, rfl⟩
  · exact ⟨rfl, rfl⟩

theorem pushMmap_threads (m : MmapEvent) : SameThreads r (r.pushMmap m) :=
  (noteAbs_threads m.timeNs).trans ⟨rfl, rfl⟩

theorem attributing_symbols (s : Sample) : symbols (r.attributing s) =
    { symbols (r.arrived s) with tables := tables (r.attributing s) } :=
  ((resolve_threads s.pid s.ip).trans (resolve_threads s.pid s.addr)).symbols

/-! ## Blocks -/

namespace Reconstructor

/-- The call of `attribute_block` that `push_sample` makes, if it does: the
start of the block with its time, and the end. -/
def blockCall (r : Reconstructor) (s : Sample) : Option ((Nat × Option Nat) × Nat) :=
  if r.inline.isNone then none
  else match (r.stateOf (s.pid, s.tid)).blockStart, s.ip with
    | some start, some ip =>
      if (flagsBoundary s.flags).traceBegin then none else some (start, ip)
    | _, _ => none

/-- The block that starts behind a sample. -/
def nextBlock (s : Sample) : Option (Nat × Option Nat) :=
  let b := flagsBoundary s.flags
  if b.traceEnd || b.asyncEvent || b.interrupt then none
  else (s.addr.filter (· ≠ 0)).map fun a => (a, s.timeNs)

end Reconstructor

theorem attributeSample_eq (s : Sample) :
    r.attributeSample (s.pid, s.tid) s (flagsBoundary s.flags) =
      if r.inline.isNone then r
      else ((r.blockCall s).elim r fun call =>
        r.attributeBlock (s.pid, s.tid) s.pid call.1.1 call.2 call.1.2 s.timeNs).modThread
          (s.pid, s.tid) fun st => { st with blockStart := nextBlock s } := by
  unfold attributeSample blockCall
  split
  next => rfl
  next =>
    dsimp only
    cases (r.stateOf (s.pid, s.tid)).blockStart with
    | none => rfl
    | some start =>
      cases s.ip with
      | none => rfl
      | some ip =>
        dsimp only
        split <;> rfl

/-- The block start of a thread, if there is such a thread. -/
theorem stateOf_blockStart (k : Key) :
    (r.stateOf k).blockStart = ((symbols r).live k).bind Runner.blockStart := by
  cases hst : r.threads.get k with
  | none => simp [stateOf, hst, symbols, newThread]
  | some st => simp [stateOf, hst, symbols, runnerOf]

/-! ## Records -/

theorem noteCpuFirst_symbols (rec : RawRecord) : symbols (r.noteCpuFirst rec) = symbols r := by
  unfold noteCpuFirst
  split
  next s =>
    split
    next =>
      split <;> rfl
    next => rfl
  next => rfl

theorem noteComm_symbols (comm : Option String) : symbols (r.noteComm k comm) = symbols r := by
  unfold noteComm
  split
  next c =>
    split
    next =>
      exact modThread_symbols (r := { r with comms := r.comms.insert k c }) (by intro st; rfl)
    next => rfl
  next => rfl

/-- An exit takes its thread out of the table; no other task record does
anything here. -/
theorem pushTask_symbols (t : TaskEvent) : symbols (r.pushTask t) =
    if t.kind = .exit then (symbols r).retire (t.pid, t.tid) else symbols r := by
  unfold pushTask
  dsimp only
  rw [noteComm_symbols]
  have hnote : symbols { r.noteAbs t.timeNs with
      threadIds := (r.noteAbs t.timeNs).threadIds.observe (.task t) } = symbols r :=
    noteAbs_symbols t.timeNs
  generalize { r.noteAbs t.timeNs with
    threadIds := (r.noteAbs t.timeNs).threadIds.observe (.task t) } = r₁ at hnote
  rw [← hnote]
  unfold noteExit
  by_cases hkind : t.kind = .exit
  · rw [if_pos hkind]
    split
    next => exact retireThread_symbols
    next hdead =>
      -- without a thread there is nothing to take out
      have hnone : r₁.threads.get (t.pid, t.tid) = none := by
        rw [← Option.not_isSome_iff_eq_none]
        exact fun hlive => hdead ⟨hkind, hlive⟩
      have hretire : symbols (r₁.retireThread (t.pid, t.tid) none) =
          (symbols r₁).retire (t.pid, t.tid) := retireThread_symbols
      rw [← hretire, retireThread, hnone]
  · rw [if_neg hkind, if_neg (fun hexit => hkind hexit.1)]

theorem pushDecoderError_symbols (e : DecoderErrorEvent) : symbols (r.pushDecoderError e) =
    (Ledger.namedKey (.decoderError e)).elim (symbols r) fun k =>
      (symbols r).ensure k (r.threadIds.id k.1 k.2) := by
  unfold pushDecoderError Ledger.namedKey
  dsimp only
  have hnote : symbols (noteAbs { r with decoderErrors := r.decoderErrors + 1 } e.timeNs) =
      symbols r := noteAbs_symbols e.timeNs
  have hids : (noteAbs { r with decoderErrors := r.decoderErrors + 1 } e.timeNs).threadIds =
      r.threadIds := congrArg Surroundings.threadIds (noteAbs_surroundings e.timeNs)
  generalize noteAbs { r with decoderErrors := r.decoderErrors + 1 } e.timeNs = r₁ at hnote hids
  rw [← hnote, ← hids]
  cases e.pid with
  | none => rfl
  | some pid =>
    cases e.tid with
    | none => rfl
    | some tid =>
      dsimp only
      rw [recordGap_symbols, interruptThread_symbols, thread_symbols]
      rfl

namespace Reconstructor

/-- The reconstructor that `push` hands to the record, once it is noted. -/
def handed (r : Reconstructor) (rec : RawRecord) : Reconstructor :=
  { r.noteCpuFirst rec with pidFilter := r.pidFilter.map (·.observe rec) }

/-- The symbols after an accepted record. -/
def symbolsAfter (r : Reconstructor) : RawRecord → Symbols
  | .sample s => symbols (r.attributed s)
  | .mmap m => symbols (r.pushMmap m)
  | .task t => if t.kind = .exit then (symbols r).retire (t.pid, t.tid) else symbols r
  | .decoderError e => (Ledger.namedKey (.decoderError e)).elim (symbols r) fun k =>
      (symbols r).ensure k (r.threadIds.id k.1 k.2)
  | .switch .. | .lost _ => symbols r

end Reconstructor

theorem retire_tables (S : Symbols) (k : Key) : (S.retire k).tables = S.tables := by
  unfold Symbols.retire
  split <;> rfl

theorem ensure_tables (S : Symbols) (k : Key) (id : ThreadId) :
    (S.ensure k id).tables = S.tables := by
  unfold Symbols.ensure
  split <;> rfl

/-- Only samples and mappings touch the tables. -/
theorem symbolsAfter_tables {rec : RawRecord} (hsample : ∀ s, rec ≠ .sample s)
    (hmmap : ∀ m, rec ≠ .mmap m) : (r.symbolsAfter rec).tables = tables r := by
  cases rec with
  | sample s => exact absurd rfl (hsample s)
  | mmap m => exact absurd rfl (hmmap m)
  | task t =>
    show (if t.kind = .exit then (symbols r).retire (t.pid, t.tid) else symbols r).tables = _
    split
    next => exact retire_tables ..
    next => rfl
  | decoderError e =>
    show ((Ledger.namedKey (.decoderError e)).elim (symbols r) fun k =>
      (symbols r).ensure k (r.threadIds.id k.1 k.2)).tables = _
    cases Ledger.namedKey (.decoderError e) with
    | none => rfl
    | some k => exact ensure_tables ..
  | switch | lost => rfl

theorem pushMmap_inline (m : MmapEvent) : (r.pushMmap m).inline = r.inline :=
  congrArg (fun S => S.tables.inline) (noteAbs_symbols (r := r) m.timeNs)

/-- Only samples touch inline attribution. -/
theorem symbolsAfter_inline {rec : RawRecord} (hsample : ∀ s, rec ≠ .sample s) :
    (r.symbolsAfter rec).tables.inline = r.inline := by
  by_cases hmmap : ∀ m, rec ≠ .mmap m
  · exact congrArg Tables.inline (symbolsAfter_tables hsample hmmap)
  · push Not at hmmap
    obtain ⟨m, rfl⟩ := hmmap
    exact pushMmap_inline m

theorem handed_symbols (rec : RawRecord) : symbols (r.handed rec) = symbols r :=
  noteCpuFirst_symbols rec

theorem handed_threadIds (rec : RawRecord) : (r.handed rec).threadIds = r.threadIds := by
  show (r.noteCpuFirst rec).threadIds = r.threadIds
  unfold noteCpuFirst
  split
  next s =>
    split
    next =>
      split <;> rfl
    next => rfl
  next => rfl

theorem accept_symbols {rec : RawRecord} (h : r.accept rec = .ok r') :
    symbols r' = r.symbolsAfter rec := by
  cases rec with
  | sample s => exact pushSample_symbols h
  | mmap m =>
    obtain rfl := Except.ok.inj h
    rfl
  | task t =>
    obtain rfl := Except.ok.inj h
    exact pushTask_symbols t
  | switch pid tid time out =>
    obtain rfl := Except.ok.inj h
    exact noteAbs_symbols time
  | lost e =>
    obtain rfl := Except.ok.inj h
    rfl
  | decoderError e =>
    obtain rfl := Except.ok.inj h
    exact pushDecoderError_symbols e

/-- A record the filter drops leaves the symbols as they are; any other is
handed on. -/
theorem push_symbols {rec : RawRecord} (h : r.push rec = .ok r') :
    symbols r' = if r.drops rec then symbols r else (r.handed rec).symbolsAfter rec := by
  unfold push at h
  have hcpu := noteCpuFirst_symbols (r := r) rec
  have hfilter := noteCpuFirst_pidFilter (r := r) rec
  unfold handed
  generalize r.noteCpuFirst rec = r₁ at h hcpu hfilter ⊢
  dsimp only at h
  rw [← hcpu, drops, ← hfilter]
  cases hf : r₁.pidFilter with
  | none =>
    rw [hf] at h
    have heq : { r₁ with pidFilter := none } = r₁ := by rw [← hf]
    show _ = symbolsAfter { r₁ with pidFilter := none } rec
    rw [heq]
    exact accept_symbols h
  | some f =>
    rw [hf] at h
    dsimp only at h
    cases hforeign : foreignPid (f.observe rec) rec with
    | none =>
      rw [hforeign] at h
      simp only [Option.any_some, hforeign, Option.isSome_none, Bool.false_eq_true, if_false]
      exact accept_symbols h
    | some p =>
      rw [hforeign] at h
      simp only [Option.any_some, hforeign, Option.isSome_some, if_true]
      dsimp only at h
      split at h
      next => cases h; rfl
      next => cases h; rfl

/-- Nothing has been learnt yet, and no thread has been seen. -/
structure Unlearnt (r : Reconstructor) : Prop where
  live : (symbols r).live = fun _ => none
  past : (symbols r).past = []
  mappings : r.mappings = []
  mapsByPid : r.mapsByPid = ∅
  funcIndex : r.funcIndex = ∅
  locIndex : r.locIndex = ∅
  ipCache : r.ipCache = ∅
  inline : ∀ inl, r.inline = some inl → inl = ⟨inl.tools, [], ∅, ∅, ∅, 0⟩

theorem Built.unlearnt (h : Built r) : Unlearnt r := by
  induction h with
  | new =>
    exact ⟨rfl, rfl, rfl, rfl, rfl, rfl, rfl, fun inl hinl => by cases hinl⟩
  | withNote _ _ ih | withTrigger _ _ _ ih | withPidFilter _ _ ih | withBudget _ _ ih =>
    exact ⟨ih.live, ih.past, ih.mappings, ih.mapsByPid, ih.funcIndex, ih.locIndex, ih.ipCache,
      ih.inline⟩
  | withSpill _ _ _ _ ih =>
    exact ⟨ih.live, ih.past, ih.mappings, ih.mapsByPid, ih.funcIndex, ih.locIndex, ih.ipCache,
      ih.inline⟩
  | withInlineAttribution tools _ ih =>
    refine ⟨ih.live, ih.past, ih.mappings, ih.mapsByPid, ih.funcIndex, ih.locIndex, ih.ipCache,
      fun inl hinl => ?_⟩
    obtain rfl := Option.some.inj hinl
    rfl

end TraceMcp.Decode
