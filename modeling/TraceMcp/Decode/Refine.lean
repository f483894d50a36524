import TraceMcp.Decode.Frames
import TraceMcp.Decode.Ledger

/-!
# Reconstruction refines the span ledger

`ledger` reads the span ledger off a `Reconstructor`. Every function of the
reconstructor is either invisible in the ledger (address resolution, inline
attribution, event retention, the counters of the quality report) or one of
its moves. `push_ledger` puts the pieces together: a record that is accepted
is an `Action` on the ledger.
-/

namespace TraceMcp.Decode

open TraceMcp.Lib

/-- What the ledger keeps of a thread state. -/
def laneOf (st : ThreadState) : Lane :=
  ⟨st.id, st.stack, st.lastAbs, st.pendingEnd, st.spans, st.gaps⟩

/-- The span rows written so far, resident or spilled. -/
def spanRows (r : Reconstructor) : List FunctionSpan :=
  match r.spill with
  | some sp => sp.spans
  | none => r.spans

/-- The ledger of a reconstructor. -/
def ledger (r : Reconstructor) : Ledger where
  lanes := fun k => (r.threads.get k).map laneOf
  order := r.threadOrder
  closed := r.retired.map laneOf
  gen := r.threadIds.gen
  spans := spanRows r
  spansN := r.spansN
  spilling := r.spill.isSome
  gaps := r.gaps
  losses := r.lostRecords
  nextSpan := r.nextSpan
  nextGap := r.nextGap

namespace Ledger

variable (L : Ledger) (k : Key) (l l' : Lane)

@[simp] theorem setLane_lanes_self : (L.setLane k l).lanes k = some l :=
  Function.update_self ..

theorem setLane_lanes_ne {k' : Key} (h : k' ≠ k) : (L.setLane k l).lanes k' = L.lanes k' :=
  Function.update_of_ne h ..

@[simp] theorem setLane_setLane : (L.setLane k l).setLane k l' = L.setLane k l' := by
  simp only [setLane, Function.update_idem]

@[simp] theorem emit_lanes (rows : List FunctionSpan) : (L.emit rows).lanes = L.lanes := rfl

@[simp] theorem takeSpanId_lanes : L.takeSpanId.lanes = L.lanes := rfl

@[simp] theorem addGap_lanes (t : ThreadId) (kind : GapKind) (a b : Option Nat) (x : Bool)
    (reason : String) : (L.addGap t kind a b x reason).lanes = L.lanes := rfl

@[simp] theorem emit_setLane (rows : List FunctionSpan) :
    (L.emit rows).setLane k l = (L.setLane k l).emit rows := rfl

@[simp] theorem takeSpanId_setLane : L.takeSpanId.setLane k l = (L.setLane k l).takeSpanId := rfl

@[simp] theorem addGap_setLane (t : ThreadId) (kind : GapKind) (a b : Option Nat) (x : Bool)
    (reason : String) :
    (L.addGap t kind a b x reason).setLane k l = (L.setLane k l).addGap t kind a b x reason :=
  rfl

@[simp] theorem emit_emit (rows rows' : List FunctionSpan) :
    (L.emit rows).emit rows' = L.emit (rows ++ rows') := by
  simp only [emit, List.append_assoc, List.length_append, Nat.add_assoc]

@[simp] theorem emit_nil : L.emit [] = L := by
  simp only [emit, List.append_nil, List.length_nil, Nat.add_zero]

variable {L k l l'}

/-- A lane that is already there, written again. -/
theorem setLane_of_lane (h : L.lanes k = some l) : L.setLane k l = L := by
  simp only [setLane, ← h, Function.update_eq_self]

end Ledger

open Ledger Reconstructor

/-! ## The small writes -/

variable {r r' : Reconstructor} {k : Key} {l : Lane}

theorem lanes_ledger : (ledger r).lanes k = some l ↔
    ∃ st, r.threads.get k = some st ∧ laneOf st = l :=
  Option.map_eq_some_iff

theorem lanes_ledger_none : (ledger r).lanes k = none ↔ r.threads.get k = none :=
  Option.map_eq_none_iff

theorem stateOf_lane (h : (ledger r).lanes k = some l) : laneOf (r.stateOf k) = l := by
  obtain ⟨st, hst, rfl⟩ := lanes_ledger.mp h
  rw [stateOf, hst, Option.getD_some]

theorem stateOf_id (h : (ledger r).lanes k = some l) : (r.stateOf k).id = l.id :=
  congrArg Lane.id (stateOf_lane h)

theorem stateOf_stack (h : (ledger r).lanes k = some l) : (r.stateOf k).stack = l.stack :=
  congrArg Lane.stack (stateOf_lane h)

theorem stateOf_lastAbs (h : (ledger r).lanes k = some l) : (r.stateOf k).lastAbs = l.lastAbs :=
  congrArg Lane.lastAbs (stateOf_lane h)

theorem stateOf_pendingEnd (h : (ledger r).lanes k = some l) :
    (r.stateOf k).pendingEnd = l.pending :=
  congrArg Lane.pending (stateOf_lane h)

/-- Changing thread `k` writes its lane and nothing else. -/
theorem modThread_ledger {f : ThreadState → ThreadState} {m : Lane}
    (h : (ledger r).lanes k = some l) (hf : ∀ st, laneOf st = l → laneOf (f st) = m) :
    ledger (r.modThread k f) = (ledger r).setLane k m := by
  obtain ⟨st, hst, hl⟩ := lanes_ledger.mp h
  have hlanes : (fun k' => (FastMap.get (r.threads.insert k (f st)) k').map laneOf) =
      Function.update (ledger r).lanes k (some m) := by
    funext k'
    rw [FastMap.get_insert]
    by_cases hk : k' = k
    · rw [if_pos hk, hk, Function.update_self, Option.map_some, hf st hl]
    · rw [if_neg hk, Function.update_of_ne hk]
      rfl
  simp only [modThread, hst]
  simp only [ledger, setLane] at hlanes ⊢
  rw [hlanes]
  rfl

/-- Changes the ledger does not see. -/
theorem modThread_quiet {f : ThreadState → ThreadState} (hf : ∀ st, laneOf (f st) = laneOf st) :
    ledger (r.modThread k f) = ledger r := by
  cases h : (ledger r).lanes k with
  | none =>
    simp only [modThread, lanes_ledger_none.mp h]
  | some l =>
    rw [modThread_ledger (m := l) h fun st hst => (hf st).trans hst]
    exact setLane_of_lane h

theorem emitSpan_ledger (s : FunctionSpan) : ledger (r.emitSpan s) = (ledger r).emit [s] := by
  cases hsp : r.spill with
  | none => simp only [emitSpan, hsp, ledger, spanRows, emit, List.length_singleton]
  | some sp =>
    simp only [emitSpan, hsp, ledger, spanRows, emit, List.length_singleton, Option.isSome_some]

theorem emitStack_ledger (t : ThreadId) (endAbs : Option Nat)
    (c : SpanCompleteness → SpanCompleteness) :
    ∀ (stack : List OpenSpan) {r : Reconstructor},
      ledger (r.emitStack t endAbs c stack) = (ledger r).emit (flushRows t endAbs c stack)
  | [], r => (emit_nil _).symm
  | o :: rest, r => by
    show ledger ((r.emitSpan _).emitStack t endAbs c rest) = _
    rw [emitStack_ledger t endAbs c rest, emitSpan_ledger, emit_emit]
    rfl

theorem emitStack_threadIds (t : ThreadId) (endAbs : Option Nat)
    (c : SpanCompleteness → SpanCompleteness) :
    ∀ (stack : List OpenSpan) {r : Reconstructor},
      (r.emitStack t endAbs c stack).threadIds = r.threadIds
  | [], _ => rfl
  | o :: rest, r => by
    show ((r.emitSpan _).emitStack t endAbs c rest).threadIds = _
    rw [emitStack_threadIds t endAbs c rest, emitSpan]
    split <;> rfl

theorem pushGap_ledger (t : ThreadId) (kind : GapKind) (a b : Option Nat) (x : Bool)
    (reason : String) :
    ledger (r.pushGap t kind a b x reason) = (ledger r).addGap t kind a b x reason := rfl

theorem recordGap_ledger (h : (ledger r).lanes k = some l) (kind : GapKind) (a b : Option Nat)
    (x : Bool) (reason : String) :
    ledger (r.recordGap k kind a b x reason) =
      ((ledger r).setLane k { l with gaps := l.gaps + 1 }).addGap l.id kind a b x reason := by
  rw [recordGap, stateOf_id h]
  exact modThread_ledger (m := { l with gaps := l.gaps + 1 })
    (r := r.pushGap l.id kind a b x reason) h (by rintro st rfl; rfl)

theorem pushOpen_ledger (h : (ledger r).lanes k = some l) (fn : Option LocalId)
    (abs : Option Nat) (eid : LocalId) (c : SpanCompleteness) :
    ∃ o, IsFrame (ledger r) o (topId l.stack) abs ∧
      ledger (r.pushOpen k fn abs eid c) =
        ((ledger r).setLane k { l with stack := o :: l.stack }).takeSpanId := by
  refine ⟨⟨r.nextSpan, fn, topId l.stack, abs, eid, c, r.curCallSite⟩, ⟨rfl, rfl, rfl⟩, ?_⟩
  exact modThread_ledger (r := { r with nextSpan := nextId r.nextSpan }) h
    (by rintro st rfl; rfl)

theorem closeSpan_ledger (h : (ledger r).lanes k = some l) (o : OpenSpan) (abs : Option Nat)
    (ev : LocalId) (c : SpanCompleteness) :
    ledger (r.closeSpan k o abs ev c) =
      ((ledger r).setLane k { l with spans := l.spans + 1 }).emit [spanOf l.id o abs ev c] := by
  rw [closeSpan, emitSpan_ledger, stateOf_id h,
    modThread_ledger (m := { l with spans := l.spans + 1 }) h (by rintro st rfl; rfl)]

theorem interruptThread_ledger (h : (ledger r).lanes k = some l) :
    ledger (r.interruptThread k) =
      ((ledger r).setLane k { l with stack := [], spans := l.spans + l.stack.length }).emit
        (flushRows l.id none (fun _ => .interruptedByGap) l.stack) := by
  obtain ⟨st, hst, rfl⟩ := lanes_ledger.mp h
  simp only [interruptThread, hst]
  rw [emitStack_ledger, modThread_ledger
    (m := { laneOf st with stack := [], spans := st.spans + st.stack.length }) h
    (fun st' hst' => by cases st; cases st'; cases hst'; rfl)]
  rfl

/-- An interruption with its gap is a cut. -/
theorem interrupt_gap_ledger (h : (ledger r).lanes k = some l) (kind : GapKind)
    (a b : Option Nat) (x : Bool) (reason : String) :
    ledger ((r.interruptThread k).recordGap k kind a b x reason) =
      (ledger r).cut k l l.pending kind a b x reason := by
  have hint := interruptThread_ledger h
  rw [recordGap_ledger (l := { l with stack := [], spans := l.spans + l.stack.length })
    (by rw [hint]; simp), hint]
  simp [cut]

theorem retireThread_ledger (h : (ledger r).lanes k = some l) (hk : k ∈ r.threadIds.exited)
    (abs : Option Nat) : ledger (r.retireThread k abs) = (ledger r).retire k l abs := by
  obtain ⟨st, hst, rfl⟩ := lanes_ledger.mp h
  have hlanes : (fun k' => (FastMap.get (r.threads.erase k) k').map laneOf) =
      Function.update (ledger r).lanes k none := by
    funext k'
    rw [FastMap.get_erase]
    by_cases hk' : k' = k
    · rw [if_pos hk', hk', Function.update_self, Option.map_none]
    · rw [if_neg hk', Function.update_of_ne hk']
      rfl
  have hgen : (r.threadIds.takeExited k).1.gen =
      Function.update (ledger r).gen k ((ledger r).gen k + 1) := by
    funext k'
    rw [ThreadIds.gen_takeExited]
    by_cases hk' : k' = k
    · subst hk'
      rw [if_pos ⟨rfl, hk⟩, Function.update_self]
      rfl
    · rw [if_neg (fun hc => hk' hc.1), Function.update_of_ne hk']
      rfl
  -- The rows are written to the reconstructor without the thread.
  have hrows := emitStack_ledger st.id abs openCompleteness st.stack
    (r := { r with threads := r.threads.erase k, threadOrder := r.threadOrder.filter (· ≠ k) })
  have hids := emitStack_threadIds st.id abs openCompleteness st.stack
    (r := { r with threads := r.threads.erase k, threadOrder := r.threadOrder.filter (· ≠ k) })
  simp only [retireThread, hst]
  generalize Reconstructor.emitStack _ st.id abs openCompleteness st.stack = r₁ at hrows hids ⊢
  have happ : ledger { r₁ with
      threadIds := (r₁.threadIds.takeExited k).1
      retired := r₁.retired ++ [{ st with
        stack := []
        spans := st.spans + st.stack.length
        pendingEnd := none }] } =
      { ledger r₁ with
        gen := (r₁.threadIds.takeExited k).1.gen
        closed := (ledger r₁).closed ++ [{ laneOf st with
          stack := []
          pending := none
          spans := st.spans + st.stack.length }] } := by
    simp only [ledger, List.map_append]
    rfl
  rw [happ, hrows, hids, hgen]
  simp only [ledger, emit] at hlanes ⊢
  rw [hlanes]
  rfl

/-! ## What the ledger does not see -/

theorem noteAbs_ledger (t : Option Nat) : ledger (r.noteAbs t) = ledger r := by
  unfold noteAbs
  split
  next t =>
    split <;> rfl
  next => rfl

theorem internFunction_ledger (key : Nat) (image : String) (fr : FuncRange) :
    ledger (r.internFunction key image fr).1 = ledger r := by
  unfold internFunction
  split <;> rfl

theorem internLocation_ledger (key : Nat) (image : String) (rel ip : Nat)
    (f : Option LocalId) : ledger (r.internLocation key image rel ip f).1 = ledger r := by
  unfold internLocation
  split <;> rfl

theorem noteMissingImage_ledger (path : String) :
    ledger (r.noteMissingImage path) = ledger r := by
  unfold noteMissingImage
  split <;> rfl

theorem resolveUncached_ledger (pid ip : Nat) :
    ledger (r.resolveUncached pid ip).1 = ledger r := by
  unfold resolveUncached
  split
  next => rfl
  next =>
    split
    next => rfl
    next =>
      split
      next =>
        dsimp only
        split
        next => exact (internLocation_ledger ..).trans (internFunction_ledger ..)
        next => exact internLocation_ledger ..
      next => exact (internLocation_ledger ..).trans (noteMissingImage_ledger ..)

theorem resolve_ledger (pid : Nat) (ip : Option Nat) :
    ledger (r.resolve pid ip).1 = ledger r := by
  unfold resolve
  split
  next => rfl
  next =>
    split
    next => rfl
    next => exact resolveUncached_ledger ..

theorem attributeBlock_ledger (k : Key) (pid start stop : Nat) (t0 t1 : Option Nat) :
    ledger (r.attributeBlock k pid start stop t0 t1) = ledger r := by
  unfold attributeBlock
  split
  next => rfl
  next =>
    split
    next => rfl
    next =>
      dsimp only
      split <;> rfl

theorem attributeSample_ledger (k : Key) (s : Sample) (b : BoundaryFlags) :
    ledger (r.attributeSample k s b) = ledger r := by
  unfold attributeSample
  split
  next => rfl
  next =>
    refine (modThread_quiet (by intro st; rfl)).trans ?_
    split
    next =>
      split
      next => rfl
      next => exact attributeBlock_ledger ..
    next => rfl

theorem noteTrigger_ledger (s : Sample) (b : BoundaryFlags) :
    ledger (r.noteTrigger s b) = ledger r := by
  unfold noteTrigger
  split
  next =>
    split <;> rfl
  next => rfl

theorem noteUnwind_ledger (k : Key) (src dst : Resolved) :
    ledger (r.noteUnwind k src dst) = ledger r := by
  unfold noteUnwind
  split
  next =>
    split <;> rfl
  next => rfl

theorem emitEvent_ledger {ev : FlowEvent} (h : r.emitEvent ev = .ok r') :
    ledger r' = ledger r := by
  unfold emitEvent at h
  split at h
  next sp hsp =>
    dsimp only at h
    have hrows : ∀ sp' : Spill, sp'.spans = sp.spans →
        ledger { r with eventsN := r.eventsN + 1, spill := some sp' } = ledger r := by
      intro sp' hspans
      simp only [ledger, spanRows, hsp, hspans, Option.isSome_some]
    split at h
    next =>
      obtain ⟨_, _, rfl⟩ := map_ok.mp h
      exact hrows _ rfl
    next =>
      cases h
      exact hrows _ rfl
  next hsp =>
    cases h
    simp only [ledger, spanRows, hsp]

theorem retainEvent_ledger {s : Sample} {kind : FlowKind} {b : BoundaryFlags}
    {src dst : Resolved} {eid : LocalId}
    (h : r.retainEvent k s kind b src dst eid = .ok r') : ledger r' = ledger r := by
  unfold retainEvent at h
  split at h
  next =>
    cases h
    rfl
  next =>
    obtain ⟨m, hm, hr⟩ := bind_ok.mp h
    cases hr
    exact (modThread_quiet (by intro st; rfl)).trans (emitEvent_ledger hm)

theorem checkBudget_eq (h : r.checkBudget = .ok r') : r' = r := by
  unfold checkBudget at h
  split at h
  next => cases h
  next => exact (Except.ok.inj h).symm

/-! ## Threads and times -/

theorem thread_ledger (k : Key) : ledger (r.thread k) = (ledger r).ensure k := by
  cases h : r.threads.get k with
  | some st =>
    have hl : (ledger r).lanes k = some (laneOf st) := lanes_ledger.mpr ⟨st, h, rfl⟩
    simp only [thread, h, ensure, hl]
  | none =>
    have hlanes : (fun k' => (FastMap.get (r.threads.insert k (r.newThread k)) k').map laneOf) =
        Function.update (ledger r).lanes k (some ((ledger r).fresh k)) := by
      funext k'
      rw [FastMap.get_insert]
      by_cases hk : k' = k
      · rw [if_pos hk, hk, Function.update_self]
        rfl
      · rw [if_neg hk, Function.update_of_ne hk]
        rfl
    simp only [thread, h, ensure, lanes_ledger_none.mpr h]
    simp only [ledger, setLane] at hlanes ⊢
    rw [hlanes]
    rfl

theorem beginSample_ledger (s : Sample) :
    ledger (r.beginSample s) = (ledger r).ensure (s.pid, s.tid) := by
  have hrest : ∀ r' : Reconstructor, ledger r' = ledger r →
      ledger ((r'.thread (s.pid, s.tid)).modThread (s.pid, s.tid) (touchThread s)) =
        (ledger r).ensure (s.pid, s.tid) := by
    intro r' hr'
    rw [modThread_quiet (f := touchThread s) (fun _ => rfl), thread_ledger, hr']
  unfold beginSample
  refine hrest _ ?_
  split
  next => exact noteAbs_ledger (r := { r with samples := r.samples + 1 }) _
  next => exact noteAbs_ledger (r := { r with samples := r.samples + 1 }) _

theorem ensure_lanes_isSome (L : Ledger) (k : Key) : ∃ l, (L.ensure k).lanes k = some l := by
  unfold ensure
  split
  next l h => exact ⟨l, h⟩
  next => exact ⟨_, setLane_lanes_self ..⟩

theorem checkRegression_ledger (h : (ledger r).lanes k = some l) (now : Option Nat) :
    ledger (r.checkRegression k l.lastAbs now) = (ledger r).checkRegression k l now := by
  unfold Reconstructor.checkRegression Ledger.checkRegression
  split
  next => exact interrupt_gap_ledger h ..
  next => rfl

theorem cut_lanes (L : Ledger) (k : Key) (l : Lane) (p : Option PendingEnd) (kind : GapKind)
    (a b : Option Nat) (x : Bool) (reason : String) :
    (L.cut k l p kind a b x reason).lanes k = some { l with
      stack := []
      pending := p
      spans := l.spans + l.stack.length
      gaps := l.gaps + 1 } :=
  setLane_lanes_self ..

theorem checkRegression_lanes {L : Ledger} (h : L.lanes k = some l) (now : Option Nat) :
    ∃ l', (L.checkRegression k l now).lanes k = some l' := by
  unfold Ledger.checkRegression
  split
  next => exact ⟨_, cut_lanes ..⟩
  next => exact ⟨l, h⟩

theorem noteTime_ledger (h : (ledger r).lanes k = some l) (prev now : Option Nat) :
    ledger (r.noteTime k prev now) =
      (ledger r).setLane k { l with lastAbs := now.or l.lastAbs } := by
  cases now with
  | none => exact (setLane_of_lane h).symm
  | some t =>
    have hwrite : ∀ r : Reconstructor, (ledger r).lanes k = some l →
        ledger (r.modThread k fun st => { st with lastAbs := some t }) =
          (ledger r).setLane k { l with lastAbs := some t } :=
      fun r hr => modThread_ledger hr (by rintro st rfl; rfl)
    cases prev with
    | none => exact hwrite r h
    | some p =>
      unfold noteTime
      dsimp only
      split
      next => exact hwrite { r with minTimeStep := _ } h
      next => exact hwrite r h

/-! ## The transfers -/

/-- A move leaves its thread with a lane. -/
theorem Ledger.Move.lane {now : Option Nat} {L L' : Ledger} (h : Move k now L L') :
    ∃ l', L'.lanes k = some l' := by
  cases h with
  | _ => exact ⟨_, setLane_lanes_self ..⟩

theorem Ledger.Moves.lane {now : Option Nat} {L L' : Ledger} (h : Moves k now L L')
    (hl : L.lanes k = some l) : ∃ l', L'.lanes k = some l' := by
  cases h with
  | refl => exact ⟨l, hl⟩
  | tail _ hm => exact hm.lane

variable {abs : Option Nat} {eid : LocalId}

theorem pushOpen_moves (h : (ledger r).lanes k = some l) (fn : Option LocalId)
    (c : SpanCompleteness) :
    Moves k abs (ledger r) (ledger (r.pushOpen k fn abs eid c)) := by
  obtain ⟨o, ho, heq⟩ := pushOpen_ledger h fn abs eid c
  rw [heq]
  exact .single (.enter o h ho)

theorem pushOpenIn_moves (h : (ledger r).lanes k = some l) (fn : Option LocalId) :
    Moves k abs (ledger r) (ledger (r.pushOpenIn k fn abs eid)) := by
  unfold pushOpenIn
  split
  next f => exact pushOpen_moves h (some f) _
  next => exact .refl

/-- Writing the pending end of a lane. -/
theorem setPending_ledger (h : (ledger r).lanes k = some l) (p : Option PendingEnd) :
    ledger (r.modThread k fun st => { st with pendingEnd := p }) =
      (ledger r).setLane k { l with pending := p } :=
  modThread_ledger h (by rintro st rfl; rfl)

/-- An interruption after the pending end was cleared. -/
theorem cut_cleared (L : Ledger) (k : Key) (l : Lane) (kind : GapKind) (a b : Option Nat)
    (x : Bool) (reason : String) :
    (L.setLane k { l with pending := none }).cut k { l with pending := none } none kind a b x
      reason = L.cut k l none kind a b x reason := by
  simp [cut]

theorem ringHole_extent {p : PendingEnd} {cpu cpuFirst : Option Nat}
    (h : ringHole p cpu cpuFirst = true) :
    HoleExtent p abs (cpuFirst.or abs) (p.abs.isSome && (cpuFirst.or abs).isSome) := by
  intro hknown
  rw [Bool.and_eq_true, Option.isSome_iff_exists, Option.isSome_iff_exists] at hknown
  obtain ⟨⟨left, hleft⟩, right, hright⟩ := hknown
  refine ⟨left, right, hleft, hright, ?_⟩
  cases cpuFirst with
  | none => exact Or.inr hright
  | some first =>
    simp only [ringHole, hleft, Bool.and_eq_true, decide_eq_true_eq] at h
    rw [Option.some_or, Option.some.injEq] at hright
    exact Or.inl (hright ▸ h.2)

variable {p : PendingEnd}

theorem crossRingHole_ledger (h : (ledger r).lanes k = some { l with pending := none })
    (p : PendingEnd) (abs cpu cpuFirst : Option Nat) :
    ∃ reason, ledger (r.crossRingHole k p abs cpu cpuFirst) =
      (ledger r).cut k { l with pending := none } none .ringTruncation p.abs (cpuFirst.or abs)
        (p.abs.isSome && (cpuFirst.or abs).isSome) reason := by
  unfold crossRingHole
  dsimp only
  rw [modThread_quiet (f := cutSegments p abs)
    (by intro st; unfold cutSegments; split <;> rfl)]
  exact ⟨_, interrupt_gap_ledger (r := { r with ringHoles := r.ringHoles + 1 }) h ..⟩

theorem resumeHere_moves {L : Ledger} (hl : L.lanes k = some l) (hp : l.pending = some p)
    (hr : ledger r = L.setLane k { l with pending := none }) (dst : Resolved) :
    Moves k abs L (ledger (r.resumeHere k p dst abs eid)) := by
  have h : (ledger r).lanes k = some { l with pending := none } := by
    rw [hr, setLane_lanes_self]
  have hgap := recordGap_ledger h .traceBoundary p.abs abs (p.abs.isSome && abs.isSome) p.reason
  rw [hr, setLane_setLane] at hgap
  have hlane : (ledger (r.recordGap k .traceBoundary p.abs abs (p.abs.isSome && abs.isSome)
      p.reason)).lanes k = some { l with pending := none, gaps := l.gaps + 1 } := by
    rw [hgap, addGap_lanes, setLane_lanes_self]
  have hresume : Move k abs L (ledger (r.recordGap k .traceBoundary p.abs abs
      (p.abs.isSome && abs.isSome) p.reason)) := by
    rw [hgap]
    exact Move.resume (l := l) p hl hp
  unfold resumeHere
  dsimp only
  split
  next hempty =>
    rw [stateOf_stack hlane, List.isEmpty_iff] at hempty
    unfold pushOpenIn
    split
    next f hf =>
      obtain ⟨o, ho, heq⟩ := pushOpen_ledger hlane (some f) (p.abs.or abs) eid .openStart
      rw [heq, hgap, addGap_setLane, setLane_setLane]
      have hframe : IsFrame L o none (p.abs.or abs) := by
        refine ⟨?_, ?_, ho.start_eq⟩
        · rw [ho.id_eq, hgap]
          rfl
        · rw [ho.parent_eq]
          simp only at hempty
          rw [hempty]
          rfl
      have hstack : { l with
          stack := o :: l.stack, pending := none, gaps := l.gaps + 1 : Lane } =
          { l with stack := [o], pending := none, gaps := l.gaps + 1 } := by
        simp only at hempty
        rw [hempty]
      rw [hstack]
      exact .single (Move.resumeIn (l := l) p o hl hp hempty hframe)
    next => exact .single hresume
  next => exact .single hresume

theorem loseContinuity_move {L : Ledger} (hl : L.lanes k = some l) (hp : l.pending = some p)
    (hr : ledger r = L.setLane k { l with pending := none }) (abs : Option Nat)
    (what : String) : Move k abs L (ledger (r.loseContinuity k p abs what)) := by
  have h : (ledger r).lanes k = some { l with pending := none } := by
    rw [hr, setLane_lanes_self]
  have heq : ledger (r.loseContinuity k p abs what) =
      L.cut k l none .unknown p.abs abs false s!"{p.reason}; {what}" := by
    rw [loseContinuity, interrupt_gap_ledger h, hr]
    exact cut_cleared ..
  rw [heq]
  exact .lose p _ hl hp

theorem settlePending_moves (h : (ledger r).lanes k = some l) (b : BoundaryFlags)
    (src dst : Resolved) (cpu : Option Nat) :
    Moves k abs (ledger r) (ledger (r.settlePending k b src dst abs cpu eid).1) := by
  unfold settlePending
  rw [stateOf_pendingEnd h]
  split
  next => exact .refl
  next p hp =>
    have hclear := setPending_ledger h none
    generalize r.modThread k (fun st => { st with pendingEnd := none }) = r₁ at hclear
    have h₁ : (ledger r₁).lanes k = some { l with pending := none } := by
      rw [hclear, setLane_lanes_self]
    dsimp only
    split
    next hhole =>
      obtain ⟨reason, heq⟩ := crossRingHole_ledger h₁ p abs cpu
        (cpu.bind r₁.cpuFirstAbs.get)
      rw [hclear, cut_cleared] at heq
      have hmove : Move k abs (ledger r) (ledger (r₁.crossRingHole k p abs cpu
          (cpu.bind r₁.cpuFirstAbs.get))) := by
        rw [heq]
        exact .hole p _ _ reason h hp (ringHole_extent hhole)
      split
      next =>
        obtain ⟨l', hlane⟩ := hmove.lane
        exact .head hmove (pushOpenIn_moves hlane _)
      next => exact .single hmove
    next =>
      split
      next =>
        split
        next => exact resumeHere_moves h hp hclear dst
        next =>
          have hmove := loseContinuity_move h hp hclear abs "resumed elsewhere"
          obtain ⟨l', hlane⟩ := hmove.lane
          exact .head hmove (pushOpenIn_moves hlane _)
      next =>
        exact .single (loseContinuity_move h hp hclear abs "no trace start before next sample")

theorem applyBoundary_moves (h : (ledger r).lanes k = some l) (b : BoundaryFlags)
    (src dst : Resolved) (cpu : Option Nat) :
    Moves k abs (ledger r) (ledger (r.applyBoundary k b src dst abs cpu eid)) := by
  unfold applyBoundary
  split
  next =>
    rw [setPending_ledger h]
    exact .single (.arm _ h rfl)
  next =>
    split
    next =>
      rw [interrupt_gap_ledger h]
      exact .single (.divert _ h)
    next =>
      split
      next =>
        split
        next => exact pushOpenIn_moves h _
        next => exact .refl
      next => exact .refl

theorem orphanReturn_moves (h : (ledger r).lanes k = some l) (hempty : l.stack = [])
    (src dst : Resolved) : Moves k abs (ledger r) (ledger (r.orphanReturn k src dst abs eid)) := by
  unfold orphanReturn
  dsimp only
  have hmod := modThread_ledger (r := { r with nextSpan := nextId r.nextSpan })
    (f := fun st => { st with spans := st.spans + 1 }) (m := { l with spans := l.spans + 1 }) h
    (by rintro st rfl; rfl)
  generalize modThread { r with nextSpan := nextId r.nextSpan } k
    (fun st => { st with spans := st.spans + 1 }) = r₁ at hmod
  have h₁ : (ledger r₁).lanes k = some { l with spans := l.spans + 1 } := by
    rw [hmod, setLane_lanes_self]
  have horphan : ∀ s : FunctionSpan, s.id = r.nextSpan → s.thread = (r₁.stateOf k).id →
      s.parent = none → s.start = .unknown → s.stop = absTime abs →
      s.completeness = .uncertainUnwind → Move k abs (ledger r) (ledger (r₁.emitSpan s)) := by
    intro s hid hthread hparent hstart hstop hcomp
    rw [stateOf_id h₁] at hthread
    rw [emitSpan_ledger, hmod]
    exact .orphan s h hempty hid hthread hparent hstart hstop hcomp
  have hmove := horphan ⟨r.nextSpan, (r₁.stateOf k).id, src.func, none, .unknown, absTime abs,
    .uncertainUnwind, (eid, eid), none⟩ rfl rfl rfl rfl rfl rfl
  obtain ⟨l', hl'⟩ := hmove.lane
  exact .head hmove (pushOpenIn_moves hl' _)

theorem applyReturn_moves (h : (ledger r).lanes k = some l) (src dst : Resolved) :
    Moves k abs (ledger r) (ledger (r.applyReturn k src dst abs eid)) := by
  unfold applyReturn
  rw [stateOf_stack h]
  split
  next hempty => exact orphanReturn_moves h hempty src dst
  next o rest hstack =>
    dsimp only
    have hpop := modThread_ledger (f := fun st => { st with stack := rest })
      (m := { l with stack := rest }) h (by rintro st rfl; rfl)
    generalize r.modThread k (fun st => { st with stack := rest }) = r₁ at hpop
    have h₁ : (ledger r₁).lanes k = some { l with stack := rest } := by
      rw [hpop, setLane_lanes_self]
    rw [noteUnwind_ledger, closeSpan_ledger h₁, hpop, setLane_setLane]
    exact .single (Move.leave (l := l) o rest eid _ h hstack)

/-- A frame pushed and then given another parent. -/
theorem pushOpen_reparent_ledger (h : (ledger r).lanes k = some l) (fn : Option LocalId)
    (abs : Option Nat) (eid : LocalId) (c : SpanCompleteness) (parent : Option LocalId) :
    ∃ n, IsFrame (ledger r) n parent abs ∧
      ledger ((r.pushOpen k fn abs eid c).modThread k fun st =>
        { st with stack := reparentTop parent st.stack }) =
        ((ledger r).setLane k { l with stack := n :: l.stack }).takeSpanId := by
  obtain ⟨o, ho, heq⟩ := pushOpen_ledger h fn abs eid c
  have hlane : (ledger (r.pushOpen k fn abs eid c)).lanes k =
      some { l with stack := o :: l.stack } := by
    rw [heq, takeSpanId_lanes, setLane_lanes_self]
  refine ⟨{ o with parent := parent }, ⟨ho.id_eq, rfl, ho.start_eq⟩, ?_⟩
  rw [modThread_ledger (m := { l with stack := { o with parent := parent } :: l.stack }) hlane,
    heq, takeSpanId_setLane, setLane_setLane]
  intro st hst
  show { laneOf st with stack := reparentTop parent (laneOf st).stack } = _
  rw [hst]
  rfl

theorem tailCall_moves (h : (ledger r).lanes k = some l) (target : LocalId) :
    Moves k abs (ledger r) (ledger (r.tailCall k target abs eid)) := by
  unfold tailCall
  rw [stateOf_stack h]
  have hpop := modThread_ledger (f := fun st => { st with stack := st.stack.tail })
    (m := { l with stack := l.stack.tail }) h (by rintro st rfl; rfl)
  dsimp only
  generalize r.modThread k (fun st => { st with stack := st.stack.tail }) = r₁ at hpop
  have h₁ : (ledger r₁).lanes k = some { l with stack := l.stack.tail } := by
    rw [hpop, setLane_lanes_self]
  cases hstack : l.stack with
  | nil =>
    rw [hstack] at h₁ hpop
    obtain ⟨n, hn, heq⟩ := pushOpen_reparent_ledger h₁ (some target) abs eid
      .openStart none
    rw [hpop] at hn heq
    refine .single ?_
    simp only [List.head?_nil, Option.bind_none]
    rw [heq, setLane_setLane]
    have henter := Move.enter (l := l) n h (by rw [hstack]; exact ⟨hn.id_eq, hn.parent_eq, hn.start_eq⟩)
    rw [hstack] at henter
    exact henter
  | cons o rest =>
    rw [hstack] at h₁ hpop
    have hclose := closeSpan_ledger h₁ o abs eid .uncertainUnwind
    rw [hpop, setLane_setLane] at hclose
    have h₂ : (ledger (r₁.closeSpan k o abs eid .uncertainUnwind)).lanes k =
        some { l with stack := rest, spans := l.spans + 1 } := by
      rw [hclose, emit_lanes, setLane_lanes_self]
      rfl
    obtain ⟨n, hn, heq⟩ := pushOpen_reparent_ledger h₂ (some target) abs eid
      .openStart o.parent
    rw [hclose] at hn heq
    refine .single ?_
    simp only [List.head?_cons, Option.bind_some]
    rw [heq, emit_setLane, setLane_setLane]
    exact Move.tail (l := l) o n rest eid h hstack ⟨hn.id_eq, hn.parent_eq, hn.start_eq⟩

theorem applyJump_moves (h : (ledger r).lanes k = some l) (src dst : Resolved) :
    Moves k abs (ledger r) (ledger (r.applyJump k src dst abs eid)) := by
  unfold applyJump
  split
  next a b _ _ =>
    split
    next => exact tailCall_moves h b
    next => exact .refl
  next b _ _ =>
    split
    next htop =>
      rw [modThread_ledger (m := { l with stack := nameTop b l.stack }) h
        (by rintro st rfl; rfl)]
      exact .single (.rename b h (stateOf_stack h ▸ htop))
    next => exact .refl
  next => exact .refl

/-- What a sample's transfer does is a sequence of moves of its thread. -/
theorem applyFlow_moves (h : (ledger r).lanes k = some l) (kind : FlowKind) (b : BoundaryFlags)
    (src dst : Resolved) (cpu : Option Nat) :
    Moves k abs (ledger r) (ledger (r.applyFlow k kind b src dst abs cpu eid)) := by
  unfold applyFlow
  have hsettle : Moves k abs (ledger r) (ledger (r.settlePending k b src dst abs cpu eid).1) :=
    settlePending_moves h b src dst cpu
  generalize r.settlePending k b src dst abs cpu eid = settled at hsettle
  obtain ⟨r₁, done⟩ := settled
  obtain ⟨l₁, h₁⟩ := hsettle.lane h
  refine hsettle.trans ?_
  dsimp only
  split
  next => exact .refl
  next =>
    split
    next => exact applyBoundary_moves h₁ b src dst cpu
    next =>
      cases kind with
      | call => exact pushOpen_moves h₁ _ _
      | ret => exact applyReturn_moves h₁ src dst
      | jump => exact applyJump_moves h₁ src dst
      | conditional => exact applyJump_moves h₁ src dst
      | traceBegin => exact .refl
      | traceEnd => exact .refl
      | asyncBoundary => exact .refl

/-! ## Records -/

theorem pushSample_ledger {s : Sample} (h : r.pushSample s = .ok r') :
    Action (.sample s) (ledger r) (ledger r') := by
  unfold pushSample at h
  dsimp only at h
  -- The prologue: the thread, the regression check, the time.
  have hbegin := beginSample_ledger (r := r) s
  obtain ⟨l₀, h₀⟩ := ensure_lanes_isSome (ledger r) (s.pid, s.tid)
  generalize r.beginSample s = r₁ at h hbegin
  rw [← hbegin] at h₀
  rw [stateOf_lastAbs h₀] at h
  have hcheck := checkRegression_ledger h₀ s.timeNs
  obtain ⟨l, hl⟩ := checkRegression_lanes h₀ s.timeNs
  generalize r₁.checkRegression (s.pid, s.tid) l₀.lastAbs s.timeNs = r₂ at h hcheck
  rw [← hcheck] at hl
  have htime := noteTime_ledger hl l₀.lastAbs s.timeNs
  generalize r₂.noteTime (s.pid, s.tid) l₀.lastAbs s.timeNs = r₃ at h htime
  -- Nothing up to the event is seen by the ledger.
  have hsrc : ledger ((r₃.noteTrigger s (flagsBoundary s.flags)).resolve s.pid s.ip).1 =
      ledger r₃ := (resolve_ledger ..).trans (noteTrigger_ledger ..)
  generalize (r₃.noteTrigger s (flagsBoundary s.flags)).resolve s.pid s.ip = src at h hsrc
  have hdst : ledger (src.1.resolve s.pid s.addr).1 = ledger r₃ := (resolve_ledger ..).trans hsrc
  generalize src.1.resolve s.pid s.addr = dst at h hdst
  have hattr : ledger (dst.1.attributeSample (s.pid, s.tid) s (flagsBoundary s.flags)) =
      ledger r₃ := (attributeSample_ledger ..).trans hdst
  generalize dst.1.attributeSample (s.pid, s.tid) s (flagsBoundary s.flags) = r₄ at h hattr
  obtain ⟨r₅, hretain, hflow⟩ := bind_ok.mp h
  generalize hset : { r₅ with
    curCallSite := if flagsKind s.flags = FlowKind.call then s.ip else none } = r₆ at hflow
  have h₆ : ledger r₆ = ledger r₃ := by
    rw [← hset]
    exact (retainEvent_ledger hretain).trans hattr
  rw [checkBudget_eq hflow]
  refine .sample l₀ l (hbegin ▸ h₀) (by rw [← hbegin, ← hcheck]; exact hl) ?_
  rw [← hbegin, ← hcheck, ← htime, ← h₆]
  have hlane : (ledger r₆).lanes (s.pid, s.tid) = some { l with
      lastAbs := s.timeNs.or l.lastAbs } := by
    rw [h₆, htime, setLane_lanes_self]
  exact applyFlow_moves hlane ..

theorem noteComm_ledger (k : Key) (comm : Option String) :
    ledger (r.noteComm k comm) = ledger r := by
  unfold noteComm
  split
  next c =>
    split
    next =>
      exact modThread_quiet (r := { r with comms := r.comms.insert k c }) (by intro st; rfl)
    next => rfl
  next => rfl

theorem pushTask_ledger (t : TaskEvent) :
    Action (.task t) (ledger r) (ledger (r.pushTask t)) := by
  unfold pushTask
  dsimp only
  rw [noteComm_ledger]
  generalize hobs : { r.noteAbs t.timeNs with
    threadIds := (r.noteAbs t.timeNs).threadIds.observe (.task t) } = r₁
  have hr : ledger r₁ = ledger r := by
    rw [← hobs, ← noteAbs_ledger (r := r) t.timeNs]
    simp only [ledger, spanRows]
    congr 1
    funext k
    exact ThreadIds.gen_observe ..
  unfold noteExit
  split
  next hexit =>
    obtain ⟨hkind, hsome⟩ := hexit
    obtain ⟨st, hst⟩ := Option.isSome_iff_exists.mp hsome
    have hlane : (ledger r₁).lanes (t.pid, t.tid) = some (laneOf st) :=
      lanes_ledger.mpr ⟨st, hst, rfl⟩
    have hexited : (t.pid, t.tid) ∈ r₁.threadIds.exited := by
      rw [← hobs]
      simp only [ThreadIds.observe, hkind, if_true]
      exact Finset.mem_insert_self ..
    rw [retireThread_ledger hlane hexited, hr]
    exact .exit hkind (hr ▸ hlane)
  next hexit =>
    rw [hr]
    refine .silent ?_
    by_cases hkind : t.kind = .exit
    · have hnone : r₁.threads.get (t.pid, t.tid) = none := by
        rw [← Option.not_isSome_iff_eq_none]
        exact fun hsome => hexit ⟨hkind, hsome⟩
      refine Or.inr ?_
      rw [← hr]
      exact lanes_ledger_none.mpr hnone
    · exact Or.inl hkind

theorem pushDecoderError_ledger (e : DecoderErrorEvent) :
    Action (.decoderError e) (ledger r) (ledger (r.pushDecoderError e)) := by
  unfold pushDecoderError
  dsimp only
  have habs := noteAbs_ledger (r := { r with decoderErrors := r.decoderErrors + 1 }) e.timeNs
  generalize noteAbs { r with decoderErrors := r.decoderErrors + 1 } e.timeNs = r₁ at habs
  have hr : ledger r₁ = ledger r := habs
  split
  next pid tid hpid htid =>
    obtain ⟨l, hl⟩ := ensure_lanes_isSome (ledger r) (pid, tid)
    have hthread : ledger (r₁.thread (pid, tid)) = (ledger r).ensure (pid, tid) := by
      rw [thread_ledger, hr]
    rw [interrupt_gap_ledger (hthread ▸ hl), hthread]
    exact .error hpid htid hl
  next hnone =>
    rw [pushGap_ledger, hr]
    refine .strayError ?_
    cases hpid : e.pid with
    | none => exact Or.inl rfl
    | some pid =>
      cases htid : e.tid with
      | none => exact Or.inr rfl
      | some tid => exact absurd htid (hnone pid tid hpid)

theorem accept_ledger {rec : RawRecord} (h : r.accept rec = .ok r') :
    Action rec (ledger r) (ledger r') := by
  cases rec with
  | sample s => exact pushSample_ledger h
  | mmap m =>
    obtain rfl := Except.ok.inj h
    have hr : ledger (r.pushMmap m) = ledger r := noteAbs_ledger (r := r) m.timeNs
    rw [hr]
    exact .silent trivial
  | task t =>
    obtain rfl := Except.ok.inj h
    exact pushTask_ledger t
  | switch pid tid time out =>
    obtain rfl := Except.ok.inj h
    rw [noteAbs_ledger]
    exact .silent trivial
  | lost e =>
    obtain rfl := Except.ok.inj h
    exact .lost
  | decoderError e =>
    obtain rfl := Except.ok.inj h
    exact pushDecoderError_ledger e

theorem noteCpuFirst_ledger (rec : RawRecord) : ledger (r.noteCpuFirst rec) = ledger r := by
  unfold noteCpuFirst
  split
  next s =>
    split
    next =>
      split <;> rfl
    next => rfl
  next => rfl

/-- A record the filter drops leaves no trace in the ledger; any other record
acts on it. -/
theorem push_ledger {rec : RawRecord} (h : r.push rec = .ok r') :
    if r.drops rec then ledger r' = ledger r else Action rec (ledger r) (ledger r') := by
  unfold push at h
  have hcpu := noteCpuFirst_ledger (r := r) rec
  have hfilter := noteCpuFirst_pidFilter (r := r) rec
  generalize r.noteCpuFirst rec = r₁ at h hcpu hfilter
  dsimp only at h
  rw [← hcpu, drops, ← hfilter]
  cases hf : r₁.pidFilter with
  | none =>
    rw [hf] at h
    exact accept_ledger h
  | some f =>
    rw [hf] at h
    dsimp only at h
    cases hforeign : foreignPid (f.observe rec) rec with
    | none =>
      rw [hforeign] at h
      have hact := accept_ledger h
      simp only [Option.any_some, hforeign, Option.isSome_none, Bool.false_eq_true, if_false]
      exact hact
    | some p =>
      rw [hforeign] at h
      simp only [Option.any_some, hforeign, Option.isSome_some, if_true]
      dsimp only at h
      split at h
      next => cases h; rfl
      next => cases h; rfl

/-! ## Finishing -/

theorem closeThread_ledger (h : (ledger r).lanes k = some l) :
    ledger (r.closeThread k) = (ledger r).close k l := by
  unfold closeThread
  dsimp only
  rw [emitStack_ledger, stateOf_id h, stateOf_stack h, modThread_ledger
    (m := { l with stack := [], pending := none, spans := l.spans + l.stack.length }) h
    (by rintro st rfl; rfl)]
  rfl

theorem closeThread_ledger_none (h : (ledger r).lanes k = none) :
    ledger (r.closeThread k) = ledger r := by
  have hget := lanes_ledger_none.mp h
  unfold closeThread stateOf modThread
  rw [hget]
  rfl

/-- Closing threads keeps what closing one lane keeps. -/
theorem closeThreads_invariant {P : Ledger → Prop}
    (hclose : ∀ L k l, L.lanes k = some l → P L → P (L.close k l)) :
    ∀ (ks : List Key) {r : Reconstructor}, P (ledger r) → P (ledger (ks.foldl closeThread r))
  | [], _, h => h
  | k :: ks, r, h => by
    refine closeThreads_invariant hclose ks ?_
    cases hl : (ledger r).lanes k with
    | none =>
      rw [closeThread_ledger_none hl]
      exact h
    | some l =>
      rw [closeThread_ledger hl]
      exact hclose _ _ _ hl h

theorem closeAll_invariant {P : Ledger → Prop}
    (hclose : ∀ L k l, L.lanes k = some l → P L → P (L.close k l)) (h : P (ledger r)) :
    P (ledger r.closeAll) :=
  closeThreads_invariant hclose _ h

/-- Thread `k`, if listed, has no open frame. -/
def Idle (k : Key) (L : Ledger) : Prop := ∀ l, L.lanes k = some l → l.stack = []

/-- A thread that is closed stays closed while the others are. -/
theorem close_idle {L : Ledger} (k' : Key) (l' : Lane) (h : Idle k L) : Idle k (L.close k' l') := by
  intro l hl
  rw [close, emit_lanes] at hl
  by_cases hk : k = k'
  · rw [hk, setLane_lanes_self] at hl
    cases hl
    rfl
  · rw [setLane_lanes_ne _ _ _ hk] at hl
    exact h l hl

theorem closeThread_idle (r : Reconstructor) (k : Key) : Idle k (ledger (r.closeThread k)) := by
  intro l hl
  cases hlane : (ledger r).lanes k with
  | none =>
    rw [closeThread_ledger_none hlane, hlane] at hl
    cases hl
  | some l₀ =>
    rw [closeThread_ledger hlane, close, emit_lanes, setLane_lanes_self] at hl
    cases hl
    rfl

theorem closeThreads_idle {ks : List Key} (hk : k ∈ ks) :
    Idle k (ledger (ks.foldl closeThread r)) := by
  induction ks generalizing r with
  | nil => cases hk
  | cons k' ks ih =>
    rcases List.mem_cons.mp hk with rfl | hk
    · exact closeThreads_invariant (P := Idle k) (fun L k' l' _ h => close_idle k' l' h) ks
        (closeThread_idle r k)
    · exact ih hk

/-- After the close of all threads no listed thread has an open frame. -/
theorem closeAll_idle (hk : k ∈ r.threadOrder) : Idle k (ledger r.closeAll) :=
  closeThreads_idle hk

/-- What `finish` does to a stored time. -/
theorem rebase_ok {t t' : EventTime} {origin : Nat} (h : rebase t origin = .ok t') :
    t.relativeNs = t'.relativeNs.map (· + origin) := by
  unfold rebase at h
  split at h
  next hnone =>
    cases h
    rw [hnone, Option.map_none]
  next abs habs =>
    split at h
    next d hd =>
      cases h
      obtain ⟨hle, rfl⟩ := checkedSub_eq_some.mp hd
      rw [habs, Option.map_some, Nat.sub_add_cancel hle]
    next => cases h

/-- A span row before and after `finish`. -/
structure SpanRebased (origin : Nat) (s s' : FunctionSpan) : Prop where
  id_eq : s'.id = s.id
  thread_eq : s'.thread = s.thread
  function_eq : s'.function = s.function
  parent_eq : s'.parent = s.parent
  completeness_eq : s'.completeness = s.completeness
  start_eq : s.start.relativeNs = s'.start.relativeNs.map (· + origin)
  stop_eq : s.stop.relativeNs = s'.stop.relativeNs.map (· + origin)

theorem rebaseSpan_ok {origin : Nat} {s s' : FunctionSpan} (h : rebaseSpan origin s = .ok s') :
    SpanRebased origin s s' := by
  obtain ⟨start, hstart, h⟩ := bind_ok.mp h
  obtain ⟨stop, hstop, h⟩ := bind_ok.mp h
  cases h
  exact ⟨rfl, rfl, rfl, rfl, rfl, rebase_ok hstart, rebase_ok hstop⟩

/-- A gap row before and after `finish`. -/
structure GapRebased (origin : Nat) (g g' : GapRecord) : Prop where
  thread_eq : g'.thread = g.thread
  kind_eq : g'.kind = g.kind
  extentKnown_eq : g'.extentKnown = g.extentKnown
  start_eq : g.start.relativeNs = g'.start.relativeNs.map (· + origin)
  stop_eq : g.stop.relativeNs = g'.stop.relativeNs.map (· + origin)

theorem rebaseGap_ok {origin : Nat} {g g' : GapRecord} (h : rebaseGap origin g = .ok g') :
    GapRebased origin g g' := by
  obtain ⟨start, hstart, h⟩ := bind_ok.mp h
  obtain ⟨stop, hstop, h⟩ := bind_ok.mp h
  cases h
  exact ⟨rfl, rfl, rfl, rebase_ok hstart, rebase_ok hstop⟩

/-- The span rows of a finished analysis, in memory or spilled. -/
def spanRowsOf (ir : AnalysisIr) : List FunctionSpan :=
  (ir.spilled.map (·.2)).getD ir.spans

/-- A finished analysis, in terms of the ledger `L` of its closed threads. -/
structure Finished (L : Ledger) (ir : AnalysisIr) : Prop where
  rows : ∃ rows, List.Forall₂ (SpanRebased ir.origin) L.spans rows ∧
    (spanRowsOf ir).Perm rows
  sorted : L.spilling = false →
    ir.spans.Pairwise (fun a b => a.id ≤ b.id) ∧ spanRowsOf ir = ir.spans ∧
      ir.quality.incompleteSpanCount = incomplete ir.spans
  gaps : List.Forall₂ (GapRebased ir.origin) L.gaps ir.gaps
  spanCount : ir.spanCount = L.spansN
  gapCount : ir.quality.gapCount = ir.gaps.length
  gapsByKind : ir.quality.gapsByKind = countByKind ir.gaps
  threads : List.Forall₂ (fun (l : Lane) (t : ThreadLifetime) =>
    t.id = l.id ∧ t.spanCount = l.spans ∧ t.gapCount = l.gaps)
      (L.closed ++ L.order.filterMap L.lanes) ir.threads

theorem threadList_lanes (origin : Nat)
    (hlive : ∀ k ∈ r.threadOrder, ∃ l, (ledger r).lanes k = some l) :
    List.Forall₂ (fun (l : Lane) (t : ThreadLifetime) =>
        t.id = l.id ∧ t.spanCount = l.spans ∧ t.gapCount = l.gaps)
      ((ledger r).closed ++ (ledger r).order.filterMap (ledger r).lanes) (r.threadList origin) := by
  have hlanes : (ledger r).order.filterMap (ledger r).lanes =
      (r.threadOrder.map r.stateOf).map laneOf := by
    show r.threadOrder.filterMap (ledger r).lanes = _
    generalize r.threadOrder = order at hlive
    induction order with
    | nil => rfl
    | cons k ks ih =>
      obtain ⟨l, hl⟩ := hlive k List.mem_cons_self
      rw [List.filterMap_cons_some hl, ih fun k' hk' => hlive k' (List.mem_cons_of_mem _ hk'),
        List.map_cons, List.map_cons, stateOf_lane hl]
  have hclosed : (ledger r).closed = r.retired.map laneOf := rfl
  rw [hlanes, hclosed, ← List.map_append, threadList, List.forall₂_map_left_iff,
    List.forall₂_map_right_iff, List.forall₂_same]
  exact fun t _ => ⟨rfl, rfl, rfl⟩

/-- What a successful `finish` returns. -/
theorem finish_finished {ir : AnalysisIr}
    (hlive : ∀ k ∈ r.closeAll.threadOrder, ∃ l, (ledger r.closeAll).lanes k = some l)
    (h : r.finish = .ok ir) : Finished (ledger r.closeAll) ir := by
  unfold finish at h
  obtain ⟨origin, horigin, h⟩ := bind_ok.mp h
  dsimp only at h
  generalize r.closeAll = c at h hlive ⊢
  obtain ⟨events, hevents, h⟩ := bind_ok.mp h
  obtain ⟨spans, hspans, h⟩ := bind_ok.mp h
  obtain ⟨spilled, hspilled, h⟩ := bind_ok.mp h
  obtain ⟨gaps, hgaps, h⟩ := bind_ok.mp h
  cases h
  have hrebased : ∀ {xs ys}, xs.mapM (rebaseSpan origin) = .ok ys →
      List.Forall₂ (SpanRebased origin) xs ys :=
    fun hm => (mapM_ok hm).imp fun _ _ => rebaseSpan_ok
  refine ⟨?_, ?_, (mapM_ok hgaps).imp fun _ _ => rebaseGap_ok, rfl, rfl, rfl,
    threadList_lanes origin hlive⟩
  · unfold finishSpill at hspilled
    cases hsp : c.spill with
    | none =>
      rw [hsp] at hspilled
      cases hspilled
      refine ⟨spans, ?_, List.mergeSort_perm ..⟩
      simp only [ledger, spanRows, hsp]
      exact hrebased hspans
    | some sp =>
      rw [hsp] at hspilled
      obtain ⟨_, _, hspilled⟩ := bind_ok.mp hspilled
      obtain ⟨evs, _, hspilled⟩ := bind_ok.mp hspilled
      obtain ⟨sps, hsps, hspilled⟩ := bind_ok.mp hspilled
      cases hspilled
      refine ⟨sps, ?_, .refl _⟩
      simp only [ledger, spanRows, hsp]
      exact hrebased hsps
  · intro hresident
    have hsp : c.spill = none := Option.isNone_iff_eq_none.mp (by
      rw [← Option.not_isSome, Bool.not_eq_true']; exact hresident)
    rw [finishSpill, hsp] at hspilled
    cases hspilled
    refine ⟨?_, rfl, rfl⟩
    have hsort := @List.pairwise_mergeSort _ (fun a b : FunctionSpan => a.id ≤ b.id)
      (by intro a b c; simp only [decide_eq_true_eq]; exact Nat.le_trans)
      (by intro a b; simp only [Bool.or_eq_true, decide_eq_true_eq]; exact Nat.le_total ..) spans
    exact hsort.imp fun h => of_decide_eq_true h

/-! ## Before the first record -/

/-- A reconstructor as its builders make it, nothing pushed yet. -/
inductive Built : Reconstructor → Prop
  | new (analysisId : String) (images : List ArchivedImage) (build : List UInt8 → ImageIndex) :
      Built (.new analysisId images build)
  | withNote {r : Reconstructor} (note : String) : Built r → Built (r.withNote note)
  | withTrigger {r : Reconstructor} (addr hits : Nat) : Built r → Built (r.withTrigger addr hits)
  | withPidFilter {r : Reconstructor} (f : PidTracker) : Built r → Built (r.withPidFilter f)
  | withSpill {r : Reconstructor} (budget : Nat) (eventLen : FlowEvent → Nat)
      (spanLen : FunctionSpan → Nat) : Built r → Built (r.withSpill budget eventLen spanLen)
  | withBudget {r : Reconstructor} (bytes : Nat) : Built r → Built (r.withBudget bytes)
  | withInlineAttribution {r : Reconstructor} (tools : InlineTools) : Built r →
      Built (r.withInlineAttribution tools)

/-- The empty ledger. -/
def Ledger.empty (spilling : Bool) : Ledger where
  lanes := fun _ => none
  order := []
  closed := []
  gen := fun _ => 0
  spans := []
  spansN := 0
  spilling := spilling
  gaps := []
  losses := 0
  nextSpan := 0
  nextGap := 0

theorem Built.ledger (h : Built r) : ledger r = .empty r.spill.isSome := by
  induction h with
  | new analysisId images build => rfl
  | withNote note _ ih => exact ih
  | withTrigger addr hits _ ih => exact ih
  | withPidFilter f _ ih => exact ih
  | withBudget bytes _ ih => exact ih
  | withInlineAttribution tools _ ih => exact ih
  | @withSpill r budget eventLen spanLen hr ih =>
    have heq : Decode.ledger (r.withSpill budget eventLen spanLen) =
        { Decode.ledger r with spilling := true, spans := [] } := rfl
    rw [heq, ih]
    rfl

end TraceMcp.Decode
