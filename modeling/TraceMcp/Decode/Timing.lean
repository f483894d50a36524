import TraceMcp.Decode.Forest

/-!
# What a move does to times

`Posting` says which rows and frames a move adds or takes; `Timing` says when
they begin and end. The frames popped off the lane become rows that end
together; at most one frame is pushed, and it starts now or at the pending
trace end; a gap of known extent begins before it ends; and a preserved stack
(`traceBoundary`) is only ever claimed from the pending end. `Move.timing` is
the one case analysis behind the interval and the discontinuity theorems.
-/

namespace TraceMcp.Decode

open TraceMcp.Lib

namespace Ledger

/-- The part of a frame that does not change while it is open. -/
def frameTimes (stack : List OpenSpan) : List (LocalId × Option Nat) :=
  stack.map fun o => (o.id, o.startAbs)

/-- Row `s` closes frame `o` at `endAbs`. -/
structure Closes (o : OpenSpan) (endAbs : Option Nat) (s : FunctionSpan) : Prop where
  id_eq : s.id = o.id
  parent_eq : s.parent = o.parent
  start_eq : s.start = absTime o.startAbs
  stop_eq : s.stop = absTime endAbs

/-- A row with no start and no parent. -/
structure Orphan (s : FunctionSpan) : Prop where
  parent_eq : s.parent = none
  start_eq : s.start = .unknown

/-- A gap whose extent is known begins at the pending end and lasts until
later, or until now. -/
def Extends (l : Lane) (now : Option Nat) (g : GapRecord) : Prop :=
  g.extentKnown = true → ∃ p left right, l.pending = some p ∧ p.abs = some left ∧
    g.start.relativeNs = some left ∧ g.stop.relativeNs = some right ∧
      (left < right ∨ now = some right)

/-- What happens, in time, to lane `l` of `k`. The `popped` frames are closed
at `endAbs`, the frames in `kept` stay, `pushed` is opened. -/
structure Timing (k : Key) (now : Option Nat) (L L' : Ledger) (l l' : Lane)
    (popped kept : List OpenSpan) (pushed : Option OpenSpan) (rows : List FunctionSpan)
    (gaps : List GapRecord) (endAbs : Option Nat) : Prop where
  lane : L.lanes k = some l
  lanes : L'.lanes = Function.update L.lanes k (some l')
  spans : L'.spans = L.spans ++ rows
  allGaps : L'.gaps = L.gaps ++ gaps
  id_eq : l'.id = l.id
  lastAbs : l'.lastAbs = l.lastAbs
  pending : ∀ p, l'.pending = some p → l.pending = some p ∨ p.abs = now
  split : l.stack = popped ++ kept
  frames : frameTimes l'.stack = frameTimes (pushed.toList ++ kept)
  pushed_id : ∀ o, pushed = some o → o.id = L.nextSpan
  pushed_start : ∀ o, pushed = some o →
    o.startAbs = now ∨ kept = [] ∧ ∃ p, l.pending = some p ∧ o.startAbs = p.abs
  rows_from : ∀ s ∈ rows, Orphan s ∨ ∃ o ∈ popped, Closes o endAbs s
  ends : endAbs = none ∨ endAbs = now
  extent : ∀ g ∈ gaps, Extends l now g
  boundary : ∀ g ∈ gaps, g.kind = .traceBoundary →
    ∃ p, l.pending = some p ∧ g.start = absTime p.abs

/-- The lane of `k` is written to, with a `Timing`. -/
def Timed (k : Key) (now : Option Nat) (L L' : Ledger) : Prop :=
  ∃ l l' popped kept pushed rows gaps endAbs,
    Timing k now L L' l l' popped kept pushed rows gaps endAbs

variable {k : Key} {now : Option Nat} {L L' : Ledger} {l : Lane}

theorem spanOf_closes (t : ThreadId) (o : OpenSpan) (endAbs : Option Nat) (ev : LocalId)
    (c : SpanCompleteness) : Closes o endAbs (Reconstructor.spanOf t o endAbs ev c) :=
  ⟨rfl, rfl, rfl, rfl⟩

theorem flushRows_closes {t : ThreadId} {endAbs : Option Nat}
    {c : SpanCompleteness → SpanCompleteness} {stack : List OpenSpan} :
    ∀ s ∈ flushRows t endAbs c stack, Orphan s ∨ ∃ o ∈ stack, Closes o endAbs s := by
  intro s hs
  obtain ⟨o, ho, rfl⟩ := List.mem_map.mp hs
  exact Or.inr ⟨o, ho, spanOf_closes ..⟩

theorem nameTop_frameTimes (f : LocalId) (stack : List OpenSpan) :
    frameTimes (Reconstructor.nameTop f stack) = frameTimes stack := by
  cases stack <;> rfl

/-- A cut closes the whole stack without an end. -/
theorem cut_timed (h : L.lanes k = some l) (p : Option PendingEnd)
    (hp : ∀ q, p = some q → l.pending = some q) (kind : GapKind) (a b : Option Nat) (x : Bool)
    (reason : String) (hkind : kind ≠ .traceBoundary)
    (hx : x = true → ∃ q left right, l.pending = some q ∧ q.abs = some left ∧ a = some left ∧
      b = some right ∧ (left < right ∨ now = some right)) :
    Timed k now L (L.cut k l p kind a b x reason) := by
  refine ⟨l, _, l.stack, [], none, _, _, none, ⟨h, rfl, rfl, rfl, rfl, rfl,
    fun q hq => Or.inl (hp q hq), (List.append_nil _).symm, rfl, nofun, nofun, flushRows_closes,
    Or.inl rfl, ?_, ?_⟩⟩
  · intro g hg hknown
    rw [List.mem_singleton.mp hg] at hknown ⊢
    obtain ⟨q, left, right, hq, hleft, ha, hb, hlt⟩ := hx hknown
    exact ⟨q, left, right, hq, hleft, by rw [absTime_relativeNs, ha],
      by rw [absTime_relativeNs, hb], hlt⟩
  · intro g hg hbound
    rw [List.mem_singleton.mp hg] at hbound
    exact absurd hbound hkind

/-- Closing a lane closes its whole stack at the given end. -/
theorem close_timing (h : L.lanes k = some l) (c : SpanCompleteness → SpanCompleteness)
    {endAbs : Option Nat} (he : endAbs = none ∨ endAbs = now) :
    Timing k now L ((L.setLane k (closedLane l)).emit (flushRows l.id endAbs c l.stack)) l
      (closedLane l) l.stack [] none (flushRows l.id endAbs c l.stack) [] endAbs :=
  ⟨h, rfl, rfl, (List.append_nil _).symm, rfl, rfl, nofun, (List.append_nil _).symm, rfl, nofun,
    nofun, flushRows_closes, he, List.forall_mem_nil _, List.forall_mem_nil _⟩

/-- The gap of a resumption in place. -/
theorem resume_extent {l : Lane} {p : PendingEnd} (hp : l.pending = some p) {id : LocalId} :
    Extends l now ⟨id, l.id, .traceBoundary, absTime p.abs, absTime now,
      p.abs.isSome && now.isSome, p.reason⟩ := by
  intro hknown
  rw [Bool.and_eq_true, Option.isSome_iff_exists, Option.isSome_iff_exists] at hknown
  obtain ⟨⟨left, hleft⟩, right, hright⟩ := hknown
  exact ⟨p, left, right, hp, hleft, by rw [absTime_relativeNs, hleft],
    by rw [absTime_relativeNs, hright], Or.inr hright⟩

theorem resume_boundary {l : Lane} {p : PendingEnd} (hp : l.pending = some p) {id : LocalId} :
    ∀ g ∈ [(⟨id, l.id, .traceBoundary, absTime p.abs, absTime now,
        p.abs.isSome && now.isSome, p.reason⟩ : GapRecord)], g.kind = .traceBoundary →
      ∃ p, l.pending = some p ∧ g.start = absTime p.abs := by
  intro g hg _
  rw [List.mem_singleton.mp hg]
  exact ⟨p, hp, rfl⟩

/-- Every move has a timing. -/
theorem Move.timed (h : Move k now L L') : Timed k now L L' := by
  cases h with
  -- calls and returns take their times from the event, and leave no gap
  | @enter l o hl ho =>
    exact ⟨l, _, [], l.stack, some o, [], [], none, ⟨hl, rfl, (List.append_nil _).symm,
      (List.append_nil _).symm, rfl, rfl, fun p hp => Or.inl hp, rfl, rfl,
      fun _ he => Option.some.inj he ▸ ho.id_eq,
      fun _ he => Or.inl (Option.some.inj he ▸ ho.start_eq), List.forall_mem_nil _, Or.inl rfl,
      List.forall_mem_nil _, List.forall_mem_nil _⟩⟩
  | @leave l o rest ev c hl hstack =>
    refine ⟨l, _, [o], rest, none, _, [], now, ⟨hl, rfl, rfl, (List.append_nil _).symm, rfl, rfl,
      fun p hp => Or.inl hp, hstack, rfl, nofun, nofun, ?_, Or.inr rfl, List.forall_mem_nil _,
      List.forall_mem_nil _⟩⟩
    intro s hs
    rw [List.mem_singleton.mp hs]
    exact Or.inr ⟨o, List.mem_singleton_self o, spanOf_closes ..⟩
  | @tail l o n rest ev hl hstack hn =>
    refine ⟨l, _, [o], rest, some n, _, [], now, ⟨hl, rfl, rfl, (List.append_nil _).symm, rfl, rfl,
      fun p hp => Or.inl hp, hstack, rfl, fun _ he => Option.some.inj he ▸ hn.id_eq,
      fun _ he => Or.inl (Option.some.inj he ▸ hn.start_eq), ?_, Or.inr rfl, List.forall_mem_nil _,
      List.forall_mem_nil _⟩⟩
    intro s hs
    rw [List.mem_singleton.mp hs]
    exact Or.inr ⟨o, List.mem_singleton_self o, spanOf_closes ..⟩
  | @orphan l s hl hstack hid hthread hparent hstart hstop hcomp =>
    refine ⟨l, _, [], l.stack, none, [s], [], none, ⟨hl, rfl, rfl, (List.append_nil _).symm, rfl,
      rfl, fun p hp => Or.inl hp, rfl, rfl, nofun, nofun, ?_, Or.inl rfl, List.forall_mem_nil _,
      List.forall_mem_nil _⟩⟩
    intro s' hs'
    rw [List.mem_singleton.mp hs']
    exact Or.inl ⟨hparent, hstart⟩
  | @rename l f hl _ =>
    exact ⟨l, _, [], l.stack, none, [], [], none, ⟨hl, rfl, (List.append_nil _).symm,
      (List.append_nil _).symm, rfl, rfl, fun p hp => Or.inl hp, rfl,
      nameTop_frameTimes f l.stack, nofun, nofun, List.forall_mem_nil _, Or.inl rfl,
      List.forall_mem_nil _, List.forall_mem_nil _⟩⟩
  | @arm l p hl hp =>
    exact ⟨l, _, [], l.stack, none, [], [], none, ⟨hl, rfl, (List.append_nil _).symm,
      (List.append_nil _).symm, rfl, rfl, fun _ he => Or.inr (Option.some.inj he ▸ hp), rfl,
      rfl, nofun, nofun, List.forall_mem_nil _, Or.inl rfl, List.forall_mem_nil _,
      List.forall_mem_nil _⟩⟩
  -- the three ways to cut a lane differ in the gap they record
  | divert reason hl => exact cut_timed hl _ (fun _ hq => hq) _ _ _ _ _ (by decide) nofun
  | lose p reason hl hp => exact cut_timed hl none nofun _ _ _ _ _ (by decide) nofun
  | hole p stop known reason hl hp hx =>
    refine cut_timed hl none nofun _ _ _ _ _ (by decide) fun hknown => ?_
    obtain ⟨left, right, hleft, hright, hlt⟩ := hx hknown
    exact ⟨p, left, right, hp, hleft, hleft, hright, hlt⟩
  | @resume l p hl hp =>
    refine ⟨l, _, [], l.stack, none, [], _, none, ⟨hl, rfl, (List.append_nil _).symm, rfl, rfl,
      rfl, nofun, rfl, rfl, nofun, nofun, List.forall_mem_nil _, Or.inl rfl, ?_, resume_boundary hp⟩⟩
    intro g hg
    rw [List.mem_singleton.mp hg]
    exact resume_extent hp
  | @resumeIn l p o hl hp hstack ho =>
    refine ⟨l, _, [], l.stack, some o, [], _, none, ⟨hl, rfl, (List.append_nil _).symm, rfl, rfl,
      rfl, nofun, rfl, ?_, fun _ he => Option.some.inj he ▸ ho.id_eq, ?_, List.forall_mem_nil _,
      Or.inl rfl, ?_, resume_boundary hp⟩⟩
    · rw [hstack]
      rfl
    · intro o' he
      obtain rfl := Option.some.inj he
      rw [ho.start_eq]
      -- a frame resumed into starts with the gap, or now if the gap has no start
      cases habs : p.abs with
      | none => exact Or.inl rfl
      | some a => exact Or.inr ⟨hstack, p, hp, by rw [habs]; rfl⟩
    · intro g hg
      rw [List.mem_singleton.mp hg]
      exact resume_extent hp

end Ledger

end TraceMcp.Decode
