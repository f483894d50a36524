import TraceMcp.Decode.Forest

/-!
# Either side of an instant

An instant divides a stream: what thread `k` did by then, and what it does
later. Its open frames at the instant are known only to the state in between;
afterwards there are rows. `Shift` is what one write to a lane does to frames
and rows. `Past` is what holds of the rows before the instant (a row that has
ended ended by then), and `Later` what holds afterwards: each frame of the
instant is still open or has a row that outlasts it, and any other row that
seems to be open at the instant was interrupted, or dated back to the trace
end that was pending.
-/

namespace TraceMcp.Decode

open TraceMcp.Lib

namespace Ledger

open Reconstructor (spanOf openCompleteness nameTop)

/-- `o'` is the frame `o`, which may have been named since. -/
structure Same (o o' : OpenSpan) : Prop where
  id_eq : o'.id = o.id
  parent_eq : o'.parent = o.parent
  start_eq : o'.startAbs = o.startAbs
  function_eq : o.function = none ∨ o'.function = o.function

/-- `s` is the row of the frame `o` of thread `t`. -/
structure RowOf (t : ThreadId) (o : OpenSpan) (s : FunctionSpan) : Prop where
  thread_eq : s.thread = t
  id_eq : s.id = o.id
  parent_eq : s.parent = o.parent
  start_eq : s.start = absTime o.startAbs
  function_eq : o.function = none ∨ s.function = o.function

/-- A row that is written now ends now, or was interrupted. -/
def EndsNow (now : Option Nat) (s : FunctionSpan) : Prop :=
  s.stop = absTime now ∨ (s.stop = .unknown ∧ s.completeness = .interruptedByGap)

/-- What a write to lane `l` of `k` does to its frames and their rows. -/
structure Shift (k : Key) (now : Option Nat) (L L' : Ledger) (l l' : Lane) : Prop where
  lane : L.lanes k = some l
  lanes : L'.lanes = Function.update L.lanes k (some l')
  gen : L'.gen = L.gen
  id_eq : l'.id = l.id
  pending : ∀ p, l'.pending = some p → l.pending = some p ∨ p.abs = now
  stays : ∀ o ∈ l.stack, (∃ o' ∈ l'.stack, Same o o') ∨
    ∃ s ∈ L'.spans, RowOf l.id o s ∧ EndsNow now s
  opened : ∀ o' ∈ l'.stack, (∃ o ∈ l.stack, Same o o') ∨ o'.startAbs = now ∨
    ∃ p, l.pending = some p ∧ o'.startAbs = p.abs
  rows : ∃ rows, L'.spans = L.spans ++ rows ∧ ∀ s ∈ rows, s.thread = l.id ∧
    (s.start = .unknown ∨ ∃ o ∈ l.stack, RowOf l.id o s ∧ EndsNow now s)

/-- The lane of `k` is written to, with a `Shift`. -/
def Shifts (k : Key) (now : Option Nat) (L L' : Ledger) : Prop :=
  ∃ l l', Shift k now L L' l l'

variable {k : Key} {now : Option Nat} {L L' : Ledger} {l l' : Lane}

theorem Same.refl (o : OpenSpan) : Same o o := ⟨rfl, rfl, rfl, Or.inr rfl⟩

theorem Same.trans {o o' o'' : OpenSpan} (h : Same o o') (h' : Same o' o'') : Same o o'' := by
  refine ⟨h'.id_eq.trans h.id_eq, h'.parent_eq.trans h.parent_eq, h'.start_eq.trans h.start_eq, ?_⟩
  rcases h.function_eq with hnone | heq
  · exact Or.inl hnone
  · rw [← heq]
    exact h'.function_eq

theorem Same.row {o o' : OpenSpan} {t : ThreadId} {s : FunctionSpan} (h : Same o o')
    (hs : RowOf t o' s) : RowOf t o s := by
  refine ⟨hs.thread_eq, hs.id_eq.trans h.id_eq, hs.parent_eq.trans h.parent_eq,
    h.start_eq ▸ hs.start_eq, ?_⟩
  rcases h.function_eq with hnone | heq
  · exact Or.inl hnone
  · rw [← heq]
    exact hs.function_eq

theorem spanOf_row (t : ThreadId) (o : OpenSpan) (endAbs : Option Nat) (ev : LocalId)
    (c : SpanCompleteness) : RowOf t o (spanOf t o endAbs ev c) :=
  ⟨rfl, rfl, rfl, rfl, Or.inr rfl⟩

/-! ## Every write is a shift -/

/-- Frames `popped` get rows, frames `kept` stay, frames `pushed` are new. -/
theorem shifts_of_split (popped kept pushed : List OpenSpan) (rows : List FunctionSpan)
    (hlane : L.lanes k = some l) (hlanes : L'.lanes = Function.update L.lanes k (some l'))
    (hgen : L'.gen = L.gen) (hid : l'.id = l.id)
    (hpending : ∀ p, l'.pending = some p → l.pending = some p ∨ p.abs = now)
    (hstack : l.stack = popped ++ kept) (hstack' : l'.stack = pushed ++ kept)
    (hspans : L'.spans = L.spans ++ rows)
    (hpopped : ∀ o ∈ popped, ∃ s ∈ rows, RowOf l.id o s ∧ EndsNow now s)
    (hpushed : ∀ o ∈ pushed, o.startAbs = now ∨ ∃ p, l.pending = some p ∧ o.startAbs = p.abs)
    (hrows : ∀ s ∈ rows, s.thread = l.id ∧
      (s.start = .unknown ∨ ∃ o ∈ popped, RowOf l.id o s ∧ EndsNow now s)) :
    Shifts k now L L' := by
  refine ⟨l, l', hlane, hlanes, hgen, hid, hpending, ?_, ?_, rows, hspans, ?_⟩
  · intro o ho
    rw [hstack] at ho
    rcases List.mem_append.mp ho with ho | ho
    · obtain ⟨s, hs, hrow⟩ := hpopped o ho
      exact Or.inr ⟨s, hspans ▸ List.mem_append_right _ hs, hrow⟩
    · exact Or.inl ⟨o, hstack' ▸ List.mem_append_right _ ho, .refl o⟩
  · intro o ho
    rw [hstack'] at ho
    rcases List.mem_append.mp ho with ho | ho
    · exact Or.inr (hpushed o ho)
    · exact Or.inl ⟨o, hstack ▸ List.mem_append_right _ ho, .refl o⟩
  · intro s hs
    obtain ⟨hthread, hstart | ⟨o, ho, hrow⟩⟩ := hrows s hs
    · exact ⟨hthread, Or.inl hstart⟩
    · exact ⟨hthread, Or.inr ⟨o, hstack ▸ List.mem_append_left _ ho, hrow⟩⟩

/-- Nothing is written, and the frames stay. -/
theorem shifts_of_stack (hlane : L.lanes k = some l)
    (hlanes : L'.lanes = Function.update L.lanes k (some l')) (hgen : L'.gen = L.gen)
    (hid : l'.id = l.id) (hspans : L'.spans = L.spans) (hstack : l'.stack = l.stack)
    (hpending : ∀ p, l'.pending = some p → l.pending = some p ∨ p.abs = now) :
    Shifts k now L L' :=
  shifts_of_split [] l.stack [] [] hlane hlanes hgen hid hpending rfl hstack (by rw [hspans, List.append_nil]) (fun _ h => absurd h List.not_mem_nil)
    (fun _ h => absurd h List.not_mem_nil) (fun _ h => absurd h List.not_mem_nil)

theorem flushRows_shifts (t : ThreadId) (now endAbs : Option Nat)
    (c : SpanCompleteness → SpanCompleteness) (stack : List OpenSpan)
    (hends : ∀ o, EndsNow now (spanOf t o endAbs o.startEvent (c o.completeness))) :
    (∀ o ∈ stack, ∃ s ∈ flushRows t endAbs c stack, RowOf t o s ∧ EndsNow now s) ∧
      ∀ s ∈ flushRows t endAbs c stack, s.thread = t ∧
        (s.start = .unknown ∨ ∃ o ∈ stack, RowOf t o s ∧ EndsNow now s) := by
  refine ⟨fun o ho => ⟨_, List.mem_map_of_mem ho, spanOf_row .., hends o⟩, ?_⟩
  intro s hs
  obtain ⟨o, ho, rfl⟩ := List.mem_map.mp hs
  exact ⟨rfl, Or.inr ⟨o, ho, spanOf_row .., hends o⟩⟩

/-- A cut interrupts every open frame, whatever the time. -/
theorem cut_shifts (h : L.lanes k = some l) (now : Option Nat) (p : Option PendingEnd)
    (hp : ∀ q, p = some q → l.pending = some q) (kind : GapKind) (a b : Option Nat) (x : Bool)
    (reason : String) : Shifts k now L (L.cut k l p kind a b x reason) := by
  obtain ⟨hpopped, hrows⟩ := flushRows_shifts l.id now none
    (fun _ => .interruptedByGap) l.stack fun o => Or.inr ⟨rfl, rfl⟩
  exact shifts_of_split l.stack [] [] _ h rfl rfl rfl
    (fun q hq => Or.inl (hp q hq)) (List.append_nil _).symm rfl rfl hpopped
    (fun _ h => absurd h List.not_mem_nil) hrows

/-- Closing a lane ends every open frame at the given time. -/
theorem close_shifts (h : L.lanes k = some l) (endAbs : Option Nat)
    (c : SpanCompleteness → SpanCompleteness) :
    Shifts k endAbs L ((L.setLane k (closedLane l)).emit (flushRows l.id endAbs c l.stack)) := by
  obtain ⟨hpopped, hrows⟩ := flushRows_shifts l.id endAbs endAbs c l.stack fun o => Or.inl rfl
  exact shifts_of_split l.stack [] [] _ h rfl rfl rfl nofun
    (List.append_nil _).symm rfl rfl hpopped (fun _ h => absurd h List.not_mem_nil) hrows

/-- Naming the innermost frame, which has no name yet. -/
theorem nameTop_same {f : LocalId} {stack : List OpenSpan}
    (h : stack.head?.map OpenSpan.function = some none) :
    (∀ o ∈ stack, ∃ o' ∈ nameTop f stack, Same o o') ∧
      ∀ o' ∈ nameTop f stack, ∃ o ∈ stack, Same o o' := by
  cases stack with
  | nil => cases h
  | cons o rest =>
    have hnone : o.function = none := Option.some_inj.mp h
    have htop : Same o { o with function := some f } := ⟨rfl, rfl, rfl, Or.inl hnone⟩
    constructor
    · intro p hp
      rcases List.mem_cons.mp hp with rfl | hp
      · exact ⟨_, List.mem_cons_self, htop⟩
      · exact ⟨p, List.mem_cons_of_mem _ hp, .refl p⟩
    · intro p hp
      rcases List.mem_cons.mp hp with rfl | hp
      · exact ⟨o, List.mem_cons_self, htop⟩
      · exact ⟨p, List.mem_cons_of_mem _ hp, .refl p⟩

/-- The innermost frame is popped, with a row that ends now. -/
theorem pop_shifts {o : OpenSpan} {rest : List OpenSpan} {ev : LocalId} {c : SpanCompleteness}
    (pushed : List OpenSpan) (hlane : L.lanes k = some l) (hstack : l.stack = o :: rest)
    (hlanes : L'.lanes = Function.update L.lanes k (some l')) (hgen : L'.gen = L.gen)
    (hid : l'.id = l.id) (hpending : l'.pending = l.pending) (hstack' : l'.stack = pushed ++ rest)
    (hspans : L'.spans = L.spans ++ [spanOf l.id o now ev c])
    (hpushed : ∀ o ∈ pushed, o.startAbs = now) : Shifts k now L L' := by
  have hrow : RowOf l.id o (spanOf l.id o now ev c) ∧ EndsNow now (spanOf l.id o now ev c) :=
    ⟨spanOf_row .., Or.inl rfl⟩
  refine shifts_of_split [o] rest pushed _ hlane hlanes hgen hid
    (fun p hp => Or.inl (hpending ▸ hp)) hstack hstack' hspans ?_
    (fun o ho => Or.inl (hpushed o ho)) ?_
  · intro o' ho'
    rw [List.mem_singleton.mp ho']
    exact ⟨_, List.mem_singleton_self _, hrow⟩
  · intro s hs
    rw [List.mem_singleton.mp hs]
    exact ⟨rfl, Or.inr ⟨o, List.mem_singleton_self o, hrow⟩⟩

/-- Every move is a shift. -/
theorem Move.shifts (h : Move k now L L') : Shifts k now L L' := by
  cases h with
  | @enter l o hl ho =>
    refine shifts_of_split [] l.stack [o] [] hl rfl rfl rfl (fun p hp => Or.inl hp) rfl rfl (List.append_nil _).symm
      (fun _ h => absurd h List.not_mem_nil) ?_ (fun _ h => absurd h List.not_mem_nil)
    intro o' ho'
    rw [List.mem_singleton.mp ho']
    exact Or.inl ho.start_eq
  | @leave l o rest ev c hl hstack =>
    exact pop_shifts [] hl hstack rfl rfl rfl rfl rfl rfl
      (fun _ h => absurd h List.not_mem_nil)
  | @tail l o n rest ev hl hstack hn =>
    refine pop_shifts [n] hl hstack rfl rfl rfl rfl rfl rfl ?_
    intro n' hn'
    rw [List.mem_singleton.mp hn']
    exact hn.start_eq
  | @orphan l s hl hstack hid hthread hparent hstart hstop hcomp =>
    refine shifts_of_split [] l.stack [] [s] hl rfl rfl rfl (fun p hp => Or.inl hp) rfl rfl rfl (fun _ h => absurd h List.not_mem_nil)
      (fun _ h => absurd h List.not_mem_nil) ?_
    intro s' hs'
    rw [List.mem_singleton.mp hs']
    exact ⟨hthread, Or.inl hstart⟩
  | @rename l f hl htop =>
    obtain ⟨hstays, hopened⟩ := nameTop_same (f := f) htop
    exact ⟨l, _, hl, rfl, rfl, rfl, fun p hp => Or.inl hp, fun o ho => Or.inl (hstays o ho),
      fun o' ho' => Or.inl (hopened o' ho'), [], (List.append_nil _).symm,
      fun _ h => absurd h List.not_mem_nil⟩
  | @arm l p hl hp =>
    refine shifts_of_stack hl rfl rfl rfl rfl rfl fun q hq => Or.inr ?_
    rw [← Option.some_inj.mp hq]
    exact hp
  | divert reason hl => exact cut_shifts hl now _ (fun _ hq => hq) ..
  | lose p reason hl hp => exact cut_shifts hl now none nofun ..
  | hole p stop known reason hl hp hx => exact cut_shifts hl now none nofun ..
  | @resume l p hl hp => exact shifts_of_stack hl rfl rfl rfl rfl rfl nofun
  | @resumeIn l p o hl hp hstack ho =>
    refine shifts_of_split [] [] [o] [] hl rfl rfl rfl nofun hstack rfl (List.append_nil _).symm (fun _ h => absurd h List.not_mem_nil) ?_
      (fun _ h => absurd h List.not_mem_nil)
    intro o' ho'
    rw [List.mem_singleton.mp ho', ho.start_eq]
    cases habs : p.abs with
    | none => exact Or.inl rfl
    | some a => exact Or.inr ⟨p, hp, habs.symm⟩

/-! ## Stages -/

/-- One stage of a record; `named` holds of the tasks that may be given a lane,
`times` of the times a thread is written to, `exits` of those it exits at. -/
inductive Stage (named : Key → Prop) (times exits : Key → Option Nat → Prop) :
    Ledger → Ledger → Prop
  | create {L : Ledger} {k : Key} : L.lanes k = none → named k →
      Stage named times exits L (L.ensure k)
  | shift {L L' : Ledger} {k : Key} {now : Option Nat} : times k now → Shifts k now L L' →
      Stage named times exits L L'
  | retire {L : Ledger} {k : Key} {l : Lane} {endAbs : Option Nat} : L.lanes k = some l →
      exits k endAbs → Stage named times exits L (L.retire k l endAbs)
  | aside {L L' : Ledger} : L'.lanes = L.lanes → L'.gen = L.gen → L'.spans = L.spans →
      Stage named times exits L L'

abbrev Stages (named : Key → Prop) (times exits : Key → Option Nat → Prop) :=
  Relation.ReflTransGen (Stage named times exits)

/-- What a record's task and time have to satisfy. -/
structure Admits (named : Key → Prop) (times exits : Key → Option Nat → Prop) (rec : RawRecord) :
    Prop where
  named : ∀ k, namedKey rec = some k → named k
  times : ∀ s, rec = .sample s → times (s.pid, s.tid) s.timeNs
  exits : ∀ e, rec = .task e → e.kind = .exit → exits (e.pid, e.tid) e.timeNs

variable {named : Key → Prop} {times exits : Key → Option Nat → Prop}

theorem ensure_stages (L : Ledger) (hk : named k) :
    Stages named times exits L (L.ensure k) := by
  cases h : L.lanes k with
  | none => exact .single (.create h hk)
  | some l =>
    simp only [ensure, h]
    exact .refl

/-- A record is a sequence of stages. -/
theorem Action.stages {rec : RawRecord} (h : Action rec L L')
    (hany : ∀ k, ∃ now, times k now) (hrec : Admits named times exits rec) :
    Stages named times exits L L' := by
  cases h with
  | @sample _ _ s l₀ l h₀ hl hmoves =>
    have htimes := hrec.times s rfl
    refine (ensure_stages L (hrec.named _ rfl)).trans ?_
    -- A regression interrupts the thread before its time is noted.
    have hregression : Stages named times exits (L.ensure (s.pid, s.tid))
        ((L.ensure (s.pid, s.tid)).checkRegression (s.pid, s.tid) l₀ s.timeNs) := by
      unfold checkRegression
      split
      next => exact .single (.shift htimes (cut_shifts h₀ _ _ (fun _ hq => hq) ..))
      next => exact .refl
    have hnoted : Shifts (s.pid, s.tid) s.timeNs
        ((L.ensure (s.pid, s.tid)).checkRegression (s.pid, s.tid) l₀ s.timeNs)
        (((L.ensure (s.pid, s.tid)).checkRegression (s.pid, s.tid) l₀ s.timeNs).setLane
          (s.pid, s.tid) { l with lastAbs := s.timeNs.or l.lastAbs }) :=
      shifts_of_stack hl rfl rfl rfl rfl rfl fun _ hp => Or.inl hp
    exact hregression.trans (.head (.shift htimes hnoted)
      (hmoves.lift id fun _ _ hm => .shift htimes hm.shifts))
  | @error _ e pid tid l hpid htid hl =>
    obtain ⟨now, hnow⟩ := hany (pid, tid)
    refine (ensure_stages L (hrec.named (pid, tid) ?_)).trans
      (.single (.shift hnow (cut_shifts hl now _ (fun _ hq => hq) ..)))
    rw [namedKey, hpid, htid]
    rfl
  | strayError h => exact .single (.aside rfl rfl rfl)
  | lost => exact .single (.aside rfl rfl rfl)
  | exit hkind hl => exact .single (.retire hl (hrec.exits _ rfl hkind))
  | silent h => exact .refl

/-! ## Whose rows are whose -/

/-- If task `k'` has the tid of `k`, it is `k`. -/
def Alone (k k' : Key) : Prop := k'.2 = k.2 → k' = k

/-- No other task has the tid of `k`, and the rows of the tid name generations
that have begun. -/
structure Own (k : Key) (L : Ledger) : Prop where
  lanes : ∀ k' l, L.lanes k' = some l → Alone k k' ∧ l.id = .task k'.2 (L.gen k')
  rows : ∀ s ∈ L.spans, ∀ g, s.thread = .task k.2 g →
    g ≤ L.gen k ∧ (L.lanes k = none → g < L.gen k)

variable {k₁ : Key} {t : Nat}

theorem Shift.lane_self (h : Shift k now L L' l l') : L'.lanes k = some l' := by
  rw [h.lanes, Function.update_self]

theorem Shift.lane_ne (h : Shift k₁ now L L' l l') (hk : k ≠ k₁) : L'.lanes k = L.lanes k := by
  rw [h.lanes, Function.update_of_ne hk]

/-- A new row of `k`'s tid is written by `k`, in the generation it is in. -/
theorem Shift.row_key (h : Shift k₁ now L L' l l') (hO : Own k L) {g : Nat}
    (hid : l.id = .task k.2 g) : k₁ = k ∧ g = L.gen k := by
  obtain ⟨halone, hown⟩ := hO.lanes k₁ l h.lane
  rw [hown] at hid
  injection hid with htid hgen
  obtain rfl := halone htid
  exact ⟨rfl, hgen.symm⟩

theorem Shift.own (h : Shift k₁ now L L' l l') (hO : Own k L) : Own k L' := by
  constructor
  · intro k' m hm
    rw [h.gen]
    by_cases hk : k' = k₁
    · subst hk
      obtain rfl := Option.some_inj.mp (h.lane_self.symm.trans hm)
      rw [h.id_eq]
      exact hO.lanes k' l h.lane
    · rw [h.lane_ne hk] at hm
      exact hO.lanes k' m hm
  · intro s hs g hg
    obtain ⟨rows, hspans, hrows⟩ := h.rows
    rw [hspans] at hs
    rw [h.gen]
    rcases List.mem_append.mp hs with hs | hs
    · obtain ⟨hle, hlt⟩ := hO.rows s hs g hg
      refine ⟨hle, fun hnone => hlt ?_⟩
      by_cases hk : k = k₁
      · rw [hk, h.lane_self] at hnone
        cases hnone
      · rw [h.lane_ne hk] at hnone
        exact hnone
    · obtain ⟨rfl, rfl⟩ := h.row_key hO ((hrows s hs).1 ▸ hg)
      refine ⟨Nat.le_refl _, fun hnone => ?_⟩
      rw [h.lane_self] at hnone
      cases hnone

/-- A lane after `ensure`: one from before, or the fresh one. -/
theorem ensure_lanes_cases (hnone : L.lanes k₁ = none) (hl : (L.ensure k₁).lanes k = some l) :
    L.lanes k = some l ∨ (k = k₁ ∧ l = L.fresh k₁) := by
  by_cases hk : k = k₁
  · subst hk
    exact Or.inr ⟨rfl, Option.some_inj.mp (hl.symm.trans (ensure_lane hnone))⟩
  · exact Or.inl (ensure_lanes_ne hnone hk ▸ hl)

theorem ensure_lanes_none (hnone : L.lanes k₁ = none) (h : (L.ensure k₁).lanes k = none) :
    L.lanes k = none := by
  by_cases hk : k = k₁
  · rw [hk, hnone]
  · exact ensure_lanes_ne hnone hk ▸ h

theorem ensure_own (hO : Own k L) (hnone : L.lanes k₁ = none) (hk : Alone k k₁) :
    Own k (L.ensure k₁) := by
  refine ⟨fun k' m hm => ?_, fun s hs g hg => ?_⟩
  · rw [ensure_gen]
    rcases ensure_lanes_cases hnone hm with hm | ⟨rfl, rfl⟩
    · exact hO.lanes k' m hm
    · exact ⟨hk, rfl⟩
  · rw [ensure_gen]
    rw [ensure_spans] at hs
    obtain ⟨hle, hlt⟩ := hO.rows s hs g hg
    exact ⟨hle, fun h => hlt (ensure_lanes_none hnone h)⟩

theorem dropLane_gen_self : (L.dropLane k l).gen k = L.gen k + 1 := Function.update_self ..

theorem dropLane_gen_of_ne (hk : k ≠ k₁) : (L.dropLane k₁ l).gen k = L.gen k :=
  Function.update_of_ne hk ..

theorem dropLane_own (hO : Own k L) : Own k (L.dropLane k₁ l) := by
  refine ⟨fun k' m hm => ?_, fun s hs g hg => ?_⟩
  · by_cases hk : k' = k₁
    · rw [hk, dropLane_lane] at hm
      cases hm
    · rw [dropLane_lanes_ne hk] at hm
      rw [dropLane_gen_of_ne hk]
      exact hO.lanes k' m hm
  · obtain ⟨hle, hlt⟩ := hO.rows s hs g hg
    by_cases hk : k = k₁
    · subst hk
      rw [dropLane_gen_self]
      omega
    · rw [dropLane_gen_of_ne hk, dropLane_lanes_ne hk]
      exact ⟨hle, hlt⟩

/-! ## Up to the instant -/

/-- Thread `k` up to time `t`: its frames and its pending end are from then,
and of the rows of its generation only the interrupted ones and those without
a start did not end by then. -/
structure Past (k : Key) (t : Nat) (L : Ledger) : Prop where
  own : Own k L
  frames : ∀ l, L.lanes k = some l → ∀ o ∈ l.stack, ∃ x ≤ t, o.startAbs = some x
  pending : ∀ l, L.lanes k = some l → ∀ p, l.pending = some p → ∃ x ≤ t, p.abs = some x
  rows : ∀ s ∈ L.spans, s.thread = .task k.2 (L.gen k) →
    s.start = .unknown ∨ s.completeness = .interruptedByGap ∨
      ∃ y ≤ t, s.stop.relativeNs = some y

theorem Shift.past (h : Shift k₁ now L L' l l') (hP : Past k t L)
    (hnow : k₁ = k → ∃ x ≤ t, now = some x) : Past k t L' := by
  refine ⟨h.own hP.own, ?_, ?_, ?_⟩
  · intro m hm o' ho'
    by_cases hk : k = k₁
    · subst hk
      obtain rfl := Option.some_inj.mp (h.lane_self.symm.trans hm)
      -- a frame was there, or starts now, or where the pending end was
      rcases h.opened o' ho' with ⟨o, ho, hsame⟩ | hstart | ⟨p, hp, hstart⟩
      · rw [hsame.start_eq]
        exact hP.frames l h.lane o ho
      · rw [hstart]
        exact hnow rfl
      · rw [hstart]
        exact hP.pending l h.lane p hp
    · rw [h.lane_ne hk] at hm
      exact hP.frames m hm o' ho'
  · intro m hm p hp
    by_cases hk : k = k₁
    · subst hk
      obtain rfl := Option.some_inj.mp (h.lane_self.symm.trans hm)
      rcases h.pending p hp with hold | habs
      · exact hP.pending l h.lane p hold
      · rw [habs]
        exact hnow rfl
    · rw [h.lane_ne hk] at hm
      exact hP.pending m hm p hp
  · intro s hs hthread
    rw [h.gen] at hthread
    obtain ⟨rows, hspans, hrows⟩ := h.rows
    rw [hspans] at hs
    rcases List.mem_append.mp hs with hs | hs
    · exact hP.rows s hs hthread
    · obtain ⟨rfl, -⟩ := h.row_key hP.own ((hrows s hs).1 ▸ hthread)
      rcases (hrows s hs).2 with hstart | ⟨o, ho, -, hstop | ⟨-, hcut⟩⟩
      · exact Or.inl hstart
      · obtain ⟨x, hx, hnow⟩ := hnow rfl
        refine Or.inr (Or.inr ⟨x, hx, ?_⟩)
        rw [hstop, hnow, absTime_relativeNs]
      · exact Or.inr (Or.inl hcut)

/-- A generation ends with its thread: the next one has no rows yet. -/
theorem dropLane_past (hO : Own k L) (hP : k₁ ≠ k → Past k t L) :
    Past k t (L.dropLane k₁ l) := by
  by_cases hk : k = k₁
  · subst hk
    refine ⟨dropLane_own hO, ?_, ?_, ?_⟩
    · intro m hm
      rw [dropLane_lane] at hm
      cases hm
    · intro m hm
      rw [dropLane_lane] at hm
      cases hm
    · intro s hs hthread
      rw [dropLane_gen_self] at hthread
      exact absurd (hO.rows s hs _ hthread).1 (Nat.not_succ_le_self _)
  · have hP := hP (Ne.symm hk)
    refine ⟨dropLane_own hO, ?_, ?_, ?_⟩
    · rw [dropLane_lanes_ne hk]
      exact hP.frames
    · rw [dropLane_lanes_ne hk]
      exact hP.pending
    · rw [dropLane_gen_of_ne hk]
      exact hP.rows

theorem ensure_past (hP : Past k t L) (hnone : L.lanes k₁ = none) (hk : Alone k k₁) :
    Past k t (L.ensure k₁) := by
  refine ⟨ensure_own hP.own hnone hk, ?_, ?_, ?_⟩
  · intro m hm
    rcases ensure_lanes_cases hnone hm with hm | ⟨-, rfl⟩
    · exact hP.frames m hm
    · exact fun o ho => absurd ho List.not_mem_nil
  · intro m hm
    rcases ensure_lanes_cases hnone hm with hm | ⟨-, rfl⟩
    · exact hP.pending m hm
    · exact nofun
  · rw [ensure_gen, ensure_spans]
    exact hP.rows

/-- The times thread `k` is written to before the instant. -/
def ByThen (k : Key) (t : Nat) (k₁ : Key) (now : Option Nat) : Prop :=
  k₁ = k → ∃ x ≤ t, now = some x

theorem Stage.past (h : Stage (Alone k) (ByThen k t) (fun _ _ => True) L L') (hP : Past k t L) :
    Past k t L' := by
  cases h with
  | create hnone hk => exact ensure_past hP hnone hk
  | shift hnow hshift =>
    obtain ⟨l, l', hshift⟩ := hshift
    exact hshift.past hP hnow
  | retire hl _ =>
    rw [retire_eq_dropLane]
    obtain ⟨m, m', hshift⟩ := close_shifts hl _ openCompleteness
    exact dropLane_past (hshift.own hP.own) fun hk => hshift.past hP fun heq => absurd heq hk
  | aside hlanes hgen hspans =>
    obtain ⟨⟨howned, hnamed⟩, hframes, hpending, hrows⟩ := hP
    rw [← hlanes, ← hgen] at howned
    rw [← hlanes, ← hgen, ← hspans] at hnamed
    rw [← hlanes] at hframes hpending
    rw [← hgen, ← hspans] at hrows
    exact ⟨⟨howned, hnamed⟩, hframes, hpending, hrows⟩

/-! ## From the instant on -/

/-- A start that is not by time `t`, or is dated back to the pending end `p₀`. -/
def NotYet (t : Nat) (p₀ : Option PendingEnd) (start : Option Nat) : Prop :=
  (∀ x, start = some x → t < x) ∨ ∃ p, p₀ = some p ∧ start = p.abs

/-- A row of the thread that is of no frame open at time `t`: it started later,
was dated back, was interrupted, or had ended. -/
def Aside (t : Nat) (p₀ : Option PendingEnd) (s : FunctionSpan) : Prop :=
  NotYet t p₀ s.start.relativeNs ∨ s.completeness = .interruptedByGap ∨
    ∃ y ≤ t, s.stop.relativeNs = some y

/-- Thread `k` after time `t`, when its frames were `S` in generation `g` and
its pending end was `p₀`: each of these frames is open or has a row that ends
later, and the other frames and rows are aside. -/
structure Later (k : Key) (t g : Nat) (S : List OpenSpan) (p₀ : Option PendingEnd)
    (L : Ledger) : Prop where
  own : Own k L
  gen : g ≤ L.gen k ∧ (L.lanes k = none → g < L.gen k)
  stays : ∀ o ∈ S,
    (∃ l, L.lanes k = some l ∧ l.id = .task k.2 g ∧ ∃ o' ∈ l.stack, Same o o') ∨
      ∃ s ∈ L.spans, RowOf (.task k.2 g) o s ∧ ∀ y, s.stop.relativeNs = some y → t < y
  frames : ∀ l, L.lanes k = some l → l.id = .task k.2 g → ∀ o' ∈ l.stack,
    (∃ o ∈ S, Same o o') ∨ NotYet t p₀ o'.startAbs
  pending : ∀ l, L.lanes k = some l → l.id = .task k.2 g → ∀ p, l.pending = some p →
    p₀ = some p ∨ ∀ x, p.abs = some x → t < x
  rows : ∀ s ∈ L.spans, s.thread = .task k.2 g → (∃ o ∈ S, s.id = o.id) ∨ Aside t p₀ s

variable {g : Nat} {S : List OpenSpan} {p₀ : Option PendingEnd}

/-- What is past is what later starts from. -/
theorem Past.later (hP : Past k t L) (hl : L.lanes k = some l) :
    Later k t (L.gen k) l.stack l.pending L := by
  refine ⟨hP.own, ⟨Nat.le_refl _, fun hnone => ?_⟩, fun o ho => ?_, ?_, ?_, ?_⟩
  · rw [hl] at hnone
    cases hnone
  · exact Or.inl ⟨l, hl, (hP.own.lanes k l hl).2, o, ho, .refl o⟩
  · intro m hm _ o ho
    obtain rfl := Option.some_inj.mp (hl.symm.trans hm)
    exact Or.inl ⟨o, ho, .refl o⟩
  · intro m hm _ p hp
    obtain rfl := Option.some_inj.mp (hl.symm.trans hm)
    exact Or.inl hp
  · intro s hs hthread
    rcases hP.rows s hs hthread with hstart | hrest
    · refine Or.inr (Or.inl (Or.inl fun x hx => ?_))
      rw [hstart] at hx
      cases hx
    · exact Or.inr (Or.inr hrest)

theorem NotYet.row {o : OpenSpan} {s : FunctionSpan} {T : ThreadId}
    (h : NotYet t p₀ o.startAbs) (hs : RowOf T o s) : NotYet t p₀ s.start.relativeNs := by
  rw [hs.start_eq, absTime_relativeNs]
  exact h

/-- The shift of the thread itself. -/
theorem Shift.later_self (h : Shift k now L L' l l') (hL : Later k t g S p₀ L)
    (hnow : ∀ x, now = some x → t < x) : Later k t g S p₀ L' := by
  -- a row that is written now outlasts the instant
  have hends : ∀ s, EndsNow now s → ∀ y, s.stop.relativeNs = some y → t < y := by
    rintro s (hstop | ⟨hstop, -⟩) y hy
    · rw [hstop, absTime_relativeNs] at hy
      exact hnow y hy
    · rw [hstop] at hy
      cases hy
  obtain ⟨rows, hspans, hrows⟩ := h.rows
  refine ⟨h.own hL.own, ?_, ?_, ?_, ?_, ?_⟩
  · rw [h.gen]
    refine ⟨hL.gen.1, fun hnone => ?_⟩
    rw [h.lane_self] at hnone
    cases hnone
  · intro o ho
    rcases hL.stays o ho with ⟨m, hm, hid, o', ho', hsame⟩ | ⟨s, hs, hrow⟩
    · obtain rfl := Option.some_inj.mp (h.lane.symm.trans hm)
      rcases h.stays o' ho' with ⟨o'', ho'', hsame'⟩ | ⟨s, hs, hrow, hstop⟩
      · exact Or.inl ⟨l', h.lane_self, h.id_eq.trans hid, o'', ho'', hsame.trans hsame'⟩
      · exact Or.inr ⟨s, hs, hsame.row (hid ▸ hrow), hends s hstop⟩
    · exact Or.inr ⟨s, hspans ▸ List.mem_append_left _ hs, hrow⟩
  · intro m hm hid o' ho'
    obtain rfl := Option.some_inj.mp (h.lane_self.symm.trans hm)
    have hid := h.id_eq.symm.trans hid
    rcases h.opened o' ho' with ⟨o, ho, hsame⟩ | hstart | ⟨p, hp, hstart⟩
    · rcases hL.frames l h.lane hid o ho with ⟨q, hq, hsame'⟩ | hnot
      · exact Or.inl ⟨q, hq, hsame'.trans hsame⟩
      · exact Or.inr (hsame.start_eq ▸ hnot)
    · exact Or.inr (Or.inl (hstart ▸ hnow))
    · rw [hstart]
      rcases hL.pending l h.lane hid p hp with hp₀ | hlater
      · exact Or.inr (Or.inr ⟨p, hp₀, rfl⟩)
      · exact Or.inr (Or.inl hlater)
  · intro m hm hid p hp
    obtain rfl := Option.some_inj.mp (h.lane_self.symm.trans hm)
    rcases h.pending p hp with hold | habs
    · exact hL.pending l h.lane (h.id_eq.symm.trans hid) p hold
    · exact Or.inr (habs ▸ hnow)
  · intro s hs hthread
    rw [hspans] at hs
    rcases List.mem_append.mp hs with hs | hs
    · exact hL.rows s hs hthread
    · have hid := (hrows s hs).1.symm.trans hthread
      rcases (hrows s hs).2 with hstart | ⟨o', ho', hrow, -⟩
      · refine Or.inr (Or.inl (Or.inl fun x hx => ?_))
        rw [hstart] at hx
        cases hx
      · rcases hL.frames l h.lane hid o' ho' with ⟨o, ho, hsame⟩ | hnot
        · exact Or.inl ⟨o, ho, hrow.id_eq.trans hsame.id_eq⟩
        · exact Or.inr (Or.inl (hnot.row hrow))

/-- The shift of another thread. -/
theorem Shift.later_ne (h : Shift k₁ now L L' l l') (hL : Later k t g S p₀ L) (hk : k₁ ≠ k) :
    Later k t g S p₀ L' := by
  have hlane := h.lane_ne (Ne.symm hk)
  obtain ⟨rows, hspans, hrows⟩ := h.rows
  refine ⟨h.own hL.own, ?_, ?_, ?_, ?_, ?_⟩
  · rw [h.gen, hlane]
    exact hL.gen
  · intro o ho
    rw [hlane]
    rcases hL.stays o ho with hopen | ⟨s, hs, hrow⟩
    · exact Or.inl hopen
    · exact Or.inr ⟨s, hspans ▸ List.mem_append_left _ hs, hrow⟩
  · rw [hlane]
    exact hL.frames
  · rw [hlane]
    exact hL.pending
  · intro s hs hthread
    rw [hspans] at hs
    rcases List.mem_append.mp hs with hs | hs
    · exact hL.rows s hs hthread
    · exact absurd (h.row_key hL.own ((hrows s hs).1 ▸ hthread)).1 hk

/-- An idle lane may be dropped: what was open has its rows. -/
theorem dropLane_later (hL : Later k t g S p₀ L) (hl : L.lanes k₁ = some l)
    (hidle : l.stack = []) : Later k t g S p₀ (L.dropLane k₁ l) := by
  by_cases hk : k = k₁
  · subst hk
    have hnone : ∀ m, (L.dropLane k l).lanes k ≠ some m := by
      intro m hm
      rw [dropLane_lane] at hm
      cases hm
    refine ⟨dropLane_own hL.own, ?_, ?_, fun m hm => absurd hm (hnone m),
      fun m hm => absurd hm (hnone m), hL.rows⟩
    · rw [dropLane_gen_self]
      have hle := hL.gen.1
      omega
    · intro o ho
      rcases hL.stays o ho with ⟨m, hm, -, o', ho', -⟩ | hrow
      · obtain rfl := Option.some_inj.mp (hl.symm.trans hm)
        rw [hidle] at ho'
        exact absurd ho' List.not_mem_nil
      · exact Or.inr hrow
  · have hlane : (L.dropLane k₁ l).lanes k = L.lanes k := dropLane_lanes_ne hk
    refine ⟨dropLane_own hL.own, ?_, ?_, ?_, ?_, hL.rows⟩
    · rw [dropLane_gen_of_ne hk, hlane]
      exact hL.gen
    · rw [hlane]
      exact hL.stays
    · rw [hlane]
      exact hL.frames
    · rw [hlane]
      exact hL.pending

/-- A new lane is of a later generation. -/
theorem ensure_later (hL : Later k t g S p₀ L) (hnone : L.lanes k₁ = none) (hk : Alone k k₁) :
    Later k t g S p₀ (L.ensure k₁) := by
  have hfresh : ∀ m, (L.ensure k₁).lanes k = some m → m.id = .task k.2 g →
      L.lanes k = some m := by
    intro m hm hid
    rcases ensure_lanes_cases hnone hm with hm | ⟨rfl, rfl⟩
    · exact hm
    · injection hid with _ hgen
      exact absurd hgen (Nat.ne_of_gt (hL.gen.2 hnone))
  refine ⟨ensure_own hL.own hnone hk, ?_, ?_, fun m hm hid => hL.frames m (hfresh m hm hid) hid,
    fun m hm hid => hL.pending m (hfresh m hm hid) hid, ?_⟩
  · rw [ensure_gen]
    exact ⟨hL.gen.1, fun h => hL.gen.2 (ensure_lanes_none hnone h)⟩
  · intro o ho
    rw [ensure_spans]
    rcases hL.stays o ho with ⟨m, hm, hrest⟩ | hrow
    · have hne : k ≠ k₁ := by
        rintro rfl
        rw [hnone] at hm
        cases hm
      exact Or.inl ⟨m, by rw [ensure_lanes_ne hnone hne, hm], hrest⟩
    · exact Or.inr hrow
  · rw [ensure_spans]
    exact hL.rows

/-- The times thread `k` is written to after the instant. -/
def FromThen (k : Key) (t : Nat) (k₁ : Key) (now : Option Nat) : Prop :=
  k₁ = k → ∀ x, now = some x → t < x

theorem Shift.later (h : Shift k₁ now L L' l l') (hL : Later k t g S p₀ L)
    (hnow : FromThen k t k₁ now) : Later k t g S p₀ L' := by
  by_cases hk : k₁ = k
  · subst hk
    exact h.later_self hL (hnow rfl)
  · exact h.later_ne hL hk

theorem Stage.later (h : Stage (Alone k) (FromThen k t) (FromThen k t) L L')
    (hL : Later k t g S p₀ L) : Later k t g S p₀ L' := by
  cases h with
  | create hnone hk => exact ensure_later hL hnone hk
  | shift hnow hshift =>
    obtain ⟨l, l', hshift⟩ := hshift
    exact hshift.later hL hnow
  | retire hl hexit =>
    rw [retire_eq_dropLane]
    obtain ⟨m, m', hshift⟩ := close_shifts hl _ openCompleteness
    exact dropLane_later (hshift.later hL hexit) (setLane_lanes_self ..) rfl
  | aside hlanes hgen hspans =>
    obtain ⟨⟨howned, hnamed⟩, hgens, hstays, hframes, hpending, hrows⟩ := hL
    rw [← hlanes, ← hgen] at howned
    rw [← hlanes, ← hgen, ← hspans] at hnamed
    rw [← hlanes, ← hgen] at hgens
    rw [← hlanes, ← hspans] at hstays
    rw [← hlanes] at hframes hpending
    rw [← hspans] at hrows
    exact ⟨⟨howned, hnamed⟩, hgens, hstays, hframes, hpending, hrows⟩

theorem empty_past (k : Key) (t : Nat) (spilling : Bool) : Past k t (.empty spilling) := by
  refine ⟨⟨fun k' m hm => ?_, fun s hs => absurd hs List.not_mem_nil⟩, fun m hm => ?_,
    fun m hm => ?_, fun s hs => absurd hs List.not_mem_nil⟩
  all_goals cases hm

end Ledger

open Ledger

variable {k : Key} {t : Nat} {named : Key → Prop} {times exits : Key → Option Nat → Prop}
  {r r' : Reconstructor} {recs : List RawRecord}

/-- What pushing a record does, in stages. -/
theorem push_stages {rec : RawRecord} (hany : ∀ k, ∃ now, times k now)
    (hrec : Admits named times exits rec) (h : r.push rec = .ok r') :
    Stages named times exits (ledger r) (ledger r') := by
  have hpush := push_ledger h
  split at hpush
  next =>
    rw [hpush]
  next => exact hpush.stages hany hrec

/-- An invariant of single stages holds after any stream. -/
theorem pushAll_stages {P : Ledger → Prop}
    (hstage : ∀ L L', Stage named times exits L L' → P L → P L')
    (hany : ∀ k, ∃ now, times k now) (hrecs : ∀ rec ∈ recs, Admits named times exits rec)
    (h₀ : P (ledger r)) (h : r.pushAll recs = .ok r') : P (ledger r') :=
  foldlM_invariant (P := fun r => P (ledger r))
    (fun rec hrec _ _ hP hpush =>
      reflTransGen_invariant hstage (push_stages hany (hrecs rec hrec) hpush) hP) h₀ h

/-! ## A stream and an instant -/

/-- The times of the samples of `k`. -/
def sampleTimes (k : Key) (recs : List RawRecord) : List (Option Nat) :=
  recs.filterMap fun
    | .sample s => if (s.pid, s.tid) = k then some s.timeNs else none
    | _ => none

/-- The samples of `k` are timed, each later than the one before. -/
def Ascending (k : Key) (recs : List RawRecord) : Prop :=
  ∃ ts : List Nat, sampleTimes k recs = ts.map some ∧ ts.Pairwise (· < ·)

/-- The samples of `k` by time `t` are those of `pre`, and after `pre` the
thread does not exit by time `t`. -/
structure DividedAt (k : Key) (t : Nat) (pre post : List RawRecord) : Prop where
  before : ∀ x, some x ∈ sampleTimes k pre → x ≤ t
  after : ∀ x, some x ∈ sampleTimes k post → t < x
  alive : ∀ e, .task e ∈ post → e.kind = .exit → (e.pid, e.tid) = k →
    ∀ x, e.timeNs = some x → t < x

/-- No other task that has a lane shares the tid of `k`. -/
def SoleTid (k : Key) (recs : List RawRecord) : Prop :=
  ∀ rec ∈ recs, ∀ k', namedKey rec = some k' → Alone k k'

theorem mem_sampleTimes {s : Sample} (hs : .sample s ∈ recs) (hk : (s.pid, s.tid) = k) :
    s.timeNs ∈ sampleTimes k recs :=
  List.mem_filterMap.mpr ⟨_, hs, if_pos hk⟩

theorem Ascending.timed (h : Ascending k recs) {a : Option Nat} (ha : a ∈ sampleTimes k recs) :
    ∃ x, a = some x := by
  obtain ⟨ts, hts, -⟩ := h
  rw [hts] at ha
  obtain ⟨x, -, rfl⟩ := List.mem_map.mp ha
  exact ⟨x, rfl⟩

theorem sampleTimes_append (pre post : List RawRecord) :
    sampleTimes k (pre ++ post) = sampleTimes k pre ++ sampleTimes k post :=
  List.filterMap_append

variable {pre post : List RawRecord}

/-- Up to the instant every sample of the thread is timed by it. -/
theorem DividedAt.admits_pre (h : DividedAt k t pre post) (hasc : Ascending k (pre ++ post))
    (hsole : SoleTid k (pre ++ post)) :
    ∀ rec ∈ pre, Admits (Alone k) (ByThen k t) (fun _ _ => True) rec := by
  intro rec hrec
  refine ⟨hsole rec (List.mem_append_left _ hrec), ?_, fun _ _ _ => trivial⟩
  rintro s rfl hk
  have hmem := mem_sampleTimes hrec hk
  obtain ⟨x, hx⟩ := hasc.timed (mem_sampleTimes (List.mem_append_left _ hrec) hk)
  exact ⟨x, h.before x (hx ▸ hmem), hx⟩

/-- Afterwards every sample of the thread, and its exit, is later. -/
theorem DividedAt.admits_post (h : DividedAt k t pre post) (hsole : SoleTid k (pre ++ post)) :
    ∀ rec ∈ post, Admits (Alone k) (FromThen k t) (FromThen k t) rec := by
  intro rec hrec
  refine ⟨hsole rec (List.mem_append_right _ hrec), ?_, ?_⟩
  · rintro s rfl hk x hx
    exact h.after x (hx ▸ mem_sampleTimes hrec hk)
  · rintro e rfl hexit hk
    exact h.alive e hrec hexit hk

/-- At the instant. -/
theorem past_pushAll {r₀ r₁ : Reconstructor} (hbuilt : Built r₀) (hpre : r₀.pushAll pre = .ok r₁)
    (hasc : Ascending k (pre ++ post)) (hdiv : DividedAt k t pre post)
    (hsole : SoleTid k (pre ++ post)) : Past k t (ledger r₁) :=
  pushAll_stages (fun _ _ h => h.past) (fun _ => ⟨some t, fun _ => ⟨t, Nat.le_refl t, rfl⟩⟩)
    (hdiv.admits_pre hasc hsole) (hbuilt.ledger ▸ empty_past k t _) hpre

/-- What is left of the instant when the analysis is finished. -/
theorem later_closeAll {r₁ : Reconstructor} {l : Lane} (hpast : Past k t (ledger r₁))
    (hpost : r₁.pushAll post = .ok r) (hdiv : DividedAt k t pre post)
    (hsole : SoleTid k (pre ++ post)) (hl : (ledger r₁).lanes k = some l) :
    Later k t ((ledger r₁).gen k) l.stack l.pending (ledger r.closeAll) := by
  have hlater : Later k t ((ledger r₁).gen k) l.stack l.pending (ledger r) :=
    pushAll_stages (fun _ _ h => h.later) (fun _ => ⟨none, fun _ _ => nofun⟩)
      (hdiv.admits_post hsole) (hpast.later hl) hpost
  refine closeAll_invariant (fun L k' l' hl' hL => ?_) hlater
  obtain ⟨m, m', hshift⟩ := close_shifts hl' none Reconstructor.openCompleteness
  exact hshift.later hL fun _ _ => nofun

end TraceMcp.Decode
