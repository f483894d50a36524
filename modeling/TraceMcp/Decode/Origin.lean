import TraceMcp.Decode.Chart
import TraceMcp.Decode.Accounts

/-!
# Nothing is dated before the origin

`finish` takes the earliest time noted as the origin and subtracts it from
every stored time; a stored time before it would fail the whole analysis. It
never does: a time is noted before it is stored. The two exceptions in the
code are the start of a CPU's ring, which is remembered from samples that are
dropped, and the trace end a hole begins at; but a hole is only recorded
behind a trace end that was noted, and it ends after it or with the current
sample.
-/

namespace TraceMcp.Decode

open TraceMcp.Lib

/-- A time, if given, is not before the earliest, `m`. -/
def NotBefore (m t : Option Nat) : Prop := ∀ x, t = some x → ∃ o, m = some o ∧ o ≤ x

/-- The earliest time, once `t` is noted. -/
def noted (m t : Option Nat) : Option Nat :=
  match t with
  | some t => if t ≠ 0 then some (m.elim t (min · t)) else m
  | none => m

theorem since_none (m : Option Nat) : NotBefore m none := nofun

/-- What was not before the earliest time is not before an earlier one. -/
theorem NotBefore.noted {m t : Option Nat} (h : NotBefore m t) (u : Option Nat) : NotBefore (noted m u) t := by
  intro x hx
  obtain ⟨o, ho, hle⟩ := h x hx
  unfold Decode.noted
  split
  next u =>
    split
    next =>
      refine ⟨min o u, by rw [ho]; rfl, ?_⟩
      exact Nat.le_trans (Nat.min_le_left o u) hle
    next => exact ⟨o, ho, hle⟩
  next => exact ⟨o, ho, hle⟩

/-- A positive time is not before the earliest once it is noted itself. -/
theorem since_noted (m : Option Nat) {t : Option Nat} (ht : ∀ x, t = some x → 0 < x) :
    NotBefore (noted m t) t := by
  intro x hx
  have hpos := ht x hx
  subst hx
  rw [noted, if_pos (Nat.pos_iff_ne_zero.mp hpos)]
  cases m with
  | none => exact ⟨x, rfl, Nat.le_refl x⟩
  | some o => exact ⟨min o x, rfl, Nat.min_le_right o x⟩

theorem note_earliest (C : Chart) (t : Option Nat) : (C.note t).earliest = noted C.earliest t := by
  cases t with
  | none => rfl
  | some t =>
    by_cases ht : t ≠ 0
    · simp only [Chart.note, noted, if_pos ht]
    · simp only [Chart.note, noted, if_neg ht]

/-! ## The times of the ledger -/

namespace Ledger

open Reconstructor (spanOf openCompleteness nameTop regresses errorGapKind)

/-- No time of the lane is before `m`. -/
structure LaneSince (m : Option Nat) (l : Lane) : Prop where
  frames : ∀ o ∈ l.stack, NotBefore m o.startAbs
  last : NotBefore m l.lastAbs
  pending : ∀ p, l.pending = some p → NotBefore m p.abs

/-- No time of the ledger is before `m`, the ring holes apart. -/
structure Dated (m : Option Nat) (L : Ledger) : Prop where
  lanes : ∀ k l, L.lanes k = some l → LaneSince m l
  rows : ∀ s ∈ L.spans, NotBefore m s.start.relativeNs ∧ NotBefore m s.stop.relativeNs
  gaps : ∀ g ∈ L.gaps, g.kind ≠ .ringTruncation →
    NotBefore m g.start.relativeNs ∧ NotBefore m g.stop.relativeNs

variable {m now : Option Nat} {L L' : Ledger} {k : Key} {l : Lane}

theorem LaneSince.noted (h : LaneSince m l) (u : Option Nat) : LaneSince (noted m u) l :=
  ⟨fun o ho => (h.frames o ho).noted u, h.last.noted u, fun p hp => (h.pending p hp).noted u⟩

theorem Dated.noted (h : Dated m L) (u : Option Nat) : Dated (noted m u) L :=
  ⟨fun k l hl => (h.lanes k l hl).noted u,
    fun s hs => ⟨(h.rows s hs).1.noted u, (h.rows s hs).2.noted u⟩,
    fun g hg hkind => ⟨(h.gaps g hg hkind).1.noted u, (h.gaps g hg hkind).2.noted u⟩⟩

/-! ### The writes -/

theorem Dated.setLane (h : Dated m L) (k : Key) (hl : LaneSince m l) : Dated m (L.setLane k l) := by
  refine ⟨?_, h.rows, h.gaps⟩
  intro k' l' hl'
  by_cases hk : k' = k
  · subst hk
    rw [setLane_lanes_self] at hl'
    cases hl'
    exact hl
  · exact h.lanes k' l' ((setLane_lanes_ne _ _ _ hk).symm.trans hl')

theorem Dated.emit (h : Dated m L) {rows : List FunctionSpan}
    (hrows : ∀ s ∈ rows, NotBefore m s.start.relativeNs ∧ NotBefore m s.stop.relativeNs) :
    Dated m (L.emit rows) := by
  refine ⟨h.lanes, ?_, h.gaps⟩
  intro s hs
  rcases List.mem_append.mp hs with hs | hs
  · exact h.rows s hs
  · exact hrows s hs

theorem Dated.addGap (h : Dated m L) (t : ThreadId) (kind : GapKind) {a b : Option Nat} (x : Bool)
    (reason : String) (hab : kind ≠ .ringTruncation → NotBefore m a ∧ NotBefore m b) :
    Dated m (L.addGap t kind a b x reason) := by
  refine ⟨h.lanes, h.rows, ?_⟩
  intro g hg hkind
  rcases List.mem_append.mp hg with hg | hg
  · exact h.gaps g hg hkind
  · rw [List.mem_singleton.mp hg] at hkind ⊢
    rw [absTime_relativeNs, absTime_relativeNs]
    exact hab hkind

theorem Dated.takeSpanId (h : Dated m L) : Dated m L.takeSpanId := ⟨h.lanes, h.rows, h.gaps⟩

theorem spanOf_since {o : OpenSpan} {endAbs : Option Nat} (ho : NotBefore m o.startAbs)
    (hend : NotBefore m endAbs) (t : ThreadId) (ev : LocalId) (c : SpanCompleteness) :
    NotBefore m (spanOf t o endAbs ev c).start.relativeNs ∧
      NotBefore m (spanOf t o endAbs ev c).stop.relativeNs := by
  rw [spanOf, absTime_relativeNs, absTime_relativeNs]
  exact ⟨ho, hend⟩

theorem flushRows_since {stack : List OpenSpan} {endAbs : Option Nat}
    (hstack : ∀ o ∈ stack, NotBefore m o.startAbs) (hend : NotBefore m endAbs) (t : ThreadId)
    (c : SpanCompleteness → SpanCompleteness) :
    ∀ s ∈ flushRows t endAbs c stack, NotBefore m s.start.relativeNs ∧ NotBefore m s.stop.relativeNs := by
  intro s hs
  obtain ⟨o, ho, rfl⟩ := List.mem_map.mp hs
  exact spanOf_since (hstack o ho) hend ..

/-- A cut closes rows without an end; its gap has the ends it is given. -/
theorem Dated.cut (h : Dated m L) (hl : LaneSince m l) (k : Key) {p : Option PendingEnd}
    (hp : ∀ q, p = some q → l.pending = some q) (kind : GapKind) {a b : Option Nat} (x : Bool)
    (reason : String) (hab : kind ≠ .ringTruncation → NotBefore m a ∧ NotBefore m b) :
    Dated m (L.cut k l p kind a b x reason) := by
  apply Dated.addGap _ _ _ _ _ hab
  apply Dated.emit
  · exact h.setLane k ⟨fun o ho => absurd ho List.not_mem_nil, hl.last,
      fun q hq => hl.pending q (hp q hq)⟩
  · exact flushRows_since hl.frames (since_none m) _ _

theorem Dated.ensure (h : Dated m L) (k : Key) : Dated m (L.ensure k) := by
  unfold Ledger.ensure
  split
  next => exact h
  next =>
    have hfresh : LaneSince m (L.fresh k) :=
      ⟨fun o ho => absurd ho List.not_mem_nil, since_none m, fun q hq => by cases hq⟩
    have hset := h.setLane k hfresh
    exact ⟨hset.lanes, hset.rows, hset.gaps⟩

theorem Dated.retire (h : Dated m L) (hl : L.lanes k = some l) {endAbs : Option Nat}
    (hend : NotBefore m endAbs) : Dated m (L.retire k l endAbs) := by
  refine ⟨?_, (h.emit (flushRows_since (h.lanes k l hl).frames hend _ _)).rows, h.gaps⟩
  intro k' l' hl'
  by_cases hk : k' = k
  · subst hk
    have hnone : (L.retire k' l endAbs).lanes k' = none := Function.update_self ..
    rw [hnone] at hl'
    cases hl'
  · have hkept : (L.retire k l endAbs).lanes k' = L.lanes k' := Function.update_of_ne hk ..
    exact h.lanes k' l' (hkept ▸ hl')

theorem Dated.close (h : Dated m L) (hl : L.lanes k = some l) : Dated m (L.close k l) := by
  have hlane := h.lanes k l hl
  apply Dated.emit
  · exact h.setLane k ⟨fun o ho => absurd ho List.not_mem_nil, hlane.last, fun q hq => by cases hq⟩
  · exact flushRows_since hlane.frames (since_none m) _ _

/-! ### Moves and actions -/

theorem nameTop_since {f : LocalId} {stack : List OpenSpan}
    (h : ∀ o ∈ stack, NotBefore m o.startAbs) : ∀ o ∈ nameTop f stack, NotBefore m o.startAbs := by
  cases stack with
  | nil => exact h
  | cons top rest =>
    rw [nameTop, List.forall_mem_cons]
    exact List.forall_mem_cons.mp h

/-- Every move writes times that were there, or the current one. -/
theorem Move.dated (h : Move k now L L') (hD : Dated m L) (hnow : NotBefore m now) : Dated m L' := by
  cases h with
  | @enter l o hl ho =>
    have hlane := hD.lanes k l hl
    have hstart : NotBefore m o.startAbs := ho.start_eq ▸ hnow
    have hframes : ∀ p ∈ o :: l.stack, NotBefore m p.startAbs :=
      List.forall_mem_cons.mpr ⟨hstart, hlane.frames⟩
    apply Dated.takeSpanId
    exact hD.setLane k ⟨hframes, hlane.last, hlane.pending⟩
  | @leave l o rest ev c hl hstack =>
    have hlane := hD.lanes k l hl
    have hframes := List.forall_mem_cons.mp (hstack ▸ hlane.frames)
    apply Dated.emit
    · exact hD.setLane k ⟨hframes.2, hlane.last, hlane.pending⟩
    · exact List.forall_mem_singleton.mpr (spanOf_since hframes.1 hnow ..)
  | @tail l o n rest ev hl hstack hn =>
    have hlane := hD.lanes k l hl
    have hframes := List.forall_mem_cons.mp (hstack ▸ hlane.frames)
    have hstart : NotBefore m n.startAbs := hn.start_eq ▸ hnow
    have hframes' : ∀ p ∈ n :: rest, NotBefore m p.startAbs :=
      List.forall_mem_cons.mpr ⟨hstart, hframes.2⟩
    apply Dated.takeSpanId
    apply Dated.emit
    · exact hD.setLane k ⟨hframes', hlane.last, hlane.pending⟩
    · exact List.forall_mem_singleton.mpr (spanOf_since hframes.1 hnow ..)
  -- an orphan has no start of its own, only the time it returned at
  | @orphan l s hl hstack hid hthread hparent hstart hstop hcomp =>
    have hlane := hD.lanes k l hl
    apply Dated.takeSpanId
    apply Dated.emit
    · exact hD.setLane k ⟨hlane.frames, hlane.last, hlane.pending⟩
    · refine List.forall_mem_singleton.mpr ⟨?_, ?_⟩
      · rw [hstart]
        exact since_none m
      · rw [hstop, absTime_relativeNs]
        exact hnow
  | @rename l f hl htop =>
    have hlane := hD.lanes k l hl
    exact hD.setLane k ⟨nameTop_since hlane.frames, hlane.last, hlane.pending⟩
  | @arm l p hl hp =>
    have hlane := hD.lanes k l hl
    refine hD.setLane k ⟨hlane.frames, hlane.last, ?_⟩
    intro q hq
    cases hq
    exact hp ▸ hnow
  | @divert l reason hl =>
    exact hD.cut (hD.lanes k l hl) k (fun _ hq => hq) _ _ _ fun _ => ⟨hnow, since_none m⟩
  | @lose l p reason hl hp =>
    have hlane := hD.lanes k l hl
    exact hD.cut hlane k (fun q hq => by cases hq) _ _ _ fun _ => ⟨hlane.pending p hp, hnow⟩
  -- nothing is asked of the ends of a hole
  | @hole l p stop known reason hl hp hx =>
    exact hD.cut (hD.lanes k l hl) k (fun q hq => by cases hq) _ _ _ fun hkind => absurd rfl hkind
  | @resume l p hl hp =>
    have hlane := hD.lanes k l hl
    apply Dated.addGap
    · exact hD.setLane k ⟨hlane.frames, hlane.last, fun q hq => by cases hq⟩
    · exact fun _ => ⟨hlane.pending p hp, hnow⟩
  | @resumeIn l p o hl hp hstack ho =>
    have hlane := hD.lanes k l hl
    have hstart : NotBefore m o.startAbs := by
      rw [ho.start_eq]
      -- the frame starts where the gap did, if that is known
      cases habs : p.abs with
      | none => exact hnow
      | some a =>
        rw [Option.some_or]
        exact habs ▸ hlane.pending p hp
    apply Dated.takeSpanId
    apply Dated.addGap
    · exact hD.setLane k ⟨List.forall_mem_singleton.mpr hstart, hlane.last, fun q hq => by cases hq⟩
    · exact fun _ => ⟨hlane.pending p hp, hnow⟩

/-- A record writes times that were there, or its own. -/
theorem Action.dated {rec : RawRecord} (h : Action rec L L') (hD : Dated m L)
    (ht : NotBefore m (notedTime rec)) : Dated m L' := by
  cases h with
  | @sample _ _ s l₀ l h₀ hl hmoves =>
    have hensure := hD.ensure (s.pid, s.tid)
    have hlane₀ := hensure.lanes _ _ h₀
    have hcheck : Dated m ((L.ensure (s.pid, s.tid)).checkRegression (s.pid, s.tid) l₀ s.timeNs) := by
      unfold checkRegression
      split
      next => exact hensure.cut hlane₀ _ (fun _ hq => hq) _ _ _ fun _ => ⟨hlane₀.last, ht⟩
      next => exact hensure
    have hlane := hcheck.lanes _ _ hl
    have hlast : NotBefore m (s.timeNs.or l.lastAbs) := by
      cases htime : s.timeNs with
      | none => exact hlane.last
      | some t =>
        rw [Option.some_or]
        exact htime ▸ ht
    have hnoted := hcheck.setLane (s.pid, s.tid)
      (show LaneSince m { l with lastAbs := s.timeNs.or l.lastAbs } from
        ⟨hlane.frames, hlast, hlane.pending⟩)
    exact reflTransGen_invariant (P := Dated m) (fun _ _ hmove hD => hmove.dated hD ht) hmoves
      hnoted
  | @error _ e pid tid l hpid htid hl =>
    have hensure := hD.ensure (pid, tid)
    exact hensure.cut (hensure.lanes _ _ hl) _ (fun _ hq => hq) _ _ _
      fun _ => ⟨ht, since_none m⟩
  | strayError h => exact hD.addGap _ _ _ _ fun _ => ⟨ht, since_none m⟩
  | lost =>
    have hloss : Dated m L.noteLoss := ⟨hD.lanes, hD.rows, hD.gaps⟩
    exact hloss.addGap _ _ _ _ fun _ => ⟨since_none m, since_none m⟩
  | exit hkind hl => exact hD.retire hl ht
  | silent h => exact hD

end Ledger

/-! ## The times of the chart -/

open Reconstructor

/-- No event and no ring hole is dated before `m`. -/
structure Chart.Dated (m : Option Nat) (C : Chart) : Prop where
  events : ∀ e ∈ C.events, NotBefore m e.time.relativeNs
  holes : ∀ h ∈ C.holes, NotBefore m h.start ∧ NotBefore m h.stop

section Chart

variable {m t : Option Nat} {C : Chart} {k : Key} {r r' : Reconstructor} {rec : RawRecord}

theorem Chart.Dated.noted (h : C.Dated m) (t : Option Nat) : C.Dated (noted m t) :=
  ⟨fun e he => (h.events e he).noted t, fun g hg => ⟨(h.holes g hg).1.noted t,
    (h.holes g hg).2.noted t⟩⟩

/-- Noting a time, or changing threads, leaves events and holes alone. -/
theorem Chart.Dated.of_rows {C' : Chart} (h : C.Dated m) (he : C'.events = C.events)
    (hh : C'.holes = C.holes) : C'.Dated m :=
  ⟨he ▸ h.events, hh ▸ h.holes⟩

theorem note_rows (C : Chart) (t : Option Nat) :
    (C.note t).events = C.events ∧ (C.note t).holes = C.holes := by
  unfold Chart.note
  split
  · split <;> exact ⟨rfl, rfl⟩
  · exact ⟨rfl, rfl⟩

theorem ensure_rows (C : Chart) (k : Key) (id : ThreadId) :
    (C.ensure k id).earliest = C.earliest ∧ (C.ensure k id).events = C.events ∧
      (C.ensure k id).holes = C.holes := by
  unfold Chart.ensure
  split <;> exact ⟨rfl, rfl, rfl⟩

theorem modCover_rows (C : Chart) (k : Key) (f : Cover → Cover) :
    (C.modCover k f).earliest = C.earliest ∧ (C.modCover k f).events = C.events ∧
      (C.modCover k f).holes = C.holes := by
  unfold Chart.modCover
  split <;> exact ⟨rfl, rfl, rfl⟩

theorem retire_rows (C : Chart) (k : Key) :
    (C.retire k).earliest = C.earliest ∧ (C.retire k).events = C.events ∧
      (C.retire k).holes = C.holes := by
  unfold Chart.retire
  split <;> exact ⟨rfl, rfl, rfl⟩

/-- No record leaves span rows in memory while rows are spilled. -/
theorem Charted.stale (h : Charted r rec C) : C.stale = (chart r).stale := by
  have hnote : ∀ (C : Chart) (t : Option Nat), (C.note t).stale = C.stale := by
    intro C t
    unfold Chart.note
    split
    · split <;> rfl
    · rfl
  have hensure : ∀ (C : Chart) (k : Key) (id : ThreadId), (C.ensure k id).stale = C.stale := by
    intro C k id
    unfold Chart.ensure
    split <;> rfl
  have hcover : ∀ (C : Chart) (k : Key) (f : Cover → Cover), (C.modCover k f).stale = C.stale := by
    intro C k f
    unfold Chart.modCover
    split <;> rfl
  cases h with
  | @sample s rows hrows =>
    unfold Chart.cross Chart.addHole
    split
    · split
      · show (Chart.modCover _ _ _).stale = _
        rw [hcover]
        show (Chart.modCover _ _ _).stale = _
        rw [hcover, hensure, hnote]
      · show (Chart.modCover _ _ _).stale = _
        rw [hcover, hensure, hnote]
    · show (Chart.modCover _ _ _).stale = _
      rw [hcover, hensure, hnote]
  | error => rw [hensure, hnote]
  | exit =>
    unfold Chart.retire
    split <;> exact hnote ..
  | quiet => exact hnote ..

theorem cross_earliest (C : Chart) (k : Key) (now stop : Option Nat) (p : Option PendingEnd) :
    (C.cross k now stop p).earliest = C.earliest := by
  unfold Chart.cross Chart.addHole
  split
  · split
    · exact (modCover_rows ..).1
    · rfl
  · rfl

/-- The earliest time after a record. -/
theorem Charted.earliest (h : Charted r rec C) :
    C.earliest = Decode.noted r.minAbs (notedTime rec) := by
  cases h with
  | sample rows hrows =>
    rw [cross_earliest]
    show (Chart.modCover _ _ _).earliest = _
    rw [(modCover_rows ..).1, (ensure_rows ..).1, note_earliest]
    rfl
  | error =>
    rw [(ensure_rows ..).1, note_earliest]
    rfl
  | exit =>
    rw [(retire_rows ..).1, note_earliest]
    rfl
  | quiet => exact note_earliest ..

/-- A crossing resumes from the trace end of the thread's lane. -/
theorem crossing_pending {s : Sample} {p : PendingEnd} (h : r.crossing s = some p) :
    ∃ l, (ledger r).lanes (s.pid, s.tid) = some l ∧ l.pending = some p ∧
      ringHole p s.cpu (r.ringStart s) = true := by
  obtain ⟨hp, hhole⟩ := Option.filter_eq_some_iff.mp h
  cases hlane : (ledger r).lanes (s.pid, s.tid) with
  | none =>
    rw [stateOf, lanes_ledger_none.mp hlane] at hp
    cases hp
  | some l => exact ⟨l, rfl, (stateOf_pendingEnd hlane).symm.trans hp, hhole⟩

/-- A hole ends after it begins, or with the sample behind it. -/
theorem hole_stop_since {p : PendingEnd} {cpu stop now : Option Nat}
    (h : ringHole p cpu stop = true) (hp : NotBefore m p.abs) (hnow : NotBefore m now) :
    NotBefore m (stop.or now) := by
  cases stop with
  | none => exact hnow
  | some first =>
    cases habs : p.abs with
    | none => simp [ringHole, habs] at h
    | some left =>
      simp only [ringHole, habs, Bool.and_eq_true, decide_eq_true_eq] at h
      obtain ⟨o, ho, hle⟩ := hp left habs
      intro x hx
      rw [Option.some_or] at hx
      cases hx
      exact ⟨o, ho, by omega⟩

theorem cross_dated (hC : C.Dated m) {now stop : Option Nat} {p : Option PendingEnd}
    (hp : ∀ q, p = some q → NotBefore m q.abs ∧ NotBefore m (stop.or now)) :
    (C.cross k now stop p).Dated m := by
  unfold Chart.cross Chart.addHole
  split
  next q =>
    split
    next c hc =>
      have hrows := modCover_rows C k (Cover.cut q.abs now)
      refine ⟨?_, ?_⟩
      · show ∀ e ∈ (C.modCover k (Cover.cut q.abs now)).events, _
        rw [hrows.2.1]
        exact hC.events
      · intro g hg
        rcases List.mem_append.mp hg with hg | hg
        · exact hC.holes g hg
        · rw [List.mem_singleton.mp hg]
          exact hp q rfl
    next => exact hC
  next => exact hC

/-- A record writes event and hole times that were there, or its own. -/
theorem Charted.dated (h : Charted r rec C) (hC : (chart r).Dated m)
    (hL : Ledger.Dated m (ledger r)) (ht : NotBefore m (notedTime rec)) : C.Dated m := by
  have hnote : ((chart r).note (notedTime rec)).Dated m :=
    hC.of_rows (note_rows ..).1 (note_rows ..).2
  cases h with
  | @sample s rows hrows =>
    apply cross_dated
    · have hcover := (hnote.of_rows (ensure_rows _ (s.pid, s.tid) (r.threadIds.id s.pid s.tid)).2.1
        (ensure_rows ..).2.2).of_rows
          (modCover_rows _ (s.pid, s.tid) (Cover.extend s.timeNs)).2.1 (modCover_rows ..).2.2
      refine ⟨?_, hcover.holes⟩
      intro e he
      rcases List.mem_append.mp he with he | he
      · exact hcover.events e he
      · rw [hrows e he, absTime_relativeNs]
        exact ht
    · intro p hp
      obtain ⟨l, hl, hpending, hhole⟩ := crossing_pending hp
      have habs := (hL.lanes _ _ hl).pending p hpending
      exact ⟨habs, hole_stop_since hhole habs ht⟩
  | error => exact hnote.of_rows (ensure_rows ..).2.1 (ensure_rows ..).2.2
  | exit => exact hnote.of_rows (retire_rows ..).2.1 (retire_rows ..).2.2
  | quiet => exact hnote

end Chart

/-! ## Runs -/

/-- A time stored in an event, a span or a gap. -/
inductive Stored (r : Reconstructor) : EventTime → Prop
  | event {e : FlowEvent} : e ∈ eventRows r → Stored r e.time
  | spanStart {s : FunctionSpan} : s ∈ r.spans ∨ s ∈ spanRows r → Stored r s.start
  | spanStop {s : FunctionSpan} : s ∈ r.spans ∨ s ∈ spanRows r → Stored r s.stop
  | gapStart {g : GapRecord} : g ∈ r.gaps → Stored r g.start
  | gapStop {g : GapRecord} : g ∈ r.gaps → Stored r g.stop

/-- What is stored was noted first. -/
structure NotedFirst (r : Reconstructor) : Prop where
  ledger : Ledger.Dated r.minAbs (ledger r)
  chart : (chart r).Dated r.minAbs
  stale : staleSpans r = []

variable {r r' : Reconstructor}

theorem Built.notedFirst (h : Built r) : NotedFirst r := by
  refine ⟨?_, ?_, congrArg Chart.stale h.chart⟩
  · rw [h.ledger]
    refine ⟨?_, fun s hs => absurd hs List.not_mem_nil, fun g hg => absurd hg List.not_mem_nil⟩
    intro k l hl
    cases hl
  · rw [h.chart]
    exact ⟨fun e he => absurd he List.not_mem_nil, fun g hg => absurd hg List.not_mem_nil⟩

/-- The earliest time after a record. -/
theorem push_earliest {rec : RawRecord} (h : r.push rec = .ok r') :
    r'.minAbs = if r.drops rec then r.minAbs else noted r.minAbs (notedTime rec) := by
  have hchart := push_chart h
  split at hchart
  next hdrop =>
    rw [if_pos hdrop]
    exact congrArg Chart.earliest hchart
  next hdrop =>
    rw [if_neg hdrop]
    have hmin : (r.noteCpuFirst rec).minAbs = r.minAbs :=
      congrArg Chart.earliest (noteCpuFirst_chart rec)
    show (chart r').earliest = _
    rw [hchart.earliest, hmin]

theorem push_notedFirst {rec : RawRecord} (hpos : ∀ x, notedTime rec = some x → 0 < x)
    (h : r.push rec = .ok r') (hN : NotedFirst r) : NotedFirst r' := by
  have hledger := push_ledger h
  have hchart := push_chart h
  split at hledger
  next hdrop =>
    rw [if_pos hdrop] at hchart
    have habs := push_earliest h
    rw [if_pos hdrop] at habs
    exact ⟨by rw [habs, hledger]; exact hN.ledger, by rw [habs, hchart]; exact hN.chart,
      (congrArg Chart.stale hchart).trans hN.stale⟩
  next hdrop =>
    rw [if_neg hdrop] at hchart
    have hcpu := noteCpuFirst_chart (r := r) rec
    have habs := push_earliest h
    rw [if_neg hdrop] at habs
    have hsince : NotBefore r'.minAbs (notedTime rec) := habs ▸ since_noted _ hpos
    refine ⟨?_, ?_, ?_⟩
    · exact hledger.dated (habs ▸ hN.ledger.noted _) hsince
    · apply hchart.dated
      · rw [hcpu]
        exact habs ▸ hN.chart.noted _
      · rw [noteCpuFirst_ledger]
        exact habs ▸ hN.ledger.noted _
      · exact hsince
    · show (chart r').stale = []
      rw [hchart.stale, hcpu]
      exact hN.stale

theorem closeAll_notedFirst (hN : NotedFirst r) :
    r.closeAll.minAbs = r.minAbs ∧ NotedFirst r.closeAll := by
  have hchart := closeAll_chart (r := r)
  have habs : r.closeAll.minAbs = r.minAbs := congrArg Chart.earliest hchart
  refine ⟨habs, ?_, ?_, ?_⟩
  · rw [habs]
    exact closeAll_invariant (P := Ledger.Dated r.minAbs) (fun L k l hl hD => hD.close hl) hN.ledger
  · rw [habs, hchart]
    exact hN.chart
  · exact (congrArg Chart.stale hchart).trans hN.stale

theorem NotedFirst.stored (hN : NotedFirst r) {t : EventTime} (ht : Stored r t) :
    NotBefore r.minAbs t.relativeNs := by
  -- Resident spans are rows, or there are none of them.
  have hspans : ∀ s, s ∈ r.spans ∨ s ∈ spanRows r → s ∈ spanRows r := by
    intro s hs
    rcases hs with hs | hs
    · have hstale := hN.stale
      cases hsp : r.spill with
      | none =>
        rw [spanRows, hsp]
        exact hs
      | some sp =>
        rw [staleSpans, hsp] at hstale
        rw [show r.spans = [] from hstale] at hs
        cases hs
    · exact hs
  -- A gap is a ring hole or not.
  have hgaps : ∀ g ∈ r.gaps, NotBefore r.minAbs g.start.relativeNs ∧ NotBefore r.minAbs g.stop.relativeNs := by
    intro g hg
    by_cases hkind : g.kind = .ringTruncation
    · refine hN.chart.holes (holeOf g) (List.mem_map_of_mem ?_)
      exact List.mem_filter.mpr ⟨hg, decide_eq_true hkind⟩
    · exact hN.ledger.gaps g hg hkind
  cases ht with
  | event he => exact hN.chart.events _ he
  | spanStart hs => exact (hN.ledger.rows _ (hspans _ hs)).1
  | spanStop hs => exact (hN.ledger.rows _ (hspans _ hs)).2
  | gapStart hg => exact (hgaps _ hg).1
  | gapStop hg => exact (hgaps _ hg).2

/-! ## Rebasing -/

theorem rebase_total {t : EventTime} {origin : Nat} (h : NotBefore (some origin) t.relativeNs) :
    ∃ t', rebase t origin = .ok t' := by
  unfold rebase
  split
  next => exact ⟨t, rfl⟩
  next abs habs =>
    obtain ⟨o, ho, hle⟩ := h abs habs
    cases ho
    rw [checkedSub, if_pos hle]
    exact ⟨_, rfl⟩

theorem rebaseEvent_total {e : FlowEvent} {origin : Nat}
    (h : NotBefore (some origin) e.time.relativeNs) : ∃ e', rebaseEvent origin e = .ok e' := by
  obtain ⟨t, ht⟩ := rebase_total h
  rw [rebaseEvent, ht]
  exact ⟨_, rfl⟩

theorem rebaseSpan_total {s : FunctionSpan} {origin : Nat}
    (hstart : NotBefore (some origin) s.start.relativeNs)
    (hstop : NotBefore (some origin) s.stop.relativeNs) : ∃ s', rebaseSpan origin s = .ok s' := by
  obtain ⟨a, ha⟩ := rebase_total hstart
  obtain ⟨b, hb⟩ := rebase_total hstop
  rw [rebaseSpan, ha, ok_bind, hb]
  exact ⟨_, rfl⟩

theorem rebaseGap_total {g : GapRecord} {origin : Nat}
    (hstart : NotBefore (some origin) g.start.relativeNs)
    (hstop : NotBefore (some origin) g.stop.relativeNs) : ∃ g', rebaseGap origin g = .ok g' := by
  obtain ⟨a, ha⟩ := rebase_total hstart
  obtain ⟨b, hb⟩ := rebase_total hstop
  rw [rebaseGap, ha, ok_bind, hb]
  exact ⟨_, rfl⟩

/-- The origin is the earliest time. -/
theorem origin_eq {o : Nat} : r.origin = .ok o ↔ r.minAbs = some o := by
  unfold Reconstructor.origin
  split
  next t ht => rw [ht, Except.ok.injEq, Option.some.injEq]
  next hnone => simp [hnone]

/-- Once there is an origin, only the budget of the spilled rows can fail. -/
theorem finish_error {e : Error} (hN : NotedFirst r) (h : r.finish = .error e) :
    r.origin = .error e ∨ ∃ sp, r.closeAll.spill = some sp ∧ spillCheck sp = .error e := by
  obtain ⟨habs, hclosed⟩ := closeAll_notedFirst hN
  unfold finish at h
  cases horigin : r.origin with
  | error e' =>
    rw [horigin, error_bind] at h
    cases h
    exact Or.inl rfl
  | ok origin =>
    refine Or.inr ?_
    have hmin := origin_eq.mp horigin
    have hstored : ∀ t, Stored r.closeAll t → NotBefore (some origin) t.relativeNs := by
      intro t ht
      rw [← hmin, ← habs]
      exact hclosed.stored ht
    rw [horigin, ok_bind] at h
    dsimp only at h
    generalize r.closeAll = c at h hstored ⊢
    -- every stored time is at least the origin, so no row can fail to be rebased
    obtain ⟨events, hevents⟩ : ∃ ys, c.events.mapM (rebaseEvent origin) = .ok ys :=
      mapM_total fun e he => rebaseEvent_total (hstored _ (.event (List.mem_append_left _ he)))
    obtain ⟨spans, hspans⟩ : ∃ ys, c.spans.mapM (rebaseSpan origin) = .ok ys :=
      mapM_total fun s hs => rebaseSpan_total (hstored _ (.spanStart (.inl hs)))
        (hstored _ (.spanStop (.inl hs)))
    obtain ⟨gaps, hgaps⟩ : ∃ ys, c.gaps.mapM (rebaseGap origin) = .ok ys :=
      mapM_total fun g hg => rebaseGap_total (hstored _ (.gapStart hg)) (hstored _ (.gapStop hg))
    rw [hevents, ok_bind, hspans, ok_bind, hgaps] at h
    unfold finishSpill at h
    cases hsp : c.spill with
    | none =>
      rw [hsp] at h
      cases h
    | some sp =>
      refine ⟨sp, rfl, ?_⟩
      have hrows : ∀ s ∈ sp.spans, s ∈ spanRows c := by
        intro s hs
        rw [spanRows, hsp]
        exact hs
      have hrows' : ∀ e ∈ sp.events, e ∈ eventRows c := by
        intro e he
        rw [eventRows, hsp]
        exact List.mem_append_right _ he
      obtain ⟨evs, hevs⟩ : ∃ ys, sp.events.mapM (rebaseEvent origin) = .ok ys :=
        mapM_total fun e he => rebaseEvent_total (hstored _ (.event (hrows' e he)))
      obtain ⟨sps, hsps⟩ : ∃ ys, sp.spans.mapM (rebaseSpan origin) = .ok ys :=
        mapM_total fun s hs => rebaseSpan_total (hstored _ (.spanStart (.inr (hrows s hs))))
          (hstored _ (.spanStop (.inr (hrows s hs))))
      cases hcheck : spillCheck sp with
      | error e' =>
        rw [hsp] at h
        dsimp only at h
        rw [hcheck, error_bind, error_bind] at h
        cases h
        rfl
      | ok _ =>
        rw [hsp] at h
        dsimp only at h
        rw [hcheck, ok_bind, hevs, ok_bind, hsps] at h
        cases h

/-- The message of a failed rebase. -/
def precedes (abs origin : Nat) : Error :=
  .decodeFailed s!"timestamp {abs} precedes snapshot origin {origin}"

theorem origin_ne_precedes (r : Reconstructor) (abs origin : Nat) :
    r.origin ≠ .error (precedes abs origin) := by
  intro h
  unfold Reconstructor.origin at h
  split at h
  next => cases h
  next =>
    have hreason := congrArg Error.reason (Except.error.inj h)
    have hhead := congrArg (fun s : String => s.toList.head?) hreason
    have hfirst : (toString "timestamp ").toList.head? = some 't' := by decide
    simp [precedes, Error.decodeFailed, Error.new, hfirst] at hhead

theorem spillCheck_ne_precedes (sp : Spill) (abs origin : Nat) :
    spillCheck sp ≠ .error (precedes abs origin) := by
  intro h
  unfold spillCheck at h
  split at h
  next =>
    have hcode := congrArg Error.code (Except.error.inj h)
    cases hcode
  next => cases h

/-- Whatever the order of the records, with or without a filter: as long as
given times are positive, no stored time precedes the earliest time noted, in
any state reached or after the open frames are closed, and `finish` fails only
for want of an origin or over the budget of the spilled rows. -/
theorem finish_rebases {r₀ r : Reconstructor} {recs : List RawRecord} (h₀ : Built r₀)
    (hpos : ∀ rec ∈ recs, ∀ t, notedTime rec = some t → 0 < t) (h : r₀.pushAll recs = .ok r) :
    (∀ t, Stored r t ∨ Stored r.closeAll t → NotBefore r.minAbs t.relativeNs) ∧
      (∀ abs origin, r.finish ≠ .error (precedes abs origin)) ∧
      ∀ e, r.finish = .error e →
        (r.minAbs = none ∧ r.origin = .error e) ∨
          ∃ sp, r.closeAll.spill = some sp ∧ spillCheck sp = .error e := by
  have hN : NotedFirst r := by
    refine foldlM_invariant (P := NotedFirst) ?_ h₀.notedFirst h
    exact fun rec hrec _ _ hN hpush => push_notedFirst (hpos rec hrec) hpush hN
  obtain ⟨habs, hclosed⟩ := closeAll_notedFirst hN
  refine ⟨?_, ?_, ?_⟩
  · intro t ht
    rcases ht with ht | ht
    · exact hN.stored ht
    · exact habs ▸ hclosed.stored ht
  · intro abs origin herr
    rcases finish_error hN herr with horigin | ⟨sp, -, hcheck⟩
    · exact origin_ne_precedes r abs origin horigin
    · exact spillCheck_ne_precedes sp abs origin hcheck
  · intro e he
    rcases finish_error hN he with horigin | hspill
    · refine Or.inl ⟨?_, horigin⟩
      unfold Reconstructor.origin at horigin
      split at horigin
      next => cases horigin
      next hnone => exact hnone
    · exact Or.inr hspill

/-- A thread ends its trace, and resumes on a CPU whose ring another task
began later, dated before both. -/
def crossedRings : List RawRecord :=
  [.sample ⟨9, 9, some 1, some 150, .branches, some 1, some 2, .CALL, none, .empty⟩,
    .sample ⟨7, 1, some 0, some 100, .branches, some 1, some 2, .TR_END, none, .empty⟩,
    .sample ⟨7, 1, some 1, some 50, .branches, some 1, some 2, .CALL, none, .empty⟩]

theorem finish_rebases_crossedRings : ∃ r, bare.pushAll crossedRings = .ok r ∧
    (∀ t, Stored r t ∨ Stored r.closeAll t → NotBefore r.minAbs t.relativeNs) ∧
      (∀ abs origin, r.finish ≠ .error (precedes abs origin)) ∧
      ∀ e, r.finish = .error e →
        (r.minAbs = none ∧ r.origin = .error e) ∨
          ∃ sp, r.closeAll.spill = some sp ∧ spillCheck sp = .error e := by
  obtain ⟨r, hr, -⟩ := ok_of_any (x := bare.pushAll crossedRings) (p := fun _ => true) (by decide)
  refine ⟨r, hr, finish_rebases (.new ..) ?_ hr⟩
  intro rec hrec t ht
  simp only [crossedRings, List.mem_cons, List.not_mem_nil, or_false] at hrec
  rcases hrec with rfl | rfl | rfl <;> cases ht <;> decide

end TraceMcp.Decode
