import TraceMcp.Decode.Instants
import TraceMcp.Decode.Intervals

/-!
# Where spans start

In a stream whose samples are timed and never go back on their thread
(`Steady`), a frame is opened no earlier than the frame below it: at the
sample's own time, or, with nothing below it, at the trace end it resumes
after. So every row whose parent is known starts with it or after it
(`finish_begins`), whether or not either of them ever ended.
-/

namespace TraceMcp.Decode

open TraceMcp.Lib

/-- Both are known, and `a` is not after `b`. -/
def NotAfter (a b : Option Nat) : Prop := ∃ x y, a = some x ∧ b = some y ∧ x ≤ y

theorem notAfter_self {a : Option Nat} {t : Nat} (h : a = some t) : NotAfter a a :=
  ⟨t, t, h, h, Nat.le_refl t⟩

namespace Ledger

/-- The span with id `p`, open or closed, starts at `a`. -/
def Begun (L : Ledger) (p : LocalId) (a : Option Nat) : Prop :=
  (∃ s ∈ L.spans, s.id = p ∧ s.start.relativeNs = a) ∨
    ∃ k l, L.lanes k = some l ∧ (p, a) ∈ frameTimes l.stack

/-- Frames start in order and by the last time, and rows with their parent or
after it. -/
structure Begins (L : Ledger) : Prop where
  starts : ∀ k l, L.lanes k = some l → ∀ f ∈ frameTimes l.stack, NotAfter f.2 l.lastAbs
  nested : ∀ k l, L.lanes k = some l →
    (frameTimes l.stack).Pairwise fun f g => NotAfter g.2 f.2
  pending : ∀ k l, L.lanes k = some l → ∀ p, l.pending = some p → NotAfter p.abs l.lastAbs
  rows : ∀ s ∈ L.spans, ∀ p, s.parent = some p →
    ∃ a, L.Begun p a ∧ NotAfter a s.start.relativeNs

variable {k : Key} {now : Option Nat} {L L' : Ledger} {l l' : Lane}

/-- A frame's parent is the frame below it, which started no later. -/
theorem parent_begun {stack : List OpenSpan} (hc : Chained stack)
    (hn : (frameTimes stack).Pairwise fun f g => NotAfter g.2 f.2) :
    ∀ o ∈ stack, ∀ p, o.parent = some p →
      ∃ a, (p, a) ∈ frameTimes stack ∧ NotAfter a o.startAbs := by
  induction stack with
  | nil => exact fun o ho => absurd ho List.not_mem_nil
  | cons top rest ih =>
    intro o ho p hp
    have hn' := List.pairwise_cons.mp hn
    rcases List.mem_cons.mp ho with rfl | ho
    · cases rest with
      | nil => rw [hc.1] at hp; cases hp
      | cons below rest =>
        have hbelow : some below.id = some p := hc.1.symm.trans hp
        obtain rfl := Option.some.inj hbelow
        exact ⟨below.startAbs, List.mem_cons_of_mem _ List.mem_cons_self,
          hn'.1 _ List.mem_cons_self⟩
    · obtain ⟨a, hmem, hle⟩ := ih hc.2 hn'.2 o ho p hp
      exact ⟨a, List.mem_cons_of_mem _ hmem, hle⟩

/-- What has begun keeps its start through a write to a lane. -/
theorem Shift.begun (h : Shift k now L L' l l') {p : LocalId} {a : Option Nat}
    (hp : L.Begun p a) : L'.Begun p a := by
  obtain ⟨rows, hspans, -⟩ := h.rows
  rcases hp with ⟨s, hs, hid, hstart⟩ | ⟨k', m, hm, hmem⟩
  · exact Or.inl ⟨s, hspans ▸ List.mem_append_left _ hs, hid, hstart⟩
  · by_cases hk : k' = k
    · subst hk
      obtain rfl := Option.some.inj (h.lane.symm.trans hm)
      obtain ⟨o, ho, heq⟩ := List.mem_map.mp hmem
      obtain ⟨rfl, rfl⟩ := Prod.mk.inj heq
      rcases h.stays o ho with ⟨o', ho', hsame⟩ | ⟨s, hs, hrow, -⟩
      · refine Or.inr ⟨k', l', h.lane_self, ?_⟩
        rw [← hsame.id_eq, ← hsame.start_eq]
        exact mem_frameTimes ho'
      · refine Or.inl ⟨s, hs, hrow.id_eq, ?_⟩
        rw [hrow.start_eq, absTime_relativeNs]
    · exact Or.inr ⟨k', m, by rw [h.lane_ne hk, hm], hmem⟩

/-- The write is at the thread's last time, or leaves nothing open. -/
def Stamped (l l' : Lane) (now : Option Nat) : Prop :=
  (∃ t, now = some t ∧ l.lastAbs = some t) ∨
    (l'.stack = [] ∧ ∀ p, l'.pending = some p → l.pending = some p)

theorem Timing.begins {popped kept : List OpenSpan} {pushed : Option OpenSpan}
    {rows : List FunctionSpan} {gaps : List GapRecord} {endAbs now' : Option Nat}
    (T : Timing k now L L' l l' popped kept pushed rows gaps endAbs)
    (hshift : Shift k now' L L' l l') (hF : Forest L) (hB : Begins L) (hw : Stamped l l' now) :
    Begins L' := by
  refine ⟨?_, ?_, ?_, ?_⟩
  · intro k' m hm f hf
    by_cases hk : k' = k
    · subst hk
      obtain rfl := Option.some.inj (T.lane'.symm.trans hm)
      rw [T.lastAbs]
      rcases hw with ⟨t, hnow, hlast⟩ | ⟨hempty, -⟩
      · -- a frame of the lane was pushed by this move, or was there
        rcases T.frame_cases hf with ⟨o, ho, rfl⟩ | hkept
        · rcases T.pushed_start o ho with hstart | ⟨-, p, hp, hstart⟩
          · show NotAfter o.startAbs l.lastAbs
            rw [hstart, hnow, ← hlast]
            exact notAfter_self hlast
          · show NotAfter o.startAbs l.lastAbs
            rw [hstart]
            exact hB.pending k' l T.lane p hp
        · exact hB.starts k' l T.lane f (T.kept_frames hkept)
      · rw [hempty] at hf
        cases hf
    · exact hB.starts k' m (T.lane_ne hk ▸ hm) f hf
  · intro k' m hm
    by_cases hk : k' = k
    · subst hk
      obtain rfl := Option.some.inj (T.lane'.symm.trans hm)
      rcases hw with ⟨t, hnow, hlast⟩ | ⟨hempty, -⟩
      · have hall := hB.nested k' l T.lane
        rw [T.split, frameTimes_append] at hall
        have hkept := (List.pairwise_append.mp hall).2.1
        rw [T.frames, frameTimes_append]
        cases hpush : pushed with
        | none => exact hkept
        | some o =>
          refine List.pairwise_cons.mpr ⟨fun g hg => ?_, hkept⟩
          -- the new frame starts now, and what it was pushed on no later
          rcases T.pushed_start o hpush with hstart | ⟨hnil, -⟩
          · show NotAfter g.2 o.startAbs
            rw [hstart, hnow, ← hlast]
            exact hB.starts k' l T.lane g (T.kept_frames hg)
          · rw [hnil] at hg
            cases hg
      · rw [hempty]
        exact .nil
    · exact hB.nested k' m (T.lane_ne hk ▸ hm)
  · intro k' m hm p hp
    by_cases hk : k' = k
    · subst hk
      obtain rfl := Option.some.inj (T.lane'.symm.trans hm)
      rw [T.lastAbs]
      rcases hw with ⟨t, hnow, hlast⟩ | ⟨-, hpending⟩
      · rcases T.pending p hp with hold | habs
        · exact hB.pending k' l T.lane p hold
        · rw [habs, hnow, ← hlast]
          exact notAfter_self hlast
      · exact hB.pending k' l T.lane p (hpending p hp)
    · exact hB.pending k' m (T.lane_ne hk ▸ hm) p hp
  · intro s hs p hp
    rw [T.spans] at hs
    rcases List.mem_append.mp hs with hs | hs
    · obtain ⟨a, hbegun, hle⟩ := hB.rows s hs p hp
      exact ⟨a, hshift.begun hbegun, hle⟩
    · -- an orphan has no parent; a closed frame has the one below it on the stack
      rcases T.rows_from s hs with horphan | ⟨o, ho, hclose⟩
      · rw [horphan.parent_eq] at hp
        cases hp
      · obtain ⟨a, hmem, hle⟩ := parent_begun (hF.chained k l T.lane) (hB.nested k l T.lane) o
          (T.mem_popped ho) p (hclose.parent_eq ▸ hp)
        refine ⟨a, hshift.begun (Or.inr ⟨k, l, T.lane, hmem⟩), ?_⟩
        rw [hclose.start_eq, absTime_relativeNs]
        exact hle

/-- A write that opens nothing: the lanes are new and idle, or have the frames
and the trace end they had, and at least the last time. -/
theorem Begins.of_lanes (hB : Begins L) (hspans : L'.spans = L.spans)
    (hlanes : ∀ k m, L'.lanes k = some m → (m.stack = [] ∧ m.pending = none) ∨
      ∃ l, L.lanes k = some l ∧ m.stack = l.stack ∧ m.pending = l.pending ∧
        ∀ a, NotAfter a l.lastAbs → NotAfter a m.lastAbs)
    (hbegun : ∀ p a, L.Begun p a → L'.Begun p a) : Begins L' := by
  refine ⟨?_, ?_, ?_, ?_⟩
  · intro k m hm f hf
    rcases hlanes k m hm with ⟨hidle, -⟩ | ⟨l, hl, hstack, -, hlast⟩
    · rw [hidle] at hf
      cases hf
    · exact hlast _ (hB.starts k l hl f (hstack ▸ hf))
  · intro k m hm
    rcases hlanes k m hm with ⟨hidle, -⟩ | ⟨l, hl, hstack, -, -⟩
    · rw [hidle]
      exact .nil
    · rw [hstack]
      exact hB.nested k l hl
  · intro k m hm p hp
    rcases hlanes k m hm with ⟨-, hnone⟩ | ⟨l, hl, -, hpending, hlast⟩
    · rw [hnone] at hp
      cases hp
    · exact hlast _ (hB.pending k l hl p (hpending ▸ hp))
  · intro s hs p hp
    obtain ⟨a, hbegan, hle⟩ := hB.rows s (hspans ▸ hs) p hp
    exact ⟨a, hbegun p a hbegan, hle⟩

theorem ensure_begins (hB : Begins L) (h : L.lanes k = none) : Begins (L.ensure k) := by
  have hspans : (L.ensure k).spans = L.spans := by rw [ensure_of_none h]; rfl
  refine hB.of_lanes hspans ?_ ?_
  · intro k' m hm
    by_cases hk : k' = k
    · subst hk
      obtain rfl := Option.some.inj ((ensure_lane h).symm.trans hm)
      exact Or.inl ⟨rfl, rfl⟩
    · exact Or.inr ⟨m, ensure_lanes_ne h hk ▸ hm, rfl, rfl, fun _ ha => ha⟩
  · rintro p a (⟨s, hs, hrow⟩ | ⟨k', m, hm, hmem⟩)
    · exact Or.inl ⟨s, hspans ▸ hs, hrow⟩
    · have hk : k' ≠ k := by
        rintro rfl
        rw [h] at hm
        cases hm
      exact Or.inr ⟨k', m, by rw [ensure_lanes_ne h hk, hm], hmem⟩

theorem noteTime_begins (hB : Begins L) (h : L.lanes k = some l) {t : Nat}
    (hreg : Reconstructor.regresses l.lastAbs (some t) = false) :
    Begins (L.setLane k { l with lastAbs := (some t).or l.lastAbs }) := by
  refine hB.of_lanes rfl ?_ ?_
  · intro k' m hm
    by_cases hk : k' = k
    · subst hk
      obtain rfl := Option.some.inj ((setLane_lanes_self ..).symm.trans hm)
      refine Or.inr ⟨l, h, rfl, rfl, fun a ha => ?_⟩
      obtain ⟨x, y, hx, hy, hle⟩ := ha
      rw [hy, Reconstructor.regresses, decide_eq_false_iff_not] at hreg
      exact ⟨x, t, hx, rfl, by omega⟩
    · exact Or.inr ⟨m, setLane_lanes_ne _ _ _ hk ▸ hm, rfl, rfl, fun _ ha => ha⟩
  · rintro p a (hrow | ⟨k', m, hm, hmem⟩)
    · exact Or.inl hrow
    · by_cases hk : k' = k
      · subst hk
        obtain rfl := Option.some.inj (h.symm.trans hm)
        exact Or.inr ⟨k', _, setLane_lanes_self .., hmem⟩
      · exact Or.inr ⟨k', m, by rw [setLane_lanes_ne _ _ _ hk, hm], hmem⟩

theorem addGap_begins (hB : Begins L) (t : ThreadId) (kind : GapKind) (a b : Option Nat)
    (x : Bool) (reason : String) : Begins (L.addGap t kind a b x reason) :=
  ⟨hB.starts, hB.nested, hB.pending, hB.rows⟩

theorem dropLane_begins (hB : Begins L) (h : L.lanes k = some l) (hidle : l.stack = []) :
    Begins (L.dropLane k l) := by
  refine hB.of_lanes rfl ?_ ?_
  · intro k' m hm
    by_cases hk : k' = k
    · subst hk
      rw [dropLane_lane] at hm
      cases hm
    · exact Or.inr ⟨m, dropLane_lanes_ne hk ▸ hm, rfl, rfl, fun _ ha => ha⟩
  · rintro p a (hrow | ⟨k', m, hm, hmem⟩)
    · exact Or.inl hrow
    · have hk : k' ≠ k := by
        rintro rfl
        obtain rfl := Option.some.inj (h.symm.trans hm)
        rw [hidle] at hmem
        cases hmem
      exact Or.inr ⟨k', m, by rw [dropLane_lanes_ne hk, hm], hmem⟩

/-! ## Steady records -/

/-- The record is steady: a sample is timed, and not before its thread's last
one. -/
def SteadyAt (L : Ledger) : RawRecord → Prop
  | .sample s => ∃ t, s.timeNs = some t ∧ ∀ l, L.lanes (s.pid, s.tid) = some l →
      Reconstructor.regresses l.lastAbs (some t) = false
  | _ => True

/-- A forest whose frames and rows begin in order. -/
structure Planted (L : Ledger) : Prop where
  forest : Forest L
  begins : Begins L

theorem ensure_planted (h : Planted L) (k : Key) : Planted (L.ensure k) := by
  cases hl : L.lanes k with
  | none => exact ⟨ensure_forest h.forest hl, ensure_begins h.begins hl⟩
  | some l =>
    simp only [ensure, hl]
    exact h

theorem Planted.post (h : Planted L) (hposts : Posts k L L') (hbegins : Begins L') : Planted L' :=
  ⟨Entry.forest (.post hposts : Entry (fun _ => True) L L') h.forest, hbegins⟩

/-- A move of a sample whose time was noted. -/
theorem Move.planted {t : Nat} (hm : Move k (some t) L L') (hP : Planted L)
    (hnow : ∃ l, L.lanes k = some l ∧ l.lastAbs = some t) :
    Planted L' ∧ ∃ l, L'.lanes k = some l ∧ l.lastAbs = some t := by
  obtain ⟨m, hlane, hlast⟩ := hnow
  obtain ⟨l, l', popped, kept, pushed, rows, gaps, endAbs, T⟩ := hm.timed
  obtain ⟨l₂, l₂', hshift⟩ := hm.shifts
  obtain rfl := Option.some.inj (T.lane.symm.trans hlane)
  obtain rfl := Option.some.inj (T.lane.symm.trans hshift.lane)
  obtain rfl := Option.some.inj (T.lane'.symm.trans hshift.lane_self)
  have hbegins := T.begins hshift hP.forest hP.begins (Or.inl ⟨t, rfl, hlast⟩)
  exact ⟨hP.post hm.posts hbegins, l', T.lane', T.lastAbs.trans hlast⟩

/-- A cut leaves nothing open. -/
theorem cut_planted (hP : Planted L) (hl : L.lanes k = some l) (kind : GapKind)
    (hkind : kind ≠ .traceBoundary) (a b : Option Nat) (reason : String) :
    Planted (L.cut k l l.pending kind a b false reason) := by
  have htimed : Timed k none L (L.cut k l l.pending kind a b false reason) :=
    cut_timed hl l.pending (fun _ hq => hq) kind a b false reason hkind (fun hx => by cases hx)
  obtain ⟨m, m', popped, kept, pushed, rows, gaps, endAbs, T⟩ := htimed
  obtain ⟨l₂, l₂', hshift⟩ := cut_shifts hl none l.pending (fun _ hq => hq) kind a b false reason
  obtain rfl := Option.some.inj (T.lane.symm.trans hl)
  obtain rfl := Option.some.inj (T.lane.symm.trans hshift.lane)
  obtain rfl := Option.some.inj (T.lane'.symm.trans hshift.lane_self)
  refine hP.post (cut_posts hl ..) (T.begins hshift hP.forest hP.begins (Or.inr ?_))
  have hcut : (L.cut k m m.pending kind a b false reason).lanes k = some _ := setLane_lanes_self ..
  obtain rfl := Option.some.inj (T.lane'.symm.trans hcut)
  exact ⟨rfl, fun p hp => hp⟩

/-- Closing a lane leaves nothing open either. -/
theorem close_planted (hP : Planted L) (hl : L.lanes k = some l) (endAbs : Option Nat)
    (c : SpanCompleteness → SpanCompleteness) :
    Planted ((L.setLane k (closedLane l)).emit (flushRows l.id endAbs c l.stack)) := by
  have hclose : Timing k endAbs L _ l (closedLane l) l.stack [] none
    (flushRows l.id endAbs c l.stack) [] endAbs := close_timing hl c (Or.inr rfl)
  obtain ⟨l₂, l₂', hshift⟩ := close_shifts hl endAbs c
  obtain rfl := Option.some.inj (hl.symm.trans hshift.lane)
  obtain rfl := Option.some.inj (hclose.lane'.symm.trans hshift.lane_self)
  refine hP.post (close_posts hl endAbs c)
    (hclose.begins hshift hP.forest hP.begins (Or.inr ⟨rfl, fun p hp => ?_⟩))
  cases hp

/-- A steady record keeps frames and rows in order. -/
theorem Action.planted {rec : RawRecord} (h : Action rec L L') (hsteady : SteadyAt L rec)
    (hP : Planted L) : Planted L' := by
  cases h with
  | @sample _ _ s l₀ l h₀ hl hmoves =>
    obtain ⟨t, ht, hlanes⟩ := hsteady
    rw [ht] at hl hmoves
    have hreg : Reconstructor.regresses l₀.lastAbs (some t) = false := by
      rcases lane_of_ensure h₀ with hold | ⟨-, rfl⟩
      · exact hlanes l₀ hold
      · rfl
    rw [checkRegression, hreg] at hl hmoves
    obtain rfl := Option.some.inj (h₀.symm.trans hl)
    have hensured := ensure_planted hP (s.pid, s.tid)
    have hnoted : Planted ((L.ensure (s.pid, s.tid)).setLane (s.pid, s.tid)
        { l₀ with lastAbs := (some t).or l₀.lastAbs }) :=
      hensured.post (setLane_posts h₀ _ rfl rfl rfl rfl)
        (noteTime_begins hensured.begins h₀ hreg)
    -- every move of the sample is made at its time
    exact (reflTransGen_invariant
      (P := fun L => Planted L ∧ ∃ l, L.lanes (s.pid, s.tid) = some l ∧ l.lastAbs = some t)
      (fun _ _ hm hQ => hm.planted hQ.1 hQ.2) hmoves
      ⟨hnoted, _, setLane_lanes_self .., rfl⟩).1
  | @error _ e pid tid l hpid htid hl =>
    refine cut_planted (ensure_planted hP _) hl _ ?_ ..
    unfold Reconstructor.errorGapKind
    split <;> decide
  | strayError _ =>
    exact ⟨Entry.forest (.stray .. : Entry (fun _ => True) _ _) hP.forest,
      addGap_begins hP.begins ..⟩
  | lost =>
    have hloss : Planted L.noteLoss :=
      ⟨Entry.forest (.loss : Entry (fun _ => True) _ _) hP.forest,
        ⟨hP.begins.starts, hP.begins.nested, hP.begins.pending, hP.begins.rows⟩⟩
    exact ⟨Entry.forest (.stray .. : Entry (fun _ => True) _ _) hloss.forest,
      addGap_begins hloss.begins ..⟩
  | @exit _ t l hkind hl =>
    rw [retire_eq_dropLane]
    have hclosed := close_planted hP hl t.timeNs Reconstructor.openCompleteness
    have hlane : ((L.setLane (t.pid, t.tid) (closedLane l)).emit
        (flushRows l.id t.timeNs Reconstructor.openCompleteness l.stack)).lanes (t.pid, t.tid)
          = some (closedLane l) := by
      rw [emit_lanes, setLane_lanes_self]
    exact ⟨Entry.forest (.drop hlane rfl : Entry (fun _ => True) _ _) hclosed.forest,
      dropLane_begins hclosed.begins hlane rfl⟩
  | silent _ => exact hP

/-! ## Last times -/

/-- Every last time of a thread is one of `times`. -/
def Lasts (times : Key → Nat → Prop) (L : Ledger) : Prop :=
  ∀ k l x, L.lanes k = some l → l.lastAbs = some x → times k x

variable {times : Key → Nat → Prop}

/-- A write that keeps the last time, or notes one of `times`. -/
theorem Lasts.write (h : Lasts times L) (hlanes : L'.lanes = Function.update L.lanes k (some l'))
    (hlast : ∀ x, l'.lastAbs = some x → times k x) : Lasts times L' := by
  intro k' m x hm hx
  rw [hlanes] at hm
  by_cases hk : k' = k
  · subst hk
    rw [Function.update_self] at hm
    exact hlast x (Option.some.inj hm ▸ hx)
  · rw [Function.update_of_ne hk] at hm
    exact h k' m x hm hx

theorem ensure_lasts (h : Lasts times L) (k : Key) : Lasts times (L.ensure k) := by
  cases hl : L.lanes k with
  | none =>
    rw [ensure_of_none hl]
    exact h.write rfl (fun x hx => by cases hx)
  | some l =>
    simp only [ensure, hl]
    exact h

/-- A thread's last time is that of one of its samples. -/
theorem Action.lasts {rec : RawRecord} (ha : Action rec L L') (h : Lasts times L)
    (hrec : ∀ s x, rec = .sample s → s.timeNs = some x → times (s.pid, s.tid) x) :
    Lasts times L' := by
  cases ha with
  | @sample _ _ s l₀ l h₀ hl hmoves =>
    have hensured := ensure_lasts h (s.pid, s.tid)
    have hchecked : Lasts times
        ((L.ensure (s.pid, s.tid)).checkRegression (s.pid, s.tid) l₀ s.timeNs) := by
      unfold checkRegression
      split
      next => exact hensured.write rfl (fun x hx => hensured _ l₀ x h₀ hx)
      next => exact hensured
    refine reflTransGen_invariant (P := Lasts times) (fun M M' hm hM => ?_) hmoves
      (hchecked.write rfl (fun x hx => ?_))
    · obtain ⟨m, m', popped, kept, pushed, rows, gaps, endAbs, T⟩ := hm.timed
      exact hM.write T.lanes (fun x hx => hM _ m x T.lane (T.lastAbs ▸ hx))
    · cases ht : s.timeNs with
      | none => exact hchecked _ l x hl (by rw [ht] at hx; exact hx)
      | some t =>
        rw [ht] at hx
        exact hrec s x rfl (ht.trans hx)
  | @error _ e pid tid l hpid htid hl =>
    have hensured := ensure_lasts h (pid, tid)
    exact hensured.write rfl (fun x hx => hensured _ l x hl hx)
  | strayError | lost | silent => exact h
  | @exit _ t l hkind hl =>
    intro k' m x hm hx
    have hm' : Function.update L.lanes (t.pid, t.tid) none k' = some m := hm
    by_cases hk : k' = (t.pid, t.tid)
    · subst hk
      rw [Function.update_self] at hm'
      cases hm'
    · rw [Function.update_of_ne hk] at hm'
      exact h k' m x hm' hx

end Ledger

/-! ## Streams -/

open Ledger Reconstructor

variable {r r' r₀ : Reconstructor} {recs : List RawRecord}

/-- The record is steady when it arrives at `r`: a sample is timed, and not
before its thread's last one. Records the process-tree filter drops do not
count. -/
def Steady (r : Reconstructor) (rec : RawRecord) : Prop :=
  r.drops rec = false →
    match rec with
    | .sample s => ∃ t, s.timeNs = some t ∧ ∀ st, r.threads.get (s.pid, s.tid) = some st →
        regresses st.lastAbs (some t) = false
    | _ => True

/-- Every record of the stream is steady when it arrives. -/
def SteadyStream (r₀ : Reconstructor) (recs : List RawRecord) : Prop :=
  ∀ pre rec post, recs = pre ++ rec :: post → ∀ r, r₀.pushAll pre = .ok r → Steady r rec

theorem Steady.ledger {rec : RawRecord} (h : Steady r rec) (hdrop : r.drops rec = false) :
    SteadyAt (ledger r) rec := by
  cases rec with
  | sample s =>
    obtain ⟨t, ht, hthreads⟩ := h hdrop
    refine ⟨t, ht, fun l hl => ?_⟩
    obtain ⟨st, hst, rfl⟩ := lanes_ledger.mp hl
    exact hthreads st hst
  | mmap | task | switch | lost | decoderError => trivial

theorem push_planted {rec : RawRecord} (h : r.push rec = .ok r') (hsteady : Steady r rec)
    (hP : Planted (ledger r)) : Planted (ledger r') := by
  have hpush := push_ledger h
  split at hpush
  next => rw [hpush]; exact hP
  next hdrop =>
    exact hpush.planted (hsteady.ledger (Bool.eq_false_of_not_eq_true hdrop)) hP

theorem empty_planted (spilling : Bool) : Planted (.empty spilling) := by
  refine ⟨(empty_grown spilling).1, ?_, ?_, ?_, fun s hs => absurd hs List.not_mem_nil⟩
  all_goals
    intro k l hl
    cases hl

/-- A steady stream leaves frames and rows in order. -/
theorem pushAll_planted (hbuilt : Built r₀) (hsteady : SteadyStream r₀ recs)
    (h : r₀.pushAll recs = .ok r) : Planted (ledger r) := by
  refine foldlM_trace (P := fun _ m => Planted (ledger m)) (hbuilt.ledger ▸ empty_planted _) ?_
    recs List.prefix_rfl r h
  exact fun pre rec post m m' hsplit hpre hP hpush =>
    push_planted hpush (hsteady pre rec post hsplit m hpre) hP

/-- The samples of every task are timed, and never earlier than the one
before. -/
def Forward (recs : List RawRecord) : Prop :=
  ∀ k, ∃ ts : List Nat, sampleTimes k recs = ts.map some ∧ ts.Pairwise (· ≤ ·)

theorem pushAll_lasts (hbuilt : Built r₀) (h : r₀.pushAll recs = .ok r) :
    Lasts (fun k x => some x ∈ sampleTimes k recs) (ledger r) := by
  refine foldlM_trace
    (P := fun pre m => Lasts (fun k x => some x ∈ sampleTimes k pre) (ledger m)) ?_ ?_
    recs List.prefix_rfl r h
  · rw [hbuilt.ledger]
    intro k l x hl
    cases hl
  · intro pre rec post m m' hsplit hpre hP hpush
    have hgrown : Lasts (fun k x => some x ∈ sampleTimes k (pre ++ [rec])) (ledger m) := by
      intro k l x hl hx
      rw [sampleTimes_append]
      exact List.mem_append_left _ (hP k l x hl hx)
    have hledger := push_ledger hpush
    split at hledger
    next => rw [hledger]; exact hgrown
    next =>
      refine hledger.lasts hgrown fun s x hs hx => ?_
      rw [← hx]
      exact mem_sampleTimes (List.mem_append_right _ (hs ▸ List.mem_singleton_self _)) rfl

/-- Such a stream is steady. -/
theorem Forward.steady (h : Forward recs) (hbuilt : Built r₀) : SteadyStream r₀ recs := by
  intro pre rec post hsplit r hpre hdrop
  cases rec with
  | sample s =>
    obtain ⟨ts, hts, hle⟩ := h (s.pid, s.tid)
    rw [hsplit, sampleTimes_append] at hts
    obtain ⟨before, after, rfl, hbefore, hafter⟩ := List.map_eq_append_iff.mp hts.symm
    have hcons : sampleTimes (s.pid, s.tid) (.sample s :: post)
        = s.timeNs :: sampleTimes (s.pid, s.tid) post :=
      List.filterMap_cons_some (if_pos rfl)
    rw [hcons] at hafter
    obtain ⟨t, rest, rfl, ht, -⟩ := List.map_eq_cons_iff.mp hafter
    refine ⟨t, ht.symm, fun st hst => ?_⟩
    cases hlast : st.lastAbs with
    | none => rfl
    | some x =>
      have hmem : some x ∈ sampleTimes (s.pid, s.tid) pre :=
        pushAll_lasts hbuilt hpre _ (laneOf st) x (lanes_ledger.mpr ⟨st, hst, rfl⟩) hlast
      rw [← hbefore] at hmem
      obtain ⟨x', hx', heq⟩ := List.mem_map.mp hmem
      obtain rfl := Option.some.inj heq
      have hxt : x' ≤ t := (List.pairwise_append.mp hle).2.2 x' hx' t List.mem_cons_self
      rw [regresses, decide_eq_false_iff_not]
      omega
  | mmap | task | switch | lost | decoderError => trivial

/-- In the finished analysis of a steady stream, of fewer than `2^32` spans, a
span starts with its parent or after it, and has the larger id. -/
theorem finish_begins {ir : AnalysisIr} (hbuilt : Built r₀) (hpush : r₀.pushAll recs = .ok r)
    (hfin : r.finish = .ok ir) (hsteady : SteadyStream r₀ recs) (hsmall : ir.spanCount < 2 ^ 32) :
    ∀ s ∈ spanRowsOf ir, ∀ q ∈ spanRowsOf ir, s.parent = some q.id →
      NotAfter q.start.relativeNs s.start.relativeNs ∧ q.id < s.id := by
  have hP : Planted (ledger r.closeAll) :=
    closeAll_invariant (fun L k l hl hP => close_planted hP hl none openCompleteness)
      (pushAll_planted hbuilt hsteady hpush)
  have hgrown : Grown (ledger r.closeAll) :=
    closeAll_entries (fun _ _ (he : Entry (fun _ => True) _ _) hG => he.grown hG)
      (pushAll_entries (fun _ _ (he : Entry (fun _ => True) _ _) hG => he.grown hG)
        (fun _ _ _ _ => trivial) (hbuilt.ledger ▸ empty_grown _) hpush)
  have hfinished := finish_finished (fun k hk => (hP.forest.live k).mp hk) hfin
  have hopen : (ledger r.closeAll).openIds = [] := closeAll_openIds
  have hN : Numbered (ledger r.closeAll) := by
    apply hgrown.2
    rw [total, allIds, hopen, List.append_nil, List.length_map, ← hP.forest.reported,
      ← hfinished.spanCount]
    exact hsmall
  have hids : ((ledger r.closeAll).spans.map FunctionSpan.id).Nodup :=
    (List.nodup_append.mp (hN.ids.nodup_iff.mpr List.nodup_range)).1
  obtain ⟨rows, hrows, hperm⟩ := hfinished.rows
  intro s hs q hq hparent
  obtain ⟨s₀, hs₀, hs⟩ := forall₂_mem_right hrows s (hperm.subset hs)
  obtain ⟨q₀, hq₀, hq⟩ := forall₂_mem_right hrows q (hperm.subset hq)
  have hparent₀ : s₀.parent = some q₀.id := by rw [← hs.parent_eq, hparent, hq.id_eq]
  obtain ⟨a, hbegun, x, y, hx, hy, hle⟩ := hP.begins.rows s₀ hs₀ q₀.id hparent₀
  rcases hbegun with ⟨q₁, hq₁, hid, hstart⟩ | ⟨k, l, hl, hmem⟩
  · -- the parent's row is the only one of its id
    obtain rfl := List.inj_on_of_nodup_map hids hq₁ hq₀ hid
    obtain ⟨x', hx', hxx⟩ := some_shifted hq.start_eq (hstart.trans hx)
    obtain ⟨y', hy', hyy⟩ := some_shifted hs.start_eq hy
    refine ⟨⟨x', y', hx', hy', by omega⟩, ?_⟩
    rw [hq.id_eq, hs.id_eq]
    exact (hN.parents s₀ hs₀ q₁.id hparent₀).2
  · have hmem' := mem_openIds hP.forest hl (mem_stackIds_of_frameTimes hmem)
    rw [hopen] at hmem'
    cases hmem'

end TraceMcp.Decode
