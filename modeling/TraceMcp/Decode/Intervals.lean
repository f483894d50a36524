import TraceMcp.Decode.Accounts
import TraceMcp.Decode.Timing

/-!
# Span and gap intervals

When are the intervals of an analysis well formed (`Intervals`): starts before
ends, children inside their parents, gaps of known extent not inverted?
Exactly when the stream was orderly (`Orderly`): no sample earlier than its
thread's last one, and no task exit dated before what is already known of the
frames it closes. `Timely` is the invariant of orderly streams; a record out
of order leaves a row or a gap that contradicts `Intervals` for good.
-/

namespace TraceMcp.Decode

open TraceMcp.Lib

/-- `a` is not after `b`, where both are known. -/
def Before (a b : Option Nat) : Prop := ∀ x y, a = some x → b = some y → x ≤ y

/-- If `a` is known, so is `m`, and `m` is not earlier. -/
def Reached (a m : Option Nat) : Prop := ∀ x, a = some x → ∃ y, m = some y ∧ x ≤ y

theorem reached_none (m : Option Nat) : Reached none m := nofun

theorem reached_self (m : Option Nat) : Reached m m := fun x hx => ⟨x, hx, Nat.le_refl x⟩

theorem Reached.before {a m : Option Nat} (h : Reached a m) : Before a m := by
  intro x y hx hy
  obtain ⟨y', hy', hle⟩ := h x hx
  rw [hy] at hy'
  obtain rfl := Option.some.inj hy'
  exact hle

/-- The intervals of the span rows and gaps are well formed. -/
structure Intervals (rows : List FunctionSpan) (gaps : List GapRecord) : Prop where
  spans : ∀ s ∈ rows, Before s.start.relativeNs s.stop.relativeNs
  nested : ∀ s ∈ rows, ∀ q ∈ rows, s.parent = some q.id → ∀ a b c d,
    s.start.relativeNs = some a → s.stop.relativeNs = some b →
    q.start.relativeNs = some c → q.stop.relativeNs = some d → c ≤ a ∧ b ≤ d
  gaps : ∀ g ∈ gaps, g.extentKnown = true →
    ∃ a b, g.start.relativeNs = some a ∧ g.stop.relativeNs = some b ∧ a ≤ b

/-- Rows and gaps taken away leave the others well formed. -/
theorem Intervals.mono {rows rows' : List FunctionSpan} {gaps gaps' : List GapRecord}
    (h : Intervals rows' gaps') (hrows : rows ⊆ rows') (hgaps : gaps ⊆ gaps') :
    Intervals rows gaps where
  spans := fun s hs => h.spans s (hrows hs)
  nested := fun s hs q hq => h.nested s (hrows hs) q (hrows hq)
  gaps := fun g hg => h.gaps g (hgaps hg)

/-- `now`, if known, is not before anything known of the open frames: neither
before their starts, nor before the ends of their children among `rows`. -/
structure Covers (rows : List FunctionSpan) (stack : List OpenSpan) (now : Option Nat) :
    Prop where
  starts : ∀ o ∈ stack, Before o.startAbs now
  children : ∀ o ∈ stack, ∀ s ∈ rows, s.parent = some o.id → ∀ a b,
    o.startAbs = some a → s.start.relativeNs = some b → Before s.stop.relativeNs now

namespace Ledger

/-! ## The invariant of orderly streams -/

/-- Frame `f` starts no later than the row `s` below it, and the row ends by
the last time. -/
def ChildOf (f : LocalId × Option Nat) (lastAbs : Option Nat) (s : FunctionSpan) : Prop :=
  s.parent = some f.1 → ∀ a b c, f.2 = some a → s.start.relativeNs = some b →
    s.stop.relativeNs = some c → a ≤ b ∧ ∃ m, lastAbs = some m ∧ c ≤ m

/-- Frames start in order and by the last time, their closed children ended by
the last time, and the rows so far are well formed. -/
structure Timely (L : Ledger) : Prop where
  starts : ∀ k l, L.lanes k = some l → ∀ f ∈ frameTimes l.stack, Reached f.2 l.lastAbs
  nested : ∀ k l, L.lanes k = some l →
    (frameTimes l.stack).Pairwise fun f g => Before g.2 f.2
  pending : ∀ k l, L.lanes k = some l → ∀ p, l.pending = some p → Reached p.abs l.lastAbs
  children : ∀ k l, L.lanes k = some l → ∀ f ∈ frameTimes l.stack, ∀ s ∈ L.spans,
    ChildOf f l.lastAbs s
  intervals : Intervals L.spans L.gaps

variable {k : Key} {now : Option Nat} {L L' : Ledger} {l l' : Lane}
  {popped kept : List OpenSpan} {pushed : Option OpenSpan} {rows : List FunctionSpan}
  {gaps : List GapRecord} {endAbs : Option Nat}

theorem frameTimes_append (a b : List OpenSpan) :
    frameTimes (a ++ b) = frameTimes a ++ frameTimes b := List.map_append ..

theorem mem_frameTimes {o : OpenSpan} {stack : List OpenSpan} (h : o ∈ stack) :
    (o.id, o.startAbs) ∈ frameTimes stack := List.mem_map_of_mem h

theorem mem_stackIds_of_frameTimes {f : LocalId × Option Nat} {stack : List OpenSpan}
    (h : f ∈ frameTimes stack) : f.1 ∈ stackIds stack := by
  obtain ⟨o, ho, rfl⟩ := List.mem_map.mp h
  exact List.mem_map_of_mem ho

/-! ## Ids are not shared -/

/-- An open frame's id is no row's. -/
theorem Numbered.not_row (hN : Numbered L) (hF : Forest L) (h : L.lanes k = some l)
    {p : LocalId} (hp : p ∈ stackIds l.stack) : ∀ s ∈ L.spans, s.id ≠ p := by
  rintro s hs rfl
  have hnodup : L.allIds.Nodup := hN.ids.nodup_iff.mpr List.nodup_range
  exact (List.nodup_append.mp hnodup).2.2 _ (List.mem_map_of_mem hs) _ (mem_openIds hF h hp) rfl

/-- An id is open in one lane only. -/
theorem Numbered.lane_unique (hN : Numbered L) (hF : Forest L) {k' : Key} (h : L.lanes k = some l)
    (h' : L.lanes k' = some l') {p : LocalId} (hp : p ∈ stackIds l.stack)
    (hp' : p ∈ stackIds l'.stack) : k' = k := by
  have hnodup : L.allIds.Nodup := hN.ids.nodup_iff.mpr List.nodup_range
  have hopen := (List.nodup_append.mp hnodup).2.1
  by_contra hne
  have hk : k ∈ L.order := (hF.live k).mpr ⟨l, h⟩
  have hk' : k' ∈ L.order.filter (· ≠ k) :=
    List.mem_filter.mpr ⟨(hF.live k').mpr ⟨l', h'⟩, decide_eq_true hne⟩
  have hsplit := (flatMap_split (fun k => stackIds (L.stackAt k)) hF.nodup hk).nodup_iff.mp hopen
  refine (List.nodup_append.mp hsplit).2.2 p ?_ p ?_ rfl
  · rw [stackAt_of_lane h]
    exact hp
  · refine List.mem_flatMap.mpr ⟨k', hk', ?_⟩
    rw [stackAt_of_lane h']
    exact hp'

/-- Of two frames of a stack, the one with the smaller id starts no later. -/
theorem before_of_lt {stack : List OpenSpan} (hd : Decreasing stack)
    (hn : (frameTimes stack).Pairwise fun f g => Before g.2 f.2) {o p : OpenSpan}
    (ho : o ∈ stack) (hp : p ∈ stack) (hlt : p.id < o.id) : Before p.startAbs o.startAbs := by
  induction stack with
  | nil => cases ho
  | cons top rest ih =>
    have hn' := List.pairwise_cons.mp hn
    rcases List.mem_cons.mp ho with rfl | ho'
    · rcases List.mem_cons.mp hp with rfl | hp'
      · exact absurd hlt (Nat.lt_irrefl _)
      · exact hn'.1 _ (mem_frameTimes hp')
    · rcases List.mem_cons.mp hp with rfl | hp'
      · exact absurd hlt (Nat.lt_asymm (List.rel_of_pairwise_cons hd ho'))
      · exact ih (List.Pairwise.of_cons hd) hn'.2 ho' hp'

/-! ## One write -/

/-- Either `now` is the thread's last time or unknown, or the write empties the
lane for good. -/
def Current (l l' : Lane) (gaps : List GapRecord) (now : Option Nat) : Prop :=
  (now = none ∨ now = l.lastAbs) ∨ (l'.stack = [] ∧ l'.pending = none ∧ gaps = [])

theorem reached_of_current {l : Lane} (h : now = none ∨ now = l.lastAbs) :
    Reached now l.lastAbs := by
  rcases h with rfl | rfl
  · exact reached_none _
  · exact reached_self _

theorem Timely.covers (hT : Timely L) (hl : L.lanes k = some l)
    (hnow : now = none ∨ now = l.lastAbs) : Covers L.spans l.stack now := by
  rcases hnow with rfl | rfl
  · exact ⟨fun _ _ => nofun, fun _ _ _ _ _ _ _ _ _ => nofun⟩
  · refine ⟨fun o ho => (hT.starts k l hl _ (mem_frameTimes ho)).before, ?_⟩
    intro o ho s hs hparent a b ha hb c t hc ht
    obtain ⟨-, m, hm, hle⟩ := hT.children k l hl _ (mem_frameTimes ho) s hs hparent a b c ha hb hc
    rw [ht] at hm
    obtain rfl := Option.some.inj hm
    exact hle

namespace Timing

variable (T : Timing k now L L' l l' popped kept pushed rows gaps endAbs)
include T

theorem lane' : L'.lanes k = some l' := by
  rw [T.lanes, Function.update_self]

theorem lane_ne {k' : Key} (hk : k' ≠ k) : L'.lanes k' = L.lanes k' := by
  rw [T.lanes, Function.update_of_ne hk]

theorem mem_popped {o : OpenSpan} (ho : o ∈ popped) : o ∈ l.stack := by
  rw [T.split]
  exact List.mem_append_left _ ho

/-- A frame afterwards is the one pushed or one kept. -/
theorem frame_cases {f : LocalId × Option Nat} (hf : f ∈ frameTimes l'.stack) :
    (∃ o, pushed = some o ∧ f = (o.id, o.startAbs)) ∨ f ∈ frameTimes kept := by
  rw [T.frames, frameTimes_append] at hf
  rcases List.mem_append.mp hf with hf | hf
  · cases hpush : pushed with
    | none =>
      rw [hpush] at hf
      cases hf
    | some o =>
      rw [hpush] at hf
      exact Or.inl ⟨o, rfl, List.mem_singleton.mp hf⟩
  · exact Or.inr hf

theorem kept_frames {f : LocalId × Option Nat} (hf : f ∈ frameTimes kept) :
    f ∈ frameTimes l.stack := by
  rw [T.split, frameTimes_append]
  exact List.mem_append_right _ hf

/-- The parent of a new row is an open frame with a smaller id. -/
theorem row_parent (hF : Forest L) (hN : Numbered L) {s : FunctionSpan} {p : LocalId}
    (hs : s ∈ rows) (hp : s.parent = some p) :
    ∃ o ∈ popped, Closes o endAbs s ∧ p ∈ stackIds l.stack ∧ p < o.id := by
  rcases T.rows_from s hs with horphan | ⟨o, ho, hclose⟩
  · rw [horphan.parent_eq] at hp
    cases hp
  · obtain ⟨hmem, hlt⟩ := parent_below (hF.chained _ _ T.lane) (hN.decreasing _ _ T.lane) o
      (T.mem_popped ho) p (hclose.parent_eq ▸ hp)
    exact ⟨o, ho, hclose, hmem, hlt⟩

/-- What the pushed frame starts at is reached. -/
theorem pushed_reached (hT : Timely L) (hnow : now = none ∨ now = l.lastAbs) {o : OpenSpan}
    (ho : pushed = some o) : Reached o.startAbs l.lastAbs := by
  rcases T.pushed_start o ho with hstart | ⟨-, p, hp, hstart⟩
  · rw [hstart]
    exact reached_of_current hnow
  · rw [hstart]
    exact hT.pending k l T.lane p hp

theorem starts (hT : Timely L) (hc : Current l l' gaps now) :
    ∀ f ∈ frameTimes l'.stack, Reached f.2 l'.lastAbs := by
  intro f hf
  rw [T.lastAbs]
  rcases hc with hnow | ⟨hempty, -, -⟩
  · rcases T.frame_cases hf with ⟨o, ho, rfl⟩ | hkept
    · exact T.pushed_reached hT hnow ho
    · exact hT.starts k l T.lane f (T.kept_frames hkept)
  · rw [hempty] at hf
    cases hf

theorem nested (hT : Timely L) (hcover : Covers L.spans l.stack now) :
    (frameTimes l'.stack).Pairwise fun f g => Before g.2 f.2 := by
  have hall := hT.nested k l T.lane
  rw [T.split, frameTimes_append] at hall
  have hkept := (List.pairwise_append.mp hall).2.1
  rw [T.frames, frameTimes_append]
  cases hpush : pushed with
  | none => exact hkept
  | some o =>
    refine List.pairwise_cons.mpr ⟨?_, hkept⟩
    intro g hg
    rcases T.pushed_start o hpush with hstart | ⟨hnil, -⟩
    · obtain ⟨o', ho', rfl⟩ := List.mem_map.mp (T.kept_frames hg)
      show Before o'.startAbs o.startAbs
      rw [hstart]
      exact hcover.starts o' ho'
    · rw [hnil] at hg
      cases hg

theorem pendings (hT : Timely L) (hc : Current l l' gaps now) :
    ∀ p, l'.pending = some p → Reached p.abs l'.lastAbs := by
  intro p hp
  rw [T.lastAbs]
  rcases hc with hnow | ⟨-, hnone, -⟩
  · rcases T.pending p hp with hold | hnew
    · exact hT.pending k l T.lane p hold
    · rw [hnew]
      exact reached_of_current hnow
  · rw [hnone] at hp
    cases hp

/-- The frames of the lane and the rows, old and new. -/
theorem children (hF : Forest L) (hN : Numbered L) (hT : Timely L) (hnext : L.nextSpan = L.total)
    (hc : Current l l' gaps now) :
    ∀ f ∈ frameTimes l'.stack, ∀ s ∈ L'.spans, ChildOf f l'.lastAbs s := by
  intro f hf s hs hparent a b c ha hb hcs
  rw [T.lastAbs]
  rcases hc with hnow | ⟨hempty, -, -⟩
  · rw [T.spans] at hs
    rcases T.frame_cases hf with ⟨o, ho, rfl⟩ | hkept
    · -- Nobody's parent yet: its id is larger than any so far.
      have hid : o.id = L.total := (T.pushed_id o ho).trans hnext
      have hlt : o.id < L.total := by
        rcases List.mem_append.mp hs with hs | hs
        · have hmem : s.id ∈ L.allIds := List.mem_append_left _ (List.mem_map_of_mem hs)
          exact Nat.lt_trans (hN.parents s hs _ hparent).2
            (List.mem_range.mp (hN.ids.subset hmem))
        · obtain ⟨o', ho', -, -, hlt⟩ := T.row_parent hF hN hs hparent
          exact Nat.lt_trans hlt (hN.open_lt hF T.lane o' (T.mem_popped ho'))
      exact absurd (hid ▸ hlt) (Nat.lt_irrefl _)
    · have hfold := T.kept_frames hkept
      rcases List.mem_append.mp hs with hs | hs
      · exact hT.children k l T.lane f hfold s hs hparent a b c ha hb hcs
      · obtain ⟨o, ho, hclose, -, hlt⟩ := T.row_parent hF hN hs hparent
        obtain ⟨p, hp, rfl⟩ := List.mem_map.mp hfold
        rw [hclose.start_eq, absTime_relativeNs] at hb
        rw [hclose.stop_eq, absTime_relativeNs] at hcs
        refine ⟨before_of_lt (hN.decreasing k l T.lane) (hT.nested k l T.lane) (T.mem_popped ho) hp
          hlt a b ha hb, ?_⟩
        rcases T.ends with hnone | hend
        · rw [hnone] at hcs
          cases hcs
        · exact reached_of_current hnow c (hend ▸ hcs)
  · rw [hempty] at hf
    cases hf

/-- The lanes of other threads do not see the new rows. -/
theorem children_ne (hF : Forest L) (hN : Numbered L) (hT : Timely L) {k' : Key} {m : Lane}
    (hk : k' ≠ k) (hm : L.lanes k' = some m) :
    ∀ f ∈ frameTimes m.stack, ∀ s ∈ L'.spans, ChildOf f m.lastAbs s := by
  intro f hf s hs hparent
  rw [T.spans] at hs
  rcases List.mem_append.mp hs with hs | hs
  · exact hT.children k' m hm f hf s hs hparent
  · obtain ⟨o, -, -, hmem, -⟩ := T.row_parent hF hN hs hparent
    exact absurd (hN.lane_unique hF T.lane hm hmem (mem_stackIds_of_frameTimes hf)) hk

theorem rows_nested (hF : Forest L) (hN : Numbered L) (hT : Timely L) (hcover : Covers L.spans l.stack now) :
    ∀ s ∈ L'.spans, ∀ q ∈ L'.spans, s.parent = some q.id → ∀ a b c d,
      s.start.relativeNs = some a → s.stop.relativeNs = some b →
      q.start.relativeNs = some c → q.stop.relativeNs = some d → c ≤ a ∧ b ≤ d := by
  intro s hs q hq hparent a b c d ha hb hc hd
  rw [T.spans] at hs hq
  rcases List.mem_append.mp hq with hq | hq
  · rcases List.mem_append.mp hs with hs | hs
    · exact hT.intervals.nested s hs q hq hparent a b c d ha hb hc hd
    · -- A new row's parent is still open, so no old row.
      obtain ⟨-, -, -, hmem, -⟩ := T.row_parent hF hN hs hparent
      exact absurd rfl (hN.not_row hF T.lane hmem q hq)
  · rcases T.rows_from q hq with horphan | ⟨p, hp, hcloseq⟩
    · rw [horphan.start_eq] at hc
      cases hc
    · rw [hcloseq.start_eq, absTime_relativeNs] at hc
      rw [hcloseq.stop_eq, absTime_relativeNs] at hd
      have hpar : s.parent = some p.id := hcloseq.id_eq ▸ hparent
      rcases List.mem_append.mp hs with hs | hs
      · have hchild := hT.children k l T.lane _ (mem_frameTimes (T.mem_popped hp)) s hs hpar c a b
          hc ha hb
        refine ⟨hchild.1, ?_⟩
        rcases T.ends with hnone | hend
        · rw [hnone] at hd
          cases hd
        · exact hcover.children p (T.mem_popped hp) s hs hpar c a hc ha b d hb (hend ▸ hd)
      · obtain ⟨o, ho, hcloses, -, hlt⟩ := T.row_parent hF hN hs hpar
        rw [hcloses.start_eq, absTime_relativeNs] at ha
        rw [hcloses.stop_eq, hd, absTime_relativeNs] at hb
        refine ⟨before_of_lt (hN.decreasing k l T.lane) (hT.nested k l T.lane) (T.mem_popped ho)
          (T.mem_popped hp) hlt c a hc ha, ?_⟩
        exact Nat.le_of_eq (Option.some.inj hb).symm

theorem intervals (hF : Forest L) (hN : Numbered L) (hT : Timely L) (hcover : Covers L.spans l.stack now)
    (hc : Current l l' gaps now) : Intervals L'.spans L'.gaps := by
  refine ⟨?_, T.rows_nested hF hN hT hcover, ?_⟩
  · intro s hs
    rw [T.spans] at hs
    rcases List.mem_append.mp hs with hs | hs
    · exact hT.intervals.spans s hs
    · rcases T.rows_from s hs with horphan | ⟨o, ho, hclose⟩
      · rw [horphan.start_eq]
        nofun
      · rw [hclose.start_eq, hclose.stop_eq, absTime_relativeNs, absTime_relativeNs]
        rcases T.ends with hnone | hend
        · rw [hnone]
          exact fun _ _ _ => nofun
        · rw [hend]
          exact hcover.starts o (T.mem_popped ho)
  · intro g hg hknown
    rw [T.allGaps] at hg
    rcases List.mem_append.mp hg with hg | hg
    · exact hT.intervals.gaps g hg hknown
    · obtain ⟨p, left, right, hp, hleft, ha, hb, hlt⟩ := T.extent g hg hknown
      refine ⟨left, right, ha, hb, ?_⟩
      rcases hlt with hlt | hright
      · exact Nat.le_of_lt hlt
      · -- The gap ends with this sample, and the pending end is not later.
        rcases hc with hnow | ⟨-, -, hnil⟩
        · have hlast : l.lastAbs = some right := by
            rcases hnow with hnone | heq
            · rw [hnone] at hright
              cases hright
            · rw [← heq, hright]
          exact (hT.pending k l T.lane p hp).before left right hleft hlast
        · rw [hnil] at hg
          cases hg

/-- A write at the thread's last time, or one that covers what it closes, keeps
the invariant. -/
theorem timely (hF : Forest L) (hN : Numbered L) (hT : Timely L) (hnext : L.nextSpan = L.total)
    (hcover : Covers L.spans l.stack now) (hc : Current l l' gaps now) : Timely L' := by
  refine ⟨?_, ?_, ?_, ?_, T.intervals hF hN hT hcover hc⟩
  · intro k' m hm
    by_cases hk : k' = k
    · subst hk
      obtain rfl := Option.some.inj (T.lane'.symm.trans hm)
      exact T.starts hT hc
    · exact hT.starts k' m (T.lane_ne hk ▸ hm)
  · intro k' m hm
    by_cases hk : k' = k
    · subst hk
      obtain rfl := Option.some.inj (T.lane'.symm.trans hm)
      exact T.nested hT hcover
    · exact hT.nested k' m (T.lane_ne hk ▸ hm)
  · intro k' m hm
    by_cases hk : k' = k
    · subst hk
      obtain rfl := Option.some.inj (T.lane'.symm.trans hm)
      exact T.pendings hT hc
    · exact hT.pending k' m (T.lane_ne hk ▸ hm)
  · intro k' m hm
    by_cases hk : k' = k
    · subst hk
      obtain rfl := Option.some.inj (T.lane'.symm.trans hm)
      exact T.children hF hN hT hnext hc
    · exact T.children_ne hF hN hT hk (T.lane_ne hk ▸ hm)

end Timing

/-! ## The other writes -/

theorem ensure_timely (hT : Timely L) (h : L.lanes k = none) : Timely (L.ensure k) := by
  have hspans : (L.ensure k).spans = L.spans := by rw [ensure_of_none h]; rfl
  have hgaps : (L.ensure k).gaps = L.gaps := by rw [ensure_of_none h]; rfl
  have hfresh : ∀ m, (L.ensure k).lanes k = some m → m = L.fresh k := fun m hm =>
    (Option.some.inj ((ensure_lane h).symm.trans hm)).symm
  refine ⟨?_, ?_, ?_, ?_, hspans ▸ hgaps ▸ hT.intervals⟩
  · intro k' m hm
    by_cases hk : k' = k
    · subst hk
      rw [hfresh m hm]
      exact List.forall_mem_nil _
    · exact hT.starts k' m (ensure_lanes_ne h hk ▸ hm)
  · intro k' m hm
    by_cases hk : k' = k
    · subst hk
      rw [hfresh m hm]
      exact .nil
    · exact hT.nested k' m (ensure_lanes_ne h hk ▸ hm)
  · intro k' m hm
    by_cases hk : k' = k
    · subst hk
      rw [hfresh m hm]
      nofun
    · exact hT.pending k' m (ensure_lanes_ne h hk ▸ hm)
  · intro k' m hm
    rw [hspans]
    by_cases hk : k' = k
    · subst hk
      rw [hfresh m hm]
      exact List.forall_mem_nil _
    · exact hT.children k' m (ensure_lanes_ne h hk ▸ hm)

/-- What was reached stays reached when time does not go back. -/
theorem reached_later {a : Option Nat} {l : Lane} (h : Reached a l.lastAbs)
    (hreg : Reconstructor.regresses l.lastAbs now = false) :
    Reached a (now.or l.lastAbs) := by
  intro x hx
  obtain ⟨m, hm, hle⟩ := h x hx
  cases now with
  | none => exact ⟨m, hm, hle⟩
  | some t =>
    rw [hm, Reconstructor.regresses, decide_eq_false_iff_not] at hreg
    exact ⟨t, rfl, by omega⟩

/-- Noting a time that is not earlier than the last one. -/
theorem noteTime_timely (hT : Timely L) (h : L.lanes k = some l)
    (hreg : Reconstructor.regresses l.lastAbs now = false) :
    Timely (L.setLane k { l with lastAbs := now.or l.lastAbs }) := by
  have hself : ∀ m, (L.setLane k { l with lastAbs := now.or l.lastAbs }).lanes k = some m →
      m = { l with lastAbs := now.or l.lastAbs } := fun m hm =>
    (Option.some.inj ((setLane_lanes_self ..).symm.trans hm)).symm
  refine ⟨?_, ?_, ?_, ?_, hT.intervals⟩
  · intro k' m hm
    by_cases hk : k' = k
    · subst hk
      rw [hself m hm]
      exact fun f hf => reached_later (hT.starts _ l h f hf) hreg
    · exact hT.starts k' m (setLane_lanes_ne _ _ _ hk ▸ hm)
  · intro k' m hm
    by_cases hk : k' = k
    · subst hk
      rw [hself m hm]
      exact hT.nested _ l h
    · exact hT.nested k' m (setLane_lanes_ne _ _ _ hk ▸ hm)
  · intro k' m hm
    by_cases hk : k' = k
    · subst hk
      rw [hself m hm]
      exact fun p hp => reached_later (hT.pending _ l h p hp) hreg
    · exact hT.pending k' m (setLane_lanes_ne _ _ _ hk ▸ hm)
  · intro k' m hm
    by_cases hk : k' = k
    · subst hk
      rw [hself m hm]
      intro f hf s hs hparent a b c ha hb hc
      obtain ⟨hle, hlast⟩ := hT.children _ l h f hf s hs hparent a b c ha hb hc
      have hreached : Reached (some c) l.lastAbs := by
        intro x hx
        obtain rfl := Option.some.inj hx
        exact hlast
      exact ⟨hle, reached_later hreached hreg c rfl⟩
    · exact hT.children k' m (setLane_lanes_ne _ _ _ hk ▸ hm)

theorem addGap_timely (hT : Timely L) (t : ThreadId) (kind : GapKind) (a b : Option Nat)
    (reason : String) : Timely (L.addGap t kind a b false reason) := by
  refine ⟨hT.starts, hT.nested, hT.pending, hT.children, hT.intervals.spans,
    hT.intervals.nested, ?_⟩
  intro g hg hknown
  rcases List.mem_append.mp hg with hg | hg
  · exact hT.intervals.gaps g hg hknown
  · rw [List.mem_singleton.mp hg] at hknown
    cases hknown

theorem dropLane_timely (hT : Timely L) : Timely (L.dropLane k l) := by
  have hold : ∀ {k' m}, (L.dropLane k l).lanes k' = some m → L.lanes k' = some m := by
    intro k' m hm
    by_cases hk : k' = k
    · subst hk
      rw [dropLane_lane] at hm
      cases hm
    · exact dropLane_lanes_ne hk ▸ hm
  exact ⟨fun k' m hm => hT.starts k' m (hold hm), fun k' m hm => hT.nested k' m (hold hm),
    fun k' m hm => hT.pending k' m (hold hm), fun k' m hm => hT.children k' m (hold hm),
    hT.intervals⟩

/-! ## Orderly records -/

/-- The record is in order: a sample is not earlier than its thread's last one,
an exit not before anything known of the frames it closes. -/
def OrderlyAt (L : Ledger) : RawRecord → Prop
  | .sample s => ∀ l, L.lanes (s.pid, s.tid) = some l →
      Reconstructor.regresses l.lastAbs s.timeNs = false
  | .task t => t.kind = .exit → ∀ l, L.lanes (t.pid, t.tid) = some l →
      Covers L.spans l.stack t.timeNs
  | _ => True

/-- A forest that is timely as long as ids do not wrap. -/
def Sound (L : Ledger) : Prop := Forest L ∧ (L.total < 2 ^ 32 → Numbered L ∧ Timely L)

/-- A single entry keeps what is known of the ids; `hT` is about the times. -/
theorem Entry.sound (h : Entry (fun _ => True) L L') (hS : Sound L)
    (hT : Numbered L → L.nextSpan = L.total → Timely L → Timely L') : Sound L' := by
  refine ⟨h.forest hS.1, fun hsmall => ?_⟩
  have hlt : L.total < 2 ^ 32 := Nat.lt_of_le_of_lt (h.total_le hS.1) hsmall
  obtain ⟨hN, htimely⟩ := hS.2 hlt
  exact ⟨h.numbered hS.1 hN hsmall, hT hN (hS.1.next.trans (asU32_of_lt hlt)) htimely⟩

/-- The lane of `k` exists, and `now`, if known, is its last time. -/
def OnTime (k : Key) (now : Option Nat) (L : Ledger) : Prop :=
  ∃ l, L.lanes k = some l ∧ (now = none ∨ now = l.lastAbs)

/-- One move of a sample whose time was noted. -/
theorem Move.sound (h : Move k now L L') (hS : Sound L) (hnow : OnTime k now L) :
    Sound L' ∧ OnTime k now L' := by
  obtain ⟨l, l', popped, kept, pushed, rows, gaps, endAbs, T⟩ := h.timed
  obtain ⟨m, hm, hcur⟩ := hnow
  obtain rfl := Option.some.inj (T.lane.symm.trans hm)
  refine ⟨Entry.sound (.post h.posts) hS fun hN hnext hT =>
    T.timely hS.1 hN hT hnext (hT.covers T.lane hcur) (Or.inl hcur), l', T.lane', ?_⟩
  rw [T.lastAbs]
  exact hcur

theorem Moves.sound (h : Moves k now L L') (hS : Sound L) (hnow : OnTime k now L) : Sound L' :=
  (reflTransGen_invariant (P := fun L => Sound L ∧ OnTime k now L)
    (fun _ _ hm hP => hm.sound hP.1 hP.2) h ⟨hS, hnow⟩).1

theorem ensure_sound (hS : Sound L) (k : Key) : Sound (L.ensure k) := by
  cases h : L.lanes k with
  | none =>
    exact Entry.sound (.create h trivial) hS
      fun _ _ hT => ensure_timely hT h
  | some l =>
    simp only [ensure, h]
    exact hS

/-- A cut without a known extent is always in order. -/
theorem cut_sound (hS : Sound L) (hl : L.lanes k = some l) (kind : GapKind)
    (hkind : kind ≠ .traceBoundary) (a b : Option Nat) (reason : String) :
    Sound (L.cut k l l.pending kind a b false reason) := by
  have htimed : Timed k none L (L.cut k l l.pending kind a b false reason) :=
    cut_timed hl l.pending (fun _ hq => hq) kind a b false reason hkind nofun
  obtain ⟨m, l', popped, kept, pushed, rows, gaps, endAbs, T⟩ := htimed
  exact Entry.sound (.post (cut_posts hl ..)) hS fun hN hnext hT =>
    T.timely hS.1 hN hT hnext (hT.covers T.lane (Or.inl rfl)) (Or.inl (Or.inl rfl))

theorem close_sound (hS : Sound L) (hl : L.lanes k = some l)
    (c : SpanCompleteness → SpanCompleteness) {endAbs : Option Nat}
    (hcover : Covers L.spans l.stack endAbs) :
    Sound ((L.setLane k (closedLane l)).emit (flushRows l.id endAbs c l.stack)) := by
  have hclose : Timing k endAbs L _ l (closedLane l) l.stack [] none
    (flushRows l.id endAbs c l.stack) [] endAbs := close_timing hl c (Or.inr rfl)
  exact Entry.sound (.post (close_posts hl endAbs c)) hS fun hN hnext hT =>
    hclose.timely hS.1 hN hT hnext hcover (Or.inr ⟨rfl, rfl, rfl⟩)

theorem retire_sound (hS : Sound L) (hl : L.lanes k = some l) {endAbs : Option Nat}
    (hcover : Covers L.spans l.stack endAbs) : Sound (L.retire k l endAbs) := by
  rw [retire_eq_dropLane]
  exact Entry.sound (.drop (by rw [emit_lanes, setLane_lanes_self]) rfl)
    (close_sound hS hl _ hcover) fun _ _ hT => dropLane_timely hT

theorem lane_of_ensure (h : (L.ensure k).lanes k = some l) :
    L.lanes k = some l ∨ (L.lanes k = none ∧ l = L.fresh k) := by
  cases hl : L.lanes k with
  | none => exact Or.inr ⟨rfl, Option.some.inj (h.symm.trans (ensure_lane hl))⟩
  | some m =>
    simp only [ensure, hl] at h
    exact Or.inl h

/-- An orderly record keeps the ledger sound. -/
theorem Action.sound {rec : RawRecord} (h : Action rec L L') (hord : OrderlyAt L rec)
    (hS : Sound L) : Sound L' := by
  cases h with
  | @sample _ _ s l₀ l h₀ hl hmoves =>
    have hreg : Reconstructor.regresses l₀.lastAbs s.timeNs = false := by
      rcases lane_of_ensure h₀ with hold | ⟨-, rfl⟩
      · exact hord l₀ hold
      · rfl
    rw [checkRegression, hreg] at hl hmoves
    obtain rfl := Option.some.inj (h₀.symm.trans hl)
    have htime : Sound ((L.ensure (s.pid, s.tid)).setLane (s.pid, s.tid)
        { l₀ with lastAbs := s.timeNs.or l₀.lastAbs }) :=
      Entry.sound (.post (setLane_posts h₀ _ rfl rfl rfl rfl))
        (ensure_sound hS _) fun _ _ hT => noteTime_timely hT h₀ hreg
    refine hmoves.sound htime ⟨_, setLane_lanes_self .., ?_⟩
    cases s.timeNs with
    | none => exact Or.inl rfl
    | some t => exact Or.inr rfl
  | @error _ e pid tid l hpid htid hl =>
    refine cut_sound (ensure_sound hS _) hl _ ?_ ..
    unfold Reconstructor.errorGapKind
    split <;> nofun
  | strayError _ =>
    exact Entry.sound (.stray ..) hS fun _ _ hT => addGap_timely hT ..
  | lost =>
    have hnoted : Sound L.noteLoss := Entry.sound .loss hS fun _ _ hT =>
      ⟨hT.starts, hT.nested, hT.pending, hT.children, hT.intervals⟩
    exact Entry.sound (.stray ..) hnoted fun _ _ hT => addGap_timely hT ..
  | exit hkind hl => exact retire_sound hS hl (hord hkind _ hl)
  | silent _ => exact hS

/-! ## Records out of order -/

/-- Rows and gaps are never taken back. -/
theorem Entry.grows {named : Key → Prop} (h : Entry named L L') :
    L.spans ⊆ L'.spans ∧ L.gaps ⊆ L'.gaps := by
  cases h with
  | create hnone _ =>
    rw [ensure_of_none hnone]
    exact ⟨fun _ hs => hs, fun _ hg => hg⟩
  | post hp =>
    obtain ⟨l, l', rows, gaps, opened, hp⟩ := hp
    exact ⟨hp.spans ▸ List.subset_append_left _ _, hp.allGaps ▸ List.subset_append_left _ _⟩
  | stray => exact ⟨fun _ hs => hs, List.subset_append_left _ _⟩
  | loss | drop => exact ⟨fun _ hs => hs, fun _ hg => hg⟩

/-- What is ill formed stays ill formed. -/
theorem Entries.broken {named : Key → Prop} (h : Entries named L L')
    (hbroken : ¬ Intervals L.spans L.gaps) : ¬ Intervals L'.spans L'.gaps :=
  reflTransGen_invariant (P := fun L => ¬ Intervals L.spans L.gaps)
    (fun _ _ he hb hI => hb (hI.mono he.grows.1 he.grows.2)) h hbroken

/-- The gap of a regression is inverted. -/
theorem cut_regression_broken (l : Lane)
    (hreg : Reconstructor.regresses l.lastAbs now = true) (reason : String) :
    ¬ Intervals (L.cut k l l.pending .timeRegression l.lastAbs now true reason).spans
      (L.cut k l l.pending .timeRegression l.lastAbs now true reason).gaps := by
  intro hI
  obtain ⟨a, b, ha, hb, hle⟩ := hI.gaps _ (List.mem_append_right _ (List.mem_singleton_self _)) rfl
  rw [absTime_relativeNs] at ha hb
  rw [ha, hb, Reconstructor.regresses, decide_eq_true_eq] at hreg
  omega

/-- Well-formed rows of a retired lane mean that its end covers its frames. -/
theorem retire_covers {endAbs : Option Nat}
    (hI : Intervals (L.retire k l endAbs).spans (L.retire k l endAbs).gaps) :
    Covers L.spans l.stack endAbs := by
  have hrow : ∀ o ∈ l.stack, ∃ q ∈ (L.retire k l endAbs).spans, Closes o endAbs q := by
    intro o ho
    exact ⟨_, List.mem_append_right _ (List.mem_map_of_mem ho), spanOf_closes ..⟩
  refine ⟨?_, ?_⟩
  · intro o ho
    obtain ⟨q, hq, hclose⟩ := hrow o ho
    have hbefore := hI.spans q hq
    rw [hclose.start_eq, hclose.stop_eq, absTime_relativeNs, absTime_relativeNs] at hbefore
    exact hbefore
  · intro o ho s hs hparent a b ha hb c t hc ht
    obtain ⟨q, hq, hclose⟩ := hrow o ho
    exact (hI.nested s (List.mem_append_left _ hs) q hq (hclose.id_eq ▸ hparent) b c a t hb hc
      (by rw [hclose.start_eq, absTime_relativeNs, ha])
      (by rw [hclose.stop_eq, absTime_relativeNs, ht])).2

/-- A record out of order leaves something ill formed. -/
theorem Action.broken {rec : RawRecord} (h : Action rec L L') (hord : ¬ OrderlyAt L rec) :
    ¬ Intervals L'.spans L'.gaps := by
  cases h with
  | @sample _ _ s l₀ l h₀ hl hmoves =>
    have hreg : Reconstructor.regresses l₀.lastAbs s.timeNs = true := by
      by_contra hno
      refine hord fun m hm => ?_
      simp only [ensure, hm] at h₀
      obtain rfl := Option.some.inj h₀
      exact Bool.eq_false_of_not_eq_true hno
    rw [checkRegression, hreg] at hl hmoves
    have hentries : Entries (fun _ => True) _ L' :=
      .head (.post (setLane_posts hl { l with lastAbs := s.timeNs.or l.lastAbs } rfl rfl rfl rfl))
        hmoves.entries
    exact hentries.broken (cut_regression_broken l₀ hreg _)
  | error => exact absurd trivial hord
  | strayError => exact absurd trivial hord
  | lost => exact absurd trivial hord
  | @exit _ t l hkind hl =>
    intro hI
    refine hord fun _ m hm => ?_
    obtain rfl := Option.some.inj (hl.symm.trans hm)
    exact retire_covers hI
  | silent hsilent =>
    refine absurd ?_ hord
    cases rec with
    | sample s => exact absurd hsilent id
    | task t =>
      intro hkind m hm
      rcases hsilent with hne | hnone
      · exact absurd hkind hne
      · rw [hnone] at hm
        cases hm
    | mmap | switch | lost | decoderError => trivial

end Ledger

/-! ## Streams -/

open Ledger Reconstructor

/-- The record is in order when it arrives at `r`: a sample is not earlier than
its thread's last one, and an exit is not dated before anything known of the
open frames it closes. Records the process-tree filter drops do not count. -/
def Orderly (r : Reconstructor) (rec : RawRecord) : Prop :=
  r.drops rec = false →
    match rec with
    | .sample s => ∀ st, r.threads.get (s.pid, s.tid) = some st →
        regresses st.lastAbs s.timeNs = false
    | .task t => t.kind = .exit → ∀ st, r.threads.get (t.pid, t.tid) = some st →
        Covers (spanRows r) st.stack t.timeNs
    | _ => True

/-- Every record of the stream is in order when it arrives. -/
def OrderlyStream (r₀ : Reconstructor) (recs : List RawRecord) : Prop :=
  ∀ pre rec post, recs = pre ++ rec :: post → ∀ r, r₀.pushAll pre = .ok r → Orderly r rec

variable {r r' r₀ : Reconstructor} {recs : List RawRecord}

theorem orderly_iff {rec : RawRecord} :
    Orderly r rec ↔ (r.drops rec = false → OrderlyAt (ledger r) rec) := by
  unfold Orderly OrderlyAt
  refine imp_congr_right fun _ => ?_
  cases rec with
  | sample s =>
    constructor
    · intro h l hl
      obtain ⟨st, hst, rfl⟩ := lanes_ledger.mp hl
      exact h st hst
    · exact fun h st hst => h (laneOf st) (lanes_ledger.mpr ⟨st, hst, rfl⟩)
  | task t =>
    constructor
    · intro h hkind l hl
      obtain ⟨st, hst, rfl⟩ := lanes_ledger.mp hl
      exact h hkind st hst
    · exact fun h hkind st hst => h hkind (laneOf st) (lanes_ledger.mpr ⟨st, hst, rfl⟩)
  | mmap | switch | lost | decoderError => exact Iff.rfl

theorem push_sound {rec : RawRecord} (h : r.push rec = .ok r') (hord : Orderly r rec)
    (hS : Sound (ledger r)) : Sound (ledger r') := by
  have hpush := push_ledger h
  split at hpush
  next => rw [hpush]; exact hS
  next hdrop => exact hpush.sound (orderly_iff.mp hord (Bool.eq_false_of_not_eq_true hdrop)) hS

theorem push_broken {rec : RawRecord} (h : r.push rec = .ok r') (hord : ¬ Orderly r rec) :
    ¬ Intervals (ledger r').spans (ledger r').gaps := by
  have hpush := push_ledger h
  rw [orderly_iff, Classical.not_imp] at hord
  rw [hord.1, if_neg Bool.false_ne_true] at hpush
  exact hpush.broken hord.2

theorem empty_sound (spilling : Bool) : Sound (.empty spilling) := by
  obtain ⟨hF, hN⟩ := empty_grown spilling
  refine ⟨hF, fun hsmall => ⟨hN hsmall, ?_⟩⟩
  exact ⟨nofun, nofun, nofun, nofun, List.forall_mem_nil _, List.forall_mem_nil _,
    List.forall_mem_nil _⟩

/-- An orderly stream leaves a sound ledger. -/
theorem pushAll_sound (hbuilt : Built r₀) (hord : OrderlyStream r₀ recs)
    (h : r₀.pushAll recs = .ok r) : Sound (ledger r) := by
  refine foldlM_trace (P := fun _ m => Sound (ledger m)) (hbuilt.ledger ▸ empty_sound _) ?_ recs
    List.prefix_rfl r h
  exact fun pre rec post m m' hsplit hpre hS hpush =>
    push_sound hpush (hord pre rec post hsplit m hpre) hS

/-- A stream out of order leaves an ill-formed one. -/
theorem pushAll_broken (hord : ¬ OrderlyStream r₀ recs) (h : r₀.pushAll recs = .ok r) :
    ¬ Intervals (ledger r).spans (ledger r).gaps := by
  simp only [OrderlyStream, not_forall] at hord
  obtain ⟨pre, rec, post, hsplit, m, hpre, hbad⟩ := hord
  rw [hsplit] at h
  obtain ⟨m₁, hm₁, hrest⟩ := foldlM_append_ok.mp h
  obtain rfl := Except.ok.inj (hpre.symm.trans hm₁)
  obtain ⟨m₂, hpush, hpost⟩ := foldlM_cons_ok.mp hrest
  exact foldlM_invariant (P := fun m => ¬ Intervals (ledger m).spans (ledger m).gaps)
    (fun x _ _ _ hb hx =>
      have hentries : Entries (fun _ => True) _ _ := push_entries hx fun _ _ => trivial
      hentries.broken hb)
    (push_broken hpush hbad) hpost

/-! ## Through `finish` -/

theorem shifted_some {a a' : Option Nat} {origin x : Nat} (h : a = a'.map (· + origin)) :
    a' = some x → a = some (x + origin) := by
  rintro rfl
  exact h

theorem some_shifted {a a' : Option Nat} {origin x : Nat} (h : a = a'.map (· + origin))
    (hx : a = some x) : ∃ x', a' = some x' ∧ x = x' + origin := by
  rw [hx] at h
  obtain ⟨x', hx', heq⟩ := Option.map_eq_some_iff.mp h.symm
  exact ⟨x', hx', heq.symm⟩

/-- Rebasing all times neither makes nor breaks intervals. -/
theorem intervals_rebased {origin : Nat} {rows rows' : List FunctionSpan}
    {gaps gaps' : List GapRecord} (hrows : List.Forall₂ (SpanRebased origin) rows rows')
    (hgaps : List.Forall₂ (GapRebased origin) gaps gaps') :
    Intervals rows' gaps' ↔ Intervals rows gaps := by
  constructor
  · intro h
    refine ⟨?_, ?_, ?_⟩
    · intro s hs x y hx hy
      obtain ⟨s', hs', hr⟩ := forall₂_mem_left hrows s hs
      obtain ⟨x', hx', rfl⟩ := some_shifted hr.start_eq hx
      obtain ⟨y', hy', rfl⟩ := some_shifted hr.stop_eq hy
      exact Nat.add_le_add_right (h.spans s' hs' x' y' hx' hy') _
    · intro s hs q hq hparent a b c d ha hb hc hd
      obtain ⟨s', hs', hr⟩ := forall₂_mem_left hrows s hs
      obtain ⟨q', hq', hrq⟩ := forall₂_mem_left hrows q hq
      obtain ⟨a', ha', rfl⟩ := some_shifted hr.start_eq ha
      obtain ⟨b', hb', rfl⟩ := some_shifted hr.stop_eq hb
      obtain ⟨c', hc', rfl⟩ := some_shifted hrq.start_eq hc
      obtain ⟨d', hd', rfl⟩ := some_shifted hrq.stop_eq hd
      have hnested := h.nested s' hs' q' hq' (by rw [hr.parent_eq, hrq.id_eq, hparent])
        a' b' c' d' ha' hb' hc' hd'
      omega
    · intro g hg hknown
      obtain ⟨g', hg', hr⟩ := forall₂_mem_left hgaps g hg
      obtain ⟨a, b, ha, hb, hle⟩ := h.gaps g' hg' (hr.extentKnown_eq ▸ hknown)
      exact ⟨_, _, shifted_some hr.start_eq ha, shifted_some hr.stop_eq hb,
        Nat.add_le_add_right hle _⟩
  · intro h
    refine ⟨?_, ?_, ?_⟩
    · intro s' hs' x y hx hy
      obtain ⟨s, hs, hr⟩ := forall₂_mem_right hrows s' hs'
      have hle := h.spans s hs _ _ (shifted_some hr.start_eq hx) (shifted_some hr.stop_eq hy)
      omega
    · intro s' hs' q' hq' hparent a b c d ha hb hc hd
      obtain ⟨s, hs, hr⟩ := forall₂_mem_right hrows s' hs'
      obtain ⟨q, hq, hrq⟩ := forall₂_mem_right hrows q' hq'
      have hnested := h.nested s hs q hq (by rw [← hr.parent_eq, ← hrq.id_eq, hparent]) _ _ _ _
        (shifted_some hr.start_eq ha) (shifted_some hr.stop_eq hb)
        (shifted_some hrq.start_eq hc) (shifted_some hrq.stop_eq hd)
      omega
    · intro g' hg' hknown
      obtain ⟨g, hg, hr⟩ := forall₂_mem_right hgaps g' hg'
      obtain ⟨a, b, ha, hb, hle⟩ := h.gaps g hg (hr.extentKnown_eq.symm.trans hknown)
      obtain ⟨a', ha', rfl⟩ := some_shifted hr.start_eq ha
      obtain ⟨b', hb', rfl⟩ := some_shifted hr.stop_eq hb
      exact ⟨a', b', ha', hb', by omega⟩

theorem intervals_perm {rows rows' : List FunctionSpan} {gaps : List GapRecord}
    (h : rows.Perm rows') : Intervals rows gaps ↔ Intervals rows' gaps :=
  ⟨fun hI => hI.mono h.symm.subset fun _ hg => hg, fun hI => hI.mono h.subset fun _ hg => hg⟩

theorem Finished.intervals_iff {L : Ledger} {ir : AnalysisIr} (h : Finished L ir) :
    Intervals (spanRowsOf ir) ir.gaps ↔ Intervals L.spans L.gaps := by
  obtain ⟨rows, hrows, hperm⟩ := h.rows
  rw [intervals_perm hperm, intervals_rebased hrows h.gaps]

/-- In a finished analysis of fewer than `2^32` spans the intervals are well
formed exactly when the stream was in order. -/
theorem finish_intervals_iff {ir : AnalysisIr} (hbuilt : Built r₀) (hpush : r₀.pushAll recs = .ok r)
    (hfin : r.finish = .ok ir) (hsmall : ir.spanCount < 2 ^ 32) :
    Intervals (spanRowsOf ir) ir.gaps ↔ OrderlyStream r₀ recs := by
  have hF : Forest (ledger r.closeAll) :=
    closeAll_entries (fun _ _ (he : Entry (fun _ => True) _ _) hF => he.forest hF)
      (pushAll_forest hbuilt hpush)
  have hfinished := finish_finished (fun k hk => (hF.live k).mp hk) hfin
  rw [hfinished.intervals_iff]
  constructor
  · intro hI
    by_contra hord
    have hentry : ∀ L L', Entry (fun _ => True) L L' → ¬ Intervals L.spans L.gaps →
        ¬ Intervals L'.spans L'.gaps := fun _ _ he hb => Entries.broken (.single he) hb
    exact closeAll_entries (P := fun L => ¬ Intervals L.spans L.gaps) hentry
      (pushAll_broken hord hpush) hI
  · intro hord
    have hS : Sound (ledger r.closeAll) := by
      refine closeAll_invariant (P := Sound) ?_ (pushAll_sound hbuilt hord hpush)
      exact fun L k l hl hS => close_sound hS hl _
        ⟨fun _ _ => fun _ _ _ => nofun, fun _ _ _ _ _ _ _ _ _ => fun _ _ _ => nofun⟩
    refine (hS.2 ?_).2.intervals
    rw [total, allIds, closeAll_openIds, List.append_nil, List.length_map, ← hF.reported,
      ← hfinished.spanCount]
    exact hsmall

/-- `finish_intervals_iff` on two nested calls. -/
theorem finish_intervals_iff_nestedCalls :
    ∃ r ir, bare.pushAll nestedCalls = .ok r ∧ r.finish = .ok ir ∧
      (Intervals (spanRowsOf ir) ir.gaps ↔ OrderlyStream bare nestedCalls) := by
  obtain ⟨r, ir, hr, hfin, hcount⟩ := nestedCalls_ok
  exact ⟨r, ir, hr, hfin,
    finish_intervals_iff (.new ..) hr hfin (by rw [hcount]; decide)⟩

/-- Tracing ends in `f` at 100; the next sample, dated 50, resumes it there; `f`
returns at 60. -/
def regressingResume : List RawRecord :=
  [mapped, branchAt 1 100 .TR_END 0x10 0, branchAt 1 50 .TR_START 0 0x20,
    branchAt 1 60 .RETURN 0x30 0x1010]

/-- The trace end survives the regression: the span of `f` starts at the saved
end and stops before it (times are relative to the mapping's, at 1). -/
theorem regressingResume_inverted :
    ∃ r ir, traced.pushAll regressingResume = .ok r ∧ r.finish = .ok ir ∧
      (∃ s ∈ ir.spans, s.start.relativeNs = some 99 ∧ s.stop.relativeNs = some 59) ∧
      ¬ Intervals (spanRowsOf ir) ir.gaps := by
  obtain ⟨ir, hir, htest⟩ := ok_of_any (x := traced.pushAll regressingResume >>= finish)
    (p := fun ir => ir.spilled.isNone && ir.spans.map
      (fun s => (s.start.relativeNs, s.stop.relativeNs)) == [(some 99, some 59)])
    (by decide +kernel)
  obtain ⟨r, hr, hfin⟩ := bind_ok.mp hir
  rw [Bool.and_eq_true, beq_iff_eq] at htest
  obtain ⟨hresident, htimes⟩ := htest
  obtain ⟨s, hs, heq⟩ := List.mem_map.mp (htimes ▸ List.mem_singleton_self _)
  obtain ⟨hstart, hstop⟩ := Prod.mk.inj heq
  have hrows : spanRowsOf ir = ir.spans := by
    rw [spanRowsOf, Option.isNone_iff_eq_none.mp hresident]
    rfl
  refine ⟨r, ir, hr, hfin, ⟨s, hs, hstart, hstop⟩, fun hI => ?_⟩
  exact absurd (hI.spans s (hrows ▸ hs) 99 59 hstart hstop) (by decide)

end TraceMcp.Decode
