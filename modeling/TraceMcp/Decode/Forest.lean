import TraceMcp.Decode.Postings

/-!
# The span forest and its accounts

Three invariants of single entries. `Forest`: lanes are listed once, open
frames form chains, and the counters agree with the rows. `Numbered`, as long
as ids do not wrap: the ids of the rows and the open frames are exactly those
handed out so far, and a row's parent is a row or an open frame of the same
thread with a smaller id. `GapBook`, when no two processes share a tid: every
lane's gap counter is the number of gaps naming it.
-/

namespace TraceMcp.Decode

open TraceMcp.Lib
open scoped List

namespace Ledger

/-- The open frames of `k`. -/
def stackAt (L : Ledger) (k : Key) : List OpenSpan := ((L.lanes k).map Lane.stack).getD []

/-- The span counter of `k`. -/
def spansAt (L : Ledger) (k : Key) : Nat := ((L.lanes k).map Lane.spans).getD 0

/-- The ids of all open frames. -/
def openIds (L : Ledger) : List LocalId := L.order.flatMap fun k => stackIds (L.stackAt k)

/-- The ids of all rows and open frames. -/
def allIds (L : Ledger) : List LocalId := L.spans.map FunctionSpan.id ++ L.openIds

/-- How many span ids were handed out. -/
def total (L : Ledger) : Nat := L.allIds.length

variable {k : Key} {L L' : Ledger} {l l' : Lane} {rows : List FunctionSpan}
  {gaps : List GapRecord} {opened : Bool} {named : Key → Prop}

theorem stackAt_of_lane (h : L.lanes k = some l) : L.stackAt k = l.stack := by
  rw [stackAt, h]
  rfl

theorem spansAt_of_lane (h : L.lanes k = some l) : L.spansAt k = l.spans := by
  rw [spansAt, h]
  rfl

/-- Lanes are listed once, frames chain, counters count. -/
structure Forest (L : Ledger) : Prop where
  nodup : L.order.Nodup
  live : ∀ k, k ∈ L.order ↔ ∃ l, L.lanes k = some l
  chained : ∀ k l, L.lanes k = some l → Chained l.stack
  next : L.nextSpan = asU32 L.total
  reported : L.spansN = L.spans.length
  counted : (L.closed.map Lane.spans).sum + (L.order.map L.spansAt).sum = L.spans.length

/-! ## The forest under a posting -/

theorem Posting.lane' (h : Posting k L L' l l' rows gaps opened) : L'.lanes k = some l' := by
  rw [h.lanes, Function.update_self]

theorem Posting.lane_ne (h : Posting k L L' l l' rows gaps opened) {k' : Key} (hk : k' ≠ k) :
    L'.lanes k' = L.lanes k' := by
  rw [h.lanes, Function.update_of_ne hk]

theorem Posting.stackAt_ne (h : Posting k L L' l l' rows gaps opened) {k' : Key} (hk : k' ≠ k) :
    L'.stackAt k' = L.stackAt k' := by
  rw [stackAt, stackAt, h.lane_ne hk]

/-- The ids after a posting: the new one, if any, and those before. -/
theorem Posting.allIds_perm (h : Posting k L L' l l' rows gaps opened) (hF : Forest L) :
    L'.allIds.Perm ((if opened then [L.nextSpan] else []) ++ L.allIds) := by
  have hk : k ∈ L.order := (hF.live k).mpr ⟨l, h.lane⟩
  have hbefore := flatMap_split (fun k => stackIds (L.stackAt k)) hF.nodup hk
  have hafter := flatMap_split (fun k => stackIds (L'.stackAt k)) hF.nodup hk
  rw [flatMap_rest_congr (f := fun k => stackIds (L.stackAt k))
    (fun k' hk' => by rw [h.stackAt_ne hk'])] at hafter
  generalize (L.order.filter (· ≠ k)).flatMap (fun k => stackIds (L.stackAt k)) = rest
    at hbefore hafter
  rw [stackAt_of_lane h.lane] at hbefore
  rw [stackAt_of_lane h.lane'] at hafter
  have hids := h.ids
  simp only [allIds, openIds, h.order, h.spans, List.map_append]
  -- Move the rows next to the lane's own ids, where the posting speaks of them.
  calc (L.spans.map FunctionSpan.id ++ rows.map FunctionSpan.id) ++
        L.order.flatMap (fun k => stackIds (L'.stackAt k))
      _ ~ (L.spans.map FunctionSpan.id ++ rows.map FunctionSpan.id) ++
        (stackIds l'.stack ++ rest) := hafter.append_left _
      _ ~ L.spans.map FunctionSpan.id ++
        ((rows.map FunctionSpan.id ++ stackIds l'.stack) ++ rest) := by
          rw [List.append_assoc, List.append_assoc]
      _ ~ L.spans.map FunctionSpan.id ++
        (((if opened then [L.nextSpan] else []) ++ stackIds l.stack) ++ rest) :=
          (hids.append_right rest).append_left _
      _ ~ (if opened then [L.nextSpan] else []) ++ (L.spans.map FunctionSpan.id ++
        (stackIds l.stack ++ rest)) := by
          simp only [← List.append_assoc]
          exact (List.perm_append_comm.append_right _).append_right _
      _ ~ (if opened then [L.nextSpan] else []) ++ (L.spans.map FunctionSpan.id ++
        L.order.flatMap fun k => stackIds (L.stackAt k)) :=
          (hbefore.symm.append_left _).append_left _

theorem Posting.total_eq (h : Posting k L L' l l' rows gaps opened) (hF : Forest L) :
    L'.total = L.total + opened.toNat := by
  rw [total, (h.allIds_perm hF).length_eq, List.length_append, total]
  cases opened <;> simp [Nat.add_comm]

theorem asU32_succ (n : Nat) : nextId (asU32 n) = asU32 (n + 1) := by
  show (n % 2 ^ 32 + 1) % 2 ^ 32 = (n + 1) % 2 ^ 32
  exact Nat.mod_add_mod ..

theorem Posting.forest (h : Posting k L L' l l' rows gaps opened) (hF : Forest L) :
    Forest L' := by
  have hk : k ∈ L.order := (hF.live k).mpr ⟨l, h.lane⟩
  refine ⟨h.order ▸ hF.nodup, ?_, ?_, ?_, ?_, ?_⟩
  · intro k'
    rw [h.order, hF.live]
    by_cases hk' : k' = k
    · subst hk'
      exact ⟨fun _ => ⟨l', h.lane'⟩, fun _ => ⟨l, h.lane⟩⟩
    · rw [h.lane_ne hk']
  · intro k' m hm
    by_cases hk' : k' = k
    · subst hk'
      obtain rfl := Option.some.inj (h.lane'.symm.trans hm)
      exact h.chained (hF.chained _ _ h.lane)
    · exact hF.chained k' m (h.lane_ne hk' ▸ hm)
  · rw [h.nextSpan, h.total_eq hF, hF.next]
    cases opened with
    | false => rfl
    | true => exact asU32_succ _
  · rw [h.spansN, h.spans, hF.reported, List.length_append]
  · have hcounted := hF.counted
    rw [sum_split L.spansAt hF.nodup hk, spansAt_of_lane h.lane] at hcounted
    rw [h.closed, h.order, sum_split L'.spansAt hF.nodup hk, spansAt_of_lane h.lane', h.spans_eq,
      sum_rest_congr (f := L.spansAt) (fun k' hk' => by rw [spansAt, spansAt, h.lane_ne hk']),
      h.spans, List.length_append]
    omega

/-! ## The forest under the other entries -/

theorem ensure_of_none (h : L.lanes k = none) :
    L.ensure k = { L.setLane k (L.fresh k) with order := L.order ++ [k] } := by
  simp only [ensure, h]

theorem ensure_gen (L : Ledger) (k : Key) : (L.ensure k).gen = L.gen := by
  unfold ensure
  split <;> rfl

theorem ensure_spans (L : Ledger) (k : Key) : (L.ensure k).spans = L.spans := by
  unfold ensure
  split <;> rfl

theorem ensure_gaps (L : Ledger) (k : Key) : (L.ensure k).gaps = L.gaps := by
  unfold ensure
  split <;> rfl

theorem notMem_order_of_none (hF : Forest L) (h : L.lanes k = none) : k ∉ L.order := by
  rw [hF.live, h]
  rintro ⟨l, hl⟩
  cases hl

/-- A table entry of the listed keys does not see a new key. -/
theorem ensure_lanes_ne (h : L.lanes k = none) {k' : Key} (hk : k' ≠ k) :
    (L.ensure k).lanes k' = L.lanes k' := by
  rw [ensure_of_none h]
  exact Function.update_of_ne hk ..

theorem ensure_lane (h : L.lanes k = none) : (L.ensure k).lanes k = some (L.fresh k) := by
  rw [ensure_of_none h]
  exact Function.update_self ..

theorem ensure_openIds (hF : Forest L) (h : L.lanes k = none) :
    (L.ensure k).openIds = L.openIds := by
  have hnew : stackIds ((L.ensure k).stackAt k) = [] := by
    rw [stackAt_of_lane (ensure_lane h)]
    rfl
  have hold : L.order.flatMap (fun k' => stackIds ((L.ensure k).stackAt k')) = L.openIds := by
    refine List.flatMap_congr fun k' hk' => ?_
    have hne : k' ≠ k := by
      rintro rfl
      exact notMem_order_of_none hF h hk'
    rw [stackAt, ensure_lanes_ne h hne, stackAt]
  have horder : (L.ensure k).order = L.order ++ [k] := by rw [ensure_of_none h]
  rw [openIds, horder, List.flatMap_append, hold, List.flatMap_singleton, hnew, List.append_nil]

theorem ensure_forest (hF : Forest L) (h : L.lanes k = none) : Forest (L.ensure k) := by
  have hk := notMem_order_of_none hF h
  have hids := ensure_openIds hF h
  have heq := ensure_of_none h
  have hspansAt : ∀ k' ∈ L.order, (L.ensure k).spansAt k' = L.spansAt k' := by
    intro k' hk'
    have hne : k' ≠ k := by
      rintro rfl
      exact hk hk'
    rw [spansAt, ensure_lanes_ne h hne, spansAt]
  refine ⟨?_, ?_, ?_, ?_, ?_, ?_⟩
  · rw [heq]
    exact List.nodup_append.mpr ⟨hF.nodup, List.nodup_singleton k, by
      intro a ha b hb hab
      rw [List.mem_singleton.mp hb] at hab
      exact hk (hab ▸ ha)⟩
  · intro k'
    by_cases hk' : k' = k
    · subst hk'
      refine ⟨fun _ => ⟨_, ensure_lane h⟩, fun _ => ?_⟩
      rw [heq]
      exact List.mem_append_right _ (List.mem_singleton_self _)
    · rw [ensure_lanes_ne h hk', ← hF.live, heq, List.mem_append, List.mem_singleton]
      exact ⟨fun hmem => hmem.resolve_right hk', Or.inl⟩
  · intro k' m hm
    by_cases hk' : k' = k
    · subst hk'
      obtain rfl := Option.some.inj ((ensure_lane h).symm.trans hm)
      trivial
    · exact hF.chained k' m (ensure_lanes_ne h hk' ▸ hm)
  · have htotal : (L.ensure k).total = L.total := by
      rw [total, allIds, hids, heq]
      rfl
    rw [htotal, heq]
    exact hF.next
  · rw [heq]
    exact hF.reported
  · have hsum : ((L.ensure k).order.map (L.ensure k).spansAt).sum =
        (L.order.map L.spansAt).sum := by
      have horder : (L.ensure k).order = L.order ++ [k] := by rw [heq]
      rw [horder, List.map_append, List.sum_append, List.map_congr_left hspansAt,
        List.map_singleton, List.sum_singleton, spansAt_of_lane (ensure_lane h)]
      rfl
    rw [hsum, heq]
    exact hF.counted

theorem dropLane_lanes_ne {k' : Key} (hk : k' ≠ k) : (L.dropLane k l).lanes k' = L.lanes k' :=
  Function.update_of_ne hk ..

theorem dropLane_lane : (L.dropLane k l).lanes k = none := Function.update_self ..

/-- Dropping an idle lane keeps every id. -/
theorem dropLane_allIds (hF : Forest L) (h : L.lanes k = some l) (hidle : l.stack = []) :
    (L.dropLane k l).allIds.Perm L.allIds := by
  have hsplit := flatMap_split (fun k => stackIds (L.stackAt k)) hF.nodup ((hF.live k).mpr ⟨l, h⟩)
  rw [stackAt_of_lane h, hidle] at hsplit
  have hrest : (L.order.filter (· ≠ k)).flatMap
      (fun k' => stackIds ((L.dropLane k l).stackAt k')) =
        (L.order.filter (· ≠ k)).flatMap fun k' => stackIds (L.stackAt k') :=
    flatMap_rest_congr fun k' hk' => by rw [stackAt, dropLane_lanes_ne hk', stackAt]
  simp only [allIds, openIds]
  refine List.Perm.append_left _ ?_
  show ((L.order.filter (· ≠ k)).flatMap fun k' => stackIds ((L.dropLane k l).stackAt k')).Perm _
  rw [hrest]
  exact hsplit.symm

theorem dropLane_forest (hF : Forest L) (h : L.lanes k = some l) (hidle : l.stack = []) :
    Forest (L.dropLane k l) := by
  have hk : k ∈ L.order := (hF.live k).mpr ⟨l, h⟩
  refine ⟨hF.nodup.filter _, ?_, ?_, ?_, hF.reported, ?_⟩
  · intro k'
    show k' ∈ L.order.filter (· ≠ k) ↔ _
    rw [List.mem_filter, decide_eq_true_eq, hF.live]
    by_cases hk' : k' = k
    · subst hk'
      rw [dropLane_lane]
      exact ⟨fun hne => absurd rfl hne.2, fun hm => by obtain ⟨m, hm⟩ := hm; cases hm⟩
    · rw [dropLane_lanes_ne hk']
      exact ⟨And.left, fun hm => ⟨hm, hk'⟩⟩
  · intro k' m hm
    by_cases hk' : k' = k
    · subst hk'
      rw [dropLane_lane] at hm
      cases hm
    · exact hF.chained k' m (dropLane_lanes_ne hk' ▸ hm)
  · rw [total, (dropLane_allIds hF h hidle).length_eq]
    exact hF.next
  · have hcounted := hF.counted
    rw [sum_split L.spansAt hF.nodup hk, spansAt_of_lane h] at hcounted
    show ((L.closed ++ [l]).map Lane.spans).sum +
      ((L.order.filter (· ≠ k)).map (L.dropLane k l).spansAt).sum = L.spans.length
    rw [sum_rest_congr (f := L.spansAt) (fun k' hk' => by
        rw [spansAt, dropLane_lanes_ne hk', spansAt]),
      List.map_append, List.sum_append, List.map_singleton, List.sum_singleton]
    omega

/-- Every entry keeps the forest. -/
theorem Entry.forest (h : Entry named L L') (hF : Forest L) : Forest L' := by
  cases h with
  | create hnone _ => exact ensure_forest hF hnone
  | post hp =>
    obtain ⟨l, l', rows, gaps, opened, hp⟩ := hp
    exact hp.forest hF
  | stray | loss => exact ⟨hF.nodup, hF.live, hF.chained, hF.next, hF.reported, hF.counted⟩
  | drop hl hidle => exact dropLane_forest hF hl hidle

/-! ## Numbering -/

/-- `p` names a row or an open frame of the thread. -/
def Known (L : Ledger) (t : ThreadId) (p : LocalId) : Prop :=
  (∃ s ∈ L.spans, s.id = p ∧ s.thread = t) ∨
    ∃ k l, L.lanes k = some l ∧ l.id = t ∧ p ∈ stackIds l.stack

/-- Ids are those handed out so far, and parents come first. -/
structure Numbered (L : Ledger) : Prop where
  ids : L.allIds.Perm (List.range L.total)
  decreasing : ∀ k l, L.lanes k = some l → Decreasing l.stack
  parents : ∀ s ∈ L.spans, ∀ p, s.parent = some p → L.Known s.thread p ∧ p < s.id

theorem mem_openIds (hF : Forest L) (h : L.lanes k = some l) {p : LocalId}
    (hp : p ∈ stackIds l.stack) : p ∈ L.openIds := by
  refine List.mem_flatMap.mpr ⟨k, (hF.live k).mpr ⟨l, h⟩, ?_⟩
  rw [stackAt_of_lane h]
  exact hp

/-- Every open frame has an id below the next one. -/
theorem Numbered.open_lt (hN : Numbered L) (hF : Forest L) (h : L.lanes k = some l) :
    ∀ o ∈ l.stack, o.id < L.total := by
  intro o ho
  have hmem : o.id ∈ L.allIds :=
    List.mem_append_right _ (mem_openIds hF h (List.mem_map_of_mem ho))
  exact List.mem_range.mp (hN.ids.subset hmem)

theorem asU32_of_lt {n : Nat} (h : n < 2 ^ 32) : asU32 n = n := Nat.mod_eq_of_lt h

/-- What a posting knew, it still knows. -/
theorem Posting.known (h : Posting k L L' l l' rows gaps opened) {t : ThreadId} {p : LocalId}
    (hp : L.Known t p) : L'.Known t p := by
  rcases hp with ⟨s, hs, hid, ht⟩ | ⟨k', m, hm, ht, hp⟩
  · exact Or.inl ⟨s, h.spans ▸ List.mem_append_left _ hs, hid, ht⟩
  · by_cases hk' : k' = k
    · subst hk'
      obtain rfl := Option.some.inj (h.lane.symm.trans hm)
      -- An open frame of the lane is now a row or still open.
      have hmem : p ∈ rows.map FunctionSpan.id ++ stackIds l'.stack :=
        h.ids.symm.subset (List.mem_append_right _ hp)
      rcases List.mem_append.mp hmem with hrow | hopen
      · obtain ⟨s, hs, hid⟩ := List.mem_map.mp hrow
        exact Or.inl ⟨s, h.spans ▸ List.mem_append_right _ hs, hid,
          (h.rows_thread s hs).trans ht⟩
      · exact Or.inr ⟨_, l', h.lane', h.id_eq.trans ht, hopen⟩
    · exact Or.inr ⟨k', m, by rw [h.lane_ne hk', hm], ht, hp⟩

theorem Posting.numbered (h : Posting k L L' l l' rows gaps opened) (hF : Forest L)
    (hN : Numbered L) (hsmall : L'.total < 2 ^ 32) : Numbered L' := by
  have htotal := h.total_eq hF
  have hnext : L.nextSpan = L.total := by
    rw [hF.next, asU32_of_lt (by omega)]
  refine ⟨?_, ?_, ?_⟩
  · refine (h.allIds_perm hF).trans ?_
    rw [htotal]
    cases opened with
    | false => exact hN.ids
    | true =>
      simp only [if_true, Bool.toNat_true, List.range_succ, hnext]
      exact (hN.ids.cons _).trans (List.perm_append_singleton ..).symm
  · intro k' m hm
    by_cases hk' : k' = k
    · subst hk'
      obtain rfl := Option.some.inj (h.lane'.symm.trans hm)
      exact h.decreasing (hN.decreasing _ _ h.lane) fun _ => hnext ▸ hN.open_lt hF h.lane
    · exact hN.decreasing k' m (h.lane_ne hk' ▸ hm)
  · intro s hs p hp
    rw [h.spans] at hs
    rcases List.mem_append.mp hs with hs | hs
    · obtain ⟨hknown, hlt⟩ := hN.parents s hs p hp
      exact ⟨h.known hknown, hlt⟩
    · rcases h.rows_from s hs with hnone | ⟨o, ho, hid, hparent⟩
      · rw [hnone] at hp
        cases hp
      · obtain ⟨hmem, hlt⟩ := parent_below (hF.chained _ _ h.lane) (hN.decreasing _ _ h.lane)
          o ho p (hparent ▸ hp)
        exact ⟨h.known (Or.inr ⟨k, l, h.lane, (h.rows_thread s hs).symm, hmem⟩), hid ▸ hlt⟩

theorem ensure_numbered (hF : Forest L) (hN : Numbered L) (h : L.lanes k = none) :
    Numbered (L.ensure k) := by
  have hids : (L.ensure k).allIds = L.allIds := by
    rw [allIds, ensure_openIds hF h, ensure_of_none h]
    rfl
  refine ⟨?_, ?_, ?_⟩
  · rw [total, hids]
    exact hN.ids
  · intro k' m hm
    by_cases hk' : k' = k
    · subst hk'
      obtain rfl := Option.some.inj ((ensure_lane h).symm.trans hm)
      exact .nil
    · exact hN.decreasing k' m (ensure_lanes_ne h hk' ▸ hm)
  · intro s hs p hp
    rw [ensure_of_none h] at hs
    obtain ⟨hknown, hlt⟩ := hN.parents s hs p hp
    refine ⟨?_, hlt⟩
    rcases hknown with ⟨s', hs', hrow⟩ | ⟨k', m, hm, hopen⟩
    · exact Or.inl ⟨s', by rw [ensure_of_none h]; exact hs', hrow⟩
    · have hne : k' ≠ k := by
        rintro rfl
        rw [h] at hm
        cases hm
      exact Or.inr ⟨k', m, by rw [ensure_lanes_ne h hne, hm], hopen⟩

theorem dropLane_numbered (hF : Forest L) (hN : Numbered L) (h : L.lanes k = some l)
    (hidle : l.stack = []) : Numbered (L.dropLane k l) := by
  have hids := dropLane_allIds hF h hidle
  refine ⟨?_, ?_, ?_⟩
  · rw [total, hids.length_eq]
    exact hids.trans hN.ids
  · intro k' m hm
    by_cases hk' : k' = k
    · subst hk'
      rw [dropLane_lane] at hm
      cases hm
    · exact hN.decreasing k' m (dropLane_lanes_ne hk' ▸ hm)
  · intro s hs p hp
    obtain ⟨hknown, hlt⟩ := hN.parents s hs p hp
    refine ⟨?_, hlt⟩
    rcases hknown with hrow | ⟨k', m, hm, ht, hopen⟩
    · exact Or.inl hrow
    · by_cases hk' : k' = k
      · subst hk'
        obtain rfl := Option.some.inj (h.symm.trans hm)
        rw [hidle] at hopen
        cases hopen
      · exact Or.inr ⟨k', m, by rw [dropLane_lanes_ne hk', hm], ht, hopen⟩

/-- Ids are never given back. -/
theorem Entry.total_le (h : Entry named L L') (hF : Forest L) : L.total ≤ L'.total := by
  cases h with
  | create hnone _ =>
    rw [total, total, allIds, allIds, ensure_openIds hF hnone, ensure_of_none hnone]
    exact Nat.le_refl _
  | post hp =>
    obtain ⟨l, l', rows, gaps, opened, hp⟩ := hp
    rw [hp.total_eq hF]
    exact Nat.le_add_right ..
  | stray | loss => exact Nat.le_refl _
  | drop hl hidle =>
    rw [total, total, (dropLane_allIds hF hl hidle).length_eq]

/-- Every entry keeps the numbering while ids do not wrap. -/
theorem Entry.numbered (h : Entry named L L') (hF : Forest L) (hN : Numbered L)
    (hsmall : L'.total < 2 ^ 32) : Numbered L' := by
  cases h with
  | create hnone _ => exact ensure_numbered hF hN hnone
  | post hp =>
    obtain ⟨l, l', rows, gaps, opened, hp⟩ := hp
    exact hp.numbered hF hN hsmall
  | stray | loss => exact ⟨hN.ids, hN.decreasing, hN.parents⟩
  | drop hl hidle => exact dropLane_numbered hF hN hl hidle

/-- The forest, numbered as long as ids do not wrap. -/
def Grown (L : Ledger) : Prop := Forest L ∧ (L.total < 2 ^ 32 → Numbered L)

theorem Entry.grown (h : Entry named L L') (hG : Grown L) : Grown L' :=
  ⟨h.forest hG.1, fun hsmall =>
    h.numbered hG.1 (hG.2 (Nat.lt_of_le_of_lt (h.total_le hG.1) hsmall)) hsmall⟩

/-! ## The gap book -/

/-- How many gaps name the thread. -/
def gapsOf (L : Ledger) (t : ThreadId) : Nat := L.gaps.countP fun g => g.thread = t

/-- `owner` gives the process a tid belongs to. Generations keep the ids of
reused tids apart, so a lane's counter speaks of its own gaps only. -/
structure GapBook (owner : Nat → Nat) (L : Ledger) : Prop where
  lanes : ∀ k l, L.lanes k = some l →
    owner k.2 = k.1 ∧ l.id = .task k.2 (L.gen k) ∧ l.gaps = L.gapsOf l.id
  unlisted : ∀ k, owner k.2 = k.1 → L.lanes k = none → L.gapsOf (.task k.2 (L.gen k)) = 0
  future : ∀ k g, owner k.2 = k.1 → L.gen k < g → L.gapsOf (.task k.2 g) = 0
  closed : ∀ l ∈ L.closed, l.gaps = L.gapsOf l.id ∧
    ∃ k g, owner k.2 = k.1 ∧ g < L.gen k ∧ l.id = .task k.2 g

/-- The owner's keys are determined by their tid. -/
theorem key_eq_of_tid {owner : Nat → Nat} {k k' : Key} (h : owner k.2 = k.1)
    (h' : owner k'.2 = k'.1) (htid : k.2 = k'.2) : k = k' := by
  refine Prod.ext ?_ htid
  rw [← h, ← h', htid]

variable {owner : Nat → Nat}

theorem Posting.gapsOf_eq (h : Posting k L L' l l' rows gaps opened) (t : ThreadId) :
    L'.gapsOf t = L.gapsOf t + if t = l.id then gaps.length else 0 := by
  rw [gapsOf, h.allGaps, List.countP_append]
  congr 1
  split
  next ht =>
    rw [List.countP_eq_length]
    intro g hg
    rw [decide_eq_true_eq, ht, h.gaps_thread g hg]
  next ht =>
    rw [List.countP_eq_zero]
    intro g hg hname
    rw [decide_eq_true_eq, h.gaps_thread g hg] at hname
    exact ht hname.symm

/-- Gaps of the lane do not count for a thread of another name. -/
theorem Posting.gapsOf_ne (h : Posting k L L' l l' rows gaps opened) {t : ThreadId}
    (ht : t ≠ l.id) : L'.gapsOf t = L.gapsOf t := by
  rw [h.gapsOf_eq, if_neg ht, Nat.add_zero]

theorem Posting.gapBook (h : Posting k L L' l l' rows gaps opened) (hB : GapBook owner L) :
    GapBook owner L' := by
  obtain ⟨hown, hid, hcount⟩ := hB.lanes k l h.lane
  refine ⟨?_, ?_, ?_, ?_⟩
  · intro k' m hm
    rw [h.gen]
    -- only the lane of the posting gets gaps, and no other task shares its id
    by_cases hk' : k' = k
    · subst hk'
      obtain rfl := Option.some.inj (h.lane'.symm.trans hm)
      refine ⟨hown, h.id_eq.trans hid, ?_⟩
      rw [h.gapsOf_eq, h.id_eq, if_pos rfl, h.gaps_eq, hcount]
    · obtain ⟨hown', hid', hcount'⟩ := hB.lanes k' m (h.lane_ne hk' ▸ hm)
      refine ⟨hown', hid', ?_⟩
      rw [h.gapsOf_ne, hcount']
      rw [hid', hid]
      rintro heq
      injection heq with htid
      exact hk' (key_eq_of_tid hown' hown htid)
  · intro k' hown' hnone
    have hk' : k' ≠ k := by
      rintro rfl
      rw [h.lane'] at hnone
      cases hnone
    rw [h.gen, h.gapsOf_ne]
    · exact hB.unlisted k' hown' (h.lane_ne hk' ▸ hnone)
    · rw [hid]
      rintro heq
      injection heq with htid
      exact hk' (key_eq_of_tid hown' hown htid)
  · intro k' g hown' hg
    rw [h.gen] at hg
    rw [h.gapsOf_ne, hB.future k' g hown' hg]
    rw [hid]
    rintro heq
    injection heq with htid hgen
    rw [key_eq_of_tid hown' hown htid] at hg
    omega
  · intro m hm
    rw [h.closed] at hm
    obtain ⟨hcount', k', g, hown', hg, hid'⟩ := hB.closed m hm
    refine ⟨?_, k', g, hown', h.gen ▸ hg, hid'⟩
    rw [h.gapsOf_ne, hcount']
    rw [hid', hid]
    rintro heq
    injection heq with htid hgen
    rw [key_eq_of_tid hown' hown htid] at hg
    omega

theorem ensure_gapBook (hB : GapBook owner L) (h : L.lanes k = none) (hown : owner k.2 = k.1) :
    GapBook owner (L.ensure k) := by
  have hgen : (L.ensure k).gen = L.gen := by rw [ensure_of_none h]; rfl
  have hgaps : (L.ensure k).gapsOf = L.gapsOf := by
    funext t
    rw [gapsOf, ensure_of_none h]
    rfl
  refine ⟨?_, ?_, ?_, ?_⟩
  · intro k' m hm
    rw [hgen, hgaps]
    by_cases hk' : k' = k
    · subst hk'
      obtain rfl := Option.some.inj ((ensure_lane h).symm.trans hm)
      exact ⟨hown, rfl, (hB.unlisted k' hown h).symm⟩
    · exact hB.lanes k' m (ensure_lanes_ne h hk' ▸ hm)
  · intro k' hown' hnone
    rw [hgen, hgaps]
    by_cases hk' : k' = k
    · subst hk'
      rw [ensure_lane h] at hnone
      cases hnone
    · exact hB.unlisted k' hown' (ensure_lanes_ne h hk' ▸ hnone)
  · rw [hgen, hgaps]
    exact hB.future
  · rw [hgen, hgaps]
    intro m hm
    rw [ensure_of_none h] at hm
    exact hB.closed m hm

theorem dropLane_gapBook (hB : GapBook owner L) (h : L.lanes k = some l) :
    GapBook owner (L.dropLane k l) := by
  obtain ⟨hown, hid, hcount⟩ := hB.lanes k l h
  have hgen_self : (L.dropLane k l).gen k = L.gen k + 1 := Function.update_self ..
  have hgen_ne : ∀ k', k' ≠ k → (L.dropLane k l).gen k' = L.gen k' :=
    fun k' hk' => Function.update_of_ne hk' ..
  have hgen_le : ∀ k', L.gen k' ≤ (L.dropLane k l).gen k' := by
    intro k'
    by_cases hk' : k' = k
    · rw [hk', hgen_self]
      exact Nat.le_succ _
    · rw [hgen_ne k' hk']
  have hgaps : (L.dropLane k l).gapsOf = L.gapsOf := rfl
  refine ⟨?_, ?_, ?_, ?_⟩
  · intro k' m hm
    by_cases hk' : k' = k
    · subst hk'
      rw [dropLane_lane] at hm
      cases hm
    · rw [hgen_ne k' hk', hgaps]
      exact hB.lanes k' m (dropLane_lanes_ne hk' ▸ hm)
  · intro k' hown' hnone
    rw [hgaps]
    by_cases hk' : k' = k
    · subst hk'
      rw [hgen_self]
      exact hB.future k' _ hown' (Nat.lt_succ_self _)
    · rw [hgen_ne k' hk']
      exact hB.unlisted k' hown' (dropLane_lanes_ne hk' ▸ hnone)
  · intro k' g hown' hg
    exact hB.future k' g hown' (Nat.lt_of_le_of_lt (hgen_le k') hg)
  · intro m hm
    rw [hgaps]
    rcases List.mem_append.mp hm with hm | hm
    · obtain ⟨hcount', k', g, hown', hg, hid'⟩ := hB.closed m hm
      exact ⟨hcount', k', g, hown', Nat.lt_of_lt_of_le hg (hgen_le k'), hid'⟩
    · rw [List.mem_singleton.mp hm]
      exact ⟨hcount, k, L.gen k, hown, by rw [hgen_self]; exact Nat.lt_succ_self _, hid⟩

theorem addGap_unknown_gapsOf (kind : GapKind) (a b : Option Nat) (x : Bool) (reason : String)
    (tid g : Nat) :
    (L.addGap .unknown kind a b x reason).gapsOf (.task tid g) = L.gapsOf (.task tid g) := by
  simp [gapsOf, addGap]

/-- Every entry keeps the gap book. -/
theorem Entry.gapBook (h : Entry (fun k => owner k.2 = k.1) L L') (hB : GapBook owner L) :
    GapBook owner L' := by
  cases h with
  | create hnone hown => exact ensure_gapBook hB hnone hown
  | post hp =>
    obtain ⟨l, l', rows, gaps, opened, hp⟩ := hp
    exact hp.gapBook hB
  | stray kind a b x reason =>
    refine ⟨?_, ?_, ?_, ?_⟩
    · intro k l hl
      obtain ⟨hown, hid, hcount⟩ := hB.lanes k l hl
      refine ⟨hown, hid, ?_⟩
      rw [hcount, hid, addGap_unknown_gapsOf]
    · intro k hown hnone
      rw [addGap_unknown_gapsOf]
      exact hB.unlisted k hown hnone
    · intro k g hown hg
      rw [addGap_unknown_gapsOf]
      exact hB.future k g hown hg
    · intro l hl
      obtain ⟨hcount, k, g, hown, hg, hid⟩ := hB.closed l hl
      refine ⟨?_, k, g, hown, hg, hid⟩
      rw [hcount, hid, addGap_unknown_gapsOf]
  | loss => exact ⟨hB.lanes, hB.unlisted, hB.future, hB.closed⟩
  | drop hl _ => exact dropLane_gapBook hB hl

end Ledger

end TraceMcp.Decode
