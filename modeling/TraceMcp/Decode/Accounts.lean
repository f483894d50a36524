import Mathlib.Data.List.Sort
import TraceMcp.Decode.Forest

/-!
# The accounts of a finished analysis

The invariants of `Forest.lean` carried through `finish`: closing the open
frames is one more posting per thread, rebasing keeps ids, threads and
parents, and sorting the rows by id lines them up with `0, 1, 2, …`.
-/

namespace TraceMcp.Decode

open TraceMcp.Lib Ledger Reconstructor

/-- The accounts of an analysis agree with its rows. -/
structure Accounts (ir : AnalysisIr) : Prop where
  /-- The ids are exactly `0..n-1`, each emitted once. -/
  ids : ir.spans.map FunctionSpan.id = List.range ir.spans.length
  /-- A parent is an emitted span of the same thread with a smaller id. -/
  parents : ∀ s ∈ ir.spans, ∀ p, s.parent = some p →
    ∃ q ∈ ir.spans, q.id = p ∧ q.thread = s.thread ∧ p < s.id
  spanCounts : (ir.threads.map ThreadLifetime.spanCount).sum = ir.spanCount
  gapCounts : ∀ t ∈ ir.threads, t.gapCount = (ir.gaps.filter fun g => g.thread = t.id).length
  gapsByKind : ir.quality.gapsByKind.total id = ir.quality.gapCount
  incomplete : ir.quality.incompleteSpanCount =
    (ir.spans.filter fun s => s.completeness ≠ .complete).length

/-! ## Gap kinds -/

theorem total_bump (m : FastMap String Nat) (k : String) :
    FastMap.total id (m.insert k ((FastMap.get m k).getD 0 + 1)) = FastMap.total id m + 1 := by
  cases h : FastMap.get m k with
  | none =>
    rw [FastMap.total_insert_of_none _ _ h]
    exact Nat.add_comm ..
  | some n =>
    have hsum := FastMap.total_insert_of_get id (n + 1) h
    simp only [id_eq] at hsum
    rw [Option.getD_some]
    omega

/-- The kinds add up to all gaps. -/
theorem countByKind_total (gaps : List GapRecord) :
    FastMap.total id (countByKind gaps) = gaps.length := by
  have hfold : ∀ (gaps : List GapRecord) (m : FastMap String Nat),
      FastMap.total id (gaps.foldl (fun m g => m.insert g.kind.name
        ((FastMap.get m g.kind.name).getD 0 + 1)) m) = FastMap.total id m + gaps.length := by
    intro gaps
    induction gaps with
    | nil => exact fun m => rfl
    | cons g gaps ih =>
      intro m
      rw [List.foldl_cons, ih, total_bump, List.length_cons]
      omega
  rw [countByKind, hfold, FastMap.total_empty, Nat.zero_add]

/-! ## The closed ledger -/

variable {owner : Nat → Nat} {named : Key → Prop}

theorem empty_grown (spilling : Bool) : Grown (.empty spilling) := by
  refine ⟨⟨.nil, ?_, ?_, rfl, rfl, rfl⟩, fun _ => ⟨.refl _, ?_, ?_⟩⟩
  · intro k
    exact ⟨fun h => absurd h List.not_mem_nil, fun ⟨l, hl⟩ => by cases hl⟩
  · intro k l hl
    cases hl
  · intro k l hl
    cases hl
  · exact fun s hs => absurd hs List.not_mem_nil

theorem empty_gapBook (owner : Nat → Nat) (spilling : Bool) :
    GapBook owner (.empty spilling) := by
  refine ⟨?_, fun _ _ _ => rfl, fun _ _ _ _ => rfl, fun l hl => absurd hl List.not_mem_nil⟩
  intro k l hl
  cases hl

theorem Ledger.Entry.spilling {L L' : Ledger} (h : Entry named L L') :
    L'.spilling = L.spilling := by
  cases h with
  | create hnone _ =>
    rw [ensure_of_none hnone]
    rfl
  | post hp =>
    obtain ⟨l, l', rows, gaps, opened, hp⟩ := hp
    exact hp.spilling
  | stray | loss => rfl
  | drop => rfl

theorem close_entry (L : Ledger) (k : Key) (l : Lane) (hl : L.lanes k = some l) :
    Entry named L (L.close k l) :=
  .post (close_posts hl none openCompleteness)

/-- Closing all threads keeps what entries keep. -/
theorem closeAll_entries {P : Ledger → Prop} {r : Reconstructor}
    (hentry : ∀ L L', Entry named L L' → P L → P L') (h : P (ledger r)) :
    P (ledger r.closeAll) :=
  closeAll_invariant (fun L k l hl hP => hentry _ _ (close_entry L k l hl) hP) h

/-- After the close no frame is open, so every id is a row's. -/
theorem closeAll_openIds {r : Reconstructor} : (ledger r.closeAll).openIds = [] := by
  have horder : (ledger r.closeAll).order = r.threadOrder :=
    closeAll_invariant (P := fun L => L.order = r.threadOrder) (fun L k l _ h => h) rfl
  rw [openIds, horder, List.flatMap_eq_nil_iff]
  intro k hk
  cases hl : (ledger r.closeAll).lanes k with
  | none =>
    rw [stackAt, hl]
    rfl
  | some l =>
    rw [stackAt_of_lane hl, closeAll_idle hk l hl]
    rfl

/-! ## Through `finish` -/

section Finished

variable {L : Ledger} {ir : AnalysisIr}

theorem Finished.ids (h : Finished L ir) (hres : L.spilling = false) (hopen : L.openIds = [])
    (hN : Numbered L) : ir.spans.map FunctionSpan.id = List.range ir.spans.length := by
  obtain ⟨rows, hrows, hperm⟩ := h.rows
  obtain ⟨hsorted, hspans, -⟩ := h.sorted hres
  rw [hspans] at hperm
  have hmap : L.spans.map FunctionSpan.id = rows.map FunctionSpan.id :=
    forall₂_map_eq hrows fun s s' hs => hs.id_eq.symm
  have hids := hN.ids
  rw [total, allIds, hopen, List.append_nil, List.length_map] at hids
  have hlen : ir.spans.length = L.spans.length := hperm.length_eq.trans hrows.length_eq.symm
  rw [hlen]
  refine List.Perm.eq_of_pairwise' (r := (· ≤ ·)) ?_ List.pairwise_le_range ?_
  · exact List.pairwise_map.mpr hsorted
  · exact (hperm.map _).trans (hmap ▸ hids)

theorem Finished.parents (h : Finished L ir) (hres : L.spilling = false) (hF : Forest L)
    (hopen : L.openIds = []) (hN : Numbered L) : ∀ s ∈ ir.spans, ∀ p, s.parent = some p →
      ∃ q ∈ ir.spans, q.id = p ∧ q.thread = s.thread ∧ p < s.id := by
  obtain ⟨rows, hrows, hperm⟩ := h.rows
  rw [(h.sorted hres).2.1] at hperm
  intro s hs p hp
  obtain ⟨s₀, hs₀, hs⟩ := forall₂_mem_right hrows s (hperm.subset hs)
  obtain ⟨hknown, hlt⟩ := hN.parents s₀ hs₀ p (hs.parent_eq ▸ hp)
  rcases hknown with ⟨q₀, hq₀, hid, hthread⟩ | ⟨k, l, hl, -, hmem⟩
  · obtain ⟨q, hq, hq'⟩ := forall₂_mem_left hrows q₀ hq₀
    exact ⟨q, hperm.symm.subset hq, hq'.id_eq.trans hid,
      (hq'.thread_eq.trans hthread).trans hs.thread_eq.symm, hs.id_eq ▸ hlt⟩
  · have hmem' := mem_openIds hF hl hmem
    rw [hopen] at hmem'
    cases hmem'

theorem filterMap_lanes_spans (hlive : ∀ k ∈ L.order, ∃ l, L.lanes k = some l) :
    (L.order.filterMap L.lanes).map Lane.spans = L.order.map L.spansAt := by
  generalize L.order = order at hlive
  induction order with
  | nil => rfl
  | cons k ks ih =>
    obtain ⟨l, hl⟩ := hlive k List.mem_cons_self
    rw [List.filterMap_cons_some hl, List.map_cons, List.map_cons, spansAt_of_lane hl,
      ih fun k' hk' => hlive k' (List.mem_cons_of_mem _ hk')]

theorem Finished.spanCounts (h : Finished L ir) (hF : Forest L) :
    (ir.threads.map ThreadLifetime.spanCount).sum = ir.spanCount := by
  have hmap : (L.closed ++ L.order.filterMap L.lanes).map Lane.spans =
      ir.threads.map ThreadLifetime.spanCount :=
    forall₂_map_eq h.threads fun l t ht => ht.2.1.symm
  rw [← hmap, h.spanCount, hF.reported, ← hF.counted, List.map_append, List.sum_append,
    filterMap_lanes_spans fun k hk => (hF.live k).mp hk]

/-- Every listed lane's counter is the number of gaps naming it. -/
theorem listed_gaps (hB : GapBook owner L) :
    ∀ l ∈ L.closed ++ L.order.filterMap L.lanes, l.gaps = L.gapsOf l.id := by
  intro l hl
  rcases List.mem_append.mp hl with hl | hl
  · exact (hB.closed l hl).1
  · obtain ⟨k, -, hk⟩ := List.mem_filterMap.mp hl
    exact (hB.lanes k l hk).2.2

theorem Finished.gapCounts (h : Finished L ir) (hB : GapBook owner L) :
    ∀ t ∈ ir.threads, t.gapCount = (ir.gaps.filter fun g => g.thread = t.id).length := by
  intro t ht
  obtain ⟨l, hl, hid, -, hgaps⟩ := forall₂_mem_right h.threads t ht
  have hthreads : L.gaps.map GapRecord.thread = ir.gaps.map GapRecord.thread :=
    forall₂_map_eq h.gaps fun g g' hg => hg.thread_eq.symm
  rw [hgaps, listed_gaps hB l hl, hid, gapsOf, ← List.countP_eq_length_filter]
  have hcount := congrArg (List.countP fun name => decide (name = l.id)) hthreads
  rw [List.countP_map, List.countP_map] at hcount
  exact hcount

end Finished

/-! ## The theorem -/

/-- Two processes never share a tid: `owner` is the process of each. -/
def SingleOwner (owner : Nat → Nat) (recs : List RawRecord) : Prop :=
  ∀ rec ∈ recs, ∀ k, namedKey rec = some k → owner k.2 = k.1

/-- The forest after any stream. -/
theorem pushAll_forest {r₀ r : Reconstructor} {recs : List RawRecord} (h₀ : Built r₀)
    (h : r₀.pushAll recs = .ok r) : Forest (ledger r) :=
  pushAll_entries (fun _ _ (he : Entry (fun _ => True) _ _) hF => he.forest hF)
    (fun _ _ _ _ => trivial) (h₀.ledger ▸ (empty_grown _).1) h

/-- Reconstruction keeps its forest and its accounts: in every reachable state
the open frames of a thread form a chain, and a finished analysis of fewer
than `2^32` spans agrees with its own counters. -/
theorem reconstruct_accounts {r₀ : Reconstructor} {recs : List RawRecord} {owner : Nat → Nat}
    (hbuilt : Built r₀) (hspill : r₀.spill = none) (howner : SingleOwner owner recs) :
    (∀ pre, pre <+: recs → ∀ r, r₀.pushAll pre = .ok r →
      ∀ k st, r.threads.get k = some st → Chained st.stack) ∧
    (∀ r ir, r₀.pushAll recs = .ok r → r.finish = .ok ir → ir.spanCount < 2 ^ 32 →
      Accounts ir) := by
  refine ⟨?_, ?_⟩
  · intro pre _ r hr k st hst
    exact (pushAll_forest hbuilt hr).chained k (laneOf st) (lanes_ledger.mpr ⟨st, hst, rfl⟩)
  · intro r ir hr hfin hsmall
    have hentries : ∀ (P : Ledger → Prop),
        (∀ L L', Entry (fun k => owner k.2 = k.1) L L' → P L → P L') →
        P (.empty false) → P (ledger r.closeAll) := by
      intro P hP hempty
      refine closeAll_entries hP (pushAll_entries hP howner ?_ hr)
      rw [hbuilt.ledger, hspill]
      exact hempty
    obtain ⟨hF, hnum⟩ := hentries Grown (fun _ _ he => he.grown) (empty_grown false)
    have hB := hentries (GapBook owner) (fun _ _ he => he.gapBook) (empty_gapBook owner false)
    have hres := hentries (fun L => L.spilling = false)
      (fun _ _ he hL => he.spilling.trans hL) rfl
    have hopen : (ledger r.closeAll).openIds = [] := closeAll_openIds
    have hfinished := finish_finished (fun k hk => (hF.live k).mp hk) hfin
    have hN := hnum (by
      rw [total, allIds, hopen, List.append_nil, List.length_map, ← hF.reported,
        ← hfinished.spanCount]
      exact hsmall)
    refine ⟨hfinished.ids hres hopen hN, hfinished.parents hres hF hopen hN,
      hfinished.spanCounts hF, hfinished.gapCounts hB, ?_, (hfinished.sorted hres).2.2⟩
    rw [hfinished.gapsByKind, countByKind_total, hfinished.gapCount]

/-- Two nested calls and one return. -/
def nestedCalls : List RawRecord :=
  [branchAt 1 10 .CALL 100 200, branchAt 1 20 .CALL 210 300, branchAt 1 30 .RETURN 310 215]

theorem nestedCalls_ok : ∃ r ir, bare.pushAll nestedCalls = .ok r ∧ r.finish = .ok ir ∧
    ir.spanCount = 2 := by
  obtain ⟨ir, hir, hcount⟩ := ok_of_any (x := bare.pushAll nestedCalls >>= finish)
    (p := fun ir => ir.spanCount == 2) (by decide)
  obtain ⟨r, hr, hfin⟩ := bind_ok.mp hir
  exact ⟨r, ir, hr, hfin, eq_of_beq hcount⟩

/-- `reconstruct_accounts` on a stream that emits two spans. -/
theorem reconstruct_accounts_nestedCalls :
    ∃ r ir, bare.pushAll nestedCalls = .ok r ∧ r.finish = .ok ir ∧ ir.spanCount = 2 ∧
      Accounts ir := by
  obtain ⟨r, ir, hr, hfin, hcount⟩ := nestedCalls_ok
  have howner : SingleOwner (fun _ => 7) nestedCalls := by
    intro rec hrec k hk
    simp only [nestedCalls, List.mem_cons, List.not_mem_nil, or_false] at hrec
    rcases hrec with rfl | rfl | rfl <;> cases hk <;> rfl
  have hbuilt : Built bare := .new ..
  exact ⟨r, ir, hr, hfin, hcount,
    (reconstruct_accounts hbuilt rfl howner).2 r ir hr hfin (by rw [hcount]; decide)⟩

end TraceMcp.Decode
