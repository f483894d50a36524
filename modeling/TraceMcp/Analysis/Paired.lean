import TraceMcp.Analysis.Compare

/-!
# What a comparison accounts for

The passes of `pair_rows` mark what they push (`Pairs.push`), and the last two
leave alone what is marked: each row of the baseline and of the candidate comes
up once there. The caller's function pairs do not ask about the marks. So a
comparison accounts for every row exactly once just where no two function pairs
select one row (`accounts_iff`).
-/

namespace TraceMcp.Analysis

open TraceMcp.Lib

variable {baseline candidate : List HotpathRow} {allowPerf : Bool}

/-! ## Marks -/

/-- The baseline rows of some pairings, in order. -/
def baselines (ps : List Pairing) : List Nat := ps.filterMap (·.baseline)

/-- The candidate rows of some pairings, in order. -/
def candidates (ps : List Pairing) : List Nat := ps.filterMap (·.candidate)

theorem baselines_append (ps qs : List Pairing) :
    baselines (ps ++ qs) = baselines ps ++ baselines qs := List.filterMap_append

theorem candidates_append (ps qs : List Pairing) :
    candidates (ps ++ qs) = candidates ps ++ candidates qs := List.filterMap_append

/-- What is pushed is marked, and nothing else. -/
structure Marked (s : Pairs) : Prop where
  usedB : s.usedB = baselines s.rows
  usedC : s.usedC = candidates s.rows

theorem Marked.empty : Marked .empty := ⟨rfl, rfl⟩

theorem Marked.push {s : Pairs} (h : Marked s) (p : Pairing) : Marked (s.push p) where
  usedB := by
    show s.usedB ++ p.baseline.toList = baselines (s.rows ++ [p])
    rw [h.usedB, baselines_append]
    cases hp : p.baseline <;> simp [baselines, hp]
  usedC := by
    show s.usedC ++ p.candidate.toList = candidates (s.rows ++ [p])
    rw [h.usedC, candidates_append]
    cases hp : p.candidate <;> simp [candidates, hp]

/-! ## The function pairs -/

/-- The baseline rows that the function pairs select, pair by pair. -/
def baselineHits (baseline : List HotpathRow) (pairs : List FunctionPair) : List Nat :=
  pairs.filterMap fun pair => positionOf baseline pair.baselineFunctionId

/-- The candidate rows that the function pairs select, pair by pair. -/
def candidateHits (candidate : List HotpathRow) (pairs : List FunctionPair) : List Nat :=
  pairs.filterMap fun pair => positionOf candidate pair.candidateFunctionId

theorem positionOf_lt {rows : List HotpathRow} {id : String} {i : Nat}
    (h : positionOf rows id = some i) : i < rows.length :=
  (List.findIdx?_eq_some_iff_getElem.mp h).1

variable (baseline candidate allowPerf) in
/-- A function pair marks what it selects. -/
theorem pairExplicit_used (s : Pairs) (pair : FunctionPair) :
    (pairExplicit baseline candidate allowPerf s pair).usedB
        = s.usedB ++ (positionOf baseline pair.baselineFunctionId).toList
      ∧ (pairExplicit baseline candidate allowPerf s pair).usedC
        = s.usedC ++ (positionOf candidate pair.candidateFunctionId).toList := by
  rw [pairExplicit]
  cases positionOf baseline pair.baselineFunctionId <;>
    cases positionOf candidate pair.candidateFunctionId <;> simp [Pairs.push]

variable (baseline candidate allowPerf) in
theorem pairExplicit_marked {s : Pairs} (h : Marked s) (pair : FunctionPair) :
    Marked (pairExplicit baseline candidate allowPerf s pair) := by
  rw [pairExplicit]
  split
  · exact h.push _
  · exact h.push _
  · exact h.push _
  · exact h

variable (baseline candidate allowPerf) in
/-- All function pairs. -/
theorem foldl_pairExplicit (pairs : List FunctionPair) : ∀ {s : Pairs}, Marked s →
    Marked (pairs.foldl (pairExplicit baseline candidate allowPerf) s)
      ∧ (pairs.foldl (pairExplicit baseline candidate allowPerf) s).usedB
        = s.usedB ++ baselineHits baseline pairs
      ∧ (pairs.foldl (pairExplicit baseline candidate allowPerf) s).usedC
        = s.usedC ++ candidateHits candidate pairs := by
  induction pairs with
  | nil =>
    intro s h
    exact ⟨h, (List.append_nil _).symm, (List.append_nil _).symm⟩
  | cons pair pairs ih =>
    intro s h
    obtain ⟨hb, hc⟩ := pairExplicit_used baseline candidate allowPerf s pair
    obtain ⟨hmarked, hbs, hcs⟩ := ih (pairExplicit_marked baseline candidate allowPerf h pair)
    rw [List.foldl_cons]
    refine ⟨hmarked, ?_, ?_⟩
    · rw [hbs, hb, List.append_assoc, baselineHits, baselineHits, List.filterMap_cons]
      cases positionOf baseline pair.baselineFunctionId <;> rfl
    · rw [hcs, hc, List.append_assoc, candidateHits, candidateHits, List.filterMap_cons]
      cases positionOf candidate pair.candidateFunctionId <;> rfl

/-! ## The baseline -/

/-- A partner is a row of the candidate that is not used yet. -/
theorem partnerOf_fresh {usedC : List Nat} {b c : HotpathRow} {j : Nat}
    (h : partnerOf candidate usedC b = some (c, j)) :
    candidate[j]? = some c ∧ j ∉ usedC := by
  have hmem := List.mem_of_find?_eq_some h
  have hp := List.find?_some h
  refine ⟨List.mk_mem_zipIdx_iff_getElem?.mp hmem, ?_⟩
  simp only [Bool.and_eq_true, Bool.not_eq_true', decide_eq_false_iff_not] at hp
  exact hp.1

variable (baseline candidate allowPerf) in
/-- What one row of the baseline can do: nothing, where it is used already, or
one push of it, with a candidate at most that is not used yet. -/
theorem pairRow_cases (s : Pairs) (b : HotpathRow) (i : Nat) :
    (i ∈ s.usedB ∧ pairRow baseline candidate allowPerf s (b, i) = s)
      ∨ (i ∉ s.usedB ∧ ∃ p : Pairing, p.baseline = some i
        ∧ (∀ j, p.candidate = some j → j < candidate.length ∧ j ∉ s.usedC)
        ∧ pairRow baseline candidate allowPerf s (b, i) = s.push p) := by
  by_cases hi : i ∈ s.usedB
  · exact Or.inl ⟨hi, by rw [pairRow, if_pos hi]⟩
  · refine Or.inr ⟨hi, ?_⟩
    by_cases hn : 1 < countOf (stemCounts baseline) (stemOf b)
        ∨ 1 < countOf (stemCounts candidate) (stemOf b)
    · refine ⟨⟨some i, none, false, .ambiguous⟩, rfl, fun j hj => ?_, ?_⟩
      · exact absurd hj (Option.some_ne_none j).symm
      · rw [pairRow, if_neg hi, if_pos hn]
    · cases hp : partnerOf candidate s.usedC b with
      | none =>
        refine ⟨⟨some i, none, false, .unmatched⟩, rfl, fun j hj => ?_, ?_⟩
        · exact absurd hj (Option.some_ne_none j).symm
        · rw [pairRow, if_neg hi, if_neg hn, hp]
      | some cj =>
        obtain ⟨c, j⟩ := cj
        obtain ⟨hc, hj⟩ := partnerOf_fresh hp
        refine ⟨⟨some i, some j, allowPerf, if c.path = b.path then .path else .demangledPath⟩,
          rfl, fun j' hj' => ?_, ?_⟩
        · obtain rfl : j = j' := Option.some.inj hj'
          exact ⟨(List.getElem?_eq_some_iff.mp hc).1, hj⟩
        · rw [pairRow, if_neg hi, if_neg hn, hp]

/-- What a stretch of the baseline leaves: its own rows marked once each, and
some rows of the candidate that were not marked before. -/
structure Through (candidate : List HotpathRow) (l : List (HotpathRow × Nat)) (s s' : Pairs) :
    Prop where
  marked : Marked s'
  usedB : s'.usedB = s.usedB ++ (l.map (·.2)).filter (· ∉ s.usedB)
  usedC : ∃ extra : List Nat, s'.usedC = s.usedC ++ extra ∧ extra.Nodup
    ∧ ∀ j ∈ extra, j < candidate.length ∧ j ∉ s.usedC

variable (baseline candidate allowPerf) in
theorem foldl_pairRow (l : List (HotpathRow × Nat)) (hl : (l.map (·.2)).Nodup) :
    ∀ {s : Pairs}, Marked s →
      Through candidate l s (l.foldl (pairRow baseline candidate allowPerf) s) := by
  induction l with
  | nil =>
    intro s h
    exact ⟨h, (List.append_nil _).symm, [], (List.append_nil _).symm, List.nodup_nil,
      fun j hj => absurd hj List.not_mem_nil⟩
  | cons bi l ih =>
    intro s h
    obtain ⟨b, i⟩ := bi
    obtain ⟨hfresh, hnodup⟩ := List.nodup_cons.mp hl
    rw [List.foldl_cons]
    rcases pairRow_cases baseline candidate allowPerf s b i with ⟨hi, heq⟩ | ⟨hi, p, hpb, hpc, heq⟩
    · rw [heq]
      obtain ⟨hmarked, hb, hc⟩ := ih hnodup h
      refine ⟨hmarked, ?_, hc⟩
      rw [hb, List.map_cons, List.filter_cons_of_neg (by simpa using hi)]
    · rw [heq]
      obtain ⟨hmarked, hb, extra, hc, hextra, hnew⟩ := ih hnodup (h.push p)
      have hpush : (s.push p).usedB = s.usedB ++ [i] := by
        show s.usedB ++ p.baseline.toList = _
        rw [hpb]
        rfl
      refine ⟨hmarked, ?_, p.candidate.toList ++ extra, ?_, ?_, ?_⟩
      · -- the rows after this one are others
        have hrest : (l.map (·.2)).filter (· ∉ s.usedB ++ [i])
            = (l.map (·.2)).filter (· ∉ s.usedB) := by
          apply List.filter_congr
          intro i' hi'
          have hne : i' ≠ i := fun heq' => hfresh (heq' ▸ hi')
          simp [hne]
        rw [hb, hpush, hrest, List.map_cons, List.filter_cons_of_pos (by simpa using hi),
          List.append_assoc]
        rfl
      · rw [hc, ← List.append_assoc]
        rfl
      · rw [List.nodup_append']
        refine ⟨?_, hextra, ?_⟩
        · cases p.candidate <;> simp
        · intro j hj hj'
          apply (hnew j hj').2
          exact List.mem_append_right _ hj
      · intro j hj
        rcases List.mem_append.mp hj with hj | hj
        · exact hpc j (Option.mem_toList.mp hj)
        · exact ⟨(hnew j hj).1, fun hmem => (hnew j hj).2 (List.mem_append_left _ hmem)⟩

/-! ## All passes -/

theorem map_snd_zipIdx {α : Type} (l : List α) : l.zipIdx.map (·.2) = List.range l.length := by
  rw [List.range_eq_range']
  exact List.zipIdx_map_snd 0 l

/-- What the candidate has left, of a stretch of its rows. -/
theorem candidates_leftover (usedC : List Nat) (l : List (HotpathRow × Nat)) :
    candidates (l.filterMap (leftover candidate usedC)) = (l.map (·.2)).filter (· ∉ usedC) := by
  induction l with
  | nil => rfl
  | cons cj l ih =>
    rw [candidates] at ih ⊢
    by_cases hj : cj.2 ∈ usedC
    · rw [List.filterMap_cons_none (by rw [leftover, if_pos hj]), ih, List.map_cons,
        List.filter_cons_of_neg (by simpa using hj)]
    · rw [List.filterMap_cons_some (by rw [leftover, if_neg hj]), List.map_cons,
        List.filter_cons_of_pos (by simpa using hj), ← ih]
      rfl

/-- No row of the baseline is left. -/
theorem baselines_leftover (usedC : List Nat) (l : List (HotpathRow × Nat)) :
    baselines (l.filterMap (leftover candidate usedC)) = [] := by
  rw [baselines, List.filterMap_filterMap, List.filterMap_eq_nil_iff]
  intro cj _
  rw [leftover]
  split <;> rfl

theorem pairings_eq (pairs : List FunctionPair) :
    pairings baseline candidate allowPerf pairs
      = (pairBaseline baseline candidate allowPerf pairs).rows
        ++ candidate.zipIdx.filterMap
          (leftover candidate (pairBaseline baseline candidate allowPerf pairs).usedC) := rfl

/-- The baseline rows of a comparison: those that the function pairs select,
then the others. -/
theorem baselines_pairings (pairs : List FunctionPair) :
    baselines (pairings baseline candidate allowPerf pairs)
      = baselineHits baseline pairs
        ++ (List.range baseline.length).filter (· ∉ baselineHits baseline pairs) := by
  obtain ⟨hmarked, hb, -⟩ := foldl_pairExplicit baseline candidate allowPerf pairs Marked.empty
  have hthrough := foldl_pairRow baseline candidate allowPerf baseline.zipIdx
    (by rw [map_snd_zipIdx]; exact List.nodup_range) hmarked
  rw [pairings_eq, baselines_append, baselines_leftover, List.append_nil]
  apply hthrough.marked.usedB.symm.trans
  rw [hthrough.usedB, hb, map_snd_zipIdx]
  rfl

variable (baseline candidate allowPerf) in
/-- The candidate rows of a comparison: those that the function pairs select,
the partners of baseline rows, and the others. -/
theorem candidates_pairings (pairs : List FunctionPair) :
    ∃ extra : List Nat, extra.Nodup
      ∧ (∀ j ∈ extra, j < candidate.length ∧ j ∉ candidateHits candidate pairs)
      ∧ candidates (pairings baseline candidate allowPerf pairs)
        = (candidateHits candidate pairs ++ extra)
          ++ (List.range candidate.length).filter (· ∉ candidateHits candidate pairs ++ extra) := by
  obtain ⟨hmarked, -, hc⟩ := foldl_pairExplicit baseline candidate allowPerf pairs Marked.empty
  obtain ⟨hdone, -, extra, hextra, hnodup, hnew⟩ := foldl_pairRow baseline candidate allowPerf
    baseline.zipIdx
    (by rw [map_snd_zipIdx]; exact List.nodup_range) hmarked
  have hhits : (pairs.foldl (pairExplicit baseline candidate allowPerf) .empty).usedC
      = candidateHits candidate pairs := hc
  rw [hhits] at hextra hnew
  refine ⟨extra, hnodup, hnew, ?_⟩
  have hused : (pairBaseline baseline candidate allowPerf pairs).usedC
      = candidateHits candidate pairs ++ extra := hextra
  have hrows : candidates (pairBaseline baseline candidate allowPerf pairs).rows
      = candidateHits candidate pairs ++ extra := hdone.usedC.symm.trans hextra
  rw [pairings_eq, candidates_append, hrows, candidates_leftover, map_snd_zipIdx, hused]

/-- Each of `n` rows comes up once in a list that has some first, each of them
below `n`, and then the others. -/
theorem count_once_iff {n : Nat} {first : List Nat} (h : ∀ i ∈ first, i < n) :
    (∀ i < n, (first ++ (List.range n).filter (· ∉ first)).count i = 1) ↔ first.Nodup := by
  have hcount : ∀ i < n, (first ++ (List.range n).filter (· ∉ first)).count i
      = if i ∈ first then first.count i else 1 := by
    intro i hi
    rw [List.count_append]
    split
    · next hmem =>
      have hout : i ∉ (List.range n).filter (· ∉ first) := fun hin =>
        of_decide_eq_true (List.mem_filter.mp hin).2 hmem
      rw [List.count_eq_zero.mpr hout, Nat.add_zero]
    · next hmem =>
      rw [List.count_eq_zero.mpr hmem, Nat.zero_add]
      apply List.count_eq_one_of_mem (List.nodup_range.filter _)
      exact List.mem_filter.mpr ⟨List.mem_range.mpr hi, decide_eq_true hmem⟩
  constructor
  · intro hall
    apply List.nodup_iff_count_le_one.mpr
    intro i
    by_cases hmem : i ∈ first
    · have hone := hall i (h i hmem)
      rw [hcount i (h i hmem), if_pos hmem] at hone
      omega
    · rw [List.count_eq_zero.mpr hmem]
      omega
  · intro hnodup i hi
    rw [hcount i hi]
    split
    · next hmem => exact List.count_eq_one_of_mem hnodup hmem
    · rfl

/-- A comparison accounts for every row: each row of either side is in exactly
one row of the report. A row of the report has one row of a side at most, as
`Pairing` has. -/
def Accounts (baseline candidate : List HotpathRow) (allowPerf : Bool)
    (pairs : List FunctionPair) : Prop :=
  (∀ i < baseline.length,
      (baselines (pairings baseline candidate allowPerf pairs)).count i = 1)
    ∧ ∀ j < candidate.length,
      (candidates (pairings baseline candidate allowPerf pairs)).count j = 1

/-- A comparison accounts for every row exactly where no two function pairs
select one row of a side. -/
theorem accounts_iff (baseline candidate : List HotpathRow) (allowPerf : Bool)
    (pairs : List FunctionPair) :
    Accounts baseline candidate allowPerf pairs
      ↔ (baselineHits baseline pairs).Nodup ∧ (candidateHits candidate pairs).Nodup := by
  have hb : ∀ i ∈ baselineHits baseline pairs, i < baseline.length := by
    intro i hi
    obtain ⟨pair, -, hpos⟩ := List.mem_filterMap.mp hi
    exact positionOf_lt hpos
  have hc : ∀ j ∈ candidateHits candidate pairs, j < candidate.length := by
    intro j hj
    obtain ⟨pair, -, hpos⟩ := List.mem_filterMap.mp hj
    exact positionOf_lt hpos
  obtain ⟨extra, hnodup, hnew, hcs⟩ := candidates_pairings baseline candidate allowPerf pairs
  rw [Accounts, baselines_pairings, hcs, count_once_iff hb, count_once_iff, List.nodup_append']
  · refine and_congr_right fun _ => ⟨fun h => h.1, fun h => ⟨h, hnodup, ?_⟩⟩
    intro j hj hj'
    exact (hnew j hj').2 hj
  · intro j hj
    rcases List.mem_append.mp hj with hj | hj
    · exact hc j hj
    · exact (hnew j hj).1

/-- A row as the tests of the source have them. -/
def testRow (path : String) (ns : Nat) : HotpathRow :=
  ⟨path, 10, 10, some ns, some ns, some ns, some ns, none, 0, 10, none⟩

/-- Two function pairs that split one function into two: the report has the
baseline's row twice. -/
theorem accounts_split :
    ¬ Accounts [testRow "root/parse" 100] [testRow "root/parse_head" 60, testRow "root/parse_tail" 50]
      true [⟨"parse", "parse_head"⟩, ⟨"parse", "parse_tail"⟩] := by
  intro h
  have hone := h.1 0 (by decide)
  rw [baselines_pairings] at hone
  revert hone
  decide

end TraceMcp.Analysis
