import TraceMcp.Analysis.Paired
import Mathlib.Data.List.Find
import Mathlib.Data.List.NodupEquivFin

/-!
# What a comparison matches by itself

Without function pairs, the stem of a row decides what becomes of it: how many
rows of the baseline and how many of the candidate share it (`Settles`). Two
things follow from the order in which `pair_rows` asks. Whether a stem is
ambiguous is asked before the paths are compared, so that a run compared with
itself is unchanged just where all stems differ (`unchanged_iff`). And what the
candidate has left is called ambiguous by the candidate's count alone, where
the baseline's rows are by both: the report is symmetric just where no stem has
one row on one side and several on the other (`symmetric_iff`).
-/

namespace TraceMcp.Analysis

open TraceMcp.Lib

/-! ## Stems -/

/-- The stems of a list of rows. -/
def stems (rows : List HotpathRow) : List String := rows.map stemOf

/-- `stem_counts` counts. -/
theorem countOf_stemCounts (rows : List HotpathRow) (stem : String) :
    countOf (stemCounts rows) stem = (stems rows).count stem := by
  induction rows using List.reverseRecOn with
  | nil => rfl
  | append_singleton rows r ih =>
    rw [stems, List.map_append, List.count_append, ← stems, ← ih, stemCounts, List.foldl_append,
      List.foldl_cons, List.foldl_nil, ← stemCounts, countOf, FastMap.get_insert,
      List.map_singleton]
    by_cases h : stem = stemOf r
    · subst h
      rw [if_pos rfl, List.count_singleton_self]
      rfl
    · rw [if_neg h, List.count_eq_zero.mpr (by simpa using h), Nat.add_zero]
      rfl

variable {rows baseline candidate : List HotpathRow} {allowPerf : Bool} {b c : HotpathRow}
  {i j : Nat}

theorem count_stems_pos (h : rows[i]? = some b) : 0 < (stems rows).count (stemOf b) :=
  List.count_pos_iff.mpr (List.mem_map_of_mem (List.mem_of_getElem? h))

/-- A stem that one row has at most is that of one row. -/
theorem stems_unique (hn : (stems rows).count (stemOf b) ≤ 1) (hb : rows[i]? = some b)
    (hc : rows[j]? = some c) (hstem : stemOf c = stemOf b) : i = j := by
  by_contra hne
  have hi : (stems rows)[i]? = some (stemOf b) := by rw [stems, List.getElem?_map, hb]; rfl
  have hj : (stems rows)[j]? = some (stemOf b) := by
    rw [stems, List.getElem?_map, hc, Option.map_some, hstem]
  obtain ⟨hil, hie⟩ := List.getElem?_eq_some_iff.mp hi
  obtain ⟨hjl, hje⟩ := List.getElem?_eq_some_iff.mp hj
  have htwo : 2 ≤ (stems rows).count (stemOf b) := by
    rw [← List.duplicate_iff_two_le_count, List.duplicate_iff_exists_distinct_get]
    rcases Nat.lt_or_gt_of_ne hne with hlt | hgt
    · exact ⟨⟨i, hil⟩, ⟨j, hjl⟩, hlt, hie.symm, hje.symm⟩
    · exact ⟨⟨j, hjl⟩, ⟨i, hil⟩, hgt, hje.symm, hie.symm⟩
  omega

/-! ## What becomes of a row -/

/-- The candidate row with the stem of a baseline row. -/
def stemPartner (candidate : List HotpathRow) (b : HotpathRow) : Option (HotpathRow × Nat) :=
  candidate.zipIdx.find? fun cj => decide (stemOf cj.1 = stemOf b)

theorem stemPartner_some (h : stemPartner candidate b = some (c, j)) :
    candidate[j]? = some c ∧ stemOf c = stemOf b := by
  rw [stemPartner] at h
  have hstem := List.find?_some h
  exact ⟨List.mk_mem_zipIdx_iff_getElem?.mp (List.mem_of_find?_eq_some h),
    of_decide_eq_true hstem⟩

theorem stemPartner_none_iff :
    stemPartner candidate b = none ↔ (stems candidate).count (stemOf b) = 0 := by
  rw [stemPartner, List.find?_eq_none, List.count_eq_zero]
  constructor
  · intro h hmem
    obtain ⟨c, hc, hstem⟩ := List.mem_map.mp hmem
    obtain ⟨j, hj⟩ := List.mem_iff_getElem?.mp hc
    exact h (c, j) (List.mk_mem_zipIdx_iff_getElem?.mpr hj) (decide_eq_true hstem)
  · intro h cj hcj hstem
    apply h
    rw [← of_decide_eq_true hstem]
    exact List.mem_map_of_mem (List.mem_of_getElem? (List.mem_zipIdx_iff_getElem?.mp hcj))

/-- Of a stem with one row there is one partner. -/
theorem stemPartner_of_unique (hn : (stems candidate).count (stemOf b) ≤ 1)
    (hc : candidate[j]? = some c) (hstem : stemOf c = stemOf b) :
    stemPartner candidate b = some (c, j) := by
  cases hp : stemPartner candidate b with
  | none =>
    have hpos := count_stems_pos hc
    rw [hstem, stemPartner_none_iff.mp hp] at hpos
    exact absurd hpos (Nat.lt_irrefl 0)
  | some cj =>
    obtain ⟨c', j'⟩ := cj
    obtain ⟨hc', hstem'⟩ := stemPartner_some hp
    rw [← hstem'] at hn hstem
    obtain rfl : j' = j := stems_unique hn hc' hc hstem
    rw [Option.some.inj (hc'.symm.trans hc)]

/-- What becomes of a row of the baseline. -/
def settled (baseline candidate : List HotpathRow) (allowPerf : Bool) (ib : HotpathRow × Nat) :
    Pairing :=
  if 1 < (stems baseline).count (stemOf ib.1) ∨ 1 < (stems candidate).count (stemOf ib.1) then
    ⟨some ib.2, none, false, .ambiguous⟩
  else match stemPartner candidate ib.1 with
    | some (c, j) =>
      ⟨some ib.2, some j, allowPerf, if c.path = ib.1.path then .path else .demangledPath⟩
    | none => ⟨some ib.2, none, false, .unmatched⟩

theorem settled_baseline (ib : HotpathRow × Nat) :
    (settled baseline candidate allowPerf ib).baseline = some ib.2 := by
  rw [settled]
  split
  · rfl
  · split <;> rfl

/-- A row that is paired has the only rows of its stem. -/
theorem settled_candidate {ib : HotpathRow × Nat}
    (h : (settled baseline candidate allowPerf ib).candidate = some j) :
    (stems baseline).count (stemOf ib.1) ≤ 1 ∧ (stems candidate).count (stemOf ib.1) ≤ 1
      ∧ ∃ c, candidate[j]? = some c ∧ stemOf c = stemOf ib.1 := by
  rw [settled] at h
  split at h
  · exact absurd h (Option.some_ne_none j).symm
  · next hn =>
    obtain ⟨hb, hc⟩ := not_or.mp hn
    refine ⟨Nat.le_of_not_lt hb, Nat.le_of_not_lt hc, ?_⟩
    split at h
    · next c j' hp =>
      obtain rfl : j' = j := Option.some.inj h
      exact ⟨c, stemPartner_some hp⟩
    · exact absurd h (Option.some_ne_none j).symm

/-- The loop over the baseline, with no function pairs: the rows marked so far
are those of a stretch of the baseline, and their partners. -/
structure Settling (baseline candidate : List HotpathRow) (allowPerf : Bool)
    (l : List (HotpathRow × Nat)) (s : Pairs) : Prop where
  usedB : s.usedB = l.map (·.2)
  rows : s.rows = l.map (settled baseline candidate allowPerf)
  usedC : s.usedC = candidates s.rows

/-- One row of the baseline is settled. Its partner is not used yet: whoever
used it would have the same stem. -/
theorem pairRow_settled {l : List (HotpathRow × Nat)} {s : Pairs}
    (h : Settling baseline candidate allowPerf l s)
    (hl : ∀ bi ∈ l, baseline[bi.2]? = some bi.1 ∧ bi.2 ≠ i) (hb : baseline[i]? = some b) :
    pairRow baseline candidate allowPerf s (b, i)
      = s.push (settled baseline candidate allowPerf (b, i)) := by
  have hi : i ∉ s.usedB := by
    rw [h.usedB]
    intro hmem
    obtain ⟨bi, hbi, rfl⟩ := List.mem_map.mp hmem
    exact (hl bi hbi).2 rfl
  rw [pairRow, if_neg hi, countOf_stemCounts, countOf_stemCounts, settled]
  by_cases hn : 1 < (stems baseline).count (stemOf b) ∨ 1 < (stems candidate).count (stemOf b)
  · rw [if_pos hn, if_pos hn]
  · have hpartner : partnerOf candidate s.usedC b = stemPartner candidate b := by
      rw [partnerOf, stemPartner]
      apply List.find?_congr
      intro cj hcj
      by_cases hstem : stemOf cj.1 = stemOf b
      · have hfresh : cj.2 ∉ s.usedC := by
          rw [h.usedC, h.rows]
          intro hmem
          obtain ⟨p, hp, hpj⟩ := List.mem_filterMap.mp hmem
          obtain ⟨bi, hbi, rfl⟩ := List.mem_map.mp hp
          obtain ⟨-, -, c, hc, hcs⟩ := settled_candidate hpj
          have hcj' : candidate[cj.2]? = some cj.1 := List.mem_zipIdx_iff_getElem?.mp hcj
          have hc' : cj.1 = c := Option.some.inj (hcj'.symm.trans hc)
          have hsame : stemOf bi.1 = stemOf b := by rw [← hcs, ← hc', hstem]
          have hone : (stems baseline).count (stemOf b) ≤ 1 :=
            Nat.le_of_not_lt (not_or.mp hn).1
          exact (hl bi hbi).2 (stems_unique hone hb (hl bi hbi).1 hsame).symm
        simp [hstem, hfresh]
      · have hleaf : leaf cj.1.path ≠ leaf b.path := fun heq =>
          hstem (congrArg linkageStem heq)
        have hpath : cj.1.path ≠ b.path := fun heq => hleaf (congrArg leaf heq)
        simp [hstem, hleaf, hpath]
    rw [if_neg hn, if_neg hn, hpartner]
    cases stemPartner candidate b <;> rfl

theorem Settling.push {l : List (HotpathRow × Nat)} {s : Pairs}
    (h : Settling baseline candidate allowPerf l s) (bi : HotpathRow × Nat) :
    Settling baseline candidate allowPerf (l ++ [bi])
      (s.push (settled baseline candidate allowPerf bi)) where
  usedB := by
    show s.usedB ++ (settled baseline candidate allowPerf bi).baseline.toList = _
    rw [h.usedB, settled_baseline, List.map_append]
    rfl
  rows := by
    show s.rows ++ [settled baseline candidate allowPerf bi] = _
    rw [h.rows, List.map_append]
    rfl
  usedC := by
    show s.usedC ++ (settled baseline candidate allowPerf bi).candidate.toList
      = candidates (s.rows ++ [settled baseline candidate allowPerf bi])
    rw [h.usedC, candidates_append]
    cases hp : (settled baseline candidate allowPerf bi).candidate <;> simp [candidates, hp]

variable (baseline candidate allowPerf) in
/-- The loop over the baseline settles row by row. -/
theorem pairBaseline_settled :
    Settling baseline candidate allowPerf baseline.zipIdx
      (pairBaseline baseline candidate allowPerf []) := by
  have hrun : ∀ l l' : List (HotpathRow × Nat), baseline.zipIdx = l ++ l' →
      ∀ s, Settling baseline candidate allowPerf l s →
        Settling baseline candidate allowPerf (l ++ l')
          (l'.foldl (pairRow baseline candidate allowPerf) s) := by
    intro l l'
    induction l' generalizing l with
    | nil =>
      intro _ s h
      rwa [List.append_nil]
    | cons bi l' ih =>
      intro heq s h
      obtain ⟨b, i⟩ := bi
      have hmem : ∀ bi ∈ l ++ (b, i) :: l', baseline[bi.2]? = some bi.1 := fun bi hbi =>
        List.mem_zipIdx_iff_getElem?.mp (heq ▸ hbi)
      -- the indices of a list are pairwise different
      have hnodup : (l.map (·.2) ++ i :: l'.map (·.2)).Nodup := by
        have hrange : (baseline.zipIdx.map (·.2)).Nodup := by
          rw [map_snd_zipIdx]
          exact List.nodup_range
        rw [heq, List.map_append] at hrange
        exact hrange
      have hstep := pairRow_settled h (i := i) (b := b)
        (fun bi hbi => ⟨hmem bi (List.mem_append_left _ hbi), fun hi =>
          (List.nodup_append'.mp hnodup).2.2 (List.mem_map.mpr ⟨bi, hbi, hi⟩) List.mem_cons_self⟩)
        (hmem (b, i) (List.mem_append_right _ List.mem_cons_self))
      have hnext := ih (l ++ [(b, i)]) (by rw [heq, List.append_assoc]; rfl) _ (h.push (b, i))
      rw [List.append_assoc] at hnext
      rw [List.foldl_cons, hstep]
      exact hnext
  exact hrun [] baseline.zipIdx rfl _ ⟨rfl, rfl, rfl⟩

variable (baseline allowPerf) in
/-- Who is a partner: a candidate row that shares its stem with one row of the
baseline and with no other row of its own side. -/
theorem mem_candidates_settled (hc : candidate[j]? = some c) :
    j ∈ candidates (baseline.zipIdx.map (settled baseline candidate allowPerf))
      ↔ (stems baseline).count (stemOf c) = 1 ∧ (stems candidate).count (stemOf c) = 1 := by
  constructor
  · intro hmem
    obtain ⟨p, hp, hpj⟩ := List.mem_filterMap.mp hmem
    obtain ⟨bi, hbi, rfl⟩ := List.mem_map.mp hp
    obtain ⟨hb, hcs, c', hc', hstem⟩ := settled_candidate hpj
    obtain rfl : c' = c := Option.some.inj (hc'.symm.trans hc)
    have hbpos := count_stems_pos (List.mem_zipIdx_iff_getElem?.mp hbi)
    have hcpos := count_stems_pos hc
    rw [hstem] at hcpos ⊢
    omega
  · rintro ⟨hb, hcs⟩
    obtain ⟨b, hbmem, hstem⟩ := List.mem_map.mp (List.count_pos_iff.mp
      (show 0 < (stems baseline).count (stemOf c) by omega))
    obtain ⟨i, hi⟩ := List.mem_iff_getElem?.mp hbmem
    refine List.mem_filterMap.mpr ⟨_, List.mem_map_of_mem
      (List.mk_mem_zipIdx_iff_getElem?.mpr hi), ?_⟩
    have hn : ¬ (1 < (stems baseline).count (stemOf b)
        ∨ 1 < (stems candidate).count (stemOf b)) := by
      rw [hstem]
      omega
    rw [settled, if_neg hn, stemPartner_of_unique (by rw [hstem]; exact hcs.le) hc hstem.symm]

/-- What becomes of a row of the candidate that no row of the baseline is
paired with. -/
def left (baseline candidate : List HotpathRow) (cj : HotpathRow × Nat) : Option Pairing :=
  if (stems baseline).count (stemOf cj.1) = 1 ∧ (stems candidate).count (stemOf cj.1) = 1 then none
  else some ⟨none, some cj.2, false,
    if 1 < (stems candidate).count (stemOf cj.1) then .ambiguous else .unmatched⟩

/-- The passes of `pair_rows` without function pairs, row by row. -/
theorem pairings_nil :
    pairings baseline candidate allowPerf []
      = baseline.zipIdx.map (settled baseline candidate allowPerf)
        ++ candidate.zipIdx.filterMap (left baseline candidate) := by
  have hsettled := pairBaseline_settled baseline candidate allowPerf
  rw [pairings_eq, hsettled.usedC, hsettled.rows]
  congr 1
  apply List.filterMap_congr
  intro cj hcj
  have hiff := mem_candidates_settled baseline allowPerf
    (List.mem_zipIdx_iff_getElem?.mp hcj)
  rw [leftover, left, countOf_stemCounts]
  by_cases hone : (stems baseline).count (stemOf cj.1) = 1
      ∧ (stems candidate).count (stemOf cj.1) = 1
  · rw [if_pos (hiff.mpr hone), if_pos hone]
  · rw [if_neg fun hmem => hone (hiff.mp hmem), if_neg hone]

/-- What becomes of the rows, by how many of each side share their stem. -/
inductive Settles (baseline candidate : List HotpathRow) (allowPerf : Bool) : Pairing → Prop
  | pair {i j : Nat} {b c : HotpathRow} (hb : baseline[i]? = some b) (hc : candidate[j]? = some c)
      (hstem : stemOf c = stemOf b) (hnb : (stems baseline).count (stemOf b) = 1)
      (hnc : (stems candidate).count (stemOf b) = 1) :
      Settles baseline candidate allowPerf
        ⟨some i, some j, allowPerf, if c.path = b.path then .path else .demangledPath⟩
  | ambiguousBaseline {i : Nat} {b : HotpathRow} (hb : baseline[i]? = some b)
      (hn : 1 < (stems baseline).count (stemOf b) ∨ 1 < (stems candidate).count (stemOf b)) :
      Settles baseline candidate allowPerf ⟨some i, none, false, .ambiguous⟩
  | unmatchedBaseline {i : Nat} {b : HotpathRow} (hb : baseline[i]? = some b)
      (hnb : (stems baseline).count (stemOf b) = 1)
      (hnc : (stems candidate).count (stemOf b) = 0) :
      Settles baseline candidate allowPerf ⟨some i, none, false, .unmatched⟩
  | ambiguousCandidate {j : Nat} {c : HotpathRow} (hc : candidate[j]? = some c)
      (hn : 1 < (stems candidate).count (stemOf c)) :
      Settles baseline candidate allowPerf ⟨none, some j, false, .ambiguous⟩
  | unmatchedCandidate {j : Nat} {c : HotpathRow} (hc : candidate[j]? = some c)
      (hnc : (stems candidate).count (stemOf c) = 1)
      (hnb : (stems baseline).count (stemOf c) ≠ 1) :
      Settles baseline candidate allowPerf ⟨none, some j, false, .unmatched⟩

theorem settled_settles (hb : baseline[i]? = some b) :
    Settles baseline candidate allowPerf (settled baseline candidate allowPerf (b, i)) := by
  have hpos := count_stems_pos hb
  rw [settled]
  split
  · next hn => exact .ambiguousBaseline hb hn
  · next hn =>
    have hnb : (stems baseline).count (stemOf b) ≤ 1 := Nat.le_of_not_lt (not_or.mp hn).1
    have hnc : (stems candidate).count (stemOf b) ≤ 1 := Nat.le_of_not_lt (not_or.mp hn).2
    cases hp : stemPartner candidate b with
    | none => exact .unmatchedBaseline hb (by omega) (stemPartner_none_iff.mp hp)
    | some cj =>
      obtain ⟨hc, hstem⟩ := stemPartner_some (c := cj.1) (j := cj.2) hp
      have hcpos := count_stems_pos hc
      have hstem' : stemOf cj.1 = stemOf b := hstem
      rw [hstem'] at hcpos
      exact .pair hb hc hstem (Nat.le_antisymm hnb hpos) (Nat.le_antisymm hnc hcpos)

theorem left_settles {p : Pairing} (hc : candidate[j]? = some c)
    (hp : left baseline candidate (c, j) = some p) : Settles baseline candidate allowPerf p := by
  have hpos := count_stems_pos hc
  rw [left] at hp
  split at hp
  · exact absurd hp (Option.some_ne_none p).symm
  · next hone =>
    obtain rfl := Option.some.inj hp
    split
    · next hn => exact .ambiguousCandidate hc hn
    · next hn =>
      have hle : (stems candidate).count (stemOf c) ≤ 1 := Nat.le_of_not_lt hn
      have hnc : (stems candidate).count (stemOf c) = 1 := by omega
      exact .unmatchedCandidate hc hnc fun hnb => hone ⟨hnb, hnc⟩

/-- A pairing of a comparison without function pairs says what becomes of its
rows, and nothing else becomes of them. -/
theorem mem_pairings_iff (p : Pairing) :
    p ∈ pairings baseline candidate allowPerf [] ↔ Settles baseline candidate allowPerf p := by
  rw [pairings_nil, List.mem_append]
  constructor
  · rintro (h | h)
    · obtain ⟨⟨b, i⟩, hbi, rfl⟩ := List.mem_map.mp h
      exact settled_settles (List.mk_mem_zipIdx_iff_getElem?.mp hbi)
    · obtain ⟨⟨c, j⟩, hcj, hp⟩ := List.mem_filterMap.mp h
      exact left_settles (List.mk_mem_zipIdx_iff_getElem?.mp hcj) hp
  · intro h
    cases h with
    | @pair i j b c hb hc hstem hnb hnc =>
      refine Or.inl (List.mem_map.mpr ⟨(b, i), List.mk_mem_zipIdx_iff_getElem?.mpr hb, ?_⟩)
      have hn : ¬ (1 < (stems baseline).count (stemOf b)
          ∨ 1 < (stems candidate).count (stemOf b)) := by omega
      rw [settled, if_neg hn, stemPartner_of_unique hnc.le hc hstem]
    | @ambiguousBaseline i b hb hn =>
      refine Or.inl (List.mem_map.mpr ⟨(b, i), List.mk_mem_zipIdx_iff_getElem?.mpr hb, ?_⟩)
      rw [settled, if_pos hn]
    | @unmatchedBaseline i b hb hnb hnc =>
      refine Or.inl (List.mem_map.mpr ⟨(b, i), List.mk_mem_zipIdx_iff_getElem?.mpr hb, ?_⟩)
      have hn : ¬ (1 < (stems baseline).count (stemOf b)
          ∨ 1 < (stems candidate).count (stemOf b)) := by omega
      rw [settled, if_neg hn, stemPartner_none_iff.mpr hnc]
    | @ambiguousCandidate j c hc hn =>
      refine Or.inr (List.mem_filterMap.mpr ⟨(c, j), List.mk_mem_zipIdx_iff_getElem?.mpr hc, ?_⟩)
      rw [left, if_neg fun hone => absurd hone.2 (Nat.ne_of_gt hn), if_pos hn]
    | @unmatchedCandidate j c hc hnc hnb =>
      refine Or.inr (List.mem_filterMap.mpr ⟨(c, j), List.mk_mem_zipIdx_iff_getElem?.mpr hc, ?_⟩)
      rw [left, if_neg fun hone => hnb hone.1, if_neg (Nat.not_lt.mpr hnc.le)]

/-! ## A run compared with itself -/

section Itself

/-- Comparing a list with itself reports no change: every row is matched with
itself by its path, and no sum that is known has changed. -/
def Unchanged (ratio : Int → Int → String) (rows : List HotpathRow) : Prop :=
  (∀ i < rows.length, ⟨some i, some i, true, .path⟩ ∈ pairings rows rows true [])
    ∧ ∀ p ∈ pairings rows rows true [], p.candidate = p.baseline
      ∧ ∀ i r, p.baseline = some i → rows[i]? = some r → r.inclusiveSumNs ≠ none →
        (p.row rows rows ratio).absoluteDelta = some 0

/-- A row that is matched with itself has not changed. -/
theorem row_self_delta (ratio : Int → Int → String) {r : HotpathRow} (hr : rows[i]? = some r)
    (hknown : r.inclusiveSumNs ≠ none) :
    (Pairing.row rows rows ratio ⟨some i, some i, true, .path⟩).absoluteDelta = some 0 := by
  obtain ⟨v, hv⟩ := Option.ne_none_iff_exists'.mp hknown
  have hdelta : knownDelta (some r) (some r) = some (0, (v : Int)) := by
    simp [knownDelta, hv]
  simp [Pairing.row, deltaRow, hr, hdelta]

/-- A row that is matched with itself is the only one of its stem. -/
theorem count_of_self (h : ⟨some i, some i, true, .path⟩ ∈ pairings rows rows true [])
    (hb : rows[i]? = some b) : (stems rows).count (stemOf b) = 1 := by
  have hself := (mem_pairings_iff _).mp h
  generalize hp : (⟨some i, some i, true, .path⟩ : Pairing) = p at hself
  cases hself with
  | @pair i' j b' c hb' hc hstem hnb hnc =>
    obtain rfl : i = i' := Option.some.inj (congrArg Pairing.baseline hp)
    obtain rfl : b = b' := Option.some.inj (hb.symm.trans hb')
    exact hnb
  | ambiguousBaseline | unmatchedBaseline =>
    exact absurd (congrArg Pairing.candidate hp) (Option.some_ne_none i)
  | ambiguousCandidate | unmatchedCandidate =>
    exact absurd (congrArg Pairing.baseline hp) (Option.some_ne_none i)

/-- A run compared with itself is unchanged where all stems differ, and there
only. -/
theorem unchanged_iff (ratio : Int → Int → String) (rows : List HotpathRow) :
    Unchanged ratio rows ↔ (stems rows).Nodup := by
  constructor
  · intro h
    apply List.nodup_iff_count_le_one.mpr
    intro stem
    by_cases hmem : stem ∈ stems rows
    · obtain ⟨r, hr, rfl⟩ := List.mem_map.mp hmem
      obtain ⟨i, hi, hri⟩ := List.mem_iff_getElem.mp hr
      have hri' : rows[i]? = some r := by rw [List.getElem?_eq_getElem hi, hri]
      exact (count_of_self (h.1 i hi) hri').le
    · rw [List.count_eq_zero.mpr hmem]
      exact Nat.zero_le 1
  · intro hnodup
    have hone : ∀ {i : Nat} {r : HotpathRow}, rows[i]? = some r →
        (stems rows).count (stemOf r) = 1 := fun hr =>
      List.count_eq_one_of_mem hnodup (List.mem_map_of_mem (List.mem_of_getElem? hr))
    refine ⟨fun i hi => ?_, fun p hp => ?_⟩
    · have hr : rows[i]? = some rows[i] := List.getElem?_eq_getElem hi
      have hpair : Settles rows rows true _ := .pair hr hr rfl (hone hr) (hone hr)
      rw [if_pos rfl] at hpair
      exact (mem_pairings_iff _).mpr hpair
    · cases (mem_pairings_iff p).mp hp with
      | @pair i j b c hb hc hstem hnb hnc =>
        obtain rfl : i = j := stems_unique hnb.le hb hc hstem
        obtain rfl : b = c := Option.some.inj (hb.symm.trans hc)
        rw [if_pos rfl]
        refine ⟨rfl, fun i' r hi' hr hknown => ?_⟩
        obtain rfl : i = i' := Option.some.inj hi'
        exact row_self_delta ratio hr hknown
      | ambiguousBaseline hb hn => exact absurd (hone hb) (by omega)
      | unmatchedBaseline hb hnb hnc => exact absurd (hone hb) (by omega)
      | ambiguousCandidate hc hn => exact absurd (hone hc) (by omega)
      | unmatchedCandidate hc hnc hnb => exact absurd (hone hc) hnb

/-- Two callers of one function: the default grouping by caller chain makes two
rows of it, and neither is matched with itself. -/
theorem unchanged_callers :
    ¬ Unchanged (fun _ _ => "") [testRow "main/read" 100, testRow "main/parse/read" 40] := by
  intro h
  have hone := count_of_self (h.1 0 (by decide)) rfl
  revert hone
  decide

end Itself

/-! ## The sides exchanged -/

section Exchanged

/-- A pairing, seen from the other side. -/
def Pairing.swap (p : Pairing) : Pairing := { p with baseline := p.candidate, candidate := p.baseline }

/-- A row with its value columns exchanged. -/
def CompareRow.exchanged (r : CompareRow) : CompareRow :=
  { r with
    baseline := r.candidate
    candidate := r.baseline
    absoluteDelta := r.absoluteDelta.map (- ·) }

/-- A row without what depends on the side it is seen from: the path of a pair
of two paths, which is the baseline's, and the quotient. -/
def CompareRow.unsided (r : CompareRow) : CompareRow :=
  { r with
    path := if r.matchKind = .demangledPath then "" else r.path
    relativeDelta := none }

/-- Comparing the other way round gives the rows with their value columns
exchanged and their deltas negated. -/
def Symmetric (ratio : Int → Int → String) (allowPerf : Bool)
    (baseline candidate : List HotpathRow) : Prop :=
  ((pairRows baseline candidate allowPerf ratio []).map fun r => r.exchanged.unsided).Perm
    ((pairRows candidate baseline allowPerf ratio []).map CompareRow.unsided)

/-- A stem with one row on one side and several on the other. -/
def Lopsided (baseline candidate : List HotpathRow) (stem : String) : Prop :=
  (stems baseline).count stem = 1 ∧ 1 < (stems candidate).count stem

theorem knownDelta_swap (b c : Option HotpathRow) :
    (knownDelta b c).map (·.1) = (knownDelta c b).map fun d => -d.1 := by
  rw [knownDelta, knownDelta]
  cases b.bind (·.inclusiveSumNs) with
  | none => cases c.bind (·.inclusiveSumNs) <;> rfl
  | some bv => cases c.bind (·.inclusiveSumNs) <;> simp

theorem deltaRow_swap (ratio : Int → Int → String) {path path' : String} {b c : Option HotpathRow}
    {allow : Bool} {kind : MatchKind} (hpath : kind = .demangledPath ∨ path' = path) :
    (deltaRow ratio path' c b allow kind).exchanged.unsided
      = (deltaRow ratio path b c allow kind).unsided := by
  have hname : (if kind = .demangledPath then "" else path')
      = if kind = .demangledPath then "" else path := by
    rcases hpath with hkind | rfl
    · rw [if_pos hkind, if_pos hkind]
    · rfl
  simp only [deltaRow, CompareRow.exchanged, CompareRow.unsided, CompareRow.mk.injEq, and_true,
    true_and]
  refine ⟨hname, ?_⟩
  split
  · rw [Option.map_map, knownDelta_swap]
    rfl
  · rfl

/-- A row of the report, seen from the other side. Only a pair of two paths is
named after one of them. -/
theorem Settles.row_swap (ratio : Int → Int → String) {p : Pairing}
    (h : Settles baseline candidate allowPerf p) :
    (p.swap.row candidate baseline ratio).exchanged.unsided
      = (p.row baseline candidate ratio).unsided := by
  cases h with
  | @pair i j b c hb hc hstem hnb hnc =>
    have hrow : Pairing.row candidate baseline ratio (Pairing.swap
        ⟨some i, some j, allowPerf, if c.path = b.path then .path else .demangledPath⟩)
          = deltaRow ratio c.path (some c) (some b) allowPerf
              (if c.path = b.path then .path else .demangledPath) := by
      simp [Pairing.row, Pairing.swap, hb, hc]
    have hrow' : Pairing.row baseline candidate ratio
        ⟨some i, some j, allowPerf, if c.path = b.path then .path else .demangledPath⟩
          = deltaRow ratio b.path (some b) (some c) allowPerf
              (if c.path = b.path then .path else .demangledPath) := by
      simp [Pairing.row, hb, hc]
    rw [hrow, hrow']
    apply deltaRow_swap
    split
    · next hpath => exact Or.inr hpath
    · exact Or.inl rfl
  | ambiguousBaseline hb | unmatchedBaseline hb =>
    simp [Pairing.row, Pairing.swap, deltaRow, CompareRow.exchanged, CompareRow.unsided, hb]
  | ambiguousCandidate hc | unmatchedCandidate hc =>
    simp [Pairing.row, Pairing.swap, deltaRow, CompareRow.exchanged, CompareRow.unsided, hc]

/-- Each row of either side comes up once. -/
theorem nodup_of_sides {ps : List Pairing} (hb : (baselines ps).Nodup)
    (hc : (candidates ps).Nodup)
    (hside : ∀ p ∈ ps, p.baseline ≠ none ∨ p.candidate ≠ none) : ps.Nodup := by
  induction ps with
  | nil => exact List.nodup_nil
  | cons p ps ih =>
    rw [← List.singleton_append, baselines_append, List.nodup_append'] at hb
    rw [← List.singleton_append, candidates_append, List.nodup_append'] at hc
    refine List.nodup_cons.mpr ⟨fun hmem => ?_, ih hb.2.1 hc.2.1 fun q hq =>
      hside q (List.mem_cons_of_mem p hq)⟩
    rcases hside p List.mem_cons_self with hne | hne
    · obtain ⟨i, hi⟩ := Option.ne_none_iff_exists'.mp hne
      exact hb.2.2 (List.mem_filterMap.mpr ⟨p, List.mem_singleton_self p, hi⟩)
        (List.mem_filterMap.mpr ⟨p, hmem, hi⟩)
    · obtain ⟨j, hj⟩ := Option.ne_none_iff_exists'.mp hne
      exact hc.2.2 (List.mem_filterMap.mpr ⟨p, List.mem_singleton_self p, hj⟩)
        (List.mem_filterMap.mpr ⟨p, hmem, hj⟩)

theorem pairings_nodup : (pairings baseline candidate allowPerf []).Nodup := by
  refine nodup_of_sides ?_ ?_ fun p hp => ?_
  · rw [baselines_pairings]
    exact List.nodup_range.filter _
  · obtain ⟨extra, hnodup, hnew, hcs⟩ := candidates_pairings baseline candidate allowPerf []
    rw [hcs]
    refine List.nodup_append'.mpr ⟨hnodup, List.nodup_range.filter _, fun j hj hj' => ?_⟩
    exact of_decide_eq_true (List.mem_filter.mp hj').2 hj
  · cases (mem_pairings_iff p).mp hp with
    | pair | ambiguousBaseline | unmatchedBaseline => exact Or.inl (Option.some_ne_none _)
    | ambiguousCandidate | unmatchedCandidate => exact Or.inr (Option.some_ne_none _)

theorem Settles.swap {p : Pairing} (h : Settles baseline candidate allowPerf p)
    (hl : ∀ stem, ¬ Lopsided baseline candidate stem)
    (hl' : ∀ stem, ¬ Lopsided candidate baseline stem) :
    Settles candidate baseline allowPerf p.swap := by
  cases h with
  | @pair i j b c hb hc hstem hnb hnc =>
    rw [← hstem] at hnb hnc
    have hpair : Settles candidate baseline allowPerf _ := .pair hc hb hstem.symm hnc hnb
    rw [show (if b.path = c.path then MatchKind.path else .demangledPath)
      = if c.path = b.path then .path else .demangledPath from by simp only [eq_comm]] at hpair
    exact hpair
  | @ambiguousBaseline i b hb hn =>
    have hpos := count_stems_pos hb
    by_cases hnb : 1 < (stems baseline).count (stemOf b)
    · exact .ambiguousCandidate hb hnb
    · exact absurd ⟨by omega, by omega⟩ (hl (stemOf b))
  | @unmatchedBaseline i b hb hnb hnc =>
    exact .unmatchedCandidate hb hnb (by omega)
  | @ambiguousCandidate j c hc hn => exact .ambiguousBaseline hc (Or.inl hn)
  | @unmatchedCandidate j c hc hnc hnb =>
    apply Settles.unmatchedBaseline hc hnc
    by_contra hne
    exact hl' (stemOf c) ⟨hnc, by omega⟩

theorem pairings_swap (hl : ∀ stem, ¬ Lopsided baseline candidate stem)
    (hl' : ∀ stem, ¬ Lopsided candidate baseline stem) :
    ((pairings baseline candidate allowPerf []).map Pairing.swap).Perm
      (pairings candidate baseline allowPerf []) := by
  have hswap : Function.Injective Pairing.swap := fun p q h =>
    congrArg Pairing.swap h
  apply (List.perm_ext_iff_of_nodup (pairings_nodup.map hswap) pairings_nodup).mpr
  intro p
  rw [List.mem_map, mem_pairings_iff]
  constructor
  · rintro ⟨q, hq, rfl⟩
    exact ((mem_pairings_iff q).mp hq).swap hl hl'
  · intro hp
    exact ⟨p.swap, (mem_pairings_iff _).mpr (hp.swap hl' hl), rfl⟩

/-- What is compared the other way round gives the same rows. -/
theorem symmetric_of_not_lopsided (ratio : Int → Int → String)
    (hl : ∀ stem, ¬ Lopsided baseline candidate stem)
    (hl' : ∀ stem, ¬ Lopsided candidate baseline stem) :
    Symmetric ratio allowPerf baseline candidate := by
  have hrows : (pairRows baseline candidate allowPerf ratio []).map (fun r => r.exchanged.unsided)
      = ((pairings baseline candidate allowPerf []).map Pairing.swap).map
          fun p => (p.row candidate baseline ratio).unsided := by
    rw [pairRows, List.map_map, List.map_map]
    apply List.map_congr_left
    intro p hp
    have hsettles := (mem_pairings_iff p).mp hp
    have hback := Settles.row_swap ratio (hsettles.swap hl hl')
    exact hback
  have hback : (pairRows candidate baseline allowPerf ratio []).map CompareRow.unsided
      = (pairings candidate baseline allowPerf []).map
          fun p => (p.row candidate baseline ratio).unsided := by
    rw [pairRows, List.map_map]
    rfl
  rw [Symmetric, hrows, hback]
  exact (pairings_swap hl hl').map _

/-- A pairing of an unmatched row of the candidate. -/
def Pairing.newRow (p : Pairing) : Bool := decide (p.kind = .unmatched) && p.baseline.isNone

/-- A pairing of an unmatched row of the baseline. -/
def Pairing.goneRow (p : Pairing) : Bool := decide (p.kind = .unmatched) && p.candidate.isNone

/-- A row of the report that only the baseline has, unmatched. -/
def CompareRow.gone (r : CompareRow) : Bool :=
  decide (r.matchKind = .unmatched) && r.candidate.isNone

theorem Settles.gone_swap (ratio : Int → Int → String) {p : Pairing}
    (h : Settles baseline candidate allowPerf p) :
    (p.row baseline candidate ratio).exchanged.unsided.gone = p.newRow := by
  cases h with
  | pair hb hc | ambiguousBaseline hb | unmatchedBaseline hb =>
    simp [Pairing.row, deltaRow, CompareRow.exchanged, CompareRow.unsided, CompareRow.gone,
      Pairing.newRow, hb]
  | ambiguousCandidate hc | unmatchedCandidate hc =>
    simp [Pairing.row, deltaRow, CompareRow.exchanged, CompareRow.unsided, CompareRow.gone,
      Pairing.newRow]

theorem Settles.gone (ratio : Int → Int → String) {p : Pairing}
    (h : Settles baseline candidate allowPerf p) :
    (p.row baseline candidate ratio).unsided.gone = p.goneRow := by
  cases h with
  | pair hb hc | ambiguousCandidate hc | unmatchedCandidate hc =>
    simp [Pairing.row, deltaRow, CompareRow.unsided, CompareRow.gone, Pairing.goneRow, hc]
  | ambiguousBaseline hb | unmatchedBaseline hb =>
    simp [Pairing.row, deltaRow, CompareRow.unsided, CompareRow.gone, Pairing.goneRow]

/-- The rows that are new in the candidate are found among what it has left. -/
theorem countP_newRow :
    (pairings baseline candidate allowPerf []).countP Pairing.newRow
      = candidate.zipIdx.countP fun cj =>
          ((left baseline candidate cj).map Pairing.newRow).getD false := by
  have hsettled : (baseline.zipIdx.map (settled baseline candidate allowPerf)).countP
      Pairing.newRow = 0 := by
    rw [List.countP_eq_zero]
    intro p hp
    obtain ⟨ib, -, rfl⟩ := List.mem_map.mp hp
    rw [Pairing.newRow, settled_baseline]
    simp
  rw [pairings_nil, List.countP_append, hsettled, Nat.zero_add, List.countP_filterMap]

/-- The rows that are gone from the baseline are found in the loop over it. -/
theorem countP_goneRow :
    (pairings baseline candidate allowPerf []).countP Pairing.goneRow
      = baseline.zipIdx.countP fun ib => (settled baseline candidate allowPerf ib).goneRow := by
  have hleft : (candidate.zipIdx.filterMap (left baseline candidate)).countP
      Pairing.goneRow = 0 := by
    rw [List.countP_eq_zero]
    intro p hp
    obtain ⟨cj, -, hcj⟩ := List.mem_filterMap.mp hp
    rw [left] at hcj
    split at hcj
    · exact absurd hcj (Option.some_ne_none p).symm
    · rw [← Option.some.inj hcj]
      simp [Pairing.goneRow]
  rw [pairings_nil, List.countP_append, hleft, Nat.add_zero, List.countP_map]
  rfl

/-- Counting a narrower thing as often as a wider one. -/
theorem of_countP_eq {α : Type} {l : List α} {p q : α → Bool} (hpq : ∀ x, p x = true → q x = true)
    (h : l.countP p = l.countP q) {x : α} (hx : x ∈ l) (hq : q x = true) : p x = true := by
  have hsub : (l.filter p).Sublist (l.filter q) := List.monotone_filter_right l hpq
  have heq : l.filter p = l.filter q := by
    apply hsub.eq_of_length
    rw [← List.countP_eq_length_filter, ← List.countP_eq_length_filter, h]
  have hmem : x ∈ l.filter p := by
    rw [heq]
    exact List.mem_filter.mpr ⟨hx, hq⟩
  exact (List.mem_filter.mp hmem).2

/-- A row that goes unmatched from one side is new from the other. -/
theorem new_of_gone {cj : HotpathRow × Nat}
    (h : (settled candidate baseline allowPerf cj).goneRow = true) :
    ((left baseline candidate cj).map Pairing.newRow).getD false = true := by
  rw [settled] at h
  split at h
  · exact absurd h (by simp [Pairing.goneRow])
  · next hn =>
    split at h
    · exact absurd h (by simp [Pairing.goneRow])
    · next hp =>
      have hnb := stemPartner_none_iff.mp hp
      have hone : ¬ ((stems baseline).count (stemOf cj.1) = 1
          ∧ (stems candidate).count (stemOf cj.1) = 1) := by omega
      rw [left, if_neg hone, if_neg fun hlt => hn (Or.inl hlt)]
      rfl

/-- A comparison that is the same from either side has no stem with one row of
the candidate and several of the baseline: the one row would be left over
unmatched, and ambiguous seen from the other side. -/
theorem Symmetric.not_lopsided {ratio : Int → Int → String}
    (h : Symmetric ratio allowPerf baseline candidate) (stem : String) :
    ¬ Lopsided candidate baseline stem := by
  rintro ⟨hnc, hnb⟩
  have hnew : ((pairRows baseline candidate allowPerf ratio []).map
      fun r => r.exchanged.unsided).countP CompareRow.gone
        = (pairings baseline candidate allowPerf []).countP Pairing.newRow := by
    rw [pairRows, List.map_map, List.countP_map]
    apply List.countP_congr
    intro p hp
    rw [← ((mem_pairings_iff p).mp hp).gone_swap ratio]
    rfl
  have hgone : ((pairRows candidate baseline allowPerf ratio []).map
      CompareRow.unsided).countP CompareRow.gone
        = (pairings candidate baseline allowPerf []).countP Pairing.goneRow := by
    rw [pairRows, List.map_map, List.countP_map]
    apply List.countP_congr
    intro p hp
    rw [← ((mem_pairings_iff p).mp hp).gone ratio]
    rfl
  have hcount := h.countP_eq CompareRow.gone
  rw [hnew, hgone, countP_newRow, countP_goneRow] at hcount
  obtain ⟨c, hc, rfl⟩ := List.mem_map.mp (List.count_pos_iff.mp
    (show 0 < (stems candidate).count stem by omega))
  obtain ⟨j, hj⟩ := List.mem_iff_getElem?.mp hc
  have hleft : ((left baseline candidate (c, j)).map Pairing.newRow).getD false = true := by
    rw [left, if_neg fun hone => absurd hone.1 (Nat.ne_of_gt hnb), if_neg (Nat.not_lt.mpr hnc.le)]
    rfl
  have hsettled := of_countP_eq (fun cj => new_of_gone) hcount.symm
    (List.mk_mem_zipIdx_iff_getElem?.mpr hj) hleft
  rw [settled, if_pos (Or.inr hnb)] at hsettled
  exact absurd hsettled (by simp [Pairing.goneRow])

/-- The other way round and back. -/
theorem Symmetric.symm {ratio : Int → Int → String}
    (h : Symmetric ratio allowPerf baseline candidate) :
    Symmetric ratio allowPerf candidate baseline := by
  have htwice : ∀ r : CompareRow, r.exchanged.unsided.exchanged = r.unsided := by
    intro r
    obtain ⟨path, b, c, abs, rel, unit, norm, kind⟩ := r
    cases kind <;> cases abs <;> simp [CompareRow.exchanged, CompareRow.unsided]
  have hback := h.map CompareRow.exchanged
  rw [List.map_map, List.map_map, show (CompareRow.exchanged ∘ fun r : CompareRow =>
    r.exchanged.unsided) = CompareRow.unsided from funext htwice] at hback
  exact hback.symm

/-- A comparison is the same from either side where no stem has one row on one
side and several on the other, and there only. -/
theorem symmetric_iff (ratio : Int → Int → String) (allowPerf : Bool)
    (baseline candidate : List HotpathRow) :
    Symmetric ratio allowPerf baseline candidate
      ↔ ∀ stem, ¬ Lopsided baseline candidate stem ∧ ¬ Lopsided candidate baseline stem :=
  ⟨fun h stem => ⟨h.symm.not_lopsided stem, h.not_lopsided stem⟩,
    fun h => symmetric_of_not_lopsided ratio (fun stem => (h stem).1) fun stem => (h stem).2⟩

/-- One instance of a function before, two after: the one is ambiguous, and
seen from the other side unmatched. -/
theorem symmetric_instances :
    ¬ Symmetric (fun _ _ => "") true [testRow "root/foo::bar::h11111111" 100]
      [testRow "root/foo::bar::h22222222" 140, testRow "root/foo::bar::h33333333" 90] := by
  intro h
  apply h.symm.not_lopsided "foo::bar"
  rw [Lopsided]
  decide

end Exchanged

end TraceMcp.Analysis
