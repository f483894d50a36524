import TraceMcp.Analysis.SelfTime

/-!
# The order of the spans

A resident analysis lists its spans by id, a spilled one in completion order.
What a row counts does not depend on that (`Agg.Same`, `spanSelf_perm`), nor
does the order of the rows, which no two of them tie in. The path of a span
does: the walk up stops after `MAX_DEPTH` frames, and what it leaves in the
cache is cut off there. As long as no chain of parents is longer, the cache
holds nothing but the whole paths (`Coherent`, `pathOf_eq`) and any order
gives the same rows; a longer chain gives other rows when its last span comes
first than when it comes after its parents (`orderFree_iff`).
-/

namespace TraceMcp.Analysis

open TraceMcp.Lib

/-! ## Whole paths -/

section Paths

variable {up : Nat → Option FunctionSpan} {names : Names}

/-- The path of a span from its root down, and how many frames it has; `up`
finds a span by its id. -/
inductive PathIs (up : Nat → Option FunctionSpan) (names : Names) :
    FunctionSpan → Nat → String → Prop
  | root {sp : FunctionSpan} (h : sp.parent.bind up = none) :
      PathIs up names sp 1 (frameName names sp)
  | under {sp p : FunctionSpan} {n : Nat} {path : String} (h : sp.parent.bind up = some p)
      (hp : PathIs up names p n path) :
      PathIs up names sp (n + 1) (extendPath path (frameName names sp))

theorem PathIs.unique {sp : FunctionSpan} {n n' : Nat} {path path' : String}
    (h : PathIs up names sp n path) (h' : PathIs up names sp n' path') : n = n' ∧ path = path' := by
  induction h generalizing n' path' with
  | root hroot =>
    cases h' with
    | root => exact ⟨rfl, rfl⟩
    | under hunder => rw [hroot] at hunder; cases hunder
  | under hunder _ ih =>
    cases h' with
    | root hroot => rw [hroot] at hunder; cases hunder
    | under hunder' hp' =>
      obtain rfl := Option.some.inj (hunder.symm.trans hunder')
      obtain ⟨rfl, rfl⟩ := ih hp'
      exact ⟨rfl, rfl⟩

/-- A span is not its own parent. -/
theorem PathIs.parent_ne {sp : FunctionSpan} {n : Nat} {path : String}
    (h : PathIs up names sp n path) : sp.parent.bind up ≠ some sp := by
  intro hself
  cases h with
  | root hroot => rw [hroot] at hself; cases hself
  | under hunder hp =>
    obtain rfl := Option.some.inj (hunder.symm.trans hself)
    have hloop := (hp.under hself).unique hp
    omega

theorem PathIs.pos {sp : FunctionSpan} {n : Nat} {path : String} (h : PathIs up names sp n path) :
    0 < n := by
  cases h <;> omega

/-- The path in front of a span. -/
def Front (up : Nat → Option FunctionSpan) (names : Names) (sp : FunctionSpan) (q : String) : Prop :=
  (sp.parent.bind up = none ∧ q = "") ∨
    ∃ p m, sp.parent.bind up = some p ∧ PathIs up names p m q

theorem Front.extend {sp : FunctionSpan} {q : String} (h : Front up names sp q) :
    ∃ n, PathIs up names sp n (extendPath q (frameName names sp)) := by
  rcases h with ⟨hroot, rfl⟩ | ⟨p, m, hp, hq⟩
  · exact ⟨1, .root hroot⟩
  · exact ⟨m + 1, .under hp hq⟩

/-! ## The cache -/

variable {ids : FastMap Nat FunctionSpan} {cache : FastMap Nat String}

/-- The cache holds whole paths only. -/
def Coherent (ids : FastMap Nat FunctionSpan) (names : Names) (cache : FastMap Nat String) : Prop :=
  ∀ i q, cache.get i = some q → ∃ sp n, ids.get i = some sp ∧ PathIs ids.get names sp n q

theorem Coherent.insert (h : Coherent ids names cache) {sp : FunctionSpan} {n : Nat} {q : String}
    (hsp : ids.get sp.id = some sp) (hq : PathIs ids.get names sp n q) :
    Coherent ids names (cache.insert sp.id q) := by
  intro i q' hget
  rw [FastMap.get_insert] at hget
  split at hget
  next hi =>
    obtain rfl := Option.some.inj hget
    exact ⟨sp, n, by rw [hi, hsp], hq⟩
  next => exact h i q' hget

/-- A span is listed under its own id. -/
def OwnIds (ids : FastMap Nat FunctionSpan) : Prop := ∀ i sp, ids.get i = some sp → sp.id = i

theorem OwnIds.parent (h : OwnIds ids) {sp p : FunctionSpan} (hp : sp.parent.bind ids.get = some p) :
    ids.get p.id = some p := by
  obtain ⟨i, -, hi⟩ := Option.bind_eq_some_iff.mp hp
  rw [h i p hi]
  exact hi

theorem OwnIds.parent_id_ne (h : OwnIds ids) {sp p : FunctionSpan} {n : Nat} {path : String}
    (hsp : ids.get sp.id = some sp) (hpath : PathIs ids.get names sp n path)
    (hp : sp.parent.bind ids.get = some p) : p.id ≠ sp.id := by
  intro heq
  have hsame := h.parent hp
  rw [heq, hsp] at hsame
  obtain rfl := Option.some.inj hsame
  exact hpath.parent_ne hp

/-- The walk up, and the way down again over what it passed. -/
theorem climb_front (hown : OwnIds ids) (hcache : Coherent ids names cache) :
    ∀ (room : Nat) {cur : FunctionSpan} {n : Nat} {path : String}, ids.get cur.id = some cur →
      PathIs ids.get names cur n path → n ≤ room + 1 →
        Coherent ids names ((climb ids cache room cur).1.reverse.foldl (notePath names)
          ((climb ids cache room cur).2.getD "", cache)).2 ∧
        Front ids.get names cur ((climb ids cache room cur).1.reverse.foldl (notePath names)
          ((climb ids cache room cur).2.getD "", cache)).1 := by
  intro room
  induction room with
  | zero =>
    intro cur n path hcur hpath hn
    unfold climb
    cases hpath with
    | root hroot =>
      rw [hroot]
      exact ⟨hcache, .inl ⟨hroot, rfl⟩⟩
    | under hunder hp =>
      have hpos := hp.pos
      omega
  | succ room ih =>
    intro cur n path hcur hpath hn
    unfold climb
    cases hparent : cur.parent.bind ids.get with
    | none => exact ⟨hcache, .inl ⟨hparent, rfl⟩⟩
    | some p =>
      dsimp only
      rw [if_neg (hown.parent_id_ne hcur hpath hparent)]
      cases hget : FastMap.get cache p.id with
      | some q =>
        obtain ⟨sp, m, hsp, hq⟩ := hcache p.id q hget
        obtain rfl := Option.some.inj ((hown.parent hparent).symm.trans hsp)
        exact ⟨hcache, .inr ⟨p, m, hparent, hq⟩⟩
      | none =>
        -- the parent's own front, and then the parent
        cases hpath with
        | root hroot => rw [hroot] at hparent; cases hparent
        | under hunder hp =>
          obtain rfl := Option.some.inj (hunder.symm.trans hparent)
          obtain ⟨hcoherent, hfront⟩ := ih (hown.parent hunder) hp (by omega)
          obtain ⟨m, hm⟩ := hfront.extend
          dsimp only
          rw [List.reverse_cons, List.foldl_append, List.foldl_cons, List.foldl_nil]
          exact ⟨hcoherent.insert (hown.parent hunder) hm, .inr ⟨_, m, hunder, hm⟩⟩

/-- A span at most `MAX_DEPTH` frames deep gets its whole path. -/
theorem pathOf_eq (hown : OwnIds ids) (hcache : Coherent ids names cache) {sp : FunctionSpan}
    {n : Nat} {path : String} (hsp : ids.get sp.id = some sp) (hpath : PathIs ids.get names sp n path)
    (hn : n ≤ maxPathDepth) :
    (pathOf names ids cache sp).1 = path ∧ Coherent ids names (pathOf names ids cache sp).2 := by
  unfold pathOf
  cases hget : FastMap.get cache sp.id with
  | some q =>
    obtain ⟨sp', m, hsp', hq⟩ := hcache sp.id q hget
    obtain rfl := Option.some.inj (hsp.symm.trans hsp')
    exact ⟨(hq.unique hpath).2, hcache⟩
  | none =>
    obtain ⟨hcoherent, hfront⟩ := climb_front hown hcache (maxPathDepth - 1) hsp hpath
      (by unfold maxPathDepth at hn ⊢; omega)
    obtain ⟨m, hm⟩ := hfront.extend
    dsimp only
    rw [List.reverse_cons, List.foldl_append, List.foldl_cons, List.foldl_nil]
    exact ⟨(hm.unique hpath).2, hcoherent.insert hsp hm⟩

end Paths

/-! ## Self times in any order -/

theorem intervalLe_antisymm (a b : Interval) (h : intervalLe a b = true) (h' : intervalLe b a = true) :
    a = b := by
  simp only [intervalLe, Bool.or_eq_true, Bool.and_eq_true, decide_eq_true_eq, beq_iff_eq] at h h'
  exact Prod.ext (by omega) (by omega)

theorem selfElapsed_perm {civ civ' : List Interval} (h : civ.Perm civ') (ps pe : Nat)
    (certain : Bool) : selfElapsed ps pe civ certain = selfElapsed ps pe civ' certain := by
  have hclip := h.filterMap (Interval.clip (ps, pe))
  have hsort : (civ.filterMap (Interval.clip (ps, pe))).mergeSort intervalLe =
      (civ'.filterMap (Interval.clip (ps, pe))).mergeSort intervalLe :=
    List.Perm.eq_of_pairwise (fun a b _ _ => intervalLe_antisymm a b)
      (List.pairwise_mergeSort intervalLe_trans intervalLe_total _)
      (List.pairwise_mergeSort intervalLe_trans intervalLe_total _)
      ((List.mergeSort_perm _ _).trans (hclip.trans (List.mergeSort_perm _ _).symm))
  unfold selfElapsed
  rw [hsort]

theorem selfElapsed_uncertain (ps pe : Nat) (civ : List Interval) :
    selfElapsed ps pe civ false = none := if_pos (Or.inl rfl)

/-- Whether a child, if it is listed, is complete and has known times. -/
def kidCertain (ids : FastMap Nat FunctionSpan) (kid : Nat) : Bool :=
  (ids.get kid).all fun ch =>
    ch.completeness = .complete && ch.start.relativeNs.isSome && ch.stop.relativeNs.isSome

def kidInterval (ids : FastMap Nat FunctionSpan) (kid : Nat) : Option Interval :=
  (ids.get kid).map spanInterval

theorem childIntervals_certain (ids : FastMap Nat FunctionSpan) (kids : List Nat) :
    (childIntervals ids kids).2 = kids.all (kidCertain ids) ∧
      (kids.all (kidCertain ids) = true →
        (childIntervals ids kids).1 = kids.filterMap (kidInterval ids)) := by
  induction kids with
  | nil => exact ⟨rfl, fun _ => rfl⟩
  | cons kid kids ih =>
    unfold childIntervals
    rw [List.all_cons, List.filterMap_cons]
    cases hget : ids.get kid with
    | none => simpa [kidCertain, kidInterval, hget] using ih
    | some ch =>
      dsimp only
      by_cases hc : ch.completeness = .complete
      · cases hs : ch.start.relativeNs with
        | none => simp [kidCertain, hget, hc, hs]
        | some a =>
          cases he : ch.stop.relativeNs with
          | none => simp [kidCertain, hget, hc, hs, he]
          | some b =>
            simp only [hc, ne_eq, not_true, if_false, kidCertain, kidInterval, hget, hs, he,
              Option.all_some, Option.map_some, spanInterval, Option.getD_some, decide_true,
              Option.isSome_some, Bool.and_true, Bool.true_and]
            exact ⟨ih.1, fun h => by rw [ih.2 h]⟩
      · simp [kidCertain, hget, hc]

/-- The self time of a span depends on which spans and children there are,
not on their order. -/
theorem spanSelf_perm {ids ids' : FastMap Nat FunctionSpan} {children children' : FastMap Nat (List Nat)}
    (hids : ∀ i, ids.get i = ids'.get i)
    (hkids : ∀ p, ((children.get p).getD []).Perm ((children'.get p).getD [])) (sp : FunctionSpan) :
    spanSelf ids children sp = spanSelf ids' children' sp := by
  have hcertain : kidCertain ids = kidCertain ids' := by
    funext kid
    rw [kidCertain, hids, ← kidCertain]
  have hinterval : kidInterval ids = kidInterval ids' := by
    funext kid
    rw [kidInterval, hids, ← kidInterval]
  unfold spanSelf
  split
  next ps pe _ _ =>
    obtain ⟨h, hiv⟩ := childIntervals_certain ids ((children.get sp.id).getD [])
    obtain ⟨h', hiv'⟩ := childIntervals_certain ids' ((children'.get sp.id).getD [])
    rw [← hcertain, ← hinterval, ← (hkids sp.id).all_eq] at hiv'
    rw [← hcertain, ← (hkids sp.id).all_eq, ← h] at h'
    dsimp only
    rw [h']
    cases hall : ((children.get sp.id).getD []).all (kidCertain ids) with
    | false => rw [h, hall, selfElapsed_uncertain, selfElapsed_uncertain]
    | true =>
      rw [hiv hall, hiv' hall]
      exact selfElapsed_perm ((hkids sp.id).filterMap _) _ _ _
  next => rfl

/-! ## Rows in any order -/

/-- Two aggregates that make the same row. -/
structure Agg.Same (a b : Agg) : Prop where
  complete : a.complete = b.complete
  observed : a.observed = b.observed
  excluded : a.excluded = b.excluded
  inclusives : a.inclusives.Perm b.inclusives
  selfs : a.selfs.Perm b.selfs

theorem sumOf_perm {l l' : List Nat} (h : l.Perm l') : sumOf l = sumOf l' := by
  unfold sumOf
  rw [h.isEmpty_eq, h.sum_eq]

theorem Agg.Same.row {a b : Agg} (h : a.Same b) (path : String) :
    hotpathRow path a = hotpathRow path b := by
  have hle : ∀ x y z : Nat, decide (x ≤ y) = true → decide (y ≤ z) = true → decide (x ≤ z) = true := by
    intro x y z hxy hyz
    simp only [decide_eq_true_eq] at hxy hyz ⊢
    omega
  have htotal : ∀ x y : Nat, (decide (x ≤ y) || decide (y ≤ x)) = true := by
    intro x y
    simp only [Bool.or_eq_true, decide_eq_true_eq]
    omega
  have hsort : a.inclusives.mergeSort (· ≤ ·) = b.inclusives.mergeSort (· ≤ ·) := by
    refine List.Perm.eq_of_pairwise (fun x y _ _ hxy hyx => ?_)
      (List.pairwise_mergeSort hle htotal _) (List.pairwise_mergeSort hle htotal _)
      ((List.mergeSort_perm _ _).trans (h.inclusives.trans (List.mergeSort_perm _ _).symm))
    simp only [decide_eq_true_eq] at hxy hyx
    omega
  unfold hotpathRow
  rw [hsort, h.complete, h.observed, h.excluded, sumOf_perm h.selfs]

/-- Whether a span is counted in full. -/
def isCounted (sel : Selection) (sp : FunctionSpan) : Bool :=
  sp.completeness = .complete && contained sel sp

/-- The inclusive time it adds, if it has one. -/
def inclusiveOf (sel : Selection) (sp : FunctionSpan) : List Nat :=
  if isCounted sel sp then (inclusiveElapsed sp.start sp.stop sp.completeness).toList else []

def selfOf (ids : FastMap Nat FunctionSpan) (children : FastMap Nat (List Nat)) (sel : Selection)
    (sp : FunctionSpan) : List Nat :=
  if isCounted sel sp then (spanSelf ids children sp).toList else []

/-- What a list of spans adds to an aggregate. -/
theorem foldl_add (ids : FastMap Nat FunctionSpan) (children : FastMap Nat (List Nat))
    (sel : Selection) (l : List FunctionSpan) (a : Agg) :
    l.foldl (Agg.add ids children sel) a =
      { complete := a.complete + l.countP (isCounted sel)
        observed := a.observed + l.length
        excluded := a.excluded + l.countP fun sp => !isCounted sel sp
        inclusives := a.inclusives ++ l.flatMap (inclusiveOf sel)
        selfs := a.selfs ++ l.flatMap (selfOf ids children sel) } := by
  induction l generalizing a with
  | nil => simp
  | cons sp l ih =>
    rw [List.foldl_cons, ih]
    unfold Agg.add
    by_cases h : isCounted sel sp = true
    · have hall := h
      rw [isCounted, Bool.and_eq_true, decide_eq_true_eq] at hall
      rw [if_neg (by simp [hall])]
      simp only [List.countP_cons, List.length_cons, List.flatMap_cons, inclusiveOf, selfOf, h,
        List.append_assoc, Bool.not_true, if_true, Bool.false_eq_true, if_false, Agg.mk.injEq]
      exact ⟨by omega, by omega, by omega, trivial, trivial⟩
    · have hany : sp.completeness ≠ .complete ∨ contained sel sp = false := by
        rw [Bool.not_eq_true, isCounted, Bool.and_eq_false_iff, decide_eq_false_iff_not] at h
        exact h
      rw [if_pos hany]
      rw [Bool.not_eq_true] at h
      simp only [List.countP_cons, List.length_cons, List.flatMap_cons, inclusiveOf, selfOf, h,
        List.nil_append, Bool.not_false, if_true, Bool.false_eq_true, if_false, Agg.mk.injEq]
      exact ⟨by omega, by omega, by omega, trivial, trivial⟩

/-- Counting the same spans in another order. -/
theorem foldl_add_same {ids ids' : FastMap Nat FunctionSpan}
    {children children' : FastMap Nat (List Nat)} (sel : Selection)
    (hids : ∀ i, ids.get i = ids'.get i)
    (hkids : ∀ p, ((children.get p).getD []).Perm ((children'.get p).getD []))
    {l l' : List FunctionSpan} (h : l.Perm l') (a : Agg) :
    (l.foldl (Agg.add ids children sel) a).Same (l'.foldl (Agg.add ids' children' sel) a) := by
  have hself : selfOf ids children sel = selfOf ids' children' sel := by
    funext sp
    rw [selfOf, spanSelf_perm hids hkids, ← selfOf]
  rw [foldl_add, foldl_add, ← hself]
  exact
    { complete := congrArg (a.complete + ·) (h.countP_eq _)
      observed := congrArg (a.observed + ·) h.length_eq
      excluded := congrArg (a.excluded + ·) (h.countP_eq _)
      inclusives := (h.flatMap_right _).append_left _
      selfs := (h.flatMap_right _).append_left _ }

/-! ## Grouping by a label -/

section Grouping

variable {ids : FastMap Nat FunctionSpan} {children : FastMap Nat (List Nat)} {names : Names}
  {sel : Selection} {opts : HotpathOptions} {label : FunctionSpan → String}

/-- Whether a span with this label is counted on a row. -/
def isGrouped (sel : Selection) (opts : HotpathOptions) (label : FunctionSpan → String)
    (sp : FunctionSpan) : Bool :=
  !(sel.threadId.any (sp.thread ≠ ·)) && opts.functionContains.all (containsStr (label sp) ·)

/-- The spans of one row. -/
def rowSpans (sel : Selection) (opts : HotpathOptions) (label : FunctionSpan → String)
    (spans : List FunctionSpan) (path : String) : List FunctionSpan :=
  spans.filter fun sp => isGrouped sel opts label sp && label sp = path

/-- The state of the loop when every span was labelled by `label`. -/
def Grouped (ids : FastMap Nat FunctionSpan) (children : FastMap Nat (List Nat)) (sel : Selection)
    (opts : HotpathOptions) (label : FunctionSpan → String) (spans : List FunctionSpan)
    (m : FastMap String Agg) : Prop :=
  ∀ path, m.get path = if rowSpans sel opts label spans path = [] then none
    else some ((rowSpans sel opts label spans path).foldl (Agg.add ids children sel) .default)

theorem rowSpans_concat (spans : List FunctionSpan) (sp : FunctionSpan) (path : String) :
    rowSpans sel opts label (spans ++ [sp]) path = rowSpans sel opts label spans path ++
      if isGrouped sel opts label sp && label sp = path then [sp] else [] := by
  unfold rowSpans
  rw [List.filter_append, List.filter_singleton, Bool.cond_eq_ite]

/-- One more span, labelled as it should be. -/
theorem Grouped.step {spans : List FunctionSpan} {g : Grouping} {sp : FunctionSpan}
    (h : Grouped ids children sel opts label spans g.byPath)
    (hlabel : (rowPath opts names ids g.cache sp).1 = label sp) :
    Grouped ids children sel opts label (spans ++ [sp])
      (groupSpan names ids children sel opts g sp).byPath := by
  intro path
  rw [rowSpans_concat]
  unfold groupSpan
  dsimp only
  rw [hlabel]
  split
  next hother =>
    rw [isGrouped, hother]
    simpa using h path
  next hsame =>
    split
    next hfiltered =>
      have hno : opts.functionContains.all (containsStr (label sp) ·) = false := by
        cases hf : opts.functionContains with
        | none => rw [hf] at hfiltered; cases hfiltered
        | some f => simpa [hf] using hfiltered
      rw [isGrouped, hno]
      simpa using h path
    next hkept =>
      have hgrouped : isGrouped sel opts label sp = true := by
        rw [isGrouped, Bool.and_eq_true]
        refine ⟨by simpa using hsame, ?_⟩
        cases hf : opts.functionContains with
        | none => rfl
        | some f => simpa [hf] using hkept
      rw [hgrouped, Bool.true_and, FastMap.get_insert]
      -- the rows of its own path grow by the span, the others stay
      by_cases hpath : label sp = path
      · subst hpath
        rw [if_pos rfl, if_pos (decide_eq_true rfl), if_neg (by simp), List.foldl_append,
          h (label sp)]
        congr 1
        split
        next hnil => rw [hnil]; rfl
        next => rfl
      · rw [if_neg (Ne.symm hpath), decide_eq_false hpath]
        simpa using h path

/-- The loop, where an invariant of the cache fixes every label. -/
theorem Grouped.run {P : FastMap Nat String → Prop} (hempty : P ∅) {spans : List FunctionSpan}
    (hlabel : ∀ sp ∈ spans, ∀ cache, P cache →
      (rowPath opts names ids cache sp).1 = label sp ∧ P (rowPath opts names ids cache sp).2) :
    Grouped ids children sel opts label spans
      (spans.foldl (groupSpan names ids children sel opts) ⟨∅, ∅⟩).byPath ∧
    P (spans.foldl (groupSpan names ids children sel opts) ⟨∅, ∅⟩).cache := by
  induction spans using List.reverseRecOn with
  | nil => exact ⟨fun path => rfl, hempty⟩
  | append_singleton spans sp ih =>
    obtain ⟨hgrouped, hP⟩ := ih fun sp' hsp' => hlabel sp' (List.mem_append_left _ hsp')
    obtain ⟨hsp, hP'⟩ := hlabel sp (List.mem_append_right _ List.mem_cons_self) _ hP
    rw [List.foldl_append, List.foldl_cons, List.foldl_nil]
    refine ⟨hgrouped.step hsp, ?_⟩
    unfold groupSpan
    split
    next => exact hP
    next =>
      dsimp only
      split
      next => exact hP'
      next => exact hP'

end Grouping

/-! ## The order of the rows -/

theorem optionLe_antisymm (a b : Option Nat) (h : optionLe a b = true) (h' : optionLe b a = true) :
    a = b := by
  cases a with
  | none =>
    cases b with
    | none => rfl
    | some b => cases h'
  | some a =>
    cases b with
    | none => cases h
    | some b =>
      simp only [optionLe, decide_eq_true_eq] at h h'
      rw [Nat.le_antisymm h h']

theorem optionLe_trans (a b c : Option Nat) (h : optionLe a b = true) (h' : optionLe b c = true) :
    optionLe a c = true := by
  cases a with
  | none => rfl
  | some a =>
    cases b with
    | none => cases h
    | some b =>
      cases c with
      | none => cases h'
      | some c =>
        simp only [optionLe, decide_eq_true_eq] at h h' ⊢
        exact Nat.le_trans h h'

theorem optionLe_total (a b : Option Nat) : (optionLe a b || optionLe b a) = true := by
  cases a with
  | none => rfl
  | some a =>
    cases b with
    | none => rfl
    | some b =>
      simp only [optionLe, Bool.or_eq_true, decide_eq_true_eq]
      exact Nat.le_total a b

theorem descending_antisymm (a b : Option Nat) (h : descending a b = true)
    (h' : descending b a = true) : a = b := (optionLe_antisymm b a h h').symm

theorem descending_trans (a b c : Option Nat) (h : descending a b = true)
    (h' : descending b c = true) : descending a c = true := optionLe_trans c b a h' h

theorem descending_total (a b : Option Nat) : (descending a b || descending b a) = true :=
  optionLe_total b a

theorem pathLe_trans (a b c : HotpathRow) (h : pathLe a b = true) (h' : pathLe b c = true) :
    pathLe a c = true := by
  simp only [pathLe, decide_eq_true_eq] at h h' ⊢
  exact h.trans h'

theorem pathLe_total (a b : HotpathRow) : (pathLe a b || pathLe b a) = true := by
  simp only [pathLe, Bool.or_eq_true, decide_eq_true_eq]
  exact le_total a.path b.path

theorem hotpathRowLe_trans (sort : HotpathSort) :
    ∀ a b c : HotpathRow, hotpathRowLe sort a b = true → hotpathRowLe sort b c = true →
      hotpathRowLe sort a c = true := by
  cases sort with
  | inclusive => exact thenBy_trans descending_antisymm descending_trans pathLe_trans
  | selfTime =>
    exact thenBy_trans descending_antisymm descending_trans
      (thenBy_trans descending_antisymm descending_trans pathLe_trans)
  | calls => exact thenBy_trans descending_antisymm descending_trans pathLe_trans

theorem hotpathRowLe_total (sort : HotpathSort) :
    ∀ a b : HotpathRow, (hotpathRowLe sort a b || hotpathRowLe sort b a) = true := by
  cases sort with
  | inclusive => exact thenBy_total descending_total pathLe_total
  | selfTime => exact thenBy_total descending_total (thenBy_total descending_total pathLe_total)
  | calls => exact thenBy_total descending_total pathLe_total

/-- Rows that tie show one path. -/
theorem hotpathRowLe_tie (sort : HotpathSort) {a b : HotpathRow} (h : hotpathRowLe sort a b = true)
    (h' : hotpathRowLe sort b a = true) : a.path = b.path := by
  have hpath : pathLe a b = true ∧ pathLe b a = true := by
    cases sort with
    | inclusive => exact (thenBy_tie descending_antisymm h h').2
    | selfTime =>
      obtain ⟨-, hnext, hnext'⟩ := thenBy_tie descending_antisymm h h'
      exact (thenBy_tie descending_antisymm hnext hnext').2
    | calls =>
      have htie : thenBy (fun row : HotpathRow => some row.observedEntries) descending pathLe a b =
        true := h
      exact (thenBy_tie descending_antisymm htie h').2
  simp only [pathLe, decide_eq_true_eq] at hpath
  exact le_antisymm hpath.1 hpath.2

/-! ## The same rows in any order -/

/-- The rows of a map, as they are sorted. -/
def sortedRows (sort : HotpathSort) (m : FastMap String Agg) : List HotpathRow :=
  (m.entries.map fun e => hotpathRow e.1 e.2).mergeSort (hotpathRowLe sort)

theorem mem_rows {m : FastMap String Agg} {row : HotpathRow} :
    row ∈ m.entries.map (fun e => hotpathRow e.1 e.2) ↔
      ∃ path agg, m.get path = some agg ∧ hotpathRow path agg = row := by
  rw [List.mem_map]
  constructor
  · rintro ⟨⟨path, agg⟩, hmem, rfl⟩
    exact ⟨path, agg, FastMap.get_eq_some_iff.mpr hmem, rfl⟩
  · rintro ⟨path, agg, hget, rfl⟩
    exact ⟨⟨path, agg⟩, FastMap.get_eq_some_iff.mp hget, rfl⟩

/-- No two rows show one path. -/
theorem rows_distinct (m : FastMap String Agg) :
    ((m.entries.map fun e => hotpathRow e.1 e.2).map HotpathRow.path).Nodup := by
  rw [List.map_map]
  exact m.nodupKeys

/-- Maps that make the same row of every path make the same rows. -/
theorem sortedRows_congr (sort : HotpathSort) {m m' : FastMap String Agg}
    (h : ∀ path, (m.get path).map (hotpathRow path) = (m'.get path).map (hotpathRow path)) :
    sortedRows sort m = sortedRows sort m' := by
  have hmem : ∀ row, row ∈ m.entries.map (fun e => hotpathRow e.1 e.2) ↔
      row ∈ m'.entries.map (fun e => hotpathRow e.1 e.2) := by
    intro row
    simp only [mem_rows, ← Option.map_eq_some_iff, h]
  have hperm : (m.entries.map fun e => hotpathRow e.1 e.2).Perm
      (m'.entries.map fun e => hotpathRow e.1 e.2) :=
    (List.perm_ext_iff_of_nodup (rows_distinct m).of_map (rows_distinct m').of_map).mpr hmem
  unfold sortedRows
  refine List.Perm.eq_of_pairwise (fun a b ha hb hab hba => ?_)
    (List.pairwise_mergeSort (hotpathRowLe_trans sort) (hotpathRowLe_total sort) _)
    (List.pairwise_mergeSort (hotpathRowLe_trans sort) (hotpathRowLe_total sort) _)
    ((List.mergeSort_perm _ _).trans (hperm.trans (List.mergeSort_perm _ _).symm))
  have ha' := (List.mergeSort_perm _ _).mem_iff.mp ha
  have hb' := hperm.mem_iff.mpr ((List.mergeSort_perm _ _).mem_iff.mp hb)
  exact List.inj_on_of_nodup_map (rows_distinct m) ha' hb' (hotpathRowLe_tie sort hab hba)

/-! ## Any order -/

/-- The spans are listed under distinct ids, and every chain of parents ends. -/
structure ParentForest (spans : List FunctionSpan) : Prop where
  ids : (spans.map (·.id)).Nodup
  grounded : ∀ sp ∈ spans, ∃ n path, PathIs (byId spans).get ∅ sp n path

/-- How many frames the path of a span has. -/
def Depth (spans : List FunctionSpan) (sp : FunctionSpan) (n : Nat) : Prop :=
  ∃ path, PathIs (byId spans).get ∅ sp n path

/-- The depth does not depend on the names. -/
theorem PathIs.rename {up : Nat → Option FunctionSpan} {names : Names} (names' : Names)
    {sp : FunctionSpan} {n : Nat} {path : String} (h : PathIs up names sp n path) :
    ∃ path', PathIs up names' sp n path' := by
  induction h with
  | root hroot => exact ⟨_, .root hroot⟩
  | under hunder _ ih =>
    obtain ⟨path', hpath'⟩ := ih
    exact ⟨_, .under hunder hpath'⟩

/-- Any two orders of the spans give the same rows. -/
def OrderFree (spans : List FunctionSpan) : Prop :=
  ∀ l l' : List FunctionSpan, l.Perm spans → l'.Perm spans →
    ∀ (names : Names) (sel : Selection) (opts : HotpathOptions),
      hotpathsWith l names sel (childIndex l) opts = hotpathsWith l' names sel (childIndex l') opts

theorem byId_perm {l spans : List FunctionSpan} (h : l.Perm spans)
    (hids : (spans.map (·.id)).Nodup) (i : Nat) : (byId l).get i = (byId spans).get i := by
  have hids' : (l.map (·.id)).Nodup := (h.map _).nodup_iff.mpr hids
  apply Option.ext
  intro sp
  rw [byId_eq_some_iff hids', byId_eq_some_iff hids, h.mem_iff]

theorem childIndex_perm {l l' : List FunctionSpan} (h : l.Perm l') (p : Nat) :
    ((FastMap.get (childIndex l) p).getD []).Perm ((FastMap.get (childIndex l') p).getD []) := by
  rw [childIndex_get, childIndex_get]
  exact (h.filter _).map _

/-- Labelled alike, the spans make the same rows in either order. -/
theorem hotpathsWith_perm {l l' : List FunctionSpan} {names : Names} {sel : Selection}
    {opts : HotpathOptions} {label : FunctionSpan → String} (h : l.Perm l')
    (hids : (l'.map (·.id)).Nodup)
    (hl : Grouped (byId l) (childIndex l) sel opts label l
      (l.foldl (groupSpan names (byId l) (childIndex l) sel opts) ⟨∅, ∅⟩).byPath)
    (hl' : Grouped (byId l') (childIndex l') sel opts label l'
      (l'.foldl (groupSpan names (byId l') (childIndex l') sel opts) ⟨∅, ∅⟩).byPath) :
    hotpathsWith l names sel (childIndex l) opts = hotpathsWith l' names sel (childIndex l') opts := by
  refine sortedRows_congr opts.sort fun path => ?_
  have hrow : (rowSpans sel opts label l path).Perm (rowSpans sel opts label l' path) := h.filter _
  rw [hl path, hl' path]
  by_cases hnil : rowSpans sel opts label l path = []
  · have hnil' : rowSpans sel opts label l' path = [] := List.nil_perm.mp (hnil ▸ hrow)
    rw [if_pos hnil, if_pos hnil']
  · have hnil' : rowSpans sel opts label l' path ≠ [] := fun heq => hnil (List.perm_nil.mp (heq ▸ hrow))
    rw [if_neg hnil, if_neg hnil', Option.map_some, Option.map_some]
    exact congrArg some ((foldl_add_same sel (byId_perm h hids) (childIndex_perm h) hrow _).row path)

theorem ownIds_byId {spans : List FunctionSpan} (hids : (spans.map (·.id)).Nodup) :
    OwnIds (byId spans) := fun _ _ h => ((byId_eq_some_iff hids).mp h).2

/-- The whole path of every span, chosen once for all orders. -/
theorem ParentForest.paths {spans : List FunctionSpan} (h : ParentForest spans) (names : Names)
    (hdepth : ∀ sp ∈ spans, ∀ n, Depth spans sp n → n ≤ maxPathDepth) :
    ∃ full : FunctionSpan → String, ∀ sp ∈ spans, ∃ n ≤ maxPathDepth,
      PathIs (byId spans).get names sp n (full sp) := by
  have hall : ∀ sp, ∃ path, sp ∈ spans → ∃ n ≤ maxPathDepth,
      PathIs (byId spans).get names sp n path := by
    intro sp
    by_cases hsp : sp ∈ spans
    · obtain ⟨n, path, hpath⟩ := h.grounded sp hsp
      obtain ⟨path', hpath'⟩ := hpath.rename names
      exact ⟨path', fun _ => ⟨n, hdepth sp hsp n ⟨path, hpath⟩, hpath'⟩⟩
    · exact ⟨"", fun hmem => absurd hmem hsp⟩
  obtain ⟨full, hfull⟩ := Classical.axiomOfChoice hall
  exact ⟨full, hfull⟩

/-- What a span is labelled, given its whole path. -/
def fullLabel (opts : HotpathOptions) (names : Names) (full : FunctionSpan → String)
    (sp : FunctionSpan) : String :=
  match opts.group with
  | .path => shownPath opts.maxDepth (full sp)
  | .function | .inline => frameName names sp

/-- In any order of a forest that is not too deep the labels are the same. -/
theorem grouped_of_shallow {l spans : List FunctionSpan} (hperm : l.Perm spans)
    (hids : (spans.map (·.id)).Nodup) {names : Names} {full : FunctionSpan → String}
    (hfull : ∀ sp ∈ spans, ∃ n ≤ maxPathDepth, PathIs (byId spans).get names sp n (full sp))
    (children : FastMap Nat (List Nat)) (sel : Selection) (opts : HotpathOptions) :
    Grouped (byId l) children sel opts (fullLabel opts names full) l
      (l.foldl (groupSpan names (byId l) children sel opts) ⟨∅, ∅⟩).byPath := by
  have hids' : (l.map (·.id)).Nodup := (hperm.map _).nodup_iff.mpr hids
  have hup : (byId l).get = (byId spans).get := funext (byId_perm hperm hids)
  have hempty : Coherent (byId l) names ∅ := by
    intro i q hget
    rw [FastMap.get_empty] at hget
    cases hget
  refine (Grouped.run (P := Coherent (byId l) names) hempty fun sp hsp cache hcache => ?_).1
  obtain ⟨n, hn, hpath⟩ := hfull sp (hperm.mem_iff.mp hsp)
  unfold rowPath fullLabel
  cases opts.group with
  | path =>
    obtain ⟨heq, hcoherent⟩ := pathOf_eq (ownIds_byId hids') hcache (byId_self hids' hsp)
      (hup ▸ hpath) hn
    exact ⟨congrArg (shownPath opts.maxDepth) heq, hcoherent⟩
  | function => exact ⟨rfl, hcache⟩
  | inline => exact ⟨rfl, hcache⟩

/-! ## A chain that is too long -/

/-- The walk from an empty cache is cut off. -/
theorem climb_cut {ids : FastMap Nat FunctionSpan} (hown : OwnIds ids) {names : Names} :
    ∀ (room : Nat) {cur : FunctionSpan} {n : Nat} {path : String}, ids.get cur.id = some cur →
      PathIs ids.get names cur n path → room + 1 < n → (climb ids ∅ room cur).2 = some "..." := by
  intro room
  induction room with
  | zero =>
    intro cur n path hcur hpath hn
    unfold climb
    cases hparent : cur.parent.bind ids.get with
    | none =>
      cases hpath with
      | root => omega
      | under hunder => rw [hunder] at hparent; cases hparent
    | some p =>
      dsimp only
      rw [if_neg (hown.parent_id_ne hcur hpath hparent), FastMap.get_empty]
  | succ room ih =>
    intro cur n path hcur hpath hn
    unfold climb
    cases hpath with
    | root => omega
    | under hunder hp =>
      rw [hunder]
      dsimp only
      rw [if_neg (hown.parent_id_ne hcur (hp.under hunder) hunder), FastMap.get_empty]
      exact ih (hown.parent hunder) hp (by omega)

/-- The first character of a path. -/
def firstChar (path : String) : Option Char := path.toList.head?

/-- A frame behind a path does not change how it begins. -/
theorem firstChar_extend {path name : String} {c : Char} (h : firstChar path = some c) :
    firstChar (extendPath path name) = some c := by
  have hne : path ≠ "" := by
    rintro rfl
    cases h
  have happend : ∀ t : String, firstChar (path ++ t) = some c := by
    intro t
    unfold firstChar at h ⊢
    rw [String.toList_append, List.head?_append, h]
    rfl
  unfold extendPath
  rw [if_neg hne]
  split
  next => exact happend _
  next =>
    rw [String.append_assoc]
    exact happend _

theorem firstChar_fold {names : Names} {c : Char} (nodes : List FunctionSpan) :
    ∀ acc : String × FastMap Nat String, firstChar acc.1 = some c →
      firstChar (nodes.foldl (notePath names) acc).1 = some c := by
  induction nodes with
  | nil => exact fun acc h => h
  | cons node nodes ih =>
    intro acc h
    rw [List.foldl_cons]
    exact ih _ (firstChar_extend h)

/-- A span that is too deep is shown cut off when it comes first. -/
theorem pathOf_cut {ids : FastMap Nat FunctionSpan} (hown : OwnIds ids) {names : Names}
    {sp : FunctionSpan} {n : Nat} {path : String} (hsp : ids.get sp.id = some sp)
    (hpath : PathIs ids.get names sp n path) (hn : maxPathDepth < n) :
    firstChar (pathOf names ids ∅ sp).1 = some '.' := by
  have hcut := climb_cut hown (maxPathDepth - 1) hsp hpath (by unfold maxPathDepth at hn ⊢; omega)
  unfold pathOf
  rw [FastMap.get_empty]
  dsimp only
  rw [hcut]
  exact firstChar_fold _ _ (by decide)

/-- What is in the cache begins with a name. -/
def Named (seen : List FunctionSpan) (cache : FastMap Nat String) : Prop :=
  (∀ i q, cache.get i = some q → firstChar q = some '<') ∧
    ∀ sp ∈ seen, (cache.get sp.id).isSome = true

/-- Behind its parents a span of no known function is shown by its whole path,
or by the part of it that `MAX_DEPTH` leaves. -/
theorem pathOf_named {ids : FastMap Nat FunctionSpan} {seen : List FunctionSpan}
    {cache : FastMap Nat String} (hcache : Named seen cache) {sp : FunctionSpan}
    (hparent : ∀ p, sp.parent.bind ids.get = some p → p ∈ seen) :
    firstChar (pathOf ∅ ids cache sp).1 = some '<' ∧
      Named (seen ++ [sp]) (pathOf ∅ ids cache sp).2 := by
  have hunknown : frameName ∅ sp = "<unknown>" := by
    unfold frameName nameOf
    cases sp.function <;> rfl
  unfold pathOf
  cases hget : FastMap.get cache sp.id with
  | some q =>
    refine ⟨hcache.1 sp.id q hget, hcache.1, fun sp' hsp' => ?_⟩
    rcases List.mem_append.mp hsp' with hsp' | hsp'
    · exact hcache.2 sp' hsp'
    · rw [List.mem_singleton.mp hsp', hget]
      rfl
  | none =>
    -- the climb stops at the parent, whose path is in the cache already
    have hfront : ∃ before, climb ids cache (maxPathDepth - 1) sp = ([], before) ∧
        (before = none ∨ ∃ q, before = some q ∧ firstChar q = some '<') := by
      unfold climb
      cases hp : sp.parent.bind ids.get with
      | none => exact ⟨none, rfl, .inl rfl⟩
      | some p =>
        dsimp only
        split
        next => exact ⟨none, rfl, .inl rfl⟩
        next =>
          obtain ⟨q, hq⟩ := Option.isSome_iff_exists.mp (hcache.2 p (hparent p hp))
          rw [hq]
          exact ⟨some q, rfl, .inr ⟨q, rfl, hcache.1 p.id q hq⟩⟩
    obtain ⟨before, hclimb, hbefore⟩ := hfront
    have hfirst : firstChar (extendPath (before.getD "") (frameName ∅ sp)) = some '<' := by
      rcases hbefore with rfl | ⟨q, rfl, hq⟩
      · rw [hunknown]
        decide
      · exact firstChar_extend hq
    dsimp only
    rw [hclimb]
    dsimp only
    rw [List.reverse_singleton, List.foldl_cons, List.foldl_nil, notePath]
    dsimp only
    refine ⟨hfirst, fun i q hi => ?_, fun sp' hsp' => ?_⟩
    · rw [FastMap.get_insert] at hi
      split at hi
      next =>
        obtain rfl := Option.some.inj hi
        exact hfirst
      next => exact hcache.1 i q hi
    · rw [FastMap.get_insert]
      split
      next => rfl
      next hne =>
        rcases List.mem_append.mp hsp' with hsp' | hsp'
        · exact hcache.2 sp' hsp'
        · rw [List.mem_singleton.mp hsp'] at hne
          exact absurd rfl hne

/-- No names, no selection, the options as they are by default: the rows of a
map begin as its paths do. -/
theorem mem_hotpathsWith {l : List FunctionSpan} {row : HotpathRow} :
    row ∈ hotpathsWith l ∅ everything (childIndex l) .default ↔
      ∃ path agg, (l.foldl (groupSpan ∅ (byId l) (childIndex l) everything .default)
        ⟨∅, ∅⟩).byPath.get path = some agg ∧ hotpathRow path agg = row := by
  unfold hotpathsWith
  rw [(List.mergeSort_perm _ _).mem_iff]
  exact mem_rows

theorem groupSpan_everything (names : Names) (ids : FastMap Nat FunctionSpan)
    (children : FastMap Nat (List Nat)) (g : Grouping) (sp : FunctionSpan) :
    groupSpan names ids children everything .default g sp =
      ⟨(pathOf names ids g.cache sp).2, g.byPath.insert (pathOf names ids g.cache sp).1
        (((g.byPath.get (pathOf names ids g.cache sp).1).getD .default).add ids children everything
          sp)⟩ := rfl

/-- A row stays. -/
theorem byPath_stays {names : Names} {ids : FastMap Nat FunctionSpan}
    {children : FastMap Nat (List Nat)} {path : String} (l : List FunctionSpan) :
    ∀ g : Grouping, (g.byPath.get path).isSome = true →
      ((l.foldl (groupSpan names ids children everything .default) g).byPath.get path).isSome =
        true := by
  induction l with
  | nil => exact fun g h => h
  | cons sp l ih =>
    intro g h
    rw [List.foldl_cons]
    refine ih _ ?_
    rw [groupSpan_everything]
    dsimp only
    rw [FastMap.get_insert]
    split
    next => rfl
    next => exact h

/-- The first span has its row. -/
theorem byPath_first (names : Names) (ids : FastMap Nat FunctionSpan)
    (children : FastMap Nat (List Nat)) (sp : FunctionSpan) (l : List FunctionSpan) :
    (((sp :: l).foldl (groupSpan names ids children everything .default) ⟨∅, ∅⟩).byPath.get
      (pathOf names ids ∅ sp).1).isSome = true := by
  rw [List.foldl_cons]
  refine byPath_stays l _ ?_
  rw [groupSpan_everything]
  dsimp only
  rw [FastMap.get_insert_self]
  rfl

/-- With a span first that is too deep, some row begins with dots. -/
theorem exists_row_cut {spans : List FunctionSpan} (h : ParentForest spans) {sp : FunctionSpan}
    (hsp : sp ∈ spans) {n : Nat} (hdepth : Depth spans sp n) (hn : maxPathDepth < n) :
    ∃ l : List FunctionSpan, l.Perm spans ∧
      ∃ row ∈ hotpathsWith l ∅ everything (childIndex l) .default, firstChar row.path = some '.' := by
  have hperm : (sp :: spans.erase sp).Perm spans := (List.perm_cons_erase hsp).symm
  have hids : ((sp :: spans.erase sp).map (·.id)).Nodup := (hperm.map _).nodup_iff.mpr h.ids
  have hup : (byId (sp :: spans.erase sp)).get = (byId spans).get := funext (byId_perm hperm h.ids)
  obtain ⟨path, hpath⟩ := hdepth
  have hcut := pathOf_cut (ownIds_byId hids) (byId_self hids List.mem_cons_self) (hup ▸ hpath) hn
  obtain ⟨agg, hagg⟩ := Option.isSome_iff_exists.mp (byPath_first ∅ (byId (sp :: spans.erase sp))
    (childIndex (sp :: spans.erase sp)) sp (spans.erase sp))
  exact ⟨_, hperm, _, mem_hotpathsWith.mpr ⟨_, agg, hagg, rfl⟩, hcut⟩

/-- Every forest can be listed with parents before their children. -/
theorem exists_parentsFirst {spans : List FunctionSpan} (h : ParentForest spans) :
    ∃ l : List FunctionSpan, l.Perm spans ∧ ∀ pre sp post, l = pre ++ sp :: post →
      ∀ p, sp.parent.bind (byId l).get = some p → p ∈ pre := by
  have hall : ∀ sp, ∃ n, sp ∈ spans → Depth spans sp n := by
    intro sp
    by_cases hsp : sp ∈ spans
    · obtain ⟨n, hn⟩ := h.grounded sp hsp
      exact ⟨n, fun _ => hn⟩
    · exact ⟨0, fun hmem => absurd hmem hsp⟩
  obtain ⟨depth, hdepth⟩ := Classical.axiomOfChoice hall
  have hperm := List.mergeSort_perm spans fun a b => decide (depth a ≤ depth b)
  have hsorted : (spans.mergeSort fun a b => decide (depth a ≤ depth b)).Pairwise
      fun a b => decide (depth a ≤ depth b) = true := by
    refine List.pairwise_mergeSort (fun a b c hab hbc => ?_) (fun a b => ?_) spans
    · simp only [decide_eq_true_eq] at hab hbc ⊢
      omega
    · simp only [Bool.or_eq_true, decide_eq_true_eq]
      omega
  refine ⟨_, hperm, fun pre sp post hl p hp => ?_⟩
  rw [funext (byId_perm hperm h.ids)] at hp
  have hsp : sp ∈ spans := hperm.mem_iff.mp (hl ▸ List.mem_append_right _ List.mem_cons_self)
  have hmem : p ∈ spans := by
    obtain ⟨i, -, hi⟩ := Option.bind_eq_some_iff.mp hp
    exact ((byId_eq_some_iff h.ids).mp hi).1
  -- a parent is less deep than its child, so it does not come later
  obtain ⟨path, hpath⟩ := hdepth p hmem
  obtain ⟨path', hpath'⟩ := hdepth sp hsp
  have hlt : depth p + 1 = depth sp := ((hpath.under hp).unique hpath').1
  rcases List.mem_append.mp (hl ▸ hperm.mem_iff.mpr hmem) with hpre | hpost
  · exact hpre
  · rcases List.mem_cons.mp hpost with rfl | hpost
    · omega
    · have hle := List.rel_of_pairwise_cons (List.pairwise_append.mp (hl ▸ hsorted)).2.1 hpost
      simp only [decide_eq_true_eq] at hle
      omega

/-- Listed so, every row begins with a name. -/
theorem rows_named {l : List FunctionSpan} (hfirst : ∀ pre sp post, l = pre ++ sp :: post →
      ∀ p, sp.parent.bind (byId l).get = some p → p ∈ pre) :
    ∀ row ∈ hotpathsWith l ∅ everything (childIndex l) .default, firstChar row.path = some '<' := by
  have hrun : ∀ pre post, l = pre ++ post →
      Named pre (pre.foldl (groupSpan ∅ (byId l) (childIndex l) everything .default) ⟨∅, ∅⟩).cache ∧
        ∀ path agg, (pre.foldl (groupSpan ∅ (byId l) (childIndex l) everything .default)
          ⟨∅, ∅⟩).byPath.get path = some agg → firstChar path = some '<' := by
    intro pre
    induction pre using List.reverseRecOn with
    | nil =>
      intro post _
      refine ⟨⟨fun i q hget => ?_, fun sp hsp => by cases hsp⟩, fun path agg hget => ?_⟩
      · rw [List.foldl_nil, FastMap.get_empty] at hget
        cases hget
      · rw [List.foldl_nil, FastMap.get_empty] at hget
        cases hget
    | append_singleton pre sp ih =>
      intro post hl
      rw [List.append_assoc, List.singleton_append] at hl
      obtain ⟨hnamed, hrows⟩ := ih (sp :: post) hl
      obtain ⟨hpath, hnamed'⟩ := pathOf_named hnamed (hfirst pre sp post hl)
      rw [List.foldl_append, List.foldl_cons, List.foldl_nil, groupSpan_everything]
      refine ⟨hnamed', fun path agg hget => ?_⟩
      dsimp only at hget
      rw [FastMap.get_insert] at hget
      split at hget
      next heq =>
        rw [heq]
        exact hpath
      next => exact hrows path agg hget
  intro row hrow
  obtain ⟨path, agg, hget, rfl⟩ := mem_hotpathsWith.mp hrow
  exact (hrun l [] (List.append_nil l).symm).2 path agg hget

/-- With a span that is too deep, it matters whether it comes first. -/
theorem not_orderFree {spans : List FunctionSpan} (h : ParentForest spans) {sp : FunctionSpan}
    (hsp : sp ∈ spans) {n : Nat} (hdepth : Depth spans sp n) (hn : maxPathDepth < n) :
    ¬ OrderFree spans := by
  intro hfree
  obtain ⟨l, hl, row, hrow, hdots⟩ := exists_row_cut h hsp hdepth hn
  obtain ⟨l', hl', hfirst⟩ := exists_parentsFirst h
  have heq := hfree l l' hl hl' ∅ everything .default
  have hname := rows_named hfirst row (heq ▸ hrow)
  rw [hdots] at hname
  cases hname

/-- The order of the spans does not show in the rows exactly when no span has
more than `MAX_DEPTH` frames in its path. -/
theorem orderFree_iff {spans : List FunctionSpan} (h : ParentForest spans) :
    OrderFree spans ↔ ∀ sp ∈ spans, ∀ n, Depth spans sp n → n ≤ maxPathDepth := by
  constructor
  · intro hfree sp hsp n hdepth
    by_contra hn
    exact not_orderFree h hsp hdepth (Nat.lt_of_not_le hn) hfree
  · intro hdepth l l' hl hl' names sel opts
    obtain ⟨full, hfull⟩ := h.paths names hdepth
    have hids' : (l'.map (·.id)).Nodup := (hl'.map _).nodup_iff.mpr h.ids
    exact hotpathsWith_perm (hl.trans hl'.symm) hids'
      (grouped_of_shallow hl h.ids hfull (childIndex l) sel opts)
      (grouped_of_shallow hl' h.ids hfull (childIndex l') sel opts)

/-! ### Chains

Spans that are each the parent of the next, as a recursion leaves them. -/

def chainSpan (i : Nat) : FunctionSpan := spanAt i 1 (if i = 0 then none else some (i - 1)) 0 1

def chainOf (n : Nat) : List FunctionSpan := (List.range n).map chainSpan

theorem chainOf_ids (n : Nat) : ((chainOf n).map (·.id)).Nodup := by
  have hids : (chainOf n).map (·.id) = List.range n := by
    unfold chainOf
    rw [List.map_map]
    exact List.map_id _
  rw [hids]
  exact List.nodup_range

theorem chainSpan_mem {n i : Nat} (h : i < n) : chainSpan i ∈ chainOf n :=
  List.mem_map_of_mem (List.mem_range.mpr h)

theorem chainSpan_depth {n : Nat} : ∀ i, i < n → Depth (chainOf n) (chainSpan i) (i + 1) := by
  intro i
  induction i with
  | zero => exact fun _ => ⟨_, .root rfl⟩
  | succ i ih =>
    intro h
    obtain ⟨path, hpath⟩ := ih (by omega)
    have hparent : (chainSpan (i + 1)).parent.bind (byId (chainOf n)).get = some (chainSpan i) :=
      byId_self (chainOf_ids n) (chainSpan_mem (by omega))
    exact ⟨_, .under hparent hpath⟩

theorem chain_forest (n : Nat) : ParentForest (chainOf n) where
  ids := chainOf_ids n
  grounded := by
    intro sp hsp
    obtain ⟨i, hi, rfl⟩ := List.mem_map.mp hsp
    exact ⟨i + 1, chainSpan_depth i (List.mem_range.mp hi)⟩

/-- A chain of 64 spans may be listed in any order. -/
theorem orderFree_chain : OrderFree (chainOf 64) := by
  refine (orderFree_iff (chain_forest 64)).mpr fun sp hsp n hn => ?_
  obtain ⟨i, hi, rfl⟩ := List.mem_map.mp hsp
  obtain ⟨path, hpath⟩ := hn
  obtain ⟨path', hpath'⟩ := chainSpan_depth i (List.mem_range.mp hi)
  have hlt := List.mem_range.mp hi
  have heq := (hpath.unique hpath').1
  unfold maxPathDepth
  omega

/-- A chain of 65 may not. -/
theorem not_orderFree_chain : ¬ OrderFree (chainOf 65) :=
  not_orderFree (chain_forest 65) (chainSpan_mem (by omega)) (chainSpan_depth 64 (by omega))
    (by unfold maxPathDepth; omega)

end TraceMcp.Analysis
