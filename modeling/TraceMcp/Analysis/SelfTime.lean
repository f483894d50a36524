import Mathlib.Algebra.BigOperators.Group.List.Basic
import TraceMcp.Analysis.Hotpaths
import TraceMcp.Lib.Tally

/-!
# Self time is conserved

In a forest of complete spans whose children lie inside their parents and
apart from each other, what the spans spend themselves is what the roots last
in total: the length of a span is its self time and the lengths of its
children (`spanSelf_children`), and every span that is not a root is the child
of exactly one other (`sum_children`). The rows split that total in some way;
a row adds up in `u64`, so the rows give it modulo `2 ^ 64`.
-/

namespace TraceMcp.Analysis

open TraceMcp.Lib

/-! ## The two indexes -/

theorem byId_concat (spans : List FunctionSpan) (sp : FunctionSpan) :
    byId (spans ++ [sp]) = (byId spans).insert sp.id sp := by
  unfold byId
  rw [List.foldl_append]
  rfl

/-- With distinct ids every span is found under its own. -/
theorem byId_eq_some_iff {spans : List FunctionSpan} (hids : (spans.map (·.id)).Nodup) {i : Nat}
    {sp : FunctionSpan} : (byId spans).get i = some sp ↔ sp ∈ spans ∧ sp.id = i := by
  induction spans using List.reverseRecOn with
  | nil => simp [byId]
  | append_singleton spans last ih =>
    rw [List.map_append, List.map_singleton, List.nodup_append] at hids
    obtain ⟨hspans, -, hlast⟩ := hids
    rw [byId_concat, FastMap.get_insert, List.mem_append, List.mem_singleton]
    split
    next heq =>
      constructor
      · intro h
        obtain rfl := Option.some.inj h
        exact ⟨.inr rfl, heq.symm⟩
      · rintro ⟨hmem | rfl, hid⟩
        · exact absurd (hid.trans heq) (hlast _ (List.mem_map_of_mem hmem) _ List.mem_cons_self)
        · rfl
    next hne =>
      rw [ih hspans]
      constructor
      · rintro ⟨hmem, hid⟩
        exact ⟨.inl hmem, hid⟩
      · rintro ⟨hmem | rfl, hid⟩
        · exact ⟨hmem, hid⟩
        · exact absurd hid.symm hne

theorem byId_self {spans : List FunctionSpan} (hids : (spans.map (·.id)).Nodup)
    {sp : FunctionSpan} (h : sp ∈ spans) : (byId spans).get sp.id = some sp :=
  (byId_eq_some_iff hids).mpr ⟨h, rfl⟩

/-- The children of `p`, in the order of the spans. -/
def childrenOf (spans : List FunctionSpan) (p : Nat) : List FunctionSpan :=
  spans.filter (·.parent = some p)

theorem childIndex_concat (spans : List FunctionSpan) (sp : FunctionSpan) (p : Nat) :
    (FastMap.get (childIndex (spans ++ [sp])) p).getD [] =
      (FastMap.get (childIndex spans) p).getD [] ++ if sp.parent = some p then [sp.id] else [] := by
  unfold childIndex
  rw [List.foldl_append, List.foldl_cons, List.foldl_nil]
  cases hparent : sp.parent with
  | none => simp
  | some q =>
    dsimp only
    rw [FastMap.get_insert]
    by_cases hpq : p = q
    · rw [if_pos hpq, if_pos (by rw [hpq]), hpq]
      rfl
    · rw [if_neg hpq, if_neg (fun h => hpq (Option.some.inj h).symm), List.append_nil]

theorem childIndex_get (spans : List FunctionSpan) (p : Nat) :
    (FastMap.get (childIndex spans) p).getD [] = (childrenOf spans p).map (·.id) := by
  induction spans using List.reverseRecOn with
  | nil => rfl
  | append_singleton spans last ih =>
    rw [childIndex_concat, ih, childrenOf, childrenOf, List.filter_append, List.map_append]
    by_cases h : last.parent = some p <;> simp [h]

/-! ## Forests -/

/-- When a span runs. -/
def spanInterval (sp : FunctionSpan) : Interval :=
  (sp.start.relativeNs.getD 0, sp.stop.relativeNs.getD 0)

def duration (sp : FunctionSpan) : Nat := (spanInterval sp).length

/-- Complete spans with known times, children inside their parents and apart
from each other. -/
structure SpanForest (spans : List FunctionSpan) : Prop where
  ids : (spans.map (·.id)).Nodup
  complete : ∀ sp ∈ spans, sp.completeness = .complete
  timed : ∀ sp ∈ spans, ∃ s e, sp.start.relativeNs = some s ∧ sp.stop.relativeNs = some e ∧
    s ≤ e ∧ e < wordSize
  inside : ∀ p ∈ spans, ∀ c ∈ spans, c.parent = some p.id →
    (spanInterval c).points ⊆ (spanInterval p).points
  apart : ∀ p ∈ spans, (childrenOf spans p.id).Pairwise fun a b =>
    Disjoint (spanInterval a).points (spanInterval b).points

/-- The spans without a parent among the spans. -/
def roots (spans : List FunctionSpan) : List FunctionSpan :=
  spans.filter fun sp => !(sp.parent.any fun p => spans.any (·.id = p))

variable {spans : List FunctionSpan}

theorem SpanForest.childIntervals (h : SpanForest spans) {kids : List FunctionSpan}
    (hkids : ∀ c ∈ kids, c ∈ spans) :
    childIntervals (byId spans) (kids.map (·.id)) = (kids.map spanInterval, true) := by
  induction kids with
  | nil => rfl
  | cons c kids ih =>
    have hc := hkids c List.mem_cons_self
    obtain ⟨s, e, hs, he, -, -⟩ := h.timed c hc
    rw [List.map_cons, List.map_cons]
    unfold Analysis.childIntervals
    rw [byId_self h.ids hc]
    dsimp only
    rw [if_neg (not_not.mpr (h.complete c hc)), hs, he,
      ih fun c' hc' => hkids c' (List.mem_cons_of_mem c hc')]
    dsimp only
    rw [spanInterval, hs, he]
    rfl

/-- A span lasts as long as itself and its children. -/
theorem SpanForest.spanSelf_children (h : SpanForest spans) {sp : FunctionSpan} (hsp : sp ∈ spans) :
    ∃ self, spanSelf (byId spans) (childIndex spans) sp = some self ∧
      self + ((childrenOf spans sp.id).map duration).sum = duration sp := by
  obtain ⟨s, e, hs, he, hle, hword⟩ := h.timed sp hsp
  have hmem : ∀ c ∈ childrenOf spans sp.id, c ∈ spans ∧ c.parent = some sp.id := by
    intro c hc
    obtain ⟨hc, hparent⟩ := List.mem_filter.mp hc
    exact ⟨hc, of_decide_eq_true hparent⟩
  have hinterval : spanInterval sp = (s, e) := by
    rw [spanInterval, hs, he]
    rfl
  have hcover : Interval.cover ((childrenOf spans sp.id).map spanInterval) ⊆
      Interval.points (s, e) := by
    intro t ht
    obtain ⟨i, hi, hti⟩ := Interval.mem_cover.mp ht
    obtain ⟨c, hc, rfl⟩ := List.mem_map.mp hi
    rw [← hinterval]
    exact h.inside sp hsp c (hmem c hc).1 (hmem c hc).2 hti
  have hcard := Interval.card_cover (List.pairwise_map.mpr (h.apart sp hsp))
  have hself : spanSelf (byId spans) (childIndex spans) sp = some (Interval.points (s, e) \
      Interval.cover ((childrenOf spans sp.id).map spanInterval)).card := by
    unfold spanSelf
    rw [hs, he]
    dsimp only
    rw [childIndex_get, h.childIntervals fun c hc => (hmem c hc).1]
    exact selfElapsed_eq hle hword _
  refine ⟨_, hself, ?_⟩
  have hsplit := Finset.card_sdiff_add_card_eq_card hcover
  rw [hcard, Interval.card_points, List.map_map] at hsplit
  rw [duration, hinterval, ← hsplit]
  rfl

/-! ## Every span but a root is somebody's child -/

/-- A value counted once, for the one element it belongs to. -/
theorem sum_ite_id {spans : List FunctionSpan} (hids : (spans.map (·.id)).Nodup) (p : Option Nat)
    (n : Nat) :
    (spans.map fun sp => if p = some sp.id then n else 0).sum =
      if p.any fun i => spans.any (·.id = i) then n else 0 := by
  induction spans with
  | nil => cases p <;> rfl
  | cons sp spans ih =>
    rw [List.map_cons, List.nodup_cons] at hids
    rw [List.map_cons, List.sum_cons, ih hids.2]
    cases p with
    | none => rfl
    | some i =>
      by_cases hi : i = sp.id
      · -- the others have other ids
        subst hi
        have hrest : spans.any (·.id = sp.id) = false := by
          rw [List.any_eq_false]
          intro sp' hsp' heq
          exact hids.1 (List.mem_map.mpr ⟨sp', hsp', of_decide_eq_true heq⟩)
        simp [hrest]
      · have hne : ¬ sp.id = i := fun heq => hi heq.symm
        simp [hi, hne]

/-- Adding up over the children of every span adds up over all that have a
parent. -/
theorem sum_children (hids : (spans.map (·.id)).Nodup) (f : FunctionSpan → Nat)
    (kids : List FunctionSpan) :
    (spans.map fun sp => ((kids.filter (·.parent = some sp.id)).map f).sum).sum =
      ((kids.filter fun c => c.parent.any fun p => spans.any (·.id = p)).map f).sum := by
  induction kids with
  | nil => simp
  | cons c kids ih =>
    have hstep : ∀ sp : FunctionSpan, (((c :: kids).filter (·.parent = some sp.id)).map f).sum =
        (if c.parent = some sp.id then f c else 0) +
          ((kids.filter (·.parent = some sp.id)).map f).sum := by
      intro sp
      by_cases h : c.parent = some sp.id <;> simp [h]
    simp only [hstep]
    rw [List.sum_map_add, ih, sum_ite_id hids]
    by_cases h : (c.parent.any fun p => spans.any (·.id = p)) = true <;> simp [h]

/-- The self times of a forest are the durations of its roots. -/
theorem SpanForest.sum_self (h : SpanForest spans) :
    (spans.map fun sp => (spanSelf (byId spans) (childIndex spans) sp).getD 0).sum =
      ((roots spans).map duration).sum := by
  have hsplit : (spans.map duration).sum =
      (spans.map fun sp => (spanSelf (byId spans) (childIndex spans) sp).getD 0).sum +
        (spans.map fun sp => ((childrenOf spans sp.id).map duration).sum).sum := by
    rw [← List.sum_map_add]
    congr 1
    refine List.map_congr_left fun sp hsp => ?_
    obtain ⟨self, hself, hsum⟩ := h.spanSelf_children hsp
    rw [hself]
    exact hsum.symm
  have hchildren := sum_children h.ids duration spans
  have hroots : (spans.map duration).sum = ((roots spans).map duration).sum +
      ((spans.filter fun c => c.parent.any fun p => spans.any (·.id = p)).map duration).sum := by
    have hperm := (List.filter_append_perm
      (fun sp : FunctionSpan => !(sp.parent.any fun p => spans.any (·.id = p))) spans).map duration
    rw [← hperm.sum_eq, List.map_append, List.sum_append]
    simp only [Bool.not_not]
    rfl
  unfold childrenOf at hsplit
  omega

/-! ## From spans to rows -/

/-- What the rows so far have of self time. -/
def selfTotal (m : FastMap String Agg) : Nat := FastMap.total (fun agg => agg.selfs.sum) m

/-- What a span adds to it. -/
def selfShare (ids : FastMap Nat FunctionSpan) (children : FastMap Nat (List Nat))
    (sel : Selection) (sp : FunctionSpan) : Nat :=
  if sp.completeness ≠ .complete ∨ contained sel sp = false then 0
  else (spanSelf ids children sp).getD 0

theorem Agg.add_selfs (ids : FastMap Nat FunctionSpan) (children : FastMap Nat (List Nat))
    (sel : Selection) (agg : Agg) (sp : FunctionSpan) :
    (agg.add ids children sel sp).selfs.sum = selfShare ids children sel sp + agg.selfs.sum := by
  unfold Agg.add selfShare
  split
  next => exact (Nat.zero_add _).symm
  next =>
    dsimp only
    rw [List.sum_append, Nat.add_comm]
    cases spanSelf ids children sp <;> rfl

/-- Without a filter every span adds its share, whatever row it is counted on. -/
theorem groupSpan_selfTotal {names : Names} {ids : FastMap Nat FunctionSpan}
    {children : FastMap Nat (List Nat)} {sel : Selection} {opts : HotpathOptions}
    (hthread : sel.threadId = none) (hfilter : opts.functionContains = none) (g : Grouping)
    (sp : FunctionSpan) :
    selfTotal (groupSpan names ids children sel opts g sp).byPath =
      selfShare ids children sel sp + selfTotal g.byPath := by
  unfold groupSpan
  rw [hthread, hfilter]
  simp only [Option.any_none, Bool.false_eq_true, if_false]
  unfold selfTotal
  cases hget : FastMap.get g.byPath (rowPath opts names ids g.cache sp).1 with
  | none =>
    rw [FastMap.total_insert_of_none _ _ hget, Option.getD_none, Agg.add_selfs]
    rfl
  | some agg =>
    have h := FastMap.total_insert_of_get (fun agg : Agg => agg.selfs.sum)
      (agg.add ids children sel sp) hget
    rw [Agg.add_selfs] at h
    rw [Option.getD_some]
    omega

theorem foldl_selfTotal {names : Names} {ids : FastMap Nat FunctionSpan}
    {children : FastMap Nat (List Nat)} {sel : Selection} {opts : HotpathOptions}
    (hthread : sel.threadId = none) (hfilter : opts.functionContains = none)
    (spans : List FunctionSpan) (g : Grouping) :
    selfTotal (spans.foldl (groupSpan names ids children sel opts) g).byPath =
      (spans.map (selfShare ids children sel)).sum + selfTotal g.byPath := by
  induction spans generalizing g with
  | nil => exact (Nat.zero_add _).symm
  | cons sp spans ih =>
    rw [List.foldl_cons, ih, groupSpan_selfTotal hthread hfilter, List.map_cons, List.sum_cons]
    omega

theorem sumOf_getD (values : List Nat) : (sumOf values).getD 0 = values.sum % wordSize := by
  cases values <;> rfl

/-- What the rows add up to. -/
def rowsSelf (rows : List HotpathRow) : Nat := (rows.map fun row => row.selfSumNs.getD 0).sum

/-- Each row is its sum modulo the word size. -/
theorem rowsSelf_eq (spans : List FunctionSpan) (names : Names) (sel : Selection)
    (children : FastMap Nat (List Nat)) (opts : HotpathOptions) :
    rowsSelf (hotpathsWith spans names sel children opts) =
      (((spans.foldl (groupSpan names (byId spans) children sel opts) ⟨∅, ∅⟩).byPath.values.map
        fun agg => agg.selfs.sum).map (· % wordSize)).sum := by
  unfold rowsSelf hotpathsWith
  rw [((List.mergeSort_perm _ _).map _).sum_eq]
  simp only [FastMap.values, List.map_map]
  congr 1
  refine List.map_congr_left fun e _ => ?_
  exact sumOf_getD e.2.selfs

/-- Everything is selected. -/
def everything : Selection := ⟨none, none, none⟩

theorem selfShare_everything {sp : FunctionSpan} (h : sp.completeness = .complete)
    (ids : FastMap Nat FunctionSpan) (children : FastMap Nat (List Nat)) :
    selfShare ids children everything sp = (spanSelf ids children sp).getD 0 := by
  refine if_neg (not_or.mpr ⟨not_not.mpr h, ?_⟩)
  unfold contained everything
  simp

/-- The self sums of the rows, before they are cut to words, add up to what
the roots last. -/
theorem SpanForest.selfTotal_eq (h : SpanForest spans) (names : Names) {opts : HotpathOptions}
    (hfilter : opts.functionContains = none) :
    selfTotal (spans.foldl (groupSpan names (byId spans) (childIndex spans) everything opts)
      ⟨∅, ∅⟩).byPath = ((roots spans).map duration).sum := by
  rw [foldl_selfTotal rfl hfilter, ← h.sum_self]
  show _ + 0 = _
  rw [Nat.add_zero]
  congr 1
  refine List.map_congr_left fun sp hsp => ?_
  exact selfShare_everything (h.complete sp hsp) _ _

/-- A value below the word size, and nothing above it, is not cut. -/
theorem map_mod_of_sum_lt {l : List Nat} {n : Nat} (h : l.sum < n) : (l.map (· % n)).sum = l.sum := by
  induction l with
  | nil => rfl
  | cons x l ih =>
    rw [List.sum_cons] at h
    rw [List.map_cons, List.sum_cons, List.sum_cons, ih (by omega), Nat.mod_eq_of_lt (by omega)]

/-- Self time is the part of a span no child covers, and the rows' self times
are the durations of the roots: as words, and exactly as long as these are. -/
theorem self_conserved :
    (∀ (parentStart parentEnd : Nat) (children : List Interval), parentStart ≤ parentEnd →
      parentEnd < wordSize → selfElapsed parentStart parentEnd children true =
        some (Interval.points (parentStart, parentEnd) \ Interval.cover children).card) ∧
    ∀ (spans : List FunctionSpan) (names : Names) (opts : HotpathOptions), SpanForest spans →
      opts.functionContains = none →
        rowsSelf (hotpathsWith spans names everything (childIndex spans) opts) % wordSize =
          ((roots spans).map duration).sum % wordSize ∧
        (((roots spans).map duration).sum < wordSize →
          rowsSelf (hotpathsWith spans names everything (childIndex spans) opts) =
            ((roots spans).map duration).sum) := by
  refine ⟨fun parentStart parentEnd children hle hword => selfElapsed_eq hle hword children, ?_⟩
  intro spans names opts h hfilter
  have htotal := h.selfTotal_eq names hfilter
  unfold selfTotal FastMap.total at htotal
  constructor
  · rw [rowsSelf_eq, ← List.sum_nat_mod, htotal]
  · intro hlt
    rw [rowsSelf_eq, map_mod_of_sum_lt (htotal ▸ hlt), htotal]

/-- A complete span of an unknown function on thread `tid`. -/
def spanAt (id tid : Nat) (parent : Option Nat) (start stop : Nat) : FunctionSpan :=
  ⟨id, .task tid 0, none, parent, .estimate start, .estimate stop, .complete, (0, 0), none⟩

/-- A root with two children one after the other. -/
def family : List FunctionSpan :=
  [spanAt 0 1 none 0 100, spanAt 1 1 (some 0) 10 20, spanAt 2 1 (some 0) 20 60]

theorem family_forest : SpanForest family where
  ids := by decide
  complete := by decide
  timed := by
    intro sp hsp
    simp only [family, List.mem_cons, List.not_mem_nil, or_false] at hsp
    rcases hsp with rfl | rfl | rfl
    · exact ⟨0, 100, rfl, rfl, by decide, by decide⟩
    · exact ⟨10, 20, rfl, rfl, by decide, by decide⟩
    · exact ⟨20, 60, rfl, rfl, by decide, by decide⟩
  inside := by decide
  apart := by decide

/-- Overlapping children, and a root with two children. -/
theorem self_conserved_family :
    selfElapsed 0 100 [(10, 20), (15, 30), (50, 60)] true =
      some (Interval.points (0, 100) \ Interval.cover [(10, 20), (15, 30), (50, 60)]).card ∧
    rowsSelf (hotpathsWith family ∅ everything (childIndex family) .default) =
      ((roots family).map duration).sum :=
  ⟨self_conserved.1 0 100 _ (by decide) (by decide),
    (self_conserved.2 family ∅ .default family_forest rfl).2 (by decide)⟩

/-- Two roots on two threads, each half of what a word can count. -/
def halves : List FunctionSpan := [spanAt 0 1 none 0 (2 ^ 63), spanAt 1 2 none 0 (2 ^ 63)]

theorem halves_forest : SpanForest halves where
  ids := by decide
  complete := by decide
  timed := by
    intro sp hsp
    simp only [halves, List.mem_cons, List.not_mem_nil, or_false] at hsp
    rcases hsp with rfl | rfl
    · exact ⟨0, 2 ^ 63, rfl, rfl, by decide, by decide⟩
    · exact ⟨0, 2 ^ 63, rfl, rfl, by decide, by decide⟩
  inside := by decide
  apart := by decide

/-- Both are on one row, which adds up to nothing. -/
theorem halves_overflow : SpanForest halves ∧
    rowsSelf (hotpathsWith halves ∅ everything (childIndex halves)
      ⟨none, .function, .inclusive, none⟩) ≠ ((roots halves).map duration).sum := by
  refine ⟨halves_forest, ?_⟩
  have htotal := halves_forest.selfTotal_eq ∅
    (show (⟨none, .function, .inclusive, none⟩ : HotpathOptions).functionContains = none from rfl)
  have hone : ∃ agg, (halves.foldl (groupSpan ∅ (byId halves) (childIndex halves) everything
      ⟨none, .function, .inclusive, none⟩) ⟨∅, ∅⟩).byPath.values = [agg] := ⟨_, rfl⟩
  obtain ⟨agg, hagg⟩ := hone
  unfold selfTotal FastMap.total at htotal
  rw [hagg, List.map_singleton, List.sum_singleton] at htotal
  rw [rowsSelf_eq, hagg, List.map_singleton, List.map_singleton, List.sum_singleton, htotal]
  decide

end TraceMcp.Analysis
