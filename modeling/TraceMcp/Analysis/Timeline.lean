import Mathlib.Data.String.Basic
import TraceMcp.Lib.FastMap
import TraceMcp.Lib.Intervals
import TraceMcp.Lib.Ordered
import TraceMcp.Lib.Text
import TraceMcp.Lib.Word
import TraceMcp.Model.Session

/-!
# The timeline

`src/analysis/timeline.rs`: the spans of an analysis as rows, sorted by their
start and then by their rendered id, and the elapsed time of a span with and
without its children. Row ids are texts, `ANALYSIS:spN`.

`selfElapsed` is the sweep of `Lib.Intervals` over the children, clipped to
the parent (`selfElapsed_eq`).
-/

namespace TraceMcp

open TraceMcp.Lib

/-- `Selection::intersects`: a missing bound is the edge of the range. -/
def Selection.intersects (sel : Selection) (start stop : Option Nat) : Bool :=
  let selS := sel.startNs.getD 0
  let selE := sel.endNs.getD (wordSize - 1)
  let a := start.getD 0
  let b := stop.getD (wordSize - 1)
  a < selE && selS < b

namespace Analysis

/-- The demangled names of an analysis, by function id. -/
abbrev Names := FastMap Nat String

/-- `TimelineRow`. -/
structure TimelineRow where
  spanId : String
  threadId : ThreadId
  function : Option String
  parent : Option String
  startNs : Option Nat
  endNs : Option Nat
  completeness : SpanCompleteness
  clipped : Bool
  evidence : String
  callSite : Option Nat
  callSiteInline : Option String

/-- `TimelineOptions`. -/
structure TimelineOptions where
  functionContains : Option String
  minDurationNs : Option Nat

def TimelineOptions.default : TimelineOptions := ⟨none, none⟩

/-- `s.contains(needle)`. -/
def containsStr (s needle : String) : Bool := Text.contains needle.toList s.toList

/-- The name of a span's function, if it has one. -/
def nameOf (names : Names) (sp : FunctionSpan) : Option String :=
  sp.function.bind names.get

/-- Whether a span passes the selection and the filters. -/
def timelineKeeps (names : Names) (sel : Selection) (opts : TimelineOptions) (sp : FunctionSpan) :
    Bool :=
  sel.threadId.all (sp.thread = ·) &&
    sel.intersects sp.start.relativeNs sp.stop.relativeNs &&
    opts.functionContains.all (fun f => (nameOf names sp).any fun n => containsStr n f) &&
    opts.minDurationNs.all fun min =>
      match sp.start.relativeNs, sp.stop.relativeNs with
      | some s, some e => min ≤ e - s
      | _, _ => false

/-- Whether the selection cuts a span off. -/
def isClipped (sel : Selection) (start stop : Option Nat) : Bool :=
  (sel.startNs.any fun s => start.any (· < s)) || (sel.endNs.any fun e => stop.any (e < ·))

/-- The rendered id of a span. -/
def spanText (analysis : String) (id : LocalId) : String := s!"{analysis}:sp{id}"

/-- The row of a span. -/
def timelineRow (analysis : String) (names : Names) (sel : Selection) (sp : FunctionSpan) :
    TimelineRow where
  spanId := spanText analysis sp.id
  threadId := sp.thread
  function := nameOf names sp
  parent := sp.parent.map (spanText analysis)
  startNs := sp.start.relativeNs
  endNs := sp.stop.relativeNs
  completeness := sp.completeness
  clipped := isClipped sel sp.start.relativeNs sp.stop.relativeNs
  evidence := s!"{analysis}:e{sp.evidence.1}-e{sp.evidence.2}"
  callSite := sp.callSite
  callSiteInline := none

/-- `Option<u64>` in its order: `None` comes first. -/
def optionLe : Option Nat → Option Nat → Bool
  | none, _ => true
  | some _, none => false
  | some a, some b => a ≤ b

/-- The row order: by start, then by the text of the id. -/
def timelineRowLe : TimelineRow → TimelineRow → Bool :=
  thenBy TimelineRow.startNs optionLe fun a b => a.spanId ≤ b.spanId

/-- `timeline_rows_with`. -/
def timelineRowsWith (analysis : String) (spans : List FunctionSpan) (names : Names)
    (sel : Selection) (opts : TimelineOptions) : List TimelineRow :=
  ((spans.filter (timelineKeeps names sel opts)).map (timelineRow analysis names sel)).mergeSort
    timelineRowLe

/-- `inclusive_elapsed`. -/
def inclusiveElapsed (start stop : EventTime) (completeness : SpanCompleteness) : Option Nat :=
  if completeness ≠ .complete then none
  else do
    let e ← stop.relativeNs
    let s ← start.relativeNs
    pure (e - s)

/-! ## Self time -/

/-- The order of `(u64, u64)`. -/
def intervalLe (i j : Interval) : Bool := i.1 < j.1 || (i.1 == j.1 && i.2 ≤ j.2)

/-- One child of the sweep in `self_elapsed`: what it adds to the union, and
where the union ends. -/
def addChild (acc : Nat × Nat) (i : Interval) : Nat × Nat :=
  let s := max i.1 acc.2
  if s < i.2 then (satAdd acc.1 (i.2 - s), i.2) else acc

/-- `self_elapsed`. -/
def selfElapsed (parentStart parentEnd : Nat) (children : List Interval) (childrenCertain : Bool) :
    Option Nat :=
  if !childrenCertain ∨ parentEnd < parentStart then none
  else
    let iv := (children.filterMap (Interval.clip (parentStart, parentEnd))).mergeSort intervalLe
    checkedSub (parentEnd - parentStart) (iv.foldl addChild (0, parentStart)).1

theorem intervalLe_trans (a b c : Interval) (h : intervalLe a b = true)
    (h' : intervalLe b c = true) : intervalLe a c = true := by
  simp only [intervalLe, Bool.or_eq_true, Bool.and_eq_true, decide_eq_true_eq, beq_iff_eq]
    at h h' ⊢
  omega

theorem intervalLe_total (a b : Interval) : (intervalLe a b || intervalLe b a) = true := by
  simp only [intervalLe, Bool.or_eq_true, Bool.and_eq_true, decide_eq_true_eq, beq_iff_eq]
  omega

/-- Sorted intervals are sorted by their starts. -/
theorem intervalLe_start {i j : Interval} (h : intervalLe i j = true) : i.1 ≤ j.1 := by
  simp only [intervalLe, Bool.or_eq_true, Bool.and_eq_true, decide_eq_true_eq, beq_iff_eq] at h
  omega

theorem addChild_reaches {union cur : Nat} {i : Interval} (h : max i.1 cur < i.2)
    (hbound : union + (i.2 - max i.1 cur) < wordSize) :
    addChild (union, cur) i = (union + (i.2 - max i.1 cur), i.2) := by
  have hsat : satAdd union (i.2 - max i.1 cur) = union + (i.2 - max i.1 cur) := by
    unfold satAdd
    omega
  rw [← hsat]
  exact if_pos h

theorem addChild_behind {union cur : Nat} {i : Interval} (h : ¬ max i.1 cur < i.2) :
    addChild (union, cur) i = (union, cur) := if_neg h

/-- As long as the union stays below `u64::MAX` the loop is the sweep. -/
theorem foldl_addChild (l : List Interval) :
    ∀ union cur, union + Interval.sweep cur l < wordSize →
      (l.foldl addChild (union, cur)).1 = union + Interval.sweep cur l := by
  induction l with
  | nil => exact fun union cur _ => rfl
  | cons i l ih =>
    intro union cur hbound
    rw [List.foldl_cons]
    unfold Interval.sweep at hbound ⊢
    split at hbound
    next hreach =>
      rw [if_pos hreach, addChild_reaches hreach (by omega), ih _ _ (by omega)]
      omega
    next hbehind => rw [if_neg hbehind, addChild_behind hbehind, ih _ _ hbound]

/-- Self time is the part of the parent that no child covers. -/
theorem selfElapsed_eq {parentStart parentEnd : Nat} (h : parentStart ≤ parentEnd)
    (hword : parentEnd < wordSize) (children : List Interval) :
    selfElapsed parentStart parentEnd children true =
      some (Interval.points (parentStart, parentEnd) \ Interval.cover children).card := by
  have hperm := List.mergeSort_perm
    (children.filterMap (Interval.clip (parentStart, parentEnd))) intervalLe
  have hsorted := (List.pairwise_mergeSort intervalLe_trans intervalLe_total
    (children.filterMap (Interval.clip (parentStart, parentEnd)))).imp intervalLe_start
  -- what the clipped children cover lies inside the parent
  have hinside : Interval.coverFrom parentStart
      ((children.filterMap (Interval.clip (parentStart, parentEnd))).mergeSort intervalLe) =
      Interval.points (parentStart, parentEnd) ∩ Interval.cover children := by
    rw [Interval.coverFrom, Interval.cover_perm hperm, Interval.cover_clip]
    refine Finset.filter_true_of_mem fun t ht => ?_
    exact (Interval.mem_points.mp (Finset.mem_inter.mp ht).1).1
  have hsweep := Interval.sweep_eq_card hsorted parentStart
  rw [hinside] at hsweep
  have hlen : (Interval.points (parentStart, parentEnd)).card = parentEnd - parentStart :=
    Interval.card_points _
  have hle : (Interval.points (parentStart, parentEnd) ∩ Interval.cover children).card ≤
      parentEnd - parentStart := by
    rw [← hlen]
    exact Finset.card_le_card Finset.inter_subset_left
  have hfold := foldl_addChild _ 0 parentStart (by rw [hsweep]; omega)
  rw [Nat.zero_add, hsweep] at hfold
  unfold selfElapsed
  dsimp only
  rw [if_neg (by simp only [Bool.not_true, Bool.false_eq_true, false_or]; omega), hfold, checkedSub, if_pos hle]
  congr 1
  have hsplit := Finset.card_sdiff_add_card_inter (Interval.points (parentStart, parentEnd))
    (Interval.cover children)
  omega

end Analysis

end TraceMcp
