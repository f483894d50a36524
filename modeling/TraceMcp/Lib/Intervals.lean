import Mathlib.Algebra.GroupWithZero.Nat
import Mathlib.Data.Finset.Card
import Mathlib.Data.List.Perm.Basic
import Mathlib.Order.Interval.Finset.Nat
import Mathlib.Algebra.BigOperators.Group.Finset.Basic

/-!
# Half-open intervals and what they cover

An interval is a pair `(start, stop)` and stands for the points `start ≤ t <
stop`; one that is inverted or empty stands for none. `cover` is what a list
of them covers, each point once. `sweep` walks a list that is sorted by start
and adds up the length of what is not behind it yet: it counts the covered
points from the first position on (`sweep_eq_card`).
-/

namespace TraceMcp.Lib

/-- A half-open interval. -/
abbrev Interval := Nat × Nat

namespace Interval

/-- The points of an interval. -/
def points (i : Interval) : Finset Nat := Finset.Ico i.1 i.2

def length (i : Interval) : Nat := i.2 - i.1

theorem mem_points {i : Interval} {t : Nat} : t ∈ i.points ↔ i.1 ≤ t ∧ t < i.2 :=
  Finset.mem_Ico

theorem card_points (i : Interval) : i.points.card = i.length := Nat.card_Ico ..

/-- The points covered by a list of intervals. -/
def cover (l : List Interval) : Finset Nat := l.foldr (fun i s => i.points ∪ s) ∅

@[simp] theorem cover_nil : cover [] = ∅ := rfl

@[simp] theorem cover_cons (i : Interval) (l : List Interval) :
    cover (i :: l) = i.points ∪ cover l := rfl

theorem mem_cover {l : List Interval} {t : Nat} : t ∈ cover l ↔ ∃ i ∈ l, t ∈ i.points := by
  induction l with
  | nil => simp
  | cons i l ih =>
    rw [cover_cons, Finset.mem_union, ih]
    simp only [List.mem_cons, exists_eq_or_imp]

/-- What is covered does not depend on the order. -/
theorem cover_perm {l l' : List Interval} (h : l.Perm l') : cover l = cover l' := by
  apply Finset.ext
  intro t
  simp only [mem_cover, h.mem_iff]

/-- Disjoint intervals cover as many points as they are long together. -/
theorem card_cover {l : List Interval}
    (h : l.Pairwise fun i j => Disjoint i.points j.points) :
    (cover l).card = (l.map length).sum := by
  induction l with
  | nil => rfl
  | cons i l ih =>
    obtain ⟨hi, hl⟩ := List.pairwise_cons.mp h
    have hdisj : Disjoint i.points (cover l) := by
      rw [Finset.disjoint_left]
      intro t ht hcover
      obtain ⟨j, hj, htj⟩ := mem_cover.mp hcover
      exact Finset.disjoint_left.mp (hi j hj) ht htj
    rw [cover_cons, Finset.card_union_of_disjoint hdisj, card_points, ih hl]
    rfl

/-! ## The sweep -/

/-- The length of what the list covers from `cur` on, walking it by start. -/
def sweep (cur : Nat) : List Interval → Nat
  | [] => 0
  | i :: l => if max i.1 cur < i.2 then (i.2 - max i.1 cur) + sweep i.2 l else sweep cur l

/-- The covered points from `cur` on. -/
def coverFrom (cur : Nat) (l : List Interval) : Finset Nat := (cover l).filter (cur ≤ ·)

theorem mem_coverFrom {cur t : Nat} {l : List Interval} :
    t ∈ coverFrom cur l ↔ (∃ i ∈ l, t ∈ i.points) ∧ cur ≤ t := by
  rw [coverFrom, Finset.mem_filter, mem_cover]

/-- An interval that reaches further: its own points, and what the others
cover behind it. They start no earlier, so nothing lies before it. -/
theorem coverFrom_reaches {cur : Nat} {i : Interval} {l : List Interval}
    (hfirst : ∀ j ∈ l, i.1 ≤ j.1) (h : max i.1 cur < i.2) :
    coverFrom cur (i :: l) = Finset.Ico (max i.1 cur) i.2 ∪ coverFrom i.2 l := by
  apply Finset.ext
  intro t
  simp only [Finset.mem_union, mem_coverFrom, List.mem_cons, exists_eq_or_imp, mem_points,
    Finset.mem_Ico]
  constructor
  · rintro ⟨hi | ⟨j, hj, hlo, hhi⟩, hcur⟩
    · left
      omega
    · have hstart := hfirst j hj
      by_cases ht : t < i.2
      · left
        omega
      · exact Or.inr ⟨⟨j, hj, hlo, hhi⟩, by omega⟩
  · rintro (ht | ⟨⟨j, hj, ht⟩, hbehind⟩)
    · exact ⟨Or.inl (by omega), by omega⟩
    · exact ⟨Or.inr ⟨j, hj, ht⟩, by omega⟩

/-- An interval that does not reach further adds nothing. -/
theorem coverFrom_behind {cur : Nat} {i : Interval} {l : List Interval}
    (h : ¬ max i.1 cur < i.2) : coverFrom cur (i :: l) = coverFrom cur l := by
  apply Finset.ext
  intro t
  simp only [mem_coverFrom, List.mem_cons, exists_eq_or_imp, mem_points]
  constructor
  · rintro ⟨hi | hl, hcur⟩
    · omega
    · exact ⟨hl, hcur⟩
  · rintro ⟨hl, hcur⟩
    exact ⟨Or.inr hl, hcur⟩

/-- The sweep over a sorted list counts the covered points once each. -/
theorem sweep_eq_card {l : List Interval} (h : l.Pairwise fun i j => i.1 ≤ j.1) (cur : Nat) :
    sweep cur l = (coverFrom cur l).card := by
  induction l generalizing cur with
  | nil => rfl
  | cons i l ih =>
    obtain ⟨hfirst, hl⟩ := List.pairwise_cons.mp h
    unfold sweep
    split
    next hreach =>
      have hdisj : Disjoint (Finset.Ico (max i.1 cur) i.2) (coverFrom i.2 l) := by
        rw [Finset.disjoint_left]
        intro t ht hbehind
        have hlt := (Finset.mem_Ico.mp ht).2
        have hge := (mem_coverFrom.mp hbehind).2
        omega
      rw [coverFrom_reaches hfirst hreach, Finset.card_union_of_disjoint hdisj, Nat.card_Ico,
        ih hl]
    next hbehind => rw [coverFrom_behind hbehind, ih hl]

/-! ## Clipping to a window -/

/-- The part of an interval inside `window`, if there is one. -/
def clip (window i : Interval) : Option Interval :=
  let s := max i.1 window.1
  let e := min i.2 window.2
  if s < e then some (s, e) else none

theorem mem_clip {window i : Interval} {t : Nat} :
    (∃ j ∈ clip window i, t ∈ j.points) ↔ t ∈ i.points ∧ t ∈ window.points := by
  unfold clip
  dsimp only
  simp only [mem_points]
  split
  next h =>
    simp only [Option.mem_def, Option.some.injEq, exists_eq_left']
    omega
  next h =>
    simp only [Option.mem_def, reduceCtorEq, false_and, exists_false, false_iff]
    omega

/-- Clipped intervals cover what the intervals cover of the window. -/
theorem cover_clip (window : Interval) (l : List Interval) :
    cover (l.filterMap (clip window)) = window.points ∩ cover l := by
  apply Finset.ext
  intro t
  rw [Finset.mem_inter, mem_cover, mem_cover]
  constructor
  · rintro ⟨j, hj, ht⟩
    obtain ⟨i, hi, hclip⟩ := List.mem_filterMap.mp hj
    obtain ⟨hti, htw⟩ := mem_clip.mp ⟨j, hclip, ht⟩
    exact ⟨htw, i, hi, hti⟩
  · rintro ⟨htw, i, hi, hti⟩
    obtain ⟨j, hclip, ht⟩ := mem_clip.mpr ⟨hti, htw⟩
    exact ⟨j, List.mem_filterMap.mpr ⟨i, hi, hclip⟩, ht⟩

end Interval

end TraceMcp.Lib
