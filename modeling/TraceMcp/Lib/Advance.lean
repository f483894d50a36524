import Mathlib.Algebra.GroupWithZero.Nat
import Mathlib.Data.List.Basic

/-!
# Going along a sorted list

A cursor into a list sorted by a key goes forward while the next element's key is
not past a bound, and never goes back. So it is always where the greatest bound
so far has led it (`advance_reached`), and `lastUpTo` is the element it is at.
-/

namespace TraceMcp.Lib

variable {α : Type} {key : α → Nat} {l : List α} {t u i : Nat}

/-- The elements up to a bound. -/
def upTo (key : α → Nat) (t : Nat) (l : List α) : List α := l.filter fun x => key x ≤ t

/-- The last of them. -/
def lastUpTo (key : α → Nat) (t : Nat) (l : List α) : Option α := (upTo key t l).getLast?

/-- Where the cursor gets to from `i`: on while there is a next element up to the
bound. -/
def advance (key : α → Nat) (t : Nat) (l : List α) (i : Nat) : Nat :=
  i + ((l.drop (i + 1)).takeWhile fun x => key x ≤ t).length

/-- What is past the bound of the first element is past all. -/
theorem upTo_cons_of_lt {x : α} (hl : (x :: l).Pairwise fun a b => key a ≤ key b) (h : t < key x) :
    upTo key t (x :: l) = [] := by
  rw [upTo, List.filter_eq_nil_iff]
  intro y hy
  have hle : key x ≤ key y := by
    rcases List.mem_cons.mp hy with rfl | hy
    · exact Nat.le_refl _
    · exact List.rel_of_pairwise_cons hl hy
  rw [decide_eq_true_eq]
  omega

theorem upTo_cons_of_le {x : α} (h : key x ≤ t) : upTo key t (x :: l) = x :: upTo key t l :=
  List.filter_cons_of_pos (decide_eq_true h)

/-- In a sorted list the elements up to a bound come first. -/
theorem upTo_eq_take (hl : l.Pairwise fun a b => key a ≤ key b) :
    upTo key t l = l.take (upTo key t l).length := by
  induction l with
  | nil => rfl
  | cons x l ih =>
    rcases Nat.lt_or_ge t (key x) with h | h
    · rw [upTo_cons_of_lt hl h]
      rfl
    · rw [upTo_cons_of_le h, List.length_cons, List.take_succ_cons, ← ih hl.of_cons]

/-- From the `j`-th element on, as many are up to the bound as are left of those
of the whole list. -/
theorem takeWhile_drop_length (hl : l.Pairwise fun a b => key a ≤ key b) (j : Nat) :
    ((l.drop j).takeWhile fun x => key x ≤ t).length = (upTo key t l).length - j := by
  induction l generalizing j with
  | nil => simp [upTo]
  | cons x l ih =>
    have htail := ih hl.of_cons
    rcases Nat.lt_or_ge t (key x) with h | h
    · have hnone : upTo key t l = [] := by
        have hall := upTo_cons_of_lt hl h
        rw [upTo, List.filter_cons_of_neg (by simpa using h)] at hall
        exact hall
      rw [upTo_cons_of_lt hl h]
      cases j with
      | zero =>
        rw [List.drop_zero, List.takeWhile_cons_of_neg (by simpa using h)]
        rfl
      | succ j =>
        rw [List.drop_succ_cons, htail, hnone]
        simp
    · rw [upTo_cons_of_le h, List.length_cons]
      cases j with
      | zero =>
        have hzero := htail 0
        rw [List.drop_zero] at hzero
        rw [List.drop_zero, List.takeWhile_cons_of_pos (by simpa using h), List.length_cons, hzero]
        omega
      | succ j =>
        rw [List.drop_succ_cons, htail]
        omega

/-- More elements are up to a greater bound. -/
theorem upTo_max : (upTo key (max u t) l).length = max (upTo key u l).length (upTo key t l).length := by
  have hmono : ∀ a b, a ≤ b → (upTo key a l).length ≤ (upTo key b l).length := by
    intro a b hab
    refine (List.monotone_filter_right l fun x hx => ?_).length_le
    simp only [decide_eq_true_eq] at hx ⊢
    omega
  rcases Nat.le_total u t with h | h
  · rw [Nat.max_eq_right h, Nat.max_eq_right (hmono u t h)]
  · rw [Nat.max_eq_left h, Nat.max_eq_left (hmono t u h)]

/-- The cursor is where the greatest bound has led it. -/
theorem advance_reached (hl : l.Pairwise fun a b => key a ≤ key b) :
    advance key t l ((upTo key u l).length - 1) = (upTo key (max u t) l).length - 1 := by
  rw [advance, takeWhile_drop_length hl, upTo_max]
  omega

/-- A bound before the first element leads nowhere. -/
theorem advance_zero (hl : l.Pairwise fun a b => key a ≤ key b) :
    advance key t l 0 = (upTo key t l).length - 1 := by
  rw [advance, takeWhile_drop_length hl]
  omega

theorem lastUpTo_eq_getElem (hl : l.Pairwise fun a b => key a ≤ key b) (h : upTo key t l ≠ []) :
    lastUpTo key t l = l[(upTo key t l).length - 1]? := by
  have hpos := List.length_pos_of_ne_nil h
  rw [lastUpTo, List.getLast?_eq_getElem?]
  conv_lhs => rw [upTo_eq_take hl]
  rw [List.getElem?_take, if_pos]
  · rw [← upTo_eq_take hl]
  · rw [← upTo_eq_take hl]
    omega

/-- The element at the cursor is past the bound only if all are. -/
theorem key_le_of_getElem? (hl : l.Pairwise fun a b => key a ≤ key b) {x : α}
    (hx : l[(upTo key t l).length - 1]? = some x) : key x ≤ t ↔ upTo key t l ≠ [] := by
  constructor
  · intro h hnil
    have hmem : x ∈ upTo key t l := List.mem_filter.mpr ⟨List.mem_of_getElem? hx, decide_eq_true h⟩
    rw [hnil] at hmem
    cases hmem
  · intro h
    rw [← lastUpTo_eq_getElem hl h] at hx
    exact of_decide_eq_true (List.mem_filter.mp (List.mem_of_getLast? hx)).2

end TraceMcp.Lib
