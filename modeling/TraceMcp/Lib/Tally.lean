import Mathlib.Algebra.GroupWithZero.Nat
import Mathlib.Data.List.Perm.Basic
import Mathlib.Algebra.BigOperators.Group.List.Basic
import Mathlib.Algebra.Order.BigOperators.Group.List
import Mathlib.Algebra.Order.Group.Nat

/-!
# Tallies over distinct keys

A table indexed by a list of distinct keys is summed (`List.sum`) or
concatenated (`List.flatMap`) key by key. Changing one entry changes only its
own share: `flatMap_split` and `sum_split` take that share out, and the rest
is stated so that two tables agreeing off the key have the same rest
(`flatMap_rest_congr`, `sum_rest_congr`). `sum_fibers` sums a list key by key.
-/

namespace TraceMcp.Lib

variable {κ α : Type} [DecidableEq κ] {order : List κ} {k : κ}

/-- Distinct keys, with one of them in front. -/
theorem perm_cons_filter_ne (hn : order.Nodup) (hk : k ∈ order) :
    order.Perm (k :: order.filter (· ≠ k)) := by
  have herase : order.erase k = order.filter (· ≠ k) := by
    rw [hn.erase_eq_filter k]
    exact List.filter_congr fun k' _ => by simp [bne, beq_eq_decide]
  rw [← herase]
  exact List.perm_cons_erase hk

/-- The share of one key in a concatenation. -/
theorem flatMap_split (f : κ → List α) (hn : order.Nodup) (hk : k ∈ order) :
    (order.flatMap f).Perm (f k ++ (order.filter (· ≠ k)).flatMap f) := by
  rw [← List.flatMap_cons]
  exact (perm_cons_filter_ne hn hk).flatMap_right f

theorem flatMap_rest_congr {f g : κ → List α} (h : ∀ k', k' ≠ k → g k' = f k') :
    (order.filter (· ≠ k)).flatMap g = (order.filter (· ≠ k)).flatMap f := by
  refine List.flatMap_congr fun k' hk' => h k' ?_
  exact of_decide_eq_true (List.mem_filter.mp hk').2

/-- The share of one key in a sum. -/
theorem sum_split (f : κ → Nat) (hn : order.Nodup) (hk : k ∈ order) :
    (order.map f).sum = f k + ((order.filter (· ≠ k)).map f).sum := by
  rw [← List.sum_cons, ← List.map_cons]
  exact ((perm_cons_filter_ne hn hk).map f).sum_eq

theorem sum_rest_congr {f g : κ → Nat} (h : ∀ k', k' ≠ k → g k' = f k') :
    ((order.filter (· ≠ k)).map g).sum = ((order.filter (· ≠ k)).map f).sum := by
  congr 1
  refine List.map_congr_left fun k' hk' => h k' ?_
  exact of_decide_eq_true (List.mem_filter.mp hk').2

/-- A list summed key by key, over all the keys its elements have. -/
theorem sum_fibers (key : α → κ) (f : α → Nat) (hn : order.Nodup) {xs : List α}
    (hkeys : ∀ x ∈ xs, key x ∈ order) :
    (order.map fun k => ((xs.filter fun x => key x = k).map f).sum).sum = (xs.map f).sum := by
  induction xs with
  | nil => simp
  | cons x xs ih =>
    have hx : key x ∈ order := hkeys x List.mem_cons_self
    have hold := ih fun y hy => hkeys y (List.mem_cons_of_mem x hy)
    rw [sum_split _ hn hx] at hold ⊢
    have hrest : ∀ k, k ≠ key x → (((x :: xs).filter fun y => key y = k).map f).sum =
        ((xs.filter fun y => key y = k).map f).sum := by
      intro k hk
      rw [List.filter_cons_of_neg (by simpa using Ne.symm hk)]
    rw [sum_rest_congr hrest, List.filter_cons_of_pos (by simp), List.map_cons, List.sum_cons,
      List.map_cons, List.sum_cons]
    omega

omit [DecidableEq κ] in
/-- Sums of terms that are no larger agree only when the terms do. -/
theorem eq_of_sum_eq {f g : κ → Nat} (hle : ∀ k ∈ order, f k ≤ g k)
    (hsum : (order.map f).sum = (order.map g).sum) : ∀ k ∈ order, f k = g k := by
  induction order with
  | nil => exact fun k hk => absurd hk List.not_mem_nil
  | cons k₀ ks ih =>
    rw [List.map_cons, List.map_cons, List.sum_cons, List.sum_cons] at hsum
    have hhead := hle k₀ List.mem_cons_self
    have htail : (ks.map f).sum ≤ (ks.map g).sum :=
      List.sum_le_sum fun k hk => hle k (List.mem_cons_of_mem k₀ hk)
    intro k hk
    rcases List.mem_cons.mp hk with rfl | hk
    · omega
    · exact ih (fun k hk => hle k (List.mem_cons_of_mem k₀ hk)) (by omega) k hk

/-- Erasing an element whose image is unique. -/
theorem map_erase_of_nodup {α β : Type} [DecidableEq α] [DecidableEq β] {f : α → β} {l : List α}
    {a : α} (hnodup : (l.map f).Nodup) (ha : a ∈ l) : (l.erase a).map f = (l.map f).erase (f a) := by
  induction l with
  | nil => cases ha
  | cons b l ih =>
    obtain ⟨hb, hnodup⟩ := List.nodup_cons.mp hnodup
    by_cases h : b = a
    · subst h
      rw [List.erase_cons_head, List.map_cons, List.erase_cons_head]
    · have hmem : a ∈ l := (List.mem_cons.mp ha).resolve_left fun h' => h h'.symm
      have hne : f b ≠ f a := fun heq => hb (heq ▸ List.mem_map_of_mem hmem)
      rw [List.erase_cons_tail (by simpa using h), List.map_cons, List.map_cons,
        List.erase_cons_tail (by simpa using hne), ih hnodup hmem]

end TraceMcp.Lib
