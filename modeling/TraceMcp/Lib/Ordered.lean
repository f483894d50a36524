import Mathlib.Data.List.Basic
import Mathlib.Order.Lattice

/-!
# Running maxima and ordered blocks

A clamp that never lets a sequence go back turns it into its running maxima
(`runningMax`): the result is ordered whatever the input. Two blocks clamped
apart line up, everything of the first before everything of the second,
exactly when nothing in the first exceeds the *first* element of the second
(`runningMax_endsBefore`). `mergeSort_zeros` is what a stable sort leaves in
place.
-/

namespace TraceMcp.Lib

/-- The running maxima of `vs`, from `m` on. -/
def runningMax (m : Nat) : List Nat → List Nat
  | [] => []
  | v :: vs => max v m :: runningMax (max v m) vs

variable {m v x : Nat} {vs ws : List Nat}

theorem le_of_mem_runningMax (h : x ∈ runningMax m vs) : m ≤ x := by
  induction vs generalizing m with
  | nil => cases h
  | cons v vs ih =>
    rcases List.mem_cons.mp h with rfl | h
    · exact Nat.le_max_right v m
    · exact Nat.le_trans (Nat.le_max_right v m) (ih h)

theorem runningMax_sorted (m : Nat) (vs : List Nat) : (runningMax m vs).Pairwise (· ≤ ·) := by
  induction vs generalizing m with
  | nil => exact .nil
  | cons v vs ih => exact List.pairwise_cons.mpr ⟨fun x hx => le_of_mem_runningMax hx, ih _⟩

/-- Nothing is clamped down. -/
theorem exists_runningMax_ge (h : v ∈ vs) : ∃ x ∈ runningMax m vs, v ≤ x := by
  induction vs generalizing m with
  | nil => cases h
  | cons u vs ih =>
    rcases List.mem_cons.mp h with rfl | h
    · exact ⟨_, List.mem_cons_self, Nat.le_max_left v m⟩
    · obtain ⟨x, hx, hle⟩ := ih (m := max u m) h
      exact ⟨x, List.mem_cons_of_mem _ hx, hle⟩

/-- A clamped value is an earlier value, or the bound. -/
theorem mem_of_mem_runningMax (h : x ∈ runningMax m vs) : x = m ∨ x ∈ vs := by
  induction vs generalizing m with
  | nil => cases h
  | cons u vs ih =>
    have hmax : max u m = m ∨ max u m = u := by omega
    have hfirst : max u m = m ∨ max u m ∈ u :: vs := by
      rcases hmax with hm | hu
      · exact Or.inl hm
      · rw [hu]
        exact Or.inr List.mem_cons_self
    rcases List.mem_cons.mp h with h | h
    · exact h ▸ hfirst
    · rcases ih h with h | h
      · exact h ▸ hfirst
      · exact Or.inr (List.mem_cons_of_mem u h)

theorem runningMax_append (m : Nat) (vs ws : List Nat) :
    runningMax m (vs ++ ws) =
      runningMax m vs ++ runningMax (vs.foldl (fun m v => max v m) m) ws := by
  induction vs generalizing m with
  | nil => rfl
  | cons v vs ih => exact congrArg (max v m :: ·) (ih (max v m))

/-- `vs` is over before `ws` starts. -/
def EndsBefore (vs ws : List Nat) : Prop := ∀ v ∈ vs, ∀ w ∈ ws.head?, v ≤ w

instance (vs ws : List Nat) : Decidable (EndsBefore vs ws) :=
  inferInstanceAs (Decidable (∀ v ∈ vs, ∀ w ∈ ws.head?, v ≤ w))

/-- Two blocks clamped apart are in order exactly when the first is over
before the second starts. -/
theorem runningMax_endsBefore :
    (∀ x ∈ runningMax 0 vs, ∀ y ∈ runningMax 0 ws, x ≤ y) ↔ EndsBefore vs ws := by
  constructor
  · intro h v hv w hw
    cases ws with
    | nil => cases hw
    | cons u ws =>
      obtain rfl := Option.some.inj hw
      obtain ⟨x, hx, hvx⟩ := exists_runningMax_ge (m := 0) hv
      have hxu := h x hx (max u 0) List.mem_cons_self
      omega
  · intro h x hx y hy
    cases ws with
    | nil => cases hy
    | cons u ws =>
      have huy : u ≤ y := by
        rcases List.mem_cons.mp hy with hy | hy
        · exact hy ▸ Nat.le_max_left u 0
        · exact Nat.le_trans (Nat.le_max_left u 0) (le_of_mem_runningMax hy)
      rcases mem_of_mem_runningMax hx with rfl | hx
      · exact Nat.zero_le y
      · exact Nat.le_trans (h x hx u rfl) huy

/-- Keeping fewer values of a list of optional ones keeps a sublist. -/
theorem filterMap_sublist {α β : Type} {f g : α → Option β} {xs : List α}
    (h : ∀ x ∈ xs, ∀ b, g x = some b → f x = some b) :
    List.Sublist (xs.filterMap g) (xs.filterMap f) := by
  induction xs with
  | nil => exact .slnil
  | cons x xs ih =>
    have hxs := ih fun y hy => h y (List.mem_cons_of_mem x hy)
    cases hg : g x with
    | some b =>
      rw [List.filterMap_cons_some hg,
        List.filterMap_cons_some (h x List.mem_cons_self b hg)]
      exact hxs.cons_cons b
    | none =>
      rw [List.filterMap_cons_none hg]
      cases hf : f x with
      | none => rwa [List.filterMap_cons_none hf]
      | some b =>
        rw [List.filterMap_cons_some hf]
        exact hxs.cons b

/-! ## Stable sorts -/

/-- A list in order of its keys has those with key 0 first. -/
theorem sorted_split {α : Type} {key : α → Nat} {l : List α}
    (h : l.Pairwise fun a b => key a ≤ key b) :
    l = l.filter (key · = 0) ++ l.filter (key · ≠ 0) := by
  induction h with
  | nil => rfl
  | @cons a l hle _ ih =>
    by_cases hzero : key a = 0
    · rw [List.filter_cons_of_pos (by simpa using hzero),
        List.filter_cons_of_neg (by simpa using hzero), List.cons_append, ← ih]
    · have hnone : l.filter (key · = 0) = [] := by
        refine List.filter_eq_nil_iff.mpr fun b hb => ?_
        have hab := hle b hb
        simp only [decide_eq_true_eq]
        omega
      rw [hnone, List.nil_append] at ih
      rw [List.filter_cons_of_neg (by simpa using hzero),
        List.filter_cons_of_pos (by simpa using hzero), hnone, List.nil_append, ← ih]

/-- A stable sort keeps the order of elements that compare equal. -/
theorem filter_mergeSort {α : Type} {le : α → α → Bool}
    (htrans : ∀ a b c, le a b = true → le b c = true → le a c = true)
    (htotal : ∀ a b, (le a b || le b a) = true) {p : α → Bool}
    (hsame : ∀ a b, p a = true → p b = true → le a b = true) (l : List α) :
    (l.mergeSort le).filter p = l.filter p := by
  have hclass : (l.filter p).Pairwise fun a b => le a b = true := by
    refine List.pairwise_of_forall_mem_list fun a ha b hb => ?_
    exact hsame a b (List.mem_filter.mp ha).2 (List.mem_filter.mp hb).2
  have hsub := (List.sublist_mergeSort htrans htotal hclass List.filter_sublist).filter p
  rw [List.filter_filter] at hsub
  simp only [Bool.and_self] at hsub
  have hperm := (List.mergeSort_perm l le).filter p
  exact (hsub.eq_of_length hperm.length_eq.symm).symm

/-- A sorted list is known by what it has of each key. -/
theorem eq_of_sorted {α κ : Type} [DecidableEq κ] (le : κ → κ → Prop)
    (hanti : ∀ a b, le a b → le b a → a = b) (key : α → κ) {l l' : List α}
    (hl : l.Pairwise fun a b => le (key a) (key b)) (hl' : l'.Pairwise fun a b => le (key a) (key b))
    (hrefl : ∀ a, le a a) (hkeys : ∀ c, l.filter (key · = c) = l'.filter (key · = c)) : l = l' := by
  have hpos : ∀ {x : α} {xs : List α} {c : κ}, key x = c →
      (x :: xs).filter (key · = c) = x :: xs.filter (key · = c) :=
    fun h => List.filter_cons_of_pos (decide_eq_true h)
  have hneg : ∀ {x : α} {xs : List α} {c : κ}, key x ≠ c →
      (x :: xs).filter (key · = c) = xs.filter (key · = c) :=
    fun h => List.filter_cons_of_neg (by simpa using h)
  induction l generalizing l' with
  | nil =>
    cases l' with
    | nil => rfl
    | cons b l' =>
      have hb := hkeys (key b)
      rw [hpos rfl] at hb
      cases hb
  | cons a l ih =>
    cases l' with
    | nil =>
      have ha := hkeys (key a)
      rw [hpos rfl] at ha
      cases ha
    | cons b l' =>
      have hmem : ∀ {x : α} {xs ys : List α}, (x :: xs).filter (key · = key x) =
          ys.filter (key · = key x) → x ∈ ys := by
        intro x xs ys h
        rw [hpos rfl] at h
        exact List.mem_of_mem_filter (h ▸ List.mem_cons_self)
      have hfirst : ∀ {x : α} {xs : List α}, (x :: xs).Pairwise (fun a b => le (key a) (key b)) →
          ∀ y ∈ x :: xs, le (key x) (key y) := by
        intro x xs h y hy
        rcases List.mem_cons.mp hy with rfl | hy
        · exact hrefl _
        · exact List.rel_of_pairwise_cons h hy
      -- either head is least in its list, so both have one key
      have hkey : key a = key b := hanti _ _
        (hfirst hl b (hmem (hkeys (key b)).symm)) (hfirst hl' a (hmem (hkeys (key a))))
      have hab := hkeys (key a)
      rw [hpos rfl, hpos hkey.symm] at hab
      obtain rfl := (List.cons.inj hab).1
      rw [ih hl.of_cons hl'.of_cons]
      intro c
      have hc := hkeys c
      by_cases hac : key a = c
      · rw [hpos hac, hpos hac] at hc
        exact (List.cons.inj hc).2
      · rwa [hneg hac, hneg hac] at hc

/-- In a stable sort what has key 0 comes first, in its order. -/
theorem mergeSort_zeros {α : Type} (key : α → Nat) (l : List α) :
    ∃ rest, l.mergeSort (fun a b => key a ≤ key b) = l.filter (key · = 0) ++ rest ∧
      rest.Perm (l.filter (key · ≠ 0)) := by
  have htrans : ∀ a b c : α, decide (key a ≤ key b) = true → decide (key b ≤ key c) = true →
      decide (key a ≤ key c) = true := by
    intro a b c hab hbc
    simp only [decide_eq_true_eq] at hab hbc ⊢
    omega
  have htotal : ∀ a b : α, (decide (key a ≤ key b) || decide (key b ≤ key a)) = true := by
    intro a b
    simp only [Bool.or_eq_true, decide_eq_true_eq]
    omega
  have hperm := List.mergeSort_perm l fun a b => decide (key a ≤ key b)
  have hsorted := List.pairwise_mergeSort htrans htotal l
  -- the zeros are in order among themselves, so the sort keeps them
  have hsame : (l.mergeSort fun a b => key a ≤ key b).filter (key · = 0) = l.filter (key · = 0) := by
    refine filter_mergeSort htrans htotal (fun a b ha hb => ?_) l
    simp only [decide_eq_true_eq] at ha hb ⊢
    omega
  refine ⟨_, ?_, hperm.filter fun a => decide (key a ≠ 0)⟩
  rw [← hsame]
  exact sorted_split (hsorted.imp fun h => of_decide_eq_true h)

/-! ## Comparing by one key, then by the next -/

section ThenBy

variable {α κ : Type} [DecidableEq κ] {key : α → κ} {le : κ → κ → Bool} {next : α → α → Bool}

/-- `a.key.cmp(&b.key).then(next)`, as a "not after". -/
def thenBy (key : α → κ) (le : κ → κ → Bool) (next : α → α → Bool) (a b : α) : Bool :=
  if key a = key b then next a b else le (key a) (key b)

theorem thenBy_trans (hanti : ∀ x y, le x y = true → le y x = true → x = y)
    (htrans : ∀ x y z, le x y = true → le y z = true → le x z = true)
    (hnext : ∀ a b c, next a b = true → next b c = true → next a c = true) (a b c : α)
    (hab : thenBy key le next a b = true) (hbc : thenBy key le next b c = true) :
    thenBy key le next a c = true := by
  unfold thenBy at *
  by_cases h : key a = key b
  · rw [if_pos h] at hab
    rw [h]
    split at hbc
    next h' =>
      rw [if_pos h']
      exact hnext a b c hab hbc
    next h' => rwa [if_neg h']
  · rw [if_neg h] at hab
    split at hbc
    next h' => rwa [← h', if_neg h]
    next h' =>
      have hac : key a ≠ key c := fun heq => h' (hanti _ _ hbc (heq ▸ hab))
      rw [if_neg hac]
      exact htrans _ _ _ hab hbc

theorem thenBy_total (htotal : ∀ x y, (le x y || le y x) = true)
    (hnext : ∀ a b, (next a b || next b a) = true) (a b : α) :
    (thenBy key le next a b || thenBy key le next b a) = true := by
  unfold thenBy
  by_cases h : key a = key b
  · rw [if_pos h, if_pos h.symm]
    exact hnext a b
  · rw [if_neg h, if_neg (Ne.symm h)]
    exact htotal _ _

/-- Where neither comes after the other, the next key has to tell. -/
theorem thenBy_tie (hanti : ∀ x y, le x y = true → le y x = true → x = y) {a b : α}
    (hab : thenBy key le next a b = true) (hba : thenBy key le next b a = true) :
    key a = key b ∧ next a b = true ∧ next b a = true := by
  unfold thenBy at hab hba
  by_cases h : key a = key b
  · rw [if_pos h] at hab
    rw [if_pos h.symm] at hba
    exact ⟨h, hab, hba⟩
  · rw [if_neg h] at hab
    rw [if_neg (Ne.symm h)] at hba
    exact absurd (hanti _ _ hab hba) h

end ThenBy

/-- Of two elements of a list one comes before the other. -/
theorem pairwise_either {α : Type} {R : α → α → Prop} {l : List α} {a b : α} (h : l.Pairwise R)
    (ha : a ∈ l) (hb : b ∈ l) (hne : a ≠ b) : R a b ∨ R b a := by
  obtain ⟨i, hi, rfl⟩ := List.mem_iff_getElem.mp ha
  obtain ⟨j, hj, rfl⟩ := List.mem_iff_getElem.mp hb
  rcases Nat.lt_trichotomy i j with hlt | heq | hgt
  · exact Or.inl (List.pairwise_iff_getElem.mp h i j hi hj hlt)
  · subst heq
    exact absurd rfl hne
  · exact Or.inr (List.pairwise_iff_getElem.mp h j i hj hi hgt)

end TraceMcp.Lib
