import Mathlib.Data.Nat.Digits.Lemmas
import TraceMcp.Lib.Text

/-!
# Numerals

The digits of a number, most significant first and at least one of them, and
the texts that write it: `to_string`'s, and `padded` of a base and a width.
What is written is read back by `Text.fromStrRadix`, and a smaller number is
never written longer.
-/

namespace TraceMcp.Lib

/-- The digits of `n`, most significant first. -/
def digitList (base n : Nat) : List Nat := if n = 0 then [0] else (Nat.digits base n).reverse

variable {base n m k : Nat}

theorem digitList_ne_nil : digitList base n ≠ [] := by
  unfold digitList
  split
  next => exact List.cons_ne_nil _ _
  next h =>
    rw [Ne, List.reverse_eq_nil_iff]
    exact Nat.digits_ne_nil_iff_ne_zero.mpr h

theorem digitList_lt (hb : 1 < base) : ∀ d ∈ digitList base n, d < base := by
  unfold digitList
  split
  next =>
    intro d hd
    rw [List.mem_singleton.mp hd]
    omega
  next =>
    intro d hd
    exact Nat.digits_lt_base hb (List.mem_reverse.mp hd)

/-- The digits add up to the number. -/
theorem digitList_value : (digitList base n).foldl (fun v d => v * base + d) 0 = n := by
  unfold digitList
  split
  next h =>
    show 0 * base + 0 = n
    omega
  next h =>
    have hfold := Nat.ofDigits_eq_foldr base (Nat.digits base n)
    rw [Nat.ofDigits_digits] at hfold
    rw [List.foldl_reverse]
    refine Eq.trans ?_ hfold.symm
    congr 1
    funext x y
    rw [Nat.cast_id, Nat.mul_comm, Nat.add_comm]

theorem digitList_length_le_iff (hb : 1 < base) (hk : 0 < k) :
    (digitList base n).length ≤ k ↔ n < base ^ k := by
  unfold digitList
  split
  next h =>
    rw [h]
    exact ⟨fun _ => Nat.pow_pos (by omega), fun _ => hk⟩
  next h => rw [List.length_reverse, Nat.digits_length_le_iff hb]

/-- A smaller number has no more digits. -/
theorem digitList_length_mono (hb : 1 < base) (h : n ≤ m) :
    (digitList base n).length ≤ (digitList base m).length := by
  have hpos : 0 < (digitList base m).length := List.length_pos_of_ne_nil digitList_ne_nil
  have hm := (digitList_length_le_iff hb hpos (n := m)).mp (Nat.le_refl _)
  exact (digitList_length_le_iff hb hpos).mpr (Nat.lt_of_le_of_lt h hm)

namespace Text

/-- `to_string` of a number. -/
def decimal (n : Nat) : List Char := (digitList 10 n).map Nat.digitChar

/-- Lean prints a number the same way. -/
theorem toDigits_eq_decimal (n : Nat) : Nat.toDigits 10 n = decimal n := by
  induction n using Nat.strongRecOn with
  | ind n ih =>
    unfold decimal digitList at ih ⊢
    rcases Nat.lt_or_ge n 10 with hlt | hge
    · rw [Nat.toDigits_of_lt_base hlt]
      split
      next h => rw [h]; rfl
      next h => rw [Nat.digits_of_lt 10 n h hlt]; rfl
    · have hdiv : n / 10 < n := Nat.div_lt_self (by omega) (by decide)
      have hlast : Nat.digits 10 n = n % 10 :: Nat.digits 10 (n / 10) :=
        Nat.digits_eq_cons_digits_div (by decide) (by omega)
      rw [Nat.toDigits_of_base_le (by decide) hge, ih (n / 10) hdiv, if_neg (by omega),
        if_neg (by omega), hlast, List.reverse_cons, List.map_append]
      rfl

theorem toList_toString (n : Nat) : (toString n).toList = decimal n := by
  rw [Nat.toString_eq_repr, Nat.toList_repr, toDigits_eq_decimal]

/-- `n` in a base up to 16, lower case, with zeros in front up to `width`
digits. -/
def padded (base width n : Nat) : List Char :=
  (List.replicate (width - (digitList base n).length) 0 ++ digitList base n).map Nat.digitChar

theorem padded_none (n : Nat) : padded 10 0 n = decimal n := by
  rw [padded, Nat.zero_sub]
  rfl

theorem toDigit_digitChar : ∀ base < 17, ∀ d < base, toDigit base (Nat.digitChar d) = some d := by
  decide

theorem mem_padded {width : Nat} {c : Char} (hb : 1 < base) (h : c ∈ padded base width n) :
    ∃ d < base, c = Nat.digitChar d := by
  obtain ⟨d, hd, rfl⟩ := List.mem_map.mp h
  refine ⟨d, ?_, rfl⟩
  rcases List.mem_append.mp hd with hd | hd
  · rw [List.eq_of_mem_replicate hd]
    omega
  · exact digitList_lt hb d hd

theorem padded_ne_nil {width : Nat} : padded base width n ≠ [] :=
  mt List.map_eq_nil_iff.mp (mt List.append_eq_nil_iff.mp fun h => digitList_ne_nil h.2)

theorem padded_length {width : Nat} (hb : 1 < base) (hw : 0 < width) (h : n < base ^ width) :
    (padded base width n).length = width := by
  have hle := (digitList_length_le_iff hb hw).mpr h
  rw [padded, List.length_map, List.length_append, List.length_replicate]
  omega

/-- Digits are read as the number they write. -/
theorem mapM_toDigit {ds : List Nat} (hb : base < 17) (h : ∀ d ∈ ds, d < base) :
    (ds.map Nat.digitChar).mapM (toDigit base) = some ds := by
  induction ds with
  | nil => rfl
  | cons d ds ih =>
    rw [List.map_cons, List.mapM_cons, toDigit_digitChar base hb d (h d List.mem_cons_self),
      ih fun d hd => h d (List.mem_cons_of_mem _ hd)]
    rfl

/-- A padded number is read back as it was written. -/
theorem fromStrRadix_padded {bound width : Nat} (hb : 1 < base) (hb' : base < 17) (h : n < bound) :
    fromStrRadix bound base (padded base width n) = some n := by
  have hplus : (padded base width n).head? ≠ some '+' := by
    have hall : ∀ d < 16, Nat.digitChar d ≠ '+' := by decide
    intro hhead
    obtain ⟨d, hd, hchar⟩ := mem_padded hb (List.mem_of_head? hhead)
    exact hall d (by omega) hchar.symm
  have hlt : ∀ d ∈ List.replicate (width - (digitList base n).length) 0 ++ digitList base n,
      d < base := by
    intro d hd
    rcases List.mem_append.mp hd with hd | hd
    · rw [List.eq_of_mem_replicate hd]
      omega
    · exact digitList_lt hb d hd
  have hzeros : ∀ k, digitsValue base (List.replicate k 0 ++ digitList base n) = n := by
    intro k
    induction k with
    | zero => exact digitList_value
    | succ k ih =>
      rw [List.replicate_succ, List.cons_append, digitsValue, List.foldl_cons, Nat.zero_mul]
      exact ih
  unfold fromStrRadix
  dsimp only
  rw [if_neg hplus, if_neg padded_ne_nil, padded, mapM_toDigit hb' hlt, Option.map_some, hzeros]
  exact Option.filter_some_pos (decide_eq_true h)

theorem padded_isDigit {width : Nat} : ∀ c ∈ padded 10 width n, c.isDigit = true := by
  have hdigit : ∀ d < 10, (Nat.digitChar d).isDigit = true := by decide
  intro c hc
  obtain ⟨d, hd, rfl⟩ := mem_padded (by decide) hc
  exact hdigit d hd

theorem decimal_ne_nil (n : Nat) : decimal n ≠ [] := mt List.map_eq_nil_iff.mp digitList_ne_nil

theorem decimal_isDigit (n : Nat) : ∀ c ∈ decimal n, c.isDigit = true := by
  rw [← padded_none]
  exact padded_isDigit

/-- A number is read back as it was written. -/
theorem fromStrRadix_decimal {bound : Nat} (h : n < bound) :
    fromStrRadix bound 10 (decimal n) = some n := by
  rw [← padded_none]
  exact fromStrRadix_padded (by decide) (by decide) h

theorem decimal_length_mono (h : n ≤ m) : (decimal n).length ≤ (decimal m).length := by
  unfold decimal
  rw [List.length_map, List.length_map]
  exact digitList_length_mono (by decide) h

end Text

end TraceMcp.Lib
