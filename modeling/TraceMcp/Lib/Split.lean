import TraceMcp.Lib.Text

/-!
# Splitting texts

`rsplitOnce` splits at the last mark, `splitAtBytes` at a byte position, where
there is a character boundary; there is no result elsewhere, and `split_at`
panics. Of the first occurrence of a needle two things are said: it is none in
front, if no match starts there (`find_append`), and it is in front, if the
front contains the needle (`find_of_infix`). A mark that is no part of the
needle separates its occurrences (`infix_marked_iff`, `find_past_mark`).
-/

namespace TraceMcp.Lib.Text

section Marks

variable {α : Type} [DecidableEq α] {x c : α} {needle s p : List α}

/-- `rsplit_once` of a character. -/
def rsplitOnce (x : α) : List α → Option (List α × List α)
  | [] => none
  | c :: s =>
    match rsplitOnce x s with
    | some (l, r) => some (c :: l, r)
    | none => if c = x then some ([], s) else none

theorem rsplitOnce_of_notMem (h : x ∉ s) : rsplitOnce x s = none := by
  induction s with
  | nil => rfl
  | cons c s ih =>
    rw [List.mem_cons, not_or] at h
    rw [rsplitOnce, ih h.2]
    exact if_neg fun heq => h.1 heq.symm

theorem rsplitOnce_append (h : x ∉ s) : rsplitOnce x (p ++ x :: s) = some (p, s) := by
  induction p with
  | nil =>
    rw [List.nil_append, rsplitOnce, rsplitOnce_of_notMem h]
    exact if_pos rfl
  | cons c p ih => rw [List.cons_append, rsplitOnce, ih]

/-- A text is split where the last mark is. -/
theorem rsplitOnce_spec (x : α) (s : List α) :
    (x ∉ s ∧ rsplitOnce x s = none) ∨
      ∃ l r, s = l ++ x :: r ∧ x ∉ r ∧ rsplitOnce x s = some (l, r) := by
  induction s with
  | nil => exact .inl ⟨List.not_mem_nil, rfl⟩
  | cons c s ih =>
    rcases ih with ⟨hs, -⟩ | ⟨l, r, rfl, hr, -⟩
    · by_cases hc : c = x
      · rw [hc]
        exact .inr ⟨[], s, rfl, hs, rsplitOnce_append (p := []) hs⟩
      · have hcs : x ∉ c :: s := by
          rw [List.mem_cons, not_or]
          exact ⟨fun heq => hc heq.symm, hs⟩
        exact .inl ⟨hcs, rsplitOnce_of_notMem hcs⟩
    · exact .inr ⟨c :: l, r, rfl, hr, rsplitOnce_append (p := c :: l) hr⟩

/-- Where no match starts in front, the first one is behind. -/
theorem find_append (h : ∀ i < p.length, ¬ needle <+: p.drop i ++ s) :
    find needle (p ++ s) = (find needle s).map (· + p.length) := by
  induction p with
  | nil =>
    rw [List.nil_append]
    cases find needle s <;> rfl
  | cons c p ih =>
    have hne : ¬ needle <+: c :: (p ++ s) := h 0 (Nat.succ_pos _)
    have hrest : ∀ i < p.length, ¬ needle <+: p.drop i ++ s :=
      fun i hi => h (i + 1) (Nat.succ_lt_succ hi)
    rw [List.cons_append, find_cons hne, ih hrest, Option.map_map]
    rfl

/-- A front that contains the needle has its first occurrence. -/
theorem find_of_infix (h : needle <:+: p) (s : List α) :
    ∃ i, find needle (p ++ s) = some i ∧ i + needle.length ≤ p.length := by
  induction p with
  | nil =>
    rw [List.infix_nil.mp h]
    refine ⟨0, find_front ⟨_, rfl⟩, Nat.le_refl _⟩
  | cons c p ih =>
    rcases List.infix_cons_iff.mp h with hpre | hin
    · exact ⟨0, find_front (hpre.trans (List.prefix_append _ _)), by
        rw [Nat.zero_add]
        exact hpre.length_le⟩
    · by_cases hpre : needle <+: c :: (p ++ s)
      · exact ⟨0, find_front hpre, by
          rw [Nat.zero_add]
          exact hin.length_le.trans (Nat.le_succ _)⟩
      · obtain ⟨i, hi, hle⟩ := ih hin
        refine ⟨i + 1, ?_, ?_⟩
        · rw [List.cons_append, find_cons hpre, hi]
          rfl
        · rw [List.length_cons]
          omega

/-- Then what is behind the front does not matter. -/
theorem find_append_of_infix (h : needle <:+: p) (s : List α) :
    find needle (p ++ s) = find needle p := by
  induction p with
  | nil =>
    rw [List.infix_nil.mp h, find_front List.nil_prefix, find_front List.nil_prefix]
  | cons c p ih =>
    by_cases hpre : needle <+: c :: p
    · rw [find_front hpre, find_front (hpre.trans (List.prefix_append _ _))]
    · have hin : needle <:+: p := (List.infix_cons_iff.mp h).resolve_left hpre
      have hlong : ¬ needle <+: c :: (p ++ s) := fun hlong =>
        hpre (List.prefix_of_prefix_length_le hlong (List.prefix_append (c :: p) s)
          (hin.length_le.trans (Nat.le_succ _)))
      rw [List.cons_append, find_cons hlong, find_cons hpre, ih hin]

omit [DecidableEq α] in
/-- A match does not reach past a mark that is no part of the needle. -/
theorem prefix_marked (hx : x ∉ needle) (h : needle <+: p ++ x :: s) : needle <+: p := by
  induction p generalizing needle with
  | nil =>
    cases needle with
    | nil => exact List.prefix_rfl
    | cons n ns => exact absurd ((List.cons_prefix_cons.mp h).1 ▸ List.mem_cons_self) hx
  | cons c p ih =>
    cases needle with
    | nil => exact List.nil_prefix
    | cons n ns =>
      obtain ⟨rfl, htail⟩ := List.cons_prefix_cons.mp h
      rw [List.mem_cons, not_or] at hx
      exact List.cons_prefix_cons.mpr ⟨rfl, ih hx.2 htail⟩

omit [DecidableEq α] in
/-- Such a mark separates the occurrences. -/
theorem infix_marked_iff (hx : x ∉ needle) :
    needle <:+: p ++ x :: s ↔ needle <:+: p ∨ needle <:+: s := by
  constructor
  · intro h
    induction p with
    | nil =>
      rcases List.infix_cons_iff.mp h with h | h
      · exact .inl (prefix_marked (p := []) hx h).isInfix
      · exact .inr h
    | cons c p ih =>
      rcases List.infix_cons_iff.mp h with h | h
      · exact .inl (prefix_marked (p := c :: p) hx h).isInfix
      · exact (ih h).imp_left List.infix_cons
  · rintro (h | h)
    · exact h.trans List.infix_append_left
    · exact h.trans ((List.infix_cons List.infix_rfl).trans List.infix_append_right)

omit [DecidableEq α] in
/-- A text without a character of the needle does not contain it. -/
theorem not_infix_of_mem (hc : c ∈ needle) (h : c ∉ s) : ¬ needle <:+: s :=
  fun hin => h (hin.subset hc)

/-- Up to a mark the needle is searched for on its own. -/
theorem find_past_mark (hx : x ∉ needle) (hne : needle ≠ []) (h : ¬ needle <:+: p) :
    find needle (p ++ x :: s) = (find needle s).map (· + (p.length + 1)) := by
  induction p with
  | nil =>
    have hmark : ¬ needle <+: x :: s := fun hpre =>
      hne (List.prefix_nil.mp (prefix_marked (p := []) hx hpre))
    rw [List.nil_append, find_cons hmark]
    rfl
  | cons c p ih =>
    rw [List.infix_cons_iff, not_or] at h
    have hfront : ¬ needle <+: c :: (p ++ x :: s) := fun hpre =>
      h.1 (prefix_marked (p := c :: p) hx hpre)
    rw [List.cons_append, find_cons hfront, ih h.2, Option.map_map]
    rfl

/-- The first mark of a text. -/
theorem find_char (h : x ∉ p) : find [x] (p ++ x :: s) = some p.length := by
  rw [find_skip h, find_front (show [x] <+: x :: s from ⟨s, rfl⟩), Option.map_some, Nat.zero_add]

theorem splitOnce_char (h : x ∉ p) : splitOnce [x] (p ++ x :: s) = some (p, s) := by
  rw [splitOnce, find_char h, Option.map_some, List.take_left, List.length_singleton,
    ← List.drop_drop, List.drop_left, List.drop_one, List.tail_cons]

/-- A needle whose first character is not in front of it. -/
theorem splitOnce_skip {n : α} {ns : List α} (h : n ∉ p) :
    splitOnce (n :: ns) (p ++ (n :: ns ++ s)) = some (p, s) := by
  rw [splitOnce, find_skip h, find_front (List.prefix_append _ _), Option.map_some, Option.map_some,
    Nat.zero_add, List.take_left, ← List.drop_drop, List.drop_left, List.drop_left]

theorem splitOnce_none (h : ¬ needle <:+: s) : splitOnce needle s = none := by
  rw [← contains_iff, contains, Bool.not_eq_true, Option.isSome_eq_false_iff,
    Option.isNone_iff_eq_none] at h
  rw [splitOnce, h]
  rfl

end Marks

/-! ## Words -/

section Words

variable {s w : List Char} {ws : List (List Char)}

/-- A text is blank, or starts with its first word after white space. -/
theorem words_cases (s : List Char) :
    words s = [] ∨ ∃ g w t, s = g ++ (w ++ t) ∧ w ≠ [] ∧ (∀ c ∈ w, isWhitespace c = false) ∧
      words s = w :: words t.tail := by
  have hgap : ∀ c ∈ s.takeWhile isWhitespace, isWhitespace c = true := fun c hc =>
    List.mem_takeWhile_imp hc
  have hs : words s = words (s.dropWhile isWhitespace) := by
    conv_lhs => rw [← List.takeWhile_append_dropWhile (p := isWhitespace) (l := s)]
    exact words_space hgap
  cases hrest : s.dropWhile isWhitespace with
  | nil =>
    rw [hs, hrest]
    exact .inl rfl
  | cons c r =>
    have hc : isWhitespace c = false := by
      have hne : s.dropWhile isWhitespace ≠ [] := by rw [hrest]; exact List.cons_ne_nil _ _
      have hhead := List.head_dropWhile_not isWhitespace hne
      simp only [hrest, List.head_cons] at hhead
      exact hhead
    refine .inr ⟨s.takeWhile isWhitespace, (c :: r).takeWhile fun c => !isWhitespace c,
      (c :: r).dropWhile fun c => !isWhitespace c, ?_, ?_, ?_, ?_⟩
    · rw [List.takeWhile_append_dropWhile, ← hrest, List.takeWhile_append_dropWhile]
    · rw [List.takeWhile_cons_of_pos (by rw [hc]; rfl)]
      exact List.cons_ne_nil _ _
    · intro c' hc'
      have hpos := List.mem_takeWhile_imp hc'
      rwa [Bool.not_eq_true'] at hpos
    · rw [hs, hrest]
      have hw : ∀ c' ∈ (c :: r).takeWhile (fun c => !isWhitespace c), isWhitespace c' = false := by
        intro c' hc'
        have hpos := List.mem_takeWhile_imp hc'
        rwa [Bool.not_eq_true'] at hpos
      have hne : (c :: r).takeWhile (fun c => !isWhitespace c) ≠ [] := by
        rw [List.takeWhile_cons_of_pos (by rw [hc]; rfl)]
        exact List.cons_ne_nil _ _
      conv_lhs => rw [← List.takeWhile_append_dropWhile (p := fun c => !isWhitespace c) (l := c :: r)]
      -- the first word ends with the text, or at white space
      cases ht : (c :: r).dropWhile fun c => !isWhitespace c with
      | nil =>
        rw [List.append_nil, words_single hne hw]
        rfl
      | cons b t =>
        have hb : isWhitespace b = true := by
          have hne : (c :: r).dropWhile (fun c => !isWhitespace c) ≠ [] := by
            rw [ht]
            exact List.cons_ne_nil _ _
          have hhead := List.head_dropWhile_not (fun c => !isWhitespace c) hne
          simp only [ht, List.head_cons, Bool.not_eq_false'] at hhead
          exact hhead
        exact words_cons hne hw hb

theorem unwords_cons (w : List Char) (h : ws ≠ []) : unwords (w :: ws) = w ++ ' ' :: unwords ws := by
  cases ws with
  | nil => exact absurd rfl h
  | cons v ws => rfl

theorem unwords_singleton (w : List Char) : unwords [w] = w := by
  rw [unwords, List.intercalate, List.intersperse_singleton, List.flatten_singleton]

/-- Words joined by single blanks are no longer than the text they come from. -/
theorem length_unwords_words_le (s : List Char) : (unwords (words s)).length ≤ s.length := by
  induction hlen : s.length using Nat.strong_induction_on generalizing s with
  | _ n ih =>
    rcases words_cases s with h | ⟨g, w, t, rfl, hne, -, h⟩
    · rw [h]
      exact Nat.zero_le _
    · have hpos := List.length_pos_of_ne_nil hne
      simp only [List.length_append] at hlen
      rw [h]
      by_cases htail : words t.tail = []
      · rw [htail, unwords_singleton]
        omega
      · have ht : t ≠ [] := by
          rintro rfl
          exact htail rfl
        have htpos := List.length_pos_of_ne_nil ht
        have hle := ih t.tail.length (by rw [List.length_tail]; omega) t.tail rfl
        rw [List.length_tail] at hle
        rw [unwords_cons w htail, List.length_append, List.length_cons]
        omega

theorem of_mem_words (h : w ∈ words s) : w ≠ [] ∧ ∀ c ∈ w, isWhitespace c = false := by
  induction hlen : s.length using Nat.strong_induction_on generalizing s with
  | _ n ih =>
    rcases words_cases s with hs | ⟨g, v, t, rfl, hne, hv, hs⟩
    · rw [hs] at h
      cases h
    · rw [hs] at h
      rcases List.mem_cons.mp h with rfl | h
      · exact ⟨hne, hv⟩
      · have hpos := List.length_pos_of_ne_nil hne
        simp only [List.length_append] at hlen
        exact ih t.tail.length (by rw [List.length_tail]; omega) h rfl

theorem unwords_last (h : ws ≠ []) : ∃ p, ∃ w ∈ ws, unwords ws = p ++ w := by
  induction ws with
  | nil => exact absurd rfl h
  | cons w ws ih =>
    by_cases hws : ws = []
    · rw [hws, unwords_singleton]
      exact ⟨[], w, List.mem_singleton_self w, rfl⟩
    · obtain ⟨p, v, hv, heq⟩ := ih hws
      refine ⟨w ++ ' ' :: p, v, List.mem_cons_of_mem w hv, ?_⟩
      rw [unwords_cons w hws, heq, List.append_assoc, List.cons_append]

/-- A word at the end is not trimmed. -/
theorem trimEnd_append_word (p : List Char) (hne : w ≠ [])
    (hw : ∀ c ∈ w, isWhitespace c = false) : trimEnd (p ++ w) = p ++ w := by
  rw [← List.dropLast_append_getLast hne, ← List.append_assoc]
  exact trimEnd_concat (hw _ (List.getLast_mem hne))

theorem trimEndChar_append {c : Char} (p : List Char) (hne : w ≠ []) (hc : c ∉ w) :
    trimEndChar c (p ++ w) = p ++ w := by
  rw [← List.dropLast_append_getLast hne, ← List.append_assoc, trimEndChar,
    List.rdropWhile_concat_neg]
  intro heq
  exact hc (of_decide_eq_true heq ▸ List.getLast_mem hne)

/-- Joined words end in no white space. -/
theorem trimEnd_unwords (h : ∀ w ∈ ws, w ≠ [] ∧ ∀ c ∈ w, isWhitespace c = false) :
    trimEnd (unwords ws) = unwords ws := by
  by_cases hws : ws = []
  · rw [hws]
    rfl
  · obtain ⟨p, w, hmem, heq⟩ := unwords_last hws
    obtain ⟨hne, hw⟩ := h w hmem
    rw [heq]
    exact trimEnd_append_word p hne hw

end Words

/-! ## Byte positions -/

/-- `split_at`: nothing where the position is no character boundary. -/
def splitAtBytes : Nat → List Char → Option (List Char × List Char)
  | 0, s => some ([], s)
  | _ + 1, [] => none
  | n + 1, c :: s =>
    if c.utf8Size ≤ n + 1 then (splitAtBytes (n + 1 - c.utf8Size) s).map fun p => (c :: p.1, p.2)
    else none

end TraceMcp.Lib.Text
