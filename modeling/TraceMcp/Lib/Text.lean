import Mathlib.Algebra.GroupWithZero.Nat
import Mathlib.Data.List.DropRight

/-!
# Searching and splitting text

A text is a list of characters. `find` is where a needle first occurs, the
rest of the file is what parsers build from it: `contains`, `splitOnce`,
trimming, white-space separated words, numbers of a radix, and the UTF-8
bytes.

Searches are computed by skipping. `find_skip` skips a stretch without the
needle's first character, and `find_marked` handles a needle that ends in a
mark it has nowhere else, such as `key:`: only what stands right before the
first mark of the text matters.
-/

namespace TraceMcp.Lib

/-- Unicode `White_Space` (`char::is_whitespace`). -/
def isWhitespace (c : Char) : Bool :=
  let n := c.toNat
  (9 ≤ n && n ≤ 13) || n = 0x20 || n = 0x85 || n = 0xA0 || n = 0x1680
    || (0x2000 ≤ n && n ≤ 0x200A) || n = 0x2028 || n = 0x2029 || n = 0x202F || n = 0x205F
    || n = 0x3000

namespace Text

/-! ## Searching -/

section Search

variable {α : Type} [DecidableEq α] {needle s p : List α} {c x : α}

/-- Where `needle` first occurs. -/
def find (needle : List α) : List α → Option Nat
  | [] => if needle = [] then some 0 else none
  | c :: s => if needle <+: c :: s then some 0 else (find needle s).map (· + 1)

/-- `needle` occurs. -/
def contains (needle s : List α) : Bool := (find needle s).isSome

/-- Before and after the first `needle`. -/
def splitOnce (needle s : List α) : Option (List α × List α) :=
  (find needle s).map fun i => (s.take i, s.drop (i + needle.length))

theorem find_front (h : needle <+: s) : find needle s = some 0 := by
  cases s with
  | nil =>
    rw [List.prefix_nil.mp h]
    rfl
  | cons c s => rw [find, if_pos h]

theorem find_cons (h : ¬ needle <+: c :: s) : find needle (c :: s) = (find needle s).map (· + 1) := by
  rw [find, if_neg h]

/-- A stretch without the needle's first character is skipped. -/
theorem find_skip {n : α} {ns : List α} (h : n ∉ p) :
    find (n :: ns) (p ++ s) = (find (n :: ns) s).map (· + p.length) := by
  induction p with
  | nil =>
    rw [List.nil_append]
    cases find (n :: ns) s <;> rfl
  | cons c p ih =>
    have hne : ¬ n :: ns <+: c :: (p ++ s) := by
      intro hpre
      exact h (List.mem_cons.mpr (Or.inl (List.cons_prefix_cons.mp hpre).1))
    rw [List.cons_append, find_cons hne, ih fun hmem => h (List.mem_cons_of_mem c hmem),
      Option.map_map]
    rfl

theorem contains_iff : contains needle s = true ↔ needle <:+: s := by
  induction s with
  | nil =>
    rw [List.infix_nil, contains, find]
    split <;> simp_all
  | cons c s ih =>
    rw [List.infix_cons_iff, contains, find]
    split
    next h => simp [h]
    next h =>
      rw [Option.isSome_map, ← contains, ih]
      simp [h]

/-- What a part does not contain, and what straddles no border, the whole
does not contain either: the needle's first character starts no match in `p`. -/
theorem contains_skip {n : α} {ns : List α} (h : n ∉ p) :
    contains (n :: ns) (p ++ s) = contains (n :: ns) s := by
  rw [contains, find_skip h, Option.isSome_map, contains]

end Search

/-! ## Trimming and words -/

/-- `trim_start`. -/
def trimStart (s : List Char) : List Char := s.dropWhile isWhitespace

/-- `trim_end`. -/
def trimEnd (s : List Char) : List Char := s.rdropWhile isWhitespace

/-- `trim`. -/
def trim (s : List Char) : List Char := trimEnd (trimStart s)

/-- `trim_start_matches` of a character. -/
def trimStartChar (c : Char) (s : List Char) : List Char := s.dropWhile (· = c)

/-- `trim_end_matches` of a character. -/
def trimEndChar (c : Char) (s : List Char) : List Char := s.rdropWhile (· = c)

/-- `split_whitespace`. -/
def words (s : List Char) : List (List Char) :=
  (s.splitOnP isWhitespace).filter (· ≠ [])

/-- `join(" ")`. -/
def unwords (ws : List (List Char)) : List Char := List.intercalate [' '] ws

theorem trimStart_of_cons {c : Char} {s : List Char} (h : isWhitespace c = false) :
    trimStart (c :: s) = c :: s := by
  rw [trimStart, List.dropWhile_cons_of_neg (by rw [h]; exact Bool.false_ne_true)]

theorem trimStart_append {g s : List Char} (h : ∀ c ∈ g, isWhitespace c = true) :
    trimStart (g ++ s) = trimStart s :=
  List.dropWhile_append_of_pos h

theorem trimEnd_concat {c : Char} {s : List Char} (h : isWhitespace c = false) :
    trimEnd (s ++ [c]) = s ++ [c] := by
  rw [trimEnd, List.rdropWhile_concat_neg _ _ _ (by rw [h]; exact Bool.false_ne_true)]

/-! ### Words -/

section Words

variable {w s : List Char} {c : Char}

/-- White space in front of a text. -/
theorem words_space {g : List Char} (h : ∀ c ∈ g, isWhitespace c = true) :
    words (g ++ s) = words s := by
  induction g with
  | nil => rfl
  | cons c g ih =>
    have hnil : ∀ x ∈ ([] : List Char), isWhitespace x = false :=
      fun _ hx => absurd hx List.not_mem_nil
    have hsplit := List.splitOnP_append_cons_of_forall_mem hnil c (h c List.mem_cons_self) (g ++ s)
    rw [List.cons_append, words, ← List.nil_append (c :: (g ++ s)), hsplit, List.filter_cons_of_neg]
    · exact ih fun c' hc' => h c' (List.mem_cons_of_mem c hc')
    · simp

/-- The first word, up to the white space after it. -/
theorem words_cons (hne : w ≠ []) (hw : ∀ c ∈ w, isWhitespace c = false)
    (hc : isWhitespace c = true) : words (w ++ c :: s) = w :: words s := by
  rw [words, List.splitOnP_append_cons_of_forall_mem hw c hc, List.filter_cons_of_pos]
  · rfl
  · exact decide_eq_true hne

/-- One word alone. -/
theorem words_single (hne : w ≠ []) (hw : ∀ c ∈ w, isWhitespace c = false) : words w = [w] := by
  have hsplit := List.splitOnP_eq_singleton hw
  rw [words, hsplit, List.filter_cons_of_pos]
  · rfl
  · exact decide_eq_true hne

end Words

/-! ## Numbers -/

/-- `char::to_digit`. -/
def toDigit (radix : Nat) (c : Char) : Option Nat :=
  let value :=
    if '0' ≤ c ∧ c ≤ '9' then some (c.toNat - '0'.toNat)
    else if 'a' ≤ c ∧ c ≤ 'z' then some (c.toNat - 'a'.toNat + 10)
    else if 'A' ≤ c ∧ c ≤ 'Z' then some (c.toNat - 'A'.toNat + 10)
    else none
  value.filter (· < radix)

/-- The number the digits write, most significant first. -/
def digitsValue (radix : Nat) (ds : List Nat) : Nat :=
  ds.foldl (fun v d => v * radix + d) 0

/-- `from_str_radix` of an unsigned type with `bound` values: a `+` may lead,
and every other character is a digit. -/
def fromStrRadix (bound radix : Nat) (s : List Char) : Option Nat :=
  let digits := if s.head? = some '+' then s.tail else s
  if digits = [] then none
  else ((digits.mapM (toDigit radix)).map (digitsValue radix)).filter (· < bound)

/-- `str::parse` to `u8`. -/
def parseU8 : List Char → Option Nat := fromStrRadix (2 ^ 8) 10

/-- `str::parse` to `u32`. -/
def parseU32 : List Char → Option Nat := fromStrRadix (2 ^ 32) 10

/-- `str::parse` to `u64`. -/
def parseU64 : List Char → Option Nat := fromStrRadix (2 ^ 64) 10

/-! ## Bytes -/

/-- `as_bytes`. -/
def asBytes (s : List Char) : List UInt8 := s.flatMap String.utf8EncodeChar

/-- A byte string literal. -/
def ascii (s : String) : List UInt8 := asBytes s.toList

/-- `str::len`, in bytes. -/
def byteLen (s : List Char) : Nat := (asBytes s).length

theorem byteLen_append (s t : List Char) : byteLen (s ++ t) = byteLen s + byteLen t := by
  unfold byteLen asBytes
  rw [List.flatMap_append, List.length_append]

theorem byteLen_singleton (c : Char) : byteLen [c] = c.utf8Size := by
  unfold byteLen asBytes
  rw [List.flatMap_singleton, String.length_utf8EncodeChar]

/-- The characters that end within the first `n` bytes. -/
def takeBytes (n : Nat) : List Char → List Char
  | [] => []
  | c :: s => if c.utf8Size ≤ n then c :: takeBytes (n - c.utf8Size) s else []

theorem byteLen_takeBytes (n : Nat) (s : List Char) : byteLen (takeBytes n s) ≤ n := by
  induction s generalizing n with
  | nil => exact Nat.zero_le n
  | cons c s ih =>
    unfold takeBytes
    split
    next h =>
      have htail := ih (n - c.utf8Size)
      rw [← List.singleton_append, byteLen_append, byteLen_singleton]
      omega
    next => exact Nat.zero_le n

end Text

end TraceMcp.Lib
