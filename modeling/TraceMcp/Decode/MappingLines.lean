import TraceMcp.Decode.TaskNames

/-!
# Mapping lines

A mapping record ends with the path. Its range is between the first bracket with
a number and the next closing one, its path behind the last bracket, and neither
search knows where the path starts: `readsBack_mmap` says which paths are read
back, and with the other records `readsBack_iff` is what a line is read as.
-/

namespace TraceMcp.Decode.Sideband

open TraceMcp.Lib

/-! ## What a line contains -/

section MmapLine

open PerfScript

/-- What stands between the brackets of a mapping. -/
def rangeChars : List Char := "0123456789abcdefx()@<>: ".toList

theorem hexDigit_range : ∀ d < 16, Nat.digitChar d ∈ rangeChars := by decide

theorem padded_range {width n : Nat} : ∀ c ∈ Text.padded 16 width n, c ∈ rangeChars := by
  intro c hc
  obtain ⟨d, hd, rfl⟩ := Text.mem_padded (by decide) hc
  exact hexDigit_range d hd

theorem decimal_range {n : Nat} : ∀ c ∈ Text.decimal n, c ∈ rangeChars := by
  intro c hc
  rw [← Text.padded_none] at hc
  obtain ⟨d, hd, rfl⟩ := Text.mem_padded (by decide) hc
  exact hexDigit_range d (by omega)

theorem alternateHex_range (n : UInt64) : ∀ c ∈ alternateHex n, c ∈ rangeChars := by
  intro c hc
  unfold alternateHex at hc
  split at hc
  next =>
    rw [List.mem_singleton.mp hc]
    decide
  next =>
    rcases List.mem_cons.mp hc with rfl | hc
    · decide
    rcases List.mem_cons.mp hc with rfl | hc
    · decide
    · exact padded_range c hc

theorem Backing.text_range (b : Backing) : ∀ c ∈ b.text, c ∈ rangeChars := by
  have hmark : ∀ c ∈ [':', ' ', '<', '>'], c ∈ rangeChars := by decide
  intro c hc
  cases b with
  | inode maj min ino generation =>
    simp only [Backing.text, List.mem_append, List.mem_cons] at hc
    rcases hc with hc | rfl | hc | rfl | hc | rfl | hc
    · exact padded_range c hc
    · exact hmark _ (by decide)
    · exact padded_range c hc
    · exact hmark _ (by decide)
    · exact decimal_range c hc
    · exact hmark _ (by decide)
    · exact decimal_range c hc
  | buildId digits =>
    simp only [Backing.text, List.mem_append, List.mem_cons, List.not_mem_nil, or_false] at hc
    rcases hc with rfl | hc | rfl
    · exact hmark _ (by decide)
    · obtain ⟨d, -, rfl⟩ := List.mem_map.mp hc
      exact hexDigit_range d.val d.isLt
    · exact hmark _ (by decide)

theorem Mapping.range_chars (m : Mapping) : ∀ c ∈ m.range, c ∈ rangeChars := by
  have hmark : ∀ c ∈ ['(', ')', ' ', '@'], c ∈ rangeChars := by decide
  intro c hc
  simp only [Mapping.range, List.mem_append, List.mem_cons] at hc
  rcases hc with hc | rfl | hc | rfl | rfl | rfl | rfl | hc | rfl | hc
  · exact alternateHex_range m.start c hc
  · exact hmark _ (by decide)
  · exact alternateHex_range m.len c hc
  · exact hmark _ (by decide)
  · exact hmark _ (by decide)
  · exact hmark _ (by decide)
  · exact hmark _ (by decide)
  · exact alternateHex_range m.pgoff c hc
  · exact hmark _ (by decide)
  · exact m.backing.text_range c hc

/-- The characters of a protection. -/
theorem Prot.text_chars (p : Prot) : ∀ c ∈ p.text, c ∈ "rwxsp-".toList := by
  cases p with
  | mk r w x s => cases r <;> cases w <;> cases x <;> cases s <;> decide

theorem Prot.text_cons (p : Prot) : ∃ c s, p.text = c :: s ∧ c ≠ 'l' := by
  cases p with
  | mk r w x s =>
    cases r with
    | false => exact ⟨'-', _, rfl, by decide⟩
    | true => exact ⟨'r', _, rfl, by decide⟩

variable (h : Columns) (m : Mapping)

/-- The line up to the bracket. -/
def mmapFront : List Char := h.text ++ ':' :: ' ' :: ("PERF_RECORD_MMAP2 ".toList ++ (m.task.text ++ [':', ' ']))

/-- The line from the bracket on, up to the path. -/
def mmapMiddle : List Char :=
  '[' :: (m.range ++ ']' :: ':' :: ' ' :: (m.prot.text ++ [' ']))

theorem mmap_line : printLine h (.mmap2 m) = mmapFront h m ++ (mmapMiddle m ++ m.path.text) := by
  unfold printLine Event.text mmapFront mmapMiddle
  generalize "PERF_RECORD_MMAP2 ".toList = kind
  simp only [List.append_assoc, List.cons_append, List.nil_append]

/-- A word with a letter that is in none of the printer's texts is searched for
behind the range. -/
theorem infix_mmap_iff {k : List Char} (hcolon : ':' ∉ k) {x : Char} (hx : x ∈ k)
    (hcol : x ∉ columnChars) (hname : x ∉ "PERF_RECORD_MMAP2".toList) (hrange : x ∉ rangeChars) :
    k <:+: printLine h (.mmap2 m) ↔ k <:+: ' ' :: (m.prot.text ++ ' ' :: m.path.text) := by
  have hfront : x ∉ mmapFront h m ++ '[' :: (m.range ++ [']']) := by
    simp only [mmapFront, List.mem_append, List.mem_cons, List.not_mem_nil, or_false, not_or]
    have hkind : x ∉ "PERF_RECORD_MMAP2 ".toList := by
      rw [show "PERF_RECORD_MMAP2 ".toList = "PERF_RECORD_MMAP2".toList ++ [' '] from by decide,
        List.mem_append, not_or, List.mem_singleton]
      exact ⟨hname, fun heq => hcol (heq ▸ by decide)⟩
    refine ⟨⟨fun hmem => hcol (h.text_column x hmem), fun heq => hcol (heq ▸ by decide),
      fun heq => hcol (heq ▸ by decide), hkind, fun hmem => hcol (m.task.text_column x hmem),
      fun heq => hcol (heq ▸ by decide), fun heq => hcol (heq ▸ by decide)⟩,
      fun heq => hcol (heq ▸ by decide), fun hmem => hrange (m.range_chars x hmem),
      fun heq => hcol (heq ▸ by decide)⟩
  have hline : printLine h (.mmap2 m) = (mmapFront h m ++ '[' :: (m.range ++ [']'])) ++
      ':' :: (' ' :: (m.prot.text ++ ' ' :: m.path.text)) := by
    rw [mmap_line, mmapMiddle]
    generalize mmapFront h m = front
    simp only [List.append_assoc, List.cons_append, List.nil_append]
  rw [hline, Text.infix_marked_iff hcolon]
  exact or_iff_right (Text.not_infix_of_mem hx hfront)

/-- Behind the range a word that starts with a letter is in the path. -/
theorem infix_path_iff {n : Char} {ns : List Char} (hspace : n ≠ ' ') (hprot : n ∉ "rwxsp-".toList) :
    n :: ns <:+: ' ' :: (m.prot.text ++ ' ' :: m.path.text) ↔ n :: ns <:+: m.path.text := by
  have hfront : n ∉ ' ' :: (m.prot.text ++ [' ']) := by
    simp only [List.mem_cons, List.mem_append, List.not_mem_nil, or_false, not_or]
    exact ⟨hspace, fun hmem => hprot (m.prot.text_chars n hmem), hspace⟩
  have hassoc : ' ' :: (m.prot.text ++ ' ' :: m.path.text) =
      ' ' :: (m.prot.text ++ [' ']) ++ m.path.text := by
    simp only [List.append_assoc, List.cons_append, List.nil_append]
  rw [hassoc, ← Text.contains_iff, ← Text.contains_iff, Text.contains_skip hfront]

/-- A word between two blanks is in the path or at its start. -/
theorem infix_lost_iff : " lost ".toList <:+: ' ' :: (m.prot.text ++ ' ' :: m.path.text) ↔
    " lost ".toList <:+: ' ' :: m.path.text := by
  obtain ⟨c, s, hcons, hc⟩ := m.prot.text_cons
  have hfirst : ¬ " lost ".toList <+: ' ' :: (m.prot.text ++ ' ' :: m.path.text) := by
    intro hpre
    rw [hcons] at hpre
    have hsecond : 'l' :: "ost ".toList <+: c :: (s ++ ' ' :: m.path.text) :=
      (List.cons_prefix_cons.mp hpre).2
    exact hc (List.cons_prefix_cons.mp hsecond).1.symm
  have hblank : ' ' ∉ m.prot.text := fun hmem =>
    absurd (m.prot.text_chars ' ' hmem) (by decide)
  have hskip : Text.contains (' ' :: "lost ".toList) (m.prot.text ++ ' ' :: m.path.text) =
      Text.contains (' ' :: "lost ".toList) (' ' :: m.path.text) := Text.contains_skip hblank
  rw [List.infix_cons_iff, or_iff_right hfirst, ← Text.contains_iff, ← Text.contains_iff]
  exact iff_of_eq (congrArg (· = true) hskip)

/-! ## The range -/

theorem trim_alternateHex (n : UInt64) : Text.trim (alternateHex n) = alternateHex n := by
  have hsolid : ∀ d < 16, isWhitespace (Nat.digitChar d) = false := by decide
  unfold alternateHex
  split
  next => decide
  next =>
    rw [Text.trim, Text.trimStart_of_cons (by decide)]
    refine Text.trimEnd_append_word ['0', 'x'] Text.padded_ne_nil fun c hc => ?_
    obtain ⟨d, hd, rfl⟩ := Text.mem_padded (by decide) hc
    exact hsolid d hd

theorem parseAddress_alternateHex (n : UInt64) : parseAddress (alternateHex n) = some n.toNat := by
  unfold parseAddress
  dsimp only
  rw [trim_alternateHex]
  unfold alternateHex
  split
  next hzero =>
    rw [hzero]
    decide
  next =>
    rw [if_pos (.inl ⟨_, rfl⟩)]
    exact Text.fromStrRadix_padded (by decide) (by decide) n.toNat_lt

/-- No mark of the range is in a number. -/
theorem notMem_alternateHex (n : UInt64) {x : Char} (hx : x ∉ "0123456789abcdefx".toList) :
    x ∉ alternateHex n := by
  have hdigit : ∀ d < 16, Nat.digitChar d ∈ "0123456789abcdefx".toList := by decide
  intro hmem
  unfold alternateHex at hmem
  split at hmem
  next =>
    rw [List.mem_singleton.mp hmem] at hx
    exact hx (by decide)
  next =>
    rcases List.mem_cons.mp hmem with rfl | hmem
    · exact hx (by decide)
    rcases List.mem_cons.mp hmem with rfl | hmem
    · exact hx (by decide)
    obtain ⟨d, hd, rfl⟩ := Text.mem_padded (by decide) hmem
    exact hx (hdigit d hd)

theorem notMem_backing (b : Backing) {x : Char} (hx : x ∈ ['(', ')', '@']) : x ∉ b.text := by
  have hdigit : ∀ x ∈ ['(', ')', '@'], ∀ d < 16, x ≠ Nat.digitChar d := by decide
  have hmark : ∀ x ∈ ['(', ')', '@'], x ≠ ':' ∧ x ≠ ' ' ∧ x ≠ '<' ∧ x ≠ '>' := by decide
  have hpadded : ∀ {base width n : Nat}, 1 < base → base ≤ 16 → x ∉ Text.padded base width n := by
    intro base width n hb hb' hmem
    obtain ⟨d, hd, rfl⟩ := Text.mem_padded hb hmem
    exact hdigit _ hx d (by omega) rfl
  have hdecimal : ∀ n, x ∉ Text.decimal n := by
    intro n
    rw [← Text.padded_none]
    exact hpadded (by decide) (by decide)
  obtain ⟨hcolon, hblank, hopen, hclose⟩ := hmark x hx
  cases b with
  | inode maj min ino generation =>
    simp only [Backing.text, List.mem_append, List.mem_cons, not_or]
    exact ⟨hpadded (by decide) (by decide), hcolon, hpadded (by decide) (by decide), hblank,
      hdecimal _, hblank, hdecimal _⟩
  | buildId digits =>
    simp only [Backing.text, List.mem_append, List.mem_cons, List.not_mem_nil, or_false, not_or]
    refine ⟨hopen, fun hmem => ?_, hclose⟩
    obtain ⟨d, -, heq⟩ := List.mem_map.mp hmem
    exact hdigit x hx d.val d.isLt heq.symm

/-- The numbers of a range. -/
theorem range_numbers :
    (do
      let lenPart ← secondPart ['('] m.range
      let pgoff := ((secondPart ['@'] m.range).getD ['0'])
      let start ← parseAddress (Text.trim (firstPart ['('] m.range))
      let len ← parseAddress (Text.trim (firstPart [')'] lenPart))
      let off ← parseAddress ((Text.words pgoff).head?.getD ['0'])
      pure (start, len, off)) = some (m.start.toNat, m.len.toNat, m.pgoff.toNat) := by
  -- what follows the parenthesis, and what follows the at sign
  have hopen : secondPart ['('] m.range = some (alternateHex m.len ++ ')' :: ' ' :: '@' :: ' '
      :: (alternateHex m.pgoff ++ ' ' :: m.backing.text)) := by
    have hskip := @secondPart_skip _ (alternateHex m.len ++ ')' :: ' ' :: '@'
      :: ' ' :: (alternateHex m.pgoff ++ ' ' :: m.backing.text)) '(' [] (notMem_alternateHex m.start
        (x := '(') (by decide))
    refine hskip.trans (congrArg some (firstPart_of_absent fun hin => ?_))
    have hmem := (List.singleton_infix_iff '(' _).mp hin
    simp only [List.mem_append, List.mem_cons, Char.reduceEq, false_or] at hmem
    rcases hmem with hmem | hmem | hmem
    · exact notMem_alternateHex m.len (by decide) hmem
    · exact notMem_alternateHex m.pgoff (by decide) hmem
    · exact notMem_backing m.backing (by decide) hmem
  have hat : secondPart ['@'] m.range = some (' ' :: (alternateHex m.pgoff ++ ' ' :: m.backing.text)) := by
    have hfront : '@' ∉ alternateHex m.start ++ '(' :: (alternateHex m.len ++ [')', ' ']) := by
      simp only [List.mem_append, List.mem_cons, List.not_mem_nil, Char.reduceEq, or_false, false_or,
        not_or]
      exact ⟨notMem_alternateHex m.start (by decide), notMem_alternateHex m.len (by decide)⟩
    have hskip := @secondPart_skip _ (' ' :: (alternateHex m.pgoff
      ++ ' ' :: m.backing.text)) '@' [] hfront
    simp only [List.append_assoc, List.cons_append, List.nil_append] at hskip
    refine hskip.trans (congrArg some (firstPart_of_absent fun hin => ?_))
    have hmem := (List.singleton_infix_iff '@' _).mp hin
    simp only [List.mem_append, List.mem_cons, Char.reduceEq, false_or] at hmem
    rcases hmem with hmem | hmem
    · exact notMem_alternateHex m.pgoff (by decide) hmem
    · exact notMem_backing m.backing (by decide) hmem
  have hfirst : firstPart ['('] m.range = alternateHex m.start :=
    firstPart_char (notMem_alternateHex m.start (by decide))
  have hlen : firstPart [')'] (alternateHex m.len ++ ')' :: ' ' :: '@' :: ' '
      :: (alternateHex m.pgoff ++ ' ' :: m.backing.text)) = alternateHex m.len :=
    firstPart_char (notMem_alternateHex m.len (by decide))
  have hword : (Text.words (' ' :: (alternateHex m.pgoff ++ ' ' :: m.backing.text))).head? =
      some (alternateHex m.pgoff) := by
    have hne : alternateHex m.pgoff ≠ [] := by
      unfold alternateHex
      split
      next => exact List.cons_ne_nil _ _
      next => exact List.cons_ne_nil _ _
    have hsolid : ∀ c ∈ alternateHex m.pgoff, isWhitespace c = false := by
      intro c hc
      by_contra hwhite
      exact notMem_alternateHex m.pgoff (fun hmem => hwhite
        ((show ∀ c ∈ "0123456789abcdefx".toList, isWhitespace c = false by decide) c hmem)) hc
    rw [← List.singleton_append, Text.words_space (by decide),
      Text.words_cons hne hsolid (by decide)]
    rfl
  rw [hopen, hat, hfirst]
  simp only [Option.bind_eq_bind, Option.bind_some, Option.getD_some, hlen, hword,
    trim_alternateHex, parseAddress_alternateHex, Option.pure_def]

/-- A front without the start of a range does not matter. -/
theorem parseMmapRange_append {p s : List Char}
    (hfind : Text.find "[0x".toList (p ++ s) = (Text.find "[0x".toList s).map (· + p.length)) :
    parseMmapRange (p ++ s) = parseMmapRange s := by
  unfold parseMmapRange
  rw [hfind]
  cases Text.find "[0x".toList s with
  | none => rfl
  | some i =>
    have hdrop : (p ++ s).drop (i + p.length + 1) = s.drop (i + 1) := by
      rw [show i + p.length + 1 = p.length + (i + 1) by omega, List.drop_length_add_append]
    simp only [Option.map_some, Option.bind_eq_bind, Option.bind_some, hdrop]

/-- Nothing in front of the bracket starts a range. -/
theorem parseMmapRange_front (s : List Char) :
    parseMmapRange (mmapFront h m ++ s) = parseMmapRange s := by
  have hfind : Text.find "[0x".toList (mmapFront h m ++ s) =
      (Text.find "[0x".toList s).map (· + (mmapFront h m).length) := by
    have hfront : mmapFront h m =
        (h.text ++ ':' :: ' ' :: ("PERF_RECORD_MMAP2 ".toList ++ (m.task.text ++ [':']))) ++ [' '] := by
      unfold mmapFront
      generalize "PERF_RECORD_MMAP2 ".toList = kind
      simp only [List.append_assoc, List.cons_append, List.nil_append]
    have hx : 'x' ∉ h.text ++ ':' :: ' ' :: ("PERF_RECORD_MMAP2 ".toList ++ (m.task.text ++ [':'])) := by
      simp only [List.mem_append, List.mem_cons, List.not_mem_nil, or_false, not_or]
      exact ⟨fun hmem => absurd (h.text_column 'x' hmem) (by decide), by decide, by decide, by decide,
        fun hmem => absurd (m.task.text_column 'x' hmem) (by decide), by decide⟩
    have hpast := @Text.find_past_mark _ _ ' ' "[0x".toList s _ (by decide)
      (by decide) (Text.not_infix_of_mem (c := 'x') (by decide) hx)
    rw [hfront, List.append_assoc, List.singleton_append, hpast]
    generalize h.text ++ ':' :: ' ' :: ("PERF_RECORD_MMAP2 ".toList ++ (m.task.text ++ [':'])) = front
    rw [List.length_append, List.length_singleton]
  exact parseMmapRange_append hfind

/-- A mapping that does not start at 0 has its range read. -/
theorem parseMmapRange_middle (hstart : m.start ≠ 0) (s : List Char) :
    parseMmapRange (mmapMiddle m ++ s) = some (m.start.toNat, m.len.toNat, m.pgoff.toNat) := by
  have hclose : ']' ∉ m.range := fun hmem => absurd (m.range_chars ']' hmem) (by decide)
  have hfind : Text.find "[0x".toList (mmapMiddle m ++ s) = some 0 := by
    refine Text.find_front ?_
    rw [mmapMiddle, Mapping.range, alternateHex, if_neg hstart]
    exact ⟨_, rfl⟩
  have hdrop : (mmapMiddle m ++ s).drop (0 + 1) =
      m.range ++ ']' :: (':' :: ' ' :: (m.prot.text ++ [' ']) ++ s) := by
    rw [mmapMiddle, Nat.zero_add, List.drop_one, List.cons_append, List.tail_cons,
      List.append_assoc]
    rfl
  unfold parseMmapRange
  rw [hfind]
  simp only [Option.bind_eq_bind, Option.bind_some]
  rw [hdrop, Text.find_char hclose]
  simp only [Option.bind_some, List.take_left]
  exact range_numbers m

/-- One that does has none, and the path is searched. -/
theorem parseMmapRange_zero (hstart : m.start = 0) (s : List Char) :
    parseMmapRange (mmapMiddle m ++ s) = parseMmapRange s := by
  obtain ⟨rest, hrest, hopen⟩ : ∃ rest, mmapMiddle m = '[' :: '0' :: '(' :: rest ∧
      '[' ∉ '0' :: '(' :: rest := by
    refine ⟨(alternateHex m.len ++ ')' :: ' ' :: '@' :: ' ' :: (alternateHex m.pgoff
      ++ ' ' :: m.backing.text)) ++ ']' :: ':' :: ' ' :: (m.prot.text ++ [' ']), ?_, ?_⟩
    · rw [mmapMiddle, Mapping.range, alternateHex, if_pos hstart]
      rfl
    · have hrange : '[' ∉ m.range := fun hmem => absurd (m.range_chars '[' hmem) (by decide)
      have hprot : '[' ∉ m.prot.text := fun hmem => absurd (m.prot.text_chars '[' hmem) (by decide)
      rw [Mapping.range, alternateHex, if_pos hstart] at hrange
      simp only [List.mem_append, List.mem_cons, List.not_mem_nil, Char.reduceEq, or_false, false_or,
        not_or] at hrange ⊢
      exact ⟨hrange, hprot⟩
  have hno : ¬ "[0x".toList <+: '[' :: ('0' :: '(' :: rest ++ s) := by
    intro hpre
    have hthird := (List.cons_prefix_cons.mp (List.cons_prefix_cons.mp hpre).2).2
    exact absurd (List.cons_prefix_cons.mp hthird).1 (by decide)
  have hfind : Text.find "[0x".toList (mmapMiddle m ++ s) =
      (Text.find "[0x".toList s).map (· + (mmapMiddle m).length) := by
    have hskip : Text.find ('[' :: "0x".toList) ('0' :: '(' :: rest ++ s) =
        (Text.find ('[' :: "0x".toList) s).map (· + ('0' :: '(' :: rest).length) := Text.find_skip hopen
    rw [hrest, List.cons_append, Text.find_cons hno]
    refine (congrArg (Option.map (· + 1)) hskip).trans ?_
    rw [Option.map_map]
    rfl
  exact parseMmapRange_append hfind

/-! ## The path -/

/-- What is behind the last bracket. -/
theorem rsplitOnce_last {p s : List Char} (h : ¬ "]:".toList <:+: s) :
    rsplitOnce "]:".toList (p ++ ("]:".toList ++ ' ' :: s)) = some (p, ' ' :: s) := by
  have hrev : (p ++ ("]:".toList ++ ' ' :: s)).reverse =
      s.reverse ++ ' ' :: (":]".toList ++ p.reverse) := by
    rw [List.reverse_append, List.reverse_append, List.reverse_cons, List.append_assoc,
      List.append_assoc]
    rfl
  have hneedle : "]:".toList.reverse = ":]".toList := rfl
  have hno : ¬ ":]".toList <:+: s.reverse := by
    rw [← hneedle, List.reverse_infix]
    exact h
  have hfind : Text.find ":]".toList (s.reverse ++ ' ' :: (":]".toList ++ p.reverse)) =
      some (s.length + 1) := by
    rw [Text.find_past_mark (by decide) (by decide) hno, Text.find_front (List.prefix_append _ _),
      Option.map_some, Nat.zero_add, List.length_reverse]
  unfold rsplitOnce Text.splitOnce
  rw [hrev, hneedle, hfind, Option.map_some, Option.map_some]
  have htake : (s.reverse ++ ' ' :: (":]".toList ++ p.reverse)).take (s.length + 1) =
      s.reverse ++ [' '] := by
    rw [List.append_cons]
    exact List.take_left' (by rw [List.length_append, List.length_reverse]; rfl)
  have hdrop : (s.reverse ++ ' ' :: (":]".toList ++ p.reverse)).drop
      (s.length + 1 + ":]".toList.length) = p.reverse := by
    rw [List.append_cons, ← List.append_assoc]
    exact List.drop_left' (by rw [List.length_append, List.length_append, List.length_reverse]; rfl)
  rw [htake, hdrop]
  dsimp only
  rw [List.reverse_reverse, List.reverse_append, List.reverse_reverse]
  rfl

/-- A bracket in the path leaves less than the path behind the last one. -/
theorem rsplitOnce_inside {p s : List Char} (h : "]:".toList <:+: s) :
    ∃ l r, rsplitOnce "]:".toList (p ++ s) = some (l, r) ∧ r.length < s.length := by
  have hneedle : "]:".toList.reverse = ":]".toList := rfl
  have hin : ":]".toList <:+: s.reverse := by
    rw [← hneedle, List.reverse_infix]
    exact h
  obtain ⟨i, hfind, hle⟩ := Text.find_of_infix hin p.reverse
  have hlen : i + 2 ≤ s.length := by
    rw [List.length_reverse] at hle
    exact hle
  unfold rsplitOnce Text.splitOnce
  rw [List.reverse_append, hneedle, hfind]
  refine ⟨_, _, rfl, ?_⟩
  rw [List.length_reverse, List.length_take, List.length_append, List.length_reverse]
  omega

theorem prot_solid (p : Prot) : p.text ≠ [] ∧ ∀ c ∈ p.text, isWhitespace c = false := by
  refine ⟨List.cons_ne_nil _ _, fun c hc => ?_⟩
  exact (show ∀ c ∈ "rwxsp-".toList, isWhitespace c = false by decide) c (p.text_chars c hc)

/-- A path without a bracket is read word by word. -/
theorem mmapProtPath_last {p : List Char} (hno : ¬ "]:".toList <:+: m.path.text) :
    mmapProtPath (p ++ ("]:".toList ++ ' ' :: (m.prot.text ++ ' ' :: m.path.text))) =
      (String.ofList m.prot.text, String.ofList (Text.unwords (Text.words m.path.text))) := by
  have hbracket : ¬ "]:".toList <:+: m.prot.text ++ ' ' :: m.path.text := by
    rw [Text.infix_marked_iff (by decide), not_or]
    exact ⟨Text.not_infix_of_mem (c := ':') (by decide) fun hmem =>
      absurd (m.prot.text_chars ':' hmem) (by decide), hno⟩
  have hwords : Text.words (' ' :: (m.prot.text ++ ' ' :: m.path.text)) =
      m.prot.text :: Text.words m.path.text := by
    rw [← List.singleton_append, Text.words_space (by decide),
      Text.words_cons (prot_solid m.prot).1 (prot_solid m.prot).2 (by decide)]
  unfold mmapProtPath
  rw [rsplitOnce_last hbracket]
  dsimp only
  rw [hwords]

theorem length_unwords_tail_le (w : List Char) (ws : List (List Char)) :
    (Text.unwords ws).length ≤ (Text.unwords (w :: ws)).length := by
  by_cases hws : ws = []
  · rw [hws]
    exact Nat.zero_le _
  · rw [Text.unwords_cons w hws, List.length_append, List.length_cons]
    omega

/-- A path with one is not. -/
theorem mmapProtPath_inside {p s : List Char} (hin : "]:".toList <:+: s) :
    (mmapProtPath (p ++ s)).2 ≠ String.ofList s := by
  obtain ⟨l, r, hsplit, hlt⟩ := rsplitOnce_inside (p := p) hin
  have hle := Text.length_unwords_words_le r
  unfold mmapProtPath
  rw [hsplit]
  dsimp only
  cases hwords : Text.words r with
  | nil =>
    intro heq
    have hnil : [] = s := String.ofList_injective heq
    rw [← hnil] at hlt
    exact Nat.not_lt_zero _ hlt
  | cons prot ws =>
    intro heq
    have hsame : Text.unwords ws = s := String.ofList_injective heq
    have htail := length_unwords_tail_le prot ws
    rw [hwords] at hle
    rw [hsame] at htail
    omega

/-- A path that is read has no white space at its end. -/
theorem mmapProtPath_trimEnd (line : List Char) :
    ∃ path, (mmapProtPath line).2 = String.ofList path ∧ Text.trimEnd path = path := by
  unfold mmapProtPath
  split
  next _ after _ =>
    cases hwords : Text.words after with
    | nil => exact ⟨[], rfl, rfl⟩
    | cons prot ws =>
      refine ⟨_, rfl, Text.trimEnd_unwords fun w hw => ?_⟩
      exact Text.of_mem_words (hwords ▸ List.mem_cons_of_mem prot hw)
  next =>
    refine ⟨_, rfl, ?_⟩
    cases hlast : (Text.words line).getLast? with
    | none => rfl
    | some w =>
      obtain ⟨hne, hsolid⟩ := Text.of_mem_words (List.mem_of_getLast? hlast)
      exact Text.trimEnd_append_word [] hne hsolid

/-! ## Mapping records -/

/-- A line that is not too short is read as it stands. -/
theorem trimEnd_mmap {s : List Char} (hs : m.path.text = s) (htrim : Text.trimEnd s = s) :
    Text.trimEnd (printLine h (.mmap2 m)) = printLine h (.mmap2 m) := by
  have hne : s ≠ [] := hs ▸ m.path.ne_nil
  rw [mmap_line, hs, ← List.append_assoc]
  rw [← List.dropLast_append_getLast hne] at htrim ⊢
  rw [← List.append_assoc]
  refine Text.trimEnd_concat ?_
  by_contra hwhite
  rw [Text.trimEnd, List.rdropWhile_concat_pos _ _ _ (by simpa using hwhite)] at htrim
  have hlen := congrArg List.length htrim
  have hle := (List.rdropWhile_prefix isWhitespace s.dropLast).length_le
  rw [List.length_append, List.length_singleton] at hlen
  omega

theorem mmap_task : ∃ tail, printLine h (.mmap2 m) = h.text ++ [':', ' '] ++
    ("PERF_RECORD_MMAP".toList ++ (['2', ' '] ++ (m.task.text ++ ':' :: tail))) := by
  refine ⟨' ' :: '[' :: (m.range ++ ']' :: ':' :: ' ' :: (m.prot.text ++ ' ' :: m.path.text)), ?_⟩
  have hkind : "PERF_RECORD_MMAP2 ".toList = "PERF_RECORD_MMAP".toList ++ ['2', ' '] := by decide
  unfold printLine Event.text
  dsimp only
  rw [hkind]
  generalize "PERF_RECORD_MMAP".toList = kind
  simp only [List.append_assoc, List.cons_append, List.nil_append]

/-- The task is the one behind the record's name. -/
theorem mmap_ids : ((secondPart "PERF_RECORD_MMAP".toList (printLine h (.mmap2 m))).bind fun after =>
    splitPidTid (Text.trimStartChar '2' after)).map (fun r => (r.1, r.2.1)) =
      some (m.task.pid, m.task.tid) := by
  obtain ⟨tail, htail⟩ := mmap_task h m
  have hkind : "PERF_RECORD_MMAP".toList = 'P' :: "ERF_RECORD_MMAP".toList := by decide
  have hp : 'P' ∉ h.text ++ [':', ' '] := by
    rw [List.mem_append, not_or]
    exact ⟨fun hmem => absurd (h.text_column 'P' hmem) (by decide), by decide⟩
  have hp' : 'P' ∉ ['2', ' '] ++ (m.task.text ++ [':']) := by
    rw [List.mem_append, List.mem_append, not_or, not_or]
    exact ⟨by decide, fun hmem => absurd (m.task.text_column 'P' hmem) (by decide), by decide⟩
  rw [htail, hkind]
  generalize "ERF_RECORD_MMAP".toList = needle
  have hassoc : ['2', ' '] ++ (m.task.text ++ ':' :: tail) =
      ['2', ' '] ++ (m.task.text ++ [':']) ++ tail := by
    simp only [List.append_assoc, List.cons_append, List.nil_append]
  have hstart : ∀ s, Text.trimStartChar '2' (['2', ' '] ++ (m.task.text ++ [':']) ++ s) =
      ' ' :: (m.task.text ++ (':' :: s)) := by
    intro s
    rw [Text.trimStartChar, List.append_assoc, List.append_assoc, List.cons_append,
      List.dropWhile_cons_of_pos (by decide), List.cons_append,
      List.dropWhile_cons_of_neg (by decide)]
    rfl
  rw [secondPart_skip hp, Option.bind_some, hassoc, firstPart_skip hp', hstart,
    splitPidTid_skip (by decide), splitPidTid_task]
  · rfl
  · rintro _ ⟨⟩
    rfl

/-- A mapping line is read where its range is. -/
theorem parseMmap_line : parseMmap (printLine h (.mmap2 m)) =
    (parseMmapRange (printLine h (.mmap2 m))).elim
      (.error (.decodeFailed ("mmap range missing: " ++ String.ofList (printLine h (.mmap2 m)))))
      fun range => .ok ⟨m.task.pid, m.task.tid, h.timeNs, range.1, range.2.1, range.2.2,
        (mmapProtPath (printLine h (.mmap2 m))).1, (mmapProtPath (printLine h (.mmap2 m))).2⟩ := by
  obtain ⟨⟨pid, tid, rest⟩, hbind, hids⟩ := Option.map_eq_some_iff.mp (mmap_ids h m)
  obtain ⟨rfl, rfl⟩ := Prod.mk.inj hids
  obtain ⟨last, htime⟩ := takeTime_columns h (Event.mmap2 m).text
  have hsplit : splitPidTid (printLine h (.mmap2 m)) = some (h.sampled.pid, h.sampled.tid,
      List.replicate (h.gap + 1) ' ' ++ (h.cpuText ++ (h.timeText
        ++ ':' :: ' ' :: (Event.mmap2 m).text))) := splitPidTid_columns h
  generalize printLine h (.mmap2 m) = line at hbind hsplit
  unfold parseMmap
  rw [hsplit]
  simp only [Option.getD_some, takeCpu_columns, htime, hbind, Option.map_some, nonzeroTime_columns]
  cases parseMmapRange line with
  | none => rfl
  | some range => rfl

/-- The bracket and what follows it, for the search from the end. -/
theorem mmap_bracket : ∃ p, printLine h (.mmap2 m) =
    p ++ ("]:".toList ++ ' ' :: (m.prot.text ++ ' ' :: m.path.text)) := by
  refine ⟨mmapFront h m ++ '[' :: m.range, ?_⟩
  rw [mmap_line, mmapMiddle, show "]:".toList = [']', ':'] from rfl]
  generalize mmapFront h m = front
  simp only [List.append_assoc, List.cons_append, List.nil_append]

/-- The path of a mapping line is read word by word, up to a bracket in it. -/
theorem mmapPath_iff : (mmapProtPath (printLine h (.mmap2 m))).2 = String.ofList m.path.text ↔
    Text.unwords (Text.words m.path.text) = m.path.text ∧ ¬ "]:".toList <:+: m.path.text := by
  by_cases hin : "]:".toList <:+: m.path.text
  · have hne := mmapProtPath_inside (p := mmapFront h m ++ mmapMiddle m) hin
    rw [List.append_assoc, ← mmap_line] at hne
    exact ⟨fun heq => absurd heq hne, fun hand => absurd hin hand.2⟩
  · obtain ⟨p, hp⟩ := mmap_bracket h m
    rw [hp, mmapProtPath_last m hin]
    exact ⟨fun heq => ⟨String.ofList_injective heq, hin⟩, fun hand => congrArg String.ofList hand.1⟩

/-- A mapping that starts at 0 has its range searched for in the path. -/
theorem mmapRange_iff : parseMmapRange (printLine h (.mmap2 m)) =
      some (m.start.toNat, m.len.toNat, m.pgoff.toNat) ↔
    m.start ≠ 0 ∨ parseMmapRange m.path.text = some (0, m.len.toNat, m.pgoff.toNat) := by
  rw [mmap_line, parseMmapRange_front]
  by_cases hstart : m.start = 0
  · rw [parseMmapRange_zero m hstart, hstart]
    exact (or_iff_right fun hne => hne rfl).symm
  · exact ⟨fun _ => .inl hstart, fun _ => parseMmapRange_middle m hstart _⟩

/-- What makes a mapping line something else. -/
def Misread (path : List Char) : Prop :=
  "instruction trace error".toList <:+: path ∨ "insn trace error".toList <:+: path ∨
    "PERF_RECORD_LOST".toList <:+: path ∨ SaysLost path

instance (path : List Char) : Decidable (Misread path) := inferInstanceAs (Decidable (_ ∨ _))

theorem parseLineSlow_mmap :
    (¬ Misread m.path.text → parseLineSlow (printLine h (.mmap2 m)) =
        (parseMmap (printLine h (.mmap2 m))).map fun m => some (.mmap m)) ∧
      (Misread m.path.text → ∀ m', parseLineSlow (printLine h (.mmap2 m)) ≠ .ok (some (.mmap m'))) := by
  have hword : ∀ k ∈ ["instruction trace error", "insn trace error", "PERF_RECORD_LOST", "LOST"],
      Text.contains k.toList (printLine h (.mmap2 m)) = decide (k.toList <:+: m.path.text) := by
    intro k hk
    have hmarked : ∀ k ∈ ["instruction trace error", "insn trace error", "PERF_RECORD_LOST", "LOST"],
        ':' ∉ k.toList ∧ (∃ x ∈ k.toList, x ∉ columnChars ∧ x ∉ "PERF_RECORD_MMAP2".toList ∧
          x ∉ rangeChars) ∧ ∃ n ∈ ['i', 'P', 'L'], k.toList.head? = some n := by decide
    have hletter : ∀ n ∈ ['i', 'P', 'L'], n ≠ ' ' ∧ n ∉ "rwxsp-".toList := by decide
    obtain ⟨hcolon, ⟨x, hx, hcol, hname, hrange⟩, n, hn, hhead⟩ := hmarked k hk
    rw [Bool.eq_iff_iff, Text.contains_iff, infix_mmap_iff h m hcolon hx hcol hname hrange,
      decide_eq_true_iff]
    cases htext : k.toList with
    | nil =>
      rw [htext] at hhead
      cases hhead
    | cons c cs =>
      rw [htext] at hhead
      cases hhead
      exact infix_path_iff m (hletter _ hn).1 (hletter _ hn).2
  have hlost : Text.contains " lost ".toList (printLine h (.mmap2 m)) =
      decide (" lost ".toList <:+: ' ' :: m.path.text) := by
    rw [Bool.eq_iff_iff, Text.contains_iff, infix_mmap_iff h m (x := 'l') (by decide) (by decide)
      (by decide) (by decide) (by decide), infix_lost_iff, decide_eq_true_iff]
  have hkind : Text.contains "PERF_RECORD_MMAP".toList (printLine h (.mmap2 m)) = true := by
    obtain ⟨tail, htail⟩ := mmap_task h m
    rw [Text.contains_iff, htail]
    exact (List.prefix_append _ _).isInfix.trans List.infix_append_right
  have h1 := hword "instruction trace error" (by decide)
  have h2 := hword "insn trace error" (by decide)
  have h3 := hword "PERF_RECORD_LOST" (by decide)
  have h4 := hword "LOST" (by decide)
  generalize printLine h (.mmap2 m) = line at h1 h2 h3 h4 hlost hkind
  unfold parseLineSlow Misread SaysLost
  simp only [h1, h2, h3, h4, hlost, hkind, Bool.or_eq_true, Bool.and_eq_true, decide_eq_true_eq]
  constructor
  · intro hno
    rw [not_or, not_or, not_or] at hno
    rw [if_neg (not_or.mpr ⟨hno.1, hno.2.1⟩), if_neg (not_or.mpr hno.2.2)]
    rfl
  · intro hany m' heq
    split at heq
    next => cases heq
    next herr =>
      split at heq
      next => cases heq
      next hno =>
        rcases hany with hany | hany | hany
        · exact herr (.inl hany)
        · exact herr (.inr hany)
        · exact hno hany

/-- A mapping is read by `parse_mmap` only. -/
theorem parseLineSlow_eq_mmap {line : List Char} {e : MmapEvent}
    (hr : parseLineSlow line = .ok (some (.mmap e))) : parseMmap line = .ok e := by
  have hmap : (parseMmap line).map (fun m => some (RawRecord.mmap m)) = .ok (some (.mmap e)) →
      parseMmap line = .ok e := by
    cases parseMmap line with
    | error err =>
      intro heq
      cases heq
    | ok e' =>
      intro heq
      cases heq
      rfl
  have htask : ∀ kind, (parseTask line kind).map (fun t => some (RawRecord.task t)) ≠
      .ok (some (.mmap e)) := by
    intro kind heq
    cases hparse : parseTask line kind with
    | error err =>
      rw [hparse] at heq
      cases heq
    | ok t =>
      rw [hparse] at heq
      cases heq
  -- the kinds, in the order in which a line is searched for them
  unfold parseLineSlow at hr
  dsimp only at hr
  split at hr
  next => cases hr
  split at hr
  next => cases hr
  split at hr
  next => exact hmap hr
  split at hr
  next => exact absurd hr (htask _)
  split at hr
  next => exact absurd hr (htask _)
  split at hr
  next => exact absurd hr (htask _)
  split at hr
  next =>
    exfalso
    unfold parseSwitch at hr
    cases hsplit : splitPidTid line with
    | none =>
      rw [hsplit] at hr
      cases hr
    | some ids =>
      rw [hsplit] at hr
      dsimp only at hr
      cases htime : takeTime (takeCpu ids.2.2).2 with
      | error err =>
        rw [htime] at hr
        cases hr
      | ok time =>
        rw [htime] at hr
        cases hr
  next =>
    unfold parseSampleLine at hr
    cases hsplit : splitPidTid line with
    | none =>
      rw [hsplit] at hr
      cases hr
    | some ids =>
      rw [hsplit] at hr
      dsimp only at hr
      cases htime : takeTime (takeCpu ids.2.2).2 with
      | error err =>
        rw [htime] at hr
        cases hr
      | ok time =>
        rw [htime] at hr
        simp only [bind, Except.bind] at hr
        split at hr
        next => cases hr
        next =>
          split at hr
          next => exact hmap hr
          next => cases hr

/-- The path of a mapping is what `mmap_prot_path` finds. -/
theorem parseMmap_path {line : List Char} {e : MmapEvent} (hr : parseMmap line = .ok e) :
    e.path = (mmapProtPath line).2 := by
  unfold parseMmap at hr
  dsimp only at hr
  split at hr
  next => cases hr
  next =>
    cases hr
    rfl

/-- A path that is read has no white space at its end. -/
theorem parseLine_mmap_path {line path : List Char} {pid tid start len pgoff : Nat}
    {timeNs : Option Nat} {prot : String} (hr : parseLine line =
      .ok (some (.mmap ⟨pid, tid, timeNs, start, len, pgoff, prot, String.ofList path⟩))) :
    Text.trimEnd path = path := by
  unfold parseLine at hr
  dsimp only at hr
  split at hr
  next => cases hr
  next =>
    split at hr
    next => cases hr
    next =>
      generalize Text.trimEnd line = line at hr
      obtain ⟨read, heq, htrim⟩ := mmapProtPath_trimEnd line
      rw [← parseMmap_path (parseLineSlow_eq_mmap hr)] at heq
      rwa [String.ofList_injective heq]

/-- A mapping record is read back exactly if its path is readable. -/
theorem readsBack_mmap : ReadsBack h (.mmap2 m) ↔ Readable h (.mmap2 m) := by
  have hslow := parseLineSlow_mmap h m
  have hrec : ∃ s, (Event.mmap2 m).text = 'P' :: s := ⟨_, rfl⟩
  have hline : Text.trimEnd m.path.text = m.path.text → parseLine (printLine h (.mmap2 m)) =
      parseLineSlow (printLine h (.mmap2 m)) :=
    fun htrim => parseLine_columns h hrec (trimEnd_mmap h m rfl htrim)
  have hreadable : Readable h (.mmap2 m) ↔
      (Text.unwords (Text.words m.path.text) = m.path.text ∧ ¬ "]:".toList <:+: m.path.text) ∧
        ¬ Misread m.path.text ∧
        (m.start ≠ 0 ∨ parseMmapRange m.path.text = some (0, m.len.toNat, m.pgoff.toNat)) := by
    unfold Readable Misread
    simp only [not_or, and_assoc]
  rw [hreadable, ← mmapPath_iff h m, ← mmapRange_iff h m]
  constructor
  · rintro ⟨r, hr, prot, rfl⟩
    have htrim : Text.trimEnd m.path.text = m.path.text := parseLine_mmap_path hr
    rw [hline htrim] at hr
    have hno : ¬ Misread m.path.text := fun hany => hslow.2 hany _ hr
    rw [hslow.1 hno, parseMmap_line] at hr
    cases hrange : parseMmapRange (printLine h (.mmap2 m)) with
    | none =>
      rw [hrange] at hr
      cases hr
    | some range =>
      obtain ⟨start, len, pgoff⟩ := range
      rw [hrange] at hr
      have heq := RawRecord.mmap.inj (Option.some.inj (Except.ok.inj hr))
      injection heq with _ _ _ hstart hlen hpgoff _ hpath
      dsimp only at hstart hlen hpgoff
      exact ⟨hpath, hno, by rw [hstart, hlen, hpgoff]⟩
  · rintro ⟨hpath, hno, hrange⟩
    have htrim : Text.trimEnd m.path.text = m.path.text := by
      obtain ⟨path, heq, htrim⟩ := mmapProtPath_trimEnd (printLine h (.mmap2 m))
      rw [hpath] at heq
      rwa [String.ofList_injective heq]
    rw [ReadsBack, hline htrim, hslow.1 hno, parseMmap_line, hrange, hpath]
    exact ⟨_, rfl, _, rfl⟩

end MmapLine

/-- What the parser reads is what was printed, exactly for the readable events. -/
theorem readsBack_iff (h : Columns) (e : Event) : ReadsBack h e ↔ Readable h e := by
  cases e with
  | comm task exec name => exact readsBack_comm h task exec name
  | fork child parent =>
    exact iff_of_true ⟨_, parseLine_pairs h child parent (.inl ⟨rfl, rfl⟩), rfl⟩ trivial
  | exit task parent =>
    exact iff_of_true ⟨_, parseLine_pairs h task parent (.inr ⟨rfl, rfl⟩), rfl⟩ trivial
  | mmap2 m => exact readsBack_mmap h m

end TraceMcp.Decode.Sideband
