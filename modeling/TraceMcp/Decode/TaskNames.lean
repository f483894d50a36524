import TraceMcp.Decode.Sideband

/-!
# Task names

A name record copies the name between two colons, with the task's ids behind
the second. The ids are searched for in all that follows the record's name, so
that a number before a slash in the name is taken for them, and the name ends at
its first colon: `readsBack_comm` says which names are read back.
-/

namespace TraceMcp.Decode.Sideband

open TraceMcp.Lib

/-! ## Numbers in a name -/

section Scan

open PerfScript

variable {ds es rest s p : List Char}

/-- The value of a character that is a digit. -/
theorem toDigit_of_isDigit {c : Char} (h : c.isDigit = true) :
    Text.toDigit 10 c = some (c.toNat - 48) := by
  simp only [Char.isDigit, Bool.and_eq_true, decide_eq_true_eq] at h
  have hle : '0' ≤ c ∧ c ≤ '9' := h
  have hlt : c.toNat - 48 < 10 := by
    have hnine : c.toNat ≤ 57 := UInt32.le_iff_toNat_le.mp h.2
    omega
  unfold Text.toDigit
  dsimp only
  rw [if_pos hle]
  exact Option.filter_some_pos (decide_eq_true hlt)

theorem mapM_digits (h : ∀ c ∈ ds, c.isDigit = true) :
    ds.mapM (Text.toDigit 10) = some (ds.map fun c => c.toNat - 48) := by
  induction ds with
  | nil => rfl
  | cons c ds ih =>
    rw [List.mapM_cons, toDigit_of_isDigit (h c List.mem_cons_self),
      ih fun d hd => h d (List.mem_cons_of_mem _ hd)]
    rfl

/-- The number a run of digits writes. -/
def runValue (ds : List Char) : Nat := Text.digitsValue 10 (ds.map fun c => c.toNat - 48)

theorem parseU32_digits (h : Digits ds) :
    Text.parseU32 ds = (some (runValue ds)).filter (· < 2 ^ 32) := by
  have hplus : ds.head? ≠ some '+' := by
    intro hhead
    cases h.digit _ (List.mem_of_head? hhead)
  unfold Text.parseU32 Text.fromStrRadix
  dsimp only
  rw [if_neg hplus, if_neg h.ne_nil, mapM_digits h.digit]
  rfl

/-- More digits in front make no smaller number. -/
theorem runValue_le (ds es : List Char) : runValue es ≤ runValue (ds ++ es) := by
  have hmono : ∀ (ns : List Nat) (v w : Nat), v ≤ w →
      ns.foldl (fun v d => v * 10 + d) v ≤ ns.foldl (fun v d => v * 10 + d) w := by
    intro ns
    induction ns with
    | nil => exact fun v w h => h
    | cons n ns ih => exact fun v w h => ih _ _ (show v * 10 + n ≤ w * 10 + n by omega)
  unfold runValue Text.digitsValue
  rw [List.map_append, List.foldl_append]
  exact hmono _ _ _ (Nat.zero_le _)

/-- A number whose end is out of range is out of range. -/
theorem parseU32_append_none (hds : ∀ c ∈ ds, c.isDigit = true) (hes : Digits es)
    (h : Text.parseU32 es = none) : Text.parseU32 (ds ++ es) = none := by
  have hboth : Digits (ds ++ es) := by
    refine ⟨fun hnil => hes.ne_nil (List.append_eq_nil_iff.mp hnil).2, fun c hc => ?_⟩
    exact (List.mem_append.mp hc).elim (hds c) (hes.digit c)
  rw [parseU32_digits hes, Option.filter_eq_none_iff] at h
  rw [parseU32_digits hboth, Option.filter_eq_none_iff]
  intro v hv
  cases hv
  have hlarge := h (runValue es) rfl
  have hle := runValue_le ds es
  simp only [decide_eq_true_eq, Nat.not_lt] at hlarge ⊢
  omega

theorem holdsPid_cons {c : Char} (hc : c.isDigit = false) : HoldsPid (c :: s) ↔ HoldsPid s := by
  constructor
  · rintro ⟨ds, after, hsuf, hne, hdigit, hbad⟩
    rcases List.suffix_cons_iff.mp hsuf with heq | hsuf
    · cases ds with
      | nil => exact absurd rfl hne
      | cons d ds =>
        have hd := hdigit d List.mem_cons_self
        rw [(List.cons.inj heq).1, hc] at hd
        cases hd
    · exact ⟨ds, after, hsuf, hne, hdigit, hbad⟩
  · rintro ⟨ds, after, hsuf, hrest⟩
    exact ⟨ds, after, hsuf.trans (List.suffix_cons c s), hrest⟩

/-- A run of digits is judged as a whole. -/
theorem holdsPid_run (hds : Digits ds) (hrest : ∀ c ∈ rest.head?, c.isDigit = false) :
    HoldsPid (ds ++ rest) ↔
      (∃ after, rest = '/' :: after ∧
        ((∃ c ∈ after.head?, c.isDigit = true) ∨ Text.parseU32 ds = none)) ∨ HoldsPid rest := by
  constructor
  · rintro ⟨es, after, ⟨pre, heq⟩, hne, hdigit, hbad⟩
    rcases List.append_eq_append_iff.mp heq with ⟨x, hx, hy⟩ | ⟨x, hx, hy⟩
    · -- the slash is the one behind the run
      have hxdigit : ∀ c ∈ x, c.isDigit = true := fun c hc =>
        hds.digit c (hx ▸ List.mem_append_right pre hc)
      have hslash : ∀ c ∈ ('/' :: after).head?, c.isDigit = false := by
        rintro _ ⟨⟩
        rfl
      have hex : es = x := by
        rw [← takeWhile_digits hdigit hslash, hy, takeWhile_digits hxdigit hrest]
      subst hex
      refine .inl ⟨after, (List.append_cancel_left hy).symm, hbad.imp_right fun hnone => ?_⟩
      rw [hx]
      exact parseU32_append_none (fun c hc => hds.digit c (hx ▸ List.mem_append_left es hc))
        ⟨hne, hdigit⟩ hnone
    · exact .inr ⟨es, after, ⟨x, hy.symm⟩, hne, hdigit, hbad⟩
  · rintro (⟨after, rfl, hbad⟩ | ⟨es, after, hsuf, hmore⟩)
    · exact ⟨ds, after, List.suffix_refl _, hds.ne_nil, hds.digit, hbad⟩
    · exact ⟨es, after, hsuf.trans (List.suffix_append ds rest), hmore⟩

/-- A text is empty, starts with no digit, or with a run of digits. -/
theorem digit_cases (s : List Char) :
    s = [] ∨ (∃ c t, s = c :: t ∧ c.isDigit = false) ∨
      ∃ ds rest, s = ds ++ rest ∧ Digits ds ∧ ∀ c ∈ rest.head?, c.isDigit = false := by
  cases s with
  | nil => exact .inl rfl
  | cons c t =>
    refine .inr ?_
    cases hc : c.isDigit with
    | false => exact .inl ⟨c, t, rfl, hc⟩
    | true =>
      refine .inr ⟨(c :: t).takeWhile Char.isDigit, (c :: t).dropWhile Char.isDigit,
        List.takeWhile_append_dropWhile.symm, ⟨?_, fun d hd => List.mem_takeWhile_imp hd⟩, ?_⟩
      · rw [List.takeWhile_cons_of_pos hc]
        exact List.cons_ne_nil _ _
      · intro d hd
        have hnot := List.head?_dropWhile_not Char.isDigit (c :: t)
        rw [Option.mem_def.mp hd] at hnot
        simpa using hnot

/-- Up to the task at the end, a name is scanned for a pid: the task is read if
the name holds none, and else what the name alone gives. -/
theorem splitPidTid_name (t : Task) (name : List Char) :
    (¬ HoldsPid name → splitPidTid (name ++ ':' :: t.text) = some (t.pid, t.tid, [])) ∧
      (HoldsPid name → (splitPidTid (name ++ ':' :: t.text)).map (fun r => (r.1, r.2.1)) =
        (splitPidTid name).map fun r => (r.1, r.2.1)) := by
  have htask : splitPidTid t.text = some (t.pid, t.tid, []) := by
    have hread := @splitPidTid_task [] t fun c hc => by cases hc
    rwa [List.append_nil] at hread
  have hempty : ¬ HoldsPid [] := by
    rintro ⟨ds, after, hsuf, -⟩
    exact List.cons_ne_nil _ _ (List.append_eq_nil_iff.mp (List.suffix_nil.mp hsuf)).2
  induction hlen : name.length using Nat.strong_induction_on generalizing name with
  | _ n ih =>
  rcases digit_cases name with rfl | ⟨c, s, rfl, hc⟩ | ⟨ds, rest, rfl, hds, hrest⟩
  · refine ⟨fun _ => ?_, fun h => absurd h hempty⟩
    rw [List.nil_append, splitPidTid_skip (by decide), htask]
  · rw [holdsPid_cons hc, List.cons_append, splitPidTid_skip hc, splitPidTid_skip hc]
    exact ih s.length (by rw [← hlen]; exact Nat.lt_succ_self _) s rfl
  · have hpos := List.length_pos_of_ne_nil hds.ne_nil
    rw [List.length_append] at hlen
    rw [holdsPid_run hds hrest, List.append_assoc]
    have hcolon : ∀ c ∈ (':' :: t.text).head?, c.isDigit = false := by
      rintro _ ⟨⟩
      rfl
    cases rest with
    | nil =>
      refine ⟨fun _ => ?_, fun h => ?_⟩
      · rw [List.nil_append, splitPidTid_number hds hcolon (by rintro _ ⟨⟩; decide), List.tail_cons,
          htask]
      · rcases h with ⟨after, hnil, -⟩ | h
        · cases hnil
        · exact absurd h hempty
    | cons x r =>
      have hx : x.isDigit = false := hrest x rfl
      rw [List.length_cons] at hlen
      by_cases hslash : x = '/'
      · subst hslash
        rw [holdsPid_cons hx, List.cons_append]
        -- what stands behind the slash
        rcases digit_cases r with rfl | ⟨c, s, rfl, hc⟩ | ⟨es, r', rfl, hes, hr'⟩
        · rw [List.nil_append, splitPidTid_slash hds hcolon,
            splitPidTid_slash hds fun c hc => by cases hc]
          cases hparse : Text.parseU32 ds with
          | none =>
            refine ⟨fun h => absurd (.inl ⟨[], rfl, .inr rfl⟩) h, fun _ => rfl⟩
          | some v =>
            refine ⟨fun _ => htask, fun h => ?_⟩
            rcases h with ⟨after, heq, ⟨c, hc, -⟩ | hnone⟩ | h
            · rw [← (List.cons.inj heq).2] at hc
              cases hc
            · cases hnone
            · exact absurd h hempty
        · have hhead : ∀ d ∈ (c :: s).head?, d.isDigit = false := by
            rintro _ ⟨⟩
            exact hc
          have hhead' : ∀ d ∈ (c :: s ++ ':' :: t.text).head?, d.isDigit = false := by
            rintro _ ⟨⟩
            exact hc
          rw [splitPidTid_slash hds hhead', splitPidTid_slash hds hhead, holdsPid_cons hc]
          rw [List.length_cons] at hlen
          cases hparse : Text.parseU32 ds with
          | none => exact ⟨fun h => absurd (.inl ⟨_, rfl, .inr rfl⟩) h, fun _ => rfl⟩
          | some v =>
            have hno : ¬ ∃ after, '/' :: c :: s = '/' :: after ∧
                ((∃ c ∈ after.head?, c.isDigit = true) ∨ some v = none) := by
              rintro ⟨after, heq, ⟨d, hd, hdigit⟩ | hnone⟩
              · rw [← (List.cons.inj heq).2] at hd
                rw [hhead d hd] at hdigit
                cases hdigit
              · cases hnone
            rw [or_iff_right hno]
            exact ih s.length (by omega) s rfl
        · have hhead : ∀ d ∈ (r' ++ ':' :: t.text).head?, d.isDigit = false := by
            cases r' with
            | nil => exact hcolon
            | cons d r' =>
              rintro _ ⟨⟩
              exact hr' d rfl
          rw [List.append_assoc, splitPidTid_pair hds hes hhead, splitPidTid_pair hds hes hr']
          obtain ⟨e, es', rfl, he⟩ := hes.cons
          refine ⟨fun h => absurd (.inl ⟨_, rfl, .inl ⟨e, rfl, he⟩⟩) h, fun _ => ?_⟩
          cases Text.parseU32 ds with
          | none => rfl
          | some v => cases Text.parseU32 (e :: es') <;> rfl
      · have hnum : ∀ q, splitPidTid (ds ++ x :: q) = splitPidTid q := fun q =>
          splitPidTid_number hds (by rintro _ ⟨⟩; exact hx) (by rintro _ ⟨⟩; exact hslash)
        have hno : ¬ ∃ after, x :: r = '/' :: after ∧
            ((∃ c ∈ after.head?, c.isDigit = true) ∨ Text.parseU32 ds = none) := by
          rintro ⟨after, heq, -⟩
          exact hslash (List.cons.inj heq).1
        rw [or_iff_right hno, holdsPid_cons hx, List.cons_append, hnum, hnum]
        exact ih r.length (by omega) r rfl

end Scan

/-! ## The name of a name record -/

section Names

open PerfScript

variable {p s needle : List Char}

theorem trimStart_append_cons {c : Char} (hc : isWhitespace c = false) (p s : List Char) :
    Text.trimStart (p ++ c :: s) = Text.trimStart p ++ c :: s := by
  induction p with
  | nil => exact Text.trimStart_of_cons hc
  | cons x p ih =>
    cases hx : isWhitespace x with
    | true =>
      rw [List.cons_append, Text.trimStart, List.dropWhile_cons_of_pos hx, Text.trimStart,
        List.dropWhile_cons_of_pos hx]
      exact ih
    | false => rw [List.cons_append, Text.trimStart_of_cons hx, Text.trimStart_of_cons hx]; rfl

theorem trimStart_of_trim (h : Text.trim s = s) : Text.trimStart s = s := by
  have hlen : (Text.trim s).length ≤ (Text.trimStart s).length :=
    (List.rdropWhile_prefix isWhitespace _).length_le
  rw [h] at hlen
  exact (List.dropWhile_suffix isWhitespace).eq_of_length_le hlen

theorem trim_trimStart (s : List Char) : Text.trim (Text.trimStart s) = Text.trim s := by
  unfold Text.trim Text.trimStart
  rw [List.dropWhile_idempotent]

/-- What stands before a mark. -/
theorem firstPart_char {c : Char} (h : c ∉ p) : firstPart [c] (p ++ c :: s) = p := by
  rw [firstPart, Text.splitOnce_char h]
  rfl

theorem notMem_firstPart (c : Char) (s : List Char) : c ∉ firstPart [c] s := by
  by_cases hc : c ∈ s
  · obtain ⟨p, q, rfl, hp⟩ := List.eq_append_cons_of_mem hc
    rwa [firstPart_char hp]
  · rwa [firstPart_of_absent fun hin => hc ((List.singleton_infix_iff c s).mp hin)]

/-- A number is no white space at its end. -/
theorem trimEnd_task (t : Task) (s : List Char) : Text.trimEnd (s ++ t.text) = s ++ t.text := by
  rw [Task.text, List.append_cons, ← List.append_assoc]
  exact Text.trimEnd_append_word _ digits_decimal.ne_nil fun c hc =>
    not_whitespace_of_digit (digits_decimal.digit c hc)

/-- The words behind `PERF_RECORD_COMM`, up to the name. -/
def commTail (exec : Bool) (name : List Char) (t : Task) : List Char :=
  (if exec then " exec".toList else []) ++ ':' :: ' ' :: (name ++ ':' :: t.text)

/-- A name is cut at its first colon and trimmed. -/
theorem commName_tail (exec : Bool) (name : List Char) (t : Task) :
    Text.trim (Text.trimStartChar ':' (trimStartText "exec:".toList (Text.trim
      (commTail exec name t)))) = Text.trimStart name ++ ':' :: t.text := by
  have hblank : Text.trim (' ' :: (name ++ ':' :: t.text)) = Text.trimStart name ++ ':' :: t.text := by
    rw [Text.trim, ← List.singleton_append, Text.trimStart_append (by decide),
      trimStart_append_cons (by decide), List.append_cons]
    exact trimEnd_task t _
  have hend : ∀ q : List Char, Text.trimEnd (q ++ ':' :: ' ' :: (name ++ ':' :: t.text)) =
      q ++ ':' :: ' ' :: (name ++ ':' :: t.text) := by
    intro q
    rw [show q ++ ':' :: ' ' :: (name ++ ':' :: t.text) =
      (q ++ ':' :: ' ' :: (name ++ [':'])) ++ t.text by simp]
    exact trimEnd_task t _
  have hno : ∀ (c : Char) (q : List Char), c ≠ 'e' →
      trimStartText "exec:".toList (c :: q) = c :: q := by
    intro c q hc
    rw [trimStartText, dif_neg]
    rintro ⟨-, hpre⟩
    exact hc (List.cons_prefix_cons.mp hpre).1.symm
  cases exec with
  | false =>
    have htrim : Text.trim (':' :: ' ' :: (name ++ ':' :: t.text)) =
        ':' :: ' ' :: (name ++ ':' :: t.text) := by
      rw [Text.trim, Text.trimStart_of_cons (by decide)]
      exact hend []
    rw [show commTail false name t = ':' :: ' ' :: (name ++ ':' :: t.text) from rfl, htrim,
      hno ':' _ (by decide), Text.trimStartChar, List.dropWhile_cons_of_pos (by decide),
      List.dropWhile_cons_of_neg (by decide)]
    exact hblank
  | true =>
    have hdrop : trimStartText "exec:".toList
        ("exec".toList ++ ':' :: ' ' :: (name ++ ':' :: t.text)) = ' ' :: (name ++ ':' :: t.text) := by
      rw [trimStartText, dif_pos ⟨by decide, ⟨_, rfl⟩⟩]
      exact hno ' ' _ (by decide)
    have htrim : Text.trim ([' '] ++ ("exec".toList ++ ':' :: ' ' :: (name ++ ':' :: t.text))) =
        "exec".toList ++ ':' :: ' ' :: (name ++ ':' :: t.text) := by
      rw [Text.trim, Text.trimStart_append (by decide)]
      exact (congrArg Text.trimEnd (Text.trimStart_of_cons (by decide))).trans (hend "exec".toList)
    rw [show commTail true name t = [' '] ++ ("exec".toList ++ ':' :: ' ' :: (name ++ ':' :: t.text))
      from rfl, htrim, hdrop, Text.trimStartChar, List.dropWhile_cons_of_neg (by decide)]
    exact hblank

/-- The name that is read is the name of the record exactly if it has no colon
and no white space at its ends. -/
theorem commName_iff {line : List Char} (exec : Bool) (name : Name) (t : Task)
    (hline : secondPart "PERF_RECORD_COMM".toList line = some (commTail exec name.text t)) :
    commName line = some (String.ofList name.text) ↔
      ':' ∉ name.text ∧ Text.trim name.text = name.text := by
  unfold commName
  rw [hline, Option.bind_some]
  dsimp only
  rw [commName_tail]
  constructor
  · intro h
    split at h
    next => cases h
    next =>
      have hname := String.ofList_injective (Option.some.inj h)
      have hcolon : ':' ∉ name.text := by
        rw [← hname]
        intro hmem
        exact notMem_firstPart ':' _ (((List.rdropWhile_prefix _ _).isInfix.trans
          (List.dropWhile_suffix _).isInfix).subset hmem)
      -- the name has no colon, so none is in what is left of it
      have hstart : ':' ∉ Text.trimStart name.text := fun hmem =>
        hcolon ((List.dropWhile_suffix _).subset hmem)
      rw [firstPart_char hstart, trim_trimStart] at hname
      exact ⟨hcolon, hname⟩
  · rintro ⟨hcolon, htrim⟩
    rw [trimStart_of_trim htrim, firstPart_char hcolon, htrim, if_neg name.ne_nil]

end Names

/-! ## Name records -/

section CommLine

open PerfScript

variable (h : Columns) (t : Task) (exec : Bool) (name : Name)

/-- What a name record is called. -/
def commKind (exec : Bool) : String := if exec then "PERF_RECORD_COMM exec" else "PERF_RECORD_COMM"

theorem comm_text : (Event.comm t exec name).text =
    (commKind exec).toList ++ ':' :: ' ' :: (name.text ++ ':' :: t.text) := rfl

theorem commKind_tail : (Event.comm t exec name).text =
    "PERF_RECORD_COMM".toList ++ commTail exec name.text t := by
  cases exec <;> rfl

/-- Its words are the record's, or the name's. -/
theorem infix_comm_iff {k : String} (hk : k ∈ keywords) :
    k.toList <:+: printLine h (.comm t exec name) ↔
      k.toList <:+: ' ' :: (commKind exec).toList ∨ k.toList <:+: ' ' :: name.text := by
  obtain ⟨hcolon, -, x, hx, hcol, -⟩ := keywords_marked k hk
  have htask : ¬ k.toList <:+: t.text :=
    Text.not_infix_of_mem hx fun hmem => hcol (t.text_column x hmem)
  rw [printLine, infix_columns_iff h hk, comm_text, ← List.cons_append, Text.infix_marked_iff hcolon,
    ← List.cons_append, Text.infix_marked_iff hcolon, or_iff_left htask]

theorem length_le_byteLen (s : List Char) : s.length ≤ Text.byteLen s := by
  induction s with
  | nil => exact Nat.zero_le _
  | cons c s ih =>
    have hpos := c.utf8Size_pos
    rw [← List.singleton_append, Text.byteLen_append, Text.byteLen_singleton, List.length_append,
      List.length_singleton]
    omega

/-- A name is too short for most of the words. -/
theorem not_infix_name {c : Char} {cs : List Char} (hc : c ≠ ' ') (hlen : 15 ≤ cs.length) :
    ¬ c :: cs <:+: ' ' :: name.text := by
  rw [List.infix_cons_iff, not_or]
  refine ⟨fun hpre => hc (List.cons_prefix_cons.mp hpre).1, fun hin => ?_⟩
  have hle := hin.length_le
  have hshort := Nat.le_trans (length_le_byteLen name.text) name.short
  rw [List.length_cons] at hle
  omega

theorem lost_name : "LOST".toList <:+: ' ' :: name.text ↔ "LOST".toList <:+: name.text := by
  rw [List.infix_cons_iff]
  exact or_iff_right fun hpre => absurd (List.cons_prefix_cons.mp hpre).1 (by decide)

/-- A name record is read as a lost one or as a task's. -/
theorem parseLineSlow_comm :
    parseLineSlow (printLine h (.comm t exec name)) =
      if SaysLost name.text then .ok (some (.lost (parseLost (printLine h (.comm t exec name)))))
      else (parseTask (printLine h (.comm t exec name)) .comm).map fun t => some (.task t) := by
  have hhas : ∀ k ∈ keywords, Text.contains k.toList (printLine h (.comm t exec name)) =
      decide (k.toList <:+: ' ' :: (commKind exec).toList ∨ k.toList <:+: ' ' :: name.text) := by
    intro k hk
    rw [Bool.eq_iff_iff, Text.contains_iff, infix_comm_iff h t exec name hk, decide_eq_true_iff]
  have hkind : ∀ k ∈ keywords, k ≠ "PERF_RECORD_COMM" →
      ¬ k.toList <:+: ' ' :: (commKind exec).toList := by
    cases exec <;> decide
  have hno : ∀ k ∈ keywords, k ≠ "PERF_RECORD_COMM" → ¬ k.toList <:+: ' ' :: name.text →
      Text.contains k.toList (printLine h (.comm t exec name)) = false := by
    intro k hk hne hname
    rw [hhas k hk]
    exact decide_eq_false (not_or.mpr ⟨hkind k hk hne, hname⟩)
  have h1 := hno "instruction trace error" (by decide) (by decide)
    (not_infix_name name (by decide) (by decide))
  have h2 := hno "insn trace error" (by decide) (by decide)
    (not_infix_name name (by decide) (by decide))
  have h3 := hno "PERF_RECORD_LOST" (by decide) (by decide)
    (not_infix_name name (by decide) (by decide))
  have h6 := hno "PERF_RECORD_MMAP" (by decide) (by decide)
    (not_infix_name name (by decide) (by decide))
  have h7 : Text.contains "PERF_RECORD_COMM".toList (printLine h (.comm t exec name)) = true := by
    rw [hhas _ (by decide)]
    exact decide_eq_true (.inl (by cases exec <;> decide))
  have h45 : (Text.contains " lost ".toList (printLine h (.comm t exec name)) &&
      Text.contains "LOST".toList (printLine h (.comm t exec name))) =
        decide (SaysLost name.text) := by
    rw [hhas _ (by decide), hhas _ (by decide), ← Bool.decide_and]
    refine decide_eq_decide.mpr ?_
    rw [or_iff_right (hkind " lost " (by decide) (by decide)),
      or_iff_right (hkind "LOST" (by decide) (by decide)), lost_name]
    exact Iff.rfl
  unfold parseLineSlow
  simp only [h1, h2, h3, h6, h7, h45, Bool.or_self, Bool.false_or, Bool.false_eq_true, if_false,
    Bool.true_or, if_true, decide_eq_true_iff]

/-- The line's name is found. -/
theorem secondPart_comm : secondPart "PERF_RECORD_COMM".toList (printLine h (.comm t exec name)) =
    some (commTail exec name.text t) := by
  have hp : 'P' ∉ h.text ++ [':', ' '] := by
    rw [List.mem_append, not_or]
    exact ⟨fun hmem => absurd (h.text_column 'P' hmem) (by decide), by decide⟩
  have hskip : secondPart ('P' :: "ERF_RECORD_COMM".toList)
      (h.text ++ [':', ' '] ++ ('P' :: "ERF_RECORD_COMM".toList ++ commTail exec name.text t)) =
      some (firstPart ('P' :: "ERF_RECORD_COMM".toList) (commTail exec name.text t)) :=
    secondPart_skip hp
  -- the task has no letter, and the name is too short
  have htail : ¬ "PERF_RECORD_COMM".toList <:+: commTail exec name.text t := by
    rw [commTail, Text.infix_marked_iff (by decide), ← List.cons_append,
      Text.infix_marked_iff (by decide), not_or, not_or]
    refine ⟨?_, not_infix_name name (by decide) (by decide), ?_⟩
    · cases exec <;> decide
    · exact Text.not_infix_of_mem (c := 'P') (by decide) fun hmem =>
        absurd (t.text_column 'P' hmem) (by decide)
  rw [List.append_assoc] at hskip
  rw [printLine, commKind_tail]
  exact hskip.trans (congrArg some (firstPart_of_absent htail))

theorem splitPidTid_front {p s : List Char} (hp : ∀ c ∈ p, c.isDigit = false) :
    splitPidTid (p ++ s) = splitPidTid s := by
  induction p with
  | nil => rfl
  | cons c p ih =>
    rw [List.cons_append, splitPidTid_skip (hp c List.mem_cons_self),
      ih fun c hc => hp c (List.mem_cons_of_mem _ hc)]

/-- The ids that are read: the first behind the record's name. -/
def commIds : Nat × Nat :=
  ((splitPidTid (firstPart "PERF_RECORD_".toList ("COMM".toList ++ commTail exec name.text t))).map
    fun r => (r.1, r.2.1)).getD (h.sampled.pid, h.sampled.tid)

theorem commIds_iff : commIds h t exec name = (t.pid, t.tid) ↔
    ¬ "PERF_RECORD_".toList <:+: name.text ∧ ¬ HoldsPid name.text ∨
      idsInName h name.text = (t.pid, t.tid) := by
  have hword : ∃ p, "COMM".toList ++ commTail exec name.text t = p ++ (name.text ++ ':' :: t.text) ∧
      'P' ∉ p ∧ ∀ c ∈ p, c.isDigit = false := by
    cases exec with
    | false => exact ⟨"COMM: ".toList, rfl, by decide, by decide⟩
    | true => exact ⟨"COMM exec: ".toList, rfl, by decide, by decide⟩
  obtain ⟨p, hp, hcap, hdigit⟩ := hword
  have hskip : firstPart "PERF_RECORD_".toList (p ++ (name.text ++ ':' :: t.text)) =
      p ++ firstPart "PERF_RECORD_".toList (name.text ++ ':' :: t.text) := firstPart_skip hcap
  unfold commIds
  rw [hp, hskip, splitPidTid_front hdigit]
  by_cases hin : "PERF_RECORD_".toList <:+: name.text
  · rw [firstPart_append hin]
    exact (or_iff_right fun hand => hand.1 hin).symm
  have htask : ¬ "PERF_RECORD_".toList <:+: name.text ++ ':' :: t.text := by
    rw [Text.infix_marked_iff (by decide), not_or]
    exact ⟨hin, Text.not_infix_of_mem (c := 'P') (by decide) fun hmem =>
      absurd (t.text_column 'P' hmem) (by decide)⟩
  rw [firstPart_of_absent htask]
  by_cases hpid : HoldsPid name.text
  · rw [(splitPidTid_name t name.text).2 hpid, or_iff_right fun hand => hand.2 hpid, idsInName,
      firstPart_of_absent hin]
  · rw [(splitPidTid_name t name.text).1 hpid]
    exact ⟨fun _ => .inl ⟨hin, hpid⟩, fun _ => rfl⟩

/-- A name record is read back exactly if its name is readable. -/
theorem readsBack_comm : ReadsBack h (.comm t exec name) ↔ Readable h (.comm t exec name) := by
  have hend : Text.trimEnd (printLine h (.comm t exec name)) = printLine h (.comm t exec name) := by
    rw [printLine, comm_text]
    have hassoc : h.text ++ ':' :: ' ' :: ((commKind exec).toList
        ++ ':' :: ' ' :: (name.text ++ ':' :: t.text)) = (h.text ++ ':' :: ' ' ::
          ((commKind exec).toList ++ ':' :: ' ' :: (name.text ++ [':']))) ++ t.text := by
      simp only [List.append_assoc, List.cons_append, List.nil_append]
    rw [hassoc]
    exact trimEnd_task t _
  have hrec : ∃ s, (Event.comm t exec name).text = 'P' :: s := by
    cases exec <;> exact ⟨_, rfl⟩
  have hline : parseLine (printLine h (.comm t exec name)) =
      parseLineSlow (printLine h (.comm t exec name)) := parseLine_columns h hrec hend
  have hafter : secondPart "PERF_RECORD_".toList (printLine h (.comm t exec name)) =
      some (firstPart "PERF_RECORD_".toList ("COMM".toList ++ commTail exec name.text t)) := by
    rw [printLine, commKind_tail]
    exact secondPart_record h ("COMM".toList ++ commTail exec name.text t)
  have htask : parseTask (printLine h (.comm t exec name)) .comm =
      .ok ⟨.comm, (commIds h t exec name).1, (commIds h t exec name).2, none, none, h.timeNs,
        commName (printLine h (.comm t exec name))⟩ := parseTask_comm h hafter rfl
  have hname := commName_iff exec name t (secondPart_comm h t exec name)
  unfold ReadsBack
  rw [hline, parseLineSlow_comm, htask]
  by_cases hlost : SaysLost name.text
  · rw [if_pos hlost]
    constructor
    · rintro ⟨r, hr, ppid, ptid, rfl⟩
      cases hr
    · rintro ⟨-, -, hno, -⟩
      exact absurd hlost hno
  rw [if_neg hlost]
  have hids := commIds_iff h t exec name
  constructor
  · rintro ⟨r, hr, ppid, ptid, rfl⟩
    have heq := RawRecord.task.inj (Option.some.inj (Except.ok.inj hr))
    injection heq with _ hpid htid _ _ _ hcomm
    obtain ⟨hcolon, htrim⟩ := hname.mp hcomm
    exact ⟨hcolon, htrim, hlost, hids.mp (Prod.ext hpid htid)⟩
  · rintro ⟨hcolon, htrim, -, hread⟩
    rw [hids.mpr hread, hname.mpr ⟨hcolon, htrim⟩]
    exact ⟨_, rfl, none, none, rfl⟩

end CommLine

end TraceMcp.Decode.Sideband
