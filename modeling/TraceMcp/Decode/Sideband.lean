import TraceMcp.Lib.Numeral
import TraceMcp.Lib.Split
import TraceMcp.Decode.Guard

/-!
# Sideband lines

What `perf script --ns` prints for a task or mapping record: the columns of
every line (task, CPU if there is one, time), then the record as
`perf_event__fprintf` writes it. A command name and a path are copied as they
are.

`parse_line` finds the kind of a record and its fields by searching the whole
line. Since none of the words it searches for has a colon, a line falls at its
colons into parts that are searched on their own (`infix_marked_iff`), and only
the part with the name or the path is not the printer's.

Here are the columns and the records of two tasks, which are always read back.
-/

namespace TraceMcp.Decode

open TraceMcp.Lib

namespace PerfScript

/-- `parse_line`. -/
def parseLine (line : List Char) : Result (Option RawRecord) :=
  let line := Text.trimEnd line
  if line = [] ∨ "#".toList <+: line ∨ "failed to read".toList <+: line then .ok none
  else
    match FastLine.parseSample (Text.asBytes line) with
    | some s => .ok (some (.sample s))
    | none => parseLineSlow line

end PerfScript

namespace Sideband

-- A decision goes along the list, and not over all characters.
scoped instance (priority := 10000) decidableBAll {α : Type} (P : α → Prop) [DecidablePred P]
    (l : List α) : Decidable (∀ x ∈ l, P x) :=
  List.decidableBAll P l

scoped instance (priority := 10000) decidableBEx {α : Type} (P : α → Prop) [DecidablePred P]
    (l : List α) : Decidable (∃ x ∈ l, P x) :=
  List.decidableBEx P l

/-! ## What perf prints -/

/-- A task, by two ids that are no negative `pid_t`. -/
structure Task where
  pid : Nat
  tid : Nat
  pid_lt : pid < 2 ^ 31
  tid_lt : tid < 2 ^ 31

/-- `%d/%d`. -/
def Task.text (t : Task) : List Char := Text.decimal t.pid ++ '/' :: Text.decimal t.tid

/-- `%d:%d`. -/
def Task.pair (t : Task) : List Char := Text.decimal t.pid ++ ':' :: Text.decimal t.tid

/-- The columns of a line: the task that was running, its CPU if it was
recorded, and the time. An event that was synthesized has none. -/
structure Columns where
  sampled : Task
  cpu : Option UInt32
  time : Option { ns : UInt64 // ns ≠ 0 }
  /-- Spaces in front, behind the task and behind the CPU. -/
  lead : Nat
  gap : Nat
  cpuGap : Nat

namespace Columns

/-- The event's time. -/
def timeNs (h : Columns) : Option Nat := h.time.map (·.val.toNat)

/-- `[%03d] `, or nothing. -/
def cpuText (h : Columns) : List Char :=
  match h.cpu with
  | some cpu => '[' :: (Text.padded 10 3 cpu.toNat ++ ']' :: List.replicate (h.cpuGap + 1) ' ')
  | none => []

/-- `%lu.%09lu`; without a time it is 0. -/
def timeText (h : Columns) : List Char :=
  let ns := h.timeNs.getD 0
  Text.decimal (ns / 10 ^ 9) ++ '.' :: Text.padded 10 9 (ns % 10 ^ 9)

/-- The columns, up to the colon behind the time. -/
def text (h : Columns) : List Char :=
  List.replicate h.lead ' ' ++ (h.sampled.text
    ++ (List.replicate (h.gap + 1) ' ' ++ (h.cpuText ++ h.timeText)))

end Columns

/-- A command name: 1 to 15 bytes. -/
structure Name where
  text : List Char
  ne_nil : text ≠ []
  short : Text.byteLen text ≤ 15

/-- A file's path, on one line. -/
structure Path where
  text : List Char
  ne_nil : text ≠ []
  oneLine : '\n' ∉ text

/-- Where a mapping comes from: a device and an inode, or a build id. -/
inductive Backing
  | inode (maj min ino generation : UInt64)
  | buildId (digits : List (Fin 16))

/-- `%02x:%02x %lu %lu` or `<%s>`. -/
def Backing.text : Backing → List Char
  | .inode maj min ino generation =>
    Text.padded 16 2 maj.toNat ++ ':' :: (Text.padded 16 2 min.toNat
      ++ ' ' :: (Text.decimal ino.toNat ++ ' ' :: Text.decimal generation.toNat))
  | .buildId digits => '<' :: (digits.map (fun d => Nat.digitChar d.val) ++ ['>'])

/-- The protection of a mapping. -/
structure Prot where
  read : Bool
  write : Bool
  exec : Bool
  shared : Bool

/-- `%c%c%c%c`. -/
def Prot.text (p : Prot) : List Char :=
  [if p.read then 'r' else '-', if p.write then 'w' else '-', if p.exec then 'x' else '-',
    if p.shared then 's' else 'p']

/-- `%#lx`, which writes 0 without its prefix. -/
def alternateHex (n : UInt64) : List Char :=
  if n = 0 then ['0'] else '0' :: 'x' :: Text.padded 16 0 n.toNat

/-- A mapping record. -/
structure Mapping where
  task : Task
  start : UInt64
  len : UInt64
  pgoff : UInt64
  backing : Backing
  prot : Prot
  path : Path

/-- `%#lx(%#lx) @ %#lx …`, what stands between the brackets. -/
def Mapping.range (m : Mapping) : List Char :=
  alternateHex m.start ++ '(' :: (alternateHex m.len ++ ')' :: ' ' :: '@' :: ' '
    :: (alternateHex m.pgoff ++ ' ' :: m.backing.text))

/-- The sideband events. -/
inductive Event
  | comm (task : Task) (exec : Bool) (name : Name)
  | fork (child parent : Task)
  | exit (task parent : Task)
  | mmap2 (m : Mapping)

/-- `KIND(%d:%d):(%d:%d)`. -/
def pairs (kind : String) (task parent : Task) : List Char :=
  kind.toList ++ '(' :: (task.pair ++ ')' :: ':' :: '(' :: (parent.pair ++ [')']))

/-- The record behind the columns. -/
def Event.text : Event → List Char
  | .comm task exec name =>
    (if exec then "PERF_RECORD_COMM exec" else "PERF_RECORD_COMM").toList
      ++ ':' :: ' ' :: (name.text ++ ':' :: task.text)
  | .fork child parent => pairs "PERF_RECORD_FORK" child parent
  | .exit task parent => pairs "PERF_RECORD_EXIT" task parent
  | .mmap2 m =>
    "PERF_RECORD_MMAP2 ".toList ++ (m.task.text ++ ':' :: ' ' :: '[' :: (m.range
      ++ ']' :: ':' :: ' ' :: (m.prot.text ++ ' ' :: m.path.text)))

/-- The line perf prints for an event. -/
def printLine (h : Columns) (e : Event) : List Char := h.text ++ ':' :: ' ' :: e.text

/-! ## What it should be read as -/

/-- The record has the event's kind, ids, parent, time, name or path, start,
length and offset. -/
def Shows (h : Columns) : Event → RawRecord → Prop
  | .comm task _ name, r => ∃ ppid ptid,
    r = .task ⟨.comm, task.pid, task.tid, ppid, ptid, h.timeNs, some (String.ofList name.text)⟩
  | .fork child parent, r =>
    r = .task ⟨.fork, child.pid, child.tid, some parent.pid, some parent.tid, h.timeNs, none⟩
  | .exit task parent, r =>
    r = .task ⟨.exit, task.pid, task.tid, some parent.pid, some parent.tid, h.timeNs, none⟩
  | .mmap2 m, r => ∃ prot,
    r = .mmap ⟨m.task.pid, m.task.tid, h.timeNs, m.start.toNat, m.len.toNat, m.pgoff.toNat, prot,
      String.ofList m.path.text⟩

/-- The line is read as what was printed. -/
def ReadsBack (h : Columns) (e : Event) : Prop :=
  ∃ r, PerfScript.parseLine (printLine h e) = .ok (some r) ∧ Shows h e r

/-- The text makes a line look like a lost record. -/
def SaysLost (text : List Char) : Prop :=
  " lost ".toList <:+: ' ' :: text ∧ "LOST".toList <:+: text

instance (text : List Char) : Decidable (SaysLost text) := inferInstanceAs (Decidable (_ ∧ _))

/-- The name has a number right before a slash that is taken for a pid: there is
a digit behind the slash, or the number is no `u32`. -/
def HoldsPid (name : List Char) : Prop :=
  ∃ ds after, ds ++ '/' :: after <:+ name ∧ ds ≠ [] ∧ (∀ c ∈ ds, c.isDigit = true) ∧
    ((∃ c ∈ after.head?, c.isDigit = true) ∨ Text.parseU32 ds = none)

/-- The ids that are read where the name holds some, or a second
`PERF_RECORD_`: those in the name up to it, or else the columns'. -/
def idsInName (h : Columns) (name : List Char) : Nat × Nat :=
  ((PerfScript.splitPidTid (PerfScript.firstPart "PERF_RECORD_".toList name)).map
    fun r => (r.1, r.2.1)).getD (h.sampled.pid, h.sampled.tid)

/-- The names and paths that are read as they were printed. -/
def Readable (h : Columns) : Event → Prop
  | .comm task _ name =>
    ':' ∉ name.text ∧ Text.trim name.text = name.text ∧ ¬ SaysLost name.text ∧
      (¬ "PERF_RECORD_".toList <:+: name.text ∧ ¬ HoldsPid name.text ∨
        idsInName h name.text = (task.pid, task.tid))
  | .fork _ _ => True
  | .exit _ _ => True
  | .mmap2 m =>
    Text.unwords (Text.words m.path.text) = m.path.text ∧ ¬ "]:".toList <:+: m.path.text ∧
      ¬ "instruction trace error".toList <:+: m.path.text ∧
      ¬ "insn trace error".toList <:+: m.path.text ∧
      ¬ "PERF_RECORD_LOST".toList <:+: m.path.text ∧ ¬ SaysLost m.path.text ∧
      (m.start ≠ 0 ∨
        PerfScript.parseMmapRange m.path.text = some (0, m.len.toNat, m.pgoff.toNat))

/-! ## The columns -/

/-- What the columns are made of. -/
def columnChars : List Char := "0123456789/[]. :".toList

theorem digitChar_column : ∀ d < 10, Nat.digitChar d ∈ columnChars := by decide

theorem decimal_column {n : Nat} : ∀ c ∈ Text.decimal n, c ∈ columnChars := by
  intro c hc
  rw [← Text.padded_none] at hc
  obtain ⟨d, hd, rfl⟩ := Text.mem_padded (by decide) hc
  exact digitChar_column d hd

theorem padded_column {width n : Nat} : ∀ c ∈ Text.padded 10 width n, c ∈ columnChars := by
  intro c hc
  obtain ⟨d, hd, rfl⟩ := Text.mem_padded (by decide) hc
  exact digitChar_column d hd

theorem spaces_column {n : Nat} : ∀ c ∈ List.replicate n ' ', c ∈ columnChars := by
  intro c hc
  rw [List.eq_of_mem_replicate hc]
  decide

theorem Task.text_column (t : Task) : ∀ c ∈ t.text, c ∈ columnChars := by
  intro c hc
  rcases List.mem_append.mp hc with hc | hc
  · exact decimal_column c hc
  · rcases List.mem_cons.mp hc with rfl | hc
    · decide
    · exact decimal_column c hc

theorem Columns.text_column (h : Columns) : ∀ c ∈ h.text, c ∈ columnChars := by
  intro c hc
  rcases List.mem_append.mp hc with hc | hc
  · exact spaces_column c hc
  rcases List.mem_append.mp hc with hc | hc
  · exact h.sampled.text_column c hc
  rcases List.mem_append.mp hc with hc | hc
  · exact spaces_column c hc
  rcases List.mem_append.mp hc with hc | hc
  · unfold Columns.cpuText at hc
    split at hc
    next =>
      rcases List.mem_cons.mp hc with rfl | hc
      · decide
      rcases List.mem_append.mp hc with hc | hc
      · exact padded_column c hc
      rcases List.mem_cons.mp hc with rfl | hc
      · decide
      · exact spaces_column c hc
    next => cases hc
  · rcases List.mem_append.mp hc with hc | hc
    · exact decimal_column c hc
    rcases List.mem_cons.mp hc with rfl | hc
    · decide
    · exact padded_column c hc

theorem Columns.text_ne_nil (h : Columns) : h.text ≠ [] := by
  intro hnil
  have htask := (List.append_eq_nil_iff.mp (List.append_eq_nil_iff.mp hnil).2).1
  exact absurd (List.append_eq_nil_iff.mp htask).2 (List.cons_ne_nil _ _)

/-! ### No sample -/

/-- The scanner's cursor has passed columns only. -/
def Past (rest after : List UInt8) : Prop :=
  ∃ pre, rest = pre ++ after ∧ ∀ b ∈ pre, b ∈ Text.asBytes columnChars

theorem Past.trans {a b c : List UInt8} (h : Past a b) (h' : Past b c) : Past a c := by
  obtain ⟨p, rfl, hp⟩ := h
  obtain ⟨q, rfl, hq⟩ := h'
  refine ⟨p ++ q, (List.append_assoc ..).symm, fun x hx => ?_⟩
  exact (List.mem_append.mp hx).elim (hp x) (hq x)

/-- The cursor is in the text `rest`, behind columns. -/
def Passed (guard rest : List UInt8) (c : FastLine.Cur) : Prop :=
  ∃ after, c = .on guard after ∧ Past rest after

section Scanner

open FastLine

variable {guard rest : List UInt8} {c c' : Cur}

theorem Past.append {pre after : List UInt8} (h : ∀ b ∈ pre, b ∈ Text.asBytes columnChars) :
    Past (pre ++ after) after :=
  ⟨pre, rfl, h⟩

theorem column_of_digit (b : UInt8) (h : notDec b = false) : b ∈ Text.asBytes columnChars := by
  have hall : ∀ n : Fin 256, notDec (.ofFin n) = false → .ofFin n ∈ Text.asBytes columnChars := by
    decide +kernel
  exact hall b.toFin h

theorem Passed.skipWs (h : Passed guard rest c) : Passed guard rest c.skipWs := by
  obtain ⟨after, rfl, hpast⟩ := h
  refine ⟨_, Cur.on_skipWs after, hpast.trans ⟨after.takeWhile (· = 32), ?_, ?_⟩⟩
  · exact List.takeWhile_append_dropWhile.symm
  · intro b hb
    have hspace := List.mem_takeWhile_imp hb
    rw [of_decide_eq_true hspace]
    decide

theorem Passed.dec (h : Passed guard rest c) : Passed guard rest c.dec.2.2 := by
  obtain ⟨after, rfl, hpast⟩ := h
  rw [Cur.on_dec]
  refine ⟨_, rfl, hpast.trans ⟨after.take ((after.take 16).findIdx notDec), ?_, ?_⟩⟩
  · exact (List.take_append_drop _ after).symm
  · intro b hb
    obtain ⟨i, hi, rfl⟩ := List.mem_iff_getElem.mp hb
    rw [List.length_take] at hi
    have hdigit := List.not_of_lt_findIdx (show i < (after.take 16).findIdx notDec by omega)
    rw [List.getElem_take] at hdigit ⊢
    exact column_of_digit _ (by simpa using hdigit)

theorem Passed.adv_one (hg : Harmless guard) (h : Passed guard rest c) {b : UInt8}
    (hb : b ∈ ([47, 91, 93, 46, 58] : List UInt8)) (hpeek : c.peek = b) :
    Passed guard rest (c.adv 1) := by
  obtain ⟨after, rfl, hpast⟩ := h
  rcases peek_guard hb after with ⟨after, rfl⟩ | hno
  · refine ⟨after, on_adv_one b, hpast.trans (@Past.append [b] _ ?_)⟩
    intro x hx
    rw [List.mem_singleton.mp hx]
    exact (show ∀ b ∈ ([47, 91, 93, 46, 58] : List UInt8), b ∈ Text.asBytes columnChars by decide)
      b hb
  · exact absurd hpeek (hno guard hg)

theorem scanIds_passed (hg : Harmless guard) (h : Passed guard rest c) {pid tid : Nat}
    (hs : scanIds c = some (pid, tid, c')) : Passed guard rest c' := by
  have hdec := h.skipWs.dec
  unfold scanIds at hs
  rcases hd : c.skipWs.dec with ⟨v, n, c₁⟩
  rw [hd] at hs hdec
  dsimp only at hs hdec
  split at hs
  next => cases hs
  next hok =>
    rw [not_or, not_not] at hok
    have hslash := hdec.adv_one hg (by decide) hok.2
    have hdec' := hslash.dec
    rcases hd' : (c₁.adv 1).dec with ⟨v', n', c₂⟩
    rw [hd'] at hs hdec'
    dsimp only at hs hdec'
    split at hs
    next => cases hs
    next =>
      cases hs
      exact hdec'.skipWs

theorem scanCpu_passed (hg : Harmless guard) (h : Passed guard rest c) {cpu : Option Nat}
    (hs : scanCpu c = some (cpu, c')) : Passed guard rest c' := by
  unfold scanCpu at hs
  split at hs
  next hopen =>
    have hdec := (h.adv_one hg (by decide) hopen).dec
    rcases hd : (c.adv 1).dec with ⟨v, n, c₁⟩
    rw [hd] at hs hdec
    dsimp only at hs hdec
    split at hs
    next => cases hs
    next hok =>
      rw [not_or, not_not] at hok
      cases hs
      exact (hdec.adv_one hg (by decide) hok.2).skipWs
  next =>
    cases hs
    exact h

theorem scanTime_passed (hg : Harmless guard) (h : Passed guard rest c) {ns : Nat}
    (hs : scanTime c = some (ns, c')) : Passed guard rest c' := by
  have hdec := h.dec
  unfold scanTime at hs
  rcases hd : c.dec with ⟨v, n, c₁⟩
  rw [hd] at hs hdec
  dsimp only at hs hdec
  split at hs
  next => cases hs
  next hok =>
    rw [not_or, not_not] at hok
    have hdec' := (hdec.adv_one hg (by decide) hok.2).dec
    rcases hd' : (c₁.adv 1).dec with ⟨v', n', c₂⟩
    rw [hd'] at hs hdec'
    dsimp only at hs hdec'
    split at hs
    next => cases hs
    next hok' =>
      rw [not_or, not_or, not_not] at hok'
      obtain ⟨ns', -, heq⟩ := Option.map_eq_some_iff.mp hs
      cases heq
      exact (hdec'.adv_one hg (by decide) hok'.2.2).skipWs

/-- An event starts with a `b` or an `i`. -/
theorem scanEvent_head {event : SampleEvent} (hs : scanEvent (.on guard rest) = some (event, c')) :
    ∃ b after, rest = b :: after ∧ (b = 98 ∨ b = 105) := by
  unfold scanEvent at hs
  rw [Cur.on_token] at hs
  dsimp only at hs
  split at hs
  next => cases hs
  next =>
    have hpre : Text.ascii "branches" <+: rest ∨ Text.ascii "instructions" <+: rest := by
      have htoken := List.takeWhile_prefix (l := rest) fun b => !isStop b
      split at hs
      next hb => exact .inl (hb.trans htoken)
      next =>
        split at hs
        next hi => exact .inr (hi.trans htoken)
        next => cases hs
    rcases hpre with ⟨s, rfl⟩ | ⟨s, rfl⟩
    · exact ⟨_, _, rfl, .inl rfl⟩
    · exact ⟨_, _, rfl, .inr rfl⟩

/-- A sample line has its event right behind the columns: its first byte that is
none of a column is the event's first. -/
theorem parseSample_columns {pre after : List UInt8} {b : UInt8}
    (hpre : ∀ x ∈ pre, x ∈ Text.asBytes columnChars) (hb : b ∉ Text.asBytes columnChars)
    (hevent : b ≠ 98 ∧ b ≠ 105) : parseSample (pre ++ b :: after) = none := by
  cases hs : parseSample (pre ++ b :: after) with
  | none => rfl
  | some s =>
    exfalso
    rw [parseSample, parseSampleGuarded_columns] at hs
    obtain ⟨⟨pid, tid, c₁⟩, hids, hs⟩ := Option.bind_eq_some_iff.mp hs
    obtain ⟨⟨cpu, c₂⟩, hcpu, hs⟩ := Option.bind_eq_some_iff.mp hs
    obtain ⟨⟨ns, c₃⟩, htime, hs⟩ := Option.bind_eq_some_iff.mp hs
    have hg : Harmless (List.replicate guardLen 0) := by
      unfold Harmless
      decide
    have h₀ : Passed (List.replicate guardLen 0) (pre ++ b :: after) (.on _ (pre ++ b :: after)) :=
      ⟨_, rfl, @Past.append [] _ fun x hx => absurd hx List.not_mem_nil⟩
    have h₃ := scanTime_passed hg (scanCpu_passed hg (scanIds_passed hg h₀ hids) hcpu) htime
    obtain ⟨last, rfl, q, hq, hqcol⟩ := h₃
    unfold scanRest at hs
    obtain ⟨⟨event, c₄⟩, hev, -⟩ := Option.bind_eq_some_iff.mp hs
    obtain ⟨x, tail, rfl, hx⟩ := scanEvent_head hev
    -- both `x` and `b` are the first byte that is none of a column
    have hxcol : x ∉ Text.asBytes columnChars := by
      rcases hx with rfl | rfl <;> decide
    have hfirst : ∀ (p : List UInt8) (y : UInt8) (t : List UInt8),
        (∀ x ∈ p, x ∈ Text.asBytes columnChars) → y ∉ Text.asBytes columnChars →
        (p ++ y :: t).dropWhile (fun x => decide (x ∈ Text.asBytes columnChars)) = y :: t := by
      intro p y t hp hy
      rw [List.dropWhile_append_of_pos fun x hx => decide_eq_true (hp x hx),
        List.dropWhile_cons_of_neg (by simpa using hy)]
    have heq := hfirst pre b after hpre hb
    rw [hq, hfirst q x tail hqcol hxcol] at heq
    obtain ⟨rfl, -⟩ := List.cons.inj heq
    rcases hx with rfl | rfl
    · exact hevent.1 rfl
    · exact hevent.2 rfl

end Scanner

/-! ### The tolerant parser's columns -/

section Columns

open PerfScript

variable {s rest ds es : List Char}

/-- A run of digits. -/
structure Digits (ds : List Char) : Prop where
  ne_nil : ds ≠ []
  digit : ∀ c ∈ ds, c.isDigit = true

theorem digits_padded {width n : Nat} : Digits (Text.padded 10 width n) :=
  ⟨Text.padded_ne_nil, Text.padded_isDigit⟩

theorem digits_decimal {n : Nat} : Digits (Text.decimal n) :=
  ⟨Text.decimal_ne_nil n, Text.decimal_isDigit n⟩

theorem Digits.cons (h : Digits ds) : ∃ c s, ds = c :: s ∧ c.isDigit = true := by
  obtain ⟨hne, hdigit⟩ := h
  cases ds with
  | nil => exact absurd rfl hne
  | cons c s => exact ⟨c, s, rfl, hdigit c List.mem_cons_self⟩

/-- A digit is no white space. -/
theorem not_whitespace_of_digit {c : Char} (h : c.isDigit = true) : isWhitespace c = false := by
  simp only [Char.isDigit, Bool.and_eq_true, decide_eq_true_eq, UInt32.le_iff_toNat_le] at h
  unfold isWhitespace
  simp only [Char.toNat]
  have h1 : 48 ≤ c.val.toNat := h.1
  have h2 : c.val.toNat ≤ 57 := h.2
  grind

theorem takeWhile_digits (hds : ∀ c ∈ ds, c.isDigit = true) (hrest : ∀ c ∈ rest.head?, c.isDigit = false) :
    (ds ++ rest).takeWhile Char.isDigit = ds := by
  rw [List.takeWhile_append_of_pos hds]
  cases rest with
  | nil => rw [List.takeWhile_nil, List.append_nil]
  | cons c s =>
    have hc : c.isDigit = false := hrest c rfl
    rw [List.takeWhile_cons_of_neg (by rw [hc]; exact Bool.false_ne_true), List.append_nil]

theorem dropWhile_digits (hds : ∀ c ∈ ds, c.isDigit = true) (hrest : ∀ c ∈ rest.head?, c.isDigit = false) :
    (ds ++ rest).dropWhile Char.isDigit = rest := by
  rw [List.dropWhile_append_of_pos hds]
  cases rest with
  | nil => rfl
  | cons c s =>
    have hc : c.isDigit = false := hrest c rfl
    rw [List.dropWhile_cons_of_neg (by rw [hc]; exact Bool.false_ne_true)]

theorem splitPidTid_skip {c : Char} (hc : c.isDigit = false) :
    splitPidTid (c :: s) = splitPidTid s := by
  rw [splitPidTid, if_neg (by rw [hc]; exact Bool.false_ne_true)]

/-- A number with no slash behind it is passed, with what is behind it. -/
theorem splitPidTid_number (hds : Digits ds) (hrest : ∀ c ∈ rest.head?, c.isDigit = false)
    (hslash : ∀ c ∈ rest.head?, c ≠ '/') : splitPidTid (ds ++ rest) = splitPidTid rest.tail := by
  obtain ⟨c, s, rfl, hc⟩ := hds.cons
  have hs : ∀ c ∈ s, c.isDigit = true := fun c hc => hds.digit c (List.mem_cons_of_mem _ hc)
  have hdrop := dropWhile_digits hs hrest
  rw [List.cons_append, splitPidTid, if_pos hc]
  split
  next after heq =>
    rw [hdrop] at heq
    exact absurd rfl (hslash '/' (by rw [heq]; rfl))
  next => rw [hdrop, List.drop_one]

theorem splitPidTid_pair (hds : Digits ds) (hes : Digits es)
    (hrest : ∀ c ∈ rest.head?, c.isDigit = false) :
    splitPidTid (ds ++ '/' :: (es ++ rest)) =
      (Text.parseU32 ds).bind fun pid => (Text.parseU32 es).map fun tid => (pid, tid, rest) := by
  obtain ⟨c, s, rfl, hc⟩ := hds.cons
  have hs : ∀ c ∈ s, c.isDigit = true := fun c hc => hds.digit c (List.mem_cons_of_mem _ hc)
  have hstop : ∀ c ∈ ('/' :: (es ++ rest)).head?, c.isDigit = false := by
    rintro _ ⟨⟩
    rfl
  have hdrop := dropWhile_digits hs hstop
  rw [List.cons_append, splitPidTid, if_pos hc]
  split
  next after heq =>
    obtain ⟨-, rfl⟩ := List.cons.inj (hdrop.symm.trans heq)
    rw [takeWhile_digits hs hstop, takeWhile_digits hes.digit hrest, dropWhile_digits hes.digit hrest]
    cases Text.parseU32 (c :: s) with
    | none => rfl
    | some pid => exact if_pos hes.ne_nil
  next hno => exact absurd hdrop (hno _)

/-- A slash with no number behind it is passed too, if the number before it is
in range. -/
theorem splitPidTid_slash (hds : Digits ds) (hrest : ∀ c ∈ rest.head?, c.isDigit = false) :
    splitPidTid (ds ++ '/' :: rest) = (Text.parseU32 ds).bind fun _ => splitPidTid rest.tail := by
  obtain ⟨c, s, rfl, hc⟩ := hds.cons
  have hs : ∀ c ∈ s, c.isDigit = true := fun c hc => hds.digit c (List.mem_cons_of_mem _ hc)
  have hstop : ∀ c ∈ ('/' :: rest).head?, c.isDigit = false := by
    rintro _ ⟨⟩
    rfl
  have hdrop := dropWhile_digits hs hstop
  have hnone : rest.takeWhile Char.isDigit = [] :=
    @takeWhile_digits rest [] (fun _ hc => absurd hc List.not_mem_nil) hrest
  rw [List.cons_append, splitPidTid, if_pos hc]
  split
  next after heq =>
    obtain ⟨-, rfl⟩ := List.cons.inj (hdrop.symm.trans heq)
    rw [takeWhile_digits hs hstop, hnone]
    cases Text.parseU32 (c :: s) with
    | none => rfl
    | some pid =>
      rw [Option.bind_some, ← List.drop_one]
      exact if_neg (not_not.mpr rfl)
  next hno => exact absurd hdrop (hno _)

theorem parseU32_decimal {n : Nat} (h : n < 2 ^ 31) : Text.parseU32 (Text.decimal n) = some n :=
  Text.fromStrRadix_decimal (show n < 2 ^ 32 by omega)

/-- A printed task is found where no number is before it. -/
theorem splitPidTid_task (t : Task) (hrest : ∀ c ∈ rest.head?, c.isDigit = false) :
    splitPidTid (t.text ++ rest) = some (t.pid, t.tid, rest) := by
  rw [Task.text, List.append_assoc, List.cons_append,
    splitPidTid_pair digits_decimal digits_decimal hrest, parseU32_decimal t.pid_lt,
    parseU32_decimal t.tid_lt]
  rfl

theorem splitPidTid_spaces (n : Nat) : splitPidTid (List.replicate n ' ' ++ s) = splitPidTid s := by
  induction n with
  | zero => rfl
  | succ n ih => rw [List.replicate_succ, List.cons_append, splitPidTid_skip (by decide), ih]

theorem trimStart_spaces (n : Nat) (s : List Char) :
    Text.trimStart (List.replicate n ' ' ++ s) = Text.trimStart s := by
  refine Text.trimStart_append fun c hc => ?_
  rw [List.eq_of_mem_replicate hc]
  decide

theorem timeText_cons (h : Columns) :
    ∃ c s, h.timeText = c :: s ∧ c.isDigit = true := by
  obtain ⟨c, s, hs, hc⟩ := (digits_decimal (n := h.timeNs.getD 0 / 10 ^ 9)).cons
  refine ⟨c, s ++ '.' :: Text.padded 10 9 (h.timeNs.getD 0 % 10 ^ 9), ?_, hc⟩
  rw [Columns.timeText, hs]
  rfl

theorem trimStart_timeText (h : Columns) : Text.trimStart (h.timeText ++ s) = h.timeText ++ s := by
  obtain ⟨c, t, heq, hc⟩ := timeText_cons h
  rw [heq, List.cons_append]
  exact Text.trimStart_of_cons (not_whitespace_of_digit hc)

/-- The task in front is the one that was running. -/
theorem splitPidTid_columns (h : Columns) :
    splitPidTid (h.text ++ s) = some (h.sampled.pid, h.sampled.tid,
      List.replicate (h.gap + 1) ' ' ++ (h.cpuText ++ (h.timeText ++ s))) := by
  rw [Columns.text, List.append_assoc, List.append_assoc, List.append_assoc, List.append_assoc,
    splitPidTid_spaces]
  refine splitPidTid_task _ ?_
  rintro _ ⟨⟩
  rfl

/-- Behind the task and the CPU stands the time. -/
theorem takeCpu_columns (h : Columns) :
    (takeCpu (List.replicate (h.gap + 1) ' ' ++ (h.cpuText ++ (h.timeText ++ s)))).2
      = h.timeText ++ s := by
  unfold takeCpu
  rw [trimStart_spaces]
  unfold Columns.cpuText
  cases h.cpu with
  | none =>
    obtain ⟨c, t, heq, hc⟩ := timeText_cons h
    have hne : c ≠ '[' := by
      rintro rfl
      cases hc
    rw [List.nil_append, trimStart_timeText, heq, List.cons_append]
    dsimp only
    split
    next heq' => exact absurd (List.cons.inj heq').1 hne
    next => rfl
  | some cpu =>
    have hclose : ']' ∉ Text.padded 10 3 cpu.toNat := fun hmem => by
      cases digits_padded.digit _ hmem
    rw [List.cons_append, Text.trimStart_of_cons (by decide), List.append_assoc, List.cons_append]
    simp only [Text.find_char hclose]
    rw [← List.drop_drop, List.drop_left, List.drop_one, List.tail_cons, trimStart_spaces,
      trimStart_timeText]

/-- A time of nine fractional digits, from its two numbers. -/
theorem parsePerfTime_parts {token text secs frac : List Char} {sec nsec scaled ns : Nat}
    (htoken : Text.trimEndChar ':' (Text.trim token) = text)
    (hsplit : Text.splitOnce ['.'] text = some (secs, frac))
    (hsec : Text.parseU64 secs = some sec) (hnine : frac.length = 9)
    (hfrac : Text.parseU64 frac = some nsec)
    (hmul : checkedMul sec 1000000000 = some scaled) (hadd : checkedAdd scaled nsec = some ns) :
    parsePerfTime token = .ok ns := by
  have hpad : Text.parseU64 (frac.take 9 ++ List.replicate (9 - (frac.take 9).length) '0') =
      some nsec := by
    rw [List.take_of_length_le (Nat.le_of_eq hnine), hnine, Nat.sub_self, List.replicate_zero,
      List.append_nil, hfrac]
  unfold parsePerfTime
  simp only [htoken, hsplit, Option.getD_some, hsec]
  -- the product first: as a discriminant it must not be reduced
  simp only [hmul]
  simp only [hpad, Option.bind_some, hadd]

/-- Reading the time back: nine digits are all of the fraction. -/
theorem parsePerfTime_columns (h : Columns) :
    parsePerfTime (h.timeText ++ [':']) = .ok (h.timeNs.getD 0) := by
  have hns : h.timeNs.getD 0 < 2 ^ 64 := by
    unfold Columns.timeNs
    cases h.time with
    | none => decide
    | some ns => exact ns.val.toNat_lt
  generalize htext : h.timeText = text
  rw [Columns.timeText] at htext
  generalize h.timeNs.getD 0 = ns at hns htext ⊢
  have hdot : '.' ∉ Text.decimal (ns / 10 ^ 9) := fun hmem => by
    cases digits_decimal.digit _ hmem
  have hnine : (Text.padded 10 9 (ns % 10 ^ 9)).length = 9 :=
    Text.padded_length (by decide) (by decide) (Nat.mod_lt _ (by decide))
  have htoken : Text.trimEndChar ':' (Text.trim (text ++ [':'])) = text := by
    obtain ⟨c, s, hs, hc⟩ := (digits_decimal (n := ns / 10 ^ 9)).cons
    have hcolon : ':' ∉ Text.padded 10 9 (ns % 10 ^ 9) := fun hmem => by
      cases digits_padded.digit _ hmem
    rw [Text.trim, ← htext, hs, List.cons_append, List.cons_append,
      Text.trimStart_of_cons (not_whitespace_of_digit hc), ← List.cons_append, ← List.cons_append,
      Text.trimEnd_concat (by decide), Text.trimEndChar,
      List.rdropWhile_concat_pos _ _ _ (by decide), ← Text.trimEndChar, List.append_cons]
    exact Text.trimEndChar_append _ Text.padded_ne_nil hcolon
  have hsplit : Text.splitOnce ['.'] text =
      some (Text.decimal (ns / 10 ^ 9), Text.padded 10 9 (ns % 10 ^ 9)) := by
    rw [← htext]
    exact Text.splitOnce_char hdot
  have hsec : Text.parseU64 (Text.decimal (ns / 10 ^ 9)) = some (ns / 10 ^ 9) :=
    Text.fromStrRadix_decimal (show ns / 10 ^ 9 < 2 ^ 64 by omega)
  have hfrac : Text.parseU64 (Text.padded 10 9 (ns % 10 ^ 9)) = some (ns % 10 ^ 9) :=
    Text.fromStrRadix_padded (by decide) (by decide) (show ns % 10 ^ 9 < 2 ^ 64 by omega)
  have hmul : checkedMul (ns / 10 ^ 9) 1000000000 = some (ns / 10 ^ 9 * 1000000000) :=
    if_pos (by unfold wordSize; omega)
  have hadd : checkedAdd (ns / 10 ^ 9 * 1000000000) (ns % 10 ^ 9) = some ns := by
    unfold checkedAdd wordSize
    rw [if_pos (by omega)]
    congr 1
    omega
  exact parsePerfTime_parts htoken hsplit hsec hnine hfrac hmul hadd

/-- The time is read, and what is behind it does not matter. -/
theorem takeTime_columns (h : Columns) (s : List Char) :
    ∃ rest, takeTime (h.timeText ++ ':' :: ' ' :: s) = .ok (some (h.timeNs.getD 0), rest) := by
  have hsolid : ∀ c ∈ h.timeText ++ [':'], (!isWhitespace c) = true := by
    intro c hc
    rw [Bool.not_eq_true']
    rcases List.mem_append.mp hc with hc | hc
    · rcases List.mem_append.mp hc with hc | hc
      · exact not_whitespace_of_digit (digits_decimal.digit c hc)
      rcases List.mem_cons.mp hc with rfl | hc
      · decide
      · exact not_whitespace_of_digit (digits_padded.digit c hc)
    · rw [List.mem_singleton.mp hc]
      decide
  have htok : (h.timeText ++ ':' :: ' ' :: s).takeWhile (fun c => !isWhitespace c) =
      h.timeText ++ [':'] := by
    rw [List.append_cons, List.takeWhile_append_of_pos hsolid,
      List.takeWhile_cons_of_neg (by decide), List.append_nil]
  have hdot : Text.contains ['.'] (h.timeText ++ [':']) = true := by
    rw [Text.contains_iff]
    refine (List.singleton_infix_iff '.' _).mpr (List.mem_append_left _ ?_)
    exact List.mem_append_right _ List.mem_cons_self
  obtain ⟨c, t, hcons, hc⟩ := timeText_cons h
  have hhead : (h.timeText ++ [':']).head?.any Char.isDigit = true := by
    rw [hcons]
    exact hc
  unfold takeTime
  rw [trimStart_timeText]
  dsimp only
  rw [htok, hhead, hdot, Bool.and_self, if_pos rfl, parsePerfTime_columns]
  exact ⟨_, rfl⟩

theorem nonzeroTime_columns (h : Columns) : nonzeroTime (some (h.timeNs.getD 0)) = h.timeNs := by
  unfold Columns.timeNs
  cases htime : h.time with
  | none => rfl
  | some ns =>
    have hne : ns.val.toNat ≠ 0 := fun hzero => ns.property (UInt64.toNat_inj.mp hzero)
    exact Option.filter_some_pos (decide_eq_true hne)

end Columns

/-! ### From a line to the tolerant parser -/

theorem asBytes_append (s t : List Char) : Text.asBytes (s ++ t) = Text.asBytes s ++ Text.asBytes t :=
  List.flatMap_append

theorem asBytes_column {s : List Char} (h : ∀ c ∈ s, c ∈ columnChars) :
    ∀ b ∈ Text.asBytes s, b ∈ Text.asBytes columnChars := by
  intro b hb
  obtain ⟨c, hc, hb⟩ := List.mem_flatMap.mp hb
  exact List.mem_flatMap.mpr ⟨c, h c hc, hb⟩

/-- A line whose record starts with a `P` is no sample line. -/
theorem parseLine_columns (h : Columns) {rec : List Char} (hrec : ∃ s, rec = 'P' :: s)
    (hend : Text.trimEnd (h.text ++ ':' :: ' ' :: rec) = h.text ++ ':' :: ' ' :: rec) :
    PerfScript.parseLine (h.text ++ ':' :: ' ' :: rec) =
      PerfScript.parseLineSlow (h.text ++ ':' :: ' ' :: rec) := by
  obtain ⟨s, rfl⟩ := hrec
  have hsample : FastLine.parseSample (Text.asBytes (h.text ++ ':' :: ' ' :: 'P' :: s)) = none := by
    have hpre : ∀ c ∈ h.text ++ [':', ' '], c ∈ columnChars := by
      intro c hc
      rcases List.mem_append.mp hc with hc | hc
      · exact h.text_column c hc
      · exact (show ∀ c ∈ [':', ' '], c ∈ columnChars by decide) c hc
    have hbytes : Text.asBytes (h.text ++ ':' :: ' ' :: 'P' :: s) =
        Text.asBytes (h.text ++ [':', ' ']) ++ 80 :: Text.asBytes s := by
      rw [show h.text ++ ':' :: ' ' :: 'P' :: s = (h.text ++ [':', ' ']) ++ (['P'] ++ s) by simp,
        asBytes_append, asBytes_append]
      rfl
    rw [hbytes]
    exact parseSample_columns (asBytes_column hpre) (by decide) (by decide)
  have hskip : ¬ (h.text ++ ':' :: ' ' :: 'P' :: s = [] ∨
      "#".toList <+: h.text ++ ':' :: ' ' :: 'P' :: s ∨
      "failed to read".toList <+: h.text ++ ':' :: ' ' :: 'P' :: s) := by
    cases htext : h.text with
    | nil => exact absurd htext h.text_ne_nil
    | cons c t =>
      have hc : c ∈ columnChars := h.text_column c (htext ▸ List.mem_cons_self)
      rw [List.cons_append]
      rintro (hnil | hpre | hpre)
      · cases hnil
      · rw [← (List.cons_prefix_cons.mp hpre).1] at hc
        exact absurd hc (by decide)
      · rw [← (List.cons_prefix_cons.mp hpre).1] at hc
        exact absurd hc (by decide)
  unfold PerfScript.parseLine
  rw [hend]
  dsimp only
  rw [if_neg hskip, hsample]

/-! ## Task records -/

section Tasks

open PerfScript

variable {p s needle : List Char}

theorem firstPart_of_absent (h : ¬ needle <:+: s) : firstPart needle s = s := by
  rw [firstPart, Text.splitOnce_none h]
  rfl

/-- What follows the first `needle`, up to the second. -/
theorem secondPart_skip {n : Char} {ns : List Char} (h : n ∉ p) :
    secondPart (n :: ns) (p ++ (n :: ns ++ s)) = some (firstPart (n :: ns) s) := by
  rw [secondPart, Text.splitOnce_skip h]
  rfl

/-- What cannot begin a match stays in front. -/
theorem firstPart_skip {n : Char} {ns : List Char} (h : n ∉ p) :
    firstPart (n :: ns) (p ++ s) = p ++ firstPart (n :: ns) s := by
  unfold firstPart Text.splitOnce
  rw [Text.find_skip h]
  cases Text.find (n :: ns) s with
  | none => rfl
  | some i =>
    simp only [Option.map_some, Option.getD_some]
    rw [Nat.add_comm i, List.take_length_add_append]

/-- A front that contains the needle is cut. -/
theorem firstPart_append (h : needle <:+: p) : firstPart needle (p ++ s) = firstPart needle p := by
  have hsame := Text.find_append_of_infix h s
  obtain ⟨i, hfind, hle⟩ := Text.find_of_infix h s
  rw [hsame] at hfind
  unfold firstPart Text.splitOnce
  rw [hsame, hfind]
  simp only [Option.map_some, Option.getD_some]
  exact List.take_append_of_le_length (by omega)

theorem trim_digits {ds : List Char} (h : Digits ds) : Text.trim ds = ds := by
  obtain ⟨c, s, rfl, hc⟩ := h.cons
  rw [Text.trim, Text.trimStart_of_cons (not_whitespace_of_digit hc)]
  exact Text.trimEnd_append_word [] h.ne_nil fun c hc => not_whitespace_of_digit (h.digit c hc)

theorem notMem_digits {ds : List Char} (h : Digits ds) {c : Char} (hc : c.isDigit = false) :
    c ∉ ds := fun hmem => by
  rw [h.digit c hmem] at hc
  cases hc

theorem splitOnce_pair (t : Task) :
    Text.splitOnce [':'] t.pair = some (Text.decimal t.pid, Text.decimal t.tid) :=
  Text.splitOnce_char (notMem_digits digits_decimal (by decide))

theorem notMem_pair (t : Task) {c : Char} (hc : c.isDigit = false) (hcolon : c ≠ ':') :
    c ∉ t.pair := by
  rw [Task.pair, List.mem_append, List.mem_cons]
  rintro (hmem | rfl | hmem)
  · exact notMem_digits digits_decimal hc hmem
  · exact hcolon rfl
  · exact notMem_digits digits_decimal hc hmem

theorem parsePair_pair (t : Task) : parsePair t.pair = some (t.pid, t.tid) := by
  rw [parsePair, splitOnce_pair, Option.bind_some]
  dsimp only
  rw [trim_digits digits_decimal, parseU32_decimal t.pid_lt, Option.bind_some,
    trim_digits digits_decimal, parseU32_decimal t.tid_lt]
  rfl

/-- The child's pair is the first in parentheses. -/
theorem childPair_pairs (t : Task) {rest : List Char} (h : '(' ∉ p) :
    childPair (p ++ '(' :: (t.pair ++ ')' :: rest)) = some (t.pid, t.tid, rest) := by
  have hclose : ')' ∉ '(' :: t.pair := by
    rw [List.mem_cons, not_or]
    exact ⟨by decide, notMem_pair t (by decide) (by decide)⟩
  have hdrop : (p ++ '(' :: (t.pair ++ ')' :: rest)).drop p.length =
      ('(' :: t.pair) ++ ')' :: rest := by
    rw [List.drop_left]
    rfl
  have hinner : (p ++ '(' :: (t.pair ++ ')' :: rest)).drop (p.length + 1) =
      t.pair ++ ')' :: rest := by
    rw [← List.drop_drop, List.drop_left]
    rfl
  have hrest : (p ++ '(' :: (t.pair ++ ')' :: rest)).drop (p.length + ('(' :: t.pair).length + 1) =
      rest := by
    rw [Nat.add_assoc, ← List.drop_drop, hdrop, ← List.drop_drop, List.drop_left]
    rfl
  unfold childPair
  rw [Text.find_char h, Option.bind_eq_bind, Option.bind_some, hdrop, Text.find_char hclose,
    Option.bind_eq_bind, Option.bind_some, hinner, List.length_cons, Nat.add_sub_cancel,
    List.take_left, parsePair_pair, Option.bind_some]
  dsimp only
  rw [← List.length_cons (a := '('), hrest]
  rfl

theorem parentPair_pairs (t : Task) :
    parentPair (':' :: '(' :: (t.pair ++ [')'])) = (some t.pid, some t.tid) := by
  have hclose : ')' ∉ t.pair := notMem_pair t (by decide) (by decide)
  unfold parentPair
  rw [if_pos ⟨t.pair ++ [')'], rfl⟩, show (':' :: '(' :: (t.pair ++ [')'])).drop 2 = t.pair ++ [')']
    from rfl, Text.find_char hclose, Option.bind_some, List.take_left, splitOnce_pair]
  dsimp only
  rw [trim_digits digits_decimal, trim_digits digits_decimal, parseU32_decimal t.pid_lt,
    parseU32_decimal t.tid_lt]

end Tasks

/-! ### What a line contains -/

/-- The words a line is searched for. -/
def keywords : List String :=
  ["instruction trace error", "insn trace error", "PERF_RECORD_LOST", " lost ", "LOST",
    "PERF_RECORD_MMAP", "PERF_RECORD_COMM", " PERF_RECORD_EXEC", "PERF_RECORD_FORK",
    "PERF_RECORD_EXIT"]

/-- None has a colon or a parenthesis, and each has a character of no column. -/
theorem keywords_marked : ∀ k ∈ keywords, ':' ∉ k.toList ∧ '(' ∉ k.toList ∧
    ∃ x ∈ k.toList, x ∉ columnChars ∧ x ≠ '(' ∧ x ≠ ')' := by decide

/-- The columns contain no such word, and the colon behind them ends them. -/
theorem infix_columns_iff (h : Columns) {k : String} (hk : k ∈ keywords) {s : List Char} :
    k.toList <:+: h.text ++ ':' :: s ↔ k.toList <:+: s := by
  obtain ⟨hcolon, -, x, hx, hcol, -⟩ := keywords_marked k hk
  rw [Text.infix_marked_iff hcolon]
  exact or_iff_right (Text.not_infix_of_mem hx fun hmem => hcol (h.text_column x hmem))

/-- A letter is not in what follows a record of two pairs. -/
theorem notMem_pairs {x : Char} (hcol : x ∉ columnChars) (hopen : x ≠ '(') (hclose : x ≠ ')')
    (t p : Task) : x ∉ t.pair ++ ')' :: ':' :: '(' :: (p.pair ++ [')']) := by
  have hpair : ∀ t : Task, x ∉ t.pair := by
    intro t hmem
    rcases List.mem_append.mp hmem with hmem | hmem
    · exact hcol (decimal_column x hmem)
    rcases List.mem_cons.mp hmem with rfl | hmem
    · exact hcol (by decide)
    · exact hcol (decimal_column x hmem)
  simp only [List.mem_append, List.mem_cons, List.not_mem_nil, or_false, not_or]
  exact ⟨hpair t, hclose, fun heq => hcol (heq ▸ by decide), hopen, hpair p, hclose⟩

/-- A record of two pairs contains its own name only. -/
theorem infix_pairs_iff (h : Columns) {k : String} (hk : k ∈ keywords) (kind : String) (t p : Task) :
    k.toList <:+: h.text ++ ':' :: ' ' :: pairs kind t p ↔ k.toList <:+: ' ' :: kind.toList := by
  obtain ⟨-, hparen, x, hx, hcol, hopen, hclose⟩ := keywords_marked k hk
  rw [infix_columns_iff h hk, pairs, ← List.cons_append, Text.infix_marked_iff hparen]
  exact or_iff_left (Text.not_infix_of_mem hx (notMem_pairs hcol hopen hclose t p))

/-- `parse_line_slow` on a record that only contains its own name. -/
theorem parseLineSlow_task {line : List Char} {kind : String}
    (hline : ∀ k ∈ keywords, k.toList <:+: line ↔ k.toList <:+: ' ' :: kind.toList) :
    (kind = "PERF_RECORD_FORK" → PerfScript.parseLineSlow line =
        (PerfScript.parseTask line .fork).map fun t => some (.task t)) ∧
      (kind = "PERF_RECORD_EXIT" → PerfScript.parseLineSlow line =
        (PerfScript.parseTask line .exit).map fun t => some (.task t)) := by
  have hhas : ∀ k ∈ keywords,
      Text.contains k.toList line = decide (k.toList <:+: ' ' :: kind.toList) := by
    intro k hk
    rw [Bool.eq_iff_iff, Text.contains_iff, hline k hk, decide_eq_true_iff]
  simp only [keywords, List.forall_mem_cons] at hhas
  obtain ⟨h1, h2, h3, h4, h5, h6, h7, h8, h9, h10, -⟩ := hhas
  unfold PerfScript.parseLineSlow
  simp only [h1, h2, h3, h4, h5, h6, h7, h8, h9, h10]
  constructor
  · rintro rfl
    rfl
  · rintro rfl
    rfl

/-! ### Reading a task record -/

section Tasks

open PerfScript

variable {kind : TaskKind} {after rest s : List Char} {c ct : Nat}

/-- A record of a child names the two pairs of the record. -/
theorem parseTask_child (h : Columns) (hkind : kind = .fork ∨ kind = .exit)
    (hafter : secondPart "PERF_RECORD_".toList (h.text ++ ':' :: ' ' :: s) = some after)
    (hchild : childPair after = some (c, ct, rest)) :
    parseTask (h.text ++ ':' :: ' ' :: s) kind = .ok ⟨kind, c, ct, (parentPair rest).1,
      (parentPair rest).2, h.timeNs, commName (h.text ++ ':' :: ' ' :: s)⟩ := by
  obtain ⟨last, htime⟩ := takeTime_columns h s
  unfold parseTask
  rw [splitPidTid_columns]
  dsimp only
  rw [takeCpu_columns, htime, hafter]
  simp only [hkind, if_true, hchild]
  conv_rhs => rw [← nonzeroTime_columns]
  rfl

/-- A name record is about the first ids behind `PERF_RECORD_`. -/
theorem parseTask_comm (h : Columns)
    (hafter : secondPart "PERF_RECORD_".toList (h.text ++ ':' :: ' ' :: s) = some after)
    {pid tid : Nat} (hids : ((splitPidTid after).map fun r => (r.1, r.2.1)).getD
      (h.sampled.pid, h.sampled.tid) = (pid, tid)) :
    parseTask (h.text ++ ':' :: ' ' :: s) .comm = .ok ⟨.comm, pid, tid, none, none, h.timeNs,
      commName (h.text ++ ':' :: ' ' :: s)⟩ := by
  obtain ⟨last, htime⟩ := takeTime_columns h s
  unfold parseTask
  rw [splitPidTid_columns]
  dsimp only
  rw [takeCpu_columns, htime, hafter]
  conv_rhs => rw [← nonzeroTime_columns]
  cases hsplit : splitPidTid after with
  | none =>
    rw [hsplit] at hids
    cases hids
    simp only [hsplit, reduceCtorEq, or_self, if_false]
    rfl
  | some r =>
    rw [hsplit] at hids
    cases hids
    simp only [hsplit, reduceCtorEq, or_self, if_false]
    rfl

end Tasks

/-- What the record is called is behind `PERF_RECORD_`. -/
theorem secondPart_record (h : Columns) (s : List Char) :
    PerfScript.secondPart "PERF_RECORD_".toList (h.text ++ ':' :: ' ' :: ("PERF_RECORD_".toList ++ s))
      = some (PerfScript.firstPart "PERF_RECORD_".toList s) := by
  have hp : 'P' ∉ h.text ++ [':', ' '] := by
    rw [List.mem_append, not_or]
    exact ⟨fun hmem => absurd (h.text_column 'P' hmem) (by decide), by decide⟩
  have hskip : PerfScript.secondPart ('P' :: "ERF_RECORD_".toList)
      (h.text ++ [':', ' '] ++ ('P' :: "ERF_RECORD_".toList ++ s)) =
      some (PerfScript.firstPart ('P' :: "ERF_RECORD_".toList) s) := secondPart_skip hp
  rwa [List.append_assoc] at hskip

/-- Fork and exit records are read back. -/
theorem parseLine_pairs (h : Columns) (t p : Task) {kind : TaskKind} {name : String}
    (hname : kind = .fork ∧ name = "PERF_RECORD_FORK" ∨ kind = .exit ∧ name = "PERF_RECORD_EXIT") :
    PerfScript.parseLine (h.text ++ ':' :: ' ' :: pairs name t p) =
      .ok (some (.task ⟨kind, t.pid, t.tid, some p.pid, some p.tid, h.timeNs, none⟩)) := by
  have hend : Text.trimEnd (h.text ++ ':' :: ' ' :: pairs name t p) =
      h.text ++ ':' :: ' ' :: pairs name t p := by
    have hlast : h.text ++ ':' :: ' ' :: pairs name t p = (h.text ++ ':' :: ' ' :: (name.toList ++
        '(' :: (t.pair ++ ')' :: ':' :: '(' :: p.pair))) ++ [')'] := by
      rw [pairs]
      simp only [List.append_assoc, List.cons_append]
    rw [hlast]
    exact Text.trimEnd_concat (by decide)
  have hslow := parseLineSlow_task fun k hk => infix_pairs_iff h hk name t p
  have hcomm : PerfScript.commName (h.text ++ ':' :: ' ' :: pairs name t p) = none := by
    have hno : ¬ "PERF_RECORD_COMM".toList <:+: h.text ++ ':' :: ' ' :: pairs name t p := by
      rw [infix_pairs_iff h (by decide)]
      rcases hname with ⟨-, rfl⟩ | ⟨-, rfl⟩
      · decide
      · decide
    rw [PerfScript.commName, PerfScript.secondPart, Text.splitOnce_none hno]
    rfl
  -- what stands behind `PERF_RECORD_`, up to a second one, which there is not
  have hafter : ∀ word : String, name.toList = "PERF_RECORD_".toList ++ word.toList →
      ¬ "PERF_RECORD_".toList <:+: word.toList →
      PerfScript.secondPart "PERF_RECORD_".toList (h.text ++ ':' :: ' ' :: pairs name t p) =
        some (word.toList ++ '(' :: (t.pair ++ ')' :: ':' :: '(' :: (p.pair ++ [')']))) := by
    intro word hword hno
    rw [pairs, hword, List.append_assoc, secondPart_record, firstPart_of_absent]
    rw [Text.infix_marked_iff (by decide), not_or]
    exact ⟨hno, Text.not_infix_of_mem (c := 'P') (by decide)
      (notMem_pairs (by decide) (by decide) (by decide) t p)⟩
  have hread : ∀ word : String, name.toList = "PERF_RECORD_".toList ++ word.toList →
      ¬ "PERF_RECORD_".toList <:+: word.toList → '(' ∉ word.toList →
      PerfScript.parseTask (h.text ++ ':' :: ' ' :: pairs name t p) kind =
        .ok ⟨kind, t.pid, t.tid, some p.pid, some p.tid, h.timeNs, none⟩ := by
    intro word hword hno hparen
    rw [parseTask_child h (hname.imp And.left And.left) (hafter word hword hno)
      (childPair_pairs t hparen), parentPair_pairs, hcomm]
  rcases hname with ⟨rfl, rfl⟩ | ⟨rfl, rfl⟩
  · have hrec : ∃ s, pairs "PERF_RECORD_FORK" t p = 'P' :: s := ⟨_, rfl⟩
    rw [parseLine_columns h hrec hend]
    exact (hslow.1 rfl).trans (by rw [hread "FORK" (by decide) (by decide) (by decide)]; rfl)
  · have hrec : ∃ s, pairs "PERF_RECORD_EXIT" t p = 'P' :: s := ⟨_, rfl⟩
    rw [parseLine_columns h hrec hend]
    exact (hslow.2 rfl).trans (by rw [hread "EXIT" (by decide) (by decide) (by decide)]; rfl)

end Sideband

end TraceMcp.Decode
