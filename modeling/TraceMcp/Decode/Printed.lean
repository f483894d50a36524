import TraceMcp.Lib.Numeral
import TraceMcp.Decode.Cursor

/-!
# Printed sample lines

The three layouts of `src/decode/perf_script/fastline.rs`, printed: decimal
task, CPU and time, the event, flag names in the order of `Flags::names`,
lower case addresses and instruction bytes, with any number of spaces in front
and at least one between columns. Scanning a printed line gives the sample
back.

A cursor in a printed line is described by `At c tail ts`: it stands before
what is left of a column, `tail`, and the columns `ts` after it. One lemma for
each operation and one for each column move it to the end of the line.
-/

namespace TraceMcp.Decode

open TraceMcp.Lib

namespace FastLine

/-! ## Numerals -/

/-- The character of a digit. -/
def digitByte (d : Nat) : UInt8 := UInt8.ofNat (if d < 10 then 48 + d else 87 + d)

/-- `n` in base `base`, lower case, without a prefix. -/
def numeral (base n : Nat) : List UInt8 :=
  (digitList base n).map digitByte

/-- Zeros in front, up to `width` characters. -/
def zeroPad (width : Nat) (ds : List UInt8) : List UInt8 :=
  List.replicate (width - ds.length) 48 ++ ds

theorem notDec_digitByte : ∀ d < 10, notDec (digitByte d) = false := by decide

theorem notHex_digitByte : ∀ d < 16, notHex (digitByte d) = false := by decide

theorem digitByte_dec : ∀ d < 10, (digitByte d - 48).toNat = d := by decide

theorem digitByte_hex : ∀ d < 16, (hexLut (digitByte d) &&& 15).toNat = d := by decide

/-- A run of bytes the scanner reads as `n`: all good, no longer than its
window. -/
structure Run (bad : UInt8 → Bool) (value : List UInt8 → Nat) (ds : List UInt8) (n : Nat) :
    Prop where
  ne_nil : ds ≠ []
  good : ∀ b ∈ ds, bad b = false
  short : ds.length ≤ 16
  value : value ds = n

section

variable {base n : Nat} {bad : UInt8 → Bool} {step : Nat → UInt8 → Nat}

theorem numeral_run (hb : 1 < base) (hbad : ∀ d < base, bad (digitByte d) = false)
    (hstep : ∀ v, ∀ d < base, step v (digitByte d) = v * base + d) (h : n < base ^ 16) :
    Run bad (List.foldl step 0) (numeral base n) n := by
  have hlt := digitList_lt (n := n) hb
  refine ⟨mt List.map_eq_nil_iff.mp digitList_ne_nil, ?_, ?_, ?_⟩
  · intro b hmem
    obtain ⟨d, hd, rfl⟩ := List.mem_map.mp hmem
    exact hbad d (hlt d hd)
  · rw [numeral, List.length_map]
    exact (digitList_length_le_iff hb (by decide)).mpr h
  · have hval : (digitList base n).foldl (fun v d => v * base + d) 0 = n := digitList_value
    conv_rhs => rw [← hval]
    rw [numeral, List.foldl_map]
    exact List.foldl_ext _ _ 0 fun v d hd => hstep v d (hlt d hd)

/-- Zeros in front change neither the value nor the run. -/
theorem Run.zeroPad {ds : List UInt8} (h : Run bad (List.foldl step 0) ds n)
    (hzero : bad 48 = false) (hstep : step 0 48 = 0) {width : Nat} (hw : width ≤ 16) :
    Run bad (List.foldl step 0) (zeroPad width ds) n := by
  have hzeros : ∀ k, (List.replicate k (48 : UInt8)).foldl step 0 = 0 := by
    intro k
    induction k with
    | zero => rfl
    | succ k ih => rw [List.replicate_succ, List.foldl_cons, hstep, ih]
  refine ⟨fun hnil => h.ne_nil (List.append_eq_nil_iff.mp hnil).2, ?_, ?_, ?_⟩
  · intro b hb
    rcases List.mem_append.mp hb with hb | hb
    · rw [List.eq_of_mem_replicate hb]
      exact hzero
    · exact h.good b hb
  · have hshort := h.short
    rw [FastLine.zeroPad, List.length_append, List.length_replicate]
    omega
  · rw [FastLine.zeroPad, List.foldl_append, hzeros]
    exact h.value

end

theorem decimal_run {n : Nat} (h : n < 10 ^ 16) :
    Run notDec Cur.decValue (numeral 10 n) n := by
  refine numeral_run (by decide) notDec_digitByte ?_ h
  intro v d hd
  rw [digitByte_dec d hd]

theorem hex_run {n : Nat} (h : n < 16 ^ 16) : Run notHex Cur.hexValue (numeral 16 n) n := by
  refine numeral_run (by decide) notHex_digitByte ?_ h
  intro v d hd
  rw [digitByte_hex d hd, ← Nat.shiftLeft_add_eq_or_of_lt (i := 4) (by omega), Nat.shiftLeft_eq]

/-- The length of a padded numeral that fits its width. -/
theorem zeroPad_length {width : Nat} {ds : List UInt8} (h : ds.length ≤ width) :
    (zeroPad width ds).length = width := by
  rw [zeroPad, List.length_append, List.length_replicate]
  omega

theorem numeral_length_le {base n k : Nat} (hb : 1 < base) (hk : 0 < k) (h : n < base ^ k) :
    (numeral base n).length ≤ k := by
  rw [numeral, List.length_map]
  exact (digitList_length_le_iff hb hk).mpr h

/-! ## Columns -/

/-- A column holds at least one byte and nothing that ends a token. -/
structure Word (t : List UInt8) : Prop where
  ne_nil : t ≠ []
  solid : ∀ b ∈ t, isStop b = false

theorem Word.of_all {t : List UInt8} (h : (!t.isEmpty && t.all fun b => !isStop b) = true) :
    Word t := by
  rw [Bool.and_eq_true, List.all_eq_true] at h
  refine ⟨?_, fun b hb => ?_⟩
  · rintro rfl
    exact absurd h.1 (by decide)
  · have hb := h.2 b hb
    rwa [Bool.not_eq_true'] at hb

/-- Columns after the first, each behind at least one space. -/
def columns (gap : Nat → Nat) : List (List UInt8) → List UInt8
  | [] => []
  | t :: ts => List.replicate (gap 0 + 1) 32 ++ (t ++ columns (fun i => gap (i + 1)) ts)

/-- A line: `lead` spaces, then its columns. -/
def spaced (lead : Nat) (gap : Nat → Nat) : List (List UInt8) → List UInt8
  | [] => List.replicate lead 32
  | t :: ts => List.replicate lead 32 ++ (t ++ columns gap ts)

/-- The cursor stands before `tail`, the rest of a column, with the columns
`ts` after it. -/
def At (guard : List UInt8) (c : Cur) (tail : List UInt8) (ts : List (List UInt8)) : Prop :=
  (∀ t ∈ ts, Word t) ∧ ∃ gap, c = .on guard (tail ++ columns gap ts)

/-- The cursor stands before the columns `ts`. -/
def Next (guard : List UInt8) (c : Cur) (ts : List (List UInt8)) : Prop :=
  (∀ t ∈ ts, Word t) ∧ At guard c (ts.headD []) ts.tail

section

variable {guard tail : List UInt8} {ts : List (List UInt8)} {t : List UInt8} {c : Cur}

/-- What follows a column is a space or the end of the line. -/
theorem columns_head {gap : Nat → Nat} : ∀ b ∈ (columns gap ts).head?, b = 32 := by
  cases ts with
  | nil => simp [columns]
  | cons t ts => simp [columns, List.replicate_succ]

theorem Word.head (h : Word t) : ∃ b t', t = b :: t' ∧ isStop b = false := by
  obtain ⟨hne, hsolid⟩ := h
  cases t with
  | nil => exact absurd rfl hne
  | cons b t' => exact ⟨b, t', rfl, hsolid b List.mem_cons_self⟩

/-- Spaces before a column are skipped. -/
theorem dropWhile_spaces (n : Nat) (h : Word t) (rest : List UInt8) :
    (List.replicate n 32 ++ (t ++ rest)).dropWhile (· = 32) = t ++ rest := by
  obtain ⟨b, t', rfl, hb⟩ := h.head
  have hspace : b ≠ 32 := by
    rintro rfl
    exact absurd hb (by decide)
  rw [List.dropWhile_append_of_pos (by simp), List.cons_append,
    List.dropWhile_cons_of_neg (by simpa using hspace)]

theorem At.skipWs (h : At guard c [] ts) : Next guard c.skipWs ts := by
  obtain ⟨hwords, gap, rfl⟩ := h
  rw [List.nil_append, Cur.on_skipWs]
  cases ts with
  | nil => exact ⟨hwords, hwords, gap, rfl⟩
  | cons t ts =>
    have ht : Word t := hwords t List.mem_cons_self
    refine ⟨hwords, fun t' ht' => hwords t' (List.mem_cons_of_mem t ht'), fun i => gap (i + 1), ?_⟩
    rw [columns, dropWhile_spaces _ ht]
    rfl

/-- The first column of a line is reached over its leading spaces. -/
theorem spaced_skipWs (lead : Nat) (gap : Nat → Nat) (hwords : ∀ u ∈ t :: ts, Word u) :
    Next guard (Cur.on guard (spaced lead gap (t :: ts))).skipWs (t :: ts) := by
  refine ⟨hwords, fun t' ht' => hwords t' (List.mem_cons_of_mem t ht'), gap, ?_⟩
  rw [Cur.on_skipWs, spaced, dropWhile_spaces _ (hwords t List.mem_cons_self)]
  rfl

theorem Next.words (h : Next guard c ts) : ∀ t ∈ ts, Word t := h.1

theorem Next.at (h : Next guard c (t :: ts)) : At guard c t ts := h.2

theorem Next.token_nil (h : Next guard c []) : c.token = [] := by
  obtain ⟨-, -, gap, rfl⟩ := h
  rw [Cur.on_token]
  rfl

theorem Next.token (h : Next guard c (t :: ts)) : c.token = t := by
  have ht : Word t := h.1 t List.mem_cons_self
  obtain ⟨-, -, gap, rfl⟩ := h
  rw [Cur.on_token, List.headD_cons, List.tail_cons]
  rw [List.takeWhile_append_of_pos fun b hb => by rw [ht.solid b hb]; rfl]
  have hstop : (columns gap ts).takeWhile (fun b => !isStop b) = [] := by
    cases hcols : columns gap ts with
    | nil => rfl
    | cons b bs =>
      have hb : b = 32 :=
        columns_head b (show b ∈ (columns gap ts).head? by rw [hcols]; rfl)
      rw [hb, List.takeWhile_cons_of_neg (by decide)]
  rw [hstop, List.append_nil]

theorem At.adv {a b : List UInt8} (h : At guard c (a ++ b) ts) :
    At guard (c.adv a.length) b ts := by
  obtain ⟨hwords, gap, rfl⟩ := h
  rw [List.append_assoc, Cur.on_adv_append]
  exact ⟨hwords, gap, rfl⟩

/-- Past a token, at the next column. -/
theorem Next.skip (h : Next guard c (t :: ts)) : Next guard (c.adv t.length).skipWs ts := by
  refine At.skipWs (At.adv (a := t) ?_)
  rw [List.append_nil]
  exact h.at

theorem At.peek {b : UInt8} (h : At guard c (b :: tail) ts) : c.peek = b := by
  obtain ⟨-, gap, rfl⟩ := h
  rfl

theorem At.adv_one {b : UInt8} (h : At guard c (b :: tail) ts) : At guard (c.adv 1) tail ts :=
  At.adv (a := [b]) h

theorem stop_append {ds : List UInt8} {bad : UInt8 → Bool} {gap : Nat → Nat}
    (hspace : bad 32 = true) (hstop : ∀ b ∈ ds.head?, bad b = true) :
    ∀ b ∈ (ds ++ columns gap ts).head?, bad b = true := by
  cases ds with
  | nil =>
    intro b hb
    rw [columns_head b hb]
    exact hspace
  | cons d ds => exact hstop

theorem At.dec {ds : List UInt8} {n : Nat} (hrun : Run notDec Cur.decValue ds n)
    (hstop : ∀ b ∈ tail.head?, notDec b = true) (h : At guard c (ds ++ tail) ts) :
    ∃ c', c.dec = (n, ds.length, c') ∧ At guard c' tail ts := by
  obtain ⟨hwords, gap, rfl⟩ := h
  rw [List.append_assoc, Cur.on_dec,
    Cur.findIdx_run hrun.good hrun.short (stop_append (by decide) hstop), List.take_left,
    List.drop_left, hrun.value]
  exact ⟨_, rfl, hwords, gap, rfl⟩

theorem At.hex {ds : List UInt8} {n : Nat} (hrun : Run notHex Cur.hexValue ds n)
    (h : At guard c ds ts) : ∃ c', c.hex = (n, ds.length, c') ∧ At guard c' [] ts := by
  obtain ⟨hwords, gap, rfl⟩ := h
  have hstop : ∀ b ∈ (columns gap ts).head?, notHex b = true := by
    intro b hb
    rw [columns_head b hb]
    decide
  rw [Cur.on_hex, Cur.findIdx_run hrun.good hrun.short hstop, List.take_left, List.drop_left,
    hrun.value]
  exact ⟨_, rfl, hwords, gap, rfl⟩

theorem Run.length_ne {bad : UInt8 → Bool} {value : List UInt8 → Nat} {ds : List UInt8} {n : Nat}
    (h : Run bad value ds n) : ds.length ≠ 0 :=
  mt List.length_eq_zero_iff.mp h.ne_nil

/-! ## Task, CPU, time and event -/

variable {pid tid cpu : Nat}

/-- `PID/TID`. -/
def idsColumn (pid tid : Nat) : List UInt8 := numeral 10 pid ++ 47 :: numeral 10 tid

theorem scanIds_printed (hpid : pid < 2 ^ 32) (htid : tid < 2 ^ 32)
    (h : Next guard c.skipWs (idsColumn pid tid :: ts)) :
    ∃ c', scanIds c = some (pid, tid, c') ∧ Next guard c' ts := by
  have hp := decimal_run (n := pid) (by omega)
  have ht := decimal_run (n := tid) (by omega)
  obtain ⟨c₁, hdec₁, h₁⟩ := At.dec hp (by rintro _ ⟨⟩; rfl) h.at
  obtain ⟨c₂, hdec₂, h₂⟩ := At.dec ht (show ∀ b ∈ ([] : List UInt8).head?, _ by simp)
    (by rw [List.append_nil]; exact h₁.adv_one)
  refine ⟨c₂.skipWs, ?_, h₂.skipWs⟩
  unfold scanIds
  rw [hdec₁]
  dsimp only
  rw [if_neg (by rw [h₁.peek]; exact not_or.mpr ⟨hp.length_ne, by decide⟩), hdec₂]
  dsimp only
  rw [if_neg ht.length_ne]

/-- `[CPU]`, at least three digits. -/
def cpuColumn (cpu : Nat) : List UInt8 := 91 :: (zeroPad 3 (numeral 10 cpu) ++ [93])

theorem scanCpu_printed (hcpu : cpu < 2 ^ 32) (h : Next guard c (cpuColumn cpu :: ts)) :
    ∃ c', scanCpu c = some (some cpu, c') ∧ Next guard c' ts := by
  have hrun : Run notDec Cur.decValue (zeroPad 3 (numeral 10 cpu)) cpu :=
    (decimal_run (by omega)).zeroPad (by decide) (by decide) (by decide)
  obtain ⟨c₁, hdec, h₁⟩ := At.dec hrun
    (show ∀ b ∈ ([93] : List UInt8).head?, _ by rintro _ ⟨⟩; rfl) h.at.adv_one
  refine ⟨(c₁.adv 1).skipWs, ?_, h₁.adv_one.skipWs⟩
  unfold scanCpu
  rw [if_pos h.at.peek, hdec]
  dsimp only
  rw [if_neg (by rw [h₁.peek]; exact not_or.mpr ⟨hrun.length_ne, by decide⟩), Nat.mod_eq_of_lt hcpu]

/-- `SEC.NS:`, nine fractional digits. -/
def timeColumn (ns : Nat) : List UInt8 :=
  numeral 10 (ns / 10 ^ 9) ++ 46 :: (zeroPad 9 (numeral 10 (ns % 10 ^ 9)) ++ [58])

/-- Without a CPU the time is next, and a digit is no bracket. -/
theorem scanCpu_absent {ns : Nat} (h : Next guard c (timeColumn ns :: ts)) :
    scanCpu c = some (none, c) := by
  have hlt : ∀ d ∈ digitList 10 (ns / 10 ^ 9), d < 10 := digitList_lt (by decide)
  have hat := h.at
  rw [timeColumn, numeral] at hat
  cases hds : digitList 10 (ns / 10 ^ 9) with
  | nil => exact absurd hds digitList_ne_nil
  | cons d ds =>
    rw [hds] at hat hlt
    have hpeek : c.peek = digitByte d := hat.peek
    have hdigit := notDec_digitByte d (hlt d List.mem_cons_self)
    unfold scanCpu
    rw [if_neg]
    intro h91
    rw [← hpeek, h91] at hdigit
    exact absurd hdigit (by decide)

theorem scanTime_printed {ns : Nat} (hns : ns < 2 ^ 64) (h : Next guard c (timeColumn ns :: ts)) :
    ∃ c', scanTime c = some (ns, c') ∧ Next guard c' ts := by
  have hs : Run notDec Cur.decValue (numeral 10 (ns / 10 ^ 9)) (ns / 10 ^ 9) :=
    decimal_run (by omega)
  have hf : Run notDec Cur.decValue (zeroPad 9 (numeral 10 (ns % 10 ^ 9))) (ns % 10 ^ 9) :=
    (decimal_run (by omega)).zeroPad (by decide) (by decide) (by decide)
  have hnine : (zeroPad 9 (numeral 10 (ns % 10 ^ 9))).length = 9 :=
    zeroPad_length (numeral_length_le (by decide) (by decide) (by omega))
  obtain ⟨c₁, hdec₁, h₁⟩ := At.dec hs (by rintro _ ⟨⟩; rfl) h.at
  obtain ⟨c₂, hdec₂, h₂⟩ := At.dec hf
    (show ∀ b ∈ ([58] : List UInt8).head?, _ by rintro _ ⟨⟩; rfl) h₁.adv_one
  refine ⟨(c₂.adv 1).skipWs, ?_, h₂.adv_one.skipWs⟩
  unfold scanTime
  rw [hdec₁]
  dsimp only
  rw [if_neg (by rw [h₁.peek]; exact not_or.mpr ⟨hs.length_ne, by decide⟩), hdec₂]
  dsimp only
  rw [hnine, if_neg (by rw [h₂.peek]; decide)]
  -- the two parts make the time, without overflow
  have hmul : checkedMul (ns / 10 ^ 9) 1000000000 = some (ns / 10 ^ 9 * 1000000000) :=
    if_pos (by unfold wordSize; omega)
  have hadd : checkedAdd (ns / 10 ^ 9 * 1000000000) (ns % 10 ^ 9 * 10 ^ (9 - 9)) = some ns := by
    unfold checkedAdd wordSize
    rw [if_pos (by omega)]
    congr 1
    omega
  rw [hmul, Option.bind_some, hadd]
  rfl

/-- `branches:u:` or `instructions:u:`. -/
def eventColumn (instruction : Bool) : List UInt8 :=
  Text.ascii (if instruction then "instructions:u:" else "branches:u:")

/-- The event a column names. -/
def eventOf (instruction : Bool) : SampleEvent :=
  if instruction then .instructions else .branches

theorem scanEvent_printed {instruction : Bool} (h : Next guard c (eventColumn instruction :: ts)) :
    ∃ c', scanEvent c = some (eventOf instruction, c') ∧ Next guard c' ts := by
  refine ⟨_, ?_, h.skip⟩
  unfold scanEvent
  rw [h.token]
  cases instruction with
  | true => rfl
  | false => rfl

/-! ## Flag words -/

/-- What a flag word does to the flags read so far, and whether it was `hw`. -/
def readWord (acc : Flags × Bool) (w : List UInt8) : Flags × Bool :=
  (acc.1.note acc.2 ((Flags.fromToken w).getD .EMPTY), decide (w = Text.ascii "hw"))

/-- A word of the flag vocabulary. -/
def Vocabulary (w : List UInt8) : Prop := (Flags.fromToken w).isSome = true

/-- Flag words are read one by one, in front of the addresses … -/
theorem scanFlags_printed {ws : List (List UInt8)} (hws : ∀ w ∈ ws, Vocabulary w) :
    ∀ c f hw, Next guard c (ws ++ ts) →
      ∃ c', scanFlags c f hw = scanFlags c' (ws.foldl readWord (f, hw)).1
          (ws.foldl readWord (f, hw)).2 ∧ Next guard c' ts := by
  induction ws with
  | nil =>
    intro c f hw h
    exact ⟨c, rfl, h⟩
  | cons w ws ih =>
    intro c f hw h
    obtain ⟨g, hg⟩ := Option.isSome_iff_exists.mp (hws w List.mem_cons_self)
    have hword : Word w := h.words w List.mem_cons_self
    obtain ⟨c', hrest, hnext⟩ := ih (fun w' hw' => hws w' (List.mem_cons_of_mem w hw')) _
      (f.note hw g) (decide (w = Text.ascii "hw")) h.skip
    refine ⟨c', ?_, hnext⟩
    rw [scanFlags, h.token, if_neg hword.ne_nil, hg]
    dsimp only
    rw [hrest, List.foldl_cons, readWord, hg]
    rfl

/-- A word that names a column is not a flag. -/
theorem vocabulary_ne {w key : List UInt8} (h : Vocabulary w)
    (hkey : Flags.fromToken key = none) : w ≠ key := by
  rintro rfl
  rw [Vocabulary, hkey] at h
  cases h

/-- … and behind them. -/
theorem scanFields_words {ws : List (List UInt8)} (hws : ∀ w ∈ ws, Vocabulary w) :
    ∀ c f hw len insn, Next guard c (ws ++ ts) →
      ∃ c', scanFields c f hw len insn = scanFields c' (ws.foldl readWord (f, hw)).1
          (ws.foldl readWord (f, hw)).2 len insn ∧ Next guard c' ts := by
  induction ws with
  | nil =>
    intro c f hw len insn h
    exact ⟨c, rfl, h⟩
  | cons w ws ih =>
    intro c f hw len insn h
    have hvoc := hws w List.mem_cons_self
    obtain ⟨g, hg⟩ := Option.isSome_iff_exists.mp hvoc
    have hword : Word w := h.words w List.mem_cons_self
    obtain ⟨c', hrest, hnext⟩ := ih (fun w' hw' => hws w' (List.mem_cons_of_mem w hw')) _
      (f.note hw g) (decide (w = Text.ascii "hw")) len insn h.skip
    refine ⟨c', ?_, hnext⟩
    have hilen : w ≠ Text.ascii "ilen:" := vocabulary_ne hvoc (by decide)
    have hinsnlen : w ≠ Text.ascii "insnlen:" := vocabulary_ne hvoc (by decide)
    have hinsn : w ≠ Text.ascii "insn:" := vocabulary_ne hvoc (by decide)
    rw [scanFields, h.token, if_neg hword.ne_nil]
    dsimp only
    rw [if_neg (not_or.mpr ⟨hilen, hinsnlen⟩), if_neg hinsn, hg]
    dsimp only
    rw [hrest, List.foldl_cons, readWord, hg]
    rfl

/-! ## Addresses -/

/-- Nothing that ends a token is good, so a run of good bytes is a word. -/
theorem Run.word {bad : UInt8 → Bool} {value : List UInt8 → Nat} {ds : List UInt8} {n : Nat}
    (h : Run bad value ds n) (hbad : [32, 9, 10].all bad = true) : Word ds := by
  refine ⟨h.ne_nil, fun b hb => ?_⟩
  by_contra hstop
  rw [Bool.not_eq_false, isStop, Bool.or_eq_true, Bool.or_eq_true] at hstop
  have hmem : b ∈ ([32, 9, 10] : List UInt8) := by simpa [or_assoc] using hstop
  have hgood := h.good b hb
  rw [List.all_eq_true.mp hbad b hmem] at hgood
  cases hgood

theorem Run.hex_token {ds : List UInt8} {n : Nat} (h : Run notHex Cur.hexValue ds n) :
    isHexToken ds = true := by
  have hgood : ds.all (fun b => !notHex b) = true :=
    List.all_eq_true.mpr fun b hb => by rw [h.good b hb]; rfl
  have hne : ds.isEmpty = false := List.isEmpty_eq_false_iff.mpr h.ne_nil
  rw [isHexToken, hgood, hne, decide_eq_true h.short]
  rfl

/-- No flag word is a number. -/
theorem fromToken_of_hex (h : isHexToken t = true) : Flags.fromToken t = none := by
  have hall : ∀ e ∈ Flags.vocabulary, isHexToken (Text.ascii e.1) = false := by decide
  rw [Flags.fromToken, Option.map_eq_none_iff, List.find?_eq_none]
  intro e he heq
  have hword := hall e he
  rw [of_decide_eq_true heq, h] at hword
  cases hword

/-- Addresses end the flag words. -/
theorem scanFlags_stop {f : Flags} {hw : Bool} (ht : isHexToken t = true)
    (h : Next guard c (t :: ts)) : scanFlags c f hw = (f, hw, c) := by
  have hword : Word t := h.words t List.mem_cons_self
  rw [scanFlags, h.token, if_neg hword.ne_nil, fromToken_of_hex ht]

/-- An address, lower case. -/
def addrColumn (a : Nat) : List UInt8 := numeral 16 a

theorem addr_run {a : Nat} (h : a < 2 ^ 64) : Run notHex Cur.hexValue (addrColumn a) a :=
  hex_run (by omega)

/-- `IP => ADDR`. -/
theorem scanAddrs_arrow {ip addr : Nat} (event : SampleEvent) (hip : ip < 2 ^ 64)
    (haddr : addr < 2 ^ 64)
    (h : Next guard c (addrColumn ip :: Text.ascii "=>" :: addrColumn addr :: ts)) :
    ∃ c', scanAddrs c event = some (some ip, some addr, c') ∧ Next guard c' ts := by
  obtain ⟨c₁, hhex₁, h₁⟩ := (h.at).hex (addr_run hip)
  have harrow := h₁.skipWs
  have hstarts : c₁.skipWs.startsWith (Text.ascii "=>") = true := by
    obtain ⟨-, -, gap, heq⟩ := harrow
    rw [heq, Cur.on_startsWith]
    exact decide_eq_true ⟨_, rfl⟩
  have hto : Next guard ((c₁.skipWs.adv 2).skipWs) (addrColumn addr :: ts) := harrow.skip
  obtain ⟨c₂, hhex₂, h₂⟩ := (hto.at).hex (addr_run haddr)
  refine ⟨c₂.skipWs, ?_, h₂.skipWs⟩
  unfold scanAddrs
  rw [h.token, if_pos (addr_run hip).hex_token, hhex₁]
  dsimp only
  rw [if_pos hstarts, hto.token, if_pos (addr_run haddr).hex_token, hhex₂]

/-- Two addresses without an arrow: an instruction's own comes second. -/
theorem scanAddrs_pair {a b : Nat} (instruction : Bool) (ha : a < 2 ^ 64) (hb : b < 2 ^ 64)
    (h : Next guard c (addrColumn a :: addrColumn b :: ts)) :
    ∃ c', scanAddrs c (eventOf instruction) =
        some (if instruction then (some b, some a, c') else (some a, some b, c')) ∧
      Next guard c' ts := by
  obtain ⟨c₁, hhex₁, h₁⟩ := (h.at).hex (addr_run ha)
  have hsecond := h₁.skipWs
  have hstarts : c₁.skipWs.startsWith (Text.ascii "=>") = false := by
    obtain ⟨hwords, -, gap, heq⟩ := hsecond
    rw [heq, Cur.on_startsWith, List.headD_cons, List.tail_cons]
    refine decide_eq_false fun hpre => ?_
    -- an equals sign is no digit
    have hrun := addr_run hb
    cases hcol : addrColumn b with
    | nil => exact hrun.ne_nil hcol
    | cons d ds =>
      have hd := hrun.good d (hcol ▸ List.mem_cons_self)
      rw [hcol] at hpre
      have h61 : (61 : UInt8) = d := (List.cons_prefix_cons.mp hpre).1
      rw [← h61] at hd
      exact absurd hd (by decide)
  obtain ⟨c₂, hhex₂, h₂⟩ := (hsecond.at).hex (addr_run hb)
  refine ⟨c₂.skipWs, ?_, h₂.skipWs⟩
  unfold scanAddrs
  rw [h.token, if_pos (addr_run ha).hex_token, hhex₁]
  dsimp only
  rw [hstarts, hsecond.token, if_pos (addr_run hb).hex_token, hhex₂]
  cases instruction <;> rfl

/-! ## Instruction columns -/

theorem scanFields_end {f : Flags} {hw : Bool} {len : Option Nat} {insn : InsnBytes}
    (h : Next guard c []) : scanFields c f hw len insn = some (f, len, insn) := by
  rw [scanFields, h.token_nil, if_pos rfl]

/-- Two hex digits. -/
def byteColumn (b : UInt8) : List UInt8 := zeroPad 2 (numeral 16 b.toNat)

theorem byte_run (b : UInt8) : Run notHex Cur.hexValue (byteColumn b) b.toNat := by
  have hb := b.toNat_lt
  exact (hex_run (by omega)).zeroPad (by decide) (by decide) (by decide)

theorem byteColumn_length (b : UInt8) : (byteColumn b).length = 2 := by
  have hb := b.toNat_lt
  exact zeroPad_length (numeral_length_le (by decide) (by decide) (by omega))

/-- The bytes after `insn:`, as long as there is room. -/
theorem scanInsn_printed : ∀ (bs : List UInt8) (c : Cur) (insn : InsnBytes),
    insn.bytes.length + bs.length ≤ 15 → Next guard c (bs.map byteColumn) →
      ∃ c', (scanInsn c insn).1.bytes = insn.bytes ++ bs ∧ (scanInsn c insn).2 = c' ∧
        Next guard c' []
  | [], c, insn, _, h => by
    have hstop : ¬ (c.token.length = 2 ∧ isHexToken c.token) := by
      rw [h.token_nil]
      decide
    rw [scanInsn, dif_neg hstop]
    exact ⟨c, (List.append_nil _).symm, rfl, h⟩
  | b :: bs, c, insn, hroom, h => by
    rw [List.length_cons] at hroom
    have hgo : c.token.length = 2 ∧ isHexToken c.token := by
      rw [h.token]
      exact ⟨byteColumn_length b, (byte_run b).hex_token⟩
    obtain ⟨c₁, hhex, h₁⟩ := (h.at).hex (byte_run b)
    have hpush : (insn.push b).bytes = insn.bytes ++ [b] := by
      rw [InsnBytes.push, dif_pos (by omega)]
    obtain ⟨c', hbytes, hc', hnext⟩ := scanInsn_printed bs c₁.skipWs (insn.push b)
      (by rw [hpush, List.length_append, List.length_singleton]; omega) h₁.skipWs
    rw [scanInsn, dif_pos hgo, hhex]
    dsimp only
    rw [UInt8.ofNat_toNat]
    refine ⟨c', ?_, hc', hnext⟩
    rw [hbytes, hpush, List.append_assoc, List.singleton_append]

/-- `ilen: N insn: xx xx` at the end of a line. -/
theorem scanFields_insn {f : Flags} {hw : Bool} {len : Nat} {insn : InsnBytes} (hlen : len < 256)
    (h : Next guard c (Text.ascii "ilen:" :: numeral 10 len :: Text.ascii "insn:" ::
      insn.bytes.map byteColumn)) :
    scanFields c f hw none .empty = some (f, some len, insn) := by
  have hrun := decimal_run (n := len) (by omega)
  obtain ⟨c₁, hdec, h₁⟩ := At.dec hrun (show ∀ b ∈ ([] : List UInt8).head?, _ by simp)
    (by rw [List.append_nil]; exact h.skip.at)
  have hinsn := h₁.skipWs
  obtain ⟨c₂, hbytes, hc₂, h₂⟩ := scanInsn_printed insn.bytes _ .empty
    (by have := insn.len_le; show 0 + _ ≤ _; omega) hinsn.skip
  have heq : (scanInsn (c₁.skipWs.adv (Text.ascii "insn:").length).skipWs .empty).1 = insn := by
    cases insn
    exact InsnBytes.mk.injEq .. ▸ hbytes
  rw [scanFields, h.token, if_neg (by decide)]
  dsimp only
  rw [if_pos (Or.inl rfl), hdec, if_neg (not_or.mpr ⟨hrun.length_ne, by omega⟩), scanFields,
    hinsn.token, if_neg (by decide)]
  dsimp only
  rw [if_neg (by decide), if_pos rfl, hc₂, heq, scanFields_end h₂]

end

end FastLine

/-! ## Flag names -/

namespace Flags

/-- The names of `names`, in its order. -/
def nameTable : List (Flags × String) :=
  [(TR_START, "tr strt"), (TR_END, "tr end"), (HW_INT, "hw int"), (CALL, "call"),
    (RETURN, "return"), (JCC, "jcc"), (JMP, "jmp"), (INT, "int"), (IRET, "iret"),
    (SYSCALL, "syscall"), (SYSRET, "sysret"), (ASYNC, "async"), (TX_ABORT, "tx abrt"),
    (VMENTRY, "vmentry"), (VMEXIT, "vmexit"), (UNKNOWN, "?")]

/-- `names`. -/
def names (f : Flags) : List String := (nameTable.filter fun e => f.has e.1).map (·.2)

/-- The words of a name. -/
def nameWords (name : String) : List (List UInt8) :=
  (name.toList.splitOn ' ').map Text.asBytes

/-- The words `Display` writes for a flag set. -/
def words (f : Flags) : List (List UInt8) := f.names.flatMap nameWords

/-- Every name stands for one bit. -/
theorem nameTable_twoPow : ∀ e ∈ nameTable, ∃ i < 16, e.1.bits = BitVec.twoPow 16 i := by
  decide

/-- Together they are all the bits. -/
theorem nameTable_allOnes :
    nameTable.foldl (fun m e => m ||| e.1.bits) 0 = BitVec.allOnes 16 := by
  decide

/-- One name adds what the set has of its bit. -/
theorem union_if_has {f g : Flags} {i : Nat} (hg : g.bits = BitVec.twoPow 16 i) (acc : Flags) :
    (if f.has g then acc.union g else acc) = ⟨acc.bits ||| f.bits &&& g.bits⟩ := by
  have hand := BitVec.and_twoPow f.bits i
  rw [← hg] at hand
  by_cases hbit : f.bits.getLsbD i = true
  · rw [if_pos hbit] at hand
    rw [hand]
    by_cases hz : g.bits = 0
    · have hhas : f.has g = false := by
        rw [has, hand, hz]
        rfl
      simp [hhas, hz]
    · rw [if_pos (by rw [has, hand]; exact bne_iff_ne.mpr hz)]
      rfl
  · rw [if_neg hbit] at hand
    have hhas : f.has g = false := by
      rw [has, hand]
      rfl
    rw [hand, hhas]
    simp

/-- The names of a set make up the set. -/
theorem foldl_names (f : Flags) (table : List (Flags × String))
    (htable : ∀ e ∈ table, ∃ i < 16, e.1.bits = BitVec.twoPow 16 i) :
    ∀ acc : Flags, ((table.filter fun e => f.has e.1).foldl (fun a e => a.union e.1) acc) =
      ⟨acc.bits ||| f.bits &&& table.foldl (fun m e => m ||| e.1.bits) 0⟩ := by
  induction table using List.reverseRecOn with
  | nil => simp
  | append_singleton table e ih =>
    intro acc
    obtain ⟨i, -, hi⟩ := htable e (by simp)
    have hone (a : Flags) : ([e].filter fun e => f.has e.1).foldl (fun a e => a.union e.1) a =
        if f.has e.1 then a.union e.1 else a := by
      rw [List.filter_singleton]
      cases f.has e.1 <;> rfl
    rw [List.filter_append, List.foldl_append, ih (fun e he => htable e (by simp [he])), hone,
      union_if_has hi, List.foldl_append]
    simp [BitVec.and_or_distrib_left, BitVec.or_assoc]

/-- A word of the vocabulary can stand as a column. -/
theorem word_of_vocabulary {w : List UInt8} (h : FastLine.Vocabulary w) : FastLine.Word w := by
  have hall : vocabulary.all (fun e => !(Text.ascii e.1).isEmpty &&
      (Text.ascii e.1).all fun b => !FastLine.isStop b) = true := by decide
  rw [FastLine.Vocabulary, fromToken, Option.isSome_map, List.find?_isSome] at h
  obtain ⟨e, he, heq⟩ := h
  rw [decide_eq_true_iff] at heq
  exact heq ▸ FastLine.Word.of_all (List.all_eq_true.mp hall e he)

/-- Every name but the last is made of vocabulary … -/
theorem nameWords_vocabulary : ∀ e ∈ nameTable, e.1 ≠ UNKNOWN →
    ∀ w ∈ nameWords e.2, (fromToken w).isSome = true := by
  decide

/-- The flag one or two words spell. -/
def spelled : List (List UInt8) → Option Flags
  | [w] => if w = Text.ascii "hw" then none else fromToken w
  | [w₁, w₂] =>
    if fromToken w₁ = some EMPTY ∧ w₂ ≠ Text.ascii "hw" then
      (fromToken w₂).map fun g => if g = INT ∧ w₁ = Text.ascii "hw" then HW_INT else g
    else none
  | _ => none

theorem readWord_spelled {ws : List (List UInt8)} {g : Flags} (h : spelled ws = some g)
    (f : Flags) : ws.foldl FastLine.readWord (f, false) = (f.union g, false) := by
  unfold spelled at h
  split at h
  next w =>
    split at h
    next => cases h
    next hw =>
      show (f.note false ((fromToken w).getD EMPTY), decide (w = Text.ascii "hw")) = _
      rw [h, decide_eq_false hw, note, if_neg (by simp)]
      rfl
  next w₁ w₂ =>
    split at h
    next hw =>
      obtain ⟨g', hg', rfl⟩ := Option.map_eq_some_iff.mp h
      show ((f.note false ((fromToken w₁).getD EMPTY)).note (decide (w₁ = Text.ascii "hw"))
        ((fromToken w₂).getD EMPTY), decide (w₂ = Text.ascii "hw")) = _
      have hfirst : f.note false EMPTY = f := by
        rw [note, if_neg (by simp), union_empty]
      rw [hw.1, hg', decide_eq_false hw.2, Option.getD_some, Option.getD_some, hfirst, note]
      simp only [decide_eq_true_eq]
      split <;> rfl
    next => cases h
  next => cases h

/-- … and spells its flag. -/
theorem nameWords_spelled : ∀ e ∈ nameTable, e.1 ≠ UNKNOWN → spelled (nameWords e.2) = some e.1 := by
  decide

theorem mem_names {f : Flags} (hf : f.has UNKNOWN = false) {e : Flags × String}
    (he : e ∈ nameTable.filter fun e => f.has e.1) : e ∈ nameTable ∧ e.1 ≠ UNKNOWN := by
  obtain ⟨hmem, hhas⟩ := List.mem_filter.mp he
  refine ⟨hmem, fun heq => ?_⟩
  rw [heq, hf] at hhas
  cases hhas

theorem words_vocabulary {f : Flags} (hf : f.has UNKNOWN = false) :
    ∀ w ∈ f.words, FastLine.Vocabulary w := by
  intro w hw
  obtain ⟨name, hname, hw⟩ := List.mem_flatMap.mp hw
  obtain ⟨e, he, rfl⟩ := List.mem_map.mp hname
  obtain ⟨hmem, hne⟩ := mem_names hf he
  exact nameWords_vocabulary e hmem hne w hw

/-- Reading the words of a set back. -/
theorem words_read {f : Flags} (hf : f.has UNKNOWN = false) :
    f.words.foldl FastLine.readWord (EMPTY, false) = (f, false) := by
  have hfold : ∀ (l : List (Flags × String)), (∀ e ∈ l, e ∈ nameTable ∧ e.1 ≠ UNKNOWN) →
      ∀ acc : Flags, ((l.map (·.2)).flatMap nameWords).foldl FastLine.readWord (acc, false) =
        (l.foldl (fun a e => a.union e.1) acc, false) := by
    intro l
    induction l with
    | nil => exact fun _ _ => rfl
    | cons e l ih =>
      intro hl acc
      obtain ⟨hmem, hne⟩ := hl e List.mem_cons_self
      rw [List.map_cons, List.flatMap_cons, List.foldl_append, 
          readWord_spelled (nameWords_spelled e hmem hne) acc,
        List.foldl_cons]
      exact ih (fun e' he' => hl e' (List.mem_cons_of_mem e he')) _
  rw [words, names, hfold _ (fun e he => mem_names hf he),
    foldl_names f nameTable nameTable_twoPow, nameTable_allOnes, BitVec.and_allOnes]
  simp [EMPTY]

end Flags

namespace FastLine

/-! ## Printed lines -/

/-- What every printed sample has: a time, and flags that have a name. -/
structure Printable where
  pid : UInt32
  tid : UInt32
  cpu : Option UInt32
  timeNs : UInt64
  timed : timeNs ≠ 0
  flags : Flags
  named : flags.has .UNKNOWN = false
  ip : UInt64
  addr : UInt64

/-- The layouts of a sample line. -/
inductive Layout
  /-- `FLAGS IP => ADDR`. -/
  | arrow
  /-- `FLAGS ADDR IP ilen: N insn: xx xx`. -/
  | instruction (len : UInt8) (insn : InsnBytes)
  /-- `IP ADDR FLAGS`. -/
  | pair

namespace Layout

def isInstruction : Layout → Bool
  | .instruction .. => true
  | _ => false

def insnLen : Layout → Option Nat
  | .instruction len _ => some len.toNat
  | _ => none

def insn : Layout → InsnBytes
  | .instruction _ insn => insn
  | _ => .empty

end Layout

/-- The columns after the event. -/
def payloadColumns (p : Printable) : Layout → List (List UInt8)
  | .arrow => p.flags.words ++ [addrColumn p.ip.toNat, Text.ascii "=>", addrColumn p.addr.toNat]
  | .instruction len insn =>
    p.flags.words ++ addrColumn p.addr.toNat :: addrColumn p.ip.toNat :: Text.ascii "ilen:" ::
      numeral 10 len.toNat :: Text.ascii "insn:" :: insn.bytes.map byteColumn
  | .pair => addrColumn p.ip.toNat :: addrColumn p.addr.toNat :: p.flags.words

/-- All columns of a line. -/
def lineColumns (p : Printable) (l : Layout) : List (List UInt8) :=
  idsColumn p.pid.toNat p.tid.toNat ::
    ((p.cpu.map fun cpu => cpuColumn cpu.toNat).toList ++
      timeColumn p.timeNs.toNat :: eventColumn l.isInstruction :: payloadColumns p l)

/-- A printed line: `lead` spaces in front, `gap i + 1` behind the `i`th
column. -/
def printLine (lead : Nat) (gap : Nat → Nat) (p : Printable) (l : Layout) : List UInt8 :=
  spaced lead gap (lineColumns p l)

example : printLine 0 (fun _ => 0)
    ⟨1518114, 1518114, some 62, 513961572226468, by decide, Flags.TR_END.union .ASYNC, by decide,
      0x7f5459d6c440, 0⟩ .arrow =
    Text.ascii "1518114/1518114 [062] 513961.572226468: branches:u: tr end async 7f5459d6c440 => 0" := by
  decide +kernel

/-- The sample it shows. -/
def Printable.sample (p : Printable) (l : Layout) : Sample where
  pid := p.pid.toNat
  tid := p.tid.toNat
  cpu := p.cpu.map UInt32.toNat
  timeNs := some p.timeNs.toNat
  event := eventOf l.isInstruction
  ip := some p.ip.toNat
  addr := some p.addr.toNat
  flags := p.flags
  insnLen := l.insnLen
  insn := l.insn

/-! ## Every column is one token -/

theorem Word.append {a b : List UInt8} (ha : Word a) (hb : Word b) : Word (a ++ b) := by
  refine ⟨fun h => ha.ne_nil (List.append_eq_nil_iff.mp h).1, fun x hx => ?_⟩
  rcases List.mem_append.mp hx with hx | hx
  · exact ha.solid x hx
  · exact hb.solid x hx

theorem decimal_word {n : Nat} (h : n < 10 ^ 16) : Word (numeral 10 n) :=
  (decimal_run h).word (by decide)

theorem zeroPad_word {n width : Nat} (h : n < 10 ^ 16) (hw : width ≤ 16) :
    Word (zeroPad width (numeral 10 n)) :=
  ((decimal_run h).zeroPad (by decide) (by decide) hw).word (by decide)

theorem ids_word {pid tid : Nat} (hpid : pid < 2 ^ 32) (htid : tid < 2 ^ 32) :
    Word (idsColumn pid tid) :=
  (decimal_word (by omega)).append
    (Word.append (a := [47]) (.of_all (by decide)) (decimal_word (by omega)))

theorem cpu_word {cpu : Nat} (h : cpu < 2 ^ 32) : Word (cpuColumn cpu) :=
  Word.append (a := [91]) (.of_all (by decide))
    ((zeroPad_word (by omega) (by decide)).append (b := [93]) (.of_all (by decide)))

theorem time_word {ns : Nat} (h : ns < 2 ^ 64) : Word (timeColumn ns) :=
  (decimal_word (by omega)).append
    (Word.append (a := [46]) (.of_all (by decide))
      ((zeroPad_word (by omega) (by decide)).append (b := [58]) (.of_all (by decide))))

theorem event_word (instruction : Bool) : Word (eventColumn instruction) := by
  cases instruction
  · exact .of_all (by decide)
  · exact .of_all (by decide)

theorem addr_word (a : UInt64) : Word (addrColumn a.toNat) :=
  (addr_run a.toNat_lt).word (by decide)

theorem payload_words (p : Printable) (l : Layout) : ∀ t ∈ payloadColumns p l, Word t := by
  have hflags : ∀ t ∈ p.flags.words, Word t := fun t ht =>
    Flags.word_of_vocabulary (Flags.words_vocabulary p.named t ht)
  cases l with
  | arrow =>
    intro t ht
    simp only [payloadColumns, List.mem_append, List.mem_cons, List.not_mem_nil, or_false] at ht
    rcases ht with ht | rfl | rfl | rfl
    · exact hflags t ht
    · exact addr_word _
    · exact .of_all (by decide)
    · exact addr_word _
  | instruction len insn =>
    intro t ht
    simp only [payloadColumns, List.mem_append, List.mem_cons, List.mem_map] at ht
    have hlen := len.toNat_lt
    rcases ht with ht | rfl | rfl | rfl | rfl | rfl | ⟨b, -, rfl⟩
    · exact hflags t ht
    · exact addr_word _
    · exact addr_word _
    · exact .of_all (by decide)
    · exact decimal_word (by omega)
    · exact .of_all (by decide)
    · exact (byte_run b).word (by decide)
  | pair =>
    intro t ht
    simp only [payloadColumns, List.mem_cons] at ht
    rcases ht with rfl | rfl | ht
    · exact addr_word _
    · exact addr_word _
    · exact hflags t ht

theorem line_words (p : Printable) (l : Layout) : ∀ t ∈ lineColumns p l, Word t := by
  intro t ht
  simp only [lineColumns, List.mem_cons, List.mem_append, Option.mem_toList,
    Option.map_eq_some_iff] at ht
  rcases ht with rfl | ⟨cpu, -, rfl⟩ | rfl | rfl | ht
  · exact ids_word p.pid.toNat_lt p.tid.toNat_lt
  · exact cpu_word cpu.toNat_lt
  · exact time_word p.timeNs.toNat_lt
  · exact event_word _
  · exact payload_words p l t ht

/-! ## Scanning a printed line -/

section

variable {guard : List UInt8} {ts : List (List UInt8)} {t : List UInt8} {c : Cur}

/-- The flags in front of the addresses. -/
theorem scanFlags_named {f : Flags} (hf : f.has .UNKNOWN = false) (ht : isHexToken t = true)
    (h : Next guard c (f.words ++ t :: ts)) :
    ∃ c', scanFlags c .EMPTY false = (f, false, c') ∧ Next guard c' (t :: ts) := by
  obtain ⟨c', hscan, hnext⟩ :=
    scanFlags_printed (Flags.words_vocabulary hf) c .EMPTY false h
  rw [Flags.words_read hf] at hscan
  exact ⟨c', by rw [hscan, scanFlags_stop ht hnext], hnext⟩

/-- The flags behind the addresses, at the end of a line. -/
theorem scanFields_named {f : Flags} (hf : f.has .UNKNOWN = false) (h : Next guard c f.words) :
    scanFields c .EMPTY false none .empty = some (f, none, .empty) := by
  obtain ⟨c', hscan, hnext⟩ := scanFields_words (Flags.words_vocabulary hf) c .EMPTY
    false none .empty (show Next guard c (f.words ++ []) by rw [List.append_nil]; exact h)
  rw [Flags.words_read hf] at hscan
  rw [hscan, scanFields_end hnext]

/-- The CPU column, when there is one. -/
theorem scanCpu_optional {cpu : Option UInt32} {ns : UInt64}
    (h : Next guard c ((cpu.map fun cpu => cpuColumn cpu.toNat).toList ++
      timeColumn ns.toNat :: ts)) :
    ∃ c', scanCpu c = some (cpu.map UInt32.toNat, c') ∧
      Next guard c' (timeColumn ns.toNat :: ts) := by
  cases cpu with
  | none => exact ⟨c, scanCpu_absent h, h⟩
  | some cpu => exact scanCpu_printed cpu.toNat_lt h

/-- Flags, addresses and instruction columns, in each layout. -/
theorem scanPayload (p : Printable) (l : Layout) (h : Next guard c (payloadColumns p l)) :
    ∃ f hw c₁ c₂, scanFlags c .EMPTY false = (f, hw, c₁) ∧
      scanAddrs c₁ (eventOf l.isInstruction) = some (some p.ip.toNat, some p.addr.toNat, c₂) ∧
      scanFields c₂ f hw none .empty = some (p.flags, l.insnLen, l.insn) := by
  have hip := p.ip.toNat_lt
  have haddr := p.addr.toNat_lt
  cases l with
  | arrow =>
    obtain ⟨c₁, hflags, h₁⟩ := scanFlags_named p.named (addr_run hip).hex_token h
    obtain ⟨c₂, haddrs, h₂⟩ := scanAddrs_arrow _ hip haddr h₁
    exact ⟨p.flags, false, c₁, c₂, hflags, haddrs, scanFields_end h₂⟩
  | instruction len insn =>
    obtain ⟨c₁, hflags, h₁⟩ := scanFlags_named p.named (addr_run haddr).hex_token h
    obtain ⟨c₂, haddrs, h₂⟩ := scanAddrs_pair true haddr hip h₁
    exact ⟨p.flags, false, c₁, c₂, hflags, haddrs, scanFields_insn len.toNat_lt h₂⟩
  | pair =>
    -- the first address ends the flags before there are any
    have hflags : scanFlags c .EMPTY false = (.EMPTY, false, c) :=
      scanFlags_stop (addr_run hip).hex_token h
    obtain ⟨c₂, haddrs, h₂⟩ := scanAddrs_pair false hip haddr h
    exact ⟨.EMPTY, false, c, c₂, hflags, haddrs, scanFields_named p.named h₂⟩

end

/-- Fast parsing undoes printing. -/
theorem parseSample_printLine (lead : Nat) (gap : Nat → Nat) (p : Printable) (l : Layout) :
    parseSample (printLine lead gap p l) = some (p.sample l) := by
  unfold parseSample parseSampleGuarded printLine
  have hstart : Next (List.replicate guardLen 0) _ _ := spaced_skipWs lead gap (line_words p l)
  obtain ⟨c₁, hids, h₁⟩ := scanIds_printed p.pid.toNat_lt p.tid.toNat_lt hstart
  obtain ⟨c₂, hcpu, h₂⟩ := scanCpu_optional h₁
  obtain ⟨c₃, htime, h₃⟩ := scanTime_printed p.timeNs.toNat_lt h₂
  obtain ⟨c₄, hevent, h₄⟩ := scanEvent_printed h₃
  obtain ⟨f, hw, c₅, c₆, hflags, haddrs, hfields⟩ := scanPayload p l h₄
  have hids' : scanIds ⟨spaced lead gap (lineColumns p l) ++ List.replicate guardLen 0,
      (spaced lead gap (lineColumns p l)).length⟩ = some (p.pid.toNat, p.tid.toNat, c₁) := hids
  have hns : PerfScript.nonzeroTime (some p.timeNs.toNat) = some p.timeNs.toNat := by
    have hne : p.timeNs.toNat ≠ 0 := fun h => p.timed (UInt64.toNat_inj.mp h)
    exact Option.filter_some_pos (decide_eq_true hne)
  simp only [hids', hcpu, htime, hevent, hflags, haddrs, hfields, hns, Option.bind_eq_bind,
    Option.bind_some, Nat.mod_eq_of_lt p.pid.toNat_lt, Nat.mod_eq_of_lt p.tid.toNat_lt]
  rfl

end FastLine

end TraceMcp.Decode
