import TraceMcp.Lib.Bytes
import TraceMcp.Decode.Guard

/-!
# Streaming a text

`stream_records` of `src/decode/perf_script.rs`: the output of `perf script` is
read into a buffer, every complete line of it is consumed, and what is left of
the last one is carried to the front of the buffer. A line is handed to the
unchecked scanner where it lies, so the bytes behind it are whatever the buffer
holds there.

The reader is the bytes still to come and the number of bytes it would like to
hand out at each call; it hands out at least one while there are any. A sink
is a fallible step on a state of its own.

The reference, `lineAtATime`, splits the whole text at its newlines and gives
every line to the safe scanner. Both agree for every reader and every sink
(`streamRecords_eq`): the loop keeps `Carry`, that the filled part of the
buffer is the part of a line that has been read.
-/

namespace TraceMcp.Decode

open TraceMcp.Lib

/-- `StreamStats`. -/
structure StreamStats where
  lines : Nat
  bytes : Nat
  samples : Nat
  unparsed : Nat
  streams : Nat
  deriving DecidableEq

namespace PerfScript

/-! ## One line -/

/-- What `trim_end_bytes` removes. -/
def isTrailing (b : UInt8) : Bool := b = 10 || b = 13 || b = 32 || b = 9

/-- `trim_end_bytes`. -/
def trimEndBytes (s : List UInt8) : List UInt8 := s.rdropWhile isTrailing

section

variable {σ : Type} (sink : σ → RawRecord → Result σ)

/-- The record of a line no parser reads. -/
def unparsedRecord (n : Nat) (text : List Char) (err : Error) : RawRecord :=
  let task := splitPidTid text
  .decoderError
    { timeNs := none
      cpu := none
      pid := task.map (·.1)
      tid := task.map (·.2.1)
      ip := none
      code := none
      message := s!"line {n}: {err.display}: {String.ofList text}" }

/-- `consume_line`, with the scanner it tries first. -/
def consumeWith (scan : List UInt8 → Option Sample) (line : List UInt8) (stats : StreamStats)
    (s : σ) : Result (StreamStats × σ) :=
  let stats := { stats with lines := stats.lines + 1 }
  let line := trimEndBytes line
  if line = [] ∨ line.head? = some 35 then .ok (stats, s)
  else
    match scan line with
    | some x => (sink s (.sample x)).map ({ stats with samples := stats.samples + 1 }, ·)
    | none =>
      let text := fromUtf8Lossy line
      match parseLineSlow text with
      | .ok (some (.sample x)) =>
        (sink s (.sample x)).map ({ stats with samples := stats.samples + 1 }, ·)
      | .ok (some rec) => (sink s rec).map (stats, ·)
      | .ok none => .ok (stats, s)
      | .error err =>
        (sink s (unparsedRecord stats.lines text err)).map
          ({ stats with unparsed := stats.unparsed + 1 }, ·)

/-- `consume_line`: the line lies in memory with `after` behind it. -/
def consumeLine (line after : List UInt8) (stats : StreamStats) (s : σ) :
    Result (StreamStats × σ) :=
  consumeWith sink
    (fun trimmed => FastLine.parseSampleGuarded trimmed (line.drop trimmed.length ++ after))
    line stats s

/-! ## The buffer -/

/-- `Vec::resize` with zeros. -/
def resize (buf : List UInt8) (n : Nat) : List UInt8 :=
  buf.take n ++ List.replicate (n - buf.length) 0

/-- `buf.copy_within(from..to, 0)`. -/
def copyToFront (buf : List UInt8) (start stop : Nat) : List UInt8 :=
  (buf.take stop).drop start ++ buf.drop (stop - start)

/-- `memchr_nl`. -/
def memchrNl (hay : List UInt8) : Nat := hay.findIdx (· = 10)

/-- The position of the last newline (`rposition`). -/
def lastNl (bs : List UInt8) : Option Nat :=
  (bs.reverse.findIdx? (· = 10)).map fun i => bs.length - 1 - i

/-- How many bytes a call of `read` hands out: `want` of them, but at least
one, and no more than are left or fit. -/
def readLen (want room left : Nat) : Nat := min (max want 1) (min room left)

/-- A call that hands out something leaves less. -/
theorem drop_readLen_lt {want room : Nat} {left : List UInt8}
    (h : readLen want room left.length ≠ 0) :
    (left.drop (readLen want room left.length)).length < left.length := by
  have hle : readLen want room left.length ≤ left.length :=
    Nat.le_trans (Nat.min_le_right ..) (Nat.min_le_right ..)
  rw [List.length_drop]
  omega

/-- The buffer a round starts with: a line longer than the buffer makes it
grow. -/
def growBuffer (buf : List UInt8) (filled : Nat) : List UInt8 :=
  if filled = buf.length then resize buf (buf.length * 2) else buf

/-- The complete lines of the first `dataEnd` bytes, from `start` on. -/
def consumeLines (buf : List UInt8) (dataEnd start : Nat) (stats : StreamStats) (s : σ) :
    Result (StreamStats × σ) :=
  if start < dataEnd then do
    let stop := start + memchrNl ((buf.take dataEnd).drop start)
    let (stats, s) ← consumeLine sink ((buf.take stop).drop start) (buf.drop stop)
      { stats with bytes := stats.bytes + (stop - start + 1) } s
    consumeLines buf dataEnd (stop + 1) stats s
  else .ok (stats, s)
  termination_by dataEnd - start

/-- `CHUNK`. -/
def chunkLen : Nat := 4 <<< 20

/-- The buffer at the end of a round, with `filled` bytes carried over. -/
def resetBuffer (buf : List UInt8) (filled : Nat) : List UInt8 :=
  let buf := if buf.length > chunkLen * 4 ∧ filled < chunkLen then buf.take chunkLen else buf
  if buf.length < chunkLen then resize buf chunkLen else buf

/-- The loop of `stream_records`. The reader has `left` to hand out and wants
to hand out `want i` bytes at its `i`th call. -/
def streamLoop (want : Nat → Nat) (left : List UInt8) (i : Nat) (buf : List UInt8) (filled : Nat)
    (stats : StreamStats) (s : σ) : Result (StreamStats × σ) :=
  let buf := growBuffer buf filled
  let n := readLen (want i) (buf.length - filled) left.length
  if _h : n = 0 then
    if filled > 0 then
      consumeLine sink (buf.take filled) (List.replicate FastLine.guardLen 0)
        { stats with bytes := stats.bytes + filled } s
    else .ok (stats, s)
  else
    let buf := buf.take filled ++ left.take n ++ buf.drop (filled + n)
    let filled := filled + n
    match lastNl (buf.take filled) with
    | none => streamLoop want (left.drop n) (i + 1) buf filled stats s
    | some nl =>
      let dataEnd := nl + 1
      let buf := if buf.length < filled + FastLine.guardLen then
        resize buf (filled + FastLine.guardLen) else buf
      do
        let (stats, s) ← consumeLines sink buf dataEnd 0 stats s
        let buf := copyToFront buf dataEnd filled
        streamLoop want (left.drop n) (i + 1) (resetBuffer buf (filled - dataEnd))
          (filled - dataEnd) stats s
  termination_by left.length
  decreasing_by
    · exact drop_readLen_lt _h
    · exact drop_readLen_lt _h

/-- `stream_records`. -/
def streamRecords (want : Nat → Nat) (text : List UInt8) (stats : StreamStats) (s : σ) :
    Result (StreamStats × σ) :=
  streamLoop sink want text 0 (List.replicate chunkLen 0) 0 stats s

/-! ## The reference -/

/-- One line, with the number of bytes it takes up. -/
def consumeAlone (size : Nat) (line : List UInt8) (stats : StreamStats) (s : σ) :
    Result (StreamStats × σ) :=
  consumeWith sink FastLine.parseSample line { stats with bytes := stats.bytes + size } s

/-- The lines of a text one at a time. A newline belongs to the line before
it; nothing after the last newline is not a line. -/
def lineAtATime (text : List UInt8) (stats : StreamStats) (s : σ) : Result (StreamStats × σ) := do
  let lines := text.splitOn 10
  let (stats, s) ← lines.dropLast.foldlM
    (fun (acc : StreamStats × σ) line => consumeAlone sink (line.length + 1) line acc.1 acc.2)
    (stats, s)
  let last := lines.getLast?.getD []
  if last = [] then .ok (stats, s) else consumeAlone sink last.length last stats s

end

/-! ## A line where it lies -/

section

variable {σ : Type} {sink : σ → RawRecord → Result σ} {line after buf : List UInt8}
  {stats : StreamStats} {s : σ}

theorem isTrailing_harmless {b : UInt8} (h : isTrailing b = true) :
    b ∉ ([47, 91, 93, 46, 58] : List UInt8) := by
  have hb : b ∈ ([10, 13, 32, 9] : List UInt8) := by
    simpa [isTrailing, or_assoc] using h
  have hall : ([10, 13, 32, 9] : List UInt8).all
      (fun c => decide (c ∉ ([47, 91, 93, 46, 58] : List UInt8))) = true := by
    decide
  exact of_decide_eq_true (List.all_eq_true.mp hall b hb)

/-- What is behind a trimmed line: the bytes trimmed off, or what follows it. -/
theorem trimmed_harmless (h : FastLine.Harmless after) :
    FastLine.Harmless (line.drop (trimEndBytes line).length ++ after) := by
  have hpre : trimEndBytes line <+: line := List.rdropWhile_prefix ..
  have hsplit : trimEndBytes line ++ line.rtakeWhile isTrailing = line :=
    List.rdropWhile_append_rtakeWhile ..
  have hdrop : line.drop (trimEndBytes line).length = line.rtakeWhile isTrailing :=
    List.append_cancel_left ((List.prefix_iff_eq_append.mp hpre).trans hsplit.symm)
  rw [hdrop]
  cases htrim : line.rtakeWhile isTrailing with
  | nil => exact h
  | cons b bs => exact isTrailing_harmless (List.mem_rtakeWhile_imp (htrim ▸ List.mem_cons_self))

/-- The bytes behind a line do not matter, as long as they start harmlessly. -/
theorem consumeLine_eq (h : FastLine.Harmless after) :
    consumeLine sink line after stats s = consumeWith sink FastLine.parseSample line stats s := by
  unfold consumeLine consumeWith
  dsimp only
  rw [FastLine.parseSampleGuarded_eq (trimmed_harmless h)]

/-! ## The reference, line by line -/

variable {rest : List UInt8}

theorem lineAtATime_last (h : 10 ∉ line) : lineAtATime sink line stats s =
    if line = [] then .ok (stats, s) else consumeAlone sink line.length line stats s := by
  unfold lineAtATime
  rw [List.splitOn_eq_singleton h]
  rfl

/-- The first line of a text, and those of the rest. -/
theorem splitOn_line (h : 10 ∉ line) (rest : List UInt8) : ∃ first others,
    rest.splitOn 10 = first :: others ∧ (line ++ 10 :: rest).splitOn 10 = line :: first :: others := by
  obtain ⟨first, others, hrest⟩ : ∃ first others, rest.splitOn 10 = first :: others :=
    List.exists_cons_of_ne_nil (List.splitOn_ne_nil 10 rest)
  refine ⟨first, others, hrest, ?_⟩
  rw [← hrest]
  exact List.splitOn_append_cons_self_of_not_mem h rest

theorem lineAtATime_cons (h : 10 ∉ line) : lineAtATime sink (line ++ 10 :: rest) stats s =
    (consumeAlone sink (line.length + 1) line stats s >>= fun acc =>
      lineAtATime sink rest acc.1 acc.2) := by
  obtain ⟨first, others, hrest, hsplit⟩ := splitOn_line h rest
  unfold lineAtATime
  rw [hsplit, hrest]
  dsimp only
  rw [List.dropLast_cons_cons, List.getLast?_cons_cons, List.foldlM_cons, bind_assoc]

/-! ### What the reference says

One line counts as a line, and as a sample or as unparsed; what it says goes to
the sink. With a sink that keeps everything the reference is a map over the
lines of the text. -/

/-- What a line says by itself: nothing, or a record, unless it cannot be read. -/
def lineRecord (line : List UInt8) : Result (Option RawRecord) :=
  let line := trimEndBytes line
  if line = [] ∨ line.head? = some 35 then .ok none
  else
    match FastLine.parseSample line with
    | some x => .ok (some (.sample x))
    | none => parseLineSlow (fromUtf8Lossy line)

/-- What the sink is given of line `n`. -/
def lineOutput (n : Nat) (line : List UInt8) : Option RawRecord :=
  match lineRecord line with
  | .ok rec => rec
  | .error err => some (unparsedRecord n (fromUtf8Lossy (trimEndBytes line)) err)

def isSample : Result (Option RawRecord) → Bool
  | .ok (some (.sample _)) => true
  | _ => false

def isUnparsed : Result (Option RawRecord) → Bool
  | .ok _ => false
  | .error _ => true

/-- A line counted. -/
def countLine (stats : StreamStats) (said : Result (Option RawRecord)) : StreamStats :=
  { stats with
    lines := stats.lines + 1
    samples := stats.samples + (isSample said).toNat
    unparsed := stats.unparsed + (isUnparsed said).toNat }

theorem consumeWith_output : consumeWith sink FastLine.parseSample line stats s =
    ((lineOutput (stats.lines + 1) line).elim (.ok s) (sink s)).map
      (countLine stats (lineRecord line), ·) := by
  unfold consumeWith lineOutput lineRecord
  dsimp only
  by_cases hblank : trimEndBytes line = [] ∨ (trimEndBytes line).head? = some 35
  · rw [if_pos hblank, if_pos hblank]
    rfl
  · rw [if_neg hblank, if_neg hblank]
    cases FastLine.parseSample (trimEndBytes line) with
    | some x => rfl
    | none =>
      dsimp only
      cases parseLineSlow (fromUtf8Lossy (trimEndBytes line)) with
      | error err => rfl
      | ok rec =>
        cases rec with
        | none => rfl
        | some rec => cases rec <;> rfl

/-- The lines of a text; nothing after the last newline is none. -/
def textLines (text : List UInt8) : List (List UInt8) :=
  let lines := text.splitOn 10
  if lines.getLast?.getD [] = [] then lines.dropLast else lines

/-- A sink that keeps every record. -/
def keep (kept : List RawRecord) (rec : RawRecord) : Result (List RawRecord) := .ok (kept ++ [rec])

/-- What lines say, the first of them being line `n + 1`. -/
def outputs : Nat → List (List UInt8) → List RawRecord
  | _, [] => []
  | n, line :: lines => (lineOutput (n + 1) line).toList ++ outputs (n + 1) lines

/-- Some lines counted, of so many bytes. -/
def countLines (stats : StreamStats) (bytes : Nat) (lines : List (List UInt8)) : StreamStats :=
  { stats with
    lines := stats.lines + lines.length
    bytes := stats.bytes + bytes
    samples := stats.samples + lines.countP fun line => isSample (lineRecord line)
    unparsed := stats.unparsed + lines.countP fun line => isUnparsed (lineRecord line) }

theorem consumeAlone_keep (size : Nat) (kept : List RawRecord) :
    consumeAlone keep size line stats kept =
      .ok (countLines stats size [line], kept ++ outputs stats.lines [line]) := by
  have hcount : ∀ p : Result (Option RawRecord) → Bool,
      [line].countP (fun line => p (lineRecord line)) = (p (lineRecord line)).toNat := by
    intro p
    rw [List.countP_singleton]
    cases p (lineRecord line) <;> rfl
  rw [consumeAlone, consumeWith_output, countLines, hcount, hcount, outputs, outputs,
    List.append_nil]
  cases lineOutput (stats.lines + 1) line with
  | none =>
    rw [Option.toList_none, List.append_nil]
    rfl
  | some rec => rfl

theorem textLines_last (h : 10 ∉ line) : textLines line = if line = [] then [] else [line] := by
  unfold textLines
  rw [List.splitOn_eq_singleton h]
  rfl

theorem textLines_cons (h : 10 ∉ line) : textLines (line ++ 10 :: rest) = line :: textLines rest := by
  obtain ⟨first, others, hrest, hsplit⟩ := splitOn_line h rest
  unfold textLines
  rw [hsplit, hrest]
  dsimp only
  rw [List.dropLast_cons_cons, List.getLast?_cons_cons]
  split <;> rfl

theorem countLines_countLines (m n : Nat) (lines lines' : List (List UInt8)) :
    countLines (countLines stats m lines) n lines' = countLines stats (m + n) (lines ++ lines') := by
  simp only [countLines, List.length_append, List.countP_append, Nat.add_assoc]

/-- The reference keeps what the lines say, in order, and counts them. -/
theorem lineAtATime_keep (text : List UInt8) (stats : StreamStats) (kept : List RawRecord) :
    lineAtATime keep text stats kept =
      .ok (countLines stats text.length (textLines text),
        kept ++ outputs stats.lines (textLines text)) := by
  induction hn : text.length using Nat.strongRecOn generalizing text stats kept with
  | ind n ih =>
    by_cases hnl : 10 ∈ text
    · -- the first line, and the text behind its newline
      obtain ⟨line, rest, rfl, hline⟩ := List.eq_append_cons_of_mem hnl
      have hlen : line.length + 1 + rest.length = n := by
        rw [← hn, List.length_append, List.length_cons]
        omega
      have hrest := ih rest.length (by omega) rest (countLines stats (line.length + 1) [line])
        (kept ++ outputs stats.lines [line]) rfl
      rw [countLines_countLines, hlen, List.append_assoc] at hrest
      rw [lineAtATime_cons hline, textLines_cons hline, consumeAlone_keep]
      refine Eq.trans hrest ?_
      rw [outputs, outputs, List.append_nil, outputs]
      rfl
    · rw [lineAtATime_last hnl, textLines_last hnl]
      split
      next hnil =>
        subst hnil
        rw [outputs, List.append_nil, ← hn]
        rfl
      next => rw [consumeAlone_keep, hn]

/-! ## The complete lines of a buffer -/

/-- Up to the first newline of bytes that end with one. -/
theorem memchrNl_split {seg : List UInt8} (hnl : seg.getLast? = some 10) :
    seg[memchrNl seg]? = some 10 ∧ memchrNl seg < seg.length ∧
      seg = seg.take (memchrNl seg) ++ 10 :: seg.drop (memchrNl seg + 1) ∧
      10 ∉ seg.take (memchrNl seg) := by
  have hlt : memchrNl seg < seg.length :=
    List.findIdx_lt_length_of_exists ⟨10, List.mem_of_getLast? hnl, by simp⟩
  have hget : seg[memchrNl seg] = 10 := of_decide_eq_true (List.findIdx_getElem (w := hlt))
  refine ⟨by rw [List.getElem?_eq_getElem hlt, hget], hlt, ?_, ?_⟩
  · rw [← hget, ← List.drop_eq_getElem_cons hlt, List.take_append_drop]
  · intro hmem
    obtain ⟨i, hi, heq⟩ := List.getElem_of_mem hmem
    rw [List.length_take] at hi
    have hlt : i < seg.findIdx (· = 10) := show i < memchrNl seg by omega
    have hnot := List.not_of_lt_findIdx hlt
    rw [List.getElem_take] at heq
    rw [heq] at hnot
    exact absurd hnot (by decide)

/-- Consuming the complete lines in front of `rest`, and then `rest`. -/
theorem consumeLines_bind (sink : σ → RawRecord → Result σ) (rest : List UInt8) {dataEnd : Nat} (hend : dataEnd ≤ buf.length)
    (hnl : (buf.take dataEnd).getLast? = some 10) :
    ∀ start stats s,
      (consumeLines sink buf dataEnd start stats s >>= fun acc =>
        lineAtATime sink rest acc.1 acc.2) =
      lineAtATime sink ((buf.take dataEnd).drop start ++ rest) stats s := by
  intro start
  induction hm : dataEnd - start using Nat.strong_induction_on generalizing start with
  | _ m ih =>
  intro stats s
  have hlen : (buf.take dataEnd).length = dataEnd := List.length_take_of_le hend
  rw [consumeLines]
  by_cases hstart : start < dataEnd
  · rw [if_pos hstart]
    obtain ⟨seg, hseg⟩ : ∃ seg, (buf.take dataEnd).drop start = seg := ⟨_, rfl⟩
    have hsegnl : seg.getLast? = some 10 := by
      rw [← hseg, List.getLast?_drop, if_neg (by omega), hnl]
    obtain ⟨hget, hlt, hsplit, hno⟩ := memchrNl_split hsegnl
    rw [hseg]
    dsimp only
    have hk : start + memchrNl seg < dataEnd := by
      rw [← hseg, List.length_drop, hlen, hseg] at hlt
      omega
    -- the slice handed out is the line, and a newline is behind it
    have hline : (buf.take (start + memchrNl seg)).drop start = seg.take (memchrNl seg) := by
      rw [← hseg, List.take_drop, hseg, List.take_take, Nat.min_eq_left (Nat.le_of_lt hk)]
    have hafter : FastLine.Harmless (buf.drop (start + memchrNl seg)) := by
      have hbuf : buf[start + memchrNl seg]? = some 10 := by
        rw [← hget, ← hseg, List.getElem?_drop, List.getElem?_take, if_pos (by rw [hseg]; exact hk),
          hseg]
      unfold FastLine.Harmless
      rw [List.headD_eq_head?_getD, List.head?_drop, hbuf]
      decide
    have hrest : (buf.take dataEnd).drop (start + memchrNl seg + 1) =
        seg.drop (memchrNl seg + 1) := by
      rw [← hseg, List.drop_drop, hseg, Nat.add_assoc]
    have hsize : start + memchrNl seg - start + 1 = (seg.take (memchrNl seg)).length + 1 := by
      rw [List.length_take]
      omega
    rw [hline, hsize, consumeLine_eq hafter, bind_assoc]
    conv_rhs => rw [hsplit, List.append_assoc, List.cons_append, lineAtATime_cons hno]
    unfold consumeAlone
    congr 1
    funext acc
    rw [ih _ (by omega) _ rfl, hrest]
  · rw [if_neg hstart, List.drop_eq_nil_of_le (by omega)]
    rfl

/-! ## The filled part of the buffer -/

variable {bs : List UInt8} {n k : Nat}

theorem lastNl_none (h : lastNl bs = none) : 10 ∉ bs := by
  rw [lastNl, Option.map_eq_none_iff, List.findIdx?_eq_none_iff] at h
  intro hmem
  exact absurd (h 10 (List.mem_reverse.mpr hmem)) (by decide)

/-- The last newline ends what is taken up to it, and there is none behind. -/
theorem lastNl_some (h : lastNl bs = some k) :
    k < bs.length ∧ (bs.take (k + 1)).getLast? = some 10 ∧ 10 ∉ bs.drop (k + 1) := by
  obtain ⟨i, hi, rfl⟩ := Option.map_eq_some_iff.mp h
  obtain ⟨hlt, hget, hbefore⟩ := List.findIdx?_eq_some_iff_getElem.mp hi
  rw [List.length_reverse] at hlt
  have hpos : bs.length - 1 - i < bs.length := by omega
  have hnl : bs[bs.length - 1 - i] = 10 := by
    rw [List.getElem_reverse] at hget
    exact of_decide_eq_true hget
  refine ⟨hpos, ?_, ?_⟩
  · rw [List.getLast?_eq_getElem?, List.length_take_of_le (by omega), List.getElem?_take,
      if_pos (by omega), Nat.add_sub_cancel, List.getElem?_eq_getElem hpos, hnl]
  · intro hmem
    obtain ⟨j, hj, heq⟩ := List.getElem_of_mem hmem
    rw [List.length_drop] at hj
    rw [List.getElem_drop] at heq
    have hno := hbefore (i - 1 - j) (by omega)
    rw [List.getElem_reverse] at hno
    have hidx : bs.length - 1 - (i - 1 - j) = bs.length - 1 - i + 1 + j := by omega
    simp only [hidx, heq] at hno
    exact absurd hno (by decide)

theorem length_resize : (resize buf n).length = n := by
  rw [resize, List.length_append, List.length_take, List.length_replicate]
  omega

theorem take_resize (hn : k ≤ n) (hk : k ≤ buf.length) : (resize buf n).take k = buf.take k := by
  rw [resize, List.take_append_of_le_length (by rw [List.length_take]; omega), List.take_take,
    Nat.min_eq_left hn]

/-- Growing keeps what is filled and makes room. -/
theorem growBuffer_spec (hpos : 0 < buf.length) (hk : k ≤ buf.length) :
    (growBuffer buf k).take k = buf.take k ∧ k < (growBuffer buf k).length := by
  unfold growBuffer
  split
  next h => exact ⟨take_resize (by omega) hk, by rw [length_resize]; omega⟩
  next h => exact ⟨rfl, by omega⟩

/-- Resetting keeps what is carried over and leaves a buffer. -/
theorem resetBuffer_spec (hk : k ≤ buf.length) :
    (resetBuffer buf k).take k = buf.take k ∧ k ≤ (resetBuffer buf k).length ∧
      0 < (resetBuffer buf k).length := by
  have hchunk : 0 < chunkLen := by decide
  have hcut : ∃ b, (if buf.length > chunkLen * 4 ∧ k < chunkLen then buf.take chunkLen else buf) = b
      ∧ b.take k = buf.take k ∧ k ≤ b.length := by
    split
    next h =>
      refine ⟨_, rfl, ?_, ?_⟩
      · rw [List.take_take, Nat.min_eq_left (Nat.le_of_lt h.2)]
      · rw [List.length_take]
        omega
    next => exact ⟨_, rfl, rfl, hk⟩
  obtain ⟨b, hb, htake, hle⟩ := hcut
  unfold resetBuffer
  dsimp only
  rw [hb]
  split
  next h => exact ⟨(take_resize (by omega) hle).trans htake, by rw [length_resize]; omega,
      by rw [length_resize]; exact hchunk⟩
  next h => exact ⟨htake, hle, by omega⟩

theorem length_copyToFront {start stop : Nat} (h : start ≤ stop) (hstop : stop ≤ buf.length) :
    (copyToFront buf start stop).length = buf.length := by
  rw [copyToFront, List.length_append, List.length_drop, List.length_take, List.length_drop]
  omega

/-- What is copied to the front is the filled part behind the complete lines. -/
theorem take_copyToFront {start stop : Nat} (hstop : stop ≤ buf.length) :
    (copyToFront buf start stop).take (stop - start) = (buf.take stop).drop start := by
  have hlen : ((buf.take stop).drop start).length = stop - start := by
    rw [List.length_drop, List.length_take]
    omega
  rw [copyToFront, List.take_append_of_le_length (by omega), List.take_of_length_le (by omega)]

/-! ## The loop -/

/-- The filled part of the buffer is the part of a line that has been read. -/
structure Carry (buf : List UInt8) (filled : Nat) : Prop where
  fits : filled ≤ buf.length
  buffer : 0 < buf.length
  open_ : 10 ∉ buf.take filled

/-- Every round of the loop does what the reference does with the bytes carried
over and the bytes to come. -/
theorem streamLoop_eq (want : Nat → Nat) : ∀ (left : List UInt8) (i : Nat) (buf : List UInt8)
    (filled : Nat) (stats : StreamStats) (s : σ), Carry buf filled →
      streamLoop sink want left i buf filled stats s =
        lineAtATime sink (buf.take filled ++ left) stats s := by
  intro left
  induction hm : left.length using Nat.strong_induction_on generalizing left with
  | _ m ih =>
  intro i buf filled stats s hcarry
  obtain ⟨hkeep, hroom⟩ := growBuffer_spec hcarry.buffer hcarry.fits
  rw [streamLoop]
  dsimp only
  generalize growBuffer buf filled = buf₁ at hkeep hroom
  have hopen := hcarry.open_
  rw [← hkeep] at hopen ⊢
  have hlen : (buf₁.take filled).length = filled := List.length_take_of_le (Nat.le_of_lt hroom)
  by_cases hn : readLen (want i) (buf₁.length - filled) left.length = 0
  · -- the end of the text: what is carried over is its last line
    have hleft : left = [] := by
      rw [readLen] at hn
      exact List.length_eq_zero_iff.mp (by omega)
    rw [dif_pos hn, hleft, List.append_nil, lineAtATime_last hopen]
    by_cases hfilled : filled > 0
    · have hne : buf₁.take filled ≠ [] := List.ne_nil_of_length_pos (by omega)
      rw [if_pos hfilled, if_neg hne, consumeLine_eq (by unfold FastLine.Harmless; decide), hlen]
      rfl
    · have hnil : buf₁.take filled = [] := List.length_eq_zero_iff.mp (by omega)
      rw [if_neg hfilled, if_pos hnil]
  rw [dif_neg hn]
  have hshort := drop_readLen_lt hn
  obtain ⟨n, hreads⟩ : ∃ n, readLen (want i) (buf₁.length - filled) left.length = n := ⟨_, rfl⟩
  have hfit : filled + n ≤ buf₁.length ∧ n ≤ left.length := by
    rw [readLen] at hreads
    omega
  rw [hreads] at hshort ⊢
  -- what is filled now
  obtain ⟨got, hgot⟩ : ∃ got, buf₁.take filled ++ left.take n = got := ⟨_, rfl⟩
  have hgotlen : got.length = filled + n := by
    rw [← hgot, List.length_append, hlen, List.length_take_of_le hfit.2]
  have htext : buf₁.take filled ++ left = got ++ left.drop n := by
    rw [← hgot, List.append_assoc, List.take_append_drop]
  rw [hgot, htext]
  obtain ⟨buf₂, hbuf₂⟩ : ∃ buf₂, got ++ buf₁.drop (filled + n) = buf₂ := ⟨_, rfl⟩
  have htake₂ : buf₂.take (filled + n) = got := by
    rw [← hbuf₂, List.take_left' hgotlen]
  have hlen₂ : filled + n ≤ buf₂.length := by
    rw [← hbuf₂, List.length_append]
    omega
  rw [hbuf₂, htake₂]
  cases hnl : lastNl got with
  | none =>
    have hcarry₂ : Carry buf₂ (filled + n) :=
      ⟨hlen₂, by omega, by rw [htake₂]; exact lastNl_none hnl⟩
    dsimp only
    rw [ih _ (hm ▸ hshort) _ rfl _ _ _ _ _ hcarry₂, htake₂]
  | some nl =>
    obtain ⟨hlt, hlast, htail⟩ := lastNl_some hnl
    dsimp only
    obtain ⟨buf₃, hbuf₃⟩ : ∃ buf₃, (if buf₂.length < filled + n + FastLine.guardLen then
        resize buf₂ (filled + n + FastLine.guardLen) else buf₂) = buf₃ := ⟨_, rfl⟩
    have hspec₃ : buf₃.take (filled + n) = got ∧ filled + n ≤ buf₃.length := by
      rw [← hbuf₃]
      split
      · exact ⟨(take_resize (by omega) hlen₂).trans htake₂, by rw [length_resize]; omega⟩
      · exact ⟨htake₂, hlen₂⟩
    obtain ⟨htake₃, hlen₃⟩ := hspec₃
    rw [hbuf₃]
    have hdata : buf₃.take (nl + 1) = got.take (nl + 1) := by
      rw [← htake₃, List.take_take, Nat.min_eq_left (by omega)]
    -- the loop goes on with what is behind the last newline
    have hcopy : (copyToFront buf₃ (nl + 1) (filled + n)).take (filled + n - (nl + 1)) =
        got.drop (nl + 1) := by
      rw [take_copyToFront hlen₃, htake₃]
    have hfits : filled + n - (nl + 1) ≤ (copyToFront buf₃ (nl + 1) (filled + n)).length := by
      rw [length_copyToFront (by omega) hlen₃]
      omega
    obtain ⟨hreset, hcap, hpos⟩ := resetBuffer_spec hfits
    rw [hcopy] at hreset
    have hnext (stats : StreamStats) (s : σ) := ih _ (hm ▸ hshort) (left.drop n) rfl (i + 1) _ _
      stats s ⟨hcap, hpos, by rw [hreset]; exact htail⟩
    rw [hreset] at hnext
    have hlines := consumeLines_bind sink (got.drop (nl + 1) ++ left.drop n)
      (show nl + 1 ≤ buf₃.length by omega) (by rw [hdata]; exact hlast) 0 stats s
    rw [List.drop_zero, hdata, ← List.append_assoc, List.take_append_drop] at hlines
    rw [← hlines]
    congr 1
    funext acc
    exact hnext acc.1 acc.2

/-- Streaming a text does not depend on how it is read. -/
theorem streamRecords_eq (sink : σ → RawRecord → Result σ) (want : Nat → Nat) (text : List UInt8)
    (stats : StreamStats) (s : σ) :
    streamRecords sink want text stats s = lineAtATime sink text stats s := by
  have hcarry : Carry (List.replicate chunkLen 0) 0 :=
    ⟨Nat.zero_le _, by rw [List.length_replicate]; decide, by simp⟩
  rw [streamRecords, streamLoop_eq want text 0 _ 0 stats s hcarry]
  rfl

end

end PerfScript

end TraceMcp.Decode
