import TraceMcp.Lib.Text
import TraceMcp.Lib.Word
import TraceMcp.Decode.Records

/-!
# The tolerant line parser

`parse_line_slow` of `src/decode/perf_script.rs`, which reads any line of
`perf script` output: samples, sideband records and decoder errors. A line is
a list of characters; slices are taken by character position where the source
takes them by byte position.
-/

namespace TraceMcp.Decode

open TraceMcp.Lib

namespace Flags

/-- The words of `from_token`. The first word of a two-word flag stands for
nothing by itself. -/
def vocabulary : List (String × Flags) :=
  [("call", CALL), ("return", RETURN), ("jcc", JCC), ("jmp", JMP), ("int", INT), ("iret", IRET),
    ("syscall", SYSCALL), ("sysret", SYSRET), ("async", ASYNC), ("abrt", TX_ABORT),
    ("strt", TR_START), ("start", TR_START), ("end", TR_END), ("vmentry", VMENTRY),
    ("vmexit", VMEXIT), ("tr", EMPTY), ("hw", EMPTY), ("tx", EMPTY), ("trace", EMPTY),
    ("begin", EMPTY)]

/-- `from_token`. -/
def fromToken (tok : List UInt8) : Option Flags :=
  (vocabulary.find? fun e => Text.ascii e.1 = tok).map (·.2)

/-- One letter of perf's raw flag string. -/
def rawLetter (c : UInt8) : Option Flags :=
  match Char.ofNat c.toNat with
  | 'b' => some EMPTY
  | 'c' => some CALL
  | 'r' => some RETURN
  | 'o' => some JCC
  | 's' => some SYSCALL
  | 'y' => some ASYNC
  | 'i' => some INT
  | 'A' => some TX_ABORT
  | 'B' => some TR_START
  | 'E' => some TR_END
  | 'x' | 'g' | 'h' | 'D' | 't' => some UNKNOWN
  | _ => none

/-- `from_raw_letters`. -/
def fromRawLetters (tok : List UInt8) : Option Flags :=
  if tok = [] ∨ 16 < tok.length then none
  else tok.foldlM (fun f c => (rawLetter c).map f.union) EMPTY

/-- Add the flag of one token; an `int` right after a `hw` is a hardware
interrupt. -/
def note (f : Flags) (afterHw : Bool) (g : Flags) : Flags :=
  if g = INT ∧ afterHw then f.union HW_INT else f.union g

/-- One token of `parse_str`, with whether the one before was `hw`. -/
def parseToken (acc : Flags × Bool) (tok : List Char) : Flags × Bool :=
  let bytes := Text.asBytes tok
  (match fromToken bytes with
    | some g => acc.1.note acc.2 g
    | none => acc.1.union ((fromRawLetters bytes).getD UNKNOWN),
   tok = "hw".toList)

/-- `parse_str`. -/
def parseStr (s : List Char) : Flags := ((Text.words s).foldl parseToken (EMPTY, false)).1

end Flags

namespace PerfScript

/-! ## Fields -/

/-- `parse_address` of `src/model/json.rs`. -/
def parseAddress (s : List Char) : Option Nat :=
  let t := Text.trim s
  let hex := if "0x".toList <+: t ∨ "0X".toList <+: t then t.drop 2 else t
  Text.fromStrRadix (2 ^ 64) 16 hex

/-- `is_hex_token`. -/
def isHexToken (t : List Char) : Bool := (parseAddress t).isSome

/-- `parse_perf_time`: `seconds.frac` with integer math. -/
def parsePerfTime (token : List Char) : Result Nat :=
  let token := Text.trimEndChar ':' (Text.trim token)
  let (secS, fracS) := (Text.splitOnce ['.'] token).getD (token, ['0'])
  match Text.parseU64 secS with
  | none => .error (.decodeFailed ("bad time seconds " ++ String.ofList token))
  | some sec =>
    -- Nine digits of the fraction, padded at the end.
    let frac := fracS.take 9
    match Text.parseU64 (frac ++ List.replicate (9 - frac.length) '0') with
    | none => .error (.decodeFailed ("bad time fraction " ++ String.ofList token))
    | some nsec =>
      match (checkedMul sec 1000000000).bind (checkedAdd · nsec) with
      | none => .error (.decodeFailed ("time overflow " ++ String.ofList token))
      | some ns => .ok ns

/-- `split_pid_tid`: the first `PID/TID`, and what follows it. -/
def splitPidTid (line : List Char) : Option (Nat × Nat × List Char) :=
  match line with
  | [] => none
  | c :: s =>
    if c.isDigit then
      match _hrest : s.dropWhile Char.isDigit with
      | '/' :: rest =>
        match Text.parseU32 (c :: s.takeWhile Char.isDigit) with
        | none => none
        | some pid =>
          if rest.takeWhile Char.isDigit ≠ [] then
            (Text.parseU32 (rest.takeWhile Char.isDigit)).map fun tid =>
              (pid, tid, rest.dropWhile Char.isDigit)
          else splitPidTid (rest.drop 1)
      | rest => splitPidTid (rest.drop 1)
    else splitPidTid s
  termination_by line.length
  decreasing_by
    · have hle := (List.dropWhile_sublist (p := Char.isDigit) (l := s)).length_le
      simp only [_hrest, List.length_cons, List.length_drop] at hle ⊢
      omega
    · have hle := (List.dropWhile_sublist (p := Char.isDigit) (l := s)).length_le
      simp only [_hrest, List.length_cons, List.length_drop] at hle ⊢
      omega
    · exact Nat.lt_succ_self _

/-- `take_cpu`. -/
def takeCpu (s : List Char) : Option Nat × List Char :=
  let s := Text.trimStart s
  match s with
  | '[' :: rest =>
    match Text.find [']'] rest with
    | some stop => (Text.parseU32 (Text.trim (rest.take stop)), Text.trimStart (rest.drop (stop + 1)))
    | none => (none, s)
  | _ => (none, s)

/-- `take_time`. -/
def takeTime (s : List Char) : Result (Option Nat × List Char) :=
  let s := Text.trimStart s
  let tok := s.takeWhile fun c => !isWhitespace c
  let rest := s.dropWhile fun c => !isWhitespace c
  if tok.head?.any Char.isDigit && Text.contains ['.'] tok then
    (parsePerfTime tok).map fun ns =>
      (some ns, Text.trimStart (Text.trimStartChar ':' (Text.trimStart rest)))
  else .ok (none, s)

/-- `nonzero_time`. -/
def nonzeroTime (t : Option Nat) : Option Nat := t.filter (· ≠ 0)

/-! ## Samples -/

/-- `split_event`. -/
def splitEvent (s : List Char) : Option (List Char × List Char) :=
  (Text.splitOnce [':'] s).map fun (event, after) => (Text.trim event, Text.trimStart after)

/-- `strip_event_modifiers`. -/
def stripEventModifiers (s : List Char) : List Char :=
  let s := Text.trimStart s
  match Text.splitOnce [':'] s with
  | some (pre, after) =>
    if pre ≠ [] ∧ Text.byteLen pre ≤ 8 ∧ pre.all Char.isAlpha then Text.trimStart after else s
  | none => s

/-- The byte tokens after `insn:`. -/
def takeInsnBytes : List (List Char) → InsnBytes → InsnBytes
  | [], insn => insn
  | t :: ts, insn =>
    if t.getLast? = some ':' ∨ t = "ilen".toList ∨ t = "insnlen".toList then insn
    else if Text.byteLen t = 2 ∧ insn.bytes.length < 15 then
      match Text.fromStrRadix (2 ^ 8) 16 t with
      | some v => takeInsnBytes ts (insn.push (UInt8.ofNat v))
      | none => insn
    else insn

/-- The length `parse_insn_fields` reads after `key`, if it is there. -/
def lenAfter (s : List Char) (key : List Char) : Option Nat :=
  (Text.find key s).bind fun i =>
    let after := Text.trimStartChar ':' (Text.trimStart (s.drop (i + key.length)))
    (Text.words after).head?.bind Text.parseU8

/-- `parse_insn_fields`. The last length key that reads a number counts. -/
def parseInsnFields (s : List Char) : InsnBytes × Option Nat :=
  let insn := match Text.find "insn:".toList s with
    | some i => takeInsnBytes (Text.words (s.drop (i + 5))) .empty
    | none => .empty
  let len := ["ilen:", "insnlen:", "ilen", "insnlen"].foldl
    (fun len key => (lenAfter s key.toList).or len) none
  (insn, len)

/-- `split_insn_suffix`. -/
def splitInsnSuffix (s : List Char) : List Char × InsnBytes × Option Nat :=
  match (["insn:", "ilen:", "insnlen:"].filterMap fun key => Text.find key.toList s).min? with
  | none => (Text.trimEnd s, .empty, none)
  | some i =>
    let (insn, len) := parseInsnFields (Text.trimStart (s.drop i))
    (Text.trimEnd (s.take i), insn, len)

/-- `parse_ip_addr_flags`. -/
def parseIpAddrFlags (payload : List Char) (event : SampleEvent) :
    Option Nat × Option Nat × Flags :=
  let payload := Text.trim payload
  if payload = [] then (none, none, .EMPTY)
  else
    match Text.splitOnce ['=', '>'] payload with
    | some (left, right) =>
      let toks := Text.words left
      ((toks.reverse.find? isHexToken).bind parseAddress,
        (Text.words right).head?.bind parseAddress,
        .parseStr (Text.unwords (toks.filter fun t => !isHexToken t)))
    | none =>
      let toks := Text.words payload
      let flags := Flags.parseStr (Text.unwords (toks.filter fun t => !isHexToken t))
      match event.isInstruction, toks.filterMap parseAddress with
      | true, addr :: ip :: _ => (some ip, some addr, flags)
      | _, ip :: addr :: _ => (some ip, some addr, flags)
      | _, [ip] => (some ip, none, flags)
      | _, _ => (none, none, flags)

/-! ## Sideband and errors -/

/-- `split(needle).nth(1)`: what follows the first `needle`, up to the next. -/
def secondPart (needle s : List Char) : Option (List Char) :=
  (Text.splitOnce needle s).map fun (_, after) => ((Text.splitOnce needle after).map (·.1)).getD after

/-- `split(needle).next()`: what precedes the first `needle`. -/
def firstPart (needle s : List Char) : List Char :=
  ((Text.splitOnce needle s).map (·.1)).getD s

/-- `parse_mmap_range`: `[0xSTART(LEN) @ PGOFF ...]`. -/
def parseMmapRange (line : List Char) : Option (Nat × Nat × Nat) := do
  let lb ← Text.find "[0x".toList line
  let inside := line.drop (lb + 1)
  let stop ← Text.find [']'] inside
  let inner := inside.take stop
  let lenPart ← secondPart ['('] inner
  let pgoff := ((secondPart ['@'] inner).getD ['0'])
  let start ← parseAddress (Text.trim (firstPart ['('] inner))
  let len ← parseAddress (Text.trim (firstPart [')'] lenPart))
  let off ← parseAddress ((Text.words pgoff).head?.getD ['0'])
  pure (start, len, off)

/-- `rsplit_once`: around the last `needle`. -/
def rsplitOnce (needle s : List Char) : Option (List Char × List Char) :=
  (Text.splitOnce needle.reverse s.reverse).map fun (after, before) =>
    (before.reverse, after.reverse)

/-- `mmap_prot_path`. -/
def mmapProtPath (line : List Char) : String × String :=
  match rsplitOnce "]:".toList line with
  | some (_, after) =>
    match Text.words after with
    | [] => ("", "")
    | prot :: path => (String.ofList prot, String.ofList (Text.unwords path))
  | none => ("", String.ofList ((Text.words line).getLast?.getD []))

/-- `parse_mmap`. The owner of a mapping is the task after the record name. -/
def parseMmap (line : List Char) : Result MmapEvent :=
  let (pid, tid, rest) := (splitPidTid line).getD (0, 0, line)
  let (_, rest) := takeCpu rest
  let timeNs := match takeTime rest with
    | .ok (t, _) => t
    | .error _ => none
  let (pid, tid) :=
    (((secondPart "PERF_RECORD_MMAP".toList line).bind fun after =>
      splitPidTid (Text.trimStartChar '2' after)).map fun (p, t, _) => (p, t)).getD (pid, tid)
  match parseMmapRange line with
  | none => .error (.decodeFailed ("mmap range missing: " ++ String.ofList line))
  | some (start, len, pgoff) =>
    let (prot, path) := mmapProtPath line
    .ok ⟨pid, tid, nonzeroTime timeNs, start, len, pgoff, prot, path⟩

/-- `trim_start_matches` of a text. -/
def trimStartText (needle s : List Char) : List Char :=
  if _h : needle ≠ [] ∧ needle <+: s then trimStartText needle (s.drop needle.length) else s
  termination_by s.length
  decreasing_by
    have hpos := List.length_pos_of_ne_nil _h.1
    have hle := _h.2.length_le
    rw [List.length_drop]
    omega

/-- The name in a COMM record. -/
def commName (line : List Char) : Option String :=
  (secondPart "PERF_RECORD_COMM".toList line).bind fun s =>
    let s := Text.trim (Text.trimStartChar ':' (trimStartText "exec:".toList (Text.trim s)))
    let name := Text.trim (firstPart [':'] s)
    if name = [] then none else some (String.ofList name)

/-- A `(PID:TID)` pair. -/
def parsePair (s : List Char) : Option (Nat × Nat) :=
  (Text.splitOnce [':'] s).bind fun (p, t) =>
    (Text.parseU32 (Text.trim p)).bind fun p => (Text.parseU32 (Text.trim t)).map fun t => (p, t)

/-- The child's pair of a FORK or EXIT record, and what follows it. -/
def childPair (after : List Char) : Option (Nat × Nat × List Char) := do
  let opening ← Text.find ['('] after
  let close ← Text.find [')'] (after.drop opening)
  let (c, ct) ← parsePair ((after.drop (opening + 1)).take (close - 1))
  pure (c, ct, after.drop (opening + close + 1))

/-- The parent's pair, `:(PID:TID)` right after the child's; each number is
read on its own. -/
def parentPair (rest : List Char) : Option Nat × Option Nat :=
  if ":(".toList <+: rest then
    match (Text.find [')'] (rest.drop 2)).bind fun stop => Text.splitOnce [':'] ((rest.drop 2).take stop) with
    | some (p, pt) => (Text.parseU32 (Text.trim p), Text.parseU32 (Text.trim pt))
    | none => (none, none)
  else (none, none)

/-- `parse_task`. The task meant is the one in the record, not the prefix. -/
def parseTask (line : List Char) (kind : TaskKind) : Result TaskEvent :=
  match splitPidTid line with
  | none => .error (.decodeFailed (String.ofList line))
  | some (pid, tid, rest) => do
    let (_, rest) := takeCpu rest
    let (timeNs, _) ← takeTime rest
    let (pid, tid, ppid, ptid) :=
      match secondPart "PERF_RECORD_".toList line with
      | none => (pid, tid, none, none)
      | some after =>
        match (if kind = .fork ∨ kind = .exit then childPair after else none) with
        | some (c, ct, rest) =>
          let (ppid, ptid) := parentPair rest
          (c, ct, ppid, ptid)
        | none =>
          match splitPidTid after with
          | some (p, t, _) => (p, t, none, none)
          | none => (pid, tid, none, none)
    pure ⟨kind, pid, tid, ppid, ptid, nonzeroTime timeNs, commName line⟩

/-- `parse_switch`. -/
def parseSwitch (line : List Char) : Result RawRecord :=
  match splitPidTid line with
  | none => .error (.decodeFailed (String.ofList line))
  | some (pid, tid, rest) => do
    let (_, rest) := takeCpu rest
    let (timeNs, _) ← takeTime rest
    pure (.switch pid tid (nonzeroTime timeNs)
      (Text.contains "SWITCH_CPU_WIDE OUT".toList line || Text.contains " out ".toList line))

/-- `parse_lost`. -/
def parseLost (line : List Char) : LostEvent :=
  ⟨none, none, ((Text.words line).findSome? Text.parseU64).getD 0⟩

/-- One keyword of a decoder error and the word after it. -/
def errorField (ev : DecoderErrorEvent) (key value : List Char) : DecoderErrorEvent :=
  if key = "time".toList then
    { ev with timeNs := (parsePerfTime value).toOption.filter (· ≠ 0) }
  else if key = "cpu".toList then { ev with cpu := Text.parseU32 value }
  else if key = "pid".toList then { ev with pid := Text.parseU32 value }
  else if key = "tid".toList then { ev with tid := Text.parseU32 value }
  else if key = "ip".toList then { ev with ip := parseAddress value }
  else if key = "code".toList then
    { ev with code := Text.parseU32 (Text.trimEndChar ':' value) }
  else ev

/-- `parse_decoder_error`. -/
def parseDecoderError (line : List Char) : DecoderErrorEvent :=
  let toks := Text.words line
  let start : DecoderErrorEvent :=
    ⟨none, none, none, none, none, none, String.ofList (Text.trim line)⟩
  let ev := (toks.zip toks.tail).foldl (fun ev kv => errorField ev kv.1 kv.2) start
  match ev.pid, splitPidTid line with
  | none, some (p, t, _) => { ev with pid := some p, tid := some t }
  | _, _ => ev

/-! ## Lines -/

/-- `parse_sample_line`. -/
def parseSampleLine (line : List Char) : Result (Option RawRecord) :=
  match splitPidTid line with
  | none => .error (.decodeFailed ("missing pid/tid: " ++ String.ofList line))
  | some (pid, tid, rest) => do
    let (cpu, rest) := takeCpu rest
    let (timeNs, rest) ← takeTime rest
    match splitEvent (Text.trimStart rest) with
    | none => .error (.decodeFailed ("missing event: " ++ String.ofList line))
    | some (event, afterEvent) =>
      let eventName := Text.trimEndChar ':' event
      let after := stripEventModifiers afterEvent
      if Text.contains "mmap".toList eventName ∨ "PERF_RECORD_MMAP".toList <+: eventName then
        (parseMmap line).map fun m => some (.mmap m)
      else
        let event : SampleEvent :=
          if "branches".toList <+: eventName then .branches
          else if "instructions".toList <+: eventName then .instructions
          else .other
        let (payload, insn, insnLen) := splitInsnSuffix after
        let (ip, addr, flags) := parseIpAddrFlags payload event
        pure (some (.sample ⟨pid, tid, cpu, nonzeroTime timeNs, event, ip, addr, flags, insnLen, insn⟩))

/-- `parse_line_slow`. -/
def parseLineSlow (line : List Char) : Result (Option RawRecord) :=
  let has (text : String) : Bool := Text.contains text.toList line
  if has "instruction trace error" || has "insn trace error" then
    .ok (some (.decoderError (parseDecoderError line)))
  else if has "PERF_RECORD_LOST" || (has " lost " && has "LOST") then
    .ok (some (.lost (parseLost line)))
  else if has "PERF_RECORD_MMAP" then (parseMmap line).map fun m => some (.mmap m)
  else if has "PERF_RECORD_COMM" || has " PERF_RECORD_EXEC" then
    (parseTask line .comm).map fun t => some (.task t)
  else if has "PERF_RECORD_FORK" then (parseTask line .fork).map fun t => some (.task t)
  else if has "PERF_RECORD_EXIT" then (parseTask line .exit).map fun t => some (.task t)
  else if has "PERF_RECORD_SWITCH" then (parseSwitch line).map some
  else parseSampleLine line

end PerfScript

end TraceMcp.Decode
