import TraceMcp.Lib.Text
import TraceMcp.Lib.Word
import TraceMcp.Decode.PerfScript

/-!
# The sample scanner

`src/decode/perf_script/fastline.rs`: sample lines are read byte by byte with
a cursor that looks at fixed windows and may look past the end of the line,
where `GUARD` readable bytes follow. What is past the end only feeds
classification; the remaining length masks it off.
-/

namespace TraceMcp.Decode

open TraceMcp.Lib

namespace FastLine

/-- `GUARD`: readable bytes required after the end of a line. -/
def guardLen : Nat := 32

/-- `HEX_LUT`; 255 is `INVALID`. -/
def hexLut (b : UInt8) : UInt8 :=
  if 48 ≤ b ∧ b ≤ 57 then b - 48
  else if 97 ≤ b ∧ b ≤ 102 then b - 97 + 10
  else if 65 ≤ b ∧ b ≤ 70 then b - 65 + 10
  else 255

/-- Not a decimal digit: `b.wrapping_sub(b'0') > 9`. -/
def notDec (b : UInt8) : Bool := 9 < b - 48

/-- Not a hex digit. -/
def notHex (b : UInt8) : Bool := hexLut b = 255

/-- What ends a token: a space, a tab or a newline. -/
def isStop (b : UInt8) : Bool := b = 32 || b = 9 || b = 10

/-- `Cur`: the readable bytes from `p` on, and `end - p`. -/
structure Cur where
  ahead : List UInt8
  rem : Nat

namespace Cur

/-- `adv`; past the end the remaining length wraps around. -/
def adv (c : Cur) (n : Nat) : Cur :=
  ⟨c.ahead.drop n, if n ≤ c.rem then c.rem - n else c.rem + wordSize - n⟩

/-- `peek`, which may look at the guard. -/
def peek (c : Cur) : UInt8 := c.ahead.headD 0

/-- The first bad byte of a 16-byte window, or the end of the line if that
comes first: the trailing zeros of the mask of bad bytes. -/
def run (c : Cur) (bad : UInt8 → Bool) : Nat :=
  min ((c.ahead.take 16).findIdx bad) (min c.rem 16)

/-- `dec`: value and length of a run of decimal digits. The window is added
up without a branch, `take` masking what is past the run. -/
def dec (c : Cur) : Nat × Nat × Cur :=
  let n := c.run notDec
  let v := (c.ahead.take 16).zipIdx.foldl
    (fun v (b, i) =>
      let take := if i < n then 1 else 0
      v * (1 + 9 * take) + (b - 48).toNat * take) 0
  (v, n, c.adv n)

/-- `hex`: value and length of a run of hex digits. -/
def hex (c : Cur) : Nat × Nat × Cur :=
  let n := c.run notHex
  let v := (c.ahead.take 16).zipIdx.foldl
    (fun v (b, i) =>
      let take := if i < n then 1 else 0
      (v <<< (4 * take)) ||| ((hexLut b &&& 15).toNat * take)) 0
  (v, n, c.adv n)

theorem adv_rem_of_le {c : Cur} {n : Nat} (h : n ≤ c.rem) : (c.adv n).rem = c.rem - n := if_pos h

theorem run_le (c : Cur) (bad : UInt8 → Bool) : c.run bad ≤ c.rem :=
  Nat.le_trans (Nat.min_le_right ..) (Nat.min_le_left ..)

/-- `skip_ws`: spaces, eight at a time; a tab is not skipped. -/
def skipWs (c : Cur) : Cur :=
  if c.rem = 0 then c
  else if _h : (c.ahead.take 8).all (· = 32) ∧ 8 ≤ c.rem then (c.adv 8).skipWs
  else c.adv (min ((c.ahead.take 8).findIdx (· ≠ 32)) c.rem)
  termination_by c.rem
  decreasing_by
    rw [adv_rem_of_le _h.2]
    omega

/-- `token_len` from the `n`th byte on, 16 at a time. -/
def tokenLenFrom (c : Cur) (n : Nat) : Nat :=
  if n < c.rem then
    let k := ((c.ahead.drop n).take 16).findIdx isStop
    if k < 16 then min (n + k) c.rem else c.tokenLenFrom (n + 16)
  else c.rem
  termination_by c.rem - n

/-- `token`: the bytes up to a space, a tab, a newline or the end. -/
def token (c : Cur) : List UInt8 := c.ahead.take (c.tokenLenFrom 0)

/-- `starts_with`. -/
def startsWith (c : Cur) (lit : List UInt8) : Bool :=
  lit.length ≤ c.rem && c.ahead.take lit.length = lit

/-! ### The cursor only moves towards the end -/

theorem skipWs_rem_le (c : Cur) : c.skipWs.rem ≤ c.rem := by
  fun_induction skipWs c with
  | case1 => exact Nat.le_refl _
  | case2 c _ h ih =>
    rw [adv_rem_of_le h.2] at ih
    omega
  | case3 c _ h =>
    rw [adv_rem_of_le (Nat.min_le_right ..)]
    exact Nat.sub_le ..

theorem tokenLenFrom_le (c : Cur) (n : Nat) : c.tokenLenFrom n ≤ c.rem := by
  fun_induction tokenLenFrom c n with
  | case1 => exact Nat.min_le_right ..
  | case2 n _ _ _ ih => exact ih
  | case3 => exact Nat.le_refl _

theorem token_length_le (c : Cur) : c.token.length ≤ c.rem := by
  rw [token, List.length_take]
  exact Nat.le_trans (Nat.min_le_left ..) (c.tokenLenFrom_le 0)

/-- Past a token there is less left. -/
theorem skip_token_rem {c : Cur} (h : c.token ≠ []) :
    ((c.adv c.token.length).skipWs).rem < c.rem := by
  have hskip := (c.adv c.token.length).skipWs_rem_le
  have hle := c.token_length_le
  have hpos := List.length_pos_of_ne_nil h
  rw [adv_rem_of_le hle] at hskip
  omega

theorem dec_rem_le (c : Cur) : c.dec.2.2.rem ≤ c.rem := by
  show (c.adv _).rem ≤ c.rem
  rw [adv_rem_of_le (c.run_le notDec)]
  exact Nat.sub_le ..

end Cur

/-- `is_hex_token`. -/
def isHexToken (tok : List UInt8) : Bool :=
  !tok.isEmpty && tok.length ≤ 16 && tok.all fun b => !notHex b

/-- Reading a hex token leaves less. -/
theorem hex_token_rem {c : Cur} (h : isHexToken c.token = true) : c.hex.2.2.rem < c.rem := by
  have hne : c.token ≠ [] := by
    intro hnil
    rw [hnil] at h
    cases h
  have hpos := Nat.lt_of_lt_of_le (List.length_pos_of_ne_nil hne) c.token_length_le
  have hrun : 0 < c.run notHex := by
    cases hahead : c.ahead with
    | nil => exact absurd (by rw [Cur.token, hahead, List.take_nil]) hne
    | cons b bs =>
      have hb : b ∈ c.token := by
        rw [Cur.token, hahead] at hne ⊢
        cases hlen : c.tokenLenFrom 0 with
        | zero => simp [hlen] at hne
        | succ n => exact List.mem_cons_self
      have hhex : notHex b = false := by
        simp only [isHexToken, Bool.and_eq_true, List.all_eq_true, Bool.not_eq_true'] at h
        exact h.2 b hb
      rw [Cur.run, hahead, List.take_succ_cons, List.findIdx_cons, hhex]
      simp only [cond_false]
      omega
  show (c.adv _).rem < c.rem
  rw [Cur.adv_rem_of_le (c.run_le notHex)]
  omega

/-! ## The columns of a line -/

/-- The task at the start of a line. -/
def scanIds (c : Cur) : Option (Nat × Nat × Cur) :=
  let (pid, n, c) := c.skipWs.dec
  if n = 0 ∨ c.peek ≠ 47 then none
  else
    let (tid, n, c) := (c.adv 1).dec
    if n = 0 then none else some (pid, tid, c.skipWs)

/-- The CPU in brackets, if there is one. -/
def scanCpu (c : Cur) : Option (Option Nat × Cur) :=
  if c.peek = 91 then
    let (v, n, c) := (c.adv 1).dec
    if n = 0 ∨ c.peek ≠ 93 then none
    else some (some (v % 2 ^ 32), (c.adv 1).skipWs)
  else some (none, c)

/-- The time in nanoseconds, with the colon after it. -/
def scanTime (c : Cur) : Option (Nat × Cur) :=
  let (sec, n, c) := c.dec
  if n = 0 ∨ c.peek ≠ 46 then none
  else
    let (frac, fd, c) := (c.adv 1).dec
    if fd = 0 ∨ 9 < fd ∨ c.peek ≠ 58 then none
    else
      ((checkedMul sec 1000000000).bind (checkedAdd · (frac * 10 ^ (9 - fd)))).map fun ns =>
        (ns, (c.adv 1).skipWs)

/-- The event name with its colon. -/
def scanEvent (c : Cur) : Option (SampleEvent × Cur) :=
  let ev := c.token
  let event :=
    if Text.ascii "branches" <+: ev then some SampleEvent.branches
    else if Text.ascii "instructions" <+: ev then some SampleEvent.instructions
    else none
  if ev.getLast? ≠ some 58 then none
  else event.map fun event => (event, (c.adv ev.length).skipWs)

/-- Flag words, as long as there are some. -/
def scanFlags (c : Cur) (flags : Flags) (prevHw : Bool) : Flags × Bool × Cur :=
  if c.token = [] then (flags, prevHw, c)
  else
    match Flags.fromToken c.token with
    | some f =>
      scanFlags ((c.adv c.token.length).skipWs) (flags.note prevHw f)
        (c.token = Text.ascii "hw")
    | none => (flags, prevHw, c)
  termination_by c.rem
  decreasing_by exact Cur.skip_token_rem ‹_›

/-- The addresses: `IP => ADDR`, two of them in the order of the event, or
one. -/
def scanAddrs (c : Cur) (event : SampleEvent) : Option (Option Nat × Option Nat × Cur) :=
  if isHexToken c.token then
    let (a, _, c) := c.hex
    let c := c.skipWs
    if c.startsWith (Text.ascii "=>") then
      let c := (c.adv 2).skipWs
      if isHexToken c.token then
        let (b, _, c) := c.hex
        some (some a, some b, c.skipWs)
      else none
    else if isHexToken c.token then
      let (b, _, c) := c.hex
      if event.isInstruction then some (some b, some a, c.skipWs)
      else some (some a, some b, c.skipWs)
    else some (some a, none, c.skipWs)
  else some (none, none, c)

/-- The bytes after `insn:`; a sixteenth is read and dropped. -/
def scanInsn (c : Cur) (insn : InsnBytes) : InsnBytes × Cur :=
  if _h : c.token.length = 2 ∧ isHexToken c.token then
    scanInsn c.hex.2.2.skipWs (insn.push (UInt8.ofNat c.hex.1))
  else (insn, c)
  termination_by c.rem
  decreasing_by exact Nat.lt_of_le_of_lt (Cur.skipWs_rem_le _) (hex_token_rem _h.2)

theorem scanInsn_rem_le (c : Cur) (insn : InsnBytes) : (scanInsn c insn).2.rem ≤ c.rem := by
  fun_induction scanInsn c insn with
  | case1 c insn h ih =>
    have hhex := hex_token_rem h.2
    have hskip := Cur.skipWs_rem_le c.hex.2.2
    omega
  | case2 => exact Nat.le_refl _

/-- What follows the addresses: instruction length, instruction bytes and
flags, in any order. -/
def scanFields (c : Cur) (flags : Flags) (prevHw : Bool) (insnLen : Option Nat) (insn : InsnBytes) :
    Option (Flags × Option Nat × InsnBytes) :=
  if c.token = [] then some (flags, insnLen, insn)
  else
    let next := (c.adv c.token.length).skipWs
    if c.token = Text.ascii "ilen:" ∨ c.token = Text.ascii "insnlen:" then
      if next.dec.2.1 = 0 ∨ 255 < next.dec.1 then none
      else scanFields next.dec.2.2.skipWs flags prevHw (some next.dec.1) insn
    else if c.token = Text.ascii "insn:" then
      scanFields (scanInsn next insn).2 flags prevHw insnLen (scanInsn next insn).1
    else
      match Flags.fromToken c.token with
      | some f =>
        scanFields next (flags.note prevHw f) (c.token = Text.ascii "hw") insnLen insn
      | none => none
  termination_by c.rem
  decreasing_by
    all_goals have hnext : next.rem < c.rem := Cur.skip_token_rem ‹_›
    · have hdec := next.dec_rem_le
      have hskip := next.dec.2.2.skipWs_rem_le
      exact Nat.lt_of_le_of_lt (Nat.le_trans hskip hdec) hnext
    · exact Nat.lt_of_le_of_lt (scanInsn_rem_le next insn) hnext
    · exact hnext

/-- `parse_sample_guarded`. -/
def parseSampleGuarded (line guard : List UInt8) : Option Sample := do
  let c : Cur := ⟨line ++ guard, line.length⟩
  let (pid, tid, c) ← scanIds c
  let (cpu, c) ← scanCpu c
  let (timeNs, c) ← scanTime c
  let (event, c) ← scanEvent c
  let (flags, prevHw, c) := scanFlags c .EMPTY false
  let (ip, addr, c) ← scanAddrs c event
  let (flags, insnLen, insn) ← scanFields c flags prevHw none .empty
  pure ⟨pid % 2 ^ 32, tid % 2 ^ 32, cpu, PerfScript.nonzeroTime (some timeNs), event, ip, addr,
    flags, insnLen, insn⟩

/-- `parse_sample`. -/
def parseSample (line : List UInt8) : Option Sample :=
  parseSampleGuarded line (List.replicate guardLen 0)

end FastLine

end TraceMcp.Decode
