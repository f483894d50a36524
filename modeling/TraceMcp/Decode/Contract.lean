import TraceMcp.Decode.Guard

/-!
# The contract of the unchecked scan

`parse_sample_guarded` may read `GUARD` bytes past the line and must not move
past its end. `checkSample` is the scan with each of its reads and moves looked
at: a part of the scan has a check of its own, which asks for what the part
does in the order in which it does it.

A number, white space and a token are clamped to what is left of the line, so
inside the line (`Inside`) they stay inside. Only the marks of the columns are
not: at the end of the line the byte that is compared is the guard's, and where
it is the mark, it is consumed. `awaited` is the mark a line ends in front of.
-/

namespace TraceMcp.Decode

open TraceMcp.Lib

namespace FastLine

/-! ## Looking at each step -/

/-- How the contract is broken. -/
inductive Slip
  /-- The cursor moves past the end of the line. -/
  | moved
  /-- A read past the guard. -/
  | read
  deriving DecidableEq

abbrev Check := Except Slip Unit

namespace Cur

/-- A read of `k` bytes, `off` bytes ahead. -/
def checkLoad (c : Cur) (off k : Nat) : Check :=
  if off + k ≤ c.ahead.length then .ok () else .error .read

def checkAdv (c : Cur) (n : Nat) : Check := if n ≤ c.rem then .ok () else .error .moved

def checkDec (c : Cur) : Check := do
  c.checkLoad 0 16
  c.checkAdv (c.run notDec)

def checkHex (c : Cur) : Check := do
  c.checkLoad 0 16
  c.checkAdv (c.run notHex)

def checkSkipWs (c : Cur) : Check :=
  if c.rem = 0 then .ok ()
  else do
    c.checkLoad 0 8
    if _h : (c.ahead.take 8).all (· = 32) ∧ 8 ≤ c.rem then
      c.checkAdv 8
      (c.adv 8).checkSkipWs
    else c.checkAdv (min ((c.ahead.take 8).findIdx (· ≠ 32)) c.rem)
  termination_by c.rem
  decreasing_by
    rw [adv_rem_of_le _h.2]
    omega

def checkTokenLenFrom (c : Cur) (n : Nat) : Check :=
  if n < c.rem then do
    c.checkLoad n 16
    if ((c.ahead.drop n).take 16).findIdx isStop < 16 then .ok ()
    else c.checkTokenLenFrom (n + 16)
  else .ok ()
  termination_by c.rem - n

def checkToken (c : Cur) : Check := do
  c.checkTokenLenFrom 0
  c.checkLoad 0 (c.tokenLenFrom 0)

def checkStartsWith (c : Cur) (lit : List UInt8) : Check :=
  if lit.length ≤ c.rem then c.checkLoad 0 lit.length else .ok ()

/-- `peek`, and the mark `b` is consumed if it is next. -/
def checkMark (c : Cur) (b : UInt8) : Check := do
  c.checkLoad 0 1
  if c.peek = b then c.checkAdv 1 else .ok ()

/-- A token is consumed, with the spaces behind it. -/
def checkPast (c : Cur) (n : Nat) : Check := do
  c.checkAdv n
  (c.adv n).checkSkipWs

end Cur

def checkIds (c : Cur) : Check := do
  c.checkSkipWs
  c.skipWs.checkDec
  let (_, n, c) := c.skipWs.dec
  if n = 0 then .ok ()
  else
    c.checkMark 47
    if c.peek ≠ 47 then .ok ()
    else
      (c.adv 1).checkDec
      let (_, n, c) := (c.adv 1).dec
      if n = 0 then .ok () else c.checkSkipWs

def checkCpu (c : Cur) : Check := do
  c.checkMark 91
  if c.peek = 91 then
    (c.adv 1).checkDec
    let (_, n, c) := (c.adv 1).dec
    if n = 0 then .ok ()
    else
      c.checkMark 93
      if c.peek ≠ 93 then .ok () else (c.adv 1).checkSkipWs
  else .ok ()

def checkTime (c : Cur) : Check := do
  c.checkDec
  let (sec, n, c) := c.dec
  if n = 0 then .ok ()
  else
    c.checkMark 46
    if c.peek ≠ 46 then .ok ()
    else
      (c.adv 1).checkDec
      let (frac, fd, c) := (c.adv 1).dec
      if fd = 0 ∨ 9 < fd then .ok ()
      else
        c.checkMark 58
        if c.peek ≠ 58 then .ok ()
        else
          match (checkedMul sec 1000000000).bind (checkedAdd · (frac * 10 ^ (9 - fd))) with
          | none => .ok ()
          | some _ => (c.adv 1).checkSkipWs

def checkEvent (c : Cur) : Check := do
  c.checkToken
  match scanEvent c with
  | none => .ok ()
  | some _ => c.checkPast c.token.length

def checkFlags (c : Cur) : Check := do
  c.checkToken
  if _h : c.token = [] then .ok ()
  else
    match Flags.fromToken c.token with
    | none => .ok ()
    | some _ =>
      c.checkPast c.token.length
      checkFlags (c.adv c.token.length).skipWs
  termination_by c.rem
  decreasing_by exact Cur.skip_token_rem _h

def checkAddrs (c : Cur) : Check := do
  c.checkToken
  if isHexToken c.token then
    c.checkHex
    c.hex.2.2.checkSkipWs
    let c := c.hex.2.2.skipWs
    c.checkStartsWith (Text.ascii "=>")
    if c.startsWith (Text.ascii "=>") then
      c.checkPast 2
      let c := (c.adv 2).skipWs
      c.checkToken
      if isHexToken c.token then
        c.checkHex
        c.hex.2.2.checkSkipWs
      else .ok ()
    else
      c.checkToken
      if isHexToken c.token then
        c.checkHex
        c.hex.2.2.checkSkipWs
      else c.checkSkipWs
  else .ok ()

def checkInsn (c : Cur) : Check := do
  c.checkToken
  if _h : c.token.length = 2 ∧ isHexToken c.token then
    c.checkHex
    c.hex.2.2.checkSkipWs
    checkInsn c.hex.2.2.skipWs
  else .ok ()
  termination_by c.rem
  decreasing_by exact Nat.lt_of_le_of_lt (Cur.skipWs_rem_le _) (hex_token_rem _h.2)

def checkFields (c : Cur) (insn : InsnBytes) : Check := do
  c.checkToken
  if _h : c.token = [] then .ok ()
  else
    let next := (c.adv c.token.length).skipWs
    if c.token = Text.ascii "ilen:" ∨ c.token = Text.ascii "insnlen:" then
      c.checkPast c.token.length
      next.checkDec
      if next.dec.2.1 = 0 ∨ 255 < next.dec.1 then .ok ()
      else
        next.dec.2.2.checkSkipWs
        checkFields next.dec.2.2.skipWs insn
    else if c.token = Text.ascii "insn:" then
      c.checkPast c.token.length
      checkInsn next
      checkFields (scanInsn next insn).2 (scanInsn next insn).1
    else
      match Flags.fromToken c.token with
      | none => .ok ()
      | some _ =>
        c.checkPast c.token.length
        checkFields next insn
  termination_by c.rem
  decreasing_by
    all_goals have hnext : next.rem < c.rem := Cur.skip_token_rem _h
    · have hdec := next.dec_rem_le
      have hskip := next.dec.2.2.skipWs_rem_le
      exact Nat.lt_of_le_of_lt (Nat.le_trans hskip hdec) hnext
    · exact Nat.lt_of_le_of_lt (scanInsn_rem_le next insn) hnext
    · exact hnext

/-- What follows the columns. -/
def checkRest (c : Cur) : Check := do
  checkEvent c
  match scanEvent c with
  | none => .ok ()
  | some (event, c) =>
    checkFlags c
    let c := (scanFlags c .EMPTY false).2.2
    checkAddrs c
    match scanAddrs c event with
    | none => .ok ()
    | some (_, _, c) => checkFields c .empty

/-- `parse_sample_guarded`, step by step. -/
def checkSample (line guard : List UInt8) : Check := do
  checkIds (Cur.on guard line)
  match scanIds (Cur.on guard line) with
  | none => .ok ()
  | some (_, _, c) =>
    checkCpu c
    match scanCpu c with
    | none => .ok ()
    | some (_, c) =>
      checkTime c
      match scanTime c with
      | none => .ok ()
      | some (_, c) => checkRest c

/-! ## Inside the line -/

/-- The guard is behind what is left of the line. -/
def Inside (c : Cur) : Prop := c.rem + guardLen ≤ c.ahead.length

variable {c : Cur} {guard rest : List UInt8} {n : Nat}

theorem ok_then {x : Check} {k : Unit → Check} (hx : x = .ok ()) (hk : k () = .ok ()) :
    (x >>= k) = .ok () := by
  rw [hx]
  exact hk

theorem on_inside (hguard : guard.length = guardLen) (rest : List UInt8) :
    Inside (Cur.on guard rest) := by
  show rest.length + guardLen ≤ (rest ++ guard).length
  rw [List.length_append, hguard]

theorem Inside.load (h : Inside c) {off k : Nat} (hk : off + k ≤ c.rem + guardLen) :
    c.checkLoad off k = .ok () := if_pos (Nat.le_trans hk h)

theorem Inside.adv (h : Inside c) (hn : n ≤ c.rem) : Inside (c.adv n) := by
  unfold Inside at h ⊢
  rw [Cur.adv_rem_of_le hn]
  show _ ≤ (c.ahead.drop n).length
  rw [List.length_drop]
  omega

theorem checkAdv_le (hn : n ≤ c.rem) : c.checkAdv n = .ok () := if_pos hn

theorem Inside.dec (h : Inside c) : Inside c.dec.2.2 := h.adv (c.run_le notDec)

theorem Inside.hex (h : Inside c) : Inside c.hex.2.2 := h.adv (c.run_le notHex)

theorem Inside.skipWs (h : Inside c) : Inside c.skipWs := by
  fun_induction Cur.skipWs c with
  | case1 => exact h
  | case2 c _ h8 ih => exact ih (h.adv h8.2)
  | case3 c _ _ => exact h.adv (Nat.min_le_right ..)

theorem Inside.checkDec (h : Inside c) : c.checkDec = .ok () :=
  ok_then (h.load (by unfold guardLen; omega)) (checkAdv_le (c.run_le notDec))

theorem Inside.checkHex (h : Inside c) : c.checkHex = .ok () :=
  ok_then (h.load (by unfold guardLen; omega)) (checkAdv_le (c.run_le notHex))

theorem Inside.checkSkipWs (h : Inside c) : c.checkSkipWs = .ok () := by
  fun_induction Cur.checkSkipWs c with
  | case1 => rfl
  | case2 c _ ih =>
    refine ok_then (h.load (by unfold guardLen; omega)) ?_
    split
    next h8 => exact ok_then (checkAdv_le h8.2) (ih h8 (h.adv h8.2))
    next => exact checkAdv_le (Nat.min_le_right ..)

theorem Inside.checkTokenLenFrom (h : Inside c) (n : Nat) : c.checkTokenLenFrom n = .ok () := by
  fun_induction Cur.checkTokenLenFrom c n with
  | case1 n hn ih =>
    refine ok_then (h.load (by unfold guardLen; omega)) ?_
    split
    next => rfl
    next => exact ih
  | case2 => rfl

theorem Inside.checkToken (h : Inside c) : c.checkToken = .ok () := by
  have hlen := c.tokenLenFrom_le 0
  exact ok_then (h.checkTokenLenFrom 0) (h.load (by omega))

theorem Inside.checkStartsWith (h : Inside c) (lit : List UInt8) :
    c.checkStartsWith lit = .ok () := by
  unfold Cur.checkStartsWith
  split
  next hlit => exact h.load (by omega)
  next => rfl

theorem Inside.checkPast (h : Inside c) (hn : n ≤ c.rem) : c.checkPast n = .ok () :=
  ok_then (checkAdv_le hn) (h.adv hn).checkSkipWs

/-- Behind a token and its spaces. -/
theorem Inside.past (h : Inside c) : Inside (c.adv c.token.length).skipWs :=
  (h.adv c.token_length_le).skipWs

theorem Inside.checkToken_past (h : Inside c) : c.checkPast c.token.length = .ok () :=
  h.checkPast c.token_length_le

/-! ## Behind the columns

Nothing but numbers, white space and tokens: the checks pass inside the line. -/

theorem checkEvent_inside (h : Inside c) : checkEvent c = .ok () := by
  refine ok_then h.checkToken ?_
  split
  next => rfl
  next => exact h.checkToken_past

theorem checkFlags_inside (h : Inside c) : checkFlags c = .ok () := by
  fun_induction checkFlags c with
  | case1 c ih =>
    refine ok_then h.checkToken ?_
    split
    next => rfl
    next ht =>
      split
      next => rfl
      next => exact ok_then h.checkToken_past (ih ht h.past)

/-- One address and the spaces behind it. -/
theorem Inside.address (h : Inside c) :
    (do c.checkHex; c.hex.2.2.checkSkipWs : Check) = .ok () :=
  ok_then h.checkHex h.hex.checkSkipWs

theorem checkAddrs_inside (h : Inside c) : checkAddrs c = .ok () := by
  have hmid : Inside c.hex.2.2.skipWs := h.hex.skipWs
  refine ok_then h.checkToken ?_
  split
  next =>
    refine ok_then h.checkHex (ok_then h.hex.checkSkipWs (ok_then (hmid.checkStartsWith _) ?_))
    dsimp only
    split
    next harrow =>
      have hlen : 2 ≤ c.hex.2.2.skipWs.rem := by
        rw [Cur.startsWith, Bool.and_eq_true, decide_eq_true_iff] at harrow
        exact harrow.1
      have hnext := (hmid.adv hlen).skipWs
      refine ok_then (hmid.checkPast hlen) (ok_then hnext.checkToken ?_)
      split
      next => exact hnext.address
      next => rfl
    next =>
      refine ok_then hmid.checkToken ?_
      split
      next => exact hmid.address
      next => exact hmid.checkSkipWs
  next => rfl

theorem checkInsn_inside (h : Inside c) : checkInsn c = .ok () := by
  fun_induction checkInsn c with
  | case1 c ih =>
    refine ok_then h.checkToken ?_
    split
    next ht => exact ok_then h.checkHex (ok_then h.hex.checkSkipWs (ih ht h.hex.skipWs))
    next => rfl

theorem Inside.scanInsn (h : Inside c) (insn : InsnBytes) : Inside (scanInsn c insn).2 := by
  fun_induction FastLine.scanInsn c insn with
  | case1 c _ _ ih => exact ih h.hex.skipWs
  | case2 => exact h

theorem checkFields_inside (h : Inside c) (insn : InsnBytes) : checkFields c insn = .ok () := by
  fun_induction checkFields c insn with
  | case1 c insn ihLen ihInsn ihFlag =>
    have hnext : Inside (c.adv c.token.length).skipWs := h.past
    refine ok_then h.checkToken ?_
    split
    next => rfl
    next ht =>
      split
      next hlen =>
        refine ok_then h.checkToken_past (ok_then hnext.checkDec ?_)
        split
        next => rfl
        next hn => exact ok_then hnext.dec.checkSkipWs (ihLen ht hnext.dec.skipWs)
      next hlen =>
        split
        next hinsn =>
          exact ok_then h.checkToken_past
            (ok_then (checkInsn_inside hnext) (ihInsn ht (hnext.scanInsn insn)))
        next hinsn =>
          split
          next => rfl
          next f hf => exact ok_then h.checkToken_past (ihFlag ht hnext)

/-! ## The columns

A column of a line is there, with what is behind it, or it is not; then the
line may end in front of one of its marks. -/

/-- The length of the number in front: no more than sixteen digits are taken. -/
def digits (s : List UInt8) : Nat := (s.take 16).findIdx notDec

/-- What is behind a column, or the mark in front of which the line ends. -/
abbrev Column := Except (Option UInt8) (List UInt8)

def number (s : List UInt8) : Column :=
  if digits s = 0 then .error none else .ok (s.drop (digits s))

def mark (b : UInt8) : List UInt8 → Column
  | [] => .error (some b)
  | x :: s => if x = b then .ok s else .error none

def spaces (s : List UInt8) : List UInt8 := s.dropWhile (· = 32)

/-- `PID/TID`. -/
def pastIds (s : List UInt8) : Column := do
  let s ← number (spaces s)
  let s ← mark 47 s
  let s ← number s
  pure (spaces s)

/-- `[CPU]`, which need not be there. -/
def pastCpu (s : List UInt8) : Column :=
  match mark 91 s with
  | .ok s => do
    let s ← number s
    let s ← mark 93 s
    pure (spaces s)
  | .error none => .ok s
  | .error (some b) => .error (some b)

/-- `SEC.NS:`, at most nine digits behind the dot. -/
def pastTime (s : List UInt8) : Column := do
  let s ← number s
  let s ← mark 46 s
  if 9 < digits s then .error none
  else
    let s ← number s
    mark 58 s

/-- The mark the line ends in front of. -/
def awaited (line : List UInt8) : Option UInt8 :=
  match (do pastTime (← pastCpu (← pastIds line)) : Column) with
  | .ok _ => none
  | .error b => b

theorem column_ok {x : Column} {k : List UInt8 → Column} {after : List UInt8}
    (h : (x >>= k) = .ok after) : ∃ s, x = .ok s ∧ k s = .ok after := by
  cases x with
  | error b => cases h
  | ok s => exact ⟨s, rfl, h⟩

theorem column_error {x : Column} {k : List UInt8 → Column} {b : Option UInt8}
    (h : (x >>= k) = .error b) : x = .error b ∨ ∃ s, x = .ok s ∧ k s = .error b := by
  cases x with
  | error b' => exact .inl h
  | ok s => exact .inr ⟨s, rfl, h⟩

theorem number_ok {s after : List UInt8} (h : number s = .ok after) :
    digits s ≠ 0 ∧ after = s.drop (digits s) := by
  unfold number at h
  split at h
  next => cases h
  next hn => exact ⟨hn, (Except.ok.inj h).symm⟩

theorem number_error {s : List UInt8} {b : Option UInt8} (h : number s = .error b) :
    digits s = 0 ∧ b = none := by
  unfold number at h
  split at h
  next hn => exact ⟨hn, (Except.error.inj h).symm⟩
  next => cases h

theorem mark_cons (b x : UInt8) (s : List UInt8) :
    mark b (x :: s) = if x = b then .ok s else .error none := rfl

theorem mark_ok {b : UInt8} {s after : List UInt8} (h : mark b s = .ok after) :
    s = b :: after := by
  cases s with
  | nil => cases h
  | cons x s =>
    rw [mark_cons] at h
    split at h
    next hx => rw [hx, Except.ok.inj h]
    next => cases h

/-- A number, its length and what is behind it. -/
theorem on_number (rest : List UInt8) :
    ∃ v, ∀ guard, (Cur.on guard rest).dec =
      (v, digits rest, Cur.on guard (rest.drop (digits rest))) :=
  ⟨_, fun _ => Cur.on_dec⟩

/-- A mark is consumed inside the line. -/
theorem checkMark_ok (hguard : guard.length = guardLen) (b : UInt8) (rest : List UInt8) :
    (Cur.on guard (b :: rest)).checkMark b = .ok () := by
  refine ok_then ((on_inside hguard _).load (by unfold guardLen; omega)) ?_
  split
  next => exact checkAdv_le (Nat.succ_le_succ (Nat.zero_le _))
  next => rfl

/-- Where the column is not there and the line ends in front of `m`: the guard
is consumed if it starts with `m`, and otherwise the scan goes on as it says. -/
def Refuses (guard : List UInt8) (m : Option UInt8) (check : Check) (scan : Prop) : Prop :=
  (guard.head? = m → check = .error .moved) ∧ (guard.head? ≠ m → check = .ok () ∧ scan)

/-- A step before the one that refuses. -/
theorem Refuses.after {m : Option UInt8} {x : Check} {k : Unit → Check} {scan : Prop}
    (hx : x = .ok ()) (h : Refuses guard m (k ()) scan) : Refuses guard m (x >>= k) scan := by
  rw [hx]
  exact h

/-- A step that refuses, and does no more if it does not consume the guard. -/
theorem Refuses.before {m : Option UInt8} {x : Check} {k : Unit → Check} {out scan : Prop}
    (h : Refuses guard m x out) (hk : out → k () = .ok () ∧ scan) :
    Refuses guard m (x >>= k) scan := by
  refine ⟨fun hm => ?_, fun hm => ?_⟩
  · rw [h.1 hm]
    rfl
  · obtain ⟨hx, hout⟩ := h.2 hm
    rw [hx]
    exact hk hout

/-- A guard of the required length has a first byte. -/
theorem Refuses.missing {check : Check} {scan : Prop} (hguard : guard.length = guardLen)
    (h : check = .ok () ∧ scan) : Refuses guard none check scan := by
  refine ⟨fun hm => ?_, fun _ => h⟩
  rw [List.head?_eq_none_iff.mp hm] at hguard
  cases hguard

/-- Where a mark is not there, the guard may stand in for it at the end of the
line. -/
theorem checkMark_error (hguard : guard.length = guardLen) {b : UInt8} {m : Option UInt8}
    (h : mark b rest = .error m) :
    Refuses guard m ((Cur.on guard rest).checkMark b) ((Cur.on guard rest).peek ≠ b) := by
  refine Refuses.after ((on_inside hguard rest).load (by unfold guardLen; omega)) ?_
  cases rest with
  | nil =>
    -- the line has ended: the byte that is compared is the guard's first
    obtain rfl : some b = m := Except.error.inj h
    cases guard with
    | nil => cases hguard
    | cons g guard =>
      refine ⟨fun hg => ?_, fun hg => ?_⟩
      · obtain rfl : g = b := Option.some.inj hg
        exact if_pos rfl
      · have hne : g ≠ b := fun heq => hg (by rw [heq]; rfl)
        exact ⟨if_neg hne, hne⟩
  | cons x rest =>
    rw [mark_cons] at h
    split at h
    next => cases h
    next hx =>
      obtain rfl : none = m := Except.error.inj h
      exact Refuses.missing hguard ⟨if_neg hx, hx⟩

theorem ids_ok {after : List UInt8} (h : pastIds rest = .ok after) :
    ∃ pid tid, ∀ guard, guard.length = guardLen →
      checkIds (Cur.on guard rest) = .ok () ∧
        scanIds (Cur.on guard rest) = some (pid, tid, Cur.on guard after) := by
  obtain ⟨s, hpid, h⟩ := column_ok h
  obtain ⟨t, hslash, h⟩ := column_ok h
  obtain ⟨u, htid, h⟩ := column_ok h
  obtain ⟨hn, rfl⟩ := number_ok hpid
  obtain ⟨hm, rfl⟩ := number_ok htid
  have hmark := mark_ok hslash
  obtain rfl := Except.ok.inj h
  obtain ⟨pid, hdec⟩ := on_number (spaces rest)
  obtain ⟨tid, hdec'⟩ := on_number t
  refine ⟨pid, tid, fun guard hguard => ⟨?_, ?_⟩⟩
  · have hin := on_inside hguard
    refine ok_then (hin rest).checkSkipWs ?_
    rw [Cur.on_skipWs]
    refine ok_then (hin _).checkDec ?_
    rw [← spaces, hdec, hmark]
    dsimp only
    rw [if_neg hn]
    refine ok_then (checkMark_ok hguard 47 t) ?_
    rw [if_neg (by simp), on_adv_one]
    refine ok_then (hin _).checkDec ?_
    rw [hdec']
    dsimp only
    rw [if_neg hm]
    exact (hin _).checkSkipWs
  · unfold scanIds
    rw [Cur.on_skipWs, ← spaces, hdec, hmark]
    dsimp only
    rw [on_adv_one, hdec', if_neg (not_or.mpr ⟨hn, by simp⟩)]
    dsimp only
    rw [if_neg hm, Cur.on_skipWs]
    rfl

theorem ids_error {m : Option UInt8} (hguard : guard.length = guardLen)
    (h : pastIds rest = .error m) :
    Refuses guard m (checkIds (Cur.on guard rest)) (scanIds (Cur.on guard rest) = none) := by
  have hin := on_inside hguard
  obtain ⟨pid, hdec⟩ := on_number (spaces rest)
  refine Refuses.after (hin rest).checkSkipWs ?_
  unfold scanIds
  rw [Cur.on_skipWs]
  refine Refuses.after (hin _).checkDec ?_
  rw [← spaces, hdec]
  dsimp only
  rcases column_error h with hpid | ⟨s, hpid, h⟩
  · obtain ⟨hn, rfl⟩ := number_error hpid
    exact Refuses.missing hguard ⟨if_pos hn, if_pos (Or.inl hn)⟩
  obtain ⟨hn, rfl⟩ := number_ok hpid
  rw [if_neg hn]
  rcases column_error h with hslash | ⟨t, hslash, h⟩
  · refine (checkMark_error hguard hslash).before fun hpeek => ?_
    exact ⟨if_pos hpeek, if_pos (Or.inr hpeek)⟩
  rw [mark_ok hslash]
  refine Refuses.after (checkMark_ok hguard 47 t) ?_
  obtain ⟨tid, hdec'⟩ := on_number t
  rw [if_neg (by simp), if_neg (not_or.mpr ⟨hn, by simp⟩), on_adv_one]
  refine Refuses.after (hin _).checkDec ?_
  rw [hdec']
  dsimp only
  rcases column_error h with htid | ⟨u, -, h⟩
  · obtain ⟨hm, rfl⟩ := number_error htid
    exact Refuses.missing hguard ⟨if_pos hm, if_pos hm⟩
  · cases h

theorem Refuses.met {check : Check} {scan : Prop} (hguard : guard.length = guardLen)
    (h : Refuses guard none check scan) : check = .ok () ∧ scan := by
  refine h.2 fun hm => ?_
  rw [List.head?_eq_none_iff.mp hm] at hguard
  cases hguard

theorem cpu_ok {after : List UInt8} (h : pastCpu rest = .ok after) :
    ∃ cpu, ∀ guard, guard.length = guardLen →
      checkCpu (Cur.on guard rest) = .ok () ∧
        scanCpu (Cur.on guard rest) = some (cpu, Cur.on guard after) := by
  unfold pastCpu at h
  split at h
  next s hopen =>
    obtain ⟨t, hcpu, hbehind⟩ := column_ok h
    obtain ⟨u, hclose, hend⟩ := column_ok hbehind
    obtain rfl := mark_ok hopen
    obtain rfl := Except.ok.inj hend
    obtain ⟨hn, rfl⟩ := number_ok hcpu
    have hmark := mark_ok hclose
    obtain ⟨v, hdec⟩ := on_number s
    refine ⟨some (v % 2 ^ 32), fun guard hguard => ⟨?_, ?_⟩⟩
    · have hin := on_inside hguard
      refine ok_then (checkMark_ok hguard 91 s) ?_
      rw [if_pos (Cur.on_peek_cons 91), on_adv_one]
      refine ok_then (hin s).checkDec ?_
      rw [hdec, hmark]
      dsimp only
      rw [if_neg hn]
      refine ok_then (checkMark_ok hguard 93 u) ?_
      rw [if_neg (by simp), on_adv_one]
      exact (hin u).checkSkipWs
    · unfold scanCpu
      rw [if_pos (Cur.on_peek_cons 91), on_adv_one, hdec, hmark]
      dsimp only
      rw [if_neg (not_or.mpr ⟨hn, by simp⟩), on_adv_one, Cur.on_skipWs]
      rfl
  next hopen =>
    obtain rfl := Except.ok.inj h
    refine ⟨none, fun guard hguard => ?_⟩
    obtain ⟨hcheck, hpeek⟩ := (checkMark_error hguard hopen).met hguard
    exact ⟨ok_then hcheck (if_neg hpeek), if_neg hpeek⟩
  next => cases h

theorem cpu_error {m : Option UInt8} (hguard : guard.length = guardLen)
    (h : pastCpu rest = .error m) :
    Refuses guard m (checkCpu (Cur.on guard rest))
      (scanCpu (Cur.on guard rest) = none ∨
        scanCpu (Cur.on guard rest) = some (none, Cur.on guard [])) := by
  unfold pastCpu at h
  split at h
  next s hopen =>
    obtain rfl := mark_ok hopen
    obtain ⟨v, hdec⟩ := on_number s
    refine Refuses.after (checkMark_ok hguard 91 s) ?_
    unfold scanCpu
    rw [if_pos (Cur.on_peek_cons 91), if_pos (Cur.on_peek_cons 91), on_adv_one]
    refine Refuses.after (on_inside hguard s).checkDec ?_
    rw [hdec]
    dsimp only
    rcases column_error h with hcpu | ⟨t, hcpu, h⟩
    · obtain ⟨hn, rfl⟩ := number_error hcpu
      exact Refuses.missing hguard ⟨if_pos hn, .inl (if_pos (Or.inl hn))⟩
    obtain ⟨hn, rfl⟩ := number_ok hcpu
    rw [if_neg hn]
    rcases column_error h with hclose | ⟨u, -, h⟩
    · refine (checkMark_error hguard hclose).before fun hpeek => ?_
      exact ⟨if_pos hpeek, .inl (if_pos (Or.inr hpeek))⟩
    · cases h
  next => cases h
  next b hopen =>
    obtain rfl := Except.error.inj h
    cases rest with
    | nil =>
      -- no bracket at the end of the line: the line goes on without a CPU
      refine (checkMark_error hguard hopen).before fun hpeek => ?_
      exact ⟨if_neg hpeek, .inr (if_neg hpeek)⟩
    | cons x rest =>
      rw [mark_cons] at hopen
      split at hopen <;> cases hopen

theorem time_ok {after : List UInt8} (h : pastTime rest = .ok after) :
    ∃ r : Option Nat, ∀ guard, guard.length = guardLen →
      checkTime (Cur.on guard rest) = .ok () ∧
        scanTime (Cur.on guard rest) = r.map fun ns => (ns, Cur.on guard (spaces after)) := by
  obtain ⟨s, hsec, hbehind⟩ := column_ok h
  obtain ⟨t, hdot, hlast⟩ := column_ok hbehind
  obtain ⟨hn, rfl⟩ := number_ok hsec
  have hmark := mark_ok hdot
  split at hlast
  next => cases hlast
  next hlong =>
    obtain ⟨u, hfrac, hcolon⟩ := column_ok hlast
    obtain ⟨hm, rfl⟩ := number_ok hfrac
    have hmark' := mark_ok hcolon
    obtain ⟨sec, hdec⟩ := on_number rest
    obtain ⟨frac, hdec'⟩ := on_number t
    refine ⟨(checkedMul sec 1000000000).bind (checkedAdd · (frac * 10 ^ (9 - digits t))),
      fun guard hguard => ⟨?_, ?_⟩⟩
    · have hin := on_inside hguard
      refine ok_then (hin rest).checkDec ?_
      rw [hdec]
      refine Eq.trans (if_neg hn) ?_
      rw [hmark]
      refine ok_then (checkMark_ok hguard 46 t) ?_
      rw [if_neg (by simp), on_adv_one]
      refine ok_then (hin t).checkDec ?_
      rw [hdec']
      refine Eq.trans (if_neg (not_or.mpr ⟨hm, hlong⟩)) ?_
      rw [hmark']
      refine ok_then (checkMark_ok hguard 58 after) ?_
      rw [if_neg (by simp), on_adv_one]
      split
      next => rfl
      next => exact (hin after).checkSkipWs
    · unfold scanTime
      rw [hdec, hmark]
      dsimp only
      rw [if_neg (not_or.mpr ⟨hn, by simp⟩), on_adv_one, hdec', hmark']
      dsimp only
      rw [if_neg (by simp [hm, hlong]), on_adv_one, Cur.on_skipWs, ← spaces]

theorem time_error {m : Option UInt8} (hguard : guard.length = guardLen)
    (h : pastTime rest = .error m) :
    Refuses guard m (checkTime (Cur.on guard rest)) (scanTime (Cur.on guard rest) = none) := by
  have hin := on_inside hguard
  obtain ⟨sec, hdec⟩ := on_number rest
  refine Refuses.after (hin rest).checkDec ?_
  unfold scanTime
  rw [hdec]
  dsimp only
  rcases column_error h with hsec | ⟨s, hsec, h⟩
  · obtain ⟨hn, rfl⟩ := number_error hsec
    exact Refuses.missing hguard ⟨if_pos hn, if_pos (Or.inl hn)⟩
  obtain ⟨hn, rfl⟩ := number_ok hsec
  rw [if_neg hn]
  rcases column_error h with hdot | ⟨t, hdot, h⟩
  · refine (checkMark_error hguard hdot).before fun hpeek => ?_
    exact ⟨if_pos hpeek, if_pos (Or.inr hpeek)⟩
  rw [mark_ok hdot]
  refine Refuses.after (checkMark_ok hguard 46 t) ?_
  obtain ⟨frac, hdec'⟩ := on_number t
  rw [if_neg (by simp), if_neg (not_or.mpr ⟨hn, by simp⟩), on_adv_one]
  refine Refuses.after (hin t).checkDec ?_
  rw [hdec']
  dsimp only
  split at h
  next hlong =>
    obtain rfl := Except.error.inj h
    exact Refuses.missing hguard ⟨if_pos (Or.inr hlong), if_pos (Or.inr (Or.inl hlong))⟩
  next hlong =>
    rcases column_error h with hfrac | ⟨u, hfrac, h⟩
    · obtain ⟨hm, rfl⟩ := number_error hfrac
      exact Refuses.missing hguard ⟨if_pos (Or.inl hm), if_pos (Or.inl hm)⟩
    obtain ⟨hm, rfl⟩ := number_ok hfrac
    rw [if_neg (not_or.mpr ⟨hm, hlong⟩)]
    refine (checkMark_error hguard h).before fun hpeek => ?_
    exact ⟨if_pos hpeek, if_pos (Or.inr (Or.inr hpeek))⟩

/-! ## The contract -/

theorem checkRest_inside (hguard : guard.length = guardLen) (rest : List UInt8) :
    checkRest (Cur.on guard rest) = .ok () := by
  have hin := on_inside hguard
  refine ok_then (checkEvent_inside (hin rest)) ?_
  obtain ⟨event, hevent⟩ := scanEvent_guard rest
  rw [hevent guard]
  cases event with
  | none => rfl
  | some event =>
    obtain ⟨_, _, after, hflags⟩ := scanFlags_guard event.2 .EMPTY false
    refine ok_then (checkFlags_inside (hin event.2)) ?_
    rw [hflags guard]
    refine ok_then (checkAddrs_inside (hin after)) ?_
    obtain ⟨addrs, haddrs⟩ := scanAddrs_guard after event.1
    dsimp only
    rw [haddrs guard]
    cases addrs with
    | none => rfl
    | some addrs => exact checkFields_inside (hin addrs.2.2) .empty

/-- `parse_sample_guarded` keeps its contract: it moves and reads where it may,
and what it returns is `parse_sample` of the line. -/
def Contract (line guard : List UInt8) : Prop :=
  checkSample line guard = .ok () ∧ parseSampleGuarded line guard = parseSample line

theorem awaited_ids {line : List UInt8} {m : Option UInt8} (h : pastIds line = .error m) :
    awaited line = m := by
  unfold awaited
  rw [h]
  rfl

theorem awaited_cpu {line s : List UInt8} {m : Option UInt8} (h : pastIds line = .ok s)
    (h' : pastCpu s = .error m) : awaited line = m := by
  unfold awaited
  rw [h]
  dsimp only [bind, Except.bind]
  rw [h']

theorem awaited_time {line s t : List UInt8} {m : Option UInt8} (h : pastIds line = .ok s)
    (h' : pastCpu s = .ok t) (h'' : pastTime t = .error m) : awaited line = m := by
  unfold awaited
  rw [h]
  dsimp only [bind, Except.bind]
  rw [h']
  dsimp only
  rw [h'']

theorem awaited_none {line s t u : List UInt8} (h : pastIds line = .ok s)
    (h' : pastCpu s = .ok t) (h'' : pastTime t = .ok u) : awaited line = none := by
  unfold awaited
  rw [h]
  dsimp only [bind, Except.bind]
  rw [h']
  dsimp only
  rw [h'']

/-- What becomes of a line, column by column: the guard is consumed where it
starts with the awaited mark, and otherwise changes nothing. -/
theorem sample_awaited (line : List UInt8) :
    ∃ r, ∀ guard, guard.length = guardLen →
      Refuses guard (awaited line) (checkSample line guard)
        (parseSampleGuarded line guard = r) := by
  simp only [parseSampleGuarded_columns]
  unfold checkSample
  cases hids : pastIds line with
  | error m =>
    refine ⟨none, fun guard hguard => ?_⟩
    rw [awaited_ids hids]
    refine (ids_error hguard hids).before fun hscan => ?_
    rw [hscan]
    exact ⟨rfl, rfl⟩
  | ok s =>
    obtain ⟨pid, tid, hat⟩ := ids_ok hids
    cases hcpu : pastCpu s with
    | error m =>
      refine ⟨none, fun guard hguard => ?_⟩
      rw [awaited_cpu hids hcpu, (hat guard hguard).2]
      refine Refuses.after (hat guard hguard).1 ?_
      refine (cpu_error hguard hcpu).before fun hscan => ?_
      rcases hscan with hscan | hscan
      · rw [hscan]
        exact ⟨rfl, by rw [Option.bind_some, hscan]; rfl⟩
      · -- nothing is left of the line, so there is no time either
        have hend : pastTime ([] : List UInt8) = .error none := rfl
        obtain ⟨hcheck, htime⟩ := (time_error hguard hend).met hguard
        rw [hscan]
        refine ⟨ok_then hcheck ?_, ?_⟩
        · rw [htime]
        · rw [Option.bind_some, hscan, Option.bind_some, htime]
          rfl
    | ok t =>
      obtain ⟨cpu, hat'⟩ := cpu_ok hcpu
      cases htime : pastTime t with
      | error m =>
        refine ⟨none, fun guard hguard => ?_⟩
        rw [awaited_time hids hcpu htime, (hat guard hguard).2]
        refine Refuses.after (hat guard hguard).1 (Refuses.after (hat' guard hguard).1 ?_)
        rw [Option.bind_some, (hat' guard hguard).2]
        refine (time_error hguard htime).before fun hscan => ?_
        rw [Option.bind_some, hscan]
        exact ⟨rfl, rfl⟩
      | ok u =>
        obtain ⟨ns, hat''⟩ := time_ok htime
        cases ns with
        | none =>
          refine ⟨none, fun guard hguard => ?_⟩
          rw [awaited_none hids hcpu htime, (hat guard hguard).2]
          refine Refuses.missing hguard ⟨?_, ?_⟩
          · refine ok_then (hat guard hguard).1 (ok_then (hat' guard hguard).1 ?_)
            rw [(hat' guard hguard).2]
            refine ok_then (hat'' guard hguard).1 ?_
            rw [(hat'' guard hguard).2]
            rfl
          · rw [Option.bind_some, (hat' guard hguard).2, Option.bind_some, (hat'' guard hguard).2]
            rfl
        | some ns =>
          obtain ⟨r, hrest⟩ := scanRest_guard pid tid cpu ns (spaces u)
          refine ⟨r, fun guard hguard => ?_⟩
          rw [awaited_none hids hcpu htime, (hat guard hguard).2]
          refine Refuses.missing hguard ⟨?_, ?_⟩
          · refine ok_then (hat guard hguard).1 (ok_then (hat' guard hguard).1 ?_)
            rw [(hat' guard hguard).2]
            refine ok_then (hat'' guard hguard).1 ?_
            rw [(hat'' guard hguard).2]
            exact checkRest_inside hguard (spaces u)
          · rw [Option.bind_some, (hat' guard hguard).2, Option.bind_some, (hat'' guard hguard).2]
            exact hrest guard

/-! Only the five marks are awaited. -/

theorem number_awaits {s : List UInt8} {b : UInt8} : number s ≠ .error (some b) := by
  intro h
  cases (number_error h).2

theorem mark_awaits {b m : UInt8} {s : List UInt8} (h : mark b s = .error (some m)) : m = b := by
  cases s with
  | nil => exact (Option.some.inj (Except.error.inj h)).symm
  | cons x s =>
    rw [mark_cons] at h
    split at h <;> cases h

theorem pastIds_awaits {s : List UInt8} {b : UInt8} (h : pastIds s = .error (some b)) :
    b = 47 := by
  rcases column_error h with h | ⟨s, -, h⟩
  · exact absurd h number_awaits
  rcases column_error h with h | ⟨s, -, h⟩
  · exact mark_awaits h
  rcases column_error h with h | ⟨s, -, h⟩
  · exact absurd h number_awaits
  · cases h

theorem pastCpu_awaits {s : List UInt8} {b : UInt8} (h : pastCpu s = .error (some b)) :
    b = 91 ∨ b = 93 := by
  unfold pastCpu at h
  split at h
  next =>
    rcases column_error h with h | ⟨s, -, h⟩
    · exact absurd h number_awaits
    rcases column_error h with h | ⟨s, -, h⟩
    · exact .inr (mark_awaits h)
    · cases h
  next => cases h
  next m hopen =>
    obtain rfl : m = b := Option.some.inj (Except.error.inj h)
    exact .inl (mark_awaits hopen)

theorem pastTime_awaits {s : List UInt8} {b : UInt8} (h : pastTime s = .error (some b)) :
    b = 46 ∨ b = 58 := by
  rcases column_error h with h | ⟨s, -, h⟩
  · exact absurd h number_awaits
  rcases column_error h with h | ⟨s, -, h⟩
  · exact .inl (mark_awaits h)
  split at h
  next => cases h
  next =>
    rcases column_error h with h | ⟨s, -, h⟩
    · exact absurd h number_awaits
    · exact .inr (mark_awaits h)

theorem awaited_mark {line : List UInt8} {b : UInt8} (h : awaited line = some b) :
    b ∈ ([47, 91, 93, 46, 58] : List UInt8) := by
  cases hids : pastIds line with
  | error m =>
    obtain rfl := (awaited_ids hids).symm.trans h
    rw [pastIds_awaits hids]
    decide
  | ok s =>
    cases hcpu : pastCpu s with
    | error m =>
      obtain rfl := (awaited_cpu hids hcpu).symm.trans h
      rcases pastCpu_awaits hcpu with rfl | rfl <;> decide
    | ok t =>
      cases htime : pastTime t with
      | error m =>
        obtain rfl := (awaited_time hids hcpu htime).symm.trans h
        rcases pastTime_awaits htime with rfl | rfl <;> decide
      | ok u =>
        rw [awaited_none hids hcpu htime] at h
        cases h

/-- The contract is kept, unless the line ends in front of a mark that the
guard goes on with. -/
theorem contract_iff {line guard : List UInt8} (hguard : guard.length = guardLen) :
    Contract line guard ↔ awaited line ≠ guard.head? := by
  obtain ⟨r, hr⟩ := sample_awaited line
  have hzero : parseSample line = r := by
    refine ((hr (List.replicate guardLen 0) List.length_replicate).2 fun hz => ?_).2
    have hmem := awaited_mark hz.symm
    revert hmem
    decide
  constructor
  · intro hcontract heq
    have hmoved := (hr guard hguard).1 heq.symm
    rw [hcontract.1] at hmoved
    cases hmoved
  · intro hne
    obtain ⟨hcheck, hparse⟩ := (hr guard hguard).2 (Ne.symm hne)
    exact ⟨hcheck, hparse.trans hzero.symm⟩

/-- A whole line is not cut off in front of a mark. -/
theorem contract_wholeLine :
    Contract (Text.ascii "1/1 1.0: branches: 10 => 20") (List.replicate guardLen 47) :=
  (contract_iff List.length_replicate).mpr (by decide)

/-- The line `1`, and a guard that starts with a slash: the slash is consumed,
one byte past the end of the line. -/
theorem contract_slash : ¬ Contract [49] (List.replicate guardLen 47) := by
  intro h
  obtain ⟨r, hr⟩ := sample_awaited [49]
  have hmoved := (hr (List.replicate guardLen 47) List.length_replicate).1 (by decide)
  rw [h.1] at hmoved
  cases hmoved

end FastLine

end TraceMcp.Decode
