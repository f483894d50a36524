import TraceMcp.Decode.Cursor

/-!
# The guard is never read

The bytes behind a line can be seen by `peek` alone, at the end of the line,
and there they are compared with the five characters of the columns. A guard
that starts with none of them (white space, a newline or a zero) leaves the
scan as it is: each part of it reads the same value and stops at the same
place, whatever the guard.
-/

namespace TraceMcp.Decode

open TraceMcp.Lib

namespace FastLine

/-- A guard no column goes on into. -/
def Harmless (guard : List UInt8) : Prop := guard.headD 0 ∉ ([47, 91, 93, 46, 58] : List UInt8)

variable {guard rest : List UInt8}

theorem Harmless.peek (h : Harmless guard) {b : UInt8} (hb : b ∈ ([47, 91, 93, 46, 58] : List UInt8)) :
    (Cur.on guard []).peek ≠ b := by
  rintro rfl
  exact h hb

/-- The character `b`, if it is next, and what is behind it. -/
theorem peek_guard {b : UInt8} (hb : b ∈ ([47, 91, 93, 46, 58] : List UInt8)) (rest : List UInt8) :
    (∃ after, rest = b :: after) ∨
      ∀ guard, Harmless guard → (Cur.on guard rest).peek ≠ b := by
  cases rest with
  | nil => exact .inr fun guard h => h.peek hb
  | cons x after =>
    by_cases hx : x = b
    · exact .inl ⟨after, by rw [hx]⟩
    · exact .inr fun guard _ => hx

theorem on_adv_one (b : UInt8) : (Cur.on guard (b :: rest)).adv 1 = Cur.on guard rest :=
  Cur.on_adv_append [b]

/-- A number, its length and what is behind it. -/
theorem dec_guard (rest : List UInt8) :
    ∃ v n after, ∀ guard, (Cur.on guard rest).dec = (v, n, Cur.on guard after) :=
  ⟨_, _, _, fun _ => Cur.on_dec⟩

theorem hex_guard (rest : List UInt8) :
    ∃ v n after, ∀ guard, (Cur.on guard rest).hex = (v, n, Cur.on guard after) :=
  ⟨_, _, _, fun _ => Cur.on_hex⟩

theorem scanIds_guard (rest : List UInt8) :
    ∃ r : Option (Nat × Nat × List UInt8), ∀ guard, Harmless guard →
      scanIds (Cur.on guard rest) = r.map fun x => (x.1, x.2.1, Cur.on guard x.2.2) := by
  obtain ⟨pid, n, after, hdec⟩ := dec_guard (rest.dropWhile (· = 32))
  by_cases hn : n = 0
  · refine ⟨none, fun guard _ => ?_⟩
    unfold scanIds
    rw [Cur.on_skipWs, hdec]
    exact if_pos (Or.inl hn)
  rcases peek_guard (b := 47) (by decide) after with ⟨after, rfl⟩ | hpeek
  · obtain ⟨tid, m, last, hdec'⟩ := dec_guard after
    by_cases hm : m = 0
    · refine ⟨none, fun guard _ => ?_⟩
      unfold scanIds
      rw [Cur.on_skipWs, hdec]
      dsimp only
      rw [on_adv_one, hdec', if_neg (not_or.mpr ⟨hn, by simp⟩)]
      exact if_pos hm
    · refine ⟨some (pid, tid, last.dropWhile (· = 32)), fun guard _ => ?_⟩
      unfold scanIds
      rw [Cur.on_skipWs, hdec]
      dsimp only
      rw [on_adv_one, hdec', if_neg (not_or.mpr ⟨hn, by simp⟩)]
      dsimp only
      rw [if_neg hm, Cur.on_skipWs]
      rfl
  · refine ⟨none, fun guard hg => ?_⟩
    unfold scanIds
    rw [Cur.on_skipWs, hdec]
    exact if_pos (Or.inr (hpeek guard hg))

theorem scanCpu_guard (rest : List UInt8) :
    ∃ r : Option (Option Nat × List UInt8), ∀ guard, Harmless guard →
      scanCpu (Cur.on guard rest) = r.map fun x => (x.1, Cur.on guard x.2) := by
  rcases peek_guard (b := 91) (by decide) rest with ⟨after, rfl⟩ | hpeek
  · obtain ⟨v, n, last, hdec⟩ := dec_guard after
    by_cases hn : n = 0
    · refine ⟨none, fun guard _ => ?_⟩
      unfold scanCpu
      rw [on_adv_one, hdec, if_pos (Cur.on_peek_cons 91)]
      exact if_pos (Or.inl hn)
    rcases peek_guard (b := 93) (by decide) last with ⟨last, rfl⟩ | hpeek
    · refine ⟨some (some (v % 2 ^ 32), last.dropWhile (· = 32)), fun guard _ => ?_⟩
      unfold scanCpu
      rw [on_adv_one, hdec, if_pos (Cur.on_peek_cons 91)]
      dsimp only
      rw [if_neg (not_or.mpr ⟨hn, by simp⟩), on_adv_one, Cur.on_skipWs]
      rfl
    · refine ⟨none, fun guard hg => ?_⟩
      unfold scanCpu
      rw [on_adv_one, hdec, if_pos (Cur.on_peek_cons 91)]
      exact if_pos (Or.inr (hpeek guard hg))
  · exact ⟨some (none, rest), fun guard hg => if_neg (hpeek guard hg)⟩

theorem scanTime_guard (rest : List UInt8) :
    ∃ r : Option (Nat × List UInt8), ∀ guard, Harmless guard →
      scanTime (Cur.on guard rest) = r.map fun x => (x.1, Cur.on guard x.2) := by
  obtain ⟨sec, n, after, hdec⟩ := dec_guard rest
  by_cases hn : n = 0
  · refine ⟨none, fun guard _ => ?_⟩
    unfold scanTime
    rw [hdec]
    exact if_pos (Or.inl hn)
  rcases peek_guard (b := 46) (by decide) after with ⟨after, rfl⟩ | hpeek
  · obtain ⟨frac, fd, last, hdec'⟩ := dec_guard after
    have hdot (guard : List UInt8) : ¬ (n = 0 ∨ (Cur.on guard (46 :: after)).peek ≠ 46) :=
      not_or.mpr ⟨hn, by simp⟩
    by_cases hfd : fd = 0 ∨ 9 < fd
    · refine ⟨none, fun guard _ => ?_⟩
      unfold scanTime
      rw [hdec]
      dsimp only
      rw [if_neg (hdot guard), on_adv_one, hdec']
      exact if_pos (hfd.imp_right Or.inl)
    rcases peek_guard (b := 58) (by decide) last with ⟨last, rfl⟩ | hpeek
    · refine ⟨((checkedMul sec 1000000000).bind (checkedAdd · (frac * 10 ^ (9 - fd)))).map fun ns =>
        (ns, last.dropWhile (· = 32)), fun guard _ => ?_⟩
      unfold scanTime
      rw [hdec]
      dsimp only
      rw [if_neg (hdot guard), on_adv_one, hdec']
      dsimp only
      rw [if_neg (by simpa [not_or] using hfd), on_adv_one, Cur.on_skipWs, Option.map_map]
      rfl
    · refine ⟨none, fun guard hg => ?_⟩
      unfold scanTime
      rw [hdec]
      dsimp only
      rw [if_neg (hdot guard), on_adv_one, hdec']
      exact if_pos (Or.inr (Or.inr (hpeek guard hg)))
  · refine ⟨none, fun guard hg => ?_⟩
    unfold scanTime
    rw [hdec]
    exact if_pos (Or.inr (hpeek guard hg))

/-! ## Tokens

Reading tokens never looks at the guard at all. -/

/-- The token in front, and what is behind it and its spaces. -/
theorem token_guard (rest : List UInt8) :
    ∃ t after, (∀ guard, (Cur.on guard rest).token = t) ∧
      (∀ guard, ((Cur.on guard rest).adv t.length).skipWs = Cur.on guard after) ∧
      (t ≠ [] → after.length < rest.length) := by
  have hpre : rest.takeWhile (fun b => !isStop b) <+: rest := List.takeWhile_prefix _
  have hlen := hpre.length_le
  refine ⟨rest.takeWhile fun b => !isStop b,
    (rest.drop (rest.takeWhile fun b => !isStop b).length).dropWhile (· = 32),
    fun _ => Cur.on_token, fun guard => ?_, ?_⟩
  · rw [Cur.on_adv hlen, Cur.on_skipWs]
  · intro hne
    have hpos := List.length_pos_of_ne_nil hne
    have hdrop := ((rest.drop (rest.takeWhile fun b => !isStop b).length).dropWhile_sublist
      (p := (· = 32))).length_le
    rw [List.length_drop] at hdrop
    omega

theorem scanEvent_guard (rest : List UInt8) :
    ∃ r : Option (SampleEvent × List UInt8), ∀ guard,
      scanEvent (Cur.on guard rest) = r.map fun x => (x.1, Cur.on guard x.2) := by
  obtain ⟨t, after, htoken, hskip, -⟩ := token_guard rest
  refine ⟨if t.getLast? ≠ some 58 then none
    else (if Text.ascii "branches" <+: t then some SampleEvent.branches
      else if Text.ascii "instructions" <+: t then some SampleEvent.instructions
      else none).map fun event => (event, after), fun guard => ?_⟩
  unfold scanEvent
  dsimp only
  rw [htoken, hskip]
  split
  · rfl
  · rw [Option.map_map]
    rfl

theorem scanFlags_guard (rest : List UInt8) :
    ∀ f hw, ∃ f' hw' after, ∀ guard,
      scanFlags (Cur.on guard rest) f hw = (f', hw', Cur.on guard after) := by
  induction hlen : rest.length using Nat.strong_induction_on generalizing rest with
  | _ len ih =>
  intro f hw
  obtain ⟨t, after, htoken, hskip, hshort⟩ := token_guard rest
  by_cases ht : t = []
  · refine ⟨f, hw, rest, fun guard => ?_⟩
    rw [scanFlags, htoken, if_pos ht]
  · cases hflag : Flags.fromToken t with
    | none =>
      refine ⟨f, hw, rest, fun guard => ?_⟩
      rw [scanFlags, htoken, if_neg ht, hflag]
    | some g =>
      obtain ⟨f', hw', last, hrest⟩ := ih after.length (hlen ▸ hshort ht) after rfl
        (f.note hw g) (decide (t = Text.ascii "hw"))
      refine ⟨f', hw', last, fun guard => ?_⟩
      rw [scanFlags, htoken, if_neg ht, hflag, hskip]
      exact hrest guard

/-- A hex number, and what is behind it and its spaces. -/
theorem hex_skip_guard (rest : List UInt8) :
    ∃ v after, (∀ guard, ∃ n c, (Cur.on guard rest).hex = (v, n, c) ∧
        c.skipWs = Cur.on guard after) ∧
      (isHexToken (Cur.on [] rest).token = true → after.length < rest.length) := by
  obtain ⟨v, n, after, hhex⟩ := hex_guard rest
  refine ⟨v, after.dropWhile (· = 32), fun guard => ⟨n, _, hhex guard, Cur.on_skipWs after⟩, ?_⟩
  intro ht
  have hrem : (Cur.on [] rest).hex.2.2.rem < rest.length := hex_token_rem ht
  rw [hhex] at hrem
  exact Nat.lt_of_le_of_lt (after.dropWhile_sublist (p := (· = 32))).length_le hrem

/-- One address and the spaces behind it, where a hex token is next. -/
theorem address_guard (rest : List UInt8) :
    (∀ guard, isHexToken (Cur.on guard rest).token = false) ∨
      ∃ v after, (∀ guard, isHexToken (Cur.on guard rest).token = true) ∧
        ∀ guard, ∃ n c, (Cur.on guard rest).hex = (v, n, c) ∧ c.skipWs = Cur.on guard after := by
  obtain ⟨t, -, htoken, -⟩ := token_guard rest
  cases ht : isHexToken t with
  | false => exact .inl fun guard => by rw [htoken, ht]
  | true =>
    obtain ⟨v, after, hhex, -⟩ := hex_skip_guard rest
    exact .inr ⟨v, after, fun guard => by rw [htoken, ht], hhex⟩

theorem scanAddrs_guard (rest : List UInt8) (event : SampleEvent) :
    ∃ r : Option (Option Nat × Option Nat × List UInt8), ∀ guard,
      scanAddrs (Cur.on guard rest) event = r.map fun x => (x.1, x.2.1, Cur.on guard x.2.2) := by
  rcases address_guard rest with hno | ⟨a, mid, htoken, hhex⟩
  · refine ⟨some (none, none, rest), fun guard => ?_⟩
    unfold scanAddrs
    rw [hno guard]
    rfl
  by_cases harrow : Text.ascii "=>" <+: mid
  · have hlen : 2 ≤ mid.length := harrow.length_le
    rcases address_guard ((mid.drop 2).dropWhile (· = 32)) with hno | ⟨b, after, htoken', hhex'⟩
    · refine ⟨none, fun guard => ?_⟩
      obtain ⟨n, c, hc, hskip⟩ := hhex guard
      unfold scanAddrs
      rw [htoken guard, hc]
      dsimp only
      rw [hskip, Cur.on_startsWith, decide_eq_true harrow, Cur.on_adv hlen, Cur.on_skipWs,
        hno guard]
      rfl
    · refine ⟨some (some a, some b, after), fun guard => ?_⟩
      obtain ⟨n, c, hc, hskip⟩ := hhex guard
      obtain ⟨n', c', hc', hskip'⟩ := hhex' guard
      unfold scanAddrs
      rw [htoken guard, hc]
      dsimp only
      rw [hskip, Cur.on_startsWith, decide_eq_true harrow, Cur.on_adv hlen, Cur.on_skipWs,
        htoken' guard, hc']
      dsimp only
      rw [hskip']
      rfl
  · rcases address_guard mid with hno | ⟨b, after, htoken', hhex'⟩
    · refine ⟨some (some a, none, mid.dropWhile (· = 32)), fun guard => ?_⟩
      obtain ⟨n, c, hc, hskip⟩ := hhex guard
      unfold scanAddrs
      rw [htoken guard, hc]
      dsimp only
      rw [hskip, Cur.on_startsWith, decide_eq_false harrow, hno guard, Cur.on_skipWs]
      rfl
    · refine ⟨some (if event.isInstruction then (some b, some a, after)
        else (some a, some b, after)), fun guard => ?_⟩
      obtain ⟨n, c, hc, hskip⟩ := hhex guard
      obtain ⟨n', c', hc', hskip'⟩ := hhex' guard
      unfold scanAddrs
      rw [htoken guard, hc]
      dsimp only
      rw [hskip, Cur.on_startsWith, decide_eq_false harrow, htoken' guard, hc']
      dsimp only
      rw [hskip']
      cases event.isInstruction <;> rfl

theorem scanInsn_guard (rest : List UInt8) :
    ∀ insn, ∃ insn' after, (∀ guard, scanInsn (Cur.on guard rest) insn =
        (insn', Cur.on guard after)) ∧ after.length ≤ rest.length := by
  induction hlen : rest.length using Nat.strong_induction_on generalizing rest with
  | _ len ih =>
  intro insn
  obtain ⟨t, -, htoken, -⟩ := token_guard rest
  by_cases ht : t.length = 2 ∧ isHexToken t
  · obtain ⟨v, after, hhex, hshort⟩ := hex_skip_guard rest
    have hlt : after.length < rest.length := hshort (by rw [htoken]; exact ht.2)
    obtain ⟨insn', last, hrest, hle⟩ := ih after.length (hlen ▸ hlt) after rfl
      (insn.push (UInt8.ofNat v))
    refine ⟨insn', last, fun guard => ?_, by omega⟩
    obtain ⟨n, c, hc, hskip⟩ := hhex guard
    rw [scanInsn, dif_pos (by rw [htoken]; exact ht), hc]
    dsimp only
    rw [hskip]
    exact hrest guard
  · refine ⟨insn, rest, fun guard => ?_, by omega⟩
    rw [scanInsn, dif_neg (by rw [htoken]; exact ht)]

theorem scanFields_guard (rest : List UInt8) :
    ∀ f hw len insn, ∃ r, ∀ guard, scanFields (Cur.on guard rest) f hw len insn = r := by
  induction hlen : rest.length using Nat.strong_induction_on generalizing rest with
  | _ n ih =>
  intro f hw len insn
  obtain ⟨t, after, htoken, hskip, hshort⟩ := token_guard rest
  by_cases ht : t = []
  · refine ⟨some (f, len, insn), fun guard => ?_⟩
    rw [scanFields, htoken, if_pos ht]
  have hlt := hshort ht
  by_cases hilen : t = Text.ascii "ilen:" ∨ t = Text.ascii "insnlen:"
  · obtain ⟨v, m, last, hdec⟩ := dec_guard after
    have hlast : (last.dropWhile (· = 32)).length ≤ after.length := by
      have hrem : (Cur.on [] after).dec.2.2.rem ≤ after.length := Cur.dec_rem_le _
      rw [hdec] at hrem
      exact Nat.le_trans (last.dropWhile_sublist (p := (· = 32))).length_le hrem
    by_cases hv : m = 0 ∨ 255 < v
    · refine ⟨none, fun guard => ?_⟩
      rw [scanFields, htoken, if_neg ht, if_pos hilen, hskip, hdec]
      exact if_pos hv
    · obtain ⟨r, hr⟩ := ih _ (by omega) (last.dropWhile (· = 32)) rfl f hw (some v) insn
      refine ⟨r, fun guard => ?_⟩
      rw [scanFields, htoken, if_neg ht, if_pos hilen, hskip, hdec]
      dsimp only
      rw [if_neg hv, Cur.on_skipWs]
      exact hr guard
  by_cases hinsn : t = Text.ascii "insn:"
  · obtain ⟨insn', last, hbytes, hle⟩ := scanInsn_guard after insn
    obtain ⟨r, hr⟩ := ih last.length (by omega) last rfl f hw len insn'
    refine ⟨r, fun guard => ?_⟩
    rw [scanFields, htoken, if_neg ht, if_neg hilen, if_pos hinsn, hskip, hbytes]
    exact hr guard
  · cases hflag : Flags.fromToken t with
    | none =>
      refine ⟨none, fun guard => ?_⟩
      rw [scanFields, htoken, if_neg ht, if_neg hilen, if_neg hinsn, hflag]
    | some g =>
      obtain ⟨r, hr⟩ := ih after.length (by omega) after rfl (f.note hw g)
        (decide (t = Text.ascii "hw")) len insn
      refine ⟨r, fun guard => ?_⟩
      rw [scanFields, htoken, if_neg ht, if_neg hilen, if_neg hinsn, hflag]
      dsimp only
      rw [hskip]
      exact hr guard

/-- What `parse_sample_guarded` does behind the columns. -/
def scanRest (pid tid : Nat) (cpu : Option Nat) (timeNs : Nat) (c : Cur) : Option Sample := do
  let (event, c) ← scanEvent c
  let (flags, prevHw, c) := scanFlags c .EMPTY false
  let (ip, addr, c) ← scanAddrs c event
  let (flags, insnLen, insn) ← scanFields c flags prevHw none .empty
  pure ⟨pid % 2 ^ 32, tid % 2 ^ 32, cpu, PerfScript.nonzeroTime (some timeNs), event, ip, addr,
    flags, insnLen, insn⟩

theorem parseSampleGuarded_columns (line guard : List UInt8) :
    parseSampleGuarded line guard = (scanIds (Cur.on guard line)).bind fun ids =>
      (scanCpu ids.2.2).bind fun cpu => (scanTime cpu.2).bind fun time =>
        scanRest ids.1 ids.2.1 cpu.1 time.1 time.2 := rfl

theorem scanRest_guard (pid tid : Nat) (cpu : Option Nat) (timeNs : Nat) (rest : List UInt8) :
    ∃ r, ∀ guard, scanRest pid tid cpu timeNs (Cur.on guard rest) = r := by
  obtain ⟨event, hevent⟩ := scanEvent_guard rest
  cases event with
  | none =>
    refine ⟨none, fun guard => ?_⟩
    unfold scanRest
    rw [hevent guard]
    rfl
  | some event =>
    obtain ⟨f, hw, after, hflags⟩ := scanFlags_guard event.2 .EMPTY false
    obtain ⟨addrs, haddrs⟩ := scanAddrs_guard after event.1
    cases addrs with
    | none =>
      refine ⟨none, fun guard => ?_⟩
      unfold scanRest
      rw [hevent guard]
      dsimp only [bind, Option.bind, Option.map_some]
      rw [hflags guard]
      dsimp only
      rw [haddrs guard]
      rfl
    | some addrs =>
      obtain ⟨fields, hfields⟩ := scanFields_guard addrs.2.2 f hw none .empty
      refine ⟨fields.map fun x => ⟨pid % 2 ^ 32, tid % 2 ^ 32, cpu,
        PerfScript.nonzeroTime (some timeNs), event.1, addrs.1, addrs.2.1, x.1, x.2.1, x.2.2⟩,
        fun guard => ?_⟩
      unfold scanRest
      rw [hevent guard]
      dsimp only [bind, Option.bind, Option.map_some]
      rw [hflags guard]
      dsimp only
      rw [haddrs guard]
      dsimp only [Option.map_some]
      rw [hfields guard]
      cases fields <;> rfl

/-- A part that reads the same whatever the guard, followed by one that does. -/
theorem guardless_bind {γ δ β : Type} {x : List UInt8 → Option δ} {k : δ → Option β}
    (at_ : List UInt8 → γ → δ)
    (hx : ∃ r : Option γ, ∀ guard, Harmless guard → x guard = r.map (at_ guard))
    (hk : ∀ v, ∃ r, ∀ guard, Harmless guard → k (at_ guard v) = r) :
    ∃ r, ∀ guard, Harmless guard → (x guard).bind k = r := by
  obtain ⟨v, hv⟩ := hx
  cases v with
  | none =>
    refine ⟨none, fun guard hg => ?_⟩
    rw [hv guard hg]
    rfl
  | some v =>
    obtain ⟨r, hr⟩ := hk v
    refine ⟨r, fun guard hg => ?_⟩
    rw [hv guard hg]
    exact hr guard hg

/-- A harmless guard does not change what a line reads as. -/
theorem parseSampleGuarded_guard (line : List UInt8) :
    ∃ r, ∀ guard, Harmless guard → parseSampleGuarded line guard = r := by
  simp only [parseSampleGuarded_columns]
  refine guardless_bind _ (scanIds_guard line) fun ids => ?_
  dsimp only
  refine guardless_bind _ (scanCpu_guard ids.2.2) fun cpu => ?_
  dsimp only
  refine guardless_bind _ (scanTime_guard cpu.2) fun time => ?_
  obtain ⟨r, hr⟩ := scanRest_guard ids.1 ids.2.1 cpu.1 time.1 time.2
  exact ⟨r, fun guard _ => hr guard⟩

/-- The scan of a line with anything harmless behind it. -/
theorem parseSampleGuarded_eq {line guard : List UInt8} (h : Harmless guard) :
    parseSampleGuarded line guard = parseSample line := by
  obtain ⟨r, hr⟩ := parseSampleGuarded_guard line
  rw [hr guard h, parseSample, hr _ (by unfold Harmless; decide)]

end FastLine

end TraceMcp.Decode
