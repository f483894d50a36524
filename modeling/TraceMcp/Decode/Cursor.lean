import TraceMcp.Decode.FastLine

/-!
# What the cursor reads

The windows of `FastLine.Cur` reach past the end of the line. `Cur.on guard
rest` is the cursor before the unread bytes `rest` of a line, with `guard`
behind the line. Every operation on it is a plain operation on `rest`: a
window is the run it looks for, a skipped stretch is a `dropWhile`, a token a
`takeWhile`. Only `peek` at the end of the line sees the guard.
-/

namespace TraceMcp.Decode

namespace FastLine

namespace Cur

/-- The cursor before the unread bytes `rest` of a line followed by `guard`. -/
def on (guard rest : List UInt8) : Cur := ⟨rest ++ guard, rest.length⟩

variable {guard rest : List UInt8} {bad : UInt8 → Bool} {n : Nat}

theorem on_adv (h : n ≤ rest.length) : (on guard rest).adv n = on guard (rest.drop n) := by
  have hrem : (on guard rest).rem = rest.length := rfl
  rw [adv, hrem, if_pos h, on, on, List.drop_append_of_le_length h, List.length_drop]

theorem on_adv_append (t : List UInt8) :
    (on guard (t ++ rest)).adv t.length = on guard rest := by
  rw [on_adv (by rw [List.length_append]; omega), List.drop_left]

@[simp] theorem on_peek_cons (b : UInt8) : (on guard (b :: rest)).peek = b := rfl

/-! ## Windows -/

/-- An index beyond the end of the line is cut off. -/
theorem findIdx_append_min (xs ys : List UInt8) :
    min ((xs ++ ys).findIdx bad) xs.length = xs.findIdx bad := by
  rw [List.findIdx_append]
  have hle := xs.findIdx_le_length (p := bad)
  split <;> omega

theorem on_run : (on guard rest).run bad = (rest.take 16).findIdx bad := by
  show min (((rest ++ guard).take 16).findIdx bad) (min rest.length 16) = _
  rw [List.take_append, Nat.min_comm rest.length, ← List.length_take]
  exact findIdx_append_min _ _

theorem run_le_length (rest : List UInt8) (bad : UInt8 → Bool) :
    (rest.take 16).findIdx bad ≤ rest.length := by
  have hle := (rest.take 16).findIdx_le_length (p := bad)
  rw [List.length_take] at hle
  omega

/-- A run of good bytes is all of the window's run: it fits the window and
something bad, or nothing, follows it. -/
theorem findIdx_run {ds : List UInt8} (hds : ∀ b ∈ ds, bad b = false) (hlen : ds.length ≤ 16)
    (hstop : ∀ b ∈ rest.head?, bad b = true) :
    ((ds ++ rest).take 16).findIdx bad = ds.length := by
  have hrun : ds.findIdx bad = ds.length :=
    List.findIdx_eq_length.mpr hds
  rw [List.take_append, List.take_of_length_le hlen, List.findIdx_append, hrun,
    if_neg (Nat.lt_irrefl _)]
  cases rest with
  | nil => simp
  | cons b rest =>
    cases hk : 16 - ds.length with
    | zero => simp
    | succ k =>
      rw [List.take_succ_cons, List.findIdx_cons, hstop b rfl]
      exact Nat.zero_add _

/-- What a window adds up with a mask is what its run adds up without one. -/
theorem foldl_masked (step : Nat → UInt8 → Nat) {f : Nat → UInt8 × Nat → Nat}
    (hf : ∀ v b i, f v (b, i) = if i < n then step v b else v) (l : List UInt8) :
    ∀ k v, (l.zipIdx k).foldl f v = (l.take (n - k)).foldl step v := by
  induction l with
  | nil => simp
  | cons b l ih =>
    intro k v
    rw [List.zipIdx_cons, List.foldl_cons, hf, ih]
    by_cases hk : k < n
    · obtain ⟨m, hm⟩ : ∃ m, n - k = m + 1 := ⟨n - k - 1, by omega⟩
      have hm' : n - (k + 1) = m := by omega
      rw [if_pos hk, hm, hm', List.take_succ_cons, List.foldl_cons]
    · have hz : n - k = 0 := by omega
      have hz' : n - (k + 1) = 0 := by omega
      rw [if_neg hk, hz, hz', List.take_zero, List.take_zero]

/-! ## Numbers -/

/-- The value of a run of decimal digits. -/
def decValue (ds : List UInt8) : Nat := ds.foldl (fun v b => v * 10 + (b - 48).toNat) 0

/-- The value of a run of hex digits. -/
def hexValue (ds : List UInt8) : Nat :=
  ds.foldl (fun v b => v <<< 4 ||| (hexLut b &&& 15).toNat) 0

/-- A masked sum over a window never reaches past the line. -/
theorem take_run (h : n ≤ rest.length) (h16 : n ≤ 16) :
    ((rest ++ guard).take 16).take (n - 0) = rest.take n := by
  rw [Nat.sub_zero, List.take_take, Nat.min_eq_left h16, List.take_append_of_le_length h]

theorem run_le_window (rest : List UInt8) (bad : UInt8 → Bool) :
    (rest.take 16).findIdx bad ≤ 16 := by
  have hle := (rest.take 16).findIdx_le_length (p := bad)
  rw [List.length_take] at hle
  omega

theorem on_dec :
    (on guard rest).dec =
      (decValue (rest.take ((rest.take 16).findIdx notDec)), (rest.take 16).findIdx notDec,
        on guard (rest.drop ((rest.take 16).findIdx notDec))) := by
  have hle := run_le_length rest notDec
  have hwin := run_le_window rest notDec
  unfold dec
  rw [on_run]
  dsimp only
  rw [on_adv hle]
  refine Prod.ext ?_ rfl
  refine (foldl_masked (n := (rest.take 16).findIdx notDec)
    (fun v b => v * 10 + (b - 48).toNat) ?_ ((rest ++ guard).take 16) 0 0).trans ?_
  · intro v b i
    dsimp only
    split <;> omega
  · rw [take_run hle hwin]
    rfl

theorem on_hex :
    (on guard rest).hex =
      (hexValue (rest.take ((rest.take 16).findIdx notHex)), (rest.take 16).findIdx notHex,
        on guard (rest.drop ((rest.take 16).findIdx notHex))) := by
  have hle := run_le_length rest notHex
  have hwin := run_le_window rest notHex
  unfold hex
  rw [on_run]
  dsimp only
  rw [on_adv hle]
  refine Prod.ext ?_ rfl
  refine (foldl_masked (n := (rest.take 16).findIdx notHex)
    (fun v b => v <<< 4 ||| (hexLut b &&& 15).toNat) ?_ ((rest ++ guard).take 16) 0 0).trans
    ?_
  · intro v b i
    dsimp only
    split <;> simp
  · rw [take_run hle hwin]
    rfl

/-! ## Spaces and tokens -/

/-- A stop inside the window is the first stop of what is behind it, or lies
past the line. -/
theorem findIdx_window {k : Nat} (h : ((rest ++ guard).take k).findIdx bad < k) :
    min (((rest ++ guard).take k).findIdx bad) rest.length = rest.findIdx bad := by
  have hall : ((rest ++ guard).take k).findIdx bad = (rest ++ guard).findIdx bad := by
    by_cases hlen : (rest ++ guard).length ≤ k
    · rw [List.take_of_length_le hlen]
    · conv_rhs => rw [← List.take_append_drop k (rest ++ guard)]
      rw [List.findIdx_append, if_pos]
      rw [List.length_take]
      omega
  rw [hall]
  exact findIdx_append_min rest guard

/-- Without a stop in it, the window is skipped, as far as the line reaches. -/
theorem findIdx_full {k : Nat} (h : ¬ ((rest ++ guard).take k).findIdx bad < k) :
    rest.findIdx bad = min (k + (rest.drop k).findIdx bad) rest.length := by
  have hlen : ((rest ++ guard).take k).length ≤ k := List.length_take_le ..
  have hle := ((rest ++ guard).take k).findIdx_le_length (p := bad)
  have hgood : ∀ b ∈ (rest ++ guard).take k, bad b = false :=
    List.findIdx_eq_length.mp (by omega)
  by_cases hk : k ≤ rest.length
  · have hfront : ∀ b ∈ rest.take k, bad b = false := by
      rwa [List.take_append_of_le_length hk] at hgood
    have hrun : (rest.take k).findIdx bad = (rest.take k).length := List.findIdx_eq_length.mpr hfront
    have hrest := (rest.drop k).findIdx_le_length (p := bad)
    rw [List.length_drop] at hrest
    conv_lhs => rw [← List.take_append_drop k rest]
    rw [List.findIdx_append, hrun, if_neg (Nat.lt_irrefl _), List.length_take]
    omega
  · have hline : ∀ b ∈ rest, bad b = false := by
      intro b hb
      refine hgood b ?_
      rw [List.take_append, List.take_of_length_le (by omega)]
      exact List.mem_append_left _ hb
    rw [List.findIdx_eq_length.mpr hline]
    omega

/-- Eight spaces at a time, then the rest of them. -/
theorem on_skipWs : ∀ rest, (on guard rest).skipWs = on guard (rest.dropWhile (· = 32)) := by
  intro rest
  induction hlen : rest.length using Nat.strong_induction_on generalizing rest with
  | _ len ih =>
  have hrem : (on guard rest).rem = rest.length := rfl
  have hahead : (on guard rest).ahead = rest ++ guard := rfl
  unfold skipWs
  rw [hrem, hahead]
  by_cases hz : rest.length = 0
  · rw [if_pos hz, List.length_eq_zero_iff.mp hz]
    rfl
  · rw [if_neg hz]
    split
    next h =>
      have hfront : ∀ b ∈ rest.take 8, decide (b = 32) = true := by
        have hall := List.all_eq_true.mp h.1
        rwa [List.take_append_of_le_length h.2] at hall
      rw [on_adv h.2, ih (rest.drop 8).length (by rw [List.length_drop]; omega) _ rfl]
      conv_rhs => rw [← List.take_append_drop 8 rest]
      rw [List.dropWhile_append_of_pos hfront]
    next h =>
      have hstop : min (((rest ++ guard).take 8).findIdx (· ≠ 32)) rest.length =
          rest.findIdx (· ≠ 32) := by
        by_cases hw : ((rest ++ guard).take 8).findIdx (· ≠ 32) < 8
        · exact findIdx_window hw
        · -- eight spaces, so the line ends before the eighth
          have hle := ((rest ++ guard).take 8).findIdx_le_length (p := (· ≠ 32))
          have hlen8 : ((rest ++ guard).take 8).length ≤ 8 := List.length_take_le ..
          have hspaces : ∀ b ∈ (rest ++ guard).take 8, decide (b ≠ 32) = false :=
            List.findIdx_eq_length.mp (by omega)
          have hshort : ¬ 8 ≤ rest.length := by
            intro h8
            refine h ⟨List.all_eq_true.mpr fun b hb => ?_, h8⟩
            simpa using hspaces b hb
          rw [findIdx_full hw]
          omega
      rw [on_adv (Nat.min_le_right ..), hstop, List.dropWhile_eq_drop_findIdx_not]
      simp

theorem on_tokenLenFrom (n : Nat) :
    (on guard rest).tokenLenFrom n = min (n + (rest.drop n).findIdx isStop) rest.length := by
  have hrem : (on guard rest).rem = rest.length := rfl
  have hdrop (n : Nat) (h : n < rest.length) :
      (on guard rest).ahead.drop n = rest.drop n ++ guard :=
    List.drop_append_of_le_length (Nat.le_of_lt h)
  fun_induction tokenLenFrom (on guard rest) n with
  | case1 n hn k hk =>
    have hk' : k = ((rest.drop n ++ guard).take 16).findIdx isStop := by rw [← hdrop n hn]
    have hstop := findIdx_window (hk' ▸ hk)
    rw [← hk', List.length_drop] at hstop
    omega
  | case2 n hn k hk ih =>
    have hk' : k = ((rest.drop n ++ guard).take 16).findIdx isStop := by rw [← hdrop n hn]
    have hfull := findIdx_full (hk' ▸ hk)
    rw [List.drop_drop, List.length_drop] at hfull
    omega
  | case3 n hn => omega

theorem on_token : (on guard rest).token = rest.takeWhile fun b => !isStop b := by
  have hle := rest.findIdx_le_length (p := isStop)
  rw [token, on_tokenLenFrom, List.drop_zero, Nat.zero_add, Nat.min_eq_left hle]
  show (rest ++ guard).take (rest.findIdx isStop) = _
  rw [List.take_append_of_le_length hle, List.takeWhile_eq_take_findIdx_not]
  simp

theorem on_startsWith (lit : List UInt8) :
    (on guard rest).startsWith lit = decide (lit <+: rest) := by
  have hrem : (on guard rest).rem = rest.length := rfl
  have hahead : (on guard rest).ahead = rest ++ guard := rfl
  rw [startsWith, hrem, hahead, Bool.eq_iff_iff, Bool.and_eq_true, decide_eq_true_iff,
    decide_eq_true_iff, decide_eq_true_iff]
  constructor
  · rintro ⟨hle, htake⟩
    rw [List.take_append_of_le_length hle] at htake
    exact htake ▸ List.take_prefix ..
  · intro h
    have hle := h.length_le
    exact ⟨hle, by rw [List.take_append_of_le_length hle, ← List.prefix_iff_eq_take.mp h]⟩

end Cur

end FastLine

end TraceMcp.Decode
