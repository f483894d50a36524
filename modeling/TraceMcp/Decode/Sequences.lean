import TraceMcp.Decode.Outcomes

/-!
# Sequence numbers

The number of a kept instruction is the counter of its task, which moves at
every instruction sample of the task and at every decoder error that may
concern it: two consecutive numbers of one thread mean that nothing came
between. `sequences_adjacent` says so of a finished pass, and of the targets
`aggregateBranches` reads off the numbers. It needs two things. The first
instruction of a new thread is numbered before the counter starts over, so no
task may be sampled again after an exit with its counter moved
(`CleanSequences`). And a thread id leaves the pid out, so no two processes may
have instructions under one tid (`OneProcess`).
-/

namespace TraceMcp.Decode

open TraceMcp.Lib Ledger

/-! ## Counting -/

instance (k : Key) : DecidablePred (Disturbs k)
  | .sample _ => inferInstanceAs (Decidable (_ ∧ _))
  | .decoderError _ => inferInstanceAs (Decidable (_ = _))
  | .task _ => inferInstanceAs (Decidable (_ ∧ _))
  | .mmap .. | .switch .. | .lost .. => isFalse id

/-- How many records disturb `k`. -/
def marks (k : Key) (recs : List RawRecord) : Nat := recs.countP (Disturbs k)

/-- Nothing here disturbs `k`: an instruction of it behind is the one executed
right after an instruction of it before. -/
def Undisturbed (k : Key) (recs : List RawRecord) : Prop := ∀ rec ∈ recs, ¬ Disturbs k rec

theorem undisturbed_iff {k : Key} {recs : List RawRecord} : Undisturbed k recs ↔ marks k recs = 0 := by
  rw [marks, List.countP_eq_zero]
  simp [Undisturbed]

theorem marks_snoc (k : Key) (recs : List RawRecord) (rec : RawRecord) :
    marks k (recs ++ [rec]) = marks k recs + if Disturbs k rec then 1 else 0 := by
  simp [marks, List.countP_append, List.countP_singleton]

namespace InsnReconstructor

variable {r r' i₀ : InsnReconstructor} {k : Key} {rec : RawRecord} {recs pre : List RawRecord}

/-- The counter of `k` stands at `n` in its life `g`, or that life is over. -/
def Stands (r : InsnReconstructor) (k : Key) (g n : Nat) : Prop :=
  (r.gate k = ⟨false, g⟩ ∧ r.seqByThread.get k = some n) ∨
    g < (r.gate k).gen + (r.gate k).exited.toNat

/-- The threads and numbers of the instructions kept. -/
def numbers (r : InsnReconstructor) : List (ThreadId × Nat) :=
  r.out.map fun i => (i.thread, i.sequence)

theorem Stands.of_eq {g n : Nat} (h : Stands r k g n) (hgate : r'.gate k = r.gate k)
    (hseq : r'.seqByThread.get k = r.seqByThread.get k) : Stands r' k g n := by
  rw [Stands, hgate, hseq]
  exact h

theorem resolveOutcome_same (k : Key) (ip : Option Nat) :
    r.resolveOutcome k ip = { r with
      pending := (r.resolveOutcome k ip).pending
      out := (r.resolveOutcome k ip).out } := by
  unfold resolveOutcome
  split <;> rfl

theorem resolveOutcome_numbers (k : Key) (ip : Option Nat) :
    (r.resolveOutcome k ip).numbers = r.numbers := by
  unfold numbers
  cases h : r.pending.get k with
  | none => rw [resolveOutcome_none h]
  | some p =>
    rw [resolveOutcome_out h]
    apply List.ext_getElem?
    intro j
    simp only [List.getElem?_map, List.getElem?_modify, Option.map_eq_map, Option.map_map]
    congr 1
    funext i
    simp only [Function.comp_apply]
    split <;> rfl

theorem resolveOutcomes_same (ks : List Key) (ip : Option Nat) :
    (ks.foldl (fun r k => r.resolveOutcome k ip) r).seqByThread = r.seqByThread ∧
      (ks.foldl (fun r k => r.resolveOutcome k ip) r).numbers = r.numbers := by
  induction ks generalizing r with
  | nil => exact ⟨rfl, rfl⟩
  | cons k ks ih =>
    rw [List.foldl_cons, ih.1, ih.2, resolveOutcome_numbers, resolveOutcome_same]
    exact ⟨rfl, rfl⟩

/-- Every entry changed once. -/
theorem foldl_modify_get {ks : List Key} (hnodup : ks.Nodup) (m : FastMap Key Nat) (k : Key) :
    (ks.foldl (fun m k => m.modify k (· + 1)) m).get k =
      if k ∈ ks then (m.get k).map (· + 1) else m.get k := by
  induction ks generalizing m with
  | nil => simp
  | cons k' ks ih =>
    obtain ⟨hnew, hnodup⟩ := List.nodup_cons.mp hnodup
    rw [List.foldl_cons, ih hnodup, FastMap.get_modify]
    by_cases hk : k = k'
    · subst hk
      simp [hnew]
    · simp [hk]

/-- A decoder error moves the counter of every task it may concern. -/
theorem pushDecoderError_get (e : DecoderErrorEvent) (k : Key) :
    (r.pushDecoderError e).seqByThread.get k =
      if Disturbs k (.decoderError e) then (r.seqByThread.get k).map (· + 1)
      else r.seqByThread.get k := by
  have hdisturbs : Disturbs k (.decoderError e) ↔
      (namedKey (.decoderError e)).all (· = k) = true := Iff.rfl
  unfold pushDecoderError
  dsimp only
  split
  next p t hp ht =>
    have hnamed : namedKey (.decoderError e) = some (p, t) := by simp [namedKey, hp, ht]
    rw [hnamed, Option.all_some, decide_eq_true_eq] at hdisturbs
    rw [FastMap.get_modify, resolveOutcome_same]
    by_cases hk : (p, t) = k
    · rw [if_pos (hdisturbs.mpr hk), if_pos hk.symm, hk]
    · rw [if_neg (mt hdisturbs.mp hk), if_neg (Ne.symm hk)]
  next hnone =>
    have hnamed : namedKey (.decoderError e) = none := by
      cases hp : e.pid with
      | none => simp [namedKey, hp]
      | some p =>
        cases ht : e.tid with
        | none => simp [namedKey, ht]
        | some t => exact (hnone p t hp ht).elim
    rw [hnamed] at hdisturbs
    rw [if_pos (hdisturbs.mpr rfl),
      (resolveOutcomes_same (r := { r with decoderErrors := r.decoderErrors + 1 }) _ _).1,
      foldl_modify_get (AList.keys_nodup _)]
    split
    next => rfl
    next hk =>
      rw [show r.seqByThread.get k = none from AList.lookup_eq_none.mpr hk]
      rfl

theorem pushDecoderError_numbers (e : DecoderErrorEvent) :
    (r.pushDecoderError e).numbers = r.numbers := by
  unfold pushDecoderError
  dsimp only
  split
  next => exact resolveOutcome_numbers (r := { r with decoderErrors := r.decoderErrors + 1 }) ..
  next => exact (resolveOutcomes_same (r := { r with decoderErrors := r.decoderErrors + 1 }) ..).2

/-- An instruction sample is numbered by the counter it found, and leaves the
counter of its task one on, or at one in a new life. -/
theorem pushSample_numbers {s : Sample} (h : r.pushSample s = .ok r') :
    let k := (s.pid, s.tid)
    let n := (r.seqByThread.get k).getD 0 + 1
    (∀ k', r'.seqByThread.get k' = if k' = k then
        some (if (r.gate k).exited = true then 1 else n) else r.seqByThread.get k') ∧
      (r'.numbers = r.numbers ∨
        (r.selected s (lifeId (k, (r'.gate k).gen)) = true ∧
          r'.numbers = r.numbers ++ [(lifeId (k, (r'.gate k).gen), n)])) := by
  dsimp only
  obtain ⟨hgate, -⟩ := pushSample_gate h (s.pid, s.tid)
  rw [if_pos rfl] at hgate
  have hentered := pushSample_ok h
  dsimp only at hentered
  generalize hr₁ : r.arrived (s.pid, s.tid) (s.ip.getD 0) = r₁ at hentered
  -- settling the conditional before it changes nothing the numbers are read off
  have hsame : r₁ = { r with
      samplesSeen := r₁.samplesSeen
      seqByThread := r.seqByThread.insert (s.pid, s.tid)
        ((r.seqByThread.get (s.pid, s.tid)).getD 0 + 1)
      pending := r₁.pending
      out := r₁.out } := by
    rw [← hr₁, arrived, resolveOutcome_same]
  have hnumbers : r₁.numbers = r.numbers := by
    rw [← hr₁]
    exact resolveOutcome_numbers (r := { r with
      samplesSeen := r.samplesSeen + 1
      seqByThread := r.seqByThread.insert (s.pid, s.tid)
        ((r.seqByThread.get (s.pid, s.tid)).getD 0 + 1) }) ..
  have hids : r₁.threadIds = r.threadIds := by rw [hsame]
  -- a new life starts again at one, whatever the counter had reached
  have hseqs : (r₁.enterThread (s.pid, s.tid)).1.seqByThread =
      if (r.gate (s.pid, s.tid)).exited = true then
        r₁.seqByThread.insert (s.pid, s.tid) 1 else r₁.seqByThread := by
    unfold enterThread
    rw [hids]
    by_cases hexited : (s.pid, s.tid) ∈ r.threadIds.exited
    · simp [ThreadIds.takeExited, gate, hexited]
    · simp [ThreadIds.takeExited, gate, hexited]
  have htid : (r₁.enterThread (s.pid, s.tid)).2 = lifeId ((s.pid, s.tid), (r'.gate (s.pid, s.tid)).gen) := by
    rw [hgate]
    unfold enterThread
    rw [hids]
    show ThreadId.task s.tid ((r.threadIds.takeExited (s.pid, s.tid)).1.gen (s.pid, s.tid)) = _
    rw [ThreadIds.gen_takeExited]
    by_cases hexited : (s.pid, s.tid) ∈ r.threadIds.exited
    · simp [lifeId, Gate.step, gate, hexited]
    · simp [lifeId, Gate.step, gate, hexited]
  have hselected : ∀ t, (r₁.enterThread (s.pid, s.tid)).1.selected s t = r.selected s t := by
    intro t
    rw [hsame]
    rfl
  have hget : ∀ k', (r₁.enterThread (s.pid, s.tid)).1.seqByThread.get k' =
      if k' = (s.pid, s.tid) then
        some (if (r.gate (s.pid, s.tid)).exited = true then 1
          else (r.seqByThread.get (s.pid, s.tid)).getD 0 + 1)
      else r.seqByThread.get k' := by
    intro k'
    rw [hseqs, hsame]
    split_ifs with hexited hk hk
    · rw [FastMap.get_insert, if_pos hk]
    · rw [FastMap.get_insert, if_neg hk, FastMap.get_insert, if_neg hk]
    · rw [FastMap.get_insert, if_pos hk]
    · rw [FastMap.get_insert, if_neg hk]
  have hentern : (r₁.enterThread (s.pid, s.tid)).1.numbers = r.numbers := by
    rw [numbers, (enterThread_frame (r := r₁) _).1]
    exact hnumbers
  -- the filter turns the sample away, or its row takes the number
  rcases hentered with ⟨-, rfl⟩ | ⟨hsel, i, hrow⟩
  · exact ⟨hget, .inl hentern⟩
  · refine ⟨?_, .inr ⟨?_, ?_⟩⟩
    · rw [hrow.seqs]
      exact hget
    · rw [← htid, ← hselected]
      exact hsel
    · rw [numbers, hrow.out, List.map_append, ← htid, ← hrow.thread, ← hrow.sequence]
      exact congrArg (· ++ _) hentern

/-! ## Adjacency -/

/-- Instructions `j` and `j'` belong to samples of task `k` with the records
`mid` between them. -/
def Apart (i₀ : InsnReconstructor) (recs : List RawRecord) (j j' : Nat) (k : Key)
    (mid : List RawRecord) : Prop :=
  ∃ xs s s' ys, recs = xs ++ .sample s :: (mid ++ .sample s' :: ys) ∧
    (s.pid, s.tid) = k ∧ (s'.pid, s'.tid) = k ∧
    Retains i₀ xs s j ∧ Retains i₀ (xs ++ .sample s :: mid) s' j'

theorem Apart.append {j j' : Nat} {mid : List RawRecord} (h : Apart i₀ recs j j' k mid)
    (zs : List RawRecord) : Apart i₀ (recs ++ zs) j j' k mid := by
  obtain ⟨xs, s, s', ys, rfl, h⟩ := h
  exact ⟨xs, s, s', ys ++ zs, by simp, h⟩

/-- The kept sample does not start a new thread while the counter of the old
one has moved. -/
def CleanSequence (r : InsnReconstructor) : RawRecord → Prop
  | .sample s => s.event.isInstruction = true →
      (r.pidFilter.all fun f => f.isLiveThread s.pid s.tid) = true →
      r.selected s (lifeId ((s.pid, s.tid), (r.gate (s.pid, s.tid)).gen + 1)) = true →
      (r.gate (s.pid, s.tid)).exited = true → r.seqByThread.get (s.pid, s.tid) = none
  | _ => True

/-- Where the instruction numbered `n` of thread `t` comes from, and that the
counter of its task has moved once for every record that disturbed it since. -/
structure Counted (i₀ : InsnReconstructor) (pre : List RawRecord) (r : InsnReconstructor)
    (j : Nat) (t : ThreadId) (n : Nat) (k : Key) (mid : List RawRecord) : Prop where
  made : ∃ xs s, pre = xs ++ .sample s :: mid ∧ (s.pid, s.tid) = k ∧ Retains i₀ xs s j
  stands : ∃ g, t = lifeId (k, g) ∧ Stands r k g (n + marks k mid)
  live : ∀ f, r.pidFilter = some f → f.isLiveThread k.1 k.2 = true

/-- Every instruction kept is counted, and two of one thread are as far apart
as the records between them say. -/
structure Numbered (i₀ : InsnReconstructor) (pre : List RawRecord) (r : InsnReconstructor) :
    Prop where
  rows : ∀ j t n, r.numbers[j]? = some (t, n) → ∃ k mid, Counted i₀ pre r j t n k mid
  pairs : ∀ j j' t n n', j < j' → r.numbers[j]? = some (t, n) → r.numbers[j']? = some (t, n') →
    ∃ k mid, Apart i₀ pre j j' k mid ∧ n' = n + marks k mid + 1

/-- No two processes have instructions kept under one tid. -/
def OneProcess (i₀ : InsnReconstructor) (recs : List RawRecord) : Prop :=
  ∀ xs s j xs' s' j', xs ++ [.sample s] <+: recs → xs' ++ [.sample s'] <+: recs →
    Retains i₀ xs s j → Retains i₀ xs' s' j' → s.tid = s'.tid → s.pid = s'.pid

/-! ## One record -/

/-- A record that comes through moves the counters it disturbs, and an exit
ends a life. -/
theorem accept_stands {g n : Nat} (h : r.accept rec = .ok r') (hS : Stands r k g n) :
    Stands r' k g (n + if Disturbs k rec then 1 else 0) := by
  cases rec with
  | mmap | lost | switch =>
    obtain rfl := Except.ok.inj h
    exact hS
  | task t =>
    obtain ⟨hgate, -⟩ : r'.gate k = (signOf k (.task t)).elim (r.gate k) (r.gate k).step ∧ _ :=
      accept_gate h k
    obtain rfl := Except.ok.inj h
    rw [signOf] at hgate
    -- only an exit of the task itself ends the life
    by_cases hexit : t.kind = .exit ∧ (t.pid, t.tid) = k
    · rw [if_pos hexit] at hgate
      refine .inr ?_
      rw [hgate]
      show g < (r.gate k).gen + 1
      rcases hS with ⟨heq, -⟩ | hover
      · rw [heq]
        exact Nat.lt_succ_self g
      · exact Nat.lt_of_lt_of_le hover (Nat.add_le_add_left (Bool.toNat_le _) _)
    · rw [if_neg hexit] at hgate
      rw [if_neg (show ¬ Disturbs k (.task t) from hexit)]
      exact hS.of_eq hgate rfl
  | decoderError e =>
    obtain ⟨hgate, -⟩ :
        r'.gate k = (signOf k (.decoderError e)).elim (r.gate k) (r.gate k).step ∧ _ :=
      accept_gate h k
    obtain rfl := Except.ok.inj h
    have hsame : (r.pushDecoderError e).gate k = r.gate k := by
      refine hgate.trans ?_
      rw [signOf]
      split <;> rfl
    -- an error clears no counter: the life goes on, and so does its numbering
    rcases hS with ⟨heq, hseq⟩ | hover
    · refine .inl ⟨hsame.trans heq, ?_⟩
      rw [pushDecoderError_get, hseq]
      split <;> rfl
    · refine .inr ?_
      rw [hsame]
      exact hover
  | sample s =>
    cases hinsn : s.event.isInstruction with
    | false =>
      simp only [accept, hinsn, Bool.false_eq_true, if_false] at h
      obtain rfl := Except.ok.inj h
      rw [if_neg (show ¬ Disturbs k (.sample s) from fun hd => absurd hd.1 (by simp [hinsn]))]
      exact hS
    | true =>
      simp only [accept, hinsn, if_true] at h
      obtain ⟨hgate, -⟩ := pushSample_gate h k
      obtain ⟨hget, -⟩ := pushSample_numbers h
      -- a sample of another task moves neither the counter nor the life
      by_cases hk : (s.pid, s.tid) = k
      · subst hk
        rw [if_pos rfl] at hgate
        rw [if_pos (show Disturbs (s.pid, s.tid) (.sample s) from ⟨hinsn, rfl⟩)]
        rcases hS with ⟨heq, hseq⟩ | hover
        · refine .inl ⟨by rw [hgate, heq]; rfl, ?_⟩
          rw [hget, if_pos rfl, heq, hseq]
          rfl
        · refine .inr ?_
          rw [hgate]
          exact hover
      · rw [if_neg hk] at hgate
        rw [if_neg (show ¬ Disturbs k (.sample s) from fun hd => hk hd.2)]
        exact hS.of_eq hgate ((hget k).trans (if_neg (Ne.symm hk)))

/-- A record keeps at most one instruction: a sample that came through, of a
task whose life goes on or starts with it. -/
theorem accept_numbers (h : r.accept rec = .ok r') :
    r'.numbers = r.numbers ∨ ∃ s, rec = .sample s ∧ s.event.isInstruction = true ∧
      r.selected s (lifeId ((s.pid, s.tid), (r'.gate (s.pid, s.tid)).gen)) = true ∧
      r'.numbers = r.numbers ++ [(lifeId ((s.pid, s.tid), (r'.gate (s.pid, s.tid)).gen),
        (r.seqByThread.get (s.pid, s.tid)).getD 0 + 1)] := by
  cases rec with
  | mmap | task | lost | switch =>
    obtain rfl := Except.ok.inj h
    exact .inl rfl
  | decoderError e =>
    obtain rfl := Except.ok.inj h
    exact .inl (pushDecoderError_numbers e)
  | sample s =>
    cases hinsn : s.event.isInstruction with
    | false =>
      simp only [accept, hinsn, Bool.false_eq_true, if_false] at h
      obtain rfl := Except.ok.inj h
      exact .inl rfl
    | true =>
      simp only [accept, hinsn, if_true] at h
      exact (pushSample_numbers h).2.imp_right fun hnew => ⟨s, rfl, hinsn, hnew⟩

theorem accept_pidFilter (h : r.accept rec = .ok r') : r'.pidFilter = r.pidFilter := by
  cases rec with
  | mmap | task | lost | switch =>
    obtain rfl := Except.ok.inj h
    rfl
  | decoderError e =>
    obtain rfl := Except.ok.inj h
    exact (pushDecoderError_frame e).2
  | sample s =>
    cases hinsn : s.event.isInstruction with
    | false =>
      simp only [accept, hinsn, Bool.false_eq_true, if_false] at h
      obtain rfl := Except.ok.inj h
      rfl
    | true =>
      simp only [accept, hinsn, if_true] at h
      exact (pushSample_gate h (s.pid, s.tid)).2

/-- What is counted stays counted. -/
theorem Counted.step {j n : Nat} {t : ThreadId} {mid : List RawRecord}
    (hC : Counted i₀ pre r j t n k mid) (h : r.push rec = .ok r') :
    Counted i₀ (pre ++ [rec]) r' j t n k (mid ++ [rec]) := by
  obtain ⟨xs, s, rfl, hk, hmade⟩ := hC.made
  obtain ⟨g, ht, hS⟩ := hC.stands
  have hobserved : Stands { r with pidFilter := r.pidFilter.map (·.observe rec) } k g
      (n + marks k mid) := hS
  have hlive : ∀ f, (r.pidFilter.map (·.observe rec)) = some f → f.isLiveThread k.1 k.2 = true := by
    intro f hf
    obtain ⟨f₀, hf₀, rfl⟩ := Option.map_eq_some_iff.mp hf
    exact PidTracker.isLiveThread_observe (hC.live f₀ hf₀) rec
  have hmade' : ∃ xs' s', xs ++ .sample s :: mid ++ [rec] = xs' ++ .sample s' :: (mid ++ [rec]) ∧
      (s'.pid, s'.tid) = k ∧ Retains i₀ xs' s' j :=
    ⟨xs, s, by rw [List.append_assoc, List.cons_append], hk, hmade⟩
  rcases push_ok h with ⟨hfiltered, rfl⟩ | ⟨-, haccept⟩
  · -- a withheld sample is none of a task with instructions
    have hpass : ¬ Disturbs k rec := by
      intro hdisturbs
      obtain ⟨f, hf, hdrop⟩ := (Option.any_eq_true _ _).mp hfiltered
      cases rec with
      | sample s' =>
        obtain ⟨-, rfl⟩ := hdisturbs
        simp [filtered, hlive f hf] at hdrop
      | mmap => exact hdisturbs
      | task | lost | decoderError | switch => cases hdrop
    refine ⟨hmade', ⟨g, ht, ?_⟩, hlive⟩
    rw [marks_snoc, if_neg hpass]
    exact hobserved
  · refine ⟨hmade', ⟨g, ht, ?_⟩, ?_⟩
    · rw [marks_snoc, ← Nat.add_assoc]
      exact accept_stands haccept hobserved
    · rw [accept_pidFilter haccept]
      exact hlive

/-- A record that keeps no instruction. -/
theorem Numbered.keep (hN : Numbered i₀ pre r) (h : r.push rec = .ok r')
    (hsame : r'.numbers = r.numbers) : Numbered i₀ (pre ++ [rec]) r' := by
  refine ⟨?_, ?_⟩
  · intro j t n hj
    rw [hsame] at hj
    obtain ⟨k, mid, hC⟩ := hN.rows j t n hj
    exact ⟨k, mid ++ [rec], hC.step h⟩
  · intro j j' t n n' hlt hj hj'
    rw [hsame] at hj hj'
    obtain ⟨k, mid, hapart, hn'⟩ := hN.pairs j j' t n n' hlt hj hj'
    exact ⟨k, mid, hapart.append [rec], hn'⟩

/-- A sample that becomes an instruction: it counts on from the instructions of
its thread before it. -/
theorem Numbered.add {s : Sample} {k : Key} {n₀ : Nat} (hN : Numbered i₀ pre r)
    (h : r.push (.sample s) = .ok r') (hk : k = (s.pid, s.tid))
    (hnew : r'.numbers = r.numbers ++ [(lifeId (k, (r'.gate k).gen), n₀)])
    (hgate : r'.gate k = (r.gate k).step .sample)
    (hcount : n₀ = (r.seqByThread.get k).getD 0 + 1) (hstart : Stands r' k (r'.gate k).gen n₀)
    (hmade : Retains i₀ pre s r.numbers.length)
    (hlive : ∀ f, r'.pidFilter = some f → f.isLiveThread k.1 k.2 = true)
    (howner : OneProcess i₀ (pre ++ [.sample s])) : Numbered i₀ (pre ++ [.sample s]) r' := by
  subst hk
  have hold : ∀ j t n, r'.numbers[j]? = some (t, n) →
      (j < r.numbers.length ∧ r.numbers[j]? = some (t, n)) ∨
        (j = r.numbers.length ∧
          t = lifeId ((s.pid, s.tid), (r'.gate (s.pid, s.tid)).gen) ∧ n = n₀) := by
    intro j t n hj
    rw [hnew] at hj
    rcases Nat.lt_or_ge j r.numbers.length with hlt | hge
    · rw [List.getElem?_append_left hlt] at hj
      exact .inl ⟨hlt, hj⟩
    · rw [List.getElem?_append_right hge] at hj
      have hzero := (List.getElem?_eq_some_iff.mp hj).1
      rw [List.length_singleton] at hzero
      have hj0 : j - r.numbers.length = 0 := by omega
      rw [hj0] at hj
      obtain ⟨rfl, rfl⟩ := Prod.mk.inj (Option.some.inj hj)
      exact .inr ⟨by omega, rfl, rfl⟩
  refine ⟨?_, ?_⟩
  · intro j t n hj
    rcases hold j t n hj with ⟨-, hj⟩ | ⟨rfl, rfl, rfl⟩
    · obtain ⟨k, mid, hC⟩ := hN.rows j t n hj
      exact ⟨k, mid ++ [.sample s], hC.step h⟩
    · exact ⟨(s.pid, s.tid), [], ⟨pre, s, rfl, rfl, hmade⟩, ⟨_, rfl, hstart⟩, hlive⟩
  · intro j j' t n n' hlt hj hj'
    rcases hold j' t n' hj' with ⟨hlt', hj'⟩ | ⟨rfl, ht, rfl⟩
    · rcases hold j t n hj with ⟨-, hj⟩ | ⟨rfl, -, -⟩
      · obtain ⟨k, mid, hapart, hn'⟩ := hN.pairs j j' t n n' hlt hj hj'
        exact ⟨k, mid, hapart.append [.sample s], hn'⟩
      · exact absurd hlt (by omega)
    · rcases hold j t n hj with ⟨-, hj⟩ | ⟨rfl, -, -⟩
      · obtain ⟨k, mid, hC⟩ := hN.rows j t n hj
        obtain ⟨xs, s₁, hpre, hk₁, hmade₁⟩ := hC.made
        obtain ⟨g, hg, hS⟩ := hC.stands
        obtain ⟨htid, hgen⟩ := ThreadId.task.inj (hg.symm.trans ht)
        -- one thread, so one tid and one life, and one process has them
        have hpid : s₁.pid = s.pid := by
          refine howner xs s₁ j pre s r.numbers.length ?_ List.prefix_rfl hmade₁ hmade ?_
          · exact ⟨mid ++ [.sample s], by rw [hpre]; simp⟩
          · rw [← hk₁] at htid
            exact htid
        have hkey : k = (s.pid, s.tid) := by
          rw [← hk₁] at htid ⊢
          exact Prod.ext hpid htid
        subst hkey
        refine ⟨(s.pid, s.tid), mid, ⟨xs, s₁, s, [], ?_, hk₁, rfl, hmade₁, ?_⟩, ?_⟩
        · rw [hpre]
          simp
        · rw [← hpre]
          exact hmade
        · rcases hS with ⟨-, hseq⟩ | hover
          · rw [hcount, hseq]
            rfl
          · have hgen' : g = ((r.gate (s.pid, s.tid)).step .sample).gen := by
              rw [← hgate]
              exact hgen
            rw [hgen'] at hover
            exact absurd hover (Nat.lt_irrefl _)
      · exact absurd hlt (Nat.lt_irrefl _)

/-- One record. -/
theorem push_numbered (hrun : i₀.pushAll pre = .ok r) (h : r.push rec = .ok r')
    (hclean : CleanSequence r rec) (howner : OneProcess i₀ (pre ++ [rec]))
    (hN : Numbered i₀ pre r) : Numbered i₀ (pre ++ [rec]) r' := by
  rcases push_ok h with ⟨-, rfl⟩ | ⟨hkept, haccept⟩
  · exact hN.keep h rfl
  · rcases accept_numbers haccept with hsame | ⟨s, rfl, hinsn, hselected, hnew⟩
    · exact hN.keep h hsame
    · have hpush := haccept
      simp only [accept, hinsn, if_true] at hpush
      obtain ⟨hgate, hfilter⟩ := pushSample_gate hpush (s.pid, s.tid)
      rw [if_pos rfl] at hgate
      obtain ⟨hget, -⟩ := pushSample_numbers hpush
      have hlive : ∀ f, r.pidFilter.map (·.observe (.sample s)) = some f →
          f.isLiveThread s.pid s.tid = true := by
        intro f hf
        have hf' : ({ r with pidFilter := r.pidFilter.map (·.observe (.sample s)) } :
          InsnReconstructor).pidFilter = some f := hf
        rw [hf'] at hkept
        simpa [filtered] using hkept
      have hcome : (r.pidFilter.all fun f => f.isLiveThread s.pid s.tid) = true := by
        cases hf : r.pidFilter with
        | none => rfl
        | some f => exact hlive f (by rw [hf]; rfl)
      refine hN.add h rfl hnew hgate rfl (.inl ⟨?_, ?_⟩) ?_ ?_ howner
      · rw [hgate]
        rfl
      · rw [hget, if_pos rfl]
        split
        next hexited =>
          have hnone : r.seqByThread.get (s.pid, s.tid) = none := by
            refine hclean hinsn hcome ?_ hexited
            have hexited' : (r.gate (s.pid, s.tid)).exited = true := hexited
            have hgen : (r'.gate (s.pid, s.tid)).gen = (r.gate (s.pid, s.tid)).gen + 1 := by
              rw [hgate]
              show (r.gate (s.pid, s.tid)).gen + (r.gate (s.pid, s.tid)).exited.toNat = _
              rw [hexited']
              rfl
            rw [← hgen]
            exact hselected
          rw [show ({ r with pidFilter := r.pidFilter.map (·.observe (.sample s)) } :
            InsnReconstructor).seqByThread.get (s.pid, s.tid) = none from hnone]
          rfl
        next => rfl
      · refine ⟨r, r', hrun, h, ?_, ?_⟩
        · rw [numbers, List.length_map]
        · have hlen := congrArg List.length hnew
          simpa [numbers] using hlen
      · rw [hfilter]
        exact hlive

/-! ## Branch targets -/

/-- Instruction `j` is the indirect branch at `ip`, and the one listed behind it
follows it, at `a`. -/
def Reached (insns : List InstructionRecord) (ip a j : Nat) : Prop :=
  ∃ insn next, insns[j]? = some insn ∧ insns[j + 1]? = some next ∧
    (insn.kind = .indirectCall ∨ insn.kind = .indirectJump) ∧
    follows insn next = true ∧ insn.virtIp = ip ∧ next.virtIp = a

/-- Every target collected is one some branch at the site reached. -/
def Grounded (insns : List InstructionRecord) (map : FastMap Nat Site) : Prop :=
  ∀ ip e, map.get ip = some e → ∀ a ∈ e.targets, ∃ j, Reached insns ip a j

theorem Grounded.insert {insns : List InstructionRecord} {map : FastMap Nat Site} {ip : Nat}
    {e : Site} (h : Grounded insns map) (he : ∀ a ∈ e.targets, ∃ j, Reached insns ip a j) :
    Grounded insns (map.insert ip e) := by
  intro ip' e' he' a ha
  rw [FastMap.get_insert] at he'
  split at he'
  next hip =>
    obtain rfl := Option.some.inj he'
    rw [hip]
    exact he a ha
  next => exact h ip' e' he' a ha

/-- The site so far has grounded targets, also when it is new. -/
theorem Grounded.site {insns : List InstructionRecord} {map : FastMap Nat Site}
    (h : Grounded insns map) (ip : Nat) :
    ∀ a ∈ ((map.get ip).getD .default).targets, ∃ j, Reached insns ip a j := by
  intro a ha
  cases hmap : map.get ip with
  | none =>
    rw [hmap] at ha
    cases ha
  | some e =>
    rw [hmap] at ha
    exact h ip e hmap a ha

theorem Site.count_targets (e : Site) (insn : InstructionRecord) :
    (e.count insn).targets = e.targets := by
  unfold Site.count
  dsimp only
  split <;> rfl

theorem Site.mem_reach_targets {e : Site} {insn next : InstructionRecord} {a : Nat}
    (h : a ∈ (e.reach insn next).targets) : a ∈ e.targets ∨ a = next.virtIp := by
  unfold Site.reach at h
  dsimp only at h
  split at h
  · exact .inl h
  · exact (List.mem_append.mp h).imp_right List.mem_singleton.mp

/-- The loop keeps the targets grounded. -/
theorem collectSites_grounded {insns rest : List InstructionRecord} {map : FastMap Nat Site}
    (before : List InstructionRecord) (hsplit : insns = before ++ rest) (h : Grounded insns map) :
    Grounded insns (collectSites map rest) := by
  induction rest generalizing before map with
  | nil => exact h
  | cons insn rest ih =>
    have hsplit' : insns = (before ++ [insn]) ++ rest := by rw [hsplit]; simp
    have hcount : Grounded insns
        (map.insert insn.virtIp (((map.get insn.virtIp).getD .default).count insn)) := by
      refine h.insert ?_
      rw [Site.count_targets]
      exact h.site insn.virtIp
    have hreach : (insn.kind = .indirectCall ∨ insn.kind = .indirectJump) →
        ∀ next, rest.head?.filter (follows insn) = some next → Grounded insns
          (map.insert insn.virtIp (((map.get insn.virtIp).getD .default).reach insn next)) := by
      intro hkind next hnext
      obtain ⟨hhead, hfollows⟩ := Option.filter_eq_some_iff.mp hnext
      refine h.insert ?_
      intro a ha
      rcases Site.mem_reach_targets ha with ha | rfl
      · exact h.site insn.virtIp a ha
      · refine ⟨before.length, insn, next, ?_, ?_, hkind, hfollows, rfl, rfl⟩
        · rw [hsplit]
          simp
        · rw [hsplit', List.getElem?_append_right (by simp)]
          simpa [List.head?_eq_getElem?] using hhead
    rw [collectSites]
    refine ih (before ++ [insn]) hsplit' ?_
    cases hkind : insn.kind with
    | conditional => exact hcount
    | indirectCall | indirectJump =>
      cases hnext : rest.head?.filter (follows insn) with
      | none => exact h
      | some next => exact hreach (by simp [hkind]) next hnext
    | sequential | jump | call | ret | other => exact h

/-- The targets of a branch site are where the next instruction of the list
was, each time it followed. -/
theorem aggregateBranches_targets {insns : List InstructionRecord} {b : BranchSite}
    (hb : b ∈ aggregateBranches insns) {t : String} (ht : t ∈ b.indirectTargets) :
    ∃ j ip a, Reached insns ip a j ∧ b.site = hexAddress ip ∧ t = hexAddress a := by
  unfold aggregateBranches at hb
  obtain ⟨e, he, rfl⟩ := List.mem_map.mp (List.mem_mergeSort.mp hb)
  have hentry : (collectSites ∅ insns).get e.1 = some e.2 :=
    FastMap.get_eq_some_iff.mpr (List.mem_mergeSort.mp he)
  obtain ⟨a, ha, rfl⟩ := List.mem_map.mp ht
  have hempty : Grounded insns ∅ := by
    intro ip e he
    cases he
  obtain ⟨j, hj⟩ := collectSites_grounded [] rfl hempty e.1 e.2 hentry a ha
  exact ⟨j, e.1, a, hj, rfl, rfl⟩

/-! ## The theorem -/

/-- No record of the stream starts a thread with a counter that has moved. -/
def CleanSequences (i₀ : InsnReconstructor) (recs : List RawRecord) : Prop :=
  ∀ pre rec post, recs = pre ++ rec :: post → ∀ r, i₀.pushAll pre = .ok r → CleanSequence r rec

/-- The sequence numbers of a finished pass over `recs` tell which of its
instructions were executed one right after the other. -/
structure Adjacency (i₀ : InsnReconstructor) (recs : List RawRecord)
    (insns : List InstructionRecord) : Prop where
  increasing : ∀ (j j' : Nat) (i i' : InstructionRecord), j < j' → insns[j]? = some i →
    insns[j']? = some i' → i'.thread = i.thread → i.sequence < i'.sequence
  consecutive : ∀ (j j' : Nat) (i i' : InstructionRecord), j < j' → insns[j]? = some i →
    insns[j']? = some i' → i'.thread = i.thread →
      ∃ k mid, Apart i₀ recs j j' k mid ∧ (i'.sequence = i.sequence + 1 ↔ Undisturbed k mid)
  targets : ∀ b ∈ aggregateBranches insns, ∀ t ∈ b.indirectTargets,
    ∃ (j : Nat) (insn next : InstructionRecord) (k : Key) (mid : List RawRecord),
      insns[j]? = some insn ∧ insns[j + 1]? = some next ∧
      (insn.kind = .indirectCall ∨ insn.kind = .indirectJump) ∧
      b.site = hexAddress insn.virtIp ∧ t = hexAddress next.virtIp ∧
      Apart i₀ recs j (j + 1) k mid ∧ Undisturbed k mid

theorem Built.numbered (h : InsnReconstructor.Built i₀) : Numbered i₀ [] i₀ := by
  have hnone : i₀.numbers = [] := by rw [numbers, h.idle.1, List.map_nil]
  refine ⟨?_, ?_⟩
  · intro j t n hj
    rw [hnone] at hj
    cases hj
  · intro j j' t n n' _ hj
    rw [hnone] at hj
    cases hj

theorem OneProcess.mono (h : OneProcess i₀ recs) (hpre : pre <+: recs) : OneProcess i₀ pre :=
  fun xs s j xs' s' j' hxs hxs' => h xs s j xs' s' j' (hxs.trans hpre) (hxs'.trans hpre)

/-- The instructions kept after every prefix of a clean stream are numbered. -/
theorem pushAll_numbered (h₀ : InsnReconstructor.Built i₀) (hclean : CleanSequences i₀ recs)
    (howner : OneProcess i₀ recs) :
    ∀ pre, pre <+: recs → ∀ r, i₀.pushAll pre = .ok r → Numbered i₀ pre r := by
  refine foldlM_trace (P := fun pre r => Numbered i₀ pre r) h₀.numbered ?_
  intro pre rec post r r' hsplit hrun hN hpush
  have hprefix : pre ++ [rec] <+: recs := ⟨post, by rw [hsplit]; simp⟩
  exact push_numbered hrun hpush (hclean pre rec post hsplit r hrun) (howner.mono hprefix) hN

/-- In a clean stream whose processes share no tid, the numbers of each thread
increase, they are consecutive exactly where nothing disturbed the thread in
between, and the target of an indirect branch is where the instruction executed
right after it was. -/
theorem sequences_adjacent (h₀ : InsnReconstructor.Built i₀) (hclean : CleanSequences i₀ recs)
    (howner : OneProcess i₀ recs) (hr : i₀.pushAll recs = .ok r) {ir : InstructionIr}
    (hfin : r.finish = .ok ir) : Adjacency i₀ recs ir.instructions := by
  have hN := pushAll_numbered h₀ hclean howner recs List.prefix_rfl r hr
  have hnumbers : ir.instructions.map (fun i => (i.thread, i.sequence)) = r.numbers := by
    unfold finish at hfin
    obtain rfl := Except.ok.inj hfin
    exact (resolveOutcomes_same r.pending.keys none).2
  have hat : ∀ (j : Nat) (i : InstructionRecord), ir.instructions[j]? = some i →
      r.numbers[j]? = some (i.thread, i.sequence) := by
    intro j i hi
    rw [← hnumbers, List.getElem?_map, hi]
    rfl
  have hpair : ∀ (j j' : Nat) (i i' : InstructionRecord), j < j' → ir.instructions[j]? = some i →
      ir.instructions[j']? = some i' → i'.thread = i.thread →
        ∃ k mid, Apart i₀ recs j j' k mid ∧ i'.sequence = i.sequence + marks k mid + 1 := by
    intro j j' i i' hlt hi hi' hthread
    have hj' := hat j' i' hi'
    rw [hthread] at hj'
    exact hN.pairs j j' i.thread i.sequence i'.sequence hlt (hat j i hi) hj'
  -- the marks in between are what the numbers are apart
  have hconsecutive : ∀ (j j' : Nat) (i i' : InstructionRecord), j < j' → ir.instructions[j]? = some i →
      ir.instructions[j']? = some i' → i'.thread = i.thread →
        ∃ k mid, Apart i₀ recs j j' k mid ∧
          (i'.sequence = i.sequence + 1 ↔ Undisturbed k mid) := by
    intro j j' i i' hlt hi hi' hthread
    obtain ⟨k, mid, hapart, hseq⟩ := hpair j j' i i' hlt hi hi' hthread
    refine ⟨k, mid, hapart, ?_⟩
    rw [undisturbed_iff, hseq]
    omega
  refine ⟨?_, hconsecutive, ?_⟩
  · intro j j' i i' hlt hi hi' hthread
    obtain ⟨k, mid, -, hseq⟩ := hpair j j' i i' hlt hi hi' hthread
    omega
  · intro b hb t ht
    -- a target was counted at two rows whose numbers follow each other
    obtain ⟨j, ip, a, ⟨insn, next, hinsn, hnext, hkind, hfollows, rfl, rfl⟩, hsite, htarget⟩ :=
      aggregateBranches_targets hb ht
    obtain ⟨hthread, hseq⟩ := of_decide_eq_true hfollows
    obtain ⟨k, mid, hapart, hadjacent⟩ :=
      hconsecutive j (j + 1) insn next (Nat.lt_succ_self j) hinsn hnext hthread
    exact ⟨j, insn, next, k, mid, hinsn, hnext, hkind, hsite, htarget, hapart,
      hadjacent.mp hseq⟩

/-! ## Small streams -/

/-- Two instructions of a task whose exit came before them. -/
def freshStart : List RawRecord := [exitAt 1 1, insnAt 0x10 2 [0x90], insnAt 0x11 3 [0x90]]

theorem freshStart_clean : CleanSequences jccInsns freshStart := by
  intro pre rec post hsplit r hr
  rcases pre with - | ⟨rec₀, - | ⟨rec₁, - | ⟨rec₂, pre⟩⟩⟩
  · obtain ⟨rfl, -⟩ := List.cons.inj hsplit
    trivial
  · obtain ⟨h0, hsplit⟩ := List.cons.inj hsplit
    obtain ⟨h1, -⟩ := List.cons.inj hsplit
    subst h1
    intro _ _ _ _
    rw [← h0] at hr
    cases hr
    rfl
  · obtain ⟨h0, hsplit⟩ := List.cons.inj hsplit
    obtain ⟨h1, hsplit⟩ := List.cons.inj hsplit
    obtain ⟨h2, -⟩ := List.cons.inj hsplit
    subst h2
    intro _ _ _ hexited
    have hseen : (jccInsns.pushAll [exitAt 1 1, insnAt 0x10 2 [0x90]]).toOption.any
        (fun r => !(r.gate (7, 1)).exited) = true := by decide +kernel
    rw [← h0, ← h1] at hr
    rw [hr] at hseen
    have hseen' : (!(r.gate (7, 1)).exited) = true := hseen
    have hexited' : (r.gate (7, 1)).exited = true := hexited
    rw [hexited'] at hseen'
    cases hseen'
  · have hshort := congrArg List.length hsplit
    simp [freshStart] at hshort

/-- `sequences_adjacent` on two instructions in a row. -/
theorem sequences_adjacent_freshStart :
    ∃ r ir, jccInsns.pushAll freshStart = .ok r ∧ r.finish = .ok ir ∧
      Adjacency jccInsns freshStart ir.instructions := by
  obtain ⟨ir, hir, -⟩ := ok_of_any (x := jccInsns.pushAll freshStart >>= finish)
    (p := fun _ => true) (by decide +kernel)
  obtain ⟨r, hr, hfin⟩ := bind_ok.mp hir
  have hpid : ∀ xs (s : Sample), xs ++ [.sample s] <+: freshStart → s.pid = 7 := by
    intro xs s hxs
    have hmem : RawRecord.sample s ∈ freshStart := hxs.subset (by simp)
    simp only [freshStart, List.mem_cons, List.not_mem_nil, or_false] at hmem
    rcases hmem with heq | heq | heq
    · cases heq
    · obtain rfl := RawRecord.sample.inj heq
      rfl
    · obtain rfl := RawRecord.sample.inj heq
      rfl
  refine ⟨r, ir, hr, hfin, sequences_adjacent (.new ..) freshStart_clean ?_ hr hfin⟩
  intro xs s j xs' s' j' hxs hxs' _ _ _
  rw [hpid xs s hxs, hpid xs' s' hxs']

/-- A tid whose first task exits after one instruction. -/
def recycled : List RawRecord :=
  [insnAt 0x10 1 [0x90], exitAt 1 2, insnAt 0x11 3 [0x90], insnAt 0x12 4 [0x90]]

/-- Both instructions of the second task are number 2. -/
theorem sequences_recycled :
    ¬ ∀ (i₀ r : InsnReconstructor) (recs : List RawRecord) (ir : InstructionIr),
      InsnReconstructor.Built i₀ → i₀.pushAll recs = .ok r → r.finish = .ok ir →
        Adjacency i₀ recs ir.instructions := by
  intro h
  obtain ⟨ir, hir, hnumbers⟩ := ok_of_any (x := jccInsns.pushAll recycled >>= finish)
    (p := fun ir => ir.instructions.map (fun i => (i.thread, i.sequence)) =
      [(.task 1 0, 1), (.task 1 1, 2), (.task 1 1, 2)]) (by decide +kernel)
  obtain ⟨r, hr, hfin⟩ := bind_ok.mp hir
  have hall := of_decide_eq_true hnumbers
  have hat : ∀ (j : Nat) t n,
      (ir.instructions.map fun i => (i.thread, i.sequence))[j]? = some (t, n) →
        ∃ i : InstructionRecord, ir.instructions[j]? = some i ∧ i.thread = t ∧ i.sequence = n := by
    intro j t n hj
    rw [List.getElem?_map] at hj
    obtain ⟨i, hi, heq⟩ := Option.map_eq_some_iff.mp hj
    exact ⟨i, hi, Prod.mk.inj heq⟩
  obtain ⟨i, hi, hthread, hseq⟩ := hat 1 (.task 1 1) 2 (by rw [hall]; rfl)
  obtain ⟨i', hi', hthread', hseq'⟩ := hat 2 (.task 1 1) 2 (by rw [hall]; rfl)
  have hlt := (h jccInsns r recycled ir (.new ..) hr hfin).increasing 1 2 i i' (by decide) hi hi'
    (hthread'.trans hthread.symm)
  rw [hseq, hseq'] at hlt
  exact Nat.lt_irrefl 2 hlt

end InsnReconstructor

end TraceMcp.Decode
