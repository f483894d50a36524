import TraceMcp.Decode.Instructions
import TraceMcp.Decode.Lineage
import TraceMcp.Decode.Postings

/-!
# The lives of a task

Which thread a sample of task `k` belongs to depends on few records only: the
task's samples, the decoder errors naming it, and its exits. `life` is that
part of a stream. Both reconstructors give threads out as a small machine over
it: `Reconstructor` starts a thread at a sample or an error and counts the
exits that find one (`Desk`), `InsnReconstructor` remembers exits and counts
the samples that follow one (`Gate`). `pushAll_desk` and `pushAll_gate` say so
of whole runs.
-/

namespace TraceMcp.Decode

open TraceMcp.Lib Ledger

open Reconstructor (foreignPid)

/-- What a record can mean to the thread table. -/
inductive Sign
  | sample
  | error
  | exit
  deriving DecidableEq

/-- What a record means for task `k`. -/
def signOf (k : Key) : RawRecord → Option Sign
  | .sample s => if (s.pid, s.tid) = k then some .sample else none
  | .decoderError e => if namedKey (.decoderError e) = some k then some .error else none
  | .task t => if t.kind = .exit ∧ (t.pid, t.tid) = k then some .exit else none
  | _ => none

/-- The same, once the filter has seen the record: it can withhold samples and
errors, and withholds exits only of processes that have no thread. -/
def signThrough (f : Option PidTracker) (k : Key) (rec : RawRecord) : Option Sign :=
  (signOf k rec).filter fun sign => sign = .exit || !f.any fun f => (foreignPid f rec).isSome

/-- The life of task `k` in a stream. -/
def life (f : Option PidTracker) (k : Key) : List RawRecord → List Sign
  | [] => []
  | rec :: recs =>
    let f := f.map (·.observe rec)
    (signThrough f k rec).toList ++ life f k recs

/-- The filter once it has seen a stream. -/
def filterAfter (f : Option PidTracker) (recs : List RawRecord) : Option PidTracker :=
  recs.foldl (fun f rec => f.map (·.observe rec)) f

theorem filterAfter_append (f : Option PidTracker) (xs ys : List RawRecord) :
    filterAfter f (xs ++ ys) = filterAfter (filterAfter f xs) ys :=
  List.foldl_append

theorem life_append (f : Option PidTracker) (k : Key) (xs ys : List RawRecord) :
    life f k (xs ++ ys) = life f k xs ++ life (filterAfter f xs) k ys := by
  induction xs generalizing f with
  | nil => rfl
  | cons rec xs ih =>
    simp only [List.cons_append, life, ih, List.append_assoc]
    rfl

/-! ## The two machines -/

/-- The thread table's view of a task: has it a thread, and which generation
is it in. -/
structure Desk where
  live : Bool
  gen : Nat
  deriving DecidableEq

/-- An exit counts when it finds a thread. -/
def Desk.step (d : Desk) : Sign → Desk
  | .sample | .error => { d with live := true }
  | .exit => ⟨false, d.gen + d.live.toNat⟩

theorem Desk.step_exit_of_idle {d : Desk} (h : d.live = false) : d.step .exit = d := by
  obtain ⟨live, gen⟩ := d
  subst h
  rfl

/-- The instruction pass's view of a task: is there an exit it has not used
up, and which generation is it in. -/
structure Gate where
  exited : Bool
  gen : Nat
  deriving DecidableEq

/-- A sample uses up the exits before it, all at once. -/
def Gate.step (g : Gate) : Sign → Gate
  | .sample => ⟨false, g.gen + g.exited.toNat⟩
  | .error => g
  | .exit => { g with exited := true }

/-! ## The thread table -/

namespace Ledger

/-- What the ledger says of `k`. -/
def desk (L : Ledger) (k : Key) : Desk := ⟨(L.lanes k).isSome, L.gen k⟩

variable {L L' : Ledger} {k k' : Key} {l : Lane}

theorem Posts.desk (h : Posts k' L L') (k : Key) : L'.desk k = L.desk k := by
  obtain ⟨l, l', rows, gaps, opened, hp⟩ := h
  unfold Ledger.desk
  rw [hp.gen, hp.lanes]
  by_cases hk : k = k'
  · subst hk
    rw [Function.update_self, hp.lane]
    rfl
  · rw [Function.update_of_ne hk]

theorem Moves.desk {now : Option Nat} (h : Moves k' now L L') (k : Key) : L'.desk k = L.desk k :=
  reflTransGen_invariant (P := fun M => M.desk k = L.desk k)
    (fun _ _ hm hP => (hm.posts.desk k).trans hP) h rfl

theorem ensure_desk (L : Ledger) (k' k : Key) :
    (L.ensure k').desk k = if k' = k then (L.desk k).step .sample else L.desk k := by
  unfold ensure Ledger.desk
  by_cases hk : k' = k
  · subst hk
    rw [if_pos rfl]
    cases h : L.lanes k' with
    | none =>
      show Desk.mk ((L.setLane k' (L.fresh k')).lanes k').isSome (L.gen k') = _
      rw [setLane_lanes_self]
      rfl
    | some l => simp [h, Desk.step]
  · rw [if_neg hk]
    cases h : L.lanes k' with
    | none =>
      show Desk.mk ((L.setLane k' (L.fresh k')).lanes k).isSome (L.gen k) = _
      rw [setLane_lanes_ne _ _ _ (Ne.symm hk)]
    | some l => rfl

theorem checkRegression_desk (h : L.lanes k' = some l) (now : Option Nat) (k : Key) :
    (L.checkRegression k' l now).desk k = L.desk k := by
  unfold checkRegression
  split
  · exact (cut_posts h ..).desk k
  · rfl

theorem retire_desk (h : L.lanes k' = some l) (endAbs : Option Nat) (k : Key) :
    (L.retire k' l endAbs).desk k = if k' = k then (L.desk k).step .exit else L.desk k := by
  unfold retire Ledger.desk
  by_cases hk : k' = k
  · subst hk
    simp [h, Desk.step]
  · simp [hk, Function.update_of_ne (Ne.symm hk)]

/-- A record moves the desk of the task it concerns, and no other. -/
theorem Action.desk {rec : RawRecord} (h : Action rec L L') (k : Key) :
    L'.desk k = (signOf k rec).elim (L.desk k) (L.desk k).step := by
  cases h with
  | @sample _ _ s l₀ l h₀ hl hmoves =>
    have htime := setLane_posts hl { l with lastAbs := s.timeNs.or l.lastAbs } rfl rfl rfl rfl
    rw [hmoves.desk, htime.desk, checkRegression_desk h₀, ensure_desk, signOf]
    split <;> rfl
  | @error _ e pid tid l hpid htid hl =>
    rw [(cut_posts hl ..).desk, ensure_desk, signOf, namedKey, hpid, htid]
    by_cases hk : (pid, tid) = k
    · simp [hk, Desk.step]
    · simp [hk]
  | @strayError _ e h =>
    have hnone : namedKey (.decoderError e) = none := by
      rcases h with h | h <;> simp [namedKey, h]
    rw [signOf, hnone]
    rfl
  | lost => rfl
  | @exit _ t l hkind hl =>
    rw [retire_desk hl, signOf]
    by_cases hk : (t.pid, t.tid) = k
    · simp [hk, hkind]
    · simp [hk]
  | @silent _ rec h =>
    cases rec with
    | task t =>
      rw [signOf]
      split
      next hexit =>
        -- the exit of a task without a thread
        have hlane : L.lanes k = none := by
          rcases h with h | h
          · exact absurd hexit.1 h
          · exact hexit.2 ▸ h
        simp [Ledger.desk, Desk.step, hlane]
      next => rfl
    | mmap | switch => rfl
    | sample | lost | decoderError => exact h.elim

end Ledger

/-! ## Runs of the thread table -/

theorem PidTracker.pids_subset_observe (f : PidTracker) (rec : RawRecord) :
    f.pids ⊆ (f.observe rec).pids := by
  intro p hp
  cases rec with
  | task t => exact PidTracker.mem_pids_observeTask.mpr (.inl hp)
  | _ => exact hp

theorem PidTracker.mem_pids_of_isLiveThread {f : PidTracker} {pid tid : Nat}
    (h : f.isLiveThread pid tid = true) : pid ∈ f.pids := by
  simp only [isLiveThread, isLive, Bool.and_eq_true, decide_eq_true_eq] at h
  exact h.1.1

/-- What the filter lets through of a task belongs to the tree. -/
theorem mem_pids_of_kept {f : PidTracker} {rec : RawRecord} {k : Key}
    (hkept : foreignPid f rec = none) (hnamed : namedKey rec = some k) : k.1 ∈ f.pids := by
  cases rec with
  | sample s =>
    cases hnamed
    simp only [foreignPid] at hkept
    split at hkept
    next hlive => exact PidTracker.mem_pids_of_isLiveThread hlive
    next => cases hkept
  | decoderError e =>
    obtain ⟨pid, hpid, hmap⟩ := Option.bind_eq_some_iff.mp hnamed
    obtain ⟨tid, htid, rfl⟩ := Option.map_eq_some_iff.mp hmap
    simp only [foreignPid, hpid, Option.filter_eq_none_iff, Option.some.injEq] at hkept
    have hlive : f.isLiveThread pid tid = true := by
      simpa [htid] using hkept pid rfl
    exact PidTracker.mem_pids_of_isLiveThread hlive
  | _ => cases hnamed

theorem signOf_live {k : Key} {rec : RawRecord} {sign : Sign} (h : signOf k rec = some sign)
    (hne : sign ≠ .exit) : namedKey rec = some k := by
  unfold signOf at h
  split at h
  · split at h
    next heq => exact congrArg some heq
    next => cases h
  · split at h
    next heq => exact heq
    next => cases h
  · split at h
    · cases h
      exact absurd rfl hne
    · cases h
  · cases h

theorem signOf_exit {k : Key} {rec : RawRecord} (h : signOf k rec = some .exit) :
    ∃ t, rec = .task t ∧ t.kind = .exit ∧ (t.pid, t.tid) = k := by
  unfold signOf at h
  split at h
  · split at h <;> cases h
  · split at h <;> cases h
  · split at h
    next hexit => exact ⟨_, rfl, hexit.1, hexit.2⟩
    next => cases h
  · cases h

namespace Reconstructor

variable {r r' : Reconstructor} {k : Key} {rec : RawRecord}

/-- A task with a thread belongs to the process tree the filter follows. -/
def Followed (r : Reconstructor) (k : Key) : Prop :=
  ((ledger r).desk k).live = true → ∀ f, r.pidFilter = some f → k.1 ∈ f.pids

theorem drops_iff (h : r.push rec = .ok r') :
    r.drops rec = r'.pidFilter.any fun f => (foreignPid f rec).isSome := by
  rw [push_pidFilter h, drops, Option.any_map]

/-- The tree only grows, so a followed task stays followed until it lives anew. -/
theorem Followed.of_desk (hF : r.Followed k) (hfilter : r'.pidFilter = r.pidFilter.map (·.observe rec))
    (hdesk : ((ledger r').desk k).live = true → ((ledger r).desk k).live = true) :
    r'.Followed k := by
  intro hlive f hf
  rw [hfilter] at hf
  obtain ⟨f₀, hf₀, rfl⟩ := Option.map_eq_some_iff.mp hf
  exact PidTracker.pids_subset_observe f₀ rec (hF (hdesk hlive) f₀ hf₀)

/-- One record moves a task's desk by the sign that comes through. -/
theorem push_desk (h : r.push rec = .ok r') (hF : r.Followed k) :
    (ledger r').desk k = (signThrough r'.pidFilter k rec).elim ((ledger r).desk k)
        ((ledger r).desk k).step ∧ r'.Followed k := by
  have hact := push_ledger h
  have hfilter := push_pidFilter h
  have hdrops := drops_iff h
  cases hdrop : r.drops rec with
  | false =>
    rw [hdrop] at hact hdrops
    have hthrough : signThrough r'.pidFilter k rec = signOf k rec := by
      rw [signThrough, ← hdrops]
      cases signOf k rec <;> simp
    have hdesk := hact.desk k
    refine ⟨hthrough ▸ hdesk, ?_⟩
    cases hsign : signOf k rec with
    | none =>
      rw [hsign, Option.elim_none] at hdesk
      exact hF.of_desk hfilter fun hlive => hdesk ▸ hlive
    | some sign =>
      rw [hsign] at hdesk
      intro hlive f hf
      by_cases hexit : sign = .exit
      · subst hexit
        rw [hdesk] at hlive
        cases hlive
      · have hkept : foreignPid f rec = none := by
          rw [hf] at hdrops
          simpa using hdrops.symm
        exact mem_pids_of_kept hkept (signOf_live hsign hexit)
  | true =>
    rw [hdrop, if_pos rfl] at hact
    rw [hdrop] at hdrops
    refine ⟨?_, hF.of_desk hfilter fun hlive => hact ▸ hlive⟩
    rw [hact]
    cases hsign : signOf k rec with
    | none => simp [signThrough, hsign]
    | some sign =>
      by_cases hexit : sign = .exit
      · -- the exit of a process outside the tree, which has no thread
        subst hexit
        obtain ⟨t, rfl, hkind, rfl⟩ := signOf_exit hsign
        have hidle : ((ledger r).desk (t.pid, t.tid)).live = false := by
          rw [← Bool.not_eq_true]
          intro hlive
          rw [hfilter] at hdrops
          cases hf : r.pidFilter with
          | none => simp [hf] at hdrops
          | some f =>
            have hmem := PidTracker.pids_subset_observe f (.task t) (hF hlive f hf)
            simp [hf, foreignPid, PidTracker.contains, hmem] at hdrops
        simp [signThrough, hsign, Option.filter_some, Desk.step_exit_of_idle hidle]
      · simp [signThrough, hsign, Option.filter_some, hexit, ← hdrops]

theorem pushAll_filterAfter {recs : List RawRecord} (h : r.pushAll recs = .ok r') :
    r'.pidFilter = filterAfter r.pidFilter recs := by
  induction recs generalizing r with
  | nil =>
    cases h
    rfl
  | cons rec recs ih =>
    obtain ⟨r₁, h₁, h⟩ := bind_ok.mp h
    rw [ih h, push_pidFilter h₁]
    rfl

/-- The records of a stream that the filter lets through. -/
def received (f : Option PidTracker) : List RawRecord → List RawRecord
  | [] => []
  | rec :: recs =>
    let f := f.map (·.observe rec)
    (if f.any fun f => (foreignPid f rec).isSome then [] else [rec]) ++ received f recs

theorem received_append (f : Option PidTracker) (xs ys : List RawRecord) :
    received f (xs ++ ys) = received f xs ++ received (filterAfter f xs) ys := by
  induction xs generalizing f with
  | nil => rfl
  | cons rec xs ih =>
    simp only [List.cons_append, received, ih, List.append_assoc]
    rfl

/-- Where a run has come to, the filter lets a record through unless the
reconstructor drops it. -/
theorem received_concat {r₀ : Reconstructor} {pre : List RawRecord} (h : r₀.pushAll pre = .ok r)
    (rec : RawRecord) : received r₀.pidFilter (pre ++ [rec]) =
      received r₀.pidFilter pre ++ if r.drops rec then [] else [rec] := by
  rw [received_append, ← pushAll_filterAfter h]
  simp only [received, List.append_nil, drops, Option.any_map]
  rfl

/-- A property of the records received so far and the state reached with them,
true at the start and kept by every record received and every record dropped,
is true of every run. -/
theorem received_trace {P : List RawRecord → Reconstructor → Prop} {r₀ : Reconstructor}
    {recs : List RawRecord} (h0 : P [] r₀)
    (hkept : ∀ pre rec post m m', recs = pre ++ rec :: post → r₀.pushAll pre = .ok m →
      m.drops rec = false → P (received r₀.pidFilter pre) m → m.push rec = .ok m' →
        P (received r₀.pidFilter pre ++ [rec]) m')
    (hdropped : ∀ kept rec m m', m.drops rec = true → P kept m → m.push rec = .ok m' → P kept m')
    (h : r₀.pushAll recs = .ok r) : P (received r₀.pidFilter recs) r := by
  refine foldlM_trace (P := fun pre m => P (received r₀.pidFilter pre) m) h0 ?_ recs
    List.prefix_rfl r h
  intro pre rec post m m' hsplit hpre hP hpush
  rw [received_concat hpre]
  cases hdrop : m.drops rec with
  | true =>
    rw [if_pos rfl, List.append_nil]
    exact hdropped _ rec m m' hdrop hP hpush
  | false =>
    rw [if_neg Bool.false_ne_true]
    exact hkept pre rec post m m' hsplit hpre hdrop hP hpush

/-- A run moves a task's desk through the task's life. -/
theorem pushAll_desk {recs : List RawRecord} (h : r.pushAll recs = .ok r') (hF : r.Followed k) :
    (ledger r').desk k = (life r.pidFilter k recs).foldl Desk.step ((ledger r).desk k) := by
  induction recs generalizing r with
  | nil =>
    cases h
    rfl
  | cons rec recs ih =>
    obtain ⟨r₁, h₁, h⟩ := bind_ok.mp h
    obtain ⟨hdesk, hF₁⟩ := push_desk h₁ hF
    rw [ih h hF₁, hdesk, life, List.foldl_append, push_pidFilter h₁]
    cases signThrough (r.pidFilter.map (·.observe rec)) k rec <;> rfl

end Reconstructor

/-! ## Runs of the instruction pass -/

/-- The same record, a sample standing for an instruction sample. -/
def asInstruction : RawRecord → RawRecord
  | .sample s => .sample { s with event := .instructions }
  | rec => rec

namespace InsnReconstructor

variable {r r' : InsnReconstructor} {k : Key} {rec : RawRecord}

/-- What the thread identities of the pass say of `k`. -/
def gate (r : InsnReconstructor) (k : Key) : Gate :=
  ⟨decide (k ∈ r.threadIds.exited), r.threadIds.gen k⟩

theorem resolveOutcome_frame (k : Key) (ip : Option Nat) :
    (r.resolveOutcome k ip).threadIds = r.threadIds ∧
      (r.resolveOutcome k ip).pidFilter = r.pidFilter := by
  unfold resolveOutcome
  split
  · exact ⟨rfl, rfl⟩
  · exact ⟨rfl, rfl⟩

theorem resolveOutcomes_frame (ks : List Key) (ip : Option Nat) :
    (ks.foldl (fun r k => r.resolveOutcome k ip) r).threadIds = r.threadIds ∧
      (ks.foldl (fun r k => r.resolveOutcome k ip) r).pidFilter = r.pidFilter := by
  induction ks generalizing r with
  | nil => exact ⟨rfl, rfl⟩
  | cons k ks ih =>
    obtain ⟨hids, hfilter⟩ := resolveOutcome_frame (r := r) k ip
    rw [List.foldl_cons, ih.1, ih.2]
    exact ⟨hids, hfilter⟩

theorem pushDecoderError_frame (e : DecoderErrorEvent) :
    (r.pushDecoderError e).threadIds = r.threadIds ∧
      (r.pushDecoderError e).pidFilter = r.pidFilter := by
  unfold pushDecoderError
  dsimp only
  split
  · exact resolveOutcome_frame (r := { r with decoderErrors := r.decoderErrors + 1 }) ..
  · exact resolveOutcomes_frame (r := { r with decoderErrors := r.decoderErrors + 1 }) ..

theorem insnBytes_frame (s : Sample) (ip : Nat) :
    (r.insnBytes s ip).1.threadIds = r.threadIds ∧
      (r.insnBytes s ip).1.pidFilter = r.pidFilter := by
  unfold insnBytes
  split
  · exact ⟨rfl, rfl⟩
  · split
    · split <;> exact ⟨rfl, rfl⟩
    · exact ⟨rfl, rfl⟩

theorem symbolize_frame (pid ip : Nat) :
    (r.symbolize pid ip).1.threadIds = r.threadIds ∧
      (r.symbolize pid ip).1.pidFilter = r.pidFilter := by
  unfold symbolize
  split <;> exact ⟨rfl, rfl⟩

theorem retain_frame {s : Sample} {tid : ThreadId} {seq ip : Nat}
    (h : r.retain s tid seq ip = .ok r') :
    r'.threadIds = r.threadIds ∧ r'.pidFilter = r.pidFilter := by
  unfold retain at h
  dsimp only at h
  obtain ⟨hids, hfilter⟩ := insnBytes_frame (r := r) s ip
  generalize r.insnBytes s ip = b at h hids hfilter
  obtain ⟨hids', hfilter'⟩ := symbolize_frame (r := b.1) s.pid ip
  generalize b.1.symbolize s.pid ip = c at h hids' hfilter'
  split at h
  · cases h
  · cases h
    exact ⟨hids'.trans hids, hfilter'.trans hfilter⟩

theorem gate_takeExited (ids : ThreadIds) (k k' : Key) :
    (⟨decide (k ∈ (ids.takeExited k').1.exited), (ids.takeExited k').1.gen k⟩ : Gate) =
      if k' = k then Gate.step ⟨decide (k ∈ ids.exited), ids.gen k⟩ .sample
      else ⟨decide (k ∈ ids.exited), ids.gen k⟩ := by
  rw [ThreadIds.gen_takeExited]
  by_cases hexited : k' ∈ ids.exited
  · simp only [ThreadIds.takeExited, hexited, if_true]
    by_cases hk : k' = k
    · subst hk
      simp [Gate.step, hexited]
    · simp [hk, Ne.symm hk]
  · simp only [ThreadIds.takeExited, hexited, if_false]
    by_cases hk : k' = k
    · subst hk
      simp [Gate.step, hexited]
    · simp [hk, Ne.symm hk]

/-- An instruction sample is assigned to the generation its gate moves to. -/
theorem pushSample_gate {s : Sample} (h : r.pushSample s = .ok r') (k : Key) :
    r'.gate k = (if (s.pid, s.tid) = k then (r.gate k).step .sample else r.gate k) ∧
      r'.pidFilter = r.pidFilter := by
  unfold pushSample at h
  dsimp only at h
  generalize hcount : ({ r with
    samplesSeen := r.samplesSeen + 1
    seqByThread := r.seqByThread.insert (s.pid, s.tid)
      ((r.seqByThread.get (s.pid, s.tid)).getD 0 + 1) } : InsnReconstructor) = r₁ at h
  obtain ⟨hids, hfilter⟩ := resolveOutcome_frame (r := r₁) (s.pid, s.tid) (some (s.ip.getD 0))
  generalize r₁.resolveOutcome (s.pid, s.tid) (some (s.ip.getD 0)) = r₂ at h hids hfilter
  have hr₁ : r₁.threadIds = r.threadIds ∧ r₁.pidFilter = r.pidFilter := by
    rw [← hcount]
    exact ⟨rfl, rfl⟩
  have henter : r'.threadIds = (r₂.threadIds.takeExited (s.pid, s.tid)).1 ∧
      r'.pidFilter = r₂.pidFilter := by
    split at h
    · exact retain_frame h
    · cases h
      exact ⟨rfl, rfl⟩
  constructor
  · rw [gate, henter.1, hids, hr₁.1]
    exact gate_takeExited ..
  · rw [henter.2, hfilter, hr₁.2]

theorem foreignPid_asInstruction (f : PidTracker) (s : Sample) :
    filtered f (asInstruction (.sample s)) = (foreignPid f (.sample s)).isSome := by
  simp only [filtered, asInstruction, foreignPid]
  cases f.isLiveThread s.pid s.tid <;> rfl

/-- What an accepted record does to a gate. -/
theorem accept_gate (h : r.accept (asInstruction rec) = .ok r') (k : Key) :
    r'.gate k = (signOf k rec).elim (r.gate k) (r.gate k).step ∧ r'.pidFilter = r.pidFilter := by
  cases rec with
  | sample s =>
    obtain ⟨hgate, hfilter⟩ := pushSample_gate (s := { s with event := .instructions }) h k
    refine ⟨hgate.trans ?_, hfilter⟩
    rw [signOf]
    split <;> rfl
  | decoderError e =>
    obtain rfl := Except.ok.inj h
    obtain ⟨hids, hfilter⟩ := pushDecoderError_frame (r := r) e
    refine ⟨?_, hfilter⟩
    rw [gate, hids, signOf]
    split <;> rfl
  | task t =>
    obtain rfl := Except.ok.inj h
    refine ⟨?_, rfl⟩
    simp only [gate, signOf, ThreadIds.gen_observe]
    by_cases hexit : t.kind = .exit
    · by_cases hk : (t.pid, t.tid) = k
      · simp [ThreadIds.observe, Gate.step, hexit, hk]
      · simp [ThreadIds.observe, hexit, hk, Ne.symm hk]
    · simp [ThreadIds.observe, hexit]
  | mmap | switch | lost =>
    obtain rfl := Except.ok.inj h
    exact ⟨rfl, rfl⟩

theorem observe_asInstruction (f : PidTracker) (rec : RawRecord) :
    f.observe (asInstruction rec) = f.observe rec := by
  cases rec <;> rfl

/-- A gate does not care whether the filter withholds errors. -/
theorem gate_signThrough {f : Option PidTracker} (g : Gate) (k : Key)
    (hkept : f.any (fun f => filtered f (asInstruction rec)) = false) :
    (signThrough f k rec).elim g g.step = (signOf k rec).elim g g.step := by
  cases hsign : signOf k rec with
  | none => simp [signThrough, hsign]
  | some sign =>
    cases sign with
    | exit => simp [signThrough, hsign, Option.filter_some]
    | error =>
      simp only [signThrough, hsign, Option.filter_some]
      split <;> rfl
    | sample =>
      cases rec with
      | sample s =>
        simp only [foreignPid_asInstruction] at hkept
        simp [signThrough, hsign, Option.filter_some, hkept]
      | task t =>
        rw [signOf] at hsign
        split at hsign <;> cases hsign
      | decoderError e =>
        rw [signOf] at hsign
        split at hsign <;> cases hsign
      | mmap | switch | lost => cases hsign

/-- One record moves a task's gate by the sign that comes through. -/
theorem push_gate (h : r.push (asInstruction rec) = .ok r') (k : Key) :
    r'.gate k = (signThrough r'.pidFilter k rec).elim (r.gate k) (r.gate k).step ∧
      r'.pidFilter = r.pidFilter.map (·.observe rec) := by
  unfold push at h
  cases hf : r.pidFilter with
  | none =>
    rw [hf] at h
    obtain ⟨hgate, hfilter⟩ := accept_gate h k
    rw [hgate, hfilter, hf, gate_signThrough _ k (by rfl)]
    exact ⟨rfl, rfl⟩
  | some f =>
    rw [hf] at h
    dsimp only at h
    rw [observe_asInstruction] at h
    split at h
    next hfiltered =>
      cases h
      refine ⟨?_, rfl⟩
      cases rec with
      | sample s =>
        rw [foreignPid_asInstruction] at hfiltered
        cases hsign : signOf k (.sample s) with
        | none =>
          simp only [signThrough, hsign]
          rfl
        | some sign =>
          have hsample : sign = .sample := by
            rw [signOf] at hsign
            split at hsign <;> simp_all
          simp only [signThrough, hsign, Option.filter_some, hsample, Option.any_some, hfiltered]
          rfl
      | mmap m => rfl
      | task | switch | lost | decoderError => cases hfiltered
    next hfiltered =>
      obtain ⟨hgate, hfilter⟩ := accept_gate h k
      rw [hgate, hfilter, gate_signThrough _ k (by simpa using hfiltered)]
      exact ⟨rfl, rfl⟩

/-- A run moves a task's gate through the task's life. -/
theorem pushAll_gate {recs : List RawRecord} (h : r.pushAll (recs.map asInstruction) = .ok r')
    (k : Key) : r'.gate k = (life r.pidFilter k recs).foldl Gate.step (r.gate k) := by
  induction recs generalizing r with
  | nil =>
    cases h
    rfl
  | cons rec recs ih =>
    obtain ⟨r₁, h₁, h⟩ := bind_ok.mp h
    obtain ⟨hgate, hfilter⟩ := push_gate h₁ k
    rw [ih h, hgate, life, List.foldl_append, hfilter]
    cases signThrough (r.pidFilter.map (·.observe rec)) k rec <;> rfl

end InsnReconstructor

end TraceMcp.Decode
