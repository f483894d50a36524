import TraceMcp.Decode.Identity

/-!
# Branch outcomes

A conditional waits in `pending` for the next instruction of its thread, and
what interrupts the thread should end the wait with `unknown`. `Told` is the
evidence an outcome needs, read off the records behind the conditional, and
`outcomes_settled` finds it for every outcome of a finished pass. Three records
leave a conditional waiting that no longer may: a loss, the exit of its thread,
and a sample without an address, which is taken for one at address 0. The
theorem is about the streams in which they find none (`CleanOutcomes`), and
`outcomes_reusedJcc` shows one that does not.
-/

namespace TraceMcp.Decode

open TraceMcp.Lib Ledger

/-! ## Between two instructions -/

/-- An instruction sample of task `k`, a decoder error that may concern it, or
its exit. -/
def Disturbs (k : Key) : RawRecord → Prop
  | .sample s => s.event.isInstruction = true ∧ (s.pid, s.tid) = k
  | .decoderError e => (namedKey (.decoderError e)).all (· = k) = true
  | .task t => t.kind = .exit ∧ (t.pid, t.tid) = k
  | _ => False

/-- A record after which the next instruction sample says nothing about an
earlier instruction of `k`: losses too. -/
def Concerns (k : Key) : RawRecord → Prop
  | .lost _ => True
  | rec => Disturbs k rec

/-- Nothing here concerns `k`. Its exit is not here either, so it stays the
same thread. -/
def Quiet (k : Key) (recs : List RawRecord) : Prop := ∀ rec ∈ recs, ¬ Concerns k rec

/-- The first thing in `rest` to concern `k` is its instruction sample `s`. -/
def Next (k : Key) (rest : List RawRecord) (s : Sample) : Prop :=
  ∃ mid post, rest = mid ++ .sample s :: post ∧ Quiet k mid ∧
    s.event.isInstruction = true ∧ (s.pid, s.tid) = k

/-- The outcomes of a conditional of `k` that the records `rest` behind it
allow. -/
inductive Told (k : Key) (rest : List RawRecord) (i : InstructionRecord) : BranchOutcome → Prop
  | taken (s : Sample) (a : Nat) (next : Next k rest s) (here : s.ip = some a)
      (target : i.branchTarget = some a) : Told k rest i .taken
  | notTaken (s : Sample) (a : Nat) (next : Next k rest s) (here : s.ip = some a)
      (fallthrough : i.fallthrough = some a) (distinct : i.branchTarget ≠ some a) :
      Told k rest i .notTaken
  | unknown : Told k rest i .unknown

variable {k : Key} {rec : RawRecord} {recs rest : List RawRecord}

theorem Next.append {s : Sample} (h : Next k rest s) (zs : List RawRecord) :
    Next k (rest ++ zs) s := by
  obtain ⟨mid, post, rfl, hquiet, hhere⟩ := h
  exact ⟨mid, post ++ zs, by rw [List.append_assoc, List.cons_append], hquiet, hhere⟩

theorem Told.append {i : InstructionRecord} {b : BranchOutcome} (h : Told k rest i b)
    (zs : List RawRecord) : Told k (rest ++ zs) i b := by
  cases h with
  | taken s a next here target => exact .taken s a (next.append zs) here target
  | notTaken s a next here fall distinct => exact .notTaken s a (next.append zs) here fall distinct
  | unknown => exact .unknown

/-- Only the two addresses of an instruction matter. -/
theorem Told.congr {i i' : InstructionRecord} {b : BranchOutcome} (h : Told k rest i b)
    (ht : i'.branchTarget = i.branchTarget) (hf : i'.fallthrough = i.fallthrough) :
    Told k rest i' b := by
  cases h with
  | taken s a next here target => exact .taken s a next here (ht.trans target)
  | notTaken s a next here fall distinct =>
    exact .notTaken s a next here (hf.trans fall) (ht ▸ distinct)
  | unknown => exact .unknown

theorem quiet_nil (k : Key) : Quiet k [] := fun _ hrec => absurd hrec List.not_mem_nil

theorem Quiet.snoc (h : Quiet k recs) (hrec : ¬ Concerns k rec) : Quiet k (recs ++ [rec]) := by
  intro rec' hmem
  rcases List.mem_append.mp hmem with hmem | hmem
  · exact h rec' hmem
  · rw [List.mem_singleton.mp hmem]
    exact hrec

/-! ## Lasting liveness -/

namespace PidTracker

variable {f : PidTracker} {t : TaskEvent}

theorem execDone_subset_observeTask : f.execDone ⊆ (f.observeTask t).execDone := by
  intro p hp
  cases hk : t.kind with
  | comm | exec =>
    rw [observeTask_named (by simp [hk])]
    grind
  | fork =>
    cases hpp : t.ppid with
    | none =>
      rw [observeTask_orphan hk hpp]
      exact hp
    | some pp =>
      rw [observeTask_fork hk hpp]
      grind
  | exit =>
    rw [observeTask_exit hk]
    exact hp

/-- A process past its exec has no new threads excluded. -/
theorem preExecThreads_observeTask {k : Key} (hdone : f.targetComm = none ∨ k.1 ∈ f.execDone)
    (h : k ∈ (f.observeTask t).preExecThreads) : k ∈ f.preExecThreads := by
  cases hk : t.kind with
  | comm | exec =>
    rw [observeTask_named (by simp [hk])] at h
    grind
  | fork =>
    cases hpp : t.ppid with
    | none =>
      rw [observeTask_orphan hk hpp] at h
      exact h
    | some pp =>
      rw [observeTask_fork hk hpp] at h
      grind
  | exit =>
    rw [observeTask_exit hk] at h
    exact Finset.mem_of_mem_erase h

/-- A thread the filter lets through stays let through. -/
theorem isLiveThread_observe {pid tid : Nat} (h : f.isLiveThread pid tid = true)
    (rec : RawRecord) : (f.observe rec).isLiveThread pid tid = true := by
  cases rec with
  | task t =>
    show (f.observeTask t).isLiveThread pid tid = true
    simp only [isLiveThread, isLive, Bool.and_eq_true, Bool.or_eq_true, Option.isNone_iff_eq_none,
      decide_eq_true_eq, Bool.not_eq_true', decide_eq_false_iff_not,
      targetComm_observeTask] at h ⊢
    obtain ⟨⟨hmem, hdone⟩, hpre⟩ := h
    refine ⟨⟨mem_pids_observeTask.mpr (.inl hmem), hdone.imp_right fun hd => ?_⟩, fun hin => ?_⟩
    · exact execDone_subset_observeTask hd
    · exact hpre (preExecThreads_observeTask hdone hin)
  | _ => exact h

end PidTracker

namespace InsnReconstructor

variable {r r' i₀ : InsnReconstructor}

/-! ## What one record does -/

/-- A record is observed by the filter, which may withhold it. -/
theorem push_ok (h : r.push rec = .ok r') :
    let r₁ := { r with pidFilter := r.pidFilter.map (·.observe rec) }
    ((r₁.pidFilter.any fun f => filtered f rec) = true ∧ r' = r₁) ∨
      ((r₁.pidFilter.any fun f => filtered f rec) = false ∧ r₁.accept rec = .ok r') := by
  unfold push at h
  cases hf : r.pidFilter with
  | none =>
    rw [hf] at h
    refine .inr ⟨rfl, ?_⟩
    show ({ r with pidFilter := none } : InsnReconstructor).accept rec = .ok r'
    rw [← hf]
    exact h
  | some f =>
    rw [hf] at h
    dsimp only at h
    split at h
    next hfiltered =>
      cases h
      exact .inl ⟨hfiltered, rfl⟩
    next hfiltered => exact .inr ⟨eq_false_of_ne_true hfiltered, h⟩

theorem resolveOutcome_pending (k k' : Key) (ip : Option Nat) :
    (r.resolveOutcome k ip).pending.get k' = if k' = k then none else r.pending.get k' := by
  unfold resolveOutcome
  split
  next hnone =>
    split
    next heq => rw [heq, hnone]
    next => rfl
  next => exact FastMap.get_erase ..

theorem resolveOutcome_none (h : r.pending.get k = none) (ip : Option Nat) :
    r.resolveOutcome k ip = r := by
  rw [resolveOutcome, h]

theorem resolveOutcome_out {p : PendingCond} (h : r.pending.get k = some p) (ip : Option Nat) :
    (r.resolveOutcome k ip).out =
      r.out.modify p.outIdx fun i => { i with outcome := some (outcomeOf p ip) } := by
  rw [resolveOutcome, h]

theorem resolveOutcome_length (k : Key) (ip : Option Nat) :
    (r.resolveOutcome k ip).out.length = r.out.length := by
  cases h : r.pending.get k with
  | none => rw [resolveOutcome_none h]
  | some p => rw [resolveOutcome_out h, List.length_modify]

/-- What keeping an instruction changes. -/
structure Retained (s : Sample) (tid : ThreadId) (seq ip : Nat) (r r' : InsnReconstructor)
    (i : InstructionRecord) : Prop where
  thread : i.thread = tid
  sequence : i.sequence = seq
  virtIp : i.virtIp = ip
  out : r'.out = r.out ++ [i]
  pending : r'.pending = if i.kind = .conditional then
      r.pending.insert (s.pid, s.tid) ⟨r.out.length, i.branchTarget, i.fallthrough⟩ else r.pending
  seqs : r'.seqByThread = r.seqByThread
  ids : r'.threadIds = r.threadIds
  filter : r'.pidFilter = r.pidFilter

theorem insnBytes_same (s : Sample) (ip : Nat) :
    (r.insnBytes s ip).1 = { r with missing := (r.insnBytes s ip).1.missing } := by
  unfold insnBytes
  split
  · rfl
  · split
    · split <;> rfl
    · rfl

theorem symbolize_same (pid ip : Nat) :
    (r.symbolize pid ip).1 = { r with symCache := (r.symbolize pid ip).1.symCache } := by
  unfold symbolize
  split <;> rfl

theorem retain_ok {s : Sample} {tid : ThreadId} {seq ip : Nat}
    (h : r.retain s tid seq ip = .ok r') : ∃ i, Retained s tid seq ip r r' i := by
  unfold retain at h
  dsimp only at h
  have hbytes := insnBytes_same (r := r) s ip
  generalize r.insnBytes s ip = b at h hbytes
  obtain ⟨b, bytes⟩ := b
  have hsym := symbolize_same (r := b) s.pid ip
  generalize b.symbolize s.pid ip = c at h hsym
  obtain ⟨c, sym⟩ := c
  dsimp only at h hbytes hsym
  rw [hbytes] at hsym
  split at h
  · cases h
  · cases h
    rw [hsym]
    exact ⟨_, rfl, rfl, rfl, rfl, rfl, rfl, rfl, rfl⟩

/-- The state in which an instruction sample of `k` is assigned its thread:
counted, and the conditional before it resolved. -/
def arrived (r : InsnReconstructor) (k : Key) (ip : Nat) : InsnReconstructor :=
  ({ r with
      samplesSeen := r.samplesSeen + 1
      seqByThread := r.seqByThread.insert k ((r.seqByThread.get k).getD 0 + 1) } :
    InsnReconstructor).resolveOutcome k (some ip)

/-- A sample outside the selection only moves its thread on; the others are
kept. -/
theorem pushSample_ok {s : Sample} (h : r.pushSample s = .ok r') :
    let k := (s.pid, s.tid)
    let r₁ := (r.arrived k (s.ip.getD 0)).enterThread k
    (r₁.1.selected s r₁.2 = false ∧ r' = r₁.1) ∨
      (r₁.1.selected s r₁.2 = true ∧
        ∃ i, Retained s r₁.2 ((r.seqByThread.get k).getD 0 + 1) (s.ip.getD 0) r₁.1 r' i) := by
  unfold pushSample at h
  dsimp only at h
  split at h
  next hselected => exact .inr ⟨hselected, retain_ok h⟩
  next hselected =>
    cases h
    exact .inl ⟨eq_false_of_ne_true hselected, rfl⟩

/-! ## Conditionals waiting -/

/-- After `pre`, the sample `s` becomes instruction `j`. -/
def Retains (i₀ : InsnReconstructor) (pre : List RawRecord) (s : Sample) (j : Nat) : Prop :=
  ∃ r r', i₀.pushAll pre = .ok r ∧ r.push (.sample s) = .ok r' ∧ r.out.length = j ∧
    r'.out.length = j + 1

/-- Instruction `j` of a pass over `recs` has an outcome, and the records behind
its sample allow it. -/
def Settled (i₀ : InsnReconstructor) (recs : List RawRecord) (j : Nat) (i : InstructionRecord) :
    Prop :=
  ∃ xs s rest b, recs = xs ++ .sample s :: rest ∧ Retains i₀ xs s j ∧
    i.outcome = some b ∧ Told (s.pid, s.tid) rest i b

/-- `p` waits for the next instruction of `k`. The records since its own satisfy
`Q`. -/
structure Awaits (i₀ : InsnReconstructor) (pre : List RawRecord)
    (Q : Key → List RawRecord → Prop) (out : List InstructionRecord) (k : Key) (p : PendingCond) :
    Prop where
  entry : ∃ i, out[p.outIdx]? = some i ∧ i.branchTarget = p.target ∧ i.fallthrough = p.fallthrough
  made : ∃ xs s mid, pre = xs ++ .sample s :: mid ∧ (s.pid, s.tid) = k ∧
    Retains i₀ xs s p.outIdx ∧ Q k mid

/-- Every conditional kept so far is settled or waits, each for its own task,
which the filter lets through. -/
structure Tracked (i₀ : InsnReconstructor) (pre : List RawRecord)
    (Q : Key → List RawRecord → Prop) (r : InsnReconstructor) : Prop where
  awaits : ∀ k p, r.pending.get k = some p → Awaits i₀ pre Q r.out k p
  distinct : ∀ k k' p p', r.pending.get k = some p → r.pending.get k' = some p' →
    p.outIdx = p'.outIdx → k = k'
  settled : ∀ j i, r.out[j]? = some i → i.kind = .conditional →
    Settled i₀ pre j i ∨ ∃ k p, r.pending.get k = some p ∧ p.outIdx = j
  live : ∀ k p, r.pending.get k = some p → ∀ f, r.pidFilter = some f →
    f.isLiveThread k.1 k.2 = true

variable {pre : List RawRecord} {Q Q' : Key → List RawRecord → Prop}

theorem Settled.append {j : Nat} {i : InstructionRecord} (h : Settled i₀ pre j i)
    (zs : List RawRecord) : Settled i₀ (pre ++ zs) j i := by
  obtain ⟨xs, s, rest, b, rfl, hmade, hb, htold⟩ := h
  exact ⟨xs, s, rest ++ zs, b, by rw [List.append_assoc, List.cons_append], hmade, hb,
    htold.append zs⟩

namespace Tracked

/-- Only these parts of the state matter. -/
theorem congr (h : Tracked i₀ pre Q r) (hout : r'.out = r.out) (hpending : r'.pending = r.pending)
    (hfilter : r'.pidFilter = r.pidFilter) : Tracked i₀ pre Q r' := by
  refine ⟨?_, ?_, ?_, ?_⟩
  · rw [hout, hpending]
    exact h.awaits
  · rw [hpending]
    exact h.distinct
  · rw [hout, hpending]
    exact h.settled
  · rw [hpending, hfilter]
    exact h.live

/-- Another record has come. -/
theorem grow (h : Tracked i₀ pre Q r) (rec : RawRecord)
    (hQ : ∀ k p mid, r.pending.get k = some p → Q k mid → Q' k (mid ++ [rec])) :
    Tracked i₀ (pre ++ [rec]) Q' r := by
  refine ⟨?_, h.distinct, ?_, h.live⟩
  · intro k p hp
    obtain ⟨hentry, xs, s, mid, rfl, hk, hmade, hmid⟩ := h.awaits k p hp
    exact ⟨hentry, xs, s, mid ++ [rec], by rw [List.append_assoc, List.cons_append], hk, hmade,
      hQ k p mid hp hmid⟩
  · intro j i hi hcond
    exact (h.settled j i hi hcond).imp_left fun hs => hs.append [rec]

/-- Nothing that waits minds what is known of the records since. -/
theorem mono (h : Tracked i₀ pre Q r)
    (hQ : ∀ k p mid, r.pending.get k = some p → Q k mid → Q' k mid) : Tracked i₀ pre Q' r := by
  refine ⟨?_, h.distinct, h.settled, h.live⟩
  intro k p hp
  obtain ⟨hentry, xs, s, mid, hpre, hk, hmade, hmid⟩ := h.awaits k p hp
  exact ⟨hentry, xs, s, mid, hpre, hk, hmade, hQ k p mid hp hmid⟩

/-- The conditional of `k` gets an outcome the records since it allow. -/
theorem resolve (h : Tracked i₀ pre Q r) (k : Key) (ip : Option Nat)
    (htold : ∀ p mid i, r.pending.get k = some p → Q k mid → i.branchTarget = p.target →
      i.fallthrough = p.fallthrough → Told k mid i (outcomeOf p ip)) :
    Tracked i₀ pre Q (r.resolveOutcome k ip) := by
  cases hk : r.pending.get k with
  | none =>
    rw [resolveOutcome_none hk]
    exact h
  | some p =>
    have hother : ∀ k' p', (r.resolveOutcome k ip).pending.get k' = some p' →
        k' ≠ k ∧ r.pending.get k' = some p' := by
      intro k' p' hp'
      rw [resolveOutcome_pending] at hp'
      split at hp'
      next => cases hp'
      next hne => exact ⟨hne, hp'⟩
    have hout : ∀ j, (r.resolveOutcome k ip).out[j]? =
        (fun i => if p.outIdx = j then { i with outcome := some (outcomeOf p ip) } else i) <$>
          r.out[j]? := by
      intro j
      rw [resolveOutcome_out hk, List.getElem?_modify]
    refine ⟨?_, ?_, ?_, ?_⟩
    · intro k' p' hp'
      obtain ⟨hne, hp'⟩ := hother k' p' hp'
      obtain ⟨⟨i, hi, hi'⟩, hmade⟩ := h.awaits k' p' hp'
      have hidx : p.outIdx ≠ p'.outIdx := fun heq => hne (h.distinct k k' p p' hk hp' heq).symm
      refine ⟨⟨i, ?_, hi'⟩, hmade⟩
      rw [hout, hi]
      simp [hidx]
    · intro k' k'' p' p'' hp' hp''
      exact h.distinct k' k'' p' p'' (hother k' p' hp').2 (hother k'' p'' hp'').2
    · intro j i' hi' hcond
      rw [hout] at hi'
      obtain ⟨i, hi, hii'⟩ := Option.map_eq_some_iff.mp hi'
      by_cases hj : p.outIdx = j
      · -- the one that has waited
        subst hj
        rw [if_pos rfl] at hii'
        obtain ⟨⟨i₁, hi₁, htarget, hfall⟩, xs, s, mid, hpre, hks, hmade, hmid⟩ := h.awaits k p hk
        obtain rfl := Option.some.inj (hi₁.symm.trans hi)
        refine .inl ⟨xs, s, mid, outcomeOf p ip, hpre, hmade, by rw [← hii'], ?_⟩
        rw [hks, ← hii']
        exact (htold p mid i₁ hk hmid htarget hfall).congr rfl rfl
      · rw [if_neg hj] at hii'
        subst hii'
        rcases h.settled j i hi hcond with hs | ⟨k', p', hp', hj'⟩
        · exact .inl hs
        · have hne : k' ≠ k := by
            rintro rfl
            obtain rfl := Option.some.inj (hk.symm.trans hp')
            exact hj hj'
          refine .inr ⟨k', p', ?_, hj'⟩
          rw [resolveOutcome_pending, if_neg hne]
          exact hp'
    · intro k' p' hp' f hf
      have hfilter := (resolveOutcome_frame (r := r) k ip).2
      exact h.live k' p' (hother k' p' hp').2 f (hfilter ▸ hf)

/-- What cannot be known is settled as unknown. -/
theorem resolve_unknown (h : Tracked i₀ pre Q r) (k : Key) :
    Tracked i₀ pre Q (r.resolveOutcome k none) :=
  h.resolve k none fun _ _ _ _ _ _ _ => .unknown

theorem resolve_all (ks : List Key) (h : Tracked i₀ pre Q r) :
    Tracked i₀ pre Q (ks.foldl (fun r k => r.resolveOutcome k none) r) := by
  induction ks generalizing r with
  | nil => exact h
  | cons k ks ih => exact ih (h.resolve_unknown k)

/-- A conditional just kept waits for the records to come. -/
theorem retained {s : Sample} {tid : ThreadId} {seq ip : Nat} {i : InstructionRecord}
    (h : Tracked i₀ (pre ++ [.sample s]) Quiet r) (hrow : Retained s tid seq ip r r' i)
    (hidle : r.pending.get (s.pid, s.tid) = none) (hmade : Retains i₀ pre s r.out.length)
    (hlive : ∀ f, r.pidFilter = some f → f.isLiveThread s.pid s.tid = true) :
    Tracked i₀ (pre ++ [.sample s]) Quiet r' := by
  have hlast : r'.out[r.out.length]? = some i := by
    rw [hrow.out]
    simp
  have hold : ∀ j, j < r.out.length → r'.out[j]? = r.out[j]? := by
    intro j hj
    rw [hrow.out, List.getElem?_append_left hj]
  have hbound : ∀ j i, r.out[j]? = some i → j < r.out.length := fun j i hi =>
    (List.getElem?_eq_some_iff.mp hi).1
  have hpending : ∀ k p, r'.pending.get k = some p → r.pending.get k = some p ∨
      (k = (s.pid, s.tid) ∧ p = ⟨r.out.length, i.branchTarget, i.fallthrough⟩) := by
    intro k p hp
    rw [hrow.pending] at hp
    split at hp
    · rw [FastMap.get_insert] at hp
      split at hp
      next hk => exact .inr ⟨hk, (Option.some.inj hp).symm⟩
      next => exact .inl hp
    · exact .inl hp
  have hkept : ∀ k p, r.pending.get k = some p → r'.pending.get k = some p := by
    intro k p hp
    rw [hrow.pending]
    split
    · rw [FastMap.get_insert, if_neg]
      · exact hp
      · rintro rfl
        rw [hidle] at hp
        cases hp
    · exact hp
  -- what was pending points below the new row, so the new row is shared with nothing
  have hbefore : ∀ k p, r.pending.get k = some p → p.outIdx < r.out.length := by
    intro k p hp
    obtain ⟨j, hj, -⟩ := (h.awaits k p hp).entry
    exact hbound _ _ hj
  refine ⟨?_, ?_, ?_, ?_⟩
  · intro k p hp
    rcases hpending k p hp with hp | ⟨rfl, rfl⟩
    · obtain ⟨⟨i', hi', haddr⟩, hmade'⟩ := h.awaits k p hp
      exact ⟨⟨i', (hold _ (hbound _ _ hi')).trans hi', haddr⟩, hmade'⟩
    · exact ⟨⟨i, hlast, rfl, rfl⟩, pre, s, [], rfl, rfl, hmade, quiet_nil _⟩
  · intro k k' p p' hp hp' hidx
    rcases hpending k p hp with hp | ⟨rfl, rfl⟩
    · rcases hpending k' p' hp' with hp' | ⟨rfl, rfl⟩
      · exact h.distinct k k' p p' hp hp' hidx
      · exact absurd hidx (Nat.ne_of_lt (hbefore k p hp))
    · rcases hpending k' p' hp' with hp' | ⟨rfl, -⟩
      · exact absurd hidx.symm (Nat.ne_of_lt (hbefore k' p' hp'))
      · rfl
  · intro j i' hi' hcond
    -- an older row keeps its reason; the new one waits if it is a conditional
    rcases Nat.lt_trichotomy j r.out.length with hj | rfl | hj
    · rw [hold j hj] at hi'
      rcases h.settled j i' hi' hcond with hs | ⟨k, p, hp, hidx⟩
      · exact .inl hs
      · exact .inr ⟨k, p, hkept k p hp, hidx⟩
    · obtain rfl := Option.some.inj (hlast.symm.trans hi')
      refine .inr ⟨(s.pid, s.tid), ⟨r.out.length, i.branchTarget, i.fallthrough⟩, ?_, rfl⟩
      rw [hrow.pending, if_pos hcond]
      exact FastMap.get_insert_self ..
    · have hlen := (List.getElem?_eq_some_iff.mp hi').1
      rw [hrow.out, List.length_append, List.length_singleton] at hlen
      omega
  · intro k p hp f hf
    rw [hrow.filter] at hf
    rcases hpending k p hp with hp | ⟨rfl, rfl⟩
    · exact h.live k p hp f hf
    · exact hlive f hf

end Tracked

/-! ## One record -/

/-- The record finds no conditional waiting that it fails to resolve: a loss
finds none at all, an exit none of its thread, and a sample without an address
none that has address 0 behind it. -/
def CleanOutcome (r : InsnReconstructor) : RawRecord → Prop
  | .lost _ => ∀ k, r.pending.get k = none
  | .task t => t.kind = .exit → r.pending.get (t.pid, t.tid) = none
  | .sample s => s.event.isInstruction = true → s.ip = none →
      ∀ p, r.pending.get (s.pid, s.tid) = some p → p.target ≠ some 0 ∧ p.fallthrough ≠ some 0
  | _ => True

/-- The records since a conditional of `k`, the last of them `rec`, which is
still being looked at. -/
def Behind (rec : RawRecord) (k : Key) (recs : List RawRecord) : Prop :=
  ∃ mid, recs = mid ++ [rec] ∧ Quiet k mid

/-- The address of the next sample tells the outcome. -/
theorem told_of_next {s : Sample} {p : PendingCond} {mid : List RawRecord} {i : InstructionRecord}
    (hinsn : s.event.isInstruction = true) (hquiet : Quiet (s.pid, s.tid) mid)
    (htarget : i.branchTarget = p.target) (hfall : i.fallthrough = p.fallthrough)
    (hclean : s.ip = none → p.target ≠ some 0 ∧ p.fallthrough ≠ some 0) :
    Told (s.pid, s.tid) (mid ++ [.sample s]) i (outcomeOf p (some (s.ip.getD 0))) := by
  have hnext : Next (s.pid, s.tid) (mid ++ [.sample s]) s := ⟨mid, [], rfl, hquiet, hinsn, rfl⟩
  have haddr : p.target = some (s.ip.getD 0) ∨ p.fallthrough = some (s.ip.getD 0) →
      s.ip = some (s.ip.getD 0) := by
    intro hat
    cases hip : s.ip with
    | some a => rfl
    | none =>
      rw [hip] at hat
      exact (hat.elim (hclean hip).1 (hclean hip).2).elim
  unfold outcomeOf
  split
  next => exact .unknown
  next n t f hip ht hf =>
    obtain rfl := Option.some.inj hip
    split_ifs with heq htaken hfell
    · exact .unknown
    · have hat : p.target = some (s.ip.getD 0) := by rw [ht, htaken]
      exact .taken s _ hnext (haddr (.inl hat)) (htarget.trans hat)
    · have hat : p.fallthrough = some (s.ip.getD 0) := by rw [hf, hfell]
      refine .notTaken s _ hnext (haddr (.inr hat)) (hfall.trans hat) ?_
      rw [htarget, ht]
      exact fun h => htaken (Option.some.inj h).symm
    · exact .unknown
  next => exact .unknown

theorem resolveOutcomes_pending (ks : List Key) (ip : Option Nat) (k : Key) :
    (ks.foldl (fun r k => r.resolveOutcome k ip) r).pending.get k =
      if k ∈ ks then none else r.pending.get k := by
  induction ks generalizing r with
  | nil => simp
  | cons k' ks ih =>
    rw [List.foldl_cons, ih, resolveOutcome_pending]
    by_cases hks : k ∈ ks
    · simp [hks]
    · simp [hks]

/-- Resolving every key that has something waiting leaves nothing. -/
theorem resolveAll_pending (ip : Option Nat) (k : Key) :
    (r.pending.keys.foldl (fun r k => r.resolveOutcome k ip) r).pending.get k = none := by
  rw [resolveOutcomes_pending]
  split
  next => rfl
  next hk => exact AList.lookup_eq_none.mpr hk

theorem enterThread_frame (k : Key) : (r.enterThread k).1.out = r.out ∧
    (r.enterThread k).1.pending = r.pending ∧ (r.enterThread k).1.pidFilter = r.pidFilter := by
  unfold enterThread
  exact ⟨rfl, rfl, rfl⟩

namespace Tracked

/-- Another record has come, and is being looked at. -/
theorem behind (h : Tracked i₀ pre Quiet r) (rec : RawRecord) :
    Tracked i₀ (pre ++ [rec]) (Behind rec) r :=
  h.grow rec fun _ _ mid _ hquiet => ⟨mid, rfl, hquiet⟩

/-- It concerns nothing that still waits. -/
theorem pass (h : Tracked i₀ pre (Behind rec) r)
    (hrec : ∀ k p, r.pending.get k = some p → ¬ Concerns k rec) : Tracked i₀ pre Quiet r := by
  refine h.mono ?_
  rintro k p _ hp ⟨mid, rfl, hquiet⟩
  exact hquiet.snoc (hrec k p hp)

end Tracked

/-- A decoder error ends the wait of every conditional it may concern. -/
theorem pushDecoderError_tracked {e : DecoderErrorEvent} (h : Tracked i₀ pre Quiet r) :
    Tracked i₀ (pre ++ [.decoderError e]) Quiet (r.pushDecoderError e) := by
  have hbehind : Tracked i₀ (pre ++ [.decoderError e]) (Behind (.decoderError e))
      { r with decoderErrors := r.decoderErrors + 1 } :=
    (h.behind (.decoderError e)).congr rfl rfl rfl
  unfold pushDecoderError
  dsimp only
  split
  next p t hp ht =>
    have hresolved := hbehind.resolve_unknown (p, t)
    refine (hresolved.pass ?_).congr rfl rfl rfl
    intro k p' hp' hconcerns
    have hnamed : namedKey (.decoderError e) = some (p, t) := by simp [namedKey, hp, ht]
    have hall : (namedKey (.decoderError e)).all (· = k) = true := hconcerns
    rw [hnamed] at hall
    obtain rfl : (p, t) = k := of_decide_eq_true hall
    rw [resolveOutcome_pending, if_pos rfl] at hp'
    cases hp'
  next =>
    have hresolved := hbehind.resolve_all r.pending.keys
    refine (hresolved.pass ?_).congr rfl rfl rfl
    intro k p' hp'
    rw [resolveAll_pending (r := { r with decoderErrors := r.decoderErrors + 1 })] at hp'
    cases hp'

/-- An instruction sample settles the conditional before it, and may be one
itself. -/
theorem pushSample_tracked {s : Sample} (h : Tracked i₀ pre Quiet r)
    (hinsn : s.event.isInstruction = true) (hpush : r.pushSample s = .ok r')
    (hclean : s.ip = none → ∀ p, r.pending.get (s.pid, s.tid) = some p →
      p.target ≠ some 0 ∧ p.fallthrough ≠ some 0)
    (hmade : r'.out.length = r.out.length + 1 → Retains i₀ pre s r.out.length)
    (hlive : ∀ f, r.pidFilter = some f → f.isLiveThread s.pid s.tid = true) :
    Tracked i₀ (pre ++ [.sample s]) Quiet r' := by
  let k : Key := (s.pid, s.tid)
  have hbehind : Tracked i₀ (pre ++ [.sample s]) (Behind (.sample s))
      { r with
        samplesSeen := r.samplesSeen + 1
        seqByThread := r.seqByThread.insert k ((r.seqByThread.get k).getD 0 + 1) } :=
    (h.behind (.sample s)).congr rfl rfl rfl
  have harrived : Tracked i₀ (pre ++ [.sample s]) (Behind (.sample s))
      (r.arrived k (s.ip.getD 0)) := by
    refine hbehind.resolve k (some (s.ip.getD 0)) ?_
    rintro p _ i hp ⟨mid, rfl, hquiet⟩ htarget hfall
    exact told_of_next hinsn hquiet htarget hfall fun hip => hclean hip p hp
  have hidle : ∀ k', (r.arrived k (s.ip.getD 0)).pending.get k' =
      if k' = k then none else r.pending.get k' := fun k' => resolveOutcome_pending k k' _
  have hpassed : Tracked i₀ (pre ++ [.sample s]) Quiet (r.arrived k (s.ip.getD 0)) := by
    refine harrived.pass ?_
    rintro k' p hp ⟨-, rfl⟩
    rw [hidle, if_pos rfl] at hp
    cases hp
  obtain ⟨hout, hpending, hfilter⟩ := enterThread_frame (r := r.arrived k (s.ip.getD 0)) k
  have hentered := hpassed.congr hout hpending hfilter
  rcases pushSample_ok hpush with ⟨-, rfl⟩ | ⟨-, i, hrow⟩
  · exact hentered
  · have hlen : ((r.arrived k (s.ip.getD 0)).enterThread k).1.out.length = r.out.length := by
      rw [hout]
      exact resolveOutcome_length ..
    refine hentered.retained hrow ?_ ?_ ?_
    · rw [hpending, hidle, if_pos rfl]
    · rw [hlen]
      apply hmade
      rw [hrow.out, List.length_append, hlen]
      rfl
    · intro f hf
      rw [hfilter] at hf
      exact hlive f ((resolveOutcome_frame (r := { r with
        samplesSeen := r.samplesSeen + 1
        seqByThread := r.seqByThread.insert k ((r.seqByThread.get k).getD 0 + 1) }) k _).2 ▸ hf)

/-- One record. -/
theorem push_tracked (hrun : i₀.pushAll pre = .ok r) (h : r.push rec = .ok r')
    (hclean : CleanOutcome r rec) (hT : Tracked i₀ pre Quiet r) :
    Tracked i₀ (pre ++ [rec]) Quiet r' := by
  have hobserved : Tracked i₀ pre Quiet { r with pidFilter := r.pidFilter.map (·.observe rec) } := by
    refine ⟨hT.awaits, hT.distinct, hT.settled, ?_⟩
    intro k p hp f hf
    obtain ⟨f₀, hf₀, rfl⟩ := Option.map_eq_some_iff.mp hf
    exact PidTracker.isLiveThread_observe (hT.live k p hp f₀ hf₀) rec
  rcases push_ok h with ⟨hfiltered, rfl⟩ | ⟨hkept, haccept⟩
  · -- a withheld sample belongs to no thread with something waiting
    refine (hobserved.behind rec).pass ?_
    intro k p hp hconcerns
    obtain ⟨f, hf, hdrop⟩ := (Option.any_eq_true _ _).mp hfiltered
    cases rec with
    | sample s =>
      obtain ⟨-, rfl⟩ := hconcerns
      have hlive := hobserved.live _ p hp f hf
      simp [filtered, hlive] at hdrop
    | mmap => exact hconcerns
    | task | lost | decoderError | switch => cases hdrop
  · cases rec with
    | mmap m =>
      obtain rfl := Except.ok.inj haccept
      exact ((hobserved.behind _).pass fun k p hp => id).congr rfl rfl rfl
    | switch =>
      obtain rfl := Except.ok.inj haccept
      exact (hobserved.behind _).pass fun k p hp => id
    | task t =>
      obtain rfl := Except.ok.inj haccept
      refine ((hobserved.behind (.task t)).pass ?_).congr rfl rfl rfl
      rintro k p hp ⟨hexit, rfl⟩
      rw [show r.pending.get (t.pid, t.tid) = none from hclean hexit] at hp
      cases hp
    | lost =>
      obtain rfl := Except.ok.inj haccept
      refine (hobserved.behind _).pass ?_
      intro k p hp
      rw [show r.pending.get k = none from hclean k] at hp
      cases hp
    | decoderError e =>
      obtain rfl := Except.ok.inj haccept
      exact pushDecoderError_tracked hobserved
    | sample s =>
      cases hinsn : s.event.isInstruction with
      | false =>
        simp only [accept, hinsn, Bool.false_eq_true, if_false] at haccept
        obtain rfl := Except.ok.inj haccept
        refine (hobserved.behind (.sample s)).pass ?_
        rintro k p hp ⟨hinsn', -⟩
        rw [hinsn] at hinsn'
        cases hinsn'
      | true =>
        simp only [accept, hinsn, if_true] at haccept
        refine pushSample_tracked hobserved hinsn haccept (hclean hinsn) ?_ ?_
        · exact fun hlen => ⟨r, r', hrun, h, rfl, hlen⟩
        · intro f hf
          have hf' := hf
          rw [hf] at hkept
          simpa [filtered] using hkept

/-! ## The theorem -/

/-- No record of the stream finds a conditional waiting that it fails to
resolve. -/
def CleanOutcomes (i₀ : InsnReconstructor) (recs : List RawRecord) : Prop :=
  ∀ pre rec post, recs = pre ++ rec :: post → ∀ r, i₀.pushAll pre = .ok r → CleanOutcome r rec

theorem Built.idle (h : InsnReconstructor.Built i₀) : i₀.out = [] ∧ i₀.pending = ∅ := by
  induction h with
  | new => exact ⟨rfl, rfl⟩
  | withBudget _ _ ih => exact ih
  | withPidFilter _ _ ih => exact ih

theorem Built.tracked (h : InsnReconstructor.Built i₀) : Tracked i₀ [] Quiet i₀ := by
  obtain ⟨hout, hpending⟩ := h.idle
  have hnone : ∀ k p, i₀.pending.get k ≠ some p := by
    intro k p hp
    rw [hpending] at hp
    cases hp
  refine ⟨fun k p hp => (hnone k p hp).elim, fun k _ p _ hp => (hnone k p hp).elim, ?_,
    fun k p hp => (hnone k p hp).elim⟩
  intro j i hi
  rw [hout] at hi
  cases hi

/-- After every prefix of a clean stream each conditional is settled or waits. -/
theorem pushAll_tracked (h₀ : InsnReconstructor.Built i₀) (hclean : CleanOutcomes i₀ recs) :
    ∀ pre, pre <+: recs → ∀ r, i₀.pushAll pre = .ok r → Tracked i₀ pre Quiet r := by
  refine foldlM_trace (P := fun pre r => Tracked i₀ pre Quiet r) h₀.tracked ?_
  intro pre rec post r r' hsplit hrun hT hpush
  exact push_tracked hrun hpush (hclean pre rec post hsplit r hrun) hT

/-- In a clean stream each conditional of the finished pass has an outcome, and
`taken` and `notTaken` only where the next instruction of its thread, nothing
that concerns the thread in between, is at the target and at the distinct
fall-through. -/
theorem outcomes_settled (h₀ : InsnReconstructor.Built i₀) (hclean : CleanOutcomes i₀ recs)
    (hr : i₀.pushAll recs = .ok r) {ir : InstructionIr} (hfin : r.finish = .ok ir) :
    ∀ j i, ir.instructions[j]? = some i → i.kind = .conditional → Settled i₀ recs j i := by
  have hT := pushAll_tracked h₀ hclean recs List.prefix_rfl r hr
  have hall := hT.resolve_all r.pending.keys
  intro j i hi hcond
  unfold finish at hfin
  obtain rfl := Except.ok.inj hfin
  rcases hall.settled j i hi hcond with hs | ⟨k, p, hp, -⟩
  · exact hs
  · rw [resolveAll_pending] at hp
    cases hp

/-! ## Small streams -/

/-- An instruction of task `(7, 1)`. -/
def insnAt (ip time : Nat) (bytes : List UInt8) : RawRecord :=
  .sample ⟨7, 1, some 0, some time, .instructions, some ip, none, .EMPTY, none,
    bytes.foldl .push .empty⟩

/-- A pass whose decoder knows the conditional `75 0e` and takes everything else
for one byte long. -/
def jccInsns : InsnReconstructor :=
  .new "a" 0 [] (fun _ => ⟨[], []⟩)
    ⟨fun ip bytes =>
        if bytes = [0x75, 0x0e] then ⟨2, .conditionalBranch, ip + 16⟩ else ⟨1, .next, 0⟩,
      fun _ _ => none⟩ [] none

/-- A conditional at `0x10` and the instruction at its target. -/
def takenJcc : List RawRecord := [insnAt 0x10 1 [0x75, 0x0e], insnAt 0x20 2 [0x90]]

/-- `outcomes_settled` on a conditional that is taken. -/
theorem outcomes_settled_takenJcc :
    ∃ r ir, jccInsns.pushAll takenJcc = .ok r ∧ r.finish = .ok ir ∧
      ∀ j i, ir.instructions[j]? = some i → i.kind = .conditional →
        Settled jccInsns takenJcc j i := by
  obtain ⟨ir, hir, -⟩ := ok_of_any (x := jccInsns.pushAll takenJcc >>= finish)
    (p := fun _ => true) (by decide +kernel)
  obtain ⟨r, hr, hfin⟩ := bind_ok.mp hir
  refine ⟨r, ir, hr, hfin, outcomes_settled (.new ..) ?_ hr hfin⟩
  intro pre rec post hsplit r' _
  have hmem : rec ∈ takenJcc := hsplit ▸ List.mem_append_right _ List.mem_cons_self
  simp only [takenJcc, List.mem_cons, List.not_mem_nil, or_false] at hmem
  rcases hmem with rfl | rfl
  · intro _ hip
    cases hip
  · intro _ hip
    cases hip

/-- The task exits right after a conditional, and the next one with its tid is
at the conditional's target. -/
def reusedJcc : List RawRecord := [insnAt 0x10 1 [0x75, 0x0e], exitAt 1 2, insnAt 0x20 3 [0x90]]

/-- The outcome of the thread that exited is taken from the new one. -/
theorem outcomes_reusedJcc :
    ¬ ∀ (i₀ r : InsnReconstructor) (recs : List RawRecord) (ir : InstructionIr),
      InsnReconstructor.Built i₀ → i₀.pushAll recs = .ok r → r.finish = .ok ir →
        ∀ j i, ir.instructions[j]? = some i → i.kind = .conditional → Settled i₀ recs j i := by
  intro h
  obtain ⟨ir, hir, hout⟩ := ok_of_any (x := jccInsns.pushAll reusedJcc >>= finish)
    (p := fun ir => ir.instructions[0]?.map (fun i => (i.kind, i.outcome)) =
      some (.conditional, some .taken)) (by decide +kernel)
  obtain ⟨r, hr, hfin⟩ := bind_ok.mp hir
  obtain ⟨i, hi, hkind⟩ := Option.map_eq_some_iff.mp (of_decide_eq_true hout)
  obtain ⟨hcond, htaken⟩ := Prod.mk.inj hkind
  obtain ⟨xs, s, rest, b, hsplit, ⟨r₁, -, hr₁, -, hlen, -⟩, hb, htold⟩ :=
    h jccInsns r reusedJcc ir (.new ..) hr hfin 0 i hi hcond
  obtain rfl := Option.some.inj (htaken.symm.trans hb)
  rcases xs with - | ⟨rec₀, - | ⟨rec₁, - | ⟨rec₂, xs⟩⟩⟩
  · obtain ⟨hs, rfl⟩ := List.cons.inj hsplit
    obtain rfl := RawRecord.sample.inj hs
    cases htold with
    | taken s' a hnext here target =>
      -- what comes next is the exit
      obtain ⟨mid, post, hrest, hquiet, -⟩ := hnext
      rcases mid with - | ⟨rec, mid⟩
      · cases (List.cons.inj hrest).1
      · obtain ⟨rfl, -⟩ := List.cons.inj hrest
        exact hquiet _ List.mem_cons_self ⟨rfl, rfl⟩
  · obtain ⟨-, hsplit⟩ := List.cons.inj hsplit
    cases (List.cons.inj hsplit).1
  · -- the last sample is not the first instruction
    obtain ⟨h0, hsplit⟩ := List.cons.inj hsplit
    obtain ⟨h1, -⟩ := List.cons.inj hsplit
    rw [← h0, ← h1] at hr₁
    have hone : (jccInsns.pushAll [insnAt 0x10 1 [0x75, 0x0e], exitAt 1 2]).toOption.any
        (fun r => r.out.length = 1) = true := by decide +kernel
    rw [hr₁] at hone
    simp [Except.toOption, hlen] at hone
  · have hshort := congrArg List.length hsplit
    simp [reusedJcc] at hshort

end InsnReconstructor

end TraceMcp.Decode
