import TraceMcp.Decode.Intervals

/-!
# Continuity ends at a discontinuity

A decoder error naming a thread, or a time regression on it, ends what is
known of its call stack: the open frames are emitted as interrupted, and
nothing recorded for the thread afterwards may claim to have started earlier.
A stack is carried on by the frames and by the pending trace end; the
interruption empties the first and leaves the second. So the statement holds
of every stream in which no discontinuity arrives while a trace end is pending
(`CleanBreaks`), and `resumedAfterError` shows what happens otherwise.

`Since T k` says that everything lane `k` carries on started at a time in `T`;
with `T` the times of the thread's samples since the discontinuity it is an
invariant of the rest of the stream.
-/

namespace TraceMcp.Decode

open TraceMcp.Lib

namespace Ledger

/-- Everything the lane of `k` carries on started at a time in `T`. -/
def Since (T : Option Nat → Prop) (k : Key) (L : Ledger) : Prop :=
  ∀ l, L.lanes k = some l → (∀ f ∈ frameTimes l.stack, T f.2) ∧
    ∀ p, l.pending = some p → T p.abs

/-- Between `L` and `L'` only rows and preserved stacks from `T` are written. -/
def Written (T : Option Nat → Prop) (L L' : Ledger) : Prop :=
  ∃ rows gaps, L'.spans = L.spans ++ rows ∧ L'.gaps = L.gaps ++ gaps ∧
    (∀ s ∈ rows, s.start = .unknown ∨ ∃ t, T t ∧ s.start = absTime t) ∧
    ∀ g ∈ gaps, g.kind = .traceBoundary → ∃ t, T t ∧ g.start = absTime t

variable {T T' : Option Nat → Prop} {k k' : Key} {now : Option Nat} {L L' L'' : Ledger}
  {l l' : Lane}

theorem Since.mono (h : Since T k L) (hT : ∀ t, T t → T' t) : Since T' k L := by
  intro l hl
  obtain ⟨hframes, hpending⟩ := h l hl
  exact ⟨fun f hf => hT _ (hframes f hf), fun p hp => hT _ (hpending p hp)⟩

theorem since_of_lanes (h : Since T k L) (hlanes : L'.lanes k = L.lanes k) : Since T k L' :=
  fun l hl => h l (hlanes ▸ hl)

theorem written_refl (T : Option Nat → Prop) (L : Ledger) : Written T L L :=
  ⟨[], [], (List.append_nil _).symm, (List.append_nil _).symm, List.forall_mem_nil _,
    List.forall_mem_nil _⟩

theorem Written.trans (h : Written T L L') (h' : Written T L' L'') : Written T L L'' := by
  obtain ⟨rows, gaps, hrows, hgaps, hr, hg⟩ := h
  obtain ⟨rows', gaps', hrows', hgaps', hr', hg'⟩ := h'
  refine ⟨rows ++ rows', gaps ++ gaps', by rw [hrows', hrows, List.append_assoc],
    by rw [hgaps', hgaps, List.append_assoc], ?_, ?_⟩
  · intro s hs
    rcases List.mem_append.mp hs with hs | hs
    · exact hr s hs
    · exact hr' s hs
  · intro g hmem
    rcases List.mem_append.mp hmem with hmem | hmem
    · exact hg g hmem
    · exact hg' g hmem

/-! ## One write -/

theorem Timing.since {popped kept : List OpenSpan} {pushed : Option OpenSpan}
    {rows : List FunctionSpan} {gaps : List GapRecord} {endAbs : Option Nat}
    (h : Timing k now L L' l l' popped kept pushed rows gaps endAbs) (hnow : T now)
    (hS : Since T k L) : Since T k L' ∧ Written T L L' := by
  obtain ⟨hframes, hpending⟩ := hS l h.lane
  refine ⟨?_, rows, gaps, h.spans, h.allGaps, ?_, ?_⟩
  · intro m hm
    obtain rfl := Option.some.inj (h.lane'.symm.trans hm)
    refine ⟨?_, ?_⟩
    · intro f hf
      rcases h.frame_cases hf with ⟨o, ho, rfl⟩ | hkept
      · rcases h.pushed_start o ho with hstart | ⟨-, p, hp, hstart⟩
        · exact hstart ▸ hnow
        · exact hstart ▸ hpending p hp
      · exact hframes f (h.kept_frames hkept)
    · intro p hp
      rcases h.pending p hp with hold | hnew
      · exact hpending p hold
      · exact hnew ▸ hnow
  · intro s hs
    rcases h.rows_from s hs with horphan | ⟨o, ho, hclose⟩
    · exact Or.inl horphan.start_eq
    · exact Or.inr ⟨_, hframes _ (mem_frameTimes (h.mem_popped ho)), hclose.start_eq⟩
  · intro g hg hkind
    obtain ⟨p, hp, hstart⟩ := h.boundary g hg hkind
    exact ⟨_, hpending p hp, hstart⟩

theorem Timed.since (h : Timed k now L L') (hnow : T now) (hS : Since T k L) :
    Since T k L' ∧ Written T L L' := by
  obtain ⟨l, l', popped, kept, pushed, rows, gaps, endAbs, h⟩ := h
  exact h.since hnow hS

theorem Moves.since (h : Moves k now L L') (hnow : T now) (hS : Since T k L) :
    Since T k L' ∧ Written T L L' :=
  reflTransGen_invariant (P := fun M => Since T k M ∧ Written T L M)
    (fun _ _ hm hP =>
      have hone := hm.timed.since hnow hP.1
      ⟨hone.1, hP.2.trans hone.2⟩) h ⟨hS, written_refl T L⟩

/-! ## Lanes of other threads -/

theorem Posts.lane_ne (h : Posts k L L') (hk : k' ≠ k) : L'.lanes k' = L.lanes k' := by
  obtain ⟨l, l', rows, gaps, opened, h⟩ := h
  exact h.lane_ne hk

theorem Moves.lane_ne (h : Moves k now L L') (hk : k' ≠ k) : L'.lanes k' = L.lanes k' :=
  reflTransGen_invariant (P := fun M => M.lanes k' = L.lanes k')
    (fun _ _ hm hP => (hm.posts.lane_ne hk).trans hP) h rfl

theorem ensure_lane_ne (L : Ledger) (hk : k' ≠ k) : (L.ensure k).lanes k' = L.lanes k' := by
  cases h : L.lanes k with
  | none => exact ensure_lanes_ne h hk
  | some l => simp only [ensure, h]

theorem checkRegression_lane_ne (h : L.lanes k = some l) (hk : k' ≠ k) (now : Option Nat) :
    (L.checkRegression k l now).lanes k' = L.lanes k' := by
  unfold checkRegression
  split
  next => exact (cut_posts h ..).lane_ne hk
  next => rfl

/-- The thread a record acts on. -/
def actor : RawRecord → Option Key
  | .sample s => some (s.pid, s.tid)
  | .decoderError e => e.pid.bind fun pid => e.tid.map fun tid => (pid, tid)
  | .task t => some (t.pid, t.tid)
  | _ => none

/-- A record of another thread leaves the lane alone. -/
theorem Action.lane_ne {rec : RawRecord} (h : Action rec L L') (hk : actor rec ≠ some k') :
    L'.lanes k' = L.lanes k' := by
  cases h with
  | @sample _ _ s l₀ l h₀ hl hmoves =>
    have hne : k' ≠ (s.pid, s.tid) := fun heq => hk (congrArg some heq.symm)
    rw [hmoves.lane_ne hne, setLane_lanes_ne _ _ _ hne, checkRegression_lane_ne h₀ hne,
      ensure_lane_ne L hne]
  | @error _ e pid tid l hpid htid hl =>
    have hne : k' ≠ (pid, tid) := by
      rintro rfl
      refine hk ?_
      rw [actor, hpid, htid]
      rfl
    rw [(cut_posts hl ..).lane_ne hne, ensure_lane_ne L hne]
  | strayError => rfl
  | lost => rfl
  | @exit _ t l hkind hl =>
    have hne : k' ≠ (t.pid, t.tid) := fun heq => hk (congrArg some heq.symm)
    exact Function.update_of_ne hne ..
  | silent => rfl

/-! ## One record -/

theorem ensure_since (hS : Since T k L) (k' : Key) : Since T k (L.ensure k') := by
  by_cases hk : k = k'
  · subst hk
    intro l hl
    rcases lane_of_ensure hl with hold | ⟨-, rfl⟩
    · exact hS l hold
    · exact ⟨List.forall_mem_nil _, nofun⟩
  · exact since_of_lanes hS (ensure_lane_ne L hk)

theorem ensure_written (T : Option Nat → Prop) (L : Ledger) (k : Key) :
    Written T L (L.ensure k) := by
  cases h : L.lanes k with
  | none =>
    rw [ensure_of_none h]
    exact written_refl T L
  | some l =>
    simp only [ensure, h]
    exact written_refl T L

/-- A cut that claims no preserved stack. -/
theorem cut_since (hl : L.lanes k = some l) (kind : GapKind) (hkind : kind ≠ .traceBoundary)
    (a b : Option Nat) (x : Bool) (reason : String) (hS : Since T k L) :
    Since T k (L.cut k l l.pending kind a b x reason) ∧
      Written T L (L.cut k l l.pending kind a b x reason) := by
  obtain ⟨hframes, hpending⟩ := hS l hl
  refine ⟨?_, flushRows l.id none (fun _ => .interruptedByGap) l.stack, _, rfl, rfl, ?_, ?_⟩
  · intro m hm
    rw [cut_lanes] at hm
    obtain rfl := Option.some.inj hm
    exact ⟨List.forall_mem_nil _, hpending⟩
  · intro s hs
    obtain ⟨o, ho, rfl⟩ := List.mem_map.mp hs
    exact Or.inr ⟨_, hframes _ (mem_frameTimes ho), rfl⟩
  · intro g hg hbound
    rw [List.mem_singleton.mp hg] at hbound
    exact absurd hbound hkind

theorem setLane_since (hl : L.lanes k = some l) (l' : Lane) (hstack : l'.stack = l.stack)
    (hpend : l'.pending = l.pending) (hS : Since T k L) : Since T k (L.setLane k l') := by
  intro m hm
  rw [setLane_lanes_self] at hm
  obtain rfl := Option.some.inj hm
  rw [hstack, hpend]
  exact hS l hl

theorem errorGapKind_ne (code : Option Nat) :
    Reconstructor.errorGapKind code ≠ .traceBoundary := by
  unfold Reconstructor.errorGapKind
  split <;> nofun

/-- A record of thread `k` carries on and writes only what started in `T`, when
its own time is in `T`. -/
theorem Action.since {rec : RawRecord} (h : Action rec L L') (hk : actor rec = some k)
    (hT : ∀ s, rec = .sample s → T s.timeNs) (hS : Since T k L) :
    Since T k L' ∧ Written T L L' := by
  cases h with
  | @sample _ _ s l₀ l h₀ hl hmoves =>
    obtain rfl := Option.some.inj hk
    have hcheck : Since T (s.pid, s.tid) ((L.ensure (s.pid, s.tid)).checkRegression
          (s.pid, s.tid) l₀ s.timeNs) ∧
        Written T L ((L.ensure (s.pid, s.tid)).checkRegression (s.pid, s.tid) l₀ s.timeNs) := by
      have hensure := ensure_since hS (s.pid, s.tid)
      unfold checkRegression
      split
      next =>
        have hcut := cut_since h₀ .timeRegression (by decide) l₀.lastAbs s.timeNs true
          "time regression" hensure
        exact ⟨hcut.1, (ensure_written T L _).trans hcut.2⟩
      next => exact ⟨hensure, ensure_written T L _⟩
    have htime := setLane_since hl { l with lastAbs := s.timeNs.or l.lastAbs } rfl rfl hcheck.1
    obtain ⟨hsince, hwritten⟩ := hmoves.since (hT s rfl) htime
    exact ⟨hsince, hcheck.2.trans hwritten⟩
  | @error _ e pid tid l hpid htid hl =>
    rw [actor, hpid, htid] at hk
    obtain rfl := Option.some.inj hk
    have hcut := cut_since hl _ (errorGapKind_ne e.code) e.timeNs none false e.message
      (ensure_since hS (pid, tid))
    exact ⟨hcut.1, (ensure_written T L _).trans hcut.2⟩
  | @strayError _ e hnone =>
    rw [actor] at hk
    rcases hnone with hnone | hnone
    · rw [hnone] at hk
      cases hk
    · rw [hnone] at hk
      cases hpid : e.pid with
      | none => rw [hpid] at hk; cases hk
      | some pid => rw [hpid] at hk; cases hk
  | lost => cases hk
  | @exit _ t l hkind hl =>
    obtain rfl := Option.some.inj hk
    refine ⟨?_, flushRows l.id t.timeNs Reconstructor.openCompleteness l.stack, [], rfl,
      (List.append_nil _).symm, ?_, List.forall_mem_nil _⟩
    · intro m hm
      rw [retire] at hm
      simp only [Function.update_self] at hm
      cases hm
    · intro s hs
      obtain ⟨o, ho, rfl⟩ := List.mem_map.mp hs
      exact Or.inr ⟨_, (hS l hl).1 _ (mem_frameTimes ho), rfl⟩
  | silent => exact ⟨hS, written_refl T L⟩

/-- Any record keeps what lane `k` carries on. -/
theorem Action.since_any {rec : RawRecord} (h : Action rec L L')
    (hT : ∀ s, rec = .sample s → (s.pid, s.tid) = k → T s.timeNs) (hS : Since T k L) :
    Since T k L' := by
  by_cases hk : actor rec = some k
  · refine (h.since hk (fun s hs => hT s hs ?_) hS).1
    rw [hs] at hk
    exact Option.some.inj hk
  · exact since_of_lanes hS (h.lane_ne hk)

/-! ## The discontinuity -/

/-- Nothing is carried over a cut without a pending end. -/
theorem cut_severs (hpend : l.pending = none) (kind : GapKind) (a b : Option Nat) (x : Bool)
    (reason : String) : Since T k (L.cut k l l.pending kind a b x reason) := by
  intro m hm
  rw [cut_lanes] at hm
  obtain rfl := Option.some.inj hm
  refine ⟨List.forall_mem_nil _, fun p hp => ?_⟩
  simp only [hpend] at hp
  cases hp

/-- The rows of a stack ended by a gap. -/
def interruptedRows (l : Lane) : List FunctionSpan :=
  flushRows l.id none (fun _ => .interruptedByGap) l.stack

theorem cut_gaps (L : Ledger) (k : Key) (l : Lane) (p : Option PendingEnd) (kind : GapKind)
    (a b : Option Nat) (x : Bool) (reason : String) :
    ∃ g : GapRecord, g.kind = kind ∧
      (L.cut k l p kind a b x reason).gaps = L.gaps ++ [g] :=
  ⟨_, rfl, rfl⟩

/-- A record that ends the continuity of its thread, last seen at `lastAbs`. -/
def EndsContinuity (lastAbs : Option Nat) : RawRecord → Prop
  | .decoderError _ => True
  | .sample s => Reconstructor.regresses lastAbs s.timeNs = true
  | _ => False

/-- What a discontinuity with nothing pending leaves behind: the open frames as
interrupted rows, and nothing older than itself in the lane. -/
theorem Action.severs {d : RawRecord} (h : Action d L L') (hk : actor d = some k)
    (hl : (L.ensure k).lanes k = some l) (hpend : l.pending = none)
    (hbreak : EndsContinuity l.lastAbs d) (hT : ∀ s, d = .sample s → T s.timeNs) :
    L.spans ++ interruptedRows l <+: L'.spans ∧ Since T k L' ∧
      ∃ gaps, L'.gaps = L.gaps ++ gaps ∧
        ∀ g ∈ gaps, g.kind = .traceBoundary → ∃ t, T t ∧ g.start = absTime t := by
  cases h with
  | @sample _ _ s l₀ m h₀ hm hmoves =>
    obtain rfl := Option.some.inj hk
    obtain rfl := Option.some.inj (hl.symm.trans h₀)
    -- a sample breaks by going back in time: the cut comes before its own moves
    have hreg : Reconstructor.regresses l.lastAbs s.timeNs = true := hbreak
    rw [checkRegression, if_pos hreg] at hm hmoves
    have hcut : Since T (s.pid, s.tid) _ := cut_severs (L := L.ensure (s.pid, s.tid)) hpend
      .timeRegression l.lastAbs s.timeNs true "time regression"
    have htime := setLane_since hm { m with lastAbs := s.timeNs.or m.lastAbs } rfl rfl hcut
    obtain ⟨hsince, rows, gaps, hrows, hgaps, -, hbound⟩ := hmoves.since (hT s rfl) htime
    obtain ⟨gap, hkind, hcutgaps⟩ := cut_gaps (L.ensure (s.pid, s.tid)) (s.pid, s.tid) l l.pending
      .timeRegression l.lastAbs s.timeNs true "time regression"
    refine ⟨⟨rows, ?_⟩, hsince, gap :: gaps, ?_, ?_⟩
    · rw [hrows, ← ensure_spans L (s.pid, s.tid)]
      rfl
    · rw [← ensure_gaps L (s.pid, s.tid), List.append_cons, ← hcutgaps]
      exact hgaps
    · intro g hg hbnd
      rcases List.mem_cons.mp hg with rfl | hg
      · rw [hkind] at hbnd
        cases hbnd
      · exact hbound g hg hbnd
  | @error _ e pid tid m hpid htid hm =>
    rw [actor, hpid, htid] at hk
    obtain rfl := Option.some.inj hk
    obtain rfl := Option.some.inj (hl.symm.trans hm)
    obtain ⟨gap, hkind, hcutgaps⟩ := cut_gaps (L.ensure (pid, tid)) (pid, tid) l l.pending
      (Reconstructor.errorGapKind e.code) e.timeNs none false e.message
    refine ⟨⟨[], ?_⟩, cut_severs hpend _ _ _ _ _, [gap], ?_, ?_⟩
    · rw [List.append_nil, ← ensure_spans L (pid, tid)]
      rfl
    · rw [hcutgaps, ensure_gaps]
    · intro g hg hbnd
      rw [List.mem_singleton.mp hg, hkind] at hbnd
      exact absurd hbnd (errorGapKind_ne e.code)
  | @strayError _ e hnone =>
    rw [actor] at hk
    rcases hnone with hnone | hnone
    · rw [hnone] at hk
      cases hk
    · rw [hnone] at hk
      cases hpid : e.pid with
      | none => rw [hpid] at hk; cases hk
      | some pid => rw [hpid] at hk; cases hk
  | lost => exact absurd hbreak id
  | exit => exact absurd hbreak id
  | silent hsilent =>
    cases d with
    | sample s => exact absurd hsilent id
    | decoderError e => exact absurd hsilent id
    | mmap | task | switch | lost => exact absurd hbreak id

end Ledger

open Ledger Reconstructor

/-! ## Streams -/

/-- `t` is the time of a sample of thread `k` among `recs`. -/
def TimeOf (k : Key) (recs : List RawRecord) (t : Option Nat) : Prop :=
  ∃ s : Sample, .sample s ∈ recs ∧ (s.pid, s.tid) = k ∧ s.timeNs = t

/-- `d`, arriving at `r`, is a discontinuity of thread `k`: a decoder error
naming it or a time regression on it. -/
def Breaks (r : Reconstructor) (d : RawRecord) (k : Key) : Prop :=
  r.drops d = false ∧ actor d = some k ∧ EndsContinuity (r.stateOf k).lastAbs d

/-- Continuity of `k` ends at `d`, which leads from `r` to `r₁`. What is older or
newer than `d` is so in the order of the stream: a sample behind an error may
carry an earlier time. -/
structure Severed (k : Key) (d : RawRecord) (post : List RawRecord) (r r₁ : Reconstructor) :
    Prop where
  /-- The frames open at that moment are emitted as `InterruptedByGap`. -/
  interrupted : spanRows r ++ interruptedRows (laneOf (r.stateOf k)) <+: spanRows r₁
  /-- No preserved stack of the discontinuity itself is older than it. -/
  ownGaps : ∀ g ∈ r₁.gaps.drop r.gaps.length, g.kind = .traceBoundary →
    ∃ t, TimeOf k [d] t ∧ g.start = absTime t
  /-- Afterwards every open frame of the thread starts at a sample since `d`. -/
  frames : ∀ later, later <+: post → ∀ r₂, r₁.pushAll later = .ok r₂ →
    ∀ st, r₂.threads.get k = some st → ∀ o ∈ st.stack, TimeOf k (d :: later) o.startAbs
  /-- So does every row a later record of the thread emits, if its start is
  known, and every preserved stack it records. -/
  rows : ∀ later rec post', post = later ++ rec :: post' → actor rec = some k →
    ∀ r₂ r₃, r₁.pushAll later = .ok r₂ → r₂.push rec = .ok r₃ →
      (∀ s ∈ (spanRows r₃).drop (spanRows r₂).length,
        s.start = .unknown ∨ ∃ t, TimeOf k (d :: later ++ [rec]) t ∧ s.start = absTime t) ∧
      (∀ g ∈ r₃.gaps.drop r₂.gaps.length, g.kind = .traceBoundary →
        ∃ t, TimeOf k (d :: later ++ [rec]) t ∧ g.start = absTime t)

/-- Continuity ends at every discontinuity of the stream. -/
def NoContinuity (r₀ : Reconstructor) (recs : List RawRecord) : Prop :=
  ∀ pre d post, recs = pre ++ d :: post → ∀ r r₁ k, r₀.pushAll pre = .ok r →
    r.push d = .ok r₁ → Breaks r d k → Severed k d post r r₁

/-- No discontinuity arrives while a trace end of its thread is pending. -/
def CleanBreaks (r₀ : Reconstructor) (recs : List RawRecord) : Prop :=
  ∀ pre d post, recs = pre ++ d :: post → ∀ r k, r₀.pushAll pre = .ok r → Breaks r d k →
    (r.stateOf k).pendingEnd = none

variable {r r₀ r₁ r₂ r₃ : Reconstructor} {k : Key} {d rec : RawRecord}
  {recs post later : List RawRecord}

theorem TimeOf.mono {t : Option Nat} (h : TimeOf k recs t) {recs' : List RawRecord}
    (hsub : recs ⊆ recs') : TimeOf k recs' t := by
  obtain ⟨s, hs, hk, ht⟩ := h
  exact ⟨s, hsub hs, hk, ht⟩

theorem ensure_stateOf (r : Reconstructor) (k : Key) :
    ((ledger r).ensure k).lanes k = some (laneOf (r.stateOf k)) := by
  cases h : r.threads.get k with
  | none =>
    rw [ensure_lane (lanes_ledger_none.mpr h), stateOf, h]
    rfl
  | some st =>
    have hl : (ledger r).lanes k = some (laneOf st) := lanes_ledger.mpr ⟨st, h, rfl⟩
    simp only [ensure, hl]
    rw [stateOf, h]
    rfl

/-- A record other than of `k`'s, or one of `k` with its time, keeps what the
lane carries on. -/
theorem push_since {T : Option Nat → Prop} (h : r.push rec = .ok r₁)
    (hT : ∀ s, rec = .sample s → (s.pid, s.tid) = k → T s.timeNs) (hS : Since T k (ledger r)) :
    Since T k (ledger r₁) := by
  have hpush := push_ledger h
  split at hpush
  next => rw [hpush]; exact hS
  next => exact hpush.since_any hT hS

/-- The lane after the discontinuity, at any later state. -/
theorem pushAll_since (hS : Since (TimeOf k [d]) k (ledger r₁)) (hpre : later <+: post)
    (h : r₁.pushAll later = .ok r₂) : Since (TimeOf k (d :: later)) k (ledger r₂) := by
  refine foldlM_trace (P := fun later m => Since (TimeOf k (d :: later)) k (ledger m)) hS ?_
    later hpre r₂ h
  intro pre x tail m m' _ _ hP hx
  refine push_since hx ?_ (hP.mono fun t ht => ht.mono ?_)
  · rintro s rfl hk
    exact ⟨s, List.mem_cons_of_mem _ (List.mem_append_right _ (List.mem_singleton_self _)), hk, rfl⟩
  · exact List.cons_subset_cons _ (List.subset_append_left _ _)

theorem drop_append_length {α : Type} {a b c : List α} (h : b = a ++ c) :
    b.drop a.length = c := by
  rw [h, List.drop_left]

/-- Every discontinuity that finds nothing pending ends continuity. -/
theorem severed_of_clean (hpush : r.push d = .ok r₁) (hbreak : Breaks r d k)
    (hclean : (r.stateOf k).pendingEnd = none) : Severed k d post r r₁ := by
  obtain ⟨hdrop, hk, hkind⟩ := hbreak
  have hact := push_ledger hpush
  rw [hdrop, if_neg Bool.false_ne_true] at hact
  have hT : ∀ s, d = .sample s → TimeOf k [d] s.timeNs := by
    rintro s rfl
    exact ⟨s, List.mem_singleton_self _, Option.some.inj hk, rfl⟩
  obtain ⟨hrows, hsince, gaps, hgaps, hbound⟩ :=
    hact.severs hk (ensure_stateOf r k) hclean hkind hT
  refine ⟨hrows, ?_, ?_, ?_⟩
  · have hdropped : r₁.gaps.drop r.gaps.length = gaps := drop_append_length hgaps
    rw [hdropped]
    exact hbound
  · intro later hlater r₂ h₂ st hst o ho
    obtain ⟨hframes, -⟩ := pushAll_since hsince hlater h₂ (laneOf st)
      (lanes_ledger.mpr ⟨st, hst, rfl⟩)
    exact hframes _ (mem_frameTimes ho)
  · intro later rec post' hsplit hrec r₂ r₃ h₂ h₃
    have hlater : later <+: post := ⟨rec :: post', hsplit.symm⟩
    have hbefore := (pushAll_since hsince hlater h₂).mono fun t ht =>
      ht.mono (List.subset_append_left (d :: later) [rec])
    have hpush₃ := push_ledger h₃
    split at hpush₃
    next =>
      have hspans : spanRows r₃ = spanRows r₂ := congrArg Ledger.spans hpush₃
      have hgaps₃ : r₃.gaps = r₂.gaps := congrArg Ledger.gaps hpush₃
      rw [hspans, hgaps₃, List.drop_length, List.drop_length]
      exact ⟨List.forall_mem_nil _, List.forall_mem_nil _⟩
    next =>
      have htime : ∀ s, rec = .sample s → TimeOf k (d :: later ++ [rec]) s.timeNs := by
        rintro s rfl
        exact ⟨s, List.mem_append_right _ (List.mem_singleton_self _), Option.some.inj hrec, rfl⟩
      obtain ⟨-, rows, gaps₃, hrows₃, hgaps₃, hr, hg⟩ := hpush₃.since hrec htime hbefore
      have hspans : (spanRows r₃).drop (spanRows r₂).length = rows := drop_append_length hrows₃
      have hdropped : r₃.gaps.drop r₂.gaps.length = gaps₃ := drop_append_length hgaps₃
      rw [hspans, hdropped]
      exact ⟨hr, hg⟩

/-- In a stream whose discontinuities never find a trace end pending,
continuity ends at each of them. -/
theorem noContinuity_of_cleanBreaks (hclean : CleanBreaks r₀ recs) : NoContinuity r₀ recs := by
  intro pre d post hsplit r r₁ k hr hpush hbreak
  exact severed_of_clean hpush hbreak (hclean pre d post hsplit r k hr hbreak)

/-- A call cut short by a decoder error, and another call, dated before it. -/
def cutCalls : List RawRecord :=
  [branchAt 1 10 .CALL 100 200, errorAt 1 20, branchAt 1 5 .CALL 300 400]

/-- `noContinuity_of_cleanBreaks` on both discontinuities. -/
theorem noContinuity_cutCalls : NoContinuity bare cutCalls := by
  refine noContinuity_of_cleanBreaks ?_
  intro pre d post hsplit r k hr hbreak
  obtain ⟨-, hk, -⟩ := hbreak
  -- all records are of one thread, and nothing is pending at any of them
  have hthread : ∀ d ∈ cutCalls, actor d = some (7, 1) := by decide
  have hclean : ∀ pre ∈ cutCalls.inits, (bare.pushAll pre).toOption.any
      fun r => (r.stateOf (7, 1)).pendingEnd.isNone := by
    decide
  have hd : d ∈ cutCalls := hsplit ▸ List.mem_append_right _ List.mem_cons_self
  obtain rfl := Option.some.inj (hk.symm.trans (hthread d hd))
  have htest := hclean pre ((List.mem_inits _ _).mpr ⟨d :: post, hsplit.symm⟩)
  rw [hr] at htest
  exact Option.isNone_iff_eq_none.mp htest

/-- Tracing ends in `f`, a decoder error follows, and tracing begins in `f`. -/
def resumedAfterError : List RawRecord :=
  [mapped, branchAt 1 100 .TR_END 0x10 0, errorAt 1 150, branchAt 1 200 .TR_START 0 0x20]

/-- The trace end survives the error at 150: a preserved stack is recorded from
100 on, and the frame opened for it claims to have started at 100. -/
theorem resumedAfterError_continues :
    (∃ r, traced.pushAll resumedAfterError = .ok r ∧ ∃ g ∈ r.gaps, g.kind = .traceBoundary ∧
      g.start.relativeNs = some 100 ∧ g.stop.relativeNs = some 200) ∧
    ¬ NoContinuity traced resumedAfterError := by
  refine ⟨?_, fun h => ?_⟩
  · obtain ⟨r, hr, htest⟩ := ok_of_any (x := traced.pushAll resumedAfterError)
      (p := fun r => r.gaps.any fun g => g.kind == .traceBoundary &&
        (g.start.relativeNs == some 100 && g.stop.relativeNs == some 200)) (by decide)
    obtain ⟨g, hg, htest⟩ := List.any_eq_true.mp htest
    simp only [Bool.and_eq_true, beq_iff_eq] at htest
    exact ⟨r, hr, g, hg, htest.1, htest.2.1, htest.2.2⟩
  · obtain ⟨r, hr, hdrops⟩ := ok_of_any
      (x := traced.pushAll [mapped, branchAt 1 100 .TR_END 0x10 0])
      (p := fun r => !r.drops (errorAt 1 150)) (by decide)
    obtain ⟨r₂, hr₂, htest⟩ := ok_of_any (x := traced.pushAll resumedAfterError)
      (p := fun r => (r.threads.get (7, 1)).any fun st =>
        st.stack.any fun o => o.startAbs == some 100) (by decide)
    obtain ⟨r', hr', hrest⟩ := foldlM_append_ok.mp
      (show ([mapped, branchAt 1 100 .TR_END 0x10 0] ++
        [errorAt 1 150, branchAt 1 200 .TR_START 0 0x20]).foldlM push traced = .ok r₂ from hr₂)
    obtain rfl := Except.ok.inj (hr.symm.trans hr')
    obtain ⟨r₁, hpush, hlast⟩ := foldlM_cons_ok.mp hrest
    have hsevered := h _ _ _ rfl r r₁ (7, 1) hr hpush ⟨by simpa using hdrops, rfl, trivial⟩
    obtain ⟨st, hst, hstack⟩ := (Option.any_eq_true ..).mp htest
    obtain ⟨o, ho, hstart⟩ := List.any_eq_true.mp hstack
    obtain ⟨s, hs, -, htime⟩ := hsevered.frames _ List.prefix_rfl r₂ hlast st hst o ho
    -- The only sample since the error is dated 200.
    rw [beq_iff_eq.mp hstart] at htime
    simp only [errorAt, branchAt, List.mem_cons, List.not_mem_nil, or_false, reduceCtorEq,
      false_or, RawRecord.sample.injEq] at hs
    rw [hs] at htime
    cases htime

end TraceMcp.Decode
