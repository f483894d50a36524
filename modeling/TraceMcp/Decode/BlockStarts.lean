import TraceMcp.Decode.Identity
import TraceMcp.Decode.Resolution

/-!
# Where blocks start

Inline attribution counts the straight-line block from the target of one
sample to the source of the next. What those two samples are is said on the
stream: the `Trail` of a task is its last sample, its last time, and whether a
decoder error has named it since. The block start a thread carries is the one
behind the last sample of its trail, whatever has happened since
(`pushAll_starts`), so blocks are continuous exactly when no block is ended by
a sample on the other side of a decoder error or of a step back in time
(`blocks_continuous_iff`).
-/

namespace TraceMcp.Decode

open TraceMcp.Lib Ledger Reconstructor

/-- What a thread has done since it was first seen. -/
structure Trail where
  sample : Sample
  /-- Its last time; a sample need not have one. -/
  time : Option Nat
  /-- A decoder error has named it since the sample. -/
  broken : Bool

/-- The trail of task `k` after one more record. -/
def Trail.step (k : Key) (trail : Option Trail) : RawRecord → Option Trail
  | .sample s =>
    if (s.pid, s.tid) = k then some ⟨s, s.timeNs.or (trail.bind Trail.time), false⟩ else trail
  | .decoderError e =>
    if namedKey (.decoderError e) = some k then trail.map fun t => { t with broken := true }
    else trail
  | .task t => if t.kind = .exit ∧ (t.pid, t.tid) = k then none else trail
  | _ => trail

/-- The trail of task `k` in a stream; there is none before its first sample
and after its exit. -/
def trailOf (k : Key) (recs : List RawRecord) : Option Trail := recs.foldl (Trail.step k) none

/-- The trail before a sample is that of the sample before it: the block from
`a` to `b` was executed between the two. -/
def Continuous (trail : Option Trail) (s : Sample) (a b : Nat) : Prop :=
  ∃ t, trail = some t ∧ t.sample.addr = some a ∧ s.ip = some b ∧ t.broken = false ∧
    regresses t.time s.timeNs = false ∧ (flagsBoundary t.sample.flags).traceEnd = false ∧
    (flagsBoundary s.flags).traceBegin = false

/-- Every block a run attributes was executed from the target of one sample to
the source of the next one of the thread. -/
def BlocksContinuous (r₀ : Reconstructor) (recs : List RawRecord) : Prop :=
  ∀ pre s post r, recs = pre ++ .sample s :: post → r₀.pushAll pre = .ok r →
    r.drops (.sample s) = false → ∀ call,
      ((r.handed (.sample s)).attributing s).blockCall s = some call →
        Continuous (trailOf (s.pid, s.tid) (received r₀.pidFilter pre)) s call.1.1 call.2

/-- With inline attribution on, a sample that ends a block does not come after
a decoder error that named its thread since the block started, nor does it go
back in time. -/
def Unbroken (r₀ : Reconstructor) (recs : List RawRecord) : Prop :=
  r₀.inline.isSome → ∀ pre s post r, recs = pre ++ .sample s :: post → r₀.pushAll pre = .ok r →
    r.drops (.sample s) = false → s.ip.isSome → (flagsBoundary s.flags).traceBegin = false →
      ∀ t, trailOf (s.pid, s.tid) (received r₀.pidFilter pre) = some t →
        (nextBlock t.sample).isSome → t.broken = false ∧ regresses t.time s.timeNs = false

variable {r₀ r r' : Reconstructor} {recs : List RawRecord} {k : Key}

theorem trailOf_concat (k : Key) (recs : List RawRecord) (rec : RawRecord) :
    trailOf k (recs ++ [rec]) = Trail.step k (trailOf k recs) rec := by
  rw [trailOf, List.foldl_append]
  rfl

/-! ## Block starts -/

theorem nextBlock_eq_some {s : Sample} {start : Nat × Option Nat} (h : nextBlock s = some start) :
    s.addr = some start.1 ∧ (flagsBoundary s.flags).traceEnd = false := by
  unfold nextBlock at h
  dsimp only at h
  split at h
  next => cases h
  next hopen =>
    obtain ⟨a, ha, rfl⟩ := Option.map_eq_some_iff.mp h
    simp only [Bool.or_eq_true, not_or, Bool.not_eq_true] at hopen
    exact ⟨(Option.filter_eq_some_iff.mp ha).1, hopen.1.1⟩

/-- The block start and the last time a thread carries are those of a trail. -/
structure Starts (live : Option Runner) (trail : Option Trail) : Prop where
  start : live.bind Runner.blockStart = trail.bind fun t => nextBlock t.sample
  time : live.bind Runner.lastAbs = trail.bind Trail.time

theorem ensure_live_self (S : Symbols) (k : Key) (id : ThreadId) :
    ∃ w, (S.ensure k id).live k = some w ∧
      w.blockStart = (S.live k).bind Runner.blockStart ∧
      w.lastAbs = (S.live k).bind Runner.lastAbs := by
  unfold Symbols.ensure
  split
  next w hw => exact ⟨w, hw, by rw [hw]; rfl, by rw [hw]; rfl⟩
  next hnone => exact ⟨_, Function.update_self .., by rw [hnone]; rfl, by rw [hnone]; rfl⟩

theorem ensure_live_ne (S : Symbols) {k k' : Key} (hk : k' ≠ k) (id : ThreadId) :
    (S.ensure k id).live k' = S.live k' := by
  unfold Symbols.ensure
  split
  next => rfl
  next => exact Function.update_of_ne hk ..

theorem modRunner_live_self {S : Symbols} {k : Key} {w : Runner} (h : S.live k = some w)
    (f : Runner → Runner) : (S.modRunner k f).live k = some (f w) := by
  simp only [Symbols.modRunner, h, Function.update_self]

theorem modRunner_live_ne (S : Symbols) {k k' : Key} (hk : k' ≠ k) (f : Runner → Runner) :
    (S.modRunner k f).live k' = S.live k' := by
  unfold Symbols.modRunner
  split
  next => exact Function.update_of_ne hk ..
  next => rfl

theorem retire_live (S : Symbols) (k k' : Key) :
    (S.retire k).live k' = if k' = k then none else S.live k' := by
  unfold Symbols.retire
  split
  next =>
    by_cases hk : k' = k
    · rw [if_pos hk, hk]
      exact Function.update_self ..
    · rw [if_neg hk]
      exact Function.update_of_ne hk ..
  next hnone =>
    split
    next hk => rw [hk, hnone]
    next => rfl

/-- The runner of a sample's thread before its block is attributed. -/
theorem attributing_live (r : Reconstructor) (s : Sample) :
    ∃ w, (symbols (r.attributing s)).live (s.pid, s.tid) = some w ∧
      w.blockStart = ((symbols r).live (s.pid, s.tid)).bind Runner.blockStart ∧
      w.lastAbs = s.timeNs.or (((symbols r).live (s.pid, s.tid)).bind Runner.lastAbs) := by
  obtain ⟨w, hw, hstart, htime⟩ :=
    ensure_live_self (symbols r) (s.pid, s.tid) (r.threadIds.id s.pid s.tid)
  refine ⟨{ w with lastAbs := s.timeNs.or w.lastAbs }, ?_, hstart, by rw [htime]⟩
  rw [attributing_symbols]
  show (symbols (r.arrived s)).live (s.pid, s.tid) = _
  rw [arrived_symbols]
  exact modRunner_live_self hw _

theorem attributing_live_ne (r : Reconstructor) {s : Sample} (hk : k ≠ (s.pid, s.tid)) :
    (symbols (r.attributing s)).live k = (symbols r).live k := by
  rw [attributing_symbols]
  show (symbols (r.arrived s)).live k = _
  rw [arrived_symbols, Symbols.note, modRunner_live_ne _ hk, ensure_live_ne _ hk]

/-! ## Inline attribution is on or off for good -/

theorem attributeBlock_inline (pid start stop : Nat) (t0 t1 : Option Nat) :
    (r.attributeBlock k pid start stop t0 t1).inline.isSome = r.inline.isSome := by
  unfold attributeBlock
  split
  next hnone => rfl
  next inl hinl =>
    split
    next => rfl
    next =>
      dsimp only
      split
      next => rfl
      next => rw [hinl]; rfl

/-- The symbols of a sample whose block is attributed. -/
theorem attributed_symbols (s : Sample) (h : r.inline.isSome) : symbols (r.attributed s) =
    { symbols (r.attributing s) with tables := tables (r.attributed s) }.modRunner (s.pid, s.tid)
      fun w => { w with blockStart := nextBlock s } := by
  have hon : ¬ (r.attributing s).inline.isNone = true := by
    rw [attributing_inline, Option.isNone_iff_eq_none]
    exact Option.isSome_iff_ne_none.mp h
  unfold attributed
  rw [attributeSample_eq, if_neg hon]
  generalize r.attributing s = m
  have hblock : SameThreads m ((m.blockCall s).elim m fun call =>
      m.attributeBlock (s.pid, s.tid) s.pid call.1.1 call.2 call.1.2 s.timeNs) := by
    cases m.blockCall s with
    | none => exact ⟨rfl, rfl⟩
    | some call => exact attributeBlock_threads ..
  generalize (m.blockCall s).elim m _ = m' at hblock
  have hmod := modThread_runner (r := m') (k := (s.pid, s.tid))
    (f := fun st => { st with blockStart := nextBlock s })
    (g := fun w => { w with blockStart := nextBlock s }) (by intro st; rfl)
  have htables : tables (m'.modThread (s.pid, s.tid)
      fun st => { st with blockStart := nextBlock s }) = tables m' := by
    unfold modThread
    split <;> rfl
  rw [hmod, htables, hblock.symbols]

theorem attributed_inline (s : Sample) :
    (r.attributed s).inline.isSome = r.inline.isSome := by
  have hmod : ∀ (m : Reconstructor) (f : ThreadState → ThreadState),
      (m.modThread (s.pid, s.tid) f).inline = m.inline := by
    intro m f
    unfold modThread
    split <;> rfl
  rw [← attributing_inline r s]
  unfold attributed
  rw [attributeSample_eq]
  split
  next => rfl
  next =>
    rw [hmod]
    cases (r.attributing s).blockCall s with
    | none => rfl
    | some call => exact attributeBlock_inline ..

theorem push_inline {rec : RawRecord} (h : r.push rec = .ok r') :
    r'.inline.isSome = r.inline.isSome := by
  have hsymbols := congrArg (fun S => S.tables.inline.isSome) (push_symbols h)
  have hhanded : (r.handed rec).inline.isSome = r.inline.isSome :=
    congrArg (fun S => S.tables.inline.isSome) (handed_symbols rec)
  refine hsymbols.trans ?_
  split
  next => rfl
  next =>
    refine Eq.trans ?_ hhanded
    by_cases hsample : ∀ s, rec ≠ .sample s
    · exact congrArg Option.isSome (symbolsAfter_inline hsample)
    · push Not at hsample
      obtain ⟨s, rfl⟩ := hsample
      exact attributed_inline s

theorem pushAll_inline (h : r₀.pushAll recs = .ok r) : r.inline.isSome = r₀.inline.isSome :=
  foldlM_invariant (P := fun m => m.inline.isSome = r₀.inline.isSome)
    (fun _ _ _ _ hP hpush => (push_inline hpush).trans hP) rfl h

/-! ## Runs -/

/-- An accepted record keeps the starts and the trail together. -/
theorem symbolsAfter_starts {rec : RawRecord} {trails : Key → Option Trail}
    (hon : r.inline.isSome) (h : ∀ k, Starts ((symbols r).live k) (trails k)) (k : Key) :
    Starts ((r.symbolsAfter rec).live k) (Trail.step k (trails k) rec) := by
  cases rec with
  | sample s =>
    show Starts ((symbols (r.attributed s)).live k) (if (s.pid, s.tid) = k then _ else _)
    rw [attributed_symbols s hon]
    by_cases hk : (s.pid, s.tid) = k
    · subst hk
      obtain ⟨w, hw, -, htime⟩ := attributing_live r s
      have hself := modRunner_live_self
        (S := { symbols (r.attributing s) with tables := tables (r.attributed s) }) hw
        (fun w => { w with blockStart := nextBlock s })
      rw [if_pos rfl, hself]
      refine ⟨rfl, ?_⟩
      show w.lastAbs = _
      rw [htime, (h _).time]
      rfl
    · rw [if_neg hk, modRunner_live_ne _ (Ne.symm hk)]
      show Starts ((symbols (r.attributing s)).live k) _
      rw [attributing_live_ne r (Ne.symm hk)]
      exact h k
  | mmap m =>
    show Starts ((symbols (r.pushMmap m)).live k) _
    rw [(pushMmap_threads m).symbols]
    exact h k
  | switch => exact h k
  | lost => exact h k
  | task t =>
    show Starts ((if t.kind = .exit then (symbols r).retire (t.pid, t.tid)
      else symbols r).live k) (if t.kind = .exit ∧ (t.pid, t.tid) = k then none else trails k)
    by_cases hkind : t.kind = .exit
    · rw [if_pos hkind, retire_live]
      by_cases hk : (t.pid, t.tid) = k
      · rw [if_pos hk.symm, if_pos ⟨hkind, hk⟩]
        exact ⟨rfl, rfl⟩
      · rw [if_neg (Ne.symm hk), if_neg (fun hboth => hk hboth.2)]
        exact h k
    · rw [if_neg hkind, if_neg (fun hboth => hkind hboth.1)]
      exact h k
  | decoderError e =>
    show Starts (((namedKey (.decoderError e)).elim (symbols r) fun k' =>
      (symbols r).ensure k' (r.threadIds.id k'.1 k'.2)).live k)
        (if namedKey (.decoderError e) = some k then (trails k).map _ else trails k)
    cases hkey : namedKey (.decoderError e) with
    | none =>
      rw [if_neg (by simp)]
      exact h k
    | some k' =>
      show Starts (((symbols r).ensure k' _).live k) _
      by_cases hk : k' = k
      · subst hk
        -- the error is remembered by the trail, but not by the block start
        obtain ⟨w, hw, hstart, htime⟩ :=
          ensure_live_self (symbols r) k' (r.threadIds.id k'.1 k'.2)
        rw [if_pos rfl, hw]
        have hold := h k'
        refine ⟨?_, ?_⟩
        · show w.blockStart = _
          rw [hstart, hold.start, Option.bind_map]
          rfl
        · show w.lastAbs = _
          rw [htime, hold.time, Option.bind_map]
          rfl
      · rw [if_neg (fun hsome => hk (Option.some.inj hsome)), ensure_live_ne _ (Ne.symm hk)]
        exact h k

/-- The block start a thread carries is the one behind the last sample of its
trail. -/
theorem pushAll_starts (hbuilt : Built r₀) (hon : r₀.inline.isSome)
    (h : r₀.pushAll recs = .ok r) :
    r.inline.isSome ∧
      ∀ k, Starts ((symbols r).live k) (trailOf k (received r₀.pidFilter recs)) := by
  refine received_trace (P := fun kept m => m.inline.isSome ∧
    ∀ k, Starts ((symbols m).live k) (trailOf k kept)) ?_ ?_ ?_ h
  · refine ⟨hon, fun k => ?_⟩
    rw [hbuilt.unlearnt.live]
    exact ⟨rfl, rfl⟩
  · intro pre rec post m m' _ _ hdrop ⟨hinline, hstarts⟩ hpush
    refine ⟨(push_inline hpush).trans hinline, fun k => ?_⟩
    rw [trailOf_concat, push_symbols hpush, hdrop, if_neg Bool.false_ne_true]
    have hhanded : (m.handed rec).inline.isSome :=
      (congrArg (fun S => S.tables.inline.isSome) (handed_symbols rec)).trans hinline
    exact symbolsAfter_starts hhanded (fun k' => handed_symbols (r := m) rec ▸ hstarts k') k
  · intro kept rec m m' hdrop ⟨hinline, hstarts⟩ hpush
    refine ⟨(push_inline hpush).trans hinline, fun k => ?_⟩
    rw [push_symbols hpush, hdrop, if_pos rfl]
    exact hstarts k

/-- The block a sample ends is behind the last sample of its thread's trail. -/
theorem blockCall_eq_some {s : Sample} {call : (Nat × Option Nat) × Nat} (hbuilt : Built r₀)
    (hon : r₀.inline.isSome) (hpre : r₀.pushAll recs = .ok r) :
    ((r.handed (.sample s)).attributing s).blockCall s = some call ↔
      ∃ t, trailOf (s.pid, s.tid) (received r₀.pidFilter recs) = some t ∧
        nextBlock t.sample = some call.1 ∧ s.ip = some call.2 ∧
        (flagsBoundary s.flags).traceBegin = false := by
  obtain ⟨hinline, hstarts⟩ := pushAll_starts hbuilt hon hpre
  have hhanded : (r.handed (.sample s)).inline.isSome :=
    (congrArg (fun S => S.tables.inline.isSome) (handed_symbols (.sample s))).trans hinline
  have hlive := (hstarts (s.pid, s.tid)).start
  rw [← handed_symbols (.sample s)] at hlive
  generalize r.handed (.sample s) = m at hhanded hlive
  have hnone : ¬ (m.attributing s).inline.isNone = true := by
    rw [attributing_inline, Option.isNone_iff_eq_none]
    exact Option.isSome_iff_ne_none.mp hhanded
  obtain ⟨w, hw, hstart, -⟩ := attributing_live m s
  have hstate : ((m.attributing s).stateOf (s.pid, s.tid)).blockStart =
      (trailOf (s.pid, s.tid) (received r₀.pidFilter recs)).bind fun t => nextBlock t.sample := by
    rw [stateOf_blockStart, hw, ← hlive]
    exact hstart
  rw [blockCall, if_neg hnone, hstate]
  obtain ⟨start, stop⟩ := call
  cases trailOf (s.pid, s.tid) (received r₀.pidFilter recs) with
  | none => simp
  | some t =>
    rw [Option.bind_some]
    cases hnext : nextBlock t.sample with
    | none => simp [hnext]
    | some start' =>
      cases s.ip with
      | none => simp
      | some ip =>
        cases (flagsBoundary s.flags).traceBegin with
        | true => simp
        | false => simp [hnext]

/-- In every run, blocks are attributed to continuous execution only, exactly
when no block is ended across a decoder error or a step back in time. -/
theorem blocks_continuous_iff (hbuilt : Built r₀) :
    BlocksContinuous r₀ recs ↔ Unbroken r₀ recs := by
  constructor
  · intro hcont hon pre s post r hsplit hpre hdrop hip hbegin t ht hnext
    obtain ⟨start, hstart⟩ := Option.isSome_iff_exists.mp hnext
    obtain ⟨ip, hip⟩ := Option.isSome_iff_exists.mp hip
    obtain ⟨t', ht', -, -, hbroken, htime, -⟩ := hcont pre s post r hsplit hpre hdrop (start, ip)
      ((blockCall_eq_some hbuilt hon hpre).mpr ⟨t, ht, hstart, hip, hbegin⟩)
    obtain rfl := Option.some.inj (ht.symm.trans ht')
    exact ⟨hbroken, htime⟩
  · intro hun pre s post r hsplit hpre hdrop call hcall
    have hon : r₀.inline.isSome := by
      -- with inline attribution off there is no call
      by_contra hoff
      have hinline := pushAll_inline hpre
      have hhanded : (r.handed (.sample s)).inline = r.inline :=
        congrArg (fun S => S.tables.inline) (handed_symbols (.sample s))
      have hnone : ((r.handed (.sample s)).attributing s).inline.isNone = true := by
        rw [attributing_inline, hhanded, ← Option.not_isSome, hinline]
        simpa using hoff
      rw [blockCall, if_pos hnone] at hcall
      cases hcall
    obtain ⟨t, ht, hstart, hip, hbegin⟩ := (blockCall_eq_some hbuilt hon hpre).mp hcall
    obtain ⟨haddr, hend⟩ := nextBlock_eq_some hstart
    obtain ⟨hbroken, htime⟩ := hun hon pre s post r hsplit hpre hdrop
      (hip ▸ rfl) hbegin t ht (hstart ▸ rfl)
    exact ⟨t, ht, haddr, hip, hbroken, htime, hend, hbegin⟩

/-! ## A small image -/

/-- The tools for an image of one-byte instructions without debug information. -/
def nopTools : InlineTools :=
  ⟨fun bytes start stop => min bytes.length (stop + 1 - start), fun _ _ => []⟩

/-- A reconstructor with one image, one function of 64 `nop`s, that attributes
blocks. -/
def counting : Reconstructor :=
  (new "a" [⟨⟨"/bin/p", "h", none, true⟩, "p", List.replicate 64 0x90⟩]
    fun _ => ⟨[], [⟨"f", "f", 0, 0x1000⟩]⟩).withInlineAttribution nopTools

theorem built_counting : Built counting := .withInlineAttribution _ (.new ..)

/-- Two jumps with a decoder error between them. -/
def erroredBlock : List RawRecord :=
  [mapped, branchAt 1 10 .JMP 0x10 0x20, errorAt 1 15, branchAt 1 20 .JMP 0x30 0x40]

/-- The block from the first jump to the second is attributed across the error. -/
theorem blocks_discontinuous : ¬ BlocksContinuous counting erroredBlock := by
  intro h
  obtain ⟨r, hpre, htest⟩ := ok_of_any
    (x := counting.pushAll [mapped, branchAt 1 10 .JMP 0x10 0x20, errorAt 1 15])
    (p := fun r =>
      let s : Sample := ⟨7, 1, some 0, some 20, .branches, some 0x30, some 0x40, .JMP, none, .empty⟩
      decide (((r.handed (.sample s)).attributing s).blockCall s = some ((0x20, some 10), 0x30))
        && !r.drops (.sample s))
    (by decide)
  obtain ⟨hcall, hkept⟩ := Bool.and_eq_true_iff.mp htest
  obtain ⟨t, ht, -, -, hbroken, -⟩ := h _ _ [] r rfl hpre (by simpa using hkept) _
    (of_decide_eq_true hcall)
  have htrail : (trailOf (7, 1) (received counting.pidFilter
      [mapped, branchAt 1 10 .JMP 0x10 0x20, errorAt 1 15])).any (·.broken) = true := by decide
  rw [ht, Option.any_some, hbroken] at htrail
  cases htrail

/-- The same jumps without the error. -/
def twoJumps : List RawRecord :=
  [mapped, branchAt 1 10 .JMP 0x10 0x20, branchAt 1 20 .JMP 0x30 0x40]

theorem twoJumps_unbroken : Unbroken counting twoJumps := by
  intro _ pre s post r hsplit _ _ _ _ t ht _
  rcases pre with _ | ⟨a, _ | ⟨b, _ | ⟨c, pre⟩⟩⟩
  · cases hsplit
  · cases hsplit
    cases ht
  · cases hsplit
    cases ht
    exact ⟨rfl, rfl⟩
  · simp [twoJumps] at hsplit

/-- `blocks_continuous_iff` on two jumps. -/
theorem blocks_continuous_iff_twoJumps : Built counting ∧ BlocksContinuous counting twoJumps :=
  ⟨built_counting, (blocks_continuous_iff built_counting).mpr twoJumps_unbroken⟩

end TraceMcp.Decode
