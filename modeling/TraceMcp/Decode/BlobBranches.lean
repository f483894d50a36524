import TraceMcp.Decode.BlobHistory

/-!
# The branches of a decode

A branch is told in two parts: the block it ends, and where the trace is next.
`Branch` says which samples they make: nothing in between may say where the trace
went, no event and no error. These are the branches of the output
(`run_branches`), but that a disable without an ip is folded into the last of
them, and the task of each is the one that runs when its target is known.
-/

namespace TraceMcp.Decode.Blob

open TraceMcp.Lib

/-- Nothing is told of where the trace goes. -/
def Answer.Silent : Answer → Prop
  | .block b _ => b.ninsn = 0
  | .event _ ev => ev.type = .other
  | .settled _ => True
  | .unsynced _ => True
  | .stuck _ _ => False
  | .failed _ _ => False

/-- The answer tells where the branch of a block went, with the flags that come
with it: into the next block, or out of what is traced. -/
def Answer.Arrives (cls : Class) (target : UInt64) (extra : Flags) : Answer → Prop
  | .block b _ => b.ninsn ≠ 0 ∧ b.ip = target ∧ extra = .EMPTY
  | .event _ ev =>
    cls ≠ .farCall ∧ (ev.type = .asyncDisabled target ∧ extra = .EMPTY ∨
      ev.type = .disabled target ∧ ev.ipSuppressed = false ∧ extra = .TR_END)
  | _ => False

/-- The time of the last block told. -/
def lastTime (ctx : Context) : List Answer → Option Nat
  | [] => none
  | .block _ tsc :: told => (ctx.ns tsc).or (lastTime ctx told)
  | .stuck _ tsc :: told => (ctx.ns (tsc.filter (· ≠ u64Max))).or (lastTime ctx told)
  | _ :: told => lastTime ctx told

/-- The times it was asked for who runs: of each event, and behind them. -/
def asked (ctx : Context) : List Answer → List Nat
  | [] => []
  | .event _ ev :: told => ((ctx.ns ev.tsc).or (lastTime ctx told)).toList ++ asked ctx told
  | .settled tsc :: told => ((ctx.ns tsc).or (lastTime ctx told)).toList ++ asked ctx told
  | _ :: told => asked ctx told

/-- The task of the last switch up to the latest of these times. -/
def runs (ctx : Context) (told : List Answer) : Nat × Nat :=
  runningAt ctx.schedule (asked ctx told).max?

/-- What a block leaves open. -/
def Block.prev (b : Block) (time : Option Nat) : Prev := ⟨b.endIp, b.cls, time, b.size⟩

/-- `s` is the branch of a block `b` to `target`. -/
def Branch (ctx : Context) (told : List Answer) (s : Sample) : Prop :=
  ∃ later a between b tsc older target extra,
    told = later ++ a :: (between ++ .block b tsc :: older) ∧
    b.ninsn ≠ 0 ∧ (∀ x ∈ between, x.Silent) ∧ a.Arrives b.cls target extra ∧
    takenTo ctx (runs ctx (a :: (between ++ .block b tsc :: older))).1
      (b.prev (lastTime ctx (.block b tsc :: older))) target = true ∧
    s = branchSample ctx.cpu (runs ctx (a :: (between ++ .block b tsc :: older))).1
      (runs ctx (a :: (between ++ .block b tsc :: older))).2 (lastTime ctx (.block b tsc :: older))
      b.endIp.toNat target.toNat (b.cls.flags.union extra)

/-- A sample that is no boundary. -/
def Plain (s : Sample) : Prop :=
  s.event = .branches ∧ s.flags.has .TR_START = false ∧ s.flags.has .TR_END = false ∧
    s.flags.has .HW_INT = false

/-- A sample with a disable folded into it. -/
def ended (s : Sample) : Sample := { s with flags := s.flags.union .TR_END }

/-! ## What the history knows -/

variable {ctx : Context} {told : List Answer} {a : Answer} {h : History} {s : Sample}

theorem history_cons : history ctx (a :: told) = (history ctx told).tell ctx a := rfl

theorem max?_ask (time : Option Nat) (times : List Nat) :
    Option.merge max times.max? time = (time.toList ++ times).max? := by
  cases time with
  | none => rw [Option.merge_none_right, Option.toList_none, List.nil_append]
  | some t =>
    rw [Option.toList_some, List.singleton_append, List.max?_cons]
    cases times.max? with
    | none => rfl
    | some u => exact congrArg some (Nat.max_comm u t)

theorem enter_knows (b : Block) : (h.enter ctx b).time = h.time ∧
    (h.enter ctx b).latest = h.latest ∧ (h.enter ctx b).open_ = h.open_ := by
  unfold History.enter
  split
  next => exact ⟨rfl, rfl, rfl⟩
  next => exact ⟨rfl, rfl, rfl⟩

theorem block_knows (b : Block) (time : Option Nat) : (h.block ctx b time).time = time ∧
    (h.block ctx b time).latest = h.latest ∧
      (h.block ctx b time).open_ = if b.ninsn = 0 then h.open_ else some (b.prev time) := by
  obtain ⟨htime, hlatest, hopen⟩ := @enter_knows ctx { h with time := time } b
  unfold History.block
  dsimp only
  split
  next => exact ⟨htime, hlatest, hopen⟩
  next => exact ⟨htime, hlatest, rfl⟩

theorem disabled_knows (b : Block) (suppressed : Bool) (ip : UInt64) (time : Option Nat) :
    (h.disabled ctx b suppressed ip time).time = h.time ∧
      (h.disabled ctx b suppressed ip time).latest = h.latest ∧
      (h.disabled ctx b suppressed ip time).open_ = none := by
  unfold History.disabled
  split
  next => exact ⟨rfl, rfl, rfl⟩
  next =>
    split
    next => exact ⟨rfl, rfl, rfl⟩
    next => exact ⟨rfl, rfl, rfl⟩

theorem event_knows (b : Block) (ev : Event) : (h.event ctx b ev).time = h.time ∧
    (h.event ctx b ev).latest = Option.merge max h.latest ((ctx.ns ev.tsc).or h.time) ∧
      (h.event ctx b ev).open_ = if ev.type = .other then h.open_ else none := by
  unfold History.event
  dsimp only
  cases ev.type with
  | enabled ip => exact ⟨rfl, rfl, rfl⟩
  | disabled ip => exact disabled_knows b ev.ipSuppressed ip _
  | asyncDisabled ip => exact ⟨rfl, rfl, rfl⟩
  | asyncBranch source target => exact ⟨rfl, rfl, rfl⟩
  | overflow => exact ⟨rfl, rfl, rfl⟩
  | other => exact ⟨rfl, rfl, rfl⟩

theorem settled_knows (time : Option Nat) : (h.settled ctx time).time = h.time ∧
    (h.settled ctx time).latest = Option.merge max h.latest time ∧
      (h.settled ctx time).open_ = h.open_ := by
  unfold History.settled
  dsimp only
  split
  next => exact ⟨rfl, rfl, rfl⟩
  next => exact ⟨rfl, rfl, rfl⟩

theorem history_time : (history ctx told).time = lastTime ctx told := by
  induction told with
  | nil => rfl
  | cons a told ih =>
    rw [history_cons]
    cases a with
    | block b tsc => rw [History.tell, (block_knows ..).1, ih]; rfl
    | stuck b tsc => rw [History.tell, ih]; rfl
    | failed e tsc => exact ih
    | unsynced e => exact ih
    | event b ev => rw [History.tell, (event_knows ..).1]; exact ih
    | settled tsc => rw [History.tell, (settled_knows ..).1]; exact ih

theorem history_latest : (history ctx told).latest = (asked ctx told).max? := by
  induction told with
  | nil => rfl
  | cons a told ih =>
    rw [history_cons]
    cases a with
    | block b tsc => rw [History.tell, (block_knows ..).2.1]; exact ih
    | stuck b tsc => exact ih
    | failed e tsc => exact ih
    | unsynced e => exact ih
    | event b ev => rw [History.tell, (event_knows ..).2.1, ih, history_time, max?_ask]; rfl
    | settled tsc => rw [History.tell, (settled_knows ..).2.1, ih, history_time, max?_ask]; rfl

theorem history_runner : (history ctx told).runner ctx = runs ctx told := by
  rw [History.runner, history_latest, runs]

/-- The open block is the last one, if nothing was told of its branch. -/
theorem history_open {p : Prev} : (history ctx told).open_ = some p ↔
    ∃ between b tsc older, told = between ++ .block b tsc :: older ∧ b.ninsn ≠ 0 ∧
      (∀ x ∈ between, x.Silent) ∧ p = b.prev (lastTime ctx (.block b tsc :: older)) := by
  induction told with
  | nil =>
    constructor
    · intro h
      cases h
    · rintro ⟨between, b, tsc, older, hnil, -⟩
      exact absurd hnil.symm (List.append_ne_nil_of_right_ne_nil _ (List.cons_ne_nil _ _))
  | cons a told ih =>
    -- an answer opens a block, leaves the open one, or closes it
    have hstep : (history ctx (a :: told)).open_ = some p ↔
        (∃ b tsc, a = .block b tsc ∧ b.ninsn ≠ 0 ∧ p = b.prev (lastTime ctx (a :: told))) ∨
          a.Silent ∧ (history ctx told).open_ = some p := by
      rw [history_cons]
      cases a with
      | block b tsc =>
        rw [History.tell, (block_knows ..).2.2, history_time]
        by_cases hempty : b.ninsn = 0
        · rw [if_pos hempty]
          constructor
          · exact fun hp => .inr ⟨hempty, hp⟩
          · rintro (⟨_, _, heq, hne, -⟩ | ⟨-, hp⟩)
            · cases heq
              exact absurd hempty hne
            · exact hp
        · rw [if_neg hempty]
          constructor
          · exact fun hp => .inl ⟨b, tsc, rfl, hempty, (Option.some.inj hp).symm⟩
          · rintro (⟨_, _, heq, -, rfl⟩ | ⟨hzero, -⟩)
            · cases heq
              rfl
            · exact absurd hzero hempty
      | stuck b tsc =>
        constructor
        · intro hp
          cases hp
        · rintro (⟨_, _, heq, -⟩ | ⟨hno, -⟩)
          · cases heq
          · exact absurd hno id
      | failed e tsc =>
        constructor
        · intro hp
          cases hp
        · rintro (⟨_, _, heq, -⟩ | ⟨hno, -⟩)
          · cases heq
          · exact absurd hno id
      | unsynced e =>
        constructor
        · exact fun hp => .inr ⟨trivial, hp⟩
        · rintro (⟨_, _, heq, -⟩ | ⟨-, hp⟩)
          · cases heq
          · exact hp
      | event b ev =>
        rw [History.tell, (event_knows ..).2.2]
        by_cases hother : ev.type = .other
        · rw [if_pos hother]
          constructor
          · exact fun hp => .inr ⟨hother, hp⟩
          · rintro (⟨_, _, heq, -⟩ | ⟨-, hp⟩)
            · cases heq
            · exact hp
        · rw [if_neg hother]
          constructor
          · intro hp
            cases hp
          · rintro (⟨_, _, heq, -⟩ | ⟨hno, -⟩)
            · cases heq
            · exact absurd hno hother
      | settled tsc =>
        rw [History.tell, (settled_knows ..).2.2]
        constructor
        · exact fun hp => .inr ⟨trivial, hp⟩
        · rintro (⟨_, _, heq, -⟩ | ⟨-, hp⟩)
          · cases heq
          · exact hp
    rw [hstep, ih]
    constructor
    · rintro (⟨b, tsc, rfl, hne, rfl⟩ | ⟨hsilent, between, b, tsc, older, rfl, hne, hbetween, rfl⟩)
      · exact ⟨[], b, tsc, told, rfl, hne, fun x hx => absurd hx List.not_mem_nil, rfl⟩
      · exact ⟨a :: between, b, tsc, older, rfl, hne, List.forall_mem_cons.mpr ⟨hsilent, hbetween⟩, rfl⟩
    · rintro ⟨between, b, tsc, older, heq, hne, hbetween, rfl⟩
      cases between with
      | nil =>
        obtain ⟨rfl, rfl⟩ := List.cons.inj heq
        exact .inl ⟨b, tsc, rfl, hne, rfl⟩
      | cons x between =>
        obtain ⟨rfl, rfl⟩ := List.cons.inj heq
        obtain ⟨hx, hbetween⟩ := List.forall_mem_cons.mp hbetween
        exact .inr ⟨hx, between, b, tsc, older, rfl, hne, hbetween, rfl⟩

/-! ## What an answer adds -/

/-- The answer tells where the branch of the open block went. -/
def Adds (ctx : Context) (h : History) (a : Answer) (s : Sample) : Prop :=
  ∃ p target extra, h.open_ = some p ∧ a.Arrives p.cls target extra ∧
    takenTo ctx ((h.tell ctx a).runner ctx).1 p target = true ∧
    s = branchSample ctx.cpu ((h.tell ctx a).runner ctx).1 ((h.tell ctx a).runner ctx).2 p.time
      p.endIp.toNat target.toNat (p.cls.flags.union extra)

theorem mem_branch {target : UInt64} {extra : Flags} {o : Option Prev} {e : Emitted} :
    e ∈ (h.branch ctx target extra o).out ↔ e ∈ h.out ∨ ∃ p, o = some p ∧
      e = h.sample ctx p.time p.endIp.toNat target.toNat (p.cls.flags.union extra) := by
  unfold History.branch History.say
  rw [List.mem_append, List.mem_map]
  refine or_congr_right ?_
  simp only [Option.mem_toList, eq_comm]

theorem taken_iff {target : UInt64} {p : Prev} : h.taken ctx target = some p ↔
    h.open_ = some p ∧ takenTo ctx (h.runner ctx).1 p target = true := by
  rw [History.taken, Option.filter_eq_some_iff]

theorem pending_iff {target : UInt64} {p : Prev} : h.pending ctx target = some p ↔
    h.open_ = some p ∧ p.cls ≠ .farCall ∧ takenTo ctx (h.runner ctx).1 p target = true := by
  rw [History.pending, Option.filter_eq_some_iff, taken_iff, decide_eq_true_iff, and_assoc]
  exact and_congr_right fun _ => and_comm

theorem instructionsFrom_event (sample : UInt64 → Nat → InsnBytes → Sample)
    (hsample : ∀ ip len insn, (sample ip len insn).event = .instructions) (stop : UInt64) (n : Nat)
    (ip : UInt64) (data : List UInt8) :
    ∀ s ∈ ctx.instructionsFrom sample stop n ip data, s.event = .instructions := by
  induction n generalizing ip data with
  | zero => exact fun s hs => absurd hs List.not_mem_nil
  | succ n ih =>
    intro s hs
    unfold Context.instructionsFrom at hs
    split at hs
    next => cases hs
    next =>
      split at hs
      next => cases hs
      next len _ =>
        rcases List.mem_cons.mp hs with rfl | hs
        · exact hsample _ _ _
        · split at hs
          next => cases hs
          next => exact ih _ _ s hs

/-- Instruction detail is no branch. -/
theorem detail_plain (b : Block) (time : Option Nat) (hs : .sample s ∈ h.detail ctx b time) :
    ¬ Plain s := by
  have hall : ∀ s ∈ ctx.emitInstructions b (h.runner ctx).1 (h.runner ctx).2 time,
      s.event = .instructions := by
    unfold Context.emitInstructions
    split
    next => exact fun s hs => absurd hs List.not_mem_nil
    next =>
      split
      next => exact fun s hs => absurd hs List.not_mem_nil
      next =>
        split
        next => exact fun s hs => absurd hs List.not_mem_nil
        next => exact instructionsFrom_event _ (fun _ _ _ => rfl) _ _ _ _
  unfold History.detail at hs
  split at hs
  next => cases hs
  next =>
    split at hs
    next hwin =>
      obtain ⟨s', hs', heq⟩ := List.mem_map.mp hs
      cases heq
      rw [hwin.1] at hall
      rintro ⟨hevent, -⟩
      rw [hall s hs'] at hevent
      cases hevent
    next => cases hs

/-- A flag is in a union. -/
theorem has_union_left (f g k : Flags) (h : f.has k = true) : (f.union g).has k = true := by
  unfold Flags.has Flags.union at *
  simp only [bne_iff_ne, ne_eq] at h ⊢
  intro hzero
  apply h
  rw [BitVec.and_or_distrib_right] at hzero
  exact (BitVec.or_eq_zero_iff.mp hzero).1

theorem has_union_right (f g k : Flags) (h : g.has k = true) : (f.union g).has k = true := by
  have hcomm : f.union g = g.union f := by
    unfold Flags.union
    rw [BitVec.or_comm]
  rw [hcomm]
  exact has_union_left g f k h

theorem not_plain (h : s.flags.has .TR_START = true ∨ s.flags.has .TR_END = true ∨
    s.flags.has .HW_INT = true) : ¬ Plain s := by
  rintro ⟨-, hstart, hend, hint⟩
  rw [hstart, hend, hint] at h
  rcases h with h | h | h
  · cases h
  · cases h
  · cases h

theorem ended_not_plain : ¬ Plain (ended s) :=
  not_plain (.inr (.inl (has_union_right _ _ _ (by decide))))

/-- A boundary is no branch. -/
theorem cut_plain {e : Emitted} (he : ∀ s, e = .sample s → ¬ Plain s) (hplain : Plain s)
    (hs : .sample s ∈ (h.cut e).out) : .sample s ∈ h.out := by
  rcases List.mem_append.mp hs with hs | hs
  · exact hs
  · exact absurd hplain (he s (List.mem_singleton.mp hs).symm)

theorem sample_plain {time : Option Nat} {ip addr : Nat} {flags : Flags}
    (hflags : flags.has .TR_START = true ∨ flags.has .TR_END = true ∨ flags.has .HW_INT = true) :
    ∀ s, h.sample ctx time ip addr flags = .sample s → ¬ Plain s := by
  intro s heq
  cases heq
  exact not_plain hflags

/-- A disable is folded into a branch, is one, or is a boundary. -/
theorem disabled_plain {b : Block} {suppressed : Bool} {ip : UInt64} {time : Option Nat}
    (hplain : Plain s) (hs : .sample s ∈ (h.disabled ctx b suppressed ip time).out) :
    .sample s ∈ h.out ∨ ∃ p, h.pending ctx ip = some p ∧ suppressed = false ∧
      .sample s = h.sample ctx p.time p.endIp.toNat ip.toNat (p.cls.flags.union .TR_END) := by
  unfold History.disabled at hs
  split at hs
  next i sm _ =>
    rcases List.mem_or_eq_of_mem_set hs with hs | heq
    · exact .inl hs
    · exact absurd hplain (Emitted.sample.inj heq ▸ ended_not_plain (s := sm))
  next =>
    split at hs
    next p hp =>
      rcases mem_branch.mp hs with hs | ⟨q, hq, heq⟩
      · exact .inl hs
      · cases hq
        cases suppressed with
        | true => cases hp
        | false => exact .inr ⟨p, hp, rfl, heq⟩
    next =>
      exact .inl (cut_plain (sample_plain (.inr (.inl (has_union_left _ _ _ (by decide))))) hplain hs)

/-- A plain sample is new only where the branch of the open block arrives. -/
theorem tell_plain (hplain : Plain s) (hs : .sample s ∈ (h.tell ctx a).out) :
    .sample s ∈ h.out ∨ Adds ctx h a s := by
  cases a with
  | block b tsc =>
    have hrunner : (h.block ctx b ((ctx.ns tsc).or h.time)).runner ctx = h.runner ctx := by
      rw [History.runner, (block_knows ..).2.1]
      rfl
    have hout : ∀ e ∈ (h.block ctx b ((ctx.ns tsc).or h.time)).out,
        e ∈ ({ h with time := (ctx.ns tsc).or h.time }.enter ctx b).out ∨
          ∃ h', e ∈ History.detail ctx h' b ((ctx.ns tsc).or h.time) := by
      intro e he
      unfold History.block at he
      dsimp only at he
      split at he
      next => exact (List.mem_append.mp he).imp id fun he => ⟨_, he⟩
      next => exact (List.mem_append.mp he).imp id fun he => ⟨_, he⟩
    -- a block adds the branch into it and its instructions, which are no branches
    rcases hout _ hs with hs | ⟨h', hs⟩
    · unfold History.enter at hs
      split at hs
      next => exact .inl hs
      next hne =>
        rcases mem_branch.mp hs with hs | ⟨p, hp, heq⟩
        · exact .inl hs
        · obtain ⟨hopen, htaken⟩ := taken_iff.mp hp
          refine .inr ⟨p, b.ip, .EMPTY, hopen, ⟨hne, rfl, rfl⟩, ?_, ?_⟩
          · rw [History.tell, hrunner]
            exact htaken
          · rw [History.tell, hrunner]
            exact Emitted.sample.inj heq
    · exact absurd hplain (detail_plain b _ hs)
  | stuck b tsc => exact .inl (cut_plain (fun s heq => by cases heq) hplain hs)
  | failed e tsc =>
    refine .inl ?_
    unfold History.tell History.failed at hs
    dsimp only [History.say] at hs
    rcases List.mem_append.mp hs with hs | hs
    · exact hs
    · split at hs
      next => cases hs
      next => cases List.mem_singleton.mp hs
  | unsynced e =>
    rcases List.mem_append.mp hs with hs | hs
    · exact .inl hs
    · cases List.mem_singleton.mp hs
  | event b ev =>
    have hrunner : (h.event ctx b ev).runner ctx =
        (h.ask ((ctx.ns ev.tsc).or h.time)).runner ctx := by
      rw [History.runner, (event_knows ..).2.1]
      rfl
    have hadds : ∀ {p target extra}, (h.ask ((ctx.ns ev.tsc).or h.time)).pending ctx target = some p →
        (Answer.event b ev).Arrives p.cls target extra →
        .sample s = (h.ask ((ctx.ns ev.tsc).or h.time)).sample ctx p.time p.endIp.toNat target.toNat
          (p.cls.flags.union extra) → Adds ctx h (.event b ev) s := by
      intro p target extra hp harrives heq
      obtain ⟨hopen, -, htaken⟩ := pending_iff.mp hp
      refine ⟨p, target, extra, hopen, harrives, ?_, ?_⟩
      · rw [History.tell, hrunner]
        exact htaken
      · rw [History.tell, hrunner]
        exact Emitted.sample.inj heq
    change Emitted.sample s ∈ (h.event ctx b ev).out at hs
    unfold History.event at hs
    dsimp only at hs
    have hout : (h.ask ((ctx.ns ev.tsc).or h.time)).out = h.out := rfl
    generalize h.ask ((ctx.ns ev.tsc).or h.time) = h' at hs hadds hout
    -- a branch can arrive at a disable; the other events are boundaries
    cases hev : ev.type with
    | enabled ip =>
      rw [hev] at hs
      exact .inl (hout ▸ cut_plain (sample_plain (.inl (by decide))) hplain hs)
    | disabled ip =>
      rw [hev] at hs
      rcases disabled_plain hplain hs with hs | ⟨p, hp, hsuppressed, heq⟩
      · exact .inl (hout ▸ hs)
      · exact .inr (hadds hp ⟨(pending_iff.mp hp).2.1, .inr ⟨hev, hsuppressed, rfl⟩⟩ heq)
    | asyncDisabled ip =>
      rw [hev] at hs
      have hs := cut_plain (sample_plain (.inr (.inl (by decide)))) hplain hs
      rcases mem_branch.mp hs with hs | ⟨p, hp, heq⟩
      · exact .inl (hout ▸ hs)
      · exact .inr (hadds hp ⟨(pending_iff.mp hp).2.1, .inl ⟨hev, rfl⟩⟩ heq)
    | asyncBranch source target =>
      rw [hev] at hs
      exact .inl (hout ▸ cut_plain (sample_plain (.inr (.inr (by decide)))) hplain hs)
    | overflow =>
      rw [hev] at hs
      exact .inl (hout ▸ cut_plain (fun s heq => by cases heq) hplain hs)
    | other =>
      rw [hev] at hs
      exact .inl (hout ▸ hs)
  | settled tsc =>
    refine .inl ?_
    unfold History.tell History.settled at hs
    dsimp only at hs
    split at hs
    next => exact hs
    next => exact hs

/-- Where the branch of the open block arrives, its sample is new. -/
theorem tell_adds (hadds : Adds ctx h a s) : .sample s ∈ (h.tell ctx a).out := by
  obtain ⟨p, target, extra, hopen, harrives, htaken, rfl⟩ := hadds
  cases a with
  | block b tsc =>
    obtain ⟨hne, rfl, rfl⟩ := harrives
    have hrunner : (h.block ctx b ((ctx.ns tsc).or h.time)).runner ctx = h.runner ctx := by
      rw [History.runner, (block_knows ..).2.1]
      rfl
    rw [History.tell, hrunner] at htaken ⊢
    have henter : .sample (branchSample ctx.cpu (h.runner ctx).1 (h.runner ctx).2 p.time p.endIp.toNat
        b.ip.toNat (p.cls.flags.union .EMPTY)) ∈
          ({ h with time := (ctx.ns tsc).or h.time }.enter ctx b).out := by
      unfold History.enter
      rw [if_neg hne]
      exact mem_branch.mpr (.inr ⟨p, taken_iff.mpr ⟨hopen, htaken⟩, rfl⟩)
    unfold History.block
    dsimp only
    split
    next => exact List.mem_append_left _ henter
    next => exact List.mem_append_left _ henter
  | event b ev =>
    have hrunner : (h.event ctx b ev).runner ctx =
        (h.ask ((ctx.ns ev.tsc).or h.time)).runner ctx := by
      rw [History.runner, (event_knows ..).2.1]
      rfl
    obtain ⟨hcls, harrives⟩ := harrives
    rw [History.tell, hrunner] at htaken ⊢
    have hpending : (h.ask ((ctx.ns ev.tsc).or h.time)).pending ctx target = some p :=
      pending_iff.mpr ⟨hopen, hcls, htaken⟩
    have hbranch : ∀ extra, .sample (branchSample ctx.cpu
        ((h.ask ((ctx.ns ev.tsc).or h.time)).runner ctx).1
        ((h.ask ((ctx.ns ev.tsc).or h.time)).runner ctx).2 p.time p.endIp.toNat target.toNat
        (p.cls.flags.union extra)) ∈
          ((h.ask ((ctx.ns ev.tsc).or h.time)).branch ctx target extra (some p)).out :=
      fun extra => mem_branch.mpr (.inr ⟨p, rfl, rfl⟩)
    unfold History.event
    dsimp only
    rcases harrives with ⟨hev, rfl⟩ | ⟨hev, hsuppressed, rfl⟩
    · rw [hev]
      dsimp only
      rw [hpending]
      exact List.mem_append_left _ (hbranch .EMPTY)
    · rw [hev]
      dsimp only
      unfold History.disabled
      simp only [hsuppressed, Bool.false_eq_true, if_false, hpending]
      exact hbranch .TR_END
  | stuck b tsc => exact absurd harrives id
  | failed e tsc => exact absurd harrives id
  | unsynced e => exact absurd harrives id
  | settled tsc => exact absurd harrives id

/-- An answer adds to the output, or folds a disable into a sample of it. -/
theorem tell_out (h : History) (a : Answer) : (∃ es, (h.tell ctx a).out = h.out ++ es) ∨
    ∃ i sm, h.out[i]? = some (.sample sm) ∧
      (h.tell ctx a).out = h.out.set i (.sample (ended sm)) := by
  have hsame : ∃ es, h.out = h.out ++ es := ⟨[], (List.append_nil _).symm⟩
  cases a with
  | block b tsc =>
    have henter : ∃ es, ({ h with time := (ctx.ns tsc).or h.time }.enter ctx b).out = h.out ++ es := by
      unfold History.enter
      split
      next => exact hsame
      next => exact ⟨_, rfl⟩
    obtain ⟨es, henter⟩ := henter
    refine .inl ⟨es ++ History.detail ctx ({ h with time := (ctx.ns tsc).or h.time }.enter ctx b) b
      ((ctx.ns tsc).or h.time), ?_⟩
    rw [← List.append_assoc, ← henter]
    unfold History.tell History.block
    dsimp only
    split
    next => rfl
    next => rfl
  | stuck b tsc => exact .inl ⟨_, rfl⟩
  | failed e tsc => exact .inl ⟨_, rfl⟩
  | unsynced e => exact .inl ⟨_, rfl⟩
  | event b ev =>
    unfold History.tell History.event
    dsimp only
    cases ev.type with
    | enabled ip => exact .inl ⟨_, rfl⟩
    | disabled ip =>
      dsimp only
      unfold History.disabled
      split
      -- only a disable without an address folds
      next i sm hfold =>
        refine .inr ⟨i, sm, ?_, rfl⟩
        cases hsuppressed : ev.ipSuppressed with
        | true =>
          rw [hsuppressed, if_pos rfl] at hfold
          unfold History.folded at hfold
          split at hfold
          next => cases hfold
          next =>
            obtain ⟨j, -, hj⟩ := Option.bind_eq_some_iff.mp hfold
            split at hj
            next sm' hget =>
              split at hj
              next =>
                cases hj
                exact hget
              next => cases hj
            next => cases hj
        | false =>
          rw [hsuppressed] at hfold
          cases hfold
      next =>
        split
        next => exact .inl ⟨_, rfl⟩
        next => exact .inl ⟨_, rfl⟩
    | asyncDisabled ip => exact .inl ⟨_, List.append_assoc ..⟩
    | asyncBranch source target => exact .inl ⟨_, rfl⟩
    | overflow => exact .inl ⟨_, rfl⟩
    | other => exact .inl hsame
  | settled tsc =>
    unfold History.tell History.settled
    dsimp only
    split
    next => exact .inl hsame
    next => exact .inl hsame

/-- What was emitted stays, but for a disable that is folded into it. -/
theorem tell_keeps (a : Answer) (hs : .sample s ∈ h.out) :
    .sample s ∈ (h.tell ctx a).out ∨ .sample (ended s) ∈ (h.tell ctx a).out := by
  rcases @tell_out ctx h a with ⟨es, hout⟩ | ⟨i, sm, hget, hout⟩
  · rw [hout]
    exact .inl (List.mem_append_left es hs)
  · rw [hout]
    obtain ⟨j, hj⟩ := List.mem_iff_getElem?.mp hs
    by_cases hij : i = j
    · subst hij
      rw [hget] at hj
      cases hj
      have hlt : i < h.out.length := (List.getElem?_eq_some_iff.mp hget).1
      exact .inr (List.mem_iff_getElem?.mpr ⟨i, List.getElem?_set_self hlt⟩)
    · exact .inl (List.mem_iff_getElem?.mpr ⟨j, (List.getElem?_set_ne hij).trans hj⟩)

theorem ended_ended (s : Sample) : ended (ended s) = ended s := by
  unfold ended
  simp only [Flags.union, BitVec.or_assoc, BitVec.or_self]

theorem history_keeps (later : List Answer) (hs : .sample s ∈ (history ctx told).out) :
    .sample s ∈ (history ctx (later ++ told)).out ∨
      .sample (ended s) ∈ (history ctx (later ++ told)).out := by
  induction later with
  | nil => exact .inl hs
  | cons a later ih =>
    rw [List.cons_append, history_cons]
    rcases ih with hin | hin
    · exact tell_keeps a hin
    · rcases @tell_keeps ctx _ _ a hin with hin | hin
      · exact .inr hin
      · exact .inr (ended_ended s ▸ hin)

/-! ## The branches of a run -/

/-- What an answer adds is a branch of what was told. -/
theorem adds_iff (a : Answer) (told : List Answer) : Adds ctx (history ctx told) a s ↔
    ∃ between b tsc older target extra, told = between ++ .block b tsc :: older ∧
      b.ninsn ≠ 0 ∧ (∀ x ∈ between, x.Silent) ∧ a.Arrives b.cls target extra ∧
      takenTo ctx (runs ctx (a :: told)).1 (b.prev (lastTime ctx (.block b tsc :: older))) target =
        true ∧
      s = branchSample ctx.cpu (runs ctx (a :: told)).1 (runs ctx (a :: told)).2
        (lastTime ctx (.block b tsc :: older)) b.endIp.toNat target.toNat (b.cls.flags.union extra) := by
  unfold Adds
  rw [← history_cons, history_runner]
  constructor
  · rintro ⟨p, target, extra, hopen, harrives, htaken, hs⟩
    obtain ⟨between, b, tsc, older, htold, hne, hsilent, rfl⟩ := history_open.mp hopen
    exact ⟨between, b, tsc, older, target, extra, htold, hne, hsilent, harrives, htaken, hs⟩
  · rintro ⟨between, b, tsc, older, target, extra, htold, hne, hsilent, harrives, htaken, hs⟩
    exact ⟨_, target, extra, history_open.mpr ⟨between, b, tsc, older, htold, hne, hsilent, rfl⟩,
      harrives, htaken, hs⟩

theorem history_branches (ctx : Context) (told : List Answer) :
    (∀ s, .sample s ∈ (history ctx told).out → Plain s → Branch ctx told s) ∧
      ∀ s, Branch ctx told s →
        .sample s ∈ (history ctx told).out ∨ .sample (ended s) ∈ (history ctx told).out := by
  constructor
  · induction told with
    | nil => exact fun s hs => absurd hs List.not_mem_nil
    | cons a told ih =>
      intro s hs hplain
      rcases tell_plain hplain hs with hs | hadds
      · obtain ⟨later, a', between, b, tsc, older, target, extra, htold, hrest⟩ := ih s hs hplain
        exact ⟨a :: later, a', between, b, tsc, older, target, extra, by rw [htold]; rfl, hrest⟩
      · obtain ⟨between, b, tsc, older, target, extra, rfl, hrest⟩ := (adds_iff a told).mp hadds
        exact ⟨[], a, between, b, tsc, older, target, extra, rfl, hrest⟩
  · rintro s ⟨later, a, between, b, tsc, older, target, extra, rfl, hrest⟩
    refine history_keeps later ?_
    rw [history_cons]
    exact tell_adds ((adds_iff a _).mpr ⟨between, b, tsc, older, target, extra, rfl, hrest⟩)

/-- The branches a decode has emitted are those of what libipt told. -/
theorem run_branches {δ : Type} (lib : BlockDecoder δ) (ctx : Context) (d : δ) (n : Nat) :
    (∀ s, .sample s ∈ (run lib ctx d n).2.loop.sent.flatten ++ (run lib ctx d n).2.loop.batch →
        Plain s → Branch ctx (run lib ctx d n).1 s) ∧
      ∀ s, Branch ctx (run lib ctx d n).1 s →
        .sample s ∈ (run lib ctx d n).2.loop.sent.flatten ++ (run lib ctx d n).2.loop.batch ∨
          .sample (ended s) ∈
            (run lib ctx d n).2.loop.sent.flatten ++ (run lib ctx d n).2.loop.batch := by
  rw [(run_history lib ctx d n).1]
  exact history_branches ctx _

end TraceMcp.Decode.Blob
