import TraceMcp.Decode.Blocks
import TraceMcp.Decode.BlockStarts
import TraceMcp.Lib.Tally

/-!
# Rows of inline attribution

Blocks are counted under the `(pid, tid)` of their thread, and `finish` gives
every such key one name: the thread of the task that is alive at the end, or
else the first that exited. `executed` is the log of the blocks counted in a
run, each under the thread that ran it. The rows of the finished analysis say
the same as the log when the thread that ran a block is the one its task is
shown as (`rows_belong_iff`); a reused tid breaks that.
-/

namespace TraceMcp.Decode

open TraceMcp.Lib Ledger Reconstructor

/-- A block that was counted, under the thread that ran it. -/
structure Executed where
  thread : ThreadId
  key : Key
  info : BlockInfo
  elapsed : Nat

/-- The key a block is counted under. -/
def Executed.inlineKey (x : Executed) : InlineKey := (x.key, x.info.function, x.info.chainKey)

/-- The block that is counted when a record is accepted, if one is. -/
def Reconstructor.executedBy (r : Reconstructor) : RawRecord → Option Executed
  | .sample s =>
    let m := (r.handed (.sample s)).attributing s
    (m.blockCall s).bind fun call => (m.blockInfo s.pid call.1.1 call.2).map fun info =>
      ⟨(m.stateOf (s.pid, s.tid)).id, (s.pid, s.tid), info, blockElapsed call.1.2 s.timeNs⟩
  | _ => none

/-- The blocks counted in a run. -/
def executed (r : Reconstructor) : List RawRecord → List Executed
  | [] => []
  | next :: recs => match r.push next with
    | .ok r' => (if r.drops next then [] else (r.executedBy next).toList) ++ executed r' recs
    | .error _ => []

/-- What a row counts. -/
inductive Measure
  | instructions
  | blocks
  | elapsed

namespace Measure

def ofRow : Measure → InlineRow → Nat
  | instructions => InlineRow.instructions
  | blocks => InlineRow.blocks
  | elapsed => InlineRow.elapsedNs

def ofAgg : Measure → InlineAgg → Nat
  | instructions => InlineAgg.instructions
  | blocks => InlineAgg.blocks
  | elapsed => InlineAgg.elapsed

/-- What one block adds. -/
def ofBlock : Measure → Executed → Nat
  | instructions => fun x => x.info.instructions
  | blocks => fun _ => 1
  | elapsed => Executed.elapsed

end Measure

/-- The rows that name a thread add up to the blocks it ran. -/
def RowsBelong (ir : AnalysisIr) (blocks : List Executed) : Prop :=
  ∀ (t : ThreadId) (μ : Measure),
    ((ir.inlineRows.filter fun row => row.thread = t).map μ.ofRow).sum =
      ((blocks.filter fun x => x.thread = t).map μ.ofBlock).sum

/-- No counter overflows. -/
def Fits (blocks : List Executed) : Prop :=
  ∀ (key : InlineKey) (μ : Measure),
    ((blocks.filter fun x => x.inlineKey = key).map μ.ofBlock).sum < wordSize

/-- Where a task stands after a stream: has it a thread, and how many threads of
it have exited. -/
def deskAfter (f : Option PidTracker) (k : Key) (recs : List RawRecord) : Desk :=
  (life f k recs).foldl Desk.step ⟨false, 0⟩

/-- The thread a task is shown as: the one alive, or else the first. -/
def Desk.shown (d : Desk) : Nat := if d.live then d.gen else 0

/-- Every block is counted in the thread its task is shown as at the end. -/
def Settled (r₀ : Reconstructor) (recs : List RawRecord) : Prop :=
  ∀ pre s post r, recs = pre ++ .sample s :: post → r₀.pushAll pre = .ok r →
    r.drops (.sample s) = false → (r.executedBy (.sample s)).isSome →
      (deskAfter r₀.pidFilter (s.pid, s.tid) pre).gen =
        (deskAfter r₀.pidFilter (s.pid, s.tid) recs).shown

/-- Blocks of one tid are blocks of one process. -/
def OnePid (blocks : List Executed) : Prop :=
  ∀ x ∈ blocks, ∀ y ∈ blocks, x.key.2 = y.key.2 → x.key = y.key

variable {r₀ r r' : Reconstructor} {recs : List RawRecord} {k : Key} {inl : InlineState}
  {μ : Measure} {blocks : List Executed}

/-! ## The log -/

theorem executed_append {xs ys : List RawRecord} (h : r.pushAll xs = .ok r') :
    executed r (xs ++ ys) = executed r xs ++ executed r' ys := by
  induction xs generalizing r with
  | nil =>
    cases h
    rfl
  | cons rec xs ih =>
    obtain ⟨m, hpush, hrest⟩ := foldlM_cons_ok.mp h
    rw [List.cons_append, executed, executed, hpush]
    dsimp only
    rw [ih hrest, List.append_assoc]

theorem executed_concat {rec : RawRecord} (h : r₀.pushAll recs = .ok r)
    (hpush : r.push rec = .ok r') : executed r₀ (recs ++ [rec]) =
      executed r₀ recs ++ if r.drops rec then [] else (r.executedBy rec).toList := by
  rw [executed_append h, executed, hpush]
  dsimp only
  rw [executed, List.append_nil]

/-- A block in the log was counted at one of the records. -/
theorem mem_executed {x : Executed} (hx : x ∈ executed r₀ recs) :
    ∃ pre rec post m, recs = pre ++ rec :: post ∧ r₀.pushAll pre = .ok m ∧
      m.drops rec = false ∧ m.executedBy rec = some x := by
  induction recs generalizing r₀ with
  | nil => cases hx
  | cons rec recs ih =>
    rw [executed] at hx
    cases hpush : r₀.push rec with
    | error e =>
      rw [hpush] at hx
      cases hx
    | ok m =>
      rw [hpush] at hx
      rcases List.mem_append.mp hx with hx | hx
      · split at hx
        next => cases hx
        next hdrop =>
          exact ⟨[], rec, recs, r₀, rfl, rfl, Bool.eq_false_of_not_eq_true hdrop,
            Option.mem_toList.mp hx⟩
      · obtain ⟨pre, rec', post, m', hsplit, hpre, hdrop, hby⟩ := ih hx
        refine ⟨rec :: pre, rec', post, m', by rw [hsplit, List.cons_append], ?_, hdrop, hby⟩
        exact foldlM_cons_ok.mpr ⟨m, hpush, hpre⟩

/-! ## The counts -/

/-- The counts under a key that blocks add up to. -/
def tally (blocks : List Executed) (key : InlineKey) : Option InlineAgg :=
  if (blocks.filter fun x => x.inlineKey = key) = [] then none
  else
    let total (μ : Measure) := ((blocks.filter fun x => x.inlineKey = key).map μ.ofBlock).sum
    some ⟨total .instructions % wordSize, total .blocks % wordSize, total .elapsed % wordSize⟩

theorem tally_isSome {key : InlineKey} :
    (tally blocks key).isSome ↔ ∃ x ∈ blocks, x.inlineKey = key := by
  rw [tally]
  split
  next hempty => simpa using hempty
  next hsome => simpa using hsome

theorem ofAgg_tally {key : InlineKey} {agg : InlineAgg} (h : tally blocks key = some agg) :
    μ.ofAgg agg = ((blocks.filter fun x => x.inlineKey = key).map μ.ofBlock).sum % wordSize := by
  rw [tally] at h
  split at h
  next => cases h
  next =>
    obtain rfl := Option.some.inj h
    cases μ <;> rfl

/-- One more block is added to its key. -/
theorem tally_concat (blocks : List Executed) (x : Executed) (key : InlineKey) :
    tally (blocks ++ [x]) key = if key = x.inlineKey then
      some (((tally blocks key).getD ⟨0, 0, 0⟩).add x.info.instructions x.elapsed)
    else tally blocks key := by
  unfold tally
  rw [List.filter_append]
  by_cases hkey : key = x.inlineKey
  · rw [if_pos hkey, List.filter_cons_of_pos (by simp [hkey]), List.filter_nil]
    rw [if_neg (by simp)]
    simp only [List.map_append, List.sum_append, List.map_singleton, List.sum_singleton]
    split
    next hnone =>
      rw [hnone]
      rfl
    next =>
      simp only [Option.getD_some, InlineAgg.add, Nat.mod_add_mod]
      rfl
  · rw [if_neg hkey, List.filter_cons_of_neg (by simpa using Ne.symm hkey), List.filter_nil]
    simp only [List.append_nil]

theorem countBlock_tally {agg : FastMap InlineKey InlineAgg}
    (h : ∀ key, agg.get key = tally blocks key) (x : Executed) (key : InlineKey) :
    (countBlock agg x.key x.info x.elapsed).get key = tally (blocks ++ [x]) key := by
  rw [countBlock, FastMap.get_insert, tally_concat, h]
  by_cases hkey : key = x.inlineKey
  · rw [if_pos hkey, hkey]
    exact if_pos rfl
  · rw [if_neg hkey, h]
    exact if_neg hkey

/-- The counts are the log's. -/
def CountsLog (r : Reconstructor) (blocks : List Executed) : Prop :=
  ∀ inl, r.inline = some inl → ∀ key, inl.agg.get key = tally blocks key

/-- A record counts the block it is logged with. -/
theorem symbolsAfter_counts {rec : RawRecord} (h : CountsLog (r.handed rec) blocks)
    (hafter : symbols r' = (r.handed rec).symbolsAfter rec) :
    CountsLog r' (blocks ++ (r.executedBy rec).toList) := by
  have hinline : r'.inline = ((r.handed rec).symbolsAfter rec).tables.inline :=
    congrArg (fun S => S.tables.inline) hafter
  by_cases hsample : ∀ s, rec ≠ .sample s
  · have hnone : r.executedBy rec = none := by
      cases rec with
      | sample s => exact absurd rfl (hsample s)
      | mmap | task | switch | lost | decoderError => rfl
    rw [hnone, Option.toList_none, List.append_nil]
    intro inl hinl
    rw [hinline, symbolsAfter_inline hsample] at hinl
    exact h inl hinl
  push Not at hsample
  obtain ⟨s, rfl⟩ := hsample
  intro inl' hinl' key
  rw [hinline] at hinl'
  have hafter' : (((r.handed (.sample s)).attributed s)).inline = some inl' := hinl'
  have hon : ((r.handed (.sample s)).attributing s).inline.isSome := by
    rw [attributing_inline, ← attributed_inline s, hafter']
    rfl
  obtain ⟨inl, hinl⟩ := Option.isSome_iff_exists.mp hon
  have hcounts := h inl (attributing_inline (r.handed (.sample s)) s ▸ hinl)
  obtain ⟨inl₁, htables, hnone, hsome⟩ := attributed_tables hinl
  have heq : some inl' = some inl₁ := hafter'.symm.trans (congrArg Tables.inline htables)
  obtain rfl := Option.some.inj heq
  rw [executedBy]
  generalize (r.handed (.sample s)).attributing s = m at hnone hsome
  cases hcall : m.blockCall s with
  | none =>
    rw [hnone hcall, Option.bind_none, Option.toList_none, List.append_nil]
    exact hcounts key
  | some call =>
    have hagg := (hsome call hcall).agg
    cases hinfo : m.blockInfo s.pid call.1.1 call.2 with
    | none =>
      rw [hinfo, Option.elim_none] at hagg
      rw [hagg, Option.bind_some, hinfo, Option.map_none, Option.toList_none, List.append_nil]
      exact hcounts key
    | some info =>
      rw [hinfo, Option.elim_some] at hagg
      rw [hagg, Option.bind_some, hinfo, Option.map_some, Option.toList_some]
      exact countBlock_tally hcounts ⟨_, (s.pid, s.tid), info, _⟩ key

/-- The counts of a run are those of its log. -/
theorem pushAll_counts (hbuilt : Built r₀) (h : r₀.pushAll recs = .ok r) :
    CountsLog r (executed r₀ recs) := by
  refine foldlM_trace (P := fun pre m => CountsLog m (executed r₀ pre)) ?_ ?_ recs
    List.prefix_rfl r h
  · intro inl hinl key
    rw [hbuilt.unlearnt.inline inl hinl]
    rfl
  · intro pre rec post m m' _ hpre hP hpush
    rw [executed_concat hpre hpush]
    have hsymbols := push_symbols hpush
    split at hsymbols
    next hdrop =>
      rw [if_pos hdrop, List.append_nil]
      intro inl hinl
      exact hP inl ((congrArg (fun S => S.tables.inline) hsymbols).symm.trans hinl)
    next hdrop =>
      rw [if_neg hdrop]
      refine symbolsAfter_counts (fun inl hinl => hP inl ?_) hsymbols
      exact (congrArg (fun S => S.tables.inline) (handed_symbols rec)).symm.trans hinl

/-! ## Names -/

/-- The id and the task of a live thread. -/
def Symbols.named (S : Symbols) (k : Key) : Option (ThreadId × Key) :=
  (S.live k).map fun w => (w.id, w.key)

theorem modRunner_named (S : Symbols) (k : Key) {f : Runner → Runner}
    (hf : ∀ w, (f w).id = w.id ∧ (f w).key = w.key) (k' : Key) :
    (S.modRunner k f).named k' = S.named k' := by
  unfold Symbols.named
  by_cases hk : k' = k
  · subst hk
    cases hw : S.live k' with
    | none => rw [show (S.modRunner k' f).live k' = none by simp only [Symbols.modRunner, hw]]
    | some w => rw [modRunner_live_self hw, Option.map_some, Option.map_some, (hf w).1, (hf w).2]
  · rw [modRunner_live_ne S hk]

theorem ensure_named (S : Symbols) (k k' : Key) (id : ThreadId) :
    (S.ensure k id).named k' =
      if k' = k then some ((S.named k).getD (id, k)) else S.named k' := by
  unfold Symbols.named
  by_cases hk : k' = k
  · subst hk
    rw [if_pos rfl]
    unfold Symbols.ensure
    split
    next w hw => rw [hw]; rfl
    next hnone =>
      rw [hnone]
      show (Function.update S.live k' _ k').map _ = _
      rw [Function.update_self]
      rfl
  · rw [if_neg hk, ensure_live_ne S hk]

theorem modRunner_past (S : Symbols) (k : Key) (f : Runner → Runner) :
    (S.modRunner k f).past = S.past := by
  unfold Symbols.modRunner
  split <;> rfl

theorem ensure_past (S : Symbols) (k : Key) (id : ThreadId) : (S.ensure k id).past = S.past := by
  unfold Symbols.ensure
  split <;> rfl

theorem attributing_names (r : Reconstructor) (s : Sample) :
    (∀ k, (symbols (r.attributing s)).named k =
      ((symbols r).ensure (s.pid, s.tid) (r.threadIds.id s.pid s.tid)).named k) ∧
    (symbols (r.attributing s)).past = (symbols r).past := by
  rw [attributing_symbols]
  show (∀ k, (symbols (r.arrived s)).named k = _) ∧ (symbols (r.arrived s)).past = _
  rw [arrived_symbols, Symbols.note]
  refine ⟨fun k => modRunner_named _ _ ?_ k, by rw [modRunner_past, ensure_past]⟩
  exact fun w => ⟨rfl, rfl⟩

/-- To the names, a sample is the appearance of its thread. -/
theorem attributed_names (r : Reconstructor) (s : Sample) :
    (∀ k, (symbols (r.attributed s)).named k =
      ((symbols r).ensure (s.pid, s.tid) (r.threadIds.id s.pid s.tid)).named k) ∧
    (symbols (r.attributed s)).past = (symbols r).past := by
  obtain ⟨hnamed, hpast⟩ := attributing_names r s
  cases hon : r.inline.isSome with
  | true =>
    rw [attributed_symbols s hon]
    refine ⟨fun k => (modRunner_named _ _ ?_ k).trans (hnamed k), ?_⟩
    · exact fun w => ⟨rfl, rfl⟩
    · exact (modRunner_past ..).trans hpast
  | false =>
    have hoff : (r.attributing s).inline.isNone = true := by
      rw [attributing_inline, ← Option.not_isSome, hon]
      rfl
    rw [attributed, attributeSample_eq, if_pos hoff]
    exact ⟨hnamed, hpast⟩

/-- Threads are named after their task and its generation; those that have
exited are the earlier generations, in order. -/
structure Lineup (S : Symbols) (desk : Key → Desk) : Prop where
  live : ∀ k, S.named k = if (desk k).live then some (lifeId (k, (desk k).gen), k) else none
  past : ∀ k, (S.past.filter fun w => w.key = k).map Runner.id =
    (List.range (desk k).gen).map fun g => lifeId (k, g)

theorem ensure_lineup {S : Symbols} {desk : Key → Desk} (h : Lineup S desk) {k₀ : Key}
    {desk' : Key → Desk} (hself : desk' k₀ = { desk k₀ with live := true })
    (hne : ∀ k, k ≠ k₀ → desk' k = desk k) :
    Lineup (S.ensure k₀ (lifeId (k₀, (desk k₀).gen))) desk' := by
  refine ⟨fun k => ?_, fun k => ?_⟩
  · rw [ensure_named]
    by_cases hk : k = k₀
    · subst hk
      rw [if_pos rfl, hself, h.live]
      split <;> rfl
    · rw [if_neg hk, hne k hk, h.live]
  · rw [ensure_past, h.past]
    by_cases hk : k = k₀
    · subst hk
      rw [hself]
    · rw [hne k hk]

theorem retire_lineup {S : Symbols} {desk : Key → Desk} (h : Lineup S desk) {k₀ : Key}
    {desk' : Key → Desk} (hself : desk' k₀ = (desk k₀).step .exit)
    (hne : ∀ k, k ≠ k₀ → desk' k = desk k) : Lineup (S.retire k₀) desk' := by
  have hlive := h.live k₀
  refine ⟨fun k => ?_, fun k => ?_⟩
  · rw [Symbols.named, retire_live]
    by_cases hk : k = k₀
    · subst hk
      rw [if_pos rfl, hself]
      rfl
    · rw [if_neg hk, hne k hk]
      exact h.live k
  · unfold Symbols.named at hlive
    unfold Symbols.retire
    cases hw : S.live k₀ with
    | none =>
      rw [hw, Option.map_none] at hlive
      have hidle : (desk k₀).live = false := by
        by_contra hbusy
        rw [if_pos (Bool.eq_true_of_not_eq_false hbusy)] at hlive
        cases hlive
      rw [h.past]
      by_cases hk : k = k₀
      · rw [hk, hself, Desk.step_exit_of_idle hidle]
      · rw [hne k hk]
    | some w =>
      rw [hw, Option.map_some] at hlive
      have hbusy : (desk k₀).live = true := by
        by_contra hidle
        rw [if_neg hidle] at hlive
        cases hlive
      rw [if_pos hbusy] at hlive
      obtain ⟨hid, hkey⟩ := Prod.mk.inj (Option.some.inj hlive)
      show ((S.past ++ [w]).filter _).map _ = _
      rw [List.filter_append, List.map_append, h.past]
      by_cases hk : k = k₀
      · rw [hk, hself, List.filter_cons_of_pos (by simpa using hkey), List.filter_nil,
          List.map_singleton, hid]
        simp [Desk.step, hbusy, List.range_succ]
      · rw [hne k hk, List.filter_cons_of_neg (by simpa [hkey] using Ne.symm hk), List.filter_nil]
        simp

/-- A record moves the names as it moves the desks. -/
theorem symbolsAfter_lineup {rec : RawRecord} {desk : Key → Desk} (h : Lineup (symbols r) desk)
    (hgen : ∀ k, r.threadIds.gen k = (desk k).gen) :
    Lineup (r.symbolsAfter rec) fun k => (signOf k rec).elim (desk k) (desk k).step := by
  have hid : ∀ k : Key, r.threadIds.id k.1 k.2 = lifeId (k, (desk k).gen) := by
    intro k
    rw [← hgen]
    rfl
  cases rec with
  | sample s =>
    have hensured : Lineup ((symbols r).ensure (s.pid, s.tid)
        (lifeId ((s.pid, s.tid), (desk (s.pid, s.tid)).gen)))
        fun k => (signOf k (.sample s)).elim (desk k) (desk k).step := by
      refine ensure_lineup h (by simp [signOf, Desk.step]) ?_
      intro k hk
      simp [signOf, Ne.symm hk]
    rw [← hid] at hensured
    obtain ⟨hnamed, hpast⟩ := attributed_names r s
    refine ⟨fun k => (hnamed k).trans (hensured.live k), fun k => ?_⟩
    show ((symbols (r.attributed s)).past.filter _).map _ = _
    rw [hpast, ← ensure_past (symbols r) (s.pid, s.tid) (r.threadIds.id s.pid s.tid)]
    exact hensured.past k
  | mmap m =>
    show Lineup (symbols (r.pushMmap m)) _
    rw [(pushMmap_threads m).symbols]
    exact ⟨h.live, h.past⟩
  | switch => exact h
  | lost => exact h
  | task t =>
    show Lineup (if t.kind = .exit then (symbols r).retire (t.pid, t.tid) else symbols r) _
    by_cases hkind : t.kind = .exit
    · rw [if_pos hkind]
      exact retire_lineup h (by simp [signOf, hkind]) (by
        intro k hk
        simp [signOf, Ne.symm hk])
    · rw [if_neg hkind]
      simp only [signOf, hkind, false_and, if_false, Option.elim_none]
      exact h
  | decoderError e =>
    show Lineup ((namedKey (.decoderError e)).elim (symbols r) fun k =>
      (symbols r).ensure k (r.threadIds.id k.1 k.2)) _
    cases hkey : namedKey (.decoderError e) with
    | none =>
      simp only [signOf, hkey, reduceCtorEq, if_false, Option.elim_none]
      exact h
    | some k₀ =>
      rw [Option.elim_some, hid]
      exact ensure_lineup h (by simp [signOf, hkey, Desk.step]) (by
        intro k hk
        simp [signOf, hkey, Ne.symm hk])

/-- The names of a run follow the lives of its tasks. -/
theorem pushAll_lineup (hbuilt : Built r₀) (h : r₀.pushAll recs = .ok r) :
    Lineup (symbols r) fun k => deskAfter r₀.pidFilter k recs := by
  have hledger : Lineup (symbols r) fun k => (ledger r).desk k := by
    refine foldlM_trace (P := fun _ m => Lineup (symbols m) fun k => (ledger m).desk k) ?_ ?_ recs
      List.prefix_rfl r h
    · refine ⟨fun k => ?_, fun k => ?_⟩
      · rw [Symbols.named, hbuilt.unlearnt.live, built_desk hbuilt]
        rfl
      · rw [hbuilt.unlearnt.past, built_desk hbuilt]
        rfl
    · intro pre rec post m m' _ _ hP hpush
      have hsymbols := push_symbols hpush
      have haction := push_ledger hpush
      cases hdrop : m.drops rec with
      | true =>
        rw [hdrop, if_pos rfl] at hsymbols haction
        rw [hsymbols, haction]
        exact hP
      | false =>
        rw [hdrop, if_neg Bool.false_ne_true] at hsymbols
        rw [hdrop] at haction
        have hdesk : (fun k => (ledger m').desk k) =
            fun k => (signOf k rec).elim ((ledger m).desk k) ((ledger m).desk k).step :=
          funext fun k => haction.desk k
        rw [hsymbols, hdesk]
        have hhanded : Lineup (symbols (m.handed rec)) fun k => (ledger m).desk k := by
          rw [handed_symbols]
          exact hP
        refine symbolsAfter_lineup hhanded fun k => ?_
        rw [handed_threadIds]
        rfl
  exact funext (fun k => desk_of_pushAll hbuilt h k) ▸ hledger

/-- The thread a key is shown as. -/
theorem inlineThread_eq {desk : Key → Desk} (h : Lineup (symbols r) desk) (k : Key) :
    r.inlineThread k = lifeId (k, (desk k).shown) := by
  have hlive := h.live k
  have hpast := h.past k
  have hnamed : (symbols r).named k =
      (r.threads.get k).map fun st => (st.id, (st.pid, st.tid)) := by
    show ((r.threads.get k).map runnerOf).map _ = _
    rw [Option.map_map]
    rfl
  rw [hnamed] at hlive
  unfold inlineThread Desk.shown
  cases hst : r.threads.get k with
  | some st =>
    rw [hst, Option.map_some] at hlive
    split at hlive
    next hbusy =>
      rw [if_pos hbusy]
      exact (Prod.mk.inj (Option.some.inj hlive)).1
    next => cases hlive
  | none =>
    rw [hst, Option.map_none] at hlive
    have hidle : ¬ (desk k).live = true := by
      intro hbusy
      rw [if_pos hbusy] at hlive
      cases hlive
    rw [if_neg hidle]
    -- the first that exited, if one has
    have hfirst : (r.retired.find? fun t => t.pid = k.1 ∧ t.tid = k.2).map (·.id) =
        ((List.range (desk k).gen).map fun g => lifeId (k, g)).head? := by
      have hkey : (fun t : ThreadState => decide (t.pid = k.1 ∧ t.tid = k.2)) =
          (fun w : Runner => decide (w.key = k)) ∘ runnerOf := by
        funext st
        exact decide_eq_decide.mpr (by rw [Prod.ext_iff]; rfl)
      rw [← hpast, List.head?_map, List.head?_filter, hkey]
      show _ = ((r.retired.map runnerOf).find? _).map Runner.id
      rw [List.find?_map, Option.map_map]
      rfl
    cases hfind : r.retired.find? fun t => t.pid = k.1 ∧ t.tid = k.2 with
    | none => rfl
    | some t =>
      rw [hfind, Option.map_some] at hfirst
      cases hgen : (desk k).gen with
      | zero =>
        rw [hgen] at hfirst
        cases hfirst
      | succ n =>
        rw [hgen, List.range_succ_eq_map, List.map_cons, List.head?_cons] at hfirst
        exact Option.some.inj hfirst

theorem closeThread_symbols : symbols (r.closeThread k) = symbols r := by
  unfold closeThread
  dsimp only
  rw [emitStack_symbols]
  exact modThread_symbols (by intro st; rfl)

theorem closeAll_symbols : symbols r.closeAll = symbols r := by
  unfold closeAll
  generalize r.threadOrder = ks
  induction ks generalizing r with
  | nil => rfl
  | cons k ks ih => rw [List.foldl_cons, ih, closeThread_symbols]

/-- The rows of a finished analysis. -/
theorem finish_inlineRows {ir : AnalysisIr} (h : r.finish = .ok ir) :
    ir.inlineRows = r.closeAll.inlineRows := by
  unfold finish at h
  obtain ⟨origin, horigin, h⟩ := bind_ok.mp h
  dsimp only at h
  obtain ⟨events, _, h⟩ := bind_ok.mp h
  obtain ⟨spans, _, h⟩ := bind_ok.mp h
  obtain ⟨spilled, _, h⟩ := bind_ok.mp h
  obtain ⟨gaps, _, h⟩ := bind_ok.mp h
  cases h
  rfl

/-! ## Sums -/

/-- The rows that name `t` add up, key by key, to the counts of the keys that
are shown as `t`. -/
theorem rows_sum (h : r.inline = some inl) (t : ThreadId) (μ : Measure) :
    ((r.inlineRows.filter fun row => row.thread = t).map μ.ofRow).sum =
      ((inl.agg.keys.filter fun key => r.inlineThread key.1 = t).map fun key =>
        (inl.agg.get key).elim 0 μ.ofAgg).sum := by
  have hrows : r.inlineRows = (inl.agg.entries.map fun e =>
      { thread := r.inlineThread e.1.1
        function := e.1.2.1
        chain := (inl.chains[e.1.2.2]?).getD []
        instructions := e.2.instructions
        blocks := e.2.blocks
        elapsedNs := e.2.elapsed : InlineRow }).mergeSort inlineRowLe := by
    rw [inlineRows, h]
  rw [hrows, (((List.mergeSort_perm _ inlineRowLe).filter _).map _).sum_eq, List.filter_map,
    List.map_map]
  have hkeys : inl.agg.keys = inl.agg.entries.map Sigma.fst := rfl
  rw [hkeys, List.filter_map, List.map_map]
  congr 1
  refine List.map_congr_left fun e he => ?_
  have hget : inl.agg.get e.1 = some e.2 :=
    FastMap.get_eq_some_iff.mpr (List.mem_filter.mp he).1
  simp only [Function.comp_apply, hget, Option.elim_some]
  cases μ <;> rfl

/-- The blocks of the tasks shown as `t`, key by key. -/
theorem blocks_sum {keys : List InlineKey} (hnodup : keys.Nodup)
    (hkeys : ∀ x ∈ blocks, x.inlineKey ∈ keys) (shown : Key → ThreadId) (t : ThreadId)
    (μ : Measure) :
    ((blocks.filter fun x => shown x.key = t).map μ.ofBlock).sum =
      ((keys.filter fun key => shown key.1 = t).map fun key =>
        ((blocks.filter fun x => x.inlineKey = key).map μ.ofBlock).sum).sum := by
  rw [← sum_fibers Executed.inlineKey μ.ofBlock (hnodup.filter fun key => shown key.1 = t)]
  · congr 1
    refine List.map_congr_left fun key hkey => ?_
    have hshown := of_decide_eq_true (List.mem_filter.mp hkey).2
    rw [List.filter_filter]
    congr 2
    refine List.filter_congr fun x _ => ?_
    rw [← Bool.decide_and, decide_eq_decide]
    refine ⟨fun hx => hx.1, fun hx => ⟨hx, ?_⟩⟩
    rw [← hx] at hshown
    exact hshown
  · intro x hx
    obtain ⟨hmem, hshown⟩ := List.mem_filter.mp hx
    exact List.mem_filter.mpr ⟨hkeys x hmem, hshown⟩

/-- A block is logged under the thread of its task at the time. -/
theorem executed_thread {s : Sample} {x : Executed} (hbuilt : Built r₀)
    (hpre : r₀.pushAll recs = .ok r) (hby : r.executedBy (.sample s) = some x) :
    x.key = (s.pid, s.tid) ∧
      x.thread = lifeId (x.key, (deskAfter r₀.pidFilter (s.pid, s.tid) recs).gen) := by
  have hlineup := pushAll_lineup hbuilt hpre
  have hnamed := (attributing_names (r.handed (.sample s)) s).1 (s.pid, s.tid)
  have hgen : r.threadIds.id s.pid s.tid =
      lifeId ((s.pid, s.tid), (deskAfter r₀.pidFilter (s.pid, s.tid) recs).gen) := by
    rw [deskAfter, ← desk_of_pushAll hbuilt hpre]
    rfl
  rw [handed_symbols, handed_threadIds, ensure_named, if_pos rfl, hlineup.live, hgen] at hnamed
  obtain ⟨call, -, hx⟩ := Option.bind_eq_some_iff.mp hby
  obtain ⟨info, -, rfl⟩ := Option.map_eq_some_iff.mp hx
  refine ⟨rfl, ?_⟩
  show (((r.handed (.sample s)).attributing s).stateOf (s.pid, s.tid)).id = lifeId ((s.pid, s.tid), _)
  generalize (r.handed (.sample s)).attributing s = m at hnamed
  have hstate : (m.threads.get (s.pid, s.tid)).map ThreadState.id =
      some (lifeId ((s.pid, s.tid), (deskAfter r₀.pidFilter (s.pid, s.tid) recs).gen)) := by
    have hfst := congrArg (Option.map Prod.fst) hnamed
    rw [Symbols.named, Option.map_map] at hfst
    show _ = some _
    refine Eq.trans ?_ (hfst.trans ?_)
    · show _ = ((m.threads.get (s.pid, s.tid)).map runnerOf).map _
      rw [Option.map_map]
      rfl
    · split <;> rfl
  obtain ⟨st, hst, hid⟩ := Option.map_eq_some_iff.mp hstate
  rw [stateOf, hst]
  exact hid

/-- Without inline attribution no block is counted. -/
theorem executed_off (h : r₀.pushAll recs = .ok r) (hoff : r.inline = none) :
    executed r₀ recs = [] := by
  refine List.eq_nil_iff_forall_not_mem.mpr fun x hx => ?_
  obtain ⟨pre, rec, post, m, hsplit, hpre, -, hby⟩ := mem_executed hx
  have hm : m.inline = none := by
    rw [← Option.not_isSome_iff_eq_none, pushAll_inline hpre, ← pushAll_inline h, hoff]
    exact Bool.false_ne_true
  cases rec with
  | sample s =>
    obtain ⟨call, hcall, -⟩ := Option.bind_eq_some_iff.mp hby
    have hnone : ((m.handed (.sample s)).attributing s).inline.isNone = true := by
      rw [attributing_inline, Option.isNone_iff_eq_none]
      exact (congrArg (fun S => S.tables.inline) (handed_symbols (.sample s))).trans hm
    rw [blockCall, if_pos hnone] at hcall
    cases hcall
  | mmap | task | switch | lost | decoderError => cases hby

/-- Every logged block was run by the thread its task is shown as. -/
theorem settled_iff (hbuilt : Built r₀) (h : r₀.pushAll recs = .ok r) :
    Settled r₀ recs ↔ ∀ x ∈ executed r₀ recs, x.thread = r.inlineThread x.key := by
  have hshown := inlineThread_eq (pushAll_lineup hbuilt h)
  constructor
  · intro hsettled x hx
    obtain ⟨pre, rec, post, m, hsplit, hpre, hdrop, hby⟩ := mem_executed hx
    cases rec with
    | sample s =>
      obtain ⟨hkey, hthread⟩ := executed_thread hbuilt hpre hby
      rw [hthread, hshown, hkey, hsettled pre s post m hsplit hpre hdrop (hby ▸ rfl)]
    | mmap | task | switch | lost | decoderError => cases hby
  · intro hall pre s post m hsplit hpre hdrop hsome
    obtain ⟨x, hby⟩ := Option.isSome_iff_exists.mp hsome
    obtain ⟨hkey, hthread⟩ := executed_thread hbuilt hpre hby
    have hmem : x ∈ executed r₀ recs := by
      have hrun : r₀.pushAll (pre ++ .sample s :: post) = .ok r := hsplit ▸ h
      obtain ⟨m₁, hm₁, hrest⟩ := foldlM_append_ok.mp hrun
      obtain rfl := Except.ok.inj (hpre.symm.trans hm₁)
      obtain ⟨m₂, hpush, -⟩ := foldlM_cons_ok.mp hrest
      rw [hsplit, executed_append hpre, executed, hpush]
      dsimp only
      rw [hdrop, if_neg Bool.false_ne_true, hby]
      exact List.mem_append_right _ (List.mem_append_left _ (List.mem_singleton_self x))
    have heq := hall x hmem
    rw [hthread, hshown, hkey] at heq
    exact ((ThreadId.task.injEq ..).mp heq).2

/-- The keys of the counts are those of the blocks. -/
theorem mem_keys_of_counts (hcounts : ∀ key, inl.agg.get key = tally blocks key)
    (key : InlineKey) : key ∈ inl.agg.keys ↔ ∃ x ∈ blocks, x.inlineKey = key := by
  rw [← AList.mem_keys, ← AList.lookup_isSome, ← tally_isSome, ← hcounts]
  rfl

/-- The rows that name `t` add up to the blocks of the tasks shown as `t`, each
key for itself modulo the width of its counter. -/
theorem rows_total (h : r.inline = some inl)
    (hcounts : ∀ key, inl.agg.get key = tally blocks key) (t : ThreadId) (μ : Measure) :
    ((r.inlineRows.filter fun row => row.thread = t).map μ.ofRow).sum =
      ((inl.agg.keys.filter fun key => r.inlineThread key.1 = t).map fun key =>
        ((blocks.filter fun x => x.inlineKey = key).map μ.ofBlock).sum % wordSize).sum := by
  rw [rows_sum h]
  congr 1
  refine List.map_congr_left fun key hkey => ?_
  have hmem := (mem_keys_of_counts hcounts key).mp (List.mem_filter.mp hkey).1
  obtain ⟨agg, hagg⟩ := Option.isSome_iff_exists.mp (tally_isSome.mpr hmem)
  rw [hcounts, hagg, Option.elim_some, ofAgg_tally hagg]

/-! ## Whose rows -/

/-- Blocks of other threads than the one shown have no row, as long as no other
task is shown as that thread. -/
theorem no_row {desk : Key → Desk} (hlineup : Lineup (symbols r) desk) (h : r.inline = some inl)
    (hcounts : ∀ key, inl.agg.get key = tally blocks key) (hone : OnePid blocks) {x : Executed}
    (hx : x ∈ blocks) {g : Nat} (hthread : x.thread = lifeId (x.key, g))
    (hother : x.thread ≠ r.inlineThread x.key) (μ : Measure) :
    ((r.inlineRows.filter fun row => row.thread = x.thread).map μ.ofRow).sum = 0 := by
  have hempty : (inl.agg.keys.filter fun key => r.inlineThread key.1 = x.thread) = [] := by
    refine List.filter_eq_nil_iff.mpr fun key hkey hshown => ?_
    obtain ⟨y, hy, rfl⟩ := (mem_keys_of_counts hcounts key).mp hkey
    have hname := of_decide_eq_true hshown
    have htid : y.key.2 = x.key.2 := by
      rw [inlineThread_eq hlineup, hthread] at hname
      exact ((ThreadId.task.injEq ..).mp hname).1
    have hkeys : y.key = x.key := hone y hy x hx htid
    rw [← hkeys] at hother
    exact hother hname.symm
  rw [rows_sum h, hempty, List.map_nil, List.sum_nil]

/-- Where every block was run by the thread its task is shown as, the blocks of
a thread are those of the tasks shown as it. -/
theorem rows_of_settled (hcounts : ∀ key, inl.agg.get key = tally blocks key)
    (hsettled : ∀ x ∈ blocks, x.thread = r.inlineThread x.key) (t : ThreadId) (μ : Measure) :
    ((blocks.filter fun x => x.thread = t).map μ.ofBlock).sum =
      ((inl.agg.keys.filter fun key => r.inlineThread key.1 = t).map fun key =>
        ((blocks.filter fun x => x.inlineKey = key).map μ.ofBlock).sum).sum := by
  rw [← blocks_sum (AList.keys_nodup inl.agg)
    (fun x hx => (mem_keys_of_counts hcounts _).mpr ⟨x, hx, rfl⟩) r.inlineThread t μ]
  congr 2
  exact List.filter_congr fun x hx => by rw [hsettled x hx]

theorem closeAll_inlineThread {desk : Key → Desk} (h : Lineup (symbols r) desk) (k : Key) :
    r.closeAll.inlineThread k = r.inlineThread k := by
  have hclosed : Lineup (symbols r.closeAll) desk := closeAll_symbols (r := r) ▸ h
  rw [inlineThread_eq hclosed, inlineThread_eq h]

/-- The rows of a finished analysis belong to the threads that ran their blocks
when every block was run by the thread its task is shown as and no counter
overflows; and only then, as long as no two processes share a tid. -/
theorem rows_belong_iff {ir : AnalysisIr} (hbuilt : Built r₀) (hpush : r₀.pushAll recs = .ok r)
    (hfin : r.finish = .ok ir) :
    (Settled r₀ recs ∧ Fits (executed r₀ recs) → RowsBelong ir (executed r₀ recs)) ∧
      (OnePid (executed r₀ recs) → RowsBelong ir (executed r₀ recs) →
        Settled r₀ recs ∧ Fits (executed r₀ recs)) := by
  have hrows := finish_inlineRows hfin
  have hlineup := pushAll_lineup hbuilt hpush
  have hclosed : Lineup (symbols r.closeAll) fun k => deskAfter r₀.pidFilter k recs :=
    closeAll_symbols (r := r) ▸ hlineup
  have hsettled : Settled r₀ recs ↔
      ∀ x ∈ executed r₀ recs, x.thread = r.closeAll.inlineThread x.key := by
    rw [settled_iff hbuilt hpush]
    simp only [closeAll_inlineThread hlineup]
  have hinline : r.closeAll.inline = r.inline :=
    congrArg (fun S => S.tables.inline) closeAll_symbols
  cases hon : r.inline with
  | none =>
    -- without inline attribution there are neither blocks nor rows
    have hnil := executed_off hpush hon
    have hempty : ir.inlineRows = [] := by
      rw [hrows, inlineRows, hinline, hon]
    rw [hsettled, hnil]
    refine ⟨fun _ t μ => ?_, fun _ _ => ⟨fun x hx => absurd hx List.not_mem_nil, fun key μ => ?_⟩⟩
    · rw [hempty]
      rfl
    · exact Nat.two_pow_pos 64
  | some inl =>
    have hcounts := pushAll_counts hbuilt hpush inl hon
    have htotal := rows_total (hinline.trans hon) hcounts
    rw [← hrows] at htotal
    constructor
    · rintro ⟨hrun, hfits⟩ t μ
      rw [htotal, rows_of_settled hcounts (hsettled.mp hrun)]
      congr 1
      exact List.map_congr_left fun key _ => Nat.mod_eq_of_lt (hfits key μ)
    · intro hone hbelong
      have hrun : ∀ x ∈ executed r₀ recs, x.thread = r.closeAll.inlineThread x.key := by
        intro x hx
        by_contra hother
        obtain ⟨pre, rec, post, m, hsplit, hpre, -, hby⟩ := mem_executed hx
        cases rec with
        | sample s =>
          obtain ⟨-, hthread⟩ := executed_thread hbuilt hpre hby
          have hzero := no_row hclosed (hinline.trans hon) hcounts hone hx hthread hother .blocks
          rw [← hrows, hbelong, List.sum_eq_zero_iff] at hzero
          -- the block itself is counted on the other side
          have hmem : x ∈ (executed r₀ recs).filter fun y => y.thread = x.thread :=
            List.mem_filter.mpr ⟨hx, decide_eq_true rfl⟩
          exact absurd (hzero _ (List.mem_map_of_mem hmem)) Nat.one_ne_zero
        | mmap | task | switch | lost | decoderError => cases hby
      refine ⟨hsettled.mpr hrun, fun key μ => ?_⟩
      by_cases hkey : key ∈ inl.agg.keys
      · have hsum := hbelong (r.closeAll.inlineThread key.1) μ
        rw [htotal, rows_of_settled hcounts hrun] at hsum
        have heq := eq_of_sum_eq (fun k _ => Nat.mod_le _ _) hsum key
          (List.mem_filter.mpr ⟨hkey, decide_eq_true rfl⟩)
        rw [← heq]
        exact Nat.mod_lt _ (Nat.two_pow_pos 64)
      · have hnil : ((executed r₀ recs).filter fun x => x.inlineKey = key) = [] := by
          refine List.filter_eq_nil_iff.mpr fun x hx heq => hkey ?_
          exact (mem_keys_of_counts hcounts key).mpr ⟨x, hx, of_decide_eq_true heq⟩
        rw [hnil]
        exact Nat.two_pow_pos 64

/-! ## Small streams -/

/-- `twoJumps`, after which the task exits and its tid is used again. -/
def reusedBlocks : List RawRecord := twoJumps ++ [exitAt 1 25, branchAt 1 30 .JMP 0x10 0x20]

/-- The first thread ran a block; the row with it names the second. -/
theorem rows_misnamed :
    ¬ ∀ (r₀ r : Reconstructor) (recs : List RawRecord) (ir : AnalysisIr), Built r₀ →
      r₀.pushAll recs = .ok r → r.finish = .ok ir → RowsBelong ir (executed r₀ recs) := by
  intro h
  obtain ⟨ir, hir, htest⟩ := ok_of_any (x := counting.pushAll reusedBlocks >>= finish)
    (p := fun ir => ir.inlineRows.all fun row => row.thread = .task 1 1) (by decide +kernel)
  obtain ⟨r, hr, hfin⟩ := bind_ok.mp hir
  have hbelong := h counting r reusedBlocks ir built_counting hr hfin (.task 1 0) .blocks
  have hnone : (ir.inlineRows.filter fun row => row.thread = .task 1 0) = [] := by
    refine List.filter_eq_nil_iff.mpr fun row hrow heq => ?_
    have hname := of_decide_eq_true (List.all_eq_true.mp htest row hrow)
    rw [of_decide_eq_true heq] at hname
    cases hname
  have hone : ((executed counting reusedBlocks).filter fun x => x.thread = .task 1 0).length = 1 := by
    decide
  rw [hnone, show Measure.blocks.ofBlock = fun _ => 1 from rfl, List.map_const', hone] at hbelong
  cases hbelong

theorem twoJumps_settled : Settled counting twoJumps := by
  intro pre s post r hsplit _ _ _
  rcases pre with _ | ⟨a, _ | ⟨b, _ | ⟨c, pre⟩⟩⟩
  · cases hsplit
  · cases hsplit
    decide
  · cases hsplit
    decide
  · simp [twoJumps] at hsplit

/-- `rows_belong_iff` on two jumps. -/
theorem rows_belong_iff_twoJumps : ∃ r ir, counting.pushAll twoJumps = .ok r ∧
    r.finish = .ok ir ∧ RowsBelong ir (executed counting twoJumps) := by
  obtain ⟨ir, hir, -⟩ := ok_of_any (x := counting.pushAll twoJumps >>= finish)
    (p := fun _ => true) (by decide)
  obtain ⟨r, hr, hfin⟩ := bind_ok.mp hir
  refine ⟨r, ir, hr, hfin, (rows_belong_iff built_counting hr hfin).1 ⟨twoJumps_settled, ?_⟩⟩
  intro key μ
  have hle : (((executed counting twoJumps).filter fun x => x.inlineKey = key).map μ.ofBlock).sum ≤
      ((executed counting twoJumps).map μ.ofBlock).sum :=
    (List.filter_sublist.map μ.ofBlock).sum_le_sum fun _ _ => Nat.zero_le _
  refine Nat.lt_of_le_of_lt hle ?_
  cases μ <;> decide

end TraceMcp.Decode
