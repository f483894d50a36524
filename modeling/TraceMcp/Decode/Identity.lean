import TraceMcp.Decode.Accounts
import TraceMcp.Decode.Lives

/-!
# Thread identities

`ThreadIds` promises one identity for each life of a task, the same in every
analysis of a snapshot. Two results about that. `threadIds_agree_iff`: the
span and the instruction pass give a sample the same id exactly when the
task's exits between two samples, and before the first, are counted alike.
`threadIds_unique_iff`: ids tell threads apart exactly when no two processes
share a tid, since the id leaves the pid out.
-/

namespace TraceMcp.Decode

open TraceMcp.Lib Ledger Reconstructor

/-! ## Ids and generations -/

/-- The id of a task's `g`-th life. -/
def lifeId (l : Key × Nat) : ThreadId := .task l.1.2 l.2

/-- Lanes are named after their task and its generation, and the closed lanes
are the earlier generations, once each. -/
structure Ledger.Roll (L : Ledger) : Prop where
  live : ∀ k l, L.lanes k = some l → l.id = lifeId (k, L.gen k)
  past : ∃ past : List (Key × Nat), past.Nodup ∧ L.closed.map Lane.id = past.map lifeId ∧
    ∀ k g, (k, g) ∈ past ↔ g < L.gen k

theorem empty_roll (spilling : Bool) : Roll (.empty spilling) := by
  refine ⟨?_, [], List.nodup_nil, rfl, ?_⟩
  · intro k l hl
    cases hl
  · intro k g
    simp [Ledger.empty]

theorem Ledger.Entry.roll {named : Key → Prop} {L L' : Ledger} (h : Entry named L L')
    (hR : Roll L) : Roll L' := by
  obtain ⟨past, hnodup, hclosed, hmem⟩ := hR.past
  cases h with
  | @create k hnone _ =>
    rw [ensure_of_none hnone]
    refine ⟨?_, past, hnodup, hclosed, hmem⟩
    intro k' l hl
    by_cases hk : k' = k
    · subst hk
      obtain rfl := Option.some.inj ((setLane_lanes_self ..).symm.trans hl)
      rfl
    · exact hR.live k' l ((setLane_lanes_ne _ _ _ hk).symm.trans hl)
  | @post _ k hp =>
    obtain ⟨l, l', rows, gaps, opened, hp⟩ := hp
    refine ⟨?_, past, hnodup, hp.closed ▸ hclosed, hp.gen ▸ hmem⟩
    intro k' m hm
    rw [hp.gen]
    by_cases hk : k' = k
    · subst hk
      obtain rfl := Option.some.inj (hp.lane'.symm.trans hm)
      exact hp.id_eq.trans (hR.live k' l hp.lane)
    · exact hR.live k' m (hp.lane_ne hk ▸ hm)
  | stray => exact ⟨hR.live, past, hnodup, hclosed, hmem⟩
  | loss => exact ⟨hR.live, past, hnodup, hclosed, hmem⟩
  | @drop k l hl _ =>
    refine ⟨?_, past ++ [(k, L.gen k)], ?_, ?_, ?_⟩
    · intro k' m hm
      by_cases hk : k' = k
      · subst hk
        rw [dropLane_lane] at hm
        cases hm
      · rw [show (L.dropLane k l).gen k' = L.gen k' from Function.update_of_ne hk ..]
        exact hR.live k' m (dropLane_lanes_ne hk ▸ hm)
    · rw [List.nodup_append]
      refine ⟨hnodup, List.nodup_singleton _, ?_⟩
      intro a ha b hb heq
      rw [List.mem_singleton.mp hb] at heq
      subst heq
      have := (hmem k (L.gen k)).mp ha
      omega
    · show (L.closed ++ [l]).map Lane.id = _
      rw [List.map_append, List.map_append, hclosed]
      simp [hR.live k l hl]
    · intro k' g
      rw [List.mem_append, List.mem_singleton, hmem, Prod.mk.injEq]
      by_cases hk : k' = k
      · subst hk
        rw [show (L.dropLane k' l).gen k' = L.gen k' + 1 from Function.update_self ..]
        simp only [true_and]
        omega
      · rw [show (L.dropLane k l).gen k' = L.gen k' from Function.update_of_ne hk ..]
        simp [hk]

theorem pushAll_roll {r₀ r : Reconstructor} {recs : List RawRecord} (h₀ : Built r₀)
    (h : r₀.pushAll recs = .ok r) : Roll (ledger r) :=
  pushAll_entries (fun _ _ (he : Entry (fun _ => True) _ _) => he.roll)
    (fun _ _ _ _ => trivial) (h₀.ledger ▸ empty_roll _) h

/-- Nothing has happened to any task yet. -/
theorem built_desk {r₀ : Reconstructor} (h : Built r₀) (k : Key) : (ledger r₀).desk k = ⟨false, 0⟩ := by
  rw [h.ledger]
  rfl

theorem built_followed {r₀ : Reconstructor} (h : Built r₀) (k : Key) : r₀.Followed k := by
  intro hlive
  rw [built_desk h] at hlive
  cases hlive

/-- The desk of a task after a stream. -/
theorem desk_of_pushAll {r₀ r : Reconstructor} {recs : List RawRecord} (h₀ : Built r₀)
    (h : r₀.pushAll recs = .ok r) (k : Key) :
    (ledger r).desk k = (life r₀.pidFilter k recs).foldl Desk.step ⟨false, 0⟩ := by
  rw [pushAll_desk h (built_followed h₀ k), built_desk h₀]

/-- The id of a thread that is there. -/
theorem id_of_pushAll {r₀ r : Reconstructor} {recs : List RawRecord} (h₀ : Built r₀)
    (h : r₀.pushAll recs = .ok r) {k : Key} (hlive : ((ledger r).desk k).live = true) :
    (r.stateOf k).id = lifeId (k, ((ledger r).desk k).gen) := by
  obtain ⟨l, hl⟩ := Option.isSome_iff_exists.mp hlive
  rw [stateOf_id hl]
  exact (pushAll_roll h₀ h).live k l hl

/-! ## Streams and lives -/

/-- Every sign in a life comes from a record. -/
theorem life_split {f : Option PidTracker} {k : Key} {recs : List RawRecord} {pre post : List Sign}
    {sign : Sign} (h : life f k recs = pre ++ sign :: post) :
    ∃ xs rec ys, recs = xs ++ rec :: ys ∧ life f k xs = pre ∧
      signThrough (filterAfter f (xs ++ [rec])) k rec = some sign := by
  induction recs generalizing f pre with
  | nil =>
    rw [life] at h
    exact absurd h.symm (by simp)
  | cons rec recs ih =>
    rw [life] at h
    cases hthrough : signThrough (f.map (·.observe rec)) k rec with
    | none =>
      rw [hthrough] at h
      obtain ⟨xs, rec', ys, rfl, hpre, hsign⟩ := ih h
      refine ⟨rec :: xs, rec', ys, rfl, ?_, ?_⟩
      · rw [life, hthrough, hpre]
        rfl
      · exact hsign
    | some first =>
      rw [hthrough] at h
      cases pre with
      | nil =>
        obtain ⟨rfl, -⟩ := List.cons.inj h
        exact ⟨[], rec, recs, rfl, rfl, hthrough⟩
      | cons first' pre =>
        obtain ⟨rfl, htail⟩ := List.cons.inj h
        obtain ⟨xs, rec', ys, rfl, hpre, hsign⟩ := ih htail
        refine ⟨rec :: xs, rec', ys, rfl, ?_, ?_⟩
        · rw [life, hthrough, hpre]
          rfl
        · exact hsign

/-- The sample `s` at `n` gets past the filter, and the reconstructor is in
state `r` after it. -/
structure Keeps (r₀ : Reconstructor) (recs : List RawRecord) (n : Nat) (s : Sample)
    (r : Reconstructor) : Prop where
  here : recs[n]? = some (.sample s)
  kept : (filterAfter r₀.pidFilter (recs.take (n + 1))).all
    (fun f => f.isLiveThread s.pid s.tid) = true
  spans : r₀.pushAll (recs.take (n + 1)) = .ok r

/-- A sample of `k` that comes through ends the life so far. -/
theorem life_take_sample {f : Option PidTracker} {recs : List RawRecord} {n : Nat} {s : Sample}
    (hn : recs[n]? = some (.sample s))
    (hkept : (filterAfter f (recs.take (n + 1))).all (fun f => f.isLiveThread s.pid s.tid) = true) :
    life f (s.pid, s.tid) (recs.take (n + 1)) =
      life f (s.pid, s.tid) (recs.take n) ++ [.sample] := by
  rw [List.take_add_one, hn] at hkept ⊢
  rw [Option.toList_some, filterAfter_append] at hkept
  rw [Option.toList_some, life_append]
  congr 1
  have hthrough : signThrough ((filterAfter f (recs.take n)).map (·.observe (.sample s)))
      (s.pid, s.tid) (.sample s) = some .sample := by
    have hpass : ((filterAfter f (recs.take n)).map (·.observe (.sample s))).any
        (fun f => (foreignPid f (.sample s)).isSome) = false := by
      cases hf : filterAfter f (recs.take n) with
      | none => rfl
      | some g =>
        rw [hf] at hkept
        have hlive : (g.observe (.sample s)).isLiveThread s.pid s.tid = true := hkept
        simp [foreignPid, hlive]
    rw [signThrough, hpass]
    simp [signOf]
  rw [life, hthrough]
  rfl

/-- The id a kept sample is given: its task's life then. -/
theorem Keeps.id {r₀ r : Reconstructor} {recs : List RawRecord} {n : Nat} {s : Sample}
    (h : Keeps r₀ recs n s r) (h₀ : Built r₀) :
    (r.stateOf (s.pid, s.tid)).id = lifeId ((s.pid, s.tid),
      ((life r₀.pidFilter (s.pid, s.tid) (recs.take n) ++ [Sign.sample]).foldl Desk.step
        ⟨false, 0⟩).gen) := by
  have hdesk := desk_of_pushAll h₀ h.spans (s.pid, s.tid)
  rw [life_take_sample h.here h.kept] at hdesk
  have hlive : ((ledger r).desk (s.pid, s.tid)).live = true := by
    rw [hdesk, List.foldl_append]
    rfl
  rw [id_of_pushAll h₀ h.spans hlive, hdesk]

/-- A sample sign is a sample of the task that came through. -/
theorem signThrough_sample {f : Option PidTracker} {k : Key} {rec : RawRecord}
    (h : signThrough f k rec = some .sample) :
    ∃ s, rec = .sample s ∧ (s.pid, s.tid) = k ∧
      f.all (fun f => f.isLiveThread s.pid s.tid) = true := by
  obtain ⟨hsign, hpass⟩ := Option.filter_eq_some_iff.mp h
  cases rec with
  | sample s =>
    have hk : (s.pid, s.tid) = k := by
      rw [signOf] at hsign
      split at hsign
      next hk => exact hk
      next => cases hsign
    refine ⟨s, rfl, hk, ?_⟩
    cases f with
    | none => rfl
    | some f =>
      simp only [foreignPid, Option.any_some] at hpass
      show f.isLiveThread s.pid s.tid = true
      by_contra hdead
      simp [hdead] at hpass
  | decoderError e =>
    rw [signOf] at hsign
    split at hsign <;> cases hsign
  | task t =>
    rw [signOf] at hsign
    split at hsign <;> cases hsign
  | mmap | switch | lost => cases hsign

/-! ## Agreement of the two passes -/

/-- What both passes need of a task: at each of its samples, the exits since
the sample before (or since the start) that found it with a thread, after a
sample or a decoder error of it, are exactly one if it exited at all. -/
def OneDeath : (live exited : Bool) → (deaths : Nat) → List Sign → Prop
  | _, _, _, [] => True
  | _, exited, deaths, .sample :: life => deaths = exited.toNat ∧ OneDeath true false 0 life
  | _, exited, deaths, .error :: life => OneDeath true exited deaths life
  | live, _, deaths, .exit :: life => OneDeath false true (deaths + live.toNat) life

theorem forall_sample_cons {P : List Sign → Prop} {sign : Sign} {life : List Sign} :
    (∀ pre post, sign :: life = pre ++ .sample :: post → P (pre ++ [.sample])) ↔
      (sign = .sample → P [.sample]) ∧
        ∀ pre post, life = pre ++ .sample :: post → P (sign :: (pre ++ [.sample])) := by
  constructor
  · intro h
    refine ⟨?_, ?_⟩
    · rintro rfl
      exact h [] life rfl
    · intro pre post hlife
      exact h (sign :: pre) post (by rw [hlife]; rfl)
  · intro ⟨hfirst, hrest⟩ pre post hlife
    cases pre with
    | nil =>
      obtain ⟨rfl, rfl⟩ := List.cons.inj hlife
      exact hfirst rfl
    | cons sign' pre =>
      obtain ⟨rfl, htail⟩ := List.cons.inj hlife
      exact hrest pre post htail

/-- Desk and gate are in the same generation at every sample of a life exactly
when each stretch between samples has one death. -/
theorem generations_agree_iff (d : Desk) (g : Gate) (deaths : Nat) (life : List Sign)
    (hgap : d.gen = g.gen + deaths) :
    (∀ pre post, life = pre ++ .sample :: post →
        ((pre ++ [Sign.sample]).foldl Desk.step d).gen =
          ((pre ++ [Sign.sample]).foldl Gate.step g).gen) ↔
      OneDeath d.live g.exited deaths life := by
  induction life generalizing d g deaths with
  | nil =>
    rw [OneDeath]
    refine iff_of_true ?_ trivial
    intro pre post h
    exact absurd h.symm (by simp)
  | cons sign life ih =>
    rw [forall_sample_cons (P := fun l => (l.foldl Desk.step d).gen = (l.foldl Gate.step g).gen)]
    simp only [List.foldl_cons]
    cases sign with
    | sample =>
      rw [OneDeath]
      -- here both are asked, and the gate counts one death at most
      have hhere : ((d.step .sample).gen = (g.step .sample).gen) ↔ deaths = g.exited.toNat := by
        simp only [Desk.step, Gate.step]
        omega
      constructor
      · intro hsample
        obtain ⟨hfirst, hrest⟩ := hsample
        have hdeaths := hhere.mp (hfirst rfl)
        refine ⟨hdeaths, (ih (d.step .sample) (g.step .sample) 0 ?_).mp hrest⟩
        simp only [Desk.step, Gate.step]
        omega
      · intro hone
        obtain ⟨hdeaths, hrest⟩ := hone
        refine ⟨fun _ => hhere.mpr hdeaths, (ih (d.step .sample) (g.step .sample) 0 ?_).mpr hrest⟩
        simp only [Desk.step, Gate.step]
        omega
    | error =>
      rw [OneDeath]
      simp only [reduceCtorEq, false_implies, true_and]
      exact ih (d.step .error) (g.step .error) deaths hgap
    | exit =>
      rw [OneDeath]
      simp only [reduceCtorEq, false_implies, true_and]
      refine ih (d.step .exit) (g.step .exit) (deaths + d.live.toNat) ?_
      simp only [Desk.step, Gate.step]
      omega

/-- An instruction pass as its builders make it, nothing pushed yet. -/
inductive InsnReconstructor.Built : InsnReconstructor → Prop
  | new (analysisId : String) (originAbs : Nat) (images : List ArchivedImage)
      (build : List UInt8 → ImageIndex) (tools : InsnTools) (mappings : List MappingRecord)
      (selection : Option Selection) :
      Built (.new analysisId originAbs images build tools mappings selection)
  | withBudget {i : InsnReconstructor} (bytes : Nat) : Built i → Built (i.withBudget bytes)
  | withPidFilter {i : InsnReconstructor} (f : PidTracker) : Built i → Built (i.withPidFilter f)

theorem InsnReconstructor.Built.gate {i : InsnReconstructor} (h : InsnReconstructor.Built i)
    (k : Key) : i.gate k = ⟨false, 0⟩ := by
  induction h with
  | new => rfl
  | withBudget _ _ ih => exact ih
  | withPidFilter _ _ ih => exact ih

/-- The sample `s` at `n` gets past the filter in both passes, which are in
states `r` and `i` after it. -/
structure MeetsBoth (r₀ : Reconstructor) (i₀ : InsnReconstructor) (recs : List RawRecord)
    (n : Nat) (s : Sample) (r : Reconstructor) (i : InsnReconstructor) : Prop
    extends Keeps r₀ recs n s r where
  insns : i₀.pushAll ((recs.take (n + 1)).map asInstruction) = .ok i

/-- Both passes give each sample of a stream the same thread id exactly when
every task has one death between its samples, or none and no exit. -/
theorem threadIds_agree_iff {r₀ : Reconstructor} {i₀ : InsnReconstructor}
    (hr₀ : Built r₀) (hi₀ : InsnReconstructor.Built i₀) (hfilter : i₀.pidFilter = r₀.pidFilter)
    {recs : List RawRecord} {r : Reconstructor} {i : InsnReconstructor}
    (hr : r₀.pushAll recs = .ok r) (hi : i₀.pushAll (recs.map asInstruction) = .ok i) :
    (∀ n s r i, MeetsBoth r₀ i₀ recs n s r i →
        (r.stateOf (s.pid, s.tid)).id = i.threadIds.id s.pid s.tid) ↔
      ∀ k, OneDeath false false 0 (life r₀.pidFilter k recs) := by
  have hmeets : ∀ n s r i, MeetsBoth r₀ i₀ recs n s r i →
      ((r.stateOf (s.pid, s.tid)).id = i.threadIds.id s.pid s.tid ↔
        ((life r₀.pidFilter (s.pid, s.tid) (recs.take n) ++ [Sign.sample]).foldl Desk.step
            ⟨false, 0⟩).gen =
          ((life r₀.pidFilter (s.pid, s.tid) (recs.take n) ++ [Sign.sample]).foldl Gate.step
            ⟨false, 0⟩).gen) := by
    intro n s r i h
    have hgate := InsnReconstructor.pushAll_gate h.insns (s.pid, s.tid)
    rw [hfilter, hi₀.gate, life_take_sample h.here h.kept] at hgate
    rw [h.toKeeps.id hr₀, ← hgate]
    simp [lifeId, ThreadIds.id, InsnReconstructor.gate]
  constructor
  · intro h k
    refine (generations_agree_iff ⟨false, 0⟩ ⟨false, 0⟩ 0 _ rfl).mp ?_
    intro pre post hlife
    -- a sign of the life is a sample of the stream, which both passes meet
    obtain ⟨xs, rec, ys, rfl, rfl, hsign⟩ := life_split hlife
    obtain ⟨s, rfl, rfl, hkept⟩ := signThrough_sample hsign
    have htake : (xs ++ .sample s :: ys).take (xs.length + 1) = xs ++ [.sample s] := by
      rw [List.append_cons]
      exact List.take_left' (by simp)
    rw [List.append_cons] at hr hi
    obtain ⟨r', hr', -⟩ := foldlM_append_ok.mp hr
    rw [List.map_append] at hi
    obtain ⟨i', hi', -⟩ := foldlM_append_ok.mp hi
    have hmeet : MeetsBoth r₀ i₀ (xs ++ .sample s :: ys) xs.length s r' i' :=
      ⟨⟨by simp, by rw [htake]; exact hkept, by rw [htake]; exact hr'⟩, by rw [htake]; exact hi'⟩
    have hagree := (hmeets _ _ _ _ hmeet).mp (h _ _ _ _ hmeet)
    rw [List.take_left] at hagree
    exact hagree
  · intro h n s r i hmeet
    refine (hmeets n s r i hmeet).mpr ?_
    refine (generations_agree_iff ⟨false, 0⟩ ⟨false, 0⟩ 0 _ rfl).mpr (h (s.pid, s.tid)) _
      (life (filterAfter r₀.pidFilter (recs.take (n + 1))) (s.pid, s.tid) (recs.drop (n + 1))) ?_
    rw [List.append_cons, ← life_take_sample hmeet.here hmeet.kept, ← life_append,
      List.take_append_drop]

/-! ## Uniqueness of the ids -/

/-- A sample of the task, or a decoder error naming it, comes through. -/
def HasThread (f : Option PidTracker) (recs : List RawRecord) (k : Key) : Prop :=
  ∃ sign ∈ life f k recs, sign ≠ .exit

/-- A desk has seen a thread when it has one or is past its first life. -/
theorem desk_started_iff (d : Desk) (life : List Sign) :
    ((life.foldl Desk.step d).live = true ∨ 0 < (life.foldl Desk.step d).gen) ↔
      (d.live = true ∨ 0 < d.gen) ∨ ∃ sign ∈ life, sign ≠ .exit := by
  induction life generalizing d with
  | nil => simp
  | cons sign life ih =>
    rw [List.foldl_cons, ih]
    cases sign with
    | sample => simp [Desk.step]
    | error => simp [Desk.step]
    | exit =>
      have hstep : ((d.step .exit).live = true ∨ 0 < (d.step .exit).gen) ↔
          (d.live = true ∨ 0 < d.gen) := by
        obtain ⟨live, gen⟩ := d
        cases live <;> simp [Desk.step]
      rw [hstep]
      simp

theorem desk_gen_le (d : Desk) (life : List Sign) : d.gen ≤ (life.foldl Desk.step d).gen := by
  induction life generalizing d with
  | nil => exact Nat.le_refl _
  | cons sign life ih =>
    refine Nat.le_trans ?_ (ih (d.step sign))
    cases sign <;> simp [Desk.step]

/-- After an exit a task with a thread is past its generation. -/
theorem desk_gen_lt {d : Desk} {life : List Sign} (hlive : d.live = true)
    (hexit : Sign.exit ∈ life) : d.gen < (life.foldl Desk.step d).gen := by
  induction life generalizing d with
  | nil => cases hexit
  | cons sign life ih =>
    rw [List.foldl_cons]
    cases sign with
    | sample => exact ih (d := d.step .sample) rfl ((List.mem_cons.mp hexit).resolve_left nofun)
    | error => exact ih (d := d.step .error) rfl ((List.mem_cons.mp hexit).resolve_left nofun)
    | exit =>
      refine Nat.lt_of_lt_of_le ?_ (desk_gen_le (d.step .exit) life)
      simp [Desk.step, hlive]

/-- An exit shows in the life of its task, whatever the filter does. -/
theorem exit_mem_life {f : Option PidTracker} {recs : List RawRecord} {j : Nat} {k : Key}
    (h : ExitAt recs j k) : Sign.exit ∈ life f k recs := by
  obtain ⟨t, ht, hkind, rfl⟩ := h
  induction recs generalizing f j with
  | nil => cases ht
  | cons rec recs ih =>
    rw [life, List.mem_append]
    cases j with
    | zero =>
      obtain rfl := Option.some.inj ht
      left
      simp [signThrough, signOf, hkind, Option.filter_some]
    | succ j => exact .inr (ih ht)

/-- The lives a ledger lists: the past ones, then the ones going on. -/
theorem roll_lives {L : Ledger} (hF : Forest L) (hR : Roll L) :
    ∃ lives : List (Key × Nat), lives.Nodup ∧
      (L.closed ++ L.order.filterMap L.lanes).map Lane.id = lives.map lifeId ∧
      ∀ k g, (k, g) ∈ lives ↔ g < L.gen k ∨ ((L.lanes k).isSome ∧ g = L.gen k) := by
  obtain ⟨past, hnodup, hclosed, hmem⟩ := hR.past
  refine ⟨past ++ L.order.map fun k => (k, L.gen k), ?_, ?_, ?_⟩
  · rw [List.nodup_append]
    refine ⟨hnodup, hF.nodup.map fun a b hab => (Prod.mk.inj hab).1, ?_⟩
    intro a ha b hb heq
    obtain ⟨k, -, rfl⟩ := List.mem_map.mp hb
    subst heq
    have := (hmem k (L.gen k)).mp ha
    omega
  · have hlive : (L.order.filterMap L.lanes).map Lane.id =
        (L.order.map fun k => (k, L.gen k)).map lifeId := by
      have hall : ∀ k ∈ L.order, ∃ l, L.lanes k = some l := fun k hk => (hF.live k).mp hk
      generalize L.order = order at hall
      induction order with
      | nil => rfl
      | cons k ks ih =>
        obtain ⟨l, hl⟩ := hall k List.mem_cons_self
        rw [List.filterMap_cons_some hl, List.map_cons, List.map_cons, List.map_cons,
          hR.live k l hl, ih fun k' hk' => hall k' (List.mem_cons_of_mem _ hk')]
    rw [List.map_append, List.map_append, hclosed, hlive]
  · intro k g
    rw [List.mem_append, hmem, List.mem_map]
    have hlisted : (∃ a ∈ L.order, (a, L.gen a) = (k, g)) ↔
        (L.lanes k).isSome = true ∧ g = L.gen k := by
      constructor
      · rintro ⟨a, ha, heq⟩
        obtain ⟨rfl, rfl⟩ := Prod.mk.inj heq
        exact ⟨Option.isSome_iff_exists.mpr ((hF.live a).mp ha), rfl⟩
      · rintro ⟨hlane, rfl⟩
        exact ⟨k, (hF.live k).mpr (Option.isSome_iff_exists.mp hlane), rfl⟩
    rw [hlisted]

/-- The ids of a finished thread list are the ids of distinct lives, and the
tasks with a life are those with a thread. -/
theorem finish_lives {r₀ r : Reconstructor} {recs : List RawRecord} {ir : AnalysisIr}
    (h₀ : Built r₀) (hr : r₀.pushAll recs = .ok r) (hfin : r.finish = .ok ir) :
    ∃ lives : List (Key × Nat), lives.Nodup ∧ ir.threads.map (·.id) = lives.map lifeId ∧
      (∀ k g, (k, g) ∈ lives → (k, 0) ∈ lives) ∧
      ∀ k, (k, 0) ∈ lives ↔ HasThread r₀.pidFilter recs k := by
  have hF : Forest (ledger r.closeAll) :=
    closeAll_entries (fun _ _ (he : Entry (fun _ => True) _ _) h => he.forest h)
      (pushAll_forest h₀ hr)
  have hR : Roll (ledger r.closeAll) :=
    closeAll_entries (fun _ _ (he : Entry (fun _ => True) _ _) h => he.roll h)
      (pushAll_roll h₀ hr)
  have hdesk : ∀ k, (ledger r.closeAll).desk k = (ledger r).desk k := by
    intro k
    exact closeAll_invariant (P := fun L => L.desk k = (ledger r).desk k)
      (fun L k' l hl hL => ((close_posts hl none openCompleteness).desk k).trans hL) rfl
  obtain ⟨lives, hnodup, hids, hmem⟩ := roll_lives hF hR
  have hfinished := finish_finished (fun k hk => (hF.live k).mp hk) hfin
  have hmem' : ∀ k g, (k, g) ∈ lives ↔
      g < ((ledger r).desk k).gen ∨ (((ledger r).desk k).live = true ∧ g = ((ledger r).desk k).gen) := by
    intro k g
    rw [hmem, ← hdesk]
    rfl
  refine ⟨lives, hnodup, ?_, ?_, ?_⟩
  · rw [← hids]
    exact (forall₂_map_eq hfinished.threads fun l t h => h.1.symm).symm
  · intro k g hg
    rw [hmem'] at hg ⊢
    rcases hg with hg | ⟨hlive, hg⟩
    · exact .inl (by omega)
    · by_cases hgen : ((ledger r).desk k).gen = 0
      · exact .inr ⟨hlive, hgen.symm⟩
      · exact .inl (by omega)
  · intro k
    have hstart := desk_started_iff ⟨false, 0⟩ (life r₀.pidFilter k recs)
    rw [← desk_of_pushAll h₀ hr] at hstart
    simp only [Bool.false_eq_true, Nat.lt_irrefl, or_self, false_or] at hstart
    rw [hmem', HasThread, ← hstart]
    by_cases hgen : ((ledger r).desk k).gen = 0
    · simp [hgen]
    · simp [Nat.pos_of_ne_zero hgen]

theorem Keeps.hasThread {r₀ r : Reconstructor} {recs : List RawRecord} {n : Nat} {s : Sample}
    (h : Keeps r₀ recs n s r) : HasThread r₀.pidFilter recs (s.pid, s.tid) := by
  refine ⟨.sample, ?_, nofun⟩
  rw [← List.take_append_drop (n + 1) recs, life_append, life_take_sample h.here h.kept]
  simp

/-- An exit between two samples of a task moves it to another generation. -/
theorem gen_lt_of_exit {f : Option PidTracker} {k : Key} {recs : List RawRecord} {n m j : Nat}
    (hn : life f k (recs.take (n + 1)) = life f k (recs.take n) ++ [.sample]) (hnj : n < j)
    (hjm : j < m) (hexit : ExitAt recs j k) :
    ((life f k (recs.take n) ++ [Sign.sample]).foldl Desk.step ⟨false, 0⟩).gen <
      ((life f k (recs.take m) ++ [Sign.sample]).foldl Desk.step ⟨false, 0⟩).gen := by
  have hsplit : recs.take m = recs.take (n + 1) ++ (recs.take m).drop (n + 1) := by
    have h := List.take_append_drop (n + 1) (recs.take m)
    rw [List.take_take, Nat.min_eq_left (by omega)] at h
    exact h.symm
  have hbetween : ExitAt ((recs.take m).drop (n + 1)) (j - (n + 1)) k := by
    obtain ⟨t, ht, hkind, hk⟩ := hexit
    refine ⟨t, ?_, hkind, hk⟩
    rw [TaskAt, List.getElem?_drop, List.getElem?_take_of_lt (by omega)]
    rw [show n + 1 + (j - (n + 1)) = j by omega]
    exact ht
  rw [hsplit, life_append, hn]
  simp only [List.foldl_append]
  exact desk_gen_lt (d := ((life f k (recs.take n)).foldl Desk.step ⟨false, 0⟩).step .sample) rfl
    (exit_mem_life hbetween)

/-- The thread list of a finished analysis has distinct ids, and samples with
one id belong to one task with no exit between them, exactly when no two
processes have threads of the same tid. -/
theorem threadIds_unique_iff {r₀ r : Reconstructor} {recs : List RawRecord} {ir : AnalysisIr}
    (h₀ : Built r₀) (hr : r₀.pushAll recs = .ok r) (hfin : r.finish = .ok ir) :
    ((ir.threads.map (·.id)).Nodup ∧
      ∀ n m s s' r r', n < m → Keeps r₀ recs n s r → Keeps r₀ recs m s' r' →
        (r.stateOf (s.pid, s.tid)).id = (r'.stateOf (s'.pid, s'.tid)).id →
          (s.pid, s.tid) = (s'.pid, s'.tid) ∧
            ∀ j, n < j → j < m → ¬ ExitAt recs j (s.pid, s.tid)) ↔
      ∀ k k', HasThread r₀.pidFilter recs k → HasThread r₀.pidFilter recs k' →
        k.2 = k'.2 → k = k' := by
  obtain ⟨lives, hnodup, hids, hfirst, hthread⟩ := finish_lives h₀ hr hfin
  rw [hids, List.nodup_map_iff_inj_on hnodup]
  constructor
  · intro ⟨hinj, _⟩ k k' hk hk' htid
    have heq := hinj (k, 0) ((hthread k).mpr hk) (k', 0) ((hthread k').mpr hk') (by
      rw [lifeId, lifeId, htid])
    exact (Prod.mk.inj heq).1
  · intro howner
    refine ⟨?_, ?_⟩
    · intro a ha b hb heq
      obtain ⟨htid, hgen⟩ := ThreadId.task.inj heq
      have hk := howner a.1 b.1 ((hthread a.1).mp (hfirst a.1 a.2 ha))
        ((hthread b.1).mp (hfirst b.1 b.2 hb)) htid
      exact Prod.ext hk hgen
    · intro n m s s' rn rm hnm hn hm heq
      rw [hn.id h₀, hm.id h₀] at heq
      obtain ⟨htid, hgen⟩ := ThreadId.task.inj heq
      have hk : (s.pid, s.tid) = (s'.pid, s'.tid) := howner _ _ hn.hasThread hm.hasThread htid
      refine ⟨hk, ?_⟩
      intro j hnj hjm hexit
      have hlt := gen_lt_of_exit (life_take_sample hn.here hn.kept) hnj hjm hexit
      rw [hk] at hlt hgen
      exact absurd hgen (Nat.ne_of_lt hlt)

/-! ## Small streams -/

/-- An exit of task `(7, tid)`. -/
def exitAt (tid time : Nat) : RawRecord := .task ⟨.exit, 7, tid, none, none, some time, none⟩

/-- An instruction pass over no images. -/
def bareInsns : InsnReconstructor :=
  .new "a" 0 [] (fun _ => ⟨[], []⟩) ⟨fun _ _ => ⟨1, .next, 0⟩, fun _ _ => none⟩ [] none

/-- A tid used twice. -/
def reusedTid : List RawRecord :=
  [branchAt 1 10 .CALL 100 200, exitAt 1 20, branchAt 1 30 .CALL 100 200]

theorem life_reusedTid (k : Key) :
    life none k reusedTid = if (7, 1) = k then [.sample, .exit, .sample] else [] := by
  by_cases hk : ((7, 1) : Key) = k
  · subst hk
    decide
  · simp [life, reusedTid, branchAt, exitAt, signThrough, signOf, hk]

/-- `threadIds_agree_iff` on a tid used twice. -/
theorem threadIds_agree_reusedTid :
    ∃ r i, bare.pushAll reusedTid = .ok r ∧
      bareInsns.pushAll (reusedTid.map asInstruction) = .ok i ∧
      ∀ n s r i, MeetsBoth bare bareInsns reusedTid n s r i →
        (r.stateOf (s.pid, s.tid)).id = i.threadIds.id s.pid s.tid := by
  obtain ⟨r, hr, -⟩ := ok_of_any (x := bare.pushAll reusedTid) (p := fun _ => true) (by decide)
  obtain ⟨i, hi, -⟩ := ok_of_any (x := bareInsns.pushAll (reusedTid.map asInstruction))
    (p := fun _ => true) (by decide +kernel)
  refine ⟨r, i, hr, hi, (threadIds_agree_iff (.new ..) (.new ..) rfl hr hi).mpr ?_⟩
  intro k
  show OneDeath false false 0 (life none k reusedTid)
  rw [life_reusedTid]
  by_cases hk : ((7, 1) : Key) = k
  · simp [hk, OneDeath]
  · simp [hk, OneDeath]

/-- A task whose exit comes before its first sample. -/
def lateSample : List RawRecord := [exitAt 1 10, branchAt 1 20 .CALL 100 200]

/-- The span pass calls it `t_1`, the instruction pass `t_1_g1`. -/
theorem threadIds_lateSample :
    ¬ ∀ (r₀ : Reconstructor) (i₀ : InsnReconstructor), Built r₀ → InsnReconstructor.Built i₀ →
      i₀.pidFilter = r₀.pidFilter → ∀ recs n s r i, MeetsBoth r₀ i₀ recs n s r i →
        (r.stateOf (s.pid, s.tid)).id = i.threadIds.id s.pid s.tid := by
  intro h
  obtain ⟨r, hr, hrid⟩ := ok_of_any (x := bare.pushAll lateSample)
    (p := fun r => (r.stateOf (7, 1)).id = .task 1 0) (by decide)
  obtain ⟨i, hi, hiid⟩ := ok_of_any (x := bareInsns.pushAll (lateSample.map asInstruction))
    (p := fun i => i.threadIds.id 7 1 = .task 1 1) (by decide +kernel)
  have hagree := h bare bareInsns (.new ..) (.new ..) rfl lateSample 1 _ r i
    ⟨⟨rfl, rfl, hr⟩, hi⟩
  have heq : ThreadId.task 1 0 = .task 1 1 := by
    rw [← of_decide_eq_true hrid, ← of_decide_eq_true hiid]
    exact hagree
  cases heq

/-- `threadIds_unique_iff` on a tid used twice. -/
theorem threadIds_unique_reusedTid :
    ∃ r ir, bare.pushAll reusedTid = .ok r ∧ r.finish = .ok ir ∧
      (ir.threads.map (·.id)).Nodup ∧
      ∀ n m s s' r r', n < m → Keeps bare reusedTid n s r → Keeps bare reusedTid m s' r' →
        (r.stateOf (s.pid, s.tid)).id = (r'.stateOf (s'.pid, s'.tid)).id →
          (s.pid, s.tid) = (s'.pid, s'.tid) ∧
            ∀ j, n < j → j < m → ¬ ExitAt reusedTid j (s.pid, s.tid) := by
  obtain ⟨ir, hir, -⟩ := ok_of_any (x := bare.pushAll reusedTid >>= finish)
    (p := fun _ => true) (by decide)
  obtain ⟨r, hr, hfin⟩ := bind_ok.mp hir
  refine ⟨r, ir, hr, hfin, (threadIds_unique_iff (.new ..) hr hfin).mpr ?_⟩
  have honly : ∀ k, HasThread bare.pidFilter reusedTid k → (7, 1) = k := by
    intro k ⟨sign, hsign, _⟩
    by_contra hk
    have hlife : life bare.pidFilter k reusedTid = [] := (life_reusedTid k).trans (if_neg hk)
    rw [hlife] at hsign
    cases hsign
  intro k k' hk hk' _
  rw [← honly k hk, ← honly k' hk']

/-- Another process takes over the tid of a task that exited. -/
def adoptedTid : List RawRecord :=
  [branchAt 1 10 .CALL 100 200, exitAt 1 20,
    .sample ⟨8, 1, some 0, some 30, .branches, some 100, some 200, .CALL, none, .empty⟩]

/-- Both tasks are listed as `t_1`. -/
theorem threadIds_adoptedTid :
    ¬ ∀ (r₀ r : Reconstructor) (recs : List RawRecord) (ir : AnalysisIr), Built r₀ →
      r₀.pushAll recs = .ok r → r.finish = .ok ir → (ir.threads.map (·.id)).Nodup := by
  intro h
  obtain ⟨ir, hir, hids⟩ := ok_of_any (x := bare.pushAll adoptedTid >>= finish)
    (p := fun ir => ir.threads.map (·.id) = [.task 1 0, .task 1 0]) (by decide)
  obtain ⟨r, hr, hfin⟩ := bind_ok.mp hir
  have hnodup := h bare r adoptedTid ir (.new ..) hr hfin
  rw [of_decide_eq_true hids] at hnodup
  simp at hnodup

end TraceMcp.Decode
