import TraceMcp.Decode.Refine
import TraceMcp.Lib.Tally

/-!
# Postings

Most invariants of the ledger do not care which move was made, only what it
posts: which lane changes, which rows are added, whether a new id is used up.
`Posting` is that, `Move.posting` derives it once for every move, and
`Action.entries` shows that a record is a sequence of entries: postings, new
lanes, retired lanes and gaps of no thread. The forest and the accounts are
invariants of single entries.
-/

namespace TraceMcp.Decode

open TraceMcp.Lib

namespace Ledger

/-! ## Stacks -/

/-- Each frame's parent is the frame directly below it, none at the bottom. -/
def Chained : List OpenSpan → Prop
  | [] => True
  | o :: rest => o.parent = topId rest ∧ Chained rest

/-- Ids decrease strictly from the innermost frame down. -/
def Decreasing (stack : List OpenSpan) : Prop := stack.Pairwise fun o p => p.id < o.id

/-- The ids of a stack. -/
def stackIds (stack : List OpenSpan) : List LocalId := stack.map OpenSpan.id

theorem mem_stackIds_of_topId {stack : List OpenSpan} {p : LocalId} (h : topId stack = some p) :
    p ∈ stackIds stack := by
  cases stack with
  | nil => cases h
  | cons o rest =>
    cases h
    exact List.mem_cons_self

/-- In a chained, decreasing stack a frame's parent is below it and smaller. -/
theorem parent_below {stack : List OpenSpan} (hc : Chained stack) (hd : Decreasing stack) :
    ∀ o ∈ stack, ∀ p, o.parent = some p → p ∈ stackIds stack ∧ p < o.id := by
  induction stack with
  | nil => exact fun o ho => absurd ho List.not_mem_nil
  | cons top rest ih =>
    intro o ho p hp
    rcases List.mem_cons.mp ho with rfl | ho
    · have hmem := mem_stackIds_of_topId (hc.1 ▸ hp)
      obtain ⟨below, hbelow, rfl⟩ := List.mem_map.mp hmem
      exact ⟨List.mem_cons_of_mem _ hmem, List.rel_of_pairwise_cons hd hbelow⟩
    · obtain ⟨hmem, hlt⟩ := ih hc.2 (List.Pairwise.of_cons hd) o ho p hp
      exact ⟨List.mem_cons_of_mem _ hmem, hlt⟩

theorem nameTop_ids (f : LocalId) (stack : List OpenSpan) :
    stackIds (Reconstructor.nameTop f stack) = stackIds stack := by
  cases stack <;> rfl

theorem nameTop_chained (f : LocalId) {stack : List OpenSpan} (h : Chained stack) :
    Chained (Reconstructor.nameTop f stack) := by
  cases stack with
  | nil => exact h
  | cons o rest => exact h

theorem nameTop_decreasing (f : LocalId) {stack : List OpenSpan} (h : Decreasing stack) :
    Decreasing (Reconstructor.nameTop f stack) := by
  cases stack with
  | nil => exact h
  | cons o rest => exact List.pairwise_cons.mpr (List.pairwise_cons.mp h)

/-- A closed row repeats the id and the parent of an open frame. -/
def FromFrame (stack : List OpenSpan) (s : FunctionSpan) : Prop :=
  ∃ o ∈ stack, s.id = o.id ∧ s.parent = o.parent

/-! ## Postings -/

/-- What is posted to lane `l` of `k`: it becomes `l'`, `rows` and `gaps` are
appended, and `opened` says whether a span id is used up. -/
structure Posting (k : Key) (L L' : Ledger) (l l' : Lane) (rows : List FunctionSpan)
    (gaps : List GapRecord) (opened : Bool) : Prop where
  lane : L.lanes k = some l
  lanes : L'.lanes = Function.update L.lanes k (some l')
  order : L'.order = L.order
  closed : L'.closed = L.closed
  gen : L'.gen = L.gen
  spans : L'.spans = L.spans ++ rows
  spansN : L'.spansN = L.spansN + rows.length
  spilling : L'.spilling = L.spilling
  allGaps : L'.gaps = L.gaps ++ gaps
  nextSpan : L'.nextSpan = if opened then nextId L.nextSpan else L.nextSpan
  id_eq : l'.id = l.id
  spans_eq : l'.spans = l.spans + rows.length
  gaps_eq : l'.gaps = l.gaps + gaps.length
  rows_thread : ∀ s ∈ rows, s.thread = l.id
  gaps_thread : ∀ g ∈ gaps, g.thread = l.id
  rows_from : ∀ s ∈ rows, s.parent = none ∨ FromFrame l.stack s
  ids : (rows.map FunctionSpan.id ++ stackIds l'.stack).Perm
    ((if opened then [L.nextSpan] else []) ++ stackIds l.stack)
  chained : Chained l.stack → Chained l'.stack
  decreasing : Decreasing l.stack →
    (opened = true → ∀ o ∈ l.stack, o.id < L.nextSpan) → Decreasing l'.stack

/-- There is something to post that leads from `L` to `L'`. -/
def Posts (k : Key) (L L' : Ledger) : Prop :=
  ∃ l l' rows gaps opened, Posting k L L' l l' rows gaps opened

variable {k : Key} {L L' : Ledger} {l : Lane}

/-- Pushing a frame keeps the ids decreasing. -/
theorem decreasing_cons {o : OpenSpan} {stack : List OpenSpan} {n : LocalId} (ho : o.id = n)
    (hd : Decreasing stack) (hn : ∀ p ∈ stack, p.id < n) : Decreasing (o :: stack) :=
  List.pairwise_cons.mpr ⟨fun p hp => ho ▸ hn p hp, hd⟩

/-- A write to the lane that leaves its frames and counters alone. -/
theorem setLane_posts (h : L.lanes k = some l) (l' : Lane) (hid : l'.id = l.id)
    (hstack : l'.stack = l.stack) (hspans : l'.spans = l.spans) (hgaps : l'.gaps = l.gaps) :
    Posts k L (L.setLane k l') := by
  refine ⟨l, l', [], [], false, ⟨h, rfl, rfl, rfl, rfl, (List.append_nil _).symm, rfl, rfl,
    (List.append_nil _).symm, rfl, hid, hspans, hgaps, fun _ h => absurd h List.not_mem_nil,
    fun _ h => absurd h List.not_mem_nil, fun _ h => absurd h List.not_mem_nil, ?_, ?_, ?_⟩⟩
  · rw [hstack]
    exact .refl _
  · rw [hstack]
    exact id
  · rw [hstack]
    exact fun h _ => h

theorem flushRows_from {t : ThreadId} {endAbs : Option Nat}
    {c : SpanCompleteness → SpanCompleteness} {stack : List OpenSpan} :
    ∀ s ∈ flushRows t endAbs c stack, s.parent = none ∨ FromFrame stack s := by
  intro s hs
  obtain ⟨o, ho, rfl⟩ := List.mem_map.mp hs
  exact Or.inr ⟨o, ho, rfl, rfl⟩

theorem flushRows_thread {t : ThreadId} {endAbs : Option Nat}
    {c : SpanCompleteness → SpanCompleteness} {stack : List OpenSpan} :
    ∀ s ∈ flushRows t endAbs c stack, s.thread = t := by
  intro s hs
  obtain ⟨o, -, rfl⟩ := List.mem_map.mp hs
  rfl

@[simp] theorem flushRows_ids (t : ThreadId) (endAbs : Option Nat)
    (c : SpanCompleteness → SpanCompleteness) (stack : List OpenSpan) :
    (flushRows t endAbs c stack).map FunctionSpan.id = stackIds stack := by
  rw [flushRows, List.map_map]
  rfl

@[simp] theorem flushRows_length (t : ThreadId) (endAbs : Option Nat)
    (c : SpanCompleteness → SpanCompleteness) (stack : List OpenSpan) :
    (flushRows t endAbs c stack).length = stack.length :=
  List.length_map ..

/-- Cutting a lane posts its whole stack and one gap. -/
theorem cut_posts (h : L.lanes k = some l) (p : Option PendingEnd) (kind : GapKind)
    (a b : Option Nat) (x : Bool) (reason : String) :
    Posts k L (L.cut k l p kind a b x reason) := by
  refine ⟨l, _, _, _, false, ⟨h, rfl, rfl, rfl, rfl, rfl, rfl, rfl, rfl, rfl, rfl,
    by rw [flushRows_length], rfl, flushRows_thread, ?_, flushRows_from, ?_,
    fun _ => trivial, fun _ _ => .nil⟩⟩
  · intro g hg
    rw [List.mem_singleton.mp hg]
  · rw [flushRows_ids]
    exact List.Perm.of_eq (List.append_nil _)

/-- The lane a thread leaves behind when its stack is closed. -/
def closedLane (l : Lane) : Lane :=
  { l with stack := [], pending := none, spans := l.spans + l.stack.length }

/-- Closing a lane posts its whole stack. -/
theorem close_posts (h : L.lanes k = some l) (endAbs : Option Nat)
    (c : SpanCompleteness → SpanCompleteness) :
    Posts k L ((L.setLane k (closedLane l)).emit (flushRows l.id endAbs c l.stack)) := by
  refine ⟨l, _, _, [], false, ⟨h, rfl, rfl, rfl, rfl, rfl, rfl, rfl, (List.append_nil _).symm, rfl,
    rfl, by rw [flushRows_length]; rfl, rfl, flushRows_thread, fun _ h => absurd h List.not_mem_nil,
    flushRows_from, ?_, fun _ => trivial, fun _ _ => .nil⟩⟩
  rw [flushRows_ids]
  exact List.Perm.of_eq (List.append_nil _)

/-- Every move is a posting. -/
theorem Move.posts {now : Option Nat} (h : Move k now L L') : Posts k L L' := by
  cases h with
  | @enter l o hl ho =>
    refine ⟨l, _, [], [], true, ⟨hl, rfl, rfl, rfl, rfl, (List.append_nil _).symm, rfl, rfl,
      (List.append_nil _).symm, rfl, rfl, rfl, rfl, fun _ h => absurd h List.not_mem_nil,
      fun _ h => absurd h List.not_mem_nil, fun _ h => absurd h List.not_mem_nil, ?_,
      fun hc => ⟨ho.parent_eq, hc⟩, fun hd hn => decreasing_cons ho.id_eq hd (hn rfl)⟩⟩
    exact List.Perm.of_eq (congrArg (· :: stackIds l.stack) ho.id_eq)
  | @leave l o rest ev c hl hstack =>
    refine ⟨l, _, [Reconstructor.spanOf l.id o now ev c], [], false, ⟨hl, rfl, rfl, rfl, rfl, rfl,
      rfl, rfl, (List.append_nil _).symm, rfl, rfl, rfl, rfl, ?_,
      fun _ h => absurd h List.not_mem_nil, ?_, ?_, ?_, ?_⟩⟩
    · intro s hs
      rw [List.mem_singleton.mp hs]
      rfl
    · intro s hs
      rw [List.mem_singleton.mp hs]
      exact Or.inr ⟨o, hstack ▸ List.mem_cons_self, rfl, rfl⟩
    · rw [hstack]
      exact .refl _
    · rw [hstack]
      exact And.right
    · rw [hstack]
      exact fun hd _ => List.Pairwise.of_cons hd
  | @tail l o n rest ev hl hstack hn =>
    refine ⟨l, _, [Reconstructor.spanOf l.id o now ev .uncertainUnwind], [], true, ⟨hl, rfl, rfl,
      rfl, rfl, rfl, rfl, rfl, (List.append_nil _).symm, rfl, rfl, rfl, rfl, ?_,
      fun _ h => absurd h List.not_mem_nil, ?_, ?_, ?_, ?_⟩⟩
    · intro s hs
      rw [List.mem_singleton.mp hs]
      rfl
    · intro s hs
      rw [List.mem_singleton.mp hs]
      exact Or.inr ⟨o, hstack ▸ List.mem_cons_self, rfl, rfl⟩
    · rw [hstack]
      -- The closed frame's id and the new one change places.
      show (o.id :: n.id :: stackIds rest).Perm (L.nextSpan :: o.id :: stackIds rest)
      rw [hn.id_eq]
      exact .swap ..
    · rw [hstack]
      exact fun hc => ⟨hn.parent_eq.trans hc.1, hc.2⟩
    · rw [hstack]
      exact fun hd hlt => decreasing_cons hn.id_eq (List.Pairwise.of_cons hd)
        fun p hp => hlt rfl p (List.mem_cons_of_mem _ hp)
  | @orphan l s hl hstack hid hthread hparent hstart hstop hcomp =>
    refine ⟨l, _, [s], [], true, ⟨hl, rfl, rfl, rfl, rfl, rfl, rfl, rfl, (List.append_nil _).symm,
      rfl, rfl, rfl, rfl, ?_, fun _ h => absurd h List.not_mem_nil, ?_, ?_, id, fun hd _ => hd⟩⟩
    · intro s' hs'
      rw [List.mem_singleton.mp hs', hthread]
    · intro s' hs'
      rw [List.mem_singleton.mp hs']
      exact Or.inl hparent
    · exact List.Perm.of_eq (congrArg (· :: stackIds l.stack) hid)
  | @rename l f hl _ =>
    refine ⟨l, _, [], [], false, ⟨hl, rfl, rfl, rfl, rfl, (List.append_nil _).symm, rfl, rfl,
      (List.append_nil _).symm, rfl, rfl, rfl, rfl, fun _ h => absurd h List.not_mem_nil,
      fun _ h => absurd h List.not_mem_nil, fun _ h => absurd h List.not_mem_nil, ?_,
      nameTop_chained f, fun hd _ => nameTop_decreasing f hd⟩⟩
    exact List.Perm.of_eq (nameTop_ids f l.stack)
  | arm p hl hp => exact setLane_posts hl _ rfl rfl rfl rfl
  | divert reason hl => exact cut_posts hl ..
  | lose p reason hl hp => exact cut_posts hl ..
  | hole p stop known reason hl hp hx => exact cut_posts hl ..
  | @resume l p hl hp =>
    refine ⟨l, _, [], _, false, ⟨hl, rfl, rfl, rfl, rfl, (List.append_nil _).symm, rfl, rfl, rfl,
      rfl, rfl, rfl, rfl, fun _ h => absurd h List.not_mem_nil, ?_,
      fun _ h => absurd h List.not_mem_nil, .refl _, id, fun hd _ => hd⟩⟩
    intro g hg
    rw [List.mem_singleton.mp hg]
  | @resumeIn l p o hl hp hstack ho =>
    refine ⟨l, _, [], _, true, ⟨hl, rfl, rfl, rfl, rfl, (List.append_nil _).symm, rfl, rfl, rfl,
      rfl, rfl, rfl, rfl, fun _ h => absurd h List.not_mem_nil, ?_,
      fun _ h => absurd h List.not_mem_nil, ?_, fun _ => ⟨ho.parent_eq, trivial⟩,
      fun _ _ => List.pairwise_singleton ..⟩⟩
    · intro g hg
      rw [List.mem_singleton.mp hg]
    · rw [hstack]
      exact List.Perm.of_eq (congrArg (· :: []) ho.id_eq)

/-! ## Entries -/

/-- The task a record gives a lane to. -/
def namedKey : RawRecord → Option Key
  | .sample s => some (s.pid, s.tid)
  | .decoderError e => e.pid.bind fun pid => e.tid.map fun tid => (pid, tid)
  | _ => none

/-- The lane `l` of `k`, without open frames, moves to the closed lanes. -/
def dropLane (L : Ledger) (k : Key) (l : Lane) : Ledger :=
  { L with
    lanes := Function.update L.lanes k none
    order := L.order.filter (· ≠ k)
    gen := Function.update L.gen k (L.gen k + 1)
    closed := L.closed ++ [l] }

/-- One entry; `named` holds of the tasks that may be given a lane. -/
inductive Entry (named : Key → Prop) : Ledger → Ledger → Prop
  | create {L : Ledger} {k : Key} : L.lanes k = none → named k → Entry named L (L.ensure k)
  | post {L L' : Ledger} {k : Key} : Posts k L L' → Entry named L L'
  | stray {L : Ledger} (kind : GapKind) (a b : Option Nat) (x : Bool) (reason : String) :
      Entry named L (L.addGap .unknown kind a b x reason)
  | loss {L : Ledger} : Entry named L L.noteLoss
  | drop {L : Ledger} {k : Key} {l : Lane} : L.lanes k = some l → l.stack = [] →
      Entry named L (L.dropLane k l)

abbrev Entries (named : Key → Prop) := Relation.ReflTransGen (Entry named)

variable {named : Key → Prop}

theorem ensure_entries (L : Ledger) {k : Key} (hk : named k) : Entries named L (L.ensure k) := by
  cases h : L.lanes k with
  | none => exact .single (.create h hk)
  | some l =>
    simp only [ensure, h]
    exact .refl

theorem checkRegression_entries (h : L.lanes k = some l) (now : Option Nat) :
    Entries named L (L.checkRegression k l now) := by
  unfold checkRegression
  split
  next => exact .single (.post (cut_posts h ..))
  next => exact .refl

theorem Moves.entries {now : Option Nat} (h : Moves k now L L') : Entries named L L' :=
  h.lift id fun _ _ hm => .post hm.posts

/-- A retired lane is closed, then dropped. -/
theorem retire_eq_dropLane (L : Ledger) (k : Key) (l : Lane) (endAbs : Option Nat) :
    L.retire k l endAbs = ((L.setLane k (closedLane l)).emit
      (flushRows l.id endAbs Reconstructor.openCompleteness l.stack)).dropLane k
        (closedLane l) := by
  simp only [retire, dropLane, emit, setLane, Function.update_idem]
  rfl

theorem retire_entries (h : L.lanes k = some l) (endAbs : Option Nat) :
    Entries named L (L.retire k l endAbs) := by
  rw [retire_eq_dropLane]
  exact .head (.post (close_posts h endAbs _))
    (.single (.drop (by rw [emit_lanes, setLane_lanes_self]) rfl))

/-- A record is a sequence of entries. -/
theorem Action.entries {rec : RawRecord} (h : Action rec L L')
    (hnamed : ∀ k, namedKey rec = some k → named k) : Entries named L L' := by
  cases h with
  | @sample _ _ s l₀ l h₀ hl hmoves =>
    refine (ensure_entries L (hnamed _ rfl)).trans ?_
    refine (checkRegression_entries h₀ s.timeNs).trans ?_
    have htime := setLane_posts hl { l with lastAbs := s.timeNs.or l.lastAbs } rfl rfl rfl rfl
    exact .head (.post htime) hmoves.entries
  | @error _ e pid tid l hpid htid hl =>
    refine (ensure_entries L (hnamed (pid, tid) ?_)).trans (.single (.post (cut_posts hl ..)))
    rw [namedKey, hpid, htid]
    rfl
  | strayError h => exact .single (.stray ..)
  | lost => exact .head .loss (.single (.stray ..))
  | exit hkind hl => exact retire_entries hl _
  | silent h => exact .refl

end Ledger

open Ledger

/-- What pushing a record does, as entries. -/
theorem push_entries {r r' : Reconstructor} {rec : RawRecord} {named : Key → Prop}
    (h : r.push rec = .ok r') (hnamed : ∀ k, namedKey rec = some k → named k) :
    Entries named (ledger r) (ledger r') := by
  have hpush := push_ledger h
  split at hpush
  next => rw [hpush]
  next => exact hpush.entries hnamed

/-- An invariant of single entries holds after any stream. -/
theorem pushAll_entries {P : Ledger → Prop} {named : Key → Prop} {r r' : Reconstructor}
    {recs : List RawRecord} (hentry : ∀ L L', Entry named L L' → P L → P L')
    (hnamed : ∀ rec ∈ recs, ∀ k, namedKey rec = some k → named k)
    (h₀ : P (ledger r)) (h : r.pushAll recs = .ok r') : P (ledger r') :=
  foldlM_invariant (P := fun r => P (ledger r))
    (fun rec hrec _ _ hP hpush =>
      reflTransGen_invariant hentry (push_entries hpush (hnamed rec hrec)) hP) h₀ h

end TraceMcp.Decode
