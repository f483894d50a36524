import TraceMcp.Lib.FastMap
import TraceMcp.Model.Events

/-!
# The call chain at an instant

`at_instant_rows` of `src/service.rs`: of the spans open at an instant, each
thread's deepest one, with the names of its ancestors. A span is as deep as it
has ancestors, of which at most 65 are counted and 64 named; of two spans
equally deep the one that started later is taken, or the first if neither did.

`chainAt_stack` is the case the query is meant for: a chain of spans, each the
parent of the next, whose innermost is deeper than, or as deep as and later
than, every other span open at the instant.
-/

namespace TraceMcp.Service

open TraceMcp.Lib

/-- `AtInstantRow`. -/
structure AtInstantRow where
  threadId : ThreadId
  /-- Outermost to innermost. -/
  stack : List String
  innermostSpanId : String
  innermostStartNs : Option Nat
  innermostEndNs : Option Nat
  innermostCompleteness : SpanCompleteness
  innermostCallSiteInline : Option String
  elapsedInInnermostNs : Option Nat

/-- `open_at`: a span whose end is unknown stays open. -/
def openAt (atNs : Nat) (s : FunctionSpan) : Bool :=
  s.start.relativeNs.any (· ≤ atNs) && s.stop.relativeNs.all (atNs < ·)

/-- `by_id`: of two spans with one id the later entry. -/
def spanById (spans : List FunctionSpan) (p : LocalId) : Option FunctionSpan :=
  spans.reverse.find? (·.id = p)

/-- The ancestors of a span with parent `cur`, innermost first, at most `n`. -/
def ancestors (spans : List FunctionSpan) : Nat → Option LocalId → List FunctionSpan
  | 0, _ => []
  | n + 1, cur =>
    match cur.bind (spanById spans) with
    | some p => p :: ancestors spans n p.parent
    | none => []

/-- The depth of a span, counted up to 65. -/
def depthOf (spans : List FunctionSpan) (s : FunctionSpan) : Nat :=
  (ancestors spans 65 s.parent).length

/-- `a > b` on optional times. -/
def laterThan (a b : Option Nat) : Bool :=
  match a, b with
  | some x, some y => y < x
  | some _, none => true
  | none, _ => false

/-- The deepest span seen so far of each thread, with its depth. -/
abbrev Deepest := FastMap ThreadId (FunctionSpan × Nat)

/-- A span is taken where it is deeper than the one held, or as deep and later. -/
def offer (best : Deepest) (s : FunctionSpan) (depth : Nat) : Deepest :=
  let e := (FastMap.get best s.thread).getD (s, depth)
  best.insert s.thread
    (if e.2 < depth ∨ (depth = e.2 ∧ laterThan s.start.relativeNs e.1.start.relativeNs) then
      (s, depth) else e)

/-- One span of the selection loop; `only` is the selection's thread. -/
def consider (spans : List FunctionSpan) (atNs : Nat) (only : Option ThreadId) (best : Deepest)
    (s : FunctionSpan) : Deepest :=
  if only.any (· ≠ s.thread) then best
  else if !openAt atNs s then best
  else offer best s (depthOf spans s)

/-- `best`: each thread's deepest open span. -/
def deepest (spans : List FunctionSpan) (atNs : Nat) (only : Option ThreadId) : Deepest :=
  spans.foldl (consider spans atNs only) ∅

/-- The name of a function, if it has one. -/
def functionName (names : LocalId → Option String) (function : Option LocalId) : String :=
  (function.bind names).getD "<unknown>"

/-- The names of a span and its ancestors, outermost first. -/
def chainNames (spans : List FunctionSpan) (names : LocalId → Option String) (s : FunctionSpan) :
    List String :=
  ((s :: ancestors spans 64 s.parent).map fun p => functionName names p.function).reverse

/-- `at_instant_rows`; `inline` is `InlineResolver::innermost`. -/
def atInstantRows (analysis : String) (spans : List FunctionSpan) (names : LocalId → Option String)
    (atNs : Nat) (only : Option ThreadId) (inline : Nat → Option String) : List AtInstantRow :=
  let rows := (deepest spans atNs only).entries.map fun e =>
    let s := e.2.1
    { threadId := e.1
      stack := chainNames spans names s
      innermostSpanId := s!"{analysis}:sp{s.id}"
      innermostStartNs := s.start.relativeNs
      innermostEndNs := s.stop.relativeNs
      innermostCompleteness := s.completeness
      innermostCallSiteInline := s.callSite.bind inline
      elapsedInInnermostNs := s.start.relativeNs.map (atNs - ·) : AtInstantRow }
  rows.mergeSort fun a b => a.threadId.render ≤ b.threadId.render

/-- The call chain the query shows for a thread; none without a row. -/
def chainAt (rows : List AtInstantRow) (thread : ThreadId) : List String :=
  ((rows.find? (·.threadId = thread)).map AtInstantRow.stack).getD []

section

variable {analysis : String} {spans : List FunctionSpan} {names : LocalId → Option String}
  {atNs n : Nat} {only : Option ThreadId} {inline : Nat → Option String} {thread : ThreadId}
  {top s : FunctionSpan} {best : Deepest}

/-! ## The row of a thread -/

theorem chainAt_eq : chainAt (atInstantRows analysis spans names atNs only inline) thread =
    ((FastMap.get (deepest spans atNs only) thread).map fun e => chainNames spans names e.1).getD
      [] := by
  -- every row comes from the entry of its thread
  have hrow : ∀ row ∈ atInstantRows analysis spans names atNs only inline, ∃ e,
      FastMap.get (deepest spans atNs only) row.threadId = some e ∧
        row.stack = chainNames spans names e.1 := by
    intro row hrow
    obtain ⟨e, he, rfl⟩ := List.mem_map.mp (List.mem_mergeSort.mp hrow)
    exact ⟨e.2, FastMap.get_eq_some_iff.mpr he, rfl⟩
  unfold chainAt
  congr 1
  cases hfind : (atInstantRows analysis spans names atNs only inline).find?
      (·.threadId = thread) with
  | some row =>
    have hthread : row.threadId = thread := by simpa using List.find?_some hfind
    obtain ⟨e, he, hstack⟩ := hrow row (List.mem_of_find?_eq_some hfind)
    rw [hthread] at he
    rw [he, Option.map_some, Option.map_some, hstack]
  | none =>
    cases hget : FastMap.get (deepest spans atNs only) thread with
    | none => rfl
    | some e =>
      have hnot := List.find?_eq_none.mp hfind
      refine absurd (decide_eq_true rfl) (hnot _ (List.mem_mergeSort.mpr
        (List.mem_map.mpr ⟨⟨thread, e⟩, FastMap.get_eq_some_iff.mp hget, rfl⟩)))

/-! ## The selection -/

/-- The span is open at the instant and of the thread. -/
def Candidate (atNs : Nat) (thread : ThreadId) (s : FunctionSpan) : Prop :=
  s.thread = thread ∧ openAt atNs s = true

/-- Less deep than `top`, or as deep and earlier. -/
def Below (spans : List FunctionSpan) (top s : FunctionSpan) : Prop :=
  depthOf spans s < depthOf spans top ∨
    (depthOf spans s = depthOf spans top ∧
      laterThan top.start.relativeNs s.start.relativeNs = true)

theorem laterThan_asymm {a b : Option Nat} (h : laterThan a b = true) : laterThan b a = false := by
  cases a with
  | none => cases h
  | some x =>
    cases b with
    | none => rfl
    | some y =>
      unfold laterThan at h ⊢
      rw [decide_eq_true_eq] at h
      exact decide_eq_false (Nat.lt_asymm h)

theorem laterThan_irrefl (a : Option Nat) : laterThan a a = false := by
  cases a with
  | none => rfl
  | some x => exact decide_eq_false (Nat.lt_irrefl x)

theorem consider_get_of_not (h : ¬ Candidate atNs thread s) :
    FastMap.get (consider spans atNs only best s) thread = FastMap.get best thread := by
  unfold consider
  split
  next => rfl
  next =>
    split
    next => rfl
    next hopen =>
      have hne : thread ≠ s.thread := by
        rintro rfl
        exact h ⟨rfl, by simpa using hopen⟩
      rw [offer, FastMap.get_insert, if_neg hne]

theorem consider_of_candidate (hsel : ∀ t ∈ only, t = thread) (h : Candidate atNs thread s) :
    consider spans atNs only best s = offer best s (depthOf spans s) := by
  have honly : only.any (· ≠ s.thread) = false := by
    cases honly : only with
    | none => rfl
    | some t =>
      obtain rfl := hsel t honly
      exact decide_eq_false fun hne => hne h.1.symm
  unfold consider
  rw [honly, h.2]
  rfl

/-- Once held, `top` stays. -/
theorem foldl_held {xs : List FunctionSpan} (hsel : ∀ t ∈ only, t = thread)
    (hxs : ∀ s ∈ xs, Candidate atNs thread s → s = top ∨ Below spans top s)
    (hbest : FastMap.get best thread = some (top, depthOf spans top)) :
    FastMap.get (xs.foldl (consider spans atNs only) best) thread =
      some (top, depthOf spans top) := by
  induction xs generalizing best with
  | nil => exact hbest
  | cons s xs ih =>
    rw [List.foldl_cons]
    refine ih (fun s' hs' => hxs s' (List.mem_cons_of_mem _ hs')) ?_
    by_cases hs : Candidate atNs thread s
    · rw [consider_of_candidate hsel hs, offer, hs.1, hbest, FastMap.get_insert_self,
        Option.getD_some, if_neg]
      rintro (hlt | ⟨heq, hlater⟩)
      · obtain rfl | hlt' | ⟨heq', -⟩ := hxs s List.mem_cons_self hs
        · exact Nat.lt_irrefl _ hlt
        · exact Nat.lt_asymm hlt hlt'
        · exact Nat.ne_of_gt hlt heq'
      · obtain rfl | hlt' | ⟨-, hlater'⟩ := hxs s List.mem_cons_self hs
        · exact Bool.false_ne_true ((laterThan_irrefl _).symm.trans hlater)
        · exact Nat.ne_of_lt hlt' heq
        · exact Bool.false_ne_true ((laterThan_asymm hlater').symm.trans hlater)
    · rw [consider_get_of_not hs]
      exact hbest

/-- Where `top` is to come and everything else is below it, it ends up held. -/
theorem foldl_finds {xs : List FunctionSpan} (best : Deepest) (hsel : ∀ t ∈ only, t = thread)
    (htop : Candidate atNs thread top) (hmem : top ∈ xs)
    (hxs : ∀ s ∈ xs, Candidate atNs thread s → s = top ∨ Below spans top s)
    (hbest : ∀ e, FastMap.get best thread = some e →
      Below spans top e.1 ∧ e.2 = depthOf spans e.1) :
    FastMap.get (xs.foldl (consider spans atNs only) best) thread =
      some (top, depthOf spans top) := by
  induction xs generalizing best with
  | nil => exact absurd hmem List.not_mem_nil
  | cons s xs ih =>
    have hrest : ∀ s' ∈ xs, Candidate atNs thread s' → s' = top ∨ Below spans top s' :=
      fun s' hs' => hxs s' (List.mem_cons_of_mem _ hs')
    rw [List.foldl_cons]
    by_cases hs : s = top
    · subst hs
      refine foldl_held hsel hrest ?_
      rw [consider_of_candidate hsel htop, offer, htop.1, FastMap.get_insert_self]
      cases hget : FastMap.get best thread with
      | none =>
        rw [Option.getD_none]
        split <;> rfl
      | some e =>
        obtain ⟨hbelow, hdepth⟩ := hbest e hget
        rw [Option.getD_some, if_pos]
        rw [hdepth]
        rcases hbelow with hlt | ⟨heq, hlater⟩
        · exact Or.inl hlt
        · exact Or.inr ⟨heq.symm, hlater⟩
    · have hmem' : top ∈ xs := by
        rcases List.mem_cons.mp hmem with heq | hmem'
        · exact absurd heq.symm hs
        · exact hmem'
      refine ih _ hmem' hrest ?_
      by_cases hcand : Candidate atNs thread s
      · have hbelow : Below spans top s := by
          obtain heq | hbelow := hxs s List.mem_cons_self hcand
          · exact absurd heq hs
          · exact hbelow
        intro e he
        rw [consider_of_candidate hsel hcand, offer, hcand.1, FastMap.get_insert_self] at he
        obtain rfl := Option.some_inj.mp he
        split
        next => exact ⟨hbelow, rfl⟩
        next =>
          cases hget : FastMap.get best thread with
          | none =>
            rw [Option.getD_none]
            exact ⟨hbelow, rfl⟩
          | some e => exact hbest e hget
      · intro e he
        rw [consider_get_of_not hcand] at he
        exact hbest e he

/-- A thread without an open span has no entry. -/
theorem foldl_none {xs : List FunctionSpan} (hxs : ∀ s ∈ xs, ¬ Candidate atNs thread s) :
    FastMap.get (xs.foldl (consider spans atNs only) best) thread = FastMap.get best thread := by
  induction xs generalizing best with
  | nil => rfl
  | cons s xs ih =>
    rw [List.foldl_cons, ih fun s' hs' => hxs s' (List.mem_cons_of_mem _ hs'),
      consider_get_of_not (hxs s List.mem_cons_self)]

/-! ## A chain of spans -/

/-- Each span's parent is the next one; the last has none. -/
def Linked : List FunctionSpan → Prop
  | [] => True
  | q :: qs => q.parent = qs.head?.map FunctionSpan.id ∧ Linked qs

theorem spanById_of_mem (hids : (spans.map FunctionSpan.id).Nodup) (hs : s ∈ spans) :
    spanById spans s.id = some s := by
  cases hfind : spanById spans s.id with
  | none =>
    have hnot := List.find?_eq_none.mp hfind s (List.mem_reverse.mpr hs)
    exact absurd (decide_eq_true rfl) hnot
  | some q =>
    have hfind' : spans.reverse.find? (·.id = s.id) = some q := hfind
    have hid : q.id = s.id := by simpa using List.find?_some hfind'
    have hq : q ∈ spans := List.mem_reverse.mp (List.mem_of_find?_eq_some hfind')
    rw [List.inj_on_of_nodup_map hids hq hs hid]

/-- The ancestors along a chain. -/
theorem ancestors_linked (hids : (spans.map FunctionSpan.id).Nodup) {qs : List FunctionSpan}
    (hmem : ∀ q ∈ qs, q ∈ spans) (hlink : Linked qs) (hn : qs.length ≤ n) :
    ancestors spans n (qs.head?.map FunctionSpan.id) = qs := by
  induction qs generalizing n with
  | nil => cases n <;> rfl
  | cons q qs ih =>
    cases n with
    | zero => exact absurd hn (Nat.not_succ_le_zero _)
    | succ n =>
      have hq := spanById_of_mem hids (hmem q List.mem_cons_self)
      have hrest := ih (fun p hp => hmem p (List.mem_cons_of_mem _ hp)) hlink.2
        (Nat.le_of_succ_le_succ hn)
      show (match spanById spans q.id with
        | some p => p :: ancestors spans n p.parent
        | none => []) = q :: qs
      rw [hq]
      show q :: ancestors spans n q.parent = q :: qs
      rw [hlink.1, hrest]

theorem depthOf_linked (hids : (spans.map FunctionSpan.id).Nodup) {q : FunctionSpan}
    {qs : List FunctionSpan} (hmem : ∀ p ∈ q :: qs, p ∈ spans) (hlink : Linked (q :: qs))
    (hlen : (q :: qs).length ≤ 65) : depthOf spans q = qs.length := by
  have hlen' : qs.length ≤ 65 := Nat.le_of_succ_le hlen
  rw [depthOf, hlink.1, ancestors_linked hids (fun p hp => hmem p (List.mem_cons_of_mem _ hp))
    hlink.2 hlen']

/-- Further out in a chain is less deep. -/
theorem depthOf_lt_of_mem (hids : (spans.map FunctionSpan.id).Nodup) {qs : List FunctionSpan}
    (hmem : ∀ p ∈ qs, p ∈ spans) (hlink : Linked qs) (hlen : qs.length ≤ 65) (hs : s ∈ qs) :
    depthOf spans s < qs.length := by
  induction qs with
  | nil => exact absurd hs List.not_mem_nil
  | cons q qs ih =>
    rcases List.mem_cons.mp hs with rfl | hs
    · rw [depthOf_linked hids hmem hlink hlen]
      exact Nat.lt_succ_self _
    · have hlt := ih (fun p hp => hmem p (List.mem_cons_of_mem _ hp)) hlink.2
        (Nat.le_of_succ_le hlen) hs
      exact Nat.lt_succ_of_lt hlt

/-- The chain of an instant: the open spans `qs` of a thread, innermost first,
where every other open span of the thread is below the innermost. -/
theorem chainAt_stack (hsel : ∀ t ∈ only, t = thread)
    (hids : (spans.map FunctionSpan.id).Nodup) {qs : List FunctionSpan}
    (hmem : ∀ q ∈ qs, q ∈ spans) (hlink : Linked qs) (hlen : qs.length ≤ 65)
    (hopen : ∀ q ∈ qs, Candidate atNs thread q)
    (hbelow : ∀ s ∈ spans, Candidate atNs thread s → s ∉ qs →
      ∃ top ∈ qs.head?, Below spans top s) :
    chainAt (atInstantRows analysis spans names atNs only inline) thread =
      (qs.map fun q => functionName names q.function).reverse := by
  rw [chainAt_eq]
  cases qs with
  | nil =>
    have hnone : ∀ s ∈ spans, ¬ Candidate atNs thread s := by
      intro s hs hcand
      obtain ⟨top, htop, -⟩ := hbelow s hs hcand List.not_mem_nil
      cases htop
    rw [deepest, foldl_none hnone]
    rfl
  | cons q qs =>
    have hdepth := depthOf_linked hids hmem hlink hlen
    have hall : ∀ s ∈ spans, Candidate atNs thread s → s = q ∨ Below spans q s := by
      intro s hs hcand
      by_cases hin : s ∈ q :: qs
      · rcases List.mem_cons.mp hin with heq | hin
        · exact Or.inl heq
        · refine Or.inr (Or.inl ?_)
          rw [hdepth]
          exact depthOf_lt_of_mem hids (fun p hp => hmem p (List.mem_cons_of_mem _ hp)) hlink.2
            (Nat.le_of_succ_le hlen) hin
      · obtain ⟨top, htop, hbelow⟩ := hbelow s hs hcand hin
        obtain rfl : q = top := Option.some_inj.mp htop
        exact Or.inr hbelow
    have hget := foldl_finds ∅ hsel (hopen q List.mem_cons_self)
      (hmem q List.mem_cons_self) hall fun e he => by
        rw [FastMap.get_empty] at he
        cases he
    have hqs : ancestors spans 64 q.parent = qs := by
      rw [hlink.1]
      exact ancestors_linked hids (fun p hp => hmem p (List.mem_cons_of_mem _ hp)) hlink.2
        (Nat.le_of_succ_le_succ hlen)
    rw [deepest, hget, Option.map_some, Option.getD_some, chainNames, hqs]

end

end TraceMcp.Service
