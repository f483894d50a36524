import TraceMcp.Service.Cursors

/-!
# Listing sessions over MCP

`handle_status` of `src/service.rs` answers a page of the stored sessions and
`ok` of `src/mcp.rs` fits the reply, without the offset the page started at.
A reply that drops rows therefore gets the cursor of a first page, and a
placeholder the cursor 0.

Whatever it starts at, a chain that ends shows at least the sessions from there
on (`Chain.shown_length`). A cursor that goes back repeats sessions, so that
the chain shows more than there are.
-/

namespace TraceMcp.Service

open TraceMcp.Lib
open Json (Fields size)

/-! ## The two layers -/

/-- `handle_status` of a session listing. -/
def handleStatusSessions (list : List Json) (cursor : Option (List Char)) (limit : Option Nat) :
    Fields :=
  let start := (cursor.bind Text.parseU64).getD 0
  let lim := min (limit.getD 50) 200
  let page := (list.drop start).take lim
  let next := if page.length = lim then some (Text.decimal (start + lim)) else none
  [("data", .arr page), ("kind", .str "sessions".toList), ("next_cursor", cursorJson next)]

/-- `DEFAULT_MCP_RESULT_BUDGET`. -/
def mcpResultBudget : Nat := 32 * 1024

/-- `ok`: the structured content of a result. -/
def mcpOk (value : Fields) : Fields := fitJson mcpResultBudget 0 value

/-- `trace_status` of the sessions. -/
def traceStatusSessions (list : List Json) (limit : Option Nat) (cursor : Option (List Char)) :
    Result Fields :=
  .ok (mcpOk (handleStatusSessions list cursor limit))

/-- Every session is in one reply, once, possibly with fields cut. -/
def ListsOnce (list : List Json) (limit : Option Nat) : Prop :=
  ∃ replies, Chain (traceStatusSessions list limit) none replies ∧
    ∃ rows, List.Forall₂ ShrinksTo list rows ∧ (replies.flatMap shown).Perm rows

section Listing

variable {list : List Json} {lim start i j k : Nat} {reply : Fields} {c : Option (List Char)}

/-- What a listing says besides the page. -/
def sessionsKind : Fields := [("kind", .str "sessions".toList)]

/-- A reply of the service. -/
def listing (data : List Json) (next : Option (List Char)) : Fields :=
  Fields.set "next_cursor" (cursorJson next) (Fields.set "data" (.arr data) sessionsKind)

/-- The cursor after the page at `start`. -/
def nextAt (list : List Json) (lim start : Nat) : Option (List Char) :=
  if (pageAt list lim start).length = lim then some (Text.decimal (start + lim)) else none

/-- The page at `start` fits as it is. -/
def PageFits (list : List Json) (lim start : Nat) : Prop :=
  size (.obj (listing (pageAt list lim start) (nextAt list lim start))) ≤ mcpResultBudget

/-- The first `k` sessions fit, with the cursor to the next one. -/
def CutFits (list : List Json) (k : Nat) : Prop :=
  WithinBudget sessionsKind mcpResultBudget (list.take k) (some (Text.decimal k))

/-- Session `i` fits alone, once it is cut. -/
def RowFits (list : List Json) (i : Nat) (next : Option (List Char)) : Prop :=
  ∃ row row', list[i]? = some row ∧ ShrinksTo row row' ∧
    WithinBudget sessionsKind mcpResultBudget [row'] next

/-- The first reply shows the first `k` sessions: all of the page, the most
that fit, or one that may be cut. -/
inductive FirstShows (list : List Json) (lim : Nat) : Nat → Prop
  | whole (hfits : PageFits list lim 0) : FirstShows list lim (pageAt list lim 0).length
  | cut (k : Nat) (hover : ¬ PageFits list lim 0) (htwo : 2 ≤ k)
      (hlt : k < (pageAt list lim 0).length) (hfits : CutFits list k)
      (hmost : ∀ k', k < k' → k' < (pageAt list lim 0).length → ¬ CutFits list k') :
      FirstShows list lim k
  | row (hover : ¬ PageFits list lim 0)
      (hmost : ∀ k', 2 ≤ k' → k' < (pageAt list lim 0).length → ¬ CutFits list k')
      (hfits : RowFits list 0 (cursorAfter (pageAt list lim 0) (nextAt list lim 0) 0 1)) :
      FirstShows list lim 1

/-- The page at `start` keeps its cursor: it fits as it is, or it is one
session that fits once it is cut. -/
def PageKept (list : List Json) (lim start : Nat) : Prop :=
  PageFits list lim start ∨
    (pageAt list lim start).length = 1 ∧ RowFits list start (nextAt list lim start)

/-! ## One reply -/

theorem listing_eq (data : List Json) (next : Option (List Char)) :
    listing data next = [("data", .arr data), ("kind", .str "sessions".toList),
      ("next_cursor", cursorJson next)] := by
  have hdata : Fields.set "data" (.arr data) sessionsKind =
      [("data", .arr data), ("kind", .str "sessions".toList)] :=
    Fields.set_cons_new (by decide) (by decide) rfl
  have hfirst : "data" ≠ "next_cursor" ∧ ¬ "next_cursor" < "data" := by decide
  have hsecond : "kind" ≠ "next_cursor" ∧ ¬ "next_cursor" < "kind" := by decide
  unfold listing
  rw [hdata, Fields.set_cons_later hfirst.1 fun h => hfirst.2 h.1,
    Fields.set_cons_later hsecond.1 fun h => hsecond.2 h.1]
  rfl

theorem dataOf_listing {data : List Json} {next : Option (List Char)} :
    dataOf (listing data next) = some data := by
  unfold listing
  rw [dataOf_set_ne _ (by decide), dataOf_set_data]

theorem nextCursor_listing {data : List Json} {next : Option (List Char)} :
    nextCursor (listing data next) = next := nextCursor_set_next _

/-- Marked as truncated a reply only grows. -/
theorem size_listing_le (data : List Json) (next : Option (List Char)) :
    size (.obj (listing data next)) ≤ size (.obj (envelope sessionsKind data next true)) := by
  have hheld : Fields.heldSize "truncated" (listing data next) = 0 := by
    rw [listing, Fields.heldSize_set_ne _ (by decide), Fields.heldSize_set_ne _ (by decide)]
    rfl
  have hset := Fields.fieldsSize_set (listing data next) "truncated" (.bool true)
  have henv : envelope sessionsKind data next true =
      Fields.set "truncated" (.bool true) (listing data next) := rfl
  have hne : listing data next ≠ [] := Fields.set_ne_nil _ _ _
  rw [henv, Json.size_obj hne, Json.size_obj (Fields.set_ne_nil _ _ _)]
  omega

/-- The reply to a cursor at `start`: the page with its cursor, where it fits;
else fewer rows with the cursor of a first page, one row with its cursor, or a
placeholder with the cursor 0. -/
inductive Listed (list : List Json) (lim start : Nat) (reply : Fields) : Prop
  | whole (hfits : PageFits list lim start) (hshown : shown reply = pageAt list lim start)
      (hnext : nextCursor reply = nextAt list lim start)
  | kept (k : Nat) (hover : ¬ PageFits list lim start) (hpos : 1 ≤ k)
      (hlt : k < (pageAt list lim start).length)
      (hshown : List.Forall₂ ShrinksTo ((pageAt list lim start).take k) (shown reply))
      (hwhole : 2 ≤ k → shown reply = (pageAt list lim start).take k)
      (hnext : nextCursor reply = some (Text.decimal k))
      (hfits : WithinBudget sessionsKind mcpResultBudget (shown reply) (some (Text.decimal k)))
      (hmost : ∀ k', k < k' → k' < (pageAt list lim start).length →
        ¬ WithinBudget sessionsKind mcpResultBudget ((pageAt list lim start).take k')
          (some (Text.decimal k')))
  | row (hover : ¬ PageFits list lim start) (hone : (pageAt list lim start).length = 1)
      (hshown : List.Forall₂ ShrinksTo (pageAt list lim start) (shown reply))
      (hnext : nextCursor reply = nextAt list lim start)
      (hfits : RowFits list start (nextAt list lim start))
  | omitted (hover : ¬ PageFits list lim start) (hshown : (shown reply).length = 1)
      (hnext : nextCursor reply = some (Text.decimal 0))
      (hstuck : ¬ RowFits list start
        (cursorAfter (pageAt list lim start) (nextAt list lim start) 0 1))
      (hmost : ∀ k', 1 < k' → k' < (pageAt list lim start).length →
        ¬ WithinBudget sessionsKind mcpResultBudget ((pageAt list lim start).take k')
          (some (Text.decimal k')))

theorem pageAt_getElem? (hne : pageAt list lim start ≠ []) :
    (pageAt list lim start)[0]? = list[start]? := by
  have hlen := length_pageAt list lim start
  have hpos := List.length_pos_of_ne_nil hne
  unfold pageAt
  rw [List.getElem?_take_of_lt (by omega), List.getElem?_drop]
  rfl

theorem listed_of_fitted (hne : pageAt list lim start ≠ []) (hover : ¬ PageFits list lim start)
    (h : Fitted sessionsKind mcpResultBudget 0 (pageAt list lim start) (nextAt list lim start)
      reply) : Listed list lim start reply := by
  have hafter : ∀ k, k < (pageAt list lim start).length →
      cursorAfter (pageAt list lim start) (nextAt list lim start) 0 k = some (Text.decimal k) := by
    intro k hk
    rw [cursorAfter_lt hk, Nat.zero_add]
  cases h with
  | kept k data hpos hle hshown hwhole hfits hmost =>
    rcases Nat.lt_or_eq_of_le hle with hlt | rfl
    · rw [hafter k hlt] at hfits ⊢
      refine .kept k hover hpos hlt ?_ ?_ nextCursor_envelope ?_ ?_
      · rwa [shown, dataOf_envelope]
      · rwa [shown, dataOf_envelope]
      · rwa [shown, dataOf_envelope]
      · intro k' hk' hlt'
        rw [← hafter k' hlt']
        exact hmost k' hk' (Nat.le_of_lt hlt')
    · rw [cursorAfter_length] at hfits ⊢
      rcases Nat.lt_or_ge 1 (pageAt list lim start).length with htwo | hone
      · -- the whole page would have fitted
        rw [hwhole htwo, List.take_length] at hfits
        exact absurd (Nat.le_trans (size_listing_le _ _) hfits) hover
      · have hlen := Nat.le_antisymm hone hpos
        rw [List.take_length] at hshown
        refine .row hover hlen ?_ nextCursor_envelope ?_
        · rwa [shown, dataOf_envelope]
        · obtain ⟨row, hrow⟩ := List.length_eq_one_iff.mp hlen
          have hget := pageAt_getElem? hne
          rw [hrow] at hget hshown
          obtain ⟨row', rest, hto, hrest, rfl⟩ := List.forall₂_cons_left_iff.mp hshown
          obtain rfl := List.forall₂_nil_left_iff.mp hrest
          exact ⟨row, row', hget.symm, hto, hfits⟩
  | omitted row hrow hstuck hmost =>
    refine .omitted hover ?_ nextCursor_envelope ?_ ?_
    · rw [shown, dataOf_envelope]
      rfl
    rotate_left
    · intro k' hk' hlt'
      rw [← hafter k' hlt']
      exact hmost k' hk' (Nat.le_of_lt hlt')
    · rintro ⟨row0, row', hrow0, hto, hfits⟩
      rw [pageAt_getElem? hne, hrow0] at hrow
      obtain rfl := Option.some_inj.mp hrow
      exact hstuck row' hto hfits

/-- The offset a cursor of the listing asks for. -/
def cursorStart (cursor : Option (List Char)) : Nat := (cursor.bind Text.parseU64).getD 0

theorem pageFits_of_nil (hpos : 1 ≤ lim) (hnil : pageAt list lim start = []) :
    PageFits list lim start := by
  have hpart : (pageAt list lim start).length ≠ lim := by
    rw [hnil, List.length_nil]
    omega
  rw [PageFits, nextAt, if_neg hpart, hnil]
  decide +kernel

/-- Past the end the page is empty. -/
theorem pageFits_of_end (hpos : 1 ≤ lim) (hend : list.length ≤ start) :
    PageFits list lim start := by
  refine pageFits_of_nil hpos ?_
  rw [pageAt, List.drop_of_length_le hend, List.take_nil]

theorem traceStatusSessions_listed {limit : Option Nat} (list : List Json)
    (hlim : min (limit.getD 50) 200 = lim)
    (hpos : 1 ≤ lim) (hc : cursorStart c = start) :
    ∃ reply, traceStatusSessions list limit c = .ok reply ∧ Listed list lim start reply := by
  have hreply : handleStatusSessions list c limit =
      listing (pageAt list lim start) (nextAt list lim start) := by
    rw [listing_eq, ← hlim, ← hc]
    rfl
  refine ⟨_, rfl, ?_⟩
  rw [mcpOk, hreply, fitJson]
  split
  next hfits =>
    refine .whole hfits ?_ nextCursor_listing
    rw [shown, dataOf_listing]
    rfl
  next hover =>
    have hne : pageAt list lim start ≠ [] := fun hnil => hover (pageFits_of_nil hpos hnil)
    have hword : 0 + (pageAt list lim start).length < wordSize := by
      rw [length_pageAt, wordSize]
      omega
    exact listed_of_fitted hne hover (fitLoop_fitted hne hword)

/-! ## Chains -/

section Chains

variable {limit : Option Nat} {replies : List Fields}

theorem startOf_decimal (h : start < wordSize) : cursorStart (some (Text.decimal start)) = start := by
  show (Text.parseU64 (Text.decimal start)).getD 0 = start
  rw [Text.parseU64, Text.fromStrRadix_decimal (show start < 2 ^ 64 from h)]
  rfl

/-- A full page is followed by the next one, another page is the last. -/
theorem nextAt_cases (start : Nat) (hpos : 1 ≤ lim) (hword : list.length < wordSize) :
    (∃ next, nextAt list lim start = some next ∧ cursorStart (some next) = start + lim ∧
        (pageAt list lim start).length = lim ∧ start + lim ≤ list.length) ∨
      (nextAt list lim start = none ∧ (pageAt list lim start).length = list.length - start ∧
        list.length < start + lim) := by
  have hlen := length_pageAt list lim start
  by_cases hfull : (pageAt list lim start).length = lim
  · have hle : start + lim ≤ list.length := by omega
    exact Or.inl ⟨_, if_pos hfull, startOf_decimal (by omega), hfull, hle⟩
  · exact Or.inr ⟨if_neg hfull, by omega, by omega⟩

/-- A reply that keeps its cursor shows its page; another one goes back, to no
further than the number of rows it shows. -/
theorem Listed.onward_or_back (hlim : lim ≤ 200) (h : Listed list lim start reply) :
    (PageKept list lim start ∧ List.Forall₂ ShrinksTo (pageAt list lim start) (shown reply) ∧
        nextCursor reply = nextAt list lim start) ∨
      (¬ PageKept list lim start ∧ ∃ k next, nextCursor reply = some next ∧
        cursorStart (some next) = k ∧ k ≤ (shown reply).length ∧ 1 ≤ (shown reply).length) := by
  cases h with
  | whole hfits hshown hnext =>
    exact Or.inl ⟨Or.inl hfits, hshown ▸ shrinksTo_refl_all _, hnext⟩
  | row hover hone hshown hnext hfits =>
    exact Or.inl ⟨Or.inr ⟨hone, hfits⟩, hshown, hnext⟩
  | kept k hover hpos hlt hshown hwhole hnext hfits hmost =>
    have hlen : k = (shown reply).length := by
      rw [← hshown.length_eq, List.length_take]
      omega
    have hword : k < wordSize := by
      rw [length_pageAt] at hlt
      rw [wordSize]
      omega
    refine Or.inr ⟨?_, k, _, hnext, startOf_decimal hword, Nat.le_of_eq hlen, by omega⟩
    rintro (hfits' | ⟨hone, -⟩)
    · exact hover hfits'
    · omega
  | omitted hover hshown hnext hstuck _ =>
    refine Or.inr ⟨?_, 0, _, hnext, startOf_decimal (by decide), Nat.zero_le _, Nat.le_of_eq hshown.symm⟩
    rintro (hfits' | ⟨hone, hfits'⟩)
    · exact hover hfits'
    · refine hstuck ?_
      rwa [← hone, cursorAfter_length]

/-- A chain shows at least the sessions from its start on. -/
theorem Chain.shown_length (hlim : min (limit.getD 50) 200 = lim) (hpos : 1 ≤ lim)
    (hword : list.length < wordSize) (hchain : Chain (traceStatusSessions list limit) c replies)
    (hc : cursorStart c = start) : list.length - start ≤ (replies.flatMap shown).length := by
  induction hchain generalizing start with
  | @last c reply0 h hend =>
    obtain ⟨reply, hask, hlisted⟩ := traceStatusSessions_listed list hlim hpos hc
    obtain rfl : reply0 = reply := Except.ok.inj (h.symm.trans hask)
    rw [List.flatMap_singleton]
    obtain ⟨-, hshown, hnext⟩ | ⟨-, k, next, hnext, -⟩ := hlisted.onward_or_back (by omega)
    · obtain ⟨next, hsome, -⟩ | ⟨-, hlen, -⟩ := nextAt_cases start hpos hword
      · exact absurd (hsome.symm.trans (hnext.symm.trans hend)) (Option.some_ne_none _)
      · rw [← hshown.length_eq, hlen]
    · exact absurd (hnext.symm.trans hend) (Option.some_ne_none _)
  | @more c next0 reply0 replies h hnext0 hrest ih =>
    obtain ⟨reply, hask, hlisted⟩ := traceStatusSessions_listed list hlim hpos hc
    obtain rfl : reply0 = reply := Except.ok.inj (h.symm.trans hask)
    rw [List.flatMap_cons, List.length_append]
    obtain ⟨-, hshown, hnext⟩ | ⟨-, k, next, hnext, hstart, hk, -⟩ :=
      hlisted.onward_or_back (by omega)
    · obtain ⟨next, hsome, hstart, hlen, -⟩ | ⟨hnone, -⟩ := nextAt_cases start hpos hword
      · obtain rfl : next0 = next :=
          Option.some_inj.mp (hnext0.symm.trans (hnext.trans hsome))
        have htail := ih hstart
        rw [← hshown.length_eq, hlen]
        omega
      · exact absurd (hnext0.symm.trans (hnext.trans hnone)) (Option.some_ne_none _)
    · obtain rfl : next0 = next := Option.some_inj.mp (hnext0.symm.trans hnext)
      have htail := ih hstart
      omega

/-- A chain from a later page that shows no session twice keeps every cursor. -/
theorem pageKept_of_chain (hlim : min (limit.getD 50) 200 = lim) (hpos : 1 ≤ lim)
    (hword : list.length < wordSize) (hchain : Chain (traceStatusSessions list limit) c replies)
    (hc : cursorStart c = start) (hlater : 1 ≤ start)
    (hlen : (replies.flatMap shown).length = list.length - start) (hj : start + j * lim < list.length) :
    PageKept list lim (start + j * lim) := by
  induction hchain generalizing start j with
  | @last c reply0 h hend =>
    obtain ⟨reply, hask, hlisted⟩ := traceStatusSessions_listed list hlim hpos hc
    obtain rfl : reply0 = reply := Except.ok.inj (h.symm.trans hask)
    obtain ⟨hkept, -, hnext⟩ | ⟨-, k, next, hnext, -⟩ := hlisted.onward_or_back (by omega)
    · obtain ⟨next, hsome, -⟩ | ⟨-, -, hend'⟩ := nextAt_cases start hpos hword
      · exact absurd (hsome.symm.trans (hnext.symm.trans hend)) (Option.some_ne_none _)
      · cases j with
        | zero => rwa [Nat.zero_mul, Nat.add_zero]
        | succ j =>
          rw [Nat.succ_mul] at hj
          omega
    · exact absurd (hnext.symm.trans hend) (Option.some_ne_none _)
  | @more c next0 reply0 replies h hnext0 hrest ih =>
    obtain ⟨reply, hask, hlisted⟩ := traceStatusSessions_listed list hlim hpos hc
    obtain rfl : reply0 = reply := Except.ok.inj (h.symm.trans hask)
    rw [List.flatMap_cons, List.length_append] at hlen
    obtain ⟨hkept, hshown, hnext⟩ | ⟨-, k, next, hnext, hstart, hk, -⟩ :=
      hlisted.onward_or_back (by omega)
    · obtain ⟨next, hsome, hstart, hfull, hle⟩ | ⟨hnone, -⟩ :=
        nextAt_cases start hpos hword
      · obtain rfl : next0 = next :=
          Option.some_inj.mp (hnext0.symm.trans (hnext.trans hsome))
        rw [← hshown.length_eq, hfull] at hlen
        cases j with
        | zero => rwa [Nat.zero_mul, Nat.add_zero]
        | succ j =>
          rw [Nat.succ_mul, Nat.add_comm (j * lim), ← Nat.add_assoc] at hj ⊢
          exact ih hstart (by omega) (by omega) hj
      · exact absurd (hnext0.symm.trans (hnext.trans hnone)) (Option.some_ne_none _)
    · -- the cursor goes back: the chain shows everything from there again
      obtain rfl : next0 = next := Option.some_inj.mp (hnext0.symm.trans hnext)
      have htail := hrest.shown_length hlim hpos hword hstart
      have hlt : start < list.length := Nat.lt_of_le_of_lt (Nat.le_add_right _ _) hj
      omega

/-- Where every cursor is kept, the chain shows the sessions one after the
other. -/
theorem exists_listing (hlim : min (limit.getD 50) 200 = lim) (hpos : 1 ≤ lim)
    (hword : list.length < wordSize) (hc : cursorStart c = start)
    (hkept : ∀ j, start + j * lim < list.length → PageKept list lim (start + j * lim)) :
    ∃ replies, Chain (traceStatusSessions list limit) c replies ∧
      List.Forall₂ ShrinksTo (list.drop start) (replies.flatMap shown) := by
  induction hleft : list.length - start using Nat.strong_induction_on generalizing start c with
  | _ left ih =>
  obtain ⟨reply, hask, hlisted⟩ := traceStatusSessions_listed list hlim hpos hc
  have honward : List.Forall₂ ShrinksTo (pageAt list lim start) (shown reply) ∧
      nextCursor reply = nextAt list lim start := by
    obtain ⟨-, hon⟩ | ⟨hnot, -⟩ := hlisted.onward_or_back (by omega)
    · exact hon
    · refine absurd ?_ hnot
      rcases Nat.lt_or_ge start list.length with hlt | hge
      · have hzero := hkept 0 (by omega)
        rwa [Nat.zero_mul, Nat.add_zero] at hzero
      · exact Or.inl (pageFits_of_end hpos hge)
  obtain ⟨hshown, hnext⟩ := honward
  obtain ⟨next, hsome, hstart, hfull, hle⟩ | ⟨hnone, hlen, -⟩ :=
    nextAt_cases start hpos hword
  · have hrest : ∀ j, start + lim + j * lim < list.length →
        PageKept list lim (start + lim + j * lim) := by
      intro j hj
      have hnext' := hkept (j + 1)
      rw [Nat.succ_mul, Nat.add_comm (j * lim), ← Nat.add_assoc] at hnext'
      exact hnext' hj
    rcases Nat.eq_zero_or_pos left with hzero | hsome'
    · omega
    · obtain ⟨replies, hchain, hrows⟩ := ih (list.length - (start + lim)) (by omega) hstart hrest rfl
      refine ⟨reply :: replies, .more hask (hnext.trans hsome) hchain, ?_⟩
      rw [List.flatMap_cons, ← List.take_append_drop lim (list.drop start), List.drop_drop]
      exact List.rel_append hshown hrows
  · refine ⟨[reply], .last hask (hnext.trans hnone), ?_⟩
    have hall : pageAt list lim start = list.drop start := by
      unfold pageAt at hlen ⊢
      rw [List.take_of_length_le]
      rw [List.length_take, List.length_drop] at hlen
      rw [List.length_drop]
      omega
    rw [List.flatMap_singleton, ← hall]
    exact hshown

/-! ### The first reply -/

theorem FirstShows.unique (h : FirstShows list lim k) (h' : FirstShows list lim j) : k = j := by
  cases h with
  | whole hfits =>
    cases h' with
    | whole _ => rfl
    | cut _ hover => exact absurd hfits hover
    | row hover => exact absurd hfits hover
  | cut _ hover htwo hlt hfits hmost =>
    cases h' with
    | whole hfits' => exact absurd hfits' hover
    | cut _ _ htwo' hlt' hfits' hmost' =>
      by_contra hne
      rcases Nat.lt_or_gt_of_ne hne with hkj | hjk
      · exact hmost j hkj hlt' hfits'
      · exact hmost' k hjk hlt hfits
    | row _ hmost' _ => exact absurd hfits (hmost' k htwo hlt)
  | row hover hmost hfits =>
    cases h' with
    | whole hfits' => exact absurd hfits' hover
    | cut _ _ htwo' hlt' hfits' _ => exact absurd hfits' (hmost j htwo' hlt')
    | row => rfl

/-- The first reply shows sessions from the front and goes on after them, or it
is a placeholder and the chain starts again. -/
theorem Listed.first (hlim : lim ≤ 200) (hpos : 1 ≤ lim) (hword : list.length < wordSize)
    (hsome : 1 ≤ list.length) (h : Listed list lim 0 reply) :
    (∃ k, FirstShows list lim k ∧ 1 ≤ k ∧ k ≤ list.length ∧
        List.Forall₂ ShrinksTo (list.take k) (shown reply) ∧
        ((∃ next, nextCursor reply = some next ∧ cursorStart (some next) = k) ∨
          nextCursor reply = none ∧ k = list.length)) ∨
      ((∀ k, ¬ FirstShows list lim k) ∧ (shown reply).length = 1 ∧
        ∃ next, nextCursor reply = some next ∧ cursorStart (some next) = 0) := by
  have hlen := length_pageAt list lim 0
  have htake : ∀ k, k ≤ (pageAt list lim 0).length → (pageAt list lim 0).take k = list.take k := by
    intro k hk
    unfold pageAt
    rw [List.drop_zero, List.take_take, Nat.min_eq_left (by omega)]
  have hon : ∀ next, nextAt list lim 0 = next → (∃ c, next = some c ∧
      cursorStart (some c) = (pageAt list lim 0).length) ∨
        next = none ∧ (pageAt list lim 0).length = list.length := by
    rintro next rfl
    obtain ⟨c, hc, hstart, hfull, -⟩ | ⟨hnone, hrest, -⟩ := nextAt_cases 0 hpos hword
    · exact Or.inl ⟨c, hc, by omega⟩
    · exact Or.inr ⟨hnone, by omega⟩
  cases h with
  | whole hfits hshown hnext =>
    refine Or.inl ⟨_, .whole hfits, by omega, by omega, ?_, hon _ hnext.symm⟩
    rw [← htake _ (Nat.le_refl _), List.take_length, hshown]
    exact shrinksTo_refl_all _
  -- a cut shows the longest part that fits; a cut to one row may have shrunk it too
  | kept k hover hpos hlt hshown hwhole hnext hfits hmost =>
    have hword' : k < wordSize := by
      rw [wordSize]
      omega
    have hmost' : ∀ k', k < k' → k' < (pageAt list lim 0).length → ¬ CutFits list k' := by
      intro k' hk' hlt'
      rw [CutFits, ← htake k' (Nat.le_of_lt hlt')]
      exact hmost k' hk' hlt'
    rw [htake k (Nat.le_of_lt hlt)] at hshown
    refine Or.inl ⟨k, ?_, hpos, by omega, hshown, Or.inl ⟨_, hnext, startOf_decimal hword'⟩⟩
    rcases Nat.lt_or_ge 1 k with htwo | hone
    · refine .cut k hover htwo hlt ?_ hmost'
      rwa [CutFits, ← htake k (Nat.le_of_lt hlt), ← hwhole htwo]
    · obtain rfl : k = 1 := Nat.le_antisymm hone hpos
      refine .row hover (fun k' hk' => hmost' k' hk') ?_
      obtain ⟨row, hrow⟩ : ∃ row, list[0]? = some row :=
        ⟨_, List.getElem?_eq_getElem (by omega)⟩
      have hfront : list.take 1 = [row] := by
        rw [List.take_one, List.head?_eq_getElem?, hrow]
        rfl
      rw [hfront] at hshown
      obtain ⟨row', rest, hto, hrest, heq⟩ := List.forall₂_cons_left_iff.mp hshown
      obtain rfl := List.forall₂_nil_left_iff.mp hrest
      rw [heq] at hfits
      refine ⟨row, row', hrow, hto, ?_⟩
      rwa [cursorAfter_lt hlt]
  | row hover hone hshown hnext hfits =>
    have hshows : FirstShows list lim 1 := by
      refine .row hover (fun k' hk' hlt' => by omega) ?_
      have hafter : cursorAfter (pageAt list lim 0) (nextAt list lim 0) 0 1 = nextAt list lim 0 := by
        rw [← hone, cursorAfter_length]
      rwa [hafter]
    refine Or.inl ⟨1, hshows, Nat.le_refl 1, hsome, ?_, ?_⟩
    · rw [← htake 1 (Nat.le_of_eq hone.symm), ← hone, List.take_length]
      exact hshown
    · rw [← hone]
      exact hon _ hnext.symm
  -- not even a shrunken row fits: a placeholder is shown and the start stays
  | omitted hover hshown hnext hstuck hmost =>
    refine Or.inr ⟨?_, hshown, _, hnext, startOf_decimal (by decide)⟩
    intro k hshows
    cases hshows with
    | whole hfits => exact hover hfits
    | cut _ _ htwo hlt hfits _ =>
      refine hmost k htwo hlt ?_
      rwa [htake k (Nat.le_of_lt hlt)]
    | row _ _ hfits => exact hstuck hfits

end Chains

/-! ### The listing -/

/-- A limit of 0 answers every cursor with the same cursor. -/
theorem not_listsOnce_zero {limit : Option Nat} (hlim : min (limit.getD 50) 200 = 0) :
    ¬ ListsOnce list limit := by
  rintro ⟨replies, hchain, -⟩
  have hreply : ∀ c, cursorStart c = 0 → traceStatusSessions list limit c =
      .ok (mcpOk (listing [] (some (Text.decimal 0)))) := by
    intro c hc
    unfold traceStatusSessions handleStatusSessions
    rw [hlim, listing_eq, ← cursorStart, hc]
    rfl
  have hfits : mcpOk (listing [] (some (Text.decimal 0))) = listing [] (some (Text.decimal 0)) := by
    rw [mcpOk, fitJson, if_pos]
    decide +kernel
  have hzero : cursorStart (some (Text.decimal 0)) = 0 := startOf_decimal (by decide)
  have hask := hreply none rfl
  rw [hfits] at hask
  exact Chain.not_stuck (hask.trans (hfits ▸ (hreply _ hzero).symm)) hask nextCursor_listing hchain

/-- A chain that lists every session once keeps every cursor. -/
theorem kept_of_listsOnce {limit : Option Nat} (hlim : min (limit.getD 50) 200 = lim)
    (hpos : 1 ≤ lim) (hword : list.length < wordSize) (hsome : 1 ≤ list.length)
    (h : ListsOnce list limit) : ∃ k, FirstShows list lim k ∧
      ∀ j, k + j * lim < list.length → PageKept list lim (k + j * lim) := by
  obtain ⟨replies, hchain, rows, hrows, hperm⟩ := h
  have hlen : (replies.flatMap shown).length = list.length :=
    hperm.length_eq.trans hrows.length_eq.symm
  obtain ⟨reply, hask, hlisted⟩ := traceStatusSessions_listed list hlim hpos
    (show cursorStart none = 0 from rfl)
  cases hchain with
  | @last _ reply0 h hend =>
    obtain rfl : reply0 = reply := Except.ok.inj (h.symm.trans hask)
    obtain ⟨k, hshows, -, -, -, ⟨next, hnext, -⟩ | ⟨-, hall⟩⟩ | ⟨-, -, next, hnext, -⟩ :=
      hlisted.first (by omega) hpos hword hsome
    · exact absurd (hnext.symm.trans hend) (Option.some_ne_none _)
    · exact ⟨k, hshows, fun j hj => by omega⟩
    · exact absurd (hnext.symm.trans hend) (Option.some_ne_none _)
  | @more _ next0 reply0 rest h hnext0 hrest =>
    obtain rfl : reply0 = reply := Except.ok.inj (h.symm.trans hask)
    rw [List.flatMap_cons, List.length_append] at hlen
    obtain ⟨k, hshows, hk, hkle, hshown, hnext⟩ | ⟨-, hone, next, hnext, hstart⟩ :=
      hlisted.first (by omega) hpos hword hsome
    · refine ⟨k, hshows, fun j hj => ?_⟩
      obtain ⟨next, hnext, hstart⟩ | ⟨hnone, -⟩ := hnext
      · obtain rfl : next0 = next := Option.some_inj.mp (hnext0.symm.trans hnext)
        have hfirst : (shown reply0).length = k := by
          rw [← hshown.length_eq, List.length_take]
          omega
        exact pageKept_of_chain hlim hpos hword hrest hstart hk (by omega) hj
      · exact absurd (hnext0.symm.trans hnone) (Option.some_ne_none _)
    · -- the chain starts again after the placeholder
      obtain rfl : next0 = next := Option.some_inj.mp (hnext0.symm.trans hnext)
      have htail := hrest.shown_length hlim hpos hword hstart
      omega

/-- Where every cursor is kept, every session is listed once. -/
theorem listsOnce_of_kept {limit : Option Nat} (hlim : min (limit.getD 50) 200 = lim)
    (hpos : 1 ≤ lim) (hword : list.length < wordSize) (hsome : 1 ≤ list.length)
    (hshows : FirstShows list lim k)
    (hkept : ∀ j, k + j * lim < list.length → PageKept list lim (k + j * lim)) :
    ListsOnce list limit := by
  obtain ⟨reply, hask, hlisted⟩ := traceStatusSessions_listed list hlim hpos
    (show cursorStart none = 0 from rfl)
  obtain ⟨k', hshows', hk, hkle, hshown, hnext⟩ | ⟨hnot, -⟩ :=
    hlisted.first (by omega) hpos hword hsome
  · obtain rfl : k = k' := hshows.unique hshows'
    obtain ⟨next, hnext, hstart⟩ | ⟨hnone, rfl⟩ := hnext
    · obtain ⟨replies, hchain, hrows⟩ := exists_listing hlim hpos hword hstart hkept
      refine ⟨reply :: replies, .more hask hnext hchain, _, ?_, List.Perm.refl _⟩
      rw [List.flatMap_cons]
      have happend : List.Forall₂ ShrinksTo (list.take k ++ list.drop k)
        (shown reply ++ replies.flatMap shown) := List.rel_append hshown hrows
      rwa [List.take_append_drop] at happend
    · refine ⟨[reply], .last hask hnone, _, ?_, List.Perm.refl _⟩
      rw [List.take_length] at hshown
      rwa [List.flatMap_singleton]
  · exact absurd hshows (hnot k)

/-- Without sessions there is one empty reply. -/
theorem listsOnce_nil {limit : Option Nat} (hlim : min (limit.getD 50) 200 = lim)
    (hpos : 1 ≤ lim) : ListsOnce [] limit := by
  obtain ⟨replies, hchain, hrows⟩ := exists_listing hlim hpos
    (show ([] : List Json).length < wordSize by decide) (show cursorStart none = 0 from rfl) fun j hj => absurd hj (Nat.not_lt_zero _)
  exact ⟨replies, hchain, _, hrows, List.Perm.refl _⟩

end Listing

/-- A listing shows every session once if and only if the limit is not 0 and,
where there are sessions, every page after those the first reply shows keeps
its cursor. -/
theorem listsOnce_iff (list : List Json) (limit : Option Nat) (hword : list.length < wordSize) :
    ListsOnce list limit ↔ limit ≠ some 0 ∧ (list = [] ∨
      ∃ k, FirstShows list (min (limit.getD 50) 200) k ∧
        ∀ j, k + j * min (limit.getD 50) 200 < list.length →
          PageKept list (min (limit.getD 50) 200) (k + j * min (limit.getD 50) 200)) := by
  have hzero : limit = some 0 ↔ min (limit.getD 50) 200 = 0 := by
    cases limit with
    | none => exact ⟨fun h => absurd h.symm (Option.some_ne_none _), fun h => absurd h (by decide)⟩
    | some n =>
      rw [Option.some_inj, Option.getD_some]
      omega
  generalize hlim : min (limit.getD 50) 200 = lim at hzero
  constructor
  · intro h
    have hpos : 1 ≤ lim := by
      by_contra hlt
      exact not_listsOnce_zero (hlim.trans (by omega)) h
    refine ⟨fun heq => by have := hzero.mp heq; omega, ?_⟩
    by_cases hnil : list = []
    · exact Or.inl hnil
    · exact Or.inr (kept_of_listsOnce hlim hpos hword (List.length_pos_of_ne_nil hnil) h)
  · rintro ⟨hlimit, hrest⟩
    have hpos : 1 ≤ lim := Nat.one_le_iff_ne_zero.mpr (mt hzero.mpr hlimit)
    by_cases hnil : list = []
    · subst hnil
      exact listsOnce_nil hlim hpos
    · obtain hnil' | ⟨k, hshows, hkept⟩ := hrest
      · exact absurd hnil' hnil
      · exact listsOnce_of_kept hlim hpos hword (List.length_pos_of_ne_nil hnil) hshows hkept

/-! ### Three short sessions, and four of which the last two are long -/

/-- A stored session with a workload label. -/
def sessionRow (id label : List Char) : Json :=
  .obj [("session_id", .str id), ("state", .str "succeeded".toList),
    ("workload", .obj [("input_fingerprint", .null), ("label", .str label)])]

/-- Three sessions on two pages. -/
theorem listsOnce_three :
    ListsOnce [sessionRow ['a'] [], sessionRow ['b'] [], sessionRow ['c'] []] (some 2) := by
  refine (listsOnce_iff _ (some 2) (by decide)).mpr ⟨by decide, Or.inr ⟨2, .whole ?_, ?_⟩⟩
  · unfold PageFits
    decide +kernel
  · intro j hj
    obtain rfl : j = 0 := by
      have hj' : 2 + j * 2 < 3 := hj
      omega
    refine Or.inl ?_
    unfold PageFits
    decide +kernel

/-- A label of 20000 characters. -/
def longLabel : List Char := List.replicate 20000 'x'

theorem size_sessionRow_long (id : List Char) : 20000 < size (sessionRow id longLabel) := by
  have hlabel : size (.str longLabel) = 20002 := by
    rw [longLabel, Json.size_str_plain, List.length_replicate]
    intro c hc
    rw [List.eq_of_mem_replicate hc]
    exact ⟨by decide, by decide⟩
  have hworkload : size (.str longLabel) <
      size (.obj [("input_fingerprint", .null), ("label", .str longLabel)]) :=
    Json.size_lt_of_mem (List.mem_cons_of_mem _ List.mem_cons_self)
  have hrow : size (.obj [("input_fingerprint", .null), ("label", .str longLabel)]) <
      size (sessionRow id longLabel) :=
    Json.size_lt_of_mem (List.mem_cons_of_mem _ (List.mem_cons_of_mem _ List.mem_cons_self))
  omega

/-- The second page is cut to its first session and gets the cursor 1: the
listing goes back. -/
theorem listsOnce_fails_secondPage :
    ¬ ListsOnce [sessionRow ['a'] [], sessionRow ['b'] [], sessionRow ['c'] longLabel,
      sessionRow ['d'] longLabel] (some 2) := by
  intro h
  obtain ⟨k, hshows, hkept⟩ := kept_of_listsOnce rfl (by decide) (by decide) (by decide) h
  have hwhole : FirstShows [sessionRow ['a'] [], sessionRow ['b'] [], sessionRow ['c'] longLabel,
      sessionRow ['d'] longLabel] 2 2 := by
    refine .whole ?_
    show size (.obj (listing [sessionRow ['a'] [], sessionRow ['b'] []]
      (some (Text.decimal 2)))) ≤ mcpResultBudget
    decide +kernel
  obtain rfl : k = 2 := hshows.unique hwhole
  obtain hfits | ⟨hone, -⟩ := hkept 0 (by decide)
  · have hpage : size (.obj (listing [sessionRow ['c'] longLabel, sessionRow ['d'] longLabel]
        (some (Text.decimal 4)))) ≤ 32 * 1024 := hfits
    have hdata : size (.arr [sessionRow ['c'] longLabel, sessionRow ['d'] longLabel]) <
        size (.obj (listing [sessionRow ['c'] longLabel, sessionRow ['d'] longLabel]
          (some (Text.decimal 4)))) := by
      rw [listing_eq]
      exact Json.size_lt_of_mem List.mem_cons_self
    have hc := size_sessionRow_long ['c']
    have hd := size_sessionRow_long ['d']
    rw [Json.size_arr (List.cons_ne_nil _ _), Json.itemsSize, List.map_cons, List.map_singleton,
      List.sum_cons, List.sum_singleton] at hdata
    omega
  · exact absurd hone (by decide)

end TraceMcp.Service
