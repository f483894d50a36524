import TraceMcp.Service.Paging

/-!
# Following cursors

The answers of `query_snapshot` and `query_report` in `src/service.rs`: a page
of the rows in an envelope, fitted to the budget. Repeating the query with
`next_cursor`, as the CLI does, is a `Chain` of replies.

Every reply starts at its cursor and goes on where it ends, so the chain shows
the rows in order for as long as it moves. It stops moving at a row that no
cut brings under the budget: the placeholder's cursor points at the row
itself. A row inside an earlier reply is never such a row, because alone it
takes no more room there (`showable_of_fits`).
-/

namespace TraceMcp.Service

open TraceMcp.Lib
open Json (Fields size)

/-! ## Queries -/

/-- What a query answers from: the rows, and the fields around a page, which
may tell whether the page is empty. -/
structure Evidence where
  rows : List Json
  around : Bool → Fields

/-- The end of `query_snapshot` and `query_report`: the page at the cursor in
its envelope, fitted to the budget. -/
def queryPage (q : Evidence) (limit budget : Nat) (cursor : Option (List Char)) :
    Result Fields := do
  let offset ← parseOffsetCursor cursor
  let (page, next) := paginate q.rows offset limit
  return fitJson budget offset (envelope (q.around page.isEmpty) page next next.isSome)

/-- `SCHEMA_VERSION`. -/
def schemaVersion : Json := .num ['1']

/-- What the envelope of `query_snapshot` says besides the page. -/
structure SnapshotMeta where
  snapshotId : Json
  aid : Json
  kind : Json
  group : Json
  sort : Json
  selection : Json
  quality : Json
  totals : Json
  /-- `empty_result_hints` of an empty page. -/
  emptyHints : List Json

/-- `query_snapshot`, once it has its rows. -/
def snapshotEvidence (m : SnapshotMeta) (rows : List Json) : Evidence where
  rows := rows
  around empty :=
    [("analysis_id", m.aid), ("group", m.group),
      ("hints", .arr (if empty then m.emptyHints else [])), ("kind", m.kind),
      ("quality", m.quality), ("schema_version", schemaVersion), ("selection", m.selection),
      ("snapshot_id", m.snapshotId), ("sort", m.sort), ("totals", m.totals)]

/-- `query_report`, with the manifest of the report in `meta`. -/
def reportEvidence (reportId : Json) (manifest : Fields) (rows : List Json) : Evidence where
  rows := rows
  around _ :=
    let get key := (Fields.get key manifest).getD .null
    [("baseline_analysis_id", get "baseline_analysis_id"),
      ("candidate_analysis_id", get "candidate_analysis_id"), ("checks", get "checks"),
      ("comparable", get "comparable"), ("kind", .str "comparison".toList),
      ("quality", .obj [("gap_count", .str ['0']), ("timing", .str "decoder_estimate".toList)]),
      ("report_id", reportId), ("schema_version", schemaVersion), ("warnings", get "warnings")]

/-! ## Chains of replies -/

section Chain

variable {ask : Option (List Char) → Result Fields} {c : Option (List Char)} {reply : Fields}
  {replies : List Fields}

/-- The replies of asking again with every `next_cursor`, until there is none. -/
inductive Chain (ask : Option (List Char) → Result Fields) :
    Option (List Char) → List Fields → Prop
  | last {c : Option (List Char)} {reply : Fields} (h : ask c = .ok reply)
      (hend : nextCursor reply = none) : Chain ask c [reply]
  | more {c : Option (List Char)} {next : List Char} {reply : Fields} {replies : List Fields}
      (h : ask c = .ok reply) (hnext : nextCursor reply = some next)
      (hrest : Chain ask (some next) replies) : Chain ask c (reply :: replies)

/-- The rows of a reply. -/
def shown (reply : Fields) : List Json := (dataOf reply).getD []

/-- Where the cursor of a reply asks for the same reply again, the chain does
not end. -/
theorem Chain.not_stuck {next : List Char} (hask : ask c = ask (some next))
    (h : ask c = .ok reply) (hnext : nextCursor reply = some next) : ¬ Chain ask c replies := by
  intro hchain
  have hstuck : ∀ c' replies, Chain ask c' replies → ask c' ≠ .ok reply := by
    intro c' replies hchain
    induction hchain with
    | last hlast hend =>
      intro heq
      obtain rfl : _ = reply := Except.ok.inj (hlast.symm.trans heq)
      exact Option.some_ne_none _ (hnext.symm.trans hend)
    | more hmore hnext' _ ih =>
      intro heq
      obtain rfl : _ = reply := Except.ok.inj (hmore.symm.trans heq)
      obtain rfl : _ = next := Option.some_inj.mp (hnext'.symm.trans hnext)
      exact ih (hask.symm.trans h)
  exact hstuck c replies hchain h

/-- Every row is shown once and in order, in replies within the budget. -/
def VisitsOnce (ask : Option (List Char) → Result Fields) (rows : List Json) (budget : Nat) :
    Prop :=
  ∃ replies, Chain ask none replies ∧ List.Forall₂ ShrinksTo rows (replies.flatMap shown) ∧
    ∀ reply ∈ replies, size (.obj reply) ≤ budget

end Chain

/-! ## Sizes of pages -/

section Sizes

variable {xs ys : List Json}

theorem itemsSize_le_of_sublist (h : xs.Sublist ys) : Json.itemsSize xs ≤ Json.itemsSize ys :=
  (h.map fun v => size v + 1).sum_le_sum fun _ _ => Nat.zero_le _

theorem size_arr_le_of_sublist (hne : xs ≠ []) (h : xs.Sublist ys) :
    size (.arr xs) ≤ size (.arr ys) := by
  have hne' : ys ≠ [] := fun hnil => hne (List.sublist_nil.mp (hnil ▸ h))
  rw [Json.size_arr hne, Json.size_arr hne']
  exact Nat.add_le_add_right (itemsSize_le_of_sublist h) 1

end Sizes

section Query

variable {q : Evidence} {limit budget i j k : Nat} {c : Option (List Char)}

/-- The page at offset `i`. -/
def pageAt (rows : List Json) (limit i : Nat) : List Json := (rows.drop i).take limit

/-- The cursor to row `j`. -/
def resume (rows : List Json) (j : Nat) : Option (List Char) :=
  if j < rows.length then some (Text.decimal j) else none

/-- Row `i` can be shown: the page there fits as it is, or the row alone does
once it is cut. -/
def Showable (q : Evidence) (limit budget i : Nat) : Prop :=
  WithinBudget (q.around false) budget (pageAt q.rows limit i)
      (resume q.rows (i + (pageAt q.rows limit i).length)) ∨
    ∃ row row', q.rows[i]? = some row ∧ ShrinksTo row row' ∧
      WithinBudget (q.around false) budget [row'] (resume q.rows (i + 1))

theorem length_pageAt (rows : List Json) (limit i : Nat) :
    (pageAt rows limit i).length = min limit (rows.length - i) := by
  unfold pageAt
  rw [List.length_take, List.length_drop]

theorem cursorAfter_pageAt (hk : k ≤ (pageAt q.rows limit i).length) (hpos : 1 ≤ k) :
    cursorAfter (pageAt q.rows limit i) (resume q.rows (i + (pageAt q.rows limit i).length)) i k =
      resume q.rows (i + k) := by
  rcases Nat.lt_or_eq_of_le hk with hlt | rfl
  · rw [cursorAfter_lt hlt, resume, if_pos]
    rw [length_pageAt] at hlt
    omega
  · exact cursorAfter_length

/-- Every row of a reply that shows rows as they are could be asked for. -/
theorem showable_of_fits (hk : k ≤ (pageAt q.rows limit i).length)
    (hfits : WithinBudget (q.around false) budget ((pageAt q.rows limit i).take k) (resume q.rows (i + k)))
    (hij : i ≤ j) (hjk : j < i + k) : Showable q limit budget j := by
  rw [length_pageAt] at hk
  have hj : j < q.rows.length := by omega
  have htake : (pageAt q.rows limit i).take k = (q.rows.drop i).take k := by
    unfold pageAt
    rw [List.take_take, Nat.min_eq_left (by omega)]
  rw [htake] at hfits
  rcases Nat.lt_or_ge (i + k) q.rows.length with hlt | hge
  · -- more rows follow: the row alone has no longer a cursor
    refine Or.inr ⟨q.rows[j], q.rows[j], List.getElem?_eq_getElem hj, Relation.ReflTransGen.refl, ?_⟩
    refine Nat.le_trans (size_envelope_le ?_) hfits
    have hsub : [q.rows[j]].Sublist ((q.rows.drop i).take k) := by
      refine List.singleton_sublist.mpr (List.mem_iff_getElem?.mpr ⟨j - i, ?_⟩)
      rw [List.getElem?_take_of_lt (by omega), List.getElem?_drop,
        show i + (j - i) = j by omega]
      exact List.getElem?_eq_getElem hj
    have hdata := size_arr_le_of_sublist (List.cons_ne_nil _ _) hsub
    have hnext : size (cursorJson (resume q.rows (j + 1))) ≤
        size (cursorJson (resume q.rows (i + k))) := by
      rw [resume, resume, if_pos (by omega), if_pos hlt]
      exact Json.size_decimal_mono (by omega)
    omega
  · -- the reply ends the rows, and so does the page at `j`
    have hlen : (pageAt q.rows limit j).length = q.rows.length - j := by
      rw [length_pageAt]
      omega
    have hpage : pageAt q.rows limit j = q.rows.drop j := by
      unfold pageAt
      rw [List.take_of_length_le]
      rw [List.length_drop]
      omega
    refine Or.inl (Nat.le_trans (size_envelope_le ?_) hfits)
    have hsub : (q.rows.drop j).Sublist ((q.rows.drop i).take k) := by
      rw [List.take_of_length_le (by rw [List.length_drop]; omega),
        show j = i + (j - i) by omega, ← List.drop_drop]
      exact List.drop_sublist _ _
    have hne : q.rows.drop j ≠ [] := mt List.drop_eq_nil_iff.mp (by omega)
    have hdata := size_arr_le_of_sublist hne hsub
    have hnone : ∀ m, q.rows.length ≤ m → resume q.rows m = none :=
      fun m hm => if_neg (by omega)
    rw [hlen, hpage, hnone _ (by omega), hnone _ hge]
    omega

/-! ## One reply -/

/-- The reply to a cursor at row `i`: some of the rows from `i` on, or a
placeholder that leads back to `i`. -/
inductive Answers (q : Evidence) (limit budget i : Nat) (reply : Fields) : Prop
  | shows (k : Nat) (hpos : 1 ≤ k) (hle : i + k ≤ q.rows.length)
      (hshown : List.Forall₂ ShrinksTo ((q.rows.drop i).take k) (shown reply))
      (hnext : nextCursor reply = resume q.rows (i + k))
      (hsize : size (.obj reply) ≤ budget)
      (hable : ∀ j, i ≤ j → j < i + k → Showable q limit budget j)
  | stuck (hnext : nextCursor reply = some (Text.decimal i))
      (hable : ¬ Showable q limit budget i)

/-- Only the rows, the cursor and the size of a reply matter. -/
theorem Answers.congr {reply reply' : Fields} (h : Answers q limit budget i reply)
    (hshown : shown reply' = shown reply) (hnext : nextCursor reply' = nextCursor reply)
    (hsize : size (.obj reply') ≤ budget) : Answers q limit budget i reply' := by
  cases h with
  | shows k hpos hle hrows hcursor _ hable =>
    exact .shows k hpos hle (hshown ▸ hrows) (hnext.trans hcursor) hsize hable
  | stuck hcursor hable => exact .stuck (hnext.trans hcursor) hable

theorem answers_of_fitted {reply : Fields} (hlimit : 1 ≤ limit) (hi : i < q.rows.length)
    (h : Fitted (q.around false) budget i (pageAt q.rows limit i)
      (resume q.rows (i + (pageAt q.rows limit i).length)) reply) :
    Answers q limit budget i reply := by
  have hpage : 1 ≤ (pageAt q.rows limit i).length := by
    rw [length_pageAt]
    omega
  cases h with
  | kept k data hpos hle hshown hwhole hfits hmost =>
    have hlen := hle
    rw [length_pageAt] at hlen
    have htake : (pageAt q.rows limit i).take k = (q.rows.drop i).take k := by
      unfold pageAt
      rw [List.take_take, Nat.min_eq_left (by omega)]
    rw [cursorAfter_pageAt hle hpos] at hfits ⊢
    refine .shows k hpos (by omega) ?_ nextCursor_envelope hfits ?_
    · rw [shown, dataOf_envelope, ← htake]
      exact hshown
    · intro j hij hjk
      rcases Nat.lt_or_ge 1 k with htwo | hone
      · rw [hwhole htwo] at hfits
        exact showable_of_fits hle hfits hij hjk
      · -- one row, which may be cut
        obtain rfl : k = 1 := Nat.le_antisymm hone hpos
        obtain rfl : j = i := by omega
        have hrow : (pageAt q.rows limit j).take 1 = [q.rows[j]] := by
          rw [htake, List.drop_eq_getElem_cons hi]
          rfl
        rw [hrow] at hshown
        obtain ⟨row', rest, hrow', hrest, rfl⟩ := List.forall₂_cons_left_iff.mp hshown
        obtain rfl := List.forall₂_nil_left_iff.mp hrest
        exact Or.inr ⟨q.rows[j], row', List.getElem?_eq_getElem hi, hrow', hfits⟩
  | omitted row hrow hstuck hmost =>
    refine .stuck nextCursor_envelope ?_
    rintro (hfits | ⟨row0, row', hrow0, hto, hfits⟩)
    · rcases Nat.lt_or_ge 1 (pageAt q.rows limit i).length with htwo | hone
      · refine hmost _ htwo (Nat.le_refl _) ?_
        rwa [List.take_length, cursorAfter_pageAt (Nat.le_refl _) hpage]
      · have hlen : (pageAt q.rows limit i).length = 1 := Nat.le_antisymm hone hpage
        have hsingle : pageAt q.rows limit i = [row] := by
          obtain ⟨r, hr⟩ := List.length_eq_one_iff.mp hlen
          rw [hr] at hrow ⊢
          rw [Option.some_inj.mp hrow]
        refine hstuck row Relation.ReflTransGen.refl ?_
        rw [cursorAfter_pageAt hpage (Nat.le_refl 1)]
        rwa [hlen, hsingle] at hfits
    · have hsame : row0 = row := by
        unfold pageAt at hrow
        rw [List.getElem?_take_of_lt (by omega), List.getElem?_drop] at hrow
        exact Option.some_inj.mp (hrow0.symm.trans hrow)
      refine hstuck row' (hsame ▸ hto) ?_
      rwa [cursorAfter_pageAt hpage (Nat.le_refl 1)]

theorem queryPage_answers (budget : Nat) (hlimit : 1 ≤ limit) (hword : q.rows.length < wordSize)
    (hc : parseOffsetCursor c = .ok i) (hi : i < q.rows.length) :
    ∃ reply, queryPage q limit budget c = .ok reply ∧ Answers q limit budget i reply := by
  have hlen := length_pageAt q.rows limit i
  have hne : pageAt q.rows limit i ≠ [] := by
    intro hnil
    rw [hnil, List.length_nil] at hlen
    omega
  have hpaginate : paginate q.rows i limit =
      (pageAt q.rows limit i, resume q.rows (i + (pageAt q.rows limit i).length)) := by
    unfold paginate
    dsimp only
    rw [show (q.rows.drop i).take limit = pageAt q.rows limit i from rfl, satAdd_eq (by omega)]
    rfl
  generalize hnext : resume q.rows (i + (pageAt q.rows limit i).length) = next at hpaginate
  have hask : queryPage q limit budget c = .ok (fitJson budget i
      (envelope (q.around false) (pageAt q.rows limit i) next next.isSome)) := by
    unfold queryPage
    rw [hc, ← List.isEmpty_eq_false_iff.mpr hne]
    show Except.ok (fitJson budget i (envelope (q.around (paginate q.rows i limit).1.isEmpty)
      (paginate q.rows i limit).1 (paginate q.rows i limit).2
      (paginate q.rows i limit).2.isSome)) = _
    rw [hpaginate]
  refine ⟨_, hask, ?_⟩
  unfold fitJson
  split
  next hfits =>
    -- marked as truncated it takes no more room, so it is what the loop leaves
    have hmark : WithinBudget (q.around false) budget (pageAt q.rows limit i) next := by
      refine Nat.le_trans (size_envelope_le ?_) hfits
      have htrue : size (.bool true) ≤ size (.bool next.isSome) := by
        cases next.isSome with
        | true => exact Nat.le_refl _
        | false =>
          rw [Json.size_true, Json.size_false]
          omega
      omega
    rw [← hnext] at hmark
    have hanswers := answers_of_fitted hlimit hi (fitted_whole hne hmark)
    refine hanswers.congr ?_ ?_ hfits
    · unfold shown
      rw [dataOf_envelope, dataOf_envelope]
    · rw [nextCursor_envelope, nextCursor_envelope, hnext]
  next =>
    rw [set_truncated_envelope, ← hnext]
    exact answers_of_fitted hlimit hi (fitLoop_fitted hne (by omega))

/-! ## The whole chain -/

/-- The offset a cursor asks for. -/
theorem parseOffsetCursor_resume (hword : q.rows.length < wordSize) {next : List Char}
    (h : resume q.rows j = some next) :
    parseOffsetCursor (some next) = .ok j ∧ j < q.rows.length := by
  unfold resume at h
  split at h
  next hj =>
    obtain rfl := Option.some_inj.mp h
    unfold parseOffsetCursor
    dsimp only
    rw [Text.parseU64, Text.fromStrRadix_decimal (show j < 2 ^ 64 from Nat.lt_trans hj hword)]
    exact ⟨rfl, hj⟩
  next => exact absurd h.symm (Option.some_ne_none _)

/-- From a row on, where every row can be shown, the chain shows them all. -/
theorem exists_chain (hlimit : 1 ≤ limit) (hword : q.rows.length < wordSize)
    (hable : ∀ i < q.rows.length, Showable q limit budget i)
    (hc : parseOffsetCursor c = .ok i) (hi : i < q.rows.length) :
    ∃ replies, Chain (queryPage q limit budget) c replies ∧
      List.Forall₂ ShrinksTo (q.rows.drop i) (replies.flatMap shown) ∧
      ∀ reply ∈ replies, size (.obj reply) ≤ budget := by
  induction hleft : q.rows.length - i using Nat.strong_induction_on generalizing i c with
  | _ left ih =>
  obtain ⟨reply, hask, hanswers⟩ := queryPage_answers budget hlimit hword hc hi
  cases hanswers with
  | stuck hnext hstuck => exact absurd (hable i hi) hstuck
  | shows k hpos hle hshown hnext hsize _ =>
    cases hresume : resume q.rows (i + k) with
    | none =>
      have hend : q.rows.length ≤ i + k := by
        by_contra hlt
        rw [resume, if_pos (Nat.lt_of_not_le hlt)] at hresume
        exact Option.some_ne_none _ hresume
      refine ⟨[reply], .last hask (hnext.trans hresume), ?_, ?_⟩
      · rw [List.take_of_length_le (by rw [List.length_drop]; omega)] at hshown
        rwa [List.flatMap_singleton]
      · intro r hr
        rwa [List.mem_singleton.mp hr]
    | some next =>
      obtain ⟨hparse, hlt⟩ := parseOffsetCursor_resume hword hresume
      obtain ⟨replies, hchain, hrows, hsizes⟩ := ih _ (by omega) hparse hlt rfl
      refine ⟨reply :: replies, .more hask (hnext.trans hresume) hchain, ?_, ?_⟩
      · rw [List.flatMap_cons, ← List.take_append_drop k (q.rows.drop i), List.drop_drop]
        exact List.rel_append hshown hrows
      · intro r hr
        rcases List.mem_cons.mp hr with rfl | hr
        · exact hsize
        · exact hsizes r hr

/-- A chain that ends passes only rows that can be shown. -/
theorem showable_of_chain (hlimit : 1 ≤ limit) (hword : q.rows.length < wordSize)
    {replies : List Fields} (hchain : Chain (queryPage q limit budget) c replies)
    (hc : parseOffsetCursor c = .ok i) (hij : i ≤ j) (hj : j < q.rows.length) :
    Showable q limit budget j := by
  have hall := hchain
  induction hchain generalizing i with
  | @last c reply0 h hend =>
    obtain ⟨reply, hask, hanswers⟩ := queryPage_answers budget hlimit hword hc
      (Nat.lt_of_le_of_lt hij hj)
    obtain rfl : reply0 = reply := Except.ok.inj (h.symm.trans hask)
    cases hanswers with
    | stuck hnext _ => exact absurd (hnext.symm.trans hend) (Option.some_ne_none _)
    | shows k hpos hle hshown hnext hsize hable =>
      refine hable j hij ?_
      by_contra hge
      have hmore : resume q.rows (i + k) = some (Text.decimal (i + k)) := if_pos (by omega)
      exact Option.some_ne_none _ (hmore.symm.trans (hnext.symm.trans hend))
  | @more c next reply0 replies h hnext0 hrest ih =>
    obtain ⟨reply, hask, hanswers⟩ := queryPage_answers budget hlimit hword hc
      (Nat.lt_of_le_of_lt hij hj)
    obtain rfl : reply0 = reply := Except.ok.inj (h.symm.trans hask)
    cases hanswers with
    | stuck hnext _ =>
      -- the cursor leads back to the same reply
      have hdecimal : parseOffsetCursor (some (Text.decimal i)) = .ok i := by
        have hi : resume q.rows i = some (Text.decimal i) := if_pos (Nat.lt_of_le_of_lt hij hj)
        exact (parseOffsetCursor_resume hword hi).1
      have hsame : queryPage q limit budget c = queryPage q limit budget (some (Text.decimal i)) := by
        unfold queryPage
        rw [hc, hdecimal]
      exact absurd hall (Chain.not_stuck hsame h hnext)
    | shows k hpos hle hshown hnext hsize hable =>
      rcases Nat.lt_or_ge j (i + k) with hlt | hge
      · exact hable j hij hlt
      · have hresume : resume q.rows (i + k) = some next := hnext.symm.trans hnext0
        exact ih (parseOffsetCursor_resume hword hresume).1 hge hrest

/-- Without rows there is one reply, smaller than one with a placeholder. -/
theorem visitsOnce_of_empty (hnil : q.rows = [])
    (hroom : size (.obj (envelope (q.around q.rows.isEmpty) [omittedRow]
      (some (Text.decimal 0)) true)) ≤ budget) :
    VisitsOnce (queryPage q limit budget) q.rows budget := by
  have hempty : size (.obj (envelope (q.around true) [] none false)) ≤ budget := by
    rw [hnil] at hroom
    refine Nat.le_trans (size_envelope_le ?_) hroom
    decide +kernel
  have hask : queryPage q limit budget none = .ok (envelope (q.around true) [] none false) := by
    have hpaginate : paginate q.rows 0 limit = ([], none) := by
      rw [hnil]
      unfold paginate
      dsimp only
      rw [List.drop_nil, List.take_nil]
      rfl
    show Except.ok (fitJson budget 0 (envelope (q.around (paginate q.rows 0 limit).1.isEmpty)
      (paginate q.rows 0 limit).1 (paginate q.rows 0 limit).2
      (paginate q.rows 0 limit).2.isSome)) = _
    rw [hpaginate]
    exact congrArg Except.ok (if_pos hempty)
  refine ⟨_, .last hask nextCursor_envelope, ?_, ?_⟩
  · rw [List.flatMap_singleton, shown, dataOf_envelope, hnil]
    exact List.Forall₂.nil
  · intro r hr
    rwa [List.mem_singleton.mp hr]

/-- Following cursors shows every row once, in order and within the budget,
if and only if every row can be shown: the page that starts with it fits, or
the row alone once it is cut. -/
theorem visitsOnce_iff (q : Evidence) (limit budget : Nat) (hlimit : 1 ≤ limit)
    (hword : q.rows.length < wordSize)
    (hroom : size (.obj (envelope (q.around q.rows.isEmpty) [omittedRow]
      (some (Text.decimal 0)) true)) ≤ budget) :
    VisitsOnce (queryPage q limit budget) q.rows budget ↔
      ∀ i < q.rows.length, Showable q limit budget i := by
  constructor
  · rintro ⟨replies, hchain, -, -⟩ i hi
    exact showable_of_chain hlimit hword hchain rfl (Nat.zero_le i) hi
  · intro hable
    rcases Nat.eq_zero_or_pos q.rows.length with hzero | hpos
    · exact visitsOnce_of_empty (List.eq_nil_of_length_eq_zero hzero) hroom
    · obtain ⟨replies, hchain, hrows, hsizes⟩ := exists_chain (c := none) hlimit hword hable rfl hpos
      exact ⟨replies, hchain, hrows, hsizes⟩

end Query

/-! ### A report of two paths, and one whose row takes too much room -/

/-- A row of a comparison without metrics. -/
def compareRow (path : List Char) : Json :=
  .obj [("baseline", .null), ("baseline_evidence", .arr []), ("candidate", .null),
    ("candidate_evidence", .arr []), ("match_kind", .str "path".toList),
    ("normalization", .str "per_matched_path".toList), ("path", .str path), ("unit", .str "ns_decoder_estimate".toList)]

/-- A comparison of the paths. -/
def comparison (paths : List (List Char)) : Evidence :=
  reportEvidence (.str "r1".toList) [] (paths.map compareRow)

/-- With room for one row at a time, two pages show two rows. -/
theorem visitsOnce_twoRows :
    VisitsOnce (queryPage (comparison ["a".toList, "b".toList]) 2 500)
      (comparison ["a".toList, "b".toList]).rows 500 := by
  refine (visitsOnce_iff _ 2 500 (by decide) (by decide +kernel) (by decide +kernel)).mpr ?_
  intro i hi
  have hrow : ∀ i < 2, ∃ row, (comparison ["a".toList, "b".toList]).rows[i]? = some row ∧
      WithinBudget ((comparison ["a".toList, "b".toList]).around false) 500 [row]
        (resume (comparison ["a".toList, "b".toList]).rows (i + 1)) := by
    intro i hi
    have htwo : i = 0 ∨ i = 1 := by omega
    obtain rfl | rfl := htwo
    · refine ⟨compareRow "a".toList, rfl, ?_⟩
      unfold WithinBudget
      decide +kernel
    · refine ⟨compareRow "b".toList, rfl, ?_⟩
      unfold WithinBudget
      decide +kernel
  obtain ⟨row, hget, hfits⟩ := hrow i hi
  exact Or.inr ⟨row, row, hget, Relation.ReflTransGen.refl, hfits⟩

/-- A row of short fields that together exceed the budget is never shown,
though a placeholder has room. -/
theorem visitsOnce_fails_shortFields :
    size (.obj (envelope ((comparison ["a".toList]).around false) [omittedRow]
        (some (Text.decimal 0)) true)) ≤ 400 ∧
      ¬ VisitsOnce (queryPage (comparison ["a".toList]) 1 400) (comparison ["a".toList]).rows 400 := by
  refine ⟨by decide +kernel, ?_⟩
  rintro ⟨replies, hchain, -, -⟩
  have hover : ¬ WithinBudget ((comparison ["a".toList]).around false) 400
      [compareRow "a".toList] none := by
    unfold WithinBudget
    decide +kernel
  have hwhole : shrinkRow (compareRow "a".toList) = none := by rfl
  rcases showable_of_chain (i := 0) (j := 0) (by decide) (by decide) hchain rfl (Nat.le_refl 0)
    (by decide) with hpage | ⟨row, row', hrow, hto, hfits⟩
  · exact hover hpage
  · obtain rfl : compareRow "a".toList = row := Option.some_inj.mp hrow
    obtain rfl | ⟨mid, hmid, -⟩ := hto.cases_head
    · exact hover hfits
    · exact Option.some_ne_none _ (hmid.symm.trans hwhole)

end TraceMcp.Service
