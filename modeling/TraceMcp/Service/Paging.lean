import Mathlib.Data.List.TakeDrop
import Mathlib.Logic.Relation
import TraceMcp.Lib.Json
import TraceMcp.Lib.Word
import TraceMcp.Model.Error

/-!
# Pages of a result

`src/analysis/page.rs`. A page is `limit` rows from an offset, and its cursor
is the offset of the row after it. The page in its envelope is then fitted to
a budget of bytes: rows are dropped from the end, and the last row left has
its largest field halved again and again, until the text is small enough. The
cursor follows what was kept.

`shrinkRow` cuts an array of two or more items or a string of more than 256
bytes, so `weight` goes down with every cut and the fitting ends.
`fitLoop_fitted` says what is left: the most rows that fit, or the first row
cut to fit, or a placeholder whose cursor points at the row it stands for.
-/

namespace TraceMcp.Service

open TraceMcp.Lib
open Json (Fields size)

/-! ## Pages -/

/-- `parse_offset_cursor`. -/
def parseOffsetCursor (cursor : Option (List Char)) : Result Nat :=
  match cursor with
  | none => .ok 0
  | some c =>
    match Text.parseU64 c with
    | some offset => .ok offset
    | none =>
      .error (.invalidArgument ("cursor must be a decimal offset, got " ++ String.ofList c))

/-- `paginate`. -/
def paginate {α : Type} (items : List α) (offset limit : Nat) : List α × Option (List Char) :=
  let page := (items.drop offset).take limit
  let next :=
    if satAdd offset page.length < items.length then
      some (Text.decimal (satAdd offset page.length))
    else none
  (page, next)

/-! ## Cutting a row -/

/-- The field that lists what was cut. -/
def truncatedFields : String := "truncated_fields"

/-- A field inside a row: the positions and names on the way to it. -/
abbrev Path := List (Nat × String)

/-- `size` of `largest`: what a cut would halve, or 0. -/
def cutSize : Json → Nat
  | .arr a => if 1 < a.length then size (.arr a) else 0
  | .str s => if 256 < Text.byteLen s then Text.byteLen s else 0
  | _ => 0

/-- The field with its size, where it is larger than the best so far. -/
def larger (path : Path) (best : Option (Path × Nat)) (n : Nat) : Option (Path × Nat) :=
  if 0 < n ∧ best.all (fun b => b.2 < n) then some (path, n) else best

mutual

/-- `largest`. -/
def largest (path : Path) (best : Option (Path × Nat)) : Json → Option (Path × Nat)
  | .obj fields => largestField path 0 best fields
  | _ => best

def largestField (path : Path) (i : Nat) (best : Option (Path × Nat)) :
    List (String × Json) → Option (Path × Nat)
  | [] => best
  | (k, child) :: fields =>
    if k = truncatedFields then largestField path (i + 1) best fields
    else
      let path' := path ++ [(i, k)]
      let best := larger path' best (cutSize child)
      let best := largest path' best child
      largestField path (i + 1) best fields

end

/-- The first half of an array; the first half of a string, up to a character
boundary, with dots. -/
def cutField : Json → Option Json
  | .arr a => some (.arr (a.take (a.length / 2)))
  | .str s => some (.str (Text.takeBytes (Text.byteLen s / 2) s ++ "...".toList))
  | _ => none

/-- Cut the field at `path`. -/
def cutAt : Path → Json → Option Json
  | [], v => cutField v
  | (i, _) :: path, .obj fields => do
    let (k, child) ← fields[i]?
    let child ← cutAt path child
    return .obj (fields.set i (k, child))
  | _ :: _, _ => none

/-- The field in `truncated_fields`. -/
def noteCut (path : Path) : Json → Json
  | .obj map =>
    let name := List.intercalate ['.'] (path.map fun step => step.2.toList)
    match (Fields.get truncatedFields map).getD (.arr []) with
    | .arr list =>
      let named := list.any fun
        | .str s => s = name
        | _ => false
      .obj (Fields.set truncatedFields (.arr (if named then list else list ++ [.str name])) map)
    | _ => .obj map
  | row => row

/-- `shrink_row`: `none` when nothing shrinkable is left. -/
def shrinkRow (row : Json) : Option Json := do
  let (path, _) ← largest [] none row
  let row ← cutAt path row
  return noteCut path row

/-! ### A cut makes the row lighter -/

mutual

/-- What cuts can take from a value. -/
def weight : Json → Nat
  | .arr items => items.length
  | .str s => Text.byteLen s
  | .obj fields => fieldsWeight fields
  | _ => 0

def fieldsWeight : List (String × Json) → Nat
  | [] => 0
  | (k, v) :: fields => (if k = truncatedFields then 0 else weight v) + fieldsWeight fields

end

/-- `path` leads from a value to one of its fields, past no record of cuts. -/
inductive Leads : Path → Json → Json → Prop
  | here {v : Json} : Leads [] v v
  | field {fields : List (String × Json)} {i : Nat} {k : String} {child w : Json} {path : Path}
      (hget : fields[i]? = some (k, child)) (hk : k ≠ truncatedFields)
      (h : Leads path child w) : Leads ((i, k) :: path) (.obj fields) w

theorem Leads.concat {path : Path} {v child : Json} {fields : List (String × Json)} {i : Nat}
    {k : String} (h : Leads path v (.obj fields)) (hget : fields[i]? = some (k, child))
    (hk : k ≠ truncatedFields) : Leads (path ++ [(i, k)]) v child := by
  generalize hw : Json.obj fields = w at h
  induction h with
  | here =>
    subst hw
    exact .field hget hk .here
  | field hget' hk' _ ih => exact .field hget' hk' (ih hw)

/-- What `largest` has found is a field it may cut. -/
def Found (row : Json) (best : Option (Path × Nat)) : Prop :=
  ∀ b ∈ best, ∃ w, Leads b.1 row w ∧ 0 < cutSize w

theorem Found.larger {row child : Json} {best : Option (Path × Nat)} {path : Path}
    (h : Found row best) (hl : Leads path row child) :
    Found row (larger path best (cutSize child)) := by
  unfold Service.larger
  split
  next hc =>
    intro b hb
    obtain rfl := Option.mem_some.mp hb
    exact ⟨child, hl, hc.1⟩
  next => exact h

mutual

theorem largest_found {row : Json} : ∀ (v : Json) (path : Path) (best : Option (Path × Nat)),
    Leads path row v → Found row best → Found row (largest path best v)
  | .obj fields, path, best, hl, h => by
    rw [largest]
    exact largestField_found fields [] path best hl h
  | .null, path, best, _, h => by rw [largest]; exact h; exact fun _ => Json.noConfusion
  | .bool _, path, best, _, h => by rw [largest]; exact h; exact fun _ => Json.noConfusion
  | .num _, path, best, _, h => by rw [largest]; exact h; exact fun _ => Json.noConfusion
  | .str _, path, best, _, h => by rw [largest]; exact h; exact fun _ => Json.noConfusion
  | .arr _, path, best, _, h => by rw [largest]; exact h; exact fun _ => Json.noConfusion

theorem largestField_found {row : Json} :
    ∀ (fields before : List (String × Json)) (path : Path) (best : Option (Path × Nat)),
    Leads path row (.obj (before ++ fields)) → Found row best →
      Found row (largestField path before.length best fields)
  | [], _, _, _, _, h => by
    rw [largestField]
    exact h
  | (k, child) :: fields, before, path, best, hl, h => by
    have hnext : Leads path row (.obj (before ++ [(k, child)] ++ fields)) := by
      rw [List.append_assoc]
      exact hl
    have hlen : (before ++ [(k, child)]).length = before.length + 1 := List.length_append
    rw [largestField]
    split
    next =>
      have htail := largestField_found fields (before ++ [(k, child)]) path best hnext h
      rwa [hlen] at htail
    next hk =>
      have hget : (before ++ (k, child) :: fields)[before.length]? = some (k, child) := by
        rw [List.getElem?_append_right (Nat.le_refl _), Nat.sub_self]
        rfl
      have hchild := hl.concat hget hk
      have hbest := largest_found child _ _ hchild (h.larger hchild)
      have htail := largestField_found fields (before ++ [(k, child)]) path _ hnext hbest
      rwa [hlen] at htail

end

theorem fieldsWeight_set {fields : List (String × Json)} {i : Nat} {k : String}
    {child : Json} (child' : Json) (hget : fields[i]? = some (k, child)) (hk : k ≠ truncatedFields) :
    fieldsWeight (fields.set i (k, child')) + weight child =
      fieldsWeight fields + weight child' := by
  induction fields generalizing i with
  | nil => exact absurd hget.symm (Option.some_ne_none _)
  | cons e fields ih =>
    cases i with
    | zero =>
      obtain rfl : e = (k, child) := Option.some_inj.mp hget
      rw [List.set_cons_zero, fieldsWeight, fieldsWeight, if_neg hk, if_neg hk]
      omega
    | succ i =>
      have htail := ih (show fields[i]? = some (k, child) from hget)
      rw [List.set_cons_succ, fieldsWeight, fieldsWeight]
      omega

theorem cutField_weight {v v' : Json} (hpos : 0 < cutSize v) (h : cutField v = some v') :
    weight v' < weight v := by
  cases v with
  | arr a =>
    obtain rfl := Option.some_inj.mp h
    have hlen : 1 < a.length := by
      by_contra hle
      rw [cutSize, if_neg hle] at hpos
      exact Nat.lt_irrefl 0 hpos
    rw [weight, weight, List.length_take]
    omega
  | str s =>
    obtain rfl := Option.some_inj.mp h
    have hlen : 256 < Text.byteLen s := by
      by_contra hle
      rw [cutSize, if_neg hle] at hpos
      exact Nat.lt_irrefl 0 hpos
    have hdots : Text.byteLen "...".toList = 3 := by decide +kernel
    have hcut := Text.byteLen_takeBytes (Text.byteLen s / 2) s
    rw [weight, weight, Text.byteLen_append, hdots]
    omega
  | null => exact absurd hpos (Nat.lt_irrefl 0)
  | bool b => exact absurd hpos (Nat.lt_irrefl 0)
  | num t => exact absurd hpos (Nat.lt_irrefl 0)
  | obj m => exact absurd hpos (Nat.lt_irrefl 0)

theorem cutAt_weight {path : Path} {v w v' : Json} (hl : Leads path v w) (hpos : 0 < cutSize w)
    (h : cutAt path v = some v') : weight v' < weight v := by
  induction hl generalizing v' with
  | here => exact cutField_weight hpos h
  | @field fields i k child w path hget hk hl ih =>
    rw [cutAt, hget] at h
    obtain ⟨child', hchild, hv'⟩ :=
      Option.bind_eq_some_iff.mp (show (cutAt path child).bind _ = some v' from h)
    obtain rfl := Option.some_inj.mp hv'
    have hlt := ih hpos hchild
    have hset := fieldsWeight_set child' hget hk
    rw [weight, weight]
    omega

/-- The record of cuts is never cut itself. -/
theorem fieldsWeight_note (map : Fields) (v : Json) :
    fieldsWeight (Fields.set truncatedFields v map) = fieldsWeight map := by
  have hnote : ∀ (v : Json) (m : Fields),
      fieldsWeight ((truncatedFields, v) :: m) = fieldsWeight m := by
    intro v m
    rw [fieldsWeight, if_pos rfl, Nat.zero_add]
  induction map with
  | nil => exact hnote v []
  | cons e map ih =>
    obtain h | ⟨h, hlt, hnone⟩ | ⟨h, hl⟩ := Fields.set_cases e map truncatedFields
    · obtain ⟨k, w⟩ := e
      obtain rfl : k = truncatedFields := h
      have hset : Fields.set truncatedFields v ((truncatedFields, w) :: map) =
          (truncatedFields, v) :: map := Fields.set_cons_self rfl
      rw [hset, hnote, hnote]
    · rw [Fields.set_cons_new h hlt hnone, hnote]
    · rw [Fields.set_cons_later h hl, fieldsWeight, fieldsWeight, ih]

theorem noteCut_weight (path : Path) (row : Json) : weight (noteCut path row) = weight row := by
  cases row with
  | obj map =>
    unfold noteCut
    dsimp only
    split
    · rw [weight, weight, fieldsWeight_note]
    · rfl
  | null => rfl
  | bool b => rfl
  | num t => rfl
  | str s => rfl
  | arr a => rfl

/-- Every cut makes the row lighter. -/
theorem shrinkRow_weight {row row' : Json} (h : shrinkRow row = some row') :
    weight row' < weight row := by
  obtain ⟨b, hb, h⟩ := Option.bind_eq_some_iff.mp h
  obtain ⟨cut, hcut, hrow'⟩ := Option.bind_eq_some_iff.mp h
  obtain rfl := Option.some_inj.mp hrow'
  obtain ⟨w, hl, hpos⟩ := largest_found row [] none .here
    (fun b hb => absurd hb (Option.not_mem_none b)) b hb
  rw [noteCut_weight]
  exact cutAt_weight hl hpos hcut

/-! ## Fitting a page -/

/-- The rows of an envelope: `get("data")` where it is an array. -/
def dataOf (e : Fields) : Option (List Json) :=
  match Fields.get "data" e with
  | some (.arr rows) => some rows
  | _ => none

/-- A cursor in an envelope. -/
def cursorJson : Option (List Char) → Json
  | some c => .str c
  | none => .null

/-- What stands for a row that cannot be shown. -/
def omittedRow : Json :=
  .obj [("omitted", .str "row exceeded MCP result budget; full data remains in the store".toList)]

/-- The rows of a page and what can be cut from them. -/
def pageWeight (e : Fields) : Nat × Nat :=
  (((dataOf e).getD []).length, (((dataOf e).getD []).map weight).sum)

theorem dataOf_set_data (e : Fields) (rows : List Json) :
    dataOf (Fields.set "data" (.arr rows) e) = some rows := by
  unfold dataOf
  rw [Fields.get_set_self]

theorem dataOf_set_ne {k : String} (e : Fields) (hk : "data" ≠ k) (v : Json) :
    dataOf (Fields.set k v e) = dataOf e := by
  unfold dataOf
  rw [Fields.get_set_ne e hk]

/-- The loop of `fit_json`. -/
def fitLoop (budget offset : Nat) (e : Fields) : Fields :=
  if size (.obj e) ≤ budget then e
  else
    match _hdata : dataOf e with
    | some (row :: second :: rows) =>
      let kept := (row :: second :: rows).dropLast
      let e := Fields.set "data" (.arr kept) e
      let next := some (Text.decimal (satAdd offset kept.length))
      fitLoop budget offset (Fields.set "next_cursor" (cursorJson next) e)
    | some [row] =>
      match _hrow : shrinkRow row with
      | some row => fitLoop budget offset (Fields.set "data" (.arr [row]) e)
      | none =>
        let e := Fields.set "data" (.arr [omittedRow]) e
        Fields.set "next_cursor" (cursorJson (some (Text.decimal offset))) e
    | some [] => e
    | none => e
termination_by pageWeight e
decreasing_by
  · refine Prod.Lex.left _ _ ?_
    rw [dataOf_set_ne _ (by decide), dataOf_set_data, _hdata]
    show (row :: second :: rows).dropLast.length < (row :: second :: rows).length
    rw [List.length_dropLast]
    exact Nat.sub_lt (Nat.succ_pos _) Nat.one_pos
  · unfold pageWeight
    rw [dataOf_set_data, _hdata]
    exact Prod.Lex.right _ (Nat.add_lt_add_right (shrinkRow_weight _hrow) 0)

section Steps

variable {budget offset : Nat} {e : Fields} {row row' second : Json} {rows : List Json}

theorem fitLoop_fits (h : size (.obj e) ≤ budget) : fitLoop budget offset e = e := by
  rw [fitLoop, if_pos h]

theorem fitLoop_pop (offset : Nat) (h : ¬ size (.obj e) ≤ budget)
    (hdata : dataOf e = some (row :: second :: rows)) :
    fitLoop budget offset e = fitLoop budget offset (Fields.set "next_cursor"
      (cursorJson (some (Text.decimal (satAdd offset (row :: second :: rows).dropLast.length))))
      (Fields.set "data" (.arr (row :: second :: rows).dropLast) e)) := by
  conv_lhs => rw [fitLoop, if_neg h]
  split
  next _ _ _ heq =>
    obtain ⟨rfl, rfl, rfl⟩ := by simpa using hdata.symm.trans heq
    rfl
  next _ heq => simp [hdata] at heq
  next heq => simp [hdata] at heq
  next heq => simp [hdata] at heq

theorem fitLoop_shrink (h : ¬ size (.obj e) ≤ budget) (hdata : dataOf e = some [row])
    (hrow : shrinkRow row = some row') :
    fitLoop budget offset e = fitLoop budget offset (Fields.set "data" (.arr [row']) e) := by
  conv_lhs => rw [fitLoop, if_neg h]
  split
  next _ _ _ heq => simp [hdata] at heq
  next _ heq =>
    obtain rfl := by simpa using hdata.symm.trans heq
    split
    next _ hrow' => rw [Option.some_inj.mp (hrow'.symm.trans hrow)]
    next hrow' => simp [hrow] at hrow'
  next heq => simp [hdata] at heq
  next heq => simp [hdata] at heq

theorem fitLoop_omit (h : ¬ size (.obj e) ≤ budget) (hdata : dataOf e = some [row])
    (hrow : shrinkRow row = none) :
    fitLoop budget offset e = Fields.set "next_cursor" (cursorJson (some (Text.decimal offset)))
      (Fields.set "data" (.arr [omittedRow]) e) := by
  conv_lhs => rw [fitLoop, if_neg h]
  split
  next _ _ _ heq => simp [hdata] at heq
  next _ heq =>
    obtain rfl := by simpa using hdata.symm.trans heq
    split
    next _ hrow' => simp [hrow] at hrow'
    next => rfl
  next heq => simp [hdata] at heq
  next heq => simp [hdata] at heq

end Steps

/-- `fit_json` of an envelope that is an object. -/
def fitJson (budget offset : Nat) (e : Fields) : Fields :=
  if size (.obj e) ≤ budget then e
  else fitLoop budget offset (Fields.set "truncated" (.bool true) e)

/-! ## What is left of a page -/

/-- An envelope: its page, the cursor and the mark, and other fields. -/
def envelope (other : Fields) (data : List Json) (next : Option (List Char))
    (truncated : Bool) : Fields :=
  Fields.set "truncated" (.bool truncated)
    (Fields.set "next_cursor" (cursorJson next) (Fields.set "data" (.arr data) other))

/-- `get("next_cursor")` where it is a string. -/
def nextCursor (e : Fields) : Option (List Char) :=
  match Fields.get "next_cursor" e with
  | some (.str c) => some c
  | _ => none

/-- The row may be cut to `row'`. -/
def ShrinksTo : Json → Json → Prop := Relation.ReflTransGen fun row row' => shrinkRow row = some row'

section Envelope

variable {other : Fields} {data data' : List Json} {next next' : Option (List Char)}
  {truncated truncated' : Bool} {budget offset : Nat}

theorem dataOf_envelope : dataOf (envelope other data next truncated) = some data := by
  unfold envelope
  rw [dataOf_set_ne _ (by decide), dataOf_set_ne _ (by decide), dataOf_set_data]

theorem nextCursor_set_next (e : Fields) :
    nextCursor (Fields.set "next_cursor" (cursorJson next) e) = next := by
  unfold nextCursor
  rw [Fields.get_set_self]
  cases next <;> rfl

theorem nextCursor_envelope : nextCursor (envelope other data next truncated) = next := by
  unfold envelope nextCursor
  rw [Fields.get_set_ne _ (by decide)]
  exact nextCursor_set_next _

theorem set_data_envelope : Fields.set "data" (.arr data') (envelope other data next truncated) =
    envelope other data' next truncated := by
  unfold envelope
  rw [Fields.set_comm _ (show "data" ≠ "truncated" by decide),
    Fields.set_comm _ (show "data" ≠ "next_cursor" by decide), Fields.set_set]

theorem set_next_envelope :
    Fields.set "next_cursor" (cursorJson next') (envelope other data next truncated) =
      envelope other data next' truncated := by
  unfold envelope
  rw [Fields.set_comm _ (show "next_cursor" ≠ "truncated" by decide), Fields.set_set]

theorem set_truncated_envelope :
    Fields.set "truncated" (.bool truncated') (envelope other data next truncated) =
      envelope other data next truncated' := by
  unfold envelope
  rw [Fields.set_set]

/-- The size of an envelope follows the sizes of what it holds. -/
theorem size_envelope_le
    (h : size (.arr data) + size (cursorJson next) + size (.bool truncated) ≤
      size (.arr data') + size (cursorJson next') + size (.bool truncated')) :
    size (.obj (envelope other data next truncated)) ≤
      size (.obj (envelope other data' next' truncated')) := by
  -- each write costs its entry less what the field took in `other`
  have hsize : ∀ (data : List Json) (next : Option (List Char)) (truncated : Bool),
      size (.obj (envelope other data next truncated)) +
          (Fields.heldSize "data" other + Fields.heldSize "next_cursor" other +
            Fields.heldSize "truncated" other) =
        Json.fieldsSize other + 1 + (Json.entrySize "data" (.arr data) +
          Json.entrySize "next_cursor" (cursorJson next) +
          Json.entrySize "truncated" (.bool truncated)) := by
    intro data next truncated
    have hdata := Fields.fieldsSize_set other "data" (.arr data)
    have hnext := Fields.fieldsSize_set (Fields.set "data" (.arr data) other) "next_cursor"
      (cursorJson next)
    have htruncated := Fields.fieldsSize_set
      (Fields.set "next_cursor" (cursorJson next) (Fields.set "data" (.arr data) other))
      "truncated" (.bool truncated)
    rw [Fields.heldSize_set_ne _ (by decide)] at hnext
    rw [Fields.heldSize_set_ne _ (by decide), Fields.heldSize_set_ne _ (by decide)] at htruncated
    unfold envelope
    rw [Json.size_obj (Fields.set_ne_nil _ _ _)]
    omega
  have hleft := hsize data next truncated
  have hright := hsize data' next' truncated'
  unfold Json.entrySize at hleft hright
  omega

/-! ### The loop on an envelope -/

/-- The text of the envelope, marked as truncated, is within the budget. -/
def WithinBudget (other : Fields) (budget : Nat) (data : List Json) (next : Option (List Char)) : Prop :=
  size (.obj (envelope other data next true)) ≤ budget

/-- The cursor once `k` rows of the page are kept. -/
def cursorAfter (data : List Json) (next : Option (List Char)) (offset k : Nat) :
    Option (List Char) :=
  if k = data.length then next else some (Text.decimal (offset + k))

/-- What the loop leaves of a page: the most rows that fit, where the first
row alone may be cut, or a placeholder with a cursor to that row. -/
inductive Fitted (other : Fields) (budget offset : Nat) (data : List Json)
    (next : Option (List Char)) : Fields → Prop
  | kept (k : Nat) (shown : List Json) (hpos : 1 ≤ k) (hle : k ≤ data.length)
      (hshown : List.Forall₂ ShrinksTo (data.take k) shown)
      (hwhole : 2 ≤ k → shown = data.take k)
      (hfits : WithinBudget other budget shown (cursorAfter data next offset k))
      (hmost : ∀ k', k < k' → k' ≤ data.length →
        ¬ WithinBudget other budget (data.take k') (cursorAfter data next offset k')) :
      Fitted other budget offset data next
        (envelope other shown (cursorAfter data next offset k) true)
  | omitted (row : Json) (hrow : data[0]? = some row)
      (hstuck : ∀ row', ShrinksTo row row' →
        ¬ WithinBudget other budget [row'] (cursorAfter data next offset 1))
      (hmost : ∀ k', 1 < k' → k' ≤ data.length →
        ¬ WithinBudget other budget (data.take k') (cursorAfter data next offset k')) :
      Fitted other budget offset data next
        (envelope other [omittedRow] (some (Text.decimal offset)) true)

theorem cursorAfter_length : cursorAfter data next offset data.length = next := if_pos rfl

theorem cursorAfter_lt {k : Nat} (h : k < data.length) :
    cursorAfter data next offset k = some (Text.decimal (offset + k)) :=
  if_neg (Nat.ne_of_lt h)

theorem shrinksTo_refl_all (data : List Json) : List.Forall₂ ShrinksTo data data :=
  List.forall₂_same.mpr fun _ _ => Relation.ReflTransGen.refl

/-- A page that fits is left as it is. -/
theorem fitted_whole (hne : data ≠ []) (h : WithinBudget other budget data next) :
    Fitted other budget offset data next (envelope other data next true) := by
  have hlen : 1 ≤ data.length := List.length_pos_of_ne_nil hne
  have hkept : Fitted other budget offset data next
      (envelope other data (cursorAfter data next offset data.length) true) := .kept
    data.length data hlen (Nat.le_refl _) (by rw [List.take_length]; exact shrinksTo_refl_all data)
    (fun _ => List.take_length.symm) (by rwa [cursorAfter_length])
    (fun k' hlt hle => absurd hlt (Nat.not_lt.mpr hle))
  rwa [cursorAfter_length] at hkept

/-- One row, cut until it fits. -/
theorem fitLoop_single (row : Json) :
    Fitted other budget offset [row] next
      (fitLoop budget offset (envelope other [row] next true)) := by
  induction hw : weight row using Nat.strong_induction_on generalizing row with
  | _ w ih =>
  by_cases hfits : WithinBudget other budget [row] next
  · rw [fitLoop_fits hfits]
    exact fitted_whole (List.cons_ne_nil _ _) hfits
  · cases hrow : shrinkRow row with
    | none =>
      rw [fitLoop_omit hfits dataOf_envelope hrow, set_data_envelope, set_next_envelope]
      refine Fitted.omitted row rfl ?_ (fun k' hlt hle => absurd hlt (Nat.not_lt.mpr hle))
      intro row' hto
      obtain rfl | ⟨mid, hmid, -⟩ := hto.cases_head
      · exact hfits
      · exact absurd (hmid.symm.trans hrow) (Option.some_ne_none _)
    | some cut =>
      have hcut := ih (weight cut) (hw ▸ shrinkRow_weight hrow) cut rfl
      rw [fitLoop_shrink hfits dataOf_envelope hrow, set_data_envelope]
      generalize fitLoop budget offset (envelope other [cut] next true) = out at hcut
      cases hcut with
      | kept k shown hpos hle hshown hwhole hfits' hmost =>
        obtain rfl : k = 1 := Nat.le_antisymm hle hpos
        obtain ⟨last, rfl, hlast⟩ : ∃ last, shown = [last] ∧ ShrinksTo cut last := by
          obtain ⟨last, rest, hlast, hrest, rfl⟩ := List.forall₂_cons_left_iff.mp hshown
          obtain rfl := List.forall₂_nil_left_iff.mp hrest
          exact ⟨last, rfl, hlast⟩
        refine Fitted.kept 1 [last] hpos hle ?_ (fun h => by omega) hfits'
          (fun k' hlt hle => absurd hlt (Nat.not_lt.mpr hle))
        exact List.Forall₂.cons (hlast.head hrow) List.Forall₂.nil
      | omitted row2 hrow2 hstuck hmost =>
        obtain rfl : cut = row2 := Option.some_inj.mp hrow2
        refine Fitted.omitted row rfl ?_ (fun k' hlt hle => absurd hlt (Nat.not_lt.mpr hle))
        intro row' hto
        obtain rfl | ⟨mid, hmid, hto⟩ := hto.cases_head
        · exact hfits
        · obtain rfl := Option.some_inj.mp (hmid.symm.trans hrow)
          exact hstuck row' hto

theorem satAdd_eq {a b : Nat} (h : a + b < wordSize) : satAdd a b = a + b := by
  unfold satAdd
  omega

/-- What is left of the page without its last row is what is left of the page,
where the whole page does not fit. -/
theorem Fitted.concat {last : Json} {out : Fields} (hne : data ≠ [])
    (hover : ¬ WithinBudget other budget (data ++ [last]) next)
    (h : Fitted other budget offset data (some (Text.decimal (offset + data.length))) out) :
    Fitted other budget offset (data ++ [last]) next out := by
  have hlen : (data ++ [last]).length = data.length + 1 := List.length_append
  have htake : ∀ k, k ≤ data.length → (data ++ [last]).take k = data.take k :=
    fun k hk => List.take_append_of_le_length hk
  have hafter : ∀ k, k ≤ data.length → cursorAfter (data ++ [last]) next offset k =
      cursorAfter data (some (Text.decimal (offset + data.length))) offset k := by
    intro k hk
    rw [cursorAfter_lt (by omega)]
    rcases Nat.lt_or_eq_of_le hk with hlt | rfl
    · rw [cursorAfter_lt hlt]
    · rw [cursorAfter_length]
  have hall : ∀ k, (∀ k', k < k' → k' ≤ data.length → ¬ WithinBudget other budget (data.take k')
        (cursorAfter data (some (Text.decimal (offset + data.length))) offset k')) →
      ∀ k', k < k' → k' ≤ (data ++ [last]).length →
        ¬ WithinBudget other budget ((data ++ [last]).take k') (cursorAfter (data ++ [last]) next offset k') := by
    intro k hmost k' hlt hle
    rcases Nat.lt_or_eq_of_le hle with hlt' | rfl
    · rw [htake k' (by omega), hafter k' (by omega)]
      exact hmost k' hlt (by omega)
    · rwa [List.take_length, cursorAfter_length]
  cases h with
  | kept k shown hpos hle hshown hwhole hfits hmost =>
    have hkept : Fitted other budget offset (data ++ [last]) next
        (envelope other shown (cursorAfter (data ++ [last]) next offset k) true) :=
      .kept k shown hpos (by rw [List.length_append]; omega)
      (by rwa [htake k hle]) (by rwa [htake k hle]) (by rwa [hafter k hle]) (hall k hmost)
    rwa [hafter k hle] at hkept
  | omitted row hrow hstuck hmost =>
    have hpos : 1 ≤ data.length := List.length_pos_of_ne_nil hne
    refine Fitted.omitted row ?_ ?_ (hall 1 hmost)
    · rwa [List.getElem?_append_left (by omega)]
    · rwa [hafter 1 hpos]

/-- The loop on a page with rows. -/
theorem fitLoop_fitted (hne : data ≠ []) (hword : offset + data.length < wordSize) :
    Fitted other budget offset data next
      (fitLoop budget offset (envelope other data next true)) := by
  induction data using List.reverseRecOn generalizing next with
  | nil => exact absurd rfl hne
  | append_singleton data last ih =>
    rw [List.length_append, List.length_singleton] at hword
    cases data with
    | nil => exact fitLoop_single last
    | cons row rows =>
      by_cases hfits : WithinBudget other budget (row :: rows ++ [last]) next
      · rw [fitLoop_fits hfits]
        exact fitted_whole (List.append_ne_nil_of_right_ne_nil _ (List.cons_ne_nil _ _)) hfits
      · have hpage : ∃ second rest, row :: rows ++ [last] = row :: second :: rest := by
          cases rows with
          | nil => exact ⟨last, [], rfl⟩
          | cons second rows => exact ⟨second, rows ++ [last], rfl⟩
        obtain ⟨second, rest, hpage⟩ := hpage
        have hpop := fitLoop_pop offset hfits (dataOf_envelope.trans (congrArg some hpage))
        rw [← hpage, List.dropLast_concat, set_data_envelope, set_next_envelope,
          satAdd_eq (by omega)] at hpop
        rw [hpop]
        exact (ih (List.cons_ne_nil _ _) (by omega)).concat (List.cons_ne_nil _ _) hfits

end Envelope

end TraceMcp.Service
