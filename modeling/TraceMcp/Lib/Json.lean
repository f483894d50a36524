import Mathlib.Algebra.Order.BigOperators.Group.List
import Mathlib.Data.String.Basic
import TraceMcp.Lib.Numeral

/-!
# JSON values

Values, their compact text, and the fields of an object: a list in key order
that `set` changes in place or extends. `set` of different keys commutes and of
the same key overwrites, so the fields of an object can be described by any
order of writes.

The size of a text is additive (`size_arr`, `size_obj`), and a write changes it
by the difference of the two entries (`fieldsSize_set`).
-/

namespace TraceMcp.Lib

/-- A JSON value. A number is kept as its text. -/
inductive Json
  | null
  | bool (b : Bool)
  | num (text : List Char)
  | str (s : List Char)
  | arr (items : List Json)
  | obj (fields : List (String × Json))

namespace Json

/-- The fields of an object. -/
abbrev Fields := List (String × Json)

/-! ## Text -/

/-- A character inside quotes. -/
def escape (c : Char) : List Char :=
  if c = '"' then ['\\', '"']
  else if c = '\\' then ['\\', '\\']
  else if c = '\n' then ['\\', 'n']
  else if c = '\r' then ['\\', 'r']
  else if c = '\t' then ['\\', 't']
  else if c.toNat = 8 then ['\\', 'b']
  else if c.toNat = 12 then ['\\', 'f']
  else if c.toNat < 32 then
    ['\\', 'u', '0', '0', Nat.digitChar (c.toNat / 16), Nat.digitChar (c.toNat % 16)]
  else [c]

/-- A string in quotes. -/
def quote (s : List Char) : List Char := '"' :: (s.flatMap escape ++ ['"'])

mutual

/-- The compact text of a value. -/
def text : Json → List Char
  | null => "null".toList
  | bool b => (if b then "true" else "false").toList
  | num t => t
  | str s => quote s
  | arr items => '[' :: (List.intercalate [','] (itemTexts items) ++ [']'])
  | obj fields => '{' :: (List.intercalate [','] (fieldTexts fields) ++ ['}'])

def itemTexts : List Json → List (List Char)
  | [] => []
  | v :: vs => text v :: itemTexts vs

def fieldTexts : List (String × Json) → List (List Char)
  | [] => []
  | (k, v) :: fs => (quote k.toList ++ ':' :: text v) :: fieldTexts fs

end

/-- The length of the text in bytes. -/
def size (v : Json) : Nat := Text.byteLen (text v)

/-! ## Sizes -/

section Size

variable {v : Json} {k : String} {s : List Char}

/-- What an entry takes, with the comma or bracket after it. -/
def entrySize (k : String) (v : Json) : Nat := Text.byteLen (quote k.toList) + size v + 2

/-- What the items take, each with the comma or bracket after it. -/
def itemsSize (items : List Json) : Nat := (items.map fun v => size v + 1).sum

/-- What the fields take, each with the comma or bracket after it. -/
def fieldsSize (m : Fields) : Nat := (m.map fun e => entrySize e.1 e.2).sum

theorem size_true : size (bool true) = 4 := by decide +kernel

theorem size_false : size (bool false) = 5 := by decide +kernel

/-- Each part of a joined text is followed by a comma, the last one by what
closes the text. -/
theorem byteLen_intercalate (ts : List (List Char)) (h : ts ≠ []) :
    Text.byteLen (List.intercalate [','] ts) + 1 = (ts.map fun t => Text.byteLen t + 1).sum := by
  have hcomma : Text.byteLen [','] = 1 := by decide +kernel
  induction ts with
  | nil => exact absurd rfl h
  | cons t ts ih =>
    cases ts with
    | nil =>
      rw [List.intercalate_singleton, List.map_singleton, List.sum_singleton]
    | cons u us =>
      have htail := ih (List.cons_ne_nil u us)
      rw [List.intercalate_cons_cons, Text.byteLen_append, Text.byteLen_append, hcomma,
        List.map_cons, List.sum_cons, ← htail]
      omega

theorem itemTexts_eq_map (items : List Json) : itemTexts items = items.map text := by
  induction items with
  | nil => rfl
  | cons v vs ih => rw [itemTexts, ih, List.map_cons]

theorem fieldTexts_eq_map (m : Fields) :
    fieldTexts m = m.map fun e => quote e.1.toList ++ ':' :: text e.2 := by
  induction m with
  | nil => rfl
  | cons e m ih => rw [fieldTexts, ih, List.map_cons]

theorem size_arr {items : List Json} (h : items ≠ []) :
    size (arr items) = itemsSize items + 1 := by
  have hopen : Text.byteLen ['['] = 1 := by decide +kernel
  have hclose : Text.byteLen [']'] = 1 := by decide +kernel
  have hjoin := byteLen_intercalate (items.map text) (mt List.map_eq_nil_iff.mp h)
  rw [List.map_map] at hjoin
  have hsum : (items.map ((fun t => Text.byteLen t + 1) ∘ text)).sum = itemsSize items := rfl
  unfold size
  rw [text, itemTexts_eq_map, ← List.singleton_append, Text.byteLen_append, Text.byteLen_append,
    hopen, hclose]
  omega

theorem size_obj {m : Fields} (h : m ≠ []) : size (obj m) = fieldsSize m + 1 := by
  have hopen : Text.byteLen ['{'] = 1 := by decide +kernel
  have hclose : Text.byteLen ['}'] = 1 := by decide +kernel
  have hcolon : Text.byteLen [':'] = 1 := by decide +kernel
  have hjoin := byteLen_intercalate (m.map fun e => quote e.1.toList ++ ':' :: text e.2)
    (mt List.map_eq_nil_iff.mp h)
  rw [List.map_map] at hjoin
  have hentry : ((fun t => Text.byteLen t + 1) ∘ fun e : String × Json =>
      quote e.1.toList ++ ':' :: text e.2) = fun e => entrySize e.1 e.2 := by
    funext e
    show Text.byteLen (quote e.1.toList ++ ([':'] ++ text e.2)) + 1 = entrySize e.1 e.2
    rw [Text.byteLen_append, Text.byteLen_append, hcolon]
    unfold entrySize size
    omega
  rw [hentry] at hjoin
  unfold size fieldsSize
  rw [text, fieldTexts_eq_map, ← List.singleton_append, Text.byteLen_append, Text.byteLen_append,
    hopen, hclose]
  omega

/-- A field takes less room than its object. -/
theorem size_lt_of_mem {m : Fields} (h : (k, v) ∈ m) : size v < size (obj m) := by
  have hentry : entrySize k v ≤ fieldsSize m :=
    List.le_sum_of_mem (List.mem_map.mpr ⟨(k, v), h, rfl⟩)
  rw [size_obj (List.ne_nil_of_mem h)]
  unfold entrySize at hentry
  omega

/-- A character that is written as it is, in one byte. -/
def Plain (c : Char) : Prop := escape c = [c] ∧ c.utf8Size = 1

theorem size_str_plain (h : ∀ c ∈ s, Plain c) : size (str s) = s.length + 2 := by
  have hquote : Text.byteLen ['"'] = 1 := by decide +kernel
  have hchars : Text.byteLen (s.flatMap escape) = s.length := by
    induction s with
    | nil => rfl
    | cons c s ih =>
      have hc := h c List.mem_cons_self
      rw [List.flatMap_cons, hc.1, Text.byteLen_append, Text.byteLen_singleton, hc.2,
        ih fun c' hc' => h c' (List.mem_cons_of_mem c hc'), List.length_cons]
      omega
  unfold size
  rw [text, quote, ← List.singleton_append, Text.byteLen_append, Text.byteLen_append, hquote,
    hchars]
  omega

theorem plain_decimal (n : Nat) : ∀ c ∈ Text.decimal n, Plain c := by
  have hdigit : ∀ d < 10, Plain (Nat.digitChar d) := by
    unfold Plain
    decide
  intro c hc
  obtain ⟨d, hd, rfl⟩ := List.mem_map.mp hc
  exact hdigit d (digitList_lt (by decide) d hd)

/-- A smaller number takes no more room. -/
theorem size_decimal_mono {n m : Nat} (h : n ≤ m) :
    size (str (Text.decimal n)) ≤ size (str (Text.decimal m)) := by
  rw [size_str_plain (plain_decimal n), size_str_plain (plain_decimal m)]
  exact Nat.add_le_add_right (Text.decimal_length_mono h) 2

end Size

/-! ## Fields -/

namespace Fields

variable {m : Fields} {k k' : String} {v v' : Json}

/-- The field `k`. -/
def get (k : String) : Fields → Option Json
  | [] => none
  | e :: m => if e.1 = k then some e.2 else get k m

/-- Give field `k` the value `v`; a new field goes where its key belongs. -/
def set (k : String) (v : Json) : Fields → Fields
  | [] => [(k, v)]
  | e :: m =>
    if e.1 = k then (k, v) :: m
    else if k < e.1 ∧ get k m = none then (k, v) :: e :: m
    else e :: set k v m

theorem set_cons_self {e : String × Json} (h : e.1 = k) : set k v (e :: m) = (k, v) :: m := by
  rw [set, if_pos h]

theorem set_cons_new {e : String × Json} (h : e.1 ≠ k) (hlt : k < e.1) (hnone : get k m = none) :
    set k v (e :: m) = (k, v) :: e :: m := by
  rw [set, if_neg h, if_pos ⟨hlt, hnone⟩]

theorem set_cons_later {e : String × Json} (h : e.1 ≠ k) (hl : ¬ (k < e.1 ∧ get k m = none)) :
    set k v (e :: m) = e :: set k v m := by
  rw [set, if_neg h, if_neg hl]

theorem get_cons_self {e : String × Json} (h : e.1 = k) : get k (e :: m) = some e.2 := by
  rw [get, if_pos h]

theorem get_cons_ne {e : String × Json} (h : e.1 ≠ k) : get k (e :: m) = get k m := by
  rw [get, if_neg h]

/-- Where a write goes: onto the field, before the first entry, or further on. -/
theorem set_cases (e : String × Json) (m : Fields) (k : String) :
    e.1 = k ∨ (e.1 ≠ k ∧ k < e.1 ∧ get k m = none) ∨
      (e.1 ≠ k ∧ ¬ (k < e.1 ∧ get k m = none)) := by
  by_cases h : e.1 = k
  · exact Or.inl h
  · by_cases hl : k < e.1 ∧ get k m = none
    · exact Or.inr (Or.inl ⟨h, hl⟩)
    · exact Or.inr (Or.inr ⟨h, hl⟩)

theorem get_set_self (m : Fields) (k : String) (v : Json) : get k (set k v m) = some v := by
  induction m with
  | nil => exact get_cons_self rfl
  | cons e m ih =>
    obtain h | ⟨h, hlt, hnone⟩ | ⟨h, hl⟩ := set_cases e m k
    · rw [set_cons_self h]
      exact get_cons_self rfl
    · rw [set_cons_new h hlt hnone]
      exact get_cons_self rfl
    · rw [set_cons_later h hl, get_cons_ne h, ih]

theorem get_set_ne (m : Fields) (h : k' ≠ k) (v : Json) : get k' (set k v m) = get k' m := by
  induction m with
  | nil => exact get_cons_ne h.symm
  | cons e m ih =>
    obtain he | ⟨he, hlt, hnone⟩ | ⟨he, hl⟩ := set_cases e m k
    · have hk : e.1 ≠ k' := fun heq => h (heq.symm.trans he)
      rw [set_cons_self he, get_cons_ne h.symm, get_cons_ne hk]
    · rw [set_cons_new he hlt hnone, get_cons_ne h.symm]
    · rw [set_cons_later he hl, get, get, ih]

/-- The last value written counts. -/
theorem set_set (m : Fields) (k : String) (v v' : Json) : set k v (set k v' m) = set k v m := by
  induction m with
  | nil => exact set_cons_self rfl
  | cons e m ih =>
    obtain h | ⟨h, hlt, hnone⟩ | ⟨h, hl⟩ := set_cases e m k
    · rw [set_cons_self h, set_cons_self h]
      exact set_cons_self rfl
    · rw [set_cons_new h hlt hnone, set_cons_new h hlt hnone]
      exact set_cons_self rfl
    · have hl' : ¬ (k < e.1 ∧ get k (set k v' m) = none) := by
        rw [get_set_self]
        exact fun hand => Option.some_ne_none _ hand.2
      rw [set_cons_later h hl, set_cons_later h hl', set_cons_later h hl, ih]

/-- A write further on does not decide where the write of another field goes. -/
theorem later_set (h : k ≠ k') {e : String × Json} :
    ¬ (k < e.1 ∧ get k (set k' v' m) = none) ↔ ¬ (k < e.1 ∧ get k m = none) := by
  rw [get_set_ne m h]

theorem set_comm_of_later {e : String × Json} (h : k ≠ k') (he : e.1 ≠ k)
    (hl : ¬ (k < e.1 ∧ get k m = none)) (ih : set k v (set k' v' m) = set k' v' (set k v m)) :
    set k v (set k' v' (e :: m)) = set k' v' (set k v (e :: m)) := by
  rw [set_cons_later he hl]
  obtain he' | ⟨he', hlt', hnone'⟩ | ⟨he', hl'⟩ := set_cases e m k'
  · -- the entry is the field `k'`
    have hl2 : ¬ (k < k' ∧ get k m = none) := he' ▸ hl
    rw [set_cons_self he', set_cons_self he', set_cons_later h.symm hl2]
  · -- `k'` goes before the entry
    have hk : ¬ (k < k' ∧ get k (e :: m) = none) := by
      rw [get_cons_ne he]
      exact fun hand => hl ⟨String.lt_trans hand.1 hlt', hand.2⟩
    have hnone2 : get k' (set k v m) = none := (get_set_ne m h.symm v).trans hnone'
    rw [set_cons_new he' hlt' hnone', set_cons_later h.symm hk, set_cons_later he hl,
      set_cons_new he' hlt' hnone2]
  · rw [set_cons_later he' hl', set_cons_later he ((later_set h).mpr hl), ih,
      set_cons_later he' ((later_set h.symm).mpr hl')]

/-- Writes to different fields commute. -/
theorem set_comm (m : Fields) (h : k ≠ k') (v v' : Json) :
    set k v (set k' v' m) = set k' v' (set k v m) := by
  induction m with
  | nil =>
    have hnone : ∀ x : String, get x ([] : Fields) = none := fun _ => rfl
    show set k v [(k', v')] = set k' v' [(k, v)]
    rcases lt_or_gt_of_ne h with hlt | hlt
    · rw [set_cons_new h.symm hlt (hnone k), set_cons_later h fun hand => hlt.not_gt hand.1]
      rfl
    · rw [set_cons_new h hlt (hnone k'), set_cons_later h.symm fun hand => hlt.not_gt hand.1]
      rfl
  | cons e m ih =>
    obtain he | ⟨he, hlt, hnone⟩ | ⟨he, hl⟩ := set_cases e m k
    · have he' : e.1 ≠ k' := fun heq => h (he.symm.trans heq)
      obtain heq' | ⟨-, hlt', hnone'⟩ | ⟨-, hl'⟩ := set_cases e m k'
      · exact absurd heq' he'
      · have hnew : get k' m = none := hnone'
        have hk : ¬ (k < k' ∧ get k (e :: m) = none) := by
          rw [get_cons_self he]
          exact fun hand => Option.some_ne_none _ hand.2
        rw [set_cons_new he' hlt' hnone', set_cons_later h.symm hk, set_cons_self he,
          set_cons_new h (he ▸ hlt') hnew]
      · exact (set_comm_of_later h.symm he' hl' ih.symm).symm
    · obtain he' | ⟨he', hlt', hnone'⟩ | ⟨he', hl'⟩ := set_cases e m k'
      · have hk : ¬ (k' < k ∧ get k' (e :: m) = none) := by
          rw [get_cons_self he']
          exact fun hand => Option.some_ne_none _ hand.2
        have hlater : set k' v' ((k, v) :: e :: m) = (k, v) :: set k' v' (e :: m) :=
          set_cons_later h hk
        rw [set_cons_new he hlt hnone, hlater, set_cons_self he']
        exact set_cons_new h.symm (he' ▸ hlt) hnone
      · -- both are new and go before the entry, the smaller first
        have hk : get k (e :: m) = none := (get_cons_ne he).trans hnone
        have hk' : get k' (e :: m) = none := (get_cons_ne he').trans hnone'
        rw [set_cons_new he' hlt' hnone', set_cons_new he hlt hnone]
        rcases lt_or_gt_of_ne h with hkk | hkk
        · rw [set_cons_new h.symm hkk hk, set_cons_later h fun hand => hkk.not_gt hand.1,
            set_cons_new he' hlt' hnone']
        · rw [set_cons_later h.symm fun hand => hkk.not_gt hand.1, set_cons_new he hlt hnone,
            set_cons_new h hkk hk']
      · exact (set_comm_of_later h.symm he' hl' ih.symm).symm
    · exact set_comm_of_later h he hl ih

theorem set_ne_nil (m : Fields) (k : String) (v : Json) : set k v m ≠ [] := by
  intro hnil
  have hget := get_set_self m k v
  rw [hnil] at hget
  exact Option.some_ne_none v hget.symm

/-! ### Sizes -/

/-- What the entry of field `k` takes, if there is one. -/
def heldSize (k : String) (m : Fields) : Nat := ((get k m).map (entrySize k)).getD 0

theorem heldSize_set_ne (m : Fields) (h : k' ≠ k) (v : Json) :
    heldSize k' (set k v m) = heldSize k' m := by
  unfold heldSize
  rw [get_set_ne m h]

/-- A write gives back what the field took and takes what it takes now. -/
theorem fieldsSize_set (m : Fields) (k : String) (v : Json) :
    fieldsSize (set k v m) + heldSize k m = fieldsSize m + entrySize k v := by
  have hcons : ∀ (e : String × Json) (m : Fields),
      fieldsSize (e :: m) = entrySize e.1 e.2 + fieldsSize m := by
    intro e m
    unfold fieldsSize
    rw [List.map_cons, List.sum_cons]
  have hentry : ∀ m : Fields, fieldsSize ((k, v) :: m) = entrySize k v + fieldsSize m := hcons (k, v)
  induction m with
  | nil =>
    show fieldsSize [(k, v)] + 0 = fieldsSize [] + entrySize k v
    rw [hentry]
    omega
  | cons e m ih =>
    obtain h | ⟨h, hlt, hnone⟩ | ⟨h, hl⟩ := set_cases e m k
    · have hheld : heldSize k (e :: m) = entrySize e.1 e.2 := by
        unfold heldSize
        rw [get_cons_self h, h]
        rfl
      rw [set_cons_self h, hheld, hentry, hcons]
      omega
    · have hheld : heldSize k (e :: m) = 0 := by
        unfold heldSize
        rw [get_cons_ne h, hnone]
        rfl
      rw [set_cons_new h hlt hnone, hheld, hentry, hcons]
      omega
    · have hheld : heldSize k (e :: m) = heldSize k m := by
        unfold heldSize
        rw [get_cons_ne h]
      rw [set_cons_later h hl, hheld, hcons, hcons]
      omega

end Fields

end Json

end TraceMcp.Lib
