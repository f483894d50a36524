import Mathlib.Algebra.GroupWithZero.Nat
import Mathlib.Data.List.AList

/-!
# Finite maps

`FastMap κ ν` is Mathlib's `AList` at a constant value type: an association
list that carries the proof that its keys are distinct. This file adds what
a state machine over such maps asks for again and again: lookups after a
write as one `if` (`get_insert`, `get_erase`, `get_retain`), counting the
values with a property (`count`), how one write moves that count
(`count_insert_of_get`, `count_insert_of_none`), and adding up a field of
the values (`total`, `total_insert_of_none`, `total_insert_of_get`).
-/

namespace TraceMcp.Lib

variable {κ ν : Type} [DecidableEq κ]

/-- A finite map with distinct keys. -/
abbrev FastMap (κ ν : Type) := AList (fun _ : κ => ν)

namespace FastMap

/-- The value stored under `k`. -/
def get (m : FastMap κ ν) (k : κ) : Option ν := AList.lookup k m

theorem get_eq_some_iff {m : FastMap κ ν} {k : κ} {v : ν} :
    get m k = some v ↔ ⟨k, v⟩ ∈ m.entries :=
  AList.mem_lookup_iff

/-- Reading after an `insert`. -/
theorem get_insert (m : FastMap κ ν) (k k' : κ) (v : ν) :
    get (m.insert k v) k' = if k' = k then some v else get m k' := by
  by_cases h : k' = k
  · subst h
    rw [if_pos rfl]
    exact AList.lookup_insert m
  · rw [if_neg h]
    exact AList.lookup_insert_ne h

@[simp] theorem get_insert_self (m : FastMap κ ν) (k : κ) (v : ν) :
    get (m.insert k v) k = some v :=
  AList.lookup_insert m

/-- Reading after an `erase`. -/
theorem get_erase (m : FastMap κ ν) (k k' : κ) :
    get (m.erase k) k' = if k' = k then none else get m k' := by
  by_cases h : k' = k
  · subst h
    rw [if_pos rfl]
    exact AList.lookup_erase k' m
  · rw [if_neg h]
    exact AList.lookup_erase_ne h

@[simp] theorem get_empty (k : κ) : get (∅ : FastMap κ ν) k = none :=
  AList.lookup_empty k

/-- Change the value under `k`, if there is one (`HashMap::get_mut`). -/
def modify (m : FastMap κ ν) (k : κ) (f : ν → ν) : FastMap κ ν :=
  match get m k with
  | some v => m.insert k (f v)
  | none => m

theorem modify_of_get {m : FastMap κ ν} {k : κ} {v : ν} (h : get m k = some v) (f : ν → ν) :
    modify m k f = m.insert k (f v) := by
  rw [modify, h]

theorem modify_of_none {m : FastMap κ ν} {k : κ} (h : get m k = none) (f : ν → ν) :
    modify m k f = m := by
  rw [modify, h]

/-- Reading after a `modify`. -/
theorem get_modify (m : FastMap κ ν) (k k' : κ) (f : ν → ν) :
    get (modify m k f) k' = if k' = k then (get m k).map f else get m k' := by
  unfold modify
  split
  next v hv => rw [get_insert, hv, Option.map_some]
  next hnone =>
    split
    next heq => rw [heq, hnone, Option.map_none]
    next => rfl

/-- Keep the entries that satisfy `p` (`HashMap::retain`). -/
def retain (p : κ → ν → Bool) (m : FastMap κ ν) : FastMap κ ν :=
  ⟨m.entries.filter fun e => p e.1 e.2, m.nodupKeys.sublist List.filter_sublist⟩

/-- An entry survives a `retain` when the predicate holds of it. -/
theorem get_retain (p : κ → ν → Bool) (m : FastMap κ ν) (k : κ) :
    get (retain p m) k = (get m k).filter (p k) := by
  apply Option.ext
  intro v
  rw [Option.filter_eq_some_iff, get_eq_some_iff, get_eq_some_iff]
  exact List.mem_filter

/-- The stored values. -/
def values (m : FastMap κ ν) : List ν := m.entries.map (·.2)

theorem mem_values {m : FastMap κ ν} {v : ν} :
    v ∈ values m ↔ ∃ k, get m k = some v := by
  simp only [values, List.mem_map]
  constructor
  · rintro ⟨⟨k, w⟩, hmem, rfl⟩
    exact ⟨k, get_eq_some_iff.mpr hmem⟩
  · rintro ⟨k, hk⟩
    exact ⟨⟨k, v⟩, get_eq_some_iff.mp hk, rfl⟩

/-! ## Sums over the values -/

/-- The sum of `f` over the stored values. -/
def total (f : ν → Nat) (m : FastMap κ ν) : Nat := (m.values.map f).sum

omit [DecidableEq κ] in
@[simp] theorem total_empty (f : ν → Nat) : total f (∅ : FastMap κ ν) = 0 := rfl

theorem entries_insert (m : FastMap κ ν) (k : κ) (v : ν) :
    (m.insert k v).entries = ⟨k, v⟩ :: (m.erase k).entries := rfl

theorem total_insert (f : ν → Nat) (m : FastMap κ ν) (k : κ) (v : ν) :
    total f (m.insert k v) = f v + total f (m.erase k) := by
  rw [total, values, entries_insert]
  rfl

/-- Erasing an absent key changes nothing. -/
theorem erase_of_none {m : FastMap κ ν} {k : κ} (h : get m k = none) : m.erase k = m :=
  AList.ext (List.kerase_of_notMem_keys (AList.lookup_eq_none.mp h))

/-- Erasing a present key takes exactly its value out of the sum. -/
theorem total_erase (f : ν → Nat) {m : FastMap κ ν} {k : κ} {v : ν}
    (h : get m k = some v) : total f m = f v + total f (m.erase k) := by
  have hmem : k ∈ m.entries.keys := List.mem_keys_of_mem (get_eq_some_iff.mp h)
  obtain ⟨w, l₁, l₂, -, hl, hk⟩ := List.exists_of_kerase hmem
  have hw : get m k = some w := by
    rw [get_eq_some_iff, hl]
    exact List.mem_append_right _ List.mem_cons_self
  have hvw : v = w := Option.some.inj (h.symm.trans hw)
  have herase : (m.erase k).entries = l₁ ++ l₂ := hk
  simp only [total, values, hl, herase, hvw, List.map_append, List.map_cons,
    List.sum_append, List.sum_cons]
  omega

/-- A fresh key adds its value to the sum. -/
theorem total_insert_of_none (f : ν → Nat) {m : FastMap κ ν} {k : κ} (v : ν)
    (h : get m k = none) : total f (m.insert k v) = f v + total f m := by
  rw [total_insert, erase_of_none h]

/-- Overwriting a key exchanges the old value for the new one. -/
theorem total_insert_of_get (f : ν → Nat) {m : FastMap κ ν} {k : κ} {old : ν} (v : ν)
    (h : get m k = some old) : total f (m.insert k v) + f old = f v + total f m := by
  rw [total_insert, total_erase f h]
  omega

/-! ## Counting the values -/

/-- How many stored values satisfy `p`. -/
def count (p : ν → Bool) (m : FastMap κ ν) : Nat := total (fun v => (p v).toNat) m

theorem count_insert_of_none (p : ν → Bool) {m : FastMap κ ν} {k : κ} (v : ν)
    (h : get m k = none) : count p (m.insert k v) = (p v).toNat + count p m :=
  total_insert_of_none _ v h

theorem count_insert_of_get (p : ν → Bool) {m : FastMap κ ν} {k : κ} {old : ν} (v : ν)
    (h : get m k = some old) :
    count p (m.insert k v) + (p old).toNat = (p v).toNat + count p m :=
  total_insert_of_get _ v h

theorem count_insert_le (p : ν → Bool) (m : FastMap κ ν) (k : κ) (v : ν) :
    count p (m.insert k v) ≤ (p v).toNat + count p m := by
  cases h : get m k with
  | none => exact Nat.le_of_eq (count_insert_of_none p v h)
  | some old =>
    have := count_insert_of_get p v h
    omega

/-- Overwriting a value without touching the counted property moves nothing. -/
theorem count_insert_same (p : ν → Bool) {m : FastMap κ ν} {k : κ} {old : ν} (v : ν)
    (h : get m k = some old) (hp : p v = p old) : count p (m.insert k v) = count p m := by
  have := count_insert_of_get p v h
  rw [hp] at this
  omega

/-- So does changing it in place. -/
theorem count_modify_same (p : ν → Bool) (m : FastMap κ ν) (k : κ) (f : ν → ν)
    (hp : ∀ v, get m k = some v → p (f v) = p v) : count p (modify m k f) = count p m := by
  unfold modify
  split
  next v hv => exact count_insert_same p (f v) hv (hp v hv)
  next => rfl

/-- A stored value with the property makes the count positive. -/
theorem count_pos {p : ν → Bool} {m : FastMap κ ν} {k : κ} {v : ν}
    (h : get m k = some v) (hp : p v = true) : 0 < count p m := by
  have hsplit := total_erase (fun w => (p w).toNat) h
  simp only [hp, Bool.toNat_true] at hsplit
  unfold count
  omega

end FastMap

end TraceMcp.Lib
