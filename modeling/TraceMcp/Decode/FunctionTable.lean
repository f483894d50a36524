import TraceMcp.Decode.Images
import Mathlib.Data.List.TakeWhile

/-!
# Function tables

`function_ranges` of `src/decode/images.rs`: the symbols of an ELF file, with a
range each, in the order of their starts. `lookup_function` finds the last range
that starts at or below an address and looks no further, so a range that goes on
behind one that starts later is not found there. `lookup_complete_iff` says for
which tables no address is lost that way.

The file is parsed by a library, and names are demangled by one; a `Symbol` is
what the code asks of a parsed symbol.
-/

namespace TraceMcp.Decode

open TraceMcp.Lib

/-- A symbol of an ELF file. -/
structure Symbol where
  isDefinition : Bool
  /-- The name, if it can be read. -/
  name : Option String
  address : UInt64
  size : UInt64

/-- A range that a symbol of the file can have. -/
def FuncRange.Valid (f : FuncRange) : Prop := f.start ≤ f.stop

/-- The range contains the address. -/
def FuncRange.Covers (f : FuncRange) (addr : Nat) : Prop := f.start ≤ addr ∧ addr < f.stop

/-- The range of a symbol, if it is one of a function to be named. -/
def Symbol.range (demangle : String → String) (sym : Symbol) : Option FuncRange :=
  if !sym.isDefinition then none
  else
    match sym.name with
    | none => none
    | some name =>
      let addr := sym.address.toNat
      let size := max sym.size.toNat 1
      if name = "" ∨ name.toList.head? = some '$' then none
      else if addr = 0 then none
      else some ⟨name, demangle name, addr, satAdd addr size⟩

/-- The order of the table. -/
def startLe (f g : FuncRange) : Bool := f.start ≤ g.start

/-- `function_ranges`, over the symbols and the dynamic symbols of the file. -/
def functionRanges (demangle : String → String) (symbols dynamic : List Symbol) : List FuncRange :=
  ((symbols ++ dynamic).filterMap (Symbol.range demangle)).mergeSort startLe

/-! ## The table -/

/-- What `lookup_function` relies on, and what its ranges are. -/
structure Table (ranges : List FuncRange) : Prop where
  sorted : ranges.Pairwise fun f g => f.start ≤ g.start
  valid : ∀ f ∈ ranges, f.Valid

theorem Symbol.range_valid {demangle : String → String} {sym : Symbol} {f : FuncRange}
    (h : sym.range demangle = some f) : f.Valid := by
  unfold Symbol.range at h
  dsimp only at h
  split at h
  · cases h
  · split at h
    · cases h
    · split at h
      · cases h
      · split at h
        · cases h
        · obtain rfl := Option.some.inj h
          have hlt : sym.address.toNat < 2 ^ 64 := sym.address.toNat_lt
          show sym.address.toNat ≤ min (sym.address.toNat + max sym.size.toNat 1) (wordSize - 1)
          unfold wordSize
          omega

theorem startLe_trans (f g h : FuncRange) (hfg : startLe f g = true) (hgh : startLe g h = true) :
    startLe f h = true :=
  decide_eq_true ((of_decide_eq_true hfg).trans (of_decide_eq_true hgh))

theorem startLe_total (f g : FuncRange) : (startLe f g || startLe g f) = true := by
  rw [startLe, startLe, Bool.or_eq_true, decide_eq_true_iff, decide_eq_true_iff]
  exact le_total _ _

theorem functionRanges_table (demangle : String → String) (symbols dynamic : List Symbol) :
    Table (functionRanges demangle symbols dynamic) := by
  constructor
  · have hsorted := List.pairwise_mergeSort startLe_trans startLe_total
      ((symbols ++ dynamic).filterMap (Symbol.range demangle))
    exact hsorted.imp of_decide_eq_true
  · intro f hf
    obtain ⟨sym, -, hsym⟩ := List.mem_filterMap.mp (List.mem_mergeSort.mp hf)
    exact Symbol.range_valid hsym

/-! ## Looking up -/

section Lookup

variable {ranges : List FuncRange} {addr : Nat}

/-- The lookup at an address behind the starts of `before` and `g`, and in front
of the next one. -/
theorem lookupFunction_split {before after : List FuncRange} {g : FuncRange}
    (hbefore : ∀ f ∈ before ++ [g], f.start ≤ addr)
    (hafter : ∀ h, after.head? = some h → addr < h.start) :
    lookupFunction (before ++ g :: after) addr = if addr < g.stop then some g else none := by
  have hstart : g.start ≤ addr := hbefore g (List.mem_append_right _ (List.mem_singleton_self g))
  have hrest : after.takeWhile (fun f => decide (f.start ≤ addr)) = [] := by
    cases after with
    | nil => rfl
    | cons h after =>
      have hlt : ¬ h.start ≤ addr := not_le.mpr (hafter h rfl)
      rw [List.takeWhile_cons, decide_eq_false hlt]
      rfl
  have htake : (before ++ g :: after).takeWhile (fun f => decide (f.start ≤ addr)) =
      before ++ [g] := by
    rw [show before ++ g :: after = (before ++ [g]) ++ after by rw [List.append_assoc]; rfl,
      List.takeWhile_append_of_pos fun f hf => decide_eq_true (hbefore f hf), hrest,
      List.append_nil]
  have hpoint : partitionPoint (fun f : FuncRange => decide (f.start ≤ addr))
      (before ++ g :: after) = before.length + 1 := by
    rw [partitionPoint, htake, List.length_append, List.length_singleton]
  unfold lookupFunction
  rw [hpoint]
  show ((before ++ g :: after)[before.length]?).filter _ = _
  rw [List.getElem?_append_right (Nat.le_refl _), Nat.sub_self, List.getElem?_cons_zero,
    Option.filter_some, decide_eq_true hstart, Bool.true_and]
  split
  next h => rw [if_pos (of_decide_eq_true h)]
  next h => rw [if_neg fun hlt => h (decide_eq_true hlt)]

/-- Where a sorted table is parted at an address, and what is found there. -/
theorem lookupFunction_spec (addr : Nat)
    (hsorted : ranges.Pairwise fun f g => f.start ≤ g.start) :
    ((∀ f ∈ ranges, addr < f.start) ∧ lookupFunction ranges addr = none) ∨
    ∃ before g after, ranges = before ++ g :: after ∧ (∀ f ∈ before ++ [g], f.start ≤ addr) ∧
      (∀ h ∈ after, addr < h.start) ∧
      lookupFunction ranges addr = if addr < g.stop then some g else none := by
  have hsplit : ranges.takeWhile (fun f => decide (f.start ≤ addr)) ++
      ranges.dropWhile (fun f => decide (f.start ≤ addr)) = ranges :=
    List.takeWhile_append_dropWhile
  have hbefore : ∀ f ∈ ranges.takeWhile (fun f => decide (f.start ≤ addr)), f.start ≤ addr := by
    intro f hf
    have hp := List.mem_takeWhile_imp hf
    exact of_decide_eq_true hp
  have hpoint : partitionPoint (fun f : FuncRange => decide (f.start ≤ addr)) ranges =
      (ranges.takeWhile fun f => decide (f.start ≤ addr)).length := rfl
  have hafter : ∀ h ∈ ranges.dropWhile (fun f => decide (f.start ≤ addr)), addr < h.start := by
    -- the first of them starts later, and so do those behind it
    have hdrop : (ranges.dropWhile fun f => decide (f.start ≤ addr)).Pairwise
        fun f g => f.start ≤ g.start := hsorted.sublist (List.dropWhile_sublist _)
    have hfirst := List.head?_dropWhile_not (fun f : FuncRange => decide (f.start ≤ addr)) ranges
    cases hrest : ranges.dropWhile (fun f => decide (f.start ≤ addr)) with
    | nil => exact fun h hh => absurd hh List.not_mem_nil
    | cons f after =>
      rw [hrest] at hdrop hfirst
      have hf : addr < f.start := not_le.mp (of_decide_eq_false hfirst)
      intro h hh
      rcases List.mem_cons.mp hh with rfl | hh
      · exact hf
      · exact hf.trans_le (List.rel_of_pairwise_cons hdrop hh)
  rcases List.eq_nil_or_concat (ranges.takeWhile fun f => decide (f.start ≤ addr)) with
    hnil | ⟨before, g, hconcat⟩
  · rw [hnil, List.nil_append] at hsplit
    rw [hsplit] at hafter
    refine .inl ⟨hafter, ?_⟩
    rw [hnil] at hpoint
    unfold lookupFunction
    rw [hpoint]
    rfl
  · rw [List.concat_eq_append] at hconcat
    rw [hconcat] at hsplit hbefore
    rw [List.append_assoc] at hsplit
    refine .inr ⟨before, g, _, hsplit.symm, hbefore, hafter, ?_⟩
    rw [← hsplit]
    exact lookupFunction_split hbefore fun h hh => hafter h (List.mem_of_mem_head? hh)

/-- What is to be found: a range of the table that contains the address, if
there is one. -/
def Complete (ranges : List FuncRange) : Prop :=
  ∀ addr, ((∃ f ∈ ranges, f.Covers addr) →
      ∃ f ∈ ranges, lookupFunction ranges addr = some f ∧ f.Covers addr) ∧
    ((¬ ∃ f ∈ ranges, f.Covers addr) → lookupFunction ranges addr = none)

/-- No range goes on behind a later one into the gap in front of the start after that. -/
def NoneOutlasts (ranges : List FuncRange) : Prop :=
  ∀ pre f mid g post, ranges = pre ++ f :: mid ++ g :: post →
    f.stop ≤ g.stop ∨ ∃ h, post.head? = some h ∧ h.start ≤ g.stop

theorem Table.noneOutlasts_of_complete (ht : Table ranges) (h : Complete ranges) :
    NoneOutlasts ranges := by
  intro pre f mid g post hsplit
  by_contra hbad
  obtain ⟨hstop, hgap⟩ := not_or.mp hbad
  -- the first address behind `g` is in `f`, and `g` is what the lookup looks at
  have hsorted := ht.sorted
  rw [hsplit] at hsorted
  have hg : g.start ≤ g.stop := ht.valid g (by rw [hsplit]; simp)
  have hbefore : ∀ f' ∈ (pre ++ f :: mid) ++ [g], f'.start ≤ g.stop := by
    intro f' hf'
    rcases List.mem_append.mp hf' with hf' | hf'
    · exact ((List.pairwise_append.mp hsorted).2.2 f' hf' g List.mem_cons_self).trans hg
    · rw [List.mem_singleton.mp hf']
      exact hg
  have hafter : ∀ h, post.head? = some h → g.stop < h.start :=
    fun h hhead => not_le.mp fun hle => hgap ⟨h, hhead, hle⟩
  have hlookup := lookupFunction_split hbefore hafter
  rw [if_neg (lt_irrefl _), ← hsplit] at hlookup
  have hf : f ∈ ranges := by rw [hsplit]; simp
  have hcovers : f.Covers g.stop := ⟨hbefore f (by simp), not_le.mp hstop⟩
  obtain ⟨f', -, hsome, -⟩ := (h g.stop).1 ⟨f, hf, hcovers⟩
  rw [hlookup] at hsome
  cases hsome

theorem Table.complete_of_noneOutlasts (ht : Table ranges) (h : NoneOutlasts ranges) :
    Complete ranges := by
  intro addr
  rcases lookupFunction_spec addr ht.sorted with
    ⟨hnone, hlookup⟩ | ⟨before, g, after, hsplit, hbefore, hafter, hlookup⟩
  · refine ⟨?_, fun _ => hlookup⟩
    rintro ⟨f, hf, hstart, -⟩
    exact absurd (hnone f hf) (not_lt.mpr hstart)
  · have hg : g ∈ ranges := by rw [hsplit]; simp
    have hstart : g.start ≤ addr := hbefore g (by simp)
    constructor
    · rintro ⟨f, hf, hcovers⟩
      -- whichever range contains the address, `g` reaches it
      have hreach : addr < g.stop := by
        rw [hsplit] at hf
        rcases List.mem_append.mp hf with hf | hf
        · obtain ⟨pre, mid, hmid⟩ := List.append_of_mem hf
          rcases h pre f mid g after (by rw [hsplit, hmid]) with hle | ⟨h', hhead, hle⟩
          · exact hcovers.2.trans_le hle
          · exact (hafter h' (List.mem_of_mem_head? hhead)).trans_le hle
        · rcases List.mem_cons.mp hf with rfl | hf
          · exact hcovers.2
          · exact absurd hcovers.1 (not_le.mpr (hafter f hf))
      rw [if_pos hreach] at hlookup
      exact ⟨g, hg, hlookup, hstart, hreach⟩
    · intro hnone
      rw [hlookup]
      exact if_neg fun hreach => hnone ⟨g, hg, hstart, hreach⟩

end Lookup

/-- The lookup in a table of symbols is complete exactly when none of its ranges
outlasts a later one. -/
theorem lookup_complete_iff (demangle : String → String) (symbols dynamic : List Symbol) :
    Complete (functionRanges demangle symbols dynamic) ↔
      NoneOutlasts (functionRanges demangle symbols dynamic) :=
  ⟨(functionRanges_table demangle symbols dynamic).noneOutlasts_of_complete,
    (functionRanges_table demangle symbols dynamic).complete_of_noneOutlasts⟩

/-- A function of 256 bytes with a local label in it. -/
def labelled : List Symbol :=
  [⟨true, some "outer", 256, 256⟩, ⟨true, some "label", 272, 0⟩]

/-- Behind the label's one byte nothing is found. -/
theorem lookup_label :
    ¬ ∀ (demangle : String → String) (symbols dynamic : List Symbol),
      Complete (functionRanges demangle symbols dynamic) := by
  intro h
  have hparsed : (labelled ++ []).filterMap (Symbol.range id) =
      [⟨"outer", "outer", 256, 512⟩, ⟨"label", "label", 272, 273⟩] := rfl
  have hranges : functionRanges id labelled [] =
      [⟨"outer", "outer", 256, 512⟩, ⟨"label", "label", 272, 273⟩] := by
    rw [functionRanges, hparsed]
    refine List.mergeSort_of_pairwise ?_
    decide
  have hcomplete := h id labelled []
  rw [hranges] at hcomplete
  obtain ⟨f, -, hlookup, -⟩ := (hcomplete 336).1 ⟨_, List.mem_cons_self, by decide, by decide⟩
  cases hlookup

end TraceMcp.Decode
