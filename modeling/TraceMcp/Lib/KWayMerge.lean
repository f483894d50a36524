import Mathlib.Algebra.GroupWithZero.Nat
import Mathlib.Data.List.Sort
import Mathlib.Logic.Function.Basic
import TraceMcp.Lib.Ordered
import TraceMcp.Lib.Tally

/-!
# K-way merge by stream heads

A merge of several sources that looks only at the head of each: a heap holds
one entry `(key, index)` for every source with a head, the least entry says
which head comes next, and that source is asked for its next element.

`KWay` is the machine. `Merges` says what it is for, without heads or heaps:
the elements come out one at a time, always the head of a stream whose head
is least. `drain_merges` connects the two, and the rest of the file is about
`Merges`: every stream comes out whole and in order (`Merges.stream`), and
whatever streams are ordered in time come out ordered together
(`Merges.ordered`), also when some elements carry no time at all.
-/

namespace TraceMcp.Lib

variable {σ α : Type}

/-! ## The heap -/

/-- Heap entries compare by key, equal keys by stream index. -/
def KeyLe (a b : Nat × Nat) : Prop := a.1 < b.1 ∨ a.1 = b.1 ∧ a.2 ≤ b.2

instance : DecidableRel KeyLe := fun _ _ => inferInstanceAs (Decidable (_ ∨ _ ∧ _))

theorem KeyLe.key_le {a b : Nat × Nat} (h : KeyLe a b) : a.1 ≤ b.1 := by
  rcases h with h | h <;> omega

instance : Std.Total KeyLe := ⟨fun a b => by
  unfold KeyLe
  omega⟩

instance : IsTrans (Nat × Nat) KeyLe := ⟨fun a b c hab hbc => by
  unfold KeyLe at *
  omega⟩

instance : Std.Refl KeyLe := ⟨fun _ => Or.inr ⟨rfl, Nat.le_refl _⟩⟩

/-- A heap push; the least entry is kept in front. -/
def heapPush (e : Nat × Nat) (heap : List (Nat × Nat)) : List (Nat × Nat) :=
  heap.orderedInsert KeyLe e

/-! ## The machine -/

/-- The state of a merge: the sources, the head taken from each, the heap. -/
structure KWay (σ α : Type) where
  sources : List σ
  heads : List (Option α)
  heap : List (Nat × Nat)

namespace KWay

section Machine

variable (next : σ → Option (α × σ)) (key : α → Nat)

/-- Ask source `i` for its next element. -/
def pull (m : KWay σ α) (i : Nat) : KWay σ α :=
  match m.sources[i]?.bind next with
  | none => m
  | some (a, s) =>
    { sources := m.sources.set i s
      heads := m.heads.set i (some a)
      heap := heapPush (key a, i) m.heap }

/-- Heap entries for a list of heads, the first one at index `i`. -/
def entries (i : Nat) : List (Option α) → List (Nat × Nat)
  | [] => []
  | none :: heads => entries (i + 1) heads
  | some a :: heads => (key a, i) :: entries (i + 1) heads

/-- One head of each source. -/
def start (sources : List σ) : KWay σ α where
  sources := sources.map fun s => ((next s).map (·.2)).getD s
  heads := sources.map fun s => (next s).map (·.1)
  heap := (entries key 0 (sources.map fun s => (next s).map (·.1))).foldr heapPush []

/-- Take the least head. An entry without a head ends the merge as an empty
heap does; `Aligned` states that there is no such entry. -/
def pop (m : KWay σ α) : Option ((Nat × α) × KWay σ α) :=
  match m.heap with
  | [] => none
  | (_, i) :: heap =>
    match m.heads[i]?.join with
    | none => none
    | some a => some ((i, a), pull next key { m with heads := m.heads.set i none, heap := heap } i)

/-- At most `fuel` elements, each with the index of its stream. -/
def drain : Nat → KWay σ α → List (Nat × α)
  | 0, _ => []
  | fuel + 1, m =>
    match pop next key m with
    | none => []
    | some (x, m) => x :: drain fuel m

end Machine

end KWay

/-! ## What a merge is -/

/-- `out` merges the streams `f`: it takes the least head every time. -/
inductive Merges (key : α → Nat) : (Nat → List α) → List (Nat × α) → Prop
  | done {f : Nat → List α} : (∀ i, f i = []) → Merges key f []
  | pop {f : Nat → List α} {i : Nat} {a : α} {rest : List α} {out : List (Nat × α)} :
      f i = a :: rest → (∀ j b t, f j = b :: t → KeyLe (key a, i) (key b, j)) →
      Merges key (Function.update f i rest) out → Merges key f ((i, a) :: out)

namespace Merges

variable {key : α → Nat} {f : Nat → List α} {out : List (Nat × α)}

/-- Every stream comes out whole and in order. -/
theorem stream (h : Merges key f out) (i : Nat) :
    (out.filter fun x => x.1 = i).map Prod.snd = f i := by
  induction h with
  | done hnil => exact (hnil i).symm
  | @pop f j a rest out hj hleast hrest ih =>
    by_cases hij : j = i
    · subst hij
      rw [List.filter_cons_of_pos (by simp), List.map_cons, ih, Function.update_self, hj]
    · rw [List.filter_cons_of_neg (by simpa using hij), ih,
        Function.update_of_ne (fun h => hij h.symm)]

theorem mem_stream (h : Merges key f out) {x : Nat × α} (hx : x ∈ out) : x.2 ∈ f x.1 := by
  rw [← h.stream x.1]
  exact List.mem_map_of_mem (List.mem_filter.mpr ⟨hx, decide_eq_true rfl⟩)

/-- The least head is no later than any timed element of an ordered stream. -/
theorem head_le {time : α → Option Nat} {f : Nat → List α} {i j v w : Nat} {a b : α}
    (hleast : ∀ j b t, f j = b :: t → KeyLe ((time a).getD 0, i) ((time b).getD 0, j))
    (ha : time a = some v) (hord : ((f j).filterMap time).Pairwise (· ≤ ·))
    (hb : b ∈ f j) (hbt : time b = some w) : v ≤ w := by
  cases hfj : f j with
  | nil =>
    rw [hfj] at hb
    cases hb
  | cons c t =>
    have hle := (hleast j c t hfj).key_le
    rw [ha] at hle
    rw [hfj] at hb hord
    rcases List.mem_cons.mp hb with rfl | hb
    · rwa [hbt] at hle
    cases hc : time c with
    | none =>
      -- An untimed head sorts as 0, so the popped element is dated 0 as well.
      rw [hc] at hle
      exact Nat.le_trans hle (Nat.zero_le w)
    | some u =>
      rw [hc] at hle
      rw [List.filterMap_cons_some hc] at hord
      exact Nat.le_trans hle (List.rel_of_pairwise_cons hord
        (List.mem_filterMap.mpr ⟨b, hb, hbt⟩))

/-- Streams ordered in time come out ordered, all of them together. -/
theorem ordered (time : α → Option Nat) (h : Merges (fun a => (time a).getD 0) f out) (S : Nat → Bool)
    (hord : ∀ i, S i = true → ((f i).filterMap time).Pairwise (· ≤ ·)) :
    ((out.filter fun x => S x.1).filterMap fun x => time x.2).Pairwise (· ≤ ·) := by
  induction h with
  | done => exact .nil
  | @pop f i a rest out hf hleast hrest ih =>
    have hord' : ∀ j, S j = true →
        ((Function.update f i rest j).filterMap time).Pairwise (· ≤ ·) := by
      intro j hj
      by_cases hij : j = i
      · subst hij
        rw [Function.update_self]
        have hsub : List.Sublist rest (f j) := hf ▸ List.sublist_cons_self a rest
        exact (hord j hj).sublist (hsub.filterMap time)
      · rw [Function.update_of_ne hij]
        exact hord j hj
    have htail := ih hord'
    by_cases hS : S i = true
    · rw [List.filter_cons_of_pos (p := fun x : Nat × α => S x.1) hS]
      cases ha : time a with
      | none => rwa [List.filterMap_cons_none (f := fun x : Nat × α => time x.2) ha]
      | some v =>
        rw [List.filterMap_cons_some (f := fun x : Nat × α => time x.2) ha]
        refine List.pairwise_cons.mpr ⟨?_, htail⟩
        intro w hw
        obtain ⟨x, hx, hxt⟩ := List.mem_filterMap.mp hw
        obtain ⟨hx, hxS⟩ := List.mem_filter.mp hx
        have hmem := hrest.mem_stream hx
        have hmem : x.2 ∈ f x.1 := by
          by_cases hxi : x.1 = i
          · rw [hxi, Function.update_self] at hmem
            rw [hxi, hf]
            exact List.mem_cons_of_mem a hmem
          · rwa [Function.update_of_ne hxi] at hmem
        exact head_le hleast ha (hord x.1 hxS) hmem hxt
    · rwa [List.filter_cons_of_neg (p := fun x : Nat × α => S x.1) hS]

/-- Streams ordered by key come out ordered by key and stream. -/
theorem sorted (h : Merges key f out) (hord : ∀ i, (f i).Pairwise fun a b => key a ≤ key b) :
    out.Pairwise fun x y => KeyLe (key x.2, x.1) (key y.2, y.1) := by
  induction h with
  | done => exact .nil
  | @pop f i a rest out hf hleast hrest ih =>
    have htail : ∀ j, (Function.update f i rest j).Pairwise fun a b => key a ≤ key b := by
      intro j
      by_cases hij : j = i
      · subst hij
        rw [Function.update_self]
        exact (hf ▸ hord j).of_cons
      · rw [Function.update_of_ne hij]
        exact hord j
    refine List.pairwise_cons.mpr ⟨fun x hx => ?_, ih htail⟩
    have hmem := hrest.mem_stream hx
    by_cases hxi : x.1 = i
    · rw [hxi, Function.update_self] at hmem
      have hle := List.rel_of_pairwise_cons (hf ▸ hord i) hmem
      show key a < key x.2 ∨ key a = key x.2 ∧ i ≤ x.1
      omega
    · rw [Function.update_of_ne hxi] at hmem
      cases hfx : f x.1 with
      | nil =>
        rw [hfx] at hmem
        cases hmem
      | cons b t =>
        have hhead : key a < key b ∨ key a = key b ∧ i ≤ x.1 := hleast x.1 b t hfx
        have hordx := hord x.1
        rw [hfx] at hmem hordx
        rcases List.mem_cons.mp hmem with rfl | hmem
        · exact hhead
        · have hle := List.rel_of_pairwise_cons hordx hmem
          show key a < key x.2 ∨ key a = key x.2 ∧ i ≤ x.1
          omega

/-- The elements of `n` streams, each with its stream, one stream after another. -/
def labelled (f : Nat → List α) (n : Nat) : List (Nat × α) :=
  (List.range n).flatMap fun i => (f i).map fun a => (i, a)

theorem labelled_filter {n i : Nat} (hi : i < n) :
    (labelled f n).filter (fun x => x.1 = i) = (f i).map fun a => (i, a) := by
  unfold labelled
  rw [List.filter_flatMap]
  have hone : ∀ j, ((f j).map fun a => (j, a)).filter (fun x => x.1 = i) =
      if j = i then (f i).map fun a => (i, a) else [] := by
    intro j
    by_cases hij : j = i
    · subst hij
      rw [if_pos rfl, List.filter_eq_self]
      intro x hx
      obtain ⟨a, _, rfl⟩ := List.mem_map.mp hx
      exact decide_eq_true rfl
    · rw [if_neg hij, List.filter_eq_nil_iff]
      intro x hx
      obtain ⟨a, _, rfl⟩ := List.mem_map.mp hx
      simpa using hij
  simp only [hone]
  induction n with
  | zero => omega
  | succ n ih =>
    rw [List.range_succ, List.flatMap_append, List.flatMap_singleton]
    by_cases hin : i < n
    · rw [ih hin, if_neg (by omega), List.append_nil]
    · have hnone : (List.range n).flatMap (fun j => if j = i then (f i).map fun a => (i, a) else []) =
          [] := by
        refine List.flatMap_eq_nil_iff.mpr fun j hj => if_neg ?_
        have hjn := List.mem_range.mp hj
        omega
      rw [hnone, List.nil_append, if_pos (by omega)]

/-- A merge of ordered streams is their stable sort by key and stream. -/
theorem eq_mergeSort (h : Merges key f out) {n : Nat} (hn : ∀ i, n ≤ i → f i = [])
    (hord : ∀ i, (f i).Pairwise fun a b => key a ≤ key b) :
    out = (labelled f n).mergeSort fun x y => KeyLe (key x.2, x.1) (key y.2, y.1) := by
  have htrans : ∀ x y z : Nat × α, decide (KeyLe (key x.2, x.1) (key y.2, y.1)) = true →
      decide (KeyLe (key y.2, y.1) (key z.2, z.1)) = true →
      decide (KeyLe (key x.2, x.1) (key z.2, z.1)) = true := by
    intro x y z hxy hyz
    exact decide_eq_true (trans_of KeyLe (of_decide_eq_true hxy) (of_decide_eq_true hyz))
  have htotal : ∀ x y : Nat × α, (decide (KeyLe (key x.2, x.1) (key y.2, y.1)) ||
      decide (KeyLe (key y.2, y.1) (key x.2, x.1))) = true := by
    intro x y
    simp only [Bool.or_eq_true, decide_eq_true_eq]
    exact total_of KeyLe _ _
  refine eq_of_sorted KeyLe ?_ (fun x : Nat × α => (key x.2, x.1)) (h.sorted hord)
    ((List.pairwise_mergeSort htrans htotal _).imp fun hle => of_decide_eq_true hle)
    (fun a => Std.Refl.refl a) ?_
  · intro a b hab hba
    unfold KeyLe at hab hba
    exact Prod.ext (by omega) (by omega)
  · intro (k, i)
    rw [filter_mergeSort htrans htotal]
    · -- what has one key and stream is the same part of that stream
      have hpart : ∀ l : List (Nat × α), l.filter (fun x => (key x.2, x.1) = (k, i)) =
          ((l.filter fun x => x.1 = i).filter fun x => key x.2 = k) := by
        intro l
        rw [List.filter_filter]
        refine List.filter_congr fun x _ => ?_
        simp only [Prod.mk.injEq, Bool.decide_and]
      have hstream : ∀ l : List (Nat × α), (l.filter fun x => x.1 = i) =
          ((l.filter fun x => x.1 = i).map Prod.snd).map fun a => (i, a) := by
        intro l
        rw [List.map_map]
        refine (List.map_id (l.filter fun x => x.1 = i)).symm.trans (List.map_congr_left fun x hx => ?_)
        have hxi := of_decide_eq_true (List.mem_filter.mp hx).2
        exact Prod.ext hxi rfl
      rw [hpart, hpart, hstream out, h.stream i]
      by_cases hi : i < n
      · rw [labelled_filter hi]
      · have hnone : (labelled f n).filter (fun x => x.1 = i) = [] := by
          refine List.filter_eq_nil_iff.mpr fun x hx => ?_
          obtain ⟨j, hj, hx⟩ := List.mem_flatMap.mp hx
          obtain ⟨a, _, rfl⟩ := List.mem_map.mp hx
          have hjn := List.mem_range.mp hj
          simp only [decide_eq_true_eq]
          omega
        rw [hnone, hn i (by omega), List.map_nil]
    · intro x y hx hy
      simp only [decide_eq_true_eq] at hx hy ⊢
      rw [hx, hy]
      exact Std.Refl.refl _

end Merges

/-! ## The machine merges -/

namespace KWay

section Correct

variable {next : σ → Option (α × σ)} {key : α → Nat} {pending : σ → List α}

/-- `pending s` is what source `s` will hand out. -/
def Hands (next : σ → Option (α × σ)) (pending : σ → List α) : Prop :=
  ∀ s, pending s = match next s with
    | none => []
    | some (a, s') => a :: pending s'

/-- What stream `i` still has to give: its head, then its source. -/
def rest (pending : σ → List α) (m : KWay σ α) (i : Nat) : List α :=
  (m.heads[i]?.join).toList ++ (m.sources[i]?.map pending).getD []

/-- The heap is ordered and has exactly one entry for each head. -/
structure Entered (key : α → Nat) (m : KWay σ α) : Prop where
  length_eq : m.heads.length = m.sources.length
  sorted : m.heap.Pairwise KeyLe
  once : (m.heap.map Prod.snd).Nodup
  entry : ∀ k i : Nat, (k, i) ∈ m.heap ↔ ∃ a, m.heads[i]? = some (some a) ∧ key a = k

/-- Source `i`, where it has no head, has nothing left either. -/
def Spent (pending : σ → List α) (m : KWay σ α) (i : Nat) : Prop :=
  m.heads[i]? = some none → (m.sources[i]?.map pending).getD [] = []

/-- What holds between two pops. -/
structure Aligned (key : α → Nat) (pending : σ → List α) (m : KWay σ α) : Prop
    extends Entered key m where
  spent : ∀ i, Spent pending m i

/-- The number of elements still to come. -/
def remaining (pending : σ → List α) (m : KWay σ α) : Nat :=
  ((List.range m.sources.length).map fun i => (rest pending m i).length).sum

theorem heapPush_perm (e : Nat × Nat) (heap : List (Nat × Nat)) :
    (heapPush e heap).Perm (e :: heap) := List.perm_orderedInsert ..

/-- Asking source `i` for its next element restores the alignment and leaves
every stream as it was. -/
theorem pull_aligned (hands : Hands next pending) {m : KWay σ α} {i : Nat} (he : Entered key m)
    (hi : m.heads[i]? = some none) (hspent : ∀ j, j ≠ i → Spent pending m j) :
    Aligned key pending (pull next key m i) ∧
      ∀ j, rest pending (pull next key m i) j = rest pending m j := by
  have hlt : i < m.heads.length := (List.getElem?_eq_some_iff.mp hi).1
  obtain ⟨s, hs⟩ : ∃ s, m.sources[i]? = some s :=
    have hlt' : i < m.sources.length := he.length_eq ▸ hlt
    ⟨m.sources[i], List.getElem?_eq_getElem hlt'⟩
  have hpend := hands s
  cases hn : next s with
  | none =>
    have hpull : pull next key m i = m := by rw [pull, hs, Option.bind_some, hn]
    rw [hpull]
    rw [hn] at hpend
    refine ⟨⟨he, fun j => ?_⟩, fun j => rfl⟩
    by_cases hj : j = i
    · intro _
      rw [hj, hs, Option.map_some, Option.getD_some, hpend]
    · exact hspent j hj
  | some x =>
    obtain ⟨a, s'⟩ := x
    rw [hn] at hpend
    have hpull : pull next key m i = ⟨m.sources.set i s', m.heads.set i (some a),
        heapPush (key a, i) m.heap⟩ := by rw [pull, hs, Option.bind_some, hn]
    rw [hpull]
    -- a source without a head has no entry in the heap
    have hfresh : i ∉ m.heap.map Prod.snd := by
      intro hmem
      obtain ⟨⟨k, j⟩, hkj, rfl⟩ := List.mem_map.mp hmem
      obtain ⟨b, hb, -⟩ := (he.entry k j).mp hkj
      rw [hi] at hb
      cases hb
    have hslt : i < m.sources.length := he.length_eq ▸ hlt
    -- the heap, its entries, the spent sources, and the streams
    refine ⟨⟨⟨?_, ?_, ?_, ?_⟩, ?_⟩, ?_⟩
    · rw [List.length_set, List.length_set, he.length_eq]
    · exact List.Pairwise.orderedInsert _ _ he.sorted
    · rw [((heapPush_perm _ _).map Prod.snd).nodup_iff]
      exact List.nodup_cons.mpr ⟨hfresh, he.once⟩
    · intro k j
      show (k, j) ∈ heapPush (key a, i) m.heap ↔ ∃ b, (m.heads.set i (some a))[j]? = _ ∧ _
      rw [(heapPush_perm _ _).mem_iff, List.mem_cons, List.getElem?_set]
      by_cases hij : i = j
      · subst hij
        rw [if_pos rfl, if_pos hlt]
        constructor
        · rintro (h | h)
          · exact ⟨a, rfl, (Prod.mk.inj h).1.symm⟩
          · exact absurd (List.mem_map_of_mem h) hfresh
        · rintro ⟨b, hb, rfl⟩
          cases hb
          exact Or.inl rfl
      · rw [if_neg hij, he.entry]
        constructor
        · rintro (h | h)
          · exact absurd (Prod.mk.inj h).2.symm hij
          · exact h
        · exact Or.inr
    · intro j
      by_cases hij : i = j
      · subst hij
        intro h
        rw [List.getElem?_set, if_pos rfl, if_pos hlt] at h
        cases h
      · show (m.heads.set i (some a))[j]? = _ → ((m.sources.set i s')[j]?.map pending).getD [] = []
        rw [List.getElem?_set, List.getElem?_set, if_neg hij, if_neg hij]
        exact hspent j fun h => hij h.symm
    · intro j
      show ((m.heads.set i (some a))[j]?.join).toList ++
        ((m.sources.set i s')[j]?.map pending).getD [] = _
      rw [List.getElem?_set, List.getElem?_set]
      by_cases hij : i = j
      · subst hij
        rw [if_pos rfl, if_pos rfl, if_pos hlt, if_pos hslt, rest, hi, hs]
        exact hpend.symm
      · rw [if_neg hij, if_neg hij]
        rfl

/-- Taking the least head: it is the first element of its stream, no other
head is before it, and no other stream changes. -/
theorem pop_some (hands : Hands next pending) {m m' : KWay σ α} {i : Nat} {a : α}
    (hA : Aligned key pending m) (h : pop next key m = some ((i, a), m')) :
    Aligned key pending m' ∧ rest pending m i = a :: rest pending m' i ∧
      (∀ j, j ≠ i → rest pending m' j = rest pending m j) ∧
      ∀ j b t, rest pending m j = b :: t → KeyLe (key a, i) (key b, j) := by
  unfold pop at h
  split at h
  next => cases h
  next k₀ i₀ heap hheap =>
    split at h
    next => cases h
    next a₀ ha =>
      obtain ⟨hx, rfl⟩ := Prod.mk.inj (Option.some.inj h)
      obtain ⟨rfl, rfl⟩ := Prod.mk.inj hx
      have hhead : m.heads[i₀]? = some (some a₀) := Option.join_eq_some_iff.mp ha
      have hlt : i₀ < m.heads.length := (List.getElem?_eq_some_iff.mp hhead).1
      have hkey : key a₀ = k₀ := by
        obtain ⟨b, hb, hbk⟩ := (hA.entry k₀ i₀).mp (hheap ▸ List.mem_cons_self)
        rw [hhead] at hb
        cases hb
        exact hbk
      have honce := hA.once
      have hsorted := hA.sorted
      rw [hheap] at honce hsorted
      obtain ⟨hfresh, honce⟩ := List.nodup_cons.mp honce
      -- The state with the head taken and its source not asked yet.
      have hE : Entered key ({ m with heads := m.heads.set i₀ none, heap := heap }) := by
        refine ⟨?_, List.Pairwise.of_cons hsorted, honce, ?_⟩
        · rw [List.length_set, hA.length_eq]
        · intro k j
          show _ ↔ ∃ b, (m.heads.set i₀ none)[j]? = _ ∧ _
          rw [List.getElem?_set]
          by_cases hij : i₀ = j
          · subst hij
            rw [if_pos rfl, if_pos hlt]
            constructor
            · exact fun h => absurd (List.mem_map_of_mem h) hfresh
            · rintro ⟨b, hb, -⟩
              cases hb
          · rw [if_neg hij, ← hA.entry, hheap, List.mem_cons]
            constructor
            · exact Or.inr
            · rintro (h | h)
              · exact absurd (Prod.mk.inj h).2.symm hij
              · exact h
      have hset : ∀ j, j ≠ i₀ → (m.heads.set i₀ none)[j]? = m.heads[j]? := fun j hj =>
        List.getElem?_set_ne fun h => hj h.symm
      obtain ⟨hA', hrest⟩ := pull_aligned hands hE (i := i₀)
        (by rw [List.getElem?_set_self hlt])
        (fun j hj h => hA.spent j (by rwa [hset j hj] at h))
      refine ⟨hA', ?_, ?_, ?_⟩
      · rw [hrest]
        show (m.heads[i₀]?.join).toList ++ _ = a₀ :: (((m.heads.set i₀ none)[i₀]?.join).toList ++ _)
        rw [hhead, List.getElem?_set_self hlt]
        rfl
      · intro j hj
        rw [hrest]
        show ((m.heads.set i₀ none)[j]?.join).toList ++ _ = (m.heads[j]?.join).toList ++ _
        rw [hset j hj]
      · intro j b t hb
        obtain ⟨c, hc⟩ : ∃ c, m.heads[j]? = some (some c) := by
          cases hj : m.heads[j]? with
          | none =>
            have hsrc : m.sources[j]? = none := by
              rw [List.getElem?_eq_none_iff] at hj ⊢
              exact hA.length_eq ▸ hj
            rw [rest, hj, hsrc] at hb
            cases hb
          | some c =>
            cases c with
            | none =>
              rw [rest, hj, hA.spent j hj] at hb
              cases hb
            | some c => exact ⟨c, rfl⟩
        have hcb : c = b := by
          rw [rest, hc] at hb
          exact (List.cons.inj hb).1
        subst hcb
        have hmem : (key c, j) ∈ m.heap := (hA.entry _ _).mpr ⟨c, hc, rfl⟩
        rw [hheap] at hmem
        rw [hkey]
        rcases List.mem_cons.mp hmem with h | h
        · exact h ▸ Std.Refl.refl _
        · exact List.rel_of_pairwise_cons hsorted h

/-- The merge ends only when every stream has ended. -/
theorem pop_none {m : KWay σ α} (hA : Aligned key pending m) (h : pop next key m = none) (i : Nat) :
    rest pending m i = [] := by
  unfold pop at h
  split at h
  next hheap =>
    have hno : ∀ a, m.heads[i]? ≠ some (some a) := by
      intro a ha
      have hmem := (hA.entry (key a) i).mpr ⟨a, ha, rfl⟩
      rw [hheap] at hmem
      cases hmem
    cases hi : m.heads[i]? with
    | none =>
      have hsrc : m.sources[i]? = none := by
        rw [List.getElem?_eq_none_iff] at hi ⊢
        exact hA.length_eq ▸ hi
      rw [rest, hi, hsrc]
      rfl
    | some c =>
      cases c with
      | none =>
        rw [rest, hi, hA.spent i hi]
        rfl
      | some a => exact absurd hi (hno a)
  next k₀ i₀ heap hheap =>
    obtain ⟨a, ha, -⟩ := (hA.entry k₀ i₀).mp (hheap ▸ List.mem_cons_self)
    rw [ha] at h
    cases h

theorem pull_sources_length (m : KWay σ α) (i : Nat) :
    (pull next key m i).sources.length = m.sources.length := by
  unfold pull
  split
  next => rfl
  next => exact List.length_set ..

theorem pop_sources_length {m m' : KWay σ α} {x : Nat × α} (h : pop next key m = some (x, m')) :
    m'.sources.length = m.sources.length := by
  unfold pop at h
  split at h
  next => cases h
  next =>
    split at h
    next => cases h
    next => rw [← (Prod.mk.inj (Option.some.inj h)).2, pull_sources_length]

/-- A pop takes one of the remaining elements. -/
theorem pop_remaining (hands : Hands next pending) {m m' : KWay σ α} {i : Nat} {a : α}
    (hA : Aligned key pending m) (h : pop next key m = some ((i, a), m')) :
    remaining pending m = remaining pending m' + 1 := by
  obtain ⟨-, hi, hne, -⟩ := pop_some hands hA h
  have hmem : i ∈ List.range m.sources.length := by
    rw [List.mem_range]
    by_contra hge
    have hsrc : m.sources[i]? = none := List.getElem?_eq_none (Nat.le_of_not_lt hge)
    have hhd : m.heads[i]? = none :=
      List.getElem?_eq_none (hA.length_eq ▸ Nat.le_of_not_lt hge)
    rw [rest, hsrc, hhd] at hi
    cases hi
  rw [remaining, remaining, pop_sources_length h,
    sum_split (fun j => (rest pending m j).length) List.nodup_range hmem,
    sum_split (fun j => (rest pending m' j).length) List.nodup_range hmem,
    sum_rest_congr fun j hj => congrArg List.length (hne j hj), hi, List.length_cons]
  omega

/-- Enough fuel merges everything. -/
theorem drain_merges (hands : Hands next pending) {fuel : Nat} {m : KWay σ α}
    (hA : Aligned key pending m) (hfuel : remaining pending m ≤ fuel) :
    Merges key (rest pending m) (drain next key fuel m) := by
  induction fuel generalizing m with
  | zero =>
    cases hpop : pop next key m with
    | none => exact .done (pop_none hA hpop)
    | some x =>
      have hrem := pop_remaining hands hA hpop
      omega
  | succ fuel ih =>
    rw [drain]
    cases hpop : pop next key m with
    | none => exact .done (pop_none hA hpop)
    | some x =>
      obtain ⟨⟨i, a⟩, m'⟩ := x
      obtain ⟨hA', hi, hne, hleast⟩ := pop_some hands hA hpop
      have hrem := pop_remaining hands hA hpop
      refine .pop hi hleast ?_
      have hupd : Function.update (rest pending m) i (rest pending m' i) = rest pending m' := by
        funext j
        by_cases hj : j = i
        · rw [hj, Function.update_self]
        · rw [Function.update_of_ne hj, hne j hj]
      rw [hupd]
      exact ih hA' (by omega)

/-! ## The start -/

theorem mem_entries {heads : List (Option α)} {i k j : Nat} :
    (k, j) ∈ entries key i heads ↔ i ≤ j ∧ ∃ a, heads[j - i]? = some (some a) ∧ key a = k := by
  induction heads generalizing i with
  | nil => simp [entries]
  | cons h heads ih =>
    have hcons : i < j → (h :: heads)[j - i]? = heads[j - (i + 1)]? := by
      intro hij
      rw [show j - i = (j - (i + 1)) + 1 by omega, List.getElem?_cons_succ]
    have htail : (k, j) ∈ entries key (i + 1) heads ↔
        i < j ∧ ∃ a, (h :: heads)[j - i]? = some (some a) ∧ key a = k := by
      rw [ih]
      constructor
      · rintro ⟨hij, a, ha, hk⟩
        exact ⟨hij, a, by rw [hcons hij, ha], hk⟩
      · rintro ⟨hij, a, ha, hk⟩
        exact ⟨hij, a, by rw [← hcons hij, ha], hk⟩
    have hhere : (h :: heads)[i - i]? = some h := by rw [Nat.sub_self, List.getElem?_cons_zero]
    cases h with
    | none =>
      rw [entries, htail]
      constructor
      · exact fun ⟨hij, hex⟩ => ⟨Nat.le_of_lt hij, hex⟩
      · rintro ⟨hij, a, ha, hk⟩
        refine ⟨Nat.lt_of_le_of_ne hij ?_, a, ha, hk⟩
        rintro rfl
        rw [hhere] at ha
        cases ha
    | some b =>
      rw [entries, List.mem_cons, htail]
      constructor
      · rintro (h | ⟨hij, hex⟩)
        · obtain ⟨rfl, rfl⟩ := Prod.mk.inj h
          exact ⟨Nat.le_refl _, b, hhere, rfl⟩
        · exact ⟨Nat.le_of_lt hij, hex⟩
      · rintro ⟨hij, a, ha, hk⟩
        rcases Nat.eq_or_lt_of_le hij with rfl | hij
        · rw [hhere] at ha
          cases ha
          exact Or.inl (by rw [hk])
        · exact Or.inr ⟨hij, a, ha, hk⟩

theorem entries_once (heads : List (Option α)) (i : Nat) :
    ((entries key i heads).map Prod.snd).Nodup := by
  induction heads generalizing i with
  | nil => exact .nil
  | cons h heads ih =>
    cases h with
    | none => exact ih (i + 1)
    | some a =>
      refine List.nodup_cons.mpr ⟨?_, ih (i + 1)⟩
      intro hmem
      obtain ⟨⟨k, j⟩, hkj, rfl⟩ := List.mem_map.mp hmem
      have hle := (mem_entries.mp hkj).1
      omega

theorem foldr_heapPush (es : List (Nat × Nat)) :
    es.foldr heapPush [] = es.insertionSort KeyLe := by
  induction es with
  | nil => rfl
  | cons e es ih =>
    rw [List.foldr_cons, ih]
    rfl

theorem start_aligned (key : α → Nat) (hands : Hands next pending) (sources : List σ) :
    Aligned key pending (start next key sources) ∧
      ∀ i, rest pending (start next key sources) i = (sources[i]?.map pending).getD [] := by
  have hrest : ∀ s, ((next s).map (·.1)).toList ++ pending (((next s).map (·.2)).getD s) =
      pending s := by
    intro s
    have hs := hands s
    cases hn : next s with
    | none => rfl
    | some x =>
      rw [hn] at hs
      exact hs.symm
  -- the heap holds one entry for each head
  have hperm : (start next key sources).heap.Perm
      (entries key 0 (start next key sources).heads) := by
    show (List.foldr heapPush [] _).Perm _
    rw [foldr_heapPush]
    exact List.perm_insertionSort ..
  refine ⟨⟨⟨?_, ?_, ?_, ?_⟩, ?_⟩, ?_⟩
  · rw [start, List.length_map, List.length_map]
  · show (List.foldr heapPush [] _).Pairwise KeyLe
    rw [foldr_heapPush]
    exact List.pairwise_insertionSort ..
  · rw [(hperm.map Prod.snd).nodup_iff]
    exact entries_once _ 0
  · intro k i
    rw [hperm.mem_iff, mem_entries]
    exact ⟨fun h => h.2, fun h => ⟨Nat.zero_le i, h⟩⟩
  · intro i h
    rw [start, List.getElem?_map] at h
    rw [start, List.getElem?_map]
    cases hs : sources[i]? with
    | none => rfl
    | some s =>
      rw [hs] at h
      have hnone : next s = none := Option.map_eq_none_iff.mp (Option.some.inj h)
      have hpend := hands s
      rw [hnone] at hpend
      rw [Option.map_some, Option.map_some, Option.getD_some, hnone]
      exact hpend
  · intro i
    rw [rest, start, List.getElem?_map, List.getElem?_map]
    cases hs : sources[i]? with
    | none => rfl
    | some s => exact hrest s

theorem start_remaining (hands : Hands next pending) (sources : List σ) :
    remaining pending (start next key sources) =
      (sources.map fun s => (pending s).length).sum := by
  have hlen : (start next key sources).sources.length = sources.length := List.length_map ..
  rw [remaining, hlen]
  congr 1
  refine List.ext_getElem (by simp) fun i h₁ h₂ => ?_
  have hi : i < sources.length := by simpa using h₂
  rw [List.getElem_map, List.getElem_map, List.getElem_range,
    (start_aligned key hands sources).2 i, List.getElem?_eq_getElem hi]
  rfl

/-- Started on `sources`, with fuel for every element, the machine merges
their streams. -/
theorem start_merges (key : α → Nat) (hands : Hands next pending) (sources : List σ) :
    Merges key (fun i => (sources[i]?.map pending).getD [])
      (drain next key (sources.map fun s => (pending s).length).sum (start next key sources)) := by
  obtain ⟨hA, hrest⟩ := start_aligned key hands sources
  have hmerges := drain_merges hands hA (Nat.le_of_eq (start_remaining hands sources))
  rwa [funext hrest] at hmerges

end Correct

end KWay

end TraceMcp.Lib
