import Mathlib.Algebra.GroupWithZero.Nat
import Mathlib.Data.List.Basic

/-!
# Paths and directory trees

A path is its text. `join` is the standard library's, and a path leads where
its components do, one after the other from the current directory: an empty
component and `.` stay, `..` goes up, and any other name goes down.

What a join leads to is what the second path leads to from the first
(`resolve_join`), and a name without special meaning leads to the entry of
that name (`walk_name`). Those two rules are all a user of text paths needs to
say where its files lie.

A tree lists what exists. `locate` follows a path through it as the kernel
does, where a component that does not exist stops it; `clear` and `remove`
take away what lies below a place, the second with the place itself.
-/

namespace TraceMcp.Lib

/-! ## Paths as text -/

abbrev PathText := List Char

/-- A place in the tree: the names from the root down. -/
abbrev Place := List (List Char)

namespace PathText

/-- `Path::is_absolute`. -/
def isAbsolute (p : PathText) : Bool := p.head? == some '/'

/-- `Path::join`. -/
def join (p q : PathText) : PathText :=
  if isAbsolute q then q
  else if p = [] ∨ p.getLast? = some '/' then p ++ q
  else p ++ '/' :: q

/-- Where one component leads from a directory. -/
def follow (dir : Place) (part : List Char) : Place :=
  if part = [] ∨ part = ['.'] then dir
  else if part = ['.', '.'] then dir.dropLast
  else dir ++ [part]

/-- Where a relative path leads from a directory. -/
def walk (dir : Place) (p : PathText) : Place := (p.splitOn '/').foldl follow dir

/-- Where the components of a path are followed from. -/
def origin (cwd : Place) (p : PathText) : Place := if isAbsolute p then [] else cwd

/-- Where a path leads. -/
def resolve (cwd : Place) (p : PathText) : Place := walk (origin cwd p) p

/-- The component a path ends in, trailing slashes aside. -/
def lastPart (p : PathText) : Option (List Char) :=
  ((p.splitOn '/').filter (· ≠ [])).getLast?

/-- A component that names an entry of its directory. -/
structure IsName (n : List Char) : Prop where
  nonempty : n ≠ []
  noSlash : '/' ∉ n
  notDot : n ≠ ['.']
  notDotDot : n ≠ ['.', '.']

section

variable {p q n : PathText} {cwd dir : Place}

theorem splitOn_noSlash (h : '/' ∉ n) : n.splitOn '/' = [n] := by
  apply List.splitOn_eq_singleton_of_beq_eq_false
  intro c hc
  exact beq_eq_false_iff_ne.mpr fun heq => h (heq ▸ hc)

/-- A slash separates what is followed first from what is followed then. -/
theorem walk_slash : walk dir (p ++ '/' :: q) = walk (walk dir p) q := by
  rw [walk, List.splitOn_append_cons_self, List.foldl_append]
  rfl

theorem walk_noSlash (h : '/' ∉ n) : walk dir n = follow dir n := by
  rw [walk, splitOn_noSlash h]
  rfl

/-- A name leads to the entry of that name. -/
theorem walk_name (h : IsName n) : walk dir n = dir ++ [n] := by
  rw [walk_noSlash h.noSlash, follow, if_neg, if_neg h.notDotDot]
  rintro (hn | hn)
  · exact h.nonempty hn
  · exact h.notDot hn

theorem isAbsolute_append (h : p ≠ []) : isAbsolute (p ++ q) = isAbsolute p := by
  cases p with
  | nil => exact absurd rfl h
  | cons c p => rfl

/-- A join leads where its second path leads from the first. -/
theorem resolve_join (hq : isAbsolute q = false) :
    resolve cwd (join p q) = walk (resolve cwd p) q := by
  rw [join, if_neg (by rw [hq]; exact Bool.false_ne_true)]
  by_cases hp : p = []
  · subst hp
    rw [if_pos (Or.inl rfl), List.nil_append, resolve, origin, if_neg (by rw [hq]; exact Bool.false_ne_true)]
    rfl
  · by_cases hlast : p.getLast? = some '/'
    · rw [if_pos (Or.inr hlast)]
      obtain ⟨p', rfl⟩ := List.getLast?_eq_some_iff.mp hlast
      have hne : p' ++ ['/'] ≠ [] := hp
      -- the slash at the end stands for the one that is not added
      have hslash : walk (origin cwd (p' ++ ['/'])) (p' ++ ['/']) =
          walk (origin cwd (p' ++ ['/'])) p' := walk_slash
      rw [resolve, resolve, hslash, origin, isAbsolute_append hne, ← origin, List.append_assoc]
      exact walk_slash
    · rw [if_neg (by rintro (h | h); exacts [hp h, hlast h]), resolve, resolve, origin,
        isAbsolute_append hp, ← origin, walk_slash]

theorem IsName.isAbsolute (h : IsName n) : isAbsolute n = false := by
  cases n with
  | nil => rfl
  | cons c n =>
    show (some c == some '/') = false
    have hc : c ≠ '/' := fun heq => h.noSlash (heq ▸ List.mem_cons_self)
    simpa using hc

/-- A join with a name leads to the entry of that name. -/
theorem resolve_join_name (h : IsName n) : resolve cwd (join p n) = resolve cwd p ++ [n] := by
  rw [resolve_join h.isAbsolute, walk_name h]

end

end PathText

/-! ## Trees -/

inductive Node
  | dir
  | file (bytes : Nat)
  deriving DecidableEq

/-- What exists below the root, each entry at its place. -/
structure Tree where
  nodes : List (Place × Node)
  deriving DecidableEq

namespace Tree

open PathText

/-- What is at a place. The root is a directory of every tree. -/
def node (t : Tree) (place : Place) : Option Node :=
  if place = [] then some .dir else (t.nodes.find? (·.1 = place)).map (·.2)

/-- One component of a path, followed as far as the tree has it. -/
def step (t : Tree) (dir : Place) (part : List Char) : Option Place :=
  if t.node dir = some .dir then
    if (t.node (follow dir part)).isSome then some (follow dir part) else none
  else none

/-- The place a path leads to, where the tree has every component of it. -/
def locate (t : Tree) (cwd : Place) (p : PathText) : Option Place :=
  (p.splitOn '/').foldlM t.step (origin cwd p)

/-- The tree without what lies below a place. -/
def clear (t : Tree) (place : Place) : Tree :=
  ⟨t.nodes.filter fun e => ¬ (place <+: e.1 ∧ e.1 ≠ place)⟩

/-- The tree without a place and what lies below it. -/
def remove (t : Tree) (place : Place) : Tree :=
  ⟨t.nodes.filter fun e => ¬ place <+: e.1⟩

/-- The bytes of the files at or below a place. -/
def bytesBelow (t : Tree) (place : Place) : Nat :=
  ((t.nodes.filter (place <+: ·.1)).map fun e =>
    match e.2 with
    | .dir => 0
    | .file bytes => bytes).sum

variable {t : Tree} {cwd dir place : Place} {p : PathText} {e : Place × Node}

theorem step_follow {part : List Char} (h : t.step dir part = some place) :
    place = follow dir part := by
  rw [step] at h
  split at h
  · split at h
    · exact (Option.some.inj h).symm
    · cases h
  · cases h

/-- A path that can be followed leads where its text says. -/
theorem locate_resolve (h : t.locate cwd p = some place) : place = resolve cwd p := by
  rw [locate] at h
  rw [resolve, walk]
  generalize p.splitOn '/' = parts at h
  generalize origin cwd p = start at h
  induction parts generalizing start with
  | nil => exact (Option.some.inj h).symm
  | cons part parts ih =>
    obtain ⟨mid, hmid, hrest⟩ := Option.bind_eq_some_iff.mp h
    rw [List.foldl_cons, ← step_follow hmid]
    exact ih mid hrest

theorem mem_clear : e ∈ (t.clear place).nodes ↔ e ∈ t.nodes ∧ ¬ (place <+: e.1 ∧ e.1 ≠ place) := by
  rw [clear, List.mem_filter, decide_eq_true_iff]

theorem mem_remove : e ∈ (t.remove place).nodes ↔ e ∈ t.nodes ∧ ¬ place <+: e.1 := by
  rw [remove, List.mem_filter, decide_eq_true_iff]

end Tree

end TraceMcp.Lib
