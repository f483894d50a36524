import Mathlib.Data.List.Chain

/-!
# Tilings of a range

A range is cut into pieces, each a pair of its first position and its length,
by a list of cuts. `Tiles` says that pieces follow each other without a hole
or an overlap; what a rising list of cuts gives does (`tiles_pieces`).
-/

namespace TraceMcp.Lib

/-- The pieces, from `pos` to `stop`, one behind the other. -/
def Tiles : Nat → List (Nat × Nat) → Nat → Prop
  | pos, [], stop => pos = stop
  | pos, p :: ps, stop => p.1 = pos ∧ Tiles (pos + p.2) ps stop

/-- The pieces between consecutive cuts. -/
def pieces (cuts : List Nat) : List (Nat × Nat) :=
  (cuts.zip (cuts.drop 1)).map fun w => (w.1, w.2 - w.1)

theorem pieces_cons_cons (a b : Nat) (cuts : List Nat) :
    pieces (a :: b :: cuts) = (a, b - a) :: pieces (b :: cuts) := rfl

theorem length_pieces (cuts : List Nat) : (pieces cuts).length = cuts.length - 1 := by
  rw [pieces, List.length_map, List.length_zip, List.length_drop]
  omega

/-- Rising cuts tile what lies between the first and the last. -/
theorem tiles_pieces {a stop : Nat} {cuts : List Nat} (h : (a :: cuts).IsChain (· ≤ ·))
    (hlast : (a :: cuts).getLast? = some stop) : Tiles a (pieces (a :: cuts)) stop := by
  induction cuts generalizing a with
  | nil => exact Option.some.inj hlast
  | cons b cuts ih =>
    obtain ⟨hle, hrest⟩ := List.isChain_cons_cons.mp h
    rw [pieces_cons_cons]
    refine ⟨rfl, ?_⟩
    have hb : a + (b - a) = b := Nat.add_sub_of_le hle
    show Tiles (a + (b - a)) (pieces (b :: cuts)) stop
    rw [hb]
    exact ih hrest (by rw [← hlast, List.getLast?_cons_cons])

/-- A piece lies between two cuts that follow each other. -/
theorem mem_pieces {cuts : List Nat} {R : Nat → Nat → Prop} (h : cuts.IsChain R) {p : Nat × Nat}
    (hp : p ∈ pieces cuts) : ∃ a b, R a b ∧ p = (a, b - a) := by
  induction cuts with
  | nil => cases hp
  | cons a cuts ih =>
    cases cuts with
    | nil => cases hp
    | cons b cuts =>
      obtain ⟨hab, hrest⟩ := List.isChain_cons_cons.mp h
      rw [pieces_cons_cons] at hp
      rcases List.mem_cons.mp hp with rfl | hp
      · exact ⟨a, b, hab, rfl⟩
      · exact ih hrest hp

/-- Pieces start at cuts. -/
theorem map_fst_pieces (cuts : List Nat) : (pieces cuts).map Prod.fst = cuts.dropLast := by
  induction cuts with
  | nil => rfl
  | cons a cuts ih =>
    cases cuts with
    | nil => rfl
    | cons b cuts =>
      rw [pieces_cons_cons, List.map_cons, ih]
      rfl

/-- Leaving out the last cut leaves out the last piece. -/
theorem pieces_dropLast (cuts : List Nat) : pieces cuts.dropLast = (pieces cuts).dropLast := by
  induction cuts with
  | nil => rfl
  | cons a cuts ih =>
    cases cuts with
    | nil => rfl
    | cons b cuts =>
      cases cuts with
      | nil => rfl
      | cons c cuts =>
        rw [List.dropLast_cons_cons, List.dropLast_cons_cons, pieces_cons_cons,
          pieces_cons_cons a b, ← List.dropLast_cons_cons (x := b), ih, pieces_cons_cons b c,
          List.dropLast_cons_cons]

/-- Cuts that are `n` apart reach as far as there are of them. -/
theorem spread_cuts {n a stop : Nat} {cuts : List Nat} (h : (a :: cuts).IsChain fun x y => x + n ≤ y)
    (hlast : (a :: cuts).getLast? = some stop) : a + cuts.length * n ≤ stop := by
  induction cuts generalizing a with
  | nil =>
    obtain rfl := Option.some.inj hlast
    simp
  | cons b cuts ih =>
    obtain ⟨hab, hrest⟩ := List.isChain_cons_cons.mp h
    have hreach := ih hrest (by rw [← hlast, List.getLast?_cons_cons])
    rw [List.length_cons, Nat.succ_mul]
    omega

end TraceMcp.Lib
