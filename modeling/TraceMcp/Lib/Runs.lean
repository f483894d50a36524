import Mathlib.Data.List.Forall2
import Mathlib.Data.List.Induction
import Mathlib.Logic.Relation

/-!
# Runs of a fallible machine

A machine with a fallible step function is run by `List.foldlM`: the first
error ends the run. Safety of such runs is proved by preservation: what the
start satisfies and every accepted input keeps, every state reached
satisfies. `foldlM_invariant` is that rule, `foldlM_trace` the one for
properties that also speak of the inputs so far, and
`reflTransGen_invariant` the one for a relation of small moves.

A loop that goes from position to position until there is no next one comes to
the positions `reached`, and `reached_rule` says of it what holds at each of
them.
-/

namespace TraceMcp.Lib

variable {σ ι ε : Type} {step : σ → ι → Except ε σ}

/-- A computation in two parts succeeds when both parts do. -/
theorem bind_ok {α β : Type} {x : Except ε α} {f : α → Except ε β} {b : β} :
    x >>= f = .ok b ↔ ∃ a, x = .ok a ∧ f a = .ok b := by
  cases x with
  | error e => simp [bind, Except.bind]
  | ok a => simp [bind, Except.bind]

/-- A result is handed on. -/
theorem ok_bind {α β : Type} (a : α) (f : α → Except ε β) : (Except.ok a >>= f) = f a := rfl

/-- An error ends the computation. -/
theorem error_bind {α β : Type} (e : ε) (f : α → Except ε β) :
    (Except.error e >>= f) = .error e := rfl

/-- A mapped result comes from a result. -/
theorem map_ok {α β : Type} {x : Except ε α} {f : α → β} {b : β} :
    x.map f = .ok b ↔ ∃ a, x = .ok a ∧ f a = b := by
  cases x with
  | error e => simp [Except.map]
  | ok a => simp [Except.map]

/-- A result that can be evaluated and tested. -/
theorem ok_of_any {α : Type} {x : Except ε α} {p : α → Bool} (h : x.toOption.any p = true) :
    ∃ a, x = .ok a ∧ p a = true := by
  cases x with
  | error e => cases h
  | ok a => exact ⟨a, rfl, h⟩

/-- A successful `mapM` relates the lists element by element. -/
theorem mapM_ok {α β : Type} {f : α → Except ε β} :
    ∀ {xs : List α} {ys : List β}, xs.mapM f = .ok ys →
      List.Forall₂ (fun a b => f a = .ok b) xs ys
  | [], ys, h => by
    rw [List.mapM_nil] at h
    cases h
    exact .nil
  | x :: xs, ys, h => by
    rw [List.mapM_cons] at h
    obtain ⟨y, hy, h⟩ := bind_ok.mp h
    obtain ⟨ys', hys, h⟩ := bind_ok.mp h
    cases h
    exact .cons hy (mapM_ok hys)

/-- A `mapM` succeeds when every element does. -/
theorem mapM_total {α β : Type} {f : α → Except ε β} :
    ∀ {xs : List α}, (∀ x ∈ xs, ∃ y, f x = .ok y) → ∃ ys, xs.mapM f = .ok ys
  | [], _ => ⟨[], rfl⟩
  | x :: xs, h => by
    obtain ⟨y, hy⟩ := h x List.mem_cons_self
    obtain ⟨ys, hys⟩ := mapM_total fun x' hx' => h x' (List.mem_cons_of_mem x hx')
    refine ⟨y :: ys, ?_⟩
    rw [List.mapM_cons, hy, ok_bind, hys]
    rfl

/-! ## Lists related element by element -/

section Forall₂

variable {α β γ : Type} {R : α → β → Prop} {xs : List α} {ys : List β}

theorem forall₂_mem_right (h : List.Forall₂ R xs ys) : ∀ y ∈ ys, ∃ x ∈ xs, R x y := by
  induction h with
  | nil => exact fun y hy => absurd hy List.not_mem_nil
  | cons hxy _ ih =>
    intro y hy
    rcases List.mem_cons.mp hy with rfl | hy
    · exact ⟨_, List.mem_cons_self, hxy⟩
    · obtain ⟨x, hx, hxy'⟩ := ih y hy
      exact ⟨x, List.mem_cons_of_mem _ hx, hxy'⟩

theorem forall₂_mem_left (h : List.Forall₂ R xs ys) : ∀ x ∈ xs, ∃ y ∈ ys, R x y := by
  intro x hx
  obtain ⟨y, hy, hxy⟩ := forall₂_mem_right (List.Forall₂.flip (R := fun y x => R x y) h) x hx
  exact ⟨y, hy, hxy⟩

/-- A part both sides agree on. -/
theorem forall₂_map_eq {f : α → γ} {g : β → γ} (h : List.Forall₂ R xs ys)
    (hfg : ∀ x y, R x y → f x = g y) : xs.map f = ys.map g := by
  induction h with
  | nil => rfl
  | cons hxy _ ih => rw [List.map_cons, List.map_cons, hfg _ _ hxy, ih]

/-- Related piece by piece. -/
theorem forall₂_flatMap {f : ι → List α} {g : ι → List β} {is : List ι}
    (h : ∀ i ∈ is, List.Forall₂ R (f i) (g i)) :
    List.Forall₂ R (is.flatMap f) (is.flatMap g) := by
  induction is with
  | nil => exact .nil
  | cons i is ih =>
    rw [List.flatMap_cons, List.flatMap_cons]
    exact List.rel_append (h i List.mem_cons_self) (ih fun j hj => h j (List.mem_cons_of_mem i hj))

end Forall₂

/-! ## Runs -/

/-- A run over `xs ++ ys` is a run over `xs` followed by a run over `ys`. -/
theorem foldlM_append_ok {xs ys : List ι} {s s' : σ} :
    (xs ++ ys).foldlM step s = .ok s' ↔
      ∃ m, xs.foldlM step s = .ok m ∧ ys.foldlM step m = .ok s' := by
  rw [List.foldlM_append, bind_ok]

/-- A run over `x :: xs` starts with an accepted step. -/
theorem foldlM_cons_ok {x : ι} {xs : List ι} {s s' : σ} :
    (x :: xs).foldlM step s = .ok s' ↔
      ∃ m, step s x = .ok m ∧ xs.foldlM step m = .ok s' := by
  rw [List.foldlM_cons, bind_ok]

/-- A property of the inputs so far and the state reached with them, true at
the start and kept by every accepted input, is true of every prefix. -/
theorem foldlM_trace {P : List ι → σ → Prop} {xs : List ι} {s : σ} (h0 : P [] s)
    (hstep : ∀ pre x post m m', xs = pre ++ x :: post → pre.foldlM step s = .ok m → P pre m →
      step m x = .ok m' → P (pre ++ [x]) m') :
    ∀ pre, pre <+: xs → ∀ m, pre.foldlM step s = .ok m → P pre m := by
  intro pre
  induction pre using List.reverseRecOn with
  | nil =>
    intro _ m hm
    cases hm
    exact h0
  | append_singleton pre x ih =>
    rintro ⟨post, hpost⟩ m hm
    obtain ⟨m₁, hm₁, hlast⟩ := foldlM_append_ok.mp hm
    obtain ⟨m₂, hx, hm₂⟩ := foldlM_cons_ok.mp hlast
    cases hm₂
    have hsplit : xs = pre ++ x :: post := by
      rw [← hpost, List.append_assoc, List.singleton_append]
    exact hstep pre x post m₁ m hsplit hm₁ (ih ⟨x :: post, hsplit.symm⟩ m₁ hm₁) hx

/-- An invariant of every accepted input is an invariant of the run. -/
theorem foldlM_invariant {P : σ → Prop} {xs : List ι} {s s' : σ}
    (hstep : ∀ x ∈ xs, ∀ m m', P m → step m x = .ok m' → P m')
    (h0 : P s) (h : xs.foldlM step s = .ok s') : P s' := by
  refine foldlM_trace (P := fun _ m => P m) h0 ?_ xs List.prefix_rfl s' h
  intro pre x post m m' hsplit _ hP hx
  exact hstep x (hsplit ▸ List.mem_append_right _ List.mem_cons_self) m m' hP hx

/-- An invariant of every move is an invariant of any number of moves. -/
theorem reflTransGen_invariant {r : σ → σ → Prop} {P : σ → Prop}
    (hmove : ∀ a b, r a b → P a → P b) {a b : σ} (h : Relation.ReflTransGen r a b)
    (h0 : P a) : P b := by
  induction h with
  | refl => exact h0
  | tail _ hbc ih => exact hmove _ _ hbc ih

/-! ## Positions -/

section Positions

variable {next : Nat → Option Nat} {rank : Nat → Nat} {fuel pos : Nat}

/-- The positions from `pos` on, at most `fuel` of them behind it. -/
def reached (next : Nat → Option Nat) : Nat → Nat → List Nat
  | 0, pos => [pos]
  | fuel + 1, pos =>
    pos :: match next pos with
      | none => []
      | some q => reached next fuel q

theorem mem_reached_self : pos ∈ reached next fuel pos := by
  cases fuel with
  | zero => exact List.mem_singleton_self pos
  | succ fuel => exact List.mem_cons_self

section Loop

variable {τ : Type} {Q : τ → Nat → Prop} {P : Nat → Prop} {r : Prop} {s : τ} {q : Nat}

/-- What one round of a loop at `pos` comes to: `r` asks for `P` at the position
and, where there is a next one, for the loop from there. -/
def Round (next : Nat → Option Nat) (P : Nat → Prop) (Q : τ → Nat → Prop) (pos : Nat) (r : Prop) :
    Prop :=
  ∃ s, r ↔ P pos ∧ ∀ q, next pos = some q → Q s q

theorem Round.ends (s : τ) (hP : P pos) (hnext : next pos = none) (hr : r) :
    Round next P Q pos r := by
  refine ⟨s, fun _ => ⟨hP, fun q hq => ?_⟩, fun _ => hr⟩
  rw [hnext] at hq
  cases hq

theorem Round.goes (hP : P pos) (hnext : next pos = some q) : Round next P Q pos (Q s q) := by
  refine ⟨s, fun h => ⟨hP, fun q' hq' => ?_⟩, fun h => h.2 q hnext⟩
  rw [hnext] at hq'
  cases hq'
  exact h

theorem Round.fails (s : τ) (hP : ¬ P pos) (hr : ¬ r) : Round next P Q pos r :=
  ⟨s, fun h => absurd h hr, fun h => absurd h.1 hP⟩

/-- Where every step lowers a rank, a loop is right when each of its positions
is. -/
theorem reached_rule (hrank : ∀ p q, next p = some q → rank q < rank p)
    (hround : ∀ s p, Round next P Q p (Q s p)) :
    ∀ fuel pos s, rank pos ≤ fuel → (Q s pos ↔ ∀ q ∈ reached next fuel pos, P q)
  | 0, pos, s, hfuel => by
    obtain ⟨s', hs'⟩ := hround s pos
    have hnone : ∀ q, next pos = some q → Q s' q := by
      intro q hq
      have hlt := hrank pos q hq
      omega
    rw [hs']
    show _ ↔ ∀ q ∈ [pos], P q
    rw [List.forall_mem_singleton]
    exact ⟨fun h => h.1, fun h => ⟨h, hnone⟩⟩
  | fuel + 1, pos, s, hfuel => by
    obtain ⟨s', hs'⟩ := hround s pos
    rw [hs', reached, List.forall_mem_cons]
    cases hnext : next pos with
    | none => simp
    | some q =>
      have hlt := hrank pos q hnext
      have hrest := reached_rule hrank hround fuel q s' (by omega)
      dsimp only
      rw [← hrest]
      simp

end Loop

end Positions

end TraceMcp.Lib
