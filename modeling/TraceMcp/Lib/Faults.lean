import Mathlib.Data.List.Basic

/-!
# Operations that can fail

A device carries out one operation after the other and asks before each
whether it fails. A fault ends the run with what the failing operation leaves.
A run over a list of operations is therefore told by the first fault
(`run_perform`): all of them are carried out, or those before it and its own
remains.
-/

namespace TraceMcp.Lib

/-- What an operation does to the state, what it leaves when it fails, and the
error a fault is reported as. -/
structure Device (σ Op φ ε : Type) where
  apply : σ → Op → σ
  spoil : σ → Op → φ → σ
  report : φ → ε

/-- The state of a device, and how many operations it was asked for. -/
structure Progress (σ : Type) where
  state : σ
  asked : Nat

abbrev DeviceM (σ ε : Type) := ExceptT ε (StateM (Progress σ))

namespace Device

variable {σ Op φ ε : Type} (d : Device σ Op φ ε) (io : Nat → Option φ)

/-- One operation. -/
def perform (op : Op) : DeviceM σ ε Unit := fun p =>
  match io p.asked with
  | none => (.ok (), ⟨d.apply p.state op, p.asked + 1⟩)
  | some f => (.error (d.report f), ⟨d.spoil p.state op f, p.asked + 1⟩)

/-- The first fault strikes at `op`, with `done` carried out. -/
structure Strikes (n : Nat) (ops done : List Op) (op : Op) (f : φ) : Prop where
  split : ∃ rest, ops = done ++ op :: rest
  before : ∀ i < done.length, io (n + i) = none
  strikes : io (n + done.length) = some f

variable {d io}

theorem run_bind {α β : Type} (x : DeviceM σ ε α) (f : α → DeviceM σ ε β) (p : Progress σ) :
    (x >>= f) p = match x p with
      | (.ok a, p') => f a p'
      | (.error e, p') => (.error e, p') := by
  show StateT.bind x (ExceptT.bindCont f) p = _
  rw [StateT.bind.eq_def]
  rcases x p with ⟨r | r, p'⟩ <;> rfl

/-- A run over a list of operations. -/
theorem run_perform (ops : List Op) (p : Progress σ) :
    ((∀ i < ops.length, io (p.asked + i) = none) ∧
      (forM ops (d.perform io)) p =
        (.ok (), ⟨ops.foldl d.apply p.state, p.asked + ops.length⟩)) ∨
    ∃ done op f, Strikes io p.asked ops done op f ∧
      (forM ops (d.perform io)) p = (.error (d.report f),
        ⟨d.spoil (done.foldl d.apply p.state) op f, p.asked + done.length + 1⟩) := by
  induction ops generalizing p with
  | nil => exact .inl ⟨fun i hi => absurd hi (Nat.not_lt_zero i), rfl⟩
  | cons op ops ih =>
    rw [List.forM_cons, run_bind, perform]
    cases hio : io p.asked with
    | some f =>
      refine .inr ⟨[], op, f, ⟨⟨ops, rfl⟩, fun i hi => absurd hi (Nat.not_lt_zero i), hio⟩, rfl⟩
    | none =>
      -- the answers after the first belong to the rest
      have hshift : ∀ i, io (p.asked + 1 + i) = io (p.asked + (i + 1)) := fun i => by
        rw [Nat.add_assoc, Nat.add_comm 1 i]
      have hcons : ∀ l : List Op, (∀ i < l.length, io (p.asked + 1 + i) = none) →
          ∀ i < l.length + 1, io (p.asked + i) = none := by
        intro l h i hi
        cases i with
        | zero => exact hio
        | succ i => exact (hshift i).symm.trans (h i (by omega))
      rcases ih ⟨d.apply p.state op, p.asked + 1⟩ with ⟨hall, hok⟩ | ⟨done, op', f, hstrike, herr⟩
      · refine .inl ⟨hcons ops hall, ?_⟩
        dsimp only
        rw [hok, List.foldl_cons, List.length_cons, Nat.add_assoc, Nat.add_comm 1]
      · obtain ⟨rest, rfl⟩ := hstrike.split
        refine .inr ⟨op :: done, op', f, ⟨⟨rest, rfl⟩, hcons done hstrike.before, ?_⟩, ?_⟩
        · rw [List.length_cons, ← hshift]
          exact hstrike.strikes
        · dsimp only
          rw [herr, List.foldl_cons, List.length_cons, Nat.add_assoc p.asked 1, Nat.add_comm 1]

/-- A fault strikes once. -/
theorem Strikes.unique {n : Nat} {ops done done' : List Op} {op op' : Op} {f f' : φ}
    (h : Strikes io n ops done op f) (h' : Strikes io n ops done' op' f') :
    done = done' ∧ op = op' ∧ f = f' := by
  have hlen : done.length = done'.length := by
    rcases Nat.lt_trichotomy done.length done'.length with hlt | heq | hlt
    · cases (h'.before _ hlt).symm.trans h.strikes
    · exact heq
    · cases (h.before _ hlt).symm.trans h'.strikes
  obtain ⟨rest, hsplit⟩ := h.split
  obtain ⟨rest', hsplit'⟩ := h'.split
  obtain ⟨rfl, htail⟩ := List.append_inj (hsplit.symm.trans hsplit') hlen
  exact ⟨rfl, (List.cons.inj htail).1, Option.some.inj (h.strikes.symm.trans h'.strikes)⟩

/-- A run that a fault strikes. -/
theorem Strikes.run {ops done : List Op} {op : Op} {f : φ} {p : Progress σ}
    (h : Strikes io p.asked ops done op f) :
    (forM ops (d.perform io)) p = (.error (d.report f),
      ⟨d.spoil (done.foldl d.apply p.state) op f, p.asked + done.length + 1⟩) := by
  rcases @run_perform σ Op φ ε d io ops p with ⟨hall, -⟩ | ⟨done', op', f', h', hrun⟩
  · obtain ⟨rest, rfl⟩ := h.split
    have hnone := hall done.length (by rw [List.length_append, List.length_cons]; omega)
    cases hnone.symm.trans h.strikes
  · obtain ⟨rfl, rfl, rfl⟩ := h.unique h'
    exact hrun

end Device

end TraceMcp.Lib
