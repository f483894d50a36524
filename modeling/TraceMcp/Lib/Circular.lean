import Mathlib.Data.List.Rotate

/-!
# Circular buffers

A stream written round and round into a buffer that is filled with one value at
first. Read from the position of the next write on, the buffer is the end of
the filling followed by the stream (`rotate_circular`): the last elements of the
stream once it has gone round, the stream and what is left of the filling before.
-/

namespace TraceMcp.Lib

variable {α : Type*}

/-- The buffer and how much was written, after one more element. -/
def circularWrite (s : List α × Nat) (x : α) : List α × Nat :=
  (s.1.set (s.2 % s.1.length) x, s.2 + 1)

/-- A buffer of `size` times `fill` after a stream. -/
def circular (size : Nat) (fill : α) (stream : List α) : List α :=
  (stream.foldl circularWrite (List.replicate size fill, 0)).1

theorem foldl_circularWrite (s : List α × Nat) (stream : List α) :
    (stream.foldl circularWrite s).1.length = s.1.length ∧
      (stream.foldl circularWrite s).2 = s.2 + stream.length := by
  induction stream generalizing s with
  | nil => exact ⟨rfl, rfl⟩
  | cons x stream ih =>
    obtain ⟨hlen, hcount⟩ := ih (circularWrite s x)
    rw [List.foldl_cons]
    refine ⟨hlen.trans List.length_set, hcount.trans ?_⟩
    show s.2 + 1 + stream.length = s.2 + (stream.length + 1)
    omega

theorem length_circular (size : Nat) (fill : α) (stream : List α) :
    (circular size fill stream).length = size := by
  have h := (foldl_circularWrite (List.replicate size fill, 0) stream).1
  rw [circular, h, List.length_replicate]

theorem circular_concat (size : Nat) (fill : α) (stream : List α) (x : α) :
    circular size fill (stream ++ [x]) =
      (circular size fill stream).set (stream.length % size) x := by
  obtain ⟨hlen, hcount⟩ := foldl_circularWrite (List.replicate size fill, 0) stream
  rw [List.length_replicate] at hlen
  rw [Nat.zero_add] at hcount
  rw [circular, List.foldl_concat, circularWrite, hlen, hcount]
  rfl

/-- Writing at the front of a rotated list and moving on puts the element at its end. -/
theorem rotate_set (l : List α) (hl : l ≠ []) (n : Nat) (x : α) :
    (l.set (n % l.length) x).rotate (n + 1) = (l.rotate n).tail ++ [x] := by
  have hlt : n % l.length < l.length := Nat.mod_lt _ (List.length_pos_of_ne_nil hl)
  have hfront : (l.set (n % l.length) x).rotate n = x :: (l.rotate n).tail := by
    rw [List.rotate_eq_drop_append_take_mod, List.rotate_eq_drop_append_take_mod,
      List.length_set, List.take_set_of_le (Nat.le_refl _), List.drop_set, if_neg (lt_irrefl _),
      Nat.sub_self, List.drop_eq_getElem_cons hlt]
    rfl
  rw [← List.rotate_rotate, hfront, List.rotate_cons_succ, List.rotate_zero]

theorem rotate_circular {size : Nat} (hsize : 0 < size) (fill : α) (stream : List α) :
    (circular size fill stream).rotate stream.length =
      (List.replicate size fill ++ stream).drop stream.length := by
  induction stream using List.reverseRecOn with
  | nil =>
    rw [List.append_nil]
    exact List.rotate_zero _
  | append_singleton stream x ih =>
    have hne : circular size fill stream ≠ [] := by
      apply List.ne_nil_of_length_pos
      rw [length_circular]
      exact hsize
    have hle : stream.length + 1 ≤ (List.replicate size fill ++ stream).length := by
      rw [List.length_append, List.length_replicate]
      omega
    have hset := rotate_set (circular size fill stream) hne stream.length x
    rw [length_circular] at hset
    rw [circular_concat, List.length_append, List.length_singleton, hset, ih, List.tail_drop,
      ← List.append_assoc, List.drop_append_of_le_length hle]

/-- Once the stream has gone round, its end. -/
theorem rotate_circular_of_le {size : Nat} (hsize : 0 < size) (fill : α) {stream : List α}
    (h : size ≤ stream.length) :
    (circular size fill stream).rotate stream.length = stream.drop (stream.length - size) := by
  have hdrop : (List.replicate size fill).drop stream.length = [] :=
    List.drop_eq_nil_of_le (by rw [List.length_replicate]; exact h)
  rw [rotate_circular hsize, List.drop_append, hdrop, List.length_replicate, List.nil_append]

/-- Before, the stream in front of the filling. -/
theorem circular_of_lt {size : Nat} (fill : α) {stream : List α} (h : stream.length < size) :
    circular size fill stream = stream ++ List.replicate (size - stream.length) fill := by
  have hrotate := rotate_circular (Nat.zero_lt_of_lt h) fill stream
  have hle : stream.length ≤ (List.replicate size fill).length := by
    rw [List.length_replicate]
    exact h.le
  rw [List.rotate_eq_drop_append_take_mod, length_circular, Nat.mod_eq_of_lt h,
    List.drop_append_of_le_length hle, List.drop_replicate] at hrotate
  have hlen : ((circular size fill stream).drop stream.length).length =
      (List.replicate (size - stream.length) fill).length := by
    rw [List.length_drop, length_circular, List.length_replicate]
  obtain ⟨hdrop, htake⟩ := List.append_inj hrotate hlen
  rw [← List.take_append_drop stream.length (circular size fill stream), hdrop, htake]

end TraceMcp.Lib
