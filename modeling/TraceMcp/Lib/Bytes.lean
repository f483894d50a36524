import Mathlib.Tactic.Ring
import TraceMcp.Lib.Text

/-!
# Bytes

Little-endian numbers, what a sequence holds at a position, and UTF-8 that is
read leniently: what is not UTF-8 becomes U+FFFD. Encoders are appends; what a
decoder finds at an offset is read off with `Holds`.
-/

namespace TraceMcp.Lib

/-! ## Little-endian numbers -/

section Numbers

variable {width n : Nat}

/-- The low `width` bytes of a number, lowest first. -/
def leBytes : Nat → Nat → List UInt8
  | 0, _ => []
  | width + 1, n => UInt8.ofNat n :: leBytes width (n / 256)

/-- The number with these bytes. -/
def leNat : List UInt8 → Nat
  | [] => 0
  | b :: bs => b.toNat + 256 * leNat bs

@[simp] theorem length_leBytes : (leBytes width n).length = width := by
  induction width generalizing n with
  | zero => rfl
  | succ width ih => rw [leBytes, List.length_cons, ih]

theorem leNat_leBytes : leNat (leBytes width n) = n % 256 ^ width := by
  induction width generalizing n with
  | zero => rw [leBytes, leNat, pow_zero, Nat.mod_one]
  | succ width ih =>
    have hbyte : (UInt8.ofNat n).toNat = n % 256 := UInt8.toNat_ofNat'
    rw [leBytes, leNat, ih, hbyte, pow_succ', Nat.mod_mul]

end Numbers

/-! ## What stands at a position -/

section Holds

variable {α : Type} {whole part front back : List α} {pos : Nat}

/-- `part` stands in `whole` at `pos`. -/
def Holds (whole : List α) (pos : Nat) (part : List α) : Prop :=
  pos ≤ whole.length ∧ part <+: whole.drop pos

theorem holds_append (before part after : List α) :
    Holds (before ++ part ++ after) before.length part := by
  constructor
  · simp
  · rw [List.append_assoc, List.drop_left]
    exact List.prefix_append part after

theorem Holds.length_le (h : Holds whole pos part) : pos + part.length ≤ whole.length := by
  have hlen := h.2.length_le
  rw [List.length_drop] at hlen
  have hpos := h.1
  omega

theorem Holds.left (h : Holds whole pos (front ++ back)) : Holds whole pos front :=
  ⟨h.1, (List.prefix_append front back).trans h.2⟩

theorem Holds.right (h : Holds whole pos (front ++ back)) :
    Holds whole (pos + front.length) back := by
  have hlen := h.length_le
  rw [List.length_append] at hlen
  refine ⟨by omega, ?_⟩
  obtain ⟨rest, hrest⟩ := h.2
  rw [← List.drop_drop, ← hrest, List.append_assoc, List.drop_left]
  exact List.prefix_append back rest

/-- What follows a part can be added to it. -/
theorem Holds.append (hfront : Holds whole pos front)
    (hback : Holds whole (pos + front.length) back) : Holds whole pos (front ++ back) := by
  obtain ⟨rest, hrest⟩ := hfront.2
  obtain ⟨rest', hrest'⟩ := hback.2
  refine ⟨hfront.1, rest', ?_⟩
  rw [← List.drop_drop, ← hrest, List.drop_left] at hrest'
  rw [← hrest, ← hrest', List.append_assoc]

/-- Of parts in a row, one stands behind those before it. -/
theorem Holds.flatMap {ι : Type} {f : ι → List α} {is : List ι} {k : Nat} {i : ι}
    (h : Holds whole pos (is.flatMap f)) (hi : is[k]? = some i) :
    Holds whole (pos + ((is.take k).map fun j => (f j).length).sum) (f i) := by
  induction is generalizing pos k with
  | nil => cases hi
  | cons j is ih =>
    rw [List.flatMap_cons] at h
    cases k with
    | zero =>
      cases hi
      exact h.left
    | succ k =>
      rw [List.take_succ_cons, List.map_cons, List.sum_cons, ← Nat.add_assoc]
      exact ih h.right hi

theorem holds_take {n : Nat} (h : pos + n ≤ whole.length) :
    Holds whole pos ((whole.drop pos).take n) :=
  ⟨by omega, List.take_prefix n _⟩

theorem Holds.take_drop (h : Holds whole pos part) :
    (whole.drop pos).take part.length = part :=
  (List.prefix_iff_eq_take.mp h.2).symm

end Holds

/-! ## Fields -/

section Fields

variable {fs : List (Nat × Nat)}

/-- Numbers one after another, each with its width. -/
def fields (fs : List (Nat × Nat)) : List UInt8 := fs.flatMap fun f => leBytes f.1 f.2

@[simp] theorem length_fields : (fields fs).length = (fs.map Prod.fst).sum := by
  induction fs with
  | nil => rfl
  | cons f fs ih =>
    show (leBytes f.1 f.2 ++ fields fs).length = _
    rw [List.length_append, length_leBytes, ih, List.map_cons, List.sum_cons]

/-- A field stands behind those before it. -/
theorem Holds.field {whole : List UInt8} {pos : Nat} (h : Holds whole pos (fields fs)) (i : Nat)
    {width n : Nat} (hi : fs[i]? = some (width, n)) :
    Holds whole (pos + ((fs.take i).map Prod.fst).sum) (leBytes width n) := by
  obtain ⟨hlt, hget⟩ := List.getElem?_eq_some_iff.mp hi
  have hsplit : fields fs = fields (fs.take i) ++ (leBytes width n ++ fields (fs.drop (i + 1))) := by
    conv_lhs => rw [← List.take_append_drop i fs, List.drop_eq_getElem_cons hlt, hget]
    show List.flatMap _ (_ ++ _ :: _) = _
    rw [List.flatMap_append, List.flatMap_cons]
    rfl
  rw [hsplit] at h
  have hfield := h.right.left
  rwa [length_fields] at hfield

end Fields

/-! ## Lenient UTF-8 -/

/-- A continuation byte. -/
def isContinuation (b : UInt8) : Bool := 0x80 ≤ b && b ≤ 0xBF

/-- `c` can come second after the first byte `b` of a longer sequence. -/
def canFollow (b c : UInt8) : Bool :=
  if 0xC2 ≤ b ∧ b ≤ 0xDF then isContinuation c
  else if b = 0xE0 then 0xA0 ≤ c && c ≤ 0xBF
  else if b = 0xED then 0x80 ≤ c && c ≤ 0x9F
  else if 0xE1 ≤ b ∧ b ≤ 0xEF then isContinuation c
  else if b = 0xF0 then 0x90 ≤ c && c ≤ 0xBF
  else if 0xF1 ≤ b ∧ b ≤ 0xF3 then isContinuation c
  else if b = 0xF4 then 0x80 ≤ c && c ≤ 0x8F
  else false

/-- How many bytes of a sequence that is not a character are taken together. -/
def brokenLength : List UInt8 → Nat
  | b :: c :: d :: _ => if canFollow b c then (if isContinuation d then 3 else 2) else 1
  | [b, c] => if canFollow b c then 2 else 1
  | _ => 1

theorem brokenLength_pos (bs : List UInt8) : 0 < brokenLength bs := by
  unfold brokenLength
  split
  next => split <;> (try split) <;> omega
  next => split <;> omega
  next => omega

/-- The characters `String::from_utf8_lossy` reads. -/
def fromUtf8Lossy (bs : List UInt8) : List Char :=
  if _h : bs = [] then []
  else
    match bs.toByteArray.utf8DecodeChar? 0 with
    | some c => c :: fromUtf8Lossy (bs.drop c.utf8Size)
    | none => '\uFFFD' :: fromUtf8Lossy (bs.drop (brokenLength bs))
termination_by bs.length
decreasing_by
  · have hpos := List.length_pos_of_ne_nil _h
    have hsize := c.utf8Size_pos
    rw [List.length_drop]
    omega
  · have hpos := List.length_pos_of_ne_nil _h
    have hsize := brokenLength_pos bs
    rw [List.length_drop]
    omega

/-- What is UTF-8 is read as it was written. -/
theorem fromUtf8Lossy_asBytes (s : List Char) : fromUtf8Lossy (Text.asBytes s) = s := by
  induction s with
  | nil => rw [Text.asBytes, List.flatMap_nil, fromUtf8Lossy, dif_pos rfl]
  | cons c s ih =>
    have hcons : Text.asBytes (c :: s) = String.utf8EncodeChar c ++ Text.asBytes s := List.flatMap_cons
    have hlen : (String.utf8EncodeChar c).length = c.utf8Size := String.length_utf8EncodeChar c
    have hne : String.utf8EncodeChar c ++ Text.asBytes s ≠ [] := by
      intro h
      have hnil := (List.append_eq_nil_iff.mp h).1
      rw [hnil, List.length_nil] at hlen
      have hpos := c.utf8Size_pos
      omega
    have hdecode : (String.utf8EncodeChar c ++ Text.asBytes s).toByteArray.utf8DecodeChar? 0 =
        some c := by
      rw [List.toByteArray_append]
      exact ByteArray.utf8DecodeChar?_utf8EncodeChar_append
    rw [hcons, fromUtf8Lossy, dif_neg hne, hdecode]
    dsimp only
    rw [← hlen, List.drop_left, ih]

end TraceMcp.Lib
