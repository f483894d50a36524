import TraceMcp.Capture.PerfData

/-!
# Reads that return

A read of untrusted bytes can end in a result, an error or a panic. `Returns`
excludes the panic, and its rules take a read apart: a number is read when the
file holds its bytes, a sum when it stays in `usize`. `Only` is for reads that
have no error to make, where returning means having a value.

`returns_readRecord` puts the rules together for one record of
`read_perf_data`: it is read when the file has room for the fields of its type.
-/

namespace TraceMcp.Capture

open TraceMcp.Lib TraceMcp.Decode

/-! ## Returning -/

section Returns

variable {α β : Type} {x : Read α} {f : α → Read β} {file : List UInt8} {a b o width n : Nat}

/-- The read does not panic. -/
def Returns (x : Read α) : Prop := x ≠ .error .panic

@[simp] theorem returns_ok (v : α) : Returns (.ok v : Read α) := nofun

@[simp] theorem returns_pure (v : α) : Returns (pure v : Read α) := nofun

@[simp] theorem returns_error (e : Error) : Returns (.error (.error e) : Read α) := nofun

@[simp] theorem returns_throw (e : Error) : Returns (throw (.error e) : Read α) := nofun

@[simp] theorem not_returns_panic : ¬ Returns (.error .panic : Read α) := fun h => h rfl

theorem returns_bind : Returns (x >>= f) ↔ Returns x ∧ ∀ v, x = .ok v → Returns (f v) := by
  cases x with
  | ok v =>
    show Returns (f v) ↔ _
    simp
  | error e =>
    cases e with
    | error e => simp [bind, Except.bind]
    | panic => simp [bind, Except.bind]

/-- The number of `width` bytes at an offset, as far as there are any. -/
def num (width : Nat) (file : List UInt8) (o : Nat) : Nat := leNat ((file.drop o).take width)

theorem numAt_eq :
    numAt width file o =
      if o + width ≤ file.length then .ok (num width file o) else .error .panic := by
  rw [numAt, slice]
  by_cases h : o + width ≤ file.length
  · rw [if_pos ⟨Nat.le_add_right o width, h⟩, if_pos h, List.drop_take, Nat.add_sub_cancel_left]
    rfl
  · rw [if_neg (fun hand => h hand.2), if_neg h]
    rfl

theorem numAt_num (h : o + width ≤ file.length) : numAt width file o = .ok (num width file o) := by
  rw [numAt_eq, if_pos h]

theorem numAt_ok_iff : numAt width file o = .ok n ↔ o + width ≤ file.length ∧ num width file o = n := by
  rw [numAt_eq]
  split
  next h => simp [h]
  next h => simp [h]

/-- A read of a number is made where there is one, and handed on. -/
theorem returns_numAt_bind {g : Nat → Read β} :
    Returns (numAt width file o >>= g) ↔
      o + width ≤ file.length ∧ Returns (g (num width file o)) := by
  rw [numAt_eq]
  split
  next h => simp [h, ok_bind]
  next h => simp [h, bind, Except.bind]

theorem slice_ok_iff {part : List UInt8} :
    slice file a b = .ok part ↔ (a ≤ b ∧ b ≤ file.length) ∧ (file.take b).drop a = part := by
  rw [slice]
  split
  next h => simp [h]
  next h => simp [h]

theorem addUsize_ok_iff : addUsize a b = .ok n ↔ a + b ≤ usizeMax ∧ a + b = n := by
  rw [addUsize]
  split
  next h => simp [h]
  next h => simp [h]

theorem returns_slice_bind {g : List UInt8 → Read β} :
    Returns (slice file a b >>= g) ↔
      (a ≤ b ∧ b ≤ file.length) ∧ Returns (g ((file.take b).drop a)) := by
  rw [slice]
  split
  next h => simp [h, ok_bind]
  next h => simp [h, bind, Except.bind]

theorem returns_addUsize_bind {g : Nat → Read β} :
    Returns (addUsize a b >>= g) ↔ a + b ≤ usizeMax ∧ Returns (g (a + b)) := by
  rw [addUsize]
  split
  next h => simp [h, ok_bind]
  next h => simp [h, bind, Except.bind]

theorem throw_bind (e : Fault) : (throw e : Read α) >>= f = throw e := rfl

theorem returns_subUsize_bind {g : Nat → Read β} :
    Returns (subUsize a b >>= g) ↔ b ≤ a ∧ Returns (g (a - b)) := by
  rw [subUsize]
  split
  next h => simp [h, ok_bind]
  next h => simp [h, bind, Except.bind]

/-- A read that is made only in one case is a read in that case. -/
theorem returns_ite {c : Prop} [Decidable c] {y : Read α} :
    Returns (if c then x else y) ↔ (c → Returns x) ∧ (¬ c → Returns y) := by
  split
  next h => simp [h]
  next h => simp [h]

/-! ### Reads that make no error of their own -/

/-- The read panics or gives a value with the property. -/
def Only (P : α → Prop) : Read α → Prop
  | .ok v => P v
  | .error .panic => True
  | .error (.error _) => False

variable {P : α → Prop} {Q : β → Prop}

theorem only_pure {v : α} (h : P v) : Only P (pure v) := h

theorem only_bind (hx : Only P x) (hf : ∀ v, P v → Only Q (f v)) : Only Q (x >>= f) := by
  match x with
  | .ok v => exact hf v hx
  | .error .panic => exact trivial
  | .error (.error _) => exact hx.elim

theorem only_ite {c : Prop} [Decidable c] {y : Read α} (hx : Only P x) (hy : Only P y) :
    Only P (if c then x else y) := by
  split
  next => exact hx
  next => exact hy

theorem only_numAt : Only (· = num width file o) (numAt width file o) := by
  rw [numAt_eq]
  split
  next => exact rfl
  next => exact trivial

theorem only_slice : Only (fun _ => True) (slice file a b) := by
  rw [slice]
  split
  next => exact trivial
  next => exact trivial

theorem only_subUsize : Only (fun _ => True) (subUsize a b) := by
  rw [subUsize]
  split
  next => exact trivial
  next => exact trivial

/-- Such a read that returns has a value. -/
theorem Only.value (h : Only P x) (hx : Returns x) : ∃ v, x = .ok v ∧ P v := by
  match x with
  | .ok v => exact ⟨v, rfl, h⟩
  | .error .panic => exact absurd rfl hx
  | .error (.error _) => exact h.elim

end Returns

/-! ## Trailers -/

theorem trailerLen_eq (sampleType : Nat) :
    trailerLen sampleType =
      (if hasField sampleType sampleTid then 8 else 0) +
      ((if hasField sampleType sampleTime then 8 else 0) +
      ((if hasField sampleType sampleId then 8 else 0) +
      ((if hasField sampleType sampleStreamId then 8 else 0) +
      ((if hasField sampleType sampleCpu then 8 else 0) +
      (if hasField sampleType sampleIdentifier then 8 else 0))))) := by
  have hsum : ∀ bits : List Nat, ((bits.filter (hasField sampleType)).map fun _ => 8).sum =
      (bits.map fun b => if hasField sampleType b then 8 else 0).sum := by
    intro bits
    induction bits with
    | nil => rfl
    | cons b bits ih =>
      rw [List.filter_cons]
      split
      next h => rw [List.map_cons, List.sum_cons, List.map_cons, List.sum_cons, ih, if_pos h]
      next h => rw [ih, List.map_cons, List.sum_cons, if_neg h, Nat.zero_add]
  rw [trailerLen, hsum]
  rfl

/-- A trailer is read from any bytes: what has no room for it has none. -/
theorem parseTrailer_returns (bytes : List UInt8) (sampleType : Nat) :
    ∃ tr, parseTrailer bytes sampleType = .ok tr := by
  rw [parseTrailer]
  by_cases hshort : bytes.length < trailerLen sampleType
  · exact ⟨_, if_pos hshort⟩
  · rw [if_neg hshort]
    have hlen := trailerLen_eq sampleType
    generalize hasField sampleType sampleTid = tid at *
    generalize hasField sampleType sampleTime = time at *
    generalize hasField sampleType sampleId = id at *
    generalize hasField sampleType sampleStreamId = streamId at *
    generalize hasField sampleType sampleCpu = cpu at *
    generalize trailerLen sampleType = n at *
    -- each field that is there moves the ones behind it by eight bytes
    cases tid <;> cases time <;> cases id <;> cases streamId <;> cases cpu <;>
      simp only [if_true, Bool.false_eq_true, if_false] at hlen ⊢ <;>
      simp (disch := omega) only [u32At, u64At, numAt_num, ok_bind, pure_bind] <;>
      exact ⟨_, rfl⟩

theorem only_parseTrailer (bytes : List UInt8) (sampleType : Nat) :
    Only (fun _ => True) (parseTrailer bytes sampleType) := by
  obtain ⟨tr, htr⟩ := parseTrailer_returns bytes sampleType
  rw [htr]
  exact trivial

/-! ## Records -/

/-- The file has room for what is read of a record at `pos`. The fields of
most types are read from the file and may reach past the record; those of a
loss and of a command name are read from the record itself. -/
def Room (file : List UInt8) (sampleType pos ty size : Nat) : Prop :=
  match ty with
  | 2 => 24 ≤ size
  | 3 => 16 + trailerLen sampleType ≤ size
  | 4 | 7 => pos + 32 ≤ file.length
  | 10 => pos + 68 ≤ file.length ∧ trailerLen sampleType ≤ pos + size
  | 12 => pos + 16 ≤ file.length
  | 70 => pos + 12 ≤ file.length
  | 71 => pos + 44 ≤ file.length
  | _ => True

instance (file : List UInt8) (sampleType pos ty size : Nat) :
    Decidable (Room file sampleType pos ty size) := by
  unfold Room
  split <;> infer_instance

section Records

variable {file : List UInt8} {sampleType pos ty misc size : Nat} {out : PerfData}

theorem returns_readInfo (h : pos + 144 ≤ file.length) : Returns (readInfo file pos) := by
  simp only [readInfo, u64At]
  simp (disch := omega) only [numAt_num, ok_bind]
  exact returns_pure _

/-- A record is read, or its fields leave the file. -/
theorem returns_readRecord (hsize : 8 ≤ size) (hin : pos + size ≤ file.length) :
    Returns (readRecord file sampleType pos ty misc size out) ↔
      Room file sampleType pos ty size := by
  have hbytes : slice file pos (pos + size) = .ok ((file.take (pos + size)).drop pos) :=
    slice_ok_iff.mpr ⟨⟨Nat.le_add_right pos size, hin⟩, rfl⟩
  have hlen : ((file.take (pos + size)).drop pos).length = size := by
    rw [List.length_drop, List.length_take]
    omega
  generalize (file.take (pos + size)).drop pos = bytes at hbytes hlen
  have hbody : slice bytes 8 bytes.length = .ok (bytes.drop 8) := by
    refine slice_ok_iff.mpr ⟨⟨by omega, Nat.le_refl _⟩, ?_⟩
    rw [List.take_length]
  have hbodyLen : (bytes.drop 8).length = size - 8 := by
    rw [List.length_drop, hlen]
  generalize bytes.drop 8 = body at hbody hbodyLen
  obtain ⟨tr, htr⟩ := parseTrailer_returns bytes sampleType
  rw [readRecord, hbytes, ok_bind, hbody, ok_bind, htr, ok_bind]
  unfold Room
  split
  case h_1 =>
    simp only [u64At, returns_numAt_bind, returns_pure, and_true]
    omega
  case h_2 =>
    simp only [u32At, returns_numAt_bind, returns_slice_bind, returns_pure, and_true]
    omega
  case h_3 | h_4 =>
    simp only [u32At, u64At, returns_numAt_bind, returns_pure, and_true]
    omega
  case h_5 =>
    simp only [u32At, u64At, returns_numAt_bind, returns_subUsize_bind, returns_ite,
      returns_slice_bind, returns_pure, pure_bind, and_true, implies_true]
    omega
  case h_6 =>
    simp only [u32At, returns_numAt_bind, returns_pure, and_true]
    omega
  case h_7 | h_8 => simp only [returns_pure]
  case h_9 =>
    simp only [u32At, returns_numAt_bind, returns_ite, returns_bind (x := readInfo file pos), returns_pure, implies_true, and_true]
    constructor
    · exact fun h => h.1
    · intro h
      refine ⟨h, fun hinfo => returns_readInfo ?_⟩
      omega
  case h_10 =>
    simp only [u32At, u64At, returns_numAt_bind, returns_pure, and_true]
    omega
  case h_11 =>
    simp only [returns_pure]

theorem only_readInfo : Only (fun _ => True) (readInfo file pos) := by
  simp only [readInfo]
  iterate 16 refine only_bind only_numAt fun _ _ => ?_
  exact only_pure trivial

/-- Only the data of an AUX record follows its record. -/
theorem readRecord_extra (hty : ty ≠ 71) :
    Only (fun r => r.2 = 0) (readRecord file sampleType pos ty misc size out) := by
  rw [readRecord]
  refine only_bind only_slice fun bytes _ => only_bind only_slice fun body _ => ?_
  refine only_bind (only_parseTrailer bytes sampleType) fun tr _ => ?_
  split
  case h_1 => exact only_bind only_numAt fun _ _ => only_pure rfl
  case h_2 =>
    exact only_bind only_numAt fun _ _ => only_bind only_numAt fun _ _ =>
      only_bind only_slice fun _ _ => only_pure rfl
  case h_3 | h_4 =>
    iterate 5 refine only_bind only_numAt fun _ _ => ?_
    exact only_pure rfl
  case h_5 =>
    iterate 6 refine only_bind only_numAt fun _ _ => ?_
    refine only_bind only_subUsize fun _ _ => only_ite ?_ ?_
    · exact only_bind only_slice fun _ _ => only_pure rfl
    · exact only_pure rfl
  case h_6 => exact only_bind only_numAt fun _ _ => only_bind only_numAt fun _ _ => only_pure rfl
  case h_7 | h_8 => exact only_pure rfl
  case h_9 =>
    refine only_bind only_numAt fun _ _ => only_ite ?_ ?_
    · exact only_bind only_readInfo fun _ _ => only_pure rfl
    · exact only_pure rfl
  case h_10 => exact absurd rfl hty
  case h_11 => exact only_pure rfl

theorem readRecord_extra_aux :
    Only (fun r => r.2 = num 8 file (pos + 8))
      (readRecord file sampleType pos 71 misc size out) := by
  rw [readRecord]
  refine only_bind only_slice fun bytes _ => only_bind only_slice fun body _ => ?_
  refine only_bind (only_parseTrailer bytes sampleType) fun tr _ => ?_
  refine only_bind only_numAt fun auxSize haux => ?_
  exact only_bind only_numAt fun _ _ => only_bind only_numAt fun _ _ => only_pure haux

end Records

end TraceMcp.Capture
