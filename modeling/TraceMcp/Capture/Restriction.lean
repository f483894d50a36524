import Mathlib.Algebra.Order.BigOperators.Group.List
import Mathlib.Data.List.Flatten
import TraceMcp.Capture.RoundTrip
import TraceMcp.Capture.Untrusted

/-!
# Splitting a file by CPU

The data section of a well-formed file is one record after the other, each
with the fields of its type and an AUX record with its data behind it. A
`Piece` is such a record as its bytes, so that it can stand anywhere, and the
three record loops are said once for a piece at a position (`Piece.Reads`):
`read_perf_data` applies what the record means, `auxtrace_blobs` lists its
blob and `split_by_cpus` copies it or does not.

What `split_by_cpus` writes is then again a file of pieces, those that stay,
behind the old header with a new data size; and what the loops read of it
follows piece by piece.
-/

namespace TraceMcp.Capture

open TraceMcp.Lib TraceMcp.Decode

/-! ## Pieces -/

/-- A record of this type and size holds the fields that are read of it. -/
def Filled (sampleType ty size : Nat) : Prop :=
  match ty with
  | 2 => 24 ≤ size
  | 3 => 16 + trailerLen sampleType ≤ size
  | 4 | 7 => 32 ≤ size
  | 10 => 68 ≤ size ∧ trailerLen sampleType ≤ size
  | 12 => 16 ≤ size
  | 14 | 15 => True
  | 70 => 12 ≤ size
  | 71 => 48 ≤ size
  | _ => True

/-- Each type on its own. -/
theorem filled_iff {sampleType ty size : Nat} : Filled sampleType ty size ↔
    (ty = 2 → 24 ≤ size) ∧ (ty = 3 → 16 + trailerLen sampleType ≤ size) ∧
      (ty = 4 ∨ ty = 7 → 32 ≤ size) ∧ (ty = 10 → 68 ≤ size ∧ trailerLen sampleType ≤ size) ∧
        (ty = 12 → 16 ≤ size) ∧ (ty = 70 → 12 ≤ size) ∧ (ty = 71 → 48 ≤ size) := by
  unfold Filled
  split <;> grind

instance (sampleType ty size : Nat) : Decidable (Filled sampleType ty size) :=
  decidable_of_iff' _ filled_iff

/-- What a record other than an AUX record adds to the data. -/
inductive Effect
  | side (s : Sideband)
  | info (i : IntelPtInfo)
  | nothing

def Effect.apply : Effect → PerfData → PerfData
  | .side s, out => out.pushSideband s
  | .info i, out => { out with info := i }
  | .nothing, out => out

/-- A record with its bytes; an AUX record with its data and where that came
from. -/
inductive Piece
  | plain (bytes : List UInt8) (effect : Effect)
  | aux (bytes payload : List UInt8) (cpu tid : Nat)

namespace Piece

def whole : Piece → List UInt8
  | plain bytes _ => bytes
  | aux bytes payload _ _ => bytes ++ payload

def apply : Piece → PerfData → PerfData
  | plain _ effect, out => effect.apply out
  | aux .., out => out

/-- Its blob, when it stands at `pos`. -/
def blobs (pos : Nat) : Piece → List AuxBlob
  | plain .. => []
  | aux bytes payload cpu tid => [⟨cpu, tid, payload.length, pos + bytes.length⟩]

/-- It stays when these CPUs do. -/
def stays (cpus : List Nat) : Piece → Bool
  | plain .. => true
  | aux _ _ cpu _ => cpu ∈ cpus

/-- What the loops do with the piece, wherever it stands. -/
structure Reads (sampleType : Nat) (p : Piece) : Prop where
  read : ∀ {file stop pos out}, Holds file pos p.whole → pos + p.whole.length ≤ stop →
    stop ≤ file.length → file.length ≤ seekMax →
    readRecords file sampleType stop pos out =
      readRecords file sampleType stop (pos + p.whole.length)
        { p.apply out with blobs := out.blobs ++ p.blobs pos }
  list : ∀ {file stop pos out}, Holds file pos p.whole → pos + p.whole.length ≤ stop →
    stop ≤ file.length → file.length ≤ seekMax →
    auxtraceRecords file stop pos out =
      auxtraceRecords file stop (pos + p.whole.length) (out ++ p.blobs pos)
  split : ∀ {file cpus stop pos out}, Holds file pos p.whole → pos + p.whole.length ≤ stop →
    stop ≤ file.length → file.length ≤ seekMax →
    splitRecords file cpus stop pos out =
      splitRecords file cpus stop (pos + p.whole.length)
        (out ++ if p.stays cpus then p.whole else [])

end Piece

/-! ## Records as pieces -/

/-- The bytes are a record with what its type needs, and `payload` is what
follows it. -/
structure Record (sampleType : Nat) (bytes payload : List UInt8) : Prop where
  header : 8 ≤ bytes.length
  size : sizeAt bytes 0 = bytes.length
  extra : extraAt bytes 0 = payload.length
  filled : Filled sampleType (typeAt bytes 0) bytes.length

section Records

variable {file bytes payload : List UInt8} {sampleType pos k width : Nat}

/-- A number of a part is read wherever the part stands. -/
theorem num_of_holds (h : Holds file pos bytes) (hk : k + width ≤ bytes.length) :
    num width file (pos + k) = num width bytes k := by
  obtain ⟨rest, hrest⟩ := h.2
  rw [num, num, ← List.drop_drop, ← hrest, List.drop_append_of_le_length (by omega),
    List.take_append_of_le_length (by
      rw [List.length_drop]
      omega)]

theorem numAt_part (h : Holds file pos bytes) (hk : k + width ≤ bytes.length) :
    numAt width file (pos + k) = .ok (num width bytes k) := by
  have hlen := h.length_le
  rw [numAt_num (by omega), num_of_holds h hk]

theorem slice_part {a b : Nat} (h : Holds file pos bytes) (hab : a ≤ b) (hb : b ≤ bytes.length) :
    slice file (pos + a) (pos + b) = .ok ((bytes.take b).drop a) := by
  have hlen := h.length_le
  obtain ⟨rest, hrest⟩ := h.2
  refine slice_ok_iff.mpr ⟨⟨by omega, by omega⟩, ?_⟩
  rw [← List.drop_drop, List.drop_take, Nat.add_sub_cancel_left, ← hrest,
    List.take_append_of_le_length hb]

theorem holds_self (bytes : List UInt8) : Holds bytes 0 bytes := ⟨Nat.zero_le _, List.prefix_rfl⟩

theorem readInfo_part (h : Holds file pos bytes) (hlen : 144 ≤ bytes.length) :
    readInfo file pos = readInfo bytes 0 := by
  simp (disch := omega) only [readInfo, u64At, Nat.add_assoc, numAt_part h,
    numAt_part (holds_self bytes), ok_bind]

/-- What a record other than an AUX record means is in its bytes. -/
theorem readRecord_effect (h : Record sampleType bytes payload) (hty : typeAt bytes 0 ≠ 71) :
    ∃ effect : Effect, ∀ file pos out, Holds file pos bytes →
      readRecord file sampleType pos (typeAt bytes 0) (miscAt bytes 0) bytes.length out =
        .ok (effect.apply out, 0) := by
  obtain ⟨hheader, -, -, hfilled⟩ := h
  obtain ⟨tr, htr⟩ := parseTrailer_returns bytes sampleType
  have hbody : slice bytes 8 bytes.length = .ok (bytes.drop 8) := by
    refine slice_ok_iff.mpr ⟨⟨hheader, Nat.le_refl _⟩, ?_⟩
    rw [List.take_length]
  have hbodyLen : (bytes.drop 8).length = bytes.length - 8 := List.length_drop
  generalize typeAt bytes 0 = ty at *
  unfold Filled at hfilled
  split at hfilled
  case h_1 =>
    refine ⟨.side (.lost tr.time tr.cpu (num 8 (bytes.drop 8) 8)), fun file pos out hat => ?_⟩
    rw [readRecord, slice_of_holds hat, ok_bind, hbody, ok_bind, htr, ok_bind, u64At,
      numAt_num (by omega), ok_bind]
    rfl
  case h_2 =>
    obtain ⟨comm, hcomm⟩ : ∃ comm, slice (bytes.drop 8) 8
        ((bytes.drop 8).length - trailerLen sampleType) = .ok comm :=
      ⟨_, slice_ok_iff.mpr ⟨⟨by omega, Nat.sub_le _ _⟩, rfl⟩⟩
    refine ⟨.side (.comm (num 4 bytes 8) (num 4 bytes 12) tr.time (readName comm)
      (miscAt bytes 0 &&& miscBit13 ≠ 0)), fun file pos out hat => ?_⟩
    rw [readRecord, slice_of_holds hat, ok_bind, hbody, ok_bind, htr, ok_bind, u32At,
      numAt_part hat (by omega), ok_bind, numAt_part hat (by omega), ok_bind, hcomm, ok_bind]
    rfl
  case h_3 =>
    refine ⟨.side (.exit (num 4 bytes 8) (num 4 bytes 12) (num 4 bytes 16) (num 4 bytes 20)
      (num 8 bytes 24)), fun file pos out hat => ?_⟩
    rw [readRecord, slice_of_holds hat, ok_bind, hbody, ok_bind, htr, ok_bind, u32At, u64At]
    simp (disch := omega) only [numAt_part hat, ok_bind]
    rfl
  case h_4 =>
    refine ⟨.side (.fork (num 4 bytes 8) (num 4 bytes 12) (num 4 bytes 16) (num 4 bytes 20)
      (num 8 bytes 24)), fun file pos out hat => ?_⟩
    rw [readRecord, slice_of_holds hat, ok_bind, hbody, ok_bind, htr, ok_bind, u32At, u64At]
    simp (disch := omega) only [numAt_part hat, ok_bind]
    rfl
  case h_5 =>
    refine ⟨.side (.mmap (num 4 bytes 8) (num 4 bytes 12) tr.time (num 8 bytes 16) (num 8 bytes 24)
      (num 8 bytes 32) (num 4 bytes 64 &&& 4 ≠ 0) (readName
        (if 72 < bytes.length - trailerLen sampleType then
          (bytes.take (bytes.length - trailerLen sampleType)).drop 72
        else []))), fun file pos out hat => ?_⟩
    have hend : subUsize (pos + bytes.length) (trailerLen sampleType) =
        .ok (pos + (bytes.length - trailerLen sampleType)) := by
      rw [subUsize, if_pos (by omega)]
      congr 1
      omega
    rw [readRecord, slice_of_holds hat, ok_bind, hbody, ok_bind, htr, ok_bind, u32At, u64At]
    simp (disch := omega) only [numAt_part hat, ok_bind]
    rw [hend, ok_bind]
    by_cases hname : 72 < bytes.length - trailerLen sampleType
    · rw [if_pos (by omega), slice_part hat (by omega) (by omega), ok_bind, if_pos hname]
      rfl
    · rw [if_neg (by omega), if_neg hname]
      rfl
  case h_6 =>
    refine ⟨.side (.itraceStart (num 4 bytes 8) (num 4 bytes 12) tr.cpu tr.time),
      fun file pos out hat => ?_⟩
    rw [readRecord, slice_of_holds hat, ok_bind, hbody, ok_bind, htr, ok_bind, u32At]
    simp (disch := omega) only [numAt_part hat, ok_bind]
    rfl
  case h_7 | h_8 =>
    refine ⟨.side (.switch tr.pid tr.tid tr.cpu tr.time (miscAt bytes 0 &&& miscBit13 ≠ 0)),
      fun file pos out hat => ?_⟩
    rw [readRecord, slice_of_holds hat, ok_bind, hbody, ok_bind, htr, ok_bind]
    rfl
  case h_9 =>
    by_cases hinfo : num 4 bytes 8 = 1 ∧ 8 + 8 + 17 * 8 ≤ bytes.length
    · obtain ⟨info, hread, -⟩ := only_readInfo.value
        (returns_readInfo (show 0 + 144 ≤ bytes.length by omega))
      refine ⟨.info info, fun file pos out hat => ?_⟩
      rw [readRecord, slice_of_holds hat, ok_bind, hbody, ok_bind, htr, ok_bind]
      show (u32At file (pos + 8) >>= _) = _
      rw [u32At, numAt_part hat (by omega), ok_bind, if_pos hinfo, readInfo_part hat (by omega),
        hread, ok_bind]
      rfl
    · refine ⟨.nothing, fun file pos out hat => ?_⟩
      rw [readRecord, slice_of_holds hat, ok_bind, hbody, ok_bind, htr, ok_bind]
      show (u32At file (pos + 8) >>= _) = _
      rw [u32At, numAt_part hat (by omega), ok_bind, if_neg hinfo]
      rfl
  case h_10 => exact absurd rfl hty
  case h_11 h2 h3 h4 h7 h10 h12 h14 h15 h70 h71 =>
    refine ⟨.nothing, fun file pos out hat => ?_⟩
    rw [readRecord, slice_of_holds hat, ok_bind, hbody, ok_bind, htr, ok_bind]
    -- every other type is one of those above
    split
    case h_1 => exact absurd rfl h2
    case h_2 => exact absurd rfl h3
    case h_3 => exact absurd rfl h4
    case h_4 => exact absurd rfl h7
    case h_5 => exact absurd rfl h10
    case h_6 => exact absurd rfl h12
    case h_7 => exact absurd rfl h14
    case h_8 => exact absurd rfl h15
    case h_9 => exact absurd rfl h70
    case h_10 => exact absurd rfl h71
    case h_11 => rfl

theorem typeAt_part (h : Holds file pos bytes) (hlen : 8 ≤ bytes.length) :
    typeAt file pos = typeAt bytes 0 := num_of_holds (k := 0) h (by omega)

theorem sizeAt_part (h : Holds file pos bytes) (hlen : 8 ≤ bytes.length) :
    sizeAt file pos = sizeAt bytes 0 := by
  rw [sizeAt, num_of_holds h (by omega), sizeAt, Nat.zero_add]

theorem miscAt_part (h : Holds file pos bytes) (hlen : 8 ≤ bytes.length) :
    miscAt file pos = miscAt bytes 0 := by
  rw [miscAt, num_of_holds h (by omega), miscAt, Nat.zero_add]

/-- A record stands at the position of a piece. -/
theorem Record.isRecord (stop : Nat) (h : Record sampleType bytes payload)
    (hat : Holds file pos bytes) (hstop : pos + bytes.length ≤ stop) : IsRecord file stop pos := by
  have hheader := h.header
  rw [IsRecord, sizeAt_part hat hheader, h.size]
  omega

/-- A record other than an AUX record is a piece. -/
theorem Record.plain_reads (h : Record sampleType bytes []) (hty : typeAt bytes 0 ≠ 71) :
    ∃ effect, (Piece.plain bytes effect).Reads sampleType := by
  obtain ⟨effect, heffect⟩ := readRecord_effect h hty
  have hheader := h.header
  refine ⟨effect, ⟨?_, ?_, ?_⟩⟩
  · intro file stop pos out hat hin hstop hmax
    replace hat : Holds file pos bytes := hat
    replace hin : pos + bytes.length ≤ stop := hin
    have hover : stop + 8 ≤ usizeMax := by
      unfold seekMax at hmax
      unfold usizeMax
      omega
    rw [readRecords, if_neg (by omega), dif_pos (by omega), u32At_type (by omega), ok_bind,
      u16At_misc (by omega), ok_bind, u16At_size (by omega), ok_bind, typeAt_part hat hheader,
      miscAt_part hat hheader, sizeAt_part hat hheader, h.size, dif_neg (by omega),
      heffect file pos out hat, ok_bind]
    dsimp only
    have hout : { effect.apply out with blobs := out.blobs ++ [] } = effect.apply out := by
      cases effect <;> simp [Effect.apply, PerfData.pushSideband]
    rw [if_neg (by omega), Nat.add_zero]
    exact congrArg (readRecords file sampleType stop _) hout.symm
  · intro file stop pos out hat hin hstop hmax
    replace hat : Holds file pos bytes := hat
    replace hin : pos + bytes.length ≤ stop := hin
    have hover : stop + 8 ≤ usizeMax := by
      unfold seekMax at hmax
      unfold usizeMax
      omega
    rw [auxtraceRecords, dif_neg (by omega), if_pos (by omega), if_neg (by omega),
      if_neg (by omega), u32At_type (by omega), ok_bind, u16At_size (by omega), ok_bind,
      typeAt_part hat hheader, sizeAt_part hat hheader, h.size, dif_neg (by omega),
      dif_neg (by omega), if_neg hty]
    exact congrArg (auxtraceRecords file stop _) (List.append_nil out).symm
  · intro file cpus stop pos out hat hin hstop hmax
    replace hat : Holds file pos bytes := hat
    have hrec := h.isRecord _ hat hin
    have hty' : typeAt file pos ≠ 71 := by
      rwa [typeAt_part hat hheader]
    have hnext : splitNext file stop pos = some (pos + bytes.length) := by
      rw [splitNext, if_pos hrec, if_neg hty', sizeAt_part hat hheader, h.size]
    have hkept : keptBytes file cpus stop pos = bytes := by
      rw [keptBytes, keptAt, hnext]
      dsimp only
      rw [if_neg fun hand => hty' hand.1, Nat.add_sub_cancel_left]
      exact hat.take_drop
    have hfits : SplitFits file stop pos := fun _ hand => absurd hand hty'
    rw [splitRecords_round hstop, if_pos hfits, hnext, hkept]
    rfl

/-- An AUX record with its data is a piece. -/
theorem Record.aux_reads (h : Record sampleType bytes payload) (hty : typeAt bytes 0 = 71) :
    (Piece.aux bytes payload (cpuAt bytes 0) (num 4 bytes 36)).Reads sampleType := by
  have hheader := h.header
  have hfilled := h.filled
  rw [hty] at hfilled
  replace hfilled : 48 ≤ bytes.length := hfilled
  have hextra := h.extra
  rw [extraAt, if_pos hty] at hextra
  have hcpu : ∀ {file pos}, Holds file pos bytes → cpuAt file pos = cpuAt bytes 0 := by
    intro file pos hat
    rw [cpuAt, num_of_holds hat (by omega), cpuAt, Nat.zero_add]
  have hauxSize : ∀ {file pos}, Holds file pos bytes → auxSizeAt file pos = payload.length := by
    intro file pos hat
    rw [auxSizeAt, num_of_holds hat (by omega), ← hextra, auxSizeAt, Nat.zero_add]
  have htid : ∀ {file pos}, Holds file pos bytes →
      u32At file (pos + 36) = .ok (num 4 bytes 36) := fun hat => numAt_part hat (by omega)
  refine ⟨?_, ?_, ?_⟩
  · -- the reader steps over the record and its data, and notes the blob
    intro file stop pos out hwhole hin hstop hmax
    have hat : Holds file pos bytes := Holds.left hwhole
    replace hin : pos + (bytes ++ payload).length ≤ stop := hin
    rw [List.length_append] at hin
    have hover : stop + 8 ≤ usizeMax := by
      unfold seekMax at hmax
      unfold usizeMax
      omega
    have hread : readRecord file sampleType pos 71 (miscAt bytes 0) bytes.length out =
        .ok ({ out with blobs := out.blobs ++
          [⟨cpuAt bytes 0, num 4 bytes 36, payload.length, pos + bytes.length⟩] },
          payload.length) := by
      obtain ⟨tr, htr⟩ := parseTrailer_returns bytes sampleType
      have hbody : slice bytes 8 bytes.length = .ok (bytes.drop 8) := by
        refine slice_ok_iff.mpr ⟨⟨hheader, Nat.le_refl _⟩, ?_⟩
        rw [List.take_length]
      rw [readRecord, slice_of_holds hat, ok_bind, hbody, ok_bind, htr, ok_bind]
      show (u64At file (pos + 8) >>= _) = _
      rw [u64At_auxSize (by omega), ok_bind, u32At_cpu (by omega), ok_bind, htid hat, ok_bind,
        hcpu hat, hauxSize hat]
      rfl
    rw [readRecords, if_neg (by omega), dif_pos (by omega), u32At_type (by omega), ok_bind,
      u16At_misc (by omega), ok_bind, u16At_size (by omega), ok_bind, typeAt_part hat hheader,
      miscAt_part hat hheader, sizeAt_part hat hheader, h.size, dif_neg (by omega), hty, hread,
      ok_bind]
    dsimp only
    rw [if_neg (by omega), Nat.add_right_comm, Nat.add_assoc, ← List.length_append]
    rfl
  · -- the search for the AUXTRACE records steps over both as well
    intro file stop pos out hwhole hin hstop hmax
    have hat : Holds file pos bytes := Holds.left hwhole
    replace hin : pos + (bytes ++ payload).length ≤ stop := hin
    rw [List.length_append] at hin
    have hover : stop + 8 ≤ usizeMax := by
      unfold seekMax at hmax
      unfold usizeMax
      omega
    have hnext : satAdd (pos + bytes.length) payload.length =
        pos + (bytes ++ payload).length := by
      unfold satAdd wordSize
      unfold usizeMax at hover
      rw [List.length_append]
      omega
    rw [auxtraceRecords, dif_neg (by omega), if_pos (by omega), if_neg (by omega),
      if_neg (by omega), u32At_type (by omega), ok_bind, u16At_size (by omega), ok_bind,
      typeAt_part hat hheader, sizeAt_part hat hheader, h.size, dif_neg (by omega),
      dif_neg (by omega), if_pos hty, if_neg (by omega), u64At_auxSize (by omega), ok_bind,
      u32At_cpu (by omega), ok_bind, htid hat, ok_bind, hcpu hat, hauxSize hat, hnext]
    rfl
  · -- the split copies both, or neither
    intro file cpus stop pos out hwhole hin hstop hmax
    have hat : Holds file pos bytes := Holds.left hwhole
    replace hin : pos + (bytes ++ payload).length ≤ stop := hin
    rw [List.length_append] at hin
    have hover : stop + 8 ≤ usizeMax := by
      unfold seekMax at hmax
      unfold usizeMax
      omega
    have hrec := h.isRecord stop hat (by omega)
    have hty' : typeAt file pos = 71 := by
      rwa [typeAt_part hat hheader]
    have hfits : SplitFits file stop pos := by
      intro _ _
      rw [sizeAt_part hat hheader, h.size, hauxSize hat]
      omega
    have hnext : splitNext file stop pos = some (pos + (bytes ++ payload).length) := by
      rw [splitNext, if_pos hrec, if_pos hty', sizeAt_part hat hheader, h.size, hauxSize hat,
        if_pos (by omega), List.length_append]
    have hkept : keptBytes file cpus stop pos =
        if cpuAt bytes 0 ∈ cpus then bytes ++ payload else [] := by
      rw [keptBytes, keptAt, hnext]
      dsimp only
      rw [hcpu hat, Nat.add_sub_cancel_left]
      by_cases hmem : cpuAt bytes 0 ∈ cpus
      · rw [if_neg fun hand => hand.2 hmem, if_pos hmem]
        exact hwhole.take_drop
      · rw [if_pos ⟨hty', hmem⟩, if_neg hmem, List.take_zero]
    rw [splitRecords_round hstop, if_pos hfits, hnext, hkept]
    simp [Piece.stays, Piece.whole]

end Records

/-! ## Files of pieces -/

/-- Records tile the section from `pos` on, each with what its type needs and
an AUX record with its data. -/
inductive Tiled (file : List UInt8) (sampleType stop : Nat) : Nat → Prop
  | done : Tiled file sampleType stop stop
  | record {pos : Nat} (hsize : 8 ≤ sizeAt file pos)
      (hfilled : Filled sampleType (typeAt file pos) (sizeAt file pos))
      (hin : pos + sizeAt file pos + extraAt file pos ≤ stop)
      (rest : Tiled file sampleType stop (pos + sizeAt file pos + extraAt file pos)) :
      Tiled file sampleType stop pos

section Pieces

variable {file : List UInt8} {sampleType stop pos : Nat}

/-- A tiled section is pieces one after the other. -/
theorem Tiled.pieces (h : Tiled file sampleType stop pos) (hstop : stop ≤ file.length) :
    ∃ ps : List Piece, (∀ p ∈ ps, p.Reads sampleType) ∧ Holds file pos (ps.flatMap Piece.whole) ∧
      pos + (ps.flatMap Piece.whole).length = stop := by
  induction h with
  | done => exact ⟨[], fun p hp => absurd hp List.not_mem_nil, ⟨hstop, List.nil_prefix⟩, rfl⟩
  | @record pos hsize hfilled hin rest ih =>
    obtain ⟨ps, hreads, hat, hend⟩ := ih
    have hbytes := holds_take (show pos + sizeAt file pos ≤ file.length by omega)
    have hpayload := holds_take
      (show pos + sizeAt file pos + extraAt file pos ≤ file.length by omega)
    have hlen : ((file.drop pos).take (sizeAt file pos)).length = sizeAt file pos := by
      rw [List.length_take, List.length_drop]
      omega
    have hplen : ((file.drop (pos + sizeAt file pos)).take (extraAt file pos)).length =
        extraAt file pos := by
      rw [List.length_take, List.length_drop]
      omega
    generalize (file.drop pos).take (sizeAt file pos) = bytes at hbytes hlen
    generalize (file.drop (pos + sizeAt file pos)).take (extraAt file pos) = payload
      at hpayload hplen
    have htype := typeAt_part hbytes (by omega)
    have hsizeAt := sizeAt_part hbytes (by omega)
    rw [← hlen] at hpayload hat hend
    rw [htype, ← hlen] at hfilled
    have hextra : extraAt file pos = extraAt bytes 0 := by
      rw [extraAt, extraAt, htype]
      split
      next hty =>
        rw [hty] at hfilled
        replace hfilled : 48 ≤ bytes.length := hfilled
        rw [auxSizeAt, num_of_holds hbytes (by omega), auxSizeAt, Nat.zero_add]
      next => rfl
    have hrecord : Record sampleType bytes payload :=
      ⟨by omega, by omega, by rw [hplen, hextra], hfilled⟩
    have hwhole := (hbytes.append hpayload).append (show Holds file _ (ps.flatMap Piece.whole) by
      rw [List.length_append, hplen, ← Nat.add_assoc]
      exact hat)
    have hlength : pos + ((bytes ++ payload) ++ ps.flatMap Piece.whole).length = stop := by
      rw [List.length_append, List.length_append, hplen, ← Nat.add_assoc, ← Nat.add_assoc]
      exact hend
    by_cases hty : typeAt bytes 0 = 71
    · exact ⟨.aux bytes payload (cpuAt bytes 0) (num 4 bytes 36) :: ps,
        List.forall_mem_cons.mpr ⟨hrecord.aux_reads hty, hreads⟩, hwhole, hlength⟩
    · have hnil : payload = [] := by
        rw [hextra, extraAt, if_neg hty] at hplen
        exact List.length_eq_zero_iff.mp hplen
      subst hnil
      rw [List.append_nil] at hwhole hlength
      obtain ⟨effect, hplain⟩ := hrecord.plain_reads hty
      exact ⟨.plain bytes effect :: ps, List.forall_mem_cons.mpr ⟨hplain, hreads⟩, hwhole, hlength⟩

/-- Everything but the blobs. -/
def applied (ps : List Piece) (out : PerfData) : PerfData := ps.foldl (fun out p => p.apply out) out

/-- The blobs of pieces that stand from `pos` on. -/
def blobsFrom : Nat → List Piece → List AuxBlob
  | _, [] => []
  | pos, p :: ps => p.blobs pos ++ blobsFrom (pos + p.whole.length) ps

theorem Piece.apply_blobs (p : Piece) (out : PerfData) (blobs : List AuxBlob) :
    p.apply { out with blobs := blobs } = { p.apply out with blobs := blobs } := by
  cases p with
  | plain bytes effect => cases effect <;> rfl
  | aux => rfl

theorem applied_blobs (ps : List Piece) (out : PerfData) (blobs : List AuxBlob) :
    applied ps { out with blobs := blobs } = { applied ps out with blobs := blobs } := by
  induction ps generalizing out with
  | nil => rfl
  | cons p ps ih =>
    show applied ps (p.apply _) = { applied ps (p.apply out) with blobs := blobs }
    rw [p.apply_blobs, ih]

variable {ps : List Piece}

/-- The loop of `read_perf_data` over pieces. -/
theorem readRecords_pieces (hreads : ∀ p ∈ ps, p.Reads sampleType)
    (hat : Holds file pos (ps.flatMap Piece.whole))
    (hend : pos + (ps.flatMap Piece.whole).length = stop) (hstop : stop ≤ file.length)
    (hmax : file.length ≤ seekMax) (out : PerfData) :
    readRecords file sampleType stop pos out =
      .ok { applied ps out with blobs := out.blobs ++ blobsFrom pos ps } := by
  induction ps generalizing pos out with
  | nil =>
    replace hend : pos = stop := hend
    subst hend
    have hover : pos + 8 ≤ usizeMax := by
      unfold seekMax at hmax
      unfold usizeMax
      omega
    rw [readRecords, if_neg (by omega), dif_neg (by omega), blobsFrom, List.append_nil]
    rfl
  | cons p ps ih =>
    obtain ⟨hp, hps⟩ := List.forall_mem_cons.mp hreads
    rw [List.flatMap_cons] at hat hend
    rw [List.length_append] at hend
    rw [hp.read hat.left (by omega) hstop hmax, ih hps hat.right (by omega), applied_blobs, blobsFrom,
      List.append_assoc]
    rfl

/-- The loop of `auxtrace_blobs` over pieces. -/
theorem auxtraceRecords_pieces (hreads : ∀ p ∈ ps, p.Reads sampleType)
    (hat : Holds file pos (ps.flatMap Piece.whole))
    (hend : pos + (ps.flatMap Piece.whole).length = stop) (hstop : stop ≤ file.length)
    (hmax : file.length ≤ seekMax) (out : List AuxBlob) :
    auxtraceRecords file stop pos out = .ok (out ++ blobsFrom pos ps) := by
  induction ps generalizing pos out with
  | nil =>
    replace hend : pos = stop := hend
    subst hend
    have hover : pos + 8 ≤ usizeMax := by
      unfold seekMax at hmax
      unfold usizeMax
      omega
    rw [auxtraceRecords, dif_neg (by omega), if_neg (by omega), blobsFrom, List.append_nil]
    rfl
  | cons p ps ih =>
    obtain ⟨hp, hps⟩ := List.forall_mem_cons.mp hreads
    rw [List.flatMap_cons] at hat hend
    rw [List.length_append] at hend
    rw [hp.list hat.left (by omega) hstop hmax, ih hps hat.right (by omega), blobsFrom,
      List.append_assoc]

/-- The loop of `split_by_cpus` over pieces. -/
theorem splitRecords_pieces (hreads : ∀ p ∈ ps, p.Reads sampleType)
    (hat : Holds file pos (ps.flatMap Piece.whole))
    (hend : pos + (ps.flatMap Piece.whole).length = stop) (hstop : stop ≤ file.length)
    (hmax : file.length ≤ seekMax) (cpus : List Nat) (out : List UInt8) :
    splitRecords file cpus stop pos out =
      .ok (out ++ (ps.filter (Piece.stays cpus)).flatMap Piece.whole) := by
  induction ps generalizing pos out with
  | nil =>
    replace hend : pos = stop := hend
    subst hend
    rw [splitRecords, dif_neg (by omega), List.filter_nil, List.flatMap_nil, List.append_nil]
    rfl
  | cons p ps ih =>
    obtain ⟨hp, hps⟩ := List.forall_mem_cons.mp hreads
    rw [List.flatMap_cons] at hat hend
    rw [List.length_append] at hend
    rw [hp.split hat.left (by omega) hstop hmax, ih hps hat.right (by omega), List.append_assoc,
      List.filter_cons]
    split
    · rw [List.flatMap_cons]
    · rw [List.nil_append]

/-- What goes adds nothing but its blob. -/
theorem applied_stays (cpus : List Nat) (ps : List Piece) (out : PerfData) :
    applied (ps.filter (Piece.stays cpus)) out = applied ps out := by
  induction ps generalizing out with
  | nil => rfl
  | cons p ps ih =>
    rw [List.filter_cons]
    split
    · exact ih (p.apply out)
    next hgone =>
      rw [ih]
      cases p with
      | plain => exact absurd rfl hgone
      | aux => rfl

/-- A blob without its place: where it is from, and its bytes. -/
def content (file : List UInt8) (b : AuxBlob) : Nat × Nat × Nat × List UInt8 :=
  (b.cpu, b.tid, b.bytes, (file.drop b.fileOffset).take b.bytes)

def Piece.content : Piece → Option (Nat × Nat × Nat × List UInt8)
  | plain .. => none
  | aux _ payload cpu tid => some (cpu, tid, payload.length, payload)

theorem blobsFrom_content (hat : Holds file pos (ps.flatMap Piece.whole)) :
    (blobsFrom pos ps).map (content file) = ps.filterMap Piece.content := by
  induction ps generalizing pos with
  | nil => rfl
  | cons p ps ih =>
    rw [List.flatMap_cons] at hat
    rw [blobsFrom, List.map_append, ih hat.right, List.filterMap_cons]
    cases p with
    | plain => rfl
    | aux bytes payload cpu tid =>
      have hpayload : Holds file (pos + bytes.length) payload := hat.left.right
      have htake := hpayload.take_drop
      show content file _ :: _ = _
      rw [content, htake]
      rfl

theorem blobsFrom_inside (hat : Holds file pos (ps.flatMap Piece.whole)) :
    ∀ b ∈ blobsFrom pos ps, b.fileOffset + b.bytes ≤ file.length := by
  induction ps generalizing pos with
  | nil => exact fun b hb => absurd hb List.not_mem_nil
  | cons p ps ih =>
    rw [List.flatMap_cons] at hat
    intro b hb
    rcases List.mem_append.mp hb with hb | hb
    · cases p with
      | plain => exact absurd hb List.not_mem_nil
      | aux bytes payload cpu tid =>
        rw [List.mem_singleton.mp hb]
        exact (hat.left.right : Holds file (pos + bytes.length) payload).length_le
    · exact ih hat.right b hb

/-- The contents that stay are those of the CPUs that do. -/
theorem content_stays (cpus : List Nat) (ps : List Piece) :
    (ps.filter (Piece.stays cpus)).filterMap Piece.content =
      (ps.filterMap Piece.content).filter fun c => c.1 ∈ cpus := by
  induction ps with
  | nil => rfl
  | cons p ps ih =>
    cases p with
    | plain => exact ih
    | aux bytes payload cpu tid =>
      rw [List.filter_cons, List.filterMap_cons]
      by_cases hcpu : cpu ∈ cpus
      · have hstays : Piece.stays cpus (.aux bytes payload cpu tid) = true := decide_eq_true hcpu
        rw [if_pos hstays, List.filterMap_cons]
        show (cpu, _) :: _ = List.filter _ ((cpu, _) :: _)
        rw [List.filter_cons, if_pos (by exact decide_eq_true hcpu), ih]
      · have hstays : ¬ Piece.stays cpus (.aux bytes payload cpu tid) = true := by
          show ¬ decide (cpu ∈ cpus) = true
          rwa [decide_eq_true_iff]
        rw [if_neg hstays]
        show _ = List.filter _ ((cpu, _) :: _)
        rw [List.filter_cons, if_neg (by exact hstays), ih]

end Pieces

/-! ## The file that is written -/

/-- A well-formed file: the attribute section lies between the header and the
data section, records tile the data section, the features lie inside the file,
and the file with another copy of them could be one. -/
structure WellFormed (file : List UInt8) : Prop where
  headed : Headed file
  attrs : 104 ≤ attrsOff file ∧ 40 ≤ attrsSize file ∧
    attrsOff file + attrsSize file ≤ dataOff file
  tiled : Tiled file (sampleTypeAt file) (dataEnd file) (dataOff file)
  table : dataEnd file + featuresOf file * 16 ≤ file.length
  inside : ∀ i ∈ List.range (featuresOf file), FeatureInside file (dataEnd file) i
  fits : file.length +
    ((List.range (featuresOf file)).map (featureSize file (dataEnd file))).sum ≤ seekMax

/-- The features of a file, in the order of its table. -/
def features (file : List UInt8) : List (List UInt8) :=
  (List.range (featuresOf file)).map (featureBytes file (dataEnd file))

section Written

variable {raw : List UInt8} {n o width : Nat}

/-- The bytes with another data size in the header. -/
def patched (raw : List UInt8) (n : Nat) : List UInt8 := raw.take 48 ++ leBytes 8 n ++ raw.drop 56

theorem length_patched (h : 56 ≤ raw.length) : (patched raw n).length = raw.length := by
  rw [patched, List.length_append, List.length_append, List.length_take, length_leBytes,
    List.length_drop]
  omega

theorem patched_drop (h : 56 ≤ raw.length) (ho : 56 ≤ o) : (patched raw n).drop o = raw.drop o := by
  have hlen : (raw.take 48 ++ leBytes 8 n).length = 56 := by
    rw [List.length_append, List.length_take, length_leBytes]
    omega
  obtain ⟨k, rfl⟩ := Nat.exists_eq_add_of_le ho
  rw [← List.drop_drop, ← List.drop_drop, patched]
  congr 1
  rw [← hlen, List.drop_left]

theorem holds_patched {part : List UInt8} (h : Holds raw o part) (hraw : 56 ≤ raw.length)
    (ho : 56 ≤ o) : Holds (patched raw n) o part := by
  refine ⟨?_, ?_⟩
  · rw [length_patched hraw]
    exact h.1
  · rw [patched_drop hraw ho]
    exact h.2

theorem num_patched_front (h : 56 ≤ raw.length) (ho : o + width ≤ 48) :
    num width (patched raw n) o = num width raw o := by
  have hlen : (raw.take 48).length = 48 := by
    rw [List.length_take]
    omega
  have hraw : Holds raw 0 (raw.take 48) := ⟨Nat.zero_le _, List.take_prefix 48 raw⟩
  have hout : Holds (patched raw n) 0 (raw.take 48) := by
    refine ⟨Nat.zero_le _, ?_⟩
    rw [List.drop_zero, patched, List.append_assoc]
    exact List.prefix_append _ _
  have hraw' := num_of_holds hraw (show o + width ≤ _ by omega)
  have hout' := num_of_holds hout (show o + width ≤ _ by omega)
  rw [Nat.zero_add] at hraw' hout'
  rw [hout', hraw']

theorem num_patched_back (h : 56 ≤ raw.length) (ho : 56 ≤ o) :
    num width (patched raw n) o = num width raw o := by
  rw [num, patched_drop h ho, num]

theorem num_patched_size (h : 56 ≤ raw.length) (hn : n < 2 ^ 64) :
    num 8 (patched raw n) 48 = n := by
  have hat : Holds (patched raw n) 48 (leBytes 8 n) := by
    have happend := holds_append (raw.take 48) (leBytes 8 n) (raw.drop 56)
    rwa [List.length_take, Nat.min_eq_left (by omega)] at happend
  have hread := numAt_of_holds hat
  rw [Nat.mod_eq_of_lt (by omega)] at hread
  exact (numAt_ok_iff.mp hread).2

end Written

section Moved

variable {file out : List UInt8} {tableOff o next k i : Nat} {is : List Nat}

/-- The table that is written says where each feature goes. -/
theorem movedTable_read (h : Holds out o (movedTable file tableOff is next))
    (hfits : next + (is.map (featureSize file tableOff)).sum ≤ seekMax) (hi : is[k]? = some i) :
    featureOff out o k = next + ((is.take k).map (featureSize file tableOff)).sum ∧
      featureSize out o k = featureSize file tableOff i := by
  unfold seekMax at hfits
  induction is generalizing o next k with
  | nil => cases hi
  | cons j is ih =>
    rw [List.map_cons, List.sum_cons] at hfits
    rw [movedTable, List.append_assoc] at h
    cases k with
    | zero =>
      cases hi
      have hoff := numAt_of_holds h.left
      have hsize := numAt_of_holds h.right.left
      rw [length_leBytes] at hsize
      rw [Nat.mod_eq_of_lt (by omega)] at hoff
      have hlt : featureSize file tableOff i < 256 ^ 8 := num_lt 8 _
      rw [Nat.mod_eq_of_lt hlt] at hsize
      rw [featureOff, featureSize, Nat.zero_mul, Nat.add_zero]
      exact ⟨(numAt_ok_iff.mp hoff).2, (numAt_ok_iff.mp hsize).2⟩
    | succ k =>
      have hright := h.right.right
      rw [length_leBytes, length_leBytes, Nat.add_assoc] at hright
      have hrest := ih hright (by omega) hi
      have hplace : o + 16 + k * 16 = o + (k + 1) * 16 := by omega
      have hoff : featureOff out (o + 16) k = featureOff out o (k + 1) := by
        rw [featureOff, featureOff, hplace]
      have hsize : featureSize out (o + 16) k = featureSize out o (k + 1) := by
        rw [featureSize, featureSize, hplace]
      rw [List.take_succ_cons, List.map_cons, List.sum_cons, ← Nat.add_assoc, ← hoff, ← hsize]
      exact hrest

end Moved

section Split

variable {file : List UInt8} {cpus : List Nat}

/-- What is known of the file that is written, and of where its parts lie. -/
structure WrittenOf (file kept out : List UInt8) : Prop where
  length : out.length ≤ seekMax
  magic : out.take 8 = magic
  before : ∀ width o, o + width ≤ dataOff file → o + width ≤ 48 ∨ 56 ≤ o →
    num width out o = num width file o
  size : dataSize out = kept.length
  data : Holds out (dataOff file) kept
  table : Holds out (dataOff file + kept.length) (movedTable file (dataEnd file)
    (List.range (featuresOf file)) (dataOff file + kept.length + featuresOf file * 16))
  blobs : Holds out (dataOff file + kept.length + featuresOf file * 16)
    ((List.range (featuresOf file)).flatMap (featureBytes file (dataEnd file)))

/-- What is written before the data size is patched. -/
def rawOf (file kept : List UInt8) : List UInt8 :=
  file.take (dataOff file) ++ kept ++ movedTable file (dataEnd file) (List.range (featuresOf file))
    (dataOff file + kept.length + featuresOf file * 16) ++
    (List.range (featuresOf file)).flatMap (featureBytes file (dataEnd file))

namespace WellFormed

variable (h : WellFormed file)

include h

theorem length_ge : 104 ≤ file.length := by
  have hhead := h.headed
  unfold Headed at hhead
  omega

theorem length_le : file.length ≤ seekMax := by
  have hfits := h.fits
  omega

theorem dataOff_ge : 144 ≤ dataOff file := by
  obtain ⟨hattrs, hsize, hbefore⟩ := h.attrs
  omega

theorem dataEnd_le : dataEnd file ≤ file.length := by
  have htable := h.table
  omega

theorem length_front : (file.take (dataOff file)).length = dataOff file := by
  have hend := h.dataEnd_le
  unfold dataEnd at hend
  rw [List.length_take]
  omega

variable {kept : List UInt8}

theorem length_rawOf (kept : List UInt8) : (rawOf file kept).length =
    dataOff file + kept.length + featuresOf file * 16 +
      ((List.range (featuresOf file)).map (featureSize file (dataEnd file))).sum := by
  rw [rawOf, List.length_append, List.length_append, List.length_append, h.length_front,
    length_movedTable, List.length_range, length_featureBlobs h.inside]

/-- What is written is no longer than the file with another copy of its
features. -/
theorem length_rawOf_le (hkept : kept.length ≤ dataSize file) :
    (rawOf file kept).length ≤ seekMax := by
  have htable := h.table
  have hfits := h.fits
  have hlength := h.length_rawOf kept
  unfold dataEnd at *
  omega

theorem featuresFit (hkept : kept.length ≤ dataSize file) :
    FeaturesFit file (dataEnd file) (List.range (featuresOf file))
      (dataOff file + kept.length + featuresOf file * 16) := by
  have hlength := h.length_rawOf_le hkept
  rw [h.length_rawOf] at hlength
  have hmax := h.length_le
  have hover : seekMax ≤ usizeMax := by
    unfold seekMax usizeMax
    omega
  intro k i hi _
  have hin := h.inside i (List.mem_of_getElem? hi)
  unfold FeatureInside at hin
  refine ⟨by omega, fun _ => ?_⟩
  have hsum := ((List.take_sublist (k + 1) (List.range (featuresOf file))).map
    (featureSize file (dataEnd file))).sum_le_sum (fun _ _ => Nat.zero_le _)
  omega

/-- The parts of what is written lie one behind the other. -/
theorem written (hkept : kept.length ≤ dataSize file) :
    WrittenOf file kept (patched (rawOf file kept) kept.length) := by
  have hoff := h.dataOff_ge
  have hlength := h.length_rawOf kept
  have hle := h.length_rawOf_le hkept
  have hraw : 56 ≤ (rawOf file kept).length := by omega
  have hfrontLen := h.length_front
  have hall : Holds (rawOf file kept) 0 (rawOf file kept) := holds_self _
  have hfront : Holds (rawOf file kept) 0 (file.take (dataOff file)) := hall.left.left.left
  have hold : Holds file 0 (file.take (dataOff file)) := ⟨Nat.zero_le _, List.take_prefix _ _⟩
  have hsame : ∀ width o, o + width ≤ dataOff file →
      num width (rawOf file kept) o = num width file o := by
    intro width o ho
    have hnew := num_of_holds hfront (show o + width ≤ _ by omega)
    have hnum := num_of_holds hold (show o + width ≤ _ by omega)
    rw [Nat.zero_add] at hnew hnum
    rw [hnew, hnum]
  refine ⟨?_, ?_, ?_, ?_, ?_, ?_, ?_⟩
  · rw [length_patched hraw]
    exact hle
  · have hmagic := h.headed
    unfold Headed at hmagic
    rw [not_or, not_not] at hmagic
    rw [patched, List.append_assoc, List.take_append_of_le_length (by
      rw [List.length_take]
      omega), List.take_take, rawOf, List.append_assoc, List.append_assoc,
      List.take_append_of_le_length (by omega), List.take_take,
      Nat.min_eq_left (by omega), Nat.min_eq_left (by omega)]
    exact hmagic.2
  · rintro width o ho (hbefore | hbehind)
    · rw [num_patched_front hraw hbefore, hsame width o ho]
    · rw [num_patched_back hraw hbehind, hsame width o ho]
  · refine num_patched_size hraw ?_
    unfold seekMax at hle
    omega
  · refine holds_patched ?_ hraw (by omega)
    have hpart := hall.left.left.right
    rwa [hfrontLen, Nat.zero_add] at hpart
  · refine holds_patched ?_ hraw (by omega)
    have hpart := hall.left.right
    rwa [List.length_append, hfrontLen, Nat.zero_add] at hpart
  · refine holds_patched ?_ hraw (by omega)
    have hpart := hall.right
    rwa [List.length_append, List.length_append, hfrontLen, length_movedTable, List.length_range,
      Nat.zero_add] at hpart

/-- Splitting keeps the pieces that stay. -/
theorem split {ps : List Piece} (hreads : ∀ p ∈ ps, p.Reads (sampleTypeAt file))
    (hat : Holds file (dataOff file) (ps.flatMap Piece.whole))
    (hend : dataOff file + (ps.flatMap Piece.whole).length = dataEnd file)
    (hkept : (ps.filter (Piece.stays cpus)).flatMap Piece.whole = kept) :
    kept.length ≤ dataSize file ∧
      splitByCpus file cpus = .ok (patched (rawOf file kept) kept.length) := by
  have hlen := h.length_ge
  have hmax := h.length_le
  have hoff := h.dataOff_ge
  have hle : dataOff file ≤ dataEnd file := Nat.le_add_right _ _
  have hend' := h.dataEnd_le
  have htable := h.table
  have hover : seekMax ≤ usizeMax := by
    unfold seekMax usizeMax
    omega
  have hsize : kept.length ≤ dataSize file := by
    have hsub := (List.filter_sublist (p := Piece.stays cpus) (l := ps)).flatMap Piece.whole
    rw [hkept] at hsub
    have hsublen := hsub.length_le
    unfold dataEnd at hend
    omega
  have hlength := h.length_rawOf kept
  have hlengthLe := h.length_rawOf_le hsize
  have hfront : slice file 0 (dataOff file) = .ok (file.take (dataOff file)) :=
    slice_ok_iff.mpr ⟨⟨by omega, by omega⟩, rfl⟩
  have hentries : ∀ i ∈ List.range (featuresOf file), dataEnd file + i * 16 + 16 ≤ file.length := by
    intro i hi
    have hlt := List.mem_range.mp hi
    omega
  refine ⟨hsize, ?_⟩
  rw [splitByCpus, if_neg h.headed, u64At, numAt_num (by omega), ok_bind, numAt_num (by omega),
    ok_bind, ← dataOff, ← dataSize, addUsize_ok_iff.mpr ⟨by rw [← dataEnd]; omega, rfl⟩, ok_bind,
    ← dataEnd, if_neg (by omega), featureCount_eq hlen, ok_bind]
  dsimp only
  rw [if_neg (by omega), hfront, ok_bind, splitRecords_pieces hreads hat hend hend' hmax cpus,
    ok_bind, hkept, List.length_append, h.length_front, subUsize, if_pos (by omega), ok_bind,
    Nat.add_sub_cancel_left, addUsize, if_pos (by omega), ok_bind,
    relocateFeatures_eq hentries (h.featuresFit hsize) h.inside, ok_bind]
  dsimp only
  rw [List.nil_append, List.nil_append]
  show (if (rawOf file kept).length < 56 then _ else _) = _
  rw [if_neg (by omega)]
  rfl

end WellFormed

end Split

/-! ## Reading it back -/

section Reading

variable {file : List UInt8} {ps : List Piece}

/-- What reading a file of pieces gives. -/
def readOf (file : List UInt8) (ps : List Piece) : PerfData :=
  let out := { applied ps ⟨.default, [], [], sampleTypeAt file⟩ with
    blobs := blobsFrom (dataOff file) ps }
  { out with sideband := out.sideband.mergeSort fun a b => a.time ≤ b.time }

theorem readPerfData_pieces (hhead : Headed file) (hattrs : 40 ≤ attrsSize file)
    (hoff : attrsOff file + 40 ≤ file.length) (hreads : ∀ p ∈ ps, p.Reads (sampleTypeAt file))
    (hat : Holds file (dataOff file) (ps.flatMap Piece.whole))
    (hend : dataOff file + (ps.flatMap Piece.whole).length = dataEnd file)
    (hstop : dataEnd file ≤ file.length) (hmax : file.length ≤ seekMax) :
    readPerfData file = .ok (readOf file ps) := by
  have hlen : 104 ≤ file.length := by
    unfold Headed at hhead
    omega
  have hover : seekMax ≤ usizeMax := by
    unfold seekMax usizeMax
    omega
  rw [readPerfData, if_neg hhead, u64At]
  simp (disch := omega) only [numAt_num, ok_bind]
  rw [← attrsOff, ← attrsSize, ← dataOff, ← dataSize, if_neg (by omega),
    addUsize_ok_iff.mpr ⟨by omega, rfl⟩, ok_bind, if_neg (by omega),
    addUsize_ok_iff.mpr ⟨by rw [← dataEnd]; omega, rfl⟩, ok_bind, ← dataEnd, if_neg (by omega),
    numAt_num (by omega), ok_bind, ← sampleTypeAt,
    readRecords_pieces hreads hat hend hstop hmax, ok_bind]
  rfl

theorem auxtraceBlobs_pieces {sampleType : Nat} (hhead : Headed file)
    (hreads : ∀ p ∈ ps, p.Reads sampleType)
    (hat : Holds file (dataOff file) (ps.flatMap Piece.whole))
    (hend : dataOff file + (ps.flatMap Piece.whole).length = dataEnd file)
    (hstop : dataEnd file ≤ file.length) (hmax : file.length ≤ seekMax) :
    auxtraceBlobs file = .ok (blobsFrom (dataOff file) ps) := by
  unfold Headed at hhead
  rw [not_or, not_not] at hhead
  have hsat : satAdd (dataOff file) (dataSize file) = dataEnd file := by
    unfold satAdd wordSize
    unfold seekMax at hmax
    unfold dataEnd at *
    omega
  rw [auxtraceBlobs, if_neg (by omega), if_neg (not_not_intro hhead.2), u64At, numAt_num (by omega),
    ok_bind, numAt_num (by omega), ok_bind, ← dataOff, ← dataSize, hsat,
    auxtraceRecords_pieces hreads hat hend hstop hmax]
  rfl

end Reading

/-- `out`, which is read as `pd'`, is `file`, which is read as `pd`, with the
AUX blobs of these CPUs alone. -/
structure RestrictedTo (cpus : List Nat) (file out : List UInt8) (pd pd' : PerfData) : Prop where
  info : pd'.info = pd.info
  sampleType : pd'.sampleType = pd.sampleType
  sideband : pd'.sideband = pd.sideband
  features : features out = features file
  inside : ∀ b ∈ pd.blobs, b.fileOffset + b.bytes ≤ file.length
  blobs : pd'.blobs.map (content out) = (pd.blobs.filter (·.cpu ∈ cpus)).map (content file)

section Back

variable {file kept out : List UInt8}

namespace WrittenOf

variable (h : WellFormed file) (hw : WrittenOf file kept out)

include h hw

theorem dataOff_eq : dataOff out = dataOff file := by
  have hoff := h.dataOff_ge
  exact hw.before 8 40 (by omega) (by omega)

theorem attrsOff_eq : attrsOff out = attrsOff file := by
  have hoff := h.dataOff_ge
  exact hw.before 8 24 (by omega) (by omega)

theorem attrsSize_eq : attrsSize out = attrsSize file := by
  have hoff := h.dataOff_ge
  exact hw.before 8 32 (by omega) (by omega)

theorem dataEnd_eq : dataEnd out = dataOff file + kept.length := by
  rw [dataEnd, hw.dataOff_eq h, hw.size]

theorem sampleType_eq : sampleTypeAt out = sampleTypeAt file := by
  obtain ⟨hattrs, hsize, hbefore⟩ := h.attrs
  rw [sampleTypeAt, hw.attrsOff_eq h]
  exact hw.before 8 (attrsOff file + 24) (by omega) (by omega)

theorem featuresOf_eq : featuresOf out = featuresOf file := by
  have hoff := h.dataOff_ge
  rw [featuresOf, hw.before 8 72 (by omega) (by omega), hw.before 8 80 (by omega) (by omega),
    hw.before 8 88 (by omega) (by omega), hw.before 8 96 (by omega) (by omega)]
  rfl

theorem dataEnd_le : dataEnd out ≤ out.length := by
  rw [hw.dataEnd_eq h]
  exact hw.data.length_le

theorem headed : Headed out := by
  have hle := hw.dataEnd_le h
  have hoff := h.dataOff_ge
  rw [hw.dataEnd_eq h] at hle
  unfold Headed
  rw [not_or, not_not]
  exact ⟨by omega, hw.magic⟩

/-- Each feature is where the new table says. -/
theorem features_eq (hsize : kept.length ≤ dataSize file) : features out = features file := by
  rw [features, features, hw.featuresOf_eq h, hw.dataEnd_eq h]
  apply List.map_congr_left
  intro i hi
  have hlt := List.mem_range.mp hi
  have hget : (List.range (featuresOf file))[i]? = some i := by
    rw [List.getElem?_range hlt]
  have hlength := h.length_rawOf_le hsize
  rw [h.length_rawOf] at hlength
  obtain ⟨hoff, hsizeAt⟩ := movedTable_read hw.table hlength hget
  have hblob := hw.blobs.flatMap hget
  have hlens : ((List.range (featuresOf file)).take i).map
      (fun j => (featureBytes file (dataEnd file) j).length) =
      ((List.range (featuresOf file)).take i).map (featureSize file (dataEnd file)) :=
    List.map_congr_left fun j hj => length_featureBytes (h.inside j (List.mem_of_mem_take hj))
  rw [hlens, ← hoff] at hblob
  have htake := hblob.take_drop
  rw [length_featureBytes (h.inside i hi), ← hsizeAt] at htake
  exact htake

end WrittenOf

end Back

/-- Splitting a well-formed file restricts it, and the two lists of blobs of
either file are one. -/
theorem splitByCpus_restricts {file : List UInt8} (h : WellFormed file) (cpus : List Nat) :
    ∃ out pd pd', splitByCpus file cpus = .ok out ∧ readPerfData file = .ok pd ∧
      readPerfData out = .ok pd' ∧ RestrictedTo cpus file out pd pd' ∧
      auxtraceBlobs file = .ok pd.blobs ∧ auxtraceBlobs out = .ok pd'.blobs := by
  obtain ⟨ps, hreads, hat, hend⟩ := h.tiled.pieces h.dataEnd_le
  obtain ⟨hsize, hsplit⟩ := h.split hreads hat hend
    (show (ps.filter (Piece.stays cpus)).flatMap Piece.whole = _ from rfl)
  have hw := h.written hsize
  generalize patched (rawOf file _) _ = out at hsplit hw
  have hreads' : ∀ p ∈ ps.filter (Piece.stays cpus), p.Reads (sampleTypeAt out) := by
    intro p hp
    rw [hw.sampleType_eq h]
    exact hreads p (List.mem_of_mem_filter hp)
  have hat' : Holds out (dataOff out) ((ps.filter (Piece.stays cpus)).flatMap Piece.whole) := by
    rw [hw.dataOff_eq h]
    exact hw.data
  have hend' : dataOff out + ((ps.filter (Piece.stays cpus)).flatMap Piece.whole).length =
      dataEnd out := by
    rw [hw.dataEnd_eq h, hw.dataOff_eq h]
  obtain ⟨hattrs, hattrsSize, hbefore⟩ := h.attrs
  have hle := h.dataEnd_le
  have hle' := hw.dataEnd_le h
  have hoff : dataOff file ≤ dataEnd file := Nat.le_add_right _ _
  have hoff' : dataOff out ≤ dataEnd out := Nat.le_add_right _ _
  rw [hw.dataOff_eq h] at hoff'
  -- the pieces that stay tile the data of the written file as all did that of the old one
  refine ⟨out, readOf file ps, readOf out (ps.filter (Piece.stays cpus)), hsplit, ?_, ?_, ?_, ?_, ?_⟩
  · exact readPerfData_pieces h.headed hattrsSize (by omega) hreads hat hend hle h.length_le
  · refine readPerfData_pieces (hw.headed h) ?_ ?_ hreads' hat' hend' hle' hw.length
    · rw [hw.attrsSize_eq h]
      exact hattrsSize
    · rw [hw.attrsOff_eq h]
      omega
  · refine ⟨?_, ?_, ?_, hw.features_eq h hsize, blobsFrom_inside hat, ?_⟩
    · rw [readOf, readOf, applied_stays, hw.sampleType_eq h]
    · rw [readOf, readOf, applied_stays, hw.sampleType_eq h]
    · rw [readOf, readOf, applied_stays, hw.sampleType_eq h]
    · show (blobsFrom _ _).map (content out) = ((blobsFrom _ ps).filter _).map (content file)
      rw [blobsFrom_content hat', content_stays, ← blobsFrom_content hat, List.filter_map]
      rfl
  · exact auxtraceBlobs_pieces h.headed hreads hat hend hle h.length_le
  · exact auxtraceBlobs_pieces (hw.headed h) hreads' hat' hend' hle' hw.length

/-- An AUX record with its data. -/
def auxRecord (cpu : Nat) (data : List UInt8) : List UInt8 :=
  fields [(4, 71), (2, 0), (2, 48), (8, data.length), (8, 0), (8, 0), (4, 0), (4, 7), (4, cpu),
    (4, 0)] ++ data

/-- A file with the blobs of two CPUs and one feature. -/
def twoCpus : List UInt8 :=
  magic ++ fields [(8, 104), (8, 40), (8, 104), (8, 40), (8, 144), (8, 99), (8, 0), (8, 0),
    (8, 1), (8, 0), (8, 0), (8, 0)] ++ List.replicate 40 0 ++ auxRecord 5 [1, 2] ++
    auxRecord 3 [9] ++ fields [(8, 259), (8, 3)] ++ [7, 8, 9]

theorem twoCpus_wellFormed : WellFormed twoCpus := by
  have hend : dataEnd twoCpus = 243 := by decide +kernel
  have hfirst : 144 + sizeAt twoCpus 144 + extraAt twoCpus 144 = 194 := by decide +kernel
  have hsecond : 194 + sizeAt twoCpus 194 + extraAt twoCpus 194 = 243 := by decide +kernel
  refine ⟨?_, by decide +kernel, ?_, by decide +kernel, ?_, by decide +kernel⟩
  · unfold Headed
    decide +kernel
  · rw [hend, show dataOff twoCpus = 144 by decide +kernel]
    refine .record (by decide +kernel) (by decide +kernel) (by omega) ?_
    rw [hfirst]
    refine .record (by decide +kernel) (by decide +kernel) (by omega) ?_
    rw [hsecond]
    exact .done
  · unfold FeatureInside
    decide +kernel

theorem splitByCpus_restricts_twoCpus :
    WellFormed twoCpus ∧ ∃ out pd pd', splitByCpus twoCpus [3] = .ok out ∧
      readPerfData twoCpus = .ok pd ∧ readPerfData out = .ok pd' ∧
      RestrictedTo [3] twoCpus out pd pd' ∧
      auxtraceBlobs twoCpus = .ok pd.blobs ∧ auxtraceBlobs out = .ok pd'.blobs :=
  ⟨twoCpus_wellFormed, splitByCpus_restricts twoCpus_wellFormed [3]⟩

end TraceMcp.Capture
