import TraceMcp.Capture.Returns
import TraceMcp.Capture.Split

/-!
# Files that are not trusted

What `read_perf_data`, `auxtrace_blobs` and `split_by_cpus` do with any bytes
at all: they return, with a result or an error, or they panic. A read panics
exactly when it leaves the file, so each function has a condition on the bytes
that says when it returns: every record its loop comes to has room for the
fields that are read of its type, and no sum of offsets leaves `usize`.

The loops come to their records one after the other. `reached` lists the
positions from the bytes alone, and a loop returns when it does at each of
them.
-/

namespace TraceMcp.Capture

open TraceMcp.Lib TraceMcp.Decode

/-! ## Positions of the record loops -/

def typeAt (file : List UInt8) (pos : Nat) : Nat := num 4 file pos

def miscAt (file : List UInt8) (pos : Nat) : Nat := num 2 file (pos + 4)

def sizeAt (file : List UInt8) (pos : Nat) : Nat := num 2 file (pos + 6)

def auxSizeAt (file : List UInt8) (pos : Nat) : Nat := num 8 file (pos + 8)

theorem u32At_type {file : List UInt8} {pos : Nat} (h : pos + 8 ≤ file.length) :
    u32At file pos = .ok (typeAt file pos) := numAt_num (by omega)

theorem u16At_misc {file : List UInt8} {pos : Nat} (h : pos + 8 ≤ file.length) :
    u16At file (pos + 4) = .ok (miscAt file pos) := numAt_num (by omega)

theorem u16At_size {file : List UInt8} {pos : Nat} (h : pos + 8 ≤ file.length) :
    u16At file (pos + 6) = .ok (sizeAt file pos) := numAt_num (by omega)

/-- How many bytes of AUX data follow the record at `pos`. -/
def extraAt (file : List UInt8) (pos : Nat) : Nat :=
  if typeAt file pos = 71 then auxSizeAt file pos else 0

theorem readRecord_extraAt {file : List UInt8} {sampleType pos misc size : Nat} {out : PerfData} :
    Only (fun r => r.2 = extraAt file pos)
      (readRecord file sampleType pos (typeAt file pos) misc size out) := by
  unfold extraAt
  split
  next hty =>
    rw [hty]
    exact readRecord_extra_aux
  next hty => exact readRecord_extra hty

/-- A record stands at `pos`, before the end of the section. -/
def IsRecord (file : List UInt8) (stop pos : Nat) : Prop :=
  pos + 8 ≤ stop ∧ 8 ≤ sizeAt file pos ∧ pos + sizeAt file pos ≤ stop

instance (file : List UInt8) (stop pos : Nat) : Decidable (IsRecord file stop pos) := by
  unfold IsRecord
  infer_instance

/-- Where `read_perf_data` goes from `pos`. -/
def readNext (file : List UInt8) (stop pos : Nat) : Option Nat :=
  if IsRecord file stop pos then
    some (pos + extraAt file pos + sizeAt file pos)
  else none

/-- Where `auxtrace_blobs` goes from `pos`. -/
def auxtraceNext (file : List UInt8) (stop pos : Nat) : Option Nat :=
  if pos + 8 ≤ stop ∧ pos ≤ seekMax ∧ pos + 8 ≤ file.length ∧ 8 ≤ sizeAt file pos then
    if typeAt file pos = 71 then
      if pos + 48 ≤ file.length then some (satAdd (pos + sizeAt file pos) (auxSizeAt file pos))
      else none
    else some (pos + sizeAt file pos)
  else none

/-- Where `split_by_cpus` goes from `pos`. -/
def splitNext (file : List UInt8) (stop pos : Nat) : Option Nat :=
  if IsRecord file stop pos then
    if typeAt file pos = 71 then
      if pos + (sizeAt file pos + auxSizeAt file pos) ≤ stop then
        some (pos + (sizeAt file pos + auxSizeAt file pos))
      else none
    else some (pos + sizeAt file pos)
  else none

/-! ## What a file must be -/

/-- At `pos` nothing leaves the file or `usize` in `read_perf_data`. -/
def ReadFits (file : List UInt8) (sampleType stop pos : Nat) : Prop :=
  pos + 8 ≤ usizeMax ∧
    (IsRecord file stop pos → Room file sampleType pos (typeAt file pos) (sizeAt file pos))

section ReadLoop

variable {file : List UInt8} {sampleType stop : Nat}

theorem readNext_rank {p q : Nat} (h : readNext file stop p = some q) : stop - q < stop - p := by
  rw [readNext] at h
  split at h
  next hrec =>
    obtain ⟨hhead, hsize, hin⟩ := hrec
    cases h
    omega
  next => cases h

theorem readRecords_over {q : Nat} {out : PerfData} (h : usizeMax < q + 8) :
    ¬ Returns (readRecords file sampleType stop q out) := by
  rw [readRecords, if_pos h]
  exact not_returns_panic

theorem returns_readRecords_round (hstop : stop ≤ file.length) (out : PerfData) (pos : Nat) :
    Round (readNext file stop) (ReadFits file sampleType stop)
      (fun out q => Returns (readRecords file sampleType stop q out)) pos
      (Returns (readRecords file sampleType stop pos out)) := by
  rw [readRecords]
  by_cases hmax : usizeMax < pos + 8
  · rw [if_pos hmax]
    refine .fails out ?_ not_returns_panic
    rintro ⟨hle, -⟩
    omega
  rw [if_neg hmax]
  by_cases hrec : IsRecord file stop pos
  · obtain ⟨hhead, hsize, hin⟩ := id hrec
    have hsize' : ¬ (sizeAt file pos < 8 ∨ stop < pos + sizeAt file pos) := by omega
    rw [dif_pos hhead, u32At_type (by omega), ok_bind, u16At_misc (by omega), ok_bind,
      u16At_size (by omega), ok_bind, dif_neg hsize']
    have hread : Returns (readRecord file sampleType pos (typeAt file pos) (miscAt file pos)
        (sizeAt file pos) out) ↔ Room file sampleType pos (typeAt file pos) (sizeAt file pos) :=
      returns_readRecord hsize (Nat.le_trans hin hstop)
    have hextra : Only (fun r => r.2 = extraAt file pos) (readRecord file sampleType pos
        (typeAt file pos) (miscAt file pos) (sizeAt file pos) out) := readRecord_extraAt
    by_cases hroom : Room file sampleType pos (typeAt file pos) (sizeAt file pos)
    · have hfits : ReadFits file sampleType stop pos := ⟨by omega, fun _ => hroom⟩
      have hnext : readNext file stop pos = some (pos + extraAt file pos + sizeAt file pos) :=
        if_pos hrec
      obtain ⟨⟨out', extra⟩, hok, rfl⟩ := hextra.value (hread.mpr hroom)
      rw [hok, ok_bind]
      dsimp only
      by_cases hover : usizeMax < pos + extraAt file pos + sizeAt file pos
      · -- an overflow here is one at the head of the next round
        rw [if_pos hover]
        refine ⟨out', fun h => absurd h not_returns_panic, fun h => ?_⟩
        exact absurd (h.2 _ hnext) (readRecords_over (by omega))
      · rw [if_neg hover]
        exact .goes hfits hnext
    · refine .fails out (fun h => hroom (h.2 hrec)) ?_
      rw [returns_bind]
      rintro ⟨h, -⟩
      exact hroom (hread.mp h)
  · have hfits : ReadFits file sampleType stop pos := ⟨by omega, fun h => absurd h hrec⟩
    refine .ends out hfits (if_neg hrec) ?_
    by_cases hhead : pos + 8 ≤ stop
    · have hsize : sizeAt file pos < 8 ∨ stop < pos + sizeAt file pos := by
        unfold IsRecord at hrec
        omega
      rw [dif_pos hhead, u32At_type (by omega), ok_bind, u16At_misc (by omega), ok_bind,
        u16At_size (by omega), ok_bind, dif_pos hsize]
      exact returns_pure out
    · rw [dif_neg hhead]
      exact returns_pure out

theorem returns_readRecords (hstop : stop ≤ file.length) (pos : Nat) (out : PerfData) :
    Returns (readRecords file sampleType stop pos out) ↔
      ∀ q ∈ reached (readNext file stop) stop pos, ReadFits file sampleType stop q :=
  reached_rule (fun _ _ => readNext_rank) (returns_readRecords_round hstop) stop pos out
    (Nat.sub_le stop pos)

end ReadLoop

/-! ## The header -/

/-- The file starts as a `perf.data` file does. -/
def Headed (file : List UInt8) : Prop := ¬ (file.length < 104 ∨ file.take 8 ≠ magic)

def attrsOff (file : List UInt8) : Nat := num 8 file 24

def attrsSize (file : List UInt8) : Nat := num 8 file 32

def dataOff (file : List UInt8) : Nat := num 8 file 40

def dataSize (file : List UInt8) : Nat := num 8 file 48

/-- Where the data section ends. -/
def dataEnd (file : List UInt8) : Nat := dataOff file + dataSize file

def sampleTypeAt (file : List UInt8) : Nat := num 8 file (attrsOff file + 24)

/-- Nothing leaves the file or `usize` while `read_perf_data` reads it: the
ends of its sections, and then each record it comes to. -/
def ReadPerfDataFits (file : List UInt8) : Prop :=
  Headed file → 40 ≤ attrsSize file →
    attrsOff file + 40 ≤ usizeMax ∧ (attrsOff file + 40 ≤ file.length →
      dataEnd file ≤ usizeMax ∧ (dataEnd file ≤ file.length →
        ∀ q ∈ reached (readNext file (dataEnd file)) (dataEnd file) (dataOff file),
          ReadFits file (sampleTypeAt file) (dataEnd file) q))

theorem returns_readPerfData (file : List UInt8) :
    Returns (readPerfData file) ↔ ReadPerfDataFits file := by
  unfold ReadPerfDataFits Headed
  rw [readPerfData]
  by_cases hhead : file.length < 104 ∨ file.take 8 ≠ magic
  · rw [if_pos hhead]
    exact ⟨fun _ h => absurd hhead h, fun _ => returns_throw _⟩
  rw [if_neg hhead]
  have hlen : 104 ≤ file.length := by omega
  simp only [u64At]
  simp (disch := omega) only [numAt_num, ok_bind]
  simp only [throw_bind, returns_ite, returns_throw, implies_true, true_and, returns_addUsize_bind,
    not_lt]
  rw [← attrsSize, ← attrsOff, ← dataOff, ← dataSize, ← dataEnd]
  constructor
  · intro h _ hsize
    refine ⟨(h hsize).1, fun hattrs => ⟨((h hsize).2 hattrs).1, fun hend => ?_⟩⟩
    have hrest := ((h hsize).2 hattrs).2 hend
    rw [returns_numAt_bind, returns_bind, returns_readRecords hend] at hrest
    exact hrest.2.1
  · intro h hsize
    obtain ⟨hattrsMax, hrest⟩ := h hhead hsize
    refine ⟨hattrsMax, fun hattrs => ⟨(hrest hattrs).1, fun hend => ?_⟩⟩
    rw [returns_numAt_bind, returns_bind, returns_readRecords hend]
    exact ⟨by omega, (hrest hattrs).2 hend, fun _ _ => returns_pure _⟩

/-! ## Listing -/

section ListLoop

variable {file : List UInt8} {stop : Nat}

theorem num_lt (width o : Nat) : num width file o < 256 ^ width := by
  have hlt : ∀ bs : List UInt8, leNat bs < 256 ^ bs.length := by
    intro bs
    induction bs with
    | nil => exact Nat.one_pos
    | cons b bs ih =>
      have hb : b.toNat < 256 := b.toNat_lt
      rw [leNat, List.length_cons, pow_succ]
      omega
  refine (hlt _).trans_le (Nat.pow_le_pow_right (by omega) ?_)
  rw [List.length_take]
  exact Nat.min_le_left width _

theorem sizeAt_lt (file : List UInt8) (pos : Nat) : sizeAt file pos < 65536 := num_lt 2 (pos + 6)

theorem auxtraceNext_rank {p q : Nat} (h : auxtraceNext file stop p = some q) :
    file.length - q < file.length - p := by
  rw [auxtraceNext] at h
  split at h
  next hrec =>
    obtain ⟨-, hseek, hin, hsize⟩ := hrec
    have hsmall := sizeAt_lt file p
    split at h
    · split at h
      · cases h
        unfold satAdd wordSize
        unfold seekMax at hseek
        omega
      · cases h
    · cases h
      omega
  next => cases h

theorem returns_auxtraceRecords_round (out : List AuxBlob) (pos : Nat) :
    Round (auxtraceNext file stop) (fun q => q + 8 ≤ usizeMax)
      (fun out q => Returns (auxtraceRecords file stop q out)) pos
      (Returns (auxtraceRecords file stop pos out)) := by
  rw [auxtraceRecords]
  by_cases hmax : usizeMax < pos + 8
  · rw [dif_pos hmax]
    exact .fails out (by omega) not_returns_panic
  have hle : pos + 8 ≤ usizeMax := by omega
  rw [dif_neg hmax]
  by_cases hhead : pos + 8 ≤ stop
  · rw [if_pos hhead]
    by_cases hseek : seekMax < pos
    · rw [if_pos hseek]
      exact .ends out hle (if_neg (by omega)) (returns_error _)
    rw [if_neg hseek]
    by_cases hin : file.length < pos + 8
    · rw [if_pos hin]
      exact .ends out hle (if_neg (by omega)) (returns_pure out)
    rw [if_neg hin, u32At_type (by omega), ok_bind, u16At_size (by omega), ok_bind]
    by_cases hsize : sizeAt file pos < 8
    · rw [dif_pos hsize]
      exact .ends out hle (if_neg (by omega)) (returns_throw _)
    have hsmall := sizeAt_lt file pos
    have hnext : ¬ usizeMax < pos + sizeAt file pos := by
      unfold usizeMax
      unfold seekMax at hseek
      omega
    rw [dif_neg hsize, dif_neg hnext]
    have hrec : pos + 8 ≤ stop ∧ pos ≤ seekMax ∧ pos + 8 ≤ file.length ∧ 8 ≤ sizeAt file pos := by
      omega
    by_cases hty : typeAt file pos = 71
    · rw [if_pos hty]
      by_cases hbody : file.length < pos + 48
      · rw [if_pos hbody]
        refine .ends out hle ?_ (returns_throw _)
        rw [auxtraceNext, if_pos hrec, if_pos hty, if_neg (by omega)]
      · rw [if_neg hbody, u64At, numAt_num (by omega), ok_bind, u32At, numAt_num (by omega),
          ok_bind, numAt_num (by omega), ok_bind]
        refine .goes hle ?_
        rw [auxtraceNext, if_pos hrec, if_pos hty, if_pos (by omega)]
        rfl
    · rw [if_neg hty]
      refine .goes hle ?_
      rw [auxtraceNext, if_pos hrec, if_neg hty]
  · rw [if_neg hhead]
    exact .ends out hle (if_neg (by omega)) (returns_pure out)

theorem returns_auxtraceRecords (pos : Nat) (out : List AuxBlob) :
    Returns (auxtraceRecords file stop pos out) ↔
      ∀ q ∈ reached (auxtraceNext file stop) file.length pos, q + 8 ≤ usizeMax :=
  reached_rule (fun _ _ => auxtraceNext_rank) returns_auxtraceRecords_round file.length pos out
    (Nat.sub_le file.length pos)

end ListLoop

/-- No position that `auxtrace_blobs` comes to is at the end of `u64`. -/
def AuxtraceBlobsFits (file : List UInt8) : Prop :=
  56 ≤ file.length → file.take 8 = magic →
    ∀ q ∈ reached (auxtraceNext file (satAdd (dataOff file) (dataSize file))) file.length
      (dataOff file), q + 8 ≤ usizeMax

theorem returns_auxtraceBlobs (file : List UInt8) :
    Returns (auxtraceBlobs file) ↔ AuxtraceBlobsFits file := by
  unfold AuxtraceBlobsFits
  rw [auxtraceBlobs]
  by_cases hlen : file.length < 56
  · rw [if_pos hlen]
    exact ⟨fun _ h => by omega, fun _ => returns_throw _⟩
  by_cases hmagic : file.take 8 = magic
  · rw [if_neg hlen, if_neg (not_not_intro hmagic), u64At, numAt_num (by omega), ok_bind,
      numAt_num (by omega), ok_bind, returns_auxtraceRecords]
    exact ⟨fun h _ _ => h, fun h => h (by omega) hmagic⟩
  · rw [if_neg hlen, if_pos hmagic]
    exact ⟨fun _ _ h => absurd h hmagic, fun _ => returns_throw _⟩

/-! ## Splitting -/

def cpuAt (file : List UInt8) (pos : Nat) : Nat := num 4 file (pos + 40)

theorem u64At_auxSize {file : List UInt8} {pos : Nat} (h : pos + 16 ≤ file.length) :
    u64At file (pos + 8) = .ok (auxSizeAt file pos) := numAt_num (by omega)

theorem u32At_cpu {file : List UInt8} {pos : Nat} (h : pos + 44 ≤ file.length) :
    u32At file (pos + 40) = .ok (cpuAt file pos) := numAt_num (by omega)

/-- At `pos` nothing leaves the file or `usize` in `split_by_cpus`. -/
def SplitFits (file : List UInt8) (stop pos : Nat) : Prop :=
  IsRecord file stop pos → typeAt file pos = 71 →
    pos + 44 ≤ file.length ∧ pos + (sizeAt file pos + auxSizeAt file pos) ≤ usizeMax

instance (file : List UInt8) (stop pos : Nat) : Decidable (SplitFits file stop pos) := by
  unfold SplitFits
  infer_instance

/-- How many bytes from `pos` on stay when these CPUs do. -/
def keptAt (file : List UInt8) (cpus : List Nat) (stop pos : Nat) : Nat :=
  match splitNext file stop pos with
  | none => 0
  | some q => if typeAt file pos = 71 ∧ cpuAt file pos ∉ cpus then 0 else q - pos

/-- The bytes that stay of the record at `pos`. -/
def keptBytes (file : List UInt8) (cpus : List Nat) (stop pos : Nat) : List UInt8 :=
  (file.drop pos).take (keptAt file cpus stop pos)

section SplitLoop

variable {file : List UInt8} {cpus : List Nat} {stop : Nat}

theorem splitNext_rank {p q : Nat} (h : splitNext file stop p = some q) :
    stop - q < stop - p := by
  rw [splitNext] at h
  split at h
  next hrec =>
    obtain ⟨hhead, hsize, hin⟩ := hrec
    split at h
    · split at h
      · cases h
        omega
      · cases h
    · cases h
      omega
  next => cases h

theorem slice_eq_take {a n : Nat} (h : a + n ≤ file.length) :
    slice file a (a + n) = .ok ((file.drop a).take n) := by
  refine slice_ok_iff.mpr ⟨⟨Nat.le_add_right a n, h⟩, ?_⟩
  rw [List.drop_take, Nat.add_sub_cancel_left]

/-- An AUX record stays or goes with its data. -/
theorem splitRecords_aux {pos : Nat} {out : List UInt8} (hrec : IsRecord file stop pos)
    (hty : typeAt file pos = 71) (hstop : stop ≤ file.length) :
    (do
      let auxSize ← u64At file (pos + 8)
      let recCpu ← u32At file (pos + 40)
      let total := sizeAt file pos + auxSize
      if usizeMax < pos + total then .error .panic
      else if stop < pos + total then pure out
      else if recCpu ∈ cpus then do
        let kept ← slice file pos (pos + total)
        splitRecords file cpus stop (pos + total) (out ++ kept)
      else splitRecords file cpus stop (pos + total) out) =
      if SplitFits file stop pos then
        match splitNext file stop pos with
        | none => .ok out
        | some q => splitRecords file cpus stop q (out ++ keptBytes file cpus stop pos)
      else .error .panic := by
  by_cases hroom : pos + 44 ≤ file.length
  · rw [u64At_auxSize (by omega), ok_bind, u32At_cpu hroom, ok_bind]
    dsimp only
    by_cases hover : usizeMax < pos + (sizeAt file pos + auxSizeAt file pos)
    · rw [if_pos hover, if_neg]
      intro hfits
      have hle := (hfits hrec hty).2
      omega
    have hfits : SplitFits file stop pos := fun _ _ => ⟨hroom, by omega⟩
    rw [if_neg hover, if_pos hfits]
    by_cases hend : stop < pos + (sizeAt file pos + auxSizeAt file pos)
    · have hnext : splitNext file stop pos = none := by
        rw [splitNext, if_pos hrec, if_pos hty, if_neg (by omega)]
      rw [if_pos hend, hnext]
      rfl
    have hnext : splitNext file stop pos =
        some (pos + (sizeAt file pos + auxSizeAt file pos)) := by
      rw [splitNext, if_pos hrec, if_pos hty, if_pos (by omega)]
    rw [if_neg hend, hnext, keptBytes, keptAt, hnext]
    by_cases hcpu : cpuAt file pos ∈ cpus
    · rw [if_pos hcpu]
      dsimp only
      rw [if_neg fun h => h.2 hcpu, slice_eq_take (by omega), ok_bind, Nat.add_sub_cancel_left]
    · rw [if_neg hcpu]
      dsimp only
      rw [if_pos ⟨hty, hcpu⟩, List.take_zero, List.append_nil]
  · have hfits : ¬ SplitFits file stop pos := fun h => hroom (h hrec hty).1
    have hpanic : u32At file (pos + 40) = .error .panic := by
      rw [u32At, numAt_eq, if_neg (by omega)]
    rw [if_neg hfits, u64At, numAt_eq]
    split
    · rw [ok_bind, hpanic]
      rfl
    · rfl

/-- One round: what stays of the record, and the loop behind it. -/
theorem splitRecords_round (hstop : stop ≤ file.length) (pos : Nat) (out : List UInt8) :
    splitRecords file cpus stop pos out =
      if SplitFits file stop pos then
        match splitNext file stop pos with
        | none => .ok out
        | some q => splitRecords file cpus stop q (out ++ keptBytes file cpus stop pos)
      else .error .panic := by
  rw [splitRecords]
  by_cases hrec : IsRecord file stop pos
  · obtain ⟨hhead, hsize, hin⟩ := id hrec
    have hsize' : ¬ (sizeAt file pos < 8 ∨ stop < pos + sizeAt file pos) := by omega
    rw [dif_pos hhead, u32At_type (by omega), ok_bind, u16At_size (by omega), ok_bind,
      dif_neg hsize']
    by_cases hty : typeAt file pos = 71
    · rw [if_pos hty, splitRecords_aux hrec hty hstop]
    · have hfits : SplitFits file stop pos := fun _ h => absurd h hty
      have hnext : splitNext file stop pos = some (pos + sizeAt file pos) := by
        rw [splitNext, if_pos hrec, if_neg hty]
      have hkept : keptBytes file cpus stop pos = (file.drop pos).take (sizeAt file pos) := by
        rw [keptBytes, keptAt, hnext]
        dsimp only
        rw [if_neg fun h => hty h.1, Nat.add_sub_cancel_left]
      rw [if_neg hty, if_pos hfits, hnext, slice_eq_take (by omega), ok_bind, hkept]
  · have hfits : SplitFits file stop pos := fun h => absurd h hrec
    have hnext : splitNext file stop pos = none := if_neg hrec
    rw [if_pos hfits, hnext]
    by_cases hhead : pos + 8 ≤ stop
    · have hsize : sizeAt file pos < 8 ∨ stop < pos + sizeAt file pos := by
        unfold IsRecord at hrec
        omega
      rw [dif_pos hhead, u32At_type (by omega), ok_bind, u16At_size (by omega), ok_bind,
        dif_pos hsize]
      rfl
    · rw [dif_neg hhead]
      rfl

/-- The loop copies what stays of every record it comes to. -/
theorem splitRecords_eq (hstop : stop ≤ file.length) : ∀ (fuel pos : Nat) (out : List UInt8),
    stop - pos ≤ fuel → splitRecords file cpus stop pos out =
      if ∀ q ∈ reached (splitNext file stop) fuel pos, SplitFits file stop q then
        .ok (out ++ (reached (splitNext file stop) fuel pos).flatMap
          (keptBytes file cpus stop))
      else .error .panic
  | fuel, pos, out, hfuel => by
    rw [splitRecords_round hstop]
    by_cases hfits : SplitFits file stop pos
    · rw [if_pos hfits]
      cases hnext : splitNext file stop pos with
      | none =>
        have hself : reached (splitNext file stop) fuel pos = [pos] := by
          cases fuel with
          | zero => rfl
          | succ fuel => rw [reached, hnext]
        have hkept : keptBytes file cpus stop pos = [] := by
          rw [keptBytes, keptAt, hnext]
          rfl
        rw [hself, if_pos (List.forall_mem_singleton.mpr hfits), List.flatMap_singleton, hkept,
          List.append_nil]
      | some q =>
        have hlt := splitNext_rank hnext
        cases fuel with
        | zero => omega
        | succ fuel =>
          dsimp only
          rw [splitRecords_eq hstop fuel q _ (by omega), reached, hnext]
          dsimp only
          rw [List.flatMap_cons, List.append_assoc]
          by_cases hrest : ∀ q' ∈ reached (splitNext file stop) fuel q, SplitFits file stop q'
          · rw [if_pos hrest, if_pos (List.forall_mem_cons.mpr ⟨hfits, hrest⟩)]
          · rw [if_neg hrest, if_neg fun h => hrest (List.forall_mem_cons.mp h).2]
    · rw [if_neg hfits, if_neg fun h => hfits (h pos mem_reached_self)]

theorem splitNext_le {p q : Nat} (h : splitNext file stop p = some q) : p ≤ q ∧ q ≤ stop := by
  rw [splitNext] at h
  split at h
  next hrec =>
    obtain ⟨hhead, hsize, hin⟩ := hrec
    split at h
    · split at h
      · cases h
        omega
      · cases h
    · cases h
      omega
  next => cases h

theorem length_keptBytes (hstop : stop ≤ file.length) (pos : Nat) :
    (keptBytes file cpus stop pos).length = keptAt file cpus stop pos := by
  have hle : keptAt file cpus stop pos ≤ file.length - pos := by
    rw [keptAt]
    split
    next => exact Nat.zero_le _
    next q hq =>
      obtain ⟨hpq, hqs⟩ := splitNext_le hq
      split <;> omega
  rw [keptBytes, List.length_take, List.length_drop]
  omega

end SplitLoop

/-! ### Features -/

def featureOff (file : List UInt8) (tableOff i : Nat) : Nat := num 8 file (tableOff + i * 16)

def featureSize (file : List UInt8) (tableOff i : Nat) : Nat := num 8 file (tableOff + i * 16 + 8)

/-- The `i`-th feature ends inside the file. -/
def FeatureInside (file : List UInt8) (tableOff i : Nat) : Prop :=
  featureOff file tableOff i + featureSize file tableOff i ≤ file.length

/-- Nothing leaves `usize` while the features are moved, from the free place
`next` on, up to the first that is not inside the file. -/
def FeaturesFit (file : List UInt8) (tableOff : Nat) (is : List Nat) (next : Nat) : Prop :=
  ∀ k i, is[k]? = some i → (∀ j ∈ is.take k, FeatureInside file tableOff j) →
    featureOff file tableOff i + featureSize file tableOff i ≤ usizeMax ∧
      (FeatureInside file tableOff i →
        next + ((is.take (k + 1)).map (featureSize file tableOff)).sum ≤ usizeMax)

section Features

variable {file : List UInt8} {tableOff : Nat}

theorem featuresFit_cons {i next : Nat} {is : List Nat} :
    FeaturesFit file tableOff (i :: is) next ↔
      featureOff file tableOff i + featureSize file tableOff i ≤ usizeMax ∧
        (FeatureInside file tableOff i → next + featureSize file tableOff i ≤ usizeMax ∧
          FeaturesFit file tableOff is (next + featureSize file tableOff i)) := by
  constructor
  · intro h
    have hfirst := h 0 i rfl (fun j hj => absurd hj List.not_mem_nil)
    refine ⟨hfirst.1, fun hinside => ⟨?_, ?_⟩⟩
    · have hnext := hfirst.2 hinside
      rw [List.take_succ_cons, List.take_zero, List.map_singleton, List.sum_singleton] at hnext
      exact hnext
    · intro k j hj hbefore
      have hrest := h (k + 1) j hj (by
        rw [List.take_succ_cons]
        exact List.forall_mem_cons.mpr ⟨hinside, hbefore⟩)
      rw [List.take_succ_cons, List.map_cons, List.sum_cons, ← Nat.add_assoc] at hrest
      exact hrest
  · rintro ⟨hsum, hinsides⟩ k j hj hbefore
    cases k with
    | zero =>
      cases hj
      refine ⟨hsum, fun hinside => ?_⟩
      rw [List.take_succ_cons, List.take_zero, List.map_singleton, List.sum_singleton]
      exact (hinsides hinside).1
    | succ k =>
      rw [List.take_succ_cons] at hbefore
      obtain ⟨hinside, hbefore⟩ := List.forall_mem_cons.mp hbefore
      rw [List.take_succ_cons, List.map_cons, List.sum_cons, ← Nat.add_assoc]
      exact (hinsides hinside).2 k j hj hbefore

/-- The features are moved, or one is not inside the file, or a sum of
offsets leaves `usize`. -/
theorem returns_relocateFeatures {is : List Nat} {next : Nat} {table blobs : List UInt8}
    (htable : ∀ i ∈ is, tableOff + i * 16 + 16 ≤ file.length) :
    Returns (relocateFeatures file tableOff is next table blobs) ↔
      FeaturesFit file tableOff is next := by
  induction is generalizing next table blobs with
  | nil =>
    refine ⟨fun _ k i hk => ?_, fun _ => returns_pure _⟩
    rw [List.getElem?_nil] at hk
    cases hk
  | cons i is ih =>
    have hi := htable i List.mem_cons_self
    rw [featuresFit_cons, relocateFeatures]
    dsimp only
    rw [u64At, numAt_num (by omega), ok_bind, numAt_num (by omega), ok_bind, returns_addUsize_bind]
    rw [← featureOff, ← featureSize]
    simp only [throw_bind, returns_ite, returns_throw, implies_true, true_and, not_lt,
      returns_slice_bind, returns_addUsize_bind, ih fun j hj => htable j (List.mem_cons_of_mem i hj)]
    refine and_congr_right fun _ => forall_congr' fun hinside => ?_
    constructor
    · exact fun h => h.2
    · exact fun h => ⟨⟨Nat.le_add_right _ _, hinside⟩, h⟩

/-- The feature table with each feature moved behind the one before it. -/
def movedTable (file : List UInt8) (tableOff : Nat) : List Nat → Nat → List UInt8
  | [], _ => []
  | i :: is, next =>
    leBytes 8 next ++ leBytes 8 (featureSize file tableOff i) ++
      movedTable file tableOff is (next + featureSize file tableOff i)

def featureBytes (file : List UInt8) (tableOff i : Nat) : List UInt8 :=
  (file.drop (featureOff file tableOff i)).take (featureSize file tableOff i)

/-- What is moved, where everything is inside the file. -/
theorem relocateFeatures_eq {is : List Nat} {next : Nat} {table blobs : List UInt8}
    (htable : ∀ i ∈ is, tableOff + i * 16 + 16 ≤ file.length)
    (hfits : FeaturesFit file tableOff is next) (hinside : ∀ i ∈ is, FeatureInside file tableOff i) :
    relocateFeatures file tableOff is next table blobs =
      .ok (table ++ movedTable file tableOff is next,
        blobs ++ is.flatMap (featureBytes file tableOff)) := by
  induction is generalizing next table blobs with
  | nil =>
    rw [movedTable, List.flatMap_nil, List.append_nil, List.append_nil]
    rfl
  | cons i is ih =>
    obtain ⟨hi, hrest⟩ := List.forall_mem_cons.mp htable
    obtain ⟨hin, hins⟩ := List.forall_mem_cons.mp hinside
    obtain ⟨hmax, hmore⟩ := featuresFit_cons.mp hfits
    obtain ⟨hnext, htail⟩ := hmore hin
    rw [relocateFeatures]
    dsimp only
    rw [u64At, numAt_num (by omega), ok_bind, numAt_num (by omega), ok_bind, ← featureOff,
      ← featureSize, addUsize_ok_iff.mpr ⟨hmax, rfl⟩, ok_bind, if_neg (by
        unfold FeatureInside at hin
        omega), slice_eq_take hin, ok_bind, addUsize_ok_iff.mpr ⟨hnext, rfl⟩, ok_bind,
      ih hrest htail hins, movedTable, List.flatMap_cons, ← featureBytes]
    simp only [List.append_assoc]

/-- What is not inside the file is not moved. -/
theorem inside_of_relocateFeatures {is : List Nat} {next : Nat} {table blobs : List UInt8}
    {moved : List UInt8 × List UInt8}
    (htable : ∀ i ∈ is, tableOff + i * 16 + 16 ≤ file.length)
    (h : relocateFeatures file tableOff is next table blobs = .ok moved) :
    ∀ i ∈ is, FeatureInside file tableOff i := by
  induction is generalizing next table blobs with
  | nil => exact fun i hi => absurd hi List.not_mem_nil
  | cons i is ih =>
    obtain ⟨hi, hrest⟩ := List.forall_mem_cons.mp htable
    rw [relocateFeatures] at h
    dsimp only at h
    rw [u64At, numAt_num (by omega), ok_bind, numAt_num (by omega), ok_bind, ← featureOff,
      ← featureSize] at h
    obtain ⟨stop, hstop, h⟩ := bind_ok.mp h
    obtain ⟨-, rfl⟩ := addUsize_ok_iff.mp hstop
    split at h
    next => cases h
    next hin =>
      obtain ⟨blob, -, h⟩ := bind_ok.mp h
      obtain ⟨next', -, h⟩ := bind_ok.mp h
      exact List.forall_mem_cons.mpr ⟨Nat.le_of_not_lt hin, ih hrest h⟩

theorem length_movedTable (is : List Nat) (next : Nat) :
    (movedTable file tableOff is next).length = is.length * 16 := by
  induction is generalizing next with
  | nil => rfl
  | cons i is ih =>
    rw [movedTable, List.length_append, List.length_append, length_leBytes, length_leBytes, ih,
      List.length_cons]
    omega

theorem length_featureBytes {i : Nat} (h : FeatureInside file tableOff i) :
    (featureBytes file tableOff i).length = featureSize file tableOff i := by
  unfold FeatureInside at h
  rw [featureBytes, List.length_take, List.length_drop]
  omega

theorem length_featureBlobs {is : List Nat} (h : ∀ i ∈ is, FeatureInside file tableOff i) :
    (is.flatMap (featureBytes file tableOff)).length =
      (is.map (featureSize file tableOff)).sum := by
  rw [List.length_flatMap]
  exact congrArg List.sum (List.map_congr_left fun i hi => length_featureBytes (h i hi))

end Features

/-- How many features the header says there are. -/
def featuresOf (file : List UInt8) : Nat :=
  countOnes (num 8 file 72) + countOnes (num 8 file 80) + countOnes (num 8 file 88) +
    countOnes (num 8 file 96)

/-- How long the part before the feature blobs is when these CPUs stay. -/
def frontLength (file : List UInt8) (cpus : List Nat) : Nat :=
  dataOff file + ((reached (splitNext file (dataEnd file)) (dataEnd file) (dataOff file)).map
    (keptAt file cpus (dataEnd file))).sum + featuresOf file * 16

/-- Nothing leaves the file or `usize` while `split_by_cpus` splits it, and the
data size it patches is inside what it has written. -/
def SplitByCpusFits (file : List UInt8) (cpus : List Nat) : Prop :=
  Headed file → dataEnd file ≤ usizeMax ∧ (dataEnd file ≤ file.length →
    dataEnd file + featuresOf file * 16 ≤ file.length →
      (∀ q ∈ reached (splitNext file (dataEnd file)) (dataEnd file) (dataOff file),
        SplitFits file (dataEnd file) q) ∧
      frontLength file cpus ≤ usizeMax ∧
      FeaturesFit file (dataEnd file) (List.range (featuresOf file)) (frontLength file cpus) ∧
      ((∀ i ∈ List.range (featuresOf file), FeatureInside file (dataEnd file) i) →
        56 ≤ frontLength file cpus +
          ((List.range (featuresOf file)).map (featureSize file (dataEnd file))).sum))

theorem featureCount_eq {file : List UInt8} (h : 104 ≤ file.length) :
    featureCount file = .ok (featuresOf file) := by
  rw [featureCount, u64At, numAt_num (by omega), ok_bind, numAt_num (by omega), ok_bind,
    numAt_num (by omega), ok_bind, numAt_num (by omega), ok_bind]
  rfl

/-- What is written before the feature table. -/
def splitFront (file : List UInt8) (cpus : List Nat) : List UInt8 :=
  file.take (dataOff file) ++ (reached (splitNext file (dataEnd file)) (dataEnd file)
    (dataOff file)).flatMap (keptBytes file cpus (dataEnd file))

theorem length_splitFront {file : List UInt8} {cpus : List Nat} (h : dataEnd file ≤ file.length) :
    (splitFront file cpus).length + featuresOf file * 16 = frontLength file cpus := by
  have hoff : dataOff file ≤ file.length := (Nat.le_add_right _ _).trans h
  have hkept : (fun pos => (keptBytes file cpus (dataEnd file) pos).length) =
      keptAt file cpus (dataEnd file) := funext fun pos => length_keptBytes h pos
  rw [splitFront, List.length_append, List.length_take, Nat.min_eq_left hoff, List.length_flatMap,
    frontLength, hkept]

theorem returns_splitByCpus (file : List UInt8) (cpus : List Nat) :
    Returns (splitByCpus file cpus) ↔ SplitByCpusFits file cpus := by
  unfold SplitByCpusFits Headed
  rw [splitByCpus]
  by_cases hhead : file.length < 104 ∨ file.take 8 ≠ magic
  · rw [if_pos hhead]
    exact ⟨fun _ h => absurd hhead h, fun _ => returns_throw _⟩
  have hlen : 104 ≤ file.length := by omega
  rw [if_neg hhead, u64At, numAt_num (by omega), ok_bind, numAt_num (by omega), ok_bind,
    returns_addUsize_bind, ← dataOff, ← dataSize, ← dataEnd]
  simp only [throw_bind, returns_ite, returns_throw, implies_true, true_and, not_lt,
    featureCount_eq hlen, ok_bind, hhead, not_false_iff, true_implies]
  refine and_congr_right fun hmax => forall_congr' fun hend => forall_congr' fun htable => ?_
  have hfront : slice file 0 (dataOff file) = .ok (file.take (dataOff file)) := by
    unfold dataEnd at hend
    exact slice_ok_iff.mpr ⟨⟨by omega, by omega⟩, rfl⟩
  rw [hfront, ok_bind, splitRecords_eq hend (dataEnd file) _ _ (Nat.sub_le _ _)]
  by_cases hfits : ∀ q ∈ reached (splitNext file (dataEnd file)) (dataEnd file) (dataOff file),
      SplitFits file (dataEnd file) q
  · have hentries : ∀ i ∈ List.range (featuresOf file), dataEnd file + i * 16 + 16 ≤ file.length := by
      intro i hi
      have hlt := List.mem_range.mp hi
      omega
    rw [if_pos hfits, ok_bind, ← splitFront, returns_subUsize_bind, returns_addUsize_bind,
      length_splitFront hend, returns_bind, returns_relocateFeatures hentries]
    have hoff : dataOff file ≤ (splitFront file cpus).length := by
      rw [splitFront, List.length_append, List.length_take, Nat.min_eq_left (by
        unfold dataEnd at hend
        omega)]
      exact Nat.le_add_right _ _
    have hwritten : ∀ front : Nat,
        (splitFront file cpus ++ movedTable file (dataEnd file) (List.range (featuresOf file)) front ++
          (List.range (featuresOf file)).flatMap (featureBytes file (dataEnd file))).length =
        frontLength file cpus +
          ((List.range (featuresOf file)).flatMap (featureBytes file (dataEnd file))).length := by
      intro front
      rw [List.length_append, List.length_append, length_movedTable, List.length_range,
        length_splitFront hend]
    constructor
    · rintro ⟨-, hmax', hfeatures, h⟩
      refine ⟨hfits, hmax', hfeatures, fun hinside => ?_⟩
      have hout := h _ (relocateFeatures_eq hentries hfeatures hinside)
      dsimp only at hout
      rw [List.nil_append, List.nil_append, returns_ite, hwritten, length_featureBlobs hinside] at hout
      exact Nat.le_of_not_lt fun hlt => not_returns_panic (hout.1 hlt)
    · rintro ⟨-, hmax', hfeatures, h⟩
      refine ⟨hoff, hmax', hfeatures, fun moved hmoved => ?_⟩
      have hinside := inside_of_relocateFeatures hentries hmoved
      rw [relocateFeatures_eq hentries hfeatures hinside] at hmoved
      cases hmoved
      dsimp only
      have hlen' := h hinside
      rw [List.nil_append, List.nil_append, if_neg (by
        rw [hwritten, length_featureBlobs hinside]
        omega)]
      exact returns_pure _
  · rw [if_neg hfits]
    exact ⟨fun h => absurd rfl h, fun h => absurd h.1 hfits⟩

/-! ## All three -/

/-- The three functions return for a file exactly when nothing leaves it, or
`usize`, on their way through it. -/
theorem untrusted_returns_iff (file : List UInt8) (cpus : List Nat) :
    Returns (readPerfData file) ∧ Returns (auxtraceBlobs file) ∧
        Returns (splitByCpus file cpus) ↔
      ReadPerfDataFits file ∧ AuxtraceBlobsFits file ∧ SplitByCpusFits file cpus := by
  rw [returns_readPerfData, returns_auxtraceBlobs, returns_splitByCpus]

/-- A file whose one record is a loss of 16 bytes, where its count would end at
the 24th. -/
def shortLost : List UInt8 :=
  magic ++ fields [(8, 104), (8, 40), (8, 104), (8, 40), (8, 144), (8, 16), (8, 0), (8, 0),
    (8, 0), (8, 0), (8, 0), (8, 0)] ++ List.replicate 40 0 ++
    fields [(4, 2), (2, 0), (2, 16), (8, 1)]

theorem readPerfData_shortLost :
    readPerfData shortLost = .error .panic ∧
      ¬ ∀ (file : List UInt8) (cpus : List Nat), Returns (readPerfData file) ∧
        Returns (auxtraceBlobs file) ∧ Returns (splitByCpus file cpus) := by
  have hpanic : ¬ Returns (readPerfData shortLost) := by
    rw [returns_readPerfData]
    intro hfits
    obtain ⟨-, hattrs⟩ := hfits (by unfold Headed; decide +kernel) (by decide +kernel)
    obtain ⟨-, hrecords⟩ := hattrs (by decide +kernel)
    -- the record is there, and its count is read from its body
    have hroom := (hrecords (by decide +kernel) _ mem_reached_self).2 (by decide +kernel)
    exact absurd hroom (by decide +kernel)
  exact ⟨not_not.mp hpanic, fun h => hpanic (h shortLost []).1⟩

end TraceMcp.Capture
