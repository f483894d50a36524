import TraceMcp.Capture.Bundle
import TraceMcp.Capture.PerfData

/-!
# Bundles read back

What `readPerfData` finds in a file of `writeBundle`. `ReadsAs` is the contract
of one sideband record: wherever it stands, the record loop adds its entry and
goes on right behind it. Each kind of record meets it, and the sections of the
file are read by it one after another.
-/

namespace TraceMcp.Capture

open TraceMcp.Lib TraceMcp.Decode

/-- The most bytes a `Vec` holds. -/
def isizeMax : Nat := 2 ^ 63 - 1

/-! ## Numbers and slices -/

section Slices

variable {file part : List UInt8} {pos : Nat}

theorem slice_of_holds (h : Holds file pos part) :
    slice file pos (pos + part.length) = .ok part := by
  have hlen := h.length_le
  have hpart := h.take_drop
  rw [slice, if_pos ⟨by omega, hlen⟩, List.drop_take]
  rw [show pos + part.length - pos = part.length by omega, hpart]

theorem numAt_of_holds {width n : Nat} (h : Holds file pos (leBytes width n)) :
    numAt width file pos = .ok (n % 256 ^ width) := by
  have hslice := slice_of_holds h
  rw [length_leBytes] at hslice
  rw [numAt, hslice]
  show Except.ok (leNat (leBytes width n)) = _
  rw [leNat_leBytes]

/-- A field that fits its width is read as it was written. -/
theorem field_read {fs : List (Nat × Nat)} (h : Holds file pos (fields fs)) (i : Nat)
    {width n : Nat} (hi : fs[i]? = some (width, n)) (hn : n < 256 ^ width) :
    numAt width file (pos + ((fs.take i).map Prod.fst).sum) = .ok n := by
  have hread := numAt_of_holds (h.field i hi)
  rwa [Nat.mod_eq_of_lt hn] at hread

end Slices

theorem slice_ok {bytes : List UInt8} {a b : Nat} (hab : a ≤ b) (hb : b ≤ bytes.length) :
    slice bytes a b = .ok ((bytes.take b).drop a) := if_pos ⟨hab, hb⟩

theorem numAt_ok {width : Nat} {bytes : List UInt8} {o : Nat} (h : o + width ≤ bytes.length) :
    ∃ n, numAt width bytes o = .ok n := by
  rw [numAt, slice_ok (by omega) h]
  exact ⟨_, rfl⟩

/-! ## Names -/

/-- The name does not end in NUL. -/
def NoNulEnd (s : String) : Prop := s.toList.getLast? ≠ some '\x00'

instance (s : String) : Decidable (NoNulEnd s) := inferInstanceAs (Decidable (_ ≠ _))

theorem padTo_eq (min : Nat) (b : List UInt8) : ∃ k, padTo min b = b ++ List.replicate k 0 := by
  unfold padTo
  split
  next =>
    obtain ⟨k, hk⟩ := padTo_eq min (b ++ [0])
    refine ⟨k + 1, ?_⟩
    rw [hk, List.append_assoc, List.replicate_succ]
    rfl
  next => exact ⟨0, by rw [List.replicate_zero, List.append_nil]⟩
termination_by (max min b.length + 7) / 8 * 8 - b.length
decreasing_by
  rw [List.length_append, List.length_singleton]
  omega

theorem length_padTo (min : Nat) (b : List UInt8) :
    (padTo min b).length = (max min b.length + 7) / 8 * 8 := by
  unfold padTo
  split
  next =>
    rw [length_padTo min (b ++ [0]), List.length_append, List.length_singleton]
    omega
  next => omega
termination_by (max min b.length + 7) / 8 * 8 - b.length
decreasing_by
  rw [List.length_append, List.length_singleton]
  omega

theorem length_padded (s : String) (min : Nat) :
    (padded s min).length = (max min (Text.byteLen s.toList + 1) + 7) / 8 * 8 := by
  rw [padded, length_padTo, List.length_append, List.length_singleton, Text.byteLen]

theorem padded_eq (s : String) (min : Nat) :
    ∃ k, padded s min = Text.asBytes (s.toList ++ List.replicate k '\x00') := by
  obtain ⟨k, hk⟩ := padTo_eq min (Text.asBytes s.toList ++ [0])
  have hnuls : ∀ n, Text.asBytes (List.replicate n '\x00') = List.replicate n 0 := by
    intro n
    induction n with
    | zero => rfl
    | succ n ih =>
      show String.utf8EncodeChar '\x00' ++ Text.asBytes (List.replicate n '\x00') = _
      rw [ih]
      rfl
  refine ⟨k + 1, ?_⟩
  have happend : Text.asBytes (s.toList ++ List.replicate (k + 1) '\x00') =
      Text.asBytes s.toList ++ Text.asBytes (List.replicate (k + 1) '\x00') :=
    List.flatMap_append
  rw [padded, hk, happend, hnuls, List.append_assoc, List.replicate_succ]
  rfl

theorem rdropWhile_replicate (l : List Char) (k : Nat) :
    (l ++ List.replicate k '\x00').rdropWhile (· = '\x00') = l.rdropWhile (· = '\x00') := by
  induction k with
  | zero => rw [List.replicate_zero, List.append_nil]
  | succ k ih =>
    rw [List.replicate_succ', ← List.append_assoc, List.rdropWhile_concat_pos _ _ _ (by decide), ih]

/-- A padded name is read without its padding. -/
theorem readName_padded {s : String} (hs : NoNulEnd s) (min : Nat) :
    readName (padded s min) = s := by
  obtain ⟨k, hk⟩ := padded_eq s min
  have hself : s.toList.rdropWhile (· = '\x00') = s.toList := by
    rw [List.rdropWhile_eq_self_iff]
    intro hne hlast
    refine hs ?_
    rw [List.getLast?_eq_some_getLast hne]
    exact congrArg some (of_decide_eq_true hlast)
  rw [readName, hk, fromUtf8Lossy_asBytes, rdropWhile_replicate, hself, String.ofList_toList]

/-! ## One record -/

@[simp] theorem length_header (ty misc size : Nat) : (header ty misc size).length = 8 := by
  simp [header]

@[simp] theorem length_trailer (pid tid time cpu : Nat) : (trailer pid tid time cpu).length = 32 := by
  simp [trailer]

theorem length_record (ty misc : Nat) (body : List UInt8) (trail : Option (List UInt8)) :
    (record ty misc body trail).length = 8 + body.length + (trail.getD []).length := by
  simp [record, Nat.add_assoc]

/-- The loop reads the header of a record and goes on behind it. -/
theorem readRecords_record {file body : List UInt8} {trail : Option (List UInt8)}
    {pos ty misc stop : Nat} (h : Holds file pos (record ty misc body trail)) (hty : ty < 2 ^ 32)
    (hmisc : misc < 2 ^ 16) (hfit : (record ty misc body trail).length ≤ 65535)
    (hstop : pos + (record ty misc body trail).length ≤ stop) (hmax : stop ≤ isizeMax)
    (sampleType : Nat) (out : PerfData) :
    readRecords file sampleType stop pos out = (do
      let x ← readRecord file sampleType pos ty misc (record ty misc body trail).length out
      if usizeMax < pos + x.2 + (record ty misc body trail).length then .error .panic
      else
        readRecords file sampleType stop (pos + x.2 + (record ty misc body trail).length) x.1) := by
  have hlen := length_record ty misc body trail
  have hheader : Holds file pos (header ty misc (8 + body.length + (trail.getD []).length)) :=
    h.left.left
  rw [← hlen] at hheader
  have htyAt : u32At file pos = .ok ty := field_read hheader 0 rfl (by omega)
  have hmiscAt : u16At file (pos + 4) = .ok misc := field_read hheader 1 rfl (by omega)
  have hsizeAt : u16At file (pos + 6) = .ok (record ty misc body trail).length :=
    field_read hheader 2 rfl (by omega)
  have hsmall : stop < 2 ^ 63 := by
    unfold isizeMax at hmax
    omega
  rw [readRecords, if_neg (by unfold usizeMax; omega), dif_pos (by omega), htyAt, hmiscAt, hsizeAt]
  show dite _ _ _ = _
  rw [dif_neg (by omega)]

/-- A record that is read without a fault. -/
theorem readRecords_step {file body : List UInt8} {trail : Option (List UInt8)}
    {pos ty misc stop extra sampleType : Nat} {out out' : PerfData}
    (h : Holds file pos (record ty misc body trail)) (hty : ty < 2 ^ 32) (hmisc : misc < 2 ^ 16)
    (hfit : (record ty misc body trail).length ≤ 65535)
    (hstop : pos + (record ty misc body trail).length + extra ≤ stop) (hmax : stop ≤ isizeMax)
    (hread : readRecord file sampleType pos ty misc (record ty misc body trail).length out =
      .ok (out', extra)) :
    readRecords file sampleType stop pos out =
      readRecords file sampleType stop (pos + (record ty misc body trail).length + extra) out' := by
  have hsmall : stop < 2 ^ 63 := by
    unfold isizeMax at hmax
    omega
  rw [readRecords_record h hty hmisc hfit (by omega) hmax, hread, ok_bind]
  dsimp only
  rw [if_neg (by unfold usizeMax; omega), Nat.add_right_comm]

/-! ## Sideband records -/

/-- Read anywhere, the record adds the entry to the sideband. -/
def ReadsAs (bytes : List UInt8) (s : Sideband) : Prop :=
  ∀ file stop pos out, Holds file pos bytes → pos + bytes.length ≤ stop → stop ≤ isizeMax →
    readRecords file bundleSampleType stop pos out =
      readRecords file bundleSampleType stop (pos + bytes.length) (out.pushSideband s)

theorem trailerLen_bundle : trailerLen bundleSampleType = 32 := by decide

/-- A trailer lies inside its record. -/
theorem parseTrailer_ok (bytes : List UInt8) : ∃ tr, parseTrailer bytes bundleSampleType = .ok tr := by
  unfold parseTrailer
  rw [trailerLen_bundle]
  dsimp only
  split
  next => exact ⟨_, rfl⟩
  next hlen =>
    rw [show hasField bundleSampleType sampleTid = true by decide,
      show hasField bundleSampleType sampleTime = true by decide,
      show hasField bundleSampleType sampleId = false by decide,
      show hasField bundleSampleType sampleStreamId = false by decide,
      show hasField bundleSampleType sampleCpu = true by decide]
    obtain ⟨pid, hpid⟩ : ∃ n, u32At bytes (bytes.length - 32) = .ok n := numAt_ok (by omega)
    obtain ⟨tid, htid⟩ : ∃ n, u32At bytes (bytes.length - 32 + 4) = .ok n := numAt_ok (by omega)
    obtain ⟨time, htime⟩ : ∃ n, u64At bytes (bytes.length - 32 + 8) = .ok n := numAt_ok (by omega)
    obtain ⟨cpu, hcpu⟩ : ∃ n, u32At bytes (bytes.length - 32 + 8 + 8) = .ok n :=
      numAt_ok (by omega)
    refine ⟨⟨pid, tid, time, cpu⟩, ?_⟩
    simp only [if_true, Bool.false_eq_true, if_false]
    rw [hpid, htid]
    show (u64At _ _ >>= _) = _
    rw [htime]
    show (u32At _ _ >>= _) = _
    rw [hcpu]
    rfl

/-- The trailer a bundle writes is the one its sample type says. -/
theorem parseTrailer_trailer (front : List UInt8) {pid tid time cpu : Nat} (hpid : pid < 2 ^ 32)
    (htid : tid < 2 ^ 32) (htime : time < 2 ^ 64) :
    parseTrailer (front ++ trailer pid tid time cpu) bundleSampleType =
      .ok ⟨pid, tid, time, cpu % 2 ^ 32⟩ := by
  have h : Holds (front ++ trailer pid tid time cpu) front.length (trailer pid tid time cpu) := by
    have happend := holds_append front (trailer pid tid time cpu) []
    rwa [List.append_nil] at happend
  have hlen : (front ++ trailer pid tid time cpu).length = front.length + 32 := by simp
  have hpidAt : u32At (front ++ trailer pid tid time cpu) front.length = .ok pid :=
    field_read h 0 rfl (by omega)
  have htidAt : u32At (front ++ trailer pid tid time cpu) (front.length + 4) = .ok tid :=
    field_read h 1 rfl (by omega)
  have htimeAt : u64At (front ++ trailer pid tid time cpu) (front.length + 8) = .ok time :=
    field_read h 2 rfl (by omega)
  have hcpuAt : u32At (front ++ trailer pid tid time cpu) (front.length + 16) =
      .ok (cpu % 256 ^ 4) :=
    numAt_of_holds (h.field 3 rfl)
  unfold parseTrailer
  rw [trailerLen_bundle, if_neg (by omega), hlen, Nat.add_sub_cancel]
  rw [show hasField bundleSampleType sampleTid = true by decide,
    show hasField bundleSampleType sampleTime = true by decide,
    show hasField bundleSampleType sampleId = false by decide,
    show hasField bundleSampleType sampleStreamId = false by decide,
    show hasField bundleSampleType sampleCpu = true by decide]
  simp only [if_true, Bool.false_eq_true, if_false]
  rw [hpidAt, htidAt]
  show (u64At _ _ >>= _) = _
  rw [htimeAt]
  show (u32At _ _ >>= _) = _
  rw [hcpuAt]
  rfl

section Records

variable {body : List UInt8} {ty misc pid tid time cpu : Nat} {s : Sideband}

theorem ReadsAs.of_record {trail : Option (List UInt8)} (hty : ty < 2 ^ 32) (hmisc : misc < 2 ^ 16)
    (hfit : (record ty misc body trail).length ≤ 65535)
    (hread : ∀ file pos out, Holds file pos (record ty misc body trail) →
      readRecord file bundleSampleType pos ty misc (record ty misc body trail).length out =
        .ok (out.pushSideband s, 0)) :
    ReadsAs (record ty misc body trail) s :=
  fun file _ pos out h hstop hmax => readRecords_step h hty hmisc hfit hstop hmax (hread file pos out h)

/-- The parts of a record with a trailer, as the reader takes them. -/
theorem record_parts {file : List UInt8} {pos : Nat}
    (h : Holds file pos (record ty misc body (some (trailer pid tid time cpu))))
    (hpid : pid < 2 ^ 32) (htid : tid < 2 ^ 32) (htime : time < 2 ^ 64) :
    let bytes := record ty misc body (some (trailer pid tid time cpu))
    slice file pos (pos + bytes.length) = .ok bytes ∧
      slice bytes 8 bytes.length = .ok (body ++ trailer pid tid time cpu) ∧
      parseTrailer bytes bundleSampleType = .ok ⟨pid, tid, time, cpu % 2 ^ 32⟩ ∧
      Holds file (pos + 8) body := by
  intro bytes
  refine ⟨slice_of_holds h, ?_, parseTrailer_trailer _ hpid htid htime, ?_⟩
  · have hrest : Holds bytes 8 (body ++ trailer pid tid time cpu) := by
      have happend := holds_append
        (header ty misc (8 + body.length + (trailer pid tid time cpu).length))
        (body ++ trailer pid tid time cpu) []
      rwa [length_header, List.append_nil, ← List.append_assoc] at happend
    have hlen : bytes.length = 8 + (body ++ trailer pid tid time cpu).length := by
      rw [length_record, List.length_append, Nat.add_assoc]
      rfl
    rw [hlen]
    exact slice_of_holds hrest
  · have hbody := h.left.right
    rwa [length_header] at hbody

theorem forkRecord_reads {ppid ptid : Nat} (hpid : pid < 2 ^ 32) (hppid : ppid < 2 ^ 32)
    (htid : tid < 2 ^ 32) (hptid : ptid < 2 ^ 32) (cpu : Nat) :
    ReadsAs (forkRecord pid ppid tid ptid cpu) (.fork pid ppid tid ptid 0) := by
  refine ReadsAs.of_record (by omega) (by omega) (by simp [length_record]) fun file pos out h => ?_
  obtain ⟨hbytes, hrest, htrailer, hbody⟩ := record_parts h hpid htid (by omega)
  have hpidAt : u32At file (pos + 8) = .ok pid := field_read hbody 0 rfl (by omega)
  have hppidAt : u32At file (pos + 12) = .ok ppid := field_read hbody 1 rfl (by omega)
  have htidAt : u32At file (pos + 16) = .ok tid := field_read hbody 2 rfl (by omega)
  have hptidAt : u32At file (pos + 20) = .ok ptid := field_read hbody 3 rfl (by omega)
  have htime : u64At file (pos + 24) = .ok 0 := field_read hbody 4 rfl (by omega)
  rw [readRecord, hbytes, ok_bind, hrest, ok_bind, htrailer, ok_bind]
  show (u32At file (pos + 8) >>= _) = _
  rw [hpidAt, ok_bind, hppidAt, ok_bind, htidAt, ok_bind, hptidAt, ok_bind, htime, ok_bind]
  rfl

theorem commRecord_reads {comm : String} (hmisc : misc < 2 ^ 16) (hpid : pid < 2 ^ 32)
    (htid : tid < 2 ^ 32) (htime : time < 2 ^ 64) (hcomm : NoNulEnd comm)
    (hfit : (commRecord misc pid tid comm time cpu).length ≤ 65535) :
    ReadsAs (commRecord misc pid tid comm time cpu)
      (.comm pid tid time comm (misc &&& miscBit13 ≠ 0)) := by
  refine ReadsAs.of_record (by omega) hmisc hfit fun file pos out h => ?_
  obtain ⟨hbytes, hrest, htrailer, hbody⟩ := record_parts h hpid htid htime
  have hpidAt : u32At file (pos + 8) = .ok pid := field_read hbody.left 0 rfl (by omega)
  have htidAt : u32At file (pos + 12) = .ok tid := field_read hbody.left 1 rfl (by omega)
  have hname : slice ((fields [(4, pid), (4, tid)] ++ padded comm 16) ++ trailer pid tid time cpu) 8
      (((fields [(4, pid), (4, tid)] ++ padded comm 16) ++ trailer pid tid time cpu).length - 32) =
        .ok (padded comm 16) := by
    have hstands := slice_of_holds (holds_append (fields [(4, pid), (4, tid)]) (padded comm 16)
      (trailer pid tid time cpu))
    have hlen : ((fields [(4, pid), (4, tid)] ++ padded comm 16) ++ trailer pid tid time cpu).length -
        32 = 8 + (padded comm 16).length := by
      rw [List.length_append, List.length_append, length_trailer, Nat.add_sub_cancel]
      rfl
    rw [hlen]
    exact hstands
  rw [readRecord, hbytes, ok_bind, hrest, ok_bind, htrailer, ok_bind]
  show (u32At file (pos + 8) >>= _) = _
  rw [hpidAt, ok_bind, htidAt, ok_bind, trailerLen_bundle, hname, ok_bind, readName_padded hcomm]
  rfl

theorem mmapRecord_reads {m : ProcMap} (hpid : pid < 2 ^ 32) (htime : time < 2 ^ 64)
    (hpath : NoNulEnd m.path) (hfit : (mmapRecord pid time m).length ≤ 65535) :
    ReadsAs (mmapRecord pid time m)
      (.mmap pid pid time m.start.toNat m.len.toNat m.pgoff.toNat true m.path) := by
  refine ReadsAs.of_record (by omega) (by unfold miscUser; omega) hfit fun file pos out h => ?_
  obtain ⟨hbytes, hrest, htrailer, hbody⟩ := record_parts h hpid hpid htime
  have hstart : m.start.toNat < 2 ^ 64 := m.start.toNat_lt
  have hlen : m.len.toNat < 2 ^ 64 := m.len.toNat_lt
  have hpgoff : m.pgoff.toNat < 2 ^ 64 := m.pgoff.toNat_lt
  have hpidAt : u32At file (pos + 8) = .ok pid := field_read hbody.left 0 rfl (by omega)
  have htidAt : u32At file (pos + 12) = .ok pid := field_read hbody.left 1 rfl (by omega)
  have hstartAt : u64At file (pos + 16) = .ok m.start.toNat :=
    field_read hbody.left 2 rfl (by omega)
  have hlenAt : u64At file (pos + 24) = .ok m.len.toNat := field_read hbody.left 3 rfl (by omega)
  have hoff : u64At file (pos + 32) = .ok m.pgoff.toNat := field_read hbody.left 4 rfl (by omega)
  have hprot : u32At file (pos + 64) = .ok 5 := field_read hbody.left 8 rfl (by omega)
  have hpos := length_padded m.path 8
  have hname : slice file (pos + 72) (pos + 72 + (padded m.path 8).length) =
      .ok (padded m.path 8) := slice_of_holds hbody.right
  have hend : pos + (mmapRecord pid time m).length - 32 = pos + 72 + (padded m.path 8).length := by
    simp [mmapRecord, length_record]
    omega
  have hsub : subUsize (pos + (mmapRecord pid time m).length) 32 =
      .ok (pos + 72 + (padded m.path 8).length) := by
    rw [subUsize, if_pos (by omega), hend]
  rw [readRecord, hbytes, ok_bind, hrest, ok_bind, htrailer, ok_bind]
  show (u32At file (pos + 8) >>= _) = _
  rw [hpidAt, ok_bind, htidAt, ok_bind, hstartAt, ok_bind, hlenAt, ok_bind, hoff, ok_bind, hprot,
    ok_bind, trailerLen_bundle]
  show (subUsize (pos + (mmapRecord pid time m).length) 32 >>= _) = _
  rw [hsub, ok_bind, if_pos (by omega), hname, ok_bind]
  dsimp only
  rw [readName_padded hpath]
  rfl

theorem itraceStartRecord_reads (hpid : pid < 2 ^ 32) (htid : tid < 2 ^ 32) (cpu : Nat) :
    ReadsAs (itraceStartRecord pid tid cpu) (.itraceStart pid tid (cpu % 2 ^ 32) 0) := by
  refine ReadsAs.of_record (by omega) (by omega) (by simp [length_record]) fun file pos out h => ?_
  obtain ⟨hbytes, hrest, htrailer, hbody⟩ := record_parts h hpid htid (by omega)
  have hpidAt : u32At file (pos + 8) = .ok pid := field_read hbody 0 rfl (by omega)
  have htidAt : u32At file (pos + 12) = .ok tid := field_read hbody 1 rfl (by omega)
  rw [readRecord, hbytes, ok_bind, hrest, ok_bind, htrailer, ok_bind]
  show (u32At file (pos + 8) >>= _) = _
  rw [hpidAt, ok_bind, htidAt, ok_bind]
  rfl

end Records

/-- Records that each read as an entry read as the entries, in order. -/
theorem readRecords_sideband {records : List (List UInt8)} {entries : List Sideband}
    (hreads : List.Forall₂ ReadsAs records entries) {file : List UInt8} {stop pos : Nat}
    (out : PerfData) (h : Holds file pos records.flatten)
    (hstop : pos + records.flatten.length ≤ stop) (hmax : stop ≤ isizeMax) :
    readRecords file bundleSampleType stop pos out =
      readRecords file bundleSampleType stop (pos + records.flatten.length)
        { out with sideband := out.sideband ++ entries } := by
  induction hreads generalizing pos out with
  | nil =>
    rw [List.append_nil]
    rfl
  | cons hread _ ih =>
    rw [List.flatten_cons] at h hstop ⊢
    rw [List.length_append] at hstop ⊢
    rw [hread file stop pos out h.left (by omega) hmax, ih _ h.right (by omega), Nat.add_assoc]
    show readRecords _ _ _ _ ⟨_, (out.sideband ++ _) ++ _, _, _⟩ = _
    rw [List.append_assoc]
    rfl

/-! ## The Intel PT words -/

/-- The parameters a bundle is written with. -/
def bundleInfo (pmu : PtPmu) (ratio : UInt32 × UInt32) (events : List PtEvent) : IntelPtInfo :=
  let timing := (events.head?.map (·.timing)).getD ⟨0, 0, 0, false⟩
  { pmuType := pmu.pmuType.toNat
    timeShift := timing.shift.toNat
    timeMult := timing.mult.toNat
    timeZero := timing.zero.toNat
    capUserTimeZero := timing.capZero
    tscBit := (pmu.flag "tsc").toNat
    noretcompBit := (pmu.flag "noretcomp").toNat
    haveSchedSwitch := 0
    snapshotMode := true
    perCpuMmaps := false
    mtcBit := (pmu.flag "mtc").toNat
    mtcFreqBits := pmu.mtcPeriods.toNat
    tscCtcRatioN := ratio.1.toNat
    tscCtcRatioD := ratio.2.toNat
    cycBit := (pmu.flag "cyc").toNat
    maxNonturboRatio := 0 }

theorem infoWords_lt (pmu : PtPmu) (ratio : UInt32 × UInt32) (events : List PtEvent) :
    ∀ w ∈ infoWords pmu ratio events, w < 2 ^ 64 := by
  have hword : ∀ n : UInt32, n.toNat < 2 ^ 64 := fun n =>
    n.toNat_lt.trans (Nat.pow_lt_pow_right (by omega) (by omega))
  have hhalf : ∀ n : UInt16, n.toNat < 2 ^ 64 := fun n =>
    n.toNat_lt.trans (Nat.pow_lt_pow_right (by omega) (by omega))
  have hbit : ∀ b : Bool, b.toNat < 2 ^ 64 := fun b => (Bool.toNat_lt b).trans (by omega)
  simp only [infoWords, List.forall_mem_cons, List.not_mem_nil, false_imp_iff, implies_true, hword,
    hhalf, hbit, UInt64.toNat_lt, and_true, true_and]
  omega

theorem readInfo_infoRecord {file : List UInt8} {pos : Nat} {pmu : PtPmu} {ratio : UInt32 × UInt32}
    {events : List PtEvent} (h : Holds file pos (infoRecord (infoWords pmu ratio events))) :
    readInfo file pos = .ok (bundleInfo pmu ratio events) := by
  have hbody := h.left.right
  rw [length_header] at hbody
  -- the words stand behind the kind and a reserved word
  have hword : ∀ i w, (infoWords pmu ratio events)[i]? = some w →
      u64At file (pos + 16 + i * 8) = .ok w := by
    intro i w hi
    have hlt := infoWords_lt pmu ratio events w (List.mem_of_getElem? hi)
    have hread : numAt 8 file (pos + 8 + _) = .ok w :=
      field_read hbody (i + 2) (by simpa using hi) hlt
    have hsum : (((([(4, 1), (4, 0)] : List (Nat × Nat)) ++
        (infoWords pmu ratio events).map fun w => (8, w)).take (i + 2)).map Prod.fst).sum =
        8 + i * 8 := by
      have hi' := (List.getElem?_eq_some_iff.mp hi).1
      simp [List.map_take, Function.comp_def]
      omega
    rw [hsum, ← Nat.add_assoc, Nat.add_right_comm pos 8 8] at hread
    rw [show pos + 16 + i * 8 = pos + 8 + 8 + i * 8 by omega]
    exact hread
  unfold readInfo
  dsimp only
  rw [hword 0 _ rfl, ok_bind, hword 1 _ rfl, ok_bind, hword 2 _ rfl, ok_bind, hword 3 _ rfl, ok_bind,
    hword 4 _ rfl, ok_bind, hword 5 _ rfl, ok_bind, hword 6 _ rfl, ok_bind, hword 7 _ rfl, ok_bind,
    hword 8 _ rfl, ok_bind, hword 9 _ rfl, ok_bind, hword 10 _ rfl, ok_bind, hword 11 _ rfl, ok_bind,
    hword 12 _ rfl, ok_bind, hword 13 _ rfl, ok_bind, hword 14 _ rfl, ok_bind, hword 15 _ rfl, ok_bind]
  have hcap : ∀ b : Bool, decide (b.toNat ≠ 0) = b := by decide
  rw [hcap]
  rfl

theorem readRecords_info {file : List UInt8} {pos stop : Nat} {pmu : PtPmu}
    {ratio : UInt32 × UInt32} {events : List PtEvent} (out : PerfData)
    (h : Holds file pos (infoRecord (infoWords pmu ratio events)))
    (hstop : pos + (infoRecord (infoWords pmu ratio events)).length ≤ stop)
    (hmax : stop ≤ isizeMax) :
    readRecords file bundleSampleType stop pos out =
      readRecords file bundleSampleType stop
        (pos + (infoRecord (infoWords pmu ratio events)).length)
        { out with info := bundleInfo pmu ratio events } := by
  have hlen : (infoRecord (infoWords pmu ratio events)).length = 152 := by
    simp [infoRecord, length_record, infoWords]
  have hbody := h.left.right
  rw [length_header] at hbody
  have hkind : u32At file (pos + 8) = .ok 1 := field_read hbody 0 rfl (by omega)
  have hbytes := slice_of_holds h
  -- the record has no trailer, but is longer than one
  obtain ⟨tr, htr⟩ : ∃ tr, parseTrailer (infoRecord (infoWords pmu ratio events)) bundleSampleType =
      .ok tr := parseTrailer_ok _
  have hrest : slice (infoRecord (infoWords pmu ratio events)) 8
      (infoRecord (infoWords pmu ratio events)).length = .ok _ := slice_ok (by omega) (Nat.le_refl _)
  have hread : readRecord file bundleSampleType pos 70 0
      (infoRecord (infoWords pmu ratio events)).length out =
        .ok ({ out with info := bundleInfo pmu ratio events }, 0) := by
    rw [readRecord, hbytes, ok_bind, hrest, ok_bind, htr, ok_bind]
    show (u32At file (pos + 8) >>= _) = _
    rw [hkind, ok_bind, if_pos ⟨rfl, by omega⟩, readInfo_infoRecord h, ok_bind]
    rfl
  exact readRecords_step h (by omega) (by omega) (by
    show (infoRecord (infoWords pmu ratio events)).length ≤ 65535
    omega) hstop hmax hread

/-! ## Blobs -/

/-- The blob is this snapshot: its thread, its index as CPU, and a range of the
file with exactly its bytes. -/
def BlobOf (file : List UInt8) (b : AuxBlob) (x : PtEvent × Nat × List UInt8) : Prop :=
  b.tid = x.1.tid.toNat ∧ b.cpu = x.2.1 % 2 ^ 32 ∧ b.bytes = x.2.2.length ∧
    slice file b.fileOffset (b.fileOffset + b.bytes) = .ok x.2.2

theorem readRecords_blobs {file : List UInt8} {stop : Nat} (hmax : stop ≤ isizeMax) :
    ∀ (xs : List (PtEvent × Nat × List UInt8)) (pos : Nat) (out : PerfData),
      Holds file pos (xs.flatMap auxtraceData) →
      pos + (xs.flatMap auxtraceData).length ≤ stop →
      ∃ blobs, List.Forall₂ (BlobOf file) blobs xs ∧
        readRecords file bundleSampleType stop pos out =
          readRecords file bundleSampleType stop (pos + (xs.flatMap auxtraceData).length)
            { out with blobs := out.blobs ++ blobs }
  | [], pos, out, _, _ => ⟨[], .nil, by rw [List.append_nil]; rfl⟩
  | x :: xs, pos, out, h, hstop => by
    obtain ⟨e, i, blob⟩ := x
    rw [List.flatMap_cons] at h hstop ⊢
    rw [List.length_append] at hstop
    have hlen : (auxtraceRecord blob.length e.tid.toNat i).length = 48 := by
      simp [auxtraceRecord, length_record]
    have hdata : (auxtraceData (e, i, blob)).length = 48 + blob.length := by
      rw [auxtraceData, List.length_append, hlen]
    have hrecord : Holds file pos (auxtraceRecord blob.length e.tid.toNat i) := h.left.left
    have hblob : Holds file (pos + 48) blob := hlen ▸ h.left.right
    have hbody := hrecord.left.right
    rw [length_header] at hbody
    have hsmall : stop < 2 ^ 63 := by
      unfold isizeMax at hmax
      omega
    have htid : e.tid.toNat < 2 ^ 32 := e.tid.toNat_lt
    have hsize : u64At file (pos + 8) = .ok blob.length := field_read hbody 0 rfl (by omega)
    have htid : u32At file (pos + 36) = .ok e.tid.toNat := field_read hbody 4 rfl htid
    have hcpu : u32At file (pos + 40) = .ok (i % 256 ^ 4) := numAt_of_holds (hbody.field 5 rfl)
    obtain ⟨tr, htr⟩ : ∃ tr, parseTrailer (auxtraceRecord blob.length e.tid.toNat i)
        bundleSampleType = .ok tr := parseTrailer_ok _
    have hrest : slice (auxtraceRecord blob.length e.tid.toNat i) 8
        (auxtraceRecord blob.length e.tid.toNat i).length = .ok _ :=
      slice_ok (by omega) (Nat.le_refl _)
    -- one AUXTRACE record is read as the blob behind it
    have hread : readRecord file bundleSampleType pos 71 0
        (auxtraceRecord blob.length e.tid.toNat i).length out =
          .ok ({ out with blobs := out.blobs ++
            [⟨i % 2 ^ 32, e.tid.toNat, blob.length, pos + 48⟩] }, blob.length) := by
      rw [readRecord, slice_of_holds hrecord, ok_bind, hrest, ok_bind, htr, ok_bind]
      show (u64At file (pos + 8) >>= _) = _
      rw [hsize, ok_bind, hcpu, ok_bind, htid, ok_bind, hlen]
      rfl
    have hstep := readRecords_step hrecord (by omega) (by omega) (by
      show (auxtraceRecord blob.length e.tid.toNat i).length ≤ 65535
      omega) (by
      show pos + (auxtraceRecord blob.length e.tid.toNat i).length + blob.length ≤ stop
      omega) hmax hread
    have hnext : pos + (auxtraceRecord blob.length e.tid.toNat i).length + blob.length =
        pos + (auxtraceData (e, i, blob)).length := by
      omega
    obtain ⟨blobs, hblobs, hrun⟩ := readRecords_blobs hmax xs
      (pos + (auxtraceData (e, i, blob)).length)
      { out with blobs := out.blobs ++ [⟨i % 2 ^ 32, e.tid.toNat, blob.length, pos + 48⟩] } h.right
      (by omega)
    refine ⟨⟨i % 2 ^ 32, e.tid.toNat, blob.length, pos + 48⟩ :: blobs,
      .cons ⟨rfl, rfl, rfl, slice_of_holds hblob⟩ hblobs, ?_⟩
    rw [hstep, show pos + (record 71 0 _ _).length + blob.length = _ from hnext, hrun,
      List.length_append, Nat.add_assoc]
    show readRecords _ _ _ _ ⟨_, _, (out.blobs ++ [_]) ++ blobs, _⟩ = _
    rw [List.append_assoc]
    rfl

/-! ## The sideband of a bundle -/

/-- What is recorded of a process: where it comes from, its name, its maps. -/
def procSideband (root : Option UInt32) (p : ProcInfo) : List Sideband :=
  let pid := p.pid.toNat
  let t := (p.execNs.getD 0).toNat
  (if some p.pid ≠ root then .fork pid p.ppid.toNat pid p.ppid.toNat 0
    else .comm pid pid 0 "perf-exec" false) ::
  .comm pid pid t p.comm p.execNs.isSome ::
  p.maps.map fun m => .mmap pid pid t m.start.toNat m.len.toNat m.pgoff.toNat true m.path

/-- What is recorded of a traced thread. -/
def threadSideband (e : PtEvent) (i : Nat) : List Sideband :=
  let pid := e.pid.toNat
  let tid := e.tid.toNat
  (if e.tid ≠ e.pid then
    .fork pid pid tid pid 0 :: if e.comm ≠ "" then [.comm pid tid 0 e.comm false] else []
  else []) ++ [.itraceStart pid tid (i % 2 ^ 32) 0]

/-- The sideband as it is written. -/
def bundleSideband (events : List PtEvent) (procs : List ProcInfo) (root : Option UInt32) :
    List Sideband :=
  procs.flatMap (procSideband root) ++ events.zipIdx.flatMap fun x => threadSideband x.1 x.2

theorem procRecords_read {root : Option UInt32} {p : ProcInfo}
    (hfit : ∀ r ∈ procRecords root p, r.length ≤ 65535) (hcomm : NoNulEnd p.comm)
    (hpaths : ∀ m ∈ p.maps, NoNulEnd m.path) :
    List.Forall₂ ReadsAs (procRecords root p) (procSideband root p) := by
  have hpid : p.pid.toNat < 2 ^ 32 := p.pid.toNat_lt
  have hppid : p.ppid.toNat < 2 ^ 32 := p.ppid.toNat_lt
  have htime : (p.execNs.getD 0).toNat < 2 ^ 64 := (p.execNs.getD 0).toNat_lt
  refine .cons ?_ (.cons ?_ ?_)
  · have hfirst := hfit _ List.mem_cons_self
    split
    next => exact forkRecord_reads hpid hppid hpid hppid 0
    next hroot =>
      rw [if_neg hroot] at hfirst
      exact commRecord_reads (by omega) hpid hpid (by omega) (by decide) hfirst
  · have hsecond := hfit _ (List.mem_cons_of_mem _ List.mem_cons_self)
    have hmisc : (if p.execNs.isSome then miscCommExec else 0) < 2 ^ 16 := by
      split <;> decide
    have hexec : ∀ b : Bool, decide ((if b then miscCommExec else 0) &&& miscBit13 ≠ 0) = b := by
      decide
    have hreads := commRecord_reads hmisc hpid hpid htime hcomm hsecond
    rwa [hexec] at hreads
  · rw [List.forall₂_map_left_iff, List.forall₂_map_right_iff, List.forall₂_same]
    intro m hm
    have hmap := hfit _ (List.mem_cons_of_mem _ (List.mem_cons_of_mem _ (List.mem_map_of_mem hm)))
    exact mmapRecord_reads hpid htime (hpaths m hm) hmap

theorem threadRecords_read {e : PtEvent} {i : Nat}
    (hfit : ∀ r ∈ threadRecords e i, r.length ≤ 65535) (hcomm : NoNulEnd e.comm) :
    List.Forall₂ ReadsAs (threadRecords e i) (threadSideband e i) := by
  have hpid : e.pid.toNat < 2 ^ 32 := e.pid.toNat_lt
  have htid : e.tid.toNat < 2 ^ 32 := e.tid.toNat_lt
  refine List.rel_append ?_ (.cons (itraceStartRecord_reads hpid htid i) .nil)
  split
  next hne =>
    refine .cons (forkRecord_reads hpid hpid htid hpid i) ?_
    split
    next hnamed =>
      refine .cons (commRecord_reads (by omega) hpid htid (by omega) hcomm (hfit _ ?_)) .nil
      refine List.mem_append_left _ ?_
      rw [if_pos hne, if_pos hnamed]
      exact List.mem_cons_of_mem _ List.mem_cons_self
    next => exact .nil
  next => exact .nil

theorem bundleRecords_read {events : List PtEvent} {procs : List ProcInfo} {root : Option UInt32}
    (hfit : ∀ r ∈ procs.flatMap (procRecords root) ++
      events.zipIdx.flatMap fun x => threadRecords x.1 x.2, r.length ≤ 65535)
    (hprocs : ∀ p ∈ procs, NoNulEnd p.comm ∧ ∀ m ∈ p.maps, NoNulEnd m.path)
    (hevents : ∀ e ∈ events, NoNulEnd e.comm) :
    List.Forall₂ ReadsAs
      (procs.flatMap (procRecords root) ++ events.zipIdx.flatMap fun x => threadRecords x.1 x.2)
      (bundleSideband events procs root) := by
  refine List.rel_append (forall₂_flatMap fun p hp => ?_) (forall₂_flatMap fun x hx => ?_)
  · refine procRecords_read (fun r hr => hfit r ?_) (hprocs p hp).1 (hprocs p hp).2
    exact List.mem_append_left _ (List.mem_flatMap_of_mem hp hr)
  · refine threadRecords_read (fun r hr => hfit r ?_) (hevents x.1 ?_)
    · exact List.mem_append_right _ (List.mem_flatMap_of_mem hx hr)
    · exact List.fst_mem_of_mem_zipIdx hx

/-! ## The file -/

section File

variable {pmu : PtPmu} {terms : EffectivePtTerms} {ratio : UInt32 × UInt32} {events : List PtEvent}
  {procs : List ProcInfo} {root : Option UInt32}

theorem length_fileHeader (size : Nat) : (fileHeader size).length = 104 := by
  have hmagic : (Text.ascii "PERFILE2").length = 8 := by decide
  simp [fileHeader, hmagic]

theorem length_attrBytes (pmu : PtPmu) (terms : EffectivePtTerms) :
    (attrBytes pmu terms).length = 136 := by
  simp [attrBytes]

/-- Reading a bundle comes down to reading its records. -/
theorem readPerfData_records (pmu : PtPmu) (terms : EffectivePtTerms) {data : List UInt8}
    (hmax : 264 + data.length ≤ isizeMax) :
    let file := fileHeader data.length ++ attrBytes pmu terms ++
      fields [(8, 256), (8, 8), (8, 0)] ++ data
    Holds file 264 data ∧ readPerfData file = (do
      let out ← readRecords file bundleSampleType (264 + data.length) 264
        ⟨.default, [], [], bundleSampleType⟩
      pure { out with sideband := out.sideband.mergeSort fun a b => a.time ≤ b.time }) := by
  intro file
  have hids : (fields [(8, 256), (8, 8), (8, 0)]).length = 24 := by simp
  have hlen : file.length = 264 + data.length := by
    show List.length (fileHeader data.length ++ attrBytes pmu terms ++
      fields [(8, 256), (8, 8), (8, 0)] ++ data) = _
    rw [List.length_append, List.length_append, List.length_append, length_fileHeader,
      length_attrBytes, hids]
  have hsmall : 264 + data.length < 2 ^ 63 := by
    unfold isizeMax at hmax
    omega
  have hwhole : Holds file 0 file := ⟨Nat.zero_le _, List.prefix_refl file⟩
  have hdata : Holds file 264 data := by
    have h := hwhole.right
    rwa [List.length_append, List.length_append, length_fileHeader, length_attrBytes, hids] at h
  have hattr : Holds file 104 (attrBytes pmu terms) := by
    have h := hwhole.left.left.right
    rwa [length_fileHeader] at h
  have hmagic : (Text.ascii "PERFILE2").length = 8 := by decide
  have hheader : Holds file 8 (fields [(8, 104), (8, attrSize + 16), (8, 104), (8, attrSize + 16),
      (8, 264), (8, data.length)]) := by
    have h := hwhole.left.left.left.left.left.right
    rwa [hmagic] at h
  have htake : file.take 8 = magic := by
    have h := hwhole.left.left.left.left.left.left.take_drop
    rw [List.drop_zero, hmagic] at h
    exact h
  have hattrs : u64At file 24 = .ok 104 := field_read hheader 2 rfl (by omega)
  have hattrsSize : u64At file 32 = .ok (attrSize + 16) :=
    field_read hheader 3 rfl (by unfold attrSize; omega)
  have hoff : u64At file 40 = .ok 264 := field_read hheader 4 rfl (by omega)
  have hsize : u64At file 48 = .ok data.length := field_read hheader 5 rfl (by omega)
  have htype : u64At file (104 + 24) = .ok bundleSampleType :=
    field_read hattr.left 4 rfl (by unfold bundleSampleType; omega)
  have hadd : addUsize 104 40 = .ok 144 := rfl
  have hstop : addUsize 264 data.length = .ok (264 + data.length) :=
    if_pos (by unfold usizeMax; omega)
  refine ⟨hdata, ?_⟩
  rw [readPerfData, if_neg (not_or.mpr ⟨by omega, not_not_intro htake⟩)]
  show (u64At file 24 >>= _) = _
  rw [hattrs, ok_bind, hattrsSize, ok_bind, hoff, ok_bind, hsize, ok_bind,
    if_neg (by unfold attrSize; omega)]
  show (addUsize 104 40 >>= _) = _
  rw [hadd, ok_bind, if_neg (by omega)]
  show (addUsize 264 data.length >>= _) = _
  rw [hstop, ok_bind, if_neg (by omega)]
  show (u64At file (104 + 24) >>= _) = _
  rw [htype, ok_bind]

/-- What the reader makes of a bundle. -/
theorem readPerfData_bundle
    (hfit : ∀ r ∈ bundleRecords pmu ratio events procs root, r.length ≤ 65535)
    (hprocs : ∀ p ∈ procs, NoNulEnd p.comm ∧ ∀ m ∈ p.maps, NoNulEnd m.path)
    (hevents : ∀ e ∈ events, NoNulEnd e.comm)
    (hmax : (writeBundle pmu terms ratio events procs root).1.length ≤ isizeMax) :
    ∃ blobs, readPerfData (writeBundle pmu terms ratio events procs root).1 = .ok
        ⟨bundleInfo pmu ratio events,
          (bundleSideband events procs root).mergeSort (fun a b => a.time ≤ b.time), blobs,
          bundleSampleType⟩ ∧
      List.Forall₂ (BlobOf (writeBundle pmu terms ratio events procs root).1) blobs
        (takenBlobs events) := by
  obtain ⟨records, hrecords⟩ : ∃ records, records = procs.flatMap (procRecords root) ++
    events.zipIdx.flatMap fun x => threadRecords x.1 x.2 := ⟨_, rfl⟩
  obtain ⟨data, hdata⟩ : ∃ data, data = infoRecord (infoWords pmu ratio events) ++
    records.flatten ++ (takenBlobs events).flatMap auxtraceData := ⟨_, rfl⟩
  have hfile : (writeBundle pmu terms ratio events procs root).1 = fileHeader data.length ++
      attrBytes pmu terms ++ fields [(8, 256), (8, 8), (8, 0)] ++ data := by
    rw [hdata, hrecords]
    rfl
  have hreads : List.Forall₂ ReadsAs records (bundleSideband events procs root) := by
    rw [hrecords]
    refine bundleRecords_read (fun r hr => hfit r ?_) hprocs hevents
    exact List.mem_cons_of_mem _ hr
  rw [hfile] at hmax ⊢
  rw [List.length_append, List.length_append, List.length_append, length_fileHeader,
    length_attrBytes, length_fields] at hmax
  have hmax : 264 + data.length ≤ isizeMax := hmax
  obtain ⟨hholds, hrun⟩ := readPerfData_records pmu terms hmax
  generalize fileHeader data.length ++ attrBytes pmu terms ++
    fields [(8, 256), (8, 8), (8, 0)] ++ data = file at hholds hrun ⊢
  have hlen : data.length = (infoRecord (infoWords pmu ratio events)).length +
      records.flatten.length + ((takenBlobs events).flatMap auxtraceData).length := by
    rw [hdata, List.length_append, List.length_append]
  rw [hdata] at hholds
  -- the parameters, then the sideband, then the blobs
  have hinfo := readRecords_info ⟨.default, [], [], bundleSampleType⟩ hholds.left.left
    (show _ ≤ 264 + data.length by omega) hmax
  have hside := readRecords_sideband hreads ⟨bundleInfo pmu ratio events, [], [], bundleSampleType⟩
    hholds.left.right (show _ ≤ 264 + data.length by omega) hmax
  have hblobs := hholds.right
  rw [List.length_append, ← Nat.add_assoc] at hblobs
  obtain ⟨blobs, hblobs, hrest⟩ := readRecords_blobs hmax (takenBlobs events) _
    ⟨bundleInfo pmu ratio events, [] ++ bundleSideband events procs root, [], bundleSampleType⟩ hblobs
    (by omega)
  have hend : 264 + (infoRecord (infoWords pmu ratio events)).length + records.flatten.length +
      ((takenBlobs events).flatMap auxtraceData).length = 264 + data.length := by
    omega
  have hsmall : 264 + data.length < 2 ^ 63 := by
    unfold isizeMax at hmax
    omega
  have hdone : ∀ out, readRecords file bundleSampleType (264 + data.length) (264 + data.length) out =
      .ok out := by
    intro out
    rw [readRecords, if_neg (by unfold usizeMax; omega), dif_neg (by omega)]
    rfl
  rw [hend] at hrest
  have hrecs := hinfo.trans (hside.trans (hrest.trans (hdone _)))
  rw [hrecs, ok_bind] at hrun
  exact ⟨_, hrun, hblobs⟩

/-- A bundle is read as it was written: its parameters, its sideband in stable
time order, and a blob for each snapshot that is not empty. -/
theorem readPerfData_writeBundle
    (hfit : ∀ r ∈ bundleRecords pmu ratio events procs root, r.length ≤ 65535)
    (hprocs : ∀ p ∈ procs, NoNulEnd p.comm ∧ ∀ m ∈ p.maps, NoNulEnd m.path)
    (hevents : ∀ e ∈ events, NoNulEnd e.comm)
    (hmax : (writeBundle pmu terms ratio events procs root).1.length ≤ isizeMax) :
    ∃ pd, readPerfData (writeBundle pmu terms ratio events procs root).1 = .ok pd ∧
      pd.info = bundleInfo pmu ratio events ∧ pd.sampleType = bundleSampleType ∧
      pd.sideband =
        (bundleSideband events procs root).mergeSort (fun a b => a.time ≤ b.time) ∧
      List.Forall₂ (BlobOf (writeBundle pmu terms ratio events procs root).1) pd.blobs
        (takenBlobs events) := by
  obtain ⟨blobs, hread, hblobs⟩ := readPerfData_bundle hfit hprocs hevents hmax
  exact ⟨_, hread, rfl, rfl, rfl, hblobs⟩

end File

/-! ### A bundle -/

/-- A PMU without format bits. -/
def plainPmu : PtPmu := ⟨11, ∅, 0⟩

def plainTerms : EffectivePtTerms := ⟨true, false, none, false, none, false, 0, true⟩

/-- A root with one mapping, which has exec'd. -/
def cargo : ProcInfo := ⟨42, 7, "cargo", [⟨0x1000, 0x2000, 0, "/bin/cargo"⟩], some 1000⟩

/-- A thread of it. -/
def cargoWorker : PtEvent := ⟨42, 43, "worker", some [2, 130, 2], ⟨0, 1, 0, true⟩⟩

theorem readPerfData_writeBundle_cargo :
    let file := (writeBundle plainPmu plainTerms (0, 0) [cargoWorker] [cargo] (some 42)).1
    ∃ pd, readPerfData file = .ok pd ∧ pd.info.timeMult = 1 ∧ pd.sideband.length = 6 ∧
      List.Forall₂ (BlobOf file) pd.blobs [(cargoWorker, 0, [2, 130, 2])] := by
  intro file
  have hfit : ∀ r ∈ bundleRecords plainPmu (0, 0) [cargoWorker] [cargo] (some 42),
      r.length ≤ 65535 := by
    simp [bundleRecords, procRecords, threadRecords, infoRecord, infoWords, forkRecord, commRecord,
      mmapRecord, itraceStartRecord, cargo, cargoWorker, length_record, length_padded]
    decide
  have hmax : file.length ≤ isizeMax := by
    simp [file, writeBundle, length_fileHeader, length_attrBytes, bundleRecords, procRecords,
      threadRecords, infoRecord, infoWords, forkRecord, commRecord, mmapRecord, itraceStartRecord,
      takenBlobs, auxtraceData, auxtraceRecord, cargo, cargoWorker, length_record, length_padded]
    decide
  obtain ⟨pd, hread, hinfo, -, hside, hblobs⟩ := readPerfData_writeBundle hfit (by decide)
    (by decide) hmax
  refine ⟨pd, hread, ?_, ?_, hblobs⟩
  · rw [hinfo]
    rfl
  · rw [hside, List.length_mergeSort]
    rfl

end TraceMcp.Capture
