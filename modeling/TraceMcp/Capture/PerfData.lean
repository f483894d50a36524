import TraceMcp.Decode.Native
import TraceMcp.Lib.Bytes
import TraceMcp.Lib.Runs

/-!
# Reading `perf.data`

`read_perf_data` of `src/capture/perfdata.rs`: the Intel PT parameters, the
sideband and the places of the AUX blobs in a file. The file is not trusted,
and what the source does with it can panic: `slice` is a range index, which
has to be in range, and an addition or a subtraction that leaves `usize`
panics too. `Fault` keeps that apart from an error.
-/

namespace TraceMcp.Capture

open TraceMcp.Lib TraceMcp.Decode

/-! ## Reading that can go wrong -/

/-- How reading ends early. -/
inductive Fault
  | error (e : Error)
  | panic

abbrev Read := Except Fault

def usizeMax : Nat := 2 ^ 64 - 1

/-- `&bytes[a..b]`. -/
def slice (bytes : List UInt8) (a b : Nat) : Read (List UInt8) :=
  if a ≤ b ∧ b ≤ bytes.length then .ok ((bytes.take b).drop a) else .error .panic

/-- The little-endian number of `width` bytes at an offset. -/
def numAt (width : Nat) (bytes : List UInt8) (o : Nat) : Read Nat :=
  (slice bytes o (o + width)).map leNat

def u16At : List UInt8 → Nat → Read Nat := numAt 2

def u32At : List UInt8 → Nat → Read Nat := numAt 4

def u64At : List UInt8 → Nat → Read Nat := numAt 8

/-- `a + b`. -/
def addUsize (a b : Nat) : Read Nat := if a + b ≤ usizeMax then .ok (a + b) else .error .panic

/-- `a - b`. -/
def subUsize (a b : Nat) : Read Nat := if b ≤ a then .ok (a - b) else .error .panic

/-- A name: lenient UTF-8 without the NULs at its end. -/
def readName (bytes : List UInt8) : String :=
  String.ofList ((fromUtf8Lossy bytes).rdropWhile (· = '\x00'))

/-! ## The data -/

/-- `IntelPtInfo`: the decoding parameters of `PERF_RECORD_AUXTRACE_INFO`. -/
structure IntelPtInfo where
  pmuType : Nat
  timeShift : Nat
  timeMult : Nat
  timeZero : Nat
  capUserTimeZero : Bool
  tscBit : Nat
  noretcompBit : Nat
  haveSchedSwitch : Nat
  snapshotMode : Bool
  perCpuMmaps : Bool
  mtcBit : Nat
  mtcFreqBits : Nat
  tscCtcRatioN : Nat
  tscCtcRatioD : Nat
  cycBit : Nat
  maxNonturboRatio : Nat
  deriving DecidableEq

/-- `IntelPtInfo::default`. -/
def IntelPtInfo.default : IntelPtInfo :=
  ⟨0, 0, 0, 0, false, 0, 0, 0, false, false, 0, 0, 0, 0, 0, 0⟩

/-- `PerfData`: what the native decoder needs of a file. -/
structure PerfData where
  info : IntelPtInfo
  sideband : List Sideband
  blobs : List AuxBlob
  sampleType : Nat

/-- As far as streams are planned by it. -/
def PerfData.plan (pd : PerfData) : Decode.PerfData := ⟨pd.info.timeMult, pd.sideband, pd.blobs⟩

def PerfData.pushSideband (pd : PerfData) (s : Sideband) : PerfData :=
  { pd with sideband := pd.sideband ++ [s] }

/-! ## Sample-id trailers -/

def sampleTid : Nat := 1 <<< 1
def sampleTime : Nat := 1 <<< 2
def sampleId : Nat := 1 <<< 6
def sampleCpu : Nat := 1 <<< 7
def sampleStreamId : Nat := 1 <<< 9
def sampleIdentifier : Nat := 1 <<< 16

/-- The sample type has a field. -/
def hasField (sampleType bit : Nat) : Bool := sampleType &&& bit ≠ 0

/-- `trailer_len`. -/
def trailerLen (sampleType : Nat) : Nat :=
  (([sampleTid, sampleTime, sampleId, sampleStreamId, sampleCpu, sampleIdentifier].filter
    (hasField sampleType)).map fun _ => 8).sum

structure Trailer where
  pid : Nat
  tid : Nat
  time : Nat
  cpu : Nat

/-- `parse_trailer`. -/
def parseTrailer (bytes : List UInt8) (sampleType : Nat) : Read Trailer :=
  let n := trailerLen sampleType
  if bytes.length < n then .ok ⟨0, 0, 0, 0⟩
  else do
    let o := bytes.length - n
    let (pid, tid) ← if hasField sampleType sampleTid then do
      let pid ← u32At bytes o
      let tid ← u32At bytes (o + 4)
      pure (pid, tid)
    else pure (0, 0)
    let o := if hasField sampleType sampleTid then o + 8 else o
    let time ← if hasField sampleType sampleTime then u64At bytes o else pure 0
    let o := if hasField sampleType sampleTime then o + 8 else o
    let o := if hasField sampleType sampleId then o + 8 else o
    let o := if hasField sampleType sampleStreamId then o + 8 else o
    let cpu ← if hasField sampleType sampleCpu then u32At bytes o else pure 0
    pure ⟨pid, tid, time, cpu⟩

/-! ## Records -/

/-- `MISC_COMM_EXEC` and `MISC_SWITCH_OUT`. -/
def miscBit13 : Nat := 1 <<< 13

/-- The Intel PT words of an `AUXTRACE_INFO` record at `pos`. -/
def readInfo (file : List UInt8) (pos : Nat) : Read IntelPtInfo := do
  let p (i : Nat) : Read Nat := u64At file (pos + 16 + i * 8)
  pure
    { pmuType := ← p 0
      timeShift := ← p 1
      timeMult := ← p 2
      timeZero := ← p 3
      capUserTimeZero := (← p 4) ≠ 0
      tscBit := ← p 5
      noretcompBit := ← p 6
      haveSchedSwitch := ← p 7
      snapshotMode := (← p 8) ≠ 0
      perCpuMmaps := (← p 9) ≠ 0
      mtcBit := ← p 10
      mtcFreqBits := ← p 11
      tscCtcRatioN := ← p 12
      tscCtcRatioD := ← p 13
      cycBit := ← p 14
      maxNonturboRatio := ← p 15 }

/-- One record at `pos`; returns also how many bytes follow it that belong to
it. -/
def readRecord (file : List UInt8) (sampleType pos ty misc size : Nat) (out : PerfData) :
    Read (PerfData × Nat) := do
  let bytes ← slice file pos (pos + size)
  let body ← slice bytes 8 bytes.length
  let tr ← parseTrailer bytes sampleType
  match ty with
  | 2 =>
    let lost ← u64At body 8
    pure (out.pushSideband (.lost tr.time tr.cpu lost), 0)
  | 3 =>
    let pid ← u32At file (pos + 8)
    let tid ← u32At file (pos + 12)
    let comm ← slice body 8 (body.length - trailerLen sampleType)
    pure (out.pushSideband (.comm pid tid tr.time (readName comm) (misc &&& miscBit13 ≠ 0)), 0)
  | 4 | 7 =>
    let pid ← u32At file (pos + 8)
    let ppid ← u32At file (pos + 12)
    let tid ← u32At file (pos + 16)
    let ptid ← u32At file (pos + 20)
    let time ← u64At file (pos + 24)
    pure (out.pushSideband (if ty = 7 then .fork pid ppid tid ptid time
      else .exit pid ppid tid ptid time), 0)
  | 10 =>
    let pid ← u32At file (pos + 8)
    let tid ← u32At file (pos + 12)
    let start ← u64At file (pos + 16)
    let len ← u64At file (pos + 24)
    let pgoff ← u64At file (pos + 32)
    let prot ← u32At file (pos + 64)
    let nameEnd ← subUsize (pos + size) (trailerLen sampleType)
    let name ← if pos + 72 < nameEnd then slice file (pos + 72) nameEnd else pure []
    pure (out.pushSideband
      (.mmap pid tid tr.time start len pgoff (prot &&& 4 ≠ 0) (readName name)), 0)
  | 12 =>
    let pid ← u32At file (pos + 8)
    let tid ← u32At file (pos + 12)
    pure (out.pushSideband (.itraceStart pid tid tr.cpu tr.time), 0)
  | 14 | 15 =>
    pure (out.pushSideband (.switch tr.pid tr.tid tr.cpu tr.time (misc &&& miscBit13 ≠ 0)), 0)
  | 70 =>
    let kind ← u32At file (pos + 8)
    if kind = 1 ∧ 8 + 8 + 17 * 8 ≤ size then
      let info ← readInfo file pos
      pure ({ out with info := info }, 0)
    else pure (out, 0)
  | 71 =>
    let auxSize ← u64At file (pos + 8)
    let cpu ← u32At file (pos + 40)
    let tid ← u32At file (pos + 36)
    pure ({ out with blobs := out.blobs ++ [⟨cpu, tid, auxSize, pos + size⟩] }, auxSize)
  | _ => pure (out, 0)

/-- The record loop of `read_perf_data`. -/
def readRecords (file : List UInt8) (sampleType stop pos : Nat) (out : PerfData) : Read PerfData :=
  if usizeMax < pos + 8 then .error .panic
  else if _h : pos + 8 ≤ stop then do
    let ty ← u32At file pos
    let misc ← u16At file (pos + 4)
    let size ← u16At file (pos + 6)
    if _hsize : size < 8 ∨ stop < pos + size then pure out
    else
      let (out, extra) ← readRecord file sampleType pos ty misc size out
      if usizeMax < pos + extra + size then .error .panic
      else readRecords file sampleType stop (pos + extra + size) out
  else pure out
termination_by stop - pos
decreasing_by omega

/-- `MAGIC`. -/
def magic : List UInt8 := Text.ascii "PERFILE2"

/-- `read_perf_data`: header, first attr, sideband records and AUX blobs. -/
def readPerfData (file : List UInt8) : Read PerfData := do
  if file.length < 104 ∨ file.take 8 ≠ magic then
    throw (.error (.decodeFailed "perf.data: bad header"))
  let beyond : Fault := .error (.decodeFailed "perf.data: sections beyond EOF")
  let attrsOff ← u64At file 24
  let attrsSize ← u64At file 32
  let dataOff ← u64At file 40
  let dataSize ← u64At file 48
  if attrsSize < 40 then throw beyond
  if file.length < (← addUsize attrsOff 40) then throw beyond
  let stop ← addUsize dataOff dataSize
  if file.length < stop then throw beyond
  -- the type lies behind type, size, config and period
  let sampleType ← u64At file (attrsOff + 24)
  let out ← readRecords file sampleType stop dataOff ⟨.default, [], [], sampleType⟩
  -- rings are read one after another; the decoders want the sideband by time
  pure { out with sideband := out.sideband.mergeSort fun a b => a.time ≤ b.time }

end TraceMcp.Capture
