import TraceMcp.Capture.PerfData
import TraceMcp.Lib.Word

/-!
# Listing and splitting the AUX blobs of a file

`auxtrace_blobs` and `split_by_cpus` of `src/capture/perfdata.rs`. Both walk
the records of the data section on their own, next to `read_perf_data`. The
first reads from the file as it goes and therefore ends where the file does;
the second copies what it keeps, writes a new feature table behind it and
patches the data size in the header.
-/

namespace TraceMcp.Capture

open TraceMcp.Lib TraceMcp.Decode

/-- `isize::MAX`: no offset beyond it can be sought. -/
def seekMax : Nat := 2 ^ 63 - 1

/-! ## Listing -/

/-- The record loop of `auxtrace_blobs`. -/
def auxtraceRecords (file : List UInt8) (stop pos : Nat) (out : List AuxBlob) :
    Read (List AuxBlob) :=
  if _hmax : usizeMax < pos + 8 then .error .panic
  else if pos + 8 ≤ stop then
    if seekMax < pos then .error (.error (Error.decodeFailed "Invalid argument (os error 22)"))
    else if file.length < pos + 8 then pure out
    else do
      let ty ← u32At file pos
      let size ← u16At file (pos + 6)
      if _hsize : size < 8 then
        throw (.error (Error.decodeFailed ("perf.data: record of size " ++ toString size ++
          " at offset " ++ toString pos)))
      else if _hnext : usizeMax < pos + size then .error .panic
      else if ty = 71 then
        if file.length < pos + 48 then
          throw (.error (Error.decodeFailed "perf.data: auxtrace body: failed to fill whole buffer"))
        else do
          let auxSize ← u64At file (pos + 8)
          let cpu ← u32At file (pos + 40)
          let tid ← u32At file (pos + 36)
          auxtraceRecords file stop (satAdd (pos + size) auxSize)
            (out ++ [⟨cpu, tid, auxSize, pos + size⟩])
      else auxtraceRecords file stop (pos + size) out
  else pure out
termination_by usizeMax - pos
decreasing_by
  · unfold satAdd wordSize usizeMax at *
    omega
  · unfold usizeMax at *
    omega

/-- `auxtrace_blobs`. -/
def auxtraceBlobs (file : List UInt8) : Read (List AuxBlob) := do
  if file.length < 56 then
    throw (.error (Error.decodeFailed "perf.data header: failed to fill whole buffer"))
  if file.take 8 ≠ magic then
    throw (.error (Error.decodeFailed "perf.data: bad magic (expected PERFILE2)"))
  let dataOff ← u64At file 40
  let dataSize ← u64At file 48
  auxtraceRecords file (satAdd dataOff dataSize) dataOff []

/-! ## Splitting -/

/-- `u64::count_ones`. -/
def countOnes (n : Nat) : Nat := ((List.range 64).filter n.testBit).length

/-- The record loop of `split_by_cpus`: `out` with the records that stay. -/
def splitRecords (file : List UInt8) (cpus : List Nat) (stop pos : Nat) (out : List UInt8) :
    Read (List UInt8) :=
  if _h : pos + 8 ≤ stop then do
    let ty ← u32At file pos
    let size ← u16At file (pos + 6)
    if _hsize : size < 8 ∨ stop < pos + size then pure out
    else if ty = 71 then do
      let auxSize ← u64At file (pos + 8)
      let recCpu ← u32At file (pos + 40)
      let total := size + auxSize
      if usizeMax < pos + total then .error .panic
      else if stop < pos + total then pure out
      else if recCpu ∈ cpus then do
        let kept ← slice file pos (pos + total)
        splitRecords file cpus stop (pos + total) (out ++ kept)
      else splitRecords file cpus stop (pos + total) out
    else do
      let kept ← slice file pos (pos + size)
      splitRecords file cpus stop (pos + size) (out ++ kept)
  else pure out
termination_by stop - pos
decreasing_by all_goals omega

/-- The features from the `i`-th on, each with its place in the old file and
the next free place in the new one. -/
def relocateFeatures (file : List UInt8) (tableOff : Nat) :
    List Nat → Nat → List UInt8 → List UInt8 → Read (List UInt8 × List UInt8)
  | [], _, table, blobs => pure (table, blobs)
  | i :: is, nextBlob, table, blobs => do
    let e := tableOff + i * 16
    let off ← u64At file e
    let size ← u64At file (e + 8)
    if file.length < (← addUsize off size) then
      throw (.error (Error.decodeFailed "perf.data: feature blob beyond EOF"))
    let blob ← slice file off (off + size)
    let next ← addUsize nextBlob size
    relocateFeatures file tableOff is next (table ++ leBytes 8 nextBlob ++ leBytes 8 size)
      (blobs ++ blob)

/-- How many entries the feature table of a file has. -/
def featureCount (file : List UInt8) : Read Nat := do
  let a ← u64At file 72
  let b ← u64At file 80
  let c ← u64At file 88
  let d ← u64At file 96
  pure (countOnes a + countOnes b + countOnes c + countOnes d)

/-- `split_by_cpus`: the file it writes. -/
def splitByCpus (file : List UInt8) (cpus : List Nat) : Read (List UInt8) := do
  if file.length < 104 ∨ file.take 8 ≠ magic then
    throw (.error (Error.decodeFailed "perf.data: bad header"))
  let dataOff ← u64At file 40
  let dataSize ← u64At file 48
  let dataEnd ← addUsize dataOff dataSize
  if file.length < dataEnd then
    throw (.error (Error.decodeFailed "perf.data: data section beyond EOF"))
  let nfeat ← featureCount file
  let tableLen := nfeat * 16
  if file.length < dataEnd + tableLen then
    throw (.error (Error.decodeFailed "perf.data: feature table beyond EOF"))
  let front ← slice file 0 dataOff
  let out ← splitRecords file cpus dataEnd dataOff front
  let newDataSize ← subUsize out.length dataOff
  let nextBlob ← addUsize out.length tableLen
  let (table, blobs) ← relocateFeatures file dataEnd (List.range nfeat) nextBlob [] []
  let out := out ++ table ++ blobs
  if out.length < 56 then .error .panic
  else pure (out.take 48 ++ leBytes 8 newDataSize ++ out.drop 56)

end TraceMcp.Capture
