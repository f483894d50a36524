import TraceMcp.Decode.Records
import TraceMcp.Model.Error

/-!
# Native decode streams

`src/decode/native.rs`: how the AUX blobs of a `perf.data` become record
streams. Blobs are grouped by CPU, cut at PSB packets into chunks, and the
chunks dealt round-robin to workers; a worker decodes its chunks one after
another into its own stream, and stream 0 is the sideband.

What libipt makes of a chunk is a parameter (`Libipt`): the batches
`decode_blob` flushes, as a list of what it pushes to them, and how it ended.
The clamp every batch goes through on its way out is `flushAll`.
-/

namespace TraceMcp.Decode

/-- A record with the time it is merged by. -/
abbrev Tagged := Option Nat × RawRecord

/-- Records cross a channel in batches. -/
abbrev Batch := List Tagged

/-! ## `perf.data` -/

/-- `Sideband`: the decoded non-AUX records. -/
inductive Sideband
  | mmap (pid tid time start len pgoff : Nat) (exec : Bool) (path : String)
  | comm (pid tid time : Nat) (comm : String) (exec : Bool)
  | fork (pid ppid tid ptid time : Nat)
  | exit (pid ppid tid ptid time : Nat)
  | switch (pid tid cpu time : Nat) (out : Bool)
  | itraceStart (pid tid cpu time : Nat)
  | lost (time cpu lost : Nat)

/-- `Sideband::time`. -/
def Sideband.time : Sideband → Nat
  | .mmap _ _ time _ _ _ _ _ | .comm _ _ time _ _ | .fork _ _ _ _ time | .exit _ _ _ _ time
  | .switch _ _ _ time _ | .itraceStart _ _ _ time | .lost time _ _ => time

/-- `AuxBlob`: a slice of raw trace bytes in the file. -/
structure AuxBlob where
  cpu : Nat
  tid : Nat
  bytes : Nat
  fileOffset : Nat
  deriving DecidableEq

/-- `PerfData`, as far as stream planning reads it. -/
structure PerfData where
  timeMult : Nat
  sideband : List Sideband
  blobs : List AuxBlob

/-- A recorded time; perf writes 0 for none. -/
def recordedTime (time : Nat) : Option Nat := if time ≠ 0 then some time else none

/-- The record a sideband entry becomes, if any. -/
def Sideband.record : Sideband → Option RawRecord
  | .mmap pid tid time start len pgoff exec path =>
    if exec then
      some (.mmap ⟨pid, tid, recordedTime time, start, len, pgoff, "r-xp", path⟩)
    else none
  | .comm pid tid time name exec =>
    some (.task ⟨if exec then .exec else .comm, pid, tid, none, none, recordedTime time,
      some name⟩)
  | .fork pid ppid tid ptid time =>
    some (.task ⟨.fork, pid, tid, some ppid, some ptid, recordedTime time, none⟩)
  | .exit pid ppid tid ptid time =>
    some (.task ⟨.exit, pid, tid, some ppid, some ptid, recordedTime time, none⟩)
  | .switch pid tid _ time out => some (.switch pid tid (recordedTime time) out)
  | .lost time cpu n => some (.lost ⟨recordedTime time, some cpu, n⟩)
  | .itraceStart .. => none

/-- `sideband_records`. -/
def sidebandRecords (pd : PerfData) : List Tagged :=
  pd.sideband.filterMap fun s => s.record.map fun rec => (recordedTime s.time, rec)

/-- `slice::chunks`. -/
def chunksOf (n : Nat) : List Tagged → List Batch
  | [] => []
  | x :: xs => (x :: xs.take (n - 1)) :: chunksOf n (xs.drop (n - 1))
termination_by xs => xs.length
decreasing_by
  rw [List.length_drop, List.length_cons]
  omega

theorem chunksOf_flatten (n : Nat) (xs : List Tagged) : (chunksOf n xs).flatten = xs := by
  induction xs using chunksOf.induct n with
  | case1 => rw [chunksOf, List.flatten_nil]
  | case2 x xs ih =>
    rw [chunksOf, List.flatten_cons, ih, List.cons_append, List.take_append_drop]

/-! ## Cutting at PSB packets -/

/-- The 16-byte PSB pattern. -/
def psb : List UInt8 := (List.replicate 8 [0x02, 0x82]).flatten

/-- The loop of `psb_offsets`, at offset `i` with `data` to go. -/
def psbOffsetsFrom (i : Nat) (data : List UInt8) : List Nat :=
  if data.length < 16 then []
  else if data.take 16 = psb then i :: psbOffsetsFrom (i + 16) (data.drop 16)
  else psbOffsetsFrom (i + 1) (data.drop 1)
termination_by data.length
decreasing_by
  all_goals
    rw [List.length_drop]
    omega

/-- `psb_offsets`. -/
def psbOffsets (data : List UInt8) : List Nat := psbOffsetsFrom 0 data

/-- `MIN_CHUNK`: 2 MiB. -/
def minChunk : Nat := 2097152

/-- The cuts of `split_at_psb`, latest first, for the offsets seen so far. -/
def psbCuts (len target : Nat) (offsets : List Nat) : List Nat :=
  offsets.foldl (fun cuts off =>
    if target ≤ off - cuts.headD 0 ∧ minChunk / 2 ≤ len - off then off :: cuts else cuts) [0]

/-- `split_at_psb`: at most `parts` chunks of about equal size, as offset and
length, each starting at a PSB. -/
def splitAtPsb (data : List UInt8) (parts : Nat) : List (Nat × Nat) :=
  if parts ≤ 1 ∨ data.length < 2 * minChunk then [(0, data.length)]
  else
    let target := max (data.length / parts) minChunk
    let cuts := (data.length :: psbCuts data.length target (psbOffsets data)).reverse
    (cuts.zip (cuts.drop 1)).map fun w => (w.1, w.2 - w.1)

/-! ## Planning -/

/-- The end of a blob, no further than the file goes. -/
def blobEnd (file : List UInt8) (b : AuxBlob) : Nat := min (b.fileOffset + b.bytes) file.length

/-- The bytes of a blob. -/
def blobBytes (file : List UInt8) (b : AuxBlob) : List UInt8 :=
  (file.take (blobEnd file b)).drop b.fileOffset

/-- One more blob of its CPU; CPUs stay in the order of their first blob. -/
def groupBlob (perCpu : List (Nat × List AuxBlob)) (b : AuxBlob) : List (Nat × List AuxBlob) :=
  if b.bytes = 0 then perCpu
  else if perCpu.any fun g => g.1 = b.cpu then
    perCpu.map fun g => if g.1 = b.cpu then (g.1, g.2 ++ [b]) else g
  else perCpu ++ [(b.cpu, [b])]

/-- Where decoding of a blob starts: at its first PSB in the newest
`1/tailDiv`, when only that part is wanted and it has one. -/
def keptStart (file : List UInt8) (tailDiv : Nat) (b : AuxBlob) : Nat :=
  let stop := blobEnd file b
  if tailDiv > 1 then
    let keepFrom := stop - (stop - b.fileOffset) / tailDiv
    match (psbOffsets (blobBytes file b)).find? fun o => keepFrom ≤ b.fileOffset + o with
    | some off => b.fileOffset + off
    | none => b.fileOffset
  else b.fileOffset

/-- The chunks of one blob. -/
def chunksOfBlob (file : List UInt8) (tailDiv parts : Nat) (b : AuxBlob) : List AuxBlob :=
  let start := keptStart file tailDiv b
  (splitAtPsb ((file.take (blobEnd file b)).drop start) parts).map fun seg =>
    { b with bytes := seg.2, fileOffset := start + seg.1 }

/-- The work items, one a chunk, CPU after CPU. -/
def planChunks (pd : PerfData) (file : List UInt8) (tailDiv parallelism : Nat) : List AuxBlob :=
  (pd.blobs.foldl groupBlob []).flatMap fun g =>
    g.2.flatMap (chunksOfBlob file tailDiv (max parallelism 1))

/-- The number of workers for `n` items. -/
def workerCount (parallelism n : Nat) : Nat := min (max parallelism 1) (max n 1)

/-- Items dealt round-robin; the first of them has index `i`. -/
def dealFrom {α : Type} (workers i : Nat) (groups : List (List α)) : List α → List (List α)
  | [] => groups
  | item :: items =>
    dealFrom workers (i + 1) (groups.modify (i % workers) (· ++ [item])) items

/-- The non-empty groups of items, one a worker. -/
def deal {α : Type} (parallelism : Nat) (items : List α) : List (List α) :=
  let workers := workerCount parallelism items.length
  (dealFrom workers 0 (List.replicate workers []) items).filter fun g => !g.isEmpty

/-! ## Decoding -/

/-- What `decode_blob` pushes to its batch. -/
inductive Emitted
  | sample (s : Sample)
  | error (e : DecoderErrorEvent)
  /-- An overflow event. -/
  | overflow (time : Option Nat)

/-- The time an element is pushed with. -/
def Emitted.time : Emitted → Option Nat
  | .sample s => s.timeNs
  | .error e => e.timeNs
  | .overflow t => t

/-- The record an element is pushed as. -/
def Emitted.record (cpu : Nat) : Emitted → RawRecord
  | .sample s => .sample s
  | .error e => .decoderError e
  | .overflow t => .lost ⟨t, some cpu, 1⟩

/-- One run of `decode_blob`: the batches it flushed and how it ended, with
the number of branches it emitted. -/
structure BlobRun where
  flushes : List (List Emitted)
  outcome : Result Nat

/-- What is not in the source: the section cache of a worker and libipt's
decode of a chunk on a CPU. -/
structure Libipt where
  fillSectionCache : Result Unit
  decodeBlob : List UInt8 → Nat → BlobRun

/-- A record with its own time replaced. -/
def retime (t : Nat) : RawRecord → RawRecord
  | .sample s => .sample { s with timeNs := some t }
  | .decoderError e => .decoderError { e with timeNs := some t }
  | .lost l => .lost { l with timeNs := some t }
  | rec => rec

/-- The clamp of `flush`: a time never goes back before `mono`. Returns the
last time as well. -/
def clampBatch (mono : Nat) : Batch → Nat × Batch
  | [] => (mono, [])
  | (none, rec) :: rest =>
    let (last, rest) := clampBatch mono rest
    (last, (none, rec) :: rest)
  | (some v, rec) :: rest =>
    let clamped := max v mono
    let (last, rest) := clampBatch clamped rest
    (last, (some clamped, retime clamped rec) :: rest)

/-- The batches of one chunk as they are sent; empty ones are not. -/
def flushAll (mono : Nat) : List Batch → List Batch
  | [] => []
  | [] :: batches => flushAll mono batches
  | (x :: xs) :: batches =>
    let (last, sent) := clampBatch mono (x :: xs)
    sent :: flushAll last batches

/-- What a chunk sends. -/
def chunkBatches (lib : Libipt) (file : List UInt8) (b : AuxBlob) : List Batch :=
  flushAll 0 ((lib.decodeBlob (blobBytes file b) b.cpu).flushes.map fun batch =>
    batch.map fun e => (e.time, e.record b.cpu))

/-- A worker decodes its chunks one after another; the first error ends it. -/
def decodeGroup (lib : Libipt) (file : List UInt8) : List AuxBlob → List Batch × Result Nat
  | [] => ([], .ok 0)
  | b :: rest =>
    match (lib.decodeBlob (blobBytes file b) b.cpu).outcome with
    | .error e => (chunkBatches lib file b, .error e)
    | .ok n =>
      let (batches, total) := decodeGroup lib file rest
      (chunkBatches lib file b ++ batches, total.map (n + ·))

/-- One worker: what it sends and what its thread returns. -/
def runWorker (lib : Libipt) (file : List UInt8) (group : List AuxBlob) :
    List Batch × Result Nat :=
  match lib.fillSectionCache with
  | .error e => ([], .error e)
  | .ok _ => decodeGroup lib file group

/-- `NativeStreams`: what each receiver delivers, what each thread returns, and
the number of chunk streams. -/
structure NativeStreams where
  receivers : List (List Batch)
  handles : List (Result Nat)
  streams : Nat

/-- `spawn_native_streams`. -/
def spawnNativeStreams (lib : Libipt) (pd : PerfData) (file : List UInt8)
    (tailDiv parallelism : Nat) : Result NativeStreams :=
  if pd.timeMult = 0 then
    .error (.decodeFailed "perf.data has no Intel PT AUXTRACE_INFO (not a PT capture?)")
  else
    let items := planChunks pd file tailDiv parallelism
    let runs := (deal parallelism items).map (runWorker lib file)
    .ok
      { receivers := chunksOf 2048 (sidebandRecords pd) :: runs.map (·.1)
        handles := .ok 0 :: runs.map (·.2)
        streams := items.length }

end TraceMcp.Decode
