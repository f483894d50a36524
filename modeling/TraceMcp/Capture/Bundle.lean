import TraceMcp.Lib.Bytes
import TraceMcp.Lib.FastMap
import TraceMcp.Model.Error

/-!
# Writing a bundle

`write_bundle` of `src/capture/direct.rs`: what the direct recorder has, in the
format of `perf.data`. A snapshot of a thread becomes one `AUXTRACE` blob on a
pseudo CPU, its index; the sideband around it is made up from `/proc`.

Numbers are written as `fields`, which cuts them to their width as a cast does.
Shifts are those of a release build, modulo the width of the type.
-/

namespace TraceMcp.Capture

open TraceMcp.Lib

/-! ## What is written -/

/-- `PtPmu`, as far as a bundle shows it: the bits are low and high bit of a
format name in `config`. -/
structure PtPmu where
  pmuType : UInt32
  bits : FastMap String (UInt32 × UInt32)
  mtcPeriods : UInt64

/-- `EffectivePtTerms`, as far as `config` is made of it. -/
structure EffectivePtTerms where
  tsc : Bool
  mtc : Bool
  mtcPeriod : Option UInt8
  cyc : Bool
  cycThresh : Option UInt8
  noretcomp : Bool
  psbPeriod : UInt8
  branch : Bool

/-- The clock of an event, from its metadata page. -/
structure Timing where
  shift : UInt16
  mult : UInt32
  zero : UInt64
  capZero : Bool

/-- `PtEvent`, as far as a bundle shows it. -/
structure PtEvent where
  pid : UInt32
  tid : UInt32
  comm : String
  /-- Raw trace bytes, once taken. -/
  snapshot : Option (List UInt8)
  timing : Timing

/-- An executable mapping of a process. -/
structure ProcMap where
  start : UInt64
  len : UInt64
  pgoff : UInt64
  path : String

/-- `ProcInfo`. -/
structure ProcInfo where
  pid : UInt32
  ppid : UInt32
  comm : String
  maps : List ProcMap
  /-- Time of the last exec, when one was observed. -/
  execNs : Option UInt64

namespace PtPmu

def bit (pmu : PtPmu) (name : String) : Option UInt32 := (pmu.bits.get name).map Prod.fst

/-- The mask of a one-bit format. -/
def flag (pmu : PtPmu) (name : String) : UInt64 :=
  match pmu.bit name with
  | some b => 1 <<< b.toUInt64
  | none => 0

def field (pmu : PtPmu) (name : String) (value : UInt64) : UInt64 :=
  match pmu.bits.get name with
  | some (lo, hi) =>
    let width := hi - lo + 1
    let mask : UInt64 := if 64 ≤ width then 0 - 1 else (1 <<< width.toUInt64) - 1
    (value &&& mask) <<< lo.toUInt64
  | none => 0

/-- `perf_event_attr.config` for the terms. -/
def config (pmu : PtPmu) (t : EffectivePtTerms) : UInt64 :=
  let c := pmu.flag "pt"
  let c := if t.tsc then c ||| pmu.flag "tsc" else c
  let c := if t.mtc then
    c ||| pmu.flag "mtc" ||| pmu.field "mtc_period" (t.mtcPeriod.getD 3).toUInt64 else c
  let c := if t.cyc then
    c ||| pmu.flag "cyc" ||| pmu.field "cyc_thresh" (t.cycThresh.getD 0).toUInt64 else c
  let c := if t.noretcomp then c ||| pmu.flag "noretcomp" else c
  let c := if t.branch then c ||| pmu.flag "branch" else c
  c ||| pmu.field "psb_period" t.psbPeriod.toUInt64

end PtPmu

/-! ## Records -/

/-- A record header. -/
def header (ty misc size : Nat) : List UInt8 := fields [(4, ty), (2, misc), (2, size)]

/-- The sample-id trailer of `bundleSampleType`. -/
def trailer (pid tid time cpu : Nat) : List UInt8 :=
  fields [(4, pid), (4, tid), (8, time), (4, cpu), (4, 0), (8, 0)]

def record (ty misc : Nat) (body : List UInt8) (trail : Option (List UInt8)) : List UInt8 :=
  let trail := trail.getD []
  header ty misc (8 + body.length + trail.length) ++ body ++ trail

/-- The loop of `padded`: NULs up to `min` and a multiple of 8. -/
def padTo (min : Nat) (b : List UInt8) : List UInt8 :=
  if b.length < min ∨ b.length % 8 ≠ 0 then padTo min (b ++ [0]) else b
termination_by (max min b.length + 7) / 8 * 8 - b.length
decreasing_by
  rw [List.length_append, List.length_singleton]
  omega

/-- A name with its NUL, padded. -/
def padded (s : String) (min : Nat) : List UInt8 := padTo min (Text.asBytes s.toList ++ [0])

def miscUser : Nat := 2

def miscCommExec : Nat := 1 <<< 13

def forkRecord (pid ppid tid ptid cpu : Nat) : List UInt8 :=
  record 7 0 (fields [(4, pid), (4, ppid), (4, tid), (4, ptid), (8, 0)])
    (some (trailer pid tid 0 cpu))

def commRecord (misc pid tid : Nat) (comm : String) (time cpu : Nat) : List UInt8 :=
  record 3 misc (fields [(4, pid), (4, tid)] ++ padded comm 16) (some (trailer pid tid time cpu))

/-- An MMAP2: device, inode and its generation are 0, the protection is
READ|EXEC. -/
def mmapRecord (pid time : Nat) (m : ProcMap) : List UInt8 :=
  record 10 miscUser
    (fields [(4, pid), (4, pid), (8, m.start.toNat), (8, m.len.toNat), (8, m.pgoff.toNat), (8, 0),
      (8, 0), (8, 0), (4, 5), (4, 0)] ++ padded m.path 8)
    (some (trailer pid pid time 0))

def itraceStartRecord (pid tid cpu : Nat) : List UInt8 :=
  record 12 0 (fields [(4, pid), (4, tid)]) (some (trailer pid tid 0 cpu))

/-- The record before a blob: size, offset, reference, idx, tid, cpu. -/
def auxtraceRecord (len tid idx : Nat) : List UInt8 :=
  record 71 0 (fields [(8, len), (8, 0), (8, 0), (4, idx), (4, tid), (4, idx), (4, 0)]) none

/-- The `AUXTRACE_INFO` of Intel PT. -/
def infoRecord (words : List Nat) : List UInt8 :=
  record 70 0 (fields ([(4, 1), (4, 0)] ++ words.map fun w => (8, w))) none

/-! ## Sections -/

/-- The Intel PT words; `ratio` is the TSC/CTC ratio of the CPU. -/
def infoWords (pmu : PtPmu) (ratio : UInt32 × UInt32) (events : List PtEvent) : List Nat :=
  let timing := (events.head?.map (·.timing)).getD ⟨0, 0, 0, false⟩
  [pmu.pmuType.toNat, timing.shift.toNat, timing.mult.toNat, timing.zero.toNat,
    timing.capZero.toNat, (pmu.flag "tsc").toNat, (pmu.flag "noretcomp").toNat,
    0, -- have_sched_switch
    1, -- snapshot_mode
    0, -- per_cpu_mmaps
    (pmu.flag "mtc").toNat, pmu.mtcPeriods.toNat, ratio.1.toNat, ratio.2.toNat,
    (pmu.flag "cyc").toNat,
    0, -- max_nonturbo_ratio
    0] -- filter string length

/-- The records of a process. The root is known by its name, as the forked
child of `perf record` is; the others by their FORK. -/
def procRecords (root : Option UInt32) (p : ProcInfo) : List (List UInt8) :=
  let pid := p.pid.toNat
  let misc := if p.execNs.isSome then miscCommExec else 0
  let t := (p.execNs.getD 0).toNat
  (if some p.pid ≠ root then forkRecord pid p.ppid.toNat pid p.ppid.toNat 0
    else commRecord 0 pid pid "perf-exec" 0 0) ::
  commRecord misc pid pid p.comm t 0 :: p.maps.map (mmapRecord pid t)

/-- The records of a traced thread, on its pseudo CPU. -/
def threadRecords (e : PtEvent) (i : Nat) : List (List UInt8) :=
  let pid := e.pid.toNat
  let tid := e.tid.toNat
  (if e.tid ≠ e.pid then
    forkRecord pid pid tid pid i ::
      if e.comm ≠ "" then [commRecord 0 pid tid e.comm 0 i] else []
  else []) ++ [itraceStartRecord pid tid i]

/-- Every record that is not followed by a blob. -/
def bundleRecords (pmu : PtPmu) (ratio : UInt32 × UInt32) (events : List PtEvent)
    (procs : List ProcInfo) (root : Option UInt32) : List (List UInt8) :=
  infoRecord (infoWords pmu ratio events) ::
    (procs.flatMap (procRecords root) ++ events.zipIdx.flatMap fun x => threadRecords x.1 x.2)

/-- The snapshots that are not empty, with their events and indices. -/
def takenBlobs (events : List PtEvent) : List (PtEvent × Nat × List UInt8) :=
  events.zipIdx.filterMap fun x =>
    match x.1.snapshot with
    | some (b :: blob) => some (x.1, x.2, b :: blob)
    | _ => none

/-- A blob behind its record. -/
def auxtraceData (x : PtEvent × Nat × List UInt8) : List UInt8 :=
  auxtraceRecord x.2.2.length x.1.tid.toNat x.2.1 ++ x.2.2

def bundleSampleType : Nat := 0x10087

def attrSize : Nat := 136

def flagExcludeKernel : Nat := 1 <<< 5
def flagExcludeHv : Nat := 1 <<< 6
def flagSampleIdAll : Nat := 1 <<< 18

/-- `PerfEventAttr`, zeroed but for type, size, config, sample type and flags. -/
def attrBytes (pmu : PtPmu) (terms : EffectivePtTerms) : List UInt8 :=
  fields [(4, pmu.pmuType.toNat), (4, attrSize), (8, (pmu.config terms).toNat), (8, 0),
    (8, bundleSampleType), (8, 0), (8, flagExcludeKernel ||| flagExcludeHv ||| flagSampleIdAll)] ++
  List.replicate 88 0

/-- The file header, for data of this size. -/
def fileHeader (size : Nat) : List UInt8 :=
  let headerLen := 104
  let dataOff := headerLen + attrSize + 16 + 8
  Text.ascii "PERFILE2" ++
    fields [(8, headerLen), (8, attrSize + 16), (8, headerLen), (8, attrSize + 16), (8, dataOff),
      (8, size)] ++
    List.replicate 16 0 ++ List.replicate 32 0

/-- `write_bundle`: the file, and the raw trace bytes in it. -/
def writeBundle (pmu : PtPmu) (terms : EffectivePtTerms) (ratio : UInt32 × UInt32)
    (events : List PtEvent) (procs : List ProcInfo) (root : Option UInt32) : List UInt8 × Nat :=
  let data := (bundleRecords pmu ratio events procs root).flatten ++
    (takenBlobs events).flatMap auxtraceData
  let idsOff := 104 + attrSize + 16
  (fileHeader data.length ++ attrBytes pmu terms ++ fields [(8, idsOff), (8, 8), (8, 0)] ++ data,
    ((takenBlobs events).map fun x => x.2.2.length).sum)

/-! ## The recorder -/

/-- `DirectRecorder`, as far as it writes a bundle. A process is recorded under
its pid. -/
structure DirectRecorder where
  pmu : PtPmu
  terms : EffectivePtTerms
  events : List PtEvent
  procs : FastMap UInt32 ProcInfo
  rootPid : Option UInt32
  notes : List String
  keyed : ∀ pid p, procs.get pid = some p → p.pid = pid

namespace DirectRecorder

/-- The processes in the order they are written. -/
def sortedProcs (r : DirectRecorder) : List ProcInfo :=
  r.procs.values.mergeSort fun a b => a.pid.toNat ≤ b.pid.toNat

/-- `DirectRecorder::write`. -/
def write (r : DirectRecorder) (ratio : UInt32 × UInt32) : Result (List UInt8 × Nat) :=
  if r.events.isEmpty then
    .error ((Error.new .ptUnavailable ("direct recorder traced no thread: " ++
      if r.notes.isEmpty then "no thread was reported by the launch shim"
      else "; ".intercalate r.notes)).withNext
        "TRACE_MCP_RECORDER=perf falls back to perf record")
  else .ok (writeBundle r.pmu r.terms ratio r.events r.sortedProcs r.rootPid)

end DirectRecorder

end TraceMcp.Capture
