import TraceMcp.Decode.Images
import TraceMcp.Decode.Records

/-!
# Instruction reconstruction

`InsnReconstructor` (`src/decode/instructions.rs`): instruction samples of a
bounded thread and time region, classified one by one. The outcome of a
conditional comes from the next instruction of its thread in the same
continuous segment. Decoding an instruction is `iced_x86`'s work and the DWARF
frames are `addr2line`'s (`InsnTools`); everything else is modelled.
-/

namespace TraceMcp.Decode

open TraceMcp.Lib

inductive InsnKind
  | sequential
  | conditional
  | jump
  | indirectJump
  | call
  | indirectCall
  | ret
  | other
  deriving DecidableEq

inductive BranchOutcome
  | taken
  | notTaken
  | unknown
  deriving DecidableEq

/-- `InstructionRecord`. -/
structure InstructionRecord where
  id : LocalId
  thread : ThreadId
  sequence : Nat
  time : EventTime
  location : Option LocalId
  virtIp : Nat
  symbol : Option String
  inlined : Option String
  imageOffset : Option Nat
  len : Nat
  kind : InsnKind
  branchTarget : Option Nat
  fallthrough : Option Nat
  outcome : Option BranchOutcome
  bytesHex : String

/-- `iced_x86::FlowControl`. -/
inductive FlowControl
  | next
  | unconditionalBranch
  | indirectBranch
  | conditionalBranch
  | call
  | indirectCall
  | ret
  | other
  deriving DecidableEq

/-- What `iced_x86` reports about the instruction at an address. -/
structure Instruction where
  len : Nat
  flowControl : FlowControl
  nearBranchTarget : Nat

/-- The libraries: the instruction decoder, and the innermost demangled DWARF
frame of an archive file at an image address. -/
structure InsnTools where
  decode : Nat → List UInt8 → Instruction
  innermost : String → Nat → Option String

/-- `classify`. -/
def classify (insn : Instruction) : InsnKind × Option Nat :=
  match insn.flowControl with
  | .next => (.sequential, none)
  | .unconditionalBranch => (.jump, some insn.nearBranchTarget)
  | .indirectBranch => (.indirectJump, none)
  | .conditionalBranch => (.conditional, some insn.nearBranchTarget)
  | .call => (.call, some insn.nearBranchTarget)
  | .indirectCall => (.indirectCall, none)
  | .ret => (.ret, none)
  | .other => (.other, none)

/-- `Decoded`. -/
structure Decoded where
  len : Nat
  kind : InsnKind
  target : Option Nat
  fallthrough : Option Nat

/-- `decode_one`. -/
def decodeOne (tools : InsnTools) (ip : Nat) (bytes : List UInt8) : Decoded :=
  if bytes.isEmpty then ⟨0, .other, none, none⟩
  else
    let insn := tools.decode ip bytes
    let len := insn.len % 2 ^ 8
    let (kind, target) := classify insn
    ⟨len, kind, target, if kind = .ret then none else checkedAdd ip len⟩

/-- `Selection`: the thread and time window kept. -/
structure Selection where
  threadId : Option ThreadId
  startNs : Option Nat
  endNs : Option Nat

/-- `PendingCond`: a conditional whose outcome the next instruction tells. -/
structure PendingCond where
  outIdx : Nat
  target : Option Nat
  fallthrough : Option Nat

/-- `Symbolized`: symbol, image-relative address, innermost inlined function. -/
abbrev Symbolized := Option String × Option Nat × Option String

/-- `InsnReconstructor`. The loaders of `addr2line` are inside `tools`. -/
structure InsnReconstructor where
  analysisId : String
  originAbs : Nat
  images : List ArchivedImage
  index : List ImageIndex
  tools : InsnTools
  mappings : List MappingRecord
  selThread : Option ThreadId
  selAbs : Option Nat × Option Nat
  out : List InstructionRecord
  seqByThread : FastMap Key Nat
  pending : FastMap Key PendingCond
  symCache : FastMap (Nat × Nat) Symbolized
  threadIds : ThreadIds
  nextId : LocalId
  decoderErrors : Nat
  missing : Nat
  samplesSeen : Nat
  budgetBytes : Nat
  pidFilter : Option PidTracker

/-- The report of an instruction pass; the fields of `QualityReport` that are
constant there are left out. -/
structure InsnQuality where
  missingImageCount : Nat
  decoderErrorCount : Nat
  notes : List String

/-- `InstructionIr`. The origin is its absolute time. -/
structure InstructionIr where
  analysisId : String
  origin : Nat
  instructions : List InstructionRecord
  quality : InsnQuality
  samplesSeen : Nat

namespace InsnReconstructor

/-- `InsnReconstructor::new`; `build` is `ImageIndex::build`. -/
def new (analysisId : String) (originAbs : Nat) (images : List ArchivedImage)
    (build : List UInt8 → ImageIndex) (tools : InsnTools) (mappings : List MappingRecord)
    (selection : Option Selection) : InsnReconstructor where
  analysisId := analysisId
  originAbs := originAbs
  images := images
  index := images.map fun i => build i.bytes
  tools := tools
  mappings := mappings
  selThread := selection.bind (·.threadId)
  selAbs := match selection with
    | some s => (s.startNs.map (satAdd originAbs), s.endNs.map (satAdd originAbs))
    | none => (none, none)
  out := []
  seqByThread := ∅
  pending := ∅
  symCache := ∅
  threadIds := .default
  nextId := 0
  decoderErrors := 0
  missing := 0
  samplesSeen := 0
  budgetBytes := wordSize - 1
  pidFilter := none

def withBudget (r : InsnReconstructor) (bytes : Nat) : InsnReconstructor :=
  { r with budgetBytes := bytes }

def withPidFilter (r : InsnReconstructor) (tracker : PidTracker) : InsnReconstructor :=
  { r with pidFilter := some tracker }

/-- `selected`: a sample of the chosen thread inside the window. -/
def selected (r : InsnReconstructor) (s : Sample) (tid : ThreadId) : Bool :=
  if r.selThread.any (· ≠ tid) then false
  else match r.selAbs, s.timeNs with
    | (none, none), _ => true
    | _, none => false
    | (lo, hi), some t => lo.all (· ≤ t) && hi.all (t < ·)

/-- The outcome the next instruction of the thread gives a conditional. -/
def outcomeOf (p : PendingCond) (nextIp : Option Nat) : BranchOutcome :=
  match nextIp, p.target, p.fallthrough with
  | none, _, _ => .unknown
  | some n, some t, some f =>
    if t = f then .unknown else if n = t then .taken else if n = f then .notTaken else .unknown
  | _, _, _ => .unknown

/-- `resolve_outcome`. -/
def resolveOutcome (r : InsnReconstructor) (k : Key) (nextIp : Option Nat) : InsnReconstructor :=
  match r.pending.get k with
  | none => r
  | some p =>
    { r with
      pending := r.pending.erase k
      out := r.out.modify p.outIdx fun i => { i with outcome := some (outcomeOf p nextIp) } }

/-- `mapping_for`: the newest mapping of `pid` covering `ip`, and its image. -/
def mappingFor (r : InsnReconstructor) (pid ip : Nat) : Option (MappingRecord × Option Nat) :=
  (r.mappings.reverse.find? fun m => m.pid = pid ∧ m.start ≤ ip ∧ ip < m.stop).map fun m =>
    (m, r.images.findIdx? fun i => i.identity.path = m.path)

/-- `symbolize`, on a cache miss. -/
def symbolizeUncached (r : InsnReconstructor) (pid ip : Nat) : Symbolized :=
  match r.mappingFor pid ip with
  | some (m, some ii) =>
    let idx := (r.index[ii]?).getD ⟨[], []⟩
    let rel := idx.relativeAddr ip m.start m.pgoff
    let sym := (rel.bind idx.function).map (·.demangled)
    let archive := ((r.images[ii]?).map (·.archivePath)).getD ""
    let inlined := rel.bind (r.tools.innermost archive)
    (sym, rel, inlined.filter fun i => sym ≠ some i)
  | _ => (none, none, none)

/-- `symbolize`: through the per-pid address cache. -/
def symbolize (r : InsnReconstructor) (pid ip : Nat) : InsnReconstructor × Symbolized :=
  match r.symCache.get (pid, ip) with
  | some v => (r, v)
  | none =>
    let v := r.symbolizeUncached pid ip
    ({ r with symCache := r.symCache.insert (pid, ip) v }, v)

/-- `insn_bytes`: the sample's own bytes, or up to 15 from the image. -/
def insnBytes (r : InsnReconstructor) (s : Sample) (ip : Nat) : InsnReconstructor × List UInt8 :=
  if s.insn.bytes ≠ [] then (r, s.insn.bytes)
  else match r.mappingFor s.pid ip with
    | some (m, some ii) =>
      match ImageIndex.fileOffset ip m.start m.pgoff with
      | none => (r, [])
      | some off =>
        let bytes := ((r.images[ii]?).map (·.bytes)).getD []
        (r, (bytes.drop off).take 15)
    | _ => ({ r with missing := r.missing + 1 }, [])

/-- `{b:02x}`. -/
def hexByte (b : UInt8) : String :=
  String.ofList [Nat.digitChar (b.toNat / 16), Nat.digitChar (b.toNat % 16)]

/-- The snapshot-relative time of a retained instruction. -/
def timeOf (r : InsnReconstructor) (timeNs : Option Nat) : EventTime :=
  match timeNs with
  | some t => if r.originAbs > 0 then .estimate (t - r.originAbs) else .estimate t
  | none => .unknown

/-- `push` on a mapping record. -/
def pushMmap (r : InsnReconstructor) (m : MmapEvent) : InsnReconstructor :=
  { r with
    mappings := r.mappings ++ [
      { generation := asU32 r.mappings.length
        pid := m.pid
        start := m.start
        stop := satAdd m.start m.len
        pgoff := m.pgoff
        prot := m.prot
        path := m.path
        buildId := none
        validFrom := .unknown
        validTo := none }]
    symCache := FastMap.retain (fun (key : Nat × Nat) _ => key.1 ≠ m.pid) r.symCache }

/-- `push` on a decoder error: outcomes across it are unknown, and the sequence
of each thread it may concern skips a number. -/
def pushDecoderError (r : InsnReconstructor) (e : DecoderErrorEvent) : InsnReconstructor :=
  let r := { r with decoderErrors := r.decoderErrors + 1 }
  match e.pid, e.tid with
  | some p, some t =>
    let r := r.resolveOutcome (p, t) none
    { r with seqByThread := r.seqByThread.modify (p, t) (· + 1) }
  | _, _ =>
    let r := r.pending.keys.foldl (fun r k => r.resolveOutcome k none) r
    { r with seqByThread := r.seqByThread.keys.foldl (fun m k => m.modify k (· + 1)) r.seqByThread }

/-- The thread a sample belongs to: an exit not yet consumed makes it a new
one, whose sequence starts over. -/
def enterThread (r : InsnReconstructor) (k : Key) : InsnReconstructor × ThreadId :=
  let (ids, exited) := r.threadIds.takeExited k
  ({ r with
    threadIds := ids
    seqByThread := if exited then r.seqByThread.insert k 1 else r.seqByThread }, ids.id k.1 k.2)

/-- Keep a selected instruction. -/
def retain (r : InsnReconstructor) (s : Sample) (tid : ThreadId) (seq ip : Nat) :
    Result InsnReconstructor :=
  let (r, bytes) := r.insnBytes s ip
  let decoded := decodeOne r.tools ip bytes
  let (r, sym) := r.symbolize s.pid ip
  let idx := r.out.length
  let r := { r with
    nextId := TraceMcp.nextId r.nextId
    out := r.out ++ [
      { id := r.nextId
        thread := tid
        sequence := seq
        time := r.timeOf s.timeNs
        location := none
        virtIp := ip
        symbol := sym.1
        inlined := sym.2.2
        imageOffset := sym.2.1
        len := decoded.len
        kind := decoded.kind
        branchTarget := decoded.target
        fallthrough := decoded.fallthrough
        outcome := none
        bytesHex := " ".intercalate (bytes.map hexByte) }]
    pending := if decoded.kind = .conditional then
        r.pending.insert (s.pid, s.tid) ⟨idx, decoded.target, decoded.fallthrough⟩
      else r.pending }
  if r.out.length % 8192 = 0 ∧ r.out.length * 160 > r.budgetBytes then
    .error ((Error.limit s!"resident decode budget {r.budgetBytes} exceeded with {r.out.length} instructions retained").withNext
      "Narrow start_ns/end_ns for the instruction decode")
  else .ok r

/-- `push` on an instruction sample. -/
def pushSample (r : InsnReconstructor) (s : Sample) : Result InsnReconstructor :=
  let k : Key := (s.pid, s.tid)
  let seq := ((r.seqByThread.get k).getD 0) + 1
  let r := { r with
    samplesSeen := r.samplesSeen + 1
    seqByThread := r.seqByThread.insert k seq }
  let ip := s.ip.getD 0
  let r := r.resolveOutcome k (some ip)
  let (r, tid) := r.enterThread k
  if r.selected s tid then r.retain s tid seq ip else .ok r

/-- A record that passed the filter. -/
def accept (r : InsnReconstructor) : RawRecord → Result InsnReconstructor
  | .mmap m => .ok (r.pushMmap m)
  | .task t => .ok { r with threadIds := r.threadIds.observe (.task t) }
  | .decoderError e => .ok (r.pushDecoderError e)
  | .sample s => if s.event.isInstruction then r.pushSample s else .ok r
  | _ => .ok r

/-- The process-tree filter of this pass: samples and mappings only. -/
def filtered (f : PidTracker) : RawRecord → Bool
  | .sample s => !f.isLiveThread s.pid s.tid
  | .mmap m => !f.mappingIsLive m
  | _ => false

/-- `push`. -/
def push (r : InsnReconstructor) (rec : RawRecord) : Result InsnReconstructor :=
  match r.pidFilter with
  | none => r.accept rec
  | some f =>
    let f := f.observe rec
    let r := { r with pidFilter := some f }
    if filtered f rec then .ok r else r.accept rec

/-- A whole record stream, pushed in order. -/
def pushAll (r : InsnReconstructor) (recs : List RawRecord) : Result InsnReconstructor :=
  recs.foldlM push r

/-- `finish`: what is still pending stays unknown. The hash order in which the
outcomes are resolved does not matter. -/
def finish (r : InsnReconstructor) : Result InstructionIr :=
  let r := r.pending.keys.foldl (fun r k => r.resolveOutcome k none) r
  let unknown := (r.out.filter fun i => i.outcome = some .unknown).length
  .ok
    { analysisId := r.analysisId
      origin := r.originAbs
      instructions := r.out
      quality :=
        { missingImageCount := r.missing
          decoderErrorCount := r.decoderErrors
          notes := ["taken_fraction is among known outcomes in the selected region only",
              s!"{r.samplesSeen} instruction samples scanned, {r.out.length} retained in the selection"]
            ++ if unknown > 0 then [s!"{unknown} conditional outcomes unknown"] else [] }
      samplesSeen := r.samplesSeen }

end InsnReconstructor

/-! ## Branch sites -/

/-- What `aggregate_branches` collects about a branch address. -/
structure Site where
  taken : Nat
  notTaken : Nat
  unknown : Nat
  targets : List Nat
  symbol : Option String

def Site.default : Site := ⟨0, 0, 0, [], none⟩

/-- `BranchSite`. The taken fraction is kept as numerator and denominator; its
six decimals are a floating-point rendering. -/
structure BranchSite where
  site : String
  symbol : Option String
  taken : Nat
  notTaken : Nat
  unknown : Nat
  takenFraction : Option (Nat × Nat)
  indirectTargets : List String

/-- `format!("0x{a:x}")`. -/
def hexAddress (a : Nat) : String := "0x" ++ String.ofList (Nat.toDigits 16 a)

/-- Count a conditional at its site. -/
def Site.count (e : Site) (insn : InstructionRecord) : Site :=
  let e := { e with symbol := e.symbol.or insn.symbol }
  match insn.outcome with
  | some .taken => { e with taken := e.taken + 1 }
  | some .notTaken => { e with notTaken := e.notTaken + 1 }
  | _ => { e with unknown := e.unknown + 1 }

/-- Note where an indirect branch went. -/
def Site.reach (e : Site) (insn next : InstructionRecord) : Site :=
  { e with
    symbol := e.symbol.or insn.symbol
    targets := if next.virtIp ∈ e.targets then e.targets else e.targets ++ [next.virtIp] }

/-- The instruction `next`, listed after `insn`, was executed right after it. -/
def follows (insn next : InstructionRecord) : Bool :=
  next.thread = insn.thread ∧ next.sequence = insn.sequence + 1

/-- The loop of `aggregate_branches`, over the instructions still to visit. -/
def collectSites (map : FastMap Nat Site) : List InstructionRecord → FastMap Nat Site
  | [] => map
  | insn :: rest =>
    let e := (map.get insn.virtIp).getD .default
    let map := match insn.kind with
      | .conditional => map.insert insn.virtIp (e.count insn)
      | .indirectCall | .indirectJump =>
        match rest.head?.filter (follows insn) with
        | some next => map.insert insn.virtIp (e.reach insn next)
        | none => map
      | _ => map
    collectSites map rest

/-- The row of a site. -/
def siteRow (ip : Nat) (s : Site) : BranchSite where
  site := hexAddress ip
  symbol := s.symbol
  taken := s.taken
  notTaken := s.notTaken
  unknown := s.unknown
  takenFraction := if s.taken + s.notTaken = 0 then none else some (s.taken, s.taken + s.notTaken)
  indirectTargets := s.targets.map hexAddress

/-- How often a site was executed. -/
def BranchSite.executions (b : BranchSite) : Nat := b.taken + b.notTaken + b.unknown

/-- Most executed sites first; ties by address text. -/
def siteLe (a b : BranchSite) : Bool :=
  b.executions < a.executions || (a.executions == b.executions && (a.site < b.site || a.site == b.site))

/-- `aggregate_branches`; the sites are visited in address order. -/
def aggregateBranches (insns : List InstructionRecord) : List BranchSite :=
  (((collectSites ∅ insns).entries.mergeSort fun a b => a.1 ≤ b.1).map fun e =>
    siteRow e.1 e.2).mergeSort siteLe

end TraceMcp.Decode
