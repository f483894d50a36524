import Mathlib.Data.List.Destutter
import Mathlib.Data.Prod.Lex
import TraceMcp.Capture.Clock
import TraceMcp.Decode.Images
import TraceMcp.Decode.Native
import TraceMcp.Lib.Advance
import TraceMcp.Lib.Numeral

/-!
# Decoding a blob

`decode_blob` of `src/decode/native.rs`: the loop around libipt's block decoder.
A block ends at a branch, and where the branch went is only known with the next
block; events stop that from being so. Who runs is what the switches of the CPU
say (`scheduleForCpu`) for the time libipt reports, and his image is what libipt
decodes with.

libipt is a parameter (`BlockDecoder`), with a state of its own, as are the
length of an instruction and whether the consumer of the batches still takes
one. Counters that are only printed are left out.
-/

namespace TraceMcp.Decode

open TraceMcp.Lib

namespace Blob

/-- `u32::MAX`. -/
def u32Max : Nat := 2 ^ 32 - 1

/-- `u64::MAX`. -/
def u64Max : Nat := 2 ^ 64 - 1

/-! ## Who runs where -/

/-- `Schedule`: a switch-in time, a pid and a tid. -/
abbrev Entry := Nat × Nat × Nat

/-- The order of tuples. -/
def Entry.le (a b : Entry) : Bool := decide (toLex (a.1, toLex a.2) ≤ toLex (b.1, toLex b.2))

/-- The entry a record makes for a CPU. -/
def scheduled (cpu : Nat) : Sideband → Option Entry
  | .switch pid tid c time false => if c = cpu then some (time, pid, tid) else none
  | .itraceStart pid tid c time => if c = cpu then some (time, pid, tid) else none
  | _ => none

/-- `schedule_for_cpu`. -/
def scheduleForCpu (pd : PerfData) (cpu : Nat) : List Entry :=
  ((pd.sideband.filterMap (scheduled cpu)).mergeSort Entry.le).destutter (· ≠ ·)

/-- An executable mapping of a process. -/
structure MappedFile where
  start : Nat
  len : Nat
  pgoff : Nat
  path : String
  deriving DecidableEq

/-- One record of `mappings_by_pid`; an exec replaces the address space. -/
def addMapping (maps : FastMap Nat (List MappedFile)) : Sideband → FastMap Nat (List MappedFile)
  | .mmap pid _ _ start len pgoff true path =>
    maps.insert pid ((maps.get pid).getD [] ++ [⟨start, len, pgoff, path⟩])
  | .comm pid _ _ _ true => maps.erase pid
  | _ => maps

/-- `mappings_by_pid`. -/
def mappingsByPid (pd : PerfData) : FastMap Nat (List MappedFile) := pd.sideband.foldl addMapping ∅

/-- `exec_times`: the time of each pid's last exec. -/
def execTimes (pd : PerfData) : FastMap Nat Nat :=
  pd.sideband.foldl (fun m s => match s with
    | .comm pid _ time _ true => m.insert pid time
    | _ => m) ∅

/-! ## libipt -/

/-- `PtErrorCode`, as far as it is told apart. -/
inductive PtErrorCode
  | eos
  | nomap
  | eventIgnored
  | other (code : Int)
  deriving DecidableEq

/-- `PtError`, with its text. -/
structure PtError where
  code : PtErrorCode
  text : String
  deriving DecidableEq

structure Status where
  eventPending : Bool
  eos : Bool
  deriving DecidableEq

/-- `Class`: libipt's `pt_insn_class`. -/
inductive Class
  | unknown
  | other
  | call
  | ret
  | jump
  | condJump
  | farCall
  | farReturn
  | farJump
  | ptwrite
  | indirect
  deriving DecidableEq

/-- libipt's block, with the raw class and size of its last instruction. -/
structure Block where
  ip : UInt64
  endIp : UInt64
  ninsn : Nat
  iclass : Nat
  size : Nat
  deriving DecidableEq

/-- `block_class`. -/
def Block.cls (b : Block) : Class :=
  match b.iclass with
  | 1 => .other
  | 2 => .call
  | 3 => .ret
  | 4 => .jump
  | 5 => .condJump
  | 6 => .farCall
  | 7 => .farReturn
  | 8 => .farJump
  | 9 => .ptwrite
  | 10 => .indirect
  | _ => .unknown

/-- `class_flags`. -/
def Class.flags : Class → Flags
  | .call => .CALL
  | .ret => .RETURN
  | .condJump => .JCC
  | .jump => .JMP
  | .farCall => .SYSCALL
  | .farReturn => .SYSRET
  | .farJump => .JMP
  | .indirect => .JMP
  | _ => .JMP

/-- `EventType`, as far as it is told apart. -/
inductive EventType
  | enabled (ip : UInt64)
  | disabled (ip : UInt64)
  | asyncDisabled (ip : UInt64)
  | asyncBranch (source target : UInt64)
  | overflow
  | other
  deriving DecidableEq

structure Event where
  tsc : Option Nat
  ipSuppressed : Bool
  type : EventType
  deriving DecidableEq

/-- An `Image`: whose it is, and its sections by their ids in the cache. -/
structure Image where
  pid : Nat
  sections : List Nat
  deriving DecidableEq

/-- `BlockDecoder` in a state `δ`: what each call answers, and the state after
it. A time is libipt's TSC. -/
structure BlockDecoder (δ : Type) where
  syncForward : δ → Except PtError Unit × δ
  syncOffset : δ → Option Nat
  setSync : Nat → δ → Except PtError Unit × δ
  decodeNext : δ → Except PtError (Block × Status) × δ
  event : δ → Except PtError (Event × Status) × δ
  time : δ → Option Nat
  offset : δ → Option Nat
  resync : δ → Except PtError Status × δ
  setImage : Image → δ → δ

/-! ## Code bytes -/

/-- What `decode_blob` is called with, and what else is outside the source. -/
structure Context where
  pd : PerfData
  info : Capture.IntelPtInfo
  cpu : Nat
  images : List ArchivedImage
  /-- `selection.instructions`: a task and a window. -/
  instructions : Option (Nat × Nat × Nat × Nat)
  wanted : Option (Finset Nat)
  /-- `fill_section_cache`'s ids, by pid and mapping start. -/
  sectionIds : Nat → Nat → Option Nat
  /-- The length of the valid instruction that starts the bytes, at its address. -/
  iced : List UInt8 → UInt64 → Option Nat
  /-- `Image::new`, by pid. -/
  newImage : Nat → Result Unit
  /-- The consumer takes the `n`-th batch. -/
  accepts : Nat → Bool

namespace Context

variable (ctx : Context)

def schedule : List Entry := scheduleForCpu ctx.pd ctx.cpu

def maps (pid : Nat) : List MappedFile := ((mappingsByPid ctx.pd).get pid).getD []

/-- `images.iter().position`. -/
def imagePosition (path : String) : Option Nat :=
  ctx.images.findIdx? fun i => i.identity.path = path

/-- `locate`: the image and the file offset of an address, through the newest
mapping that covers it. -/
def locate (ip : UInt64) (pid : Nat) : Option (Nat × Nat) := do
  let m ← (ctx.maps pid).reverse.find? fun m => m.start ≤ ip.toNat ∧ ip.toNat < satAdd m.start m.len
  let ii ← ctx.imagePosition m.path
  let d ← checkedSub ip.toNat m.start
  let off ← checkedAdd d m.pgoff
  pure (ii, off)

/-- `insn_len_at`. -/
def insnLenAt (ip : UInt64) (pid : Nat) : Option Nat := do
  let (ii, off) ← ctx.locate ip pid
  let image ← ctx.images[ii]?
  if image.bytes.length ≤ off then none
  else ctx.iced ((image.bytes.drop off).take 16) ip

/-- The loop of `emit_instructions`, with `n` instructions of the block to go. -/
def instructionsFrom (sample : UInt64 → Nat → InsnBytes → Sample) (stop : UInt64) :
    Nat → UInt64 → List UInt8 → List Sample
  | 0, _, _ => []
  | n + 1, ip, data =>
    if data = [] then []
    else
      match ctx.iced data ip with
      | none => []
      | some len =>
        sample ip len ⟨(data.take len).take 15, by simp only [List.length_take]; omega⟩ ::
          if ip = stop then [] else instructionsFrom sample stop n (ip + .ofNat len) (data.drop len)

/-- `emit_instructions`. -/
def emitInstructions (b : Block) (pid tid : Nat) (time : Option Nat) : List Sample :=
  match ctx.locate b.ip pid with
  | none => []
  | some (ii, off) =>
    match ctx.images[ii]? with
    | none => []
    | some image =>
      if image.bytes.length ≤ off then []
      else
        ctx.instructionsFrom (fun ip len insn =>
          ⟨pid, tid, some ctx.cpu, time, .instructions, some ip.toNat, some 0, .EMPTY, some len, insn⟩)
          b.endIp b.ninsn b.ip (image.bytes.drop off)

/-- The section of a mapping in an image of `pid`: there is a file behind it, no
shorter than the mapping's offset, and the cache has it. -/
def imageSection (pid : Nat) (m : MappedFile) : Option Nat := do
  let a ← ctx.images.find? fun i => i.identity.path = m.path
  if min m.len (a.bytes.length - m.pgoff) = 0 then none else ctx.sectionIds pid m.start

/-- `build_image`. -/
def buildImage (pid : Nat) (maps : List MappedFile) : Result Image :=
  (ctx.newImage pid).map fun _ => ⟨pid, maps.filterMap (ctx.imageSection pid)⟩

/-- The main executable of a process was archived, or it has no mapping. -/
def exeArchived (pid : Nat) : Bool :=
  (ctx.maps pid).head?.all fun m => ctx.images.any fun i => i.identity.path = m.path

/-- Before its exec a child runs its parent's code. -/
def preExec (pid : Nat) (time : Option Nat) : Bool :=
  ((execTimes ctx.pd).get pid).any fun exec => time.any fun now => now < exec

/-- The key of an image: a process, before or after its exec. -/
def imageKey (pid : Nat) (time : Option Nat) : Nat :=
  if ctx.preExec pid time then pid ||| 1 <<< 31 else pid

/-- A process that is decoded without code: it is none of the traced tree, or its
executable was not archived. -/
def foreign (pid : Nat) (time : Option Nat) : Bool :=
  ctx.preExec pid time || ctx.wanted.any (fun w => pid ∉ w) || !ctx.exeArchived pid

end Context

/-! ## The loop's state -/

/-- A block whose branch is not known yet. -/
structure Prev where
  endIp : UInt64
  cls : Class
  time : Option Nat
  size : Nat
  deriving DecidableEq

/-- The images built so far, and which of them the decoder has. -/
structure Images where
  cache : FastMap Nat Image
  foreignKeys : Finset Nat
  setFor : Nat
  curForeign : Bool

/-- The image of the running process, if the decoder needs another. -/
def Images.switch (ctx : Context) (pid : Nat) (time : Option Nat) (s : Images) :
    Result (Images × Option Image) :=
  let key := ctx.imageKey pid time
  if key ≠ s.setFor ∧ pid ≠ u32Max then
    match s.cache.get key with
    | some image =>
      .ok ({ s with setFor := key, curForeign := key ∈ s.foreignKeys }, some image)
    | none =>
      let foreign := ctx.foreign pid time
      let keys := if foreign then insert key s.foreignKeys else s.foreignKeys
      (ctx.buildImage pid (if foreign then [] else ctx.maps pid)).map fun image =>
        (⟨s.cache.insert key image, keys, key, key ∈ keys⟩, some image)
  else .ok (s, none)

/-- The variables of `decode_blob`. -/
structure Loop where
  batch : List Emitted
  sent : List (List Emitted)
  emitted : Nat
  schedIdx : Nat
  curPid : Nat
  curTid : Nat
  images : Images
  lastBranchIdx : Option Nat
  prevBlock : Option Prev
  lastTime : Option Nat
  stuckOff : Nat
  stuckRounds : Nat
  lenCache : FastMap (Nat × UInt64) Nat
  blocks : Nat
  lastResyncOffset : Nat
  plan : Option (List Nat)

def Loop.start : Loop where
  batch := []
  sent := []
  emitted := 0
  schedIdx := 0
  curPid := u32Max
  curTid := 0
  images := ⟨∅, ∅, u32Max, false⟩
  lastBranchIdx := none
  prevBlock := none
  lastTime := none
  stuckOff := u64Max
  stuckRounds := 0
  lenCache := ∅
  blocks := 0
  lastResyncOffset := u64Max
  plan := none

/-- A taken branch, or a trace boundary. -/
def branchSample (cpu pid tid : Nat) (time : Option Nat) (ip addr : Nat) (flags : Flags) : Sample :=
  ⟨pid, tid, some cpu, time, .branches, some ip, some addr, flags, none, .empty⟩

/-- An error of the decoder, as the task it happened to sees it. -/
def errorEvent (cpu pid tid : Nat) (time ip : Option Nat) (code : Nat) (message : String) :
    DecoderErrorEvent :=
  ⟨time, some cpu, if pid ≠ u32Max then some pid else none, some tid, ip, some code, message⟩

namespace Loop

variable (ctx : Context) (s : Loop)

def push (e : Emitted) : Loop := { s with batch := s.batch ++ [e] }

/-- `flush`. The times are clamped on the way (`flushAll`). -/
def flush : Result Loop :=
  if s.batch = [] then .ok s
  else if ctx.accepts s.sent.length then .ok { s with sent := s.sent ++ [s.batch], batch := [] }
  else .error (.new .cancelled "native decode consumer stopped")

/-- Who is running at `t`: the schedule is gone along, never back. -/
def runAt (t : Nat) : Loop :=
  let idx := advance (·.1) t ctx.schedule s.schedIdx
  match ctx.schedule[idx]? with
  | some (since, pid, tid) =>
    if since ≤ t then { s with schedIdx := idx, curPid := pid, curTid := tid }
    else { s with schedIdx := idx }
  | none => { s with schedIdx := idx }

/-- The length of a block's last instruction, and the lengths looked up so far. -/
def lastLen (p : Prev) : Nat × FastMap (Nat × UInt64) Nat :=
  if p.size ≠ 0 then (p.size, s.lenCache)
  else
    match s.lenCache.get (s.curPid, p.endIp) with
    | some len => (len, s.lenCache)
    | none =>
      let len := (ctx.insnLenAt p.endIp s.curPid).getD 0
      (len, s.lenCache.insert (s.curPid, p.endIp) len)

/-- Whether the branch of `p` was taken to `target`. Not-taken conditionals fall
through; a length of 0 is unknown. -/
def taken (p : Prev) (target : UInt64) : Bool × Loop :=
  match p.cls with
  | .condJump =>
    let (len, cache) := s.lastLen ctx p
    (len = 0 || target ≠ p.endIp + .ofNat len, { s with lenCache := cache })
  | .unknown | .other | .ptwrite => (false, s)
  | _ => (true, s)

/-- The sample of a taken branch. -/
def branch (p : Prev) (target : UInt64) (extra : Flags) : Loop :=
  { s.push (.sample (branchSample ctx.cpu s.curPid s.curTid p.time p.endIp.toNat target.toNat
      (p.cls.flags.union extra))) with emitted := s.emitted + 1 }

/-- `pending_branch`: the branch of the previous block went where the trace
stopped. A far call stays with the event. -/
def pendingBranch (target : UInt64) (extra : Flags) : Bool × Loop :=
  match s.prevBlock with
  | none => (false, s)
  | some p =>
    if p.cls = .farCall then (false, s)
    else
      let (taken, s) := s.taken ctx p target
      if taken then (true, s.branch ctx p target extra) else (false, s)

/-- The branch of the previous block led to this one. -/
def enterBlock (b : Block) : Loop :=
  match s.prevBlock with
  | none => s
  | some p =>
    let (taken, s) := s.taken ctx p b.ip
    if taken then
      let s := s.branch ctx p b.ip .EMPTY
      { s with lastBranchIdx := some (s.batch.length - 1) }
    else s

/-- Instruction detail inside the requested window. -/
def detail (b : Block) (time : Option Nat) : Loop :=
  match ctx.instructions with
  | none => s
  | some (pid, tid, lo, hi) =>
    if s.curPid = pid ∧ s.curTid = tid ∧ time.any fun t => lo ≤ t ∧ t < hi then
      { s with batch := s.batch ++ (ctx.emitInstructions b s.curPid s.curTid time).map .sample }
    else s

/-- One block. One without instructions only carries events. -/
def onBlock (b : Block) (time : Option Nat) : Loop :=
  let s := if b.ninsn > 0 then s.enterBlock ctx b else s
  let s := s.detail ctx b time
  if b.ninsn > 0 then { s with prevBlock := some ⟨b.endIp, b.cls, time, b.size⟩ } else s

/-- The branch that is folded into a disable without an ip: the last one, if it
went to this block. -/
def foldTarget (b : Block) : Option (Nat × Sample) :=
  if b.ninsn > 0 ∧ b.cls ≠ .farCall ∧ b.cls ≠ .farReturn ∧ b.cls ≠ .farJump then
    s.lastBranchIdx.bind fun i =>
      match s.batch[i]? with
      | some (.sample sm) => if sm.addr = some b.ip.toNat then some (i, sm) else none
      | _ => none
  else none

/-- The record of a boundary, which ends what is known of the last block. -/
def boundary (e : Emitted) : Loop := { s.push e with prevBlock := none }

/-- `EventType::Disabled`. -/
def onDisabled (b : Block) (suppressed : Bool) (ip : UInt64) (time : Option Nat) : Loop :=
  match (if suppressed then s.foldTarget b else none) with
  | some (i, sm) =>
    { s with
      batch := s.batch.set i (.sample { sm with flags := sm.flags.union .TR_END })
      lastBranchIdx := none
      prevBlock := none }
  | none =>
    let (merged, s) := if suppressed then (false, s) else s.pendingBranch ctx ip .TR_END
    if merged then { s with prevBlock := none }
    else
      let cls := (s.prevBlock.map (·.cls)).getD .unknown
      let at_ := if suppressed then (s.prevBlock.map (·.endIp)).getD 0 else ip
      s.boundary (.sample (branchSample ctx.cpu s.curPid s.curTid time at_.toNat 0
        (Flags.TR_END.union (if cls = .farCall then .SYSCALL else .EMPTY))))

/-- One event, of the block `b`. -/
def onEvent (b : Block) (ev : Event) : Loop :=
  let time := (ev.tsc.map ctx.info.tscToNs).or s.lastTime
  let s := time.elim s fun t => s.runAt ctx t
  match ev.type with
  | .enabled ip =>
    s.boundary (.sample (branchSample ctx.cpu s.curPid s.curTid time 0 ip.toNat
      (Flags.TR_START.union .JMP)))
  | .disabled ip => s.onDisabled ctx b ev.ipSuppressed ip time
  | .asyncDisabled ip =>
    let s := (s.pendingBranch ctx ip .EMPTY).2
    s.boundary (.sample (branchSample ctx.cpu s.curPid s.curTid time ip.toNat 0
      (Flags.TR_END.union .ASYNC)))
  | .asyncBranch source target =>
    s.boundary (.sample (branchSample ctx.cpu s.curPid s.curTid time source.toNat target.toNat
      .HW_INT))
  | .overflow => s.boundary (.overflow time)
  | .other => s

end Loop

/-! ## The machine -/

/-- Where `decode_blob` is. -/
inductive Pc
  /-- At the PSB index, with its entries so far, and in the events of the next. -/
  | index (entries : List (Nat × Nat))
  | indexEvents (entries : List (Nat × Nat)) (off : Nat) (st : Status)
  /-- At the head of the outer and of the inner loop. -/
  | sync
  | next
  /-- At a scan ahead, with `left` tries to go, and in the events it met. -/
  | resync (left stalled errOffset : Nat)
  | drain (left stalled errOffset : Nat) (st : Status)
  /-- In the events of a block, and behind them. -/
  | events (b : Block) (st : Status)
  | settle (st : Status)
  | stop (result : Result Nat)

structure Config (δ : Type) where
  dec : δ
  loop : Loop
  pc : Pc

/-- What libipt told in a step. -/
inductive Answer
  | block (b : Block) (tsc : Option Nat)
  /-- A block that consumed no packet. -/
  | stuck (b : Block) (tsc : Option Nat)
  | failed (e : PtError) (tsc : Option Nat)
  | unsynced (e : PtError)
  | event (b : Block) (ev : Event)
  | settled (tsc : Option Nat)
  deriving DecidableEq

/-- The syncpoints whose stretch overlaps the window. -/
def overlapping (lo hi : Nat) : List (Nat × Nat) → List Nat
  | [] => []
  | (off, t0) :: rest =>
    let t1 := (rest.head?.map (·.2)).getD u64Max
    if lo < t1 ∧ t0 ≤ hi then off :: overlapping lo hi rest else overlapping lo hi rest

section Step

variable {δ : Type} (lib : BlockDecoder δ) (ctx : Context)

/-- The time libipt knows, if it knows one. -/
def knownTime (d : δ) : Option Nat := (lib.time d).filter (· ≠ u64Max)

/-- An answered TSC as a time. -/
def Context.ns (tsc : Option Nat) : Option Nat := tsc.map ctx.info.tscToNs

/-- The end of the window, if there is one. -/
def Context.windowHi : Nat := (ctx.instructions.map fun w => w.2.2.2).getD u64Max

/-- The PSB index. -/
def stepIndex (d : δ) (s : Loop) (entries : List (Nat × Nat)) : Config δ :=
  match lib.syncForward d with
  | (.error _, d) =>
    let lo := (ctx.instructions.map fun w => w.2.2.1).getD 0
    ⟨d, { s with plan := some (overlapping lo ctx.windowHi entries) }, .sync⟩
  | (.ok _, d) =>
    let off := (lib.syncOffset d).getD 0
    match lib.decodeNext d with
    | (.error _, d) => ⟨d, s, .index (entries ++ [(off, 0)])⟩
    | (.ok (_, st), d) => ⟨d, s, .indexEvents entries off st⟩

def stepIndexEvents (d : δ) (s : Loop) (entries : List (Nat × Nat)) (off : Nat) (st : Status) :
    Config δ :=
  let entry (d : δ) : List (Nat × Nat) := entries ++ [(off, (ctx.ns (knownTime lib d)).getD 0)]
  if st.eventPending then
    match lib.event d with
    | (.error _, d) => ⟨d, s, .index (entry d)⟩
    | (.ok (_, st), d) => ⟨d, s, .indexEvents entries off st⟩
  else ⟨d, s, .index (entry d)⟩

/-- The loop ends: the last batch goes out. -/
def stopLoop (d : δ) (s : Loop) : Config δ :=
  match s.flush ctx with
  | .ok s => ⟨d, s, .stop (.ok s.emitted)⟩
  | .error e => ⟨d, s, .stop (.error e)⟩

/-- Synchronised, or out of trace, or stuck. -/
def onSync (s : Loop) : Except PtError Unit × δ → Option Answer × Config δ
  | (.ok _, d) => (none, ⟨d, s, .next⟩)
  | (.error e, d) =>
    if e.code = .eos then (none, stopLoop ctx d s)
    else
      (some (.unsynced e), stopLoop ctx d (s.push (.error (errorEvent ctx.cpu s.curPid s.curTid none
        none 1 ("libipt sync: " ++ e.text)))))

/-- Synchronise on the next PSB, or on the next planned syncpoint. -/
def stepSync (d : δ) (s : Loop) : Option Answer × Config δ :=
  match s.plan with
  | some [] => (none, stopLoop ctx d s)
  | some (off :: rest) => onSync ctx { s with plan := some rest } (lib.setSync off d)
  | none => onSync ctx s (lib.syncForward d)

/-- An error ends the block, and is reported for a process that is decoded. -/
def onFailed (s : Loop) (e : PtError) (tsc : Option Nat) : Loop :=
  let time := ctx.ns tsc
  let s :=
    if s.images.curForeign then s
    else
      s.push (.error (errorEvent ctx.cpu s.curPid s.curTid time (s.prevBlock.map (·.endIp.toNat))
        (if e.code = .nomap then 5 else 6) ("libipt: " ++ e.text)))
  { s with prevBlock := none }

/-- The loop guard: every 65536 blocks, whether a packet was consumed. -/
def guardLoop (s : Loop) (off : Option Nat) : Bool × Loop :=
  let s := { s with blocks := s.blocks + 1 }
  if s.blocks % 65536 = 0 then
    let off := off.getD u64Max
    let s := if off = s.stuckOff then { s with stuckRounds := s.stuckRounds + 1 }
      else { s with stuckOff := off, stuckRounds := 0 }
    (8 ≤ s.stuckRounds, s)
  else (false, s)

/-- A loop that consumes no packet is left for the next PSB. -/
def onStuck (s : Loop) (b : Block) (tsc : Option Nat) : Loop :=
  let time := ctx.ns tsc
  { s.push (.error (errorEvent ctx.cpu s.curPid s.curTid time (some b.ip.toNat) 6
      ("never-ending loop at 0x" ++ String.ofList (Text.padded 16 0 b.ip.toNat)
        ++ " (no packet consumed)"))) with
    prevBlock := none
    stuckRounds := 0 }

/-- The next block. -/
def stepNext (d : δ) (s : Loop) : Option Answer × Config δ :=
  match lib.decodeNext d with
  | (.error e, d) =>
    if e.code = .eos then (none, ⟨d, s, .sync⟩)
    else
      (some (.failed e (lib.time d)),
        ⟨d, onFailed ctx s e (lib.time d), .resync 1024 0 ((lib.offset d).getD u64Max)⟩)
  | (.ok (b, st), d) =>
    let tsc := knownTime lib d
    let s := { s with lastTime := (ctx.ns tsc).or s.lastTime }
    let (stuck, s) := guardLoop s (lib.offset d)
    if stuck then (some (.stuck b (lib.time d)), ⟨d, onStuck ctx s b (lib.time d), .sync⟩)
    else (some (.block b tsc), ⟨d, s.onBlock ctx b s.lastTime, .events b st⟩)

/-- The scan ahead to a packet with an ip. -/
def stepResync (d : δ) (s : Loop) (left stalled errOffset : Nat) : Config δ :=
  match left with
  | 0 => ⟨d, s, .sync⟩
  | left + 1 =>
    match lib.resync d with
    | (.ok st, d) =>
      let now := (lib.offset d).getD u64Max
      if now = s.lastResyncOffset ∧ now ≤ errOffset then
        if 8 < stalled + 1 then ⟨d, s, .sync⟩ else ⟨d, s, .drain left (stalled + 1) errOffset st⟩
      else ⟨d, { s with lastResyncOffset := now }, .next⟩
    | (.error e, d) =>
      if e.code = .eventIgnored then
        match lib.event d with
        | (.ok _, d) => ⟨d, s, .resync left stalled errOffset⟩
        | (.error _, d) => ⟨d, s, .sync⟩
      else ⟨d, s, .sync⟩

def stepDrain (d : δ) (s : Loop) (left stalled errOffset : Nat) (st : Status) : Config δ :=
  if st.eventPending then
    match lib.event d with
    | (.ok (_, st), d) => ⟨d, s, .drain left stalled errOffset st⟩
    | (.error _, d) => ⟨d, s, .resync left stalled errOffset⟩
  else ⟨d, s, .resync left stalled errOffset⟩

/-- The next event of a block. -/
def stepEvents (d : δ) (s : Loop) (b : Block) (st : Status) : Option Answer × Config δ :=
  if st.eventPending then
    match lib.event d with
    | (.ok (ev, st), d) => (some (.event b ev), ⟨d, s.onEvent ctx b ev, .events b st⟩)
    | (.error _, d) => (none, ⟨d, s, .settle st⟩)
  else (none, ⟨d, s, .settle st⟩)

/-- Behind the events: who runs next, and with which image. -/
def stepSettle (d : δ) (s : Loop) (st : Status) : Option Answer × Config δ :=
  let tsc := knownTime lib d
  let time := (ctx.ns tsc).or s.lastTime
  let s := time.elim s fun t => s.runAt ctx t
  match s.images.switch ctx s.curPid time with
  | .error e => (some (.settled tsc), ⟨d, s, .stop (.error e)⟩)
  | .ok (images, image) =>
    let d := image.elim d fun image => lib.setImage image d
    let s := { s with images := images }
    match (if 2048 ≤ s.batch.length then
        (s.flush ctx).map fun s => { s with lastBranchIdx := none } else .ok s) with
    | .error e => (some (.settled tsc), ⟨d, s, .stop (.error e)⟩)
    | .ok s =>
      if st.eos then (some (.settled tsc), ⟨d, s, .sync⟩)
      else if s.plan.isSome ∧ time.any fun t => ctx.windowHi < t then
        (some (.settled tsc), ⟨d, { s with plan := some [] }, .sync⟩)
      else (some (.settled tsc), ⟨d, s, .next⟩)

/-- One step, with what libipt told in it. -/
def step (c : Config δ) : Option Answer × Config δ :=
  match c.pc with
  | .index entries => (none, stepIndex lib ctx c.dec c.loop entries)
  | .indexEvents entries off st => (none, stepIndexEvents lib ctx c.dec c.loop entries off st)
  | .sync => stepSync lib ctx c.dec c.loop
  | .next => stepNext lib ctx c.dec c.loop
  | .resync left stalled errOffset => (none, stepResync lib c.dec c.loop left stalled errOffset)
  | .drain left stalled errOffset st => (none, stepDrain lib c.dec c.loop left stalled errOffset st)
  | .events b st => stepEvents lib ctx c.dec c.loop b st
  | .settle st => stepSettle lib ctx c.dec c.loop st
  | .stop _ => (none, c)

/-- Where a decode starts. -/
def begin_ (d : δ) : Config δ :=
  ⟨d, .start, if ctx.instructions.isSome then .index [] else .sync⟩

/-- What libipt told in `n` steps, latest first, and where they lead. -/
def run (d : δ) : Nat → List Answer × Config δ
  | 0 => ([], begin_ ctx d)
  | n + 1 =>
    let (told, c) := run d n
    let (answer, c) := step lib ctx c
    (answer.toList ++ told, c)

end Step

end Blob

end TraceMcp.Decode
