import TraceMcp.Decode.BlobDecoder
import TraceMcp.Lib.Ordered

/-!
# What a decode says

What `decode_blob` emits is determined by what libipt tells, in order
(`History`): the last block whose branch is open, who runs at the latest time it
was asked for, and the image of that process. The loop of the source keeps a
cursor into the schedule, a cache of instruction lengths and batches that are
sent when they are full; with all of them it says what the history does
(`run_history`).
-/

namespace TraceMcp.Decode.Blob

open TraceMcp.Lib

/-- The task a schedule names at a time: that of the last entry up to it. -/
def runningAt (schedule : List Entry) (time : Option Nat) : Nat × Nat :=
  ((time.bind fun t => lastUpTo (·.1) t schedule).map (·.2)).getD (u32Max, 0)

/-- What came of what libipt told so far. -/
structure History where
  /-- The last time of a block. -/
  time : Option Nat
  /-- The latest time it was asked who runs. -/
  latest : Option Nat
  /-- The block whose branch is open. -/
  open_ : Option Prev
  images : Images
  out : List Emitted
  /-- How many branches between blocks `out` has, and how much of it is sent. -/
  emitted : Nat
  sent : Nat
  /-- Where `out` has the last branch into a block, while it can be folded. -/
  arrival : Option Nat

def History.start : History := ⟨none, none, none, ⟨∅, ∅, u32Max, false⟩, [], 0, 0, none⟩

/-- Whether the branch of `p` was taken to `target`. -/
def takenTo (ctx : Context) (pid : Nat) (p : Prev) (target : UInt64) : Bool :=
  match p.cls with
  | .condJump =>
    let len := if p.size ≠ 0 then p.size else (ctx.insnLenAt p.endIp pid).getD 0
    len = 0 || target ≠ p.endIp + .ofNat len
  | .unknown | .other | .ptwrite => false
  | _ => true

namespace History

variable (ctx : Context) (h : History)

/-- Who runs. -/
def runner : Nat × Nat := runningAt ctx.schedule h.latest

def ask (time : Option Nat) : History := { h with latest := Option.merge max h.latest time }

def say (es : List Emitted) : History := { h with out := h.out ++ es }

/-- The open block, if its branch was taken to `target`. -/
def taken (target : UInt64) : Option Prev :=
  h.open_.filter fun p => takenTo ctx (h.runner ctx).1 p target

/-- The same where the trace stopped. -/
def pending (target : UInt64) : Option Prev :=
  (h.taken ctx target).filter fun p => p.cls ≠ .farCall

def sample (time : Option Nat) (ip addr : Nat) (flags : Flags) : Emitted :=
  .sample (branchSample ctx.cpu (h.runner ctx).1 (h.runner ctx).2 time ip addr flags)

/-- The branch of a block, if there is one. -/
def branch (target : UInt64) (extra : Flags) (p : Option Prev) : History :=
  { h.say (p.toList.map fun p =>
      h.sample ctx p.time p.endIp.toNat target.toNat (p.cls.flags.union extra)) with
    emitted := h.emitted + p.toList.length }

/-- Into a block. -/
def enter (b : Block) : History :=
  if b.ninsn = 0 then h
  else
    { h.branch ctx b.ip .EMPTY (h.taken ctx b.ip) with
      arrival := if (h.taken ctx b.ip).isSome then some h.out.length else h.arrival }

/-- The instructions of a block in the window. -/
def detail (b : Block) (time : Option Nat) : List Emitted :=
  match ctx.instructions with
  | none => []
  | some (pid, tid, lo, hi) =>
    if h.runner ctx = (pid, tid) ∧ time.any fun t => lo ≤ t ∧ t < hi then
      (ctx.emitInstructions b pid tid time).map .sample
    else []

def block (b : Block) (time : Option Nat) : History :=
  let h : History := { h with time := time }
  let h := h.enter ctx b
  let h := h.say (h.detail ctx b time)
  if b.ninsn = 0 then h else { h with open_ := some ⟨b.endIp, b.cls, time, b.size⟩ }

/-- What the trace says ends what is known of the last block. -/
def cut (e : Emitted) : History := { h.say [e] with open_ := none }

/-- The branch a disable without an ip belongs to. -/
def folded (b : Block) : Option (Nat × Sample) :=
  if b.ninsn = 0 ∨ b.cls = .farCall ∨ b.cls = .farReturn ∨ b.cls = .farJump then none
  else
    h.arrival.bind fun i =>
      match h.out[i]? with
      | some (.sample sm) => if sm.addr = some b.ip.toNat then some (i, sm) else none
      | _ => none

def disabled (b : Block) (suppressed : Bool) (ip : UInt64) (time : Option Nat) : History :=
  match (if suppressed then h.folded b else none) with
  | some (i, sm) =>
    { h with
      out := h.out.set i (.sample { sm with flags := sm.flags.union .TR_END })
      arrival := none
      open_ := none }
  | none =>
    match (if suppressed then none else h.pending ctx ip) with
    | some p => { h.branch ctx ip .TR_END (some p) with open_ := none }
    | none =>
      let at_ := if suppressed then (h.open_.map (·.endIp)).getD 0 else ip
      h.cut (h.sample ctx time at_.toNat 0
        (Flags.TR_END.union (if h.open_.any (·.cls = .farCall) then .SYSCALL else .EMPTY)))

def event (b : Block) (ev : Event) : History :=
  let time := (ctx.ns ev.tsc).or h.time
  let h := h.ask time
  match ev.type with
  | .enabled ip => h.cut (h.sample ctx time 0 ip.toNat (Flags.TR_START.union .JMP))
  | .disabled ip => h.disabled ctx b ev.ipSuppressed ip time
  | .asyncDisabled ip =>
    let h := h.branch ctx ip .EMPTY (h.pending ctx ip)
    h.cut (h.sample ctx time ip.toNat 0 (Flags.TR_END.union .ASYNC))
  | .asyncBranch source target => h.cut (h.sample ctx time source.toNat target.toNat .HW_INT)
  | .overflow => h.cut (.overflow time)
  | .other => h

/-- An error, of the task that runs. -/
def error (time ip : Option Nat) (code : Nat) (message : String) : Emitted :=
  .error (errorEvent ctx.cpu (h.runner ctx).1 (h.runner ctx).2 time ip code message)

def failed (e : PtError) (time : Option Nat) : History :=
  let es := if h.images.curForeign then [] else
    [h.error ctx time (h.open_.map (·.endIp.toNat)) (if e.code = .nomap then 5 else 6)
      ("libipt: " ++ e.text)]
  { h.say es with open_ := none }

def stuck (b : Block) (time : Option Nat) : History :=
  h.cut (h.error ctx time (some b.ip.toNat) 6 ("never-ending loop at 0x"
    ++ String.ofList (Text.padded 16 0 b.ip.toNat) ++ " (no packet consumed)"))

/-- The images are switched; of an image that cannot be built nothing comes. -/
def settled (time : Option Nat) : History :=
  let h := h.ask time
  let switched := (h.images.switch ctx (h.runner ctx).1 time).toOption.map (·.1)
  let h : History := { h with images := switched.getD h.images }
  if 2048 ≤ h.out.length - h.sent then { h with sent := h.out.length, arrival := none } else h

def tell : Answer → History
  | .block b tsc => h.block ctx b ((ctx.ns tsc).or h.time)
  | .stuck b tsc =>
    { h with time := (ctx.ns (tsc.filter (· ≠ u64Max))).or h.time }.stuck ctx b (ctx.ns tsc)
  | .failed e tsc => h.failed ctx e (ctx.ns tsc)
  | .unsynced e => h.say [h.error ctx none none 1 ("libipt sync: " ++ e.text)]
  | .event b ev => h.event ctx b ev
  | .settled tsc => h.settled ctx ((ctx.ns tsc).or h.time)

end History

/-- The history of what libipt told, latest first. -/
def history (ctx : Context) (told : List Answer) : History :=
  told.foldr (fun a h => h.tell ctx a) .start

/-! ## The schedule -/

theorem schedule_sorted (ctx : Context) : ctx.schedule.Pairwise fun a b => a.1 ≤ b.1 := by
  have hle : ∀ a b : Entry, Entry.le a b = true → a.1 ≤ b.1 := by
    intro a b h
    rcases Prod.Lex.le_iff.mp (of_decide_eq_true h) with hlt | heq
    · exact Nat.le_of_lt hlt
    · exact Nat.le_of_eq heq.1
  have hsorted : ∀ l : List Entry, (l.mergeSort Entry.le).Pairwise fun a b => Entry.le a b = true := by
    intro l
    refine List.pairwise_mergeSort ?_ ?_ l
    · intro a b c hab hbc
      exact decide_eq_true (le_trans (of_decide_eq_true hab) (of_decide_eq_true hbc))
    · intro a b
      rw [Bool.or_eq_true, Entry.le, Entry.le, decide_eq_true_iff, decide_eq_true_iff]
      exact le_total _ _
  have hstutter := List.destutter_sublist (· ≠ ·)
    ((ctx.pd.sideband.filterMap (scheduled ctx.cpu)).mergeSort Entry.le)
  exact ((hsorted _).imp fun h => hle _ _ h).sublist hstutter

/-- The cursor of the source is at the task of the latest time. -/
structure AtLatest (ctx : Context) (s : Loop) (latest : Option Nat) : Prop where
  idx : s.schedIdx = (latest.elim 0 fun t => (upTo (·.1) t ctx.schedule).length) - 1
  cur : (s.curPid, s.curTid) = runningAt ctx.schedule latest

variable {ctx : Context} {s : Loop} {h : History}

theorem runningAt_of_none {schedule : List Entry} {t : Nat} (hnone : upTo (·.1) t schedule = []) :
    runningAt schedule (some t) = (u32Max, 0) := by
  rw [runningAt, Option.bind_some, lastUpTo, hnone]
  rfl

/-- Asked for a time, the cursor goes to the latest. -/
theorem AtLatest.runAt {latest : Option Nat} (hs : AtLatest ctx s latest) (t : Nat) :
    AtLatest ctx (s.runAt ctx t) (Option.merge max latest (some t)) := by
  have hsorted := schedule_sorted ctx
  obtain ⟨u, hu, hidx⟩ : ∃ u, Option.merge max latest (some t) = some u ∧
      advance (·.1) t ctx.schedule s.schedIdx = (upTo (·.1) u ctx.schedule).length - 1 := by
    cases latest with
    | none => exact ⟨t, rfl, by rw [hs.idx]; exact advance_zero hsorted⟩
    | some u => exact ⟨max u t, rfl, by rw [hs.idx]; exact advance_reached hsorted⟩
  have hle : t ≤ u := by
    cases latest with
    | none => exact Nat.le_of_eq (Option.some.inj hu)
    | some v => exact Option.some.inj hu ▸ Nat.le_max_right v t
  -- the task does not change where the cursor is at an entry past `t`
  have hstay : (∀ x, ctx.schedule[(upTo (·.1) u ctx.schedule).length - 1]? = some x → t < x.1) →
      runningAt ctx.schedule latest = runningAt ctx.schedule (some u) := by
    intro hpast
    by_cases hnil : upTo (·.1) u ctx.schedule = []
    · rw [runningAt_of_none hnil]
      cases latest with
      | none => rfl
      | some v =>
        refine runningAt_of_none (List.eq_nil_iff_forall_not_mem.mpr fun x hx => ?_)
        obtain ⟨hmem, hkey⟩ := List.mem_filter.mp hx
        have hin : x ∈ upTo (·.1) u ctx.schedule := by
          refine List.mem_filter.mpr ⟨hmem, ?_⟩
          rw [decide_eq_true_eq] at hkey ⊢
          exact hkey.trans (Option.some.inj hu ▸ Nat.le_max_left v t)
        rw [hnil] at hin
        cases hin
    · have hlast := lastUpTo_eq_getElem hsorted hnil
      have hpos := List.length_pos_of_ne_nil hnil
      have hlen : (upTo (·.1) u ctx.schedule).length ≤ ctx.schedule.length := List.length_filter_le ..
      have hget := List.getElem?_eq_getElem
        (show (upTo (·.1) u ctx.schedule).length - 1 < ctx.schedule.length by omega)
      have hup := (key_le_of_getElem? hsorted hget).mpr hnil
      have hpast' := hpast _ hget
      cases latest with
      | none =>
        have htu : t = u := Option.some.inj hu
        omega
      | some v =>
        have hmax : max v t = u := Option.some.inj hu
        have hvu : v = u := by omega
        rw [hvu]
  unfold Loop.runAt
  rw [hu]
  dsimp only
  rw [hidx]
  split
  next since pid tid hget =>
    split
    next hsince =>
      have hnil := (key_le_of_getElem? hsorted hget).mp (Nat.le_trans hsince hle)
      refine ⟨rfl, ?_⟩
      rw [runningAt, Option.bind_some, lastUpTo_eq_getElem hsorted hnil, hget]
      rfl
    next hsince =>
      refine ⟨rfl, hs.cur.trans (hstay fun x hx => ?_)⟩
      rw [hget] at hx
      cases hx
      exact Nat.lt_of_not_le hsince
  next hget =>
    refine ⟨rfl, hs.cur.trans (hstay fun x hx => ?_)⟩
    rw [hget] at hx
    cases hx

/-! ## The loop says what the history does -/

/-- The lengths looked up are those of the instructions. -/
def LensAgree (ctx : Context) (cache : FastMap (Nat × UInt64) Nat) : Prop :=
  ∀ pid ip len, cache.get (pid, ip) = some len → len = (ctx.insnLenAt ip pid).getD 0

/-- The loop and the history have emitted the same, and know the same. -/
structure Says (ctx : Context) (s : Loop) (h : History) : Prop where
  time : s.lastTime = h.time
  prev : s.prevBlock = h.open_
  images : s.images = h.images
  out : s.sent.flatten ++ s.batch = h.out
  emitted : s.emitted = h.emitted
  latest : AtLatest ctx s h.latest
  lens : LensAgree ctx s.lenCache

/-- So much of it is sent, and the branch that can be folded is not. -/
structure Sends (s : Loop) (h : History) : Prop where
  sent : s.sent.flatten.length = h.sent
  arrival : s.lastBranchIdx.map (h.sent + ·) = h.arrival

structure Sim (ctx : Context) (s : Loop) (h : History) : Prop extends Says ctx s h, Sends s h

theorem Says.runner (hs : Says ctx s h) : h.runner ctx = (s.curPid, s.curTid) := hs.latest.cur.symm

theorem Says.push (hs : Says ctx s h) (es : List Emitted) :
    Says ctx { s with batch := s.batch ++ es } (h.say es) :=
  { hs with
    out := by
      rw [History.say, ← hs.out, List.append_assoc]
    latest := ⟨hs.latest.idx, hs.latest.cur⟩ }

theorem Sim.push (hs : Sim ctx s h) (es : List Emitted) :
    Sim ctx { s with batch := s.batch ++ es } (h.say es) :=
  { hs.toSays.push es with
    sent := hs.sent
    arrival := hs.arrival }

/-- The open block is forgotten. -/
theorem Sim.closed (hs : Sim ctx s h) : Sim ctx { s with prevBlock := none } { h with open_ := none } :=
  { hs with
    prev := rfl
    latest := ⟨hs.latest.idx, hs.latest.cur⟩ }

theorem Sim.boundary (hs : Sim ctx s h) (e : Emitted) : Sim ctx (s.boundary e) (h.cut e) :=
  (hs.push [e]).closed

/-- Time passes for the loop. -/
theorem Sim.ask (hs : Sim ctx s h) (time : Option Nat) :
    Sim ctx (time.elim s fun t => s.runAt ctx t) (h.ask time) := by
  cases time with
  | none =>
    rw [History.ask, Option.merge_none_right]
    exact hs
  | some t =>
    have hlatest := hs.latest.runAt t
    have hrest : ∃ idx pid tid, s.runAt ctx t = { s with schedIdx := idx, curPid := pid, curTid := tid } := by
      unfold Loop.runAt
      dsimp only
      split
      next =>
        split
        next => exact ⟨_, _, _, rfl⟩
        next => exact ⟨_, s.curPid, s.curTid, rfl⟩
      next => exact ⟨_, s.curPid, s.curTid, rfl⟩
    obtain ⟨idx, pid, tid, hrun⟩ := hrest
    rw [Option.elim_some]
    rw [hrun] at hlatest ⊢
    exact { hs with latest := hlatest }

/-! ### Branches -/

theorem lastLen_spec (hs : LensAgree ctx s.lenCache) (p : Prev) :
    (s.lastLen ctx p).1 = (if p.size ≠ 0 then p.size else (ctx.insnLenAt p.endIp s.curPid).getD 0) ∧
      LensAgree ctx (s.lastLen ctx p).2 := by
  unfold Loop.lastLen
  split
  next => exact ⟨rfl, hs⟩
  next =>
    split
    next len hget => exact ⟨hs _ _ _ hget, hs⟩
    next =>
      refine ⟨rfl, fun pid ip len hget => ?_⟩
      rw [FastMap.get_insert] at hget
      split at hget
      next heq =>
        obtain ⟨rfl, rfl⟩ := Prod.mk.inj heq
        exact (Option.some.inj hget).symm
      next => exact hs pid ip len hget

/-- Looking up a length changes nothing else. -/
theorem taken_spec (hs : Sim ctx s h) (p : Prev) (target : UInt64) :
    (s.taken ctx p target).1 = takenTo ctx (h.runner ctx).1 p target ∧
      Sim ctx (s.taken ctx p target).2 h := by
  rw [hs.runner]
  unfold Loop.taken takenTo
  obtain ⟨hlen, hcache⟩ := lastLen_spec hs.lens p
  cases p.cls with
  | condJump =>
    dsimp only
    rw [hlen]
    exact ⟨rfl, { hs with latest := ⟨hs.latest.idx, hs.latest.cur⟩, lens := hcache }⟩
  | unknown => exact ⟨rfl, hs⟩
  | other => exact ⟨rfl, hs⟩
  | ptwrite => exact ⟨rfl, hs⟩
  | call => exact ⟨rfl, hs⟩
  | ret => exact ⟨rfl, hs⟩
  | jump => exact ⟨rfl, hs⟩
  | farCall => exact ⟨rfl, hs⟩
  | farReturn => exact ⟨rfl, hs⟩
  | farJump => exact ⟨rfl, hs⟩
  | indirect => exact ⟨rfl, hs⟩

theorem Sim.branch (hs : Sim ctx s h) (p : Prev) (target : UInt64) (extra : Flags) :
    Sim ctx (s.branch ctx p target extra) (h.branch ctx target extra (some p)) := by
  have hpush := hs.push [h.sample ctx p.time p.endIp.toNat target.toNat (p.cls.flags.union extra)]
  unfold Loop.branch History.branch
  rw [History.sample, hs.runner] at hpush
  rw [Option.toList_some, List.map_singleton, History.sample, hs.runner]
  exact { hpush with
    emitted := congrArg (· + 1) hs.emitted
    latest := ⟨hpush.latest.idx, hpush.latest.cur⟩ }

theorem History.branch_none (target : UInt64) (extra : Flags) :
    h.branch ctx target extra none = h := by
  unfold History.branch History.say
  rw [Option.toList_none, List.map_nil, List.append_nil]
  rfl

/-- The branch of the open block goes where the trace stopped, or does not. -/
theorem Sim.pendingBranch (hs : Sim ctx s h) (target : UInt64) (extra : Flags) :
    (s.pendingBranch ctx target extra).1 = (h.pending ctx target).isSome ∧
      Sim ctx (s.pendingBranch ctx target extra).2
        (h.branch ctx target extra (h.pending ctx target)) := by
  unfold Loop.pendingBranch History.pending History.taken
  rw [hs.prev]
  cases h.open_ with
  | none =>
    refine ⟨rfl, ?_⟩
    rw [Option.filter_none, Option.filter_none, History.branch_none]
    exact hs
  | some p =>
    obtain ⟨htaken, hsim⟩ := taken_spec hs p target
    dsimp only
    by_cases hfar : p.cls = .farCall
    · have hnone : ((some p).filter fun p => takenTo ctx (h.runner ctx).1 p target).filter
          (fun p => p.cls ≠ .farCall) = none := by
        rw [Option.filter_filter, Option.filter_some_neg (by simp [hfar])]
      rw [if_pos hfar, hnone, History.branch_none]
      exact ⟨rfl, hs⟩
    · rw [if_neg hfar]
      rcases ht : s.taken ctx p target with ⟨taken, s'⟩
      rw [ht] at htaken hsim
      dsimp only at htaken hsim ⊢
      subst htaken
      by_cases htook : takenTo ctx (h.runner ctx).1 p target = true
      · have hsome : ((some p).filter fun p => takenTo ctx (h.runner ctx).1 p target).filter
            (fun p => p.cls ≠ .farCall) = some p := by
          rw [Option.filter_some, if_pos htook]
          exact Option.filter_some_pos (decide_eq_true hfar)
        rw [if_pos htook, hsome]
        exact ⟨rfl, hsim.branch p target extra⟩
      · have hnone : ((some p).filter fun p => takenTo ctx (h.runner ctx).1 p target).filter
            (fun p => p.cls ≠ .farCall) = none := by
          rw [Option.filter_some, if_neg htook, Option.filter_none]
        rw [if_neg htook, hnone, History.branch_none]
        exact ⟨rfl, hsim⟩

/-! ### Blocks -/

theorem Sim.out_length (hs : Sim ctx s h) : h.out.length = h.sent + s.batch.length := by
  rw [← hs.out, List.length_append, hs.sent]

/-- What the batch has is in the output behind what is sent. -/
theorem Sim.out_getElem? (hs : Sim ctx s h) (i : Nat) : h.out[h.sent + i]? = s.batch[i]? := by
  rw [← hs.out, ← hs.sent, List.getElem?_append_right (Nat.le_add_right ..), Nat.add_sub_cancel_left]

theorem Sim.enter (hs : Sim ctx s h) (b : Block) :
    Sim ctx (if b.ninsn > 0 then s.enterBlock ctx b else s) (h.enter ctx b) := by
  unfold History.enter
  by_cases hempty : b.ninsn = 0
  · rw [if_pos hempty, if_neg (by omega)]
    exact hs
  rw [if_neg hempty, if_pos (by omega)]
  unfold Loop.enterBlock History.taken
  rw [hs.prev]
  cases h.open_ with
  | none =>
    rw [Option.filter_none]
    dsimp only
    rw [History.branch_none]
    exact hs
  | some p =>
    obtain ⟨htaken, hsim⟩ := taken_spec hs p b.ip
    rcases ht : s.taken ctx p b.ip with ⟨taken, s'⟩
    rw [ht] at htaken hsim
    dsimp only at htaken hsim ⊢
    rw [ht]
    dsimp only
    subst htaken
    rw [Option.filter_some]
    by_cases htook : takenTo ctx (h.runner ctx).1 p b.ip = true
    · have hbranch := hsim.branch p b.ip .EMPTY
      rw [if_pos htook, if_pos htook]
      refine { hbranch with latest := ⟨hbranch.latest.idx, hbranch.latest.cur⟩, arrival := ?_ }
      -- the sample is the last of the batch, and so of the output
      have hlast : (s'.branch ctx p b.ip .EMPTY).batch.length - 1 = s'.batch.length := by
        rw [Loop.branch, Loop.push, List.length_append, List.length_singleton, Nat.add_sub_cancel]
      rw [Option.map_some, hlast, hsim.out_length]
      rfl
    · rw [if_neg htook, if_neg htook, History.branch_none]
      exact hsim

theorem Sim.detail (hs : Sim ctx s h) (b : Block) (time : Option Nat) :
    Sim ctx (s.detail ctx b time) (h.say (h.detail ctx b time)) := by
  have hnone : h.say [] = h := by
    rw [History.say, List.append_nil]
  unfold Loop.detail History.detail
  cases ctx.instructions with
  | none =>
    rw [hnone]
    exact hs
  | some w =>
    obtain ⟨pid, tid, lo, hi⟩ := w
    dsimp only
    rw [hs.runner]
    by_cases hin : s.curPid = pid ∧ s.curTid = tid ∧ (time.any fun t => lo ≤ t ∧ t < hi) = true
    · obtain ⟨rfl, rfl, hwin⟩ := hin
      rw [if_pos ⟨rfl, rfl, hwin⟩, if_pos ⟨rfl, hwin⟩]
      exact hs.push _
    · rw [if_neg hin, if_neg fun hand => hin ⟨(Prod.mk.inj hand.1).1, (Prod.mk.inj hand.1).2, hand.2⟩,
        hnone]
      exact hs

theorem Sim.onBlock (hs : Sim ctx s h) (b : Block) (time : Option Nat) :
    Sim ctx ({ s with lastTime := time }.onBlock ctx b time) (h.block ctx b time) := by
  have htime : Sim ctx { s with lastTime := time } { h with time := time } :=
    { hs with time := rfl, latest := ⟨hs.latest.idx, hs.latest.cur⟩ }
  have hdetail := (htime.enter b).detail b time
  unfold Loop.onBlock History.block
  dsimp only
  by_cases hempty : b.ninsn = 0
  · have hzero : ¬ b.ninsn > 0 := by omega
    rw [if_pos hempty, if_neg hzero]
    exact hdetail
  · have hpos : b.ninsn > 0 := by omega
    rw [if_neg hempty, if_pos hpos]
    exact { hdetail with
      prev := rfl
      latest := ⟨hdetail.latest.idx, hdetail.latest.cur⟩ }

/-! ### Events -/

theorem Sim.foldTarget (hs : Sim ctx s h) (b : Block) :
    h.folded b = (s.foldTarget b).map fun r => (h.sent + r.1, r.2) := by
  unfold History.folded Loop.foldTarget
  by_cases hno : b.ninsn = 0 ∨ b.cls = .farCall ∨ b.cls = .farReturn ∨ b.cls = .farJump
  · rw [if_pos hno, if_neg]
    · rfl
    · rintro ⟨hpos, hcall, hret, hjump⟩
      rcases hno with hno | hno | hno | hno
      · omega
      · exact hcall hno
      · exact hret hno
      · exact hjump hno
  · rw [if_neg hno]
    rw [not_or, not_or, not_or] at hno
    rw [if_pos ⟨by omega, hno.2.1, hno.2.2.1, hno.2.2.2⟩, ← hs.arrival]
    cases s.lastBranchIdx with
    | none => rfl
    | some i =>
      rw [Option.map_some, Option.bind_some, Option.bind_some, hs.out_getElem?]
      cases s.batch[i]? with
      | none => rfl
      | some e =>
        cases e with
        | sample sm =>
          dsimp only
          split
          next => rfl
          next => rfl
        | error e => rfl
        | overflow t => rfl

/-- The class of the open block, for the event that has no ip of its own. -/
theorem farCall_open (o : Option Prev) :
    (if (o.map (·.cls)).getD .unknown = .farCall then Flags.SYSCALL else .EMPTY) =
      if o.any (·.cls = .farCall) then .SYSCALL else .EMPTY := by
  cases o with
  | none => rfl
  | some p =>
    rw [Option.map_some, Option.getD_some, Option.any_some]
    by_cases hcls : p.cls = .farCall
    · rw [if_pos hcls, if_pos (decide_eq_true hcls)]
    · rw [if_neg hcls, if_neg (by simpa using hcls)]

/-- A disable that is no branch is a boundary. -/
theorem Sim.disabledBoundary (hs : Sim ctx s h) (suppressed : Bool) (ip : UInt64)
    (time : Option Nat) :
    Sim ctx
      (s.boundary (.sample (branchSample ctx.cpu s.curPid s.curTid time
        (if suppressed then (s.prevBlock.map (·.endIp)).getD 0 else ip).toNat 0
        (Flags.TR_END.union
          (if (s.prevBlock.map (·.cls)).getD .unknown = .farCall then .SYSCALL else .EMPTY)))))
      (h.cut (h.sample ctx time
        (if suppressed then (h.open_.map (·.endIp)).getD 0 else ip).toNat 0
        (Flags.TR_END.union (if h.open_.any (·.cls = .farCall) then .SYSCALL else .EMPTY)))) := by
  rw [farCall_open, hs.prev, History.sample, hs.runner]
  exact hs.boundary _

theorem Sim.onDisabled (hs : Sim ctx s h) (b : Block) (suppressed : Bool) (ip : UInt64)
    (time : Option Nat) :
    Sim ctx (s.onDisabled ctx b suppressed ip time) (h.disabled ctx b suppressed ip time) := by
  unfold Loop.onDisabled History.disabled
  cases suppressed with
  | true =>
    simp only [if_true]
    rw [hs.foldTarget]
    cases htarget : s.foldTarget b with
    | none => exact hs.disabledBoundary true ip time
    | some r =>
      obtain ⟨i, sm⟩ := r
      dsimp only [Option.map_some]
      refine { hs with prev := rfl, out := ?_, latest := ⟨hs.latest.idx, hs.latest.cur⟩, arrival := rfl }
      rw [← hs.out, ← hs.sent, List.set_append_right _ _ (Nat.le_add_right ..),
        Nat.add_sub_cancel_left]
  | false =>
    simp only [Bool.false_eq_true, if_false]
    obtain ⟨hmerged, hsim⟩ := hs.pendingBranch ip .TR_END
    rcases hp : s.pendingBranch ctx ip .TR_END with ⟨merged, s'⟩
    rw [hp] at hmerged hsim
    dsimp only at hmerged hsim ⊢
    subst hmerged
    cases hpending : h.pending ctx ip with
    | some p =>
      rw [hpending] at hsim
      exact hsim.closed
    | none =>
      rw [hpending, History.branch_none] at hsim
      exact hsim.disabledBoundary false ip time

theorem Sim.onEvent (hs : Sim ctx s h) (b : Block) (ev : Event) :
    Sim ctx (s.onEvent ctx b ev) (h.event ctx b ev) := by
  have hask := hs.ask ((ctx.ns ev.tsc).or h.time)
  unfold Loop.onEvent History.event
  rw [hs.time]
  change Sim ctx (((ctx.ns ev.tsc).or h.time).elim s fun t => s.runAt ctx t) _ at hask
  dsimp only [Context.ns] at hask ⊢
  generalize (((Option.map ctx.info.tscToNs ev.tsc).or h.time).elim s fun t => s.runAt ctx t) = s'
    at hask ⊢
  generalize h.ask ((Option.map ctx.info.tscToNs ev.tsc).or h.time) = h' at hask ⊢
  cases ev.type with
  | enabled ip =>
    dsimp only
    rw [History.sample, hask.runner]
    exact hask.boundary _
  | disabled ip => exact hask.onDisabled b ev.ipSuppressed ip _
  | asyncDisabled ip =>
    have hpending := (hask.pendingBranch ip .EMPTY).2
    dsimp only
    rw [History.sample, hpending.runner]
    exact hpending.boundary _
  | asyncBranch source target =>
    dsimp only
    rw [History.sample, hask.runner]
    exact hask.boundary _
  | overflow => exact hask.boundary _
  | other => exact hask

/-! ### Errors -/

theorem Sim.error (hs : Sim ctx s h) (time ip : Option Nat) (code : Nat) (message : String) :
    h.error ctx time ip code message =
      .error (errorEvent ctx.cpu s.curPid s.curTid time ip code message) := by
  rw [History.error, hs.runner]

theorem Sim.onFailed (hs : Sim ctx s h) (e : PtError) (tsc : Option Nat) :
    Sim ctx (Blob.onFailed ctx s e tsc) (h.failed ctx e (ctx.ns tsc)) := by
  unfold Blob.onFailed History.failed
  dsimp only
  rw [hs.error, hs.images, hs.prev]
  cases h.images.curForeign with
  | true =>
    have hnone : h.say [] = h := by
      rw [History.say, List.append_nil]
    simp only [if_true, hnone]
    exact hs.closed
  | false =>
    simp only [Bool.false_eq_true, if_false]
    exact (hs.push _).closed

theorem Sim.onStuck (hs : Sim ctx s h) (b : Block) (tsc : Option Nat) :
    Sim ctx (Blob.onStuck ctx s b tsc) (h.stuck ctx b (ctx.ns tsc)) := by
  unfold Blob.onStuck History.stuck
  rw [hs.error]
  have hcut := hs.boundary (.error (errorEvent ctx.cpu s.curPid s.curTid (ctx.ns tsc)
    (some b.ip.toNat) 6 ("never-ending loop at 0x" ++ String.ofList (Text.padded 16 0 b.ip.toNat)
      ++ " (no packet consumed)")))
  exact { hcut with latest := ⟨hcut.latest.idx, hcut.latest.cur⟩ }

/-! ### The machine -/

section Machine

variable {δ : Type} {lib : BlockDecoder δ} {c : Config δ} {d : δ}

/-- A configuration says what the history does; one that ended well has sent all
of it. -/
structure Follows (ctx : Context) (c : Config δ) (h : History) : Prop where
  agrees : Says ctx c.loop h
  sends : (∀ r, c.pc ≠ .stop r) → Sends c.loop h
  ended : ∀ n, c.pc = .stop (.ok n) → c.loop.batch = [] ∧ n = c.loop.emitted

theorem Sim.follows (hs : Sim ctx s h) {pc : Pc} (hpc : ∀ r, pc ≠ .stop r) :
    Follows ctx ⟨d, s, pc⟩ h :=
  ⟨hs.toSays, fun _ => hs.toSends, fun _ hn => absurd hn (hpc _)⟩

theorem Says.stopped (hs : Says ctx s h) (e : Error) : Follows ctx ⟨d, s, .stop (.error e)⟩ h :=
  ⟨hs, fun hpc => absurd rfl (hpc _), fun n hn => by cases hn⟩

/-- Sending changes nothing of what is said. -/
theorem flush_cases (s : Loop) :
    (s.batch = [] ∧ s.flush ctx = .ok s) ∨
      s.flush ctx = .ok { s with sent := s.sent ++ [s.batch], batch := [] } ∨
      ∃ e, s.flush ctx = .error e := by
  unfold Loop.flush
  split
  next hnil => exact .inl ⟨hnil, rfl⟩
  next =>
    split
    next => exact .inr (.inl rfl)
    next => exact .inr (.inr ⟨_, rfl⟩)

theorem Says.flushed (hs : Says ctx s h) :
    Says ctx { s with sent := s.sent ++ [s.batch], batch := [] } h :=
  { hs with
    out := by
      rw [← hs.out, List.flatten_append, List.flatten_singleton, List.append_nil]
    latest := ⟨hs.latest.idx, hs.latest.cur⟩ }

theorem Sim.stopLoop (hs : Says ctx s h) : Follows ctx (stopLoop ctx d s) h := by
  unfold Blob.stopLoop
  rcases flush_cases s with ⟨hnil, hflush⟩ | hflush | ⟨e, hflush⟩
  · rw [hflush]
    refine ⟨hs, fun hpc => absurd rfl (hpc _), fun n hn => ⟨hnil, ?_⟩⟩
    cases hn
    rfl
  · rw [hflush]
    refine ⟨hs.flushed, fun hpc => absurd rfl (hpc _), fun n hn => ⟨rfl, ?_⟩⟩
    cases hn
    rfl
  · rw [hflush]
    exact hs.stopped e

/-- The index of a window leaves everything to the plan. -/
theorem follows_index (hs : Sim ctx s h) (entries : List (Nat × Nat)) :
    Follows ctx (stepIndex lib ctx d s entries) h := by
  have hplan : ∀ plan, Sim ctx { s with plan := plan } h :=
    fun plan => { hs with latest := ⟨hs.latest.idx, hs.latest.cur⟩ }
  unfold stepIndex
  split
  next => exact (hplan _).follows fun r hr => by cases hr
  next =>
    split
    next => exact hs.follows fun r hr => by cases hr
    next => exact hs.follows fun r hr => by cases hr

theorem follows_indexEvents (hs : Sim ctx s h) (entries : List (Nat × Nat)) (off : Nat) (st : Status) :
    Follows ctx (stepIndexEvents lib ctx d s entries off st) h := by
  unfold stepIndexEvents
  split
  next =>
    split
    next => exact hs.follows fun r hr => by cases hr
    next => exact hs.follows fun r hr => by cases hr
  next => exact hs.follows fun r hr => by cases hr

theorem follows_onSync (hs : Sim ctx s h) (r : Except PtError Unit × δ) :
    Follows ctx (onSync ctx s r).2 ((onSync ctx s r).1.elim h (h.tell ctx)) := by
  obtain ⟨answer, d⟩ := r
  cases answer with
  | ok _ => exact hs.follows fun r hr => by cases hr
  | error e =>
    unfold onSync
    dsimp only
    split
    next => exact Sim.stopLoop hs.toSays
    next =>
      rw [Option.elim_some, History.tell, hs.error]
      exact Sim.stopLoop (hs.toSays.push _)

theorem follows_sync (hs : Sim ctx s h) :
    Follows ctx (stepSync lib ctx d s).2 ((stepSync lib ctx d s).1.elim h (h.tell ctx)) := by
  have hplan : ∀ plan, Sim ctx { s with plan := plan } h :=
    fun plan => { hs with latest := ⟨hs.latest.idx, hs.latest.cur⟩ }
  unfold stepSync
  split
  next => exact Sim.stopLoop hs.toSays
  next => exact follows_onSync (hplan _) _
  next => exact follows_onSync hs _

theorem follows_next (hs : Sim ctx s h) :
    Follows ctx (stepNext lib ctx d s).2 ((stepNext lib ctx d s).1.elim h (h.tell ctx)) := by
  unfold stepNext
  split
  next e d' _ =>
    split
    next => exact hs.follows fun r hr => by cases hr
    next => exact (hs.onFailed e (lib.time d')).follows fun r hr => by cases hr
  next b st d' _ =>
    -- the guard counts a round; only whether it gives up matters to the history
    have hguard : ∃ off rounds, (guardLoop { s with lastTime := (ctx.ns (knownTime lib d')).or s.lastTime }
        (lib.offset d')).2 = { s with
          lastTime := (ctx.ns (knownTime lib d')).or s.lastTime
          blocks := s.blocks + 1
          stuckOff := off
          stuckRounds := rounds } := by
      unfold guardLoop
      dsimp only
      split
      next =>
        split
        next => exact ⟨_, _, rfl⟩
        next => exact ⟨_, _, rfl⟩
      next => exact ⟨_, _, rfl⟩
    obtain ⟨off, rounds, hguard⟩ := hguard
    have hloop : Sim ctx { s with blocks := s.blocks + 1, stuckOff := off, stuckRounds := rounds } h :=
      { hs with latest := ⟨hs.latest.idx, hs.latest.cur⟩ }
    dsimp only
    rcases hg : guardLoop { s with lastTime := (ctx.ns (knownTime lib d')).or s.lastTime }
      (lib.offset d') with ⟨stuck, s'⟩
    rw [hg] at hguard
    dsimp only at hguard ⊢
    subst hguard
    cases stuck with
    | true =>
      simp only [if_true]
      have htime : Sim ctx { s with
          lastTime := (ctx.ns (knownTime lib d')).or s.lastTime
          blocks := s.blocks + 1
          stuckOff := off
          stuckRounds := rounds } { h with time := (ctx.ns (knownTime lib d')).or h.time } :=
        { hloop with
          time := by rw [hs.time]
          latest := ⟨hs.latest.idx, hs.latest.cur⟩ }
      exact (htime.onStuck b (lib.time d')).follows fun r hr => by cases hr
    | false =>
      simp only [Bool.false_eq_true, if_false]
      rw [Option.elim_some, History.tell, ← hs.time]
      exact (hloop.onBlock b _).follows fun r hr => by cases hr

theorem follows_resync (hs : Sim ctx s h) (left stalled errOffset : Nat) :
    Follows ctx (stepResync lib d s left stalled errOffset) h := by
  have hlast : ∀ off, Sim ctx { s with lastResyncOffset := off } h :=
    fun off => { hs with latest := ⟨hs.latest.idx, hs.latest.cur⟩ }
  unfold stepResync
  split
  next => exact hs.follows fun r hr => by cases hr
  next =>
    split
    next =>
      dsimp only
      split
      next =>
        split
        next => exact hs.follows fun r hr => by cases hr
        next => exact hs.follows fun r hr => by cases hr
      next => exact (hlast _).follows fun r hr => by cases hr
    next =>
      split
      next =>
        split
        next => exact hs.follows fun r hr => by cases hr
        next => exact hs.follows fun r hr => by cases hr
      next => exact hs.follows fun r hr => by cases hr

theorem follows_drain (hs : Sim ctx s h) (left stalled errOffset : Nat) (st : Status) :
    Follows ctx (stepDrain lib d s left stalled errOffset st) h := by
  unfold stepDrain
  split
  next =>
    split
    next => exact hs.follows fun r hr => by cases hr
    next => exact hs.follows fun r hr => by cases hr
  next => exact hs.follows fun r hr => by cases hr

theorem follows_events (hs : Sim ctx s h) (b : Block) (st : Status) :
    Follows ctx (stepEvents lib ctx d s b st).2 ((stepEvents lib ctx d s b st).1.elim h (h.tell ctx)) := by
  unfold stepEvents
  split
  next =>
    split
    next ev st d' _ => exact (hs.onEvent b ev).follows fun r hr => by cases hr
    next => exact hs.follows fun r hr => by cases hr
  next => exact hs.follows fun r hr => by cases hr

/-- What is sent is nothing that is said. -/
theorem Says.settled (hs : Says ctx s h) :
    Says ctx s (if 2048 ≤ h.out.length - h.sent then { h with sent := h.out.length, arrival := none }
      else h) := by
  split
  next => exact { hs with latest := hs.latest }
  next => exact hs

/-- A full batch is sent. -/
theorem Sim.settled (hs : Sim ctx s h) :
    (∃ e, (if 2048 ≤ s.batch.length then (s.flush ctx).map fun s => { s with lastBranchIdx := none }
        else .ok s) = .error e) ∨
      ∃ s', (if 2048 ≤ s.batch.length then (s.flush ctx).map fun s => { s with lastBranchIdx := none }
          else .ok s) = .ok s' ∧
        Sim ctx s' (if 2048 ≤ h.out.length - h.sent then
          { h with sent := h.out.length, arrival := none } else h) := by
  rw [hs.out_length, Nat.add_sub_cancel_left]
  by_cases hfull : 2048 ≤ s.batch.length
  · rw [if_pos hfull, if_pos hfull]
    rcases @flush_cases ctx s with ⟨hnil, -⟩ | hflush | ⟨e, hflush⟩
    · rw [hnil] at hfull
      exact absurd hfull (by decide)
    · refine .inr ⟨_, by rw [hflush]; rfl, ?_⟩
      have hsent := hs.toSays.flushed
      exact { hsent with
        latest := ⟨hsent.latest.idx, hsent.latest.cur⟩
        sent := by
          rw [List.flatten_append, List.flatten_singleton, List.length_append, hs.sent]
        arrival := rfl }
    · exact .inl ⟨e, by rw [hflush]; rfl⟩
  · rw [if_neg hfull, if_neg hfull]
    exact .inr ⟨s, rfl, hs⟩

theorem follows_settle (hs : Sim ctx s h) (st : Status) :
    Follows ctx (stepSettle lib ctx d s st).2 ((stepSettle lib ctx d s st).1.elim h (h.tell ctx)) := by
  have hask := hs.ask ((ctx.ns (knownTime lib d)).or h.time)
  have htold : (some (Answer.settled (knownTime lib d))).elim h (h.tell ctx) =
      h.settled ctx ((ctx.ns (knownTime lib d)).or h.time) := rfl
  unfold stepSettle
  rw [hs.time]
  dsimp only
  unfold History.settled at htold
  generalize (ctx.ns (knownTime lib d)).or h.time = time at hask htold ⊢
  generalize time.elim s (fun t => s.runAt ctx t) = s' at hask ⊢
  generalize h.ask time = h' at hask htold
  dsimp only at htold
  rw [hask.runner, ← hask.images] at htold
  cases hswitch : s'.images.switch ctx s'.curPid time with
  -- the image cannot be switched to: the run stops, having told as much
  | error e =>
    rw [hswitch] at htold
    dsimp only
    rw [htold]
    have hsame : Sim ctx s' { h' with images := s'.images } :=
      { hask with images := rfl, latest := hask.latest }
    exact hsame.toSays.settled.stopped e
  | ok switched =>
    obtain ⟨images, image⟩ := switched
    rw [hswitch] at htold
    dsimp only
    have hsame : Sim ctx { s' with images := images } { h' with images := images } :=
      { hask with images := rfl, latest := ⟨hask.latest.idx, hask.latest.cur⟩ }
    -- a full batch is sent, and the sending can fail
    rcases hsame.settled with ⟨e, hfull⟩ | ⟨s'', hfull, hsim⟩
    · rw [hfull]
      dsimp only
      rw [htold]
      exact hsame.toSays.settled.stopped e
    · rw [hfull]
      dsimp only
      have hplan : Sim ctx { s'' with plan := some [] } _ :=
        { hsim with latest := ⟨hsim.latest.idx, hsim.latest.cur⟩ }
      split
      next =>
        rw [htold]
        exact hsim.follows fun r hr => by cases hr
      next =>
        split
        next =>
          rw [htold]
          exact hplan.follows fun r hr => by cases hr
        next =>
          rw [htold]
          exact hsim.follows fun r hr => by cases hr

/-- One step of the machine is what the history makes of its answer. -/
theorem step_follows (hc : Follows ctx c h) :
    Follows ctx (step lib ctx c).2 ((step lib ctx c).1.elim h (h.tell ctx)) := by
  obtain ⟨d, s, pc⟩ := c
  have hsim : (∀ r, pc ≠ .stop r) → Sim ctx s h := fun hpc => ⟨hc.agrees, hc.sends hpc⟩
  cases pc with
  | index entries => exact follows_index (hsim fun r hr => by cases hr) entries
  | indexEvents entries off st =>
    exact follows_indexEvents (hsim fun r hr => by cases hr) entries off st
  | sync => exact follows_sync (hsim fun r hr => by cases hr)
  | next => exact follows_next (hsim fun r hr => by cases hr)
  | resync left stalled errOffset =>
    exact follows_resync (hsim fun r hr => by cases hr) left stalled errOffset
  | drain left stalled errOffset st =>
    exact follows_drain (hsim fun r hr => by cases hr) left stalled errOffset st
  | events b st => exact follows_events (hsim fun r hr => by cases hr) b st
  | settle st => exact follows_settle (hsim fun r hr => by cases hr) st
  | stop r => exact hc

/-- So is a run. -/
theorem run_follows (lib : BlockDecoder δ) (ctx : Context) (d : δ) (n : Nat) :
    Follows ctx (run lib ctx d n).2 (history ctx (run lib ctx d n).1) := by
  induction n with
  | zero =>
    have hstart : Sim ctx Loop.start History.start :=
      { time := rfl
        prev := rfl
        images := rfl
        out := rfl
        emitted := rfl
        latest := ⟨rfl, rfl⟩
        lens := fun pid ip len hget => by
          rw [Loop.start, FastMap.get_empty] at hget
          cases hget
        sent := rfl
        arrival := rfl }
    show Follows ctx (begin_ ctx d) History.start
    unfold begin_
    cases ctx.instructions.isSome with
    | true => exact hstart.follows fun r hr => by cases hr
    | false => exact hstart.follows fun r hr => by cases hr
  | succ n ih =>
    have hstep := @step_follows _ _ _ lib _ ih
    have htold : ∀ (answer : Option Answer) (told : List Answer),
        history ctx (answer.toList ++ told) = answer.elim (history ctx told) ((history ctx told).tell ctx) := by
      intro answer told
      cases answer with
      | none => rfl
      | some a => rfl
    rw [← htold] at hstep
    exact hstep

/-- A decode has emitted what its history says, sent or not; where it ended
well, all of it is sent and the branches counted. Who runs is the task of the
last switch up to the latest time it was asked for. -/
theorem run_history (lib : BlockDecoder δ) (ctx : Context) (d : δ) (n : Nat) :
    (run lib ctx d n).2.loop.sent.flatten ++ (run lib ctx d n).2.loop.batch =
        (history ctx (run lib ctx d n).1).out ∧
      ((run lib ctx d n).2.loop.curPid, (run lib ctx d n).2.loop.curTid) =
        runningAt ctx.schedule (history ctx (run lib ctx d n).1).latest ∧
      ∀ branches, (run lib ctx d n).2.pc = .stop (.ok branches) →
        (run lib ctx d n).2.loop.sent.flatten = (history ctx (run lib ctx d n).1).out ∧
          branches = (history ctx (run lib ctx d n).1).emitted := by
  have hrun := run_follows lib ctx d n
  refine ⟨hrun.agrees.out, hrun.agrees.latest.cur, fun branches hstop => ?_⟩
  obtain ⟨hbatch, hcount⟩ := hrun.ended branches hstop
  have hout := hrun.agrees.out
  rw [hbatch, List.append_nil] at hout
  exact ⟨hout, hcount.trans hrun.agrees.emitted⟩

end Machine

end TraceMcp.Decode.Blob
