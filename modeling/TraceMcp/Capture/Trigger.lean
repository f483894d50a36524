import Mathlib.Data.Finset.Basic
import Mathlib.Logic.Relation
import TraceMcp.Lib.FastMap
import TraceMcp.Lib.Runs

/-!
# The symbol trigger

`supervise` of `src/capture/trigger.rs`: the tracer that plants an `int3` at a
symbol and counts the threads that run into it. It acts on one stopped thread at
a time while the others run, so a thread can execute the `int3` while another's
hit is handled, and its trap be found when the trigger has fired.

The threads, their address spaces and the stops they wait with are the kernel's
(`World.step` has an act for each thing that can happen). Where a process forks,
its memory is copied with the `int3` in it. `Inv` holds in every world that can
be reached: what was trapped is accounted for, the trigger fires once, and the
space it fired in is clean for good (`reachable_inv`). Any other space keeps what
it has (`fired_keeps`).
-/

namespace TraceMcp.Capture.Trigger

open TraceMcp.Lib

/-- `SIGTRAP` and `SIGSTOP`. -/
def SIGTRAP : Nat := 5
def SIGSTOP : Nat := 19

/-- What `waitpid` tells of a thread: a stop has its signal and ptrace event. -/
inductive Status
  | exited (code : Nat)
  | signaled (sig : Nat)
  | stopped (sig event : Nat)
  deriving DecidableEq

/-- The root process, the address of the symbol, and `hits` of the trigger. -/
structure Config where
  child : Nat
  addr : UInt64
  hits : Nat

/-- What the supervisor does about a thread. -/
inductive Answer
  | leave (code : Nat)
  | again
  | resume (sig : Nat)
  /-- A trap that was queued when the trigger fired. -/
  | rewind
  /-- The hit that fires, and one before it. -/
  | last
  | over
  deriving DecidableEq

/-- The loop of `supervise`, up to the hits so far, for a status and the
instruction pointer of the thread. -/
def answer (cfg : Config) (hits : Nat) (armed : Bool) (tid : Nat) (status : Status) (rip : UInt64) :
    Answer :=
  match status with
  | .exited code => if tid = cfg.child then .leave code else .again
  | .signaled sig => if tid = cfg.child then .leave (128 + sig) else .again
  | .stopped sig event =>
    if event ≠ 0 then .resume 0
    else if sig = SIGSTOP then .resume 0
    else if sig = SIGTRAP then
      if rip = cfg.addr + 1 ∧ armed = false then .rewind
      else if rip = cfg.addr + 1 then
        if cfg.hits ≤ hits + 1 then .last else .over
      else .resume 0
    else .resume sig

/-! ## The world -/

/-- What a thread is doing: it runs, on its own or for a single step; it has a
status to be waited for; or the supervisor holds it. -/
inductive Run
  | running
  | stepping
  | waiting (status : Status)
  | held
  deriving DecidableEq

structure Thread where
  space : Nat
  rip : UInt64
  run : Run
  /-- It has executed the `int3` and was not rewound. -/
  inside : Bool

/-- Where the supervisor is. -/
inductive Sup
  | waiting
  | stepping (tid : Nat)
  | acking (tid : Nat)
  | ended (code : Nat)
  deriving DecidableEq

structure World where
  threads : FastMap Nat Thread
  /-- The spaces that have the `int3`, and how many there have been. -/
  int3 : Finset Nat
  spaces : Nat
  sup : Sup
  hits : Nat
  armed : Bool
  /-- The hits written to the FIFO. -/
  notes : List (Nat × Nat)
  /-- The traps that were taken, those rewound, and those that died with their
  thread. -/
  taken : Nat
  rewound : Nat
  dropped : Nat
  /-- The space of the hit that fired. -/
  firedIn : Option Nat

/-- The `int3` is planted, and the workload goes on from its exec. -/
def World.start (cfg : Config) (rip : UInt64) : World where
  threads := (∅ : FastMap Nat Thread).insert cfg.child ⟨0, rip, .running, false⟩
  int3 := {0}
  spaces := 1
  sup := .waiting
  hits := 0
  armed := true
  notes := []
  taken := 0
  rewound := 0
  dropped := 0
  firedIn := none

/-- What can happen. -/
inductive Act
  /-- A thread executes an instruction and goes on at `rip`. -/
  | run (tid : Nat) (rip : UInt64)
  | signal (tid sig : Nat)
  | event (tid event : Nat)
  /-- A new thread, of the same space or of a copy of it. -/
  | clone (tid new : Nat) (rip : UInt64)
  | fork (tid new : Nat) (rip : UInt64)
  | exec (tid : Nat) (rip : UInt64) (event : Nat)
  | die (tid : Nat) (status : Status)
  /-- The supervisor gets a thread, its snapshot, or the end of a step. -/
  | wait (tid : Nat)
  | ack
  | stepped

namespace World

variable (cfg : Config) (w : World)

def set (tid : Nat) (t : Thread) : World := { w with threads := w.threads.insert tid t }

/-- A running thread executes an instruction. -/
def stepRun (tid : Nat) (t : Thread) (rip : UInt64) : World :=
  if t.rip = cfg.addr ∧ t.space ∈ w.int3 then
    { w.set tid { t with
        rip := cfg.addr + 1
        run := .waiting (.stopped SIGTRAP 0)
        inside := true } with taken := w.taken + 1 }
  else
    w.set tid { t with
      rip := rip
      run := if t.run = .stepping then .waiting (.stopped SIGTRAP 0) else .running }

/-- The supervisor gets a thread with a status. -/
def stepWait (tid : Nat) (t : Thread) (status : Status) : World :=
  match answer cfg w.hits w.armed tid status t.rip with
  | .leave code => { w with threads := w.threads.erase tid, sup := .ended code }
  | .again => { w with threads := w.threads.erase tid }
  | .resume _ => w.set tid { t with run := .running }
  | .rewind =>
    { w.set tid { t with rip := cfg.addr, run := .running, inside := false } with
      rewound := w.rewound + 1 }
  | .last =>
    { w.set tid { t with rip := cfg.addr, run := .held, inside := false } with
      int3 := w.int3.erase t.space
      sup := .acking tid
      hits := w.hits + 1
      armed := false
      notes := w.notes ++ [(tid, w.hits + 1)]
      firedIn := some t.space }
  | .over =>
    { w.set tid { t with rip := cfg.addr, run := .stepping, inside := false } with
      int3 := w.int3.erase t.space
      sup := .stepping tid
      hits := w.hits + 1 }

/-- The single step is over: the `int3` is planted again, but for a thread that
is gone. -/
def stepStepped (tid : Nat) (t : Thread) (status : Status) : World :=
  match status with
  | .stopped _ _ =>
    { w.set tid { t with run := .running } with int3 := insert t.space w.int3, sup := .waiting }
  | _ => { w with threads := w.threads.erase tid, sup := .waiting }

/-- The world after an act, if it can happen. Two things are assumed away: a
`SIGTRAP` that is sent to a thread right behind the `int3`, which is no trap but
looks like one, and a thread that clones or forks in a single step, whose new
space would be a copy without the `int3`. -/
def step : Act → Option World
  | .run tid rip => do
    let t ← w.threads.get tid
    if t.run = .running ∨ t.run = .stepping then some (w.stepRun cfg tid t rip) else none
  | .signal tid sig => do
    let t ← w.threads.get tid
    -- a trap of another kind is not right behind the `int3`
    if (t.run = .running ∨ t.run = .stepping) ∧ (sig = SIGTRAP → t.rip ≠ cfg.addr + 1) then
      some (w.set tid { t with run := .waiting (.stopped sig 0) })
    else none
  | .event tid event => do
    let t ← w.threads.get tid
    if (t.run = .running ∨ t.run = .stepping) ∧ event ≠ 0 then
      some (w.set tid { t with run := .waiting (.stopped SIGTRAP event) })
    else none
  | .clone tid new rip => do
    let t ← w.threads.get tid
    if t.run = .running ∧ w.threads.get new = none then
      some (w.set new ⟨t.space, rip, .waiting (.stopped SIGSTOP 0), false⟩)
    else none
  | .fork tid new rip => do
    let t ← w.threads.get tid
    if t.run = .running ∧ w.threads.get new = none then
      some { w.set new ⟨w.spaces, rip, .waiting (.stopped SIGSTOP 0), false⟩ with
        int3 := if t.space ∈ w.int3 then insert w.spaces w.int3 else w.int3
        spaces := w.spaces + 1 }
    else none
  | .exec tid rip event => do
    let t ← w.threads.get tid
    if (t.run = .running ∨ t.run = .stepping) ∧ event ≠ 0 then
      some { w.set tid { t with
          space := w.spaces
          rip := rip
          run := .waiting (.stopped SIGTRAP event) } with spaces := w.spaces + 1 }
    else none
  | .die tid status => do
    let t ← w.threads.get tid
    match status with
    | .stopped _ _ => none
    | _ =>
      some { w.set tid { t with run := .waiting status, inside := false } with
        dropped := w.dropped + t.inside.toNat }
  | .wait tid => do
    let t ← w.threads.get tid
    match w.sup, t.run with
    | .waiting, .waiting status => some (w.stepWait cfg tid t status)
    | _, _ => none
  | .ack =>
    match w.sup with
    | .acking tid =>
      match w.threads.get tid with
      | some t =>
        some { (if t.run = .held then w.set tid { t with run := .running } else w) with
          sup := .waiting }
      | none => some { w with sup := .waiting }
    | _ => none
  | .stepped =>
    match w.sup with
    | .stepping tid => do
      let t ← w.threads.get tid
      match t.run with
      | .waiting status => some (w.stepStepped tid t status)
      | _ => none
    | _ => none

/-- Something happens. -/
def Moves (w' : World) : Prop := ∃ act, w.step cfg act = some w'

/-- What can be reached from the start. -/
def Reachable : Prop := ∃ rip, Relation.ReflTransGen (Moves cfg) (start cfg rip) w

end World

/-! ## What holds in every world -/

/-- How many hits fire: `hits`, and no fewer than one. -/
def Config.goal (cfg : Config) : Nat := max cfg.hits 1

/-- A thread that executed the `int3` waits with the trap; one with a trap from
right behind the address has, unless it is being stepped. -/
structure Ok (cfg : Config) (sup : Sup) (spaces tid : Nat) (t : Thread) : Prop where
  inside : t.inside = true → t.run = .waiting (.stopped SIGTRAP 0) ∧ t.rip = cfg.addr + 1
  trapped : t.run = .waiting (.stopped SIGTRAP 0) → t.rip = cfg.addr + 1 →
    t.inside = true ∨ sup = .stepping tid
  stepping : t.run = .stepping → sup = .stepping tid
  space : t.space < spaces

/-- The thread that is stepped is past the `int3`, and its space has none. -/
def Steps (w : World) (tid : Nat) : Prop :=
  ∃ t, w.threads.get tid = some t ∧ t.inside = false ∧ t.space ∉ w.int3

structure Inv (cfg : Config) (w : World) : Prop where
  threads : ∀ tid t, w.threads.get tid = some t → Ok cfg w.sup w.spaces tid t
  /-- Each trap that was taken is a hit, was rewound, died or is queued. -/
  ledger : w.hits + w.rewound + w.dropped + w.threads.count (·.inside) = w.taken
  armed : w.armed = true ↔ w.hits < cfg.goal
  le : w.hits ≤ cfg.goal
  notes : w.notes.map (·.2) = if w.armed then [] else [cfg.goal]
  fired : w.firedIn.isSome = !w.armed
  clean : ∀ s ∈ w.firedIn, s < w.spaces ∧ s ∉ w.int3
  spaces : ∀ s ∈ w.int3, s < w.spaces
  stepping : ∀ tid, w.sup = .stepping tid → w.armed = true ∧ Steps w tid

variable {cfg : Config} {w w' : World} {tid : Nat} {t : Thread}

theorem Ok.mono {sup : Sup} {n m : Nat} (h : Ok cfg sup n tid t) (hle : n ≤ m) :
    Ok cfg sup m tid t :=
  { h with space := Nat.lt_of_lt_of_le h.space hle }

/-- While the supervisor waits no thread is stepped. -/
theorem Ok.of_waiting {n : Nat} (h : Ok cfg .waiting n tid t) (sup : Sup) : Ok cfg sup n tid t where
  inside := h.inside
  trapped := fun hrun hrip => (h.trapped hrun hrip).imp_right fun hsup => (by cases hsup)
  stepping := fun hrun => (by cases h.stepping hrun)
  space := h.space

theorem Ok.of_other {tid' n : Nat} (h : Ok cfg (.stepping tid) n tid' t) (hne : tid' ≠ tid) (sup : Sup) :
    Ok cfg sup n tid' t where
  inside := h.inside
  trapped := fun hrun hrip =>
    (h.trapped hrun hrip).imp_right fun hsup => absurd (Sup.stepping.inj hsup).symm hne
  stepping := fun hrun => absurd (Sup.stepping.inj (h.stepping hrun)).symm hne
  space := h.space

/-- A thread that is outside, and has no trap and is not stepped. -/
theorem ok_outside {sup : Sup} {n : Nat} (hin : t.inside = false)
    (htrap : t.run = .waiting (.stopped SIGTRAP 0) → t.rip ≠ cfg.addr + 1)
    (hstep : t.run ≠ .stepping) (hspace : t.space < n) : Ok cfg sup n tid t where
  inside := fun h => absurd h (by rw [hin]; exact Bool.false_ne_true)
  trapped := fun hrun hrip => absurd hrip (htrap hrun)
  stepping := fun hrun => absurd hrun hstep
  space := hspace

theorem inv_start (cfg : Config) (rip : UInt64) : Inv cfg (World.start cfg rip) where
  threads := by
    intro tid t hget
    rw [World.start, FastMap.get_insert] at hget
    split at hget
    next =>
      cases hget
      exact ok_outside rfl (fun h => (by cases h)) (fun h => (by cases h)) Nat.one_pos
    next =>
      rw [FastMap.get_empty] at hget
      cases hget
  ledger := rfl
  armed := by
    refine iff_of_true rfl ?_
    show 0 < max cfg.hits 1
    omega
  le := Nat.zero_le _
  notes := rfl
  fired := rfl
  clean := fun s hs => (by cases hs)
  spaces := by
    intro s hs
    rw [Finset.mem_singleton.mp hs]
    exact Nat.one_pos
  stepping := fun tid h => (by cases h)

/-- A thread changes. -/
theorem threads_set {sup : Sup} {n : Nat} {m : FastMap Nat Thread}
    (h : ∀ tid' t', m.get tid' = some t' → tid' ≠ tid → Ok cfg sup n tid' t')
    (hok : Ok cfg sup n tid t) :
    ∀ tid' t', FastMap.get (m.insert tid t) tid' = some t' → Ok cfg sup n tid' t' := by
  intro tid' t' hget
  rw [FastMap.get_insert] at hget
  split at hget
  next heq =>
    cases hget
    exact heq ▸ hok
  next hne => exact h tid' t' hget hne

/-- The one that is stepped goes on being so, when another changes. -/
theorem Steps.other {tid' : Nat} (h : Steps w tid') (hne : tid' ≠ tid) (t : Thread) :
    Steps (w.set tid t) tid' := by
  obtain ⟨t', hget, hin, hspace⟩ := h
  refine ⟨t', ?_, hin, hspace⟩
  rw [World.set, FastMap.get_insert, if_neg hne]
  exact hget

/-- A thread goes on in its space, in or out of the `int3` as before. -/
theorem Inv.set (hi : Inv cfg w) (hget : w.threads.get tid = some t) {t' : Thread}
    (hok : Ok cfg w.sup w.spaces tid t') (hin : t'.inside = t.inside) (hspace : t'.space = t.space) :
    Inv cfg (w.set tid t') :=
  { hi with
    threads := threads_set (fun tid' t' h _ => hi.threads tid' t' h) hok
    ledger := by
      rw [World.set, FastMap.count_insert_same (·.inside) t' hget hin]
      exact hi.ledger
    stepping := by
      intro tid' hsup
      obtain ⟨harmed, hsteps⟩ := hi.stepping tid' hsup
      refine ⟨harmed, ?_⟩
      by_cases heq : tid' = tid
      · subst heq
        obtain ⟨u, hu, hout, hclean⟩ := hsteps
        obtain rfl := Option.some.inj (hget.symm.trans hu)
        exact ⟨t', FastMap.get_insert_self _ _ _, hin.trans hout, hspace ▸ hclean⟩
      · exact hsteps.other heq t' }

theorem outside (hi : Inv cfg w) (hget : w.threads.get tid = some t)
    (hrun : t.run ≠ .waiting (.stopped SIGTRAP 0)) : t.inside = false := by
  cases hin : t.inside with
  | false => rfl
  | true => exact absurd ((hi.threads tid t hget).inside hin).1 hrun

/-- A thread that runs is outside. -/
theorem outside_of_runs (hi : Inv cfg w) (hget : w.threads.get tid = some t)
    (hrun : t.run = .running ∨ t.run = .stepping) : t.inside = false := by
  refine outside hi hget fun hwait => ?_
  rw [hwait] at hrun
  rcases hrun with hrun | hrun
  · cases hrun
  · cases hrun

/-! ## Each act -/

/-- The `int3` is executed. -/
theorem inv_trap (hi : Inv cfg w) (hget : w.threads.get tid = some t) (hout : t.inside = false)
    (hspace : t.space ∈ w.int3) :
    Inv cfg { w.set tid { t with
        rip := cfg.addr + 1
        run := .waiting (.stopped SIGTRAP 0)
        inside := true } with taken := w.taken + 1 } := by
  generalize ht' : ({ t with
        rip := cfg.addr + 1
        run := .waiting (.stopped SIGTRAP 0)
        inside := true } : Thread) = t'
  have hok : Ok cfg w.sup w.spaces tid t' := by
    subst ht'
    exact ⟨fun _ => ⟨rfl, rfl⟩, fun _ _ => .inl rfl, fun h => (by cases h),
      (hi.threads tid t hget).space⟩
  exact { hi with
    threads := threads_set (fun tid' t' h _ => hi.threads tid' t' h) hok
    ledger := by
      have hcount := FastMap.count_insert_of_get (·.inside) t' hget
      have hledger := hi.ledger
      subst ht'
      rw [hout, Bool.toNat_false, Bool.toNat_true] at hcount
      show w.hits + w.rewound + w.dropped + FastMap.count (·.inside) (w.threads.insert tid _)
        = w.taken + 1
      omega
    stepping := by
      intro tid' hsup
      obtain ⟨harmed, hsteps⟩ := hi.stepping tid' hsup
      refine ⟨harmed, hsteps.other (fun heq => ?_) t'⟩
      subst heq
      obtain ⟨u, hu, -, hclean⟩ := hsteps
      obtain rfl := Option.some.inj (hget.symm.trans hu)
      exact hclean hspace }

theorem inv_run (hi : Inv cfg w) (hget : w.threads.get tid = some t)
    (hrun : t.run = .running ∨ t.run = .stepping) (rip : UInt64) :
    Inv cfg (w.stepRun cfg tid t rip) := by
  have hout := outside_of_runs hi hget hrun
  unfold World.stepRun
  split
  next hat => exact inv_trap hi hget hout hat.2
  next =>
    refine hi.set hget ⟨fun h => absurd h (by rw [hout]; exact Bool.false_ne_true), ?_, ?_,
      (hi.threads tid t hget).space⟩ rfl rfl
    · -- a trap at the end of a step may be right behind the address
      intro hwait _
      refine .inr ((hi.threads tid t hget).stepping ?_)
      rcases hrun with hrun | hrun
      · rw [hrun] at hwait
        cases hwait
      · exact hrun
    · intro hstep
      dsimp only at hstep
      split at hstep
      next => cases hstep
      next => cases hstep

/-- A stop that is no trap of the `int3`. -/
theorem inv_stop (hi : Inv cfg w) (hget : w.threads.get tid = some t)
    (hrun : t.run = .running ∨ t.run = .stepping) {sig event : Nat}
    (hother : event = 0 → sig = SIGTRAP → t.rip ≠ cfg.addr + 1) :
    Inv cfg (w.set tid { t with run := .waiting (.stopped sig event) }) := by
  have hout := outside_of_runs hi hget hrun
  refine hi.set hget (ok_outside hout ?_ (fun h => (by cases h)) (hi.threads tid t hget).space) rfl rfl
  intro hwait
  cases hwait
  exact hother rfl rfl

/-- A new thread. -/
theorem count_new {new : Nat} (hnew : w.threads.get new = none) (ht : t.inside = false) :
    FastMap.count (·.inside) (w.threads.insert new t) = w.threads.count (·.inside) := by
  rw [FastMap.count_insert_of_none (·.inside) t hnew, ht]
  exact Nat.zero_add _

theorem Steps.new {new : Nat} (h : Steps w tid) (hnew : w.threads.get new = none) (t : Thread) :
    Steps (w.set new t) tid := by
  refine h.other (fun heq => ?_) t
  obtain ⟨u, hu, -⟩ := h
  rw [← heq, hu] at hnew
  cases hnew

theorem inv_clone (hi : Inv cfg w) (hget : w.threads.get tid = some t) {new : Nat}
    (hnew : w.threads.get new = none) (rip : UInt64) :
    Inv cfg (w.set new ⟨t.space, rip, .waiting (.stopped SIGSTOP 0), false⟩) :=
  { hi with
    threads := threads_set (fun tid' t' h _ => hi.threads tid' t' h)
      (ok_outside rfl (fun h => (by cases h)) (fun h => (by cases h)) (hi.threads tid t hget).space)
    ledger := by
      rw [World.set, count_new hnew rfl]
      exact hi.ledger
    stepping := fun tid' hsup => (hi.stepping tid' hsup).imp_right fun h => h.new hnew _ }

/-- A process forks: the copy has the `int3` if what it was copied from has. -/
theorem inv_fork (hi : Inv cfg w) {new : Nat} (hnew : w.threads.get new = none) (rip : UInt64)
    (copied : Prop) [Decidable copied] :
    Inv cfg { w.set new ⟨w.spaces, rip, .waiting (.stopped SIGSTOP 0), false⟩ with
      int3 := if copied then insert w.spaces w.int3 else w.int3
      spaces := w.spaces + 1 } := by
  have hmem : ∀ s ∈ (if copied then insert w.spaces w.int3 else w.int3),
      s = w.spaces ∨ s ∈ w.int3 := by
    intro s hs
    split at hs
    next => exact Finset.mem_insert.mp hs
    next => exact .inr hs
  exact { hi with
    threads := threads_set (fun tid t hget _ => (hi.threads tid t hget).mono (Nat.le_succ _))
      (ok_outside rfl (fun h => (by cases h)) (fun h => (by cases h)) (Nat.lt_succ_self _))
    ledger := by
      show w.hits + w.rewound + w.dropped + FastMap.count (·.inside) (w.threads.insert new _)
        = w.taken
      rw [count_new hnew rfl]
      exact hi.ledger
    clean := by
      intro s hs
      obtain ⟨hlt, hclean⟩ := hi.clean s hs
      refine ⟨Nat.lt_succ_of_lt hlt, fun hin => ?_⟩
      rcases hmem s hin with rfl | hin
      · exact Nat.lt_irrefl _ hlt
      · exact hclean hin
    spaces := by
      intro s hs
      rcases hmem s hs with rfl | hin
      · exact Nat.lt_succ_self _
      · exact Nat.lt_succ_of_lt (hi.spaces s hin)
    stepping := by
      intro tid hsup
      obtain ⟨harmed, hsteps⟩ := hi.stepping tid hsup
      obtain ⟨t, hget, hout, hclean⟩ := hsteps.new hnew _
      refine ⟨harmed, t, hget, hout, fun hin => ?_⟩
      rcases hmem _ hin with heq | hin
      · obtain ⟨u, hu, -⟩ := hsteps
        have hne : tid ≠ new := fun heq => (by rw [heq, hnew] at hu; cases hu)
        rw [World.set, FastMap.get_insert, if_neg hne] at hget
        exact Nat.lt_irrefl _ (heq ▸ (hi.threads tid t hget).space)
      · exact hclean hin }

/-- A process execs: its memory is new. -/
theorem inv_exec (hi : Inv cfg w) (hget : w.threads.get tid = some t)
    (hrun : t.run = .running ∨ t.run = .stepping) (rip : UInt64) {event : Nat} (hevent : event ≠ 0) :
    Inv cfg { w.set tid { t with
        space := w.spaces
        rip := rip
        run := .waiting (.stopped SIGTRAP event) } with spaces := w.spaces + 1 } := by
  have hout := outside_of_runs hi hget hrun
  exact { hi with
    threads := threads_set (fun tid t hget _ => (hi.threads tid t hget).mono (Nat.le_succ _))
      (ok_outside hout (fun h => absurd (Status.stopped.inj (Run.waiting.inj h)).2 hevent)
        (fun h => (by cases h)) (Nat.lt_succ_self _))
    ledger := by
      show w.hits + w.rewound + w.dropped + FastMap.count (·.inside) (w.threads.insert tid _)
        = w.taken
      rw [FastMap.count_insert_same (·.inside) { t with
        space := w.spaces
        rip := rip
        run := .waiting (.stopped SIGTRAP event) } hget rfl]
      exact hi.ledger
    clean := fun s hs => ⟨Nat.lt_succ_of_lt (hi.clean s hs).1, (hi.clean s hs).2⟩
    spaces := fun s hs => Nat.lt_succ_of_lt (hi.spaces s hs)
    stepping := by
      intro tid' hsup
      obtain ⟨harmed, hsteps⟩ := hi.stepping tid' hsup
      refine ⟨harmed, ?_⟩
      by_cases heq : tid' = tid
      · subst heq
        exact ⟨_, FastMap.get_insert_self _ _ _, hout,
          fun hin => Nat.lt_irrefl _ (hi.spaces _ hin)⟩
      · exact hsteps.other heq _ }

/-- A thread dies, with the trap it may have. -/
theorem inv_die (hi : Inv cfg w) (hget : w.threads.get tid = some t) {status : Status}
    (hgone : ∀ sig event, status ≠ .stopped sig event) :
    Inv cfg { w.set tid { t with run := .waiting status, inside := false } with
      dropped := w.dropped + t.inside.toNat } := by
  have hok : Ok cfg w.sup w.spaces tid { t with run := .waiting status, inside := false } :=
    ok_outside rfl (fun h => absurd (Run.waiting.inj h) (hgone _ _)) (fun h => (by cases h))
      (hi.threads tid t hget).space
  exact { hi with
    threads := threads_set (fun tid' t' h _ => hi.threads tid' t' h) hok
    ledger := by
      have hcount := FastMap.count_insert_of_get (·.inside)
        { t with run := .waiting status, inside := false } hget
      have hledger := hi.ledger
      rw [Bool.toNat_false] at hcount
      show w.hits + w.rewound + (w.dropped + t.inside.toNat)
        + FastMap.count (·.inside) (w.threads.insert tid _) = w.taken
      omega
    stepping := by
      intro tid' hsup
      obtain ⟨harmed, hsteps⟩ := hi.stepping tid' hsup
      refine ⟨harmed, ?_⟩
      by_cases heq : tid' = tid
      · subst heq
        obtain ⟨u, hu, -, hclean⟩ := hsteps
        obtain rfl := Option.some.inj (hget.symm.trans hu)
        exact ⟨_, FastMap.get_insert_self _ _ _, rfl, hclean⟩
      · exact hsteps.other heq _ }

/-- A thread that is waited for and gone. -/
theorem inv_gone (hi : Inv cfg w) (hget : w.threads.get tid = some t) (hout : t.inside = false)
    (hwait : w.sup = .waiting) (sup : Sup) (hsup : ∀ tid, sup ≠ .stepping tid) :
    Inv cfg { w with threads := w.threads.erase tid, sup := sup } :=
  { hi with
    threads := by
      intro tid' t' hget'
      rw [FastMap.get_erase] at hget'
      split at hget'
      next => cases hget'
      next => exact Ok.of_waiting (hwait ▸ hi.threads tid' t' hget') sup
    ledger := by
      have hcount := FastMap.total_erase (fun t : Thread => t.inside.toNat) hget
      rw [hout, Bool.toNat_false, Nat.zero_add] at hcount
      show w.hits + w.rewound + w.dropped + FastMap.count (·.inside) (w.threads.erase tid) = w.taken
      rw [FastMap.count, ← hcount]
      exact hi.ledger
    stepping := fun tid' h => absurd h (hsup tid') }

/-- A trap is answered: its thread is put back before the `int3`. -/
theorem ledger_back (hi : Inv cfg w) (hget : w.threads.get tid = some t) (hin : t.inside = true)
    {t' : Thread} (hout : t'.inside = false) :
    w.hits + w.rewound + w.dropped + FastMap.count (·.inside) (w.threads.insert tid t') + 1
      = w.taken := by
  have hcount := FastMap.count_insert_of_get (·.inside) t' hget
  have hledger := hi.ledger
  rw [hin, hout, Bool.toNat_true, Bool.toNat_false] at hcount
  omega

theorem inv_rewind (hi : Inv cfg w) (hget : w.threads.get tid = some t) (hin : t.inside = true)
    (hwait : w.sup = .waiting) :
    Inv cfg { w.set tid { t with rip := cfg.addr, run := .running, inside := false } with
      rewound := w.rewound + 1 } :=
  { hi with
    threads := threads_set (fun tid' t' h _ => hi.threads tid' t' h)
      (ok_outside rfl (fun h => (by cases h)) (fun h => (by cases h)) (hi.threads tid t hget).space)
    ledger := by
      have hback := @ledger_back cfg w tid t hi hget hin
        { t with rip := cfg.addr, run := .running, inside := false } rfl
      show w.hits + (w.rewound + 1) + w.dropped
        + FastMap.count (·.inside) (w.threads.insert tid _) = w.taken
      omega
    stepping := fun tid' h => (by
      rw [show w.sup = .stepping tid' from h] at hwait
      cases hwait) }

/-- The hit that fires. -/
theorem inv_last (hi : Inv cfg w) (hget : w.threads.get tid = some t) (hin : t.inside = true)
    (hwait : w.sup = .waiting) (harmed : w.armed = true) (hlast : cfg.hits ≤ w.hits + 1) :
    Inv cfg { w.set tid { t with rip := cfg.addr, run := .held, inside := false } with
      int3 := w.int3.erase t.space
      sup := .acking tid
      hits := w.hits + 1
      armed := false
      notes := w.notes ++ [(tid, w.hits + 1)]
      firedIn := some t.space } := by
  have hgoal : w.hits + 1 = cfg.goal := by
    have hlt := hi.armed.mp harmed
    have hmax : cfg.goal = max cfg.hits 1 := rfl
    omega
  have hnotes : w.notes = [] := by
    have h := hi.notes
    rw [harmed, if_pos rfl] at h
    exact List.map_eq_nil_iff.mp h
  exact {
    threads := threads_set
      (fun tid' t' h _ => Ok.of_waiting (hwait ▸ hi.threads tid' t' h) (.acking tid))
      (ok_outside rfl (fun h => (by cases h)) (fun h => (by cases h)) (hi.threads tid t hget).space)
    ledger := by
      have hback := @ledger_back cfg w tid t hi hget hin
        { t with rip := cfg.addr, run := .held, inside := false } rfl
      show w.hits + 1 + w.rewound + w.dropped
        + FastMap.count (·.inside) (w.threads.insert tid _) = w.taken
      omega
    armed := iff_of_false Bool.false_ne_true (by
      show ¬ w.hits + 1 < cfg.goal
      omega)
    le := Nat.le_of_eq hgoal
    notes := by
      show (w.notes ++ [(tid, w.hits + 1)]).map (·.2) = [cfg.goal]
      rw [hnotes, ← hgoal]
      rfl
    fired := rfl
    clean := by
      intro s hs
      obtain rfl := Option.some.inj hs
      exact ⟨(hi.threads tid t hget).space, Finset.notMem_erase _ _⟩
    spaces := fun s hs => hi.spaces s (Finset.mem_of_mem_erase hs)
    stepping := fun tid' h => (by cases h) }

/-- A hit before it: the thread is stepped, with the `int3` taken out. -/
theorem inv_over (hi : Inv cfg w) (hget : w.threads.get tid = some t) (hin : t.inside = true)
    (hwait : w.sup = .waiting) (harmed : w.armed = true) (hlast : ¬ cfg.hits ≤ w.hits + 1) :
    Inv cfg { w.set tid { t with rip := cfg.addr, run := .stepping, inside := false } with
      int3 := w.int3.erase t.space
      sup := .stepping tid
      hits := w.hits + 1 } := by
  have hgoal : w.hits + 1 < cfg.goal := by
    have hmax : cfg.goal = max cfg.hits 1 := rfl
    omega
  exact { hi with
    threads := threads_set
      (fun tid' t' h _ => Ok.of_waiting (hwait ▸ hi.threads tid' t' h) (.stepping tid))
      ⟨fun h => (by cases h), fun h => (by cases h), fun _ => rfl, (hi.threads tid t hget).space⟩
    ledger := by
      have hback := @ledger_back cfg w tid t hi hget hin
        { t with rip := cfg.addr, run := .stepping, inside := false } rfl
      show w.hits + 1 + w.rewound + w.dropped
        + FastMap.count (·.inside) (w.threads.insert tid _) = w.taken
      omega
    armed := iff_of_true harmed hgoal
    le := Nat.le_of_lt hgoal
    clean := fun s hs => ⟨(hi.clean s hs).1, fun h => (hi.clean s hs).2 (Finset.mem_of_mem_erase h)⟩
    spaces := fun s hs => hi.spaces s (Finset.mem_of_mem_erase hs)
    stepping := by
      intro tid' h
      obtain rfl := Sup.stepping.inj h
      exact ⟨harmed, _, FastMap.get_insert_self _ _ _, rfl, Finset.notMem_erase _ _⟩ }

/-- What the answers are about: a thread that is gone, a stop that is no trap of
the `int3`, and the traps. -/
theorem answer_cases (cfg : Config) (hits : Nat) (armed : Bool) (tid : Nat) (status : Status)
    (rip : UInt64) :
    ((∀ sig event, status ≠ .stopped sig event) ∧
      ((∃ code, answer cfg hits armed tid status rip = .leave code) ∨
        answer cfg hits armed tid status rip = .again)) ∨
    (¬ (status = .stopped SIGTRAP 0 ∧ rip = cfg.addr + 1) ∧
      ∃ sig, answer cfg hits armed tid status rip = .resume sig) ∨
    (status = .stopped SIGTRAP 0 ∧ rip = cfg.addr + 1 ∧
      answer cfg hits armed tid status rip =
        if armed = false then .rewind else if cfg.hits ≤ hits + 1 then .last else .over) := by
  cases status with
  | exited code =>
    refine .inl ⟨fun _ _ h => (by cases h), ?_⟩
    by_cases htid : tid = cfg.child
    · exact .inl ⟨code, if_pos htid⟩
    · exact .inr (if_neg htid)
  | signaled sig =>
    refine .inl ⟨fun _ _ h => (by cases h), ?_⟩
    by_cases htid : tid = cfg.child
    · exact .inl ⟨128 + sig, if_pos htid⟩
    · exact .inr (if_neg htid)
  | stopped sig event =>
    by_cases hevent : event ≠ 0
    · exact .inr (.inl ⟨fun h => hevent (Status.stopped.inj h.1).2, 0, if_pos hevent⟩)
    by_cases hstop : sig = SIGSTOP
    · refine .inr (.inl ⟨fun h => ?_, 0, (if_neg hevent).trans (if_pos hstop)⟩)
      exact absurd ((Status.stopped.inj h.1).1.symm.trans hstop) (by decide)
    by_cases htrap : sig = SIGTRAP
    · by_cases hrip : rip = cfg.addr + 1
      · refine .inr (.inr ⟨by rw [htrap, not_not.mp hevent], hrip, ?_⟩)
        rw [answer, if_neg hevent, if_neg hstop, if_pos htrap, if_pos hrip]
        cases armed with
        | true => rw [if_neg (fun h => Bool.false_ne_true h.2.symm), if_neg Bool.false_ne_true.symm]
        | false => rw [if_pos ⟨hrip, rfl⟩, if_pos rfl]
      · refine .inr (.inl ⟨fun h => hrip h.2, 0, ?_⟩)
        rw [answer, if_neg hevent, if_neg hstop, if_pos htrap, if_neg (fun h => hrip h.1), if_neg hrip]
    · refine .inr (.inl ⟨fun h => htrap (Status.stopped.inj h.1).1, sig, ?_⟩)
      rw [answer, if_neg hevent, if_neg hstop, if_neg htrap]

theorem inv_wait (hi : Inv cfg w) (hget : w.threads.get tid = some t) (hwait : w.sup = .waiting)
    {status : Status} (hrun : t.run = .waiting status) : Inv cfg (w.stepWait cfg tid t status) := by
  rcases answer_cases cfg w.hits w.armed tid status t.rip with
    ⟨hgone, hans⟩ | ⟨hno, sig, hans⟩ | ⟨rfl, hrip, hans⟩
  · have hout : t.inside = false :=
      outside hi hget fun h => hgone _ _ (Run.waiting.inj (hrun.symm.trans h))
    rcases hans with ⟨code, hans⟩ | hans
    · rw [World.stepWait, hans]
      exact inv_gone hi hget hout hwait (.ended code) fun tid h => (by cases h)
    · rw [World.stepWait, hans]
      exact inv_gone hi hget hout hwait w.sup fun tid h => (by rw [hwait] at h; cases h)
  · have hout : t.inside = false := by
      cases hin : t.inside with
      | false => rfl
      | true =>
        obtain ⟨htrap, hrip⟩ := (hi.threads tid t hget).inside hin
        exact absurd ⟨Run.waiting.inj (hrun.symm.trans htrap), hrip⟩ hno
    rw [World.stepWait, hans]
    exact hi.set hget (ok_outside hout (fun h => (by cases h)) (fun h => (by cases h))
      (hi.threads tid t hget).space) rfl rfl
  · have hin : t.inside = true := by
      rcases (hi.threads tid t hget).trapped hrun hrip with hin | hsup
      · exact hin
      · rw [hwait] at hsup
        cases hsup
    cases harmed : w.armed with
    | false =>
      rw [harmed, if_pos rfl] at hans
      rw [World.stepWait, harmed, hans]
      exact inv_rewind hi hget hin hwait
    | true =>
      rw [harmed, if_neg Bool.false_ne_true.symm] at hans
      by_cases hlast : cfg.hits ≤ w.hits + 1
      · rw [if_pos hlast] at hans
        rw [World.stepWait, harmed, hans]
        exact inv_last hi hget hin hwait harmed hlast
      · rw [if_neg hlast] at hans
        rw [World.stepWait, harmed, hans]
        exact inv_over hi hget hin hwait harmed hlast

/-- The supervisor waits again; what it held goes on. -/
theorem inv_ack {tid' : Nat} (hi : Inv cfg w) (hack : w.sup = .acking tid')
    (m : FastMap Nat Thread)
    (hm : m = w.threads ∨ ∃ t, w.threads.get tid = some t ∧ t.run = .held ∧
      m = w.threads.insert tid { t with run := .running }) :
    Inv cfg { w with threads := m, sup := .waiting } := by
  have hother : ∀ tid t, w.threads.get tid = some t → Ok cfg .waiting w.spaces tid t := by
    intro tid t hget
    have hok := hi.threads tid t hget
    rw [hack] at hok
    exact ⟨hok.inside, fun hrun hrip => (hok.trapped hrun hrip).imp_right fun h => (by cases h),
      fun hrun => (by cases hok.stepping hrun), hok.space⟩
  rcases hm with rfl | ⟨t, hget, hheld, rfl⟩
  · exact { hi with
      threads := hother
      stepping := fun tid h => (by cases h) }
  · have hout : t.inside = false := outside hi hget (by
      rw [hheld]
      exact fun h => (by cases h))
    exact { hi with
      threads := threads_set (fun tid t h _ => hother tid t h)
        (ok_outside hout (fun h => (by cases h)) (fun h => (by cases h)) (hi.threads tid t hget).space)
      ledger := by
        show w.hits + w.rewound + w.dropped + FastMap.count (·.inside) (w.threads.insert tid _)
          = w.taken
        rw [FastMap.count_insert_same (·.inside) { t with run := .running } hget rfl]
        exact hi.ledger
      stepping := fun tid h => (by cases h) }

/-- The step is over. -/
theorem inv_stepped (hi : Inv cfg w) (hstep : w.sup = .stepping tid)
    (hget : w.threads.get tid = some t) (status : Status) :
    Inv cfg (w.stepStepped tid t status) := by
  obtain ⟨harmed, u, hu, hout, -⟩ := hi.stepping tid hstep
  obtain rfl := Option.some.inj (hget.symm.trans hu)
  have hother : ∀ tid' t', w.threads.get tid' = some t' → tid' ≠ tid →
      Ok cfg .waiting w.spaces tid' t' := fun tid' t' h hne =>
    Ok.of_other (hstep ▸ hi.threads tid' t' h) hne .waiting
  -- nothing has fired, so that no space has to be clean
  have hnone : ∀ s, s ∉ w.firedIn := by
    intro s hs
    have hfired := hi.fired
    rw [harmed, Option.mem_def.mp hs] at hfired
    cases hfired
  have hgone : Inv cfg { w with threads := w.threads.erase tid, sup := .waiting } :=
    { hi with
      threads := by
        intro tid' t' hget'
        rw [FastMap.get_erase] at hget'
        split at hget'
        next => cases hget'
        next hne => exact hother tid' t' hget' hne
      ledger := by
        have hcount := FastMap.total_erase (fun t : Thread => t.inside.toNat) hget
        rw [hout, Bool.toNat_false, Nat.zero_add] at hcount
        show w.hits + w.rewound + w.dropped + FastMap.count (·.inside) (w.threads.erase tid) = w.taken
        rw [FastMap.count, ← hcount]
        exact hi.ledger
      stepping := fun tid h => (by cases h) }
  cases status with
  | exited code => exact hgone
  | signaled sig => exact hgone
  | stopped sig event =>
    exact { hi with
      threads := threads_set hother
        (ok_outside hout (fun h => (by cases h)) (fun h => (by cases h)) (hi.threads tid t hget).space)
      ledger := by
        show w.hits + w.rewound + w.dropped + FastMap.count (·.inside) (w.threads.insert tid _)
          = w.taken
        rw [FastMap.count_insert_same (·.inside) { t with run := .running } hget rfl]
        exact hi.ledger
      clean := fun s hs => absurd hs (hnone s)
      spaces := by
        intro s hs
        rcases Finset.mem_insert.mp hs with rfl | hs
        · exact (hi.threads tid t hget).space
        · exact hi.spaces s hs
      stepping := fun tid h => (by cases h) }

theorem inv_step (hi : Inv cfg w) (act : Act) (h : w.step cfg act = some w') : Inv cfg w' := by
  cases act with
  | run tid rip =>
    obtain ⟨t, hget, h⟩ := Option.bind_eq_some_iff.mp h
    obtain ⟨hrun, h⟩ := Option.ite_none_right_eq_some.mp h
    cases h
    exact inv_run hi hget hrun rip
  | signal tid sig =>
    obtain ⟨t, hget, h⟩ := Option.bind_eq_some_iff.mp h
    obtain ⟨⟨hrun, hother⟩, h⟩ := Option.ite_none_right_eq_some.mp h
    cases h
    exact inv_stop hi hget hrun fun _ => hother
  | event tid event =>
    obtain ⟨t, hget, h⟩ := Option.bind_eq_some_iff.mp h
    obtain ⟨⟨hrun, hevent⟩, h⟩ := Option.ite_none_right_eq_some.mp h
    cases h
    exact inv_stop hi hget hrun fun hzero => absurd hzero hevent
  | clone tid new rip =>
    obtain ⟨t, hget, h⟩ := Option.bind_eq_some_iff.mp h
    obtain ⟨⟨-, hnew⟩, h⟩ := Option.ite_none_right_eq_some.mp h
    cases h
    exact inv_clone hi hget hnew rip
  | fork tid new rip =>
    obtain ⟨t, hget, h⟩ := Option.bind_eq_some_iff.mp h
    obtain ⟨⟨-, hnew⟩, h⟩ := Option.ite_none_right_eq_some.mp h
    cases h
    exact inv_fork hi hnew rip (t.space ∈ w.int3)
  | exec tid rip event =>
    obtain ⟨t, hget, h⟩ := Option.bind_eq_some_iff.mp h
    obtain ⟨⟨hrun, hevent⟩, h⟩ := Option.ite_none_right_eq_some.mp h
    cases h
    exact inv_exec hi hget hrun rip hevent
  -- a thread that died reports no stop, so nothing is left to count
  | die tid status =>
    obtain ⟨t, hget, h⟩ := Option.bind_eq_some_iff.mp h
    cases status with
    | exited code =>
      cases h
      exact inv_die hi hget fun _ _ h => (by cases h)
    | signaled sig =>
      cases h
      exact inv_die hi hget fun _ _ h => (by cases h)
    | stopped sig event => cases h
  | wait tid =>
    obtain ⟨t, hget, h⟩ := Option.bind_eq_some_iff.mp h
    split at h
    next status hsup hrun =>
      cases h
      exact inv_wait hi hget hsup hrun
    next => cases h
  | ack =>
    rw [World.step] at h
    split at h
    next tid hsup =>
      -- the thread of the hit goes on if it is still held
      split at h
      next t hget =>
        cases h
        split
        next hheld => exact inv_ack hi hsup _ (.inr ⟨t, hget, hheld, rfl⟩)
        next => exact @inv_ack cfg w tid tid hi hsup _ (.inl rfl)
      next =>
        cases h
        exact @inv_ack cfg w tid tid hi hsup _ (.inl rfl)
    next => cases h
  | stepped =>
    rw [World.step] at h
    split at h
    next tid hsup =>
      obtain ⟨t, hget, h⟩ := Option.bind_eq_some_iff.mp h
      split at h
      next status hrun =>
        cases h
        exact inv_stepped hi hsup hget status
      next => cases h
    next => cases h

/-- The invariant holds in every world that can be reached. -/
theorem reachable_inv (h : w.Reachable cfg) : Inv cfg w := by
  obtain ⟨rip, h⟩ := h
  exact reflTransGen_invariant (fun _ _ hmove hi => hmove.elim fun act hstep => inv_step hi act hstep) h
    (inv_start cfg rip)

/-- The trigger fires once, at the hit it was set for. Each trap that was taken
is a hit, was rewound, died with its thread or waits; no thread goes on behind
the `int3` without the byte that was there; and the space it fired in has none. -/
theorem fires_once (h : w.Reachable cfg) :
    w.hits ≤ cfg.goal ∧
      w.notes.map (·.2) = (if w.hits = cfg.goal then [cfg.goal] else []) ∧
      w.hits + w.rewound + w.dropped + w.threads.count (·.inside) = w.taken ∧
      (∀ tid t, w.threads.get tid = some t →
        t.run = .running ∨ t.run = .stepping ∨ t.run = .held → t.inside = false) ∧
      (w.firedIn.isSome = true ↔ w.hits = cfg.goal) ∧ ∀ s ∈ w.firedIn, s ∉ w.int3 := by
  have hi := reachable_inv h
  have hle := hi.le
  have hgoal : w.armed = false ↔ w.hits = cfg.goal := by
    rw [← Bool.not_eq_true, hi.armed]
    omega
  refine ⟨hle, ?_, hi.ledger, ?_, ?_, fun s hs => (hi.clean s hs).2⟩
  · rw [hi.notes]
    cases harmed : w.armed with
    | true =>
      have hne : w.hits ≠ cfg.goal := fun heq => (by rw [hgoal.mpr heq] at harmed; cases harmed)
      rw [if_pos rfl, if_neg hne]
    | false => rw [if_neg Bool.false_ne_true, if_pos (hgoal.mp harmed)]
  · intro tid t hget hrun
    refine outside hi hget fun hwait => ?_
    rw [hwait] at hrun
    rcases hrun with hrun | hrun | hrun
    · cases hrun
    · cases hrun
    · cases hrun
  · rw [hi.fired, ← hgoal, Bool.not_eq_true']

/-- The first trap of a trigger of one hit. -/
theorem fires_once_first : ∃ w : World, w.Reachable ⟨7, 100, 1⟩ ∧ w.notes.map (·.2) = [1] ∧
    w.int3 = ∅ := by
  have hreach := Relation.ReflTransGen.refl (r := World.Moves ⟨7, 100, 1⟩)
    (a := World.start ⟨7, 100, 1⟩ 100)
    |>.tail ⟨.run 7 0, rfl⟩ |>.tail ⟨.wait 7, rfl⟩
  exact ⟨_, ⟨100, hreach⟩, (fires_once ⟨100, hreach⟩).2.1, rfl⟩

/-! ## When it has fired -/

/-- Nothing is counted or told any more, and each space has what it had. -/
structure Keeps (w w' : World) : Prop where
  armed : w'.armed = w.armed
  hits : w'.hits = w.hits
  notes : w'.notes = w.notes
  spaces : w.spaces ≤ w'.spaces
  int3 : ∀ s < w.spaces, s ∈ w'.int3 ↔ s ∈ w.int3

theorem Keeps.of_eq (harmed : w'.armed = w.armed) (hhits : w'.hits = w.hits)
    (hnotes : w'.notes = w.notes) (hspaces : w.spaces ≤ w'.spaces) (hint3 : w'.int3 = w.int3) :
    Keeps w w' :=
  ⟨harmed, hhits, hnotes, hspaces, fun s _ => by rw [hint3]⟩

theorem Keeps.trans {w'' : World} (h : Keeps w w') (h' : Keeps w' w'') : Keeps w w'' where
  armed := h'.armed.trans h.armed
  hits := h'.hits.trans h.hits
  notes := h'.notes.trans h.notes
  spaces := Nat.le_trans h.spaces h'.spaces
  int3 := fun s hs => (h'.int3 s (Nat.lt_of_lt_of_le hs h.spaces)).trans (h.int3 s hs)

/-- A trap that is found then is rewound. -/
theorem keeps_wait (hfired : w.armed = false) (status : Status) :
    Keeps w (w.stepWait cfg tid t status) := by
  rcases answer_cases cfg w.hits w.armed tid status t.rip with
    ⟨-, ⟨code, hans⟩ | hans⟩ | ⟨-, sig, hans⟩ | ⟨-, -, hans⟩
  · rw [World.stepWait, hans]
    exact .of_eq rfl rfl rfl (Nat.le_refl _) rfl
  · rw [World.stepWait, hans]
    exact .of_eq rfl rfl rfl (Nat.le_refl _) rfl
  · rw [World.stepWait, hans]
    exact .of_eq rfl rfl rfl (Nat.le_refl _) rfl
  · rw [if_pos hfired] at hans
    rw [World.stepWait, hans]
    exact .of_eq rfl rfl rfl (Nat.le_refl _) rfl

theorem keeps_step (hi : Inv cfg w) (hfired : w.armed = false) (act : Act)
    (h : w.step cfg act = some w') : Keeps w w' := by
  cases act with
  | run tid rip =>
    obtain ⟨t, hget, h⟩ := Option.bind_eq_some_iff.mp h
    obtain ⟨hrun, h⟩ := Option.ite_none_right_eq_some.mp h
    cases h
    unfold World.stepRun
    split
    next => exact .of_eq rfl rfl rfl (Nat.le_refl _) rfl
    next => exact .of_eq rfl rfl rfl (Nat.le_refl _) rfl
  | signal tid sig =>
    obtain ⟨t, hget, h⟩ := Option.bind_eq_some_iff.mp h
    obtain ⟨-, h⟩ := Option.ite_none_right_eq_some.mp h
    cases h
    exact .of_eq rfl rfl rfl (Nat.le_refl _) rfl
  | event tid event =>
    obtain ⟨t, hget, h⟩ := Option.bind_eq_some_iff.mp h
    obtain ⟨-, h⟩ := Option.ite_none_right_eq_some.mp h
    cases h
    exact .of_eq rfl rfl rfl (Nat.le_refl _) rfl
  | clone tid new rip =>
    obtain ⟨t, hget, h⟩ := Option.bind_eq_some_iff.mp h
    obtain ⟨-, h⟩ := Option.ite_none_right_eq_some.mp h
    cases h
    exact .of_eq rfl rfl rfl (Nat.le_refl _) rfl
  | fork tid new rip =>
    obtain ⟨t, hget, h⟩ := Option.bind_eq_some_iff.mp h
    obtain ⟨-, h⟩ := Option.ite_none_right_eq_some.mp h
    cases h
    refine ⟨rfl, rfl, rfl, Nat.le_succ _, fun s hs => ?_⟩
    -- only the space that is new gets an `int3`
    dsimp only
    split
    next => exact Finset.mem_insert.trans (or_iff_right (Nat.ne_of_lt hs))
    next => exact Iff.rfl
  | exec tid rip event =>
    obtain ⟨t, hget, h⟩ := Option.bind_eq_some_iff.mp h
    obtain ⟨-, h⟩ := Option.ite_none_right_eq_some.mp h
    cases h
    exact .of_eq rfl rfl rfl (Nat.le_succ _) rfl
  | die tid status =>
    obtain ⟨t, hget, h⟩ := Option.bind_eq_some_iff.mp h
    cases status with
    | exited code =>
      cases h
      exact .of_eq rfl rfl rfl (Nat.le_refl _) rfl
    | signaled sig =>
      cases h
      exact .of_eq rfl rfl rfl (Nat.le_refl _) rfl
    | stopped sig event => cases h
  | wait tid =>
    obtain ⟨t, hget, h⟩ := Option.bind_eq_some_iff.mp h
    split at h
    next status hsup hrun =>
      cases h
      exact keeps_wait hfired status
    next => cases h
  | ack =>
    rw [World.step] at h
    split at h
    next =>
      split at h
      next =>
        cases h
        split
        next => exact .of_eq rfl rfl rfl (Nat.le_refl _) rfl
        next => exact .of_eq rfl rfl rfl (Nat.le_refl _) rfl
      next =>
        cases h
        exact .of_eq rfl rfl rfl (Nat.le_refl _) rfl
    next => cases h
  | stepped =>
    rw [World.step] at h
    split at h
    next tid hsup =>
      -- a thread is stepped only before the trigger has fired
      have harmed := (hi.stepping tid hsup).1
      rw [hfired] at harmed
      cases harmed
    next => cases h

/-- When the trigger has fired nothing more is counted or told, and no memory is
changed: a space that was copied with the `int3` before goes on having it. -/
theorem fired_keeps (h : w.Reachable cfg) (hfired : w.hits = cfg.goal)
    (hrun : Relation.ReflTransGen (World.Moves cfg) w w') :
    w'.hits = w.hits ∧ w'.notes = w.notes ∧ ∀ s < w.spaces, s ∈ w'.int3 ↔ s ∈ w.int3 := by
  have hi := reachable_inv h
  have harmed : w.armed = false := by
    rw [← Bool.not_eq_true, hi.armed]
    omega
  have hkeep : Inv cfg w' ∧ Keeps w w' := by
    refine reflTransGen_invariant (P := fun v => Inv cfg v ∧ Keeps w v) ?_ hrun
      ⟨hi, .of_eq rfl rfl rfl (Nat.le_refl _) rfl⟩
    rintro a b ⟨act, hstep⟩ ⟨ha, hk⟩
    exact ⟨inv_step ha act hstep, hk.trans (keeps_step ha (hk.armed.trans harmed) act hstep)⟩
  exact ⟨hkeep.2.hits, hkeep.2.notes, hkeep.2.int3⟩

/-- A process that forked before the first hit has the `int3` ever after. -/
theorem fired_keeps_copy : ∃ w : World, w.Reachable ⟨7, 100, 1⟩ ∧
    ∀ w', Relation.ReflTransGen (World.Moves ⟨7, 100, 1⟩) w w' → w'.hits = 1 ∧ 1 ∈ w'.int3 := by
  have hreach := Relation.ReflTransGen.refl (r := World.Moves ⟨7, 100, 1⟩)
    (a := World.start ⟨7, 100, 1⟩ 100)
    |>.tail ⟨.fork 7 8 100, rfl⟩ |>.tail ⟨.run 7 0, rfl⟩ |>.tail ⟨.wait 7, rfl⟩
  refine ⟨_, ⟨100, hreach⟩, fun w' hrun => ?_⟩
  obtain ⟨hhits, -, hspaces⟩ := fired_keeps ⟨100, hreach⟩ rfl hrun
  exact ⟨hhits, (hspaces 1 (by decide)).mpr (by decide)⟩

end TraceMcp.Capture.Trigger
