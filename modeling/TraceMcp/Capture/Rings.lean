import TraceMcp.Capture.Recorder
import TraceMcp.Lib.Circular
import TraceMcp.Lib.PowersOfTwo

/-!
# The rings of the direct recorder

`PtEvent::open` and `PtEvent::take_snapshot` of `src/capture/direct.rs`. The
kernel writes a thread's trace round and round into the event's ring, which is
zeroed at first; when the event is stopped the ring is copied, oldest byte first.
Whether it went round is told from the head the kernel reports, or from the
last bytes of the ring: "the pages start zeroed, so a written tail means the
ring wrapped". `snapshot_tail_iff` says for which streams that is so.
-/

namespace TraceMcp.Capture

open TraceMcp.Lib

/-! ## Opening -/

/-- `std::io::Error::last_os_error`. -/
structure OsError where
  /-- `EACCES` or `EPERM`. -/
  denied : Bool
  text : String

/-- What the kernel answers while an event is opened on a thread: the errors of
the calls that fail, and what the open event shows. -/
structure OpenAnswers where
  perfEventOpen : Option OsError
  /-- The address filter, if there is one, is refused. -/
  setFilter : Option Error
  mapBase : Option OsError
  mapAux : Option OsError
  /-- The thread's `comm`, trimmed. -/
  comm : Option String
  timing : Timing

/-- The size of the ring for a requested one: a power of two of at least two pages. -/
def auxLen (page auxBytes : Nat) : Nat := nextPow2 (max auxBytes (page * 2))

/-- `PtEvent::open`. -/
def openEvent (page : Nat) (ask : UInt32 → UInt32 → OpenAnswers) (pid tid : UInt32)
    (auxBytes : Nat) : Result RingEvent :=
  let sys := ask pid tid
  let len := auxLen page auxBytes
  match sys.perfEventOpen, sys.setFilter, sys.mapBase, sys.mapAux with
  | some err, _, _, _ =>
    let code := if err.denied then .permissionDenied else .ptUnavailable
    .error ((Error.new code s!"perf_event_open(intel_pt, tid {tid}): {err.text}").withNext
      "check /proc/sys/kernel/perf_event_paranoid and RLIMIT_MEMLOCK")
  | none, some err, _, _ => .error err
  | none, none, some err, _ => .error (Error.new .ptUnavailable s!"mmap perf ring: {err.text}")
  | none, none, none, some err =>
    .error ((Error.new .ptUnavailable s!"mmap AUX ring ({len} bytes): {err.text}").withNext
      "lower aux_bytes_per_buffer or raise RLIMIT_MEMLOCK")
  | none, none, none, none =>
    .ok { pid := pid, tid := tid, comm := sys.comm.getD "", snapshot := none,
          timing := sys.timing, auxLen := len, wrapped := false }

/-- What an opened event is: of that thread, recording, with a ring of the size. -/
theorem openEvent_ok {page : Nat} {ask : UInt32 → UInt32 → OpenAnswers} {pid tid : UInt32}
    {auxBytes : Nat} {e : RingEvent} (h : openEvent page ask pid tid auxBytes = .ok e) :
    e.tid = tid ∧ e.snapshot = none ∧ e.auxLen = auxLen page auxBytes := by
  unfold openEvent at h
  dsimp only at h
  split at h
  · cases h
  · cases h
  · cases h
  · cases h
  · cases h
    exact ⟨rfl, rfl, rfl⟩

/-! ## Stopping -/

/-- What the metadata page and the mapped ring show of a stopped event. -/
structure AuxArea where
  head : UInt64
  bytes : List UInt8

/-- A byte among the last 64 is not zero. -/
def tailWritten (ring : List UInt8) : Bool := (ring.drop (ring.length - 64)).any fun b => b != 0

/-- What `take_snapshot` copies, and whether it takes the ring as wrapped. -/
def AuxArea.snapshot (a : AuxArea) : List UInt8 × Bool :=
  let len := a.bytes.length
  let pos := a.head.toNat % len
  let wrapped := decide (len ≤ a.head.toNat) || tailWritten a.bytes
  ((if wrapped then a.bytes.drop pos else []) ++ a.bytes.take pos, wrapped)

/-- What the system answers while a report is handled. -/
structure Answers where
  tgid : UInt32 → Option UInt32
  readProc : UInt32 → Option ProcInfo
  opening : UInt32 → UInt32 → OpenAnswers
  area : RingEvent → AuxArea
  tsc : UInt64

/-- The same as the recorder sees it. -/
def Answers.env (page : Nat) (a : Answers) : ReportEnv where
  tgid := a.tgid
  readProc := a.readProc
  openRing := openEvent page a.opening
  ring e := (a.area e).snapshot
  tsc := a.tsc

/-! ## The end of the stream -/

section Tail

variable {a : AuxArea} {size : Nat} {stream : List UInt8}

/-- A stream reaches the ring's last 64 bytes with something else than padding. -/
def EndWritten (size : Nat) (stream : List UInt8) : Prop := ∃ b ∈ stream.drop (size - 64), b ≠ 0

/-- The ring shows whether the stream went round: it did and the head says so,
or the last bytes of the ring are not all zero; or it did not, and has written
nothing but zeros there. -/
def ShowsWrap (a : AuxArea) (size : Nat) (stream : List UInt8) : Prop :=
  if size ≤ stream.length then size ≤ a.head.toNat ∨ tailWritten a.bytes
  else ¬ EndWritten size stream

theorem tailWritten_of_lt (h : stream.length < size) :
    tailWritten (circular size 0 stream) = true ↔ EndWritten size stream := by
  unfold tailWritten EndWritten
  rw [length_circular, circular_of_lt 0 h, List.drop_append, List.any_append, Bool.or_eq_true,
    List.any_eq_true]
  -- what was never written is zero
  have hfill : ((List.replicate (size - stream.length) (0 : UInt8)).drop
      (size - 64 - stream.length)).any (fun b => b != 0) = false := by
    rw [List.drop_replicate, List.any_eq_false]
    intro b hb
    rw [(List.mem_replicate.mp hb).2]
    decide
  rw [hfill, or_iff_left Bool.false_ne_true]
  exact exists_congr fun b => and_congr_right fun _ => bne_iff_ne

/-- The head says where the next byte goes, in full or modulo the ring. -/
def HeadAt (head : UInt64) (size n : Nat) : Prop := head.toNat = n ∨ head.toNat = n % size

theorem HeadAt.mod_eq {head : UInt64} {n : Nat} (h : HeadAt head size n) :
    head.toNat % size = n % size := by
  rcases h with h | h
  · rw [h]
  · rw [h, Nat.mod_mod]

theorem HeadAt.le {head : UInt64} {n : Nat} (h : HeadAt head size n) : head.toNat ≤ n := by
  rcases h with h | h
  · exact h.le
  · exact h.le.trans (Nat.mod_le _ _)

/-- The ring is taken as wrapped when it did go round exactly if it shows so. -/
theorem wrapped_iff (hring : a.bytes = circular size 0 stream)
    (hhead : HeadAt a.head size stream.length) :
    (a.snapshot.2 = true ↔ size ≤ stream.length) ↔ ShowsWrap a size stream := by
  have hlen : a.bytes.length = size := by rw [hring, length_circular]
  have hflag : a.snapshot.2 = true ↔ size ≤ a.head.toNat ∨ tailWritten a.bytes = true := by
    unfold AuxArea.snapshot
    dsimp only
    rw [hlen, Bool.or_eq_true, decide_eq_true_iff]
  rw [hflag, ShowsWrap]
  split
  next hfull => exact iff_true_right hfull
  next hfull =>
    have hshort : ¬ size ≤ a.head.toNat := fun h => hfull (h.trans hhead.le)
    rw [iff_false_right hfull, or_iff_right hshort, hring, tailWritten_of_lt (not_le.mp hfull)]

/-- A ring rightly taken as wrapped or not gives the end of the stream. -/
theorem snapshot_bytes (hsize : 0 < size) (hring : a.bytes = circular size 0 stream)
    (hhead : HeadAt a.head size stream.length)
    (hflag : a.snapshot.2 = true ↔ size ≤ stream.length) :
    a.snapshot.1 = stream.drop (stream.length - size) := by
  have hlen : a.bytes.length = size := by rw [hring, length_circular]
  have hbytes : a.snapshot.1 =
      (if a.snapshot.2 = true then a.bytes.drop (stream.length % size) else []) ++
        a.bytes.take (stream.length % size) := by
    unfold AuxArea.snapshot
    dsimp only
    rw [hlen, hhead.mod_eq]
  rw [hbytes]
  by_cases hfull : size ≤ stream.length
  · have hrotate := rotate_circular_of_le hsize 0 hfull
    rw [List.rotate_eq_drop_append_take_mod, length_circular] at hrotate
    rw [if_pos (hflag.mpr hfull), hring, hrotate]
  · have hlt := not_le.mp hfull
    rw [if_neg (fun h => hfull (hflag.mp h)), hring, circular_of_lt 0 hlt, Nat.mod_eq_of_lt hlt,
      Nat.sub_eq_zero_of_le hlt.le, List.nil_append, List.take_left, List.drop_zero]

end Tail

/-- The snapshot of a recording event is the end of its stream, and wrapped if
that went round, exactly when the ring shows whether it did. -/
theorem snapshot_tail_iff (page : Nat) (sys : Answers) (e : RingEvent) (stream : List UInt8)
    (hopen : e.snapshot = none) (hsize : 64 ≤ e.auxLen)
    (hring : (sys.area e).bytes = circular e.auxLen 0 stream)
    (hhead : HeadAt (sys.area e).head e.auxLen stream.length) :
    (((sys.env page).takeSnapshot e).snapshot = some (stream.drop (stream.length - e.auxLen)) ∧
      (((sys.env page).takeSnapshot e).wrapped = true ↔ e.auxLen ≤ stream.length)) ↔
    ShowsWrap (sys.area e) e.auxLen stream := by
  have htaken : (sys.env page).takeSnapshot e =
      { e with snapshot := some (sys.area e).snapshot.1, wrapped := (sys.area e).snapshot.2 } := by
    rw [ReportEnv.takeSnapshot, hopen]
    rfl
  rw [htaken, ← wrapped_iff hring hhead]
  constructor
  · exact fun h => h.2
  · intro hflag
    exact ⟨congrArg some (snapshot_bytes (by omega) hring hhead hflag), hflag⟩

/-! ### Two pages, and a ring of padding -/

/-- A recording event with a ring of 128 bytes. -/
def smallRing : RingEvent where
  pid := 7
  tid := 7
  comm := ""
  snapshot := none
  timing := ⟨0, 1, 0, true⟩
  auxLen := 128
  wrapped := false

/-- The same with the smallest ring that `open` maps. -/
def twoPages : RingEvent := { smallRing with auxLen := 8192 }

example : auxLen 4096 1 = twoPages.auxLen := by decide +kernel

/-- A system whose rings hold this stream, and report this head. -/
def streamedRing (size : Nat) (stream : List UInt8) (head : UInt64) : Answers where
  tgid _ := none
  readProc _ := none
  opening _ _ := ⟨none, none, none, none, none, ⟨0, 1, 0, true⟩⟩
  area _ := ⟨head, circular size 0 stream⟩
  tsc := 0

theorem streamedRing_bytes (size : Nat) (stream : List UInt8) (head : UInt64) (e : RingEvent) :
    ((streamedRing size stream head).area e).bytes = circular size 0 stream := by
  rw [streamedRing]

/-- A stream of counted bytes, more than two pages of them. -/
def counted : List UInt8 := (List.range 10000).map UInt8.ofNat

theorem length_counted : counted.length = 10000 := by
  rw [counted, List.length_map, List.length_range]

/-- The ring has gone round, and the head says so. -/
theorem snapshot_tail_iff_counted :
    ((((streamedRing 8192 counted 10000).env 4096).takeSnapshot twoPages).snapshot =
        some (counted.drop (counted.length - twoPages.auxLen)) ∧
      ((((streamedRing 8192 counted 10000).env 4096).takeSnapshot twoPages).wrapped = true ↔
        twoPages.auxLen ≤ counted.length)) := by
  have hhead : HeadAt 10000 twoPages.auxLen counted.length := .inl length_counted.symm
  refine (snapshot_tail_iff 4096 (streamedRing 8192 counted 10000) twoPages counted rfl (by decide)
    (streamedRing_bytes ..) hhead).mpr ?_
  have hround : twoPages.auxLen ≤ counted.length := by
    rw [length_counted]
    decide
  rw [ShowsWrap, if_pos hround]
  exact .inl (by decide)

/-- As much padding as a small ring holds. -/
def padding : List UInt8 := List.replicate 128 0

theorem length_padding : padding.length = smallRing.auxLen := List.length_replicate

/-- With the head back at the start nothing is copied, and the ring is not
taken as wrapped. -/
theorem snapshot_padding :
    ¬ ∀ (page : Nat) (sys : Answers) (e : RingEvent) (stream : List UInt8),
      e.snapshot = none → 64 ≤ e.auxLen →
      (sys.area e).bytes = circular e.auxLen 0 stream →
      HeadAt (sys.area e).head e.auxLen stream.length →
      ((sys.env page).takeSnapshot e).snapshot = some (stream.drop (stream.length - e.auxLen)) ∧
        (((sys.env page).takeSnapshot e).wrapped = true ↔ e.auxLen ≤ stream.length) := by
  intro h
  have hhead : HeadAt 0 smallRing.auxLen padding.length := by
    refine .inr ?_
    rw [length_padding, Nat.mod_self]
    rfl
  have hwrapped := (h 4096 (streamedRing 128 padding 0) smallRing padding rfl (by decide)
    (streamedRing_bytes ..) hhead).2
  have hflag : (((streamedRing 128 padding 0).env 4096).takeSnapshot smallRing).wrapped = false := by
    decide +kernel
  rw [hwrapped.mpr length_padding.ge] at hflag
  cases hflag

end TraceMcp.Capture
