import TraceMcp.Decode.Native
import TraceMcp.Lib.KWayMerge
import TraceMcp.Lib.Runs

/-!
# Merging record streams

`merge_records` of `src/service.rs`: every decoder delivers batches of
time-tagged records over a channel, and the records are handed to one sink in
time order. It is the k-way merge of the library on `BatchedRx` sources;
`mergeRecords_merges` says so, with the sink's fold and the sideband filter
taken out.
-/

namespace TraceMcp.Service

open TraceMcp.Lib TraceMcp.Decode

/-- `BatchedRx`: the batches still in the channel and the one being handed out. -/
structure BatchedRx where
  rx : List Batch
  cur : Batch

namespace BatchedRx

def new (rx : List Batch) : BatchedRx := ⟨rx, []⟩

/-- The next record, from the first batch that has one. -/
def pull : List Batch → Batch → Option (Tagged × BatchedRx)
  | rx, t :: cur => some (t, ⟨rx, cur⟩)
  | batch :: rx, [] => pull rx batch
  | [], [] => none

def next (r : BatchedRx) : Option (Tagged × BatchedRx) := pull r.rx r.cur

/-- The records still to come. -/
def pending (r : BatchedRx) : List Tagged := r.cur ++ r.rx.flatten

theorem hands : KWay.Hands next pending := by
  rintro ⟨rx, cur⟩
  induction rx generalizing cur with
  | nil => cases cur <;> rfl
  | cons batch rx ih =>
    cases cur with
    | nil => exact ih batch
    | cons t cur => rfl

end BatchedRx

/-- The merge key: records without a time come first. -/
def mergeKey (x : Tagged) : Nat := x.1.getD 0

/-- The records every `perf script` child prints. -/
def sideband : RawRecord → Bool
  | .mmap _ | .task _ | .switch .. | .lost _ => true
  | .sample _ | .decoderError _ => false

section Sink

variable {σ : Type} (sink : σ → RawRecord → Result σ)

/-- The loop of `merge_records`: sideband is taken only from stream 0, and the
first error of the sink ends it. -/
def mergeLoop : Nat → KWay BatchedRx Tagged → σ → Result σ
  | 0, _, s => .ok s
  | fuel + 1, m, s =>
    match KWay.pop BatchedRx.next mergeKey m with
    | none => .ok s
    | some ((i, (_, rec)), m) =>
      if sideband rec && i != 0 then mergeLoop fuel m s
      else do
        let s ← sink s rec
        mergeLoop fuel m s

/-- The number of records in the channels. -/
def inFlight (receivers : List BatchedRx) : Nat :=
  (receivers.map fun r => r.pending.length).sum

/-- `merge_records`. -/
def mergeRecords (s : σ) (receivers : List (List Batch)) : Result σ :=
  let receivers := receivers.map BatchedRx.new
  mergeLoop sink (inFlight receivers) (KWay.start BatchedRx.next mergeKey receivers) s

end Sink

/-- What is left of a merge without the sideband of the other streams. -/
def delivered (out : List (Nat × Tagged)) : List RawRecord :=
  (out.filter fun x => !(sideband x.2.2 && x.1 != 0)).map fun x => x.2.2

/-- The records of stream `i`, batch after batch. -/
def streamOf (receivers : List (List Batch)) (i : Nat) : List Tagged :=
  (receivers[i]?.map List.flatten).getD []

theorem mergeLoop_eq {σ : Type} (sink : σ → RawRecord → Result σ) (fuel : Nat)
    (m : KWay BatchedRx Tagged) (s : σ) : mergeLoop sink fuel m s =
      (delivered (KWay.drain BatchedRx.next mergeKey fuel m)).foldlM sink s := by
  induction fuel generalizing m s with
  | zero => rfl
  | succ fuel ih =>
    rw [mergeLoop, KWay.drain]
    cases KWay.pop BatchedRx.next mergeKey m with
    | none => rfl
    | some x =>
      obtain ⟨⟨i, time, rec⟩, m'⟩ := x
      by_cases hskip : (sideband rec && i != 0) = true
      · simp only [delivered, hskip, if_true, Bool.not_true, List.filter_cons, ih]
        rfl
      · rw [Bool.not_eq_true] at hskip
        simp only [delivered, hskip, Bool.not_false, List.filter_cons, ih, if_true,
          List.map_cons, List.foldlM_cons]
        rfl

/-- The records as the merge takes them from the streams. -/
def taken (receivers : List (List Batch)) : List (Nat × Tagged) :=
  KWay.drain BatchedRx.next mergeKey (inFlight (receivers.map BatchedRx.new))
    (KWay.start BatchedRx.next mergeKey (receivers.map BatchedRx.new))

theorem taken_merges (receivers : List (List Batch)) :
    Merges mergeKey (streamOf receivers) (taken receivers) := by
  have hmerges := KWay.start_merges mergeKey BatchedRx.hands
    (receivers.map BatchedRx.new)
  have hstreams : (fun i => ((receivers.map BatchedRx.new)[i]?.map BatchedRx.pending).getD []) =
      streamOf receivers := by
    funext i
    rw [List.getElem?_map, Option.map_map]
    rfl
  rwa [hstreams] at hmerges

/-- A merge hands the sink, one by one, a merge of the streams less the
sideband of all but the first. -/
theorem mergeRecords_merges (receivers : List (List Batch)) :
    ∃ out, Merges mergeKey (streamOf receivers) out ∧
      ∀ {σ : Type} (sink : σ → RawRecord → Result σ) (s : σ),
        mergeRecords sink s receivers = (delivered out).foldlM sink s :=
  ⟨taken receivers, taken_merges receivers, fun sink s => mergeLoop_eq sink _ _ s⟩

/-- What the sink is handed, as a list. -/
def handed (receivers : List (List Batch)) : Result (List RawRecord) :=
  mergeRecords (fun recs rec => .ok (recs ++ [rec])) [] receivers

theorem foldlM_collect (xs recs : List RawRecord) :
    xs.foldlM (fun recs rec => (.ok (recs ++ [rec]) : Result (List RawRecord))) recs =
      .ok (recs ++ xs) := by
  induction xs generalizing recs with
  | nil =>
    rw [List.append_nil]
    rfl
  | cons x xs ih =>
    rw [List.foldlM_cons]
    show xs.foldlM _ (recs ++ [x]) = _
    rw [ih, List.append_assoc]
    rfl

/-- Any sink folds over what a merge hands out. -/
theorem handed_merges (receivers : List (List Batch)) :
    ∃ out, Merges mergeKey (streamOf receivers) out ∧ handed receivers = .ok (delivered out) ∧
      ∀ {σ : Type} (sink : σ → RawRecord → Result σ) (s : σ),
        mergeRecords sink s receivers = (delivered out).foldlM sink s := by
  obtain ⟨out, hout, hsink⟩ := mergeRecords_merges receivers
  refine ⟨out, hout, ?_, hsink⟩
  rw [handed, hsink, foldlM_collect, List.nil_append]

end TraceMcp.Service
