import TraceMcp.Decode.Finish
import TraceMcp.Service.Merge

/-!
# The merge is a stable sort

`mergeRecords_stable`: when every stream is ordered, the sink of
`merge_records` is handed the records of all streams sorted by time and stream,
less the sideband of all streams but the first, up to the record it fails on.
`mergeCalls` is the merge with the records it hands out, which a sink that
fails does not tell.
-/

namespace TraceMcp.Service

open TraceMcp.Lib TraceMcp.Decode

section Calls

variable {σ : Type} (sink : σ → RawRecord → Result σ)

/-- `merge_records`, with the calls of the sink. -/
def mergeCalls : Nat → KWay BatchedRx Tagged → σ → List RawRecord × Result σ
  | 0, _, s => ([], .ok s)
  | fuel + 1, m, s =>
    match KWay.pop BatchedRx.next mergeKey m with
    | none => ([], .ok s)
    | some ((i, (_, rec)), m) =>
      if sideband rec && i != 0 then mergeCalls fuel m s
      else match sink s rec with
        | .error e => ([rec], .error e)
        | .ok s => (rec :: (mergeCalls fuel m s).1, (mergeCalls fuel m s).2)

/-- The calls of a sink that is handed a list, one record after another. -/
def foldCalls : σ → List RawRecord → List RawRecord × Result σ
  | s, [] => ([], .ok s)
  | s, rec :: recs => match sink s rec with
    | .error e => ([rec], .error e)
    | .ok s => (rec :: (foldCalls s recs).1, (foldCalls s recs).2)

/-- `mergeRecords` with the calls of its sink. -/
def mergeLog (s : σ) (receivers : List (List Batch)) : List RawRecord × Result σ :=
  let receivers := receivers.map BatchedRx.new
  mergeCalls sink (inFlight receivers) (KWay.start BatchedRx.next mergeKey receivers) s

variable {sink}

theorem mergeCalls_eq (fuel : Nat) (m : KWay BatchedRx Tagged) (s : σ) :
    mergeCalls sink fuel m s =
      foldCalls sink s (delivered (KWay.drain BatchedRx.next mergeKey fuel m)) := by
  induction fuel generalizing m s with
  | zero => rfl
  | succ fuel ih =>
    rw [mergeCalls, KWay.drain]
    cases KWay.pop BatchedRx.next mergeKey m with
    | none => rfl
    | some x =>
      obtain ⟨⟨i, time, rec⟩, m'⟩ := x
      by_cases hskip : (sideband rec && i != 0) = true
      · simp only [delivered, hskip, if_true, Bool.not_true, List.filter_cons, ih]
        rfl
      · rw [Bool.not_eq_true] at hskip
        simp only [delivered, hskip, Bool.not_false, List.filter_cons, ih, if_true, List.map_cons,
          foldCalls]
        rfl

theorem foldCalls_result (s : σ) (recs : List RawRecord) :
    (foldCalls sink s recs).2 = recs.foldlM sink s := by
  induction recs generalizing s with
  | nil => rfl
  | cons rec recs ih =>
    rw [foldCalls, List.foldlM_cons]
    cases sink s rec with
    | error e => rfl
    | ok s => exact ih s

theorem foldCalls_prefix (s : σ) (recs : List RawRecord) : (foldCalls sink s recs).1 <+: recs := by
  induction recs generalizing s with
  | nil => exact List.nil_prefix
  | cons rec recs ih =>
    rw [foldCalls]
    cases sink s rec with
    | error e => exact List.prefix_append [rec] recs
    | ok s => exact List.prefix_cons_inj rec |>.mpr (ih s)

theorem foldCalls_ok {s s' : σ} {recs : List RawRecord} (h : recs.foldlM sink s = .ok s') :
    (foldCalls sink s recs).1 = recs := by
  induction recs generalizing s with
  | nil => rfl
  | cons rec recs ih =>
    obtain ⟨s₁, hs, hrest⟩ := bind_ok.mp h
    rw [foldCalls, hs]
    dsimp only
    rw [ih hrest]

/-- The record a sink fails on is the last it is handed. -/
theorem foldCalls_error {s : σ} {recs : List RawRecord} {e : Error}
    (h : recs.foldlM sink s = .error e) :
    ∃ before rec s', (foldCalls sink s recs).1 = before ++ [rec] ∧
      before.foldlM sink s = .ok s' ∧ sink s' rec = .error e := by
  induction recs generalizing s with
  | nil => cases h
  | cons rec recs ih =>
    rw [List.foldlM_cons] at h
    cases hs : sink s rec with
    | error e' =>
      rw [hs] at h
      cases h
      refine ⟨[], rec, s, ?_, rfl, hs⟩
      rw [foldCalls, hs]
      rfl
    | ok s₁ =>
      rw [hs] at h
      obtain ⟨before, last, s', hcalls, hbefore, hlast⟩ := ih h
      refine ⟨rec :: before, last, s', ?_, ?_, hlast⟩
      · rw [foldCalls, hs]
        dsimp only
        rw [hcalls, List.cons_append]
      · rw [List.foldlM_cons, hs]
        exact hbefore

theorem foldlM_of_never_fails (hnever : ∀ s rec, ∃ s', sink s rec = .ok s') (s : σ)
    (recs : List RawRecord) : ∃ s', recs.foldlM sink s = .ok s' := by
  induction recs generalizing s with
  | nil => exact ⟨s, rfl⟩
  | cons rec recs ih =>
    obtain ⟨s₁, hs⟩ := hnever s rec
    rw [List.foldlM_cons, hs]
    exact ih s₁

end Calls

/-- All records, each with its stream. -/
def allTagged (receivers : List (List Batch)) : List (Nat × Tagged) :=
  Merges.labelled (streamOf receivers) receivers.length

/-- The records of all streams sorted by time and stream, less the sideband of
all streams but the first. -/
def mergedSequence (receivers : List (List Batch)) : List RawRecord :=
  delivered ((allTagged receivers).mergeSort fun x y =>
    KeyLe (mergeKey x.2, x.1) (mergeKey y.2, y.1))

theorem delivered_perm {out out' : List (Nat × Tagged)} (h : out.Perm out') :
    (delivered out).Perm (delivered out') :=
  (h.filter _).map _

theorem mergedSequence_eq {receivers : List (List Batch)}
    (hord : ∀ i, (streamOf receivers i).Pairwise fun a b => mergeKey a ≤ mergeKey b) :
    delivered (taken receivers) = mergedSequence receivers := by
  have hrest : ∀ i, receivers.length ≤ i → streamOf receivers i = [] := by
    intro i hi
    rw [streamOf, List.getElem?_eq_none hi]
    rfl
  rw [(taken_merges receivers).eq_mergeSort hrest hord]
  rfl

/-- A merge of ordered streams hands its sink the sorted records, each of those
to be delivered once. A sink that never fails is handed them all; otherwise the
record it fails on is the last. -/
theorem mergeRecords_stable {σ : Type} (sink : σ → RawRecord → Result σ) (s : σ)
    (receivers : List (List Batch))
    (hord : ∀ i, (streamOf receivers i).Pairwise fun a b => mergeKey a ≤ mergeKey b) :
    (mergedSequence receivers).Perm (delivered (allTagged receivers)) ∧
      ∃ calls, mergeLog sink s receivers = (calls, mergeRecords sink s receivers) ∧
        calls <+: mergedSequence receivers ∧
        ((∀ s rec, ∃ s', sink s rec = .ok s') → calls = mergedSequence receivers) ∧
        (∀ s', mergeRecords sink s receivers = .ok s' → calls = mergedSequence receivers) ∧
        ∀ e, mergeRecords sink s receivers = .error e →
          ∃ before rec s', calls = before ++ [rec] ∧ before.foldlM sink s = .ok s' ∧
            sink s' rec = .error e := by
  have hseq := mergedSequence_eq hord
  have hlog : mergeLog sink s receivers = foldCalls sink s (mergedSequence receivers) :=
    hseq ▸ mergeCalls_eq _ _ s
  have hresult : mergeRecords sink s receivers = (mergedSequence receivers).foldlM sink s :=
    hseq ▸ mergeLoop_eq sink _ _ s
  refine ⟨delivered_perm (List.mergeSort_perm _ _), (mergeLog sink s receivers).1, ?_, ?_, ?_, ?_, ?_⟩
  · rw [hlog, hresult, ← foldCalls_result]
  · rw [hlog]
    exact foldCalls_prefix s _
  · intro hnever
    obtain ⟨s', hok⟩ := foldlM_of_never_fails hnever s (mergedSequence receivers)
    rw [hlog]
    exact foldCalls_ok hok
  · intro s' hok
    rw [hlog]
    exact foldCalls_ok (hresult ▸ hok)
  · intro e herror
    rw [hlog]
    exact foldCalls_error (hresult ▸ herror)

/-- Two streams with a tie, and an untimed record. -/
def tiedStreams : List (List Batch) :=
  [[[(none, .lost ⟨none, none, 1⟩)], [], [(some 10, errorAt 1 10), (some 30, errorAt 1 30)]],
    [[(none, .lost ⟨none, none, 1⟩), (some 10, errorAt 2 10)], [(some 20, errorAt 2 20)]]]

theorem mergeRecords_stable_tied :
    mergeLog (fun n (_ : RawRecord) => if n < 3 then .ok (n + 1) else .error (.decodeFailed "full")) 0
        tiedStreams =
      ([.lost ⟨none, none, 1⟩, errorAt 1 10, errorAt 2 10, errorAt 2 20],
        .error (.decodeFailed "full")) ∧
      (mergedSequence tiedStreams).length = 5 := by
  have hord : ∀ i, (streamOf tiedStreams i).Pairwise fun a b => mergeKey a ≤ mergeKey b := by
    intro i
    match i with
    | 0 => decide +kernel
    | 1 => decide +kernel
    | i + 2 => exact .nil
  obtain ⟨hperm, _⟩ := mergeRecords_stable
    (fun n (_ : RawRecord) => if n < 3 then .ok (n + 1) else .error (.decodeFailed "full")) 0
    tiedStreams hord
  exact ⟨by rfl, hperm.length_eq.trans (by decide +kernel)⟩

end TraceMcp.Service
