import TraceMcp.Decode.Accounts

/-!
# Losses

A loss record becomes one `ptLoss` gap and one count, and nothing else makes
either: cuts and resumptions have kinds of their own. So the gaps and the
counter of a finished analysis are the number of losses pushed (`Lossy`),
whatever the process filter drops, and any analysis that lost nothing notes
nothing.
-/

namespace TraceMcp.Decode

open TraceMcp.Lib Ledger Reconstructor

/-- Whether a record reports lost trace data. -/
def isLoss : RawRecord → Bool
  | .lost _ => true
  | _ => false

/-- The number of gaps that stand for lost trace data. -/
def ptLosses (gaps : List GapRecord) : Nat := gaps.countP fun g => g.kind = .ptLoss

theorem ptLosses_append (a b : List GapRecord) : ptLosses (a ++ b) = ptLosses a + ptLosses b :=
  List.countP_append

namespace Ledger

/-- `L'` has `n` more losses than `L`, each with its gap. -/
structure Booked (n : Nat) (L L' : Ledger) : Prop where
  losses : L'.losses = L.losses + n
  gaps : ptLosses L'.gaps = ptLosses L.gaps + n

variable {L L' L'' : Ledger} {k : Key} {l : Lane} {now : Option Nat} {m n : Nat}

theorem Booked.refl (L : Ledger) : Booked 0 L L := ⟨rfl, rfl⟩

theorem Booked.trans (h : Booked m L L') (h' : Booked n L' L'') : Booked (m + n) L L'' := by
  refine ⟨?_, ?_⟩
  · rw [h'.losses, h.losses, Nat.add_assoc]
  · rw [h'.gaps, h.gaps, Nat.add_assoc]

/-- A gap of another kind books nothing. -/
theorem addGap_booked (hbooked : Booked 0 L L') {kind : GapKind} (hkind : kind ≠ .ptLoss)
    (t : ThreadId) (a b : Option Nat) (x : Bool) (reason : String) :
    Booked 0 L (L'.addGap t kind a b x reason) := by
  refine ⟨hbooked.losses, ?_⟩
  show ptLosses (L'.gaps ++ [_]) = _
  rw [ptLosses_append, hbooked.gaps]
  have hnone : ptLosses [⟨L'.nextGap, t, kind, absTime a, absTime b, x, reason⟩] = 0 :=
    List.countP_eq_zero.mpr fun g hg => by
      rw [List.mem_singleton.mp hg]
      simpa using hkind
  rw [hnone]

theorem cut_booked (L : Ledger) (k : Key) (l : Lane) (p : Option PendingEnd) {kind : GapKind}
    (hkind : kind ≠ .ptLoss) (a b : Option Nat) (x : Bool) (reason : String) :
    Booked 0 L (L.cut k l p kind a b x reason) := by
  unfold cut
  refine addGap_booked ?_ hkind ..
  exact ⟨rfl, rfl⟩

/-- No move books a loss. -/
theorem Move.booked (h : Move k now L L') : Booked 0 L L' := by
  cases h with
  | enter | leave | tail | orphan | rename | arm => exact ⟨rfl, rfl⟩
  | divert reason => exact cut_booked _ _ _ _ (by decide) ..
  | lose p reason => exact cut_booked _ _ _ _ (by decide) ..
  | hole p stop known reason => exact cut_booked _ _ _ _ (by decide) ..
  | @resume l p =>
    have hlane : Booked 0 L (L.setLane k { l with pending := none, gaps := l.gaps + 1 }) :=
      ⟨rfl, rfl⟩
    exact addGap_booked hlane (show GapKind.traceBoundary ≠ .ptLoss by decide) ..
  | @resumeIn l p o =>
    have hlane : Booked 0 L (L.setLane k { l with
        stack := [o], pending := none, gaps := l.gaps + 1 }) := ⟨rfl, rfl⟩
    have hgap := addGap_booked hlane (show GapKind.traceBoundary ≠ .ptLoss by decide) l.id p.abs
      now (p.abs.isSome && now.isSome) p.reason
    exact ⟨hgap.losses, hgap.gaps⟩

theorem Moves.booked (h : Moves k now L L') : Booked 0 L L' :=
  reflTransGen_invariant (P := fun M => Booked 0 L M) (fun _ _ hm hP => hP.trans hm.booked) h
    (.refl L)

theorem ensure_booked (L : Ledger) (k : Key) : Booked 0 L (L.ensure k) := by
  unfold ensure
  split
  next => exact .refl L
  next => exact ⟨rfl, rfl⟩

theorem errorGapKind_ne_ptLoss (code : Option Nat) : errorGapKind code ≠ .ptLoss := by
  unfold errorGapKind
  split <;> nofun

/-- A record books one loss if it reports one, and none otherwise. -/
theorem Action.booked {rec : RawRecord} (h : Action rec L L') :
    Booked (isLoss rec).toNat L L' := by
  cases h with
  | @sample _ _ s l₀ l h₀ hl hmoves =>
    have hcheck : Booked 0 L ((L.ensure (s.pid, s.tid)).checkRegression (s.pid, s.tid) l₀
        s.timeNs) := by
      unfold checkRegression
      split
      next => exact (ensure_booked L _).trans (cut_booked _ _ _ _ (by decide) ..)
      next => exact ensure_booked L _
    have hmoved := hmoves.booked
    exact hcheck.trans ⟨hmoved.losses, hmoved.gaps⟩
  | @error _ e pid tid l hpid htid hl =>
    exact (ensure_booked L _).trans (cut_booked _ _ _ _ (errorGapKind_ne_ptLoss e.code) ..)
  | @strayError _ e hnone =>
    exact addGap_booked (.refl L) (errorGapKind_ne_ptLoss e.code) ..
  | lost =>
    refine ⟨rfl, ?_⟩
    show ptLosses (L.gaps ++ [_]) = _
    rw [ptLosses_append]
    rfl
  | exit => exact ⟨rfl, rfl⟩
  | @silent _ rec hsilent =>
    cases rec with
    | lost => cases hsilent
    | sample | mmap | task | switch | decoderError => exact .refl L

end Ledger

/-- The process filter never drops a loss. -/
theorem drops_loss {r : Reconstructor} {rec : RawRecord} (h : r.drops rec = true) :
    isLoss rec = false := by
  cases rec with
  | lost e =>
    unfold drops at h
    cases hf : r.pidFilter with
    | none =>
      rw [hf] at h
      cases h
    | some f =>
      rw [hf] at h
      cases h
  | sample | mmap | task | switch | decoderError => rfl

/-- A stream books exactly its losses. -/
theorem pushAll_booked {r₀ r : Reconstructor} {recs : List RawRecord}
    (h : r₀.pushAll recs = .ok r) : Booked (recs.countP isLoss) (ledger r₀) (ledger r) := by
  induction recs generalizing r₀ with
  | nil =>
    cases h
    exact .refl _
  | cons rec recs ih =>
    obtain ⟨r₁, hpush, hrest⟩ := foldlM_cons_ok.mp h
    have hone : Booked (isLoss rec).toNat (ledger r₀) (ledger r₁) := by
      have hact := push_ledger hpush
      split at hact
      next hdrop =>
        rw [drops_loss hdrop, hact]
        exact .refl _
      next => exact hact.booked
    have hcount : (rec :: recs).countP isLoss = (isLoss rec).toNat + recs.countP isLoss := by
      rw [List.countP_cons, Nat.add_comm]
      cases isLoss rec <;> rfl
    rw [hcount]
    exact hone.trans (ih hrest)

/-! ## Through `finish` -/

/-- The analysis notes exactly `n` lost records. -/
def NotesLosses (ir : AnalysisIr) (n : Nat) : Prop :=
  ∀ m, .lostRecords m ∈ ir.quality.notes ↔ 0 < m ∧ m = n

theorem mem_notes_lostRecords (r : Reconstructor) (origin m : Nat) :
    .lostRecords m ∈ r.notes origin ↔ 0 < m ∧ m = r.lostRecords := by
  have htrigger : Note.lostRecords m ∉ r.triggerNote origin := by
    unfold triggerNote
    split
    next => exact List.not_mem_nil
    next => split <;> simp
  unfold notes
  cases r.minTimeStep <;> cases r.inline <;> simp [htrigger] <;> omega

/-- What a finished analysis shows of the losses pushed to it. -/
structure Lossy (n : Nat) (ir : AnalysisIr) : Prop where
  gaps : ptLosses ir.gaps = n
  noted : NotesLosses ir n

/-- A finished analysis shows one gap and counts one record for every loss
that was pushed. -/
theorem finish_lossy {r₀ r : Reconstructor} {recs : List RawRecord} {ir : AnalysisIr}
    (hbuilt : Built r₀) (h : r₀.pushAll recs = .ok r) (hfin : r.finish = .ok ir) :
    Lossy (recs.countP isLoss) ir := by
  have hF : Forest (ledger r.closeAll) :=
    closeAll_entries (fun _ _ (he : Entry (fun _ => True) _ _) hF => he.forest hF)
      (pushAll_forest hbuilt h)
  have hbooked : Booked (recs.countP isLoss) (ledger r₀) (ledger r.closeAll) :=
    closeAll_invariant (fun L k l _ hL => ⟨hL.losses, hL.gaps⟩) (pushAll_booked h)
  rw [hbuilt.ledger] at hbooked
  have hfinished := finish_finished (fun k hk => (hF.live k).mp hk) hfin
  refine ⟨?_, ?_⟩
  · have hkinds : (ledger r.closeAll).gaps.map GapRecord.kind = ir.gaps.map GapRecord.kind :=
      forall₂_map_eq hfinished.gaps fun g g' hg => hg.kind_eq.symm
    have hcount := congrArg (List.countP fun kind => decide (kind = .ptLoss)) hkinds
    rw [List.countP_map, List.countP_map] at hcount
    have hgaps : ptLosses (ledger r.closeAll).gaps = 0 + recs.countP isLoss := hbooked.gaps
    rw [Nat.zero_add] at hgaps
    exact hcount.symm.trans hgaps
  · have hcount : r.closeAll.lostRecords = 0 + recs.countP isLoss := hbooked.losses
    rw [Nat.zero_add] at hcount
    have hnotes : ∃ origin, ir.quality.notes = r.closeAll.notes origin := by
      unfold finish at hfin
      obtain ⟨origin, -, hfin⟩ := bind_ok.mp hfin
      dsimp only at hfin
      generalize r.closeAll = c at hfin ⊢
      obtain ⟨events, -, hfin⟩ := bind_ok.mp hfin
      obtain ⟨spans, -, hfin⟩ := bind_ok.mp hfin
      obtain ⟨spilled, -, hfin⟩ := bind_ok.mp hfin
      obtain ⟨gaps, -, hfin⟩ := bind_ok.mp hfin
      cases hfin
      exact ⟨origin, rfl⟩
    obtain ⟨origin, hnotes⟩ := hnotes
    intro m
    rw [hnotes, mem_notes_lostRecords, hcount]

end TraceMcp.Decode
