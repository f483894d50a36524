import TraceMcp.Decode.Origin
import TraceMcp.Decode.Identity

/-!
# Coverage segments

`ThreadLifetime` lists when a thread was observed, as segments cut at ring
holes. They are ordered and disjoint, keep out of the holes and add up to no
more than the span of the thread's samples, as long as each sample that
resumes across a hole is dated after the trace end before it, and that trace
end is not before the segment it ends. `crossRingHole` checks neither, so
times that go backwards there break the order: `coverage_regressed`.
-/

namespace TraceMcp.Decode

open TraceMcp.Lib Ledger Reconstructor

/-! ## Segments, newest first -/

/-- Segments that start before they end, each later than those behind it. -/
structure Ordered (segments : List (Nat × Nat)) : Prop where
  proper : ∀ seg ∈ segments, seg.1 ≤ seg.2
  later : segments.Pairwise fun newer older => older.2 < newer.1

/-- The newest segment begins after `a`, and no older one goes on past it. -/
def Resumed (a : Nat) (segments : List (Nat × Nat)) : Prop :=
  ∃ newest older, segments = newest :: older ∧ a < newest.1 ∧
    ∀ seg ∈ older, seg.2 ≤ a ∨ a < seg.1

/-- What holds of the coverage of a thread, `T` being its sample times. -/
structure SoundCover (T : ThreadId → Nat → Prop) (holes : List Hole) (c : Cover) : Prop where
  ordered : Ordered c.segments
  resumed : ∀ h ∈ holes, h.thread = c.id → ∀ a b, h.start = some a → h.stop = some b →
    Resumed a c.segments
  bounded : ∀ seg ∈ c.segments, (∃ x, T c.id x ∧ x ≤ seg.1) ∧ ∃ y, T c.id y ∧ seg.2 ≤ y

variable {T T' : ThreadId → Nat → Prop} {holes : List Hole} {c : Cover}

theorem SoundCover.mono (h : SoundCover T holes c) (hT : ∀ x, T c.id x → T' c.id x) : SoundCover T' holes c := by
  refine ⟨h.ordered, h.resumed, ?_⟩
  intro seg hseg
  obtain ⟨⟨x, hx, hlow⟩, y, hy, hhigh⟩ := h.bounded seg hseg
  exact ⟨⟨x, hT x hx, hlow⟩, y, hT y hy, hhigh⟩

/-- A hole of another thread. -/
theorem SoundCover.addHole (h : SoundCover T holes c) {g : Hole} (hg : g.thread ≠ c.id) :
    SoundCover T (holes ++ [g]) c := by
  refine ⟨h.ordered, ?_, h.bounded⟩
  intro g' hg' hthread
  rcases List.mem_append.mp hg' with hg' | hg'
  · exact h.resumed g' hg' hthread
  · rw [List.mem_singleton.mp hg'] at hthread
    exact absurd hthread hg

/-- A hole with an end missing asks for nothing. -/
theorem SoundCover.addOpenHole (h : SoundCover T holes c) {g : Hole} (hg : g.stop = none) :
    SoundCover T (holes ++ [g]) c := by
  refine ⟨h.ordered, ?_, h.bounded⟩
  intro g' hg' hthread a b ha hb
  rcases List.mem_append.mp hg' with hg' | hg'
  · exact h.resumed g' hg' hthread a b ha hb
  · rw [List.mem_singleton.mp hg', hg] at hb
    cases hb

theorem sound_new (id : ThreadId) (hnew : ∀ h ∈ holes, h.thread ≠ id) : SoundCover T holes ⟨id, []⟩ := by
  refine ⟨⟨fun seg hseg => absurd hseg List.not_mem_nil, .nil⟩, ?_,
    fun seg hseg => absurd hseg List.not_mem_nil⟩
  intro h hh hthread
  exact absurd hthread (hnew h hh)

/-- A sample extends the newest segment, whatever its time. -/
theorem SoundCover.extend (h : SoundCover T holes c) {now : Option Nat} (hT : ∀ t, now = some t → T c.id t) :
    SoundCover T holes (c.extend now) := by
  cases now with
  | none => exact h
  | some t =>
    have ht := hT t rfl
    cases hsegs : c.segments with
    | nil =>
      have heq : (c.extend (some t)).segments = [(t, t)] := by simp only [Cover.extend, hsegs]
      refine ⟨?_, ?_, ?_⟩
      · rw [heq]
        exact ⟨List.forall_mem_singleton.mpr (Nat.le_refl t), List.pairwise_singleton ..⟩
      · -- A hole would have found a segment.
        intro g hg hthread a b ha hb
        obtain ⟨newest, older, hlist, -⟩ := h.resumed g hg hthread a b ha hb
        rw [hsegs] at hlist
        cases hlist
      · rw [heq]
        exact List.forall_mem_singleton.mpr ⟨⟨t, ht, Nat.le_refl t⟩, t, ht, Nat.le_refl t⟩
    | cons seg rest =>
      have heq : (c.extend (some t)).segments = (seg.1, max seg.2 t) :: rest := by
        simp only [Cover.extend, hsegs]
      have hproper := List.forall_mem_cons.mp (hsegs ▸ h.ordered.proper)
      have hlater := List.pairwise_cons.mp (hsegs ▸ h.ordered.later)
      have hbounded := List.forall_mem_cons.mp (hsegs ▸ h.bounded)
      refine ⟨?_, ?_, ?_⟩
      · rw [heq]
        refine ⟨List.forall_mem_cons.mpr ⟨?_, hproper.2⟩, List.pairwise_cons.mpr hlater⟩
        exact Nat.le_trans hproper.1 (Nat.le_max_left ..)
      · intro g hg hthread a b ha hb
        obtain ⟨newest, older, hlist, hnewest, holder⟩ := h.resumed g hg hthread a b ha hb
        rw [hsegs] at hlist
        obtain ⟨rfl, rfl⟩ := List.cons.inj hlist
        exact ⟨_, rest, heq, hnewest, holder⟩
      · rw [heq]
        refine List.forall_mem_cons.mpr ⟨⟨hbounded.1.1, ?_⟩, hbounded.2⟩
        obtain ⟨y, hy, hhigh⟩ := hbounded.1.2
        -- The later of the two ends is the sample's or the one before.
        rcases Nat.le_total seg.2 t with hle | hle
        · exact ⟨t, ht, by rw [Nat.max_eq_right hle]⟩
        · exact ⟨y, hy, by rw [Nat.max_eq_left hle]; exact hhigh⟩

/-- A cut at a trace end inside the newest segment, by a later sample. -/
theorem SoundCover.cut (h : SoundCover T holes c) {left t : Nat} {seg : Nat × Nat} {rest : List (Nat × Nat)}
    (hsegs : c.segments = seg :: rest) (hstart : seg.1 ≤ left) (hlt : left < t) (ht : T c.id t)
    (stop : Option Nat) :
    SoundCover T (holes ++ [⟨c.id, some left, stop⟩]) (c.cut (some left) (some t)) := by
  have heq : (c.cut (some left) (some t)).segments = (t, t) :: (seg.1, left) :: rest := by
    simp only [Cover.cut, hsegs]
  have hproper := List.forall_mem_cons.mp (hsegs ▸ h.ordered.proper)
  have hlater := List.pairwise_cons.mp (hsegs ▸ h.ordered.later)
  have hbounded := List.forall_mem_cons.mp (hsegs ▸ h.bounded)
  -- Segments behind the cut one end before it starts.
  have hbehind : ∀ old ∈ rest, old.2 < seg.1 := hlater.1
  refine ⟨?_, ?_, ?_⟩
  · rw [heq]
    refine ⟨?_, ?_⟩
    · exact List.forall_mem_cons.mpr ⟨Nat.le_refl t, List.forall_mem_cons.mpr ⟨hstart, hproper.2⟩⟩
    · refine List.pairwise_cons.mpr ⟨?_, List.pairwise_cons.mpr ⟨hbehind, hlater.2⟩⟩
      intro old hold
      rcases List.mem_cons.mp hold with rfl | hold
      · exact hlt
      · show old.2 < t
        have := hbehind old hold
        omega
  · intro g hg hthread a b ha hb
    refine ⟨(t, t), (seg.1, left) :: rest, heq, ?_⟩
    rcases List.mem_append.mp hg with hg | hg
    · -- An earlier hole was behind the newest segment already.
      obtain ⟨newest, older, hlist, hnewest, holder⟩ := h.resumed g hg hthread a b ha hb
      rw [hsegs] at hlist
      obtain ⟨rfl, rfl⟩ := List.cons.inj hlist
      refine ⟨?_, List.forall_mem_cons.mpr ⟨Or.inr hnewest, holder⟩⟩
      show a < t
      omega
    · rw [List.mem_singleton.mp hg] at ha
      cases ha
      refine ⟨hlt, List.forall_mem_cons.mpr ⟨Or.inl (Nat.le_refl left), ?_⟩⟩
      intro old hold
      have := hbehind old hold
      exact Or.inl (by omega)
  · rw [heq]
    have hnow : (∃ x, T c.id x ∧ x ≤ t) ∧ ∃ y, T c.id y ∧ t ≤ y :=
      ⟨⟨t, ht, Nat.le_refl t⟩, t, ht, Nat.le_refl t⟩
    refine List.forall_mem_cons.mpr ⟨hnow, List.forall_mem_cons.mpr ⟨⟨hbounded.1.1, ?_⟩, hbounded.2⟩⟩
    exact ⟨t, ht, Nat.le_of_lt hlt⟩

/-- Disjoint segments inside a window add up to no more than the window. -/
theorem Ordered.sum_le {segments : List (Nat × Nat)} (h : Ordered segments) {lo hi : Nat}
    (hlo : ∀ seg ∈ segments, lo ≤ seg.1) (hhi : ∀ seg ∈ segments, seg.2 ≤ hi) :
    (segments.map fun seg => seg.2 - seg.1).sum ≤ hi - lo := by
  induction segments generalizing hi with
  | nil => exact Nat.zero_le _
  | cons seg rest ih =>
    have hproper := List.forall_mem_cons.mp h.proper
    have hlater := List.pairwise_cons.mp h.later
    have hlow := List.forall_mem_cons.mp hlo
    have hhigh := List.forall_mem_cons.mp hhi
    -- What is behind the newest segment fits before its start.
    have hrest := ih ⟨hproper.2, hlater.2⟩ hlow.2 fun old hold => Nat.le_of_lt (hlater.1 old hold)
    rw [List.map_cons, List.sum_cons]
    have := hproper.1
    have := hlow.1
    have := hhigh.1
    omega

/-! ## The chart of a sound reconstruction -/

/-- The coverage of every thread is sound. -/
structure Surveyed (T : ThreadId → Nat → Prop) (C : Chart) : Prop where
  live : ∀ k c, C.live k = some c → SoundCover T C.holes c
  past : ∀ c ∈ C.past, SoundCover T C.holes c

namespace Surveyed

variable {C : Chart} {k : Key}

theorem mono (h : Surveyed T C) (hT : ∀ id x, T id x → T' id x) : Surveyed T' C :=
  ⟨fun k c hc => (h.live k c hc).mono fun x => hT c.id x,
    fun c hc => (h.past c hc).mono fun x => hT c.id x⟩

theorem note (h : Surveyed T C) (t : Option Nat) : Surveyed T (C.note t) := by
  unfold Chart.note
  split
  · split
    · exact ⟨h.live, h.past⟩
    · exact h
  · exact h

theorem addEvents (h : Surveyed T C) (rows : List FlowEvent) : Surveyed T (C.addEvents rows) :=
  ⟨h.live, h.past⟩

/-- Thread `k` gets another cover, or none. -/
theorem update (h : Surveyed T C) {new : Option Cover} (hnew : ∀ c, new = some c → SoundCover T C.holes c) :
    ∀ k' c', Function.update C.live k new k' = some c' → SoundCover T C.holes c' := by
  intro k' c' hc'
  by_cases hk : k' = k
  · subst hk
    rw [Function.update_self] at hc'
    exact hnew c' hc'
  · rw [Function.update_of_ne hk] at hc'
    exact h.live k' c' hc'

/-- A thread that is created has no holes yet. -/
theorem ensure (h : Surveyed T C) {id : ThreadId}
    (hnew : C.live k = none → ∀ g ∈ C.holes, g.thread ≠ id) : Surveyed T (C.ensure k id) := by
  unfold Chart.ensure
  split
  next => exact h
  next hnone =>
    refine ⟨h.update ?_, h.past⟩
    intro c hc
    cases hc
    exact sound_new id (hnew hnone)

theorem extend (h : Surveyed T C) {now : Option Nat}
    (hT : ∀ c t, C.live k = some c → now = some t → T c.id t) :
    Surveyed T (C.modCover k (Cover.extend now)) := by
  unfold Chart.modCover
  split
  next c hc =>
    refine ⟨h.update ?_, h.past⟩
    intro c' hc'
    cases hc'
    exact (h.live k c hc).extend fun t ht => hT c t hc ht
  next => exact h

theorem retire (h : Surveyed T C) (k : Key) : Surveyed T (C.retire k) := by
  unfold Chart.retire
  split
  next c hc =>
    refine ⟨h.update fun c' hc' => (by cases hc'), ?_⟩
    · intro c' hc'
      rcases List.mem_append.mp hc' with hc' | hc'
      · exact h.past c' hc'
      · rw [List.mem_singleton.mp hc']
        exact h.live k c hc
  next => exact h

end Surveyed

/-- No other thread has the name of thread `k`. -/
structure Unmatched (C : Chart) (k : Key) (c : Cover) : Prop where
  live : ∀ k' c', k' ≠ k → C.live k' = some c' → c'.id ≠ c.id
  past : ∀ c' ∈ C.past, c'.id ≠ c.id

/-- A hole is behind thread `k` only. -/
theorem Surveyed.addHole {C : Chart} {k : Key} (h : Surveyed T C) (hc : C.live k = some c)
    (hun : Unmatched C k c) {start stop now : Option Nat}
    (hcut : SoundCover T (C.holes ++ [⟨c.id, start, stop⟩]) (c.cut start now)) :
    Surveyed T (C.addHole k start stop now) := by
  unfold Chart.addHole Chart.modCover
  rw [hc]
  refine ⟨?_, ?_⟩
  · intro k' c' hc'
    by_cases hk : k' = k
    · subst hk
      simp only [Function.update_self] at hc'
      cases hc'
      exact hcut
    · simp only [Function.update_of_ne hk] at hc'
      exact (h.live k' c' hc').addHole (hun.live k' c' hk hc').symm
  · intro c' hc'
    exact (h.past c' hc').addHole (hun.past c' hc').symm

/-! ## Runs -/

/-- `x` is the time of a sample kept for thread `id`. -/
def SampledAt (r₀ : Reconstructor) (recs : List RawRecord) (id : ThreadId) (x : Nat) : Prop :=
  ∃ n s r, Keeps r₀ recs n s r ∧ (r.stateOf (s.pid, s.tid)).id = id ∧ s.timeNs = some x

/-- A sample that resumes across a hole is dated after the trace end, at
`left`, and `left` is not before the newest segment; without a time it leaves
no segment, and then the hole must have no known end. -/
def InOrder (r : Reconstructor) (s : Sample) (left : Nat) : Prop :=
  match s.timeNs with
  | some t => left < t ∧
      (r.stateOf (s.pid, s.tid)).segments.head?.any (fun seg => seg.1 ≤ left) = true
  | none => r.ringStart s = none

/-- The record does not resume out of order across a ring hole. -/
def CleanCrossing (r : Reconstructor) (rec : RawRecord) : Prop :=
  ∀ s p left, rec = .sample s → r.drops rec = false →
    (r.noteCpuFirst rec).crossing s = some p → p.abs = some left →
      InOrder (r.noteCpuFirst rec) s left

variable {r₀ r r' : Reconstructor} {recs pre : List RawRecord} {owner : Nat → Nat} {k : Key}

theorem Keeps.append {n : Nat} {s : Sample} (h : Keeps r₀ pre n s r) (post : List RawRecord) :
    Keeps r₀ (pre ++ post) n s r := by
  have hlt : n < pre.length := by
    by_contra hge
    have hnone := List.getElem?_eq_none (Nat.le_of_not_lt hge)
    rw [h.here] at hnone
    cases hnone
  have htake : (pre ++ post).take (n + 1) = pre.take (n + 1) :=
    List.take_append_of_le_length hlt
  exact ⟨(List.getElem?_append_left hlt).trans h.here, htake.symm ▸ h.kept,
    htake.symm ▸ h.spans⟩

theorem SampledAt.append {id : ThreadId} {x : Nat} (h : SampledAt r₀ pre id x)
    (post : List RawRecord) : SampledAt r₀ (pre ++ post) id x := by
  obtain ⟨n, s, r, hkeeps, hid, ht⟩ := h
  exact ⟨n, s, r, hkeeps.append post, hid, ht⟩

/-- A sample that was not dropped is kept. -/
theorem keeps_last {s : Sample} (hr : r₀.pushAll pre = .ok r) (h : r.push (.sample s) = .ok r')
    (hdrop : r.drops (.sample s) = false) :
    Keeps r₀ (pre ++ [.sample s]) pre.length s r' := by
  have htake : (pre ++ [RawRecord.sample s]).take (pre.length + 1) = pre ++ [.sample s] :=
    List.take_of_length_le (by simp)
  have hrun : r₀.pushAll (pre ++ [.sample s]) = .ok r' :=
    foldlM_append_ok.mpr ⟨r, hr, foldlM_cons_ok.mpr ⟨r', h, rfl⟩⟩
  refine ⟨?_, ?_, htake.symm ▸ hrun⟩
  · rw [List.getElem?_append_right (Nat.le_refl _), Nat.sub_self]
    rfl
  · rw [htake, ← pushAll_filterAfter hrun, push_pidFilter h]
    unfold drops at hdrop
    cases hf : r.pidFilter with
    | none => rfl
    | some f =>
      rw [hf, Option.any_some] at hdrop
      show (f.observe (.sample s)).isLiveThread s.pid s.tid = true
      by_contra hdead
      simp [foreignPid, hdead] at hdrop

/-- The threads of a chart, in the ledger. -/
theorem live_chart {c : Cover} (h : (chart r).live k = some c) :
    ∃ l, (ledger r).lanes k = some l ∧ l.id = c.id := by
  obtain ⟨st, hst, rfl⟩ := Option.map_eq_some_iff.mp h
  exact ⟨laneOf st, lanes_ledger.mpr ⟨st, hst, rfl⟩, rfl⟩

theorem unmatched_of_book (hB : GapBook owner (ledger r)) {c : Cover}
    (hc : (chart r).live k = some c) : Unmatched (chart r) k c := by
  obtain ⟨l, hl, hid⟩ := live_chart hc
  obtain ⟨hown, hname, -⟩ := hB.lanes k l hl
  rw [hname] at hid
  refine ⟨?_, ?_⟩
  · intro k' c' hk hc' heq
    obtain ⟨l', hl', hid'⟩ := live_chart hc'
    obtain ⟨hown', hname', -⟩ := hB.lanes k' l' hl'
    rw [hname', heq, ← hid] at hid'
    obtain ⟨htid, -⟩ := ThreadId.task.inj hid'
    exact hk (key_eq_of_tid hown' hown htid)
  · intro c' hc' heq
    obtain ⟨st, hst, rfl⟩ := List.mem_map.mp hc'
    obtain ⟨-, k', g, hown', hlt, hname'⟩ := hB.closed (laneOf st) (List.mem_map_of_mem hst)
    have hname'' : (coverOf st).id = .task k'.2 g := hname'
    rw [heq, ← hid] at hname''
    obtain ⟨htid, hgen⟩ := ThreadId.task.inj hname''
    obtain rfl := key_eq_of_tid hown hown' htid
    omega

/-- A thread that is not there has no holes under its next name. -/
theorem no_holes_of_book (hB : GapBook owner (ledger r)) (hown : owner k.2 = k.1)
    (hnone : (chart r).live k = none) :
    ∀ g ∈ (chart r).holes, g.thread ≠ r.threadIds.id k.1 k.2 := by
  intro g hg heq
  obtain ⟨gap, hgap, rfl⟩ := List.mem_map.mp hg
  have hlane : (ledger r).lanes k = none := by
    rw [lanes_ledger_none]
    exact Option.map_eq_none_iff.mp hnone
  have hzero := hB.unlisted k hown hlane
  rw [gapsOf, List.countP_eq_zero] at hzero
  exact hzero gap (List.mem_of_mem_filter hgap) (decide_eq_true heq)

theorem ensure_live (C : Chart) (k : Key) (id : ThreadId) : ∃ c, (C.ensure k id).live k = some c := by
  unfold Chart.ensure
  split
  next c hc => exact ⟨c, hc⟩
  next => exact ⟨⟨id, []⟩, Function.update_self ..⟩

theorem modCover_live {C : Chart} (hc : C.live k = some c) (f : Cover → Cover) :
    (C.modCover k f).live k = some (f c) := by
  simp only [Chart.modCover, hc, Function.update_self]

/-- A crossing keeps the name of its thread. -/
theorem cross_live {C : Chart} (hc : C.live k = some c) (now stop : Option Nat)
    (p : Option PendingEnd) : ∃ c', (C.cross k now stop p).live k = some c' ∧ c'.id = c.id := by
  unfold Chart.cross
  split
  next q =>
    refine ⟨c.cut q.abs now, ?_, rfl⟩
    simp only [Chart.addHole, hc]
    exact modCover_live hc _
  next => exact ⟨c, hc, rfl⟩

/-- A thread's state and its cover. -/
theorem coverOf_stateOf (hc : (chart r).live k = some c) : coverOf (r.stateOf k) = c := by
  obtain ⟨st, hst, rfl⟩ := Option.map_eq_some_iff.mp hc
  rw [stateOf, hst]
  rfl

theorem note_threads (C : Chart) (t : Option Nat) :
    (C.note t).live = C.live ∧ (C.note t).past = C.past := by
  unfold Chart.note
  split
  · split <;> exact ⟨rfl, rfl⟩
  · exact ⟨rfl, rfl⟩

/-- A record's thread is there, with a sound coverage. -/
theorem ensure_surveyed (hB : GapBook owner (ledger r)) (hown : owner k.2 = k.1)
    (hS : Surveyed T (chart r)) (t : Option Nat) :
    Surveyed T (((chart r).note t).ensure k (r.threadIds.id k.1 k.2)) := by
  apply (hS.note t).ensure
  rw [(note_threads ..).1, (note_rows ..).2]
  exact no_holes_of_book hB hown

/-- A clean crossing keeps the coverage sound. -/
theorem cross_surveyed {s : Sample} {p : Option PendingEnd}
    (hp : r.crossing s = p) {C : Chart} (hC : Surveyed T C)
    (hlive : (chart r).live (s.pid, s.tid) = some c) (hc : C.live (s.pid, s.tid) = some (c.extend s.timeNs))
    (hun : Unmatched C (s.pid, s.tid) c)
    (hclean : ∀ q left, p = some q → q.abs = some left → InOrder r s left)
    (hT : ∀ t, s.timeNs = some t → T c.id t) :
    Surveyed T (C.cross (s.pid, s.tid) s.timeNs (r.ringStart s) p) := by
  unfold Chart.cross
  split
  next q =>
    obtain ⟨l, -, -, hhole⟩ := crossing_pending hp
    -- A ring hole has a trace end with a time.
    obtain ⟨left, habs⟩ : ∃ left, q.abs = some left := by
      cases habs : q.abs with
      | none => simp [ringHole, habs] at hhole
      | some left => exact ⟨left, rfl⟩
    have horder := hclean q left rfl habs
    refine hC.addHole hc ⟨hun.live, hun.past⟩ ?_
    have hsound : SoundCover T C.holes (c.extend s.timeNs) := hC.live _ _ hc
    cases htime : s.timeNs with
    | none =>
      simp only [InOrder, htime] at horder
      rw [htime] at hsound
      rw [horder]
      exact hsound.addOpenHole rfl
    | some t =>
      have hsegments : (r.stateOf (s.pid, s.tid)).segments = c.segments :=
        congrArg Cover.segments (coverOf_stateOf hlive)
      simp only [InOrder, htime, hsegments] at horder
      obtain ⟨hlt, hhead⟩ := horder
      rw [htime] at hsound
      cases hsegs : c.segments with
      | nil =>
        rw [hsegs] at hhead
        cases hhead
      | cons seg rest =>
        rw [hsegs] at hhead
        have hstart : seg.1 ≤ left := of_decide_eq_true hhead
        have heq : (c.extend (some t)).segments = (seg.1, max seg.2 t) :: rest := by
          simp only [Cover.extend, hsegs]
        rw [habs]
        exact hsound.cut heq hstart hlt (hT t htime) _
  next => exact hC

/-- One record keeps the coverage sound. -/
theorem push_surveyed {rec : RawRecord} (hrun : r₀.pushAll pre = .ok r)
    (h : r.push rec = .ok r') (hB : GapBook owner (ledger r))
    (hown : ∀ k, namedKey rec = some k → owner k.2 = k.1) (hclean : CleanCrossing r rec)
    (hS : Surveyed (SampledAt r₀ pre) (chart r)) :
    Surveyed (SampledAt r₀ (pre ++ [rec])) (chart r') := by
  have hS' : Surveyed (SampledAt r₀ (pre ++ [rec])) (chart r) :=
    hS.mono fun id x hx => hx.append [rec]
  have hchart := push_chart h
  split at hchart
  next hdrop => exact hchart ▸ hS'
  next hdrop =>
    have hkept : r.drops rec = false := Bool.eq_false_iff.mpr hdrop
    have hcpu := noteCpuFirst_chart (r := r) rec
    have hledger := noteCpuFirst_ledger (r := r) rec
    rw [← hcpu] at hS'
    rw [← hledger] at hB
    unfold CleanCrossing at hclean
    generalize r.noteCpuFirst rec = r₁ at hchart hS' hB hclean hcpu
    generalize hC : chart r' = C at hchart
    cases hchart with
    | @sample s rows hrows =>
      have hnamed := hown (s.pid, s.tid) rfl
      have hensure := ensure_surveyed hB hnamed hS' s.timeNs
      obtain ⟨c, hc⟩ := ensure_live ((chart r₁).note s.timeNs) (s.pid, s.tid)
        (r₁.threadIds.id s.pid s.tid)
      have hextended : (((((chart r₁).note s.timeNs).ensure (s.pid, s.tid)
          (r₁.threadIds.id s.pid s.tid)).modCover (s.pid, s.tid)
            (Cover.extend s.timeNs)).addEvents rows).live (s.pid, s.tid) =
          some (c.extend s.timeNs) := modCover_live hc _
      -- The time of the sample is one of its thread's, whichever thread that is.
      have hT : ∀ t, s.timeNs = some t → SampledAt r₀ (pre ++ [.sample s]) c.id t := by
        intro t ht
        obtain ⟨c', hc', hid⟩ := cross_live hextended s.timeNs (r₁.ringStart s) (r₁.crossing s)
        rw [← hC] at hc'
        refine ⟨pre.length, s, r', keeps_last hrun h hkept, ?_, ht⟩
        exact (congrArg Cover.id (coverOf_stateOf hc')).trans hid
      have hextend : Surveyed (SampledAt r₀ (pre ++ [.sample s]))
          (((((chart r₁).note s.timeNs).ensure (s.pid, s.tid)
            (r₁.threadIds.id s.pid s.tid)).modCover (s.pid, s.tid)
              (Cover.extend s.timeNs)).addEvents rows) := by
        apply Surveyed.addEvents
        apply hensure.extend
        intro c' t hc' ht
        rw [hc] at hc'
        cases hc'
        exact hT t ht
      cases hcross : r₁.crossing s with
      | none => exact hextend
      | some p =>
        obtain ⟨l, hl, -, -⟩ := crossing_pending hcross
        obtain ⟨c₁, hlive⟩ := live_of_lane hl
        have hthere : ((chart r₁).note s.timeNs).live (s.pid, s.tid) = some c₁ := by
          rw [(note_threads ..).1]
          exact hlive
        have hsame : ((chart r₁).note s.timeNs).ensure (s.pid, s.tid)
            (r₁.threadIds.id s.pid s.tid) = (chart r₁).note s.timeNs := by
          simp only [Chart.ensure, hthere]
        obtain rfl : c₁ = c := by
          rw [hsame, hthere] at hc
          exact Option.some.inj hc
        have hbook := unmatched_of_book hB hlive
        rw [hsame] at hextend hextended ⊢
        refine cross_surveyed hcross hextend hlive hextended ?_ ?_ hT
        · refine ⟨?_, ?_⟩
          · intro k' c' hk hc'
            have hne : (((chart r₁).note s.timeNs).modCover (s.pid, s.tid)
                (Cover.extend s.timeNs)).live k' = (chart r₁).live k' := by
              simp only [Chart.modCover, hthere, Function.update_of_ne hk]
              rw [(note_threads ..).1]
            exact hbook.live k' c' hk (hne.symm.trans hc')
          · intro c' hc'
            have hpast : (((chart r₁).note s.timeNs).modCover (s.pid, s.tid)
                (Cover.extend s.timeNs)).past = (chart r₁).past := by
              simp only [Chart.modCover, hthere]
              rw [(note_threads ..).2]
            exact hbook.past c' (hpast ▸ hc')
        · intro q left hq habs
          cases hq
          exact hclean s p left rfl hkept hcross habs
    | @error e k hkey => exact ensure_surveyed hB (hown k hkey) hS' e.timeNs
    | exit => exact (hS'.note _).retire _
    | quiet => exact hS'.note _

/-! ## The law -/

/-- The coverage of thread `id`, oldest segment first: segments are ordered and
disjoint, none contains a ring hole of the thread, and they cover no more than
the thread's sample times span. -/
structure CoverageLaw (times : Nat → Prop) (gaps : List GapRecord) (id : ThreadId)
    (segments : List (Nat × Nat)) (covered : Nat) : Prop where
  proper : ∀ seg ∈ segments, seg.1 ≤ seg.2
  sorted : segments.Pairwise fun older newer => older.2 < newer.1
  clear : ∀ g ∈ gaps, g.kind = .ringTruncation → g.thread = id → ∀ a b,
    g.start.relativeNs = some a → g.stop.relativeNs = some b → a < b →
      ∀ seg ∈ segments, ¬ (seg.1 ≤ a ∧ b ≤ seg.2)
  covered : ∀ lo hi, (∀ x, times x → lo ≤ x ∧ x ≤ hi) → covered ≤ hi - lo

/-- The covered time of a thread. -/
def coveredNs (st : ThreadState) : Nat := (st.segments.map fun seg => seg.2 - seg.1).sum

/-- A segment of a sound coverage contains no ring hole of its thread. -/
theorem SoundCover.clear {st : ThreadState} (h : SoundCover T (chart r).holes (coverOf st)) {g : GapRecord}
    (hg : g ∈ r.gaps) (hkind : g.kind = .ringTruncation) (hthread : g.thread = st.id) {a b : Nat}
    (ha : g.start.relativeNs = some a) (hb : g.stop.relativeNs = some b) (hab : a < b) :
    ∀ seg ∈ st.segments, ¬ (seg.1 ≤ a ∧ b ≤ seg.2) := by
  have hhole : holeOf g ∈ (chart r).holes :=
    List.mem_map_of_mem (List.mem_filter.mpr ⟨hg, decide_eq_true hkind⟩)
  obtain ⟨newest, older, hlist, hnewest, holder⟩ := h.resumed _ hhole hthread a b ha hb
  have hsegs : st.segments = newest :: older := hlist
  rw [hsegs]
  refine List.forall_mem_cons.mpr ⟨fun hin => by omega, ?_⟩
  intro seg hseg hin
  rcases holder seg hseg with hbefore | hafter
  · omega
  · omega

theorem SoundCover.covered {st : ThreadState} (h : SoundCover T holes (coverOf st)) {lo hi : Nat}
    (hwin : ∀ x, T st.id x → lo ≤ x ∧ x ≤ hi) : coveredNs st ≤ hi - lo := by
  refine h.ordered.sum_le ?_ ?_
  · intro seg hseg
    obtain ⟨⟨x, hx, hlow⟩, -⟩ := h.bounded seg hseg
    exact Nat.le_trans (hwin x hx).1 hlow
  · intro seg hseg
    obtain ⟨-, y, hy, hhigh⟩ := h.bounded seg hseg
    exact Nat.le_trans hhigh (hwin y hy).2

/-- The law of a thread of a reconstructor. -/
theorem SoundCover.law {st : ThreadState} (h : SoundCover T (chart r).holes (coverOf st)) :
    CoverageLaw (T st.id) r.gaps st.id st.segments.reverse (coveredNs st) := by
  refine ⟨?_, List.pairwise_reverse.mpr h.ordered.later, ?_, fun lo hi => h.covered⟩
  · intro seg hseg
    exact h.ordered.proper seg (List.mem_reverse.mp hseg)
  · intro g hg hkind hthread a b ha hb hab seg hseg
    exact h.clear hg hkind hthread ha hb hab seg (List.mem_reverse.mp hseg)

/-- The law of a row of the thread table, once no sample is before the origin. -/
theorem SoundCover.lifetime {st : ThreadState} (h : SoundCover T (chart r).holes (coverOf st)) {origin : Nat}
    (horigin : ∀ x, T st.id x → origin ≤ x) {gaps : List GapRecord}
    (hgaps : List.Forall₂ (GapRebased origin) r.gaps gaps) :
    CoverageLaw (T st.id) gaps st.id (lifetimeOf origin st).segments
      (lifetimeOf origin st).coveredNs := by
  have hlaw := h.law
  have hfrom : ∀ seg ∈ st.segments, origin ≤ seg.1 := by
    intro seg hseg
    obtain ⟨⟨x, hx, hlow⟩, -⟩ := h.bounded seg hseg
    exact Nat.le_trans (horigin x hx) hlow
  have hlisted : ∀ seg ∈ st.segments.reverse.take 32, seg ∈ st.segments := fun seg hseg =>
    List.mem_reverse.mp (List.mem_of_mem_take hseg)
  refine ⟨?_, ?_, ?_, hlaw.covered⟩
  · intro seg' hseg'
    obtain ⟨seg, hseg, rfl⟩ := List.mem_map.mp hseg'
    exact Nat.sub_le_sub_right (h.ordered.proper seg (hlisted seg hseg)) origin
  · refine List.pairwise_map.mpr ?_
    have hpairs := hlaw.sorted.sublist (List.take_sublist 32 _)
    refine hpairs.imp_of_mem ?_
    intro older newer holder hnewer hlt
    show older.2 - origin < newer.1 - origin
    have := hfrom older (hlisted older holder)
    have := h.ordered.proper older (hlisted older holder)
    omega
  · intro g' hg' hkind hthread a b ha hb hab seg' hseg'
    obtain ⟨seg, hseg, rfl⟩ := List.mem_map.mp hseg'
    obtain ⟨g, hg, hrebased⟩ := forall₂_mem_right hgaps g' hg'
    have hstart : g.start.relativeNs = some (a + origin) := by
      rw [hrebased.start_eq, ha]
      rfl
    have hstop : g.stop.relativeNs = some (b + origin) := by
      rw [hrebased.stop_eq, hb]
      rfl
    have hclear := h.clear hg (hrebased.kind_eq ▸ hkind) (hrebased.thread_eq ▸ hthread) hstart
      hstop (by omega) seg (hlisted seg hseg)
    have := hfrom seg (hlisted seg hseg)
    have := h.ordered.proper seg (hlisted seg hseg)
    show ¬ (seg.1 - origin ≤ a ∧ b ≤ seg.2 - origin)
    omega

/-! ## The theorem -/

/-- No record of the stream resumes out of order across a ring hole. -/
def CleanCrossings (r₀ : Reconstructor) (recs : List RawRecord) : Prop :=
  ∀ pre rec post, recs = pre ++ rec :: post → ∀ r, r₀.pushAll pre = .ok r → CleanCrossing r rec

theorem pushAll_book (h₀ : Built r₀) (howner : SingleOwner owner recs)
    (h : r₀.pushAll recs = .ok r) : GapBook owner (ledger r) :=
  pushAll_entries (fun _ _ (he : Entry (fun k => owner k.2 = k.1) _ _) hB => he.gapBook hB) howner
    (h₀.ledger ▸ empty_gapBook owner _) h

/-- The coverage after every prefix of a stream is sound. -/
theorem pushAll_surveyed (h₀ : Built r₀) (howner : SingleOwner owner recs)
    (hclean : CleanCrossings r₀ recs) : ∀ pre, pre <+: recs → ∀ r, r₀.pushAll pre = .ok r →
      Surveyed (SampledAt r₀ pre) (chart r) := by
  refine foldlM_trace (P := fun pre r => Surveyed (SampledAt r₀ pre) (chart r)) ?_ ?_
  · rw [h₀.chart]
    exact ⟨fun k c hc => (by cases hc), fun c hc => absurd hc List.not_mem_nil⟩
  · intro pre rec post r r' hsplit hrun hS hpush
    have howner' : SingleOwner owner pre := fun rec' hrec' =>
      howner rec' (hsplit ▸ List.mem_append_left _ hrec')
    have hnamed := howner rec (hsplit ▸ List.mem_append_right _ List.mem_cons_self)
    exact push_surveyed hrun hpush (pushAll_book h₀ howner' hrun) hnamed
      (hclean pre rec post hsplit r hrun) hS

/-- A kept sample is not before the earliest time of the whole stream. -/
theorem SampledAt.since {id : ThreadId} {x : Nat}
    (hpos : ∀ rec ∈ recs, ∀ t, notedTime rec = some t → 0 < t) (hr : r₀.pushAll recs = .ok r)
    (h : SampledAt r₀ recs id x) : NotBefore r.minAbs (some x) := by
  obtain ⟨n, s, rn, hkeeps, -, htime⟩ := h
  have hmem : RawRecord.sample s ∈ recs := List.mem_of_getElem? hkeeps.here
  have htake : recs.take (n + 1) = recs.take n ++ [.sample s] := by
    rw [List.take_add_one, hkeeps.here]
    rfl
  -- It was noted when it was pushed ...
  have hspans := hkeeps.spans
  rw [htake] at hspans
  obtain ⟨r₁, hr₁, hlast⟩ := foldlM_append_ok.mp hspans
  obtain ⟨r₂, hpush, hend⟩ := foldlM_cons_ok.mp hlast
  cases hend
  have hdrop : r₁.drops (.sample s) = false := by
    have hkept := hkeeps.kept
    rw [← pushAll_filterAfter hkeeps.spans] at hkept
    rw [drops_iff hpush]
    cases hf : rn.pidFilter with
    | none => rfl
    | some f =>
      rw [hf] at hkept
      have hlive : f.isLiveThread s.pid s.tid = true := hkept
      simp [foreignPid, hlive]
  have hnoted := push_earliest hpush
  rw [hdrop, if_neg Bool.false_ne_true] at hnoted
  have hsince : NotBefore rn.minAbs (some x) := by
    rw [hnoted]
    show NotBefore (noted r₁.minAbs s.timeNs) (some x)
    rw [htime]
    exact since_noted _ fun y hy => hpos _ hmem y (hy ▸ htime)
  -- ... and only earlier times have been since.
  rw [← List.take_append_drop (n + 1) recs] at hr
  obtain ⟨r₃, hr₃, hrest⟩ := foldlM_append_ok.mp hr
  obtain rfl := Except.ok.inj (hkeeps.spans.symm.trans hr₃)
  refine foldlM_invariant (P := fun r => NotBefore r.minAbs (some x)) ?_ hsince hrest
  intro rec _ r₄ r₅ hS hstep
  rw [push_earliest hstep]
  split
  next => exact hS
  next => exact hS.noted _

/-- The thread table and the origin of a finished analysis. -/
theorem finish_threads {ir : AnalysisIr} (h : r.finish = .ok ir) :
    r.minAbs = some ir.origin ∧ ir.threads = r.closeAll.threadList ir.origin := by
  unfold finish at h
  obtain ⟨origin, horigin, h⟩ := bind_ok.mp h
  dsimp only at h
  obtain ⟨events, _, h⟩ := bind_ok.mp h
  obtain ⟨spans, _, h⟩ := bind_ok.mp h
  obtain ⟨spilled, _, h⟩ := bind_ok.mp h
  obtain ⟨gaps, _, h⟩ := bind_ok.mp h
  cases h
  exact ⟨origin_eq.mp horigin, rfl⟩

/-- The states behind a thread table. -/
theorem Surveyed.listed (hS : Surveyed T (chart r)) {origin : Nat} {t : ThreadLifetime}
    (ht : t ∈ r.threadList origin) (hlive : ∀ k ∈ r.threadOrder, ∃ l, (ledger r).lanes k = some l) :
    ∃ st, t = lifetimeOf origin st ∧ SoundCover T (chart r).holes (coverOf st) := by
  obtain ⟨st, hst, rfl⟩ := List.mem_map.mp ht
  refine ⟨st, rfl, ?_⟩
  rcases List.mem_append.mp hst with hst | hst
  · exact hS.past _ (List.mem_map_of_mem hst)
  · obtain ⟨k, hk, rfl⟩ := List.mem_map.mp hst
    obtain ⟨l, hl⟩ := hlive k hk
    obtain ⟨c, hc⟩ := live_of_lane hl
    rw [coverOf_stateOf hc]
    exact hS.live k c hc

/-- In a stream without out-of-order resumptions across ring holes, in which no
two processes share a tid, the coverage of every thread obeys the law in every
state reached, and in the analysis when given times are positive. -/
theorem coverage_ordered (h₀ : Built r₀) (howner : SingleOwner owner recs)
    (hclean : CleanCrossings r₀ recs) :
    (∀ pre, pre <+: recs → ∀ r, r₀.pushAll pre = .ok r →
      ∀ st, (st ∈ r.retired ∨ ∃ k, r.threads.get k = some st) →
        CoverageLaw (SampledAt r₀ pre st.id) r.gaps st.id st.segments.reverse (coveredNs st)) ∧
    ((∀ rec ∈ recs, ∀ t, notedTime rec = some t → 0 < t) →
      ∀ r ir, r₀.pushAll recs = .ok r → r.finish = .ok ir → ∀ t ∈ ir.threads,
        CoverageLaw (SampledAt r₀ recs t.id) ir.gaps t.id t.segments t.coveredNs) := by
  have hsurvey := pushAll_surveyed h₀ howner hclean
  refine ⟨?_, ?_⟩
  · intro pre hpre r hr st hst
    have hS := hsurvey pre hpre r hr
    rcases hst with hst | ⟨k, hst⟩
    · exact (hS.past _ (List.mem_map_of_mem hst)).law
    · exact (hS.live k _ (congrArg (Option.map coverOf) hst)).law
  · intro hpos r ir hr hfin t ht
    have hS := hsurvey recs List.prefix_rfl r hr
    have hF : Forest (ledger r.closeAll) :=
      closeAll_entries (fun _ _ (he : Entry (fun _ => True) _ _) h => he.forest h)
        (pushAll_forest h₀ hr)
    have hlive : ∀ k ∈ r.closeAll.threadOrder, ∃ l, (ledger r.closeAll).lanes k = some l :=
      fun k hk => (hF.live k).mp hk
    obtain ⟨hmin, hthreads⟩ := finish_threads hfin
    rw [← closeAll_chart] at hS
    obtain ⟨st, rfl, hsound⟩ := hS.listed (hthreads ▸ ht) hlive
    refine hsound.lifetime ?_ (finish_finished hlive hfin).gaps
    intro x hx
    obtain ⟨o, ho, hle⟩ := hx.since hpos hr x rfl
    rw [hmin] at ho
    cases ho
    exact hle

/-! ## Small streams -/

/-- The stream of `crossedRings` without the regression. -/
def crossedInOrder : List RawRecord :=
  [.sample ⟨9, 9, some 1, some 150, .branches, some 1, some 2, .CALL, none, .empty⟩,
    .sample ⟨7, 1, some 0, some 100, .branches, some 1, some 2, .TR_END, none, .empty⟩,
    .sample ⟨7, 1, some 1, some 160, .branches, some 1, some 2, .CALL, none, .empty⟩]

theorem crossedInOrder_clean : CleanCrossings bare crossedInOrder := by
  intro pre rec post hsplit r hr s p left hrec _ hcross habs
  rcases pre with _ | ⟨a, _ | ⟨b, _ | ⟨c, pre⟩⟩⟩
  · cases hr
    cases hsplit
    cases hrec
    cases hcross
  · cases hsplit
    cases hrec
    cases hr
    cases hcross
  · cases hsplit
    cases hrec
    cases hr
    cases hcross
    cases habs
    exact ⟨by decide, by decide⟩
  · simp [crossedInOrder] at hsplit

/-- `coverage_ordered` on a stream that crosses a ring hole in order. -/
theorem coverage_ordered_crossedInOrder :
    (∀ pre, pre <+: crossedInOrder → ∀ r, bare.pushAll pre = .ok r →
      ∀ st, (st ∈ r.retired ∨ ∃ k, r.threads.get k = some st) →
        CoverageLaw (SampledAt bare pre st.id) r.gaps st.id st.segments.reverse (coveredNs st)) ∧
    ∃ r ir, bare.pushAll crossedInOrder = .ok r ∧ r.finish = .ok ir ∧ ∀ t ∈ ir.threads,
      CoverageLaw (SampledAt bare crossedInOrder t.id) ir.gaps t.id t.segments t.coveredNs := by
  have howner : SingleOwner (fun tid => if tid = 9 then 9 else 7) crossedInOrder := by
    intro rec hrec k hk
    simp only [crossedInOrder, List.mem_cons, List.not_mem_nil, or_false] at hrec
    rcases hrec with rfl | rfl | rfl <;> cases hk <;> rfl
  obtain ⟨hstates, hfinish⟩ := coverage_ordered (.new ..) howner crossedInOrder_clean
  refine ⟨hstates, ?_⟩
  obtain ⟨ir, hir, -⟩ := ok_of_any (x := bare.pushAll crossedInOrder >>= finish)
    (p := fun _ => true) (by decide)
  obtain ⟨r, hr, hfin⟩ := bind_ok.mp hir
  refine ⟨r, ir, hr, hfin, hfinish ?_ r ir hr hfin⟩
  intro rec hrec t ht
  simp only [crossedInOrder, List.mem_cons, List.not_mem_nil, or_false] at hrec
  rcases hrec with rfl | rfl | rfl <;> cases ht <;> decide

/-- The thread of `crossedRings` resumes at 50, behind the trace end at 100: its
second segment is before its first. -/
theorem coverage_regressed :
    ¬ ∀ (r₀ r : Reconstructor) (recs : List RawRecord) (ir : AnalysisIr), Built r₀ →
      r₀.pushAll recs = .ok r → r.finish = .ok ir → ∀ t ∈ ir.threads,
        CoverageLaw (SampledAt r₀ recs t.id) ir.gaps t.id t.segments t.coveredNs := by
  intro h
  obtain ⟨ir, hir, htest⟩ := ok_of_any (x := bare.pushAll crossedRings >>= finish)
    (p := fun ir => ir.threads.any fun t => t.segments = [(50, 50), (0, 0)]) (by decide)
  obtain ⟨r, hr, hfin⟩ := bind_ok.mp hir
  obtain ⟨t, ht, hsegs⟩ := List.any_eq_true.mp htest
  have hlaw := h bare r crossedRings ir (.new ..) hr hfin t ht
  have hsorted := hlaw.sorted
  rw [of_decide_eq_true hsegs] at hsorted
  have hlt := List.rel_of_pairwise_cons hsorted (List.mem_singleton_self _)
  exact absurd hlt (by decide)

end TraceMcp.Decode
