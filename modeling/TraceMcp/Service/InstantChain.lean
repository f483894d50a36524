import TraceMcp.Decode.Accounts
import TraceMcp.Decode.Instants
import TraceMcp.Service.Instant

/-!
# The chain at an instant is the stack

For a thread whose samples are timed in strictly ascending order, the spans of
a finished analysis give back the stack it had at an instant, by
`chainAt_stack` and `later_closeAll`. A stack of more than 65 frames is cut off
at the outer end. A span without a known end counts as open ever after, and so
does one dated back to a trace end: where such a span is as deep as the
innermost frame, it is taken for the innermost. And a frame not named yet has
the name it gets later.
-/

namespace TraceMcp.Service

open TraceMcp.Lib TraceMcp.Decode Ledger

/-- The spans of a thread that are open at the instant, or seem to be, without
being frames of the stack `S`. -/
structure Stray (atNs : Nat) (thread : ThreadId) (S : List OpenSpan) (s : FunctionSpan) :
    Prop where
  candidate : Candidate atNs thread s
  not_open : s.id ∉ S.map OpenSpan.id

/-- `s` was interrupted, or is dated back to the trace end `pending`. -/
def Endless (origin : Nat) (pending : Option PendingEnd) (s : FunctionSpan) : Prop :=
  s.completeness = .interruptedByGap ∨
    ∃ p, pending = some p ∧ p.abs = s.start.relativeNs.map (· + origin)

/-- Every stray span of the thread is below the innermost frame of its stack. -/
def Unobscured (ir : AnalysisIr) (atNs : Nat) (st : ThreadState) : Prop :=
  ∀ s ∈ spanRowsOf ir, Stray atNs st.id st.stack s → Endless ir.origin st.pendingEnd s →
    ∃ top ∈ spanRowsOf ir, st.stack.head?.map OpenSpan.id = some top.id ∧
      Below (spanRowsOf ir) top s

/-- No frame of the thread that has no function is given one later. -/
def NamedByThen (ir : AnalysisIr) (st : ThreadState) : Prop :=
  ∀ o ∈ st.stack, o.function = none → ∀ s ∈ spanRowsOf ir, s.id = o.id → s.function = none

/-! ## The spans of a stack -/

/-- `q` is the span of the open frame `o`, still open at the instant. -/
structure SpanOf (atNs : Nat) (thread : ThreadId) (o : OpenSpan) (q : FunctionSpan) : Prop where
  candidate : Candidate atNs thread q
  id_eq : q.id = o.id
  parent_eq : q.parent = o.parent
  function_eq : o.function = none ∨ q.function = o.function

variable {atNs t g : Nat} {thread : ThreadId} {S : List OpenSpan} {qs : List FunctionSpan}
  {p₀ : Option PendingEnd} {k : Key} {L : Ledger} {ir : AnalysisIr}

theorem exists_forall₂ {α β : Type} {R : α → β → Prop} {xs : List α}
    (h : ∀ x ∈ xs, ∃ y, R x y) : ∃ ys, List.Forall₂ R xs ys := by
  induction xs with
  | nil => exact ⟨[], .nil⟩
  | cons x xs ih =>
    obtain ⟨y, hy⟩ := h x List.mem_cons_self
    obtain ⟨ys, hys⟩ := ih fun x' hx' => h x' (List.mem_cons_of_mem _ hx')
    exact ⟨y :: ys, .cons hy hys⟩

theorem head_id_eq (h : List.Forall₂ (SpanOf atNs thread) S qs) :
    qs.head?.map FunctionSpan.id = topId S := by
  cases h with
  | nil => rfl
  | cons hq _ => exact congrArg some hq.id_eq

/-- The spans of a chained stack are linked. -/
theorem linked_of_chained (h : List.Forall₂ (SpanOf atNs thread) S qs) (hS : Chained S) :
    Linked qs := by
  induction h with
  | nil => trivial
  | @cons o q S qs hq hrest ih =>
    obtain ⟨hparent, hS⟩ := hS
    refine ⟨?_, ih hS⟩
    rw [hq.parent_eq, hparent, head_id_eq hrest]

/-- The functions of the spans are those of the frames, if none is named later. -/
theorem names_eq (h : List.Forall₂ (SpanOf atNs thread) S qs) (names : LocalId → Option String)
    (hnamed : ∀ o ∈ S, o.function = none → ∀ q ∈ qs, q.id = o.id → q.function = none) :
    (qs.map fun q => functionName names q.function) =
      S.map fun o => functionName names o.function := by
  induction h with
  | nil => rfl
  | @cons o q S qs hq _ ih =>
    have hfunction : q.function = o.function := by
      rcases hq.function_eq with hnone | heq
      · rw [hnone]
        exact hnamed o List.mem_cons_self hnone q List.mem_cons_self hq.id_eq
      · exact heq
    rw [List.map_cons, List.map_cons, hfunction, ih fun o' ho' hnone q' hq' =>
      hnamed o' (List.mem_cons_of_mem _ ho') hnone q' (List.mem_cons_of_mem _ hq')]

/-! ## The spans at the end -/

/-- Once no frame of the thread is open, each frame of the instant has a span
that is open at the instant. -/
theorem stack_spans (hL : Later k (ir.origin + atNs) g S p₀ L) (hfin : Finished L ir)
    (hidle : Idle k L) (hstarts : ∀ o ∈ S, ∃ x ≤ ir.origin + atNs, o.startAbs = some x) :
    ∀ o ∈ S, ∃ q, q ∈ spanRowsOf ir ∧ SpanOf atNs (.task k.2 g) o q := by
  intro o ho
  obtain ⟨rows, hrows, hperm⟩ := hfin.rows
  rcases hL.stays o ho with ⟨l, hl, -, o', ho', -⟩ | ⟨s, hs, hrow, hstop⟩
  · rw [hidle l hl] at ho'
    exact absurd ho' List.not_mem_nil
  · obtain ⟨q, hq, hrebased⟩ := forall₂_mem_left hrows s hs
    obtain ⟨x, hx, hstart⟩ := hstarts o ho
    refine ⟨q, hperm.symm.subset hq, ⟨hrebased.thread_eq.trans hrow.thread_eq, ?_⟩,
      hrebased.id_eq.trans hrow.id_eq, hrebased.parent_eq.trans hrow.parent_eq,
      hrebased.function_eq ▸ hrow.function_eq⟩
    have hq : (q.start.relativeNs.map (· + ir.origin)) = some x := by
      rw [← hrebased.start_eq, hrow.start_eq, hstart, absTime_relativeNs]
    obtain ⟨y, hy, hyx⟩ := Option.map_eq_some_iff.mp hq
    unfold openAt
    rw [hy, Bool.and_eq_true]
    refine ⟨decide_eq_true (by omega), ?_⟩
    cases hend : q.stop.relativeNs with
    | none => rfl
    | some z =>
      have hlt := hstop (z + ir.origin) (by rw [hrebased.stop_eq, hend, Option.map_some])
      exact decide_eq_true (by omega)

/-- A stray span is endless. -/
theorem stray_endless (hL : Later k (ir.origin + atNs) g S p₀ L) (hfin : Finished L ir)
    {s : FunctionSpan} (hs : s ∈ spanRowsOf ir) (hstray : Stray atNs (.task k.2 g) S s) :
    Endless ir.origin p₀ s := by
  obtain ⟨rows, hrows, hperm⟩ := hfin.rows
  obtain ⟨s₀, hs₀, hrebased⟩ := forall₂_mem_right hrows s (hperm.subset hs)
  obtain ⟨⟨hthread, hopen⟩, hnot⟩ := hstray
  unfold openAt at hopen
  rw [Bool.and_eq_true] at hopen
  obtain ⟨hstarted, hlasts⟩ := hopen
  obtain ⟨y, hy, hle⟩ : ∃ y, s.start.relativeNs = some y ∧ y ≤ atNs := by
    cases hstart : s.start.relativeNs with
    | none =>
      rw [hstart] at hstarted
      cases hstarted
    | some y =>
      rw [hstart] at hstarted
      exact ⟨y, rfl, of_decide_eq_true hstarted⟩
  rcases hL.rows s₀ hs₀ (hrebased.thread_eq ▸ hthread) with ⟨o, ho, hid⟩ | hnotYet | hcut | hended
  · exact absurd (hrebased.id_eq.trans hid ▸ List.mem_map_of_mem ho) hnot
  · rw [hrebased.start_eq] at hnotYet
    rcases hnotYet with hlater | ⟨p, hp, hstart⟩
    · have hlt := hlater (y + ir.origin) (by rw [hy, Option.map_some])
      omega
    · exact Or.inr ⟨p, hp, hstart.symm⟩
  · exact Or.inl (hrebased.completeness_eq.trans hcut)
  · obtain ⟨z, hz, hstop⟩ := hended
    rw [hrebased.stop_eq] at hstop
    obtain ⟨w, hw, hwz⟩ := Option.map_eq_some_iff.mp hstop
    rw [hw, Option.all_some, decide_eq_true_eq] at hlasts
    omega

/-- Once all frames are closed, the finished spans have distinct ids. -/
theorem finished_ids (hfin : Finished L ir) (hgrown : Grown L) (hopen : L.openIds = [])
    (hsmall : ir.spanCount < 2 ^ 32) : ((spanRowsOf ir).map FunctionSpan.id).Nodup := by
  obtain ⟨rows, hrows, hperm⟩ := hfin.rows
  have hlen : L.total = L.spans.length := by
    rw [total, allIds, hopen, List.append_nil, List.length_map]
  have hN := hgrown.2 (by rw [hlen, ← hgrown.1.reported, ← hfin.spanCount]; exact hsmall)
  have hids := hN.ids
  rw [allIds, hopen, List.append_nil] at hids
  have hmap : L.spans.map FunctionSpan.id = rows.map FunctionSpan.id :=
    forall₂_map_eq hrows fun s s' hs => hs.id_eq.symm
  exact ((hperm.map _).nodup_iff).mpr (hmap ▸ hids.nodup_iff.mpr List.nodup_range)

theorem idle_of_openIds (hF : Forest L) (hopen : L.openIds = []) : Idle k L := by
  intro l hl
  refine List.eq_nil_iff_forall_not_mem.mpr fun o ho => ?_
  have hmem := mem_openIds hF hl (List.mem_map_of_mem ho)
  rw [hopen] at hmem
  exact absurd hmem List.not_mem_nil

/-! ## The theorem -/

/-- The chain at an instant is the stack. -/
theorem chainAt_openFrames {analysis : String} {names inline : Nat → Option String}
    {only : Option ThreadId} {r₀ r₁ r : Reconstructor} {pre post : List RawRecord}
    {st : ThreadState} (hbuilt : Built r₀) (hpre : r₀.pushAll pre = .ok r₁)
    (hpost : r₁.pushAll post = .ok r) (hfinish : r.finish = .ok ir)
    (hasc : Ascending k (pre ++ post)) (hdiv : DividedAt k (ir.origin + atNs) pre post)
    (hst : r₁.threads.get k = some st) (hsole : SoleTid k (pre ++ post))
    (hsmall : ir.spanCount < 2 ^ 32) (hsel : ∀ T ∈ only, T = st.id) (hdepth : st.stack.length ≤ 65)
    (hnamed : NamedByThen ir st) (hunobscured : Unobscured ir atNs st) :
    chainAt (atInstantRows analysis (spanRowsOf ir) names atNs only inline) st.id =
      (st.stack.map fun o => functionName names o.function).reverse := by
  have hl : (ledger r₁).lanes k = some (laneOf st) := lanes_ledger.mpr ⟨st, hst, rfl⟩
  have hpast := past_pushAll hbuilt hpre hasc hdiv hsole
  have hL := later_closeAll hpast hpost hdiv hsole hl
  have hid : st.id = .task k.2 ((ledger r₁).gen k) := (hpast.own.lanes k _ hl).2
  -- What is known of the finished rows and of the stack at the instant.
  have hall : r₀.pushAll (pre ++ post) = .ok r := foldlM_append_ok.mpr ⟨r₁, hpre, hpost⟩
  have hchained : Chained st.stack := (pushAll_forest hbuilt hpre).chained k _ hl
  have hgrown : Grown (ledger r.closeAll) :=
    closeAll_entries (P := Grown) (fun _ _ (he : Entry (fun _ => True) _ _) => he.grown)
      (pushAll_entries (fun _ _ (he : Entry (fun _ => True) _ _) => he.grown)
        (fun _ _ _ _ => trivial) (hbuilt.ledger ▸ empty_grown _) hall)
  have hopen : (ledger r.closeAll).openIds = [] := closeAll_openIds
  have hfin := finish_finished (fun k hk => (hgrown.1.live k).mp hk) hfinish
  have hids := finished_ids hfin hgrown hopen hsmall
  obtain ⟨qs, hqs⟩ := exists_forall₂ (stack_spans hL hfin (idle_of_openIds hgrown.1 hopen)
    (hpast.frames _ hl))
  have hmem : ∀ q ∈ qs, q ∈ spanRowsOf ir := by
    intro q hq
    obtain ⟨o, -, hq, -⟩ := forall₂_mem_right hqs q hq
    exact hq
  have hspans : List.Forall₂ (SpanOf atNs st.id) st.stack qs :=
    hqs.imp fun o q h => hid ▸ h.2
  rw [← names_eq hspans names fun o ho hnone q hq => hnamed o ho hnone q (hmem q hq)]
  refine chainAt_stack hsel hids hmem (linked_of_chained hspans hchained)
    (hspans.length_eq ▸ hdepth) ?_ ?_
  · intro q hq
    obtain ⟨o, -, hspan⟩ := forall₂_mem_right hspans q hq
    exact hspan.candidate
  · intro s hs hcand hnot
    have hstray : Stray atNs st.id st.stack s := by
      refine ⟨hcand, fun hin => ?_⟩
      obtain ⟨o, ho, hso⟩ := List.mem_map.mp hin
      obtain ⟨q, hq, hspan⟩ := forall₂_mem_left hspans o ho
      have heq : s = q :=
        List.inj_on_of_nodup_map hids hs (hmem q hq) (hso.symm.trans hspan.id_eq.symm)
      exact hnot (heq ▸ hq)
    obtain ⟨top, htop, htopId, hbelow⟩ :=
      hunobscured s hs hstray (stray_endless hL hfin hs (hid ▸ hstray))
    have hhead : qs.head?.map FunctionSpan.id = some top.id := (head_id_eq hspans).trans htopId
    obtain ⟨q, hq, hqid⟩ := Option.map_eq_some_iff.mp hhead
    have heq : q = top := List.inj_on_of_nodup_map hids (hmem q (List.mem_of_mem_head? hq)) htop hqid
    exact ⟨q, hq, heq ▸ hbelow⟩

/-! ## Two streams -/

/-- A reconstructor that writes its rows out, unsorted. -/
def writing : Reconstructor := traced.withSpill (wordSize - 1) (fun _ => 1) fun _ => 1

/-- The state at the instant and the analysis of a stream cut in two there. -/
def runAt (pre post : List RawRecord) : Result (Reconstructor × AnalysisIr) := do
  let r₁ ← writing.pushAll pre
  let r ← r₁.pushAll post
  let ir ← r.finish
  pure (r₁, ir)

theorem runAt_ok {pre post : List RawRecord} {r₁ : Reconstructor}
    (h : runAt pre post = .ok (r₁, ir)) : writing.pushAll pre = .ok r₁ ∧
      ∃ r, r₁.pushAll post = .ok r ∧ r.finish = .ok ir := by
  obtain ⟨r₁', hpre, h⟩ := bind_ok.mp h
  obtain ⟨r, hpost, h⟩ := bind_ok.mp h
  obtain ⟨ir', hfinish, h⟩ := bind_ok.mp h
  cases h
  exact ⟨hpre, r, hpost, hfinish⟩

/-- `f` calls `g`, and `g` calls `f`; the instant is before the two returns. -/
def callsPre : List RawRecord :=
  [mapped, branchAt 1 10 .CALL 0x100 0x1100, branchAt 1 20 .CALL 0x1110 0x100]

def callsPost : List RawRecord :=
  [branchAt 1 30 .RETURN 0x110 0x1115, branchAt 1 40 .RETURN 0x1120 0x105]

/-- A decoder error takes the frames of both calls; then `f` calls `g` again. -/
def cutPre : List RawRecord := callsPre ++ [errorAt 1 25, branchAt 1 30 .CALL 0x110 0x1100]

def cutPost : List RawRecord := [branchAt 1 50 .RETURN 0x1110 0x115]

/-- The task of every record of both streams is `(7, 1)`. -/
theorem soleTid_of_keys {recs : List RawRecord}
    (h : recs.all (fun rec => (namedKey rec).all (· = k)) = true) : SoleTid k recs := by
  intro rec hrec k' hk' _
  have hkey := List.all_eq_true.mp h rec hrec
  rw [hk'] at hkey
  exact of_decide_eq_true hkey

theorem dividedAt_of_times {pre post : List RawRecord} (xs ys : List Nat)
    (hxs : sampleTimes k pre = xs.map some) (hys : sampleTimes k post = ys.map some)
    (hle : ∀ x ∈ xs, x ≤ t) (hlt : ∀ y ∈ ys, t < y)
    (htask : post.all (fun | .task _ => false | _ => true) = true) : DividedAt k t pre post := by
  refine ⟨fun x hx => ?_, fun y hy => ?_, fun e he => ?_⟩
  · rw [hxs, List.mem_map] at hx
    obtain ⟨x', hx', heq⟩ := hx
    exact Option.some_inj.mp heq ▸ hle x' hx'
  · rw [hys, List.mem_map] at hy
    obtain ⟨y', hy', heq⟩ := hy
    exact Option.some_inj.mp heq ▸ hlt y' hy'
  · cases List.all_eq_true.mp htask _ he

/-- `chainAt_openFrames` between the two calls and the two returns. -/
theorem chainAt_openFrames_calls : ∃ r₁ ir st, runAt callsPre callsPost = .ok (r₁, ir) ∧
    r₁.threads.get (7, 1) = some st ∧ st.stack.length = 2 ∧
      chainAt (atInstantRows "a" (spanRowsOf ir) (fun n => some s!"f{n}") 25 none fun _ => none)
        st.id = (st.stack.map fun o => functionName (fun n => some s!"f{n}") o.function).reverse := by
  obtain ⟨⟨r₁, ir⟩, hrun, htest⟩ := ok_of_any (x := runAt callsPre callsPost)
    (p := fun x => x.2.origin == 1 && x.2.spanCount == 2 &&
      (spanRowsOf x.2).all (fun s => s.completeness ≠ .interruptedByGap) &&
      (FastMap.get x.1.threads (7, 1)).any fun st =>
        st.pendingEnd.isNone && st.stack.length == 2 && st.stack.all (·.function.isSome))
    (by decide +kernel)
  simp only [Bool.and_eq_true, beq_iff_eq, List.all_eq_true, decide_eq_true_eq] at htest
  obtain ⟨⟨⟨horigin, hcount⟩, hwhole⟩, hstate⟩ := htest
  obtain ⟨hpre, r, hpost, hfinish⟩ := runAt_ok hrun
  cases hst : FastMap.get r₁.threads (7, 1) with
  | none =>
    rw [hst] at hstate
    cases hstate
  | some st =>
    rw [hst, Option.any_some] at hstate
    simp only [Bool.and_eq_true, beq_iff_eq, List.all_eq_true, Option.isNone_iff_eq_none]
      at hstate
    obtain ⟨⟨hpending, hlen⟩, hnamed⟩ := hstate
    refine ⟨r₁, ir, st, hrun, hst, hlen, ?_⟩
    -- the run divides at the instant 25, between the last call and the first return
    refine chainAt_openFrames (k := (7, 1)) (.withSpill _ _ _ (.new ..)) hpre hpost hfinish
      ⟨[10, 20, 30, 40], rfl, by decide⟩ ?_ hst (soleTid_of_keys rfl) ?_
      (fun T hT => absurd hT (Option.not_mem_none T)) ?_ ?_ ?_
    · rw [horigin]
      exact dividedAt_of_times [10, 20] [30, 40] rfl rfl (by decide) (by decide) rfl
    · rw [hcount]
      decide
    · rw [hlen]
      decide
    · intro o ho hnone
      have hsome := hnamed o ho
      rw [hnone] at hsome
      cases hsome
    · rintro s hs - (hcut | ⟨p, hp, -⟩)
      · exact absurd hcut (hwhole s hs)
      · rw [hpending] at hp
        cases hp

/-- After the error the thread has one open frame, and the chain shown is that
of the two interrupted ones. -/
theorem chainAt_interrupted : ∃ r₁ ir st, runAt cutPre cutPost = .ok (r₁, ir) ∧
    Ascending (7, 1) (cutPre ++ cutPost) ∧ DividedAt (7, 1) (ir.origin + 30) cutPre cutPost ∧
    r₁.threads.get (7, 1) = some st ∧
    (st.stack.map fun o => functionName (fun n => some s!"f{n}") o.function).reverse = ["f1"] ∧
    chainAt (atInstantRows "a" (spanRowsOf ir) (fun n => some s!"f{n}") 30 none fun _ => none)
      st.id = ["f1", "f0"] := by
  obtain ⟨⟨r₁, ir⟩, hrun, htest⟩ := ok_of_any (x := runAt cutPre cutPost)
    (p := fun x => x.2.origin == 1 && (FastMap.get x.1.threads (7, 1)).any fun st =>
      (st.stack.map fun o => functionName (fun n => some s!"f{n}") o.function).reverse == ["f1"] &&
      chainAt (atInstantRows "a" (spanRowsOf x.2) (fun n => some s!"f{n}") 30 none fun _ => none)
        st.id == ["f1", "f0"])
    (by decide +kernel)
  rw [Bool.and_eq_true, beq_iff_eq] at htest
  obtain ⟨horigin, hstate⟩ := htest
  cases hst : FastMap.get r₁.threads (7, 1) with
  | none =>
    rw [hst] at hstate
    cases hstate
  | some st =>
    rw [hst, Option.any_some, Bool.and_eq_true, beq_iff_eq, beq_iff_eq] at hstate
    refine ⟨r₁, ir, st, hrun, ⟨[10, 20, 30, 50], rfl, by decide⟩, ?_, hst, hstate⟩
    rw [horigin]
    exact dividedAt_of_times [10, 20, 30] [50] rfl rfl (by decide) (by decide) rfl

end TraceMcp.Service
