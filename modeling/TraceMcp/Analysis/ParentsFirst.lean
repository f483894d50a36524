import TraceMcp.Analysis.SpanOrder
import TraceMcp.Decode.Starts

/-!
# Parents before children

The timeline is sorted by start, and a span never starts before its parent
(`finish_begins`). Between the two only a tie is left, which is common: a call
and the call it makes at once have one time at the granularity of the trace.
There the texts of the ids decide, and `sp10` comes before `sp9`. So the
timeline lists parents first just where no such tie is decided the wrong way
(`parentsFirst_iff`).
-/

namespace TraceMcp.Analysis

open TraceMcp.Lib TraceMcp.Decode

variable {analysis : String} {names : Names} {sel : Selection} {opts : TimelineOptions}
  {spans : List FunctionSpan}

/-- No row comes before its parent's. -/
def ParentsFirst (rows : List TimelineRow) : Prop :=
  rows.Pairwise fun a b => a.parent ≠ some b.spanId

/-! ## Texts of ids -/

theorem repr_inj {m n : Nat} (h : Nat.repr m = Nat.repr n) : m = n := by
  have hdigits : Nat.toDigits 10 m = Nat.toDigits 10 n := by
    rw [← Nat.toList_repr, ← Nat.toList_repr, h]
  have hvalue := congrArg (Nat.ofDigitChars 10 · 0) hdigits
  simpa only [Nat.ofDigitChars_ten_toDigits] using hvalue

theorem spanText_inj {m n : LocalId} (h : spanText analysis m = spanText analysis n) : m = n := by
  have htext : analysis ++ ":sp" ++ Nat.repr m = analysis ++ ":sp" ++ Nat.repr n := h
  exact repr_inj ((String.append_right_inj _).mp htext)

/-! ## The order of the rows -/

theorem timelineRowLe_trans (a b c : TimelineRow) (hab : timelineRowLe a b = true)
    (hbc : timelineRowLe b c = true) : timelineRowLe a c = true := by
  refine thenBy_trans optionLe_antisymm optionLe_trans (fun x y z hxy hyz => ?_) a b c hab hbc
  exact decide_eq_true (le_trans (of_decide_eq_true hxy) (of_decide_eq_true hyz))

theorem timelineRowLe_total (a b : TimelineRow) :
    (timelineRowLe a b || timelineRowLe b a) = true := by
  refine thenBy_total optionLe_total (fun x y => ?_) a b
  rcases le_total x.spanId y.spanId with h | h <;> simp [h]

theorem timelineRows_sorted :
    (timelineRowsWith analysis spans names sel opts).Pairwise fun a b => timelineRowLe a b = true :=
  List.pairwise_mergeSort timelineRowLe_trans timelineRowLe_total _

theorem mem_timelineRows {row : TimelineRow} :
    row ∈ timelineRowsWith analysis spans names sel opts ↔
      ∃ sp ∈ spans.filter (timelineKeeps names sel opts),
        timelineRow analysis names sel sp = row := by
  rw [timelineRowsWith, List.mem_mergeSort, List.mem_map]

/-- Of two rows whose order is decided, the one that comes before the other is
listed first. -/
theorem listed_before {rows : List TimelineRow} {a b : TimelineRow}
    (hsorted : rows.Pairwise fun a b => timelineRowLe a b = true) (ha : a ∈ rows) (hb : b ∈ rows)
    (hba : timelineRowLe b a = false) (hfirst : ParentsFirst rows) : a.parent ≠ some b.spanId := by
  have hne : a ≠ b := by
    rintro rfl
    have htotal := timelineRowLe_total a a
    rw [hba] at htotal
    cases htotal
  rcases pairwise_either (hsorted.and hfirst) ha hb hne with ⟨-, hparent⟩ | ⟨hle, -⟩
  · exact hparent
  · rw [hba] at hle
    cases hle

/-- A tie that the texts decide the wrong way: the row comes before its
parent's. -/
theorem not_parentsFirst_of_tie {s q : FunctionSpan}
    (hs : s ∈ spans.filter (timelineKeeps names sel opts))
    (hq : q ∈ spans.filter (timelineKeeps names sel opts)) (hparent : s.parent = some q.id)
    (hstart : s.start.relativeNs = q.start.relativeNs)
    (htext : spanText analysis s.id < spanText analysis q.id) :
    ¬ ParentsFirst (timelineRowsWith analysis spans names sel opts) := by
  intro hfirst
  have hback : timelineRowLe (timelineRow analysis names sel q) (timelineRow analysis names sel s)
      = false := by
    have hkey : (timelineRow analysis names sel q).startNs
        = (timelineRow analysis names sel s).startNs := hstart.symm
    rw [timelineRowLe, thenBy, if_pos hkey]
    exact decide_eq_false (not_le_of_gt htext)
  apply listed_before timelineRows_sorted (mem_timelineRows.mpr ⟨s, hs, rfl⟩)
    (mem_timelineRows.mpr ⟨q, hq, rfl⟩) hback hfirst
  show s.parent.map (spanText analysis) = some (spanText analysis q.id)
  rw [hparent]
  rfl

/-! ## The timeline of an analysis -/

variable {r₀ r : Reconstructor} {recs : List RawRecord} {ir : AnalysisIr}

/-- In an analysis of fewer than `2^32` spans from a steady stream, the
timeline of any of its spans, in any order and through any selection and
filter, lists parents first exactly when no span that is listed starts together
with its parent and has the smaller text of an id. -/
theorem parentsFirst_iff (hbuilt : Built r₀) (hpush : r₀.pushAll recs = .ok r)
    (hfin : r.finish = .ok ir) (hsteady : SteadyStream r₀ recs) (hsmall : ir.spanCount < 2 ^ 32)
    (hspans : spans ⊆ spanRowsOf ir) :
    ParentsFirst (timelineRowsWith analysis spans names sel opts) ↔
      ∀ s ∈ spans.filter (timelineKeeps names sel opts),
        ∀ q ∈ spans.filter (timelineKeeps names sel opts), s.parent = some q.id →
          s.start.relativeNs = q.start.relativeNs →
            spanText analysis q.id ≤ spanText analysis s.id := by
  constructor
  · intro hfirst s hs q hq hparent hstart
    by_contra htext
    exact not_parentsFirst_of_tie hs hq hparent hstart (lt_of_not_ge htext) hfirst
  · intro htexts
    refine timelineRows_sorted.imp_of_mem fun {a b} ha hb hle hparent => ?_
    obtain ⟨s, hs, rfl⟩ := mem_timelineRows.mp ha
    obtain ⟨q, hq, rfl⟩ := mem_timelineRows.mp hb
    obtain ⟨p, hp, hpq⟩ := Option.map_eq_some_iff.mp hparent
    obtain rfl : p = q.id := spanText_inj hpq
    obtain ⟨⟨x, y, hx, hy, hxy⟩, hlt⟩ := finish_begins hbuilt hpush hfin hsteady hsmall s
      (hspans (List.mem_filter.mp hs).1) q (hspans (List.mem_filter.mp hq).1) hp
    -- the row is not later than its parent's, so the two tie
    have hback : optionLe q.start.relativeNs s.start.relativeNs = true := by
      rw [hx, hy]
      exact decide_eq_true hxy
    have hstart : s.start.relativeNs = q.start.relativeNs := by
      by_contra hne
      have hkey : (timelineRow analysis names sel s).startNs
          ≠ (timelineRow analysis names sel q).startNs := hne
      rw [timelineRowLe, thenBy, if_neg hkey] at hle
      exact hne (optionLe_antisymm _ _ hle hback)
    have hkey : (timelineRow analysis names sel s).startNs
        = (timelineRow analysis names sel q).startNs := hstart
    rw [timelineRowLe, thenBy, if_pos hkey] at hle
    have htie := le_antisymm (of_decide_eq_true hle) (htexts s hs q hq hp hstart)
    exact absurd (spanText_inj htie) (Nat.ne_of_gt hlt)

/-- Eleven nested calls, the last two within one time step. -/
def nestedEleven : List RawRecord :=
  (List.range 11).map fun i => branchAt 1 (min (10 * (i + 1)) 100) .CALL 100 200

/-- A reconstructor that spills its rows, which it lists as they are completed. -/
def spilling : Reconstructor := bare.withSpill 4096 (fun _ => 96) fun _ => 112

/-- The spans of the eleven calls: id, parent, start and end. -/
def nestedSpans : List (LocalId × Option LocalId × Option Nat × Option Nat) :=
  (List.range 11).reverse.map fun i =>
    (i, if i = 0 then none else some (i - 1), some (min (10 * (i + 1)) 100 - 10), none)

theorem nestedEleven_ok : ∃ r ir, spilling.pushAll nestedEleven = .ok r ∧ r.finish = .ok ir ∧
    ir.spanCount = 11 ∧ (spanRowsOf ir).map (fun s =>
      (s.id, s.parent, s.start.relativeNs, s.stop.relativeNs)) = nestedSpans := by
  obtain ⟨ir, hir, htest⟩ := ok_of_any
    (x := spilling.pushAll nestedEleven >>= Reconstructor.finish)
    (p := fun ir => decide (ir.spanCount = 11 ∧ (spanRowsOf ir).map (fun s =>
      (s.id, s.parent, s.start.relativeNs, s.stop.relativeNs)) = nestedSpans))
    (by decide +kernel)
  obtain ⟨r, hr, hfin⟩ := bind_ok.mp hir
  obtain ⟨hcount, hrows⟩ := of_decide_eq_true htest
  exact ⟨r, ir, hr, hfin, hcount, hrows⟩

theorem keeps_everything {s : FunctionSpan} {t : Nat} (hstart : s.start.relativeNs = some t)
    (hstop : s.stop.relativeNs = none) (ht : t < wordSize - 1) :
    timelineKeeps names everything .default s = true := by
  simp [timelineKeeps, everything, TimelineOptions.default, Selection.intersects, hstart, hstop, ht]
  decide

/-- The eleventh call is listed before its caller, the tenth. -/
theorem parentsFirst_eleven : ∃ r ir, spilling.pushAll nestedEleven = .ok r ∧
    r.finish = .ok ir ∧
      ¬ ParentsFirst (timelineRowsWith "a" (spanRowsOf ir) ∅ everything .default) := by
  obtain ⟨r, ir, hr, hfin, -, hrows⟩ := nestedEleven_ok
  refine ⟨r, ir, hr, hfin, ?_⟩
  have hmem : ∀ row ∈ nestedSpans, ∃ s ∈ spanRowsOf ir,
      (s.id, s.parent, s.start.relativeNs, s.stop.relativeNs) = row := fun row hrow =>
    List.mem_map.mp (hrows ▸ hrow)
  obtain ⟨s, hs, hsrow⟩ := hmem (10, some 9, some 90, none) (by decide)
  obtain ⟨q, hq, hqrow⟩ := hmem (9, some 8, some 90, none) (by decide)
  simp only [Prod.mk.injEq] at hsrow hqrow
  obtain ⟨hsid, hsparent, hsstart, hsstop⟩ := hsrow
  obtain ⟨hqid, -, hqstart, hqstop⟩ := hqrow
  have hkept : ∀ x ∈ spanRowsOf ir, x.start.relativeNs = some 90 → x.stop.relativeNs = none →
      x ∈ (spanRowsOf ir).filter (timelineKeeps ∅ everything .default) := fun x hx hstart hstop =>
    List.mem_filter.mpr ⟨hx, keeps_everything hstart hstop (by decide)⟩
  apply not_parentsFirst_of_tie (hkept s hs hsstart hsstop) (hkept q hq hqstart hqstop)
  · rw [hsparent, hqid]
  · rw [hsstart, hqstart]
  · rw [hsid, hqid]
    decide

theorem nestedEleven_forward : Forward nestedEleven := by
  intro k
  by_cases hk : ((7, 1) : Key) = k
  · subst hk
    exact ⟨[10, 20, 30, 40, 50, 60, 70, 80, 90, 100, 100], by decide, by decide⟩
  · refine ⟨[], List.filterMap_eq_nil_iff.mpr fun rec hrec => ?_, .nil⟩
    obtain ⟨i, -, rfl⟩ := List.mem_map.mp hrec
    exact if_neg hk

/-- `parentsFirst_iff` on the eleven calls. -/
theorem parentsFirst_iff_eleven : ∃ r ir, spilling.pushAll nestedEleven = .ok r ∧
    r.finish = .ok ir ∧
      (ParentsFirst (timelineRowsWith "a" (spanRowsOf ir) ∅ everything .default) ↔
        ∀ s ∈ (spanRowsOf ir).filter (timelineKeeps ∅ everything .default),
          ∀ q ∈ (spanRowsOf ir).filter (timelineKeeps ∅ everything .default),
            s.parent = some q.id → s.start.relativeNs = q.start.relativeNs →
              spanText "a" q.id ≤ spanText "a" s.id) := by
  obtain ⟨r, ir, hr, hfin, hcount, -⟩ := nestedEleven_ok
  have hbuilt : Built spilling := .withSpill _ _ _ (.new ..)
  exact ⟨r, ir, hr, hfin, parentsFirst_iff hbuilt hr hfin (nestedEleven_forward.steady hbuilt)
    (by rw [hcount]; decide) fun _ hs => hs⟩

end TraceMcp.Analysis
