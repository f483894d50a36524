import TraceMcp.Analysis.Timeline

/-!
# Windows of a timeline

A range of time queried window by window: selections that follow each other,
each ending where the next one starts (`Divides`). `Selection::intersects` calls
itself half-open, but asks a span to end behind the start of the window, so a
span without duration is in none when it lies on a start; `contains_instant`
beside it counts the start in. `windows_lose_none_iff` says that these are the
spans that are lost, and those that start at the last instant there is.
-/

namespace TraceMcp

open TraceMcp.Lib

namespace Analysis

/-! ## Divisions -/

/-- Selections of a thread, each ending where the next one starts, from the
first one's start to the last one's end; neither need be given. -/
inductive Divides (thread : Option ThreadId) : Option Nat → List Selection → Option Nat → Prop
  | last (sel : Selection) (hthread : sel.threadId = thread)
    (hvalid : ∀ s e, sel.startNs = some s → sel.endNs = some e → s < e) :
    Divides thread sel.startNs [sel] sel.endNs
  | cons (sel : Selection) (hthread : sel.threadId = thread) {cut : Nat}
    (hcut : sel.endNs = some cut) (hvalid : ∀ s, sel.startNs = some s → s < cut)
    {rest : List Selection} {stop : Option Nat} (hrest : Divides thread (some cut) rest stop) :
    Divides thread sel.startNs (sel :: rest) stop

/-- Where a span starts, for a selection. -/
def spanFrom (sp : FunctionSpan) : Nat := sp.start.relativeNs.getD 0

/-- Where it stops. -/
def spanTo (sp : FunctionSpan) : Nat := sp.stop.relativeNs.getD (wordSize - 1)

def Selection.from (sel : Selection) : Nat := sel.startNs.getD 0

def Selection.to (sel : Selection) : Nat := sel.endNs.getD (wordSize - 1)

/-- A span's interval meets a range: it starts in front of the end and stops
behind the start, or it has no duration and lies in the range, start included. -/
def Meets (start stop : Option Nat) (sp : FunctionSpan) : Prop :=
  spanFrom sp ≤ spanTo sp ∧ (∀ e ∈ stop, spanFrom sp < e) ∧
    ∀ s ∈ start, if spanFrom sp < spanTo sp then s < spanTo sp else s ≤ spanFrom sp

/-- The span has no duration and lies on the start of a window. -/
def OnStart (sels : List Selection) (sp : FunctionSpan) : Prop :=
  spanFrom sp = spanTo sp ∧ ∃ sel ∈ sels, Selection.from sel = spanFrom sp

/-- Some window ends behind the start of the span. -/
def EndsBehind (sels : List Selection) (sp : FunctionSpan) : Prop :=
  ∃ sel ∈ sels, spanFrom sp < Selection.to sel

section Divisions

variable {thread : Option ThreadId} {start stop : Option Nat} {sels : List Selection}
  {sp : FunctionSpan}

theorem intersects_iff (sel : Selection) (sp : FunctionSpan) :
    sel.intersects sp.start.relativeNs sp.stop.relativeNs = true ↔
      spanFrom sp < Selection.to sel ∧ Selection.from sel < spanTo sp := by
  show (decide (spanFrom sp < Selection.to sel) && decide (Selection.from sel < spanTo sp)) = true ↔ _
  rw [Bool.and_eq_true, decide_eq_true_iff, decide_eq_true_iff]

theorem Divides.thread_eq (h : Divides thread start sels stop) {sel : Selection}
    (hsel : sel ∈ sels) : sel.threadId = thread := by
  induction h with
  | last sel' hthread hvalid =>
    rw [List.mem_singleton.mp hsel]
    exact hthread
  | cons sel' hthread hcut hvalid hrest ih =>
    rcases List.mem_cons.mp hsel with rfl | hsel
    · exact hthread
    · exact ih hsel

/-- No window starts in front of the first. -/
theorem Divides.start_le (h : Divides thread start sels stop) {sel : Selection}
    (hsel : sel ∈ sels) : start.getD 0 ≤ Selection.from sel := by
  induction h with
  | last sel' hthread hvalid =>
    rw [List.mem_singleton.mp hsel]
    exact Nat.le_refl _
  | cons sel' hthread hcut hvalid hrest ih =>
    rcases List.mem_cons.mp hsel with rfl | hsel
    · exact Nat.le_refl _
    · refine le_trans ?_ (ih hsel)
      cases hstart : sel'.startNs with
      | none => exact Nat.zero_le _
      | some s => exact (hvalid s hstart).le

/-- A span that meets the range of a window and is not on its start stops behind it. -/
theorem from_lt_spanTo {sel : Selection} (hmeets : Meets sel.startNs stop sp)
    (hstart : ¬ (spanFrom sp = spanTo sp ∧ Selection.from sel = spanFrom sp)) :
    Selection.from sel < spanTo sp := by
  obtain ⟨hle, -, hin⟩ := hmeets
  unfold Selection.from at hstart ⊢
  cases hs : sel.startNs with
  | none =>
    rw [hs] at hstart
    have h0 : ¬ (spanFrom sp = spanTo sp ∧ 0 = spanFrom sp) := hstart
    show 0 < spanTo sp
    omega
  | some s =>
    rw [hs] at hstart hin
    have h0 : ¬ (spanFrom sp = spanTo sp ∧ s = spanFrom sp) := hstart
    have hs' := hin s rfl
    show s < spanTo sp
    split at hs'
    · exact hs'
    · omega

/-- A span that meets the range is in the first window that ends behind its
start, unless it lies on a start without duration. -/
theorem Divides.exists_intersects (h : Divides thread start sels stop)
    (hmeets : Meets start stop sp) (hend : EndsBehind sels sp) (hstart : ¬ OnStart sels sp) :
    ∃ sel ∈ sels, sel.intersects sp.start.relativeNs sp.stop.relativeNs = true := by
  induction h with
  | last sel hthread hvalid =>
    obtain ⟨sel', hsel', hlt⟩ := hend
    obtain rfl : sel' = sel := List.mem_singleton.mp hsel'
    refine ⟨sel', hsel', (intersects_iff sel' sp).mpr ⟨hlt, from_lt_spanTo hmeets fun hon => ?_⟩⟩
    exact hstart ⟨hon.1, sel', hsel', hon.2⟩
  | @cons sel hthread cut hcut hvalid rest stop hrest ih =>
    by_cases hlt : spanFrom sp < cut
    · refine ⟨sel, List.mem_cons_self, (intersects_iff sel sp).mpr ⟨?_, ?_⟩⟩
      · rw [Selection.to, hcut]
        exact hlt
      · exact from_lt_spanTo hmeets fun hon => hstart ⟨hon.1, sel, List.mem_cons_self, hon.2⟩
    · -- it starts behind this window: the others divide what it still meets
      obtain ⟨hle, hbefore, -⟩ := hmeets
      have hmeets' : Meets (some cut) stop sp := by
        refine ⟨hle, hbefore, fun s hs => ?_⟩
        obtain rfl : cut = s := Option.some.inj hs
        split <;> omega
      have hend' : EndsBehind rest sp := by
        obtain ⟨sel', hsel', hlt'⟩ := hend
        rcases List.mem_cons.mp hsel' with rfl | hsel'
        · rw [Selection.to, hcut] at hlt'
          exact absurd hlt' hlt
        · exact ⟨sel', hsel', hlt'⟩
      have hstart' : ¬ OnStart rest sp := by
        rintro ⟨hzero, sel', hsel', hon⟩
        exact hstart ⟨hzero, sel', List.mem_cons_of_mem _ hsel', hon⟩
      obtain ⟨sel', hsel', hin⟩ := ih hmeets' hend' hstart'
      exact ⟨sel', List.mem_cons_of_mem _ hsel', hin⟩

/-- A span without duration on the start of a window is in none. -/
theorem Divides.not_intersects (h : Divides thread start sels stop) (hon : OnStart sels sp)
    {sel : Selection} (hsel : sel ∈ sels) :
    sel.intersects sp.start.relativeNs sp.stop.relativeNs ≠ true := by
  obtain ⟨hzero, sel₀, hsel₀, heq⟩ := hon
  rw [Ne, intersects_iff]
  rintro ⟨hlt, hgt⟩
  induction h with
  | last sel' hthread hvalid =>
    rw [List.mem_singleton.mp hsel] at hgt
    rw [List.mem_singleton.mp hsel₀] at heq
    omega
  | @cons sel' hthread cut hcut hvalid rest stop hrest ih =>
    have hbehind : ∀ w ∈ rest, cut ≤ Selection.from w := fun w hw => hrest.start_le hw
    rcases List.mem_cons.mp hsel with rfl | hrest'
    · rcases List.mem_cons.mp hsel₀ with rfl | hrest₀
      · omega
      · have hcut₀ := hbehind sel₀ hrest₀
        rw [Selection.to, hcut] at hlt
        have hlt' : spanFrom sp < cut := hlt
        omega
    · rcases List.mem_cons.mp hsel₀ with rfl | hrest₀
      · have hcut' := hbehind sel hrest'
        -- the window of `sp` ends where the others start
        cases hs : sel₀.startNs with
        | none =>
          have h0 : Selection.from sel₀ = 0 := by rw [Selection.from, hs]; rfl
          omega
        | some s =>
          have h0 : Selection.from sel₀ = s := by rw [Selection.from, hs]; rfl
          have hs' := hvalid s hs
          omega
      · exact ih hrest' hrest₀

/-- The spans of a range that are in some window. -/
theorem Divides.intersects_iff (h : Divides thread start sels stop)
    (hmeets : Meets start stop sp) :
    (∃ sel ∈ sels, sel.intersects sp.start.relativeNs sp.stop.relativeNs = true) ↔
      EndsBehind sels sp ∧ ¬ OnStart sels sp := by
  constructor
  · rintro ⟨sel, hsel, hin⟩
    exact ⟨⟨sel, hsel, ((Analysis.intersects_iff sel sp).mp hin).1⟩,
      fun hon => h.not_intersects hon hsel hin⟩
  · rintro ⟨hend, hstart⟩
    exact h.exists_intersects hmeets hend hstart

end Divisions

/-! ## Rows -/

/-- What the timeline asks of a span besides the window: its thread and the filters. -/
def passes (names : Names) (thread : Option ThreadId) (opts : TimelineOptions)
    (sp : FunctionSpan) : Bool :=
  thread.all (sp.thread = ·) &&
    opts.functionContains.all (fun f => (nameOf names sp).any fun n => containsStr n f) &&
    opts.minDurationNs.all fun min =>
      match sp.start.relativeNs, sp.stop.relativeNs with
      | some s, some e => min ≤ e - s
      | _, _ => false

theorem timelineKeeps_eq (names : Names) (sel : Selection) (opts : TimelineOptions)
    (sp : FunctionSpan) :
    timelineKeeps names sel opts sp =
      (sel.intersects sp.start.relativeNs sp.stop.relativeNs &&
        passes names sel.threadId opts sp) := by
  have hswap : ∀ a b c d : Bool, (a && b && c && d) = (b && (a && c && d)) := by decide
  exact hswap _ _ _ _

/-- Whether a span is kept can be read off its row. -/
theorem timelineKeeps_of_row {analysis : String} {names : Names} {sel : Selection}
    {opts : TimelineOptions} {sp sp' : FunctionSpan}
    (h : timelineRow analysis names sel sp = timelineRow analysis names sel sp') :
    timelineKeeps names sel opts sp = timelineKeeps names sel opts sp' := by
  have hthread : sp.thread = sp'.thread := congrArg TimelineRow.threadId h
  have hname : nameOf names sp = nameOf names sp' := congrArg TimelineRow.function h
  have hstart : sp.start.relativeNs = sp'.start.relativeNs := congrArg TimelineRow.startNs h
  have hstop : sp.stop.relativeNs = sp'.stop.relativeNs := congrArg TimelineRow.endNs h
  unfold timelineKeeps
  rw [hthread, hname, hstart, hstop]

/-- The timeline has a span's row exactly if it keeps the span. -/
theorem mem_timelineRowsWith {analysis : String} {spans : List FunctionSpan} {names : Names}
    {sel : Selection} {opts : TimelineOptions} {sp : FunctionSpan} (hsp : sp ∈ spans) :
    timelineRow analysis names sel sp ∈ timelineRowsWith analysis spans names sel opts ↔
      timelineKeeps names sel opts sp = true := by
  unfold timelineRowsWith
  rw [List.mem_mergeSort, List.mem_map]
  constructor
  · rintro ⟨sp', hsp', hrow⟩
    rw [← timelineKeeps_of_row hrow]
    exact (List.mem_filter.mp hsp').2
  · intro hkeep
    exact ⟨sp, List.mem_filter.mpr ⟨hsp, hkeep⟩, rfl⟩

/-- Over every division of a range, the spans that meet it and pass the filters
are all in the timeline of some window exactly when none of them lies on the
start of a window without duration, or starts where no window reaches. -/
theorem windows_lose_none_iff {thread : Option ThreadId} {start stop : Option Nat}
    {sels : List Selection} (hsels : Divides thread start sels stop) (analysis : String)
    (spans : List FunctionSpan) (names : Names) (opts : TimelineOptions) :
    (∀ sp ∈ spans, Meets start stop sp → passes names thread opts sp = true →
      ∃ sel ∈ sels, timelineRow analysis names sel sp ∈
        timelineRowsWith analysis spans names sel opts) ↔
    ∀ sp ∈ spans, Meets start stop sp → passes names thread opts sp = true →
      EndsBehind sels sp ∧ ¬ OnStart sels sp := by
  refine forall_congr' fun sp => forall_congr' fun hsp => forall_congr' fun hmeets =>
    forall_congr' fun hpass => ?_
  rw [← hsels.intersects_iff hmeets]
  refine exists_congr fun sel => and_congr_right fun hsel => ?_
  rw [mem_timelineRowsWith hsp, timelineKeeps_eq, hsels.thread_eq hsel, hpass, Bool.and_true]

/-! ### A span on a boundary -/

/-- A branch at time 10. -/
def momentary : FunctionSpan where
  id := 0
  thread := .task 7 0
  function := none
  parent := none
  start := .estimate 10
  stop := .estimate 10
  completeness := .complete
  evidence := (0, 0)
  callSite := none

/-- The range from 0 to 20 in two windows. -/
def twoWindows : List Selection := [⟨none, some 0, some 10⟩, ⟨none, some 10, some 20⟩]

theorem divides_twoWindows : Divides none (some 0) twoWindows (some 20) := by
  refine .cons ⟨none, some 0, some 10⟩ rfl rfl (fun s hs => ?_)
    (.last ⟨none, some 10, some 20⟩ rfl fun s e hs he => ?_)
  · obtain rfl := Option.some.inj hs
    decide
  · obtain rfl := Option.some.inj hs
    obtain rfl := Option.some.inj he
    decide

theorem windows_lose_none_iff_two :
    (∀ sp ∈ [momentary], Meets (some 0) (some 20) sp →
      passes ∅ none .default sp = true →
      ∃ sel ∈ twoWindows, timelineRow "a" ∅ sel sp ∈ timelineRowsWith "a" [momentary] ∅ sel .default) ↔
    ∀ sp ∈ [momentary], Meets (some 0) (some 20) sp →
      passes ∅ none .default sp = true → EndsBehind twoWindows sp ∧ ¬ OnStart twoWindows sp :=
  windows_lose_none_iff divides_twoWindows "a" [momentary] ∅ .default

/-- It is in the timeline of neither window. -/
theorem windows_lose_momentary :
    ¬ ∀ (thread : Option ThreadId) (start stop : Option Nat) (sels : List Selection),
      Divides thread start sels stop → ∀ (analysis : String) (spans : List FunctionSpan)
        (names : Names) (opts : TimelineOptions), ∀ sp ∈ spans, Meets start stop sp →
        passes names thread opts sp = true →
        ∃ sel ∈ sels, timelineRow analysis names sel sp ∈
          timelineRowsWith analysis spans names sel opts := by
  intro h
  have hmeets : Meets (some 0) (some 20) momentary := by
    refine ⟨Nat.le_refl 10, fun e he => ?_, fun s hs => ?_⟩
    · obtain rfl := Option.some.inj he
      decide
    · obtain rfl := Option.some.inj hs
      exact Nat.zero_le 10
  obtain ⟨sel, hsel, hrow⟩ := h none (some 0) (some 20) twoWindows divides_twoWindows "a"
    [momentary] ∅ .default momentary (List.mem_singleton_self _) hmeets rfl
  have hkeep := (mem_timelineRowsWith (List.mem_singleton_self momentary)).mp hrow
  have hnone : ∀ sel ∈ twoWindows, timelineKeeps ∅ sel .default momentary = false := by decide
  rw [hnone sel hsel] at hkeep
  cases hkeep

end Analysis

end TraceMcp
