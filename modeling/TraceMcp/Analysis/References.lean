import TraceMcp.Analysis.Timeline
import TraceMcp.Lib.Numeral
import TraceMcp.Lib.Split
import TraceMcp.Service.Confinement

/-!
# References

The identities that reports print and queries read again: `NamespacedId` of
`src/model/ids.rs`, written `ANALYSIS:KIND` and a number, and the event range
`ANALYSIS:eX-eY` that the timeline gives as the evidence of a span and
`parse_event_range` of `src/analysis/source.rs` takes apart.

The first is split at the last colon, which an analysis id may contain as it
likes. The range is split at the first `-e`, which an analysis id may contain
as well. The kind is cut off at a byte position, which need not be one where a
text can be cut: `none` stands for the panic of `split_at`.
-/

namespace TraceMcp

open TraceMcp.Lib

/-! ## Namespaced ids -/

inductive IdKind
  | event
  | span
  | function
  | location
  | gap
  deriving DecidableEq

/-- `IdKind::tag`. -/
def IdKind.tag : IdKind → String
  | .event => "e"
  | .span => "sp"
  | .function => "f"
  | .location => "l"
  | .gap => "g"

/-- `IdKind::parse`. -/
def IdKind.parse (s : String) : Option IdKind :=
  if s = "e" then some .event
  else if s = "sp" then some .span
  else if s = "f" then some .function
  else if s = "l" then some .location
  else if s = "g" then some .gap
  else none

structure NamespacedId where
  analysis : AnalysisId
  kind : IdKind
  localId : LocalId
  deriving DecidableEq

/-- `NamespacedId::render`. -/
def NamespacedId.render (id : NamespacedId) : String :=
  s!"{id.analysis.raw}:{id.kind.tag}{id.localId}"

/-- What comes behind the analysis: a kind and a number, in a text that is shown in errors. -/
def parseLocal (s : String) (analysis kindS num : List Char) : Result NamespacedId :=
  match IdKind.parse (String.ofList kindS) with
  | none => .error (.invalidArgument s!"unknown id kind in {s}")
  | some kind =>
    match Text.parseU32 num with
    | none => .error (.invalidArgument s!"invalid local id in {s}")
    | some n => (AnalysisId.fromRaw (String.ofList analysis)).map fun a => ⟨a, kind, n⟩

/-- `parse_namespaced`; `none` if it panics. -/
def parseNamespaced (s : String) : Option (Result NamespacedId) :=
  match Text.rsplitOnce ':' s.toList with
  | none => some (.error (.invalidArgument s!"expected namespaced id, got {s}"))
  | some (analysis, rest) =>
    let kindLen := if ['s', 'p'] <+: rest then 2 else 1
    (Text.splitAtBytes kindLen rest).map fun p => parseLocal s analysis p.1 p.2

/-- `parse_event_range`; `none` if it panics. -/
def parseEventRange (raw : String) : Option (Option (LocalId × LocalId)) :=
  match Text.splitOnce ['-', 'e'] raw.toList with
  | none => some none
  | some (left, right) =>
    match parseNamespaced (String.ofList left) with
    | none => none
    | some (.error _) => some none
    | some (.ok start) =>
      if start.kind ≠ .event then some none
      else some ((Text.parseU32 right).map fun stop => (start.localId, stop))

/-! ## Where texts are cut -/

/-- The text behind the last colon is empty, or starts with a character of more
than one byte. -/
def CutsWrongly (s : List Char) : Prop :=
  ∃ l r, s = l ++ ':' :: r ∧ ':' ∉ r ∧ ∀ c r', r = c :: r' → 1 < c.utf8Size

theorem splitAtBytes_one (c : Char) (s : List Char) :
    Text.splitAtBytes 1 (c :: s) = if 1 < c.utf8Size then none else some ([c], s) := by
  have hpos : 0 < c.utf8Size := c.utf8Size_pos
  rw [Text.splitAtBytes]
  by_cases h : 1 < c.utf8Size
  · rw [if_pos h, if_neg (by omega)]
  · have hone : c.utf8Size = 1 := by omega
    rw [if_neg h, if_pos (by omega), hone]
    show (Text.splitAtBytes 0 s).map _ = _
    rw [Text.splitAtBytes]
    rfl

theorem splitAtBytes_sp (s : List Char) :
    Text.splitAtBytes 2 ('s' :: 'p' :: s) = some (['s', 'p'], s) := by
  have hs : 's'.utf8Size = 1 := by decide
  rw [Text.splitAtBytes, hs, if_pos (by decide)]
  show (Text.splitAtBytes 1 ('p' :: s)).map _ = _
  rw [splitAtBytes_one, if_neg (by decide)]
  rfl

/-- `parse_namespaced` panics exactly where it cuts wrongly. -/
theorem parseNamespaced_eq_none (s : String) :
    parseNamespaced s = none ↔ CutsWrongly s.toList := by
  unfold parseNamespaced
  rcases Text.rsplitOnce_spec ':' s.toList with ⟨hno, heq⟩ | ⟨l, r, hs, hr, heq⟩
  · rw [heq]
    refine iff_of_false (fun h => by cases h) ?_
    rintro ⟨l, r, hs, -⟩
    rw [hs] at hno
    exact hno (List.mem_append_right _ List.mem_cons_self)
  · rw [heq]
    dsimp only
    rw [Option.map_eq_none_iff]
    -- the last colon is the one the text is split at
    have hcuts : CutsWrongly s.toList ↔ ∀ c r', r = c :: r' → 1 < c.utf8Size := by
      constructor
      · rintro ⟨l', r', hs', hr', hwide⟩
        have hsame := Text.rsplitOnce_append (p := l') hr'
        rw [← hs', heq] at hsame
        cases hsame
        exact hwide
      · exact fun hwide => ⟨l, r, hs, hr, hwide⟩
    rw [hcuts]
    cases r with
    | nil => exact iff_of_true rfl fun c r' h => by cases h
    | cons c r =>
      by_cases hsp : ['s', 'p'] <+: c :: r
      · rw [if_pos hsp]
        obtain ⟨t, ht⟩ := hsp
        cases ht
        refine iff_of_false (fun h => ?_) fun hwide => absurd (hwide 's' _ rfl) (by decide)
        cases h.symm.trans (splitAtBytes_sp t)
      · rw [if_neg hsp, splitAtBytes_one]
        by_cases hwide : 1 < c.utf8Size
        · rw [if_pos hwide]
          refine iff_of_true rfl fun c' r' h => ?_
          cases h
          exact hwide
        · rw [if_neg hwide]
          exact iff_of_false (fun h => by cases h) fun h => hwide (h c r rfl)

theorem parseEventRange_eq_none (raw : String) :
    parseEventRange raw = none ↔
      ∃ left right, Text.splitOnce ['-', 'e'] raw.toList = some (left, right) ∧
        CutsWrongly left := by
  unfold parseEventRange
  cases hsplit : Text.splitOnce ['-', 'e'] raw.toList with
  | none =>
    refine iff_of_false (fun h => by cases h) ?_
    rintro ⟨left, right, heq, -⟩
    cases heq
  | some parts =>
    obtain ⟨left, right⟩ := parts
    dsimp only
    have hleft := parseNamespaced_eq_none (String.ofList left)
    rw [String.toList_ofList] at hleft
    have hcuts : (∃ left' right', some (left, right) = some (left', right') ∧ CutsWrongly left') ↔
        CutsWrongly left := by
      constructor
      · rintro ⟨left', right', heq, h⟩
        cases heq
        exact h
      · exact fun h => ⟨left, right, rfl, h⟩
    rw [hcuts, ← hleft]
    cases parseNamespaced (String.ofList left) with
    | none => exact iff_of_true rfl rfl
    | some res =>
      refine iff_of_false (fun h => ?_) fun h => by cases h
      cases res with
      | error err => cases h
      | ok start =>
        dsimp only at h
        split at h <;> cases h

/-! ## Round trips -/

section RoundTrip

variable {a : AnalysisId}

/-- An id that `from_raw` accepts. -/
def AnalysisId.Accepted (a : AnalysisId) : Prop := AnalysisId.fromRaw a.raw = .ok a

theorem colon_notMem_decimal (n : Nat) : ':' ∉ Text.decimal n := by
  intro hmem
  rw [← Text.toDigits_eq_decimal] at hmem
  have hdigit := Nat.isDigit_of_mem_toDigits (by decide) (by decide) hmem
  cases hdigit

theorem toList_render (id : NamespacedId) :
    id.render.toList =
      id.analysis.raw.toList ++ ':' :: (id.kind.tag.toList ++ Text.decimal id.localId) := by
  unfold NamespacedId.render
  simp only [String.toList_append, Text.toList_toString]
  rw [List.append_assoc, List.append_assoc]
  rfl

/-- The analysis id of a text that has a kind and a number behind its last colon. -/
theorem parseNamespaced_append {s : String} {l r : List Char} {p : List Char × List Char}
    (hs : s.toList = l ++ ':' :: r) (hr : ':' ∉ r)
    (hp : Text.splitAtBytes (if ['s', 'p'] <+: r then 2 else 1) r = some p) :
    parseNamespaced s = some (parseLocal s l p.1 p.2) := by
  unfold parseNamespaced
  rw [hs, Text.rsplitOnce_append hr]
  dsimp only
  rw [hp]
  rfl

/-- The tag of a kind is cut off again. -/
theorem splitAtBytes_tag (kind : IdKind) (n : Nat) :
    Text.splitAtBytes (if ['s', 'p'] <+: kind.tag.toList ++ Text.decimal n then 2 else 1)
      (kind.tag.toList ++ Text.decimal n) = some (kind.tag.toList, Text.decimal n) := by
  have hone : ∀ c : Char, c ≠ 's' → c.utf8Size = 1 →
      Text.splitAtBytes (if ['s', 'p'] <+: c :: Text.decimal n then 2 else 1)
        (c :: Text.decimal n) = some ([c], Text.decimal n) := by
    intro c hc hsize
    rw [if_neg fun h => hc (List.cons_prefix_cons.mp h).1.symm, splitAtBytes_one,
      if_neg (by omega)]
  cases kind with
  | event => exact hone 'e' (by decide) (by decide)
  | span =>
    rw [if_pos ⟨Text.decimal n, rfl⟩]
    exact splitAtBytes_sp _
  | function => exact hone 'f' (by decide) (by decide)
  | location => exact hone 'l' (by decide) (by decide)
  | gap => exact hone 'g' (by decide) (by decide)

theorem colon_notMem_tag (kind : IdKind) : ':' ∉ kind.tag.toList := by
  cases kind <;> decide

theorem parse_tag (kind : IdKind) : IdKind.parse kind.tag = some kind := by
  cases kind <;> rfl

/-- A kind and a number behind an accepted id and a colon are read back. -/
theorem parseNamespaced_local {s : String} (ha : a.Accepted) (kind : IdKind) {n : Nat}
    (hn : n < 2 ^ 32) (hs : s.toList = a.raw.toList ++ ':' :: (kind.tag.toList ++ Text.decimal n)) :
    parseNamespaced s = some (.ok ⟨a, kind, n⟩) := by
  have hr : ':' ∉ kind.tag.toList ++ Text.decimal n := by
    rw [List.mem_append, not_or]
    exact ⟨colon_notMem_tag kind, colon_notMem_decimal n⟩
  rw [parseNamespaced_append hs hr (splitAtBytes_tag kind n)]
  unfold parseLocal
  dsimp only
  rw [String.ofList_toList, parse_tag]
  dsimp only
  rw [Text.parseU32, Text.fromStrRadix_decimal hn]
  dsimp only
  rw [String.ofList_toList, ha]
  rfl

theorem parseNamespaced_render (id : NamespacedId) (ha : id.analysis.Accepted)
    (hn : id.localId < 2 ^ 32) : parseNamespaced id.render = some (.ok id) :=
  parseNamespaced_local ha id.kind hn (toList_render id)

/-! ## Event ranges -/

/-- A text that is a number has no colon in it. -/
theorem parseU32_of_colon {s : List Char} (h : ':' ∈ s) : Text.parseU32 s = none := by
  have hdigit : Text.toDigit 10 ':' = none := by decide
  have hdigits : ∀ s : List Char, ':' ∈ s → s.mapM (Text.toDigit 10) = none := by
    intro s hs
    induction s with
    | nil => cases hs
    | cons c s ih =>
      rw [List.mapM_cons]
      rcases List.mem_cons.mp hs with rfl | hs
      · rw [hdigit]
        rfl
      · rw [ih hs]
        cases Text.toDigit 10 c <;> rfl
  have hcolon : ':' ∈ (if s.head? = some '+' then s.tail else s) := by
    split
    next hplus =>
      cases s with
      | nil => cases hplus
      | cons c s =>
        rcases List.mem_cons.mp h with rfl | h
        · cases hplus
        · exact h
    next => exact h
  unfold Text.parseU32 Text.fromStrRadix
  dsimp only
  rw [hdigits _ hcolon]
  exact ite_self _

/-- The evidence of a span, as the timeline prints it. -/
theorem toList_evidence (names : Analysis.Names) (sel : Selection) (sp : FunctionSpan) :
    (Analysis.timelineRow a.raw names sel sp).evidence.toList =
      a.raw.toList ++ ':' :: 'e' :: (Text.decimal sp.evidence.1 ++
        '-' :: 'e' :: Text.decimal sp.evidence.2) := by
  unfold Analysis.timelineRow
  simp only [String.toList_append, Text.toList_toString]
  rw [List.append_assoc, List.append_assoc, List.append_assoc]
  rfl

/-- A range is resolved: it is split behind an event of the analysis, and gives
the numbers of both ends. -/
def Resolves (raw : String) (a : AnalysisId) (range : LocalId × LocalId) : Prop :=
  ∃ left right, Text.splitOnce ['-', 'e'] raw.toList = some (left, right) ∧
    parseNamespaced (String.ofList left) = some (.ok ⟨a, .event, range.1⟩) ∧
    parseEventRange raw = some (some range)

/-- An id without the separator leaves the range's own as the first one. -/
theorem splitOnce_evidence {s : List Char} (h : ¬ ['-', 'e'] <:+: s) (x : Nat) (t : List Char) :
    Text.splitOnce ['-', 'e'] (s ++ ':' :: 'e' :: (Text.decimal x ++ '-' :: 'e' :: t)) =
      some (s ++ ':' :: 'e' :: Text.decimal x, t) := by
  have hdash : '-' ∉ ':' :: 'e' :: Text.decimal x := by
    intro hmem
    rcases List.mem_cons.mp hmem with h | hmem
    · cases h
    rcases List.mem_cons.mp hmem with h | hmem
    · cases h
    rw [← Text.toDigits_eq_decimal] at hmem
    cases Nat.isDigit_of_mem_toDigits (by decide) (by decide) hmem
  have hsplit : s ++ ':' :: 'e' :: (Text.decimal x ++ '-' :: 'e' :: t) =
      s ++ ((':' :: 'e' :: Text.decimal x) ++ ['-', 'e'] ++ t) := by
    rw [List.append_assoc]
    rfl
  have hfront : ∀ i < s.length, ¬ ['-', 'e'] <+:
      s.drop i ++ ((':' :: 'e' :: Text.decimal x) ++ ['-', 'e'] ++ t) := by
    intro i hi hpre
    -- a match that starts in the id ends in it: a colon follows
    rw [List.drop_eq_getElem_cons hi] at hpre
    obtain ⟨hc, hrest⟩ := List.cons_prefix_cons.mp hpre
    cases hd : s.drop (i + 1) with
    | nil =>
      rw [hd] at hrest
      cases (List.cons_prefix_cons.mp hrest).1
    | cons d ds =>
      rw [hd] at hrest
      obtain ⟨hd', -⟩ := List.cons_prefix_cons.mp hrest
      refine h ⟨s.take i, ds, ?_⟩
      have hjoin : s = s.take i ++ (s[i] :: d :: ds) := by
        rw [← hd, ← List.drop_eq_getElem_cons hi, List.take_append_drop]
      rw [← hc, ← hd'] at hjoin
      rw [List.append_assoc]
      exact hjoin.symm
  have hfind : Text.find ['-', 'e'] (s ++ ((':' :: 'e' :: Text.decimal x) ++ ['-', 'e'] ++ t)) =
      some (s ++ ':' :: 'e' :: Text.decimal x).length := by
    rw [Text.find_append hfront, List.append_assoc, Text.find_skip hdash,
      Text.find_front ⟨t, rfl⟩, List.length_append]
    show some (0 + _ + _) = some (_ + _)
    congr 1
    omega
  have hjoin : s ++ ((':' :: 'e' :: Text.decimal x) ++ ['-', 'e'] ++ t) =
      (s ++ ':' :: 'e' :: Text.decimal x) ++ (['-', 'e'] ++ t) := by
    rw [List.append_assoc, List.append_assoc]
  rw [hsplit, Text.splitOnce, hfind, hjoin]
  show some (_, _) = _
  rw [List.take_left, ← List.drop_drop, List.drop_left]
  rfl

/-- The evidence of a span resolves exactly if the id does not have the separator in it. -/
theorem resolves_iff (ha : a.Accepted) (names : Analysis.Names) (sel : Selection)
    (sp : FunctionSpan) (hsp : sp.evidence.1 < 2 ^ 32 ∧ sp.evidence.2 < 2 ^ 32) :
    Resolves (Analysis.timelineRow a.raw names sel sp).evidence a sp.evidence ↔
      ¬ ['-', 'e'] <:+: a.raw.toList := by
  have hraw := toList_evidence (a := a) names sel sp
  constructor
  · rintro ⟨left, right, hsplit, hleft, hrange⟩ hin
    -- the colon behind the id stands in what is read as the last number
    obtain ⟨i, hfind, hi⟩ := Text.find_of_infix hin (':' :: 'e' :: (Text.decimal sp.evidence.1 ++
      '-' :: 'e' :: Text.decimal sp.evidence.2))
    rw [hraw, Text.splitOnce, hfind] at hsplit
    have hright : right = (a.raw.toList ++ ':' :: 'e' :: (Text.decimal sp.evidence.1 ++
        '-' :: 'e' :: Text.decimal sp.evidence.2)).drop (i + 2) := by
      cases hsplit
      rfl
    have hcolon : ':' ∈ right := by
      have hi' : i + 2 ≤ a.raw.toList.length := hi
      rw [hright, List.drop_append_of_le_length hi']
      exact List.mem_append_right _ List.mem_cons_self
    unfold parseEventRange at hrange
    rw [hraw, Text.splitOnce, hfind, hsplit] at hrange
    dsimp only at hrange
    rw [hleft] at hrange
    dsimp only at hrange
    rw [if_neg (by decide), parseU32_of_colon hcolon] at hrange
    cases hrange
  · intro hno
    have hsplit := splitOnce_evidence hno sp.evidence.1 (Text.decimal sp.evidence.2)
    rw [← hraw] at hsplit
    have hleft : parseNamespaced (String.ofList (a.raw.toList ++
        ':' :: 'e' :: Text.decimal sp.evidence.1)) = some (.ok ⟨a, .event, sp.evidence.1⟩) := by
      refine parseNamespaced_local ha .event hsp.1 ?_
      rw [String.toList_ofList]
      rfl
    refine ⟨_, _, hsplit, hleft, ?_⟩
    unfold parseEventRange
    rw [hsplit]
    dsimp only
    rw [hleft]
    dsimp only
    rw [if_neg (by decide), Text.parseU32, Text.fromStrRadix_decimal hsp.2]
    rfl

end RoundTrip

/-- Ids are read back as they are printed; the evidence of a span resolves if
the analysis id does not contain `-e`; and the parsers return except where a
text is cut wrongly. -/
theorem references_iff (id : NamespacedId) (a : AnalysisId) (s : String) :
    (id.analysis.Accepted → id.localId < 2 ^ 32 → parseNamespaced id.render = some (.ok id)) ∧
    (∀ (names : Analysis.Names) (sel : Selection) (sp : FunctionSpan), a.Accepted →
      sp.evidence.1 < 2 ^ 32 ∧ sp.evidence.2 < 2 ^ 32 →
      (Resolves (Analysis.timelineRow a.raw names sel sp).evidence a sp.evidence ↔
        ¬ ['-', 'e'] <:+: a.raw.toList)) ∧
    (parseNamespaced s ≠ none ↔ ¬ CutsWrongly s.toList) ∧
    (parseEventRange s ≠ none ↔
      ¬ ∃ left right, Text.splitOnce ['-', 'e'] s.toList = some (left, right) ∧ CutsWrongly left) :=
  ⟨parseNamespaced_render id, fun names sel sp ha hsp => resolves_iff ha names sel sp hsp,
    not_congr (parseNamespaced_eq_none s), not_congr (parseEventRange_eq_none s)⟩

/-- A span from the second to the third event. -/
def briefSpan : FunctionSpan where
  id := 1
  thread := .task 7 0
  function := none
  parent := none
  start := .estimate 10
  stop := .estimate 20
  completeness := .complete
  evidence := (2, 3)
  callSite := none

/-- An event of analysis `a_1`, and a span of it. -/
theorem references_iff_event :
    parseNamespaced (NamespacedId.render ⟨⟨"a_1"⟩, .event, 7⟩) =
        some (.ok ⟨⟨"a_1"⟩, .event, 7⟩) ∧
      Resolves (Analysis.timelineRow "a_1" ∅ ⟨none, none, none⟩ briefSpan).evidence ⟨"a_1"⟩
        (2, 3) := by
  obtain ⟨hround, hevidence, -⟩ := references_iff ⟨⟨"a_1"⟩, .event, 7⟩ ⟨"a_1"⟩ "a_1"
  refine ⟨hround rfl (by decide), ?_⟩
  exact (hevidence ∅ ⟨none, none, none⟩ briefSpan rfl (by decide)).mpr (by decide +kernel)

/-- Nothing stands behind the colon of `a:`. -/
theorem references_panic :
    ¬ ((∀ id : NamespacedId, id.analysis.Accepted → id.localId < 2 ^ 32 →
        parseNamespaced id.render = some (.ok id)) ∧
      (∀ (a : AnalysisId) (names : Analysis.Names) (sel : Selection) (sp : FunctionSpan),
        a.Accepted → sp.evidence.1 < 2 ^ 32 ∧ sp.evidence.2 < 2 ^ 32 →
        Resolves (Analysis.timelineRow a.raw names sel sp).evidence a sp.evidence) ∧
      (∀ s : String, parseNamespaced s ≠ none) ∧ ∀ s : String, parseEventRange s ≠ none) := by
  rintro ⟨-, -, hparse, -⟩
  exact hparse "a:" rfl

end TraceMcp
