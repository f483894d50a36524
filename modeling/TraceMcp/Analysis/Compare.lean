import TraceMcp.Analysis.Hotpaths

/-!
# Comparing two runs

`src/analysis/compare.rs`: the hot paths of a baseline and of a candidate side
by side. `pair_rows` makes four passes over the two lists, and remembers which
rows it has used: the caller's function pairs, the baseline's rows one after
another, and what the candidate has left.

A row of the report says nothing about which rows it came from beyond its
path. Here `pairings` is what `pair_rows` pushes, by index, and `pairRows` the
rows it makes of them.
-/

namespace TraceMcp.Analysis

open TraceMcp.Lib

/-! ## Names -/

/-- `leaf`: what stands after the last slash. -/
def leaf (path : String) : String := String.ofList (path.toList.rtakeWhile (· ≠ '/'))

/-- `char::is_ascii_hexdigit`. -/
def isAsciiHexdigit (c : Char) : Bool :=
  ('0' ≤ c && c ≤ '9') || ('a' ≤ c && c ≤ 'f') || ('A' ≤ c && c ≤ 'F')

/-- `rfind`: where `needle` last occurs. -/
def rfind (needle s : List Char) : Option Nat :=
  (Text.find needle.reverse s.reverse).map fun i => s.length - (i + needle.length)

/-- `linkage_stem`: a name without the hash that a build gives it. The source
counts the bytes of the hash, which are its characters where all of them are
hexadecimal digits. -/
def linkageStem (name : String) : String :=
  match rfind "::h".toList name.toList with
  | some i =>
    let rest := name.toList.drop (i + 3)
    if 8 ≤ rest.length ∧ rest.all isAsciiHexdigit then String.ofList (name.toList.take i)
    else name
  | none => name

/-- `matches_id`. -/
def matchesId (path id : String) : Bool :=
  path = id || leaf path = id || id.toList.isSuffixOf path.toList
    || id.toList.isSuffixOf (leaf path).toList

/-- The stem that `pair_rows` files a row under. -/
def stemOf (r : HotpathRow) : String := linkageStem (leaf r.path)

/-- `stem_counts`. -/
def stemCounts (rows : List HotpathRow) : FastMap String Nat :=
  rows.foldl (fun m r => m.insert (stemOf r) ((FastMap.get m (stemOf r)).getD 0 + 1)) ∅

/-! ## Rows -/

/-- `match_kind`, a text in the source. -/
inductive MatchKind
  | explicitPair
  | path
  | demangledPath
  | ambiguous
  | unmatched
  deriving DecidableEq

def MatchKind.text : MatchKind → String
  | .explicitPair => "explicit_pair"
  | .path => "path"
  | .demangledPath => "demangled_path"
  | .ambiguous => "ambiguous"
  | .unmatched => "unmatched"

/-- `MetricValue`. -/
structure MetricValue where
  value : Int
  n : Nat
  exclusions : Option Nat
  deriving DecidableEq

/-- `CompareRow`, without its two evidence lists: they are always empty. -/
structure CompareRow where
  path : String
  baseline : Option MetricValue
  candidate : Option MetricValue
  absoluteDelta : Option Int
  relativeDelta : Option String
  unit : String
  normalization : String
  matchKind : MatchKind
  deriving DecidableEq

/-- `relative_delta`. `ratio` renders the quotient of two `f64`. -/
def relativeDelta (ratio : Int → Int → String) (abs baseline : Int) : Option String :=
  if baseline = 0 then none else some (ratio abs baseline)

/-- The value column of a row. -/
def metricValue (r : HotpathRow) : MetricValue :=
  ⟨((r.inclusiveSumNs.getD 0 : Nat) : Int), r.completeCalls, some r.excludedIncomplete⟩

/-- The kinds of a row that has matched. -/
def MatchKind.matched : MatchKind → Bool
  | .explicitPair | .path | .demangledPath => true
  | .ambiguous | .unmatched => false

/-- The difference of the inclusive sums that are known. -/
def knownDelta (b c : Option HotpathRow) : Option (Int × Int) :=
  match b.bind (·.inclusiveSumNs), c.bind (·.inclusiveSumNs) with
  | some bv, some cv => some ((cv : Int) - (bv : Int), (bv : Int))
  | _, _ => none

/-- `delta_row`. -/
def deltaRow (ratio : Int → Int → String) (path : String) (b c : Option HotpathRow)
    (allowPerf : Bool) (kind : MatchKind) : CompareRow :=
  let delta :=
    if allowPerf && decide (kind ≠ .ambiguous) && decide (kind ≠ .unmatched) then knownDelta b c
    else none
  { path
    baseline := b.map metricValue
    candidate := c.map metricValue
    absoluteDelta := delta.map (·.1)
    relativeDelta := delta.bind fun d => relativeDelta ratio d.1 d.2
    unit := "ns_decoder_estimate"
    normalization :=
      if allowPerf && kind.matched then "per_matched_path" else "raw_selected_region"
    matchKind := kind }

/-! ## The passes of `pair_rows` -/

/-- `FunctionPair`. -/
structure FunctionPair where
  baselineFunctionId : String
  candidateFunctionId : String

/-- What one push of `pair_rows` makes a row of. -/
structure Pairing where
  baseline : Option Nat
  candidate : Option Nat
  allowPerf : Bool
  kind : MatchKind
  deriving DecidableEq

/-- What `pair_rows` has pushed, and the rows it has marked as used. -/
structure Pairs where
  usedB : List Nat
  usedC : List Nat
  rows : List Pairing

def Pairs.empty : Pairs := ⟨[], [], []⟩

/-- A push of the first three passes, which marks the rows it names. -/
def Pairs.push (s : Pairs) (p : Pairing) : Pairs :=
  { usedB := s.usedB ++ p.baseline.toList
    usedC := s.usedC ++ p.candidate.toList
    rows := s.rows ++ [p] }

section Passes

variable (baseline candidate : List HotpathRow) (allowPerf : Bool)

/-- The row that a caller's id selects: the first that matches it. -/
def positionOf (rows : List HotpathRow) (id : String) : Option Nat :=
  rows.findIdx? fun r => matchesId r.path id

/-- One function pair. What is used already is not asked about. -/
def pairExplicit (s : Pairs) (pair : FunctionPair) : Pairs :=
  match positionOf baseline pair.baselineFunctionId,
      positionOf candidate pair.candidateFunctionId with
  | some bi, some ci => s.push ⟨some bi, some ci, allowPerf, .explicitPair⟩
  | some bi, none => s.push ⟨some bi, none, false, .unmatched⟩
  | none, some ci => s.push ⟨none, some ci, false, .unmatched⟩
  | none, none => s

/-- How many rows of a list share a stem. -/
def countOf (counts : FastMap String Nat) (stem : String) : Nat := (counts.get stem).getD 0

/-- The unused candidate that a baseline row is paired with. -/
def partnerOf (usedC : List Nat) (b : HotpathRow) : Option (HotpathRow × Nat) :=
  candidate.zipIdx.find? fun cj =>
    !decide (cj.2 ∈ usedC) && (decide (cj.1.path = b.path)
      || decide (leaf cj.1.path = leaf b.path) || decide (stemOf cj.1 = stemOf b))

/-- One row of the baseline. -/
def pairRow (s : Pairs) (ib : HotpathRow × Nat) : Pairs :=
  let (b, i) := ib
  if i ∈ s.usedB then s
  else if 1 < countOf (stemCounts baseline) (stemOf b)
      ∨ 1 < countOf (stemCounts candidate) (stemOf b) then
    s.push ⟨some i, none, false, .ambiguous⟩
  else match partnerOf candidate s.usedC b with
    | some (c, j) =>
      s.push ⟨some i, some j, allowPerf, if c.path = b.path then .path else .demangledPath⟩
    | none => s.push ⟨some i, none, false, .unmatched⟩

/-- A row that the candidate has left. -/
def leftover (usedC : List Nat) (cj : HotpathRow × Nat) : Option Pairing :=
  if cj.2 ∈ usedC then none
  else some ⟨none, some cj.2, false,
    if 1 < countOf (stemCounts candidate) (stemOf cj.1) then .ambiguous else .unmatched⟩

/-- What `pair_rows` has pushed once it is through with the baseline. -/
def pairBaseline (pairs : List FunctionPair) : Pairs :=
  baseline.zipIdx.foldl (pairRow baseline candidate allowPerf)
    (pairs.foldl (pairExplicit baseline candidate allowPerf) .empty)

/-- The pushes of `pair_rows`. -/
def pairings (pairs : List FunctionPair) : List Pairing :=
  let s := pairBaseline baseline candidate allowPerf pairs
  s.rows ++ candidate.zipIdx.filterMap (leftover candidate s.usedC)

/-- The row of a pairing. It has the baseline's path where it has a row of the
baseline. -/
def Pairing.row (ratio : Int → Int → String) (p : Pairing) : CompareRow :=
  let b := p.baseline.bind (baseline[·]?)
  let c := p.candidate.bind (candidate[·]?)
  deltaRow ratio (((b <|> c).map (·.path)).getD "") b c p.allowPerf p.kind

/-- `pair_rows`. -/
def pairRows (ratio : Int → Int → String) (pairs : List FunctionPair) : List CompareRow :=
  (pairings baseline candidate allowPerf pairs).map (Pairing.row baseline candidate ratio)

end Passes

/-! ## The report -/

inductive CompareMode
  | exploratory
  | strictPerformance
  deriving DecidableEq

/-- `ComparabilityCheck`. -/
structure ComparabilityCheck where
  name : String
  ok : Bool
  detail : String

/-- `CompareReport`. Its caller fills in the two analysis ids. -/
structure CompareReport where
  checks : List ComparabilityCheck
  comparable : Bool
  mode : CompareMode
  rows : List CompareRow
  warnings : List String

/-- `compare_hotpaths`. -/
def compareHotpaths (ratio : Int → Int → String) (mode : CompareMode)
    (functionPairs : List FunctionPair) (baseline candidate : List HotpathRow)
    (sameWorkload cpuOk ptOk decoderOk : Bool) : CompareReport :=
  let checks : List ComparabilityCheck := [
    ⟨"workload", sameWorkload,
      if sameWorkload then "caller-supplied workload/input fingerprints match"
      else "workload/input fingerprint missing or differs"⟩,
    ⟨"cpu_pt", cpuOk && ptOk, "cpu_ok=" ++ toString cpuOk ++ " pt_ok=" ++ toString ptOk⟩,
    ⟨"decoder", decoderOk, "decoder version/schema"⟩]
  let strictOk := sameWorkload && cpuOk && ptOk && decoderOk
  if mode = .strictPerformance ∧ strictOk = false then
    ⟨checks, false, mode, [], ["INCOMPARABLE: strict_performance requirements unmet"]⟩
  else
    let warnings := if sameWorkload then [] else
      ["exploratory structural comparison; performance deltas withheld when units are incomparable"]
    let rows := pairRows baseline candidate strictOk ratio functionPairs
    let ambiguousOk := rows.all (fun r => r.matchKind ≠ .ambiguous) || !functionPairs.isEmpty
    ⟨checks ++ [⟨"explicit_pairs", ambiguousOk,
      toString functionPairs.length ++ " caller function pairs"⟩], true, mode, rows, warnings⟩

/-- A report that is not refused has the rows of `pair_rows`, and differences
where the sides are compatible. -/
theorem compareHotpaths_rows (ratio : Int → Int → String) (mode : CompareMode)
    (functionPairs : List FunctionPair) (baseline candidate : List HotpathRow)
    (sameWorkload cpuOk ptOk decoderOk : Bool) :
    let report := compareHotpaths ratio mode functionPairs baseline candidate sameWorkload cpuOk
      ptOk decoderOk
    report.comparable = true →
      report.rows = pairRows baseline candidate (sameWorkload && cpuOk && ptOk && decoderOk) ratio
        functionPairs := by
  intro report hcomparable
  by_cases hstrict : mode = .strictPerformance
      ∧ (sameWorkload && cpuOk && ptOk && decoderOk) = false
  · have hrefused : report.comparable = false := by
      show (compareHotpaths _ _ _ _ _ _ _ _ _).comparable = false
      rw [compareHotpaths, if_pos hstrict]
    exact absurd hcomparable (by simp [hrefused])
  · show (compareHotpaths _ _ _ _ _ _ _ _ _).rows = _
    rw [compareHotpaths, if_neg hstrict]

end TraceMcp.Analysis
