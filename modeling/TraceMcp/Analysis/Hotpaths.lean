import TraceMcp.Analysis.Timeline

/-!
# Hot paths

`src/analysis/hotpaths.rs`: the spans of an analysis grouped by caller chain
or by function. A path is found by walking up the parents, at most `MAX_DEPTH`
frames at a time; what the walk passes is remembered, so that no frame is
walked over twice.

The source looks a span up by id through its index into the slice; here the
index is looked up at once (`byId`). Its sums are `u64`, and wrap.
-/

namespace TraceMcp.Analysis

open TraceMcp.Lib

inductive HotpathGroup
  | path
  | function
  | inline
  deriving DecidableEq

inductive HotpathSort
  | inclusive
  | selfTime
  | calls
  deriving DecidableEq

/-- `HotpathOptions`. -/
structure HotpathOptions where
  functionContains : Option String
  group : HotpathGroup
  sort : HotpathSort
  maxDepth : Option Nat

def HotpathOptions.default : HotpathOptions := ⟨none, .path, .inclusive, none⟩

/-- `HotpathRow`. -/
structure HotpathRow where
  path : String
  completeCalls : Nat
  observedEntries : Nat
  inclusiveSumNs : Option Nat
  selfSumNs : Option Nat
  p50Ns : Option Nat
  p95Ns : Option Nat
  p99Ns : Option Nat
  excludedIncomplete : Nat
  nEligible : Nat
  instructions : Option Nat
  deriving DecidableEq

/-- `Agg`. -/
structure Agg where
  complete : Nat
  observed : Nat
  excluded : Nat
  inclusives : List Nat
  selfs : List Nat

def Agg.default : Agg := ⟨0, 0, 0, [], []⟩

/-! ## Paths -/

/-- `MAX_DEPTH`. -/
def maxPathDepth : Nat := 64

/-- The spans by id; of two with one id, the later. -/
def byId (spans : List FunctionSpan) : FastMap Nat FunctionSpan :=
  spans.foldl (fun m sp => m.insert sp.id sp) ∅

/-- `child_index`. -/
def childIndex (spans : List FunctionSpan) : FastMap Nat (List Nat) :=
  spans.foldl (fun m sp => match sp.parent with
    | some p => m.insert p ((FastMap.get m p).getD [] ++ [sp.id])
    | none => m) ∅

/-- The name of a frame in a path. -/
def frameName (names : Names) (sp : FunctionSpan) : String := (nameOf names sp).getD "<unknown>"

/-- The upward walk of `path_of` from `cur`, with room for `room` frames more:
the frames it passes and the path in front of them, if it does not end at a
root. -/
def climb (ids : FastMap Nat FunctionSpan) (cache : FastMap Nat String) :
    Nat → FunctionSpan → List FunctionSpan × Option String
  | room, cur =>
    match cur.parent.bind ids.get with
    | none => ([], none)
    | some parent =>
      if parent.id = cur.id then ([], none)
      else match cache.get parent.id with
        | some p => ([], some p)
        | none => match room with
          | 0 => ([], some "...")
          | room + 1 =>
            let (rest, before) := climb ids cache room parent
            (parent :: rest, before)

/-- `path.matches('/').count()`. -/
def slashes (path : String) : Nat := path.toList.count '/'

/-- The path of a frame, from the path in front of it. -/
def extendPath (path name : String) : String :=
  if path = "" then name
  else if maxPathDepth ≤ slashes path then path ++ "/..."
  else path ++ "/" ++ name

/-- One frame of the second loop of `path_of`. -/
def notePath (names : Names) (acc : String × FastMap Nat String) (node : FunctionSpan) :
    String × FastMap Nat String :=
  let path := extendPath acc.1 (frameName names node)
  (path, acc.2.insert node.id path)

/-- `path_of`, with the cache it leaves. -/
def pathOf (names : Names) (ids : FastMap Nat FunctionSpan) (cache : FastMap Nat String)
    (sp : FunctionSpan) : String × FastMap Nat String :=
  match cache.get sp.id with
  | some p => (p, cache)
  | none =>
    let (above, before) := climb ids cache (maxPathDepth - 1) sp
    (sp :: above).reverse.foldl (notePath names) (before.getD "", cache)

/-- `truncate_depth`: keep the innermost `depth` frames of a path. -/
def truncateDepth (path : String) (depth : Nat) : String :=
  let parts := path.toList.splitOn '/'
  if parts.length ≤ depth then path
  else ".../" ++ String.ofList (List.intercalate ['/'] (parts.drop (parts.length - depth)))

/-- The path a row shows. -/
def shownPath (maxDepth : Option Nat) (full : String) : String :=
  match maxDepth with
  | some d => if 0 < d then truncateDepth full d else full
  | none => full

/-- The row a span belongs to, with the cache it leaves. -/
def rowPath (opts : HotpathOptions) (names : Names) (ids : FastMap Nat FunctionSpan)
    (cache : FastMap Nat String) (sp : FunctionSpan) : String × FastMap Nat String :=
  match opts.group with
  | .path =>
    let (full, cache) := pathOf names ids cache sp
    (shownPath opts.maxDepth full, cache)
  | .function | .inline => (frameName names sp, cache)

/-! ## What a span adds to its row -/

/-- Whether a span lies inside the selected window. -/
def contained (sel : Selection) (sp : FunctionSpan) : Bool :=
  match sel.startNs, sel.endNs, sp.start.relativeNs, sp.stop.relativeNs with
  | some a, some b, some s, some e => a ≤ s && e ≤ b
  | none, none, _, _ => true
  | some a, none, some s, _ => a ≤ s
  | none, some b, _, some e => e ≤ b
  | _, _, _, _ => false

/-- The intervals of the children, up to the first that is not certain. -/
def childIntervals (ids : FastMap Nat FunctionSpan) : List Nat → List Interval × Bool
  | [] => ([], true)
  | kid :: kids =>
    match ids.get kid with
    | none => childIntervals ids kids
    | some ch =>
      if ch.completeness ≠ .complete then ([], false)
      else match ch.start.relativeNs, ch.stop.relativeNs with
        | some s, some e =>
          let (civ, certain) := childIntervals ids kids
          ((s, e) :: civ, certain)
        | _, _ => ([], false)

/-- The self time of a complete span, if it has one. -/
def spanSelf (ids : FastMap Nat FunctionSpan) (children : FastMap Nat (List Nat))
    (sp : FunctionSpan) : Option Nat :=
  match sp.start.relativeNs, sp.stop.relativeNs with
  | some ps, some pe =>
    let (civ, certain) := childIntervals ids ((children.get sp.id).getD [])
    selfElapsed ps pe civ certain
  | _, _ => none

/-- A span, counted on its row. -/
def Agg.add (ids : FastMap Nat FunctionSpan) (children : FastMap Nat (List Nat)) (sel : Selection)
    (agg : Agg) (sp : FunctionSpan) : Agg :=
  if sp.completeness ≠ .complete ∨ contained sel sp = false then
    { agg with observed := agg.observed + 1, excluded := agg.excluded + 1 }
  else
    { agg with
      observed := agg.observed + 1
      complete := agg.complete + 1
      inclusives := agg.inclusives ++ (inclusiveElapsed sp.start sp.stop sp.completeness).toList
      selfs := agg.selfs ++ (spanSelf ids children sp).toList }

/-! ## Rows -/

/-- `nearest_rank`. -/
def nearestRank (sorted : List Nat) (pTimes100 : Nat) : Option Nat :=
  if sorted.length = 0 then none
  else sorted[min ((pTimes100 * sorted.length + 99) / 100 - 1) (sorted.length - 1)]?

/-- `P99_MIN_SAMPLES`. -/
def p99MinSamples : Nat := 1000

/-- A `u64` sum, if there is anything to add up. -/
def sumOf (values : List Nat) : Option Nat :=
  if values.isEmpty then none else some (values.sum % wordSize)

/-- The row of a path. -/
def hotpathRow (path : String) (agg : Agg) : HotpathRow :=
  let inclusives := agg.inclusives.mergeSort (· ≤ ·)
  { path := path
    completeCalls := agg.complete
    observedEntries := agg.observed
    inclusiveSumNs := sumOf inclusives
    selfSumNs := sumOf agg.selfs
    p50Ns := nearestRank inclusives 50
    p95Ns := nearestRank inclusives 95
    p99Ns := if p99MinSamples ≤ inclusives.length then nearestRank inclusives 99 else none
    excludedIncomplete := agg.excluded
    nEligible := inclusives.length
    instructions := none }

def pathLe (a b : HotpathRow) : Bool := a.path ≤ b.path

/-- Larger first; what is unknown comes last. -/
def descending (a b : Option Nat) : Bool := optionLe b a

/-- The row order. -/
def hotpathRowLe : HotpathSort → HotpathRow → HotpathRow → Bool
  | .inclusive => thenBy HotpathRow.inclusiveSumNs descending pathLe
  | .selfTime => thenBy HotpathRow.selfSumNs descending
      (thenBy HotpathRow.inclusiveSumNs descending pathLe)
  | .calls => thenBy (fun row => some row.observedEntries) descending pathLe

/-- The path cache and the rows so far. -/
structure Grouping where
  cache : FastMap Nat String
  byPath : FastMap String Agg

/-- One span of the loop in `hotpaths_with`. -/
def groupSpan (names : Names) (ids : FastMap Nat FunctionSpan) (children : FastMap Nat (List Nat))
    (sel : Selection) (opts : HotpathOptions) (g : Grouping) (sp : FunctionSpan) : Grouping :=
  if sel.threadId.any (sp.thread ≠ ·) then g
  else
    let (path, cache) := rowPath opts names ids g.cache sp
    if opts.functionContains.any fun f => !containsStr path f then { g with cache := cache }
    else ⟨cache, g.byPath.insert path (((g.byPath.get path).getD .default).add ids children sel sp)⟩

/-- `hotpaths_with`. -/
def hotpathsWith (spans : List FunctionSpan) (names : Names) (sel : Selection)
    (children : FastMap Nat (List Nat)) (opts : HotpathOptions) : List HotpathRow :=
  let g := spans.foldl (groupSpan names (byId spans) children sel opts) ⟨∅, ∅⟩
  (g.byPath.entries.map fun e => hotpathRow e.1 e.2).mergeSort (hotpathRowLe opts.sort)

end TraceMcp.Analysis
