import TraceMcp.Lib.Paths
import TraceMcp.Lib.Word
import TraceMcp.Model.Session

/-!
# Identifiers as file names

`src/model/ids.rs` accepts an identifier that comes from outside, the store
(`src/store.rs`) joins it to one of its own directories, and `remove_snapshot`
removes what it then finds there.

A session or job file ends in `.json` and is therefore an entry of its
directory whatever the identifier is. A snapshot, analysis or report
directory is the identifier itself, and of the texts that `from_raw` accepts
exactly `.` and `..` lead somewhere else: to the directory that holds all of
them, and to the one above it.
-/

namespace TraceMcp

/-! ## Typed identifiers -/

/-- The check of `typed_id!`'s `from_raw`. -/
def acceptRaw (typeName raw : String) : Result String :=
  if raw = "" ∨ '/' ∈ raw.toList ∨ '\x00' ∈ raw.toList then
    .error (Error.invalidArgument ("invalid " ++ typeName ++ " " ++ raw))
  else .ok raw

def SessionId.fromRaw (raw : String) : Result SessionId := (acceptRaw "SessionId" raw).map mk

def SnapshotId.fromRaw (raw : String) : Result SnapshotId := (acceptRaw "SnapshotId" raw).map mk

def AnalysisId.fromRaw (raw : String) : Result AnalysisId := (acceptRaw "AnalysisId" raw).map mk

def ReportId.fromRaw (raw : String) : Result ReportId := (acceptRaw "ReportId" raw).map mk

def JobId.fromRaw (raw : String) : Result JobId := (acceptRaw "JobId" raw).map mk

namespace Service

open TraceMcp.Lib PathText

/-- The texts that every typed id accepts. -/
def Accepted (raw : String) : Prop := ∀ typeName, acceptRaw typeName raw = .ok raw

theorem accepted_iff {raw : String} :
    Accepted raw ↔ raw ≠ "" ∧ '/' ∉ raw.toList ∧ '\x00' ∉ raw.toList := by
  constructor
  · intro h
    have hraw := h ""
    rw [acceptRaw] at hraw
    split at hraw
    · cases hraw
    · next hn =>
      rw [not_or, not_or] at hn
      exact hn
  · rintro ⟨hne, hslash, hnul⟩ typeName
    rw [acceptRaw, if_neg]
    rintro (h | h | h)
    exacts [hne h, hslash h, hnul h]

/-! ## The store's paths -/

inductive LockMode
  | shared
  | exclusive
  deriving DecidableEq

/-- `Store`, as far as paths and removals need it. -/
structure Store where
  root : PathText
  mode : LockMode

namespace Store

def sessionPath (s : Store) (id : SessionId) : PathText :=
  join (join s.root "sessions".toList) (id.raw ++ ".json").toList

def snapshotDir (s : Store) (id : SnapshotId) : PathText :=
  join (join s.root "snapshots".toList) id.raw.toList

def analysisDir (s : Store) (snap : SnapshotId) (analysis : AnalysisId) : PathText :=
  join (join (s.snapshotDir snap) "derived".toList) analysis.raw.toList

def reportDir (s : Store) (id : ReportId) : PathText :=
  join (join s.root "reports".toList) id.raw.toList

def jobPath (s : Store) (id : JobId) : PathText :=
  join (join s.root "jobs".toList) (id.raw ++ ".json").toList

/-! ## Removing a snapshot -/

def ensureExclusive (s : Store) : Result Unit :=
  if s.mode = .exclusive then .ok ()
  else .error ((Error.new .busy "store mutation requires an exclusive lock").withNext
    "Reopen the store with LockMode::Exclusive")

end Store

/-- `dir_size`, whose sum saturates. -/
def dirSize (t : Tree) (place : Place) : Nat := min (t.bytesBelow place) (wordSize - 1)

/-- `fs::remove_dir_all` of a path that leads to `place`: first what is in the
directory, then the directory itself. That last step is a call of its own, and
what it answers for a path that ends in `.` or `..` is the system's to say. -/
def removeDirAll (rmdir : PathText → Result Unit) (t : Tree) (p : PathText) (place : Place) :
    Tree × Result Unit :=
  if t.node place ≠ some .dir then
    (t, .error (Error.new .decodeFailed "Not a directory (os error 20)"))
  else if lastPart p ∈ [none, some ['.'], some ['.', '.']] then (t.clear place, rmdir p)
  else (t.remove place, .ok ())

/-- `remove_snapshot`. -/
def Store.removeSnapshot (rmdir : PathText → Result Unit) (cwd : Place) (s : Store) (t : Tree)
    (id : SnapshotId) : Tree × Result Nat :=
  match s.ensureExclusive with
  | .error e => (t, .error e)
  | .ok () =>
    let dir := s.snapshotDir id
    match t.locate cwd dir with
    | none => (t, .error (Error.notFound ("snapshot " ++ id.raw)))
    | some place =>
      let bytes := dirSize t place
      let removed := removeDirAll rmdir t dir place
      (removed.1, removed.2.map fun _ => bytes)

/-- A removal takes nothing but what lies at or below the place the snapshot
path leads to. -/
theorem removeSnapshot_keeps {rmdir : PathText → Result Unit} {cwd : Place} {s : Store} {t : Tree}
    {id : SnapshotId} {e : Place × Node} (he : e ∈ t.nodes)
    (hout : ¬ resolve cwd (s.snapshotDir id) <+: e.1) :
    e ∈ (s.removeSnapshot rmdir cwd t id).1.nodes := by
  rw [Store.removeSnapshot]
  cases s.ensureExclusive with
  | error err => exact he
  | ok =>
    dsimp only
    cases hplace : t.locate cwd (s.snapshotDir id) with
    | none => exact he
    | some place =>
      rw [← Tree.locate_resolve hplace] at hout
      show e ∈ (removeDirAll rmdir t (s.snapshotDir id) place).1.nodes
      rw [removeDirAll]
      split
      · exact he
      · split
        · exact Tree.mem_clear.mpr ⟨he, fun h => hout h.1⟩
        · exact Tree.mem_remove.mpr ⟨he, hout⟩

/-! ## What an identifier leads to -/

section

variable {cwd : Place} {dir : PathText} {raw : String}

/-- An accepted text that is not one of the two special names is a name. -/
theorem Accepted.isName (h : Accepted raw) (hdot : raw ≠ ".") (hdots : raw ≠ "..") :
    IsName raw.toList := by
  obtain ⟨hne, hslash, -⟩ := accepted_iff.mp h
  refine ⟨fun heq => hne (String.toList_inj.mp heq), hslash, ?_, ?_⟩
  · intro heq
    exact hdot (String.toList_inj.mp heq)
  · intro heq
    exact hdots (String.toList_inj.mp heq)

/-- With an extension every accepted text is a name. -/
theorem Accepted.isName_json (h : Accepted raw) : IsName (raw ++ ".json").toList := by
  obtain ⟨-, hslash, -⟩ := accepted_iff.mp h
  have hlength : 5 ≤ (raw ++ ".json").toList.length := by
    rw [String.toList_append, List.length_append]
    exact Nat.le_add_left 5 _
  refine ⟨?_, ?_, ?_, ?_⟩
  · intro heq
    rw [heq] at hlength
    exact absurd hlength (by decide)
  · rw [String.toList_append, List.mem_append]
    rintro (hmem | hmem)
    · exact hslash hmem
    · exact absurd hmem (by decide +kernel)
  · intro heq
    rw [heq] at hlength
    exact absurd hlength (by decide)
  · intro heq
    rw [heq] at hlength
    exact absurd hlength (by decide)

/-- The path made of an accepted text is a direct child of its directory, and
no other accepted text gives the same place. -/
structure OwnEntry (cwd : Place) (dir : PathText) (path : String → PathText) (raw : String) :
    Prop where
  child : ∃ name, resolve cwd (path raw) = resolve cwd dir ++ [name]
  apart : ∀ other, Accepted other → other ≠ raw →
    resolve cwd (path other) ≠ resolve cwd (path raw)

theorem ownEntry_json (h : Accepted raw) :
    OwnEntry cwd dir (fun raw => join dir (raw ++ ".json").toList) raw := by
  refine ⟨⟨_, resolve_join_name h.isName_json⟩, ?_⟩
  intro other hother hne heq
  rw [resolve_join_name h.isName_json, resolve_join_name hother.isName_json] at heq
  have hnames := List.singleton_injective (List.append_cancel_left heq)
  rw [String.toList_append, String.toList_append] at hnames
  exact hne (String.toList_inj.mp (List.append_cancel_right hnames))

theorem resolve_join_dot : resolve cwd (join dir ".".toList) = resolve cwd dir := by
  rw [resolve_join (by decide +kernel), walk_noSlash (by decide +kernel)]
  rfl

theorem resolve_join_dots : resolve cwd (join dir "..".toList) = (resolve cwd dir).dropLast := by
  rw [resolve_join (by decide +kernel), walk_noSlash (by decide +kernel)]
  rfl

/-- Where the text itself is the entry, the two special names are the only
ones that lead elsewhere: one to the directory, the other above it. -/
theorem ownEntry_iff (h : Accepted raw) :
    OwnEntry cwd dir (fun raw => join dir raw.toList) raw ↔ raw ≠ "." ∧ raw ≠ ".." := by
  constructor
  · rintro ⟨⟨name, hchild⟩, -⟩
    have hlength := congrArg List.length hchild
    rw [List.length_append, List.length_singleton] at hlength
    constructor
    · rintro rfl
      rw [resolve_join_dot] at hlength
      omega
    · rintro rfl
      rw [resolve_join_dots, List.length_dropLast] at hlength
      omega
  · rintro ⟨hdot, hdots⟩
    have hname := h.isName hdot hdots
    refine ⟨⟨_, resolve_join_name hname⟩, ?_⟩
    intro other hother hne heq
    rw [resolve_join_name hname] at heq
    by_cases hspecial : other = "." ∨ other = ".."
    · have hlength := congrArg List.length heq
      rw [List.length_append, List.length_singleton] at hlength
      rcases hspecial with rfl | rfl
      · rw [resolve_join_dot] at hlength
        omega
      · rw [resolve_join_dots, List.length_dropLast] at hlength
        omega
    · rw [not_or] at hspecial
      rw [resolve_join_name (hother.isName hspecial.1 hspecial.2)] at heq
      have hnames := List.singleton_injective (List.append_cancel_left heq)
      exact hne (String.toList_inj.mp hnames)

end

/-! ## Confinement -/

section

variable (rmdir : PathText → Result Unit) (cwd : Place) (s : Store)

/-- The text stays in the store's directories: as an identifier of any type it
has an entry of its own there, and as a snapshot's it removes nothing else. -/
structure Confined (raw : String) : Prop where
  session : OwnEntry cwd (join s.root "sessions".toList) (fun raw => s.sessionPath ⟨raw⟩) raw
  snapshot : OwnEntry cwd (join s.root "snapshots".toList) (fun raw => s.snapshotDir ⟨raw⟩) raw
  analysis : ∀ snap : SnapshotId, OwnEntry cwd (join (s.snapshotDir snap) "derived".toList)
    (fun raw => s.analysisDir snap ⟨raw⟩) raw
  report : OwnEntry cwd (join s.root "reports".toList) (fun raw => s.reportDir ⟨raw⟩) raw
  job : OwnEntry cwd (join s.root "jobs".toList) (fun raw => s.jobPath ⟨raw⟩) raw
  removal : ∀ (t : Tree) (e : Place × Node), e ∈ t.nodes →
    ¬ resolve cwd (join s.root "snapshots".toList) ++ [raw.toList] <+: e.1 →
      e ∈ (s.removeSnapshot rmdir cwd t ⟨raw⟩).1.nodes

/-- The accepted texts that stay in the store's directories are those that are
neither `.` nor `..`. -/
theorem confined_iff {raw : String} (h : Accepted raw) :
    Confined rmdir cwd s raw ↔ raw ≠ "." ∧ raw ≠ ".." := by
  constructor
  · intro hconfined
    exact (ownEntry_iff h).mp hconfined.snapshot
  · intro hname
    refine ⟨ownEntry_json h, (ownEntry_iff h).mpr hname, fun _ => (ownEntry_iff h).mpr hname,
      (ownEntry_iff h).mpr hname, ownEntry_json h, ?_⟩
    intro t e he hout
    apply removeSnapshot_keeps he
    rw [Store.snapshotDir, resolve_join_name (h.isName hname.1 hname.2)]
    exact hout

end

/-- An identifier without special meaning. -/
theorem confined_snap :
    let s : Store := ⟨"/st".toList, .exclusive⟩
    Accepted "snap_1" ∧ Confined (fun _ => .ok ()) [] s "snap_1" := by
  intro s
  have haccepted : Accepted "snap_1" := accepted_iff.mpr (by decide +kernel)
  exact ⟨haccepted, (confined_iff (fun _ => .ok ()) [] s haccepted).mpr (by decide +kernel)⟩

/-! ### The store that is removed -/

/-- A store at `/st` with one snapshot, one session and its lock file. -/
def smallStore : Tree :=
  let at_ (names : List String) (node : Node) : Place × Node := (names.map String.toList, node)
  ⟨[at_ ["st"] .dir, at_ ["st", "LOCK"] (.file 0), at_ ["st", "sessions"] .dir,
    at_ ["st", "sessions", "s_1.json"] (.file 10), at_ ["st", "snapshots"] .dir,
    at_ ["st", "snapshots", "snap_1"] .dir,
    at_ ["st", "snapshots", "snap_1", "manifest.json"] (.file 20)]⟩

/-- `..` is accepted, and removing the snapshot of that name leaves of the
whole store nothing but its own directory. -/
theorem removeSnapshot_dots :
    let s : Store := ⟨"/st".toList, .exclusive⟩
    SnapshotId.fromRaw ".." = .ok ⟨".."⟩ ∧
      (s.removeSnapshot (fun _ => .ok ()) [] smallStore ⟨".."⟩) =
        (⟨[(["st".toList], .dir)]⟩, .ok 30) ∧
      ¬ ∀ (rmdir : PathText → Result Unit) (cwd : Place) (s : Store) (raw : String),
        Accepted raw → Confined rmdir cwd s raw := by
  refine ⟨by decide +kernel, by decide +kernel, ?_⟩
  intro hall
  have haccepted : Accepted ".." := accepted_iff.mpr (by decide +kernel)
  have hconfined := hall (fun _ => .ok ()) [] ⟨"/st".toList, .exclusive⟩ ".." haccepted
  -- the session file is not below the snapshot's own name, and is gone
  have hkept := hconfined.removal smallStore
    (["st".toList, "sessions".toList, "s_1.json".toList], .file 10)
    (by decide +kernel) (by decide +kernel)
  exact absurd hkept (by decide +kernel)

end Service

end TraceMcp
