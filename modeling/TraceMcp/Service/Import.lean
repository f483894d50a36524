import TraceMcp.Lib.Faults
import TraceMcp.Lib.FastMap
import TraceMcp.Lib.Runs
import TraceMcp.Service.Confinement

/-!
# Importing a bundle

`import_bundle` and `copy_dir` of `src/store.rs`. The copy walks the bundle and
creates what it finds under the snapshot's own directory, one operation at a
time, and any operation can fail; nothing is put back. An import that finds the
directory trusts it once the manifest in it has the bundle's id.

`copyDir_eq` is the walk as a list of operations, so a failed import has done
those before the fault (`Device.run_perform`).
-/

namespace TraceMcp.Service

open TraceMcp.Lib PathText

/-! ## Bundles -/

/-- What a directory of a bundle lists, links followed. -/
inductive BundleEntry
  | file (name : List Char) (bytes : List UInt8)
  | dir (name : List Char) (entries : List BundleEntry)

namespace BundleEntry

def name : BundleEntry → List Char
  | file name _ => name
  | dir name _ => name

mutual

/-- The files of an entry of `dest`, each under its place. -/
def files : BundleEntry → Place → List (Place × List UInt8)
  | file name bytes, dest => [(dest ++ [name], bytes)]
  | dir name entries, dest => filesOf entries (dest ++ [name])

def filesOf : List BundleEntry → Place → List (Place × List UInt8)
  | [], _ => []
  | e :: es, dest => files e dest ++ filesOf es dest

end

mutual

/-- A directory lists no name twice. -/
def Distinct : BundleEntry → Prop
  | file _ _ => True
  | dir _ entries => DistinctAll entries

def DistinctAll : List BundleEntry → Prop
  | [] => True
  | e :: es => e.Distinct ∧ (∀ e' ∈ es, e'.name ≠ e.name) ∧ DistinctAll es

end

end BundleEntry

structure Bundle where
  entries : List BundleEntry
  distinct : BundleEntry.DistinctAll entries

def Bundle.files (b : Bundle) : List (Place × List UInt8) := BundleEntry.filesOf b.entries []

/-! ## The copy -/

/-- What lies under one snapshot directory, the directory itself at `[]`. -/
structure Stored where
  dirs : List Place
  files : FastMap Place (List UInt8)

def Stored.empty : Stored := ⟨[], ∅⟩

/-- `dest.exists()`. -/
def Stored.Exists (s : Stored) : Prop := [] ∈ s.dirs

instance (s : Stored) : Decidable s.Exists := inferInstanceAs (Decidable ([] ∈ s.dirs))

/-- What the copy asks of the file system. -/
inductive CopyOp
  | createDirAll (place : Place)
  | readDir (place : Place)
  | nextEntry (place : Place)
  | copy (place : Place) (bytes : List UInt8)

/-- A failed operation, with how many bytes a failed copy has left, if it got
to create the file. -/
structure CopyFault where
  error : Error
  left : Option Nat

/-- The file system under a snapshot directory. -/
def device : Device Stored CopyOp CopyFault Error where
  apply s
    | .createDirAll place => { s with dirs := place :: s.dirs }
    | .readDir _ => s
    | .nextEntry _ => s
    | .copy place bytes => { s with files := s.files.insert place bytes }
  spoil s
    | .copy place bytes, f =>
      match f.left with
      | some n => { s with files := s.files.insert place (bytes.take n) }
      | none => s
    | _, _ => s
  report f := f.error

section Copy

variable (io : Nat → Option CopyFault)

mutual

/-- One turn of the loop of `copy_dir`. -/
def copyEntry : BundleEntry → Place → DeviceM Stored Error Unit
  | .file name bytes, dest => device.perform io (.copy (dest ++ [name]) bytes)
  | .dir name entries, dest => do
    device.perform io (.createDirAll (dest ++ [name]))
    device.perform io (.readDir (dest ++ [name]))
    copyEntries entries (dest ++ [name])

/-- The loop of `copy_dir`; the listing can fail before each entry and at its
end. -/
def copyEntries : List BundleEntry → Place → DeviceM Stored Error Unit
  | [], dest => device.perform io (.nextEntry dest)
  | e :: es, dest => do
    device.perform io (.nextEntry dest)
    copyEntry e dest
    copyEntries es dest

end

/-- `copy_dir`. -/
def copyDir (entries : List BundleEntry) (dest : Place) : DeviceM Stored Error Unit := do
  device.perform io (.createDirAll dest)
  device.perform io (.readDir dest)
  copyEntries io entries dest

end Copy

/-! ## The import -/

/-- What one import asks the outside. -/
structure ImportEnv where
  canonicalize : Result PathText
  /-- `validate_bundle_paths`. -/
  validate : Result Unit
  /-- `ensure_budget` of the bundle's size. -/
  budget : Result Unit
  /-- Reading the manifest that is stored. -/
  reread : Result Unit
  io : Nat → Option CopyFault

/-- `manifest.json`. -/
def manifestName : List Char := "manifest.json".toList

/-- `read_json` of a manifest, as far as its id goes; `parse` is serde's. -/
def readManifest (parse : List UInt8 → Except String SnapshotId) (path : PathText) :
    Option (List UInt8) → Result SnapshotId
  | none => .error (.notFound (String.ofList path))
  | some bytes =>
    match parse bytes with
    | .ok id => .ok id
    | .error e => .error (.decodeFailed (String.ofList path ++ ": " ++ e))

def Bundle.manifest (parse : List UInt8 → Except String SnapshotId) (path : PathText)
    (src : Bundle) : Result SnapshotId :=
  match src.entries.find? fun e => e.name = manifestName with
  | some (.file _ bytes) => readManifest parse path (some bytes)
  | some (.dir ..) => .error (.decodeFailed "Is a directory (os error 21)")
  | none => readManifest parse path none

/-- What `import_bundle` checks before it looks at the store. -/
def importChecks (parse : List UInt8 → Except String SnapshotId) (s : Store) (env : ImportEnv)
    (src : Bundle) : Result SnapshotId := do
  s.ensureExclusive
  let path ← env.canonicalize
  let id ← src.manifest parse (join path manifestName)
  env.validate
  pure id

/-- `import_bundle`. -/
def Store.importBundle (parse : List UInt8 → Except String SnapshotId) (s : Store)
    (env : ImportEnv) (src : Bundle) (t : SnapshotId → Stored) :
    (SnapshotId → Stored) × Result SnapshotId :=
  match importChecks parse s env src with
  | .error e => (t, .error e)
  | .ok id =>
    if (t id).Exists then
      (t, do
        env.reread
        let existing ← readManifest parse (join (s.snapshotDir id) manifestName)
          ((t id).files.get [manifestName])
        if existing = id then pure id
        else throw (.invalidArgument "snapshot id collision with different content"))
    else
      match env.budget with
      | .error e => (t, .error e)
      | .ok () =>
        match copyDir env.io src.entries [] ⟨t id, 0⟩ with
        | (r, p) => (Function.update t id p.state, r.map fun _ => id)

/-! ## The walk as a list -/

mutual

def BundleEntry.ops : BundleEntry → Place → List CopyOp
  | .file name bytes, dest => [.copy (dest ++ [name]) bytes]
  | .dir name entries, dest =>
    .createDirAll (dest ++ [name]) :: .readDir (dest ++ [name]) :: opsOf entries (dest ++ [name])

def opsOf : List BundleEntry → Place → List CopyOp
  | [], dest => [.nextEntry dest]
  | e :: es, dest => .nextEntry dest :: (e.ops dest ++ opsOf es dest)

end

/-- What the copy of a bundle asks for, in its order. -/
def Bundle.ops (b : Bundle) : List CopyOp :=
  .createDirAll [] :: .readDir [] :: opsOf b.entries []

section Walk

variable (io : Nat → Option CopyFault)

theorem forM_single (op : CopyOp) :
    forM [op] (device.perform io) = device.perform io op := by
  rw [List.forM_cons, List.forM_nil]
  exact bind_pure_unit

mutual

theorem copyEntry_eq (e : BundleEntry) (dest : Place) :
    copyEntry io e dest = forM (e.ops dest) (device.perform io) := by
  match e with
  | .file name bytes => rw [copyEntry, BundleEntry.ops, forM_single]
  | .dir name entries =>
    rw [copyEntry, BundleEntry.ops, List.forM_cons, List.forM_cons, copyEntries_eq entries]

theorem copyEntries_eq (es : List BundleEntry) (dest : Place) :
    copyEntries io es dest = forM (opsOf es dest) (device.perform io) := by
  match es with
  | [] => rw [copyEntries, opsOf, forM_single]
  | e :: es =>
    rw [copyEntries, opsOf, List.forM_cons, List.forM_append, copyEntry_eq e, copyEntries_eq es]

end

/-- The copy carries out its operations one after the other. -/
theorem copyDir_eq (b : Bundle) : copyDir io b.entries [] = forM b.ops (device.perform io) := by
  rw [copyDir, Bundle.ops, List.forM_cons, List.forM_cons, copyEntries_eq]

end Walk

/-! ## What a copy leaves -/

/-- The files a stretch of operations writes. -/
def copies (ops : List CopyOp) : List (Place × List UInt8) :=
  ops.filterMap fun
    | .copy place bytes => some (place, bytes)
    | _ => none

theorem copies_append (ops ops' : List CopyOp) : copies (ops ++ ops') = copies ops ++ copies ops' :=
  List.filterMap_append

theorem mem_copies {ops : List CopyOp} {place : Place} {bytes : List UInt8} :
    (place, bytes) ∈ copies ops ↔ .copy place bytes ∈ ops := by
  unfold copies
  rw [List.mem_filterMap]
  constructor
  · rintro ⟨op, hop, heq⟩
    cases op with
    | copy =>
      obtain ⟨rfl, rfl⟩ := Prod.mk.inj (Option.some.inj heq)
      exact hop
    | createDirAll => cases heq
    | readDir => cases heq
    | nextEntry => cases heq
  · intro hop
    exact ⟨_, hop, rfl⟩

mutual

theorem copies_entry (e : BundleEntry) (dest : Place) : copies (e.ops dest) = e.files dest := by
  match e with
  | .file name bytes => rfl
  | .dir name entries => exact copies_entries entries (dest ++ [name])

theorem copies_entries (es : List BundleEntry) (dest : Place) :
    copies (opsOf es dest) = BundleEntry.filesOf es dest := by
  match es with
  | [] => rfl
  | e :: es =>
    rw [opsOf, BundleEntry.filesOf, ← copies_entry e, ← copies_entries es, ← copies_append]
    rfl

end

/-- The copy writes every file of the bundle. -/
theorem copies_ops (b : Bundle) : copies b.ops = b.files := copies_entries b.entries []

namespace BundleEntry

mutual

/-- The files of an entry lie at or below it. -/
theorem files_below (e : BundleEntry) (dest : Place) :
    ∀ f ∈ e.files dest, dest ++ [e.name] <+: f.1 := by
  match e with
  | .file name bytes =>
    intro f hf
    rw [List.mem_singleton.mp hf]
    exact List.prefix_rfl
  | .dir name entries =>
    intro f hf
    obtain ⟨e, -, hbelow⟩ := filesOf_below entries (dest ++ [name]) f hf
    exact (List.prefix_append _ _).trans hbelow

theorem filesOf_below (es : List BundleEntry) (dest : Place) :
    ∀ f ∈ filesOf es dest, ∃ e ∈ es, dest ++ [e.name] <+: f.1 := by
  match es with
  | [] =>
    intro f hf
    cases hf
  | e :: es =>
    intro f hf
    rcases List.mem_append.mp hf with hf | hf
    · exact ⟨e, List.mem_cons_self, files_below e dest f hf⟩
    · obtain ⟨e', he', hbelow⟩ := filesOf_below es dest f hf
      exact ⟨e', List.mem_cons_of_mem _ he', hbelow⟩

end

/-- What lies below two entries of a directory has one name there. -/
theorem name_eq_of_below {dest p : Place} {n n' : List Char} (h : dest ++ [n] <+: p)
    (h' : dest ++ [n'] <+: p) : n = n' := by
  obtain ⟨r, rfl⟩ := h
  rw [List.append_assoc, List.prefix_append_right_inj, List.singleton_append] at h'
  exact (List.cons_prefix_cons.mp h').1.symm

mutual

theorem nodup_files (e : BundleEntry) (dest : Place) (h : e.Distinct) :
    ((e.files dest).map (·.1)).Nodup := by
  match e, h with
  | .file name bytes, _ => exact List.nodup_singleton _
  | .dir name entries, h => exact nodup_filesOf entries (dest ++ [name]) h

theorem nodup_filesOf (es : List BundleEntry) (dest : Place) (h : DistinctAll es) :
    ((filesOf es dest).map (·.1)).Nodup := by
  match es, h with
  | [], _ => exact List.nodup_nil
  | e :: es, h =>
    rw [filesOf, List.map_append]
    refine List.nodup_append'.mpr ⟨nodup_files e dest h.1, nodup_filesOf es dest h.2.2, ?_⟩
    intro p hp hp'
    obtain ⟨f, hf, rfl⟩ := List.mem_map.mp hp
    obtain ⟨f', hf', heq⟩ := List.mem_map.mp hp'
    obtain ⟨e', he', hbelow⟩ := filesOf_below es dest f' hf'
    rw [heq] at hbelow
    exact h.2.1 e' he' (name_eq_of_below hbelow (files_below e dest f hf))

end

end BundleEntry

theorem nodup_copies (b : Bundle) : ((copies b.ops).map (·.1)).Nodup := by
  rw [copies_ops]
  exact BundleEntry.nodup_filesOf b.entries [] b.distinct

section Apply

variable {ops : List CopyOp} {s : Stored} {place : Place} {bytes : List UInt8}

theorem get_apply_other (h : place ∉ (copies ops).map (·.1)) :
    (ops.foldl device.apply s).files.get place = s.files.get place := by
  induction ops generalizing s with
  | nil => rfl
  | cons op ops ih =>
    rw [List.foldl_cons]
    cases op with
    | createDirAll => exact ih h
    | readDir => exact ih h
    | nextEntry => exact ih h
    | copy place' bytes' =>
      obtain ⟨hne, hrest⟩ := not_or.mp (mt List.mem_cons.mpr h)
      rw [ih hrest]
      exact (FastMap.get_insert ..).trans (if_neg hne)

/-- A file that was written once is there. -/
theorem get_apply (hnodup : ((copies ops).map (·.1)).Nodup) (h : (place, bytes) ∈ copies ops) :
    (ops.foldl device.apply s).files.get place = some bytes := by
  induction ops generalizing s with
  | nil => cases h
  | cons op ops ih =>
    rw [List.foldl_cons]
    cases op with
    | createDirAll => exact ih hnodup h
    | readDir => exact ih hnodup h
    | nextEntry => exact ih hnodup h
    | copy place' bytes' =>
      obtain ⟨hfresh, hnodup⟩ := List.nodup_cons.mp hnodup
      rcases List.mem_cons.mp h with heq | hrest
      · obtain ⟨rfl, rfl⟩ := Prod.mk.inj heq
        rw [get_apply_other hfresh]
        exact FastMap.get_insert_self ..
      · exact ih hnodup hrest

theorem exists_apply (h : s.Exists) : (ops.foldl device.apply s).Exists := by
  induction ops generalizing s with
  | nil => exact h
  | cons op ops ih =>
    rw [List.foldl_cons]
    apply ih
    cases op with
    | createDirAll => exact List.mem_cons_of_mem _ h
    | readDir => exact h
    | nextEntry => exact h
    | copy => exact h

theorem exists_spoil (op : CopyOp) (f : CopyFault) : (device.spoil s op f).Exists ↔ s.Exists := by
  cases op with
  | createDirAll => exact Iff.rfl
  | readDir => exact Iff.rfl
  | nextEntry => exact Iff.rfl
  | copy place bytes =>
    show (match f.left with | some n => _ | none => _ : Stored).Exists ↔ _
    cases f.left <;> exact Iff.rfl

end Apply

/-! ## One import -/

/-- The manifest of the bundle is a file of its own, and has this id. -/
def Bundle.HasId (parse : List UInt8 → Except String SnapshotId) (src : Bundle) (id : SnapshotId) :
    Prop :=
  ∃ bytes, .file manifestName bytes ∈ src.entries ∧ parse bytes = .ok id

/-- A snapshot whose manifest can be loaded under the id. -/
def Loadable (parse : List UInt8 → Except String SnapshotId) (id : SnapshotId) (s : Stored) :
    Prop :=
  ∃ bytes, s.files.get [manifestName] = some bytes ∧ parse bytes = .ok id

/-- Every file of the bundle is there with its bytes. -/
def Bundle.StoredIn (src : Bundle) (s : Stored) : Prop :=
  ∀ f ∈ src.files, s.files.get f.1 = some f.2

/-- The import gets to copying. -/
structure Copies (parse : List UInt8 → Except String SnapshotId) (src : Bundle) (id : SnapshotId)
    (t : SnapshotId → Stored) (a : Store × ImportEnv) : Prop where
  checks : importChecks parse a.1 a.2 src = .ok id
  free : ¬ (t id).Exists
  budget : a.2.budget = .ok ()

section One

variable {parse : List UInt8 → Except String SnapshotId} {src : Bundle} {id : SnapshotId}
  {t : SnapshotId → Stored} {a : Store × ImportEnv}

theorem find_manifest {es : List BundleEntry} {bytes : List UInt8}
    (hdistinct : BundleEntry.DistinctAll es) (h : .file manifestName bytes ∈ es) :
    es.find? (fun e => e.name = manifestName) = some (.file manifestName bytes) := by
  induction es with
  | nil => cases h
  | cons e es ih =>
    rcases List.mem_cons.mp h with rfl | h
    · exact List.find?_cons_of_pos (decide_eq_true rfl)
    · have hne : e.name ≠ manifestName := fun heq => hdistinct.2.1 _ h heq.symm
      rw [List.find?_cons_of_neg (by simpa using hne)]
      exact ih hdistinct.2.2 h

theorem manifest_ok (hid : src.HasId parse id) (path : PathText) :
    src.manifest parse path = .ok id := by
  obtain ⟨bytes, hmem, hparse⟩ := hid
  unfold Bundle.manifest
  rw [find_manifest src.distinct hmem]
  dsimp only
  unfold readManifest
  dsimp only
  rw [hparse]

theorem mem_filesOf {es : List BundleEntry} {name : List Char} {bytes : List UInt8} {dest : Place}
    (h : .file name bytes ∈ es) : (dest ++ [name], bytes) ∈ BundleEntry.filesOf es dest := by
  induction es with
  | nil => cases h
  | cons e es ih =>
    rw [BundleEntry.filesOf]
    rcases List.mem_cons.mp h with rfl | h
    · exact List.mem_append_left _ List.mem_cons_self
    · exact List.mem_append_right _ (ih h)

theorem readManifest_ok {path : PathText} {bytes : Option (List UInt8)} {id' : SnapshotId}
    (h : readManifest parse path bytes = .ok id') : ∃ b, bytes = some b ∧ parse b = .ok id' := by
  unfold readManifest at h
  split at h
  next => cases h
  next b =>
    split at h
    next hparse =>
      cases h
      exact ⟨b, rfl, hparse⟩
    next => cases h

theorem importChecks_ok {s : Store} {env : ImportEnv} {id' : SnapshotId}
    (hid : src.HasId parse id) (h : importChecks parse s env src = .ok id') : id' = id := by
  unfold importChecks at h
  obtain ⟨-, -, h⟩ := bind_ok.mp h
  obtain ⟨path, -, h⟩ := bind_ok.mp h
  obtain ⟨id₁, hid₁, h⟩ := bind_ok.mp h
  obtain ⟨-, -, h⟩ := bind_ok.mp h
  rw [manifest_ok hid] at hid₁
  cases hid₁
  cases h
  rfl

theorem importChecks_pass {s : Store} {env : ImportEnv} {path : PathText} (hid : src.HasId parse id)
    (hmode : s.mode = .exclusive) (hpath : env.canonicalize = .ok path)
    (hvalid : env.validate = .ok ()) : importChecks parse s env src = .ok id := by
  unfold importChecks Store.ensureExclusive
  rw [if_pos hmode, hpath, hvalid]
  show (src.manifest parse (join path manifestName) >>= fun id => _) = _
  rw [manifest_ok hid]
  rfl

/-- What an import can come to: nothing changes, and if it succeeds the
snapshot was loadable; or it copies, all of the bundle or up to a fault. -/
theorem importBundle_cases (hid : src.HasId parse id) (t : SnapshotId → Stored)
    (a : Store × ImportEnv) :
    ((a.1.importBundle parse a.2 src t).1 = t ∧
      ∀ id', (a.1.importBundle parse a.2 src t).2 = .ok id' →
        (t id).Exists ∧ Loadable parse id (t id)) ∨
    Copies parse src id t a ∧
      (((a.1.importBundle parse a.2 src t).1 id = src.ops.foldl device.apply (t id) ∧
          (a.1.importBundle parse a.2 src t).2 = .ok id) ∨
        ∃ done op f, Device.Strikes a.2.io 0 src.ops done op f ∧
          (a.1.importBundle parse a.2 src t).1 id =
            device.spoil (done.foldl device.apply (t id)) op f ∧
          (a.1.importBundle parse a.2 src t).2 = .error f.error) := by
  unfold Store.importBundle
  cases hchecks : importChecks parse a.1 a.2 src with
  | error e => exact .inl ⟨rfl, fun id' h => by cases h⟩
  | ok id' =>
    obtain rfl := importChecks_ok hid hchecks
    dsimp only
    -- a snapshot that is there is only compared; nothing is copied over it
    by_cases hexists : (t id').Exists
    · rw [if_pos hexists]
      refine .inl ⟨rfl, fun id₂ h => ⟨hexists, ?_⟩⟩
      obtain ⟨-, -, h⟩ := bind_ok.mp h
      obtain ⟨existing, hread, h⟩ := bind_ok.mp h
      split at h
      next heq =>
        subst heq
        exact readManifest_ok hread
      next => cases h
    · rw [if_neg hexists]
      cases hbudget : a.2.budget with
      | error e => exact .inl ⟨rfl, fun id₂ h => by cases h⟩
      | ok u =>
        refine .inr ⟨⟨hchecks, hexists, hbudget⟩, ?_⟩
        rw [copyDir_eq]
        rcases @Device.run_perform _ _ _ _ device a.2.io src.ops ⟨t id', 0⟩ with
          ⟨-, hrun⟩ | ⟨done, op, f, hstrike, hrun⟩
        · rw [hrun]
          exact .inl ⟨Function.update_self .., rfl⟩
        · rw [hrun]
          exact .inr ⟨done, op, f, hstrike, Function.update_self .., rfl⟩

end One

/-! ## All or nothing -/

/-- The store after some attempts to import the bundle. -/
def importAll (parse : List UInt8 → Except String SnapshotId) (src : Bundle)
    (attempts : List (Store × ImportEnv)) (t : SnapshotId → Stored) : SnapshotId → Stored :=
  attempts.foldl (fun t a => (a.1.importBundle parse a.2 src t).1) t

/-- An import comes to all or nothing, where `Snap` is what counts as a
snapshot. -/
structure Whole (parse : List UInt8 → Except String SnapshotId) (src : Bundle) (id : SnapshotId)
    (Snap : Stored → Prop) (t : SnapshotId → Stored) (a : Store × ImportEnv) : Prop where
  failed : ∀ e, (a.1.importBundle parse a.2 src t).2 = .error e → ¬ Snap (t id) →
    ¬ Snap ((a.1.importBundle parse a.2 src t).1 id)
  done : ∀ id', (a.1.importBundle parse a.2 src t).2 = .ok id' →
    src.StoredIn ((a.1.importBundle parse a.2 src t).1 id)

/-- So does every attempt in a row of them. -/
def AllWhole (parse : List UInt8 → Except String SnapshotId) (src : Bundle) (id : SnapshotId)
    (Snap : Stored → Prop) (attempts : List (Store × ImportEnv)) (t : SnapshotId → Stored) : Prop :=
  ∀ pre a post, attempts = pre ++ a :: post → Whole parse src id Snap (importAll parse src pre t) a

section All

variable {parse : List UInt8 → Except String SnapshotId} {src : Bundle} {id : SnapshotId}
  {t : SnapshotId → Stored} {a : Store × ImportEnv} {Snap : Stored → Prop}

/-- Nothing is stored under the id, or its directory is there. -/
def Settled (s : Stored) : Prop := s = .empty ∨ s.Exists

/-- What is stored under the id is whole, or cannot be loaded. -/
def Sound (src : Bundle) (parse : List UInt8 → Except String SnapshotId) (id : SnapshotId)
    (s : Stored) : Prop :=
  s = .empty ∨ (s.Exists ∧ (src.StoredIn s ∨ ¬ Loadable parse id s))

theorem Sound.settled {s : Stored} (h : Sound src parse id s) : Settled s :=
  h.imp_right And.left

theorem ops_whole (src : Bundle) (s : Stored) : (src.ops.foldl device.apply s).Exists ∧
    src.StoredIn (src.ops.foldl device.apply s) := by
  refine ⟨?_, fun f hf => ?_⟩
  · show (List.foldl device.apply (device.apply s (.createDirAll [])) _).Exists
    exact exists_apply List.mem_cons_self
  apply get_apply (nodup_copies src)
  rw [copies_ops]
  exact hf

/-- Before the fault there is nothing, or the snapshot's directory. -/
theorem struck_settled {io : Nat → Option CopyFault} {done : List CopyOp} {op : CopyOp}
    {f : CopyFault} (h : Device.Strikes io 0 src.ops done op f) :
    (done = [] ∧ device.spoil (done.foldl device.apply .empty) op f = .empty) ∨
      (done ≠ [] ∧ (device.spoil (done.foldl device.apply .empty) op f).Exists) := by
  obtain ⟨rest, hsplit⟩ := h.split
  cases done with
  | nil =>
    obtain rfl : CopyOp.createDirAll [] = op := (List.cons.inj hsplit).1
    exact .inl ⟨rfl, rfl⟩
  | cons op' done =>
    obtain rfl : CopyOp.createDirAll [] = op' := (List.cons.inj hsplit).1
    refine .inr ⟨List.cons_ne_nil _ _, (exists_spoil op f).mpr ?_⟩
    show (done.foldl device.apply (device.apply .empty (.createDirAll []))).Exists
    exact exists_apply List.mem_cons_self

theorem importBundle_settled (hid : src.HasId parse id) (h : Settled (t id)) :
    Settled ((a.1.importBundle parse a.2 src t).1 id) := by
  rcases importBundle_cases hid t a with
    ⟨hsame, -⟩ | ⟨hcopies, ⟨hall, -⟩ | ⟨done, op, f, hstrike, hleft, -⟩⟩
  · rw [hsame]
    exact h
  · rw [hall]
    exact .inr (ops_whole src (t id)).1
  · rw [hleft, h.resolve_right hcopies.free]
    exact (struck_settled hstrike).imp And.right And.right

/-- What a struck copy leaves counts as a snapshot where it can be loaded. -/
def CountsLoadable (parse : List UInt8 → Except String SnapshotId) (src : Bundle) (id : SnapshotId)
    (Snap : Stored → Prop) : Prop :=
  ∀ io done op f, Device.Strikes io 0 src.ops done op f →
    Loadable parse id (device.spoil (done.foldl device.apply .empty) op f) →
      Snap (device.spoil (done.foldl device.apply .empty) op f)

/-- Nothing that a struck copy leaves counts as a snapshot. -/
def LeavesNone (src : Bundle) (Snap : Stored → Prop) (io : Nat → Option CopyFault) : Prop :=
  ∀ done op f, Device.Strikes io 0 src.ops done op f →
    ¬ Snap (device.spoil (done.foldl device.apply .empty) op f)

theorem importBundle_whole (hid : src.HasId parse id)
    (hload : CountsLoadable parse src id Snap) (h : Sound src parse id (t id))
    (hleaves : Copies parse src id t a → LeavesNone src Snap a.2.io) :
    Whole parse src id Snap t a ∧
      Sound src parse id ((a.1.importBundle parse a.2 src t).1 id) := by
  rcases importBundle_cases hid t a with
    ⟨hsame, hok⟩ | ⟨hcopies, ⟨hall, hok⟩ | ⟨done, op, f, hstrike, hleft, herror⟩⟩
  · refine ⟨⟨fun e _ hno => ?_, fun id' hdone => ?_⟩, ?_⟩
    · rw [hsame]
      exact hno
    · -- a directory that is trusted is whole
      obtain ⟨hexists, hloads⟩ := hok id' hdone
      rw [hsame]
      rcases h with hempty | ⟨-, hwhole | hno⟩
      · rw [hempty] at hexists
        cases hexists
      · exact hwhole
      · exact absurd hloads hno
    · rw [hsame]
      exact h
  · obtain ⟨hexists, hwhole⟩ := ops_whole src (t id)
    rw [← hall] at hexists hwhole
    refine ⟨⟨fun e he => ?_, fun _ _ => hwhole⟩, .inr ⟨hexists, .inl hwhole⟩⟩
    cases hok.symm.trans he
  · have hnone := hleaves hcopies done op f hstrike
    rw [h.settled.resolve_right hcopies.free] at hleft
    rw [← hleft] at hnone
    refine ⟨⟨fun _ _ _ => hnone, fun id' hdone => ?_⟩, ?_⟩
    · cases herror.symm.trans hdone
    · rcases struck_settled hstrike with ⟨-, hempty⟩ | ⟨-, hexists⟩
      · exact .inl (hleft.trans hempty)
      · rw [← hleft] at hexists
        refine .inr ⟨hexists, .inr fun hloads => hnone ?_⟩
        rw [hleft] at hloads ⊢
        exact hload _ _ _ _ hstrike hloads

/-- A copy that is struck leaves what the fault left. -/
theorem importBundle_struck {done : List CopyOp} {op : CopyOp} {f : CopyFault}
    (hcopies : Copies parse src id t a) (h : Device.Strikes a.2.io 0 src.ops done op f) :
    (a.1.importBundle parse a.2 src t).1 id = device.spoil (done.foldl device.apply (t id)) op f ∧
      (a.1.importBundle parse a.2 src t).2 = .error f.error := by
  have hrun := @Device.Strikes.run _ _ _ _ device _ _ _ _ _ ⟨t id, 0⟩ h
  unfold Store.importBundle
  rw [hcopies.checks]
  dsimp only
  rw [if_neg hcopies.free, hcopies.budget]
  dsimp only
  rw [copyDir_eq, hrun]
  exact ⟨Function.update_self .., rfl⟩

theorem importAll_append (pre post : List (Store × ImportEnv)) (t : SnapshotId → Stored) :
    importAll parse src (pre ++ post) t = importAll parse src post (importAll parse src pre t) :=
  List.foldl_append

/-- A row of attempts comes to all or nothing exactly when no copy in it
leaves a snapshot behind. -/
theorem allWhole_iff (hid : src.HasId parse id) (hload : CountsLoadable parse src id Snap)
    (hnone : ¬ Snap .empty) (hfree : t id = .empty) (attempts : List (Store × ImportEnv)) :
    AllWhole parse src id Snap attempts t ↔
      ∀ pre a post, attempts = pre ++ a :: post →
        Copies parse src id (importAll parse src pre t) a → LeavesNone src Snap a.2.io := by
  constructor
  · intro hall pre a post hsplit hcopies done op f hstrike
    have hsettled : ∀ (l : List (Store × ImportEnv)) (t : SnapshotId → Stored), Settled (t id) →
        Settled (importAll parse src l t id) := by
      intro l
      induction l with
      | nil => exact fun _ h => h
      | cons a l ih => exact fun t h => ih _ (importBundle_settled hid h)
    have hempty := (hsettled pre t (.inl hfree)).resolve_right hcopies.free
    obtain ⟨hleft, herror⟩ := importBundle_struck hcopies hstrike
    have hfailed := (hall pre a post hsplit).failed f.error herror (by rw [hempty]; exact hnone)
    rw [hleft, hempty] at hfailed
    exact hfailed
  · intro hleaves pre a post hsplit
    have hsound : ∀ (l l' : List (Store × ImportEnv)), pre = l ++ l' →
        Sound src parse id (importAll parse src l t id) := by
      intro l
      induction l using List.reverseRecOn with
      | nil => exact fun _ _ => .inl hfree
      | append_singleton l b ih =>
        intro l' hpre
        have hl := ih (b :: l') (by rw [hpre, List.append_assoc]; rfl)
        rw [importAll_append]
        refine (importBundle_whole hid hload hl (hleaves l b (l' ++ a :: post) ?_)).2
        rw [hsplit, hpre, List.append_assoc, List.append_assoc]
        rfl
    exact (importBundle_whole hid hload (hsound pre [] (List.append_nil pre).symm)
      (hleaves pre a post hsplit)).1

/-! ## What a fault leaves -/

/-- The manifest was copied before the fault, or the fault left enough of it. -/
def ManifestLeft (parse : List UInt8 → Except String SnapshotId) (id : SnapshotId)
    (done : List CopyOp) (op : CopyOp) (f : CopyFault) : Prop :=
  (∃ bytes, .copy [manifestName] bytes ∈ done) ∨
    ∃ bytes n, op = .copy [manifestName] bytes ∧ f.left = some n ∧ parse (bytes.take n) = .ok id

theorem get_spoil_copy {s : Stored} {place place' : Place} {bytes : List UInt8} {f : CopyFault}
    {n : Nat} (h : f.left = some n) : (device.spoil s (.copy place bytes) f).files.get place' =
      if place' = place then some (bytes.take n) else s.files.get place' := by
  show FastMap.get (match f.left with | some n => _ | none => _ : Stored).files place' = _
  rw [h]
  exact FastMap.get_insert ..

/-- A fault changes at most the file it strikes. -/
theorem get_spoil_other {s : Stored} {place : Place} {op : CopyOp} {f : CopyFault}
    (h : ∀ bytes, op ≠ .copy place bytes) :
    (device.spoil s op f).files.get place = s.files.get place := by
  cases op with
  | createDirAll => rfl
  | readDir => rfl
  | nextEntry => rfl
  | copy place' bytes =>
    cases hleft : f.left with
    | none =>
      show FastMap.get (match f.left with | some n => _ | none => _ : Stored).files place = _
      rw [hleft]
    | some n =>
      rw [get_spoil_copy hleft, if_neg]
      rintro rfl
      exact h bytes rfl

theorem loadable_left_iff (hid : src.HasId parse id) {io : Nat → Option CopyFault}
    {done : List CopyOp} {op : CopyOp} {f : CopyFault}
    (h : Device.Strikes io 0 src.ops done op f) :
    Loadable parse id (device.spoil (done.foldl device.apply .empty) op f) ↔
      ManifestLeft parse id done op f := by
  obtain ⟨manifest, hmanifest, hparse⟩ := hid
  have hfile : ([manifestName], manifest) ∈ copies src.ops := by
    rw [copies_ops]
    exact mem_filesOf hmanifest
  obtain ⟨rest, hsplit⟩ := h.split
  have hnodup := nodup_copies src
  rw [hsplit, copies_append] at hnodup hfile
  rw [List.map_append] at hnodup
  obtain ⟨hdone, -, hdisjoint⟩ := List.nodup_append'.mp hnodup
  by_cases hcopied : [manifestName] ∈ (copies done).map (·.1)
  · -- the manifest was copied, and the fault struck another file
    obtain ⟨⟨place, bytes⟩, hmem, hplace⟩ := List.mem_map.mp hcopied
    obtain rfl : place = [manifestName] := hplace
    have hrest : ∀ b, ([manifestName], b) ∉ copies (op :: rest) := fun b hb =>
      hdisjoint hcopied (List.mem_map_of_mem hb)
    have hother : ∀ b, op ≠ .copy [manifestName] b := by
      rintro b rfl
      exact hrest b (mem_copies.mpr List.mem_cons_self)
    have hbytes : (done.foldl device.apply .empty).files.get [manifestName] = some manifest :=
      get_apply hdone ((List.mem_append.mp hfile).resolve_right (hrest manifest))
    refine iff_of_true ⟨manifest, ?_, hparse⟩ (.inl ⟨bytes, mem_copies.mp hmem⟩)
    rw [get_spoil_other hother, hbytes]
  · have hnone : (done.foldl device.apply .empty).files.get [manifestName] = none :=
      get_apply_other hcopied
    have hdoneNone : ∀ b, CopyOp.copy [manifestName] b ∉ done := fun b hb =>
      hcopied (List.mem_map_of_mem (mem_copies.mpr hb))
    constructor
    · rintro ⟨bytes, hget, hload⟩
      by_cases hop : ∃ b, op = .copy [manifestName] b
      · obtain ⟨b, rfl⟩ := hop
        cases hleft : f.left with
        | none =>
          have hsame : (device.spoil (done.foldl device.apply .empty)
              (.copy [manifestName] b) f).files.get [manifestName] = none := by
            show FastMap.get (match f.left with | some n => _ | none => _ : Stored).files _ = _
            rw [hleft]
            exact hnone
          cases hsame.symm.trans hget
        | some n =>
          rw [get_spoil_copy hleft, if_pos rfl] at hget
          obtain rfl := Option.some.inj hget
          exact .inr ⟨b, n, rfl, hleft, hload⟩
      · rw [get_spoil_other fun b hb => hop ⟨b, hb⟩, hnone] at hget
        cases hget
    · rintro (⟨b, hb⟩ | ⟨b, n, rfl, hleft, hload⟩)
      · exact absurd hb (hdoneNone b)
      · refine ⟨b.take n, ?_, hload⟩
        rw [get_spoil_copy hleft, if_pos rfl]

theorem exists_left_iff {io : Nat → Option CopyFault} {done : List CopyOp} {op : CopyOp}
    {f : CopyFault} (h : Device.Strikes io 0 src.ops done op f) :
    (device.spoil (done.foldl device.apply .empty) op f).Exists ↔ done ≠ [] := by
  rcases struck_settled h with ⟨hnil, hempty⟩ | ⟨hne, hexists⟩
  · rw [hempty]
    exact iff_of_false List.not_mem_nil (fun hne => hne hnil)
  · exact iff_of_true hexists hne

theorem Loadable.files {s : Stored} (h : Loadable parse id s) : s.files ≠ ∅ := by
  obtain ⟨bytes, hget, -⟩ := h
  intro hempty
  rw [hempty] at hget
  cases hget

/-- A row of imports into a store without the snapshot comes to all or nothing:
counting directories, exactly when no attempt fails after it has created the
snapshot's; counting manifests, exactly when none fails once the manifest is
there. -/
theorem import_whole_iff (hid : src.HasId parse id) (hfree : t id = .empty)
    (attempts : List (Store × ImportEnv)) :
    (AllWhole parse src id Stored.Exists attempts t ↔
      ∀ pre a post, attempts = pre ++ a :: post →
        Copies parse src id (importAll parse src pre t) a →
          ∀ done op f, Device.Strikes a.2.io 0 src.ops done op f → done = []) ∧
    (AllWhole parse src id (Loadable parse id) attempts t ↔
      ∀ pre a post, attempts = pre ++ a :: post →
        Copies parse src id (importAll parse src pre t) a →
          ∀ done op f, Device.Strikes a.2.io 0 src.ops done op f →
            ¬ ManifestLeft parse id done op f) := by
  have hnone : ¬ Loadable parse id .empty := fun h => h.files rfl
  constructor
  · have hload : CountsLoadable parse src id Stored.Exists := by
      intro io done op f hstrike hloads
      rcases struck_settled hstrike with ⟨-, hempty⟩ | ⟨-, hexists⟩
      · rw [hempty] at hloads
        exact absurd hloads hnone
      · exact hexists
    refine (allWhole_iff hid hload List.not_mem_nil hfree attempts).trans ?_
    refine forall₃_congr fun pre a post => forall₂_congr fun _ _ => ?_
    refine forall₃_congr fun done op f => forall_congr' fun hstrike => ?_
    rw [exists_left_iff hstrike, not_not]
  · refine (allWhole_iff hid (fun _ _ _ _ _ h => h) hnone hfree attempts).trans ?_
    refine forall₃_congr fun pre a post => forall₂_congr fun _ _ => ?_
    refine forall₃_congr fun done op f => forall_congr' fun hstrike => ?_
    exact not_congr (loadable_left_iff hid hstrike)

/-! ### A bundle of two files -/

/-- A manifest with every field that has no default. -/
def smallManifest : List UInt8 :=
  ("\x7b\"schema_version\":1,\"snapshot_id\":\"s\",\"session_id\":\"s\"," ++
    "\"capture_reason\":\"snapshot\",\"lifecycle\":\"captured\",\"requested_config\":\x7b\x7d," ++
    "\"effective_event\":\"\",\"cpu_vendor\":\"\",\"cpu_model\":\"\",\"kernel\":\"\"," ++
    "\"perf_version\":\"\",\"perf_argv\":[],\"raw_bytes\":\"0\"," ++
    "\"target\":\x7b\"kind\":\"attach\",\"pid\":1\x7d,\"observed_threads\":[],\"images\":[]," ++
    "\"missing_images\":[],\"redecode_ready\":false,\"diagnostics\":[]\x7d").toUTF8.toList

def smallParse (bytes : List UInt8) : Except String SnapshotId :=
  if bytes = smallManifest then .ok ⟨"s"⟩
  else .error "EOF while parsing a value at line 1 column 0"

def smallBundle : Bundle where
  entries := [.file manifestName smallManifest, .file "perf.data".toList [0]]
  distinct := by
    refine ⟨trivial, ?_, trivial, nofun, trivial⟩
    intro e he
    rw [List.mem_singleton.mp he]
    decide

theorem smallBundle_hasId : smallBundle.HasId smallParse ⟨"s"⟩ :=
  ⟨smallManifest, List.mem_cons_self, if_pos rfl⟩

/-- An import whose `n`-th operation fails for want of room. -/
def fullAt (n : Nat) : Store × ImportEnv :=
  (⟨"/store".toList, .exclusive⟩,
    { canonicalize := .ok "/bundle".toList
      validate := .ok ()
      budget := .ok ()
      reread := .ok ()
      io := fun i =>
        if i = n then some ⟨.decodeFailed "No space left on device (os error 28)", none⟩ else none })

theorem fullAt_strikes {n : Nat} {ops done : List CopyOp} {op : CopyOp} {f : CopyFault}
    (h : Device.Strikes (fullAt n).2.io 0 ops done op f) : done.length = n ∧ n < ops.length := by
  have hn : done.length = n := by
    by_contra hne
    have hio : (if 0 + done.length = n then _ else none) = some f := h.strikes
    rw [Nat.zero_add, if_neg hne] at hio
    cases hio
  obtain ⟨rest, hsplit⟩ := h.split
  refine ⟨hn, ?_⟩
  rw [hsplit, List.length_append, List.length_cons, hn]
  omega

/-- `import_whole_iff` where the directory cannot be created at first, and then
there is room for more than the bundle. -/
theorem import_whole_retried :
    AllWhole smallParse smallBundle ⟨"s"⟩ Stored.Exists [fullAt 0, fullAt 1000] (fun _ => .empty) ∧
      AllWhole smallParse smallBundle ⟨"s"⟩ (Loadable smallParse ⟨"s"⟩) [fullAt 0, fullAt 1000]
        fun _ => .empty := by
  have hfirst : ∀ a ∈ [fullAt 0, fullAt 1000], ∀ done op f,
      Device.Strikes a.2.io 0 smallBundle.ops done op f → done = [] := by
    intro a ha done op f hstrike
    rcases List.mem_cons.mp ha with rfl | ha
    · exact List.eq_nil_of_length_eq_zero (fullAt_strikes hstrike).1
    · rw [List.mem_singleton.mp ha] at hstrike
      have hshort : smallBundle.ops.length = 7 := rfl
      have hlong := (fullAt_strikes hstrike).2
      omega
  obtain ⟨hexists, hloads⟩ := import_whole_iff (t := fun _ => .empty) smallBundle_hasId rfl
    [fullAt 0, fullAt 1000]
  constructor
  · refine hexists.mpr fun pre a post hsplit _ => hfirst a ?_
    exact hsplit ▸ List.mem_append_right _ List.mem_cons_self
  · refine hloads.mpr fun pre a post hsplit _ done op f hstrike hleft => ?_
    obtain rfl := hfirst a (hsplit ▸ List.mem_append_right _ List.mem_cons_self) done op f hstrike
    rcases hleft with ⟨bytes, hmem⟩ | ⟨bytes, n, rfl, -⟩
    · exact List.not_mem_nil hmem
    · obtain ⟨rest, hops⟩ := hstrike.split
      cases hops

/-- The manifest is copied, the next file is not: a failed import has left a
snapshot. -/
theorem import_partial :
    ¬ ∀ (parse : List UInt8 → Except String SnapshotId) (src : Bundle) (id : SnapshotId)
      (t : SnapshotId → Stored) (attempts : List (Store × ImportEnv)), src.HasId parse id →
        t id = .empty → AllWhole parse src id (Loadable parse id) attempts t := by
  intro h
  have hall := h smallParse smallBundle ⟨"s"⟩ (fun _ => .empty) [fullAt 5] smallBundle_hasId rfl
  have hstrike : Device.Strikes (fullAt 5).2.io 0 smallBundle.ops
      [.createDirAll [], .readDir [], .nextEntry [], .copy [manifestName] smallManifest,
        .nextEntry []]
      (.copy ["perf.data".toList] [0])
      ⟨.decodeFailed "No space left on device (os error 28)", none⟩ := by
    refine ⟨⟨[.nextEntry []], ?_⟩, fun i hi => if_neg ?_, rfl⟩
    · simp only [Bundle.ops, smallBundle, opsOf, BundleEntry.ops, List.nil_append,
        List.cons_append]
    · rw [List.length_cons, List.length_cons, List.length_cons, List.length_cons, List.length_cons,
        List.length_nil] at hi
      omega
  have hcopies : Copies smallParse smallBundle ⟨"s"⟩ (fun _ => .empty) (fullAt 5) := by
    exact ⟨importChecks_pass smallBundle_hasId rfl rfl rfl, List.not_mem_nil, rfl⟩
  obtain ⟨hleft, herror⟩ := importBundle_struck hcopies hstrike
  have hfailed := (hall [] (fullAt 5) [] rfl).failed _ herror fun h => h.files rfl
  have hload := (loadable_left_iff smallBundle_hasId hstrike).mpr
    (.inl ⟨smallManifest, by simp⟩)
  rw [← hleft] at hload
  exact hfailed hload

end All

end TraceMcp.Service
