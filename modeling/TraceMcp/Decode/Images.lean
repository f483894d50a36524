import TraceMcp.Lib.Word

/-!
# Archived images

Address facts of one archived ELF file (`src/decode/images.rs`). Parsing the
file is a library's work (`ImageIndex::build`), so the segments and function
ranges are given; what is computed from them is modelled.
-/

namespace TraceMcp.Decode

open TraceMcp.Lib

/-- `ImageIdentity`: which file an archived image is. -/
structure ImageIdentity where
  path : String
  contentHash : String
  buildId : Option String
  archived : Bool
  deriving DecidableEq

/-- `ArchivedImage`: the identity, where the copy lies, and its bytes. -/
structure ArchivedImage where
  identity : ImageIdentity
  archivePath : String
  bytes : List UInt8

/-- `FuncRange`: a symbol and its half-open address range. -/
structure FuncRange where
  name : String
  demangled : String
  start : Nat
  stop : Nat

/-- `Segment`: the file range of one `PT_LOAD` segment and its address. -/
structure Segment where
  fileOff : Nat
  fileSize : Nat
  vaddr : Nat

/-- `ImageIndex`: the pre-parsed facts of one image. -/
structure ImageIndex where
  segments : List Segment
  funcs : List FuncRange

/-- `partition_point` of a slice whose `p`-elements come first. -/
def partitionPoint {α : Type} (p : α → Bool) (l : List α) : Nat := (l.takeWhile p).length

/-- `lookup_function`: the last range starting at or below `addr`, if it
covers `addr`. -/
def lookupFunction (ranges : List FuncRange) (addr : Nat) : Option FuncRange :=
  match partitionPoint (fun f => f.start ≤ addr) ranges with
  | 0 => none
  | i + 1 => ranges[i]?.filter fun f => f.start ≤ addr && addr < f.stop

namespace ImageIndex

/-- `file_offset`: where a runtime address lies in the file. -/
def fileOffset (ip mapStart pgoff : Nat) : Option Nat :=
  (checkedSub ip mapStart).bind fun d => checkedAdd d pgoff

/-- `relative_addr`: the image address of a runtime address, through the first
segment whose file range holds it. -/
def relativeAddr (idx : ImageIndex) (ip mapStart pgoff : Nat) : Option Nat :=
  (fileOffset ip mapStart pgoff).map fun off =>
    match idx.segments.find? fun s => s.fileOff ≤ off && off < satAdd s.fileOff s.fileSize with
    | some s => satAdd s.vaddr (off - s.fileOff)
    | none => off

/-- `function`: the function range an image address falls in. -/
def function (idx : ImageIndex) (rel : Nat) : Option FuncRange := lookupFunction idx.funcs rel

end ImageIndex

end TraceMcp.Decode
