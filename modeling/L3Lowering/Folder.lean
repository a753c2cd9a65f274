import L3Lowering.Source.Basic

namespace L3Lowering

inductive FileError where
  | missing
  | notFolder
  | isFolder
  | nameTooLong
  | badName
  | notText
  deriving DecidableEq

def FileError.text : FileError → String
  | .missing => "No such file or directory (os error 2)"
  | .notFolder => "Not a directory (os error 20)"
  | .isFolder => "Is a directory (os error 21)"
  | .nameTooLong => "File name too long (os error 36)"
  | .badName => "file name contained an unexpected NUL byte"
  | .notText => "stream did not contain valid UTF-8"

def maxNameSize : Nat :=
  255

def maxPathSize : Nat :=
  4095

inductive Entry where
  | folder
  | file (content : ByteArray)

inductive Anchor where
  | above (levels : Nat)
  | root
  deriving DecidableEq

/-- Names, in order, on the way down from an anchor. -/
structure Location where
  anchor : Anchor
  names : List String
  deriving DecidableEq

namespace Location

def below (names : List String) : Location :=
  ⟨.above 0, names⟩

def child (place : Location) (name : String) : Location :=
  ⟨place.anchor, place.names ++ [name]⟩

def parent (place : Location) : Location :=
  match place.names, place.anchor with
  | [], .root => place
  | [], .above levels => ⟨.above (levels + 1), []⟩
  | names, anchor => ⟨anchor, names.dropLast⟩

end Location

structure Folder where
  entries : List (Location × Entry)

namespace Folder

def entry? (folder : Folder) (place : Location) : Option Entry :=
  match place.names, folder.entries.find? (·.1 = place) with
  | [], _ => some .folder
  | _, some found => some found.2
  | names, none =>
    if folder.entries.any fun entry =>
        entry.1.anchor = place.anchor && names.isPrefixOf entry.1.names
    then some .folder
    else none

/-- The location that steps lead to from another one. Every step starts in a folder. -/
def follow (folder : Folder) (place : Location) : List String → Except FileError Location
  | [] => .ok place
  | step :: steps =>
    match folder.entry? place with
    | none => .error .missing
    | some (.file _) => .error .notFolder
    | some .folder =>
      if step = "" ∨ step = "." then folder.follow place steps
      else if step = ".." then folder.follow place.parent steps
      else if maxNameSize < step.utf8ByteSize then .error .nameTooLong
      else folder.follow (place.child step) steps

def followPath (folder : Folder) (path : String) (steps : List String) :
    Except FileError Location :=
  if path.toList.contains '\x00' then .error .badName
  else if path = "" then .error .missing
  else if maxPathSize < path.utf8ByteSize then .error .nameTooLong
  else folder.follow (if path.toList.head? = some '/' then ⟨.root, []⟩ else .below []) steps

def locate (folder : Folder) (path : String) : Except FileError Location :=
  folder.followPath path (path.splitOn "/")

def find (folder : Folder) (path : String) : Except FileError Entry := do
  match folder.entry? (← folder.locate path) with
  | none => throw .missing
  | some entry => return entry

def read (folder : Folder) (path : String) : Except FileError String := do
  match ← folder.find path with
  | .folder => throw .isFolder
  | .file content =>
    match String.fromUTF8? content with
    | none => throw .notText
    | some text => return text

/-- The location that a file of the given path is written to. A path that ends in a slash names a
folder. -/
def locateOutput (folder : Folder) (path : String) : Except FileError Location :=
  if path.toList.getLast? = some '/' then do
    let names := (path.splitOn "/").reverse.dropWhile (· = "")
    let _ ← folder.followPath path (names.tail.reverse ++ ["."])
    throw .isFolder
  else folder.locate path

def write (folder : Folder) (path text : String) : Except FileError Folder := do
  let place ← folder.locateOutput path
  match folder.entry? place with
  | some .folder => throw .isFolder
  | _ => return ⟨folder.entries.filter (·.1 ≠ place) ++ [(place, .file text.toUTF8)]⟩

def content? (folder : Folder) (place : Location) : Option ByteArray :=
  match folder.entry? place with
  | some (.file content) => some content
  | _ => none

def changes (folder earlier : Folder) : List (String × ByteArray) :=
  folder.entries.filterMap fun (place, entry) =>
    match place.anchor, entry with
    | .above 0, .file content =>
      if (earlier.content? place).any (· == content) then none
      else some ("/".intercalate place.names, content)
    | _, _ => none

end Folder

end L3Lowering
