import MiniScheme.Text.Quoted

/-!
# `MiniScheme.FileTree`: files by their paths

A file tree is a list of files, each with the names that lead to it from
the root, and a place where relative paths start. The directories are the
places on the way to a file or to that start.

A path is followed name by name. `.` stays, `..` goes back one name, and
every step has to start from a directory; a slash at the end of a path is
one more step that stays. `FileTree.read` gives the text of the file that
a path leads to, or the first `FileFault` that it meets.
-/

set_option autoImplicit false

namespace MiniScheme

/-- Why a path leads to no text. -/
inductive FileFault where
  /-- Nothing has a name on the path. -/
  | missing
  /-- The path goes on behind a file. -/
  | notDirectory
  /-- The path leads to a directory. -/
  | isDirectory
  /-- The path, or a name on it, is too long. -/
  | nameTooLong
  /-- The path has a character that ends texts in the file system. -/
  | nulCharacter
deriving DecidableEq

/-- The wording of a fault on a path. -/
def FileFault.message (path : String) : FileFault → String
  | missing => "[Errno 2] No such file or directory: " ++ Text.quoted path
  | notDirectory => "[Errno 20] Not a directory: " ++ Text.quoted path
  | isDirectory => "[Errno 21] Is a directory: " ++ Text.quoted path
  | nameTooLong => "[Errno 36] File name too long: " ++ Text.quoted path
  | nulCharacter => "embedded null byte"

/-- A place in a file tree: the names that lead to it from the root. -/
abbrev Place := List String

/-- The files that there are, and where relative paths start. -/
structure FileTree where
  files : List (Place × String)
  base : Place

/-- What stands at a place. -/
inductive FileEntry where
  | file (text : String)
  | directory
deriving DecidableEq

namespace FileTree

/-- The most bytes that a name has. -/
def maxName : Nat := 255

/-- The most bytes that a path has. -/
def maxPath : Nat := 4095

/-- The names on a path, in their order. -/
def names (path : String) : List String :=
  (path.splitOn "/").filter (fun name => !name.isEmpty) ++
    if path.toList.getLast? = some '/' then ["."] else []

/-- Where a path starts: at the root if a slash is at its front, and
otherwise at `base`. -/
def start (base : Place) (path : String) : Place :=
  if path.toList.head? = some '/' then [] else base

/-- The place that one name leads to. The root is its own parent. -/
def step (place : Place) (name : String) : Place :=
  if name = "." then place
  else if name = ".." then place.dropLast
  else place ++ [name]

/-- What stands at a place, if anything does. -/
def entry? (t : FileTree) (place : Place) : Option FileEntry :=
  match t.files.lookup place with
  | some text => some (.file text)
  | none =>
    if place.isPrefixOf t.base || t.files.any fun f => place.isPrefixOf f.1 then some .directory
    else none

/-- The place that names lead to from another one. Each name is looked up
only in a directory that is there; whether there is anything at the last
place is left open. -/
def follow (t : FileTree) : Place → List String → Except FileFault Place
  | place, [] => .ok place
  | place, name :: rest =>
    match t.entry? place with
    | none => .error .missing
    | some (.file _) => .error .notDirectory
    | some .directory =>
      if maxName < name.utf8ByteSize then .error .nameTooLong else follow t (step place name) rest

/-- The text of the file that a path leads to. -/
def read (t : FileTree) (path : String) : Except FileFault String := do
  if '\x00' ∈ path.toList then throw .nulCharacter
  if path.isEmpty then throw .missing
  if maxPath < path.utf8ByteSize then throw .nameTooLong
  let place ← t.follow (start t.base path) (names path)
  match t.entry? place with
  | some (.file text) => return text
  | some .directory => throw .isDirectory
  | none => throw .missing

/-- The tree that has the given files, named by their paths, and nothing
else. Of two files at one place the later one counts. -/
def ofFiles (base : Place) (files : List (String × String)) : FileTree where
  files := (files.map fun (path, text) => ((names path).foldl step (start base path), text)).reverse
  base := base

end FileTree

end MiniScheme
