import SelectionPlan.Text.Split
import SelectionPlan.Ordered
/-!
# A tree of files

Files are written to a tree held as a value.  Directories are made as they are needed; a file can
neither be replaced by a directory nor the other way round.
-/

namespace SelectionPlan

/-- A path with another one below it; an absolute path stands for itself. -/
def joinPath (base part : String) : String :=
  if part.toList.head? = some '/' then part
  else if base = "" then part
  else if base.toList.getLast? = some '/' then base ++ part
  else base ++ "/" ++ part

/-- The names of the directories and the file on a path from the root of the tree, without detours.
Going up from the root leads nowhere else. -/
def resolvePath (path : String) : List String :=
  let parts := (splitOnChar '/' path.toList).map String.ofList
  parts.foldl (fun done part =>
    if part = "" ∨ part = "." then done
    else if part = ".." then done.dropLast
    else done ++ [part]) []

structure FileTree where
  /-- Files and their contents, in no particular order. -/
  files : List (List String × String) := []
  directories : List (List String) := []
  deriving DecidableEq, Repr

inductive FileFault
  | notFound
  | exists
  | notADirectory
  | isADirectory
  | nameTooLong
  | badName
  deriving DecidableEq, Repr

def FileFault.message : FileFault → String
  | .notFound => "No such file or directory (os error 2)"
  | .exists => "File exists (os error 17)"
  | .notADirectory => "Not a directory (os error 20)"
  | .isADirectory => "Is a directory (os error 21)"
  | .nameTooLong => "File name too long (os error 36)"
  | .badName => "file name contained an unexpected NUL byte"

namespace FileTree

def empty : FileTree := {}

def file? (t : FileTree) (path : List String) : Option String := lookupKey path t.files

def leading (path : List String) : List (List String) :=
  (List.range path.length).map fun n => path.take (n + 1)

/-- Whether a directory is there, made for itself or for a file below it. -/
def isDirectory (t : FileTree) (path : List String) : Bool :=
  path.isEmpty || t.directories.contains path ||
    t.files.any fun (p, _) => decide (path.length < p.length) && path.isPrefixOf p

/-- Why names cannot be given to files or directories: a name has at most 255 bytes, and none of
them is zero. -/
def nameFault? (path : List String) : Option FileFault :=
  if path.any fun name => name.toList.contains '\x00' then some .badName
  else if path.any fun name => decide (255 < name.utf8ByteSize) then some .nameTooLong
  else none

def makeDirectory (t : FileTree) (path : List String) : Except FileFault FileTree :=
  match nameFault? path with
  | some fault => .error fault
  | none =>
    if (leading path.dropLast).any fun p => (t.file? p).isSome then .error .notADirectory
    else if (t.file? path).isSome then .error .exists
    else .ok { t with directories := leading path ++ t.directories }

def putFile (t : FileTree) (path : List String) (content : String) : Except FileFault FileTree :=
  if t.isDirectory path then .error .isADirectory
  else
    match nameFault? path with
    | some fault => .error fault
    | none =>
      let others := t.files.filter fun (p, _) => p != path
      .ok { t with files := (path, content) :: others }

/-- Puts a file in place, with its directory.  The directory stays if the file cannot be written. -/
def writeFile (t : FileTree) (path : List String) (content : String) :
    Except FileFault Unit × FileTree :=
  match t.makeDirectory path.dropLast with
  | .error fault => (.error fault, t)
  | .ok t =>
    match t.putFile path content with
    | .error fault => (.error fault, t)
    | .ok t => (.ok (), t)

def follow? (t : FileTree) (here : List String) : List String → Option (List String)
  | [] => some here
  | part :: rest =>
    if part = "" ∨ part = "." then t.follow? here rest
    else if part = ".." then t.follow? here.dropLast rest
    else if rest.isEmpty || t.isDirectory (here ++ [part]) then t.follow? (here ++ [part]) rest
    else none

def locate? (t : FileTree) (path : String) : Option (List String) :=
  t.follow? [] ((splitOnChar '/' path.toList).map String.ofList)

def listing (t : FileTree) (directory : List String) : List (String × String) :=
  let below := t.files.filterMap fun (p, content) =>
    if directory.isPrefixOf p then some ("/".intercalate (p.drop directory.length), content)
    else none
  sortStable (fun a b => decide (a.1 < b.1)) below

end FileTree
end SelectionPlan
