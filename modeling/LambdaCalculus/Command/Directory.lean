import LambdaCalculus.Command.Option

/-!
# Working directories

A working directory holds files and directories, each under its path in it.  Outside it there is
nothing but the directories that it is in, and from the root what every system has.  A path is
followed name by name; on the way `.` stays, `..` leaves a directory, and every name but the last
has to be a directory.

* `Directory.read` is the bytes of the file at a path, or the reason why there are none.
-/

namespace LambdaCalculus.Command

/-- Why a file cannot be read. -/
inductive Unreadable where
  | missing
  | isDirectory
  /-- The path goes on below a file. -/
  | notDirectory
  /-- The path, or a name in it, is too long. -/
  | nameTooLong
  | other (reason : String)
  deriving DecidableEq, Repr

/-- The reason in the system's words. -/
def Unreadable.reason : Unreadable → List Char
  | .missing => "No such file or directory".toList
  | .isDirectory => "Is a directory".toList
  | .notDirectory => "Not a directory".toList
  | .nameTooLong => "File name too long".toList
  | .other reason => reason.toList

/-- What stands at a path. -/
inductive Node where
  | file (bytes : ByteArray)
  | directory

/-- A working directory: what stands at each path in it, a path being the list of its names. -/
structure Directory where
  entries : List (List String × Node)

namespace Directory

/-- The most bytes that a name holds. -/
def maxName : Nat := 255

/-- The number of bytes that is too many for a path. -/
def maxPath : Nat := 4096

/-- What stands at the path of these names, which are in reverse order.  A directory that holds
something need not be listed itself. -/
def nodeAt (d : Directory) (reversed : List String) : Option Node :=
  let path := reversed.reverse
  match d.entries.find? fun entry => entry.1 = path with
  | some entry => some entry.2
  | none =>
    if path = [] || d.entries.any fun entry => path.isPrefixOf entry.1 then some .directory
    else none

/-- Follows names from a directory outside, where nothing is but directories further out. -/
def followOutside : List String → Except Unreadable Node
  | [] => pure .directory
  | name :: rest =>
    if name = "" || name = "." || name = ".." then followOutside rest
    else if maxName < name.utf8ByteSize then throw .nameTooLong
    else throw .missing

/-- Follows names from the place inside whose names are, in reverse order, the first argument. -/
def follow (d : Directory) : List String → List String → Except Unreadable Node
  | here, [] =>
    match d.nodeAt here with
    | some node => pure node
    | none => throw .missing
  | here, name :: rest =>
    match d.nodeAt here with
    | none => throw .missing
    | some (.file _) => throw .notDirectory
    | some .directory =>
      if name = "" || name = "." then d.follow here rest
      else if name = ".." then
        match here with
        | [] => followOutside rest
        | _ :: outer => d.follow outer rest
      else if maxName < name.utf8ByteSize then throw .nameTooLong
      else d.follow (name :: here) rest

/-- The names in a path. -/
def names (path : List Char) : List String :=
  (path.splitOn '/').map String.ofList

/-- The directory that holds these nodes, each under the names of its path. -/
def ofPaths (nodes : List (String × Node)) : Directory :=
  ⟨nodes.map fun (path, node) =>
    ((names path.toList).filter fun name => name ≠ "" && name ≠ ".", node)⟩

/-- What every system has under its root. -/
def root : Directory :=
  ofPaths [("dev/null", .file ByteArray.empty), ("tmp", .directory)]

/-- What stands at a path that is not empty. -/
def locate (d : Directory) : List Char → Except Unreadable Node
  | '/' :: rest => root.follow [] (names rest)
  | path => d.follow [] (names path)

/-- The bytes of the file at a path. -/
def read (d : Directory) (path : String) : Except Unreadable ByteArray :=
  if path = "" then throw .missing
  else if maxPath ≤ path.utf8ByteSize then throw .nameTooLong
  else do
    match ← d.locate path.toList with
    | .directory => throw .isDirectory
    | .file bytes => pure bytes

end Directory

end LambdaCalculus.Command
