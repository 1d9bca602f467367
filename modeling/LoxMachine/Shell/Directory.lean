
namespace LoxMachine.Shell

inductive Entry where
  | file (bytes : ByteArray)
  | directory

inductive Opened where
  | contents (bytes : ByteArray)
  | missing
  | isDirectory
  | notDirectory
  | nameTooLong
  | malformed

/-- The entries of a directory and of those in it, by the names on the way to them. -/
abbrev Directory := List (List String × Entry)

namespace Directory

def pathNames (path : String) : List String :=
  ((path.splitOn "/").filter fun name => name != "" && name != ".")

def put (d : Directory) (path : String) (entry : Entry) : Directory :=
  (pathNames path, entry) :: d

def staysHere (name : String) : Bool := name == "" || name == "."

def longestName : Nat := 255

def longestPath : Nat := 4095

/--
Follows the names of a path from a directory in the tree `d`. Above the top of the tree lies the
top of the tree `above`, which is its own parent. The first name that fails decides.
-/
def follow (d above : Directory) (here : List String) : List String → Opened
  | [] => .isDirectory
  | name :: rest =>
    if staysHere name then d.follow above here rest
    else if name == ".." then
      if here.isEmpty then above.follow above [] rest
      else d.follow above here.dropLast rest
    else if longestName < name.utf8ByteSize then .nameTooLong
    else
      match d.lookup (here ++ [name]) with
      | none => .missing
      | some .directory => d.follow above (here ++ [name]) rest
      | some (.file bytes) => if rest.isEmpty then .contents bytes else .notDirectory

def unknown : Directory := []

def root : Directory :=
  let names := ["bin", "boot", "dev", "etc", "lib", "media", "mnt", "opt", "run", "sbin", "srv",
    "tmp", "usr", "var"]
  (["dev", "null"], .file ByteArray.empty) :: names.map fun name => ([name], .directory)

/--
Opens a path for reading. It is taken from the root if it begins there; a path with a null
character is no path.
-/
def openPath (d : Directory) (path : String) : Opened :=
  if path.contains '\x00' then .malformed
  else if path.isEmpty then .missing
  else if longestPath < path.utf8ByteSize then .nameTooLong
  else if path.startsWith "/" then root.follow root [] (path.splitOn "/")
  else d.follow unknown [] (path.splitOn "/")

end Directory

end LoxMachine.Shell
