import SsaJit.Config.Read

/-! Where settings come from: a file that is named, else the nearest `reactor.toml` in a directory or
one above it, else the usual settings. -/

namespace SsaJit.Config

/-- A tree of files. Directories are those that are listed and those on the way to something. -/
structure Files where
  files : List (List String × String) := []
  dirs : List (List String) := []

inductive Found
  | file (text : String)
  | dir
  deriving Repr

/-- The parts of a path. A path that leads out of the tree has none. -/
def parts? (p : String) : Option (List String) :=
  (p.splitOn "/").foldlM (fun done part =>
    if part = "" ∨ part = "." then some done
    else if part = ".." then (if done.isEmpty then none else some done.dropLast)
    else some (done ++ [part])) []

namespace Files

/-- What is at a path. -/
def at? (t : Files) (p : List String) : Option Found :=
  match t.files.lookup p with
  | some text => some (.file text)
  | none =>
    if p.isEmpty || (t.dirs ++ t.files.map (·.1)).any (p.isPrefixOf ·) then some .dir else none

end Files

def fileName : String := "reactor.toml"

/-- The directory at most `n` levels up that has a settings file, from the given one on. -/
def searchUp (t : Files) : Nat → List String → Option (List String)
  | 0, _ => none
  | n + 1, dir =>
    if (t.at? (dir ++ [fileName])).isSome then some (dir ++ [fileName])
    else if dir.isEmpty then none
    else searchUp t n dir.dropLast

/-- The nearest settings file from a directory or the directory of a file on. -/
def find (t : Files) (start : List String) : Option (List String) :=
  match t.at? start with
  | none => none
  | some .dir => searchUp t (start.length + 1) start
  | some (.file _) => searchUp t (start.length + 1) start.dropLast

/-- Read the settings file at a path. -/
def readAt (t : Files) (p : Option (List String)) : Except ReadFault Config :=
  match p.bind t.at? with
  | some (.file text) => ofText text
  | _ => .error .missing

/-- The settings for a working directory. A file that is named wins; its path starts from the working
directory. -/
def load (t : Files) (dir : List String) (named : String) : Except ReadFault Config :=
  if !named.isEmpty then
    readAt t (if named.startsWith "/" then none else parts? ("/".intercalate dir ++ "/" ++ named))
  else match find t dir with
    | some p => readAt t (some p)
    | none => .ok {}

end SsaJit.Config
