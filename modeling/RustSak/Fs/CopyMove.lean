import RustSak.Fs.ExtractRoot
import RustSak.Library.FileTree

/-!
# Copying and moving

`copy_files` and `move_files` are one transfer, with a flag. A move renames where it
can, and copies and deletes across file systems. The calls of the standard library
are those of Unix, on a tree; a path is a list of components.
-/

namespace RustSak

namespace Fs

open Library FileTree

/-! ## The extension filter -/

abbrev ExtFilter := List Name

namespace ExtFilter

def add (filter : ExtFilter) (extension : Name) : ExtFilter :=
  let normalized := (extension.dropWhile (· == '.')).map Char.toLower
  if !normalized.isEmpty && !filter.contains normalized then filter ++ [normalized]
  else filter

/-- What follows the last dot of a name, unless the name starts with it. -/
def extension (name : Name) : Option Name :=
  let after := (name.reverse.takeWhile (· != '.')).reverse
  match name.reverse.dropWhile (· != '.') with
  | [] => none
  | [_] => none
  | _ => if name = dotDot then none else some after

def matchesName (filter : ExtFilter) (name : Option Name) : Bool :=
  filter.isEmpty ||
    match name.bind extension with
    | none => false
    | some extension => filter.any fun e => Text.eqIgnoreAsciiCase e extension

end ExtFilter

structure CopyOptions where
  recursive : Bool
  preserveStructure : Bool
  filter : ExtFilter

structure CopySummary where
  files : ℕ
  bytes : ℕ
  skipped : ℕ
  deriving DecidableEq

/-! ## The calls of the system -/

abbrev UnixPath := Path Name

abbrev Files := FileTree.Tree Name (List UInt8)

/-- Where relative paths start, how long a walk may be, the file system each directory
is on, and the paths that `list_path` finds below a directory. -/
structure Kernel where
  cwd : FileTree.Location Name
  fuel : ℕ
  device : FileTree.Location Name → ℕ
  listPath : Files → UnixPath → Bool → IoResult (List (List Name))

inductive Metadata where
  | dir
  | file (inode len : ℕ)
  deriving DecidableEq

namespace UnixPath

/-- The components that paths are compared by: no dot but one a relative path starts
with. -/
def components (path : UnixPath) : List (Step Name) :=
  match path.absolute, path.steps with
  | false, .here :: steps => .here :: steps.filter (· ≠ .here)
  | _, steps => steps.filter (· ≠ .here)

/-- Equality of paths, as the standard library has it. -/
def eq (p q : UnixPath) : Bool :=
  p.absolute == q.absolute && p.components == q.components

def join (path : UnixPath) (names : List Name) : UnixPath :=
  { path with steps := path.steps ++ names.map .down }

def parent (path : UnixPath) : UnixPath := { path with steps := path.steps.dropLast }

/-- The last component that is a name. -/
def fileName (path : UnixPath) : Option Name :=
  match (path.steps.filter (· ≠ .here)).getLast? with
  | some (.down name) => some name
  | _ => none

end UnixPath

namespace Kernel

variable (sys : Kernel) (t : Files)

def resolve (path : UnixPath) : Outcome Name :=
  walk t.node sys.fuel (path.start sys.cwd) path.steps

/-- Where the last name of a path is, that name not followed. -/
def locate (path : UnixPath) : Option (FileTree.Location Name) :=
  match path.steps.getLast?, sys.resolve t path.parent with
  | some (.down name), .dir d => some (d ++ [name])
  | _, _ => none

def metadata (path : UnixPath) : IoResult Metadata :=
  match sys.resolve t path with
  | .dir _ => .ok .dir
  | .file l =>
      match t.node l with
      | some (.file inode) => .ok (.file inode (t.data inode).length)
      | _ => .error .other
  | .vacant _ => .error .notFound
  | .missing => .error .notFound
  | .fails => .error .other

/-- `fs::copy`: the destination is opened and truncated first. -/
def copy (source dest : UnixPath) : IoResult (Files × ℕ) :=
  match sys.metadata t source with
  | .error err => .error err
  | .ok .dir => .error .other
  | .ok (.file inode _) =>
      let written (l : FileTree.Location Name) : Files × ℕ :=
        let body := (t.put l []).data inode
        (t.put l body, body.length)
      match sys.resolve t dest with
      | .file l => .ok (written l)
      | .vacant l => .ok (written l)
      | .missing => .error .notFound
      | _ => .error .other

def removeFile (path : UnixPath) : IoResult Files :=
  match sys.locate t path with
  | none => .error .other
  | some l =>
      match t.node l with
      | none => .error .notFound
      | some .dir => .error .other
      | some _ => .ok (t.remove l)

/-- `fs::rename` of what is no directory. Neither path's last name is followed, and of
two names of one file both stay. -/
def rename (source dest : UnixPath) : IoResult Files :=
  match sys.locate t source, sys.locate t dest with
  | some e, some d =>
      if sys.device e.dropLast ≠ sys.device d.dropLast then .error .crossesDevices
      else
        match t.node e, t.node d with
        | none, _ => .error .notFound
        | some .dir, _ => .error .other
        | _, some .dir => .error .other
        | some (.file i), some (.file j) =>
            if i = j then .ok t else .ok (t.rename e d)
        | some _, _ => .ok (t.rename e d)
  | _, _ => .error .notFound

def createDir (path : UnixPath) : IoResult Files :=
  match sys.locate t path with
  | some l =>
      match t.node l with
      | none => .ok (t.mkdir l)
      | some _ => .error .alreadyExists
  | none =>
      match sys.metadata t path.parent with
      | .error err => .error err
      | .ok _ => .error .alreadyExists

/-- `fs::create_dir_all`, of a path by its components from the last one back. -/
def createDirAll (absolute : Bool) : List (Step Name) → Files → IoResult Files
  | [], t => .ok t
  | step :: steps, t =>
      let path : UnixPath := ⟨absolute, (step :: steps).reverse⟩
      let unlessDir (t : Files) (err : IoKind) : IoResult Files :=
        if sys.metadata t path = .ok .dir then .ok t else .error err
      match sys.createDir t path with
      | .ok t => .ok t
      | .error .notFound =>
          match createDirAll absolute steps t with
          | .error err => .error err
          | .ok t =>
              match sys.createDir t path with
              | .ok t => .ok t
              | .error err => unlessDir t err
      | .error err => unlessDir t err

end Kernel

/-! ## The transfer -/

structure Transfer where
  tree : Files
  created : List UnixPath
  summary : CopySummary

def Transfer.skip (st : Transfer) : Transfer :=
  { st with summary := { st.summary with skipped := st.summary.skipped + 1 } }

section

variable (sys : Kernel)

def renameOrCopy (t : Files) (source dest : UnixPath) : IoResult (Files × ℕ) :=
  match sys.metadata t source with
  | .error err => .error err
  | .ok .dir => .error .other
  | .ok (.file _ len) =>
      match sys.rename t source dest with
      | .ok t => .ok (t, len)
      | .error .crossesDevices =>
          match sys.copy t source dest with
          | .error err => .error err
          | .ok (t, copied) =>
              match sys.removeFile t source with
              | .error err => .error err
              | .ok t => .ok (t, copied)
      | .error err => .error err

def isSameFile (t : Files) (source dest : UnixPath) : IoResult Bool :=
  match sys.metadata t dest with
  | .error .notFound => .ok false
  | .error err => .error err
  | .ok destMeta =>
      match sys.metadata t source with
      | .error err => .error err
      | .ok sourceMeta =>
          match sourceMeta, destMeta with
          | .file i _, .file j _ => .ok (i == j)
          | _, _ => .ok false

/-- The directory of the destination, unless it has been created already. -/
def createParent (st : Transfer) (dest : UnixPath) : IoResult Transfer :=
  if st.created.any dest.parent.eq then .ok st
  else
    match sys.createDirAll dest.absolute dest.parent.steps.reverse st.tree with
    | .error err => .error err
    | .ok t => .ok { st with tree := t, created := dest.parent :: st.created }

def transferFile (options : CopyOptions) (removeSources : Bool)
    (source dest : UnixPath) (st : Transfer) : IoResult Transfer :=
  if options.filter.matchesName source.fileName = false then .ok st.skip
  else
    match sys.metadata st.tree source with
    | .error err => .error err
    | .ok .dir => .ok st.skip
    | .ok (.file _ _) =>
        match if source.eq dest then .ok true else isSameFile sys st.tree source dest with
        | .error err => .error err
        | .ok true => .ok st.skip
        | .ok false =>
            match createParent sys st dest with
            | .error err => .error err
            | .ok st =>
                match if removeSources then renameOrCopy sys st.tree source dest
                  else sys.copy st.tree source dest with
                | .error err => .error err
                | .ok (t, bytes) =>
                    .ok { st with
                      tree := t
                      summary := { st.summary with
                        bytes := st.summary.bytes + bytes
                        files := st.summary.files + 1 } }
/-- The files that a listing found below a directory source. -/
def transferListed (options : CopyOptions) (removeSources : Bool)
    (source destDir : UnixPath) : List (List Name) → Transfer → IoResult Transfer
  | [], st => .ok st
  | relative :: rest, st =>
      let path := source.join relative
      match if options.preserveStructure then some (destDir.join relative)
        else path.fileName.map fun name => destDir.join [name] with
      | none => .error .other
      | some dest =>
          match transferFile sys options removeSources path dest st with
          | .error err => .error err
          | .ok st => transferListed options removeSources source destDir rest st

def transferDir (options : CopyOptions) (removeSources : Bool)
    (source destDir : UnixPath) (st : Transfer) : IoResult Transfer :=
  match sys.listPath st.tree source options.recursive with
  | .error err => .error err
  | .ok listed => transferListed sys options removeSources source destDir listed st

/-- One source, a directory or a file. -/
def transferSource (options : CopyOptions) (removeSources : Bool)
    (destDir source : UnixPath) (st : Transfer) : IoResult Transfer :=
  match sys.metadata st.tree source with
  | .error err => .error err
  | .ok .dir => transferDir sys options removeSources source destDir st
  | .ok (.file _ _) =>
      match source.fileName with
      | none => .error .other
      | some name =>
          transferFile sys options removeSources source (destDir.join [name]) st

def transferSources (options : CopyOptions) (removeSources : Bool)
    (destDir : UnixPath) : List UnixPath → Transfer → IoResult Transfer
  | [], st => .ok st
  | source :: sources, st =>
      match transferSource sys options removeSources destDir source st with
      | .error err => .error err
      | .ok st => transferSources options removeSources destDir sources st

/-- The transfer before its first source. -/
def started (t : Files) (destDir : UnixPath) : Transfer where
  tree := t
  created := [destDir]
  summary := ⟨0, 0, 0⟩

def transfer (t : Files) (sources : List UnixPath) (destDir : UnixPath)
    (options : CopyOptions) (removeSources : Bool) : IoResult Transfer :=
  match sys.createDirAll destDir.absolute destDir.steps.reverse t with
  | .error err => .error err
  | .ok t => transferSources sys options removeSources destDir sources (started t destDir)

def copyFiles (t : Files) (sources : List UnixPath) (destDir : UnixPath)
    (options : CopyOptions) : IoResult Transfer :=
  transfer sys t sources destDir options false

def moveFiles (t : Files) (sources : List UnixPath) (destDir : UnixPath)
    (options : CopyOptions) : IoResult Transfer :=
  transfer sys t sources destDir options true

end

end Fs

end RustSak
