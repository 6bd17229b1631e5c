import RustSak.Fs.Archive

/-!
# The extraction root

A target directory behind a handle that resolves every path below it. The handle
itself, `Dir`, is a parameter: what each of its calls does to the tree is stated
where it is used.
-/

namespace RustSak

namespace Fs

/-- What a call of the system that failed reports. -/
inductive IoKind where
  | notFound
  | alreadyExists
  | permissionDenied
  | filesystemLoop
  | crossesDevices
  | other
  deriving DecidableEq

abbrev IoResult (α : Type) := Except IoKind α

/-- The calls of a directory handle. A file that is opened is known by its inode;
`metadata` says whether it is of a directory; a write that fails says after how
many bytes. -/
structure Dir (δ : Type) where
  createDirWith : δ → Location → UInt32 → δ × IoResult Unit
  metadata : δ → Location → IoResult Bool
  openWith : δ → Location → UInt32 → δ × IoResult ℕ
  write : δ → ℕ → List UInt8 → δ × Option ℕ
  removeFile : δ → Location → δ × IoResult Unit
  symlink : δ → Name → Location → δ × IoResult Unit
  setPermissions : δ → Location → UInt32 → δ × IoResult Unit

/-- The handle, the directories already created through it, and the file last
opened. -/
structure ExtractRoot (δ : Type) where
  dir : δ
  created : List Location
  handle : Option ℕ

def workingDirMode : UInt32 := 0o755

def defaultFileMode : UInt32 := 0o644

/-- A path as an error shows it. -/
def display (path : Location) : Name := ['/'].intercalate path

def escapeOrIo (err : IoKind) (path : Location) : FsError :=
  match err with
  | .permissionDenied =>
      .illegalPath (display path) "could not be resolved inside the target directory"
  | _ => .io

/-- The path and what it is below, the root apart. -/
def ancestors (path : Location) : List Location := path.inits.tail.reverse

/-- Puts in ancestors, up to the first that is there. -/
def remember (created : List Location) : List Location → List Location
  | [] => created
  | ancestor :: rest =>
      if ancestor ∈ created then created else remember (ancestor :: created) rest

namespace ExtractRoot

variable {δ : Type} (D : Dir δ)

def createDirUncached (r : ExtractRoot δ) (path : Location) :
    ExtractRoot δ × FsResult Unit :=
  match D.createDirWith r.dir path workingDirMode with
  | (dir, .ok ()) => ({ r with dir := dir }, .ok ())
  | (dir, .error .alreadyExists) =>
      match D.metadata dir path with
      | .ok true => ({ r with dir := dir }, .ok ())
      | _ => ({ r with dir := dir }, .error (.illegalPath (display path)
          "exists and is not a directory inside the target directory"))
  | (dir, .error err) => ({ r with dir := dir }, .error (escapeOrIo err path))

def createDir (r : ExtractRoot δ) (path : Location) : ExtractRoot δ × FsResult Unit :=
  if path ∈ r.created then (r, .ok ())
  else
    match createDirUncached D r path with
    | (r, .error err) => (r, .error err)
    | (r, .ok ()) =>
        ({ r with created := remember r.created (ancestors path) }, .ok ())

/-- The directory that is to hold `path`, unless it is the root. -/
def createParent (r : ExtractRoot δ) (path : Location) :
    ExtractRoot δ × FsResult Unit :=
  if path.dropLast = [] then (r, .ok ()) else createDir D r path.dropLast

def createFile (r : ExtractRoot δ) (path : Location) (mode : Option UInt32) :
    ExtractRoot δ × FsResult Unit :=
  match createParent D r path with
  | (r, .error err) => (r, .error err)
  | (r, .ok ()) =>
      match D.openWith r.dir path (mode.getD defaultFileMode) with
      | (dir, .error err) => ({ r with dir := dir }, .error (escapeOrIo err path))
      | (dir, .ok inode) => ({ r with dir := dir, handle := some inode }, .ok ())

/-- Writes to the file last opened. -/
def writeFile (r : ExtractRoot δ) (body : List UInt8) : ExtractRoot δ × Option ℕ :=
  match r.handle with
  | none => (r, some 0)
  | some inode =>
      let (dir, failed) := D.write r.dir inode body
      ({ r with dir := dir }, failed)

def removeFile (r : ExtractRoot δ) (path : Location) : ExtractRoot δ :=
  { r with dir := (D.removeFile r.dir path).1 }

def createSymlink (r : ExtractRoot δ) (path : Location) (target : Name) :
    ExtractRoot δ × FsResult Bool :=
  match createParent D r path with
  | (r, .error err) => (r, .error err)
  | (r, .ok ()) =>
      match D.symlink r.dir target path with
      | (dir, .error err) => ({ r with dir := dir }, .error (escapeOrIo err path))
      | (dir, .ok ()) => ({ r with dir := dir }, .ok true)

/-- A link resolves, dangles or loops; any other is taken away again. -/
def verifySymlink (r : ExtractRoot δ) (path : Location) (link target : Name) :
    ExtractRoot δ × FsResult Unit :=
  match D.metadata r.dir path with
  | .ok _ => (r, .ok ())
  | .error .notFound => (r, .ok ())
  | .error .filesystemLoop => (r, .ok ())
  | .error _ => (removeFile D r path, .error (.illegalSymlink link target))

def setDirMode (r : ExtractRoot δ) (path : Location) (mode : UInt32) :
    ExtractRoot δ × FsResult Unit :=
  match D.setPermissions r.dir path mode with
  | (dir, .error _) => ({ r with dir := dir }, .error .io)
  | (dir, .ok ()) => ({ r with dir := dir }, .ok ())

end ExtractRoot

/-- The handle of an extraction, on Unix. -/
def Dir.root {δ : Type} (D : Dir δ) : UnixRoot (ExtractRoot δ) where
  createDir := ExtractRoot.createDir D
  createFile := ExtractRoot.createFile D
  writeFile r _ body := ExtractRoot.writeFile D r body
  removeFile := ExtractRoot.removeFile D
  createSymlink := ExtractRoot.createSymlink D
  verifySymlink := ExtractRoot.verifySymlink D
  setDirMode := ExtractRoot.setDirMode D

end Fs

end RustSak
