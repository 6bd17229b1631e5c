import RustSak.Fs.Tree
import RustSak.Library.Word64

/-!
# Extraction and its ceilings

The visitor every archive format drives: one entry at a time is counted,
validated and extracted through a directory handle that resolves below the
root. The handle is a parameter, `Root`; what an entry's stream yields is its
`Data`. A visit also says how many bytes of the entry's body reached the file,
which the source does not return.
-/

namespace RustSak

namespace Fs

open Library

structure ExtractOptions where
  maxTotalBytes : Option UInt64
  maxFileBytes : Option UInt64
  maxEntries : Option UInt64
  symlinks : Bool
  fileMode : Option UInt32

namespace ExtractOptions

/-- No limits, symbolic links allowed, the archive's modes honoured. -/
def new : ExtractOptions where
  maxTotalBytes := none
  maxFileBytes := none
  maxEntries := none
  symlinks := true
  fileMode := none

end ExtractOptions

inductive EntryKind where
  | dir
  | file
  | symlink
  | other
  deriving DecidableEq

/-- One entry as its archive describes it; the size is a claim. -/
structure RawEntry where
  name : Name
  kind : EntryKind
  size : UInt64
  mode : Option UInt32
  linkTarget : Option Name

/-- What the entry's stream yields: bytes, and then its end or an error. -/
structure Data where
  bytes : List UInt8
  fails : Bool

structure ExtractSummary where
  files : UInt64
  directories : UInt64
  symlinks : UInt64
  skipped : UInt64
  bytes : UInt64
  deriving DecidableEq

/-! ## The budget -/

structure Budget where
  usedBytes : UInt64
  usedEntries : UInt64

namespace Budget

def new : Budget := ⟨0, 0⟩

/-- Counts one entry; every entry is counted, whatever becomes of it. -/
def countEntry (options : ExtractOptions) (b : Budget) : Budget × FsResult Unit :=
  let b := { b with usedEntries := b.usedEntries + 1 }
  match options.maxEntries with
  | some max =>
      if max < b.usedEntries then (b, .error (.limitExceeded .entries max))
      else (b, .ok ())
  | none => (b, .ok ())

/-- Claims room for an entry that says it is `declared` bytes. -/
def reserve (options : ExtractOptions) (declared : UInt64) (b : Budget) :
    FsResult Budget :=
  let claimed := Word64.satAdd b.usedBytes declared
  match options.maxFileBytes with
  | some max =>
      if max < declared then .error (.limitExceeded .fileBytes max)
      else withinTotal claimed
  | none => withinTotal claimed
where
  withinTotal (claimed : UInt64) : FsResult Budget :=
    match options.maxTotalBytes with
    | some max =>
        if max < claimed then .error (.limitExceeded .totalBytes max)
        else .ok { b with usedBytes := claimed }
    | none => .ok { b with usedBytes := claimed }

/-- Hands back what was reserved and not written. -/
def settle (reserved actual : UInt64) (b : Budget) : Budget :=
  { b with
    usedBytes := Word64.satSub b.usedBytes (Word64.satSub reserved actual) }

end Budget

/-! ## The extractor -/

/-- A directory handle that resolves below the root. `writeFile` is offered a
body for a file just created and says after how many bytes it failed, if it
did; `createSymlink` says whether the platform could make the link. -/
structure Root (ρ : Type) where
  createDir : ρ → Location → ρ × FsResult Unit
  createFile : ρ → Location → Option UInt32 → ρ × FsResult Unit
  writeFile : ρ → Location → List UInt8 → ρ × Option ℕ
  removeFile : ρ → Location → ρ
  createSymlink : ρ → Location → Name → ρ × FsResult Bool
  verifySymlink : ρ → Location → Name → Name → ρ × FsResult Unit

structure Extractor (ρ : Type) where
  root : ρ
  budget : Budget
  dirModes : List (Location × UInt32)
  links : List (Location × Name × Name)
  summary : ExtractSummary

def defaultDirMode : UInt32 := 0o755

/-- Group and other write, stripped from every directory's mode. -/
def dirModeMask : UInt32 := 0o022

def maxSymlinkTarget : ℕ := 4096

/-- The permission bits of a mode. -/
def permissions (mode : UInt32) : UInt32 := mode &&& 0o777

/-- A link's target out of the entry's stream, bounded, without the line end or
the zero bytes it may have been stored with. -/
def readLinkTarget (data : Data) : FsResult Name :=
  let bytes := data.bytes.take (maxSymlinkTarget + 1)
  if data.fails ∧ data.bytes.length < maxSymlinkTarget + 1 then
    .error .io
  else
    match String.fromUTF8? ⟨bytes.toArray⟩ with
    | none => .error .io
    | some target =>
        if maxSymlinkTarget < bytes.length then .error .io
        else .ok (target.toList.rdropWhile fun c =>
          c == '\r' || c == '\n' || c == Char.ofNat 0)

/-- What a copy came to: how many bytes passed, and whether it failed then. -/
structure Copied where
  written : ℕ
  failed : Bool

/-- `io::copy` of at most `limit` bytes, and the flush after it. -/
def copyBody {ρ : Type} (R : Root ρ) (root : ρ) (path : Location) (data : Data)
    (limit : UInt64) : ρ × Copied :=
  let body := data.bytes.take limit.toNat
  match R.writeFile root path body with
  | (root, some n) => (root, ⟨min n body.length, true⟩)
  | (root, none) =>
      (root, ⟨body.length, data.fails && decide (data.bytes.length < limit.toNat)⟩)

/-- What a visit leaves, what it returns, and how many bytes of the entry's
body it has written. -/
structure Visited (ρ : Type) where
  extractor : Extractor ρ
  result : FsResult Unit
  wrote : ℕ

namespace Extractor

variable {ρ : Type}

def new (root : ρ) : Extractor ρ where
  root := root
  budget := .new
  dirModes := []
  links := []
  summary := ⟨0, 0, 0, 0, 0⟩

def skip (x : Extractor ρ) : Extractor ρ :=
  { x with summary := { x.summary with skipped := x.summary.skipped + 1 } }

def visitDir (R : Root ρ) (x : Extractor ρ) (path : Location)
    (mode : Option UInt32) : Visited ρ :=
  match R.createDir x.root path with
  | (root, .error err) => ⟨{ x with root := root }, .error err, 0⟩
  | (root, .ok ()) =>
      let dirModes := match mode with
        | none => x.dirModes
        | some mode =>
            let bits := permissions mode
            x.dirModes ++ [(path, if bits = 0 then defaultDirMode
              else bits &&& ~~~dirModeMask)]
      ⟨{ x with
          root := root
          dirModes := dirModes
          summary := { x.summary with directories := x.summary.directories + 1 } },
        .ok (), 0⟩

/-- Reading one byte past the declared size turns a header that lied into an
error; whatever fails while the body is written takes the file away again. -/
def visitFile (options : ExtractOptions) (R : Root ρ) (x : Extractor ρ)
    (entry : RawEntry) (path : Location) (data : Data) : Visited ρ :=
  let declared := entry.size
  match x.budget.reserve options declared with
  | .error err => ⟨x, .error err, 0⟩
  | .ok budget =>
      let mode := (options.fileMode.or entry.mode).map permissions
      match R.createFile x.root path mode with
      | (root, .error err) => ⟨{ x with root := root, budget := budget }, .error err, 0⟩
      | (root, .ok ()) =>
          let copy := copyBody R root path data (Word64.satAdd declared 1)
          let written := copy.2.written
          if copy.2.failed = true then
            ⟨{ x with root := R.removeFile copy.1 path, budget := budget },
              .error .io, written⟩
          else if declared.toNat < written then
            ⟨{ x with root := R.removeFile copy.1 path, budget := budget },
              .error (.declaredSizeMismatch entry.name declared), written⟩
          else
            ⟨{ x with
                root := copy.1
                budget := budget.settle declared (UInt64.ofNat written)
                summary := { x.summary with
                  files := x.summary.files + 1
                  bytes := x.summary.bytes + UInt64.ofNat written } },
              .ok (), written⟩

def visitSymlink (options : ExtractOptions) (R : Root ρ) (x : Extractor ρ)
    (entry : RawEntry) (components : List Name) (data : Data) : Visited ρ :=
  if options.symlinks = false then
    ⟨x.skip, .ok (), 0⟩
  else
    let target : FsResult Name := match entry.linkTarget with
      | some target => .ok target
      -- ZIP and 7z keep the target in the entry's stream.
      | none => readLinkTarget data
    match target with
    | .error err => ⟨x, .error err, 0⟩
    | .ok target =>
        match validateSymlinkTarget components target with
        | .error err => ⟨x, .error err, 0⟩
        | .ok () =>
            match R.createSymlink x.root components target with
            | (root, .error err) => ⟨{ x with root := root }, .error err, 0⟩
            | (root, .ok false) => ⟨({ x with root := root }).skip, .ok (), 0⟩
            | (root, .ok true) =>
                let link := ['/'].intercalate components
                match R.verifySymlink root components link target with
                | (root, .error err) => ⟨{ x with root := root }, .error err, 0⟩
                | (root, .ok ()) =>
                    ⟨{ x with
                        root := root
                        links := x.links ++ [(components, link, target)]
                        summary := { x.summary with
                          symlinks := x.summary.symlinks + 1 } },
                      .ok (), 0⟩

/-- Validates and extracts one entry. -/
def visit (options : ExtractOptions) (R : Root ρ) (x : Extractor ρ)
    (entry : RawEntry) (data : Data) : Visited ρ :=
  match x.budget.countEntry options with
  | (budget, .error err) => ⟨{ x with budget := budget }, .error err, 0⟩
  | (budget, .ok ()) =>
      let x := { x with budget := budget }
      match validateEntryName entry.name with
      | .error err => ⟨x, .error err, 0⟩
      | .ok [] => ⟨x.skip, .ok (), 0⟩
      | .ok components =>
          match entry.kind with
          | .dir => visitDir R x components entry.mode
          | .file => visitFile options R x entry components data
          | .symlink => visitSymlink options R x entry components data
          | .other => ⟨x.skip, .ok (), 0⟩

end Extractor

end Fs

end RustSak
