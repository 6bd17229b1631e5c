import RustSak.Ai.Hub
import RustSak.Ai.RuntimeLibrary
import RustSak.Library.Table
import Mathlib.Data.List.Sort
import Mathlib.Data.List.Infix

/-!
# The install marker

What a dependency's folder holds, what is recorded of it when an install finishes,
and how the record is checked. A folder is its files and links by path; the folders
between them are not kept. What a link leads to is a parameter.
-/

namespace RustSak

namespace Ai

open Library

abbrev Path := List String

inductive Node (β : Type) where
  | file (bytes : List β)
  | link (target : String)
  deriving DecidableEq

def Node.size {β : Type} : Node β → ℕ
  | file bytes => bytes.length
  | link target => target.utf8ByteSize

abbrev Contents (β : Type) := Table Path (Node β)

/-- A dependency's folder. Staging holds the downloaded archives, by name, and the
extraction folder. -/
structure Folder (β : Type) where
  items : Contents β
  staged : Table String (List β)
  extract : Contents β

def MARKER : String := ".installed"

def PENDING : String := ".installed.tmp"

def STAGING : String := ".staging"

def isOwn (name : String) : Bool := name == MARKER || name == PENDING || name == STAGING

/-- One installed file or link, its path in one text. -/
structure File where
  path : String
  size : ℕ
  deriving DecidableEq

structure Marker where
  hash : String
  size : ℕ
  files : List File
  deriving DecidableEq

structure Json (β : Type) where
  encode : Marker → List β
  decode : List β → Option Marker
  decode_encode : ∀ marker, decode (encode marker) = some marker

def Path.text (path : Path) : String :=
  String.ofList (['/'].intercalate (path.map String.toList))

/-- A recorded path as a relative one: neither from the root nor from a dot, and
nowhere up. Empty components and inner dots do not count. -/
def relative (text : String) : Option Path :=
  let pieces := text.toList.splitOn '/'
  if pieces.head? = some ['.'] ∨ (pieces.head? = some [] ∧ 1 < pieces.length) ∨
      ['.', '.'] ∈ pieces then
    none
  else
    some ((pieces.filter fun piece => piece != [] && piece != ['.']).map String.ofList)

def single (name : String) : Bool := (relative name).any fun path => path.length == 1

/-- Whether a listed file of this name can be installed at the top of a folder. -/
def installable (name : String) : Bool := single name && !isOwn name

/-- A name that an entry of a folder can have. -/
def PlainName (name : String) : Prop :=
  name ≠ "" ∧ name ≠ "." ∧ name ≠ ".." ∧ '/' ∉ name.toList

instance (name : String) : Decidable (PlainName name) :=
  inferInstanceAs (Decidable (_ ≠ _ ∧ _ ≠ _ ∧ _ ≠ _ ∧ _ ∉ _))

namespace Marker

variable {β : Type}

/-- Every file and link but the installer's own. -/
def walk (items : Contents β) : List File :=
  (items.entries.filter fun item => !item.1.head?.any isOwn).map fun item =>
    ⟨item.1.text, item.2.size⟩

def record (items : Contents β) (hash : String) (size : ℕ) : Marker where
  hash := hash
  size := size
  files := (walk items).insertionSort fun a b => a.path ≤ b.path

/-- Whether every recorded entry is there at its recorded size, and there is one. -/
def intact (marker : Marker) (items : Contents β) : Bool :=
  !marker.files.isEmpty && marker.files.all fun file =>
    (relative file.path).any fun path =>
      (items.lookup path).any fun node => node.size == file.size

/-- The marker in a folder; `follow` is the file that a link at its top leads to. -/
def read (json : Json β) (follow : Folder β → String → Option (List β))
    (folder : Folder β) : Option Marker :=
  match folder.items.lookup [MARKER] with
  | some (.file bytes) => json.decode bytes
  | some (.link _) => (follow folder MARKER).bind json.decode
  | none => none

end Marker

/-- What a dependency's folder holds, which decides what counts as installed. -/
inductive Kind where
  | runtime
  | libraries
  deriving DecidableEq

def Folder.isLink {β : Type} (folder : Folder β) (name : String) : Bool :=
  match folder.items.lookup [name] with
  | some (.link _) => true
  | _ => false

/-- What the installer takes from its surroundings: the hash functions, the JSON of
markers, what a link at the top of a folder leads to if that is a file, what
extracting an archive writes, and the platform. -/
structure Setting (β : Type) where
  digests : Digests β
  json : Json β
  follow : Folder β → String → Option (List β)
  extracts : List β → Option (Contents β)
  os : String

namespace Setting

variable {β : Type} (c : Setting β)

/-- A file, or a link to one, at the top of the folder. -/
def isFile (folder : Folder β) (name : String) : Bool :=
  match folder.items.lookup [name] with
  | some (.file _) => true
  | some (.link _) => (c.follow folder name).isSome
  | none => false

/-- What a reading of the folder says of the files and links at its top. -/
def dirEntries (folder : Folder β) : List Runtime.DirEntry :=
  folder.items.entries.filterMap fun item =>
    match item.1 with
    | [name] => some ⟨name.toList, c.isFile folder name, folder.isLink name⟩
    | _ => none

def runtimeLibrary (folder : Folder β) : Option (List Char) :=
  Runtime.libraryIn (some (c.dirEntries folder)) c.os

def readMarker (folder : Folder β) : Option Marker :=
  Marker.read c.json c.follow folder

def intactIn (kind : Kind) (folder : Folder β) : Option Marker :=
  ((c.readMarker folder).filter fun marker => marker.intact folder.items).filter
    fun _ => kind == .libraries || (c.runtimeLibrary folder).isSome

end Setting

theorem relative_text {path : Path} (hne : path ≠ [])
    (hplain : ∀ name ∈ path, PlainName name) : relative path.text = some path := by
  have hpieces : path.text.toList.splitOn '/' = path.map String.toList := by
    rw [Path.text, String.toList_ofList]
    refine List.splitOn_intercalate '/' ?_ (by simpa using hne)
    intro piece hpiece
    obtain ⟨name, hname, rfl⟩ := List.mem_map.mp hpiece
    exact (hplain name hname).2.2.2
  have hpiece : ∀ piece ∈ path.map String.toList, piece ≠ [] ∧ piece ≠ ['.'] ∧
      piece ≠ ['.', '.'] := by
    intro piece hpiece
    obtain ⟨name, hname, rfl⟩ := List.mem_map.mp hpiece
    obtain ⟨hempty, hdot, hdots, _⟩ := hplain name hname
    refine ⟨fun h => hempty ?_, fun h => hdot ?_, fun h => hdots ?_⟩
    · exact String.toList_inj.mp h
    · exact String.toList_inj.mp h
    · exact String.toList_inj.mp h
  have hfilter : (path.map String.toList).filter
      (fun piece => piece != [] && piece != ['.']) = path.map String.toList := by
    rw [List.filter_eq_self]
    intro piece hmem
    obtain ⟨hempty, hdot, _⟩ := hpiece piece hmem
    rw [Bool.and_eq_true, bne_iff_ne, bne_iff_ne]
    exact ⟨hempty, hdot⟩
  have hstart : ¬ ((path.map String.toList).head? = some ['.'] ∨
      ((path.map String.toList).head? = some [] ∧
        1 < (path.map String.toList).length) ∨
      ['.', '.'] ∈ path.map String.toList) := by
    rintro (hdot | ⟨hempty, _⟩ | hdots)
    · exact (hpiece _ (List.mem_of_mem_head? hdot)).2.1 rfl
    · exact (hpiece _ (List.mem_of_mem_head? hempty)).1 rfl
    · exact (hpiece _ hdots).2.2 rfl
  rw [relative, hpieces, if_neg hstart, hfilter, List.map_map]
  have hid : String.ofList ∘ String.toList = id := by
    funext text
    exact String.ofList_toList
  rw [hid, List.map_id]

end Ai

end RustSak
