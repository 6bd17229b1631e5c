import RustSak.Ai.Marker
import RustSak.Library.Machine
import Mathlib.Logic.Function.Basic

/-!
# Installs into one folder

Any number of installs into one dependency's folder, and of installs of its other
versions that remove it, under the folder's advisory lock. The lock is held by the
future of an install, the unpacking runs on a blocking thread: when the future is
dropped the lock goes and the thread goes on. Every file-system operation is a step
of its own, and a process may crash between two of them. A download is any change of
the staged archive; only one of the expected hash is unpacked.
-/

namespace RustSak

namespace Ai

open Library

/-- What a blocking thread still has to do: `unpack`, then what follows it. -/
inductive Work (β : Type) where
  /-- Removing what an earlier extraction left. -/
  | clearing
  | extracting (rest : List (Sigma fun _ : Path => Node β))
  | unmarking
  | emptying
  | moving
  | recording
  | writing (marker : Marker)
  | publishing
  /-- Removing staging, and the other versions. -/
  | cleaning

/-- One operation of a blocking thread. -/
inductive Step where
  | unstage (path : Path)
  | open
  | writePart (n : ℕ)
  | writeWhole
  | extracted
  | unmark
  | remove (path : Path)
  | emptied
  | move (name : String)
  | moved
  | record
  | writePending (n : ℕ)
  | written
  | publish
  | forget (name : String)
  deriving DecidableEq

variable {β : Type}

/-- A file as far as it is written. -/
def Node.part (n : ℕ) : Node β → Node β
  | file bytes => .file (bytes.take n)
  | link target => .link target

/-- Something is below the name, which is then a folder. -/
def below (items : Contents β) (name : String) : Bool :=
  items.entries.any fun item => item.1.head? == some name && item.1 != [name]

def isAt (items : Contents β) (name : String) : Bool :=
  items.entries.any fun item => item.1.head? == some name

/-- A rename onto the name fails: a folder does not replace what is there, and
nothing replaces a folder that is not empty. Staging is never empty. -/
def blocks (items : Contents β) (extract : Contents β) (name : String) : Bool :=
  name == STAGING || below items name || (below extract name && isAt items name)

namespace Folder

variable (folder : Folder β)

def withItems (items : Contents β) : Folder β := { folder with items := items }

def withExtract (extract : Contents β) : Folder β := { folder with extract := extract }

/-- Everything extracted under the name is moved in. -/
def moveIn (name : String) : Folder β :=
  { folder with
    items := folder.extract.retain (fun path _ => path.head? == some name) ∪
      folder.items
    extract := folder.extract.retain fun path _ => path.head? != some name }

end Folder

/-- What a step makes of the folder and of what is left to do, if it is the next
one. An extraction writes below the directory it has opened; `current` is whether that
is still the one in staging, and in one that was removed nothing can be created. A link
that only an archive can have put under the name of the pending marker is not written
through. -/
def Work.next (c : Setting β) (asset : RemoteFile) (current : Bool) (folder : Folder β) :
    Work β → Step → Option (Folder β × Work β)
  | .clearing, .unstage path =>
      some (folder.withExtract (folder.extract.erase path), .clearing)
  | .clearing, .open =>
      if folder.extract.entries = [] then
        (folder.staged.lookup asset.fileName).bind fun archive =>
          (c.extracts archive).map fun contents =>
            (folder, .extracting contents.entries)
      else none
  | .extracting (item :: rest), .writePart n =>
      if current then
        some (folder.withExtract (folder.extract.insert item.1 (item.2.part n)),
          .extracting (item :: rest))
      else none
  | .extracting (item :: rest), .writeWhole =>
      if current then
        some (folder.withExtract (folder.extract.insert item.1 item.2),
          .extracting rest)
      else none
  | .extracting [], .extracted => some (folder, .unmarking)
  | .unmarking, .unmark =>
      if below folder.items MARKER then none
      else some (folder.withItems (folder.items.erase [MARKER]), .emptying)
  | .emptying, .remove path =>
      some (folder.withItems (folder.items.erase path), .emptying)
  | .emptying, .emptied =>
      if folder.items.entries = [] then some (folder, .moving) else none
  | .moving, .move name =>
      if blocks folder.items folder.extract name then none
      else some (folder.moveIn name, .moving)
  | .moving, .moved =>
      if folder.extract.entries = [] then some (folder, .recording) else none
  | .recording, .record =>
      some (folder, .writing (Marker.record folder.items asset.hash.hex asset.size))
  | .writing marker, .writePending n =>
      if below folder.items PENDING || folder.isLink PENDING then none
      else some (folder.withItems (folder.items.insert [PENDING]
        (.file ((c.json.encode marker).take n))), .writing marker)
  | .writing marker, .written =>
      if below folder.items PENDING || folder.isLink PENDING then none
      else some (folder.withItems (folder.items.insert [PENDING]
        (.file (c.json.encode marker))), .publishing)
  | .publishing, .publish =>
      if below folder.items MARKER then none
      else (folder.items.lookup [PENDING]).map fun node =>
        (folder.withItems ((folder.items.erase [PENDING]).insert [MARKER] node),
          .cleaning)
  | .cleaning, .unstage path =>
      some (folder.withExtract (folder.extract.erase path), .cleaning)
  | .cleaning, .forget name =>
      some ({ folder with staged := folder.staged.erase name }, .cleaning)
  | _, _ => none

/-- Where an install is. -/
inductive Run (β : Type) where
  | idle
  /-- It has the lock, and has not looked at the folder. -/
  | entered (asset : RemoteFile)
  | fetching (asset : RemoteFile)
  | working (asset : RemoteFile) (work : Work β)
  /-- Its future was dropped, and its thread goes on. -/
  | stray (asset : RemoteFile) (work : Work β)
  /-- Another version's, whose thread has the lock to remove this one. -/
  | removing (unmarked : Bool)

namespace Run

variable (run : Run β)

def isIdle : Bool := match run with | idle => true | _ => false

def holds : Bool :=
  match run with
  | entered _ | fetching _ | working _ _ | removing _ => true
  | idle | stray _ _ => false

def isStray : Bool := match run with | stray _ _ => true | _ => false

/-- What its thread is at. -/
def work : Option (RemoteFile × Work β) :=
  match run with
  | working asset work => some (asset, work)
  | stray asset work => some (asset, work)
  | _ => none

def withWork (work : Work β) : Run β :=
  match run with
  | working asset _ => working asset work
  | stray asset _ => stray asset work
  | run => run

/-- It unpacks. -/
def unpacks : Bool :=
  match run.work with
  | some (_, .cleaning) => false
  | some _ => true
  | none => false

end Run

/-- `extractor` is the run that has opened the directory in staging last. -/
structure State (β : Type) where
  folder : Folder β
  lock : Option ℕ
  runs : ℕ → Run β
  extractor : Option ℕ

inductive Event (β : Type) where
  | acquire (i : ℕ) (asset : RemoteFile)
  | check (i : ℕ)
  | download (i : ℕ) (archive : Option (List β))
  | verified (i : ℕ)
  | unpack (i : ℕ) (step : Step)
  | finish (i : ℕ)
  | fail (i : ℕ)
  | drop (i : ℕ)
  | crash (process : ℕ)
  | evict (i : ℕ)
  | evictMarker (i : ℕ)
  | evictItem (i : ℕ) (path : Path)
  | evictStaged (i : ℕ) (name : String)
  | evictExtract (i : ℕ) (path : Path)
  | leave (i : ℕ)

namespace State

variable (s : State β)

def set (i : ℕ) (run : Run β) : State β :=
  { s with runs := Function.update s.runs i run }

def withFolder (folder : Folder β) : State β := { s with folder := folder }

/-- The run is over; the lock goes with it, if it is the run's. -/
def release (i : ℕ) (run : Run β) : State β :=
  { s.set i run with lock := if s.lock = some i then none else s.lock }

end State

/-- The state after an event, if it can happen. `process` is the process of each
run, and `kind` what the folder holds. -/
def State.next (c : Setting β) (kind : Kind) (process : ℕ → ℕ) (s : State β) :
    Event β → Option (State β)
  | .acquire i asset =>
      if s.lock = none ∧ (s.runs i).isIdle = true then
        some { s.set i (.entered asset) with lock := some i }
      else none
  | .check i =>
      match s.runs i with
      | .entered asset =>
          if (c.intactIn kind s.folder).isSome then some (s.release i .idle)
          else some (s.set i (.fetching asset))
      | _ => none
  | .download i archive =>
      match s.runs i with
      | .fetching asset =>
          let staged := s.folder.staged.erase asset.fileName
          some (s.withFolder { s.folder with
            staged := archive.elim staged (staged.insert asset.fileName) })
      | _ => none
  | .verified i =>
      match s.runs i with
      | .fetching asset =>
          if (s.folder.staged.lookup asset.fileName).any
              (asset.hash.verifies c.digests) then
            some (s.set i (.working asset .clearing))
          else none
      | _ => none
  | .unpack i step =>
      (s.runs i).work.bind fun (asset, work) =>
        (work.next c asset (s.extractor == some i) s.folder step).map
          fun (folder, work) =>
            { (s.withFolder folder).set i ((s.runs i).withWork work) with
              extractor := if step = .open then some i else s.extractor }
  | .finish i =>
      match s.runs i with
      | .working _ .cleaning => some (s.release i .idle)
      | .stray _ .cleaning => some (s.set i .idle)
      | _ => none
  | .fail i => if (s.runs i).isIdle then none else some (s.release i .idle)
  | .drop i =>
      match s.runs i with
      | .entered _ => some (s.release i .idle)
      | .fetching _ => some (s.release i .idle)
      | .working asset work => some (s.release i (.stray asset work))
      | _ => none
  | .crash p => some
      { s with
        runs := fun i => if process i = p then .idle else s.runs i
        lock := s.lock.filter fun i => process i != p }
  | .evict i =>
      if s.lock = none ∧ (s.runs i).isIdle = true then
        some { s.set i (.removing false) with lock := some i }
      else none
  | .evictMarker i =>
      match s.runs i with
      | .removing false =>
          if below s.folder.items MARKER then none
          else some ((s.withFolder (s.folder.withItems
            (s.folder.items.erase [MARKER]))).set i (.removing true))
      | _ => none
  | .evictItem i path =>
      match s.runs i with
      | .removing true =>
          some (s.withFolder (s.folder.withItems (s.folder.items.erase path)))
      | _ => none
  | .evictStaged i name =>
      match s.runs i with
      | .removing true =>
          some (s.withFolder { s.folder with staged := s.folder.staged.erase name })
      | _ => none
  | .evictExtract i path =>
      match s.runs i with
      | .removing true =>
          some (s.withFolder (s.folder.withExtract (s.folder.extract.erase path)))
      | _ => none
  | .leave i =>
      match s.runs i with
      | .removing _ => some (s.release i .idle)
      | _ => none

/-- Everything the marker's archive holds is in the folder, whole. -/
def Whole (c : Setting β) (items : Contents β) (marker : Marker) : Prop :=
  ∃ (archive : List β) (contents : Contents β) (hash : Hash),
    hash.hex = marker.hash ∧ hash.verifies c.digests archive = true ∧
    c.extracts archive = some contents ∧
    ∀ path node, contents.lookup path = some node → items.lookup path = some node

/-- A folder that reads as installed is whole. -/
def Sound (c : Setting β) (folder : Folder β) : Prop :=
  ∀ marker, c.readMarker folder = some marker →
    marker.intact folder.items = true → Whole c folder.items marker

/-- From any folder that is whole if it reads as installed, its marker no link. -/
def machine (c : Setting β) (kind : Kind) (process : ℕ → ℕ) :
    Machine (State β) (Event β) :=
  .ofPartial (fun s => s.lock = none ∧ (∀ i, s.runs i = .idle) ∧ Sound c s.folder ∧
    s.folder.isLink MARKER = false) fun s => s.next c kind process

end Ai

end RustSak
