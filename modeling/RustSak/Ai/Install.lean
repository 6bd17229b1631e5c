import RustSak.Ai.Unpack
import RustSak.Library.Attempt

/-!
# Planning and installing a list of dependencies

One process, with the root to itself: each dependency is checked locally, one that is
missing is looked up on the API, and each that has an archive is installed in turn.
What the API answers, what a download leaves in staging, what stops an install for a
reason of its own, such as a full disk, and what it reports on the way come from
outside. Fractions are left out of the events.
-/

namespace RustSak

namespace Ai

open Library

namespace Install

/-- A folder on Hugging Face, its last two segments a name and a version. -/
structure Source where
  base : String
  repo : String
  revision : String
  folder : String
  deriving DecidableEq

namespace Source

def segmentFromEnd (source : Source) (n : ℕ) : String :=
  ((source.folder.toList.splitOn '/').reverse[n]?).elim "" String.ofList

def name (source : Source) : String := source.segmentFromEnd 1

def version (source : Source) : String := source.segmentFromEnd 0

end Source

/-- A base, a repository and a revision. -/
abbrev Repo := String × String × String

def Source.repository (source : Source) : Repo :=
  (source.base, source.repo, source.revision)

structure Dependency where
  name : String
  source : Source
  kind : Kind
  deriving DecidableEq

/-- A dependency's folder under the root: its source's name, then its version. -/
abbrev Dir := String × String

def dirFor (source : Source) : Dir := (source.name, source.version)

/-- What the root holds. -/
abbrev Root (β : Type) := Dir → Folder β

def archName (arch : String) : Option String :=
  if arch = "aarch64" then some "arm64"
  else if arch = "x86_64" then some "x64"
  else none

/-- The one archive in a listing for a platform, if there is exactly one. -/
def assetFor (listing : List RemoteFile) (os arch : String) : Option RemoteFile :=
  (archName arch).bind fun arch =>
    if os = "macos" ∨ os = "linux" ∨ os = "windows" then
      let suffix := "_" ++ os ++ "_" ++ arch ++ ".7z"
      match listing.filter fun file =>
          suffix.toList.isSuffixOf file.fileName.toList with
      | [file] => some file
      | _ => none
    else none

/-- What a transfer tells its caller. -/
inductive Step where
  | onDisk (bytes : ℕ)
  | verifying
  deriving DecidableEq

inductive Phase where
  | download
  | extract
  deriving DecidableEq

inductive Event where
  | progress (dependency : String) (phase : Phase) (bytes total : ℕ)
  | verifying (dependency : String)
  | current (dependency : String)
  deriving DecidableEq

/-- A request, and the display name of the dependency it is made for. -/
inductive Request where
  | resolve (dependency : String) (repo : Repo)
  | list (dependency : String) (commit folder : String)
  | download (dependency : String) (commit path : String)
  deriving DecidableEq

def Request.dependency : Request → String
  | resolve dependency _ => dependency
  | list dependency _ _ => dependency
  | download dependency _ _ => dependency

/-- What comes from outside. `download` is what the last download of an archive
leaves in staging, `through` what writing the pending marker through a link of its
name makes of the folder. -/
structure Server (β : Type) where
  arch : String
  resolve : Repo → Except Failure String
  list : Repo → String → String → Except Failure (List RemoteFile)
  download : Dependency → RemoteFile → Except Failure (List β)
  through : Folder β → List β → Except Failure (Folder β)
  stops : Dependency → Option Failure
  reason : Dependency → String
  steps : Dependency → List Step
  extracted : Dependency → List (ℕ × ℕ)

inductive State where
  | present
  | missing
  | unavailable
  deriving DecidableEq

structure Planned where
  name : String
  state : State
  size : ℕ

structure Remote where
  commit : String
  asset : RemoteFile

inductive Action where
  | keep
  | install (remote : Remote)
  | skip

def Action.state : Action → State
  | keep => .present
  | install _ => .missing
  | skip => .unavailable

structure Entry where
  dependency : Dependency
  planned : Planned
  action : Action

/-- The row of a dependency that an action is decided for. -/
def Entry.of (dependency : Dependency) (action : Action) (size : ℕ) : Entry :=
  ⟨dependency, ⟨dependency.name, action.state, size⟩, action⟩

variable {β : Type} (c : Setting β) (server : Server β)

def isPresent (root : Root β) (dependency : Dependency) : Bool :=
  (c.intactIn dependency.kind (root (dirFor dependency.source))).isSome

/-- The commit of a dependency's revision, resolved once for each repository. -/
def commitFor (repos : Table Repo String) (dependency : Dependency) :
    Except Failure (String × Table Repo String × List Request) :=
  let repo := dependency.source.repository
  match repos.lookup repo with
  | some commit => .ok (commit, repos, [])
  | none => do
      let commit ← server.resolve repo
      .ok (commit, repos.insert repo commit, [.resolve dependency.name repo])

/-- What is decided for one that is missing, from its folder's listing. -/
def decideFor (dependency : Dependency) (commit : String) (listing : List RemoteFile) :
    Except Failure Entry :=
  match assetFor listing c.os server.arch with
  | some asset =>
      if installable asset.fileName then
        .ok (.of dependency (.install ⟨commit, asset⟩) asset.size)
      else .error (.malformed (asset.path ++ " is not a plain file name"))
  | none =>
      if dependency.kind = .runtime then
        .error (.unsupportedPlatform c.os server.arch)
      else .ok (.of dependency .skip 0)

/-- One turn of `plan`'s loop. -/
def planOne (root : Root β) (repos : Table Repo String) (dependency : Dependency) :
    Except Failure (Entry × Table Repo String × List Request) :=
  match c.intactIn dependency.kind (root (dirFor dependency.source)) with
  | some marker => .ok (.of dependency .keep marker.size, repos, [])
  | none => do
      let (commit, repos, resolved) ← commitFor server repos dependency
      let source := dependency.source
      let listing ← server.list source.repository commit source.folder
      let entry ← decideFor c server dependency commit listing
      .ok (entry, repos, resolved ++ [.list dependency.name commit source.folder])

def planFrom (root : Root β) :
    Table Repo String → List Dependency → Except InstallError (List Entry × List Request)
  | _, [] => .ok ([], [])
  | repos, dependency :: dependencies => do
      let (entry, repos, asked) ←
        (planOne c server root repos dependency).mapError (⟨dependency.name, ·⟩)
      let (entries, requests) ← planFrom root repos dependencies
      .ok (entry :: entries, asked ++ requests)

def plan (root : Root β) (dependencies : List Dependency) :
    Except InstallError (List Entry × List Request) :=
  planFrom c server root ∅ dependencies

/-- What an install leaves behind. -/
structure Outcome (β : Type) where
  root : Root β
  events : List Event
  requests : List Request

/-- The staged archive, if it has the expected hash. -/
def fetchVerified (file : RemoteFile) (served : Except Failure (List β)) :
    Except Failure (List β) := do
  let bytes ← served
  if file.hash.verifies c.digests bytes then .ok bytes
  else .error (.damaged file.path file.hash.hex (file.hash.ofFile c.digests bytes).hex)

def writePending (folder : Folder β) (json : List β) : Except Failure (Folder β) :=
  if folder.isLink PENDING then server.through folder json
  else .ok (folder.withItems (folder.items.insert [PENDING] (.file json)))

def renamePending (dependency : Dependency) (folder : Folder β) :
    Except Failure (Folder β) :=
  match folder.items.lookup [PENDING] with
  | some node =>
      if below folder.items MARKER then .error (.io (server.reason dependency))
      else .ok (folder.withItems ((folder.items.erase [PENDING]).insert [MARKER] node))
  | none => .error (.io (server.reason dependency))

/-- The marker is written beside and renamed into place. -/
def write (dependency : Dependency) (folder : Folder β) (marker : Marker) :
    Except Failure (Folder β) := do
  let folder ← writePending server folder (c.json.encode marker)
  renamePending server dependency folder

/-- The verified archive is extracted, and replaces what the folder holds. -/
def unpack (dependency : Dependency) (asset : RemoteFile) (folder : Folder β)
    (archive : List β) : Except Failure (Folder β) :=
  match c.extracts archive with
  | none => .error (.io (server.reason dependency))
  | some contents =>
      if below folder.items MARKER || isAt contents STAGING ||
          below contents PENDING then
        .error (.io (server.reason dependency))
      else
        write c server dependency (folder.withItems contents)
          (Marker.record contents asset.hash.hex asset.size)

/-- Another version: its marker first, then all of it. A marker that is a folder is
not removed, nor what is beside it. -/
def removeVersion (folder : Folder β) : Folder β :=
  if below folder.items MARKER then folder.withItems (folder.items.erase [MARKER])
  else ⟨∅, ∅, ∅⟩

def removeOtherVersions (root : Root β) (dir : Dir) : Root β := fun other =>
  if other.1 = dir.1 ∧ other ≠ dir then removeVersion (root other) else root other

def notify (name : String) (total : ℕ) : Step → Event
  | .onDisk bytes => .progress name .download bytes total
  | .verifying => .verifying name

def installOne (remote : Remote) (dependency : Dependency) (root : Root β) :
    Except Failure (Outcome β) :=
  let name := dependency.name
  let dir := dirFor dependency.source
  let asset := remote.asset
  if (c.intactIn dependency.kind (root dir)).isSome then .ok ⟨root, [.current name], []⟩
  else do
    let archive ← fetchVerified c asset (server.download dependency asset)
    let folder ← unpack c server dependency asset (root dir) archive
    match server.stops dependency with
    | some failure => .error failure
    | none =>
        let total := ((server.extracted dependency).getLast?.map Prod.snd).getD 0
        .ok {
          root := removeOtherVersions
            (Function.update root dir ⟨folder.items, ∅, ∅⟩) dir
          events := (server.steps dependency).map (notify name asset.size) ++
            (server.extracted dependency).map (fun (done, total) =>
              .progress name .extract done total) ++
            [.progress name .extract total total]
          requests := [.download name remote.commit asset.path] }

/-- What is done for one row of a plan. -/
def Entry.install (entry : Entry) (root : Root β) : Except InstallError (Outcome β) :=
  match entry.action with
  | .keep => .ok ⟨root, [.current entry.dependency.name], []⟩
  | .install remote =>
      (installOne c server remote entry.dependency root).mapError
        (⟨entry.dependency.name, ·⟩)
  | .skip => .ok ⟨root, [], []⟩

/-- `Plan::install`. -/
def installAll : List Entry → Root β → Except InstallError (Outcome β)
  | [], root => .ok ⟨root, [], []⟩
  | entry :: entries, root => do
      let first ← entry.install c server root
      let rest ← installAll entries first.root
      .ok ⟨rest.root, first.events ++ rest.events, first.requests ++ rest.requests⟩

def install (root : Root β) (dependencies : List Dependency) :
    Except InstallError (Outcome β) := do
  let (entries, requests) ← plan c server root dependencies
  let out ← installAll c server entries root
  .ok { out with requests := requests ++ out.requests }

end Install

end Ai

end RustSak
