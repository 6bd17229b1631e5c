import Mathlib.Data.Nat.Basic

/-!
# Partially transferred files

A transfer writes to `<path>.part` and says what that partial is in a sidecar
beside it; only a finished transfer renames the partial onto the target. The
bytes are never looked at, so their type is arbitrary.
-/

namespace RustSak

namespace Fetch

/-- What the current request believes its bytes are. -/
structure Identity where
  url : String
  resumeKey : Option String
  /-- A matching key is enough, whatever URL the partial came from. -/
  acrossUrls : Bool
  deriving DecidableEq

structure Sidecar where
  url : String
  etag : Option String
  lastModified : Option String
  total : Option ℕ
  resumeKey : Option String
  deriving DecidableEq

/-- The sidecar describes the bytes the identity asks for. -/
def Sidecar.matchesIdentity (sidecar : Sidecar) (identity : Identity) : Bool :=
  let sameUrl := sidecar.url == identity.url ||
    (identity.acrossUrls && identity.resumeKey.isSome)
  sameUrl && sidecar.resumeKey == identity.resumeKey

/-- The sidecar on disk. A write that was cut off leaves one that is not valid
JSON. -/
inductive SidecarFile where
  | absent
  | unreadable
  | recorded (sidecar : Sidecar)
  deriving DecidableEq

/-- Missing and unreadable are worth the same. -/
def SidecarFile.read : SidecarFile → Option Sidecar
  | recorded sidecar => some sidecar
  | _ => none

/-- The three files of one target path. -/
structure Disk (β : Type) where
  target : Option (List β)
  part : Option (List β)
  sidecar : SidecarFile
  deriving DecidableEq

namespace Disk

variable {β : Type} (disk : Disk β)

/-- The size of the partial, or zero when there is none. -/
def partLen : ℕ := (disk.part.getD []).length

/-- `reconcile` keeps the partial; otherwise it discards both files. -/
def resumable (identity : Identity) : Bool :=
  disk.part.isSome && disk.sidecar.read.any (·.matchesIdentity identity)

def withPart (part : Option (List β)) : Disk β := { disk with part := part }

def withSidecar (sidecar : SidecarFile) : Disk β := { disk with sidecar := sidecar }

/-- The rename that publishes the partial. -/
def rename : Disk β := { disk with target := disk.part, part := none }

end Disk

end Fetch

end RustSak
