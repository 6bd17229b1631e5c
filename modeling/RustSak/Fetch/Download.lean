import RustSak.Fetch.Response
import RustSak.Library.Machine

/-!
# Downloads against one target

`stream_to_file` as a machine: a run begins, settles what to do with a partial it
finds, and makes attempts until one promotes the partial or the run gives up.
Every update of a file is a step of its own, and a run may stop after any step, by
a crash, a cancellation or an error that is not retried. What the writer has
buffered when an attempt ends is lost, and a write already handed to a blocking thread
is taken to land or to be lost before the partial is looked at again. A hash is the list
of the bytes it was fed.
-/

namespace RustSak

namespace Fetch

open Library

inductive DownloadMode where
  | resume
  | overwrite
  | skip
  deriving DecidableEq

/-- What `stream_to_file` is called with. -/
structure Args where
  mode : DownloadMode
  identity : Identity
  hashes : Bool
  deriving DecidableEq

/-- A response whose body is being written: from byte `start` on, `received` has
come in and `buffer` of it is not on disk yet. -/
structure Transfer (β : Type) where
  response : Response β
  recorded : Option Sidecar
  resuming : Bool
  start : ℕ
  received : List β
  buffer : List β
  hasher : Option (List β)
  deriving DecidableEq

/-- The sidecar of a transfer. A `206` need not repeat its validators; a `200`
replaced the bytes. -/
def Transfer.sidecar {β : Type} (x : Transfer β) (args : Args) : Sidecar :=
  let recorded := if x.resuming then x.recorded else none
  { url := args.identity.url
    etag := x.response.responseEtag.or (recorded.bind Sidecar.etag)
    lastModified := x.response.lastModified.or (recorded.bind Sidecar.lastModified)
    total := x.response.contentLength.map fun remaining =>
      if x.resuming then x.start + remaining else remaining
    resumeKey := args.identity.resumeKey }

inductive Phase (β : Type) where
  | idle
  | begun (args : Args)
  /-- `discard`, before an attempt or after one that is `failing`. -/
  | discarding (args : Args) (failing : Bool) (partGone : Bool)
  | attempting (args : Args)
  | asked (args : Args) (offset : ℕ) (recorded : Option Sidecar)
  | opened (args : Args) (transfer : Transfer β)
  | recording (args : Args) (transfer : Transfer β)
  | streaming (args : Args) (transfer : Transfer β)
  | promoting (args : Args) (digest : Option (List β)) (sidecarGone : Bool)
  | failed (args : Args)
  deriving DecidableEq

/-- The checkpoint is a hash and the number of bytes it covers. -/
structure State (β : Type) where
  disk : Disk β
  phase : Phase β
  checkpoint : Option (List β × ℕ)
  deriving DecidableEq

inductive Event (β : Type) where
  | start (args : Args)
  | reconcile (args : Args)
  | removePart (args : Args) (failing : Bool)
  | removeSidecar (args : Args) (failing : Bool)
  | ask (args : Args)
  | answer (args : Args) (offset : ℕ) (recorded : Option Sidecar)
      (response : Response β)
  | truncateSidecar (args : Args) (transfer : Transfer β)
  | writeSidecar (args : Args) (transfer : Transfer β)
  | chunk (args : Args) (transfer : Transfer β) (bytes : List β)
  | spill (args : Args) (transfer : Transfer β) (n : ℕ)
  | mark (args : Args) (transfer : Transfer β)
  | finish (args : Args) (transfer : Transfer β)
  | unlinkSidecar (args : Args) (digest : Option (List β))
  | rename (args : Args) (digest : Option (List β))
  /-- The partial could not be created anew. -/
  | failCreate (args : Args) (offset : ℕ) (recorded : Option Sidecar)
  | fail (args : Args)
  | retry (args : Args)
  | stop

variable {β : Type}

/-- The run an attempt of which is under way, and may fail. -/
def Phase.fails : Phase β → Option Args
  | .discarding args true _ => some args
  | .attempting args => some args
  | .asked args _ _ => some args
  | .opened args _ => some args
  | .recording args _ => some args
  | .streaming args _ => some args
  | .promoting args _ _ => some args
  | _ => none

/-- The bytes `hash_prefix` has hashed when it is done: what the checkpoint
covers, if that is still on disk, and the rest read back. -/
def hashPrefix (checkpoint : Option (List β × ℕ)) (part : List β) (offset : ℕ) :
    List β :=
  let carried := (checkpoint.filter fun c => c.2 ≤ offset).getD ([], 0)
  carried.1 ++ (part.drop carried.2).take (offset - carried.2)

def Enabled (s : State β) : Event β → Prop
  | .start _ => s.phase = .idle
  | .reconcile args => s.phase = .begun args
  | .removePart args failing => s.phase = .discarding args failing false
  | .removeSidecar args failing => s.phase = .discarding args failing true
  | .ask args => s.phase = .attempting args
  | .answer args offset recorded _ => s.phase = .asked args offset recorded
  | .truncateSidecar args x => s.phase = .opened args x
  | .writeSidecar args x => s.phase = .recording args x
  | .chunk args x bytes =>
      s.phase = .streaming args x ∧ x.received ++ bytes <+: x.response.body
  | .spill args x _ => s.phase = .streaming args x
  | .mark args x => s.phase = .streaming args x ∧ x.buffer = []
  | .finish args x =>
      s.phase = .streaming args x ∧ x.received = x.response.body ∧ x.buffer = []
  | .unlinkSidecar args digest => s.phase = .promoting args digest false
  | .rename args digest => s.phase = .promoting args digest true
  | .failCreate args offset recorded => s.phase = .asked args offset recorded
  | .fail args => s.phase.fails = some args
  | .retry args => s.phase = .failed args
  | .stop => True

instance [DecidableEq β] (s : State β) (e : Event β) : Decidable (Enabled s e) :=
  match e with
  | .chunk .. => inferInstanceAs (Decidable (_ = _ ∧ _ <+: _))
  | .mark .. => inferInstanceAs (Decidable (_ = _ ∧ _ = _))
  | .finish .. => inferInstanceAs (Decidable (_ = _ ∧ _ = _ ∧ _ = _))
  | .stop => .isTrue trivial
  | .start _ | .reconcile _ | .removePart .. | .removeSidecar .. | .ask _
  | .answer .. | .truncateSidecar .. | .writeSidecar .. | .spill ..
  | .unlinkSidecar .. | .rename .. | .failCreate .. | .fail _ | .retry _ =>
      inferInstanceAs (Decidable (_ = _))

namespace State

variable (s : State β)

def goto (phase : Phase β) : State β := { s with phase := phase }

def withDisk (disk : Disk β) : State β := { s with disk := disk }

def forget : State β := { s with checkpoint := none }

def promote (args : Args) (offset : ℕ) : State β :=
  if args.hashes then
    s.forget.goto (.promoting args
      (some (hashPrefix s.checkpoint (s.disk.part.getD []) offset)) false)
  else
    s.goto (.promoting args none false)

/-- A `206` from the right byte: the partial is opened to append. -/
def append (args : Args) (offset : ℕ) (recorded : Option Sidecar)
    (response : Response β) : State β :=
  let transfer (hasher : Option (List β)) : Transfer β :=
    ⟨response, recorded, true, offset, [], [], hasher⟩
  if args.hashes then
    s.forget.goto (.opened args (transfer
      (some (hashPrefix s.checkpoint (s.disk.part.getD []) offset))))
  else
    s.goto (.opened args (transfer none))

/-- Any other success: the partial is created anew. -/
def createPart (args : Args) (recorded : Option Sidecar) (response : Response β) :
    State β :=
  ((s.withDisk (s.disk.withPart (some []))).forget).goto (.opened args
    ⟨response, recorded, false, 0, [], [], if args.hashes then some [] else none⟩)

end State

/-- The response goes on from the partial. -/
def resumes (offset : ℕ) (response : Response β) : Bool :=
  0 < offset && response.status == 206

/-- The response says, or the sidecar does, that the resource is not as long as
the partial. -/
def disowns (offset : ℕ) (recorded : Option Sidecar) (response : Response β) :
    Bool :=
  (response.unsatisfiedRangeTotal.or (recorded.bind Sidecar.total)).any (· != offset)

def answered (s : State β) (args : Args) (offset : ℕ) (recorded : Option Sidecar)
    (response : Response β) : State β :=
  if 0 < offset ∧ response.status = 416 then
    if disowns offset recorded response then
      s.goto (.discarding args true false)
    else
      s.promote args offset
  else if response.isError then
    s.goto (.failed args)
  else if resumes offset response then
    if response.contentRangeStart = some offset then
      s.append args offset recorded response
    else
      ((s.withDisk (s.disk.withPart (some []))).forget).goto (.failed args)
  else
    s.createPart args recorded response

/-- A request starts over under `overwrite`; otherwise it goes on from what is on
disk. -/
def offsetOf (args : Args) (disk : Disk β) : ℕ :=
  match args.mode with
  | .overwrite => 0
  | .resume => disk.partLen
  | .skip => disk.partLen

/-- A request that does not ask for the whole body goes on where the partial ends. -/
theorem exists_part_of_offsetOf {args : Args} {disk : Disk β} (h : 0 < offsetOf args disk) :
    ∃ part, disk.part = some part ∧ part.length = offsetOf args disk := by
  have hlen : offsetOf args disk = disk.partLen := by
    cases hmode : args.mode with
    | overwrite =>
        rw [offsetOf, hmode] at h
        exact absurd h (lt_irrefl 0)
    | resume => rw [offsetOf, hmode]
    | skip => rw [offsetOf, hmode]
  rw [hlen] at h ⊢
  cases hpart : disk.part with
  | none =>
      rw [Disk.partLen, hpart] at h
      exact absurd h (lt_irrefl 0)
  | some part => exact ⟨part, rfl, by rw [Disk.partLen, hpart]; rfl⟩

def next (s : State β) : Event β → State β
  | .start args =>
      if args.mode ≠ .overwrite ∧ s.disk.target.isSome = true then s
      else s.forget.goto (.begun args)
  | .reconcile args =>
      if args.mode ≠ .overwrite ∧ s.disk.resumable args.identity = true then
        s.goto (.attempting args)
      else
        s.goto (.discarding args false false)
  | .removePart args failing =>
      (s.withDisk (s.disk.withPart none)).goto (.discarding args failing true)
  | .removeSidecar args failing =>
      let s := s.withDisk (s.disk.withSidecar .absent)
      -- The hash is dropped once both files are gone, not before.
      if failing then s.forget.goto (.failed args) else s.goto (.attempting args)
  | .ask args =>
      let offset := offsetOf args s.disk
      s.goto (.asked args offset (if 0 < offset then s.disk.sidecar.read else none))
  | .answer args offset recorded response => answered s args offset recorded response
  | .truncateSidecar args x =>
      (s.withDisk (s.disk.withSidecar .unreadable)).goto (.recording args x)
  | .writeSidecar args x =>
      (s.withDisk (s.disk.withSidecar (.recorded (x.sidecar args)))).goto
        (.streaming args x)
  | .chunk args x bytes =>
      s.goto (.streaming args { x with
        received := x.received ++ bytes
        buffer := x.buffer ++ bytes
        hasher := x.hasher.map (· ++ bytes) })
  | .spill args x n =>
      (s.withDisk (s.disk.withPart
        (s.disk.part.map (· ++ x.buffer.take n)))).goto
          (.streaming args { x with buffer := x.buffer.drop n })
  | .mark _ x =>
      { s with checkpoint := match x.hasher with
        | some hashed => some (hashed, x.start + x.received.length)
        | none => s.checkpoint }
  | .finish args x => s.goto (.promoting args x.hasher false)
  | .unlinkSidecar args digest =>
      (s.withDisk (s.disk.withSidecar .absent)).goto (.promoting args digest true)
  | .rename _ _ => (s.withDisk s.disk.rename).goto .idle
  | .failCreate args _ _ => s.forget.goto (.failed args)
  | .fail args => s.goto (.failed args)
  | .retry args => s.goto (.attempting args)
  | .stop => s.goto .idle

/-- Runs against one target: what was there before it, and whatever lies beside
it that no sidecar vouches for. -/
def machine (target : Option (List β)) : Machine (State β) (Event β) :=
  .guarded (fun s => s.phase = .idle ∧ s.disk.target = target ∧
    s.disk.sidecar.read = none) Enabled next

def Answers (represents : String → String → List β) (_ : State β) :
    Event β → Prop
  | .answer args offset recorded response =>
      Truthful represents args.identity.url (request offset recorded) response
  | _ => True

/-- The representations the server has answered from, the last first. -/
def served (es : List (Event β)) : List (List β) :=
  es.filterMap fun
    | .answer _ _ _ response => some response.representation
    | _ => none

end Fetch

end RustSak
