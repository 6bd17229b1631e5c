import RustSak.Ai.Marker
import RustSak.Library.Machine

/-!
# Installs of files into one folder

Runs of the file installer in one folder, one after another under its lock, each over
when it returns or its process crashes. Every change of the folder is a step of its
own; what is only read, with nobody else writing, is read in one. A download is any
change of the staged file. The application puts into the derived folders what and when
it likes. Of each such artefact it is kept which record was on disk then, and of the
record which listed files it was written from.
-/

namespace RustSak

namespace Ai

open Library

/-- Which of a folder's files an install takes: exactly these, or all that start so. -/
inductive Select where
  | names (chosen : List String)
  | starting (start : String)

def Select.matches : Select → String → Bool
  | names chosen, name => chosen.contains name
  | starting start, name => start.toList.isPrefixOf name.toList

inductive Trust where
  | published
  | localFiles
  deriving DecidableEq

namespace FileInstall

/-- A folder's files at one commit, each named once. -/
structure Listing where
  folder : String
  files : List RemoteFile
  once : (files.map RemoteFile.fileName).Nodup

/-- One install; its folder on disk and its derived folders are those of the state. -/
structure Files where
  name : String
  folder : String
  select : Select
  trust : Trust

inductive Outcome where
  | installed
  | current
  | adopted
  | offline
  | trusted
  deriving DecidableEq

structure Recorded where
  path : String
  size : ℕ
  hash : String
  deriving DecidableEq

inductive Record where
  | files (recorded : List Recorded)
  | trusted (stamp : String)
  deriving DecidableEq

/-- What a file is recorded as. -/
def Recorded.of (file : RemoteFile) : Recorded :=
  ⟨file.fileName, file.size, file.hash.hex⟩

/-- An entry of the folder that is not the installer's own, with the time it was
modified, if that is known. -/
inductive Item (β : Type) where
  | file (bytes : List β) (modified : Option ℕ)
  | link (size : ℕ) (modified : Option ℕ)
  | folder (size : ℕ) (modified : Option ℕ)

namespace Item

variable {β : Type}

def size : Item β → ℕ
  | file bytes _ => bytes.length
  | link size _ => size
  | folder size _ => size

def modified : Item β → Option ℕ
  | file _ modified => modified
  | link _ modified => modified
  | folder _ modified => modified

def isFile : Item β → Bool
  | file _ _ => true
  | _ => false

def isFolder : Item β → Bool
  | folder _ _ => true
  | _ => false

end Item

abbrev Items (β : Type) := Table String (Item β)

variable {β : Type}

/-- A regular file in the folder, of this size. -/
def presentAt (items : Items β) (name : String) (size : ℕ) : Bool :=
  single name && (items.lookup name).any fun item => item.isFile && item.size == size

/-- The recorded files, if they are verified ones that are all still there. -/
def Record.intact (items : Items β) : Record → Option (List Recorded)
  | files recorded =>
      if !recorded.isEmpty &&
          recorded.all fun file => presentAt items file.path file.size then
        some recorded
      else none
  | trusted _ => none

/-- Whether the file is recorded under its name, size and hash. -/
def recordedAs (recorded : List Recorded) (file : RemoteFile) : Bool :=
  recorded.any fun entry => entry.path == file.fileName && entry.size == file.size &&
    file.hash.isHex entry.hash

/-- Every file that is named is among these. -/
def complete (select : Select) (files : List RemoteFile) : Bool :=
  match select with
  | .names chosen => chosen.all fun name => files.any fun file => file.fileName == name
  | .starting _ => true

/-- The listing's files that are selected, every named one among them. -/
def wanted (select : Select) (listing : Listing) : Except Failure (List RemoteFile) :=
  let files := listing.files.filter fun file => select.matches file.fileName
  if files.isEmpty || !complete select files then .error .notListed
  else match files.find? fun file => !installable file.fileName with
    | some file => .error (.malformed (file.path ++ " is not a plain file name"))
    | none => .ok files

/-- The folder's own files that a selection takes. -/
def selectedIn (items : Items β) (select : Select) : List String :=
  (items.entries.filter fun (entry : Sigma fun _ : String => Item β) =>
    entry.2.isFile && !isOwn entry.1 && select.matches entry.1).map Sigma.fst

/-- The files that a trusted install needs: the names given, else the listing's, else
the record's, else those of the folder. -/
def trustedNames (files : Files) (listing : Option Listing) (record : Option Record)
    (items : Items β) : List String :=
  let names := match files.select, listing, record with
    | .names chosen, _, _ => chosen
    | select, some listing, _ =>
        (listing.files.map RemoteFile.fileName).filter select.matches
    | _, none, some (.files recorded) => recorded.map Recorded.path
    | select, none, _ => selectedIn items select
  names.filter single

/-- What the stamp of some files is the hash of: each one's name, size and time. -/
def stampText (items : Items β) (names : List String) : String :=
  (names.insertionSort (· ≤ ·)).foldl (fun text name =>
    text ++ "\x00" ++ name ++ "\x00" ++ match items.lookup name with
      | some item => toString item.size ++ "\x00" ++
          item.modified.elim "?" toString
      | none => "absent") ""

/-- One run's input. -/
structure Run where
  files : Files
  listing : Option Listing

/-- What an install goes by: the files wanted, and the record that it replaces. -/
structure Job where
  wanted : List RemoteFile
  seen : Option Record

/-- What a run does once the derived folders are empty. -/
inductive Task where
  | trust (stamp : String)
  | install (job : Job)

inductive Phase where
  | idle
  | begun (run : Run)
  | clearing (run : Run) (task : Task)
  | emptying (run : Run) (task : Task)
  | trusting (run : Run) (stamp : String)
  | installing (run : Run) (job : Job) (rest : List RemoteFile) (downloaded : Bool)
  | fetching (run : Run) (job : Job) (file : RemoteFile) (rest : List RemoteFile)
  | sweeping (run : Run) (job : Job) (downloaded : Bool)
  | recording (run : Run) (job : Job) (downloaded : Bool)
  | finishing (run : Run) (outcome : Outcome)
  | returned (run : Run) (result : Except Failure Outcome)

/-- What the application has put into a derived folder: which folder, which record was
on disk, and whether it was there when the folders were last begun to be emptied. -/
structure Artefact where
  folder : ℕ
  name : String
  record : Option Record
  old : Bool
  deriving DecidableEq

structure State (β : Type) where
  items : Items β
  record : Option Record
  staged : Table String (List β)
  derived : List Artefact
  listed : List RemoteFile
  phase : Phase

/-- What is hashed: a file's bytes, and the text of a stamp. -/
structure Hashes (β : Type) where
  digests : Digests β
  sha256Text : String → String

inductive Event (β : Type) where
  | start (run : Run)
  | look
  | unmark
  | emptied
  | trust
  | keep
  | fetch
  | download (bytes : Option (List β))
  | place (modified : Option ℕ)
  | placed
  | sweep (name : String)
  | swept
  | publish
  | unstage (name : String)
  | finish
  | fail (failure : Failure)
  | crash
  | put (folder : ℕ) (name : String)
  | remove (artefact : Artefact)

/-- The run that may fail here. -/
def Phase.run : Phase → Option Run
  | idle => none
  | begun run => some run
  | clearing run _ => some run
  | emptying run _ => some run
  | trusting run _ => some run
  | installing run _ _ _ => some run
  | fetching run _ _ _ => some run
  | sweeping run _ _ => some run
  | recording run _ _ => some run
  | finishing _ _ => none
  | returned _ _ => none

/-- No run is under way. -/
def Phase.rests : Phase → Bool
  | idle => true
  | returned _ _ => true
  | _ => false

/-- Where a run begins: it takes the lock, if the listing is of its folder. -/
def Run.begin (run : Run) : Phase :=
  match run.listing with
  | some listing =>
      if listing.folder = run.files.folder then .begun run
      else .returned run (.error (.wrongListing listing.folder run.files.folder))
  | none => .begun run

namespace State

variable (h : Hashes β) (s : State β)

def toPhase (phase : Phase) : State β := { s with phase := phase }

def stampOf (names : List String) : String := h.sha256Text (stampText s.items names)

/-- The stamp of a folder that is used as it is. -/
def trustedStamp (run : Run) : Option String :=
  let names := trustedNames run.files run.listing s.record s.items
  if run.files.trust = .localFiles ∧ names ≠ [] ∧
      names.all (fun name => (s.items.lookup name).any Item.isFile) = true then
    some (s.stampOf h names)
  else none

/-- What a run decides on, once it has the lock. -/
def look (run : Run) : Phase :=
  match s.trustedStamp h run with
  | some stamp =>
      if s.record = some (.trusted stamp) then .returned run (.ok .trusted)
      else .clearing run (.trust stamp)
  | none =>
      let intact := s.record.bind (Record.intact s.items)
      match run.listing with
      | none =>
          if intact.isSome then .returned run (.ok .offline)
          else .returned run (.error .unlisted)
      | some listing =>
          match wanted run.files.select listing with
          | .error failure => .returned run (.error failure)
          | .ok wanted =>
              if intact.any (fun recorded => recorded.length == wanted.length &&
                  wanted.all (recordedAs recorded)) then
                .returned run (.ok .current)
              else .clearing run (.install ⟨wanted, s.record⟩)

/-- The record that is replaced has the file. -/
def recordSays (seen : Option Record) (file : RemoteFile) : Bool :=
  match seen with
  | some (.files recorded) => recordedAs recorded file
  | _ => false

/-- Whether the file in the folder is this one, by the record or by its hash. -/
def keeps (seen : Option Record) (file : RemoteFile) : Bool :=
  match s.items.lookup file.fileName with
  | some (.file bytes _) => bytes.length == file.size &&
      (recordSays seen file || file.hash.verifies h.digests bytes)
  | _ => false

end State

/-- The state after an event, if it can happen. -/
def State.next (h : Hashes β) (s : State β) : Event β → Option (State β)
  | .start run => if s.phase.rests then some (s.toPhase run.begin) else none
  | .look =>
      match s.phase with
      | .begun run => some (s.toPhase (s.look h run))
      | _ => none
  | .unmark =>
      match s.phase with
      | .clearing run task => some
          { s with
            record := none
            derived := s.derived.map fun artefact => { artefact with old := true }
            phase := .emptying run task }
      | _ => none
  | .emptied =>
      match s.phase with
      | .emptying run task =>
          if s.derived.all fun artefact => !artefact.old then
            match task with
            | .trust stamp => some (s.toPhase (.trusting run stamp))
            | .install job => some (s.toPhase (.installing run job job.wanted false))
          else none
      | _ => none
  | .trust =>
      match s.phase with
      | .trusting run stamp => some
          { s with record := some (.trusted stamp), phase := .returned run (.ok .trusted) }
      | _ => none
  | .keep =>
      match s.phase with
      | .installing run job (file :: rest) downloaded =>
          if s.keeps h job.seen file then
            some (s.toPhase (.installing run job rest downloaded))
          else none
      | _ => none
  | .fetch =>
      match s.phase with
      | .installing run job (file :: rest) _ =>
          if s.keeps h job.seen file then none
          else some (s.toPhase (.fetching run job file rest))
      | _ => none
  | .download bytes =>
      match s.phase with
      | .fetching _ _ file _ =>
          let staged := s.staged.erase file.fileName
          some { s with staged := bytes.elim staged (staged.insert file.fileName) }
      | _ => none
  | .place modified =>
      match s.phase with
      | .fetching run job file rest =>
          match (s.staged.lookup file.fileName).filter
              (file.hash.verifies h.digests) with
          | some bytes =>
              if (s.items.lookup file.fileName).any Item.isFolder then none
              else some
                { s with
                  items := s.items.insert file.fileName (.file bytes modified)
                  staged := s.staged.erase file.fileName
                  phase := .installing run job rest true }
          | none => none
      | _ => none
  | .placed =>
      match s.phase with
      | .installing run job [] downloaded =>
          some (s.toPhase (.sweeping run job downloaded))
      | _ => none
  | .sweep name =>
      match s.phase with
      | .sweeping _ job _ =>
          if job.wanted.any fun file => file.fileName == name then none
          else some { s with items := s.items.erase name }
      | _ => none
  | .swept =>
      match s.phase with
      | .sweeping run job downloaded =>
          if s.items.entries.all fun entry =>
              job.wanted.any fun file => file.fileName == entry.1 then
            some (s.toPhase (.recording run job downloaded))
          else none
      | _ => none
  | .publish =>
      match s.phase with
      | .recording run job downloaded => some
          { s with
            record := some (.files (job.wanted.map Recorded.of))
            listed := job.wanted
            phase := .finishing run (if downloaded then .installed else .adopted) }
      | _ => none
  | .unstage name =>
      match s.phase with
      | .finishing _ _ => some { s with staged := s.staged.erase name }
      | _ => none
  | .finish =>
      match s.phase with
      | .finishing run outcome => some (s.toPhase (.returned run (.ok outcome)))
      | _ => none
  | .fail failure =>
      s.phase.run.map fun run => s.toPhase (.returned run (.error failure))
  | .crash => some (s.toPhase .idle)
  | .put folder name =>
      some { s with derived := ⟨folder, name, s.record, false⟩ :: s.derived }
  | .remove artefact =>
      some { s with derived := s.derived.filter fun other => other != artefact }

/-- From any folder without a record. -/
def machine (h : Hashes β) : Machine (State β) (Event β) :=
  .ofPartial (fun s => s.record = none ∧ s.phase = .idle) fun s => s.next h

end FileInstall

end Ai

end RustSak
