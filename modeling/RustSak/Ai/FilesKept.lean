import RustSak.Ai.Files

/-!
# What a record of files vouches for

A file is kept on the word of the record that is replaced only while nothing has come
to its name since, and no record is on disk while the derived folders hold anything
that was put there under another one. The record has a hash's hex and not its kind, so
all of this needs listings that give a recorded hash as the kind it was.
-/

namespace RustSak

namespace Ai

open Library

namespace FileInstall

variable {β : Type} {h : Hashes β}

/-- A listed file is in the folder, with bytes of its hash. -/
def Held (h : Hashes β) (items : Items β) (file : RemoteFile) : Prop :=
  ∃ bytes modified, items.lookup file.fileName = some (.file bytes modified) ∧
    file.hash.verifies h.digests bytes = true

/-- If a record has a listed file, what is in the folder under its name has its hash. -/
def Vouches (h : Hashes β) (items : Items β) (seen : Option Record)
    (file : RemoteFile) : Prop :=
  ∀ recorded, seen = some (.files recorded) → recordedAs recorded file = true →
    ∀ bytes modified, items.lookup file.fileName = some (.file bytes modified) →
      file.hash.verifies h.digests bytes = true

def Selected (run : Run) (file : RemoteFile) : Prop :=
  ∃ listing, run.listing = some listing ∧ file ∈ listing.files ∧
    run.files.select.matches file.fileName = true

/-- Every selected file is in the folder. -/
def Complete (h : Hashes β) (items : Items β) (run : Run) : Prop :=
  ∀ file, Selected run file → Held h items file

/-- Nothing but selected files is in the folder. -/
def Exact (items : Items β) (run : Run) : Prop :=
  ∀ name item, items.lookup name = some item →
    ∃ file, Selected run file ∧ file.fileName = name

/-- What an outcome promises of the folder. -/
def Promised (h : Hashes β) (items : Items β) (run : Run) : Outcome → Prop
  | .installed => Complete h items run ∧ Exact items run
  | .adopted => Complete h items run ∧ Exact items run
  | .current => Complete h items run
  | .offline => True
  | .trusted => True

/-- The files of a job are those its run selects. -/
structure JobFor (run : Run) (job : Job) : Prop where
  selected : ∀ file, Selected run file ↔ file ∈ job.wanted
  once : (job.wanted.map RemoteFile.fileName).Nodup

/-- No record is on disk, and nothing was derived under one. -/
def Clean (s : State β) : Prop :=
  s.record = none ∧ ∀ artefact ∈ s.derived, artefact.record = none

def TaskOk (h : Hashes β) (items : Items β) (run : Run) : Task → Prop
  | .trust _ => True
  | .install job => JobFor run job ∧ ∀ file ∈ job.wanted, Vouches h items job.seen file

/-- What holds in each phase. -/
def PhaseOk (h : Hashes β) (s : State β) : Phase → Prop
  | .idle => True
  | .begun _ => True
  | .clearing run task => TaskOk h s.items run task
  | .emptying run task => s.record = none ∧ TaskOk h s.items run task ∧
      ∀ artefact ∈ s.derived, artefact.old = false → artefact.record = none
  | .trusting _ _ => Clean s
  | .installing run job rest _ => Clean s ∧ JobFor run job ∧
      ∃ done, job.wanted = done ++ rest ∧ (∀ file ∈ done, Held h s.items file) ∧
        ∀ file ∈ rest, Vouches h s.items job.seen file
  | .fetching run job file rest => Clean s ∧ JobFor run job ∧
      ∃ done, job.wanted = done ++ file :: rest ∧
        (∀ file ∈ done, Held h s.items file) ∧
        ∀ file ∈ rest, Vouches h s.items job.seen file
  | .sweeping run job _ => Clean s ∧ JobFor run job ∧
      ∀ file ∈ job.wanted, Held h s.items file
  | .recording run job _ => Clean s ∧ JobFor run job ∧
      (∀ file ∈ job.wanted, Held h s.items file) ∧
      ∀ name item, s.items.lookup name = some item →
        ∃ file ∈ job.wanted, file.fileName = name
  | .finishing run outcome => Promised h s.items run outcome
  | .returned run (.ok outcome) => Promised h s.items run outcome
  | .returned _ (.error _) => True

structure Inv (h : Hashes β) (s : State β) : Prop where
  recorded : ∀ recorded, s.record = some (.files recorded) →
    recorded = s.listed.map Recorded.of ∧ ∀ file ∈ s.listed, Held h s.items file
  derived : ∀ record, s.record = some record → ∀ artefact ∈ s.derived,
    ∀ record', artefact.record = some record' → record' = record
  phase : PhaseOk h s s.phase

/-- No listing has a file of the record on disk, at its size and with its hash, but as
the other kind of hash. -/
def SameKind (s : State β) : Event β → Prop
  | .look => ∀ run, s.phase = .begun run → ∀ file, Selected run file →
      ∀ recorded, s.record = some (.files recorded) → ∀ old ∈ s.listed,
        old.fileName = file.fileName → old.size = file.size →
        file.hash.isHex old.hash.hex = true → file.hash.isSha256 = old.hash.isSha256
  | _ => True

theorem mem_of_lookup {κ ν : Type} [DecidableEq κ] {t : Table κ ν} {k : κ} {v : ν}
    (hlookup : t.lookup k = some v) : ⟨k, v⟩ ∈ t.entries :=
  AList.mem_lookup_iff.mp (Option.mem_def.mpr hlookup)

section Words

variable {s : State β}

/-- A file is kept only if it is the listed one. -/
theorem held_of_keeps {seen : Option Record} {file : RemoteFile}
    (hvouches : Vouches h s.items seen file) (hkeeps : s.keeps h seen file = true) :
    Held h s.items file := by
  rw [State.keeps] at hkeeps
  split at hkeeps
  · rename_i bytes modified hlookup
    rw [Bool.and_eq_true, Bool.or_eq_true] at hkeeps
    refine ⟨bytes, modified, hlookup, ?_⟩
    rcases hkeeps.2 with hword | hhash
    · unfold State.recordSays at hword
      split at hword
      · exact hvouches _ rfl hword bytes modified hlookup
      · cases hword
    · exact hhash
  · cases hkeeps

theorem wanted_eq_ok {select : Select} {listing : Listing} {files : List RemoteFile}
    (hwanted : wanted select listing = .ok files) :
    files = listing.files.filter fun file => select.matches file.fileName := by
  simp only [wanted] at hwanted
  split at hwanted
  · cases hwanted
  · split at hwanted
    · cases hwanted
    · exact (Except.ok.inj hwanted).symm

theorem jobFor_of_wanted {run : Run} {listing : Listing} {files : List RemoteFile}
    (hlisting : run.listing = some listing)
    (hwanted : wanted run.files.select listing = .ok files) (seen : Option Record) :
    JobFor run ⟨files, seen⟩ := by
  obtain rfl := wanted_eq_ok hwanted
  constructor
  · intro file
    rw [List.mem_filter]
    constructor
    · rintro ⟨listing', hsome, hin, hmatches⟩
      rw [hlisting] at hsome
      obtain rfl := Option.some.inj hsome
      exact ⟨hin, hmatches⟩
    · rintro ⟨hin, hmatches⟩
      exact ⟨listing, hlisting, hin, hmatches⟩
  · exact listing.once.sublist (List.filter_sublist.map _)

end Words

/-- The record on disk vouches for what the listing has, if their kinds agree. -/
theorem Inv.vouches {s : State β} {run : Run} (hi : Inv h s)
    (hphase : s.phase = .begun run) (hkind : SameKind s (Event.look : Event β))
    {file : RemoteFile} (hselected : Selected run file) :
    Vouches h s.items s.record file := by
  intro recorded hrecord hrecorded bytes modified hlookup
  obtain ⟨rfl, hheld⟩ := hi.recorded recorded hrecord
  obtain ⟨entry, hentry, hsame⟩ := List.any_eq_true.mp hrecorded
  obtain ⟨old, hold, rfl⟩ := List.mem_map.mp hentry
  rw [Bool.and_eq_true, Bool.and_eq_true, beq_iff_eq, beq_iff_eq] at hsame
  obtain ⟨⟨hname, hsize⟩, hhex⟩ := hsame
  obtain ⟨bytes', modified', hlookup', hverifies⟩ := hheld old hold
  change old.fileName = file.fileName at hname
  rw [hname, hlookup] at hlookup'
  cases hlookup'
  exact Hash.verifies_of_isHex h.digests
    (hkind run hphase file hselected _ hrecord old hold hname hsize hhex) hhex hverifies

section Frames

variable {s s' : State β}

theorem Clean.frame (hclean : Clean s) (hrecord : s'.record = s.record)
    (hderived : ∀ artefact ∈ s'.derived,
      artefact ∈ s.derived ∨ artefact.record = s.record) : Clean s' := by
  obtain ⟨hnone, hall⟩ := hclean
  refine ⟨hrecord.trans hnone, fun artefact hin => ?_⟩
  rcases hderived artefact hin with hold | hnew
  · exact hall artefact hold
  · exact hnew.trans hnone

/-- Only the entries, the record and what is derived count, and what is derived may
go, or be put there under the record that is on disk. -/
theorem PhaseOk.frame {phase : Phase} (hok : PhaseOk h s phase)
    (hitems : s'.items = s.items) (hrecord : s'.record = s.record)
    (hderived : ∀ artefact ∈ s'.derived,
      artefact ∈ s.derived ∨ artefact.record = s.record) : PhaseOk h s' phase := by
  cases phase with
  | idle => trivial
  | begun run => trivial
  | clearing run task =>
      rw [PhaseOk, hitems]
      exact hok
  | emptying run task =>
      obtain ⟨hnone, htask, hnew⟩ := hok
      rw [PhaseOk, hitems]
      refine ⟨hrecord.trans hnone, htask, fun artefact hin hfresh => ?_⟩
      rcases hderived artefact hin with hold | hput
      · exact hnew artefact hold hfresh
      · exact hput.trans hnone
  | trusting run stamp => exact Clean.frame hok hrecord hderived
  | installing run job rest downloaded =>
      rw [PhaseOk, hitems]
      exact ⟨hok.1.frame hrecord hderived, hok.2⟩
  | fetching run job file rest =>
      rw [PhaseOk, hitems]
      exact ⟨hok.1.frame hrecord hderived, hok.2⟩
  | sweeping run job downloaded =>
      rw [PhaseOk, hitems]
      exact ⟨hok.1.frame hrecord hderived, hok.2⟩
  | recording run job downloaded =>
      rw [PhaseOk, hitems]
      exact ⟨hok.1.frame hrecord hderived, hok.2⟩
  | finishing run outcome =>
      rw [PhaseOk, hitems]
      exact hok
  | returned run result =>
      cases result with
      | ok outcome =>
          rw [PhaseOk, hitems]
          exact hok
      | error failure => trivial

theorem Inv.frame (hi : Inv h s) (hitems : s'.items = s.items)
    (hrecord : s'.record = s.record) (hlisted : s'.listed = s.listed)
    (hphase : s'.phase = s.phase)
    (hderived : ∀ artefact ∈ s'.derived,
      artefact ∈ s.derived ∨ artefact.record = s.record) : Inv h s' := by
  refine ⟨?_, ?_, ?_⟩
  · rw [hrecord, hlisted, hitems]
    exact hi.recorded
  · rw [hrecord]
    intro record hsome artefact hin record' hrecord'
    rcases hderived artefact hin with hold | hput
    · exact hi.derived record hsome artefact hold record' hrecord'
    · rw [hput, hsome] at hrecord'
      exact (Option.some.inj hrecord').symm
  · rw [hphase]
    exact hi.phase.frame hitems hrecord hderived

/-- A run that only moves on. -/
theorem Inv.toPhase (hi : Inv h s) {phase : Phase} (hok : PhaseOk h s phase) :
    Inv h (s.toPhase phase) :=
  ⟨hi.recorded, hi.derived, hok.frame rfl rfl fun _ hin => .inl hin⟩

/-- Without a record only the phase counts. -/
theorem Inv.of_phase (hnone : s.record = none) (hok : PhaseOk h s s.phase) : Inv h s := by
  refine ⟨?_, ?_, hok⟩
  · rw [hnone]
    nofun
  · rw [hnone]
    nofun

end Frames

section Looking

variable {s : State β} {run : Run}

/-- A file of an intact record is there, and is the listed one if the record vouches
for it. -/
theorem held_of_recordedAs {recorded : List Recorded} {file : RemoteFile}
    (hintact : s.record.bind (Record.intact s.items) = some recorded)
    (hvouches : Vouches h s.items s.record file)
    (hrecorded : recordedAs recorded file = true) : Held h s.items file := by
  obtain ⟨record, hrecord, hintact⟩ := Option.bind_eq_some_iff.mp hintact
  cases record with
  | trusted stamp => cases hintact
  | files recorded' =>
      obtain ⟨hall, heq⟩ := Option.ite_none_right_eq_some.mp hintact
      obtain rfl := Option.some.inj heq
      rw [Bool.and_eq_true, List.all_eq_true] at hall
      obtain ⟨entry, hentry, hsame⟩ := List.any_eq_true.mp hrecorded
      rw [Bool.and_eq_true, Bool.and_eq_true, beq_iff_eq] at hsame
      have hpresent := hall.2 entry hentry
      rw [presentAt, Bool.and_eq_true, hsame.1.1] at hpresent
      obtain ⟨item, hitem, hfile⟩ := (Option.any_eq_true _ _).mp hpresent.2
      cases item with
      | file bytes modified =>
          exact ⟨bytes, modified, hitem,
            hvouches recorded' hrecord hrecorded bytes modified hitem⟩
      | link size modified => cases hfile
      | folder size modified => cases hfile

theorem Inv.look (hi : Inv h s) (hphase : s.phase = .begun run)
    (hkind : SameKind s (Event.look : Event β)) : PhaseOk h s (s.look h run) := by
  rw [State.look]
  split
  · split
    · trivial
    · trivial
  · dsimp only
    split
    · split
      · trivial
      · trivial
    · rename_i listing hlisting
      split
      · trivial
      · rename_i files hwanted
        have hjob := jobFor_of_wanted hlisting hwanted s.record
        have hvouches : ∀ file ∈ files, Vouches h s.items s.record file :=
          fun file hin => hi.vouches hphase hkind ((hjob.selected file).mpr hin)
        split
        · rename_i hcurrent
          obtain ⟨recorded, hintact, hsame⟩ := (Option.any_eq_true _ _).mp hcurrent
          rw [Bool.and_eq_true, List.all_eq_true] at hsame
          intro file hselected
          have hin := (hjob.selected file).mp hselected
          exact held_of_recordedAs hintact (hvouches file hin) (hsame.2 file hin)
        · exact ⟨hjob, hvouches⟩

end Looking

section Steps

variable {s : State β}

theorem Held.of_ne {items : Items β} {file : RemoteFile} (hheld : Held h items file)
    {name : String} (hne : file.fileName ≠ name) {items' : Items β}
    (hitems : ∀ name', name' ≠ name → items'.lookup name' = items.lookup name') :
    Held h items' file := by
  obtain ⟨bytes, modified, hlookup, hverifies⟩ := hheld
  exact ⟨bytes, modified, (hitems _ hne).trans hlookup, hverifies⟩

theorem Vouches.of_ne {items : Items β} {seen : Option Record} {file : RemoteFile}
    (hvouches : Vouches h items seen file) {name : String} (hne : file.fileName ≠ name)
    {items' : Items β}
    (hitems : ∀ name', name' ≠ name → items'.lookup name' = items.lookup name') :
    Vouches h items' seen file := by
  intro recorded hseen hrecorded bytes modified hlookup
  exact hvouches recorded hseen hrecorded bytes modified
    ((hitems _ hne).symm.trans hlookup)

theorem Clean.record_ne (hclean : Clean s) {artefact : Artefact}
    (hin : artefact ∈ s.derived) (record : Record) : artefact.record ≠ some record := by
  rw [hclean.2 artefact hin]
  nofun

theorem Inv.begin (hi : Inv h s) (run : Run) : Inv h (s.toPhase run.begin) := by
  refine hi.toPhase ?_
  unfold Run.begin
  split
  · split
    · trivial
    · trivial
  · trivial

/-- The record is taken away: what was derived before is marked. -/
theorem PhaseOk.unmark {run : Run} {task : Task}
    (hok : PhaseOk h s (.clearing run task)) :
    PhaseOk h
      { s with
        record := none
        derived := s.derived.map fun artefact => { artefact with old := true }
        phase := .emptying run task }
      (.emptying run task) := by
  refine ⟨rfl, hok, fun artefact hin hfresh => ?_⟩
  obtain ⟨old, _, rfl⟩ := List.mem_map.mp hin
  cases hfresh

/-- Nothing of what was derived before is left. -/
theorem PhaseOk.clean {run : Run} {task : Task} (hok : PhaseOk h s (.emptying run task))
    (hempty : s.derived.all (fun artefact => !artefact.old) = true) : Clean s := by
  rw [List.all_eq_true] at hempty
  refine ⟨hok.1, fun artefact hin => hok.2.2 artefact hin ?_⟩
  exact Bool.not_eq_true' _ ▸ hempty artefact hin

/-- The next file is the one in the folder. -/
theorem PhaseOk.keep {run : Run} {job : Job} {file : RemoteFile}
    {rest : List RemoteFile} {downloaded : Bool}
    (hok : PhaseOk h s (.installing run job (file :: rest) downloaded))
    (hkeeps : s.keeps h job.seen file = true) :
    PhaseOk h s (.installing run job rest downloaded) := by
  obtain ⟨hclean, hjob, done, hwanted, hheld, hvouches⟩ := hok
  obtain ⟨hvouch, hvouches⟩ := List.forall_mem_cons.mp hvouches
  refine ⟨hclean, hjob, done ++ [file], ?_, ?_, hvouches⟩
  · rw [hwanted, List.append_assoc]
    rfl
  · intro file' hin
    rcases List.mem_append.mp hin with hin | hin
    · exact hheld file' hin
    · rw [List.mem_singleton.mp hin]
      exact held_of_keeps hvouch hkeeps

theorem PhaseOk.fetch {run : Run} {job : Job} {file : RemoteFile}
    {rest : List RemoteFile} {downloaded : Bool}
    (hok : PhaseOk h s (.installing run job (file :: rest) downloaded)) :
    PhaseOk h s (.fetching run job file rest) := by
  obtain ⟨hclean, hjob, done, hwanted, hheld, hvouches⟩ := hok
  exact ⟨hclean, hjob, done, hwanted, hheld, (List.forall_mem_cons.mp hvouches).2⟩

theorem PhaseOk.placed {run : Run} {job : Job} {downloaded : Bool}
    (hok : PhaseOk h s (.installing run job [] downloaded)) :
    PhaseOk h s (.sweeping run job downloaded) := by
  obtain ⟨hclean, hjob, done, hwanted, hheld, _⟩ := hok
  rw [List.append_nil] at hwanted
  exact ⟨hclean, hjob, hwanted ▸ hheld⟩

/-- A downloaded file comes to its place: every other name is as it was. -/
theorem PhaseOk.place {run : Run} {job : Job} {file : RemoteFile}
    {rest : List RemoteFile} {bytes : List β} {modified : Option ℕ}
    (hok : PhaseOk h s (.fetching run job file rest))
    (hverifies : file.hash.verifies h.digests bytes = true)
    {staged : Table String (List β)} {phase : Phase} :
    PhaseOk h
      { s with
        items := s.items.insert file.fileName (.file bytes modified)
        staged := staged
        phase := phase }
      (.installing run job rest true) := by
  obtain ⟨hclean, hjob, done, hwanted, hheld, hvouches⟩ := hok
  have hother : ∀ name, name ≠ file.fileName →
      (s.items.insert file.fileName (.file bytes modified)).lookup name =
        s.items.lookup name := by
    intro name hne
    rw [Table.lookup_insert, if_neg hne]
  have hplaced : Held h (s.items.insert file.fileName (.file bytes modified)) file :=
    ⟨bytes, modified, AList.lookup_insert s.items, hverifies⟩
  have honce := hjob.once
  rw [hwanted, List.map_append, List.map_cons, List.nodup_append,
    List.nodup_cons] at honce
  obtain ⟨_, ⟨hrest, _⟩, hapart⟩ := honce
  refine ⟨hclean, hjob, done ++ [file], ?_, ?_, ?_⟩
  · rw [hwanted, List.append_assoc]
    rfl
  · intro file' hin
    rcases List.mem_append.mp hin with hin | hin
    · refine (hheld file' hin).of_ne ?_ hother
      exact hapart _ (List.mem_map_of_mem hin) _ List.mem_cons_self
    · rw [List.mem_singleton.mp hin]
      exact hplaced
  · intro file' hin
    refine (hvouches file' hin).of_ne ?_ hother
    exact fun heq => hrest (heq ▸ List.mem_map_of_mem hin)

/-- What is swept away is none of the files wanted. -/
theorem PhaseOk.sweep {run : Run} {job : Job} {downloaded : Bool} {name : String}
    (hok : PhaseOk h s (.sweeping run job downloaded))
    (hname : (job.wanted.any fun file => file.fileName == name) = false) :
    PhaseOk h { s with items := s.items.erase name }
      (.sweeping run job downloaded) := by
  obtain ⟨hclean, hjob, hheld⟩ := hok
  have hother : ∀ name', name' ≠ name →
      (s.items.erase name).lookup name' = s.items.lookup name' := by
    intro name' hne
    rw [Table.lookup_erase, if_neg hne]
  refine ⟨hclean, hjob, fun file hin => (hheld file hin).of_ne ?_ hother⟩
  rintro rfl
  rw [List.any_eq_false] at hname
  exact hname file hin (beq_self_eq_true _)

/-- What is left are the files wanted. -/
theorem PhaseOk.swept {run : Run} {job : Job} {downloaded : Bool}
    (hok : PhaseOk h s (.sweeping run job downloaded))
    (hswept : (s.items.entries.all fun entry =>
      job.wanted.any fun file => file.fileName == entry.1) = true) :
    PhaseOk h s (.recording run job downloaded) := by
  obtain ⟨hclean, hjob, hheld⟩ := hok
  refine ⟨hclean, hjob, hheld, fun name item hlookup => ?_⟩
  have hin := List.all_eq_true.mp hswept _ (mem_of_lookup hlookup)
  obtain ⟨file, hfile, hname⟩ := List.any_eq_true.mp hin
  exact ⟨file, hfile, beq_iff_eq.mp hname⟩

theorem PhaseOk.promised {run : Run} {job : Job} {downloaded : Bool}
    (hok : PhaseOk h s (.recording run job downloaded)) :
    Promised h s.items run (if downloaded then .installed else .adopted) := by
  obtain ⟨_, hjob, hheld, honly⟩ := hok
  have hcomplete : Complete h s.items run := fun file hselected =>
    hheld file ((hjob.selected file).mp hselected)
  have hexact : Exact s.items run := by
    intro name item hlookup
    obtain ⟨file, hin, hname⟩ := honly name item hlookup
    exact ⟨file, (hjob.selected file).mpr hin, hname⟩
  cases downloaded with
  | true => exact ⟨hcomplete, hexact⟩
  | false => exact ⟨hcomplete, hexact⟩

end Steps

/-- One step: what only moves on or leaves the folder alone is framed, the others
each have their lemma. -/
theorem Inv.next {s s' : State β} {e : Event β} (hi : Inv h s)
    (hnext : s.next h e = some s') (hkind : SameKind s e) : Inv h s' := by
  have hphase := hi.phase
  cases e with
  | start run =>
      obtain ⟨_, heq⟩ := Option.ite_none_right_eq_some.mp hnext
      obtain rfl := Option.some.inj heq
      exact hi.begin run
  | look =>
      rw [State.next] at hnext
      split at hnext
      · rename_i run hrun
        cases hnext
        exact hi.toPhase (hi.look hrun hkind)
      · cases hnext
  | unmark =>
      rw [State.next] at hnext
      split at hnext
      · rename_i run task hrun
        rw [hrun] at hphase
        cases hnext
        exact .of_phase rfl hphase.unmark
      · cases hnext
  | emptied =>
      rw [State.next] at hnext
      split at hnext
      · rename_i run task hrun
        rw [hrun] at hphase
        split at hnext
        · rename_i hempty
          have hclean := hphase.clean hempty
          cases task with
          | trust stamp =>
              cases hnext
              exact hi.toPhase hclean
          | install job =>
              cases hnext
              obtain ⟨hjob, hvouches⟩ := hphase.2.1
              exact hi.toPhase ⟨hclean, hjob, [], rfl, nofun, hvouches⟩
        · cases hnext
      · cases hnext
  | trust =>
      rw [State.next] at hnext
      split at hnext
      · rename_i run stamp hrun
        rw [hrun] at hphase
        cases hnext
        exact ⟨nofun, fun _ _ _ hin record hrecord =>
          absurd hrecord (Clean.record_ne hphase hin record), trivial⟩
      · cases hnext
  | keep =>
      rw [State.next] at hnext
      split at hnext
      · rename_i run job file rest downloaded hrun
        rw [hrun] at hphase
        split at hnext
        · rename_i hkeeps
          cases hnext
          exact hi.toPhase (hphase.keep hkeeps)
        · cases hnext
      · cases hnext
  | fetch =>
      rw [State.next] at hnext
      split at hnext
      · rename_i run job file rest downloaded hrun
        rw [hrun] at hphase
        split at hnext
        · cases hnext
        · cases hnext
          exact hi.toPhase hphase.fetch
      · cases hnext
  | download bytes =>
      rw [State.next] at hnext
      split at hnext
      · cases hnext
        exact hi.frame rfl rfl rfl rfl fun _ hin => .inl hin
      · cases hnext
  | place modified =>
      rw [State.next] at hnext
      split at hnext
      · rename_i run job file rest hrun
        rw [hrun] at hphase
        split at hnext
        · rename_i bytes hbytes
          obtain ⟨_, hverifies⟩ := Option.filter_eq_some_iff.mp hbytes
          split at hnext
          · cases hnext
          · cases hnext
            exact .of_phase hphase.1.1 (hphase.place hverifies)
        · cases hnext
      · cases hnext
  | placed =>
      rw [State.next] at hnext
      split at hnext
      · rename_i run job downloaded hrun
        rw [hrun] at hphase
        cases hnext
        exact hi.toPhase hphase.placed
      · cases hnext
  | sweep name =>
      rw [State.next] at hnext
      split at hnext
      · rename_i run job downloaded hrun
        rw [hrun] at hphase
        split at hnext
        · cases hnext
        · rename_i hname
          cases hnext
          have hok := hphase.sweep (by simpa using hname)
          rw [← hrun] at hok
          exact .of_phase hphase.1.1 hok
      · cases hnext
  | swept =>
      rw [State.next] at hnext
      split at hnext
      · rename_i run job downloaded hrun
        rw [hrun] at hphase
        split at hnext
        · rename_i hswept
          cases hnext
          exact hi.toPhase (hphase.swept hswept)
        · cases hnext
      · cases hnext
  | publish =>
      rw [State.next] at hnext
      split at hnext
      · rename_i run job downloaded hrun
        rw [hrun] at hphase
        cases hnext
        refine ⟨fun recorded hrecorded => ?_, fun _ _ _ hin record hrecord =>
          absurd hrecord (hphase.1.record_ne hin record), hphase.promised⟩
        exact ⟨(Record.files.inj (Option.some.inj hrecorded)).symm, hphase.2.2.1⟩
      · cases hnext
  | unstage name =>
      rw [State.next] at hnext
      split at hnext
      · cases hnext
        exact hi.frame rfl rfl rfl rfl fun _ hin => .inl hin
      · cases hnext
  | finish =>
      rw [State.next] at hnext
      split at hnext
      · rename_i run outcome hrun
        rw [hrun] at hphase
        cases hnext
        exact hi.toPhase hphase
      · cases hnext
  | fail failure =>
      obtain ⟨run, _, rfl⟩ := Option.map_eq_some_iff.mp hnext
      exact hi.toPhase trivial
  | crash =>
      cases hnext
      exact hi.toPhase trivial
  | put folder name =>
      cases hnext
      refine hi.frame rfl rfl rfl rfl fun artefact hin => ?_
      rcases List.mem_cons.mp hin with rfl | hin
      · exact .inr rfl
      · exact .inl hin
  | remove artefact =>
      cases hnext
      exact hi.frame rfl rfl rfl rfl fun _ hin => .inl (List.mem_filter.mp hin).1

theorem reachable_inv {s : State β}
    (hr : ((machine h).restrict SameKind).Reachable s) : Inv h s := by
  refine hr.invariant (I := Inv h) ?_ ?_
  · rintro t ⟨hnone, hidle⟩
    refine .of_phase hnone ?_
    rw [hidle]
    trivial
  · rintro t e t' hi ⟨hkind, hnext⟩
    exact hi.next hnext hkind

/-- The bytes have the hash, as either kind. -/
def HashesTo (h : Hashes β) (bytes : List β) (hex : String) : Prop :=
  (Hash.sha256 hex).verifies h.digests bytes = true ∨
    (Hash.gitBlobSha1 hex).verifies h.digests bytes = true

theorem hashesTo_of_verifies {hash : Hash} {bytes : List β}
    (hverifies : hash.verifies h.digests bytes = true) : HashesTo h bytes hash.hex := by
  cases hash with
  | sha256 hex => exact .inl hverifies
  | gitBlobSha1 hex => exact .inr hverifies

/-- In every sequence of runs in one folder, with any selections, any trust, any bytes
served, and crashes anywhere, in which no listing gives a file of the record on disk
the same hash as the other kind: every file of a record of verified files is in the
folder with bytes of its hash; a run that installs, adopts or finds its files current
leaves every selected file there with the listing's hash, and nothing else after the
first two; and beside a record nothing is derived that was put there under another. -/
theorem recorded_files_are_kept {s : State β}
    (hr : ((machine h).restrict SameKind).Reachable s) :
    (∀ recorded, s.record = some (.files recorded) → ∀ entry ∈ recorded,
      ∃ bytes modified, s.items.lookup entry.path = some (.file bytes modified) ∧
        HashesTo h bytes entry.hash) ∧
    (∀ run outcome, s.phase = .returned run (.ok outcome) →
      Promised h s.items run outcome) ∧
    ∀ record, s.record = some record → ∀ artefact ∈ s.derived, ∀ record',
      artefact.record = some record' → record' = record := by
  have hi := reachable_inv hr
  refine ⟨?_, ?_, hi.derived⟩
  · intro recorded hrecord entry hentry
    obtain ⟨rfl, hheld⟩ := hi.recorded recorded hrecord
    obtain ⟨file, hfile, rfl⟩ := List.mem_map.mp hentry
    obtain ⟨bytes, modified, hlookup, hverifies⟩ := hheld file hfile
    exact ⟨bytes, modified, hlookup, hashesTo_of_verifies hverifies⟩
  · intro run outcome hreturned
    have hphase := hi.phase
    rw [hreturned] at hphase
    exact hphase

/-! ## One file, listed as one kind of hash and then as the other -/

section OtherKind

def oneHash : Hashes ℕ := ⟨⟨fun _ => "s", fun _ => "h"⟩, fun text => text⟩

def gitFile : RemoteFile := ⟨"x", 1, .gitBlobSha1 "h"⟩

def lfsFile : RemoteFile := ⟨"x", 1, .sha256 "h"⟩

/-- A run with a listing of the one file. -/
def listingOf (file : RemoteFile) : Run :=
  ⟨⟨"x", "models", .starting "x", .published⟩,
    some ⟨"models", [file], List.nodup_singleton _⟩⟩

/-- The file is in the folder, and nothing is recorded. -/
def placedByHand : State ℕ where
  items := (∅ : Items ℕ).insert "x" (.file [1] none)
  record := none
  staged := ∅
  derived := []
  listed := []
  phase := .idle

/-- The file is adopted. -/
def adopting : List (Event ℕ) :=
  [.start (listingOf gitFile), .look, .unmark, .emptied, .keep, .placed, .swept,
    .publish, .finish]

def returnedWith (outcome : Outcome) (file : RemoteFile) (s : State ℕ) : Bool :=
  match s.phase with
  | .returned run (.ok outcome') => outcome' == outcome &&
      run.files.select.matches file.fileName &&
      run.listing.any fun listing => listing.files.contains file
  | _ => false

theorem exists_returned {outcome : Outcome} {file : RemoteFile} {s : State ℕ}
    (hreturned : returnedWith outcome file s = true) :
    ∃ run, s.phase = .returned run (.ok outcome) ∧ Selected run file := by
  unfold returnedWith at hreturned
  split at hreturned
  · rename_i run outcome' hphase
    rw [Bool.and_eq_true, Bool.and_eq_true, beq_iff_eq] at hreturned
    obtain ⟨⟨rfl, hmatches⟩, hlisted⟩ := hreturned
    obtain ⟨listing, hlisting, hin⟩ := (Option.any_eq_true _ _).mp hlisted
    exact ⟨run, hphase, listing, hlisting, List.contains_iff_mem.mp hin, hmatches⟩
  · cases hreturned

/-- No listing has a file of the other kind. -/
def onlyGit (s : State ℕ) : Event ℕ → Bool
  | .look => s.listed.all (fun file => !file.hash.isSha256) &&
      match s.phase with
      | .begun run => run.listing.all fun listing =>
          listing.files.all fun file => !file.hash.isSha256
      | _ => true
  | _ => true

theorem sameKind_of_onlyGit (s : State ℕ) (e : Event ℕ) (h : onlyGit s e = true) :
    SameKind s e := by
  cases e with
  | look =>
      obtain ⟨hlisted, hphase⟩ := Bool.and_eq_true_iff.mp h
      intro run hbegun file hselected _ _ old hold _ _ _
      obtain ⟨listing, hlisting, hfile, _⟩ := hselected
      simp only [hbegun, hlisting, Option.all_some, List.all_eq_true] at hphase
      have hfile := hphase file hfile
      have hold := List.all_eq_true.mp hlisted old hold
      rw [Bool.not_eq_true'] at hfile hold
      rw [hfile, hold]
  | _ => trivial

/-- A file that was placed by hand is adopted, and found current by the next run. -/
theorem recorded_files_are_kept_current : ∃ (s : State ℕ) (run : Run),
    s.phase = .returned run (.ok .current) ∧ Promised oneHash s.items run .current := by
  have hreplayed : (Machine.replay
      (fun s e => if onlyGit s e then State.next oneHash s e else none) placedByHand
      (adopting ++ [.start (listingOf gitFile), .look])).any
      (returnedWith .current gitFile) = true := by decide +kernel
  obtain ⟨s, hs, hreturned⟩ := (Option.any_eq_true _ _).mp hreplayed
  obtain ⟨run, hphase, _⟩ := exists_returned hreturned
  have hstart : ((machine oneHash).restrict SameKind).Run [] placedByHand :=
    .start ⟨rfl, rfl⟩
  have hrun := hstart.replay_checked sameKind_of_onlyGit hs
  exact ⟨s, run, hphase, (recorded_files_are_kept ⟨_, hrun⟩).2.1 run .current hphase⟩

/-- The file that was adopted as one kind of hash is found current as the other. -/
theorem not_recorded_files_are_kept :
    ¬ ∀ s, (machine oneHash).Reachable s → ∀ run outcome,
      s.phase = .returned run (.ok outcome) → Promised oneHash s.items run outcome := by
  intro hpromised
  have hreplayed : (Machine.replay (fun s => State.next oneHash s) placedByHand
      (adopting ++ [.start (listingOf lfsFile), .look])).any
      (returnedWith .current lfsFile) = true := by decide +kernel
  obtain ⟨s, hs, hreturned⟩ := (Option.any_eq_true _ _).mp hreplayed
  obtain ⟨run, hphase, hselected⟩ := exists_returned hreturned
  have hcomplete : Complete oneHash s.items run :=
    hpromised s ⟨_, Machine.run_of_replay ⟨rfl, rfl⟩ hs⟩ run .current hphase
  obtain ⟨bytes, modified, _, hverifies⟩ := hcomplete lfsFile hselected
  have hother : lfsFile.hash.verifies oneHash.digests bytes = false := by
    change Hash.isHex (.sha256 "h") "s" = false
    decide +kernel
  rw [hother] at hverifies
  cases hverifies

end OtherKind

end FileInstall

end Ai

end RustSak
