import RustSak.Ai.Install
import Mathlib.Data.List.Nodup

/-!
# What a finished install leaves

An archive leaves a folder that reads as installed if it holds something to record,
and the library where that is the runtime's. An install of a list is over with, and
the next one has nothing to do, if each folder that was installed into holds such an
archive in the end, and no other version of it was installed.
-/

namespace RustSak

namespace Ai

open Library

namespace Install

variable {β : Type} (c : Setting β) (server : Server β)

/-- The entries of an archive have plain paths. -/
def PlainPaths (contents : Contents β) : Prop :=
  ∀ item ∈ contents.entries, item.1 ≠ [] ∧ ∀ name ∈ item.1, PlainName name

instance (contents : Contents β) : Decidable (PlainPaths contents) :=
  inferInstanceAs (Decidable (∀ item ∈ contents.entries, _ ≠ _ ∧ ∀ name ∈ _, _))

/-- What an archive leaves of a folder. -/
def finished (unpacked : RemoteFile × Contents β) : Folder β :=
  let json := c.json.encode
    (Marker.record unpacked.2 unpacked.1.hash.hex unpacked.1.size)
  ⟨((unpacked.2.insert [PENDING] (.file json)).erase [PENDING]).insert [MARKER]
    (.file json), ∅, ∅⟩

/-- An archive has something to record, and the library where it is needed. -/
def accepts (kind : Kind) (unpacked : RemoteFile × Contents β) : Bool :=
  unpacked.2.entries.any (fun item => !item.1.head?.any isOwn) &&
    (kind == .libraries || (c.runtimeLibrary (finished c unpacked)).isSome)

section Finished

variable {c}

theorem lookup_finished (unpacked : RemoteFile × Contents β) {path : Path}
    (hown : path.head?.any isOwn = false) :
    (finished c unpacked).items.lookup path = unpacked.2.lookup path := by
  have hmarker : path ≠ [MARKER] := by
    rintro rfl
    cases hown
  have hpending : path ≠ [PENDING] := by
    rintro rfl
    cases hown
  rw [finished, Table.lookup_insert, if_neg hmarker, Table.lookup_erase,
    if_neg hpending, Table.lookup_insert, if_neg hpending]

theorem readMarker_finished (unpacked : RemoteFile × Contents β) :
    c.readMarker (finished c unpacked) =
      some (Marker.record unpacked.2 unpacked.1.hash.hex unpacked.1.size) := by
  rw [Setting.readMarker, Marker.read, finished, Table.lookup_insert, if_pos rfl]
  exact c.json.decode_encode _

theorem mem_record {items : Contents β} {hash : String} {size : ℕ} {file : File} :
    file ∈ (Marker.record items hash size).files ↔ ∃ item ∈ items.entries,
      item.1.head?.any isOwn = false ∧ (⟨item.1.text, item.2.size⟩ : File) = file := by
  rw [Marker.record, List.mem_insertionSort, Marker.walk, List.mem_map]
  simp only [List.mem_filter, Bool.not_eq_true', and_assoc]

/-- Every entry that was recorded is there at its size. -/
theorem intact_finished {unpacked : RemoteFile × Contents β}
    (hplain : PlainPaths unpacked.2) :
    (Marker.record unpacked.2 unpacked.1.hash.hex unpacked.1.size).intact
        (finished c unpacked).items =
      unpacked.2.entries.any fun item => !item.1.head?.any isOwn := by
  rw [Bool.eq_iff_iff, List.any_eq_true, Marker.intact, Bool.and_eq_true,
    List.all_eq_true]
  constructor
  · rintro ⟨hsome, _⟩
    rw [Bool.not_eq_true', List.isEmpty_eq_false_iff_exists_mem] at hsome
    obtain ⟨file, hfile⟩ := hsome
    obtain ⟨item, hitem, hown, _⟩ := mem_record.mp hfile
    exact ⟨item, hitem, by rw [hown]; rfl⟩
  · rintro ⟨item, hitem, hown⟩
    rw [Bool.not_eq_true'] at hown
    refine ⟨?_, ?_⟩
    · rw [Bool.not_eq_true', List.isEmpty_eq_false_iff_exists_mem]
      exact ⟨_, mem_record.mpr ⟨item, hitem, hown, rfl⟩⟩
    · intro file hfile
      obtain ⟨item, hitem, hown, rfl⟩ := mem_record.mp hfile
      obtain ⟨hne, hnames⟩ := hplain item hitem
      rw [relative_text hne hnames, Option.any_some, lookup_finished unpacked hown,
        Option.mem_def.mp (AList.mem_lookup_iff.mpr hitem), Option.any_some, beq_iff_eq]

/-- The reader takes for installed what the writer has left of such an archive. -/
theorem intactIn_finished {unpacked : RemoteFile × Contents β}
    (hplain : PlainPaths unpacked.2) (kind : Kind) :
    (c.intactIn kind (finished c unpacked)).isSome = accepts c kind unpacked := by
  rw [Setting.intactIn, readMarker_finished, accepts, ← intact_finished hplain,
    Option.filter_some]
  cases (Marker.record unpacked.2 unpacked.1.hash.hex unpacked.1.size).intact
      (finished c unpacked).items with
  | false => rfl
  | true =>
      rw [if_pos rfl, Option.filter_some, Bool.true_and]
      cases kind == .libraries || (c.runtimeLibrary (finished c unpacked)).isSome with
      | false => rfl
      | true => rfl

end Finished

/-- What a dependency's folder on the API has for this platform. -/
def archiveFor (dependency : Dependency) : Except Failure (Option RemoteFile) := do
  let source := dependency.source
  let commit ← server.resolve source.repository
  let listing ← server.list source.repository commit source.folder
  .ok (assetFor listing c.os server.arch)

def hasArchive (dependency : Dependency) : Bool :=
  match archiveFor c server dependency with
  | .ok (some _) => true
  | _ => false

/-- Libraries without an archive for this platform. -/
def skippable (dependency : Dependency) : Bool :=
  dependency.kind == .libraries &&
    match archiveFor c server dependency with
    | .ok none => true
    | _ => false

/-- It is missing from the root, and there is an archive for it. -/
def isDue (root : Root β) (dependency : Dependency) : Bool :=
  !isPresent c root dependency && hasArchive c server dependency

/-- What the dependency's verified archive holds. -/
def unpacked (dependency : Dependency) : Option (RemoteFile × Contents β) :=
  match archiveFor c server dependency with
  | .ok (some asset) =>
      (fetchVerified c asset (server.download dependency asset)).toOption.bind
        fun archive => (c.extracts archive).map fun contents => (asset, contents)
  | _ => none

/-- Which archive is in a folder once a list is gone through: the first one that was
due, or a later one where what is there does not do for its dependency. -/
def landed (root : Root β) (dir : Dir) :
    List Dependency → Option (RemoteFile × Contents β) → Option (RemoteFile × Contents β)
  | [], held => held
  | dependency :: dependencies, held =>
      if dirFor dependency.source = dir ∧ isDue c server root dependency = true ∧
          held.any (accepts c dependency.kind) = false then
        landed root dir dependencies (unpacked c server dependency)
      else landed root dir dependencies held

section Steps

variable {c server}

/-- Only an archive can have put a link where the pending marker goes. -/
def Unlinked (contents : Contents β) : Prop :=
  ∀ target, contents.lookup [PENDING] ≠ some (.link target)

theorem write_eq_ok {dependency : Dependency} {folder folder' : Folder β}
    {marker : Marker} (hlink : folder.isLink PENDING = false)
    (h : write c server dependency folder marker = .ok folder') :
    folder' = folder.withItems (((folder.items.insert [PENDING]
      (.file (c.json.encode marker))).erase [PENDING]).insert [MARKER]
        (.file (c.json.encode marker))) := by
  obtain ⟨pending, hpending, h⟩ := Attempt.bind_eq_ok.mp h
  rw [writePending, hlink] at hpending
  obtain rfl := Except.ok.inj hpending
  have hlookup : (folder.withItems (folder.items.insert [PENDING]
      (.file (c.json.encode marker)))).items.lookup [PENDING] =
      some (.file (c.json.encode marker)) := AList.lookup_insert folder.items
  rw [renamePending, hlookup] at h
  change ite _ _ _ = _ at h
  split at h
  · cases h
  · exact (Except.ok.inj h).symm

theorem unpack_eq_ok {dependency : Dependency} {asset : RemoteFile}
    {folder folder' : Folder β} {archive : List β} {contents : Contents β}
    (hextracts : c.extracts archive = some contents) (hunlinked : Unlinked contents)
    (h : unpack c server dependency asset folder archive = .ok folder') :
    (⟨folder'.items, ∅, ∅⟩ : Folder β) = finished c (asset, contents) := by
  rw [unpack, hextracts] at h
  change ite _ _ _ = _ at h
  split at h
  · cases h
  · have hlink : (folder.withItems contents).isLink PENDING = false := by
      have hitems : (folder.withItems contents).items = contents := rfl
      rw [Folder.isLink, hitems]
      split
      · exact absurd ‹_› (hunlinked _)
      · rfl
    rw [write_eq_ok hlink h]
    rfl

theorem fetchVerified_eq_ok {asset : RemoteFile} {served : Except Failure (List β)}
    {archive : List β} (h : fetchVerified c asset served = .ok archive) :
    (fetchVerified c asset served).toOption = some archive := by
  rw [h]
  rfl

/-- Either it is there by now, or its archive replaces what is. -/
theorem installOne_eq_ok {remote : Remote} {dependency : Dependency} {root : Root β}
    {out : Outcome β}
    (harchive : archiveFor c server dependency = .ok (some remote.asset))
    (hunlinked : ∀ held, unpacked c server dependency = some held → Unlinked held.2)
    (h : installOne c server remote dependency root = .ok out) :
    (isPresent c root dependency = true ∧ out.root = root) ∨
    (isPresent c root dependency = false ∧ ∃ held,
      unpacked c server dependency = some held ∧
      out.root = removeOtherVersions
        (Function.update root (dirFor dependency.source) (finished c held))
        (dirFor dependency.source)) := by
  rw [installOne] at h
  split at h
  · rename_i hpresent
    obtain rfl := Except.ok.inj h
    exact .inl ⟨hpresent, rfl⟩
  · rename_i hmissing
    obtain ⟨archive, hfetched, h⟩ := Attempt.bind_eq_ok.mp h
    obtain ⟨folder, hfolder, h⟩ := Attempt.bind_eq_ok.mp h
    have hextracts : ∃ contents, c.extracts archive = some contents := by
      rw [unpack] at hfolder
      cases hnone : c.extracts archive with
      | none =>
          rw [hnone] at hfolder
          cases hfolder
      | some contents => exact ⟨contents, rfl⟩
    obtain ⟨contents, hextracts⟩ := hextracts
    have hunpacked : unpacked c server dependency = some (remote.asset, contents) := by
      rw [unpacked, harchive]
      change ((fetchVerified c remote.asset _).toOption.bind _) = _
      rw [fetchVerified_eq_ok hfetched, Option.bind_some, hextracts]
      rfl
    refine .inr ⟨by simpa [isPresent] using hmissing, _, hunpacked, ?_⟩
    split at h
    · cases h
    · obtain rfl := Except.ok.inj h
      have hfinished := unpack_eq_ok hextracts (hunlinked _ hunpacked) hfolder
      change removeOtherVersions (Function.update root _ ⟨folder.items, ∅, ∅⟩) _ = _
      rw [hfinished]

end Steps

section Planned

variable {c server}

/-- What a row of a plan was decided from. -/
inductive Decided (c : Setting β) (server : Server β) (root : Root β) : Entry → Prop
  | keep {dependency : Dependency} {size : ℕ}
      (hpresent : isPresent c root dependency = true) :
      Decided c server root (.of dependency .keep size)
  | install {dependency : Dependency} {remote : Remote}
      (hmissing : isPresent c root dependency = false)
      (harchive : archiveFor c server dependency = .ok (some remote.asset)) :
      Decided c server root (.of dependency (.install remote) remote.asset.size)
  | skip {dependency : Dependency} (hmissing : isPresent c root dependency = false)
      (hskippable : skippable c server dependency = true) :
      Decided c server root (.of dependency .skip 0)

/-- Every commit that was kept is its repository's. -/
def Resolved (server : Server β) (repos : Table Repo String) : Prop :=
  ∀ repo commit, repos.lookup repo = some commit → server.resolve repo = .ok commit

theorem commitFor_eq_ok {repos repos' : Table Repo String} {dependency : Dependency}
    {commit : String} {asked : List Request} (hrepos : Resolved server repos)
    (h : commitFor server repos dependency = .ok (commit, repos', asked)) :
    server.resolve dependency.source.repository = .ok commit ∧ Resolved server repos' ∧
      ∀ request ∈ asked, request.dependency = dependency.name := by
  rw [commitFor] at h
  split at h
  · rename_i hlookup
    cases h
    exact ⟨hrepos _ _ hlookup, hrepos, nofun⟩
  · obtain ⟨commit', hcommit, h⟩ := Attempt.bind_eq_ok.mp h
    cases h
    refine ⟨hcommit, ?_, ?_⟩
    · intro repo commit'' hlookup
      rw [Table.lookup_insert] at hlookup
      split at hlookup
      · rename_i heq
        obtain rfl := Option.some.inj hlookup
        rw [heq, hcommit]
      · exact hrepos repo commit'' hlookup
    · intro request hrequest
      rw [List.mem_singleton.mp hrequest]
      rfl

theorem planOne_eq_ok {root : Root β} {repos repos' : Table Repo String}
    {dependency : Dependency} {entry : Entry} {asked : List Request}
    (hrepos : Resolved server repos)
    (h : planOne c server root repos dependency = .ok (entry, repos', asked)) :
    entry.dependency = dependency ∧ Decided c server root entry ∧
      Resolved server repos' ∧
      (∀ request ∈ asked, request.dependency = dependency.name) ∧
      (isPresent c root dependency = true → asked = []) := by
  rw [planOne] at h
  split at h
  · rename_i marker hmarker
    cases h
    have hpresent : isPresent c root dependency = true := by
      rw [isPresent, hmarker]
      rfl
    exact ⟨rfl, .keep hpresent, hrepos, nofun, fun _ => rfl⟩
  · rename_i hnone
    have hmissing : isPresent c root dependency = false := by
      rw [isPresent, hnone]
      rfl
    obtain ⟨⟨commit, repos₁, resolved⟩, hcommit, h⟩ := Attempt.bind_eq_ok.mp h
    obtain ⟨hresolve, hrepos₁, hasked⟩ := commitFor_eq_ok hrepos hcommit
    obtain ⟨listing, hlist, h⟩ := Attempt.bind_eq_ok.mp h
    obtain ⟨entry', hdecide, h⟩ := Attempt.bind_eq_ok.mp h
    cases h
    have harchive : archiveFor c server dependency =
        .ok (assetFor listing c.os server.arch) := by
      rw [archiveFor, hresolve]
      change server.list _ commit _ >>= _ = _
      rw [hlist]
      rfl
    have hrequests : ∀ request ∈ resolved ++
        [.list dependency.name commit dependency.source.folder],
        request.dependency = dependency.name := by
      intro request hrequest
      rcases List.mem_append.mp hrequest with hin | hin
      · exact hasked request hin
      · rw [List.mem_singleton.mp hin]
        rfl
    have hnever : isPresent c root dependency = true → resolved ++
        [.list dependency.name commit dependency.source.folder] = [] := by
      rw [hmissing]
      nofun
    rw [decideFor] at hdecide
    split at hdecide
    · rename_i asset hasset
      rw [hasset] at harchive
      split at hdecide
      · cases hdecide
        have hinstall : Decided c server root
            (.of dependency (.install ⟨commit, asset⟩) asset.size) :=
          .install hmissing harchive
        exact ⟨rfl, hinstall, hrepos₁, hrequests, hnever⟩
      · cases hdecide
    · rename_i hasset
      rw [hasset] at harchive
      split at hdecide
      · cases hdecide
      · rename_i hkind
        cases hdecide
        have hskippable : skippable c server dependency = true := by
          rw [skippable, harchive]
          cases hk : dependency.kind with
          | runtime => exact absurd hk hkind
          | libraries => rfl
        exact ⟨rfl, .skip hmissing hskippable, hrepos₁, hrequests, hnever⟩

theorem planFrom_eq_ok {root : Root β} {repos : Table Repo String}
    {dependencies : List Dependency} {entries : List Entry} {requests : List Request}
    (hrepos : Resolved server repos)
    (h : planFrom c server root repos dependencies = .ok (entries, requests)) :
    entries.map (·.dependency) = dependencies ∧
      (∀ entry ∈ entries, Decided c server root entry) ∧
      ∀ request ∈ requests, ∃ dependency ∈ dependencies,
        isPresent c root dependency = false ∧ request.dependency = dependency.name := by
  induction dependencies generalizing repos entries requests with
  | nil =>
      cases h
      exact ⟨rfl, nofun, nofun⟩
  | cons dependency dependencies ih =>
      obtain ⟨⟨entry, repos', asked⟩, hone, h⟩ := Attempt.bind_eq_ok.mp h
      obtain ⟨⟨entries', requests'⟩, hrest, h⟩ := Attempt.bind_eq_ok.mp h
      cases h
      obtain ⟨hentry, hdecided, hrepos', hasked, hnever⟩ :=
        planOne_eq_ok hrepos (Attempt.mapError_eq_ok.mp hone)
      obtain ⟨hentries, hdecideds, hrequests⟩ := ih hrepos' hrest
      refine ⟨by rw [List.map_cons, hentry, hentries],
        List.forall_mem_cons.mpr ⟨hdecided, hdecideds⟩, ?_⟩
      intro request hrequest
      rcases List.mem_append.mp hrequest with hin | hin
      · refine ⟨dependency, List.mem_cons_self, ?_, hasked request hin⟩
        by_contra hpresent
        rw [hnever (by simpa using hpresent)] at hin
        cases hin
      · obtain ⟨other, hother, hmissing, hname⟩ := hrequests request hin
        exact ⟨other, List.mem_cons_of_mem _ hother, hmissing, hname⟩

theorem exists_archive_none {dependency : Dependency}
    (h : skippable c server dependency = true) :
    dependency.kind = .libraries ∧ archiveFor c server dependency = .ok none := by
  rw [skippable, Bool.and_eq_true, beq_iff_eq] at h
  obtain ⟨hkind, hmatch⟩ := h
  refine ⟨hkind, ?_⟩
  split at hmatch
  · assumption
  · cases hmatch

/-- What is there, or need not be, is planned. -/
theorem planOne_of_present_or_skippable {root : Root β} {repos : Table Repo String}
    {dependency : Dependency} (hrepos : Resolved server repos)
    (h : isPresent c root dependency = true ∨ skippable c server dependency = true) :
    ∃ planned, planOne c server root repos dependency = .ok planned := by
  rw [planOne]
  cases hintact : c.intactIn dependency.kind (root (dirFor dependency.source)) with
  | some marker => exact ⟨_, rfl⟩
  | none =>
      have hskippable : skippable c server dependency = true := by
        refine h.resolve_left fun hpresent => ?_
        rw [isPresent, hintact] at hpresent
        cases hpresent
      obtain ⟨hkind, harchive⟩ := exists_archive_none hskippable
      obtain ⟨commit, hresolve, harchive⟩ := Attempt.bind_eq_ok.mp harchive
      obtain ⟨listing, hlist, harchive⟩ := Attempt.bind_eq_ok.mp harchive
      have hasset := Except.ok.inj harchive
      have hcommit : ∃ found, commitFor server repos dependency = .ok found ∧
          found.1 = commit := by
        rw [commitFor]
        cases hlookup : repos.lookup dependency.source.repository with
        | some commit' =>
            have hsame := hrepos _ _ hlookup
            rw [hresolve] at hsame
            exact ⟨_, rfl, (Except.ok.inj hsame).symm⟩
        | none =>
            refine ⟨_, Attempt.bind_eq_ok.mpr ⟨commit, hresolve, rfl⟩, rfl⟩
      obtain ⟨⟨_, repos', asked⟩, hcommit, rfl⟩ := hcommit
      have hdecide : ∀ commit, decideFor c server dependency commit listing =
          .ok (.of dependency .skip 0) := by
        intro commit
        rw [decideFor, hasset, hkind]
        rfl
      exact ⟨_, Attempt.bind_eq_ok.mpr ⟨_, hcommit, Attempt.bind_eq_ok.mpr
        ⟨listing, hlist, Attempt.bind_eq_ok.mpr ⟨_, hdecide _, rfl⟩⟩⟩⟩

theorem planFrom_of_present_or_skippable {root : Root β} {repos : Table Repo String}
    {dependencies : List Dependency} (hrepos : Resolved server repos)
    (h : ∀ dependency ∈ dependencies,
      isPresent c root dependency = true ∨ skippable c server dependency = true) :
    ∃ planned, planFrom c server root repos dependencies = .ok planned := by
  induction dependencies generalizing repos with
  | nil => exact ⟨_, rfl⟩
  | cons dependency dependencies ih =>
      obtain ⟨hfirst, hrest⟩ := List.forall_mem_cons.mp h
      obtain ⟨⟨entry, repos', asked⟩, hone⟩ :=
        planOne_of_present_or_skippable hrepos hfirst
      obtain ⟨_, _, hrepos', _⟩ := planOne_eq_ok hrepos hone
      obtain ⟨planned, hplanned⟩ := ih hrepos' hrest
      exact ⟨_, Attempt.bind_eq_ok.mpr ⟨_, Attempt.mapError_eq_ok.mpr hone,
        Attempt.bind_eq_ok.mpr ⟨planned, hplanned, rfl⟩⟩⟩

theorem resolved_empty : Resolved server ∅ := by
  intro repo commit hlookup
  cases hlookup

end Planned

section Runs

variable {c server} {start : Root β}

theorem isDue_install {dependency : Dependency} {remote : Remote}
    (hmissing : isPresent c start dependency = false)
    (harchive : archiveFor c server dependency = .ok (some remote.asset)) :
    isDue c server start dependency = true := by
  rw [isDue, hmissing, hasArchive, harchive]
  rfl

/-- One row: nothing is touched, and what was due is there, or what was due and is
not there is put there in place of every other version. -/
theorem Entry.install_eq_ok {entry : Entry} {root : Root β} {out : Outcome β}
    (hdecided : Decided c server start entry)
    (hunlinked : ∀ held, unpacked c server entry.dependency = some held →
      Unlinked held.2)
    (h : entry.install c server root = .ok out) :
    (out.root = root ∧ (isDue c server start entry.dependency = true →
      isPresent c root entry.dependency = true)) ∨
    (isDue c server start entry.dependency = true ∧
      isPresent c root entry.dependency = false ∧
      ∃ held, unpacked c server entry.dependency = some held ∧
        out.root = removeOtherVersions
          (Function.update root (dirFor entry.dependency.source) (finished c held))
          (dirFor entry.dependency.source)) := by
  cases hdecided with
  | @keep dependency size hpresent =>
      obtain rfl := Except.ok.inj h
      refine .inl ⟨rfl, fun hdue => ?_⟩
      change isDue c server start dependency = true at hdue
      rw [isDue, hpresent] at hdue
      cases hdue
  | install hmissing harchive =>
      have hone := Attempt.mapError_eq_ok.mp h
      rcases installOne_eq_ok harchive hunlinked hone with
        ⟨hpresent, hroot⟩ | ⟨hgone, held, hheld, hroot⟩
      · exact .inl ⟨hroot, fun _ => hpresent⟩
      · exact .inr ⟨isDue_install hmissing harchive, hgone, held, hheld, hroot⟩
  | @skip dependency hmissing hskippable =>
      obtain rfl := Except.ok.inj h
      refine .inl ⟨rfl, fun hdue => ?_⟩
      obtain ⟨_, harchive⟩ := exists_archive_none hskippable
      change isDue c server start dependency = true at hdue
      rw [isDue, hasArchive, harchive, Bool.and_false] at hdue
      cases hdue

end Runs

end Install

end Ai

end RustSak
