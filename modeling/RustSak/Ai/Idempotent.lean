import RustSak.Ai.Present
import RustSak.Ai.Whole

/-!
# Installing a list twice

Through a list, a folder whose other versions are left alone holds what `landed` says,
and of two versions one at most is left once one of them was installed. So what is
there in the end is known from the list, the root and the archives, and it is what
decides whether installing the list again does nothing.
-/

namespace RustSak

namespace Ai

open Library

namespace Install

variable {β : Type} {c : Setting β} {server : Server β}

theorem removeOtherVersions_self (root : Root β) (dir : Dir) :
    removeOtherVersions root dir dir = root dir := by
  rw [removeOtherVersions, if_neg fun h => h.2 rfl]

theorem removeOtherVersions_of_ne (root : Root β) {dir other : Dir}
    (h : other.1 ≠ dir.1) : removeOtherVersions root dir other = root other := by
  rw [removeOtherVersions, if_neg fun hsame => h hsame.1]

/-- A version that was removed reads as nothing. -/
theorem readMarker_removeVersion (folder : Folder β) :
    c.readMarker (removeVersion folder) = none := by
  have hgone : (removeVersion folder).items.lookup [MARKER] = none := by
    rw [removeVersion]
    split
    · exact AList.lookup_erase [MARKER] folder.items
    · rfl
  rw [Setting.readMarker, Marker.read, hgone]

theorem isPresent_of_readMarker_none {root : Root β} {dependency : Dependency}
    (h : c.readMarker (root (dirFor dependency.source)) = none) :
    isPresent c root dependency = false := by
  rw [isPresent, Setting.intactIn, h]
  rfl

section Versions

variable {start : Root β} {name : String}

/-- One version of the name at most reads as installed. -/
def OnlyOne (c : Setting β) (root : Root β) (name : String) : Prop :=
  ∃ kept : Dir, ∀ dir : Dir, dir.1 = name → dir ≠ kept → c.readMarker (root dir) = none

/-- No version of the name was touched. -/
def Untouched (start root : Root β) (name : String) : Prop :=
  ∀ dir : Dir, dir.1 = name → root dir = start dir

theorem onlyOne_removeOtherVersions (root : Root β) (dir : Dir) :
    OnlyOne c (removeOtherVersions root dir) dir.1 := by
  refine ⟨dir, fun other hname hne => ?_⟩
  rw [removeOtherVersions, if_pos ⟨hname, hne⟩]
  exact readMarker_removeVersion _

/-- A replacement in one folder leaves every other name as it was. -/
theorem replaced_of_ne (root : Root β) {dir other : Dir} (folder : Folder β)
    (h : other.1 ≠ dir.1) :
    removeOtherVersions (Function.update root dir folder) dir other = root other := by
  rw [removeOtherVersions_of_ne _ h,
    Function.update_of_ne fun heq => h (congrArg Prod.fst heq)]

/-- One entry: what was settled stays so, and a version that was due settles it. -/
theorem Entry.install_onlyOne {entry : Entry} {root : Root β} {out : Outcome β}
    (hdecided : Decided c server start entry)
    (hunlinked : ∀ held, unpacked c server entry.dependency = some held →
      Unlinked held.2)
    (h : entry.install c server root = .ok out)
    (hroot : Untouched start root name ∨ OnlyOne c root name) :
    (Untouched start out.root name ∨ OnlyOne c out.root name) ∧
      ((OnlyOne c root name ∨ isDue c server start entry.dependency = true ∧
          entry.dependency.source.name = name) → OnlyOne c out.root name) := by
  rcases Entry.install_eq_ok hdecided hunlinked h with
    ⟨hsame, hthere⟩ | ⟨_, _, held, _, hreplaced⟩
  · rw [hsame]
    refine ⟨hroot, fun hdue => ?_⟩
    rcases hdue with honly | ⟨hisdue, hname⟩
    · exact honly
    · -- it was missing at first, and it is there: a version was put there
      refine hroot.resolve_left fun huntouched => ?_
      have hpresent := hthere hisdue
      rw [isPresent, huntouched _ hname, ← isPresent] at hpresent
      rw [isDue, hpresent] at hisdue
      cases hisdue
  · by_cases hname : entry.dependency.source.name = name
    · have honly : OnlyOne c out.root name := by
        rw [hreplaced, ← hname]
        exact onlyOne_removeOtherVersions _ (dirFor entry.dependency.source)
      exact ⟨.inr honly, fun _ => honly⟩
    · have hkept : ∀ dir : Dir, dir.1 = name → out.root dir = root dir := by
        intro dir hdir
        rw [hreplaced, replaced_of_ne]
        exact fun heq => hname (heq.symm.trans hdir)
      have honly : OnlyOne c root name → OnlyOne c out.root name := by
        rintro ⟨kept, hothers⟩
        refine ⟨kept, fun dir hdir hne => ?_⟩
        rw [hkept dir hdir]
        exact hothers dir hdir hne
      refine ⟨hroot.imp (fun huntouched dir hdir => ?_) honly, fun hdue =>
        honly (hdue.resolve_right fun hother => hname hother.2)⟩
      rw [hkept dir hdir, huntouched dir hdir]

/-- Once a version was due, one version at most is left. -/
theorem installAll_onlyOne {entries : List Entry} {root : Root β} {out : Outcome β}
    (hdecided : ∀ entry ∈ entries, Decided c server start entry)
    (hunlinked : ∀ entry ∈ entries, ∀ held,
      unpacked c server entry.dependency = some held → Unlinked held.2)
    (h : installAll c server entries root = .ok out)
    (hroot : Untouched start root name ∨ OnlyOne c root name)
    (hdue : OnlyOne c root name ∨ ∃ entry ∈ entries,
      isDue c server start entry.dependency = true ∧
      entry.dependency.source.name = name) : OnlyOne c out.root name := by
  induction entries generalizing root out with
  | nil =>
      cases h
      refine hdue.resolve_right fun hin => ?_
      obtain ⟨entry, hin, -⟩ := hin
      cases hin
  | cons entry entries ih =>
      obtain ⟨first, hfirst, h⟩ := Attempt.bind_eq_ok.mp h
      obtain ⟨rest, hrest, h⟩ := Attempt.bind_eq_ok.mp h
      cases h
      obtain ⟨hone, hdecided⟩ := List.forall_mem_cons.mp hdecided
      obtain ⟨hlink, hunlinked⟩ := List.forall_mem_cons.mp hunlinked
      obtain ⟨hstate, honly⟩ := Entry.install_onlyOne hone hlink hfirst hroot
      have hall := ih hdecided hunlinked hrest hstate
      refine hall ?_
      rcases hdue with hbefore | ⟨other, hin, hisdue⟩
      · exact .inl (honly (.inl hbefore))
      · rcases List.mem_cons.mp hin with rfl | hin
        · exact .inl (honly (.inr hisdue))
        · exact .inr ⟨other, hin, hisdue⟩

end Versions

section Landing

variable {start : Root β} {dir : Dir}

/-- What a folder holds, by the archive that is in it. -/
def Stands (c : Setting β) (start : Root β) (dir : Dir)
    (held : Option (RemoteFile × Contents β)) (root : Root β) : Prop :=
  match held with
  | none => root dir = start dir
  | some held => PlainPaths held.2 ∧ root dir = finished c held

theorem Stands.isPresent {dependency : Dependency} {root : Root β}
    {held : Option (RemoteFile × Contents β)}
    (h : Stands c start (dirFor dependency.source) held root) :
    isPresent c root dependency =
      held.elim (Install.isPresent c start dependency) (accepts c dependency.kind) := by
  cases held with
  | none =>
      rw [Install.isPresent, h]
      rfl
  | some held =>
      rw [Install.isPresent, h.2]
      exact intactIn_finished h.1 dependency.kind

theorem exists_extracts_of_unpacked {dependency : Dependency}
    {held : RemoteFile × Contents β} (h : unpacked c server dependency = some held) :
    ∃ archive, c.extracts archive = some held.2 := by
  rw [unpacked] at h
  split at h
  · obtain ⟨archive, _, h⟩ := Option.bind_eq_some_iff.mp h
    obtain ⟨contents, hextracts, rfl⟩ := Option.map_eq_some_iff.mp h
    exact ⟨archive, hextracts⟩
  · cases h

/-- What is in the folder after one dependency more. -/
def replacing (c : Setting β) (server : Server β) (start : Root β) (dir : Dir)
    (dependency : Dependency) (held : Option (RemoteFile × Contents β)) :
    Option (RemoteFile × Contents β) :=
  if dirFor dependency.source = dir ∧ isDue c server start dependency = true ∧
      held.any (accepts c dependency.kind) = false then
    unpacked c server dependency
  else held

theorem landed_cons (dependency : Dependency) (dependencies : List Dependency)
    (held : Option (RemoteFile × Contents β)) :
    landed c server start dir (dependency :: dependencies) held =
      landed c server start dir dependencies
        (replacing c server start dir dependency held) := by
  rw [landed, replacing]
  split
  · rfl
  · rfl

/-- One entry whose folder's other versions are not due. -/
theorem Entry.install_landed {entry : Entry} {root : Root β} {out : Outcome β}
    {held : Option (RemoteFile × Contents β)}
    (hplain : ∀ archive contents, c.extracts archive = some contents →
      PlainPaths contents)
    (hdecided : Decided c server start entry)
    (hunlinked : ∀ held, unpacked c server entry.dependency = some held →
      Unlinked held.2)
    (hapart : isDue c server start entry.dependency = true →
      entry.dependency.source.name = dir.1 → dirFor entry.dependency.source = dir)
    (h : entry.install c server root = .ok out)
    (hroot : Stands c start dir held root) :
    Stands c start dir (replacing c server start dir entry.dependency held) out.root ∧
      ((held.isSome = true ∨ isDue c server start entry.dependency = true ∧
          dirFor entry.dependency.source = dir) →
        (replacing c server start dir entry.dependency held).isSome = true) := by
  rw [replacing]
  rcases Entry.install_eq_ok hdecided hunlinked h with
    ⟨hsame, hthere⟩ | ⟨hdue, hgone, held', hunpacked, hreplaced⟩
  · -- what is due by now is there, so there is an archive that does for it
    have hheld : ∀ hdir : dirFor entry.dependency.source = dir,
        isDue c server start entry.dependency = true →
        held.any (accepts c entry.dependency.kind) = true := by
      rintro rfl hdue
      have hpresent := hthere hdue
      rw [hroot.isPresent] at hpresent
      cases held with
      | none =>
          change isPresent c start entry.dependency = true at hpresent
          rw [isDue, hpresent] at hdue
          cases hdue
      | some held => exact hpresent
    rw [if_neg fun h => Bool.eq_false_iff.mp h.2.2 (hheld h.1 h.2.1)]
    refine ⟨hsame ▸ hroot, fun hany => ?_⟩
    rcases hany with hsome | ⟨hdue, hdir⟩
    · exact hsome
    · obtain ⟨_, hheld, _⟩ := (Option.any_eq_true _ _).mp (hheld hdir hdue)
      rw [hheld]
      rfl
  · by_cases hdir : dirFor entry.dependency.source = dir
    · subst hdir
      have hrefused : held.any (accepts c entry.dependency.kind) = false := by
        rw [hroot.isPresent] at hgone
        cases held with
        | none => rfl
        | some held => exact hgone
      rw [if_pos ⟨rfl, hdue, hrefused⟩, hunpacked]
      obtain ⟨archive, hextracts⟩ := exists_extracts_of_unpacked hunpacked
      refine ⟨⟨hplain archive _ hextracts, ?_⟩, fun _ => rfl⟩
      rw [hreplaced, removeOtherVersions_self, Function.update_self]
    · rw [if_neg fun h => hdir h.1]
      have hkept : out.root dir = root dir := by
        rw [hreplaced, replaced_of_ne]
        exact fun heq => hdir (hapart hdue heq.symm)
      refine ⟨?_, fun hany => hany.resolve_right fun hother => hdir hother.2⟩
      cases held with
      | none => exact hkept.trans hroot
      | some held => exact ⟨hroot.1, hkept.trans hroot.2⟩

/-- A folder whose other versions are not due holds what `landed` says. -/
theorem installAll_landed {entries : List Entry} {root : Root β} {out : Outcome β}
    {held : Option (RemoteFile × Contents β)}
    (hplain : ∀ archive contents, c.extracts archive = some contents →
      PlainPaths contents)
    (hdecided : ∀ entry ∈ entries, Decided c server start entry)
    (hunlinked : ∀ entry ∈ entries, ∀ held,
      unpacked c server entry.dependency = some held → Unlinked held.2)
    (hapart : ∀ entry ∈ entries, isDue c server start entry.dependency = true →
      entry.dependency.source.name = dir.1 → dirFor entry.dependency.source = dir)
    (h : installAll c server entries root = .ok out)
    (hroot : Stands c start dir held root) :
    Stands c start dir
        (landed c server start dir (entries.map (·.dependency)) held) out.root ∧
      ((held.isSome = true ∨ ∃ entry ∈ entries,
          isDue c server start entry.dependency = true ∧
          dirFor entry.dependency.source = dir) →
        (landed c server start dir (entries.map (·.dependency)) held).isSome = true) := by
  induction entries generalizing root out held with
  | nil =>
      cases h
      refine ⟨hroot, fun hdue => hdue.resolve_right fun hin => ?_⟩
      obtain ⟨entry, hin, -⟩ := hin
      cases hin
  | cons entry entries ih =>
      obtain ⟨first, hfirst, h⟩ := Attempt.bind_eq_ok.mp h
      obtain ⟨rest, hrest, h⟩ := Attempt.bind_eq_ok.mp h
      cases h
      obtain ⟨hone, hdecided⟩ := List.forall_mem_cons.mp hdecided
      obtain ⟨hlink, hunlinked⟩ := List.forall_mem_cons.mp hunlinked
      obtain ⟨hname, hapart⟩ := List.forall_mem_cons.mp hapart
      obtain ⟨hstands, hsome⟩ :=
        Entry.install_landed hplain hone hlink hname hfirst hroot
      obtain ⟨hall, hany⟩ := ih hdecided hunlinked hapart hrest hstands
      rw [List.map_cons, landed_cons]
      refine ⟨hall, fun hdue => hany ?_⟩
      rcases hdue with hheld | ⟨other, hin, hdue⟩
      · exact .inl (hsome (.inl hheld))
      · rcases List.mem_cons.mp hin with rfl | hin
        · exact .inl (hsome (.inr hdue))
        · exact .inr ⟨other, hin, hdue⟩

end Landing

section Again

/-- Every dependency that has an archive here is there, and installing the list again
asks nothing for it, reports it current once and changes nothing. -/
structure Settled (c : Setting β) (server : Server β) (dependencies : List Dependency)
    (root : Root β) : Prop where
  present : ∀ dependency ∈ dependencies, hasArchive c server dependency = true →
    isPresent c root dependency = true
  again : ∃ out, install c server root dependencies = .ok out ∧ out.root = root ∧
    ∀ dependency ∈ dependencies, hasArchive c server dependency = true →
      (∀ request ∈ out.requests, request.dependency ≠ dependency.name) ∧
      out.events.count (.current dependency.name) = 1

/-- What is there, or need not be, is left as it is, and reported if it is there. -/
theorem installAll_of_present_or_skippable {entries : List Entry} {root : Root β}
    (hdecided : ∀ entry ∈ entries, Decided c server root entry)
    (h : ∀ entry ∈ entries, isPresent c root entry.dependency = true ∨
      skippable c server entry.dependency = true) :
    installAll c server entries root = .ok ⟨root,
      ((entries.map (·.dependency)).filter (isPresent c root)).map
        fun dependency => .current dependency.name, []⟩ := by
  induction entries with
  | nil => rfl
  | cons entry entries ih =>
      obtain ⟨hone, hdecided⟩ := List.forall_mem_cons.mp hdecided
      obtain ⟨hentry, h⟩ := List.forall_mem_cons.mp h
      have hfirst : entry.install c server root = .ok ⟨root,
          if isPresent c root entry.dependency then
            [.current entry.dependency.name] else [], []⟩ := by
        cases hone with
        | @keep dependency size hpresent =>
            change Except.ok (⟨root, [.current dependency.name], []⟩ : Outcome β) =
              .ok ⟨root, if isPresent c root dependency then
                [.current dependency.name] else [], []⟩
            rw [hpresent, if_pos rfl]
        | @install dependency remote hmissing harchive =>
            have hskippable : skippable c server dependency = true :=
              hentry.resolve_left fun hpresent => by
                change isPresent c root dependency = true at hpresent
                rw [hmissing] at hpresent
                cases hpresent
            rw [(exists_archive_none hskippable).2] at harchive
            cases harchive
        | @skip dependency hmissing _ =>
            change Except.ok (⟨root, [], []⟩ : Outcome β) =
              .ok ⟨root, if isPresent c root dependency then
                [.current dependency.name] else [], []⟩
            rw [hmissing, if_neg Bool.false_ne_true]
      refine Attempt.bind_eq_ok.mpr ⟨_, hfirst, Attempt.bind_eq_ok.mpr
        ⟨_, ih hdecided h, ?_⟩⟩
      rw [List.map_cons, List.filter_cons]
      split
      · rfl
      · rfl

theorem install_eq_ok {root : Root β} {dependencies : List Dependency}
    {out : Outcome β} (h : install c server root dependencies = .ok out) :
    ∃ entries, entries.map (·.dependency) = dependencies ∧
      (∀ entry ∈ entries, Decided c server root entry) ∧
      ∃ out', installAll c server entries root = .ok out' ∧ out'.root = out.root := by
  obtain ⟨⟨entries, requests⟩, hplan, h⟩ := Attempt.bind_eq_ok.mp h
  obtain ⟨out', hout, h⟩ := Attempt.bind_eq_ok.mp h
  cases h
  obtain ⟨hentries, hdecided, _⟩ := planFrom_eq_ok resolved_empty hplan
  exact ⟨entries, hentries, hdecided, out', hout, rfl⟩

theorem skippable_of_hasArchive {dependency : Dependency}
    (h : hasArchive c server dependency = true) :
    skippable c server dependency = false := by
  by_contra hskippable
  rw [hasArchive, (exists_archive_none (by simpa using hskippable)).2] at h
  cases h

/-- The list can be installed again, to no effect, if nothing of it is missing but
what need not be there. -/
theorem settled_iff {root : Root β} {dependencies : List Dependency}
    (hnames : (dependencies.map (·.name)).Nodup) :
    Settled c server dependencies root ↔ ∀ dependency ∈ dependencies,
      skippable c server dependency = false → isPresent c root dependency = true := by
  constructor
  · rintro ⟨hpresent, out, hout, _⟩ dependency hin hneeded
    obtain ⟨entries, rfl, hdecided, _⟩ := install_eq_ok hout
    obtain ⟨entry, hentry, rfl⟩ := List.mem_map.mp hin
    cases hdecided entry hentry with
    | @keep dependency size hthere => exact hthere
    | @install dependency remote hmissing harchive =>
        refine hpresent dependency hin ?_
        rw [hasArchive, harchive]
    | @skip dependency _ hskippable =>
        change skippable c server dependency = false at hneeded
        rw [hskippable] at hneeded
        cases hneeded
  · intro hneeded
    have hkept : ∀ dependency ∈ dependencies, isPresent c root dependency = true ∨
        skippable c server dependency = true := by
      intro dependency hin
      cases hskippable : skippable c server dependency with
      | true => exact .inr rfl
      | false => exact .inl (hneeded dependency hin hskippable)
    have hpresent : ∀ dependency ∈ dependencies,
        hasArchive c server dependency = true → isPresent c root dependency = true :=
      fun dependency hin hhas =>
        hneeded dependency hin (skippable_of_hasArchive hhas)
    obtain ⟨⟨entries, requests⟩, hplan⟩ :=
      planFrom_of_present_or_skippable resolved_empty hkept
    obtain ⟨hentries, hdecided, hrequests⟩ := planFrom_eq_ok resolved_empty hplan
    have hinstalled := installAll_of_present_or_skippable hdecided fun entry hentry =>
      hkept entry.dependency (hentries ▸ List.mem_map_of_mem hentry)
    refine ⟨hpresent, _, Attempt.bind_eq_ok.mpr
      ⟨_, hplan, Attempt.bind_eq_ok.mpr ⟨_, hinstalled, rfl⟩⟩, rfl, ?_⟩
    intro dependency hin hhas
    have hthere := hpresent dependency hin hhas
    refine ⟨?_, ?_⟩
    · intro request hrequest hname
      obtain ⟨other, hother, hmissing, hsame⟩ :=
        hrequests request (by simpa using hrequest)
      have heq := List.inj_on_of_nodup_map hnames hother hin (hsame.symm.trans hname)
      rw [heq, hthere] at hmissing
      cases hmissing
    · change ((((entries.map (·.dependency)).filter (isPresent c root)).map
        fun dependency => Event.current dependency.name).count
          (.current dependency.name)) = 1
      rw [hentries]
      refine List.count_eq_one_of_mem ?_ ?_
      · have hevents : (dependencies.map fun dependency =>
            Event.current dependency.name).Nodup := by
          have hmap := hnames.map (f := Event.current) fun a b h => by cases h; rfl
          rwa [List.map_map] at hmap
        exact hevents.sublist (List.filter_sublist.map _)
      · exact List.mem_map.mpr
          ⟨dependency, List.mem_filter.mpr ⟨hin, hthere⟩, rfl⟩

end Again

section Lands

variable {root : Root β} {dependencies : List Dependency}

/-- No other version is due, and the archive that its folder holds in the end, if one
is put there, does for the dependency. -/
structure Lands (c : Setting β) (server : Server β) (root : Root β)
    (dependencies : List Dependency) (dependency : Dependency) : Prop where
  apart : ∀ other ∈ dependencies, isDue c server root other = true →
    other.source.name = dependency.source.name →
    dirFor other.source = dirFor dependency.source
  accepted : (landed c server root (dirFor dependency.source) dependencies none).all
    (accepts c dependency.kind) = true

/-- Two versions, one of which was due, are not both there in the end. -/
theorem apart_of_present {out : Outcome β}
    (hunlinked : ∀ dependency ∈ dependencies, ∀ held,
      unpacked c server dependency = some held → Unlinked held.2)
    (h : install c server root dependencies = .ok out) {dependency other : Dependency}
    (hpresent : isPresent c out.root dependency = true) (hother : other ∈ dependencies)
    (hdue : isDue c server root other = true)
    (hthere : isPresent c out.root other = true)
    (hname : other.source.name = dependency.source.name) :
    dirFor other.source = dirFor dependency.source := by
  obtain ⟨entries, hentries, hdecided, out', hout, hroot⟩ := install_eq_ok h
  have hmem : ∀ entry ∈ entries, entry.dependency ∈ dependencies := fun entry hin =>
    hentries ▸ List.mem_map_of_mem hin
  obtain ⟨entry, hentry, rfl⟩ := List.mem_map.mp (hentries.symm ▸ hother)
  obtain ⟨kept, hgone⟩ := installAll_onlyOne hdecided
    (fun entry hin => hunlinked _ (hmem entry hin)) hout
    (.inl fun _ _ => rfl) (.inr ⟨entry, hentry, hdue, hname⟩)
  have hkept : ∀ dependency' : Dependency,
      dependency'.source.name = dependency.source.name →
      isPresent c out.root dependency' = true → dirFor dependency'.source = kept := by
    intro dependency' hname' hpresent'
    by_contra hne
    rw [isPresent_of_readMarker_none (hroot ▸ hgone _ hname' hne)] at hpresent'
    cases hpresent'
  rw [hkept _ hname hthere, hkept _ rfl hpresent]

/-- Where no other version is due, a dependency is there in the end if the archive
that its folder then holds does for it. -/
theorem isPresent_iff_accepted {out : Outcome β}
    (hplain : ∀ archive contents, c.extracts archive = some contents →
      PlainPaths contents)
    (hunlinked : ∀ dependency ∈ dependencies, ∀ held,
      unpacked c server dependency = some held → Unlinked held.2)
    (h : install c server root dependencies = .ok out) {dependency : Dependency}
    (hin : dependency ∈ dependencies) (hneeded : skippable c server dependency = false)
    (hapart : ∀ other ∈ dependencies, isDue c server root other = true →
      other.source.name = dependency.source.name →
      dirFor other.source = dirFor dependency.source) :
    isPresent c out.root dependency = true ↔
      (landed c server root (dirFor dependency.source) dependencies none).all
        (accepts c dependency.kind) = true := by
  obtain ⟨entries, rfl, hdecided, out', hout, hroot⟩ := install_eq_ok h
  have hmem : ∀ entry ∈ entries, entry.dependency ∈ entries.map (·.dependency) :=
    fun entry hentry => List.mem_map_of_mem hentry
  have hstart : Stands c root (dirFor dependency.source) none root := rfl
  obtain ⟨hstands, hsome⟩ := installAll_landed hplain hdecided
    (fun entry hentry => hunlinked _ (hmem entry hentry))
    (fun entry hentry => hapart _ (hmem entry hentry)) hout hstart
  rw [hroot] at hstands
  rw [hstands.isPresent]
  cases hlanded : landed c server root (dirFor dependency.source)
      (entries.map (·.dependency)) none with
  | some held => rfl
  | none =>
      refine iff_of_true ?_ rfl
      obtain ⟨entry, hentry, rfl⟩ := List.mem_map.mp hin
      have hnotdue : isDue c server root entry.dependency = false := by
        by_contra hdue
        have hheld := hsome (.inr ⟨entry, hentry, by simpa using hdue, rfl⟩)
        rw [hlanded] at hheld
        cases hheld
      change isPresent c root entry.dependency = true
      cases hdecided entry hentry with
      | @keep dependency size hthere => exact hthere
      | @install dependency remote hmissing harchive =>
          have hdue := isDue_install hmissing harchive
          change isDue c server root dependency = false at hnotdue
          rw [hdue] at hnotdue
          cases hnotdue
      | @skip dependency _ hskippable =>
          change skippable c server dependency = false at hneeded
          rw [hskippable] at hneeded
          cases hneeded

/-- After an install that succeeds, every dependency with an archive here is there, and
installing the list again asks nothing for it, reports it current once and changes
nothing on disk, if and only if every dependency but libraries without an archive
lands: no other version of it is due, and the archive that ends up in its folder has
something to record, and the library if it is the runtime. -/
theorem finished_install_is_present {out : Outcome β}
    (hplain : ∀ archive contents, c.extracts archive = some contents →
      PlainPaths contents)
    (hunlinked : ∀ dependency ∈ dependencies, ∀ held,
      unpacked c server dependency = some held → Unlinked held.2)
    (hnames : (dependencies.map (·.name)).Nodup)
    (h : install c server root dependencies = .ok out) :
    Settled c server dependencies out.root ↔ ∀ dependency ∈ dependencies,
      skippable c server dependency = false →
      Lands c server root dependencies dependency := by
  rw [settled_iff hnames]
  constructor
  · intro hpresent dependency hin hneeded
    have hthere := hpresent dependency hin hneeded
    have hapart : ∀ other ∈ dependencies, isDue c server root other = true →
        other.source.name = dependency.source.name →
        dirFor other.source = dirFor dependency.source := by
      intro other hother hdue hname
      have hhas : hasArchive c server other = true := by
        rw [isDue, Bool.and_eq_true] at hdue
        exact hdue.2
      exact apart_of_present hunlinked h hthere hother hdue
        (hpresent other hother (skippable_of_hasArchive hhas)) hname
    exact ⟨hapart, (isPresent_iff_accepted hplain hunlinked h hin hneeded hapart).mp
      hthere⟩
  · intro hlands dependency hin hneeded
    obtain ⟨hapart, haccepted⟩ := hlands dependency hin hneeded
    exact (isPresent_iff_accepted hplain hunlinked h hin hneeded hapart).mpr haccepted

/-! ## One dependency and its archive -/

/-- One archive for every dependency, and nothing that fails. -/
def publishes : Server Byte where
  arch := "x86_64"
  resolve _ := .ok "main"
  list _ _ _ := .ok [archiveFile]
  download _ _ := .ok [.inr 7]
  through folder _ := .ok folder
  stops _ := none
  reason _ := ""
  steps _ := []
  extracted _ := []

def cuda (kind : Kind) : Dependency :=
  ⟨"NVIDIA CUDA",
    ⟨"https://huggingface.co", "vegidio/general", "main", "deps/cuda/13.3.0"⟩, kind⟩

def emptyRoot : Root Byte := fun _ => ⟨∅, ∅, ∅⟩

/-- An archive of two files, installed twice. -/
theorem finished_install_is_present_twoFiles :
    ∃ out, install (oneArchive twoFiles) publishes emptyRoot [cuda .libraries] = .ok out ∧
      Settled (oneArchive twoFiles) publishes [cuda .libraries] out.root := by
  have hcontents : ∀ archive contents,
      (oneArchive twoFiles).extracts archive = some contents → contents = twoFiles := by
    intro archive contents hextracts
    obtain ⟨_, heq⟩ := Option.ite_none_right_eq_some.mp hextracts
    exact (Option.some.inj heq).symm
  have hpresent : (install (oneArchive twoFiles) publishes emptyRoot
      [cuda .libraries]).toOption.any (fun out =>
        isPresent (oneArchive twoFiles) out.root (cuda .libraries)) = true := by
    decide +kernel
  obtain ⟨out, hout, _⟩ := Attempt.exists_of_toOption_any hpresent
  refine ⟨out, hout, (finished_install_is_present ?_ ?_ (by decide) hout).mpr ?_⟩
  · intro archive contents hextracts
    rw [hcontents archive contents hextracts]
    decide
  · intro dependency _ held hunpacked
    obtain ⟨archive, hextracts⟩ := exists_extracts_of_unpacked hunpacked
    have hlookup : twoFiles.lookup [PENDING] = none := by decide
    rw [hcontents archive _ hextracts, Unlinked, hlookup]
    nofun
  · intro dependency hin _
    obtain rfl := List.mem_singleton.mp hin
    exact ⟨by decide +kernel, by decide +kernel⟩

theorem not_settled_of_absent {contents : Contents Byte} {dependency : Dependency}
    (hhas : hasArchive (oneArchive contents) publishes dependency = true)
    (habsent : (install (oneArchive contents) publishes emptyRoot
      [dependency]).toOption.any (fun out =>
        !isPresent (oneArchive contents) out.root dependency) = true) :
    ¬ ∀ out, install (oneArchive contents) publishes emptyRoot [dependency] = .ok out →
      Settled (oneArchive contents) publishes [dependency] out.root := by
  intro hsettled
  obtain ⟨out, hout, hgone⟩ := Attempt.exists_of_toOption_any habsent
  rw [(hsettled out hout).present dependency List.mem_cons_self hhas] at hgone
  cases hgone

/-- An archive of no file, and one without the runtime's library, are installed, and
nothing is there. -/
theorem not_finished_install_is_present :
    (¬ ∀ out, install (oneArchive ∅) publishes emptyRoot [cuda .libraries] = .ok out →
      Settled (oneArchive ∅) publishes [cuda .libraries] out.root) ∧
    ¬ ∀ out, install (oneArchive twoFiles) publishes emptyRoot [cuda .runtime] =
      .ok out → Settled (oneArchive twoFiles) publishes [cuda .runtime] out.root :=
  ⟨not_settled_of_absent (by decide +kernel) (by decide +kernel),
    not_settled_of_absent (by decide +kernel) (by decide +kernel)⟩

end Lands

end Install

end Ai

end RustSak
