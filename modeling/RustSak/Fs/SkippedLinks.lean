import RustSak.Fs.Archive
import RustSak.Fs.Ceilings

/-!
# Links that are not created

With `symlinks` off an entry that is a link is counted, its name is checked, and
then it is skipped: its target is neither read nor checked. The documentation of
the option says that links are validated either way.
-/

namespace RustSak

namespace Fs

open Library

/-- Where an adapter's link leads: by its header, or by its stream. -/
def linkTarget (entry : RawEntry) (data : Data) : FsResult Name :=
  match entry.linkTarget with
  | some target => .ok target
  | none => readLinkTarget data

/-- A link's target that was read and does not pass. -/
def Refused (entry : RawEntry) (data : Data) : Prop :=
  entry.kind = .symlink ∧ ∃ components target,
    validateEntryName entry.name = .ok components ∧ components ≠ [] ∧
    linkTarget entry data = .ok target ∧
    validateSymlinkTarget components target ≠ .ok ()

/-- No link, or one with a target that passes. -/
def Accepted (entry : RawEntry) (data : Data) : Prop :=
  entry.kind = .symlink → ∀ components, validateEntryName entry.name = .ok components →
    components ≠ [] → ∃ target, linkTarget entry data = .ok target ∧
      validateSymlinkTarget components target = .ok ()

namespace ExtractOptions

def withSymlinks (options : ExtractOptions) (yes : Bool) : ExtractOptions :=
  { options with symlinks := yes }

end ExtractOptions

/-- The stream ends without an error, and with no more than was declared. -/
def Fitting (declared : UInt64) (data : Data) : Prop :=
  let limit := (Word64.satAdd declared 1).toNat
  ¬(data.fails = true ∧ data.bytes.length < limit) ∧
    (data.bytes.take limit).length ≤ declared.toNat

instance (declared : UInt64) (data : Data) : Decidable (Fitting declared data) := by
  unfold Fitting
  infer_instance

namespace Budget

variable {options : ExtractOptions}

/-- What a file leaves of the budget if the file system takes it. -/
def affordFile (options : ExtractOptions) (b : Budget) (declared : UInt64)
    (data : Data) : FsResult Budget :=
  match b.reserve options declared with
  | .error err => .error err
  | .ok b =>
      if Fitting declared data then
        .ok (b.settle declared (UInt64.ofNat
          (data.bytes.take (Word64.satAdd declared 1).toNat).length))
      else
        .error .io

/-- What an entry leaves of the budget that passes every check but those of links
and of the file system. -/
def afford (options : ExtractOptions) (b : Budget) (entry : RawEntry) (data : Data) :
    FsResult Budget :=
  match b.countEntry options with
  | (_, .error err) => .error err
  | (b, .ok ()) =>
      match validateEntryName entry.name with
      | .error err => .error err
      | .ok [] => .ok b
      | .ok _ =>
          match entry.kind with
          | .file => b.affordFile options entry.size data
          | _ => .ok b

def affordAll (options : ExtractOptions) :
    Budget → List (RawEntry × Data) → FsResult Budget
  | b, [] => .ok b
  | b, (entry, data) :: entries =>
      match b.afford options entry data with
      | .error err => .error err
      | .ok b => affordAll options b entries

theorem affordAll_cons_ok {b b' : Budget} {entry : RawEntry} {data : Data}
    (h : b.afford options entry data = .ok b') (entries : List (RawEntry × Data)) :
    b.affordAll options ((entry, data) :: entries) = b'.affordAll options entries := by
  rw [affordAll, h]

/-- An archive that can be afforded can be to any of its entries. -/
theorem affordAll_append {before after : List (RawEntry × Data)} {b b' : Budget}
    (h : b.affordAll options (before ++ after) = .ok b') :
    ∃ c, b.affordAll options before = .ok c ∧ c.affordAll options after = .ok b' := by
  induction before generalizing b with
  | nil => exact ⟨b, rfl, h⟩
  | cons e before ih =>
      obtain ⟨entry, data⟩ := e
      cases hafford : b.afford options entry data with
      | error err =>
          rw [List.cons_append, affordAll, hafford] at h
          cases h
      | ok b₁ =>
          rw [List.cons_append, affordAll_cons_ok hafford] at h
          rw [affordAll_cons_ok hafford]
          exact ih h

/-- What is afforded does not depend on whether links are created. -/
theorem affordAll_withSymlinks (options : ExtractOptions) (yes : Bool) (b : Budget)
    (entries : List (RawEntry × Data)) :
    b.affordAll (options.withSymlinks yes) entries = b.affordAll options entries := by
  have hone : ∀ (b : Budget) (entry : RawEntry) (data : Data),
      b.afford (options.withSymlinks yes) entry data = b.afford options entry data :=
    fun _ _ _ => rfl
  induction entries generalizing b with
  | nil => rfl
  | cons e entries ih =>
      rw [affordAll, affordAll, hone]
      cases b.afford options e.1 e.2 with
      | error err => rfl
      | ok b' => exact ih b'

end Budget

/-- With links skipped nothing in the archive itself stops it. -/
def Affordable (options : ExtractOptions) (entries : List (RawEntry × Data)) : Prop :=
  ∃ b, Budget.new.affordAll options entries = .ok b

/-- The extraction stops at a link whose target is refused. -/
def StopsAtLink {ρ : Type} (options : ExtractOptions) (R : Root ρ) (root : ρ)
    (entries : List (RawEntry × Data)) : Prop :=
  ∃ before entry data after x, entries = before ++ (entry, data) :: after ∧
    (Extractor.new root).visitAll options R before = (x, .ok ()) ∧
    Refused entry data ∧ ∃ link target, (x.visit options R entry data).result =
      .error (.illegalSymlink link target)

/-- An archive that is stopped by a link with links on is not extracted with
links off. -/
def LinksValidated {ρ : Type} (options : ExtractOptions) (R : UnixRoot ρ) (root : ρ)
    (entries : List (RawEntry × Data)) : Prop :=
  StopsAtLink (options.withSymlinks true) R.toRoot root entries →
    ∀ summary, ((Extractor.new root).extract (options.withSymlinks false) R
      entries).2 ≠ .ok summary

/-- The first link that does not pass is one whose target was read, and links
apart the archive is in order. -/
def LeadsOut (options : ExtractOptions) (entries : List (RawEntry × Data)) : Prop :=
  Affordable options entries ∧ ∃ before entry data after,
    entries = before ++ (entry, data) :: after ∧
    (∀ e ∈ before, Accepted e.1 e.2) ∧ Refused entry data

/-! ## One visit -/

namespace Extractor

variable {ρ : Type} {options : ExtractOptions} {R : Root ρ} {x : Extractor ρ}

theorem Quiet.budget_eq {r : Visited ρ} (hq : Quiet x r) (h : r.result = .ok ()) :
    r.extractor.budget = x.budget := by
  obtain ⟨hbytes, _⟩ := hq.kept h
  have hentries := hq.entries
  cases hb : r.extractor.budget with
  | mk bytes entries =>
      rw [hb] at hbytes hentries
      cases hbytes
      cases hentries
      rfl

theorem fitting_of_copyBody {root : ρ} {path : Location} {data : Data}
    {declared : UInt64}
    (hcopied : (copyBody R root path data (Word64.satAdd declared 1)).2.failed = false)
    (hsize : (copyBody R root path data (Word64.satAdd declared 1)).2.written ≤
      declared.toNat) : Fitting declared data := by
  refine ⟨?_, (copyBody_written root path data _ hcopied) ▸ hsize⟩
  unfold copyBody at hcopied
  dsimp only at hcopied
  split at hcopied
  · cases hcopied
  · rintro ⟨hfails, hlt⟩
    rw [hfails, Bool.true_and, decide_eq_false_iff_not] at hcopied
    exact hcopied hlt

section Links

variable {entry : RawEntry} {components : List Name} {data : Data} {target : Name}

theorem visitSymlink_off (h : options.symlinks = false) :
    x.visitSymlink options R entry components data = ⟨x.skip, .ok (), 0⟩ := by
  unfold visitSymlink
  rw [if_pos h]

theorem visitSymlink_unread (hon : options.symlinks = true) {err : FsError}
    (hread : linkTarget entry data = .error err) :
    x.visitSymlink options R entry components data = ⟨x, .error err, 0⟩ := by
  unfold linkTarget at hread
  cases hlink : entry.linkTarget with
  | some target =>
      rw [hlink] at hread
      cases hread
  | none =>
      rw [hlink] at hread
      simp only [visitSymlink, hon, hlink, hread, Bool.true_eq_false, if_false]

theorem visitSymlink_refused (hon : options.symlinks = true)
    (hread : linkTarget entry data = .ok target) {err : FsError}
    (hno : validateSymlinkTarget components target = .error err) :
    x.visitSymlink options R entry components data = ⟨x, .error err, 0⟩ := by
  unfold linkTarget at hread
  cases hlink : entry.linkTarget with
  | some header =>
      rw [hlink] at hread
      cases hread
      simp only [visitSymlink, hon, hlink, hno, Bool.true_eq_false, if_false]
  | none =>
      rw [hlink] at hread
      simp only [visitSymlink, hon, hlink, hread, hno, Bool.true_eq_false, if_false]

end Links

theorem of_visitSymlink {entry : RawEntry} {components : List Name} {data : Data}
    (h : (x.visitSymlink options R entry components data).result = .ok ()) :
    (x.visitSymlink options R entry components data).extractor.budget = x.budget ∧
      (options.symlinks = true → ∃ target, linkTarget entry data = .ok target ∧
        validateSymlinkTarget components target = .ok ()) := by
  have hquiet : Quiet x (x.visitSymlink options R entry components data) :=
    visitSymlink_quiet entry components data
  refine ⟨hquiet.budget_eq h, fun hon => ?_⟩
  cases hread : linkTarget entry data with
  | error err =>
      rw [visitSymlink_unread hon hread] at h
      cases h
  | ok target =>
      refine ⟨target, rfl, ?_⟩
      cases hok : validateSymlinkTarget components target with
      | error err =>
          rw [visitSymlink_refused hon hread hok] at h
          cases h
      | ok u => rfl

theorem of_visitFile {entry : RawEntry} {path : Location} {data : Data}
    (h : (x.visitFile options R entry path data).result = .ok ()) :
    x.budget.affordFile options entry.size data =
      .ok (x.visitFile options R entry path data).extractor.budget := by
  unfold visitFile at h ⊢
  unfold Budget.affordFile
  dsimp only at h ⊢
  cases hreserve : x.budget.reserve options entry.size with
  | error err =>
      rw [hreserve] at h
      cases h
  | ok budget =>
    rw [hreserve] at h
    dsimp only at h ⊢
    split at h
    · cases h
    · split at h
      · cases h
      · rename_i hcopied
        split at h
        · cases h
        · rename_i hsize
          have hcopied := Bool.eq_false_iff.mpr hcopied
          rw [if_pos (fitting_of_copyBody hcopied (not_lt.mp hsize)),
            if_neg (Bool.eq_false_iff.mp hcopied), if_neg hsize,
            copyBody_written _ _ _ _ hcopied]

/-- A visit that went well was afforded, and was of no link that is refused. -/
theorem of_visit {entry : RawEntry} {data : Data}
    (h : (x.visit options R entry data).result = .ok ()) :
    x.budget.afford options entry data =
        .ok (x.visit options R entry data).extractor.budget ∧
      (options.symlinks = true → Accepted entry data) := by
  unfold visit at h ⊢
  unfold Budget.afford Accepted
  cases hcount : x.budget.countEntry options with
  | mk budget counted =>
    rw [hcount] at h
    cases counted with
    | error err => cases h
    | ok u =>
      dsimp only at h ⊢
      cases hname : validateEntryName entry.name with
      | error err =>
          rw [hname] at h
          cases h
      | ok components =>
        rw [hname] at h
        cases components with
        | nil =>
            refine ⟨rfl, fun _ _ components hcs hne => ?_⟩
            cases hcs
            exact absurd rfl hne
        | cons c cs =>
          dsimp only at h ⊢
          cases hkind : entry.kind with
          | dir =>
              rw [hkind] at h
              dsimp only at h ⊢
              rw [(visitDir_quiet _ _).budget_eq h]
              exact ⟨rfl, nofun⟩
          | file =>
              rw [hkind] at h
              dsimp only at h ⊢
              have hafford := of_visitFile h
              exact ⟨hafford, nofun⟩
          | symlink =>
              rw [hkind] at h
              obtain ⟨hbudget, haccepted⟩ := of_visitSymlink h
              dsimp only
              rw [hbudget]
              refine ⟨rfl, fun hon _ components hcs _ => ?_⟩
              cases hcs
              exact haccepted hon
          | other => exact ⟨rfl, nofun⟩

/-! ## A root that refuses nothing -/

theorem visitFile_willing {x : Extractor Unit} {entry : RawEntry} {path : Location}
    {data : Data} {b : Budget}
    (h : x.budget.affordFile options entry.size data = .ok b) :
    (x.visitFile options willing entry path data).result = .ok () := by
  unfold Budget.affordFile at h
  unfold visitFile
  dsimp only
  cases hreserve : x.budget.reserve options entry.size with
  | error err =>
      rw [hreserve] at h
      cases h
  | ok budget =>
      rw [hreserve] at h
      by_cases hfit : Fitting entry.size data
      · have hcopy : copyBody willing x.root path data (Word64.satAdd entry.size 1) =
            ((), ⟨(data.bytes.take (Word64.satAdd entry.size 1).toNat).length,
              false⟩) := by
          have hfails : (data.fails && decide
              (data.bytes.length < (Word64.satAdd entry.size 1).toNat)) = false :=
            Bool.eq_false_iff.mpr fun h => hfit.1 (by simpa using h)
          rw [← hfails]
          rfl
        have hcreate : ∀ mode, willing.createFile x.root path mode = ((), .ok ()) :=
          fun _ => rfl
        simp only [hcreate, hcopy, Bool.false_eq_true, if_false,
          if_neg (not_lt.mpr hfit.2)]
      · simp only [if_neg hfit] at h
        cases h

theorem visitSymlink_willing {x : Extractor Unit} {entry : RawEntry}
    {components : List Name} {data : Data}
    (h : options.symlinks = true → ∃ target, linkTarget entry data = .ok target ∧
      validateSymlinkTarget components target = .ok ()) :
    (x.visitSymlink options willing entry components data).result = .ok () := by
  cases hon : options.symlinks with
  | false => rw [visitSymlink_off hon]
  | true =>
      obtain ⟨target, hread, hok⟩ := h hon
      have hcreate : ∀ root, willing.createSymlink root components target =
          ((), .ok true) := fun _ => rfl
      have hverify : ∀ root link, willing.verifySymlink root components link target =
          ((), .ok ()) := fun _ _ => rfl
      unfold linkTarget at hread
      cases hlink : entry.linkTarget with
      | some header =>
          rw [hlink] at hread
          cases hread
          simp only [visitSymlink, hon, hlink, hok, hcreate, hverify, Bool.true_eq_false,
            if_false]
      | none =>
          rw [hlink] at hread
          simp only [visitSymlink, hon, hlink, hread, hok, hcreate, hverify,
            Bool.true_eq_false, if_false]

/-- What is afforded and leads nowhere else is extracted. -/
theorem visit_ok_willing {x : Extractor Unit} {entry : RawEntry} {data : Data}
    {b : Budget} (h : x.budget.afford options entry data = .ok b)
    (haccepted : options.symlinks = true → Accepted entry data) :
    (x.visit options willing entry data).result = .ok () := by
  unfold Budget.afford at h
  unfold visit
  unfold Accepted at haccepted
  cases hcount : x.budget.countEntry options with
  | mk budget counted =>
    rw [hcount] at h
    cases counted with
    | error err => cases h
    | ok u =>
      dsimp only at h ⊢
      cases hname : validateEntryName entry.name with
      | error err =>
          rw [hname] at h
          cases h
      | ok components =>
        rw [hname] at h haccepted
        cases components with
        | nil => rfl
        | cons c cs =>
          dsimp only at h ⊢
          cases hkind : entry.kind with
          | dir => rfl
          | file =>
              rw [hkind] at h
              dsimp only at h ⊢
              have hok : (visitFile options willing { x with budget := budget } entry
                  (c :: cs) data).result = .ok () := visitFile_willing h
              exact hok
          | symlink =>
              dsimp only
              refine visitSymlink_willing fun hon => ?_
              exact haccepted hon hkind (c :: cs) rfl (List.cons_ne_nil c cs)
          | other => rfl

/-! ## Whole archives -/

/-- Counted and named well, a link that is refused stops the extraction. -/
theorem visit_refused {entry : RawEntry} {data : Data} {b : Budget}
    (hon : options.symlinks = true) (h : x.budget.afford options entry data = .ok b)
    (hrefused : Refused entry data) : ∃ link target,
      (x.visit options R entry data).result = .error (.illegalSymlink link target) := by
  obtain ⟨hkind, components, target, hname, hne, hread, hno⟩ := hrefused
  obtain ⟨c, cs, rfl⟩ := List.exists_cons_of_ne_nil hne
  obtain ⟨link, hlink⟩ : ∃ link, validateSymlinkTarget (c :: cs) target =
      .error (.illegalSymlink link target) := by
    unfold validateSymlinkTarget at hno ⊢
    split
    · exact ⟨_, rfl⟩
    · split
      · rename_i hstart hclimbs
        rw [if_neg hstart, if_pos hclimbs] at hno
        exact absurd rfl hno
      · exact ⟨_, rfl⟩
  refine ⟨link, target, ?_⟩
  unfold Budget.afford at h
  unfold visit
  cases hcount : x.budget.countEntry options with
  | mk budget counted =>
    rw [hcount] at h
    cases counted with
    | error err => cases h
    | ok u =>
      simp only [hname, hkind, visitSymlink_refused hon hread hlink]

theorem affordAll_of_visitAll {x x' : Extractor ρ} {entries : List (RawEntry × Data)}
    (h : x.visitAll options R entries = (x', .ok ())) :
    x.budget.affordAll options entries = .ok x'.budget ∧
      (options.symlinks = true → ∀ e ∈ entries, Accepted e.1 e.2) := by
  induction entries generalizing x with
  | nil =>
      cases h
      exact ⟨rfl, fun _ e he => absurd he List.not_mem_nil⟩
  | cons e entries ih =>
      obtain ⟨entry, data⟩ := e
      obtain ⟨hvisit, hrest⟩ := of_visitAll_cons h
      obtain ⟨hafford, haccepted⟩ := of_visit hvisit
      obtain ⟨hall, hrest⟩ := ih hrest
      rw [Budget.affordAll_cons_ok hafford]
      refine ⟨hall, fun hon e he => ?_⟩
      rcases List.mem_cons.mp he with rfl | he
      · exact haccepted hon
      · exact hrest hon e he

theorem visitAll_willing {x : Extractor Unit} {entries : List (RawEntry × Data)}
    {b : Budget} (h : x.budget.affordAll options entries = .ok b)
    (haccepted : options.symlinks = true → ∀ e ∈ entries, Accepted e.1 e.2) :
    ∃ x', x.visitAll options willing entries = (x', .ok ()) ∧ x'.budget = b := by
  induction entries generalizing x with
  | nil =>
      cases h
      exact ⟨x, rfl, rfl⟩
  | cons e entries ih =>
      obtain ⟨entry, data⟩ := e
      cases hafford : x.budget.afford options entry data with
      | error err =>
          rw [Budget.affordAll, hafford] at h
          cases h
      | ok b' =>
          have hvisit := visit_ok_willing hafford fun hon =>
            haccepted hon _ List.mem_cons_self
          have hbudget := (of_visit hvisit).1
          rw [hafford] at hbudget
          cases hbudget
          rw [visitAll_cons_ok hvisit]
          rw [Budget.affordAll_cons_ok hafford] at h
          exact ih h fun hon e he => haccepted hon e (List.mem_cons_of_mem _ he)

end Extractor

/-- A root that refuses nothing, modes included. -/
def obliging : UnixRoot Unit where
  toRoot := willing
  setDirMode _ _ _ := ((), .ok ())

theorem finish_obliging (x : Extractor Unit) :
    ∃ summary, (x.finish obliging).2 = .ok summary := by
  have hlinks : ∀ links, Extractor.verifyLinks willing () links = ((), .ok ()) := by
    intro links
    induction links with
    | nil => rfl
    | cons link links ih => exact ih
  have hmodes : ∀ modes, Extractor.setDirModes obliging () modes = ((), .ok ()) := by
    intro modes
    induction modes with
    | nil => rfl
    | cons mode modes ih => exact ih
  refine ⟨x.summary, ?_⟩
  unfold Extractor.finish
  rw [show obliging.toRoot = willing from rfl, hlinks]
  dsimp only
  rw [hmodes]

/-- Links are validated with `symlinks` off just for the archives that something
else stops, or whose first link that does not pass is one that cannot be read. -/
theorem skipped_links_validated_iff (options : ExtractOptions)
    (entries : List (RawEntry × Data)) :
    (∀ (ρ : Type) (R : UnixRoot ρ) (root : ρ), LinksValidated options R root entries) ↔
      ¬ LeadsOut options entries := by
  constructor
  · rintro h ⟨⟨b, hafford⟩, before, entry, data, after, rfl, haccepted, hrefused⟩
    obtain ⟨c, hbefore, hrest⟩ := Budget.affordAll_append hafford
    obtain ⟨x, hx, hbudget⟩ := Extractor.visitAll_willing
      (x := .new ()) ((Budget.affordAll_withSymlinks options true _ _).trans hbefore)
      fun _ => haccepted
    obtain ⟨x', hx', _⟩ := Extractor.visitAll_willing
      (x := .new ()) ((Budget.affordAll_withSymlinks options false _ _).trans hafford)
      nofun
    obtain ⟨summary, hfinish⟩ := finish_obliging x'
    refine h Unit obliging () ⟨before, entry, data, after, x, rfl, hx, hrefused, ?_⟩
      summary ?_
    · cases hentry : c.afford options entry data with
      | error err =>
          rw [Budget.affordAll, hentry] at hrest
          cases hrest
      | ok c' =>
          rw [← hbudget] at hentry
          exact Extractor.visit_refused rfl hentry hrefused
    · unfold Extractor.extract
      rw [show obliging.toRoot = willing from rfl, hx']
      exact hfinish
  · rintro hno ρ R root ⟨before, entry, data, after, x, rfl, hbefore, hrefused, _⟩
      summary hok
    obtain ⟨x', hx'⟩ := Extractor.visitAll_of_extract hok
    have hafford := (Extractor.affordAll_of_visitAll hx').1
    rw [Budget.affordAll_withSymlinks] at hafford
    refine hno ⟨⟨x'.budget, hafford⟩, before, entry, data, after, rfl, ?_, hrefused⟩
    exact (Extractor.affordAll_of_visitAll hbefore).2 rfl

/-- A link out of the root is an error with links on, and is skipped with links
off. -/
theorem not_skipped_links_validated :
    ¬ ∀ (options : ExtractOptions) (R : UnixRoot Unit) (root : Unit)
      (entries : List (RawEntry × Data)), LinksValidated options R root entries := by
  intro h
  let entry : RawEntry := ⟨['l'], .symlink, 0, none, some ['.', '.', '/', 'x']⟩
  let data : Data := ⟨[], false⟩
  have hrefused : Refused entry data := ⟨rfl, [['l']], ['.', '.', '/', 'x'],
    by decide, by decide, rfl, by decide⟩
  exact h .new obliging () [(entry, data)]
    ⟨[], entry, data, [], .new (), rfl, rfl, hrefused, _, _, rfl⟩ _ rfl

end Fs

end RustSak
