import RustSak.Fs.CopyMove
import RustSak.Library.Attempt
import RustSak.Library.DepthFirst
import Mathlib.Data.List.Sort
import Mathlib.Data.List.Lex
import Mathlib.Order.WithBot
import Mathlib.Data.Char

/-!
# Listing a directory

A listing keeps what its options include of a walk of the directory tree, or fails with the
walk's first error. The walk is `walkdir`'s, a parameter that does what is documented of it: it
is depth first, sorts each directory's entries by their names, and never goes into what a link
points at. Reading a directory may fail, as a whole or at some of its entries, and the order in
which it is read is arbitrary.
-/

namespace RustSak

namespace Fs

open Library

/-- What an entry of a directory is: another directory, with what reading it comes to, or
anything else. -/
inductive ListedEntry (ν ε : Type) where
  | file
  | dir (listing : List (Except ε (ν × ListedEntry ν ε)))

/-- What reading a directory comes to: entries and errors, in any order. -/
abbrev Listing (ν ε : Type) := List (Except ε (ν × ListedEntry ν ε))

namespace Listing

section Trees

variable {ν ε : Type}

/-- `path` leads to an entry below `listing`, a directory or not. -/
inductive Stands : Listing ν ε → List ν → Bool → Prop
  | file {listing : Listing ν ε} {name : ν} (h : .ok (name, .file) ∈ listing) :
      Stands listing [name] false
  | dir {listing below : Listing ν ε} {name : ν} (h : .ok (name, .dir below) ∈ listing) :
      Stands listing [name] true
  | inside {listing below : Listing ν ε} {name : ν} {path : List ν} {isDir : Bool}
      (h : .ok (name, .dir below) ∈ listing) (hpath : Stands below path isDir) :
      Stands listing (name :: path) isDir

/-- Reading a directory that is met in fewer than so many steps fails. -/
inductive Unread : ℕ → Listing ν ε → ε → Prop
  | here {depth : ℕ} {listing : Listing ν ε} {error : ε} (h : .error error ∈ listing) :
      Unread (depth + 1) listing error
  | inside {depth : ℕ} {listing below : Listing ν ε} {name : ν} {error : ε}
      (h : .ok (name, .dir below) ∈ listing) (herror : Unread depth below error) :
      Unread (depth + 1) listing error

/-- `listing` is read of a directory at or below the one that `top` is read of. -/
inductive Within (top : Listing ν ε) : Listing ν ε → Prop
  | top : Within top top
  | inside {listing below : Listing ν ε} {name : ν} (h : Within top listing)
      (hbelow : .ok (name, .dir below) ∈ listing) : Within top below

/-- The names that a directory turned out to hold. -/
def names (listing : Listing ν ε) : List ν :=
  listing.filterMap fun
    | .error _ => none
    | .ok (name, _) => some name

/-- No directory holds one name twice. -/
def Distinct (top : Listing ν ε) : Prop :=
  ∀ listing, Within top listing → (names listing).Nodup

/-- The paths to include, up to the first error. -/
def collect (include? : List ν → Bool → Bool) :
    List (Except ε (List ν × Bool)) → List (List ν) → Except ε (List (List ν))
  | [], paths => .ok paths
  | .error error :: _, _ => .error error
  | .ok (path, isDir) :: items, paths =>
      collect include? items (if include? path isDir then paths ++ [path] else paths)

/-- The paths among what a walk has met. -/
def paths (items : List (Except ε (List ν × Bool))) : List (List ν) :=
  items.filterMap fun item => item.toOption.map Prod.fst

theorem Stands.ne_nil {listing : Listing ν ε} {path : List ν} {isDir : Bool}
    (h : Stands listing path isDir) : path ≠ [] := by
  cases h with
  | file => exact List.cons_ne_nil _ _
  | dir => exact List.cons_ne_nil _ _
  | inside => exact List.cons_ne_nil _ _

/-- What stands on the way to an entry stands there too. -/
theorem Stands.on_the_way {listing : Listing ν ε} {path : List ν} {isDir : Bool} {name : ν}
    {rest : List ν} (h : Stands listing path isDir) (hrest : name :: rest <+: path) :
    ∃ isDir', Stands listing (name :: rest) isDir' := by
  induction h generalizing name rest with
  | file hentry =>
      obtain ⟨rfl, hnil⟩ := List.cons_prefix_cons.mp hrest
      obtain rfl := List.prefix_nil.mp hnil
      exact ⟨false, .file hentry⟩
  | dir hentry =>
      obtain ⟨rfl, hnil⟩ := List.cons_prefix_cons.mp hrest
      obtain rfl := List.prefix_nil.mp hnil
      exact ⟨true, .dir hentry⟩
  | inside hentry hpath ih =>
      obtain ⟨rfl, hbelow⟩ := List.cons_prefix_cons.mp hrest
      cases rest with
      | nil => exact ⟨true, .dir hentry⟩
      | cons name' rest =>
          obtain ⟨isDir', hstands⟩ := ih hbelow
          exact ⟨isDir', .inside hentry hstands⟩

theorem mem_paths {items : List (Except ε (List ν × Bool))} {path : List ν} :
    path ∈ paths items ↔ ∃ isDir, .ok (path, isDir) ∈ items := by
  unfold paths
  rw [List.mem_filterMap]
  constructor
  · rintro ⟨error | ⟨path', isDir⟩, hitem, heq⟩
    · cases heq
    · cases heq
      exact ⟨isDir, hitem⟩
  · rintro ⟨isDir, hitem⟩
    exact ⟨_, hitem, rfl⟩

end Trees

section Collect

variable {ν ε : Type} {include? : List ν → Bool → Bool}
  {items : List (Except ε (List ν × Bool))} {acc : List (List ν)}

theorem collect_error {error : ε} (h : collect include? items acc = .error error) :
    .error error ∈ items := by
  induction items generalizing acc with
  | nil => cases h
  | cons item items ih =>
      obtain error' | ⟨path, isDir⟩ := item
      · cases h
        exact List.mem_cons_self
      · exact List.mem_cons_of_mem _ (ih h)

theorem not_error_of_collect {found : List (List ν)} (h : collect include? items acc = .ok found)
    (error : ε) : .error error ∉ items := by
  induction items generalizing acc with
  | nil => exact List.not_mem_nil
  | cons item items ih =>
      obtain error' | ⟨path, isDir⟩ := item
      · cases h
      · simpa using ih h

/-- What is collected is included of what the walk has met, in its order. -/
theorem collect_eq {found : List (List ν)} (h : collect include? items acc = .ok found) :
    ∃ more, found = acc ++ more ∧ more.Sublist (paths items) ∧
      ∀ path, path ∈ more ↔ ∃ isDir, .ok (path, isDir) ∈ items ∧ include? path isDir = true := by
  induction items generalizing acc with
  | nil =>
      cases h
      exact ⟨[], by simp, List.nil_sublist _, by simp⟩
  | cons item items ih =>
      obtain error' | ⟨path, isDir⟩ := item
      · cases h
      · obtain ⟨more, hfound, hsub, hmem⟩ := ih h
        by_cases hinclude : include? path isDir = true
        · refine ⟨path :: more, ?_, hsub.cons_cons path, ?_⟩
          · rw [hfound, if_pos hinclude, List.append_assoc, List.singleton_append]
          · intro path'
            rw [List.mem_cons, hmem]
            constructor
            · rintro (rfl | ⟨isDir', hitem, htrue⟩)
              · exact ⟨isDir, List.mem_cons_self, hinclude⟩
              · exact ⟨isDir', List.mem_cons_of_mem _ hitem, htrue⟩
            · rintro ⟨isDir', hitem, htrue⟩
              obtain heq | hitem := List.mem_cons.mp hitem
              · cases heq
                exact .inl rfl
              · exact .inr ⟨isDir', hitem, htrue⟩
        · refine ⟨more, by rw [hfound, if_neg hinclude], hsub.cons path, ?_⟩
          intro path'
          rw [hmem]
          constructor
          · rintro ⟨isDir', hitem, htrue⟩
            exact ⟨isDir', List.mem_cons_of_mem _ hitem, htrue⟩
          · rintro ⟨isDir', hitem, htrue⟩
            obtain heq | hitem := List.mem_cons.mp hitem
            · cases heq
              exact absurd htrue hinclude
            · exact ⟨isDir', hitem, htrue⟩

end Collect

end Listing

/-! ## The walk -/

/-- How `list_path` sets `WalkDir` up. -/
structure WalkOptions where
  minDepth : ℕ
  maxDepth : ℕ
  sortByFileName : Bool

/-- What a `WalkDir` meets on its way through a directory, each with whether that is a directory.
Paths are told from the directory that the walk begins at. -/
abbrev WalkDir (ν ε : Type) := WalkOptions → Listing ν ε → List (Except ε (List ν × Bool))

/-- What `walkdir` documents of its walks, links not followed: what is at the depths asked for is
met, the directory itself being at depth zero; so is an error for each reading that fails; the
walk is depth first, each directory ahead of its contents; and where it is to sort by the names,
the entries of each directory are in their order. -/
structure WalkDir.Documented {ν ε : Type} [LinearOrder ν] (walk : WalkDir ν ε) : Prop where
  entries : ∀ options listing path isDir, .ok (path, isDir) ∈ walk options listing ↔
    (path = [] ∧ isDir = true ∨ Listing.Stands listing path isDir) ∧
      options.minDepth ≤ path.length ∧ path.length ≤ options.maxDepth
  errors : ∀ options listing error, .error error ∈ walk options listing ↔
    Listing.Unread options.maxDepth listing error
  depthFirst : ∀ options listing, Listing.Distinct listing →
    DepthFirst (Listing.paths (walk options listing))
  siblings : ∀ options listing, options.sortByFileName = true → Listing.Distinct listing →
    SiblingsSorted (Listing.paths (walk options listing))

/-- So the walk as a whole is in order, where nothing on the way is left out. -/
theorem WalkDir.Documented.sorted {ν ε : Type} [LinearOrder ν] {walk : WalkDir ν ε}
    (hwalk : walk.Documented) {options : WalkOptions} (hsort : options.sortByFileName = true)
    (hmin : options.minDepth ≤ 1) {listing : Listing ν ε} (hdistinct : listing.Distinct) :
    (Listing.paths (walk options listing)).Pairwise (· < ·) := by
  refine (hwalk.depthFirst options listing hdistinct).sorted
    (hwalk.siblings options listing hsort hdistinct) fun path hpath dir hdir hne => ?_
  obtain ⟨isDir, hitem⟩ := Listing.mem_paths.mp hpath
  obtain ⟨⟨rfl, _⟩ | hstands, _, hmax⟩ := (hwalk.entries _ _ _ _).mp hitem
  · exact absurd (List.prefix_nil.mp hdir) hne
  · obtain ⟨name, rest, rfl⟩ := List.exists_cons_of_ne_nil hne
    obtain ⟨isDir', hway⟩ := hstands.on_the_way hdir
    refine Listing.mem_paths.mpr ⟨isDir', (hwalk.entries _ _ _ _).mpr ⟨.inr hway, ?_, ?_⟩⟩
    · exact hmin.trans (List.length_pos_of_ne_nil hne)
    · exact hdir.length_le.trans hmax

/-! ## The options -/

/-- How a directory is to be listed. -/
structure ListOptions where
  dirs : Bool
  files : Bool
  recursive : Bool
  filter : ExtFilter

namespace ListOptions

/-- Regular files only, one level deep, no extension filter. -/
def default : ListOptions := ⟨false, true, false, []⟩

/-- A call on the builder. -/
inductive Call where
  | dirs (include? : Bool)
  | files (include? : Bool)
  | recursive (recursive : Bool)
  | extension (extension : Name)
  | extensions (extensions : List Name)

def apply (options : ListOptions) : Call → ListOptions
  | .dirs include? => { options with dirs := include? }
  | .files include? => { options with files := include? }
  | .recursive recursive => { options with recursive := recursive }
  | .extension extension => { options with filter := options.filter.add extension }
  | .extensions extensions =>
      { options with filter := extensions.foldl ExtFilter.add options.filter }

/-- The options that a chain of calls builds. -/
def built (calls : List Call) : ListOptions := calls.foldl apply default

/-- Whether a file at `path` should be listed. -/
def acceptsFile (options : ListOptions) (path : List Name) : Bool :=
  options.files && options.filter.matchesName path.getLast?

def includes (options : ListOptions) (path : List Name) (isDir : Bool) : Bool :=
  if isDir then options.dirs else options.acceptsFile path

def maxDepth (options : ListOptions) : ℕ := if options.recursive then 18446744073709551615 else 1

/-- The extensions that a call asks for. -/
def Call.asked : Call → List Name
  | .extension text => [text]
  | .extensions texts => texts
  | _ => []

/-- An extension as it may be given: without its leading dots. -/
def bare (text : Name) : Name := text.dropWhile (· == '.')

theorem mem_add {filter : ExtFilter} {text e : Name} :
    e ∈ filter.add text ↔
      e ∈ filter ∨ bare text ≠ [] ∧ e = (bare text).map Char.toLower := by
  unfold ExtFilter.add
  change e ∈ (if (!((bare text).map Char.toLower).isEmpty &&
    !filter.contains ((bare text).map Char.toLower)) = true then _ else _) ↔ _
  split
  next h =>
    have hbare : bare text ≠ [] := by
      rintro hnil
      rw [hnil] at h
      exact absurd h (by simp)
    rw [and_iff_right hbare]
    exact List.mem_append.trans (or_congr_right List.mem_singleton)
  next h =>
    constructor
    · exact .inl
    · rintro (hmem | ⟨hbare, rfl⟩)
      · exact hmem
      · simp only [List.isEmpty_map, Bool.and_eq_true, Bool.not_eq_true', not_and,
          Bool.not_eq_false, List.contains_iff_mem] at h
        exact h (by simpa using hbare)

theorem mem_foldl_add {filter : ExtFilter} {texts : List Name} {e : Name} :
    e ∈ texts.foldl ExtFilter.add filter ↔
      e ∈ filter ∨ ∃ text ∈ texts, bare text ≠ [] ∧ e = (bare text).map Char.toLower := by
  induction texts generalizing filter with
  | nil => simp
  | cons text texts ih =>
      rw [List.foldl_cons, ih, mem_add, or_assoc]
      simp

theorem mem_filter_apply {options : ListOptions} {call : Call} {e : Name} :
    e ∈ (options.apply call).filter ↔ e ∈ options.filter ∨
      ∃ text ∈ call.asked, bare text ≠ [] ∧ e = (bare text).map Char.toLower := by
  cases call with
  | extension text => simp [apply, Call.asked, mem_add]
  | extensions texts => exact mem_foldl_add
  | _ => simp [apply, Call.asked]

theorem mem_filter_foldl {options : ListOptions} {calls : List Call} {e : Name} :
    e ∈ (calls.foldl apply options).filter ↔ e ∈ options.filter ∨
      ∃ text ∈ calls.flatMap Call.asked, bare text ≠ [] ∧ e = (bare text).map Char.toLower := by
  induction calls generalizing options with
  | nil => simp
  | cons call calls ih =>
      rw [List.foldl_cons, ih, mem_filter_apply, or_assoc, List.flatMap_cons]
      simp [or_and_right, exists_or]

/-- The filter holds the extensions asked for in any call, in lower case. -/
theorem mem_filter_built {calls : List Call} {e : Name} :
    e ∈ (built calls).filter ↔
      ∃ text ∈ calls.flatMap Call.asked, bare text ≠ [] ∧ e = (bare text).map Char.toLower := by
  simp [built, mem_filter_foldl, default]

theorem toLower_toLower (c : Char) : c.toLower.toLower = c.toLower := by
  by_cases hupper : c.val ≥ 'A'.val ∧ c.val ≤ 'Z'.val
  · refine dif_neg fun hlower => ?_
    have hnat := Text.toNat_toLower hupper
    have hle : c.toLower.toNat ≤ 90 := UInt32.le_iff_toNat_le.mp hlower.2
    have hge : 65 ≤ c.toNat := UInt32.le_iff_toNat_le.mp hupper.1
    omega
  · have hsame : c.toLower = c := dif_neg hupper
    rw [hsame, hsame]

theorem eqIgnoreAsciiCase_lower (cs ds : Name) :
    Text.eqIgnoreAsciiCase (cs.map Char.toLower) ds = Text.eqIgnoreAsciiCase cs ds := by
  have htwice : Char.toLower ∘ Char.toLower = Char.toLower :=
    funext toLower_toLower
  rw [Text.eqIgnoreAsciiCase, Text.eqIgnoreAsciiCase, List.map_map, htwice]

/-- A file passes if no extension was asked for, or if it has one that was, in whatever case,
with or without leading dots. -/
theorem acceptsFile_built {calls : List Call} {path : List Name} :
    (built calls).acceptsFile path = true ↔ (built calls).files = true ∧
      ((∀ text ∈ calls.flatMap Call.asked, bare text = []) ∨
        ∃ name extension, path.getLast? = some name ∧
          ExtFilter.extension name = some extension ∧
          ∃ text ∈ calls.flatMap Call.asked, bare text ≠ [] ∧
            Text.eqIgnoreAsciiCase (bare text) extension = true) := by
  have hempty : (built calls).filter.isEmpty = true ↔
      ∀ text ∈ calls.flatMap Call.asked, bare text = [] := by
    rw [List.isEmpty_iff, List.eq_nil_iff_forall_not_mem]
    constructor
    · intro h text htext
      by_contra hbare
      exact h _ (mem_filter_built.mpr ⟨text, htext, hbare, rfl⟩)
    · intro h e he
      obtain ⟨text, htext, hbare, _⟩ := mem_filter_built.mp he
      exact hbare (h text htext)
  unfold acceptsFile ExtFilter.matchesName
  rw [Bool.and_eq_true, Bool.or_eq_true, hempty]
  refine and_congr_right fun _ => or_congr_right ?_
  cases hlast : path.getLast? with
  | none => simp
  | some name =>
      cases hextension : ExtFilter.extension name with
      | none => simp [hextension]
      | some extension =>
          simp only [Option.bind_some, hextension, List.any_eq_true, Option.some.injEq,
            exists_eq_left', exists_and_left]
          constructor
          · rintro ⟨e, he, heq⟩
            obtain ⟨text, htext, hbare, rfl⟩ := mem_filter_built.mp he
            exact ⟨text, htext, hbare, by rwa [eqIgnoreAsciiCase_lower] at heq⟩
          · rintro ⟨text, htext, hbare, heq⟩
            exact ⟨_, mem_filter_built.mpr ⟨text, htext, hbare, rfl⟩,
              by rwa [eqIgnoreAsciiCase_lower]⟩

end ListOptions

/-- Why a listing fails. -/
inductive ListError (ε : Type) where
  | io (error : ε)
  | notADirectory

/-- The entries of a directory. What stands there is known before the walk. -/
def listPath {ε : Type} (walk : WalkDir Name ε) (root : Except ε (Option (Listing Name ε)))
    (options : ListOptions) : Except (ListError ε) (List (List Name)) :=
  match root with
  | .error error => .error (.io error)
  | .ok none => .error .notADirectory
  | .ok (some listing) =>
      (Listing.collect options.includes (walk ⟨1, options.maxDepth, true⟩ listing) []).mapError .io

/-- A directory as it is read, no directory in it holding one name twice. -/
structure Directory (ε : Type) where
  listing : Listing Name ε
  distinct : listing.Distinct

section Listed

variable {ε : Type} {walk : WalkDir Name ε} {d d' : Directory ε} {options : ListOptions}
  {found found' : List (List Name)}

/-- What a listing finds, in order and without repeats. -/
theorem mem_of_listPath (hwalk : walk.Documented)
    (h : listPath walk (.ok (some d.listing)) options = .ok found) :
    found.Pairwise (· < ·) ∧
      ∀ path, path ∈ found ↔ ∃ isDir, Listing.Stands d.listing path isDir ∧
        path.length ≤ options.maxDepth ∧ options.includes path isDir = true := by
  obtain ⟨more, hmore, hsub, hmem⟩ := Listing.collect_eq (Attempt.mapError_eq_ok.mp h)
  rw [List.nil_append] at hmore
  subst hmore
  refine ⟨(hwalk.sorted rfl le_rfl d.distinct).sublist hsub, fun path => ?_⟩
  rw [hmem]
  refine exists_congr fun isDir => ?_
  rw [hwalk.entries]
  constructor
  · rintro ⟨⟨⟨rfl, _⟩ | hstands, hmin, hmax⟩, hinclude⟩
    · exact absurd hmin (Nat.not_succ_le_zero 0)
    · exact ⟨hstands, hmax, hinclude⟩
  · rintro ⟨hstands, hmax, hinclude⟩
    exact ⟨⟨.inr hstands, List.length_pos_of_ne_nil hstands.ne_nil, hmax⟩, hinclude⟩

/-- Two readings of one tree are listed alike. -/
theorem listPath_eq (hwalk : walk.Documented)
    (hsame : ∀ path isDir, Listing.Stands d'.listing path isDir ↔
      Listing.Stands d.listing path isDir)
    (h : listPath walk (.ok (some d.listing)) options = .ok found)
    (h' : listPath walk (.ok (some d'.listing)) options = .ok found') : found' = found := by
  obtain ⟨hsorted, hmem⟩ := mem_of_listPath hwalk h
  obtain ⟨hsorted', hmem'⟩ := mem_of_listPath hwalk h'
  have hperm : found'.Perm found := by
    refine (List.perm_ext_iff_of_nodup (hsorted'.imp ne_of_lt) (hsorted.imp ne_of_lt)).mpr ?_
    intro path
    rw [hmem, hmem']
    simp only [hsame]
  exact hperm.eq_of_pairwise (fun _ _ _ _ hlt hgt => absurd hgt (lt_asymm hlt)) hsorted' hsorted

/-- A listing fails with an error that the walk has met. -/
theorem unread_of_listPath (hwalk : walk.Documented) {e : ListError ε}
    (h : listPath walk (.ok (some d.listing)) options = .error e) :
    ∃ error, e = .io error ∧ Listing.Unread options.maxDepth d.listing error := by
  rw [listPath] at h
  cases hcollect :
      Listing.collect options.includes (walk ⟨1, options.maxDepth, true⟩ d.listing) [] with
  | error error =>
      rw [hcollect] at h
      cases h
      exact ⟨error, rfl, (hwalk.errors _ _ _).mp (Listing.collect_error hcollect)⟩
  | ok found =>
      rw [hcollect] at h
      cases h

/-- A listing fails just if a directory on the way could not be read. -/
theorem listPath_error_iff (hwalk : walk.Documented) :
    (∃ e, listPath walk (.ok (some d.listing)) options = .error e) ↔
      ∃ error, Listing.Unread options.maxDepth d.listing error := by
  constructor
  · rintro ⟨e, he⟩
    obtain ⟨error, _, hunread⟩ := unread_of_listPath hwalk he
    exact ⟨error, hunread⟩
  · rintro ⟨error, hunread⟩
    cases hlist : listPath walk (.ok (some d.listing)) options with
    | error e => exact ⟨e, rfl⟩
    | ok found =>
        have hnone := Listing.not_error_of_collect (Attempt.mapError_eq_ok.mp hlist) error
        exact absurd ((hwalk.errors _ _ _).mpr hunread) hnone

end Listed

/-- With `walkdir` walking as documented, a listing is whole, sorted and without repeats, whatever
the order in which directories are read, or it fails with what reading a directory on the way
failed with, which it does just if there is one. A file passes if no extension was asked for, or
if it has one that was, in whatever case. -/
theorem listed_whole {ε : Type} (walk : WalkDir Name ε) (hwalk : walk.Documented)
    (calls : List ListOptions.Call) (d : Directory ε) :
    (∀ found, listPath walk (.ok (some d.listing)) (.built calls) = .ok found →
      found.Pairwise (· < ·) ∧
      (∀ path, path ∈ found ↔ ∃ isDir, Listing.Stands d.listing path isDir ∧
        path.length ≤ (ListOptions.built calls).maxDepth ∧
        (ListOptions.built calls).includes path isDir = true) ∧
      ∀ d' : Directory ε, (∀ path isDir, Listing.Stands d'.listing path isDir ↔
          Listing.Stands d.listing path isDir) →
        ∀ found', listPath walk (.ok (some d'.listing)) (.built calls) = .ok found' →
          found' = found) ∧
    (∀ e, listPath walk (.ok (some d.listing)) (.built calls) = .error e →
      ∃ error, e = .io error ∧
        Listing.Unread (ListOptions.built calls).maxDepth d.listing error) ∧
    ((∃ e, listPath walk (.ok (some d.listing)) (.built calls) = .error e) ↔
      ∃ error, Listing.Unread (ListOptions.built calls).maxDepth d.listing error) ∧
    ∀ path, (ListOptions.built calls).acceptsFile path = true ↔
      (ListOptions.built calls).files = true ∧
      ((∀ text ∈ calls.flatMap ListOptions.Call.asked, ListOptions.bare text = []) ∨
        ∃ name extension, path.getLast? = some name ∧
          ExtFilter.extension name = some extension ∧
          ∃ text ∈ calls.flatMap ListOptions.Call.asked, ListOptions.bare text ≠ [] ∧
            Text.eqIgnoreAsciiCase (ListOptions.bare text) extension = true) := by
  refine ⟨fun found h => ?_, fun e => unread_of_listPath hwalk, listPath_error_iff hwalk,
    fun path => ListOptions.acceptsFile_built⟩
  obtain ⟨hsorted, hmem⟩ := mem_of_listPath hwalk h
  exact ⟨hsorted, hmem, fun d' hsame found' h' => listPath_eq hwalk hsame h h'⟩

/-! ## A walk that is as documented -/

namespace Listing

/-- Below a directory's directories is below that directory. -/
theorem Within.up {ν ε : Type} {listing below listing' : Listing ν ε} {name : ν}
    (h : Within below listing') (hbelow : .ok (name, .dir below) ∈ listing) :
    Within listing listing' := by
  induction h with
  | top => exact .inside .top hbelow
  | inside _ hmem ih => exact .inside ih hmem

/-- A directory is the topmost, or it is below one of the directories in that. -/
theorem Within.down {ν ε : Type} {listing listing' : Listing ν ε} (h : Within listing listing') :
    listing' = listing ∨
      ∃ name below, .ok (name, .dir below) ∈ listing ∧ Within below listing' := by
  induction h with
  | top => exact .inl rfl
  | inside _ hmem ih =>
      obtain rfl | ⟨name, below, hbelow, hwithin⟩ := ih
      · exact .inr ⟨_, _, hmem, .top⟩
      · exact .inr ⟨name, below, hbelow, .inside hwithin hmem⟩

variable {ν ε : Type} [LinearOrder ν]

/-- The place an entry is sorted to, errors first. -/
def place : Except ε (ν × ListedEntry ν ε) → WithBot ν
  | .error _ => ⊥
  | .ok (name, _) => name

def inOrder (listing : Listing ν ε) : Listing ν ε :=
  listing.insertionSort fun a b => place a ≤ place b

/-- What is met below the directory that a walk begins at. -/
def metBelow : ℕ → Listing ν ε → List (Except ε (List ν × Bool))
  | 0, _ => []
  | depth + 1, listing =>
      (inOrder listing).flatMap fun
        | .error error => [.error error]
        | .ok (name, .file) => [.ok ([name], false)]
        | .ok (name, .dir below) =>
            .ok ([name], true) :: (metBelow depth below).map fun item =>
              item.map fun (path, isDir) => (name :: path, isDir)

theorem mem_inOrder {listing : Listing ν ε} {entry : Except ε (ν × ListedEntry ν ε)} :
    entry ∈ inOrder listing ↔ entry ∈ listing :=
  List.mem_insertionSort _

theorem mem_metBelow_succ {depth : ℕ} {listing : Listing ν ε} {item : Except ε (List ν × Bool)} :
    item ∈ metBelow (depth + 1) listing ↔
      (∃ error, .error error ∈ listing ∧ item = .error error) ∨
      (∃ name, .ok (name, .file) ∈ listing ∧ item = .ok ([name], false)) ∨
      ∃ name below, .ok (name, .dir below) ∈ listing ∧
        (item = .ok ([name], true) ∨ ∃ inner ∈ metBelow depth below,
          item = inner.map fun (path, isDir) => (name :: path, isDir)) := by
  rw [metBelow, List.mem_flatMap]
  constructor
  · rintro ⟨entry, hentry, hitem⟩
    rw [mem_inOrder] at hentry
    obtain error | ⟨name, _ | below⟩ := entry
    · exact .inl ⟨error, hentry, List.mem_singleton.mp hitem⟩
    · exact .inr (.inl ⟨name, hentry, List.mem_singleton.mp hitem⟩)
    · obtain hself | hinner := List.mem_cons.mp hitem
      · exact .inr (.inr ⟨name, below, hentry, .inl hself⟩)
      · obtain ⟨inner, hinner, heq⟩ := List.mem_map.mp hinner
        exact .inr (.inr ⟨name, below, hentry, .inr ⟨inner, hinner, heq.symm⟩⟩)
  · rintro (⟨error, hentry, rfl⟩ | ⟨name, hentry, rfl⟩ | ⟨name, below, hentry, hitem⟩)
    · exact ⟨_, mem_inOrder.mpr hentry, List.mem_singleton_self _⟩
    · exact ⟨_, mem_inOrder.mpr hentry, List.mem_singleton_self _⟩
    · refine ⟨_, mem_inOrder.mpr hentry, ?_⟩
      obtain rfl | ⟨inner, hinner, rfl⟩ := hitem
      · exact List.mem_cons_self
      · exact List.mem_cons_of_mem _ (List.mem_map_of_mem hinner)

/-- A walk meets an error just if some directory that it reads fails so. -/
theorem error_mem_metBelow {depth : ℕ} {listing : Listing ν ε} {error : ε} :
    .error error ∈ metBelow depth listing ↔ Unread depth listing error := by
  induction depth generalizing listing with
  | zero =>
      constructor
      · exact fun h => absurd h List.not_mem_nil
      · rintro ⟨⟩
  | succ depth ih =>
      rw [mem_metBelow_succ]
      constructor
      · rintro (⟨_, hentry, heq⟩ | ⟨_, _, ⟨⟩⟩ | ⟨name, below, hentry, ⟨⟨⟩⟩ | ⟨inner, hinner, heq⟩⟩)
        · cases heq
          exact .here hentry
        · cases inner with
          | error error' =>
              cases heq
              exact .inside hentry (ih.mp hinner)
          | ok found => cases heq
      · rintro (hentry | ⟨hentry, herror⟩)
        · exact .inl ⟨error, hentry, rfl⟩
        · exact .inr (.inr ⟨_, _, hentry, .inr ⟨_, ih.mpr herror, rfl⟩⟩)

/-- A walk meets every entry that is not too deep, and nothing else. -/
theorem ok_mem_metBelow {depth : ℕ} {listing : Listing ν ε} {path : List ν} {isDir : Bool} :
    .ok (path, isDir) ∈ metBelow depth listing ↔
      Stands listing path isDir ∧ path.length ≤ depth := by
  induction depth generalizing listing path with
  | zero =>
      constructor
      · exact fun h => absurd h List.not_mem_nil
      · rintro ⟨hstands, hlength⟩
        cases hstands <;> exact absurd hlength (Nat.not_succ_le_zero _)
  | succ depth ih =>
      rw [mem_metBelow_succ]
      constructor
      · rintro (⟨_, _, ⟨⟩⟩ | ⟨name, hentry, heq⟩ |
          ⟨name, below, hentry, heq | ⟨inner, hinner, heq⟩⟩)
        · cases heq
          exact ⟨.file hentry, by simp⟩
        · cases heq
          exact ⟨.dir hentry, by simp⟩
        · cases inner with
          | error error => cases heq
          | ok found =>
              cases heq
              obtain ⟨hstands, hlength⟩ := ih.mp hinner
              exact ⟨.inside hentry hstands, Nat.succ_le_succ hlength⟩
      · rintro ⟨hentry | hentry | ⟨hentry, hpath⟩, hlength⟩
        · exact .inr (.inl ⟨_, hentry, rfl⟩)
        · exact .inr (.inr ⟨_, _, hentry, .inl rfl⟩)
        · exact .inr (.inr ⟨_, _, hentry, .inr
            ⟨_, ih.mpr ⟨hpath, Nat.le_of_succ_le_succ hlength⟩, rfl⟩⟩)

theorem pairwise_names_sort {listing : Listing ν ε} (h : (names listing).Nodup) :
    (names (inOrder listing)).Pairwise (· < ·) := by
  have hnodup : (names (inOrder listing)).Nodup :=
    ((List.perm_insertionSort _ listing).filterMap _).nodup_iff.mpr h
  have hle : (names (inOrder listing)).Pairwise (· ≤ ·) := by
    refine List.pairwise_filterMap.mpr ?_
    refine (List.pairwise_insertionSort (fun a b => place a ≤ place b) listing).imp ?_
    intro a b hab x hx y hy
    obtain error | ⟨name, entry⟩ := a
    · cases hx
    obtain error | ⟨name', entry'⟩ := b
    · cases hy
    cases hx
    cases hy
    exact WithBot.coe_le_coe.mp hab
  exact (hle.and hnodup).imp fun h => lt_of_le_of_ne h.1 h.2

/-- What a walk meets at one entry of a directory. -/
def block (depth : ℕ) : Except ε (ν × ListedEntry ν ε) → List (Except ε (List ν × Bool))
  | .error error => [.error error]
  | .ok (name, .file) => [.ok ([name], false)]
  | .ok (name, .dir below) =>
      .ok ([name], true) :: (metBelow depth below).map fun item =>
        item.map fun (path, isDir) => (name :: path, isDir)

theorem paths_metBelow_succ (depth : ℕ) (listing : Listing ν ε) :
    paths (metBelow (depth + 1) listing) =
      (inOrder listing).flatMap fun entry => paths (block depth entry) := by
  rw [metBelow, paths, List.filterMap_flatMap]
  refine List.flatMap_congr fun entry _ => ?_
  obtain error | ⟨name, _ | below⟩ := entry <;> rfl

theorem paths_block_dir (depth : ℕ) (name : ν) (below : Listing ν ε) :
    paths (block depth (.ok (name, .dir below))) =
      [name] :: (paths (metBelow depth below)).map (name :: ·) := by
  change [name] :: paths (List.map _ (metBelow depth below)) = _
  unfold paths
  rw [List.filterMap_map, List.map_filterMap]
  congr 2
  funext item
  obtain error | found := item <;> rfl

theorem exists_of_mem_block {depth : ℕ} {entry : Except ε (ν × ListedEntry ν ε)} {path : List ν}
    (h : path ∈ paths (block depth entry)) :
    ∃ name kind rest, entry = .ok (name, kind) ∧ path = name :: rest := by
  obtain error | ⟨name, _ | below⟩ := entry
  · exact absurd h List.not_mem_nil
  · exact ⟨name, _, [], rfl, List.mem_singleton.mp h⟩
  · rw [paths_block_dir] at h
    obtain rfl | h := List.mem_cons.mp h
    · exact ⟨name, _, [], rfl, rfl⟩
    · obtain ⟨rest, _, rfl⟩ := List.mem_map.mp h
      exact ⟨name, _, rest, rfl, rfl⟩

theorem ne_nil_of_mem_metBelow {depth : ℕ} {listing : Listing ν ε} {path : List ν}
    (h : path ∈ paths (metBelow depth listing)) : path ≠ [] := by
  obtain ⟨isDir, hitem⟩ := mem_paths.mp h
  cases (ok_mem_metBelow.mp hitem).1 <;> exact List.cons_ne_nil _ _

/-- A directory is met before what is in it. -/
theorem pairwise_metBelow {depth : ℕ} {listing : Listing ν ε}
    (h : listing.Distinct) :
    (paths (metBelow depth listing)).Pairwise (· < ·) := by
  induction depth generalizing listing with
  | zero => exact List.Pairwise.nil
  | succ depth ih =>
      rw [paths_metBelow_succ]
      refine List.pairwise_flatMap.mpr ⟨?_, ?_⟩
      · intro entry hentry
        obtain error | ⟨name, _ | below⟩ := entry
        · exact List.Pairwise.nil
        · exact List.pairwise_singleton _ _
        · have hmem := mem_inOrder.mp hentry
          have hbelow := ih fun listing' h' => h listing' (h'.up hmem)
          rw [paths_block_dir, List.pairwise_cons, List.pairwise_map]
          constructor
          · intro path hpath
            obtain ⟨rest, hrest, rfl⟩ := List.mem_map.mp hpath
            refine List.cons_lt_cons_iff.mpr (.inr ⟨rfl, ?_⟩)
            obtain ⟨first, rest, rfl⟩ := List.exists_cons_of_ne_nil (ne_nil_of_mem_metBelow hrest)
            exact List.nil_lt_cons _ _
          · exact hbelow.imp fun hlt => List.cons_lt_cons_iff.mpr (.inr ⟨rfl, hlt⟩)
      · have hnames := List.pairwise_filterMap.mp (pairwise_names_sort (h listing .top))
        refine hnames.imp ?_
        intro a b hab x hx y hy
        obtain ⟨name, kind, rest, rfl, rfl⟩ := exists_of_mem_block hx
        obtain ⟨name', kind', rest', rfl, rfl⟩ := exists_of_mem_block hy
        exact List.cons_lt_cons_iff.mpr (.inl (hab name rfl name' rfl))

/-- Whether a walk gives what it has met. -/
def deepEnough (options : WalkOptions) : Except ε (List ν × Bool) → Bool
  | .error _ => true
  | .ok (path, _) => options.minDepth ≤ path.length

end Listing

/-- It sorts in any case. -/
def sortedWalk {ν ε : Type} [LinearOrder ν] : WalkDir ν ε := fun options listing =>
  (.ok ([], true) :: Listing.metBelow options.maxDepth listing).filter (Listing.deepEnough options)

theorem sortedWalk_sorted {ν ε : Type} [LinearOrder ν] (options : WalkOptions)
    {listing : Listing ν ε} (h : listing.Distinct) :
    (Listing.paths (sortedWalk options listing)).Pairwise (· < ·) := by
  have hall : (Listing.paths (.ok ([], true) ::
      Listing.metBelow options.maxDepth listing)).Pairwise (· < ·) := by
    refine List.pairwise_cons.mpr ⟨fun path hpath => ?_, Listing.pairwise_metBelow h⟩
    obtain ⟨first, rest, rfl⟩ :=
      List.exists_cons_of_ne_nil (Listing.ne_nil_of_mem_metBelow hpath)
    exact List.nil_lt_cons _ _
  exact hall.sublist (List.filter_sublist.filterMap _)

theorem sortedWalk_documented {ν ε : Type} [LinearOrder ν] :
    (sortedWalk : WalkDir ν ε).Documented where
  entries := fun options listing path isDir => by
    rw [sortedWalk, List.mem_filter, List.mem_cons, Listing.ok_mem_metBelow, Listing.deepEnough,
      decide_eq_true_iff, Except.ok.injEq, Prod.mk.injEq]
    constructor
    · rintro ⟨⟨rfl, hdir⟩ | ⟨hstands, hmax⟩, hmin⟩
      · exact ⟨.inl ⟨rfl, hdir⟩, hmin, Nat.zero_le _⟩
      · exact ⟨.inr hstands, hmin, hmax⟩
    · rintro ⟨⟨rfl, hdir⟩ | hstands, hmin, hmax⟩
      · exact ⟨.inl ⟨rfl, hdir⟩, hmin⟩
      · exact ⟨.inr ⟨hstands, hmax⟩, hmin⟩
  errors := fun options listing error => by
    rw [sortedWalk, List.mem_filter, List.mem_cons, Listing.error_mem_metBelow]
    constructor
    · rintro ⟨hroot | hunread, _⟩
      · cases hroot
      · exact hunread
    · exact fun hunread => ⟨.inr hunread, rfl⟩
  depthFirst := fun options _ hdistinct => .of_sorted (sortedWalk_sorted options hdistinct)
  siblings := fun options _ _ hdistinct => .of_sorted (sortedWalk_sorted options hdistinct)

/-- A directory of pictures, as it is read once and another time. -/
def pictures : Listing Name String :=
  [.ok ("b.JPG".toList, .file), .ok ("a".toList, .dir [.ok ("c.jpg".toList, .file)]),
    .ok ("b.txt".toList, .file)]

def picturesAgain : Listing Name String :=
  [.ok ("b.txt".toList, .file), .ok ("b.JPG".toList, .file),
    .ok ("a".toList, .dir [.ok ("c.jpg".toList, .file)])]

theorem distinct_pictures : pictures.Distinct := by
  intro listing hwithin
  obtain rfl | ⟨name, below, hmem, hinside⟩ := hwithin.down
  · decide
  · have hbelow : name = ['a'] ∧ below = [.ok ("c.jpg".toList, .file)] := by
      simpa [pictures] using hmem
    obtain ⟨_, rfl⟩ := hbelow
    obtain rfl | ⟨name', below', hmem', _⟩ := hinside.down
    · exact List.nodup_singleton _
    · simp at hmem'

/-- Whichever way it is read, the pictures are found in their order. -/
theorem listed_whole_pictures : ∃ found,
    found.Pairwise (· < ·) ∧
    listPath sortedWalk (.ok (some pictures))
        (.built [.recursive true, .extension ".jpg".toList]) = .ok found ∧
    listPath sortedWalk (.ok (some picturesAgain))
        (.built [.recursive true, .extension ".jpg".toList]) = .ok found := by
  have h := (listed_whole sortedWalk sortedWalk_documented
    [.recursive true, .extension ".jpg".toList] ⟨pictures, distinct_pictures⟩).1 _ rfl
  exact ⟨[["a".toList, "c.jpg".toList], ["b.JPG".toList]], h.1, rfl, rfl⟩

end Fs

end RustSak
