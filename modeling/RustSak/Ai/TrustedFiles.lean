import RustSak.Ai.Files
import Mathlib.Data.List.Chain

/-!
# Trusted local files

An install that uses the files of its folder as they are, by their stamp. Its folder
holds the installer's own entries beside the others, each with the time it was modified,
before 1970 also. Whether the record can be written, and what an install of listed files
does, comes from outside.
-/

namespace RustSak

namespace Ai

namespace Trusting

open Library FileInstall

variable {β : Type}

/-- An entry of the folder, with the nanoseconds from 1970 to when it was modified. -/
inductive Entry (β : Type) where
  | file (bytes : List β) (time : Option ℤ)
  | link (size : ℕ) (time : Option ℤ)
  | folder (size : ℕ) (time : Option ℤ)

/-- A time before 1970 is no duration since. -/
def sinceEpoch (time : Option ℤ) : Option ℕ := time.bind Int.toNat?

namespace Entry

def time : Entry β → Option ℤ
  | file _ time => time
  | link _ time => time
  | folder _ time => time

/-- What a stamp and a record see of it. -/
def item : Entry β → Item β
  | file bytes time => .file bytes (sinceEpoch time)
  | link size time => .link size (sinceEpoch time)
  | folder size time => .folder size (sinceEpoch time)

def size (entry : Entry β) : ℕ := entry.item.size

def isFile (entry : Entry β) : Bool := entry.item.isFile

@[simp] theorem modified_item (entry : Entry β) :
    entry.item.modified = sinceEpoch entry.time := by
  cases entry <;> rfl

end Entry

/-- The folder, with what `.installed` in it reads as, whether `.installed.tmp` in it is
a link, symbolic or hard, and the names in the derived folders, where those exist. -/
structure Folder (β : Type) where
  entries : Table String (Entry β)
  plain : ∀ name ∈ entries, PlainName name
  record : Option Record
  linked : Bool
  derived : List (Option (List String))

/-- What comes from outside during a run: the failure of clearing or recording, if it
comes to that, with what it leaves, the entry that a record is written as, what a record
written through a link leaves, and what an install does. -/
structure World (β : Type) where
  fails : Option (Failure × Folder β)
  written : Entry β
  through : Record → Folder β → Folder β
  install : Job → Folder β → Folder β × Except Failure Bool

namespace Folder

def items (f : Folder β) : Items β := f.entries.map Entry.item

/-- As the steps of the installer see it, without what it has no part in. -/
def state (f : Folder β) : State β := ⟨f.items, f.record, ∅, [], [], .idle⟩

/-- Every derived folder that exists emptied. -/
def emptied (f : Folder β) : List (Option (List String)) :=
  f.derived.map (Option.map fun _ => [])

/-- The record deleted, the derived folders emptied and the new record written beside
and renamed into place. -/
def recorded (w : World β) (record : Record) (f : Folder β) : Folder β :=
  if f.linked then w.through record { f with derived := f.emptied }
  else
    { entries := (f.entries.erase PENDING).insert MARKER w.written
      plain := by
        intro name hname
        rcases (AList.mem_insert _).mp hname with rfl | hname
        · decide
        · exact f.plain name ((AList.mem_erase).mp hname).2
      record := some record
      linked := false
      derived := f.emptied }

/-- Every one of these names is a regular file in the folder. -/
def Holds (f : Folder β) (names : List String) : Prop :=
  ∀ name ∈ names, (f.entries.lookup name).any Entry.isFile = true

end Folder

section Code

variable (h : Hashes β) (w : World β)

/-- The install of files that are not used as they are. -/
def published (files : Files) (listing : Option Listing) (f : Folder β) :
    Folder β × Except Failure Outcome :=
  let intact := f.record.bind (Record.intact f.items)
  match listing with
  | none => (f, if intact.isSome then .ok .offline else .error .unlisted)
  | some listing =>
      match wanted files.select listing with
      | .error failure => (f, .error failure)
      | .ok wanted =>
          if intact.any (fun recorded => recorded.length == wanted.length &&
              wanted.all (recordedAs recorded)) then
            (f, .ok .current)
          else
            let (f', done) := w.install ⟨wanted, f.record⟩ f
            (f', done.map fun downloaded => if downloaded then .installed else .adopted)

/-- A run, under the folder's lock. -/
def run (files : Files) (listing : Option Listing) (f : Folder β) :
    Folder β × Except Failure Outcome :=
  match listing.filter fun listing => listing.folder != files.folder with
  | some other => (f, .error (.wrongListing other.folder files.folder))
  | none =>
      match f.state.trustedStamp h ⟨files, listing⟩ with
      | none => published w files listing f
      | some stamp =>
          if f.record = some (.trusted stamp) then (f, .ok .trusted)
          else
            match w.fails with
            | some (failure, left) => (left, .error failure)
            | none => (f.recorded w (.trusted stamp), .ok .trusted)

end Code

/-- An install of these files by name that trusts what is there. -/
def trusting (name folder : String) (chosen : List String) : Files where
  name := name
  folder := folder
  select := .names chosen
  trust := .localFiles

section Stamp

/-- What a stamp tells of the file of a name. -/
def described (items : Items β) (name : String) : String :=
  match items.lookup name with
  | some item => toString item.size ++ "\x00" ++ item.modified.elim "?" toString
  | none => "absent"

/-- One name's part of the text that a stamp is the hash of. -/
def part (describe : String → String) (name : String) : List Char :=
  '\x00' :: (name.toList ++ '\x00' :: (describe name).toList)

theorem stampText_eq (items : Items β) (names : List String) :
    (stampText items names).toList =
      (names.insertionSort (· ≤ ·)).flatMap (part (described items)) := by
  have hfold : ∀ (names : List String) (text : String),
      (names.foldl (fun text name =>
        text ++ "\x00" ++ name ++ "\x00" ++ described items name) text).toList =
        text.toList ++ names.flatMap (part (described items)) := by
    intro names
    induction names with
    | nil => simp
    | cons name names ih =>
        intro text
        rw [List.foldl_cons, ih]
        simp [part]
  exact hfold _ ""

/-- The sizes and the times can be read off the text. -/
theorem described_inj {items items' : Items β} {name : String} {item item' : Item β}
    {rest rest' : List Char} (hitem : items.lookup name = some item)
    (hitem' : items'.lookup name = some item')
    (hrest : ∀ c ∈ rest.head?, c = '\x00') (hrest' : ∀ c ∈ rest'.head?, c = '\x00')
    (h : part (described items) name ++ rest = part (described items') name ++ rest') :
    item.size = item'.size ∧ item.modified = item'.modified ∧ rest = rest' := by
  have hdigits : ∀ n : ℕ, '\x00' ∉ (toString n).toList := by
    intro n hmem
    exact absurd (Decimal.isDigit_of_mem_toString hmem) (by decide)
  have hknown : ∀ n : ℕ, (toString n).toList ≠ ("?" : String).toList := by
    intro n hn
    have hmem : '?' ∈ (toString n).toList := by
      rw [hn]
      decide
    exact absurd (Decimal.isDigit_of_mem_toString hmem) (by decide)
  have htime : ∀ time : Option ℕ, '\x00' ∉ (time.elim "?" toString).toList := by
    intro time
    cases time with
    | none => decide
    | some n => exact hdigits n
  have hmark : ∀ text : List Char, ∀ c ∈ ('\x00' :: text).head?, c = '\x00' := by
    simp
  simp only [part, described, hitem, hitem', String.toList_append, List.cons_append,
    List.append_assoc, List.cons.injEq, true_and, List.append_cancel_left_eq] at h
  obtain ⟨hsize, h⟩ :=
    Text.append_inj_of_mark (hdigits _) (hdigits _) (hmark _) (hmark _) h
  obtain ⟨hmodified, hrest⟩ :=
    Text.append_inj_of_mark (htime _) (htime _) hrest hrest' (List.cons.inj h).2
  refine ⟨Decimal.toString_inj hsize, ?_, hrest⟩
  cases hm : item.modified with
  | none =>
      cases hm' : item'.modified with
      | none => rfl
      | some n =>
          rw [hm, hm'] at hmodified
          exact absurd hmodified.symm (hknown n)
  | some n =>
      cases hm' : item'.modified with
      | none =>
          rw [hm, hm'] at hmodified
          exact absurd hmodified (hknown n)
      | some n' =>
          rw [hm, hm'] at hmodified
          rw [Decimal.toString_inj hmodified]

theorem part_mark (describe : String → String) (names : List String) :
    ∀ c ∈ (names.flatMap (part describe)).head?, c = '\x00' := by
  cases names with
  | nil => simp
  | cons name names => simp [part]

/-- Equal texts over the same names, all there, are of equal sizes and times. -/
theorem parts_inj {items items' : Items β} {names : List String}
    (hitems : ∀ name ∈ names, (items.lookup name).isSome)
    (hitems' : ∀ name ∈ names, (items'.lookup name).isSome)
    (h : names.flatMap (part (described items)) =
      names.flatMap (part (described items'))) :
    ∀ name ∈ names, (items.lookup name).map Item.size =
        (items'.lookup name).map Item.size ∧
      (items.lookup name).map Item.modified =
        (items'.lookup name).map Item.modified := by
  induction names with
  | nil => simp
  | cons name names ih =>
      obtain ⟨hname, hnames⟩ := List.forall_mem_cons.mp hitems
      obtain ⟨hname', hnames'⟩ := List.forall_mem_cons.mp hitems'
      obtain ⟨item, hitem⟩ := Option.isSome_iff_exists.mp hname
      obtain ⟨item', hitem'⟩ := Option.isSome_iff_exists.mp hname'
      obtain ⟨hsize, hmodified, hrest⟩ :=
        described_inj hitem hitem' (part_mark _ _) (part_mark _ _) h
      refine List.forall_mem_cons.mpr ⟨?_, ih hnames hnames' hrest⟩
      rw [hitem, hitem', Option.map_some, Option.map_some, Option.map_some,
        Option.map_some, hsize, hmodified]
      exact ⟨rfl, rfl⟩

/-- The text depends on the sizes and times of the files alone. -/
theorem stampText_congr {items items' : Items β} {names : List String}
    (h : ∀ name ∈ names, items.lookup name = items'.lookup name) :
    stampText items names = stampText items' names := by
  apply String.toList_inj.mp
  rw [stampText_eq, stampText_eq]
  refine List.flatMap_congr fun name hname => ?_
  have hlookup := h name ((List.mem_insertionSort _).mp hname)
  simp only [part, described, hlookup]

theorem stampText_inj {items items' : Items β} {names : List String}
    (hitems : ∀ name ∈ names, (items.lookup name).isSome)
    (hitems' : ∀ name ∈ names, (items'.lookup name).isSome)
    (h : stampText items names = stampText items' names) :
    ∀ name ∈ names, (items.lookup name).map Item.size =
        (items'.lookup name).map Item.size ∧
      (items.lookup name).map Item.modified =
        (items'.lookup name).map Item.modified := by
  have hparts := congrArg String.toList h
  rw [stampText_eq, stampText_eq] at hparts
  intro name hname
  refine parts_inj (fun name hname => ?_) (fun name hname => ?_) hparts name
    ((List.mem_insertionSort _).mpr hname)
  · exact hitems name ((List.mem_insertionSort _).mp hname)
  · exact hitems' name ((List.mem_insertionSort _).mp hname)

end Stamp

section Runs

variable (h : Hashes β)

/-- The chosen names that are stamped. -/
def kept (chosen : List String) : List String := chosen.filter single

def Folder.stamp (f : Folder β) (chosen : List String) : String :=
  f.state.stampOf h (kept chosen)

/-- The listing, if there is one, is of this folder, and the record holds the stamp or
can be replaced. -/
def Served (w : World β) (folder : String) (chosen : List String)
    (listing : Option Listing) (f : Folder β) : Prop :=
  (∀ other ∈ listing, other.folder = folder) ∧
    (w.fails = none ∨ f.record = some (.trusted (f.stamp h chosen)))

/-- No run of a folder with every chosen file is turned away, and none drops a name of
its choice and trusts the rest. -/
def Meets (w : World β) (folder : String) (chosen : List String)
    (listing : Option Listing) (f : Folder β) : Prop :=
  (f.Holds chosen → Served h w folder chosen listing f) ∧
    (Served h w folder chosen listing f → kept chosen ≠ [] → f.Holds (kept chosen) →
      ∀ name ∈ chosen, single name = true)

/-- A run in a sequence, with what it finds. -/
structure Visit (β : Type) where
  found : Folder β
  listing : Option Listing
  world : World β

namespace Visit

variable (files : Files) (v : Visit β)

def left : Folder β := (run h v.world files v.listing v.found).1

def result : Except Failure Outcome := (run h v.world files v.listing v.found).2

end Visit

/-- Only the installer writes records. -/
def Follows (files : Files) (v v' : Visit β) : Prop :=
  v'.found.record = (v.left h files).record

/-- The stamps tell texts apart that differ, and times before 1970 do not hide a
change. -/
def Discerned (chosen : List String) (v v' : Visit β) : Prop :=
  (v.found.stamp h chosen = v'.found.stamp h chosen →
    stampText v.found.items (kept chosen) = stampText v'.found.items (kept chosen)) ∧
  ∀ name ∈ chosen, ∀ entry ∈ v.found.entries.lookup name,
    ∀ entry' ∈ v'.found.entries.lookup name,
      sinceEpoch entry.time = sinceEpoch entry'.time → entry.time = entry'.time

/-- The size or the time of the file differs. -/
def Edited (f f' : Folder β) (name : String) : Prop :=
  ∃ entry ∈ f.entries.lookup name, ∃ entry' ∈ f'.entries.lookup name,
    entry.size ≠ entry'.size ∨ entry.time ≠ entry'.time

/-- The later run leaves the derived folders alone if no chosen file has been touched,
and empties them if one has another size or time. -/
def Derives (files : Files) (chosen : List String) (v v' : Visit β) : Prop :=
  ((∀ name ∈ chosen, v'.found.entries.lookup name =
      (v.left h files).entries.lookup name) →
    (v'.left h files).derived = v'.found.derived) ∧
  ((∃ name ∈ chosen, Edited (v.left h files) v'.found name) →
    (v'.left h files).derived = v'.found.emptied)

variable {h} {w : World β} {name folder : String} {chosen : List String}
  {listing : Option Listing} {f : Folder β}

@[simp] theorem Folder.lookup_items (f : Folder β) (name : String) :
    f.items.lookup name = (f.entries.lookup name).map Entry.item :=
  Table.lookup_map _ _ _

/-- What is in the folder has a name of one component. -/
theorem Folder.single_of_lookup {entry : Entry β}
    (hentry : f.entries.lookup name = some entry) : single name = true := by
  have hplain : PlainName name :=
    f.plain name (AList.lookup_isSome.mp (hentry ▸ rfl))
  have htext : Path.text [name] = name := by
    simp [Path.text]
  have hrelative : relative (Path.text [name]) = some [name] :=
    relative_text (by simp) (by simpa using hplain)
  rw [htext] at hrelative
  rw [single, hrelative]
  exact rfl

theorem Folder.Holds.single (hholds : f.Holds chosen) :
    ∀ name ∈ chosen, Ai.single name = true := by
  intro name hname
  obtain ⟨entry, hentry, -⟩ := (Option.any_eq_true _ _).mp (hholds name hname)
  exact single_of_lookup hentry

theorem kept_eq_self (hsingle : ∀ name ∈ chosen, single name = true) :
    kept chosen = chosen :=
  List.filter_eq_self.mpr hsingle

theorem trustedStamp_eq_some {stamp : String} :
    f.state.trustedStamp h ⟨trusting name folder chosen, listing⟩ = some stamp ↔
      kept chosen ≠ [] ∧ f.Holds (kept chosen) ∧ stamp = f.stamp h chosen := by
  have hholds : (kept chosen).all (fun name =>
      (f.items.lookup name).any Item.isFile) = true ↔ f.Holds (kept chosen) := by
    rw [List.all_eq_true]
    refine forall₂_congr fun name _ => ?_
    rw [Folder.lookup_items, Option.any_map]
    exact Iff.rfl
  constructor
  · intro hsome
    unfold State.trustedStamp at hsome
    dsimp only at hsome
    split at hsome
    · rename_i hall
      exact ⟨hall.2.1, hholds.mp hall.2.2, (Option.some.inj hsome).symm⟩
    · cases hsome
  · rintro ⟨hne, hkept, rfl⟩
    exact if_pos ⟨rfl, hne, hholds.mpr hkept⟩

/-- An install of other files is never called trusted. -/
theorem published_ne_trusted (files : Files) :
    (published w files listing f).2 ≠ .ok .trusted := by
  intro htrusted
  unfold published at htrusted
  dsimp only at htrusted
  split at htrusted
  · split at htrusted
    · cases htrusted
    · cases htrusted
  · split at htrusted
    · cases htrusted
    · split at htrusted
      · cases htrusted
      · cases hdone : (w.install ⟨_, f.record⟩ f).2 with
        | error failure =>
            rw [hdone] at htrusted
            cases htrusted
        | ok downloaded =>
            rw [hdone] at htrusted
            cases downloaded <;> cases htrusted

/-- A run that finds every chosen name that it has kept. -/
theorem run_eq (hlisting : ∀ other ∈ listing, other.folder = folder)
    (hne : kept chosen ≠ []) (hkept : f.Holds (kept chosen)) :
    run h w (trusting name folder chosen) listing f =
      if f.record = some (.trusted (f.stamp h chosen)) then (f, .ok .trusted)
      else w.fails.elim (f.recorded w (.trusted (f.stamp h chosen)), .ok .trusted)
        fun failed => (failed.2, .error failed.1) := by
  have hnone : listing.filter (fun listing =>
      listing.folder != (trusting name folder chosen).folder) = none := by
    rw [Option.filter_eq_none_iff]
    intro other hother
    simpa [trusting] using hlisting other hother
  have hstamp : f.state.trustedStamp h ⟨trusting name folder chosen, listing⟩ =
      some (f.stamp h chosen) := trustedStamp_eq_some.mpr ⟨hne, hkept, rfl⟩
  unfold run
  rw [hnone]
  dsimp only
  rw [hstamp]
  dsimp only
  cases w.fails with
  | none => rfl
  | some failed => rfl

/-- When a run trusts the files of its folder. -/
theorem run_trusted :
    (run h w (trusting name folder chosen) listing f).2 = .ok .trusted ↔
      kept chosen ≠ [] ∧ f.Holds (kept chosen) ∧
        Served h w folder chosen listing f := by
  constructor
  · intro htrusted
    unfold run at htrusted
    split at htrusted
    · cases htrusted
    · rename_i hnone
      have hlisting : ∀ other ∈ listing, other.folder = folder := by
        intro other hother
        simpa [trusting] using Option.filter_eq_none_iff.mp hnone other hother
      split at htrusted
      · exact absurd htrusted (published_ne_trusted _)
      · rename_i stamp hstamp
        obtain ⟨hne, hkept, rfl⟩ := trustedStamp_eq_some.mp hstamp
        refine ⟨hne, hkept, hlisting, ?_⟩
        split at htrusted
        · rename_i hrecord
          exact .inr hrecord
        · split at htrusted
          · cases htrusted
          · rename_i hfails
            exact .inl hfails
  · rintro ⟨hne, hkept, hlisting, hserved⟩
    rw [run_eq hlisting hne hkept]
    split
    · rfl
    · rename_i hother
      rw [hserved.resolve_right hother]
      rfl

/-- What a run that trusts its files leaves. -/
theorem run_left
    (htrusted : (run h w (trusting name folder chosen) listing f).2 = .ok .trusted) :
    (run h w (trusting name folder chosen) listing f).1 =
      if f.record = some (.trusted (f.stamp h chosen)) then f
      else f.recorded w (.trusted (f.stamp h chosen)) := by
  obtain ⟨hne, hkept, hlisting, hserved⟩ := run_trusted.mp htrusted
  rw [run_eq hlisting hne hkept]
  split
  · rfl
  · rename_i hother
    rw [hserved.resolve_right hother]
    rfl

/-- A run trusts its files just when they are all there, exactly where it meets the
condition. -/
theorem trusted_iff_holds (hchosen : chosen ≠ []) :
    ((run h w (trusting name folder chosen) listing f).2 = .ok .trusted ↔
      f.Holds chosen) ↔ Meets h w folder chosen listing f := by
  rw [run_trusted]
  constructor
  · intro hiff
    refine ⟨fun hholds => (hiff.mpr hholds).2.2, fun hserved hne hkept => ?_⟩
    exact (hiff.mp ⟨hne, hkept, hserved⟩).single
  · rintro ⟨hserves, hdrops⟩
    constructor
    · rintro ⟨hne, hkept, hserved⟩
      rwa [kept_eq_self (hdrops hserved hne hkept)] at hkept
    · intro hholds
      rw [kept_eq_self hholds.single]
      exact ⟨hchosen, hholds, hserves hholds⟩

/-- What recording leaves of a file that is not the installer's own. -/
theorem Folder.lookup_recorded {record : Record} (hlinked : f.linked = false)
    (hmarker : name ≠ MARKER) :
    (f.recorded w record).entries.lookup name =
      if name = PENDING then none else f.entries.lookup name := by
  rw [Folder.recorded, hlinked]
  change ((f.entries.erase PENDING).insert MARKER w.written).lookup name = _
  rw [Table.lookup_insert, if_neg hmarker, Table.lookup_erase]

theorem Folder.record_recorded {record : Record} (hlinked : f.linked = false) :
    (f.recorded w record).record = some record := by
  rw [Folder.recorded, hlinked]
  exact rfl

theorem Folder.derived_recorded {record : Record} (hlinked : f.linked = false) :
    (f.recorded w record).derived = f.emptied := by
  rw [Folder.recorded, hlinked]
  exact rfl

variable {v v' : Visit β}

/-- The record that a run leaves is of the files that it found. -/
theorem Visit.record_left (hlinked : v.found.linked = false)
    (htrusted : v.result h (trusting name folder chosen) = .ok .trusted) :
    (v.left h (trusting name folder chosen)).record =
      some (.trusted (v.found.stamp h chosen)) := by
  rw [Visit.left, run_left htrusted]
  split
  · assumption
  · exact Folder.record_recorded hlinked

/-- A file that a run leaves is as it found it, if it is not the record. -/
theorem Visit.lookup_left (hlinked : v.found.linked = false)
    (htrusted : v.result h (trusting name folder chosen) = .ok .trusted)
    {file : String} {entry : Entry β} (hmarker : file ≠ MARKER)
    (hentry : (v.left h (trusting name folder chosen)).entries.lookup file =
      some entry) : v.found.entries.lookup file = some entry := by
  rw [Visit.left, run_left htrusted] at hentry
  split at hentry
  · exact hentry
  · rw [Folder.lookup_recorded hlinked hmarker] at hentry
    split at hentry
    · cases hentry
    · exact hentry

theorem Folder.Holds.isSome (hholds : f.Holds chosen) (hname : name ∈ chosen) :
    (f.entries.lookup name).isSome := by
  obtain ⟨entry, hentry, -⟩ := (Option.any_eq_true _ _).mp (hholds name hname)
  rw [hentry]
  exact rfl

/-- Files that are as they were have the same stamp. -/
theorem stamp_eq (hmarker : MARKER ∉ chosen) (hlinked : v.found.linked = false)
    (htrusted : v.result h (trusting name folder chosen) = .ok .trusted)
    (hkept : v'.found.Holds (kept chosen))
    (hsame : ∀ file ∈ chosen, v'.found.entries.lookup file =
      (v.left h (trusting name folder chosen)).entries.lookup file) :
    v'.found.stamp h chosen = v.found.stamp h chosen := by
  refine congrArg h.sha256Text (stampText_congr fun file hfile => ?_)
  have hchosen := List.mem_of_mem_filter hfile
  obtain ⟨entry, hentry⟩ := Option.isSome_iff_exists.mp (hkept.isSome hfile)
  have hleft := hentry
  rw [hsame file hchosen] at hleft
  have hfound := v.lookup_left hlinked htrusted
    (fun heq => hmarker (heq ▸ hchosen)) hleft
  change v'.found.items.lookup file = v.found.items.lookup file
  rw [Folder.lookup_items, Folder.lookup_items, hentry, hfound]

/-- Files of which one has another size or time have another stamp. -/
theorem stamp_ne (hmarker : MARKER ∉ chosen) (hlinked : v.found.linked = false)
    (htrusted : v.result h (trusting name folder chosen) = .ok .trusted)
    (hkept : v.found.Holds (kept chosen)) (hkept' : v'.found.Holds (kept chosen))
    (hdiscerned : Discerned h chosen v v') {file : String} (hfile : file ∈ chosen)
    (hedited : Edited (v.left h (trusting name folder chosen)) v'.found file) :
    v.found.stamp h chosen ≠ v'.found.stamp h chosen := by
  intro hstamp
  obtain ⟨entry, hleft, entry', hentry', hdiffers⟩ := hedited
  have hentry := v.lookup_left hlinked htrusted (fun heq => hmarker (heq ▸ hfile)) hleft
  have hmem : file ∈ kept chosen :=
    List.mem_filter.mpr ⟨hfile, v.found.single_of_lookup hentry⟩
  have hsome : ∀ f : Folder β, f.Holds (kept chosen) → ∀ file ∈ kept chosen,
      (f.items.lookup file).isSome := by
    intro f hholds file hfile
    rw [Folder.lookup_items, Option.isSome_map]
    exact hholds.isSome hfile
  obtain ⟨hsize, hmodified⟩ := stampText_inj (hsome _ hkept) (hsome _ hkept')
    (hdiscerned.1 hstamp) file hmem
  rw [Folder.lookup_items, Folder.lookup_items, hentry, hentry'] at hsize hmodified
  have htime := Option.some.inj hmodified
  rw [Entry.modified_item, Entry.modified_item] at htime
  rcases hdiffers with hne | hne
  · exact hne (Option.some.inj hsize)
  · exact hne (hdiscerned.2 file hfile entry hentry entry' hentry' htime)

/-- What holds of a run and the one before it. -/
theorem derives (hmarker : MARKER ∉ chosen) (hlinked : v.found.linked = false)
    (hlinked' : v'.found.linked = false)
    (htrusted : v.result h (trusting name folder chosen) = .ok .trusted)
    (htrusted' : v'.result h (trusting name folder chosen) = .ok .trusted)
    (hfollows : Follows h (trusting name folder chosen) v v')
    (hdiscerned : Discerned h chosen v v') :
    Derives h (trusting name folder chosen) chosen v v' := by
  have hkept := (run_trusted.mp htrusted).2.1
  have hkept' := (run_trusted.mp htrusted').2.1
  have hrecord : v'.found.record = some (.trusted (v.found.stamp h chosen)) :=
    Eq.trans hfollows (v.record_left hlinked htrusted)
  have hleft : v'.left h (trusting name folder chosen) = _ := run_left htrusted'
  constructor
  · intro hsame
    rw [← stamp_eq hmarker hlinked htrusted hkept' hsame] at hrecord
    rw [hleft, if_pos hrecord]
  · rintro ⟨file, hfile, hedited⟩
    have hne := stamp_ne hmarker hlinked htrusted hkept hkept' hdiscerned hfile hedited
    have hother : v'.found.record ≠ some (.trusted (v'.found.stamp h chosen)) := by
      rw [hrecord]
      intro heq
      exact hne (Record.trusted.inj (Option.some.inj heq))
    rw [hleft, if_neg hother, Folder.derived_recorded hlinked']

/-- A run with chosen names trusts the files of its folder just when every one of them
is there, exactly where it meets the condition. In every sequence of runs that trust
them, none of which finds a link where records are written, the record not chosen and
changes discerned, each run but the first leaves the derived folders alone or empties
them as the chosen files are untouched or have another size or time. -/
theorem trusted_files (h : Hashes β) (name folder : String) {chosen : List String}
    (hchosen : chosen ≠ []) :
    (∀ (w : World β) (listing : Option Listing) (f : Folder β),
      (((run h w (trusting name folder chosen) listing f).2 = .ok .trusted ↔
        f.Holds chosen) ↔ Meets h w folder chosen listing f)) ∧
    ∀ visits : List (Visit β),
      (∀ v ∈ visits, v.result h (trusting name folder chosen) = .ok .trusted) →
      visits.IsChain (Follows h (trusting name folder chosen)) →
      MARKER ∉ chosen → (∀ v ∈ visits, v.found.linked = false) →
      visits.IsChain (Discerned h chosen) →
      visits.IsChain (Derives h (trusting name folder chosen) chosen) := by
  refine ⟨fun w listing f => trusted_iff_holds hchosen, ?_⟩
  intro visits
  induction visits with
  | nil => exact fun _ _ _ _ _ => .nil
  | cons v visits ih =>
      intro htrusted hfollows hmarker hlinked hdiscerned
      obtain ⟨hfollow, hfollows⟩ := List.isChain_cons.mp hfollows
      obtain ⟨hdiscern, hdiscerned⟩ := List.isChain_cons.mp hdiscerned
      obtain ⟨hv, hvisits⟩ := List.forall_mem_cons.mp htrusted
      obtain ⟨hlink, hlinks⟩ := List.forall_mem_cons.mp hlinked
      refine List.isChain_cons.mpr ⟨fun v' hv' => ?_,
        ih hvisits hfollows hmarker hlinks hdiscerned⟩
      have hmem := List.mem_of_mem_head? hv'
      exact derives hmarker hlink (hlinks v' hmem) hv (hvisits v' hmem)
        (hfollow v' hv') (hdiscern v' hv')

end Runs

section Examples

/-- The text itself for its hash. -/
def texts : Hashes ℕ := ⟨⟨fun _ => "", fun _ => ""⟩, id⟩

/-- A file system that refuses nothing. -/
def granting : World ℕ where
  fails := none
  written := .file [0] (some 1)
  through _ f := f
  install _ f := (f, .ok true)

/-- A folder of one file, with something in a derived folder. -/
def holding (name : String) (hplain : PlainName name) (time : ℤ)
    (record : Option Record) : Folder ℕ where
  entries := AList.singleton name (.file [7] (some time))
  plain := by
    intro other hother
    exact List.mem_singleton.mp hother ▸ hplain
  record := record
  linked := false
  derived := [some ["cache"]]

/-- A file that is trusted, and found with another time by the run after. -/
theorem trusted_files_touched :
    ((run texts granting (trusting "d" "r" ["a"]) none
        (holding "a" (by decide) 5 none)).2 = .ok .trusted ↔
      (holding "a" (by decide) 5 none).Holds ["a"]) ∧
    [(⟨holding "a" (by decide) 5 none, none, granting⟩ : Visit ℕ),
      ⟨holding "a" (by decide) 6 (some (.trusted "\x00a\x001\x005")), none,
        granting⟩].IsChain (Derives texts (trusting "d" "r" ["a"]) ["a"]) := by
  have hall := trusted_files texts "d" "r" (List.cons_ne_nil "a" [])
  have hsingle : ∀ name ∈ ["a"], single name = true := by decide +kernel
  refine ⟨(hall.1 granting none (holding "a" (by decide) 5 none)).mpr
    ⟨fun _ => ⟨by simp, .inl rfl⟩, fun _ _ _ => hsingle⟩, ?_⟩
  refine hall.2 _ ?_ ?_ (by decide) ?_ ?_
  · exact List.forall_mem_cons.mpr ⟨by decide +kernel,
      List.forall_mem_cons.mpr ⟨by decide +kernel, by simp⟩⟩
  · refine List.isChain_pair.mpr ?_
    unfold Follows
    decide +kernel
  · exact List.forall_mem_cons.mpr ⟨rfl, List.forall_mem_cons.mpr ⟨rfl, by simp⟩⟩
  · refine List.isChain_pair.mpr ⟨id, ?_⟩
    intro name hname entry hentry entry' hentry' htime
    obtain rfl := List.mem_singleton.mp hname
    obtain rfl := Option.some.inj hentry
    obtain rfl := Option.some.inj hentry'
    exact absurd htime (by decide)

/-- A first run that records the record's own file. -/
def marking : Visit ℕ := ⟨holding MARKER (by decide) 5 none, none, granting⟩

/-- The next one, with nothing touched since. -/
def remarking : Visit ℕ :=
  ⟨{ marking.left texts (trusting "d" "r" [MARKER]) with derived := [some ["cache"]] },
    none, granting⟩

/-- A name of two components is left out, and what is left is trusted. The record's own
file, chosen, is another for each run. -/
theorem left_out_trusted :
    ((run texts granting (trusting "d" "r" ["a", "sub/b"]) none
        (holding "a" (by decide) 5 none)).2 = .ok .trusted ∧
      ¬(holding "a" (by decide) 5 none).Holds ["a", "sub/b"]) ∧
    (∀ v ∈ [marking, remarking],
      v.result texts (trusting "d" "r" [MARKER]) = .ok .trusted) ∧
    Follows texts (trusting "d" "r" [MARKER]) marking remarking ∧
    ¬Derives texts (trusting "d" "r" [MARKER]) [MARKER] marking remarking := by
  refine ⟨⟨by decide +kernel, fun hholds => ?_⟩, ?_, rfl, fun hderives => ?_⟩
  · exact absurd (hholds "sub/b" (by simp)) (by decide +kernel)
  · exact List.forall_mem_cons.mpr ⟨by decide +kernel,
      List.forall_mem_cons.mpr ⟨by decide +kernel, by simp⟩⟩
  · exact absurd (hderives.1 fun _ _ => rfl) (by decide +kernel)

end Examples

end Trusting

end Ai

end RustSak
