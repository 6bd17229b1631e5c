import RustSak.Fs.SkippedLinks

/-!
# The adapters

Each archive format has an adapter that says of every entry what it is and hands it
to the extractor. A ZIP entry is told by what its crate answers and by its mode, a
7z entry by a flag and the attribute word, a TAR entry by its type.
-/

namespace RustSak

namespace Fs

/-- The bits of a mode that say what it is the mode of. -/
def sIfmt : UInt32 := 0o170000

def sIflnk : UInt32 := 0o120000

def sIfreg : UInt32 := 0o100000

/-- The FIFO, the character device, the block device and the socket. -/
def specialTypes : List UInt32 := [0o010000, 0o020000, 0o060000, 0o140000]

/-- The mode is one of something that is no regular file, directory or link. -/
def IsSpecial (mode : Option UInt32) : Prop :=
  ∃ bits, mode = some bits ∧ bits &&& sIfmt ∈ specialTypes

/-- A ZIP entry by what its accessors answer, and its stream. -/
structure ZipFile where
  name : Name
  size : UInt64
  unixMode : Option UInt32
  isSymlink : Bool
  isDir : Bool
  data : Data

namespace ZipFile

def classify (entry : ZipFile) (mode : Option UInt32) : EntryKind :=
  if entry.isSymlink then .symlink
  else if entry.isDir then .dir
  else
    match mode with
    | some mode =>
        if mode &&& sIfmt ≠ 0 ∧ mode &&& sIfmt ≠ sIfreg then .other else .file
    | none => .file

def raw (entry : ZipFile) : RawEntry where
  name := entry.name
  kind := entry.classify entry.unixMode
  size := entry.size
  mode := entry.unixMode
  linkTarget := none

end ZipFile

/-- A 7z entry by its header, and its window onto the stream. -/
structure SevenZEntry where
  name : Name
  isDirectory : Bool
  hasWindowsAttributes : Bool
  windowsAttributes : UInt32
  size : UInt64
  data : Data

namespace SevenZEntry

/-- Set where the high half of the attributes holds a mode. -/
def unixExtension : UInt32 := 0x8000

def unixMode (hasWindowsAttributes : Bool) (windowsAttributes : UInt32) :
    Option UInt32 :=
  if hasWindowsAttributes = true ∧ windowsAttributes &&& unixExtension ≠ 0 then
    some (windowsAttributes >>> 16)
  else
    none

def classify (isDirectory hasWindowsAttributes : Bool) (windowsAttributes : UInt32) :
    EntryKind × Option UInt32 :=
  if isDirectory then (.dir, unixMode hasWindowsAttributes windowsAttributes)
  else
    match unixMode hasWindowsAttributes windowsAttributes with
    | some mode =>
        if mode &&& sIfmt = sIflnk then (.symlink, some mode) else (.file, some mode)
    | none => (.file, none)

def raw (entry : SevenZEntry) : RawEntry :=
  let (kind, mode) := classify entry.isDirectory entry.hasWindowsAttributes
    entry.windowsAttributes
  { name := entry.name, kind := kind, size := entry.size, mode := mode
    linkTarget := none }

/-- The mode that the attributes of the entry hold. -/
def mode (entry : SevenZEntry) : Option UInt32 :=
  unixMode entry.hasWindowsAttributes entry.windowsAttributes

/-- What a visit has left unread is read to its end, so that the next entry starts
where it should. -/
def drain (data : Data) : FsResult Unit :=
  if data.fails then .error .io else .ok ()

end SevenZEntry

/-- The types of a TAR entry, as its crate has them. -/
inductive EntryType where
  | regular
  | link
  | symlink
  | char
  | block
  | directory
  | fifo
  | continuous
  | gnuLongName
  | gnuLongLink
  | gnuSparse
  | xGlobalHeader
  | xHeader
  | other (byte : UInt8)
  deriving DecidableEq

/-- What the TAR adapter takes an entry of the type for. -/
def EntryType.classify (entryType : EntryType) : EntryKind :=
  if entryType = .directory then .dir
  else if entryType = .symlink then .symlink
  else if entryType = .regular then .file
  else .other

section Adapters

variable {ρ : Type}

def unzip (options : ExtractOptions) (R : UnixRoot ρ) (root : ρ)
    (entries : List ZipFile) : ρ × FsResult ExtractSummary :=
  (Extractor.new root).extract options R (entries.map fun e => (e.raw, e.data))

/-- The walk over a 7z archive, up to the first failure. -/
def walk (options : ExtractOptions) (R : Root ρ) :
    Extractor ρ → List SevenZEntry → Extractor ρ × FsResult Unit
  | x, [] => (x, .ok ())
  | x, entry :: entries =>
      let visited := x.visit options R entry.raw entry.data
      match visited.result with
      | .error err => (visited.extractor, .error err)
      | .ok () =>
          match SevenZEntry.drain entry.data with
          | .error err => (visited.extractor, .error err)
          | .ok () => walk options R visited.extractor entries

def un7zip (options : ExtractOptions) (R : UnixRoot ρ) (root : ρ)
    (entries : List SevenZEntry) : ρ × FsResult ExtractSummary :=
  match walk options R.toRoot (.new root) entries with
  | (x, .error err) => (x.root, .error err)
  | (x, .ok ()) => x.finish R

end Adapters

/-! ## One listing in two formats -/

/-- An entry of a listing, whatever the format. -/
structure Listed where
  name : Name
  mode : Option UInt32
  body : List UInt8

namespace Listed

/-- The ZIP entry is the one listed. -/
def InZip (l : Listed) (z : ZipFile) : Prop :=
  z.name = l.name ∧ z.unixMode = l.mode ∧ z.size.toNat = l.body.length ∧
    z.data = ⟨l.body, false⟩

/-- The 7z entry is the one listed. -/
def InSevenZ (l : Listed) (s : SevenZEntry) : Prop :=
  s.name = l.name ∧ s.mode = l.mode ∧ s.size.toNat = l.body.length ∧
    s.data = ⟨l.body, false⟩

end Listed

/-- What the extractor is handed: a kind, and for a link where it leads. -/
def handed (entry : RawEntry) (data : Data) : EntryKind × Option (FsResult Name) :=
  (entry.kind, if entry.kind = .symlink then some (linkTarget entry data) else none)

/-- The two archives are classified alike, and nothing special is written. -/
structure ClassifiedAlike (zs : List ZipFile) (ss : List SevenZEntry) : Prop where
  handed : (zs.map fun z => handed z.raw z.data) = ss.map fun s => handed s.raw s.data
  summary : ∀ (ρ : Type) (options : ExtractOptions) (R : UnixRoot ρ) (root : ρ),
    (unzip options R root zs).2 = (un7zip options R root ss).2
  zip : ∀ z ∈ zs, IsSpecial z.unixMode → z.raw.kind ≠ .file
  sevenZ : ∀ s ∈ ss, IsSpecial s.mode → s.raw.kind ≠ .file

/-- The two entries are marked alike: as a link by the mode, as a directory by both
archives, or as neither with the mode of a regular file. -/
def MarkedAlike (z : ZipFile) (s : SevenZEntry) : Prop :=
  if z.isSymlink then
    s.isDirectory = false ∧ ∃ mode, s.mode = some mode ∧ mode &&& sIfmt = sIflnk
  else if z.isDir then
    s.isDirectory = true
  else
    s.isDirectory = false ∧ ∀ mode, s.mode = some mode →
      mode &&& sIfmt = 0 ∨ mode &&& sIfmt = sIfreg

namespace SevenZEntry

theorem classify_eq (isDirectory hasWindowsAttributes : Bool) (windowsAttributes : UInt32) :
    classify isDirectory hasWindowsAttributes windowsAttributes =
      (if isDirectory then .dir
        else if (unixMode hasWindowsAttributes windowsAttributes).any fun mode =>
          mode &&& sIfmt = sIflnk then .symlink
        else .file, unixMode hasWindowsAttributes windowsAttributes) := by
  unfold classify
  cases isDirectory with
  | true => rfl
  | false =>
      cases unixMode hasWindowsAttributes windowsAttributes with
      | none => rfl
      | some mode =>
          by_cases hlink : mode &&& sIfmt = sIflnk
          · simp [hlink]
          · simp [hlink]

theorem raw_mode (s : SevenZEntry) : s.raw.mode = s.mode := by
  rw [raw, classify_eq]
  rfl

theorem raw_kind (s : SevenZEntry) :
    s.raw.kind =
      if s.isDirectory then .dir
      else if s.mode.any fun mode => mode &&& sIfmt = sIflnk then .symlink
      else .file := by
  rw [raw, classify_eq]
  rfl

end SevenZEntry

/-- Entries of one mode are taken for the same just where they are marked alike. -/
theorem kind_eq_iff {z : ZipFile} {s : SevenZEntry} (hmode : z.unixMode = s.mode) :
    z.raw.kind = s.raw.kind ↔ MarkedAlike z s := by
  have hz : z.raw.kind = z.classify s.mode := by rw [← hmode, ZipFile.raw]
  rw [hz, s.raw_kind]
  unfold ZipFile.classify MarkedAlike
  cases z.isSymlink with
  | true =>
      cases s.isDirectory with
      | true => simp
      | false => cases s.mode <;> simp
  | false =>
    cases z.isDir with
    | true =>
        cases s.isDirectory with
        | true => simp
        | false => cases s.mode <;> simp [apply_ite]
    | false =>
      cases s.mode with
      | none => cases s.isDirectory <;> simp
      | some mode =>
        by_cases hplain : mode &&& sIfmt = 0 ∨ mode &&& sIfmt = sIfreg
        · have hzip : ¬(mode &&& sIfmt ≠ 0 ∧ mode &&& sIfmt ≠ sIfreg) := by
            rw [not_and_or, not_not, not_not]
            exact hplain
          have hlink : mode &&& sIfmt ≠ sIflnk := by
            rcases hplain with h | h
            · rw [h]
              decide
            · rw [h]
              decide
          cases s.isDirectory <;> simp [hzip, hlink, hplain]
        · -- No 7z entry is skipped by its kind.
          have hzip : mode &&& sIfmt ≠ 0 ∧ mode &&& sIfmt ≠ sIfreg := not_or.mp hplain
          cases s.isDirectory with
          | true => simp [hzip]
          | false =>
              by_cases hlink : mode &&& sIfmt = sIflnk
              · have hne : sIflnk ≠ 0 ∧ sIflnk ≠ sIfreg := by decide
                simp [hlink, hne]
              · simp [hzip, hlink]

theorem ZipFile.raw_kind_ne_file {z : ZipFile} (h : IsSpecial z.unixMode) :
    z.raw.kind ≠ .file := by
  obtain ⟨mode, hmode, htype⟩ := h
  have hother : mode &&& sIfmt ≠ 0 ∧ mode &&& sIfmt ≠ sIfreg := by
    constructor
    · intro h
      rw [h] at htype
      exact absurd htype (by decide)
    · intro h
      rw [h] at htype
      exact absurd htype (by decide)
  have hz : z.raw.kind = z.classify (some mode) := by rw [← hmode, ZipFile.raw]
  rw [hz]
  unfold ZipFile.classify
  cases z.isSymlink with
  | true => nofun
  | false =>
      cases z.isDir with
      | true => nofun
      | false => simp [hother]

/-- Nothing but a regular file of a TAR archive is written as one. -/
theorem EntryType.classify_eq_file_iff (entryType : EntryType) :
    entryType.classify = .file ↔ entryType = .regular := by
  cases entryType with
  | other byte => simp [EntryType.classify]
  | _ => decide

/-- The two entries hold the same, whatever their archives take them for. -/
structure Same (z : ZipFile) (s : SevenZEntry) : Prop where
  name : z.name = s.name
  mode : z.unixMode = s.mode
  size : z.size = s.size
  data : z.data = s.data
  whole : s.data.fails = false

namespace Same

variable {z : ZipFile} {s : SevenZEntry}

theorem of_listed {l : Listed} (hz : l.InZip z) (hs : l.InSevenZ s) : Same z s := by
  obtain ⟨hname, hmode, hsize, hdata⟩ := hz
  obtain ⟨hname', hmode', hsize', hdata'⟩ := hs
  refine ⟨hname.trans hname'.symm, hmode.trans hmode'.symm, ?_, hdata.trans hdata'.symm,
    by rw [hdata']⟩
  exact UInt64.toNat_inj.mp (hsize.trans hsize'.symm)

theorem raw_eq (h : Same z s) (halike : MarkedAlike z s) : z.raw = s.raw := by
  have hz : z.raw = ⟨z.name, z.raw.kind, z.size, z.unixMode, none⟩ := rfl
  have hs : s.raw = ⟨s.name, s.raw.kind, s.size, s.raw.mode, none⟩ := rfl
  rw [hz, hs, (kind_eq_iff h.mode).mpr halike, h.name, h.size, h.mode, s.raw_mode]

theorem handed_eq_iff (h : Same z s) :
    handed z.raw z.data = handed s.raw s.data ↔ MarkedAlike z s := by
  constructor
  · intro heq
    exact (kind_eq_iff h.mode).mp (congrArg Prod.fst heq)
  · intro halike
    rw [h.raw_eq halike, h.data]

end Same

/-- Where no stream fails there is nothing to draining it. -/
theorem walk_eq_visitAll {ρ : Type} (options : ExtractOptions) (R : Root ρ)
    (x : Extractor ρ) {ss : List SevenZEntry} (h : ∀ s ∈ ss, s.data.fails = false) :
    walk options R x ss = x.visitAll options R (ss.map fun s => (s.raw, s.data)) := by
  induction ss generalizing x with
  | nil => rfl
  | cons s ss ih =>
      have hdrain : SevenZEntry.drain s.data = .ok () := by
        rw [SevenZEntry.drain, h s List.mem_cons_self, if_neg Bool.false_ne_true]
      rw [walk, List.map_cons, Extractor.visitAll, hdrain]
      cases (x.visit options R s.raw s.data).result with
      | error err => rfl
      | ok u => exact ih _ fun s hs => h s (List.mem_cons_of_mem _ hs)

/-- Where no stream fails a 7z archive is extracted as the others are. -/
theorem un7zip_eq_extract {ρ : Type} (options : ExtractOptions) (R : UnixRoot ρ)
    (root : ρ) {ss : List SevenZEntry} (h : ∀ s ∈ ss, s.data.fails = false) :
    un7zip options R root ss =
      (Extractor.new root).extract options R (ss.map fun s => (s.raw, s.data)) := by
  have hwalk := walk_eq_visitAll options R.toRoot (.new root) h
  cases hx : (Extractor.new root).visitAll options R.toRoot
      (ss.map fun s => (s.raw, s.data)) with
  | mk x result => cases result <;> simp only [un7zip, Extractor.extract, hwalk, hx]

section Listings

variable {zs : List ZipFile} {ss : List SevenZEntry}

theorem same_of_listed {listing : List Listed}
    (hzip : List.Forall₂ Listed.InZip listing zs)
    (hsevenZ : List.Forall₂ Listed.InSevenZ listing ss) :
    List.Forall₂ Same zs ss := by
  induction hzip generalizing ss with
  | nil =>
      cases hsevenZ
      exact .nil
  | cons hz _ ih =>
      cases hsevenZ with
      | cons hs hsevenZ => exact .cons (Same.of_listed hz hs) (ih hsevenZ)

theorem map_handed_eq_iff (h : List.Forall₂ Same zs ss) :
    ((zs.map fun z => handed z.raw z.data) = ss.map fun s => handed s.raw s.data) ↔
      List.Forall₂ MarkedAlike zs ss := by
  induction h with
  | nil => simp
  | cons hsame _ ih =>
      rw [List.map_cons, List.map_cons, List.cons.injEq, hsame.handed_eq_iff, ih,
        List.forall₂_cons]

theorem map_raw_eq (h : List.Forall₂ Same zs ss)
    (halike : List.Forall₂ MarkedAlike zs ss) :
    (zs.map fun z => (z.raw, z.data)) = ss.map fun s => (s.raw, s.data) := by
  induction h with
  | nil => rfl
  | cons hsame _ ih =>
      cases halike with
      | cons hone hrest =>
          rw [List.map_cons, List.map_cons, hsame.raw_eq hone, hsame.data, ih hrest]

/-- Marked alike, nothing special is written out of a 7z archive either. -/
theorem kind_ne_file_of_alike (h : List.Forall₂ Same zs ss)
    (halike : List.Forall₂ MarkedAlike zs ss) :
    ∀ s ∈ ss, IsSpecial s.mode → s.raw.kind ≠ .file := by
  induction h with
  | nil => exact fun s hs => absurd hs List.not_mem_nil
  | cons hsame _ ih =>
      cases halike with
      | cons hone hrest =>
          intro s hs hspecial
          rcases List.mem_cons.mp hs with rfl | hs
          · rw [← hsame.mode] at hspecial
            rw [← hsame.raw_eq hone]
            exact ZipFile.raw_kind_ne_file hspecial
          · exact ih hrest s hs hspecial

theorem whole_of_same (h : List.Forall₂ Same zs ss) :
    ∀ s ∈ ss, s.data.fails = false := by
  induction h with
  | nil => exact fun s hs => absurd hs List.not_mem_nil
  | cons hsame _ ih =>
      intro s hs
      rcases List.mem_cons.mp hs with rfl | hs
      · exact hsame.whole
      · exact ih s hs

/-- A listing's two archives are classified alike just where each of its entries
is marked alike in the two. -/
theorem classified_alike_iff {listing : List Listed}
    (hzip : List.Forall₂ Listed.InZip listing zs)
    (hsevenZ : List.Forall₂ Listed.InSevenZ listing ss) :
    ClassifiedAlike zs ss ↔ List.Forall₂ MarkedAlike zs ss := by
  have hsame := same_of_listed hzip hsevenZ
  constructor
  · exact fun h => (map_handed_eq_iff hsame).mp h.handed
  · intro halike
    refine ⟨(map_handed_eq_iff hsame).mpr halike, ?_,
      fun z _ hspecial => ZipFile.raw_kind_ne_file hspecial,
      kind_ne_file_of_alike hsame halike⟩
    intro ρ options R root
    rw [un7zip_eq_extract options R root (whole_of_same hsame), unzip,
      map_raw_eq hsame halike]

end Listings

/-- An entry with a mode, as ZIP archives have it. -/
def zipped (l : Listed) (isSymlink : Bool) : ZipFile where
  name := l.name
  size := UInt64.ofNat l.body.length
  unixMode := l.mode
  isSymlink := isSymlink
  isDir := false
  data := ⟨l.body, false⟩

/-- An entry with a mode, as p7zip writes it. -/
def sevenZipped (l : Listed) (mode : UInt32) : SevenZEntry where
  name := l.name
  isDirectory := false
  hasWindowsAttributes := true
  windowsAttributes := mode <<< 16 ||| SevenZEntry.unixExtension
  size := UInt64.ofNat l.body.length
  data := ⟨l.body, false⟩

/-- A regular file, and a link to it. -/
theorem classified_alike_linked :
    ClassifiedAlike
      [zipped ⟨['a'], some 0o100644, [0]⟩ false, zipped ⟨['l'], some 0o120777, [97]⟩ true]
      [sevenZipped ⟨['a'], some 0o100644, [0]⟩ 0o100644,
        sevenZipped ⟨['l'], some 0o120777, [97]⟩ 0o120777] := by
  refine (@classified_alike_iff _ _ [⟨['a'], some 0o100644, [0]⟩,
    ⟨['l'], some 0o120777, [97]⟩] ?_ ?_).mpr ?_
  · exact .cons ⟨rfl, rfl, rfl, rfl⟩ (.cons ⟨rfl, rfl, rfl, rfl⟩ .nil)
  · exact .cons ⟨rfl, by decide, rfl, rfl⟩ (.cons ⟨rfl, by decide, rfl, rfl⟩ .nil)
  · refine .cons ⟨rfl, ?_⟩ (.cons ⟨rfl, 0o120777, by decide, by decide⟩ .nil)
    rintro mode hmode
    have hregular : (sevenZipped ⟨['a'], some 0o100644, [0]⟩ 0o100644).mode =
        some 0o100644 := by decide
    rw [hregular] at hmode
    cases hmode
    exact .inr (by decide)

/-- A FIFO is skipped out of a ZIP archive, and written as a file out of a 7z one. -/
theorem not_classified_alike :
    ¬ ∀ (listing : List Listed) (zs : List ZipFile) (ss : List SevenZEntry),
      List.Forall₂ Listed.InZip listing zs → List.Forall₂ Listed.InSevenZ listing ss →
        ClassifiedAlike zs ss := by
  intro h
  have halike := h [⟨['p'], some 0o010644, []⟩]
    [zipped ⟨['p'], some 0o010644, []⟩ false]
    [sevenZipped ⟨['p'], some 0o010644, []⟩ 0o010644]
    (.cons ⟨rfl, rfl, rfl, rfl⟩ .nil) (.cons ⟨rfl, by decide, rfl, rfl⟩ .nil)
  refine halike.sevenZ _ List.mem_cons_self ⟨0o010644, by decide, by decide⟩ ?_
  decide

end Fs

end RustSak
