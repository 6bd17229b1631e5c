import RustSak.Library.Lines
import RustSak.Library.Hex

/-!
# Looking a device up in a `pci.ids` database

`lookupPciIds` scans the lines of the text once. `Database` is what the text says: its
vendors and their devices, with subsystem lines, comments and empty lines in between and
whatever classes come last. The scan finds in the text what is in the database.
-/

namespace RustSak

namespace Sysinfo

open Library

structure PciNames where
  vendor : Option (List Char)
  device : Option (List Char)
  deriving DecidableEq

/-- The id and the name of an entry. -/
def splitEntry (entry : List Char) : Option (ℕ × List Char) := do
  let parts ← Text.splitOnce "  ".toList entry
  let id ← Hex.parse 16 (Text.trimSpace parts.1)
  let name := Text.trimSpace parts.2
  if name.isEmpty then none else some (id, name)

/-- Whether the scan goes on after a line. -/
inductive Flow where
  | next (names : PciNames) (inVendor : Bool)
  | stop (names : PciNames)
  deriving DecidableEq

/-- A device line, without its tab. -/
def scanDevice (device : ℕ) (names : PciNames) (entry : List Char) : Flow :=
  match (splitEntry entry).filter fun e => e.1 == device with
  | some e => .stop { names with device := some e.2 }
  | none => .next names true

def scanVendor (vendor : ℕ) (names : PciNames) (line : List Char) : Flow :=
  match (splitEntry line).filter fun e => e.1 == vendor with
  | some e => .next { names with vendor := some e.2 } true
  | none => .next names false

def scanLine (vendor device : ℕ) (names : PciNames) (inVendor : Bool) (line : List Char) :
    Flow :=
  if line.isEmpty || "#".toList.isPrefixOf line then .next names inVendor
  -- The classes, which no vendor follows.
  else if "C ".toList.isPrefixOf line then .stop names
  -- A subsystem of the current device.
  else if "\t\t".toList.isPrefixOf line then .next names inVendor
  else match Text.stripPrefix "\t".toList line with
    | some entry => if inVendor then scanDevice device names entry else .next names false
    | none => if inVendor then .stop names else scanVendor vendor names line

def scan (vendor device : ℕ) : PciNames → Bool → List (List Char) → PciNames
  | names, _, [] => names
  | names, inVendor, line :: lines =>
      match scanLine vendor device names inVendor line with
      | .next names inVendor => scan vendor device names inVendor lines
      | .stop names => names

def lookupPciIds (contents : List Char) (vendor device : ℕ) : PciNames :=
  scan vendor device ⟨none, none⟩ false (Text.lines contents)

/-! ## The database -/

/-- Four hexadecimal digits and a name. -/
structure Entry where
  digits : List Char
  /-- The name, perhaps with white space around it. -/
  text : List Char
  length_digits : digits.length = 4
  isDigit : ∀ c ∈ digits, Hex.isDigit c = true
  named : Text.trimSpace text ≠ []
  oneLine : '\n' ∉ text

namespace Entry

def id (e : Entry) : ℕ := Hex.number e.digits

def name (e : Entry) : List Char := Text.trimSpace e.text

def line (e : Entry) : List Char := e.digits ++ ("  ".toList ++ e.text)

end Entry

/-- A comment or an empty line, perhaps indented. -/
structure Trivia where
  tabs : ℕ
  comment : Option (List Char)
  oneLine : ∀ text ∈ comment, '\n' ∉ text

def Trivia.line (t : Trivia) : List Char :=
  List.replicate t.tabs '\t' ++ t.comment.elim [] ('#' :: ·)

/-- What may stand under a device. -/
inductive Under where
  | subsystem (text : List Char) (oneLine : '\n' ∉ text)
  | trivia (t : Trivia)

def Under.line : Under → List Char
  | .subsystem text _ => '\t' :: '\t' :: text
  | .trivia t => t.line

structure Device where
  entry : Entry
  under : List Under

def Device.lines (d : Device) : List (List Char) :=
  ('\t' :: d.entry.line) :: d.under.map Under.line

structure Vendor where
  entry : Entry
  /-- Before the first device. -/
  before : List Trivia
  devices : List Device
  distinct : (devices.map fun d => d.entry.id).Nodup

def Vendor.lines (v : Vendor) : List (List Char) :=
  v.entry.line :: (v.before.map Trivia.line ++ v.devices.flatMap Device.lines)

/-- The name of a device of the vendor. -/
def Vendor.deviceName (v : Vendor) (device : ℕ) : Option (List Char) :=
  (v.devices.find? fun d => d.entry.id == device).map fun d => d.entry.name

/-- The names of a vendor and of one of its devices. -/
def namesIn (vs : List Vendor) (vendor device : ℕ) : PciNames :=
  (vs.find? fun v => v.entry.id == vendor).elim ⟨none, none⟩ fun v =>
    ⟨some v.entry.name, v.deviceName device⟩

structure Database where
  before : List Trivia
  vendors : List Vendor
  distinct : (vendors.map fun v => v.entry.id).Nodup
  /-- From the first class on. -/
  classes : List Char
  classes_eq : classes = [] ∨ ∃ rest, classes = "C ".toList ++ rest

namespace Database

def lines (db : Database) : List (List Char) :=
  db.before.map Trivia.line ++ db.vendors.flatMap Vendor.lines

/-- The text of the database; the line feed after its very last line may be missing. -/
def Spells (db : Database) (contents : List Char) : Prop :=
  contents = Text.unlines db.lines ++ db.classes ∨
  db.classes = [] ∧ contents ++ ['\n'] = Text.unlines db.lines ∧
    contents.getLast? ≠ some '\r'

end Database

/-! ## One line -/

section Lines

variable {vendor device : ℕ} {names : PciNames} {inVendor : Bool}

theorem splitEntry_of_eq {digits text : List Char} (hlength : digits.length = 4)
    (hdigits : ∀ c ∈ digits, Hex.isDigit c = true) (hnamed : Text.trimSpace text ≠ []) :
    splitEntry (digits ++ ("  ".toList ++ text)) =
      some (Hex.number digits, Text.trimSpace text) := by
  have hblank : ' ' ∉ digits := fun h => absurd (hdigits ' ' h) (by decide)
  have hsplit : Text.splitOnce "  ".toList (digits ++ ("  ".toList ++ text)) =
      some (digits, text) := Text.splitOnce_eq_some hblank [' '] text
  have htrim : Text.trimSpace digits = digits :=
    Text.trimSpace_eq_self fun c hc => Hex.not_isWhiteSpace_of_isDigit (hdigits c hc)
  have hid : Hex.parse 16 digits = some (Hex.number digits) :=
    Hex.parse_digits hlength (by decide) hdigits
  have hname : ¬(Text.trimSpace text).isEmpty = true :=
    fun h => hnamed (List.isEmpty_iff.mp h)
  rw [splitEntry, hsplit]
  dsimp only [Option.bind_eq_bind, Option.bind_some]
  rw [htrim, hid]
  exact if_neg hname

/-- An entry's line, without its carriage return, is split into the id and the name. -/
theorem splitEntry_line (e : Entry) :
    splitEntry (Text.stripCr e.line) = some (e.id, e.name) := by
  have htext : e.text ≠ [] := by
    intro h
    exact e.named (by rw [h]; rfl)
  have hline : Text.stripCr e.line = e.digits ++ ("  ".toList ++ Text.stripCr e.text) := by
    rw [Entry.line, Text.stripCr_append _ (by simp), Text.stripCr_append _ htext]
  have hnamed := e.named
  rw [← Text.trimSpace_stripCr] at hnamed
  rw [hline, splitEntry_of_eq e.length_digits e.isDigit hnamed, Text.trimSpace_stripCr]
  rfl

/-- The first two characters of an entry's line are digits. -/
theorem line_eq (e : Entry) : ∃ c d rest, Text.stripCr e.line = c :: d :: rest ∧
    Hex.isDigit c = true ∧ Hex.isDigit d = true := by
  have hlength := e.length_digits
  obtain ⟨c, cs, hcs⟩ : ∃ c cs, e.digits = c :: cs :=
    List.exists_cons_of_length_pos (by omega)
  rw [hcs, List.length_cons] at hlength
  obtain ⟨d, ds, hds⟩ : ∃ d ds, cs = d :: ds :=
    List.exists_cons_of_length_pos (by omega)
  have hdigit := e.isDigit
  rw [hcs, hds] at hdigit
  have hc := hdigit c List.mem_cons_self
  have hd := hdigit d (List.mem_cons_of_mem _ List.mem_cons_self)
  refine ⟨c, d, Text.stripCr (ds ++ ("  ".toList ++ e.text)), ?_, hc, hd⟩
  rw [Entry.line, hcs, hds, List.cons_append, List.cons_append, Text.stripCr_cons,
    Text.stripCr_cons]
  · rintro rfl
    exact absurd hd (by decide)
  · rintro rfl
    exact absurd hc (by decide)

/-- A line in column zero is a vendor's. -/
theorem scanLine_digits {c d : Char} (hc : Hex.isDigit c = true) (hd : Hex.isDigit d = true)
    (rest : List Char) :
    scanLine vendor device names inVendor (c :: d :: rest) =
      if inVendor = true then .stop names else scanVendor vendor names (c :: d :: rest) := by
  have hcomment : c ≠ '#' := by
    rintro rfl
    exact absurd hc (by decide)
  have hclass : d ≠ ' ' := by
    rintro rfl
    exact absurd hd (by decide)
  have htab : c ≠ '\t' := by
    rintro rfl
    exact absurd hc (by decide)
  simp [scanLine, Text.stripPrefix, hcomment.symm, hclass.symm, htab.symm]

/-- One tab is a device's. -/
theorem scanLine_tab {entry : List Char} (h : ∀ c ∈ entry.head?, c ≠ '\t') :
    scanLine vendor device names inVendor ('\t' :: entry) =
      if inVendor = true then scanDevice device names entry else .next names false := by
  cases entry with
  | nil => simp [scanLine, Text.stripPrefix]
  | cons c entry =>
      have htab : c ≠ '\t' := h c rfl
      simp [scanLine, Text.stripPrefix, htab.symm]

theorem scanLine_tabs (text : List Char) :
    scanLine vendor device names inVendor ('\t' :: '\t' :: text) = .next names inVendor := by
  simp [scanLine]

theorem scanLine_class (text : List Char) :
    scanLine vendor device names inVendor ("C ".toList ++ text) = .stop names := by
  simp [scanLine]

theorem scanLine_vendor (e : Entry) :
    scanLine vendor device names false (Text.stripCr e.line) =
      if e.id = vendor then .next { names with vendor := some e.name } true
      else .next names false := by
  obtain ⟨c, d, rest, hline, hc, hd⟩ := line_eq e
  rw [hline, scanLine_digits hc hd, if_neg Bool.false_ne_true, ← hline, scanVendor,
    splitEntry_line]
  by_cases hid : e.id = vendor
  · simp [hid, Option.filter_some]
  · simp [hid, Option.filter_some]

theorem scanLine_next_vendor (e : Entry) :
    scanLine vendor device names true (Text.stripCr e.line) = .stop names := by
  obtain ⟨c, d, rest, hline, hc, hd⟩ := line_eq e
  rw [hline, scanLine_digits hc hd, if_pos rfl]

theorem scanLine_device (e : Entry) :
    scanLine vendor device names inVendor (Text.stripCr ('\t' :: e.line)) =
      if inVendor = true ∧ e.id = device then .stop { names with device := some e.name }
      else .next names inVendor := by
  obtain ⟨c, d, rest, hline, hc, -⟩ := line_eq e
  have htab : ∀ x ∈ (Text.stripCr e.line).head?, x ≠ '\t' := by
    intro x hx
    rw [hline] at hx
    have hxc : c = x := Option.some.inj hx
    subst hxc
    rintro rfl
    exact absurd hc (by decide)
  rw [Text.stripCr_cons (by decide), scanLine_tab htab, scanDevice, splitEntry_line]
  cases inVendor with
  | false => simp
  | true =>
      by_cases hid : e.id = device
      · simp [hid, Option.filter_some]
      · simp [hid, Option.filter_some]

/-- What a comment's first field is parsed to. -/
theorem splitEntry_comment (text : List Char) : splitEntry ('#' :: text) = none := by
  have hstrip : Text.stripPrefix "  ".toList ('#' :: text) = none :=
    Text.stripPrefix_cons_of_ne (by decide) [' '] text
  rw [splitEntry, Text.splitOnce, hstrip]
  cases Text.splitOnce "  ".toList text with
  | none => rfl
  | some parts =>
      obtain ⟨rest, hrest⟩ := Text.exists_trimSpace_cons (by decide : Text.isWhiteSpace '#' = false)
        parts.1
      have hid : Hex.parse 16 (Text.trimSpace ('#' :: parts.1)) = none := by
        rw [hrest]
        exact Hex.parse_eq_none (by decide) (by decide)
      dsimp only [Option.bind_eq_bind, Option.map_some, Option.bind_some]
      rw [hid]
      rfl

theorem stripCr_trivia (tabs : ℕ) (comment : Option (List Char)) :
    Text.stripCr (List.replicate tabs '\t' ++ comment.elim [] ('#' :: ·)) =
      List.replicate tabs '\t' ++ (comment.map Text.stripCr).elim [] ('#' :: ·) := by
  induction tabs with
  | zero =>
      cases comment with
      | none => rfl
      | some text => exact Text.stripCr_cons (by decide) text
  | succ tabs ih =>
      rw [List.replicate_succ, List.cons_append, Text.stripCr_cons (by decide), ih]
      rfl

theorem scanLine_trivia (t : Trivia) :
    scanLine vendor device names inVendor (Text.stripCr t.line) = .next names inVendor := by
  rw [Trivia.line, stripCr_trivia]
  generalize t.comment.map Text.stripCr = comment
  cases t.tabs with
  | zero =>
      cases comment with
      | none => rfl
      | some text => simp [scanLine]
  | succ tabs =>
      cases tabs with
      | zero =>
          have hentry : splitEntry (comment.elim [] ('#' :: ·)) = none := by
            cases comment with
            | none => rfl
            | some text => exact splitEntry_comment text
          have hhead : ∀ c ∈ (comment.elim [] ('#' :: ·)).head?, c ≠ '\t' := by
            cases comment with
            | none => exact fun c hc => nomatch hc
            | some text =>
                intro c hc
                have hc : '#' = c := Option.some.inj hc
                rw [← hc]
                decide
          have hscan : scanDevice device names (comment.elim [] ('#' :: ·)) =
              .next names true := by
            rw [scanDevice, hentry]
            rfl
          have hline : List.replicate (0 + 1) '\t' ++ comment.elim [] ('#' :: ·) =
              '\t' :: comment.elim [] ('#' :: ·) := rfl
          rw [hline, scanLine_tab hhead, hscan]
          cases inVendor with
          | false => rfl
          | true => rfl
      | succ tabs => exact scanLine_tabs _

theorem scanLine_under (u : Under) :
    scanLine vendor device names inVendor (Text.stripCr u.line) = .next names inVendor := by
  cases u with
  | subsystem text _ =>
      rw [Under.line, Text.stripCr_cons (by decide), Text.stripCr_cons (by decide)]
      exact scanLine_tabs _
  | trivia t => exact scanLine_trivia t

end Lines

/-! ## All lines -/

section Scan

variable {vendor device : ℕ} {names : PciNames} {inVendor : Bool} {rest : List (List Char)}

theorem scan_next {line : List Char} {names' : PciNames} {inVendor' : Bool}
    (h : scanLine vendor device names inVendor line = .next names' inVendor')
    (rest : List (List Char)) :
    scan vendor device names inVendor (line :: rest) =
      scan vendor device names' inVendor' rest := by
  rw [scan, h]

theorem scan_stop {line : List Char} {names' : PciNames}
    (h : scanLine vendor device names inVendor line = .stop names')
    (rest : List (List Char)) :
    scan vendor device names inVendor (line :: rest) = names' := by
  rw [scan, h]

/-- Lines that are skipped. -/
theorem scan_skip {ls : List (List Char)}
    (h : ∀ line ∈ ls, scanLine vendor device names inVendor line = .next names inVendor) :
    scan vendor device names inVendor (ls ++ rest) =
      scan vendor device names inVendor rest := by
  induction ls with
  | nil => rfl
  | cons line ls ih =>
      obtain ⟨hline, hls⟩ := List.forall_mem_cons.mp h
      rw [List.cons_append, scan_next hline, ih hls]

theorem scan_under (us : List Under) :
    scan vendor device names inVendor ((us.map Under.line).map Text.stripCr ++ rest) =
      scan vendor device names inVendor rest := by
  refine scan_skip ?_
  intro line hline
  obtain ⟨u, -, rfl⟩ := List.mem_map.mp (List.map_map ▸ hline)
  exact scanLine_under u

theorem scan_trivia (ts : List Trivia) :
    scan vendor device names inVendor ((ts.map Trivia.line).map Text.stripCr ++ rest) =
      scan vendor device names inVendor rest := by
  refine scan_skip ?_
  intro line hline
  obtain ⟨t, -, rfl⟩ := List.mem_map.mp (List.map_map ▸ hline)
  exact scanLine_trivia t

theorem scan_device (d : Device) :
    scan vendor device names inVendor (d.lines.map Text.stripCr ++ rest) =
      if inVendor = true ∧ d.entry.id = device then
        { names with device := some d.entry.name }
      else scan vendor device names inVendor rest := by
  have hline := @scanLine_device vendor device names inVendor d.entry
  rw [Device.lines, List.map_cons, List.cons_append]
  split
  · rename_i h
    rw [if_pos h] at hline
    exact scan_stop hline _
  · rename_i h
    rw [if_neg h] at hline
    rw [scan_next hline, scan_under]

/-- The devices of another vendor. -/
theorem scan_devices_false (ds : List Device) :
    scan vendor device names false ((ds.flatMap Device.lines).map Text.stripCr ++ rest) =
      scan vendor device names false rest := by
  induction ds with
  | nil => rfl
  | cons d ds ih =>
      rw [List.flatMap_cons, List.map_append, List.append_assoc, scan_device,
        if_neg fun h => Bool.false_ne_true h.1, ih]

/-- The devices of the vendor. -/
theorem scan_devices_true (ds : List Device)
    (hrest : ∀ names, scan vendor device names true rest = names) (name : List Char) :
    scan vendor device ⟨some name, none⟩ true
      ((ds.flatMap Device.lines).map Text.stripCr ++ rest) =
      ⟨some name, (ds.find? fun d => d.entry.id == device).map fun d => d.entry.name⟩ := by
  induction ds with
  | nil => exact hrest _
  | cons d ds ih =>
      rw [List.flatMap_cons, List.map_append, List.append_assoc, scan_device]
      by_cases h : d.entry.id = device
      · have hfind : (d :: ds).find? (fun d => d.entry.id == device) = some d :=
          List.find?_cons_of_pos (by simpa using h)
        rw [if_pos ⟨rfl, h⟩, hfind]
        rfl
      · have hfind : (d :: ds).find? (fun d => d.entry.id == device) =
            ds.find? fun d => d.entry.id == device :=
          List.find?_cons_of_neg (by simpa using h)
        rw [if_neg fun hand => h hand.2, ih, hfind]

/-- Nothing more is found in the lines. -/
def Ends (vendor device : ℕ) (rest : List (List Char)) : Prop :=
  ∀ names inVendor, scan vendor device names inVendor rest = names

/-- The next vendor ends the search for a device. -/
theorem scan_true_vendors (vs : List Vendor) (hrest : Ends vendor device rest)
    (names : PciNames) :
    scan vendor device names true ((vs.flatMap Vendor.lines).map Text.stripCr ++ rest) =
      names := by
  cases vs with
  | nil => exact hrest names true
  | cons v vs => exact scan_stop (scanLine_next_vendor v.entry) _

theorem scan_vendors (vs : List Vendor) (hrest : Ends vendor device rest) :
    scan vendor device ⟨none, none⟩ false
      ((vs.flatMap Vendor.lines).map Text.stripCr ++ rest) = namesIn vs vendor device := by
  induction vs with
  | nil => exact hrest _ _
  | cons v vs ih =>
      have hline := @scanLine_vendor vendor device ⟨none, none⟩ v.entry
      rw [List.flatMap_cons, List.map_append, List.append_assoc, Vendor.lines, List.map_cons,
        List.cons_append, List.map_append, List.append_assoc]
      by_cases h : v.entry.id = vendor
      · have hfind : (v :: vs).find? (fun v => v.entry.id == vendor) = some v :=
          List.find?_cons_of_pos (by simpa using h)
        rw [if_pos h] at hline
        rw [scan_next hline, scan_trivia,
          scan_devices_true _ (scan_true_vendors vs hrest), namesIn, hfind]
        rfl
      · have hfind : (v :: vs).find? (fun v => v.entry.id == vendor) =
            vs.find? fun v => v.entry.id == vendor :=
          List.find?_cons_of_neg (by simpa using h)
        rw [if_neg h] at hline
        rw [scan_next hline, scan_trivia, scan_devices_false, ih, namesIn, namesIn, hfind]

theorem ends_nil : Ends vendor device [] := fun _ _ => rfl

theorem ends_class (text : List Char) (rest : List (List Char)) :
    Ends vendor device (("C ".toList ++ text) :: rest) :=
  fun _ _ => scan_stop (scanLine_class text) rest

/-- An empty line after all others finds nothing. -/
theorem scan_append_empty (ls : List (List Char)) :
    scan vendor device names inVendor (ls ++ [[]]) = scan vendor device names inVendor ls := by
  induction ls generalizing names inVendor with
  | nil => rfl
  | cons line ls ih =>
      rw [List.cons_append, scan, scan]
      cases scanLine vendor device names inVendor line with
      | next names' inVendor' => exact ih
      | stop names' => rfl

end Scan

/-! ## The text of a database -/

theorem Entry.notMem_feed (e : Entry) : '\n' ∉ e.line := by
  intro h
  rcases List.mem_append.mp h with h | h
  · exact absurd (e.isDigit '\n' h) (by decide)
  · rcases List.mem_append.mp h with h | h
    · exact absurd h (by decide)
    · exact e.oneLine h

theorem Trivia.notMem_feed (t : Trivia) : '\n' ∉ t.line := by
  intro h
  rcases List.mem_append.mp h with h | h
  · exact absurd (List.eq_of_mem_replicate h) (by decide)
  · have hline := t.oneLine
    cases hcomment : t.comment with
    | none =>
        rw [hcomment] at h
        exact List.not_mem_nil h
    | some text =>
        rw [hcomment] at h hline
        rcases List.mem_cons.mp h with h | h
        · exact absurd h (by decide)
        · exact hline text rfl h

theorem Under.notMem_feed (u : Under) : '\n' ∉ u.line := by
  cases u with
  | subsystem text oneLine =>
      intro h
      rcases List.mem_cons.mp h with h | h
      · exact absurd h (by decide)
      · rcases List.mem_cons.mp h with h | h
        · exact absurd h (by decide)
        · exact oneLine h
  | trivia t => exact t.notMem_feed

theorem Device.notMem_feed (d : Device) : ∀ line ∈ d.lines, '\n' ∉ line := by
  refine List.forall_mem_cons.mpr ⟨?_, ?_⟩
  · intro h
    rcases List.mem_cons.mp h with h | h
    · exact absurd h (by decide)
    · exact d.entry.notMem_feed h
  · intro line hline
    obtain ⟨u, -, rfl⟩ := List.mem_map.mp hline
    exact u.notMem_feed

theorem Vendor.notMem_feed (v : Vendor) : ∀ line ∈ v.lines, '\n' ∉ line := by
  refine List.forall_mem_cons.mpr ⟨v.entry.notMem_feed, ?_⟩
  intro line hline
  rcases List.mem_append.mp hline with hline | hline
  · obtain ⟨t, -, rfl⟩ := List.mem_map.mp hline
    exact t.notMem_feed
  · obtain ⟨d, -, hmem⟩ := List.mem_flatMap.mp hline
    exact d.notMem_feed line hmem

namespace Database

variable {vendor device : ℕ} (db : Database)

theorem notMem_feed : ∀ line ∈ db.lines, '\n' ∉ line := by
  intro line hline
  rcases List.mem_append.mp hline with hline | hline
  · obtain ⟨t, -, rfl⟩ := List.mem_map.mp hline
    exact t.notMem_feed
  · obtain ⟨v, -, hmem⟩ := List.mem_flatMap.mp hline
    exact v.notMem_feed line hmem

/-- Whatever the classes are, the scan ends at the first of them. -/
theorem ends_classes : Ends vendor device (Text.lines db.classes) := by
  rcases db.classes_eq with h | ⟨text, h⟩
  · rw [h]
    exact ends_nil
  · obtain ⟨piece, pieces, hpieces⟩ :=
      List.exists_cons_of_ne_nil (List.splitOn_ne_nil '\n' text)
    have hsplit : ("C ".toList ++ text).splitOn '\n' = ("C ".toList ++ piece) :: pieces := by
      have hcons : "C ".toList ++ text = 'C' :: ' ' :: text := rfl
      rw [hcons, List.splitOn_cons_eq_if_modifyHead, List.splitOn_cons_eq_if_modifyHead,
        hpieces]
      rfl
    rw [h, Text.lines, hsplit]
    cases pieces with
    | nil => exact ends_class piece []
    | cons next pieces =>
        have hstrip : Text.stripCr ("C ".toList ++ piece) =
            "C ".toList ++ Text.stripCr piece := by
          have hcons : "C ".toList ++ piece = 'C' :: ' ' :: piece := rfl
          rw [hcons, Text.stripCr_cons (by decide), Text.stripCr_cons (by decide)]
          rfl
        rw [Text.linesOf_cons _ (List.cons_ne_nil next pieces), hstrip]
        exact ends_class _ _

theorem scan_lines {rest : List (List Char)} (hrest : Ends vendor device rest) :
    scan vendor device ⟨none, none⟩ false (db.lines.map Text.stripCr ++ rest) =
      namesIn db.vendors vendor device := by
  rw [lines, List.map_append, List.append_assoc, scan_trivia, scan_vendors _ hrest]

variable {db} {contents : List Char}

theorem lookup_eq (h : db.Spells contents) (vendor device : ℕ) :
    lookupPciIds contents vendor device = namesIn db.vendors vendor device := by
  rcases h with rfl | ⟨-, h, hreturn⟩
  · rw [lookupPciIds, Text.lines_unlines_append db.notMem_feed, scan_lines db db.ends_classes]
  · have hlines := Text.lines_unlines_append db.notMem_feed []
    rw [List.append_nil, ← h] at hlines
    have hscan := db.scan_lines (@ends_nil vendor device)
    rw [lookupPciIds, ← hscan]
    have hnil : Text.lines [] = [] := rfl
    rw [hnil] at hlines
    rcases Text.lines_append_feed hreturn with hfeed | hfeed
    · rw [← hlines, hfeed]
    · rw [← hlines, hfeed, scan_append_empty]

end Database

/-- Of elements with different keys the one with the key is found. -/
theorem find?_of_nodup {α : Type} {key : α → ℕ} {xs : List α} (h : (xs.map key).Nodup)
    {x : α} (hx : x ∈ xs) : xs.find? (fun y => key y == key x) = some x := by
  induction xs with
  | nil => exact absurd hx List.not_mem_nil
  | cons y ys ih =>
      obtain ⟨hnot, hys⟩ := List.nodup_cons.mp h
      rcases List.mem_cons.mp hx with rfl | hx
      · exact List.find?_cons_of_pos (beq_self_eq_true _)
      · have hne : key y ≠ key x := by
          intro heq
          exact hnot (List.mem_map.mpr ⟨x, hx, heq.symm⟩)
        rw [List.find?_cons_of_neg (by simpa using hne)]
        exact ih hys hx

/-- The scan finds the vendor that the database has and the device that this vendor has,
and nothing that is not there. -/
theorem lookup_agrees (db : Database) (contents : List Char) (h : db.Spells contents)
    (vendor device : ℕ) :
    ((∀ v ∈ db.vendors, v.entry.id ≠ vendor) →
      lookupPciIds contents vendor device = ⟨none, none⟩) ∧
    ∀ v ∈ db.vendors, v.entry.id = vendor →
      (lookupPciIds contents vendor device).vendor = some v.entry.name ∧
      (∀ d ∈ v.devices, d.entry.id = device →
        (lookupPciIds contents vendor device).device = some d.entry.name) ∧
      ((∀ d ∈ v.devices, d.entry.id ≠ device) →
        (lookupPciIds contents vendor device).device = none) := by
  rw [Database.lookup_eq h, namesIn]
  constructor
  · intro hnone
    rw [List.find?_eq_none.mpr fun v hv => by simpa using hnone v hv]
    rfl
  · intro v hv hid
    subst hid
    rw [find?_of_nodup db.distinct hv]
    refine ⟨rfl, ?_, ?_⟩
    · intro d hd hid
      subst hid
      exact congrArg (Option.map _) (find?_of_nodup v.distinct hd)
    · intro hnone
      have hfind : v.devices.find? (fun d => d.entry.id == device) = none :=
        List.find?_eq_none.mpr fun d hd => by simpa using hnone d hd
      exact congrArg (Option.map _) hfind

def nvidia : Vendor where
  entry := ⟨"10de".toList, "NVIDIA Corporation".toList, by decide,
    List.all_eq_true.mp (by decide +kernel), by decide +kernel, by decide +kernel⟩
  before := []
  devices := [⟨⟨"2684".toList, "AD102 [GeForce RTX 4090]".toList, by decide,
    List.all_eq_true.mp (by decide +kernel), by decide +kernel, by decide +kernel⟩,
    [.subsystem "10de 16f3  Reference".toList (by decide +kernel)]⟩]
  distinct := by decide +kernel

def sample : Database where
  before := [⟨0, some " Excerpt.".toList, by decide +kernel⟩, ⟨0, none, nofun⟩]
  vendors := [nvidia]
  distinct := by decide +kernel
  classes := "C 03  Display controller\n\t00  VGA compatible controller".toList
  classes_eq := .inr ⟨_, rfl⟩

theorem lookup_agrees_sample :
    (lookupPciIds (Text.unlines sample.lines ++ sample.classes) 0x10de 0x2684).vendor =
      some "NVIDIA Corporation".toList ∧
    (lookupPciIds (Text.unlines sample.lines ++ sample.classes) 0x10de 0x2684).device =
      some "AD102 [GeForce RTX 4090]".toList := by
  have h := (lookup_agrees sample _ (.inl rfl) 0x10de 0x2684).2 nvidia
    List.mem_cons_self (by decide +kernel)
  exact ⟨h.1, h.2.1 _ List.mem_cons_self (by decide +kernel)⟩

end Sysinfo

end RustSak
