import RustSak.Image.Boxes
import RustSak.Image.IccBounded

/-!
# The profile of a container, with the widths of `usize`

The walks once more, with every addition, multiplication and index that may panic
written out. Each is the walk of `Container`; what may panic is the profile they come to.
A walk that does not end within its count of steps is taken to panic as well, so that
one that does not panic ends.
-/

namespace RustSak

namespace Image

namespace Bounded

open Library BigEndian Panicking Container

variable (target : Target)

/-! ## WebP -/

def riffChunk (bytes : List UInt8) : Panicking Truncated Split := do
  let header ← orReturn .truncated (slice bytes 0 8)
  let kind ← orPanic (slice header 0 4)
  let field ← orPanic (slice header 4 8)
  let size := ofBytes field.reverse
  let data ← orReturn .truncated (getRange target bytes 8 size)
  let stop ← orPanic (Checked.add target.bits 8 size)
  let stop ← orPanic (Checked.add target.bits stop (size % 2))
  let padded := min stop bytes.length
  let rest ← orPanic (slice bytes padded bytes.length)
  .ok ⟨kind, data, rest⟩

def webpFrom : ℕ → Bool → List UInt8 → Panicking Truncated (Option String)
  | 0, _, _ => .error .panicked
  | fuel + 1, first, bytes => do
      let chunk ← riffChunk target bytes
      if chunk.kind = ascii "VP8X" ∧ first then
        if declaresIcc chunk.body then webpFrom fuel false chunk.rest else .ok none
      else if chunk.kind = ascii "ICCP" then called (description target chunk.body)
      else .ok none

def webp (bytes : List UInt8) : Panicking Truncated (Option String) :=
  if bytes.length < 12 then .error (.returned .truncated)
  else do
    let riff ← orPanic (slice bytes 0 4)
    let form ← orPanic (slice bytes 8 12)
    if riff ≠ ascii "RIFF" ∨ form ≠ ascii "WEBP" then .ok none
    else do
      let chunks ← orPanic (slice bytes 12 bytes.length)
      webpFrom target bytes.length true chunks

/-! ## Boxes -/

def extent (bytes : List UInt8) (size : ℕ) : Panicking Truncated (ℕ × ℕ) :=
  if size = 0 then .ok (8, bytes.length)
  else if size = 1 then do
    let field ← orReturn .truncated (slice bytes 8 16)
    .ok (16, ofBytes field)
  else .ok (8, size)

def nextBox (bytes : List UInt8) : Panicking Truncated (Option Split) :=
  if bytes.isEmpty then .ok none
  else do
    let header ← orReturn .truncated (slice bytes 0 8)
    let kind ← orPanic (slice header 4 8)
    let field ← orPanic (slice header 0 4)
    let (headerLen, size) ← extent bytes (ofBytes field)
    let size ← orReturn .truncated (Checked.fits target.bits size)
    if size < headerLen then .error (.returned .truncated)
    else do
      let body ← orReturn .truncated (slice bytes headerLen size)
      let rest ← orPanic (slice bytes size bytes.length)
      .ok (some ⟨kind, body, rest⟩)

def childrenFrom : ℕ → List UInt8 → Panicking Truncated (List Box)
  | 0, bytes => if bytes.isEmpty then .ok [] else .error .panicked
  | fuel + 1, bytes => do
      match ← nextBox target bytes with
      | none => .ok []
      | some child => do
          let boxes ← childrenFrom fuel child.rest
          .ok ((child.kind, child.body) :: boxes)

/-- Every child box; a walk that fails gives none. -/
def children (body : List UInt8) : Panicking Unit (List Box) :=
  match childrenFrom target body.length body with
  | .error (.returned _) => .error (.returned ())
  | .error .panicked => .error .panicked
  | .ok boxes => .ok boxes

def associationsFrom (ipma : List UInt8) (item : ℕ) (version : UInt8) (wide : Bool) :
    ℕ → ℕ → Panicking Unit (List ℕ)
  | 0, _ => .ok []
  | count + 1, pos => do
      let idWidth := if version < 1 then 2 else 4
      let id ← read target idWidth ipma pos
      let pos ← orPanic (Checked.add target.bits pos idWidth)
      let n ← orReturn () ipma[pos]?
      let pos ← orPanic (Checked.add target.bits pos 1)
      let length ← orPanic (Checked.mul target.bits n.toNat (if wide then 2 else 1))
      let stop ← orPanic (Checked.add target.bits pos length)
      if id = item then do
        let entries ← orReturn () (slice ipma pos stop)
        .ok (indices wide entries)
      else associationsFrom ipma item version wide count stop

def associations (ipma : List UInt8) (item : ℕ) : Panicking Unit (List ℕ) := do
  let version ← orReturn () ipma[0]?
  let flags ← orReturn () ipma[3]?
  let count ← read target 4 ipma 4
  associationsFrom target ipma item version (flags &&& 1 == 1) count 8

def primaryItem (pitm : List UInt8) : Panicking Unit ℕ := do
  let version ← orReturn () pitm[0]?
  if version = 0 then read target 2 pitm 4 else read target 4 pitm 4

def primaryColr (body : List UInt8) : Panicking Unit (List (List UInt8)) := do
  let boxes ← orReturn () (slice body 4 body.length)
  let boxes ← children target boxes
  let pitm ← orReturn () (find boxes (ascii "pitm"))
  let primary ← primaryItem target pitm
  let iprp ← orReturn () (find boxes (ascii "iprp"))
  let iprp ← children target iprp
  let ipco ← orReturn () (find iprp (ascii "ipco"))
  let properties ← children target ipco
  let found ← (iprp.filter (·.1 == ascii "ipma")).mapM fun ipma =>
    associations target ipma.2 primary
  .ok (found.flatten.filterMap (colrAt properties))

def profileFromColrs (colrs : List (List UInt8)) : Panicking Unit String :=
  match colrs.find? isIcc with
  | some body => do
      let profile ← orPanic (slice body 4 body.length)
      description target profile
  | none => do
      let nclx ← orReturn () (colrs.find? (slice · 0 4 == some (ascii "nclx")))
      let primaries ← read target 2 nclx 4
      let transfer ← read target 2 nclx 6
      orReturn () (nclxName primaries transfer)

def metaProfile (body : List UInt8) : Panicking Unit String := do
  let colrs ← primaryColr target body
  profileFromColrs target colrs

def findMeta : ℕ → List UInt8 → Panicking Truncated (List UInt8)
  | 0, bytes => if bytes.isEmpty then .error (.returned .truncated) else .error .panicked
  | fuel + 1, bytes => do
      match ← nextBox target bytes with
      | none => .error (.returned .truncated)
      | some top =>
          if top.kind = ascii "meta" then .ok top.body else findMeta fuel top.rest

def isobmff (bytes : List UInt8) : Panicking Truncated (Option String) := do
  let body ← findMeta target bytes.length bytes
  called (metaProfile target body)

def colorProfile (format : ImageFormat) (bytes : List UInt8) :
    Panicking Truncated (Option String) :=
  match format with
  | .webP => webp target bytes
  | .avif | .heif => isobmff target bytes
  | _ => .ok none

/-! ## The walks end, and do not overflow -/

variable {target} {bytes : List UInt8}

theorem ofAttempt_orTruncated {α : Type} (x : Option α) :
    ofAttempt (orTruncated x) = orReturn .truncated x := by
  cases x with
  | none => rfl
  | some x => rfl

/-- The two halves of a header. -/
theorem halves {header : List UInt8} (h : slice bytes 0 8 = some header) :
    slice header 0 4 = some (header.take 4) ∧ slice header 4 8 = some (header.drop 4) := by
  obtain ⟨hlength, -⟩ := length_slice h
  have hend : header.length = 8 := hlength
  refine ⟨slice_zero (by omega), ?_⟩
  rw [← hend]
  exact slice_to_end (by omega)

theorem riffChunk_eq (h : target.Addresses bytes) :
    riffChunk target bytes = ofAttempt (Container.riffChunk bytes) := by
  rw [riffChunk, Container.riffChunk, ofAttempt_bind, ofAttempt_orTruncated]
  cases hheader : slice bytes 0 8 with
  | none => rfl
  | some header =>
  obtain ⟨hkind, hfield⟩ := halves hheader
  simp only [orReturn_some, ok_bind, hkind, hfield, orPanic_some, getRange_eq h]
  rw [ofAttempt_bind, ofAttempt_orTruncated]
  cases hdata : slice bytes 8 (8 + ofBytes (header.drop 4).reverse) with
  | none => rfl
  | some data =>
  obtain ⟨-, hstop⟩ := length_slice hdata
  rw [Checked.add_of_lt (lt_two_pow h (by omega)), orPanic_some]
  simp only [orReturn_some, ok_bind]
  rw [Checked.add_of_lt (lt_two_pow h (by omega)), orPanic_some, ok_bind,
    slice_to_end (Nat.min_le_right _ _)]
  rfl

theorem extent_eq (size : ℕ) : extent bytes size = ofAttempt (Container.extent bytes size) := by
  unfold extent Container.extent
  split
  · rfl
  · split
    · rw [ofAttempt_bind, ofAttempt_orTruncated, readAt, orReturn_map]
      cases slice bytes 8 (8 + 8) with
      | none => rfl
      | some field => rfl
    · rfl

theorem nextBox_eq (h : target.Addresses bytes) :
    nextBox target bytes = ofAttempt (Container.nextBox bytes) := by
  rw [nextBox, Container.nextBox]
  split
  · rfl
  · rw [ofAttempt_bind, ofAttempt_orTruncated]
    cases hheader : slice bytes 0 8 with
    | none => rfl
    | some header =>
    obtain ⟨hkind, hfield⟩ := halves hheader
    simp only [orReturn_some, ok_bind, hkind, hfield, orPanic_some, extent_eq, ofAttempt_bind]
    cases hextent : Container.extent bytes (ofBytes (header.take 4)) with
    | error e => rfl
    | ok lengths =>
    obtain ⟨headerLen, size⟩ := lengths
    simp only [ofAttempt_ok, ok_bind]
    by_cases hfits : size < 2 ^ target.bits
    · rw [Checked.fits_of_lt hfits, orReturn_some, ok_bind]
      split
      · rfl
      · rw [ofAttempt_bind, ofAttempt_orTruncated]
        cases hbody : slice bytes headerLen size with
        | none => rfl
        | some body =>
        obtain ⟨-, hstop⟩ := length_slice hbody
        rw [orReturn_some, ok_bind, slice_to_end hstop]
        rfl
    · -- a size that is no address is past the end
      have hout := lt_two_pow h (Nat.le_add_right bytes.length (2 ^ 31))
      have hnone : slice bytes headerLen size = none := slice_eq_none.mpr (Or.inl (by omega))
      rw [Checked.fits_eq_none.mpr (Nat.le_of_not_lt hfits), orReturn_none, error_bind, hnone]
      split
      · rfl
      · rfl

/-- A box's contents and what follows it are parts of the bytes. -/
theorem length_split {top : Split} (h : Container.nextBox bytes = .ok (some top)) :
    top.body.length ≤ bytes.length ∧ top.rest.length < bytes.length := by
  obtain ⟨-, headerLen, size, -, -, hbody, -, -⟩ := nextBox_eq_some.mp h
  obtain ⟨hlength, hstop⟩ := length_slice hbody
  exact ⟨by omega, length_rest_lt h⟩

theorem Addresses.of_length (h : target.Addresses bytes) {part : List UInt8}
    (hlength : part.length ≤ bytes.length) : target.Addresses part :=
  Nat.lt_of_le_of_lt hlength h

theorem childrenFrom_eq (h : target.Addresses bytes) (fuel : ℕ) (hfuel : bytes.length ≤ fuel) :
    childrenFrom target fuel bytes = orReturn .truncated (Container.childrenFrom fuel bytes) := by
  induction fuel generalizing bytes with
  | zero =>
    rw [childrenFrom, List.length_eq_zero_iff.mp (Nat.le_zero.mp hfuel)]
    rfl
  | succ fuel ih =>
    rw [childrenFrom, Container.childrenFrom, nextBox_eq h]
    cases hnext : Container.nextBox bytes with
    | error e => rfl
    | ok found =>
    cases found with
    | none => rfl
    | some child =>
    obtain ⟨-, hrest⟩ := length_split hnext
    rw [ofAttempt_ok, ok_bind]
    dsimp only
    rw [ih (Addresses.of_length h hrest.le) (by omega), orReturn_map]

theorem children_eq (h : target.Addresses bytes) :
    children target bytes = orReturn () (Container.children bytes) := by
  rw [children, childrenFrom_eq h _ (Nat.le_refl _), Container.children]
  cases Container.childrenFrom bytes.length bytes with
  | none => rfl
  | some boxes => rfl

theorem length_of_mem_childrenFrom (fuel : ℕ) {boxes : List Box} {box : Box}
    (h : Container.childrenFrom fuel bytes = some boxes) (hbox : box ∈ boxes) :
    box.2.length ≤ bytes.length := by
  induction fuel generalizing bytes boxes with
  | zero =>
    obtain rfl : [] = boxes := Option.some.inj h
    exact absurd hbox (List.not_mem_nil)
  | succ fuel ih =>
    rw [Container.childrenFrom] at h
    cases hnext : Container.nextBox bytes with
    | error e =>
      rw [hnext] at h
      exact absurd h.symm (Option.some_ne_none _)
    | ok found =>
    rw [hnext] at h
    cases found with
    | none =>
      obtain rfl : [] = boxes := Option.some.inj h
      exact absurd hbox (List.not_mem_nil)
    | some child =>
    obtain ⟨hbody, hrest⟩ := length_split hnext
    obtain ⟨others, hothers, rfl⟩ := Option.map_eq_some_iff.mp h
    obtain rfl | hmem := List.mem_cons.mp hbox
    · exact hbody
    · exact (ih hothers hmem).trans hrest.le

theorem length_find {boxes : List Box} {kind body : List UInt8}
    (hboxes : Container.children bytes = some boxes) (hfind : find boxes kind = some body) :
    body.length ≤ bytes.length := by
  obtain ⟨box, hbox, rfl⟩ := Option.map_eq_some_iff.mp hfind
  exact length_of_mem_childrenFrom _ hboxes (List.mem_of_find?_eq_some hbox)

/-- What is found among the children is addressed as they are. -/
theorem addresses_find (h : target.Addresses bytes) {boxes : List Box} {kind body : List UInt8}
    (hboxes : Container.children bytes = some boxes) (hfind : find boxes kind = some body) :
    target.Addresses body :=
  Addresses.of_length h (length_find hboxes hfind)

theorem associationsFrom_eq (h : target.Addresses bytes) (item : ℕ) (version : UInt8) (wide : Bool)
    (count pos : ℕ) (hpos : pos ≤ bytes.length + 2 ^ 10) :
    associationsFrom target bytes item version wide count pos =
      orReturn () (Container.associationsFrom bytes item version wide count pos) := by
  induction count generalizing pos with
  | zero => rfl
  | succ count ih =>
    rw [associationsFrom, Container.associationsFrom]
    have hwidth : (if version < 1 then 2 else 4) ≤ 4 := by
      split <;> omega
    generalize (if version < 1 then 2 else 4) = idWidth at hwidth
    dsimp only
    rw [read_eq h, Option.bind_eq_bind, orReturn_bind]
    congr 1
    funext id
    rw [Checked.add_of_lt (lt_two_pow h (by omega)), orPanic_some, ok_bind, Option.bind_eq_bind,
      orReturn_bind]
    cases hn : bytes[pos + idWidth]? with
    | none => rfl
    | some n =>
    obtain ⟨hlt, -⟩ := List.getElem?_eq_some_iff.mp hn
    have hbyte := n.toNat_lt
    have hlength : n.toNat * (if wide then 2 else 1) ≤ 2 ^ 9 := by
      split <;> omega
    rw [orReturn_some, ok_bind, ok_bind, Checked.add_of_lt (lt_two_pow h (by omega)),
      orPanic_some, ok_bind, Checked.mul_of_lt (lt_two_pow h (by omega)), orPanic_some, ok_bind]
    generalize n.toNat * (if wide then 2 else 1) = length at hlength
    rw [Checked.add_of_lt (lt_two_pow h (by omega)), orPanic_some, ok_bind]
    split
    · rw [orReturn_map]
    · exact ih _ (by omega)

theorem associations_eq (h : target.Addresses bytes) (item : ℕ) :
    associations target bytes item = orReturn () (Container.associations bytes item) := by
  rw [associations, Container.associations]
  simp only [Option.bind_eq_bind, orReturn_bind, read_eq h]
  congr 1
  funext version
  congr 1
  funext flags
  congr 1
  funext count
  exact associationsFrom_eq h _ _ _ _ _ (by omega)

theorem primaryItem_eq (h : target.Addresses bytes) :
    primaryItem target bytes = orReturn () (Container.primaryItem bytes) := by
  rw [primaryItem, Container.primaryItem, Option.bind_eq_bind, orReturn_bind]
  congr 1
  funext version
  split
  · exact read_eq h 2 4
  · exact read_eq h 4 4

theorem mapM_eq {α β : Type} {f : α → Panicking Unit β} {g : α → Option β} {xs : List α}
    (h : ∀ x ∈ xs, f x = orReturn () (g x)) : xs.mapM f = orReturn () (xs.mapM g) := by
  induction xs with
  | nil => rfl
  | cons x xs ih =>
    rw [List.mapM_cons, List.mapM_cons, h x List.mem_cons_self,
      ih fun x hx => h x (List.mem_cons_of_mem _ hx)]
    simp only [Option.bind_eq_bind, orReturn_bind]
    rfl

theorem primaryColr_eq (h : target.Addresses bytes) :
    primaryColr target bytes = orReturn () (Container.primaryColr bytes) := by
  rw [primaryColr, Container.primaryColr]
  cases hslice : slice bytes 4 bytes.length with
  | none => rfl
  | some inner =>
  have hinner := addresses_slice h hslice
  simp only [Option.bind_eq_bind, Option.bind_some, orReturn_some, ok_bind, children_eq hinner]
  cases hboxes : Container.children inner with
  | none => rfl
  | some boxes =>
  simp only [Option.bind_some, orReturn_some, ok_bind]
  cases hpitm : find boxes (ascii "pitm") with
  | none => rfl
  | some pitm =>
  simp only [Option.bind_some, orReturn_some, ok_bind,
    primaryItem_eq (addresses_find hinner hboxes hpitm)]
  cases Container.primaryItem pitm with
  | none => rfl
  | some primary =>
  simp only [Option.bind_some, orReturn_some, ok_bind]
  cases hiprp : find boxes (ascii "iprp") with
  | none => rfl
  | some iprp =>
  have hprops := addresses_find hinner hboxes hiprp
  simp only [Option.bind_some, orReturn_some, ok_bind, children_eq hprops]
  cases hchildren : Container.children iprp with
  | none => rfl
  | some props =>
  simp only [Option.bind_some, orReturn_some, ok_bind]
  cases hipco : find props (ascii "ipco") with
  | none => rfl
  | some ipco =>
  simp only [Option.bind_some, orReturn_some, ok_bind,
    children_eq (addresses_find hprops hchildren hipco)]
  cases Container.children ipco with
  | none => rfl
  | some properties =>
  have hfound : ((props.filter (·.1 == ascii "ipma")).mapM fun ipma =>
      associations target ipma.2 primary) = orReturn () ((props.filter (·.1 == ascii "ipma")).mapM
        fun ipma => Container.associations ipma.2 primary) :=
    mapM_eq fun ipma hipma => associations_eq (Addresses.of_length hprops
      (length_of_mem_childrenFrom _ hchildren (List.mem_filter.mp hipma).1)) primary
  simp only [Option.bind_some, orReturn_some, ok_bind, hfound, orReturn_bind]

/-! ## Where a profile is read -/

/-- The walk comes to the profile of the file, and is that of the numbers but for it. -/
structure Follows {ε α : Type} (x : Panicking ε α) (y : Except ε α) (wide : Prop) : Prop where
  panics : wide → x = .error .panicked
  eq : ¬wide → x = ofAttempt y

theorem Follows.ne_panicked_iff {ε α : Type} {x : Panicking ε α} {y : Except ε α} {wide : Prop}
    (h : Follows x y wide) : x ≠ .error .panicked ↔ ¬wide := by
  constructor
  · intro hne hwide
    exact hne (h.panics hwide)
  · intro hfits
    rw [h.eq hfits]
    exact ofAttempt_ne_panicked y

theorem called_description {ε : Type} (h : target.Addresses bytes) :
    Follows (called (description target bytes) : Panicking ε (Option String))
      (.ok (Icc.description bytes)) (Overflows target bytes) where
  panics hwide := by
    rw [description_wide h hwide]
    rfl
  eq hfits := by
    rw [description_eq h hfits, called_orReturn]
    rfl

/-- The profile that the walk over the chunks comes to. -/
def iccpFrom : ℕ → Bool → List UInt8 → Option (List UInt8)
  | 0, _, _ => none
  | fuel + 1, first, bytes => do
      let chunk ← (Container.riffChunk bytes).toOption
      if chunk.kind = ascii "VP8X" ∧ first then
        if declaresIcc chunk.body then iccpFrom fuel false chunk.rest else none
      else if chunk.kind = ascii "ICCP" then some chunk.body
      else none

/-- The profile in a file in WebP. -/
def iccp (bytes : List UInt8) : Option (List UInt8) :=
  if bytes.length < 12 then none
  else if slice bytes 0 4 ≠ some (ascii "RIFF") ∨ slice bytes 8 12 ≠ some (ascii "WEBP")
  then none
  else iccpFrom bytes.length true (bytes.drop 12)

/-- The profile among the properties of the primary item. -/
def itemProfile (bytes : List UInt8) : Option (List UInt8) :=
  ((Container.findMeta bytes.length bytes).toOption.bind Container.primaryColr).bind fun colrs =>
    (colrs.find? isIcc).map (·.drop 4)

/-- The profile that a container holds where it is looked for. -/
def embedded (format : ImageFormat) (bytes : List UInt8) : Option (List UInt8) :=
  match format with
  | .webP => iccp bytes
  | .avif | .heif => itemProfile bytes
  | _ => none

/-- There is a profile and its records are too wide. -/
def AnyOverflows (target : Target) (profile : Option (List UInt8)) : Prop :=
  ∃ icc, profile = some icc ∧ Overflows target icc

theorem not_anyOverflows : ¬AnyOverflows target none :=
  fun ⟨_, h, _⟩ => absurd h.symm (Option.some_ne_none _)

theorem anyOverflows_some {icc : List UInt8} :
    AnyOverflows target (some icc) ↔ Overflows target icc := by
  simp [AnyOverflows]

theorem Follows.of_ofAttempt {ε α : Type} {x : Panicking ε α} {y : Except ε α}
    (h : x = ofAttempt y) :
    Follows x y (AnyOverflows target none) :=
  ⟨fun hwide => absurd hwide not_anyOverflows, fun _ => h⟩

theorem webpFrom_follows (h : target.Addresses bytes) (fuel : ℕ) (first : Bool)
    (hfuel : bytes.length < fuel) : Follows (webpFrom target fuel first bytes)
      (Container.webpFrom fuel first bytes) (AnyOverflows target (iccpFrom fuel first bytes)) := by
  induction fuel generalizing first bytes with
  | zero => exact absurd hfuel (Nat.not_lt_zero _)
  | succ fuel ih =>
    rw [webpFrom, Container.webpFrom, iccpFrom, riffChunk_eq h]
    cases hchunk : Container.riffChunk bytes with
    | error e => exact .of_ofAttempt rfl
    | ok chunk =>
    obtain ⟨size, hlength, -, hbody, -, hrest⟩ := riffChunk_eq_ok.mp hchunk
    obtain ⟨hbodyLength, hstop⟩ := length_slice hbody
    have hshorter : chunk.rest.length < bytes.length := by
      rw [hrest, List.length_drop]
      omega
    rw [ofAttempt_ok, ok_bind]
    change Follows _ (if _ then _ else _) (AnyOverflows target (if _ then _ else _))
    split
    · split
      · exact ih (Addresses.of_length h hshorter.le) false (by omega)
      · exact .of_ofAttempt rfl
    · split
      · rw [anyOverflows_some]
        exact called_description (Addresses.of_length h (by omega))
      · exact .of_ofAttempt rfl

theorem webp_follows (h : target.Addresses bytes) : Follows (webp target bytes)
    (Container.webp bytes) (AnyOverflows target (iccp bytes)) := by
  rw [webp, Container.webp, iccp]
  split
  · exact .of_ofAttempt rfl
  · rename_i hlength
    obtain ⟨riff, hriff⟩ : ∃ riff, slice bytes 0 4 = some riff := ⟨_, slice_zero (by omega)⟩
    obtain ⟨form, hform⟩ : ∃ form, slice bytes 8 12 = some form :=
      ⟨_, slice_eq_some.mpr ⟨by omega, rfl⟩⟩
    simp only [hriff, hform, orPanic_some, ok_bind, Option.some.injEq, ne_eq]
    split
    · exact .of_ofAttempt rfl
    · rw [slice_to_end (by omega), orPanic_some, ok_bind]
      have hshorter : (bytes.drop 12).length < bytes.length := by
        rw [List.length_drop]
        omega
      exact webpFrom_follows (Addresses.of_length h hshorter.le) _ true hshorter

theorem findMeta_eq (h : target.Addresses bytes) (fuel : ℕ) (hfuel : bytes.length ≤ fuel) :
    findMeta target fuel bytes = ofAttempt (Container.findMeta fuel bytes) := by
  induction fuel generalizing bytes with
  | zero =>
    rw [findMeta, List.length_eq_zero_iff.mp (Nat.le_zero.mp hfuel)]
    rfl
  | succ fuel ih =>
    rw [findMeta, Container.findMeta, nextBox_eq h]
    cases hnext : Container.nextBox bytes with
    | error e => rfl
    | ok found =>
    cases found with
    | none => rfl
    | some top =>
    obtain ⟨-, hrest⟩ := length_split hnext
    rw [ofAttempt_ok, ok_bind]
    change (if _ then _ else _) = ofAttempt (if _ then _ else _)
    split
    · rfl
    · exact ih (Addresses.of_length h hrest.le) (by omega)

theorem length_findMeta (fuel : ℕ) {body : List UInt8} (hfuel : bytes.length ≤ fuel)
    (h : Container.findMeta fuel bytes = .ok body) : body.length ≤ bytes.length := by
  obtain ⟨rest, top, hreaches, hnext, -, rfl⟩ := (findMeta_eq_ok fuel hfuel).mp h
  refine (length_split hnext).1.trans ?_
  clear h hnext
  induction hreaches with
  | here bytes => exact Nat.le_refl _
  | next hfirst _ _ ih =>
    have hrest := (length_split hfirst).2
    exact (ih (by omega)).trans hrest.le

theorem mem_of_colrAt {properties : List Box} {index : ℕ} {body : List UInt8}
    (h : colrAt properties index = some body) : ∃ property ∈ properties, property.2 = body := by
  unfold colrAt at h
  split at h
  · exact absurd h.symm (Option.some_ne_none _)
  · obtain ⟨property, hproperty, h⟩ := Option.bind_eq_some_iff.mp h
    obtain ⟨-, hbody⟩ := Option.ite_none_right_eq_some.mp h
    exact ⟨property, List.mem_of_getElem? hproperty, Option.some.inj hbody⟩

/-- The properties of the primary item are no longer than what they are read from. -/
theorem length_of_mem_primaryColr {colrs : List (List UInt8)} {colr : List UInt8}
    (h : Container.primaryColr bytes = some colrs) (hcolr : colr ∈ colrs) :
    colr.length ≤ bytes.length := by
  obtain ⟨inner, hinner, h⟩ := Option.bind_eq_some_iff.mp h
  obtain ⟨boxes, hboxes, h⟩ := Option.bind_eq_some_iff.mp h
  obtain ⟨pitm, -, h⟩ := Option.bind_eq_some_iff.mp h
  obtain ⟨primary, -, h⟩ := Option.bind_eq_some_iff.mp h
  obtain ⟨iprp, hiprp, h⟩ := Option.bind_eq_some_iff.mp h
  obtain ⟨props, hprops, h⟩ := Option.bind_eq_some_iff.mp h
  obtain ⟨ipco, hipco, h⟩ := Option.bind_eq_some_iff.mp h
  obtain ⟨properties, hproperties, h⟩ := Option.bind_eq_some_iff.mp h
  obtain ⟨found, -, h⟩ := Option.bind_eq_some_iff.mp h
  obtain rfl : found.flatten.filterMap (colrAt properties) = colrs := Option.some.inj h
  obtain ⟨index, -, hindex⟩ := List.mem_filterMap.mp hcolr
  obtain ⟨property, hproperty, rfl⟩ := mem_of_colrAt hindex
  calc property.2.length ≤ ipco.length := length_of_mem_childrenFrom _ hproperties hproperty
    _ ≤ iprp.length := length_find hprops hipco
    _ ≤ inner.length := length_find hboxes hiprp
    _ ≤ bytes.length := by
      obtain ⟨hlength, -⟩ := length_slice hinner
      omega

theorem isIcc_length {body : List UInt8} (h : isIcc body = true) : 4 ≤ body.length := by
  by_contra hshort
  have hnone : slice body 0 4 = none := slice_eq_none.mpr (Or.inl (by omega))
  simp [isIcc, hnone] at h

theorem profileFromColrs_follows {ε : Type} {colrs : List (List UInt8)}
    (h : ∀ colr ∈ colrs, target.Addresses colr) :
    Follows (called (profileFromColrs target colrs) : Panicking ε (Option String))
      (.ok (Container.profileFromColrs colrs))
      (AnyOverflows target ((colrs.find? isIcc).map (·.drop 4))) := by
  rw [profileFromColrs, Container.profileFromColrs]
  cases hicc : colrs.find? isIcc with
  | some icc =>
    have hlength := isIcc_length (List.find?_some hicc)
    dsimp only
    rw [slice_to_end hlength, orPanic_some, ok_bind, Option.map_some, anyOverflows_some]
    refine called_description (Addresses.of_length (h icc (List.mem_of_find?_eq_some hicc)) ?_)
    rw [List.length_drop]
    exact Nat.sub_le _ _
  | none =>
    refine .of_ofAttempt ?_
    cases hnclx : colrs.find? (slice · 0 4 == some (ascii "nclx")) with
    | none => rfl
    | some nclx =>
      have haddresses := h nclx (List.mem_of_find?_eq_some hnclx)
      have hread : (do
          let primaries ← read target 2 nclx 4
          let transfer ← read target 2 nclx 6
          orReturn () (nclxName primaries transfer) : Panicking Unit String) =
          orReturn () ((readAt 2 nclx 4).bind fun primaries =>
            (readAt 2 nclx 6).bind fun transfer => nclxName primaries transfer) := by
        simp only [read_eq haddresses, orReturn_bind]
      exact (congrArg called hread).trans (called_orReturn _)

theorem isobmff_follows (h : target.Addresses bytes) : Follows (isobmff target bytes)
    (Container.isobmff bytes) (AnyOverflows target (itemProfile bytes)) := by
  rw [isobmff, Container.isobmff, itemProfile, findMeta_eq h _ (Nat.le_refl _)]
  cases hmeta : Container.findMeta bytes.length bytes with
  | error e => exact .of_ofAttempt rfl
  | ok body =>
  have hbody := Addresses.of_length h (length_findMeta _ (Nat.le_refl _) hmeta)
  rw [ofAttempt_ok, ok_bind, metaProfile, primaryColr_eq hbody]
  change Follows _ (.ok ((Container.primaryColr body).bind Container.profileFromColrs))
    (AnyOverflows target ((Container.primaryColr body).bind fun colrs =>
      (colrs.find? isIcc).map (·.drop 4)))
  cases hcolrs : Container.primaryColr body with
  | none => exact .of_ofAttempt rfl
  | some colrs =>
    exact profileFromColrs_follows fun colr hcolr =>
      Addresses.of_length hbody (length_of_mem_primaryColr hcolrs hcolr)

theorem colorProfile_follows (h : target.Addresses bytes) (format : ImageFormat) :
    Follows (colorProfile target format bytes) (Container.colorProfile format bytes)
      (AnyOverflows target (embedded format bytes)) := by
  cases format with
  | webP => exact webp_follows h
  | avif => exact isobmff_follows h
  | heif => exact isobmff_follows h
  | bmp => exact .of_ofAttempt rfl
  | gif => exact .of_ofAttempt rfl
  | jpeg => exact .of_ofAttempt rfl
  | png => exact .of_ofAttempt rfl
  | tiff => exact .of_ofAttempt rfl

theorem description_ne_panicked_iff (h : target.Addresses bytes) :
    description target bytes ≠ .error .panicked ↔ ¬Overflows target bytes := by
  constructor
  · intro hne hwide
    exact hne (description_wide h hwide)
  · intro hfits
    rw [description_eq h hfits]
    exact orReturn_ne_panicked _ _

/-- Neither reader panics but where the profile it reads has records that are too wide
for addresses of 32 bits. -/
theorem profiles_panic_iff (target : Target) (format : ImageFormat)
    (bytes : { bytes : List UInt8 // target.Addresses bytes }) :
    (description target bytes ≠ .error .panicked ↔ ¬Overflows target bytes) ∧
    (colorProfile target format bytes ≠ .error .panicked ↔
      ¬AnyOverflows target (embedded format bytes)) :=
  ⟨description_ne_panicked_iff bytes.2, (colorProfile_follows bytes.2 format).ne_panicked_iff⟩

/-- A profile of two records, the second of which begins at the address `2 ^ 32 - 4`. -/
def wideProfile : List UInt8 :=
  List.replicate 36 0 ++ ascii "acsp" ++ List.replicate 88 0 ++
  ([0, 0, 0, 1] ++ ascii "desc" ++ [0, 0, 0, 144] ++ [0, 0, 0, 28]) ++
  (ascii "mluc" ++ [0, 0, 0, 0] ++ [0, 0, 0, 2] ++ [0xff, 0xff, 0xff, 0xec] ++
    (ascii "enUS" ++ [0, 0, 0, 2] ++ [0, 0, 0, 26]))

def wideWebP : List UInt8 :=
  ascii "RIFF" ++ [202, 0, 0, 0] ++ ascii "WEBP" ++
  (ascii "VP8X" ++ [10, 0, 0, 0] ++ [0x20, 0, 0, 0, 0, 0, 0, 0, 0, 0]) ++
  (ascii "ICCP" ++ [172, 0, 0, 0] ++ wideProfile)

theorem wide_profile_panics : description .pointer32 wideProfile = .error .panicked ∧
    colorProfile .pointer32 .webP wideWebP = .error .panicked := by
  decide +kernel

end Bounded

end Image

end RustSak
