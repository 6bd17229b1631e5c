import RustSak.Image.Icc

/-!
# The color profile a container declares

The walk over the chunks of a WebP file and the boxes of an ISO-BMFF one. Every box and
chunk has a header of eight bytes or more, so that there are no more of them than bytes;
the walks count down from that.
-/

namespace RustSak

namespace Image

open Library BigEndian

/-- A supported image format. -/
inductive ImageFormat where
  | bmp
  | gif
  | jpeg
  | png
  | tiff
  | avif
  | heif
  | webP
  deriving DecidableEq

namespace Container

/-- The bytes ran out before the answer was found. -/
inductive Truncated where
  | truncated
  deriving DecidableEq

/-- `ok_or(Truncated)`. -/
def orTruncated {α : Type} (found : Option α) : Except Truncated α :=
  found.elim (.error .truncated) .ok

@[simp] theorem orTruncated_some {α : Type} (x : α) : orTruncated (some x) = .ok x := rfl

@[simp] theorem orTruncated_none {α : Type} :
    orTruncated (none : Option α) = .error .truncated := rfl

theorem orTruncated_eq_ok {α : Type} {found : Option α} {x : α} :
    orTruncated found = .ok x ↔ found = some x := by
  cases found <;> simp

/-- A chunk or box: its type, its contents, and the bytes that follow it. -/
structure Split where
  kind : List UInt8
  body : List UInt8
  rest : List UInt8
  deriving DecidableEq

/-! ## WebP -/

/-- Splits off the chunk at the front; chunks are padded to an even length. -/
def riffChunk (bytes : List UInt8) : Except Truncated Split := do
  let header ← orTruncated (slice bytes 0 8)
  let size := ofBytes (header.drop 4).reverse
  let data ← orTruncated (slice bytes 8 (8 + size))
  let padded := min (8 + size + size % 2) bytes.length
  .ok ⟨header.take 4, data, bytes.drop padded⟩

/-- `VP8X_ICC`, the flag that says a profile follows. -/
def declaresIcc (data : List UInt8) : Bool :=
  data.head?.any fun flags => flags &&& 0x20 != 0

/-- The walk from the first chunk on, or a later one. -/
def webpFrom : ℕ → Bool → List UInt8 → Except Truncated (Option String)
  | 0, _, _ => .error .truncated
  | fuel + 1, first, bytes => do
      let chunk ← riffChunk bytes
      if chunk.kind = ascii "VP8X" ∧ first then
        if declaresIcc chunk.body then webpFrom fuel false chunk.rest else .ok none
      else if chunk.kind = ascii "ICCP" then .ok (Icc.description chunk.body)
      else .ok none

def webp (bytes : List UInt8) : Except Truncated (Option String) :=
  if bytes.length < 12 then .error .truncated
  else if slice bytes 0 4 ≠ some (ascii "RIFF") ∨ slice bytes 8 12 ≠ some (ascii "WEBP")
  then .ok none
  else webpFrom bytes.length true (bytes.drop 12)

/-! ## Boxes -/

/-- The lengths of the header and of the whole box, by the size field; zero is a box
that runs to the end. -/
def extent (bytes : List UInt8) (size : ℕ) : Except Truncated (ℕ × ℕ) :=
  if size = 0 then .ok (8, bytes.length)
  else if size = 1 then do
    let size ← orTruncated (readAt 8 bytes 8)
    .ok (16, size)
  else .ok (8, size)

/-- Splits off the box at the front, if there is one. -/
def nextBox (bytes : List UInt8) : Except Truncated (Option Split) :=
  if bytes.isEmpty then .ok none
  else do
    let header ← orTruncated (slice bytes 0 8)
    let (headerLen, size) ← extent bytes (ofBytes (header.take 4))
    if size < headerLen then .error .truncated
    else do
      let body ← orTruncated (slice bytes headerLen size)
      .ok (some ⟨header.drop 4, body, bytes.drop size⟩)

abbrev Box := List UInt8 × List UInt8

def childrenFrom : ℕ → List UInt8 → Option (List Box)
  | 0, _ => some []
  | fuel + 1, bytes =>
      match nextBox bytes with
      | .error _ => none
      | .ok none => some []
      | .ok (some child) =>
          (childrenFrom fuel child.rest).map ((child.kind, child.body) :: ·)

/-- Every child box, if they can all be walked. -/
def children (body : List UInt8) : Option (List Box) := childrenFrom body.length body

def find (boxes : List Box) (kind : List UInt8) : Option (List UInt8) :=
  (boxes.find? (·.1 == kind)).map Prod.snd

/-! ## The properties of the primary item -/

/-- Indices of two bytes; the top bit marks a property essential. -/
def wideIndices : List UInt8 → List ℕ
  | high :: low :: bytes => (ofBytes [high, low] &&& 0x7FFF) :: wideIndices bytes
  | _ => []

def indices (wide : Bool) (bytes : List UInt8) : List ℕ :=
  if wide then wideIndices bytes else bytes.map fun byte => byte.toNat &&& 0x7F

/-- The entries that are left, the next one at `pos`. -/
def associationsFrom (ipma : List UInt8) (item : ℕ) (version : UInt8) (wide : Bool) :
    ℕ → ℕ → Option (List ℕ)
  | 0, _ => some []
  | count + 1, pos => do
      let idWidth := if version < 1 then 2 else 4
      let id ← readAt idWidth ipma pos
      let n ← ipma[pos + idWidth]?
      let start := pos + idWidth + 1
      let stop := start + n.toNat * if wide then 2 else 1
      if id = item then (slice ipma start stop).map (indices wide)
      else associationsFrom ipma item version wide count stop

/-- The indices the box associates with the item. -/
def associations (ipma : List UInt8) (item : ℕ) : Option (List ℕ) := do
  let version ← ipma[0]?
  let flags ← ipma[3]?
  let count ← readAt 4 ipma 4
  associationsFrom ipma item version (flags &&& 1 == 1) count 8

/-- The `colr` property with an index; indices are 1-based, and 0 is no property. -/
def colrAt (properties : List Box) (index : ℕ) : Option (List UInt8) :=
  if index = 0 then none
  else properties[index - 1]?.bind fun property =>
    if property.1 = ascii "colr" then some property.2 else none

/-- The primary item, from the body of `pitm`. -/
def primaryItem (pitm : List UInt8) : Option ℕ := do
  let version ← pitm[0]?
  if version = 0 then readAt 2 pitm 4 else readAt 4 pitm 4

/-- The bodies of the `colr` properties of the primary item. -/
def primaryColr (body : List UInt8) : Option (List (List UInt8)) := do
  let boxes ← children (← slice body 4 body.length)
  let pitm ← find boxes (ascii "pitm")
  let primary ← primaryItem pitm
  let iprp ← children (← find boxes (ascii "iprp"))
  let properties ← children (← find iprp (ascii "ipco"))
  let found ← (iprp.filter (·.1 == ascii "ipma")).mapM fun ipma =>
    associations ipma.2 primary
  some (found.flatten.filterMap (colrAt properties))

/-- Names a coded color description by its primaries and transfer characteristics. -/
def nclxName (primaries transfer : ℕ) : Option String :=
  if primaries = 1 ∧ transfer = 13 then some "sRGB"
  else if primaries = 12 ∧ transfer = 13 then some "Display P3"
  else if primaries = 9 ∧ transfer ∈ [1, 6, 13, 14, 15] then some "Rec. 2020"
  else if primaries = 9 ∧ transfer = 16 then some "Rec. 2100 PQ"
  else if primaries = 9 ∧ transfer = 18 then some "Rec. 2100 HLG"
  else none

def isIcc (body : List UInt8) : Bool :=
  slice body 0 4 == some (ascii "prof") || slice body 0 4 == some (ascii "rICC")

/-- The name for a set of `colr` bodies: a profile's description where there is a
profile, or else the name of a coded description. -/
def profileFromColrs (colrs : List (List UInt8)) : Option String :=
  match colrs.find? isIcc with
  | some body => Icc.description (body.drop 4)
  | none => do
      let nclx ← colrs.find? (slice · 0 4 == some (ascii "nclx"))
      let primaries ← readAt 2 nclx 4
      let transfer ← readAt 2 nclx 6
      nclxName primaries transfer

/-- The name that the body of a `meta` box gives. -/
def metaProfile (body : List UInt8) : Option String :=
  (primaryColr body).bind profileFromColrs

/-- The body of the first `meta` among the top-level boxes. -/
def findMeta : ℕ → List UInt8 → Except Truncated (List UInt8)
  | 0, _ => .error .truncated
  | fuel + 1, bytes => do
      match ← nextBox bytes with
      | none => .error .truncated
      | some top =>
          if top.kind = ascii "meta" then .ok top.body else findMeta fuel top.rest

def isobmff (bytes : List UInt8) : Except Truncated (Option String) := do
  let body ← findMeta bytes.length bytes
  .ok (metaProfile body)

/-- The name of the color profile the container declares, if it does. -/
def colorProfile (format : ImageFormat) (bytes : List UInt8) :
    Except Truncated (Option String) :=
  match format with
  | .webP => webp bytes
  | .avif | .heif => isobmff bytes
  | _ => .ok none

end Container

end Image

end RustSak
