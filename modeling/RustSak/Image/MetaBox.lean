import RustSak.Image.Boxes

/-!
# The color of the primary item

A `meta` box as the standard has it: the primary item, the properties in their
container, and which of them each item is given. The walk over the boxes finds those of
the primary item and no others, and the name is that of the first profile among them,
or else of the first coded description.
-/

namespace RustSak

namespace Image

namespace Container

open Library BigEndian

/-! ## Properties -/

/-- An item property; `colr` is one with a type of its own. -/
inductive Property where
  | icc (restricted : Bool) (profile : List UInt8)
  | nclx (primaries transfer matrix : UInt16) (fullRange : UInt8)
  | color (type body : List UInt8)
      (h : type.length = 4 ∧ type ∉ [ascii "prof", ascii "rICC", ascii "nclx"])
  | other (kind body : List UInt8) (h : kind.length = 4 ∧ kind ≠ ascii "colr")

namespace Property

def kind : Property → List UInt8
  | other kind _ _ => kind
  | _ => ascii "colr"

def body : Property → List UInt8
  | icc restricted profile => ascii (if restricted then "rICC" else "prof") ++ profile
  | nclx primaries transfer matrix fullRange =>
      ascii "nclx" ++ toBytes 2 primaries.toNat ++ toBytes 2 transfer.toNat ++
        toBytes 2 matrix.toNat ++ [fullRange]
  | color type body _ => type ++ body
  | other _ body _ => body

/-- The embedded profile. -/
def profile : Property → Option (List UInt8)
  | icc _ profile => some profile
  | _ => none

/-- The coded primaries and transfer characteristics. -/
def coded : Property → Option (ℕ × ℕ)
  | nclx primaries transfer _ _ => some (primaries.toNat, transfer.toNat)
  | _ => none

/-- The name that a list of properties declares. -/
def declared (properties : List Property) : Option String :=
  match properties.findSome? profile with
  | some profile => Icc.description profile
  | none => (properties.findSome? coded).bind fun codes => nclxName codes.1 codes.2

theorem length_kind (property : Property) : property.kind.length = 4 := by
  have hcolr : (ascii "colr").length = 4 := by decide +kernel
  cases property with
  | other kind body h => exact h.1
  | icc restricted profile => exact hcolr
  | nclx primaries transfer matrix fullRange => exact hcolr
  | color type body h => exact hcolr

end Property

/-- Contents that have been put in a box. -/
structure Boxed {κ : Type} (body : κ → List UInt8) where
  contents : κ
  large : Bool
  fits : Fits large (body contents)

def Boxed.written {κ : Type} {body : κ → List UInt8} (box : Boxed body) (kind : List UInt8)
    (h : kind.length = 4) : Written := ⟨kind, box.large, body box.contents, h, box.fits⟩

/-! ## Associations -/

/-- The associations of an item: the essential bit, and the index. -/
structure Entry where
  item : ℕ
  associations : List (Bool × ℕ)

namespace Entry

/-- The top bit of an association. -/
def bit (essential : Bool) (width : ℕ) : ℕ := if essential then 2 ^ (8 * width - 1) else 0

/-- The associations, of `width` bytes each. -/
def associationBytes (width : ℕ) (entry : Entry) : List UInt8 :=
  entry.associations.flatMap fun association =>
    toBytes width (bit association.1 width + association.2)

def bytes (idWidth width : ℕ) (entry : Entry) : List UInt8 :=
  toBytes idWidth entry.item ++ UInt8.ofNat entry.associations.length ::
    entry.associationBytes width

/-- Item, number and indices fit their fields. -/
structure FitsIn (idWidth width : ℕ) (entry : Entry) : Prop where
  item : entry.item < 256 ^ idWidth
  count : entry.associations.length < 256
  index : ∀ association ∈ entry.associations, association.2 < 2 ^ (8 * width - 1)

instance FitsIn.decidable (idWidth width : ℕ) (entry : Entry) :
    Decidable (entry.FitsIn idWidth width) :=
  decidable_of_iff (entry.item < 256 ^ idWidth ∧ entry.associations.length < 256 ∧
      ∀ association ∈ entry.associations, association.2 < 2 ^ (8 * width - 1))
    ⟨fun h => ⟨h.1, h.2.1, h.2.2⟩, fun h => ⟨h.item, h.count, h.index⟩⟩

end Entry

/-- The width of item ids in a version of the box. -/
def idWidth (version : UInt8) : ℕ := if version < 1 then 2 else 4

/-- Indices are wide by the lowest bit of the flags. -/
def isWide (flags : UInt8 × UInt8 × UInt8) : Bool := flags.2.2 &&& 1 == 1

def indexWidth (wide : Bool) : ℕ := if wide then 2 else 1

/-- What an `ipma` box holds: at most one entry for each item. -/
structure Ipma where
  version : UInt8
  flags : UInt8 × UInt8 × UInt8
  entries : List Entry
  nodup : (entries.map Entry.item).Nodup
  count : entries.length < 256 ^ 4
  fits : ∀ entry ∈ entries, entry.FitsIn (idWidth version) (indexWidth (isWide flags))

namespace Ipma

def body (ipma : Ipma) : List UInt8 :=
  [ipma.version, ipma.flags.1, ipma.flags.2.1, ipma.flags.2.2] ++
    toBytes 4 ipma.entries.length ++
    ipma.entries.flatMap (Entry.bytes (idWidth ipma.version) (indexWidth (isWide ipma.flags)))

/-- The indices that an item is given. -/
def indicesOf (item : ℕ) (entries : List Entry) : List ℕ :=
  (entries.filter (·.item == item)).flatMap fun entry => entry.associations.map Prod.snd

end Ipma

/-! ## The boxes around them -/

/-- What a `pitm` box holds: the primary item. -/
structure Pitm where
  version : UInt8
  flags : UInt8 × UInt8 × UInt8
  item : ℕ
  fits : item < 256 ^ idWidth version

def Pitm.body (pitm : Pitm) : List UInt8 :=
  [pitm.version, pitm.flags.1, pitm.flags.2.1, pitm.flags.2.2] ++
    toBytes (idWidth pitm.version) pitm.item

/-- What the `ipco` box holds. -/
def Ipco.body (properties : List (Boxed Property.body)) : List UInt8 :=
  properties.flatMap fun box =>
    (box.written box.contents.kind box.contents.length_kind).bytes

/-- What the `iprp` box holds: the properties, their associations, and any other boxes,
in any order. -/
structure Iprp where
  container : Boxed Ipco.body
  ipmas : List (Boxed Ipma.body)
  children : List Written
  ipco : children.filter (·.kind == ascii "ipco") =
    [container.written (ascii "ipco") (by decide +kernel)]
  ipma : children.filter (·.kind == ascii "ipma") =
    ipmas.map fun box => box.written (ascii "ipma") (by decide +kernel)

def Iprp.body (iprp : Iprp) : List UInt8 := iprp.children.flatMap Written.bytes

/-- What the `meta` box holds: a version and flags, the primary item, the properties,
and any other boxes, in any order. -/
structure MetaBox where
  header : UInt8 × UInt8 × UInt8 × UInt8
  primary : Boxed Pitm.body
  properties : Boxed Iprp.body
  children : List Written
  pitm : children.filter (·.kind == ascii "pitm") =
    [primary.written (ascii "pitm") (by decide +kernel)]
  iprp : children.filter (·.kind == ascii "iprp") =
    [properties.written (ascii "iprp") (by decide +kernel)]

namespace MetaBox

def body (box : MetaBox) : List UInt8 :=
  [box.header.1, box.header.2.1, box.header.2.2.1, box.header.2.2.2] ++
    box.children.flatMap Written.bytes

/-- The property with an index, of which 0 is none. -/
def propertyAt (properties : List (Boxed Property.body)) (index : ℕ) : Option Property :=
  if index = 0 then none else properties[index - 1]?.map Boxed.contents

/-- The properties of the primary item. -/
def ofPrimary (box : MetaBox) : List Property :=
  (box.properties.contents.ipmas.flatMap fun ipma =>
    Ipma.indicesOf box.primary.contents.item ipma.contents.entries).filterMap
      (propertyAt box.properties.contents.container.contents)

end MetaBox

/-! ## The associations are read -/

theorem bit_add_mod (essential : Bool) {width index : ℕ}
    (h : index < 2 ^ (8 * width - 1)) :
    (Entry.bit essential width + index) % 2 ^ (8 * width - 1) = index := by
  cases essential with
  | false => rw [Entry.bit, if_neg (by simp), Nat.zero_add, Nat.mod_eq_of_lt h]
  | true => rw [Entry.bit, if_pos rfl, Nat.add_mod_left, Nat.mod_eq_of_lt h]

theorem bit_add_lt (essential : Bool) {width index : ℕ} (hwidth : 0 < width)
    (h : index < 2 ^ (8 * width - 1)) : Entry.bit essential width + index < 256 ^ width := by
  have hpow : 256 ^ width = 2 ^ (8 * width - 1) * 2 := by
    rw [← pow_succ, show (256 : ℕ) = 2 ^ 8 from rfl, ← pow_mul]
    congr 1
    omega
  have hbit : Entry.bit essential width ≤ 2 ^ (8 * width - 1) := by
    unfold Entry.bit
    split
    · exact le_rfl
    · exact Nat.zero_le _
  omega

theorem wideIndices_toBytes {n : ℕ} (h : n < 256 ^ 2) (bytes : List UInt8) :
    wideIndices (toBytes 2 n ++ bytes) = n % 2 ^ 15 :: wideIndices bytes := by
  have hread : ofBytes (toBytes 2 n) = n := ofBytes_toBytes h
  have hmask : n &&& 0x7FFF = n % 2 ^ 15 := Nat.and_two_pow_sub_one_eq_mod n 15
  rw [← hmask]
  conv_rhs => rw [← hread]
  rfl

theorem narrowIndices_toBytes {n : ℕ} (h : n < 256) (bytes : List UInt8) :
    indices false (toBytes 1 n ++ bytes) = n % 2 ^ 7 :: indices false bytes := by
  have hbyte : toBytes 1 n = [UInt8.ofNat n] := by simp [toBytes]
  have hmask : (UInt8.ofNat n).toNat &&& 0x7F = n % 2 ^ 7 := by
    rw [UInt8.toNat_ofNat_of_lt' h]
    exact Nat.and_two_pow_sub_one_eq_mod n 7
  rw [hbyte, ← hmask]
  rfl

theorem indices_associationBytes (wide : Bool) {entry : Entry}
    (h : ∀ association ∈ entry.associations,
      association.2 < 2 ^ (8 * indexWidth wide - 1)) :
    indices wide (entry.associationBytes (indexWidth wide)) =
      entry.associations.map Prod.snd := by
  obtain ⟨item, associations⟩ := entry
  unfold Entry.associationBytes
  dsimp only at h ⊢
  induction associations with
  | nil => cases wide <;> rfl
  | cons association associations ih =>
      have hindex := h association List.mem_cons_self
      have hrest := ih fun other hother => h other (List.mem_cons_of_mem _ hother)
      have hlt := bit_add_lt association.1 (by cases wide <;> decide) hindex
      have hmod := bit_add_mod association.1 hindex
      rw [List.flatMap_cons, List.map_cons, ← hrest]
      cases wide with
      | true =>
          exact (wideIndices_toBytes hlt _).trans (congrArg (· :: _) hmod)
      | false =>
          exact (narrowIndices_toBytes hlt _).trans (congrArg (· :: _) hmod)

theorem Entry.length_associationBytes (width : ℕ) (entry : Entry) :
    (entry.associationBytes width).length = entry.associations.length * width := by
  simp [Entry.associationBytes, List.length_flatMap]

/-! An entry that stands behind `before`, and its parts. -/

theorem Entry.length_bytes (idWidth width : ℕ) (entry : Entry) :
    (entry.bytes idWidth width).length =
      idWidth + 1 + entry.associations.length * width := by
  rw [Entry.bytes, List.length_append, List.length_cons, length_toBytes,
    Entry.length_associationBytes]
  omega

theorem Entry.readAt_item {idWidth width : ℕ} {entry : Entry}
    (h : entry.FitsIn idWidth width) (before rest : List UInt8) :
    readAt idWidth (before ++ (entry.bytes idWidth width ++ rest)) before.length =
      some entry.item := by
  refine readAt_of_eq before (UInt8.ofNat entry.associations.length ::
    entry.associationBytes width ++ rest) ?_ rfl h.item
  rw [Entry.bytes, List.append_assoc]

theorem Entry.getElem?_count (idWidth width : ℕ) (entry : Entry)
    (before rest : List UInt8) :
    (before ++ (entry.bytes idWidth width ++ rest))[before.length + idWidth]? =
      some (UInt8.ofNat entry.associations.length) := by
  rw [List.getElem?_append_right (Nat.le_add_right _ _), Nat.add_sub_cancel_left,
    Entry.bytes, List.append_assoc, List.getElem?_append_right (by rw [length_toBytes]),
    length_toBytes, Nat.sub_self]
  rfl

theorem Entry.slice_associations (idWidth width : ℕ) (entry : Entry)
    (before rest : List UInt8) :
    slice (before ++ (entry.bytes idWidth width ++ rest)) (before.length + idWidth + 1)
        (before.length + idWidth + 1 + entry.associations.length * width) =
      some (entry.associationBytes width) := by
  have hstart : before.length + idWidth + 1 =
      (before ++ (toBytes idWidth entry.item ++
        [UInt8.ofNat entry.associations.length])).length := by
    simp only [List.length_append, length_toBytes, List.length_singleton]
    omega
  refine slice_of_eq _ rest ?_ hstart ?_
  · rw [Entry.bytes]
    simp only [List.append_assoc, List.cons_append, List.nil_append]
  · rw [← hstart, Entry.length_associationBytes]

/-- One entry is read: it is the one looked for, or the next one follows. -/
theorem associationsFrom_succ {ipma : List UInt8} {item : ℕ} {version : UInt8} {wide : Bool}
    {count pos id : ℕ} {n : UInt8} (hid : readAt (idWidth version) ipma pos = some id)
    (hn : ipma[pos + idWidth version]? = some n) :
    associationsFrom ipma item version wide (count + 1) pos =
      if id = item then
        (slice ipma (pos + idWidth version + 1)
          (pos + idWidth version + 1 + n.toNat * indexWidth wide)).map (indices wide)
      else associationsFrom ipma item version wide count
        (pos + idWidth version + 1 + n.toNat * indexWidth wide) := by
  unfold idWidth at hid hn
  rw [associationsFrom, hid, Option.bind_eq_bind, Option.bind_some, hn,
    Option.bind_eq_bind, Option.bind_some]
  rfl

theorem Ipma.indicesOf_cons_self {entry : Entry} {entries : List Entry}
    (h : entry.item ∉ entries.map Entry.item) :
    Ipma.indicesOf entry.item (entry :: entries) = entry.associations.map Prod.snd := by
  have hrest : entries.filter (·.item == entry.item) = [] := by
    rw [List.filter_eq_nil_iff]
    intro other hother heq
    exact h (List.mem_map.mpr ⟨other, hother, eq_of_beq heq⟩)
  rw [Ipma.indicesOf, List.filter_cons_of_pos (by simp), hrest,
    List.flatMap_singleton]

theorem Ipma.indicesOf_cons_of_ne {item : ℕ} {entry : Entry} (h : entry.item ≠ item)
    (entries : List Entry) :
    Ipma.indicesOf item (entry :: entries) = Ipma.indicesOf item entries := by
  rw [Ipma.indicesOf, List.filter_cons_of_neg (by simpa using h)]
  rfl

/-- The entries from a position on: those before the item's are passed over. -/
theorem associationsFrom_bytes (item : ℕ) {version : UInt8} {wide : Bool}
    {entries : List Entry} (hnodup : (entries.map Entry.item).Nodup)
    (hfits : ∀ entry ∈ entries, entry.FitsIn (idWidth version) (indexWidth wide))
    {ipma : List UInt8} (before : List UInt8)
    (hipma : ipma =
      before ++ entries.flatMap (Entry.bytes (idWidth version) (indexWidth wide))) :
    associationsFrom ipma item version wide entries.length before.length =
      some (Ipma.indicesOf item entries) := by
  induction entries generalizing before with
  | nil => rfl
  | cons entry entries ih =>
      rw [List.map_cons, List.nodup_cons] at hnodup
      have hentry := hfits entry List.mem_cons_self
      have hrest : ∀ other ∈ entries, other.FitsIn (idWidth version) (indexWidth wide) :=
        fun other hother => hfits other (List.mem_cons_of_mem _ hother)
      rw [List.flatMap_cons] at hipma
      have hid : readAt (idWidth version) ipma before.length = some entry.item := by
        rw [hipma, Entry.readAt_item hentry]
      have hn : ipma[before.length + idWidth version]? =
          some (UInt8.ofNat entry.associations.length) := by
        rw [hipma, Entry.getElem?_count]
      have hcount : (UInt8.ofNat entry.associations.length).toNat =
          entry.associations.length := UInt8.toNat_ofNat_of_lt' hentry.count
      rw [List.length_cons, associationsFrom_succ hid hn, hcount]
      by_cases hitem : entry.item = item
      · subst hitem
        rw [if_pos rfl, Ipma.indicesOf_cons_self hnodup.1, hipma,
          Entry.slice_associations, Option.map_some,
          indices_associationBytes wide hentry.index]
      · rw [if_neg hitem, Ipma.indicesOf_cons_of_ne hitem]
        have hstop : before.length + idWidth version + 1 +
            entry.associations.length * indexWidth wide =
            (before ++ entry.bytes (idWidth version) (indexWidth wide)).length := by
          rw [List.length_append, Entry.length_bytes]
          omega
        rw [hstop]
        apply ih hnodup.2 hrest
        rw [hipma, List.append_assoc]

/-- The box gives an item the indices that were written for it. -/
theorem associations_body (ipma : Ipma) (item : ℕ) :
    associations ipma.body item = some (Ipma.indicesOf item ipma.entries) := by
  have hcount : readAt 4 ipma.body 4 = some ipma.entries.length := by
    refine readAt_of_eq
      [ipma.version, ipma.flags.1, ipma.flags.2.1, ipma.flags.2.2]
      (ipma.entries.flatMap
        (Entry.bytes (idWidth ipma.version) (indexWidth (isWide ipma.flags)))) ?_ rfl
      ipma.count
    rw [Ipma.body, List.append_assoc]
  have hentries := associationsFrom_bytes item ipma.nodup ipma.fits
    ([ipma.version, ipma.flags.1, ipma.flags.2.1, ipma.flags.2.2] ++
      toBytes 4 ipma.entries.length) (Eq.refl ipma.body)
  unfold associations
  rw [hcount]
  exact hentries

/-! ## The color properties -/

/-- The body of a `colr` property. -/
def Property.colr (property : Property) : Option (List UInt8) :=
  if property.kind = ascii "colr" then some property.body else none

theorem Property.colr_of_kind {property : Property} (h : property.kind = ascii "colr") :
    property.colr = some property.body := if_pos h

theorem Property.colr_other {kind body : List UInt8}
    (h : kind.length = 4 ∧ kind ≠ ascii "colr") : (other kind body h).colr = none :=
  if_neg h.2

theorem slice_type {type : List UInt8} (h : type.length = 4) (rest : List UInt8) :
    slice (type ++ rest) 0 4 = some type :=
  slice_of_eq [] rest rfl rfl (by rw [h]; rfl)

theorem isIcc_type {type : List UInt8} (h : type.length = 4) (rest : List UInt8) :
    isIcc (type ++ rest) = (type == ascii "prof" || type == ascii "rICC") := by
  rw [isIcc, slice_type h]
  rfl

/-- The first image that meets `p`, seen through `g`, where `h` sees it from before. -/
theorem find?_filterMap_map {α β γ : Type} {f : α → Option β} {p : β → Bool} {g : β → γ}
    {h : α → Option γ} (hf : ∀ x, ((f x).filter p).map g = h x) (xs : List α) :
    ((xs.filterMap f).find? p).map g = xs.findSome? h := by
  induction xs with
  | nil => rfl
  | cons x xs ih =>
      have hx := hf x
      rw [List.findSome?_cons, ← hx]
      cases hy : f x with
      | none =>
          rw [List.filterMap_cons_none hy]
          exact ih
      | some y =>
          rw [List.filterMap_cons_some hy, Option.filter_some]
          by_cases hp : p y = true
          · rw [List.find?_cons_of_pos hp, if_pos hp]
            rfl
          · rw [List.find?_cons_of_neg hp, if_neg hp]
            exact ih

/-- The first body with a profile is that of the first embedded profile. -/
theorem find?_isIcc (properties : List Property) :
    ((properties.filterMap Property.colr).find? isIcc).map (·.drop 4) =
      properties.findSome? Property.profile := by
  apply find?_filterMap_map
  intro property
  cases property with
  | icc restricted profile =>
      have hlen : (ascii (if restricted then "rICC" else "prof")).length = 4 := by
        cases restricted <;> decide +kernel
      have hicc : isIcc (Property.icc restricted profile).body = true := by
        rw [Property.body, isIcc_type hlen]
        cases restricted <;> decide +kernel
      rw [Property.colr_of_kind rfl, Option.filter_some, if_pos hicc, Option.map_some,
        Property.body, List.drop_left' hlen]
      rfl
  | nclx primaries transfer matrix fullRange =>
      have hicc : isIcc (Property.nclx primaries transfer matrix fullRange).body = false := by
        simp only [Property.body, List.append_assoc]
        rw [isIcc_type (by decide +kernel)]
        decide +kernel
      rw [Property.colr_of_kind rfl, Option.filter_some, hicc]
      rfl
  | color type body h =>
      have hicc : isIcc (Property.color type body h).body = false := by
        rw [Property.body, isIcc_type h.1]
        have hne := h.2
        simp only [List.mem_cons, not_or] at hne
        simp [hne.1, hne.2.1]
      rw [Property.colr_of_kind rfl, Option.filter_some, hicc]
      rfl
  | other kind body h =>
      rw [Property.colr_other]
      rfl

/-- The first coded body is that of the first coded description. -/
theorem find?_nclx (properties : List Property) :
    ((properties.filterMap Property.colr).find?
        (slice · 0 4 == some (ascii "nclx"))).map
        (fun body => (readAt 2 body 4, readAt 2 body 6)) =
      properties.findSome? fun property =>
        property.coded.map fun codes => (some codes.1, some codes.2) := by
  apply find?_filterMap_map
  intro property
  have hnclx : (ascii "nclx").length = 4 := by decide +kernel
  cases property with
  | icc restricted profile =>
      have hlen : (ascii (if restricted then "rICC" else "prof")).length = 4 := by
        cases restricted <;> decide +kernel
      have hother : (slice (Property.icc restricted profile).body 0 4 ==
          some (ascii "nclx")) = false := by
        rw [Property.body, slice_type hlen]
        cases restricted <;> decide +kernel
      rw [Property.colr_of_kind rfl, Option.filter_some, hother]
      rfl
  | nclx primaries transfer matrix fullRange =>
      have hcoded : (slice (Property.nclx primaries transfer matrix fullRange).body 0 4 ==
          some (ascii "nclx")) = true := by
        simp only [Property.body, List.append_assoc]
        rw [slice_type hnclx]
        exact beq_self_eq_true _
      have hprimaries : readAt 2 (Property.nclx primaries transfer matrix fullRange).body 4 =
          some primaries.toNat := by
        refine readAt_of_eq (ascii "nclx")
          (toBytes 2 transfer.toNat ++ (toBytes 2 matrix.toNat ++ [fullRange]))
          ?_ hnclx.symm primaries.toNat_lt
        simp only [Property.body, List.append_assoc]
      have htransfer : readAt 2 (Property.nclx primaries transfer matrix fullRange).body 6 =
          some transfer.toNat := by
        refine readAt_of_eq (ascii "nclx" ++ toBytes 2 primaries.toNat)
          (toBytes 2 matrix.toNat ++ [fullRange]) ?_ ?_ transfer.toNat_lt
        · simp only [Property.body, List.append_assoc]
        · rw [List.length_append, hnclx, length_toBytes]
      rw [Property.colr_of_kind rfl, Option.filter_some, if_pos hcoded, Option.map_some,
        hprimaries, htransfer]
      rfl
  | color type body h =>
      have hother : (slice (Property.color type body h).body 0 4 ==
          some (ascii "nclx")) = false := by
        rw [Property.body, slice_type h.1]
        have hne := h.2
        simp only [List.mem_cons, not_or] at hne
        simp [hne.2.2.1]
      rw [Property.colr_of_kind rfl, Option.filter_some, hother]
      rfl
  | other kind body h =>
      rw [Property.colr_other]
      rfl

/-- The name of the bodies is the one the properties declare. -/
theorem profileFromColrs_colr (properties : List Property) :
    profileFromColrs (properties.filterMap Property.colr) =
      Property.declared properties := by
  have hicc := find?_isIcc properties
  have hnclx := find?_nclx properties
  unfold profileFromColrs Property.declared
  rw [← hicc]
  cases (properties.filterMap Property.colr).find? isIcc with
  | some body => rfl
  | none =>
      let name (codes : Option ℕ × Option ℕ) : Option String :=
        codes.1.bind fun primaries => codes.2.bind fun transfer => nclxName primaries transfer
      have hnamed := congrArg (Option.bind · name) hnclx
      have hcoded := List.map_findSome? (l := properties) (f := Property.coded)
        (g := fun codes => (some codes.1, some codes.2))
      rw [Option.bind_map] at hnamed
      refine Eq.trans hnamed ?_
      change ((properties.findSome? (Option.map (fun codes => (some codes.1, some codes.2)) ∘
        Property.coded)).bind name) = _
      rw [← hcoded, Option.bind_map]
      rfl

/-! ## The walk -/

/-- A property in its box, among the children of `ipco`. -/
def propertyBox (box : Boxed Property.body) : Written :=
  box.written box.contents.kind box.contents.length_kind

theorem colrAt_split (properties : List (Boxed Property.body)) (index : ℕ) :
    colrAt ((properties.map propertyBox).map Written.split) index =
      (MetaBox.propertyAt properties index).bind Property.colr := by
  unfold colrAt MetaBox.propertyAt
  split
  · rfl
  · rw [List.map_map, List.getElem?_map]
    cases properties[index - 1]? <;> rfl

theorem children_ipco (properties : List (Boxed Property.body)) :
    children (Ipco.body properties) =
      some ((properties.map propertyBox).map Written.split) := by
  have hbody : Ipco.body properties = (properties.map propertyBox).flatMap Written.bytes := by
    rw [List.flatMap_map]
    rfl
  rw [hbody, Written.children_bytes]

theorem primaryItem_body (pitm : Pitm) : primaryItem pitm.body = some pitm.item := by
  have hversion : pitm.body[0]? = some pitm.version := rfl
  have hread : readAt (idWidth pitm.version) pitm.body 4 = some pitm.item :=
    readAt_of_eq [pitm.version, pitm.flags.1, pitm.flags.2.1, pitm.flags.2.2] []
      (by rw [List.append_nil, Pitm.body]) rfl pitm.fits
  unfold primaryItem
  rw [hversion, Option.bind_eq_bind, Option.bind_some]
  unfold idWidth at hread
  by_cases hzero : pitm.version = 0
  · rw [hzero, if_pos (by decide)] at hread
    rw [if_pos hzero, hread]
  · have hlt : ¬ pitm.version < 1 := by
      rw [UInt8.lt_iff_toNat_lt]
      rw [← UInt8.toNat_inj] at hzero
      simpa using hzero
    rw [if_neg hlt] at hread
    rw [if_neg hzero, hread]

theorem associations_ipmas (iprp : Iprp) (item : ℕ) :
    ((iprp.children.map Written.split).filter (·.1 == ascii "ipma")).mapM
        (fun ipma => associations ipma.2 item) =
      some (iprp.ipmas.map fun ipma => Ipma.indicesOf item ipma.contents.entries) := by
  rw [Written.filter_split, iprp.ipma, List.map_map, List.mapM_map]
  have hone : (fun box : Boxed Ipma.body => associations (box.contents.body) item) =
      fun box => pure (Ipma.indicesOf item box.contents.entries) :=
    funext fun box => associations_body box.contents item
  change List.mapM (fun box : Boxed Ipma.body => associations (box.contents.body) item) _ = _
  rw [hone, List.mapM_pure]
  rfl

/-- The bodies of the `colr` properties of the primary item are read, in their order. -/
theorem primaryColr_body (box : MetaBox) :
    primaryColr box.body = some (box.ofPrimary.filterMap Property.colr) := by
  have hslice : slice box.body 4 box.body.length =
      some (box.children.flatMap Written.bytes) := by
    refine slice_of_eq
      [box.header.1, box.header.2.1, box.header.2.2.1, box.header.2.2.2] [] ?_ rfl ?_
    · rw [List.append_nil, MetaBox.body]
    · rw [MetaBox.body, List.length_append]
  have hpitm : find (box.children.map Written.split) (ascii "pitm") =
      some box.primary.contents.body := Written.find_split box.pitm
  have hprimary := primaryItem_body box.primary.contents
  have hiprp : find (box.children.map Written.split) (ascii "iprp") =
      some box.properties.contents.body := Written.find_split box.iprp
  have hiprpBoxes : children box.properties.contents.body =
      some (box.properties.contents.children.map Written.split) := Written.children_bytes _
  have hipco : find (box.properties.contents.children.map Written.split) (ascii "ipco") =
      some (Ipco.body box.properties.contents.container.contents) :=
    Written.find_split box.properties.contents.ipco
  have hindices := associations_ipmas box.properties.contents box.primary.contents.item
  have hcolr := funext (colrAt_split box.properties.contents.container.contents)
  unfold primaryColr
  simp only [hslice, Written.children_bytes, hpitm, hprimary, hiprp, hiprpBoxes, hipco,
    children_ipco, hindices, Option.bind_eq_bind, Option.bind_some, hcolr]
  rw [MetaBox.ofPrimary, List.filterMap_filterMap, List.flatMap_def]

theorem metaProfile_body (box : MetaBox) :
    metaProfile box.body = Property.declared box.ofPrimary := by
  rw [metaProfile, primaryColr_body, Option.bind_some, profileFromColrs_colr]

/-- What is written behind other top-level boxes is named by the properties of its
primary item, whatever follows. -/
theorem colorProfile_primary {format : ImageFormat}
    (hformat : format = .avif ∨ format = .heif) {before : List Written}
    (hbefore : ∀ box ∈ before, box.kind ≠ ascii "meta") (box : Boxed MetaBox.body)
    (after : List UInt8) :
    colorProfile format (before.flatMap Written.bytes ++
        ((box.written (ascii "meta") (by decide +kernel)).bytes ++ after)) =
      .ok (Property.declared box.contents.ofPrimary) := by
  have hkind : (box.written (ascii "meta") (by decide +kernel)).kind = ascii "meta" := rfl
  have hmeta := (Written.isobmff_bytes hbefore hkind after).trans
    (congrArg Except.ok (metaProfile_body box.contents))
  rcases hformat with rfl | rfl
  · exact hmeta
  · exact hmeta

section Example

/-- An sRGB description, a property that is no color, and a Display P3 description. -/
def exampleProperties : List (Boxed Property.body) :=
  [⟨.nclx 1 13 1 0x80, false, by decide +kernel⟩,
    ⟨.other (ascii "ispe") [0, 0, 0, 0, 0, 0, 0, 9, 0, 0, 0, 9] (by decide +kernel), true,
      by decide +kernel⟩,
    ⟨.nclx 12 13 1 0x80, false, by decide +kernel⟩]

/-- The first item is given the first property, the second one the others. -/
def exampleIpma : Ipma where
  version := 1
  flags := (0, 0, 1)
  entries := [⟨1, [(true, 1)]⟩, ⟨2, [(false, 2), (true, 0), (true, 3)]⟩]
  nodup := by decide
  count := by decide
  fits := by decide +kernel

def exampleIprp : Iprp where
  container := ⟨exampleProperties, true, by decide +kernel⟩
  ipmas := [⟨exampleIpma, false, by decide +kernel⟩]
  children :=
    [⟨ascii "ipco", true, Ipco.body exampleProperties, by decide +kernel, by decide +kernel⟩,
      ⟨ascii "ipma", false, exampleIpma.body, by decide +kernel, by decide +kernel⟩]
  ipco := rfl
  ipma := rfl

def examplePitm : Pitm := ⟨0, (0, 0, 0), 2, by decide⟩

def exampleMeta : MetaBox where
  header := (0, 0, 0, 0)
  primary := ⟨examplePitm, false, by decide +kernel⟩
  properties := ⟨exampleIprp, false, by decide +kernel⟩
  children :=
    [⟨ascii "iprp", false, exampleIprp.body, by decide +kernel, by decide +kernel⟩,
      ⟨ascii "idat", true, [], by decide +kernel, by decide +kernel⟩,
      ⟨ascii "pitm", false, examplePitm.body, by decide +kernel, by decide +kernel⟩]
  pitm := rfl
  iprp := rfl

def exampleTop : List Written :=
  [⟨ascii "ftyp", false, ascii "avif", by decide +kernel, by decide +kernel⟩]

def exampleBox : Boxed MetaBox.body := ⟨exampleMeta, true, by decide +kernel⟩

theorem colorProfile_primary_displayP3 :
    colorProfile .avif (exampleTop.flatMap Written.bytes ++
      ((exampleBox.written (ascii "meta") (by decide +kernel)).bytes ++ [])) =
        .ok (some "Display P3") :=
  (colorProfile_primary (.inl rfl) (by decide +kernel) exampleBox []).trans
    (by decide +kernel)

end Example

end Container

end Image

end RustSak
