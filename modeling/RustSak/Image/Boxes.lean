import RustSak.Image.Cut

/-!
# Written boxes

A box as it is written, with a 32- or a 64-bit size that it fits. What is written is
split off again, whatever follows it, and boxes written one after another are walked.
-/

namespace RustSak

namespace Image

namespace Container

open Library BigEndian

/-- The whole box fits its size field. -/
def Fits (large : Bool) (body : List UInt8) : Prop :=
  if large then 16 + body.length < 256 ^ 8 else 8 + body.length < 256 ^ 4

instance Fits.decidable (large : Bool) (body : List UInt8) : Decidable (Fits large body) :=
  inferInstanceAs (Decidable (if large then _ else _))

/-- A box with a `large` size field or the usual one. -/
structure Written where
  kind : List UInt8
  large : Bool
  body : List UInt8
  length_kind : kind.length = 4
  fits : Fits large body

namespace Written

def bytes (box : Written) : List UInt8 :=
  if box.large then
    toBytes 4 1 ++ box.kind ++ toBytes 8 (16 + box.body.length) ++ box.body
  else toBytes 4 (8 + box.body.length) ++ box.kind ++ box.body

/-- As one of the children of another box. -/
def split (box : Written) : Box := (box.kind, box.body)

theorem le_length_bytes (box : Written) : 8 ≤ box.bytes.length := by
  unfold bytes
  split
  · simp only [List.length_append, length_toBytes, box.length_kind]
    omega
  · simp only [List.length_append, length_toBytes, box.length_kind]
    omega

/-- The header at the front: the size field and the type. -/
theorem take_of_header {size kind : List UInt8} (hsize : size.length = 4)
    (hkind : kind.length = 4) (rest : List UInt8) :
    (size ++ kind ++ rest).take 4 = size ∧
      ((size ++ kind ++ rest).take 8).drop 4 = kind := by
  have htake : (size ++ kind ++ rest).take 8 = size ++ kind :=
    List.take_left' (by rw [List.length_append, hsize, hkind])
  constructor
  · rw [List.append_assoc]
    exact List.take_left' hsize
  · rw [htake]
    exact List.drop_left' hsize

theorem nextBox_usual {kind body : List UInt8} (hkind : kind.length = 4)
    (hfits : 8 + body.length < 256 ^ 4) (tail : List UInt8) :
    nextBox (toBytes 4 (8 + body.length) ++ kind ++ body ++ tail) =
      .ok (some ⟨kind, body, tail⟩) := by
  have hheader := take_of_header (length_toBytes 4 (8 + body.length)) hkind (body ++ tail)
  have hlen : (toBytes 4 (8 + body.length) ++ kind).length = 8 := by
    rw [List.length_append, length_toBytes, hkind]
  simp only [← List.append_assoc] at hheader
  refine nextBox_eq_some.mpr ⟨?_, 8, 8 + body.length, ?_, Nat.le_add_right _ _, ?_,
    hheader.2.symm, ?_⟩
  · simp only [List.length_append] at hlen ⊢
    omega
  · rw [hheader.1, ofBytes_toBytes hfits, extent, if_neg (by omega), if_neg (by omega)]
  · refine slice_of_eq (toBytes 4 (8 + body.length) ++ kind) tail ?_ ?_ ?_
    · simp only [List.append_assoc]
    · exact hlen.symm
    · rw [hlen]
  · rw [List.drop_left' (by rw [List.length_append, hlen])]

theorem nextBox_large {kind body : List UInt8} (hkind : kind.length = 4)
    (hfits : 16 + body.length < 256 ^ 8) (tail : List UInt8) :
    nextBox (toBytes 4 1 ++ kind ++ toBytes 8 (16 + body.length) ++ body ++ tail) =
      .ok (some ⟨kind, body, tail⟩) := by
  have hheader := take_of_header (length_toBytes 4 1) hkind
    (toBytes 8 (16 + body.length) ++ (body ++ tail))
  have hlen : (toBytes 4 1 ++ kind ++ toBytes 8 (16 + body.length)).length = 16 := by
    simp only [List.length_append, length_toBytes, hkind]
  simp only [← List.append_assoc] at hheader
  have hone : ofBytes (toBytes 4 1) = 1 := ofBytes_toBytes (by decide)
  have hread : readAt 8 (toBytes 4 1 ++ kind ++ toBytes 8 (16 + body.length) ++ body ++ tail)
      8 = some (16 + body.length) := by
    refine readAt_of_eq (toBytes 4 1 ++ kind) (body ++ tail) ?_ ?_ hfits
    · simp only [List.append_assoc]
    · rw [List.length_append, length_toBytes, hkind]
  refine nextBox_eq_some.mpr ⟨?_, 16, 16 + body.length, ?_, Nat.le_add_right _ _, ?_,
    hheader.2.symm, ?_⟩
  · simp only [List.length_append] at hlen ⊢
    omega
  · rw [hheader.1, hone, extent, if_neg (by decide), if_pos rfl, hread]
    rfl
  · refine slice_of_eq (toBytes 4 1 ++ kind ++ toBytes 8 (16 + body.length)) tail
      ?_ ?_ ?_
    · simp only [List.append_assoc]
    · exact hlen.symm
    · rw [hlen]
  · rw [List.drop_left' (by rw [List.length_append, hlen])]

/-- What is written is split off again. -/
theorem nextBox_bytes (box : Written) (tail : List UInt8) :
    nextBox (box.bytes ++ tail) = .ok (some ⟨box.kind, box.body, tail⟩) := by
  have hfits := box.fits
  unfold bytes
  unfold Fits at hfits
  split
  case isTrue hlarge =>
    rw [if_pos hlarge] at hfits
    exact nextBox_large box.length_kind hfits tail
  case isFalse husual =>
    rw [if_neg husual] at hfits
    exact nextBox_usual box.length_kind hfits tail

theorem childrenFrom_bytes (boxes : List Written) (fuel : ℕ)
    (hfuel : (boxes.flatMap bytes).length ≤ fuel) :
    childrenFrom fuel (boxes.flatMap bytes) = some (boxes.map split) := by
  induction boxes generalizing fuel with
  | nil => cases fuel <;> rfl
  | cons box boxes ih =>
      have hbox := box.le_length_bytes
      rw [List.flatMap_cons] at hfuel ⊢
      rw [List.length_append] at hfuel
      obtain ⟨fuel, rfl⟩ : ∃ n, fuel = n + 1 :=
        Nat.exists_eq_succ_of_ne_zero (by omega)
      have hrest := ih fuel (by omega)
      simp only [childrenFrom, nextBox_bytes, hrest]
      rfl

/-- The children of a box whose body they are. -/
theorem children_bytes (boxes : List Written) :
    children (boxes.flatMap bytes) = some (boxes.map split) :=
  childrenFrom_bytes boxes _ le_rfl

/-- The box of a kind of which there is one. -/
theorem find_split {boxes : List Written} {box : Written} {kind : List UInt8}
    (h : boxes.filter (·.kind == kind) = [box]) :
    find (boxes.map split) kind = some box.body := by
  have hfind : boxes.find? (·.kind == kind) = some box := by
    rw [← List.head?_filter, h]
    rfl
  rw [find, List.find?_map]
  change Option.map Prod.snd (Option.map split (boxes.find? (·.kind == kind))) = _
  rw [hfind]
  rfl

/-- The boxes of a kind. -/
theorem filter_split (boxes : List Written) (kind : List UInt8) :
    (boxes.map split).filter (·.1 == kind) =
      (boxes.filter (·.kind == kind)).map split := by
  rw [List.filter_map]
  rfl

/-- The walk goes past boxes that are no `meta`. -/
theorem reaches_bytes {boxes : List Written} (h : ∀ box ∈ boxes, box.kind ≠ ascii "meta")
    (tail : List UInt8) : Reaches (boxes.flatMap bytes ++ tail) tail := by
  induction boxes with
  | nil => exact .here tail
  | cons box boxes ih =>
      rw [List.flatMap_cons, List.append_assoc]
      exact .next (box.nextBox_bytes _) (h box List.mem_cons_self)
        (ih fun other hother => h other (List.mem_cons_of_mem _ hother))

/-- The `meta` that is written behind them is read. -/
theorem isobmff_bytes {boxes : List Written} (h : ∀ box ∈ boxes, box.kind ≠ ascii "meta")
    {box : Written} (hbox : box.kind = ascii "meta") (tail : List UInt8) :
    isobmff (boxes.flatMap bytes ++ (box.bytes ++ tail)) = .ok (metaProfile box.body) :=
  isobmff_eq_ok.mpr ⟨_, _, reaches_bytes h _, box.nextBox_bytes tail, hbox, rfl⟩

end Written

end Container

end Image

end RustSak
