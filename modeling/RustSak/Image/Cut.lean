import RustSak.Image.Container
import RustSak.Library.Attempt

/-!
# What a part of the file tells

A chunk or box whose size is written out is split off the same when more bytes follow.
A box of size zero runs to the end of the file, but the walk ends it where its bytes
do; in front of `meta` that costs nothing, for nothing is left to walk, and `meta`
itself is taken for whole.
-/

namespace RustSak

namespace Image

namespace Container

open Library BigEndian

/-! ## Chunks of which more follows -/

theorem slice_header {bytes header : List UInt8} :
    slice bytes 0 8 = some header ↔ 8 ≤ bytes.length ∧ bytes.take 8 = header := by
  rw [slice_eq_some, List.drop_zero]
  simp

theorem riffChunk_eq_ok {bytes : List UInt8} {chunk : Split} :
    riffChunk bytes = .ok chunk ↔ ∃ size, 8 ≤ bytes.length ∧
      ofBytes ((bytes.take 8).drop 4).reverse = size ∧
      slice bytes 8 (8 + size) = some chunk.body ∧
      chunk.kind = (bytes.take 8).take 4 ∧
      chunk.rest = bytes.drop (min (8 + size + size % 2) bytes.length) := by
  unfold riffChunk
  simp only [Attempt.bind_eq_ok, orTruncated_eq_ok, slice_header]
  constructor
  · rintro ⟨header, ⟨hlen, rfl⟩, data, hdata, h⟩
    cases h
    exact ⟨_, hlen, rfl, hdata, rfl, rfl⟩
  · rintro ⟨size, hlen, rfl, hdata, hkind, hrest⟩
    refine ⟨_, ⟨hlen, rfl⟩, _, hdata, ?_⟩
    rw [← hkind, ← hrest]

/-- A chunk is split off the same before more bytes; they follow what followed it, if
anything did. -/
theorem riffChunk_append {bytes : List UInt8} {chunk : Split}
    (h : riffChunk bytes = .ok chunk) (more : List UInt8) :
    ∃ rest, riffChunk (bytes ++ more) = .ok { chunk with rest := rest } ∧
      (chunk.rest ≠ [] → rest = chunk.rest ++ more) := by
  obtain ⟨size, hlen, hsize, hbody, hkind, hrest⟩ := riffChunk_eq_ok.mp h
  have htake : (bytes ++ more).take 8 = bytes.take 8 :=
    List.take_append_of_le_length hlen
  refine ⟨(bytes ++ more).drop (min (8 + size + size % 2) (bytes ++ more).length),
    riffChunk_eq_ok.mpr ⟨size, ?_, ?_, slice_append_of_eq_some hbody more, ?_, rfl⟩,
    fun hne => ?_⟩
  · rw [List.length_append]
    omega
  · rw [htake, hsize]
  · rw [htake]
    exact hkind
  · have hlt : 8 + size + size % 2 < bytes.length := by
      by_contra hge
      rw [min_eq_right (Nat.le_of_not_lt hge), List.drop_length] at hrest
      exact hne hrest
    have hle : 8 + size + size % 2 ≤ (bytes ++ more).length := by
      rw [List.length_append]
      omega
    rw [min_eq_left hle, hrest, min_eq_left hlt.le,
      List.drop_append_of_le_length hlt.le]

theorem webpFrom_append {fuel : ℕ} {first : Bool} {bytes : List UInt8}
    {x : Option String} (h : webpFrom fuel first bytes = .ok x) (more : List UInt8)
    {fuel' : ℕ} (hfuel : fuel ≤ fuel') : webpFrom fuel' first (bytes ++ more) = .ok x := by
  induction fuel generalizing first bytes fuel' with
  | zero => cases h
  | succ fuel ih =>
      obtain ⟨fuel', rfl⟩ : ∃ n, fuel' = n + 1 :=
        Nat.exists_eq_succ_of_ne_zero (by omega)
      obtain ⟨chunk, hchunk, h⟩ := Attempt.bind_eq_ok.mp h
      obtain ⟨rest, happend, hrest⟩ := riffChunk_append hchunk more
      rw [webpFrom, happend]
      change (if chunk.kind = ascii "VP8X" ∧ first then
        if declaresIcc chunk.body then webpFrom fuel' false rest else .ok none
        else if chunk.kind = ascii "ICCP" then .ok (Icc.description chunk.body)
        else .ok none) = .ok x
      split at h
      case isFalse hother =>
        rw [if_neg hother]
        exact h
      case isTrue hextended =>
        rw [if_pos hextended]
        split at h
        case isFalse hflag =>
          rw [if_neg hflag]
          exact h
        case isTrue hflag =>
          have hne : chunk.rest ≠ [] := by
            intro hnil
            rw [hnil] at h
            cases fuel <;> cases h
          rw [if_pos hflag, hrest hne]
          exact ih h (by omega)

/-- An answer found in a part of a WebP file is the answer of the file. -/
theorem webp_append {bytes : List UInt8} {x : Option String} (h : webp bytes = .ok x)
    (more : List UInt8) : webp (bytes ++ more) = .ok x := by
  unfold webp at h ⊢
  split at h
  · cases h
  · rename_i hlen
    have hlen' : ¬ (bytes ++ more).length < 12 := by
      rw [List.length_append]
      omega
    rw [if_neg hlen', slice_append_of_le (by omega), slice_append_of_le (by omega)]
    split at h
    · rename_i hother
      rw [if_pos hother]
      exact h
    · rename_i hwebp
      rw [if_neg hwebp, List.drop_append_of_le_length (by omega)]
      apply webpFrom_append h
      rw [List.length_append]
      exact Nat.le_add_right _ _

/-! ## Boxes of which more follows -/

theorem take_header (bytes : List UInt8) : (bytes.take 8).take 4 = bytes.take 4 := by
  rw [List.take_take]
  rfl

/-- The box at the front, by what is read of it. -/
theorem nextBox_eq_some {bytes : List UInt8} {top : Split} :
    nextBox bytes = .ok (some top) ↔
      8 ≤ bytes.length ∧ ∃ headerLen size,
        extent bytes (ofBytes (bytes.take 4)) = .ok (headerLen, size) ∧
        headerLen ≤ size ∧ slice bytes headerLen size = some top.body ∧
        top.kind = (bytes.take 8).drop 4 ∧ top.rest = bytes.drop size := by
  unfold nextBox
  split
  case isTrue hempty =>
    rw [List.isEmpty_iff] at hempty
    subst hempty
    simp
  case isFalse hne =>
    simp only [Attempt.bind_eq_ok, orTruncated_eq_ok, slice_header]
    constructor
    · rintro ⟨header, ⟨hlen, rfl⟩, ⟨headerLen, size⟩, hextent, h⟩
      rw [take_header] at hextent
      refine ⟨hlen, headerLen, size, hextent, ?_⟩
      dsimp only at h
      split at h
      · cases h
      · rename_i hsize
        obtain ⟨body, hbody, h⟩ := Attempt.bind_eq_ok.mp h
        rw [Except.ok.injEq, Option.some.injEq] at h
        subst h
        exact ⟨Nat.le_of_not_lt hsize, orTruncated_eq_ok.mp hbody, rfl, rfl⟩
    · rintro ⟨hlen, headerLen, size, hextent, hsize, hbody, hkind, hrest⟩
      refine ⟨_, ⟨hlen, rfl⟩, (headerLen, size), by rw [take_header]; exact hextent, ?_⟩
      dsimp only
      rw [if_neg (Nat.not_lt.mpr hsize), hbody, ← hkind, ← hrest]
      rfl

theorem extent_eq_ok {bytes : List UInt8} {field headerLen size : ℕ}
    (h : extent bytes field = .ok (headerLen, size)) :
    8 ≤ headerLen ∧ headerLen ≤ 16 ∧ (field = 1 → headerLen = 16) := by
  unfold extent at h
  split at h
  case isTrue hzero =>
    cases h
    exact ⟨le_rfl, by simp, fun hone => by simp [hone] at hzero⟩
  case isFalse =>
    split at h
    case isTrue =>
      obtain ⟨size, -, h⟩ := Attempt.bind_eq_ok.mp h
      cases h
      simp
    case isFalse hone =>
      cases h
      exact ⟨le_rfl, by simp, fun h => absurd h hone⟩

theorem length_rest_lt {bytes : List UInt8} {top : Split}
    (h : nextBox bytes = .ok (some top)) : top.rest.length < bytes.length := by
  obtain ⟨hlen, headerLen, size, hextent, hsize, -, -, hrest⟩ := nextBox_eq_some.mp h
  obtain ⟨hheader, -, -⟩ := extent_eq_ok hextent
  rw [hrest, List.length_drop]
  omega

/-- The size field of the box at the front is not zero. -/
def Sized (bytes : List UInt8) : Prop := ofBytes (bytes.take 4) ≠ 0

/-- The bytes of a box, before others: what is taken of the front is the same. -/
theorem take_take_append {bytes : List UInt8} {n size : ℕ} (hn : n ≤ size)
    (hsize : size ≤ bytes.length) (tail : List UInt8) :
    (bytes.take size ++ tail).take n = bytes.take n := by
  have hlen : n ≤ (bytes.take size).length := by
    rw [List.length_take, min_eq_left hsize]
    exact hn
  rw [List.take_append_of_le_length hlen, List.take_take, min_eq_left hn]

theorem slice_take_append {bytes part : List UInt8} {start stop size : ℕ}
    (h : slice bytes start stop = some part) (hstop : stop ≤ size)
    (hsize : size ≤ bytes.length) (tail : List UInt8) :
    slice (bytes.take size ++ tail) start stop = some part := by
  obtain ⟨⟨hstart, -⟩, hpart⟩ := slice_eq_some.mp h
  refine slice_eq_some.mpr ⟨⟨hstart, ?_⟩, ?_⟩
  · rw [List.length_append, List.length_take, min_eq_left hsize]
    omega
  · rw [take_take_append hstop hsize, hpart]

/-- The size that is written out is read before any bytes. -/
theorem extent_take_append {bytes : List UInt8} {field headerLen size : ℕ}
    (hfield : field ≠ 0) (h : extent bytes field = .ok (headerLen, size))
    (hheader : headerLen ≤ size) (hsize : size ≤ bytes.length) (tail : List UInt8) :
    extent (bytes.take size ++ tail) field = .ok (headerLen, size) := by
  obtain ⟨-, -, hwide⟩ := extent_eq_ok h
  unfold extent at h ⊢
  rw [if_neg hfield] at h ⊢
  split
  case isTrue hone =>
    rw [if_pos hone] at h
    obtain ⟨read, hread, heq⟩ := Attempt.bind_eq_ok.mp h
    obtain ⟨wide, hslice, rfl⟩ := Option.map_eq_some_iff.mp (orTruncated_eq_ok.mp hread)
    have hle : 8 + 8 ≤ size := (hwide hone).symm.trans_le hheader
    rw [readAt, slice_take_append hslice hle hsize]
    exact heq
  case isFalse hone =>
    rw [if_neg hone] at h
    exact h

/-- A sized box is split off the same before any bytes. -/
theorem nextBox_sized {bytes : List UInt8} {top : Split}
    (h : nextBox bytes = .ok (some top)) (hsized : Sized bytes) :
    ∃ first, bytes = first ++ top.rest ∧
      ∀ tail, nextBox (first ++ tail) = .ok (some { top with rest := tail }) := by
  obtain ⟨hlen, headerLen, size, hextent, hsize, hbody, hkind, hrest⟩ :=
    nextBox_eq_some.mp h
  obtain ⟨hheader, -, -⟩ := extent_eq_ok hextent
  obtain ⟨⟨-, hstop⟩, -⟩ := slice_eq_some.mp hbody
  have hfirst : (bytes.take size).length = size := by
    rw [List.length_take, min_eq_left hstop]
  refine ⟨bytes.take size, by rw [hrest, List.take_append_drop], fun tail => ?_⟩
  refine nextBox_eq_some.mpr ⟨?_, headerLen, size, ?_, hsize, ?_, ?_, ?_⟩
  · rw [List.length_append, hfirst]
    omega
  · rw [take_take_append (by omega) hstop]
    exact extent_take_append hsized hextent hsize hstop tail
  · exact slice_take_append hbody le_rfl hstop tail
  · rw [take_take_append (by omega) hstop]
    exact hkind
  · rw [List.drop_left' hfirst]

/-- A box that is not sized takes all there is. -/
theorem nextBox_unsized {bytes : List UInt8} {top : Split}
    (h : nextBox bytes = .ok (some top)) (hsized : ¬ Sized bytes) :
    top.rest = [] ∧ bytes = [0, 0, 0, 0] ++ top.kind ++ top.body := by
  obtain ⟨hlen, headerLen, size, hextent, hsize, hbody, hkind, hrest⟩ :=
    nextBox_eq_some.mp h
  have hfield : ofBytes (bytes.take 4) = 0 := not_not.mp hsized
  rw [extent, if_pos hfield, Except.ok.injEq, Prod.mk.injEq] at hextent
  obtain ⟨rfl, rfl⟩ := hextent
  have hzeros : bytes.take 4 = [0, 0, 0, 0] := by
    have hlen4 : (bytes.take 4).length = 4 := by
      rw [List.length_take]
      omega
    have hreplicate := eq_zeros_of_ofBytes hfield
    rwa [hlen4] at hreplicate
  have hheader : bytes.take 8 = [0, 0, 0, 0] ++ top.kind := by
    have hsplit := (List.take_append_drop 4 (bytes.take 8)).symm
    rwa [take_header, hzeros, ← hkind] at hsplit
  obtain ⟨-, hdrop⟩ := slice_eq_some.mp hbody
  rw [List.take_length] at hdrop
  refine ⟨by rw [hrest, List.drop_length], ?_⟩
  rw [← hheader, ← hdrop, List.take_append_drop]

/-- A box that runs to the end. -/
def toEnd (kind body : List UInt8) : List UInt8 := [0, 0, 0, 0] ++ kind ++ body

theorem nextBox_toEnd {kind : List UInt8} (hkind : kind.length = 4) (body : List UInt8) :
    nextBox (toEnd kind body) = .ok (some ⟨kind, body, []⟩) := by
  have hlen : (toEnd kind body).length = 8 + body.length := by
    simp [toEnd, hkind]
    omega
  have htake : (toEnd kind body).take 8 = [0, 0, 0, 0] ++ kind := by
    rw [toEnd, List.take_left' (by simp [hkind])]
  have hzeros : (toEnd kind body).take 4 = [0, 0, 0, 0] := rfl
  have hfield : ofBytes ((toEnd kind body).take 4) = 0 := by
    rw [hzeros]
    decide
  refine nextBox_eq_some.mpr ⟨by omega, 8, (toEnd kind body).length, ?_, by omega, ?_, ?_, ?_⟩
  · rw [extent, if_pos hfield]
  · refine slice_eq_some.mpr ⟨⟨by omega, le_rfl⟩, ?_⟩
    rw [List.take_length, toEnd, List.drop_left' (by simp [hkind])]
  · rw [htake]
    rfl
  · rw [List.drop_length]

/-! ## The walk over the top-level boxes -/

/-- The walk comes to what is left of the bytes, and has passed no `meta`. -/
inductive Reaches : List UInt8 → List UInt8 → Prop where
  | here (bytes : List UInt8) : Reaches bytes bytes
  | next {bytes rest : List UInt8} {top : Split} (h : nextBox bytes = .ok (some top))
      (hkind : top.kind ≠ ascii "meta") (hrest : Reaches top.rest rest) :
      Reaches bytes rest

/-- The walk ends in a `meta` with this body, which runs to the end of the bytes. -/
def MetaToEnd (bytes body : List UInt8) : Prop :=
  Reaches bytes (toEnd (ascii "meta") body)

theorem Reaches.eq_nil {rest : List UInt8} (h : Reaches [] rest) : rest = [] := by
  cases h with
  | here => rfl
  | next h => simp [nextBox] at h

/-- Whatever stands in the place of what is left is come to. -/
theorem Reaches.replace {bytes rest : List UInt8} (h : Reaches bytes rest)
    (hne : rest ≠ []) :
    ∃ before, bytes = before ++ rest ∧ ∀ tail, Reaches (before ++ tail) tail := by
  induction h with
  | here bytes => exact ⟨[], rfl, fun tail => .here tail⟩
  | @next bytes rest top h hkind hrest ih =>
      obtain ⟨before, hbefore, htail⟩ := ih hne
      have hsized : Sized bytes := by
        by_contra hunsized
        rw [(nextBox_unsized h hunsized).1] at hrest
        exact hne hrest.eq_nil
      obtain ⟨first, hfirst, hnext⟩ := nextBox_sized h hsized
      refine ⟨first ++ before, ?_, fun tail => ?_⟩
      · rw [List.append_assoc, ← hbefore, ← hfirst]
      · rw [List.append_assoc]
        exact .next (hnext (before ++ tail)) hkind (htail tail)

theorem findMeta_eq_ok (fuel : ℕ) {bytes body : List UInt8}
    (hfuel : bytes.length ≤ fuel) :
    findMeta fuel bytes = .ok body ↔ ∃ rest top, Reaches bytes rest ∧
      nextBox rest = .ok (some top) ∧ top.kind = ascii "meta" ∧ top.body = body := by
  constructor
  · intro h
    induction fuel generalizing bytes with
    | zero => cases h
    | succ fuel ih =>
        obtain ⟨found, hfound, h⟩ := Attempt.bind_eq_ok.mp h
        cases found with
        | none => cases h
        | some top =>
            dsimp only at h
            split at h
            · rename_i hkind
              cases h
              exact ⟨bytes, top, .here bytes, hfound, hkind, rfl⟩
            · rename_i hkind
              have hlt := length_rest_lt hfound
              obtain ⟨rest, last, hrest, hlast⟩ := ih (by omega) h
              exact ⟨rest, last, .next hfound hkind hrest, hlast⟩
  · rintro ⟨rest, top, hrest, htop, hkind, rfl⟩
    induction hrest generalizing fuel with
    | here bytes =>
        obtain ⟨fuel, rfl⟩ : ∃ n, fuel = n + 1 :=
          Nat.exists_eq_succ_of_ne_zero (by have := length_rest_lt htop; omega)
        rw [findMeta, htop]
        exact if_pos hkind
    | @next bytes rest first h hfirst hrest ih =>
        have hlt := length_rest_lt h
        obtain ⟨fuel, rfl⟩ : ∃ n, fuel = n + 1 :=
          Nat.exists_eq_succ_of_ne_zero (by omega)
        have hmeta := ih fuel (by omega) htop
        rw [findMeta, h]
        exact (if_neg hfirst).trans hmeta

theorem isobmff_eq_ok {bytes : List UInt8} {x : Option String} :
    isobmff bytes = .ok x ↔ ∃ rest top, Reaches bytes rest ∧
      nextBox rest = .ok (some top) ∧ top.kind = ascii "meta" ∧
      metaProfile top.body = x := by
  unfold isobmff
  simp only [Attempt.bind_eq_ok, findMeta_eq_ok _ le_rfl, Except.ok.injEq]
  constructor
  · rintro ⟨_, ⟨rest, top, hrest, htop, hkind, rfl⟩, hx⟩
    exact ⟨rest, top, hrest, htop, hkind, hx⟩
  · rintro ⟨rest, top, hrest, htop, hkind, hx⟩
    exact ⟨_, ⟨rest, top, hrest, htop, hkind, rfl⟩, hx⟩

theorem metaProfile_nil : metaProfile [] = none := rfl

theorem isobmff_toEnd {bytes body : List UInt8} (h : MetaToEnd bytes body) :
    isobmff bytes = .ok (metaProfile body) :=
  isobmff_eq_ok.mpr ⟨_, _, h, nextBox_toEnd (by decide +kernel) body, rfl, rfl⟩

/-- The bytes end with the `meta`, which may be cut anywhere. -/
theorem MetaToEnd.replace {bytes body : List UInt8} (h : MetaToEnd bytes body) :
    ∃ before, bytes = before ++ toEnd (ascii "meta") body ∧
      ∀ other, MetaToEnd (before ++ toEnd (ascii "meta") other) other := by
  obtain ⟨before, hbytes, htail⟩ := Reaches.replace h (by simp [toEnd])
  exact ⟨before, hbytes, fun other => htail _⟩

/-- An answer found in a part of a file is that of the file, or comes from a `meta` that
runs to the end. -/
theorem isobmff_append {cut : List UInt8} {x : Option String} (h : isobmff cut = .ok x)
    (more : List UInt8) : isobmff (cut ++ more) = .ok x ∨
      ∃ body, metaProfile body = x ∧ MetaToEnd (cut ++ more) (body ++ more) := by
  obtain ⟨rest, top, hrest, htop, hkind, hx⟩ := isobmff_eq_ok.mp h
  have hne : rest ≠ [] := by
    rintro rfl
    simp [nextBox] at htop
  obtain ⟨before, rfl, htail⟩ := hrest.replace hne
  by_cases hsized : Sized rest
  · obtain ⟨first, hfirst, hnext⟩ := nextBox_sized htop hsized
    refine .inl (isobmff_eq_ok.mpr ⟨rest ++ more, { top with rest := top.rest ++ more },
      ?_, ?_, hkind, hx⟩)
    · rw [List.append_assoc]
      exact htail _
    · have hmore := hnext (top.rest ++ more)
      rwa [← List.append_assoc, ← hfirst] at hmore
  · obtain ⟨-, hend⟩ := nextBox_unsized htop hsized
    refine .inr ⟨top.body, hx, ?_⟩
    rw [hend, hkind]
    have hmeta := htail (toEnd (ascii "meta") (top.body ++ more))
    rw [toEnd] at hmeta
    rw [MetaToEnd, toEnd]
    simpa only [List.append_assoc] using hmeta

end Container

end Image

end RustSak
