import RustSak.Image.Cut

/-!
# Probing a file

Of a file in a format with a codec of its own a bounded part is read first, and an
answer that it gives is trusted. It is the answer of the whole file, except where a
`meta` box runs to the end of the file: cut off, it is another box.
-/

namespace RustSak

namespace Image

open Library

/-- `κ` are the pixel color types. -/
structure ImageInfo (κ : Type) where
  format : ImageFormat
  width : ℕ
  height : ℕ
  colorType : κ
  bitDepth : ℕ
  colorProfile : Option String

/-- What a codec reads of a header. -/
structure Header (κ : Type) where
  width : ℕ
  height : ℕ
  colorType : κ
  bitDepth : ℕ

/-- A file that can be opened and read, or fails with an error. -/
structure File (ε : Type) where
  contents : List UInt8
  opened : Except ε Unit
  headRead : Except ε Unit
  restRead : Except ε Unit

namespace ProbeFile

open Container

variable {ε κ : Type}

/-- `HEADER_PREFIX`, how much is read first. -/
def headLen : ℕ := 64 * 1024

/-- `MAX_PROBE_BYTES`, the most that is ever read. -/
def maxProbeBytes : ℕ := 16 * 1024 * 1024

/-- The formats with a codec of their own, of which a slice is probed. -/
def hasCodec : ImageFormat → Bool
  | .avif | .heif | .webP => true
  | _ => false

section Codec

variable (codec : ImageFormat → List UInt8 → Except ε (Header κ))

def probeCodec (format : ImageFormat) (bytes : List UInt8) : Except ε (ImageInfo κ) := do
  let header ← codec format bytes
  .ok ⟨format, header.width, header.height, header.colorType, header.bitDepth, none⟩

/-- Of bytes taken to be the whole file. -/
def probeWithFormat (format : ImageFormat) (bytes : List UInt8) :
    Except ε (ImageInfo κ) := do
  let info ← probeCodec codec format bytes
  match colorProfile format bytes with
  | .ok (some profile) => .ok { info with colorProfile := some profile }
  | _ => .ok info

/-- The head with the rest of the file behind it, as far as is read. -/
def readRestBounded (contents head : List UInt8) : List UInt8 :=
  head ++ (contents.drop head.length).take (maxProbeBytes - head.length)

/-- A native decoder reads from the file; the other codecs are given a slice. -/
def probeFile (native : ImageFormat → File ε → Except ε (ImageInfo κ)) (format : ImageFormat)
    (file : File ε) : Except ε (ImageInfo κ) := do
  if hasCodec format then
    file.opened
    file.headRead
    let head := file.contents.take headLen
    let isWholeFile := head.length < headLen
    match probeCodec codec format head with
    | .ok info =>
        match colorProfile format head with
        | .ok profile => .ok { info with colorProfile := profile }
        | .error _ =>
            if isWholeFile then .ok { info with colorProfile := none }
            else do
              file.restRead
              let bytes := readRestBounded file.contents head
              .ok { info with colorProfile := (colorProfile format bytes).toOption.join }
    | .error err =>
        if isWholeFile then .error err
        else do
          file.restRead
          probeWithFormat codec format (readRestBounded file.contents head)
  else native format file

end Codec

/-! ## Where a part of the file is enough -/

/-- No part of a `meta` that runs to the end gives a profile. -/
def Unprofiled (format : ImageFormat) (bytes : List UInt8) : Prop :=
  format = .avif ∨ format = .heif → ∀ body, MetaToEnd bytes body →
    ∀ n, metaProfile (body.take n) = none

/-- Every part of the bytes that gives an answer gives that of the whole. -/
def PartsAgree (format : ImageFormat) (bytes : List UInt8) : Prop :=
  ∀ cut, cut <+: bytes → ∀ x, colorProfile format cut = .ok x →
    colorProfile format bytes = .ok x

theorem isobmff_agree {cut more : List UInt8} {x : Option String}
    (hnone : ∀ body, MetaToEnd (cut ++ more) body → ∀ n, metaProfile (body.take n) = none)
    (h : isobmff cut = .ok x) : isobmff (cut ++ more) = .ok x := by
  rcases isobmff_append h more with hsame | ⟨body, rfl, hend⟩
  · exact hsame
  · have hcut := hnone _ hend body.length
    have hwhole := hnone _ hend (body ++ more).length
    rw [List.take_left] at hcut
    rw [List.take_length] at hwhole
    rw [isobmff_toEnd hend, hcut, hwhole]

theorem Unprofiled.agree {format : ImageFormat} {bytes : List UInt8}
    (h : Unprofiled format bytes) : PartsAgree format bytes := by
  rintro cut ⟨more, rfl⟩ x hx
  cases format with
  | avif => exact isobmff_agree (h (.inl rfl)) hx
  | heif => exact isobmff_agree (h (.inr rfl)) hx
  | webP => exact webp_append hx more
  | bmp => exact hx
  | gif => exact hx
  | jpeg => exact hx
  | png => exact hx
  | tiff => exact hx

/-- If the parts agree with the whole, none of them has found a profile: the part that
ends with the header has not. -/
theorem unprofiled_of_agree {bytes body : List UInt8} (hend : MetaToEnd bytes body)
    (h : ∀ cut, cut <+: bytes → ∀ x, isobmff cut = .ok x → isobmff bytes = .ok x) (n : ℕ) :
    metaProfile (body.take n) = none := by
  obtain ⟨before, hbytes, hother⟩ := hend.replace
  have hcut (m : ℕ) : isobmff bytes = .ok (metaProfile (body.take m)) := by
    refine h _ ?_ _ (isobmff_toEnd (hother (body.take m)))
    rw [hbytes, List.prefix_append_right_inj, toEnd, toEnd, List.prefix_append_right_inj]
    exact List.take_prefix m body
  have hnone := hcut 0
  rw [List.take_zero, metaProfile_nil, hcut n, Except.ok.injEq] at hnone
  exact hnone

theorem Unprofiled.iff {format : ImageFormat} {bytes : List UInt8} :
    PartsAgree format bytes ↔ Unprofiled format bytes := by
  constructor
  · rintro h (rfl | rfl) body hend n
    · exact unprofiled_of_agree hend h n
    · exact unprofiled_of_agree hend h n
  · exact Unprofiled.agree

/-- What is reported of the head, if the head has an answer. -/
theorem probeFile_of_head {codec : ImageFormat → List UInt8 → Except ε (Header κ)}
    {native : ImageFormat → File ε → Except ε (ImageInfo κ)} {format : ImageFormat}
    {file : File ε} {info : ImageInfo κ} {header : Header κ} {x : Option String}
    (hformat : hasCodec format = true)
    (hcodec : codec format (file.contents.take headLen) = .ok header)
    (hhead : colorProfile format (file.contents.take headLen) = .ok x)
    (h : probeFile codec native format file = .ok info) : info.colorProfile = x := by
  rw [probeFile, if_pos hformat] at h
  obtain ⟨-, -, h⟩ := Attempt.bind_eq_ok.mp h
  obtain ⟨-, -, h⟩ := Attempt.bind_eq_ok.mp h
  simp only [probeCodec, hcodec, hhead] at h
  cases h
  rfl

/-- Every part of a file agrees with the whole exactly where no `meta` that runs to the
end gives a profile, cut or not; and then what the head of a file tells is told of the
file. -/
theorem head_profile_of_file (format : ImageFormat) (bytes : List UInt8) :
    (PartsAgree format bytes ↔ Unprofiled format bytes) ∧
    (Unprofiled format bytes →
      ∀ (codec : ImageFormat → List UInt8 → Except ε (Header κ))
        (native : ImageFormat → File ε → Except ε (ImageInfo κ)) (file : File ε)
        (info : ImageInfo κ) (header : Header κ) (x : Option String),
        file.contents = bytes → hasCodec format = true →
        codec format (bytes.take headLen) = .ok header →
        colorProfile format (bytes.take headLen) = .ok x →
        probeFile codec native format file = .ok info →
        colorProfile format bytes = .ok info.colorProfile) := by
  refine ⟨Unprofiled.iff, ?_⟩
  rintro hnone codec native file info header x rfl hformat hcodec hhead h
  rw [probeFile_of_head hformat hcodec hhead h]
  exact hnone.agree _ (List.take_prefix _ _) x hhead

section Example

/-- The children of a `meta` that gives its primary item an sRGB color description. -/
def srgbMeta : List UInt8 :=
  [0, 0, 0, 0] ++
  ([0, 0, 0, 14] ++ ascii "pitm" ++ [0, 0, 0, 0, 0, 1]) ++
  ([0, 0, 0, 55] ++ ascii "iprp" ++
    ([0, 0, 0, 27] ++ ascii "ipco" ++
      ([0, 0, 0, 19] ++ ascii "colr" ++ ascii "nclx" ++ [0, 1, 0, 13, 0, 1, 0x80])) ++
    ([0, 0, 0, 20] ++ ascii "ipma" ++ [0, 0, 0, 0, 0, 0, 0, 1, 0, 1, 1, 1]))

/-- A file whose `meta` runs to the end, cut behind the header of it. -/
theorem meta_to_end_cut :
    ¬ ∀ (format : ImageFormat) (bytes cut : List UInt8),
      format = .webP ∨ format = .avif ∨ format = .heif → cut <+: bytes →
      ∀ x, colorProfile format cut = .ok x → colorProfile format bytes = .ok x := by
  intro h
  have hcut := h .avif (toEnd (ascii "meta") srgbMeta) (toEnd (ascii "meta") [])
    (.inr (.inl rfl))
    (by rw [toEnd, toEnd, List.prefix_append_right_inj]; exact List.nil_prefix) none
    (by decide +kernel)
  have hwhole : colorProfile .avif (toEnd (ascii "meta") srgbMeta) = .ok (some "sRGB") := by
    decide +kernel
  rw [hwhole] at hcut
  cases hcut

/-- The same `meta`, with a size of its own. -/
def sizedMeta : List UInt8 := [0, 0, 0, 81] ++ ascii "meta" ++ srgbMeta

theorem nextBox_sizedMeta (rest : List UInt8) :
    nextBox (sizedMeta ++ rest) = .ok (some ⟨ascii "meta", srgbMeta, rest⟩) := by
  have hbox : nextBox sizedMeta = .ok (some ⟨ascii "meta", srgbMeta, []⟩) := by
    decide +kernel
  have hsized : BigEndian.ofBytes (sizedMeta.take 4) ≠ 0 := by decide +kernel
  obtain ⟨first, hfirst, hnext⟩ := nextBox_sized hbox hsized
  rw [List.append_nil] at hfirst
  rw [hfirst]
  exact hnext rest

theorem colorProfile_sizedMeta (rest : List UInt8) :
    colorProfile .avif (sizedMeta ++ rest) = .ok (some "sRGB") := by
  have hprofile : metaProfile srgbMeta = some "sRGB" := by decide +kernel
  exact isobmff_eq_ok.mpr ⟨_, _, .here _, nextBox_sizedMeta rest, rfl, hprofile⟩

theorem unprofiled_sizedMeta (rest : List UInt8) :
    Unprofiled .avif (sizedMeta ++ rest) := by
  rintro - body hend
  have hmeta : ¬ Reaches (sizedMeta ++ rest) (toEnd (ascii "meta") body) := by
    intro hreach
    generalize hbytes : sizedMeta ++ rest = bytes at hreach
    cases hreach with
    | here => cases hbytes
    | next htop hkind =>
      rw [← hbytes, nextBox_sizedMeta] at htop
      cases htop
      exact hkind rfl
  exact absurd hend hmeta

/-- A picture whose data go on behind the part that is read first. -/
def picture : File Unit where
  contents := sizedMeta ++ toEnd (ascii "mdat") (List.replicate 100000 0)
  opened := .ok ()
  headRead := .ok ()
  restRead := .ok ()

theorem head_picture :
    picture.contents.take headLen =
      sizedMeta ++ (toEnd (ascii "mdat") (List.replicate 100000 0)).take (headLen - 81) := by
  have hlen : sizedMeta.length = 81 := by decide +kernel
  rw [picture, List.take_append, hlen, List.take_of_length_le (by rw [hlen]; decide)]

theorem head_profile_of_file_picture :
    colorProfile .avif picture.contents = .ok (some "sRGB") :=
  (head_profile_of_file .avif picture.contents).2 (unprofiled_sizedMeta _)
    (fun _ _ => .ok ⟨64, 48, (), 8⟩) (fun _ _ => .error ()) picture
    ⟨.avif, 64, 48, (), 8, some "sRGB"⟩ ⟨64, 48, (), 8⟩ (some "sRGB") rfl rfl rfl
    (by rw [head_picture]; exact colorProfile_sizedMeta _)
    (by
      simp only [probeFile, head_picture, colorProfile_sizedMeta]
      rfl)

end Example

end ProbeFile

end Image

end RustSak
