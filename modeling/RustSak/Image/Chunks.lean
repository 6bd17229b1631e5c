import RustSak.Image.Boxes

/-!
# Written chunks

A chunk as it is written, padded to an even length, is split off again. A profile behind
the extended header is read where nothing stands between the two: the walk stops at a
chunk of any other kind, image data or not.
-/

namespace RustSak

namespace Image

namespace Container

open Library BigEndian

/-- A chunk and the byte that pads it, if its length is odd. -/
structure Chunk where
  kind : List UInt8
  body : List UInt8
  pad : List UInt8
  length_kind : kind.length = 4
  fits : body.length < 256 ^ 4
  length_pad : pad.length = body.length % 2

namespace Chunk

def bytes (chunk : Chunk) : List UInt8 :=
  chunk.kind ++ (toBytes 4 chunk.body.length).reverse ++ chunk.body ++ chunk.pad

/-- What is written is split off again. -/
theorem riffChunk_bytes (chunk : Chunk) (tail : List UInt8) :
    riffChunk (chunk.bytes ++ tail) = .ok ⟨chunk.kind, chunk.body, tail⟩ := by
  have hsize : (toBytes 4 chunk.body.length).reverse.length = 4 := by simp
  have hheader := Written.take_of_header chunk.length_kind hsize (chunk.body ++ chunk.pad ++ tail)
  have hfront : (chunk.kind ++ (toBytes 4 chunk.body.length).reverse).length = 8 := by
    rw [List.length_append, chunk.length_kind, hsize]
  have hlength : chunk.bytes.length = 8 + chunk.body.length + chunk.body.length % 2 := by
    rw [bytes, List.length_append, List.length_append, hfront, chunk.length_pad]
  simp only [← List.append_assoc] at hheader
  refine riffChunk_eq_ok.mpr ⟨chunk.body.length, ?_, ?_, ?_, ?_, ?_⟩
  · rw [List.length_append, hlength]
    omega
  · rw [bytes, hheader.2, List.reverse_reverse, ofBytes_toBytes chunk.fits]
  · refine slice_of_eq (chunk.kind ++ (toBytes 4 chunk.body.length).reverse) (chunk.pad ++ tail)
      ?_ hfront.symm ?_
    · simp only [bytes, List.append_assoc]
    · rw [hfront]
  · rw [take_header, bytes, hheader.1]
  · have hmin : min (8 + chunk.body.length + chunk.body.length % 2) (chunk.bytes ++ tail).length =
        chunk.bytes.length := by
      rw [List.length_append, ← hlength]
      omega
    rw [hmin, List.drop_left]

end Chunk

/-- The kinds that hold image data. -/
def isImageData (kind : List UInt8) : Bool :=
  [ascii "VP8 ", ascii "VP8L", ascii "ALPH", ascii "ANMF"].contains kind

/-- A WebP file with the flag set and a profile ahead of its image data. -/
structure ProfiledWebP where
  riffSize : List UInt8
  extended : Chunk
  between : List Chunk
  iccp : Chunk
  rest : List UInt8
  length_riffSize : riffSize.length = 4
  extended_kind : extended.kind = ascii "VP8X"
  extended_flag : declaresIcc extended.body = true
  between_kind : ∀ chunk ∈ between, chunk.kind ≠ ascii "ICCP" ∧ isImageData chunk.kind = false
  iccp_kind : iccp.kind = ascii "ICCP"

namespace ProfiledWebP

def chunks (file : ProfiledWebP) : List UInt8 :=
  file.extended.bytes ++ (file.between.flatMap Chunk.bytes ++ (file.iccp.bytes ++ file.rest))

def bytes (file : ProfiledWebP) : List UInt8 :=
  ascii "RIFF" ++ file.riffSize ++ ascii "WEBP" ++ file.chunks

/-- The form of the file is recognized. -/
theorem webp_bytes (file : ProfiledWebP) :
    webp file.bytes = webpFrom file.bytes.length true file.chunks := by
  have hriff : (ascii "RIFF").length = 4 := by decide +kernel
  have hwebp : (ascii "WEBP").length = 4 := by decide +kernel
  have hfront : (ascii "RIFF" ++ file.riffSize ++ ascii "WEBP").length = 12 := by
    rw [List.length_append, List.length_append, hriff, hwebp, file.length_riffSize]
  have hlength : file.bytes.length = 12 + file.chunks.length := by
    rw [bytes, List.length_append, hfront]
  have hform : slice file.bytes 0 4 = some (ascii "RIFF") := by
    refine slice_of_eq [] (file.riffSize ++ ascii "WEBP" ++ file.chunks) ?_ rfl ?_
    · simp only [bytes, List.append_assoc, List.nil_append]
    · rw [hriff]
      rfl
  have hkind : slice file.bytes 8 12 = some (ascii "WEBP") := by
    refine slice_of_eq (ascii "RIFF" ++ file.riffSize) file.chunks ?_ ?_ ?_
    · simp only [bytes, List.append_assoc]
    · rw [List.length_append, hriff, file.length_riffSize]
    · rw [List.length_append, hriff, file.length_riffSize, hwebp]
  have hdrop : file.bytes.drop 12 = file.chunks := by
    rw [bytes, List.drop_left' hfront]
  rw [webp, if_neg (by omega), if_neg (by simp [hform, hkind]), hdrop]

/-- The walk passes the extended header. -/
theorem webpFrom_chunks (file : ProfiledWebP) (fuel : ℕ) :
    webpFrom (fuel + 1) true file.chunks =
      webpFrom fuel false (file.between.flatMap Chunk.bytes ++ (file.iccp.bytes ++ file.rest)) := by
  rw [webpFrom, chunks, Chunk.riffChunk_bytes]
  exact (if_pos ⟨file.extended_kind, rfl⟩).trans (if_pos file.extended_flag)

/-- And it stops at the next chunk. -/
theorem webpFrom_next (chunk : Chunk) (tail : List UInt8) (fuel : ℕ) :
    webpFrom (fuel + 1) false (chunk.bytes ++ tail) =
      if chunk.kind = ascii "ICCP" then .ok (Icc.description chunk.body) else .ok none := by
  rw [webpFrom, Chunk.riffChunk_bytes]
  exact if_neg (by simp)

theorem colorProfile_bytes (file : ProfiledWebP) : colorProfile .webP file.bytes =
    if file.between.isEmpty then .ok (Icc.description file.iccp.body) else .ok none := by
  have htwo : 2 ≤ file.bytes.length := by
    have hriff : (ascii "RIFF").length = 4 := by decide +kernel
    simp only [bytes, List.length_append, hriff]
    omega
  obtain ⟨fuel, hfuel⟩ := Nat.exists_eq_add_of_le' htwo
  change webp file.bytes = _
  rw [webp_bytes, hfuel, webpFrom_chunks]
  cases hbetween : file.between with
  | nil =>
    rw [List.flatMap_nil, List.nil_append, webpFrom_next, if_pos file.iccp_kind]
    rfl
  | cons chunk between =>
    have hkind := (file.between_kind chunk (by simp [hbetween])).1
    rw [List.flatMap_cons, List.append_assoc, webpFrom_next, if_neg hkind]
    rfl

end ProfiledWebP

theorem webp_profile_iff (file : ProfiledWebP) :
    colorProfile .webP file.bytes = .ok (Icc.description file.iccp.body) ↔
      file.between = [] ∨ Icc.description file.iccp.body = none := by
  rw [file.colorProfile_bytes]
  split
  case isTrue hempty => simp [List.isEmpty_iff.mp hempty]
  case isFalse hne =>
    rw [List.isEmpty_iff] at hne
    simp [hne, eq_comm]

section Example

/-- A profile of which nothing but its description is written. -/
def displayP3 : List UInt8 :=
  List.replicate 36 0 ++ ascii "acsp" ++ List.replicate 88 0 ++
  ([0, 0, 0, 1] ++ ascii "desc" ++ [0, 0, 0, 144] ++ [0, 0, 0, 23]) ++
  (ascii "desc" ++ [0, 0, 0, 0] ++ [0, 0, 0, 11] ++ ascii "Display P3" ++ [0])

/-- An EXIF chunk of one byte between the header and the profile. -/
def exifAhead : ProfiledWebP where
  riffSize := [208, 0, 0, 0]
  extended := ⟨ascii "VP8X", [0x20, 0, 0, 0, 0, 0, 0, 0, 0, 0], [],
    by decide +kernel, by decide, rfl⟩
  between := [⟨ascii "EXIF", [1], [0], by decide +kernel, by decide, rfl⟩]
  iccp := ⟨ascii "ICCP", displayP3, [0], by decide +kernel, by decide +kernel, by decide +kernel⟩
  rest := []
  length_riffSize := rfl
  extended_kind := rfl
  extended_flag := by decide +kernel
  between_kind := by decide +kernel
  iccp_kind := rfl

/-- The same file without that chunk, and with its image data. -/
def profileFirst : ProfiledWebP where
  riffSize := [208, 0, 0, 0]
  extended := exifAhead.extended
  between := []
  iccp := exifAhead.iccp
  rest := ascii "VP8L" ++ [2, 0, 0, 0] ++ [0x2f, 0]
  length_riffSize := rfl
  extended_kind := rfl
  extended_flag := exifAhead.extended_flag
  between_kind := by simp
  iccp_kind := rfl

theorem webp_profile_iff_first :
    Icc.description profileFirst.iccp.body = some "Display P3" ∧
      colorProfile .webP profileFirst.bytes =
        .ok (Icc.description profileFirst.iccp.body) :=
  ⟨by decide +kernel, (webp_profile_iff profileFirst).mpr (.inl rfl)⟩

theorem webp_profile_hidden : Icc.description exifAhead.iccp.body = some "Display P3" ∧
    colorProfile .webP exifAhead.bytes = .ok none := by
  decide +kernel

end Example

end Container

end Image

end RustSak
