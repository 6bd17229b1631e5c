import RustSak.Library.Slice
import RustSak.Library.Text
import RustSak.Library.Unicode

/-!
# The description of an ICC profile

Only the `desc` tag is read, in either of its encodings.
-/

namespace RustSak

namespace Image

open Library BigEndian

/-- A four-character code, or any other ASCII text, as bytes. -/
def ascii (text : String) : List UInt8 :=
  text.toList.map fun c => UInt8.ofNat c.toNat

namespace Icc

def maxChars : ℕ := 64

/-- The tag table follows the header. -/
def headerLen : ℕ := 128

/-- What the description is trimmed of. -/
def isBlank (c : Char) : Bool := c == '\x00' || Text.isWhiteSpace c

/-- The version 2 encoding: ASCII with a count that includes its NUL. -/
def textDescription (data : List UInt8) : Option String := do
  let count ← readAt 4 data 8
  let ascii ← slice data 12 (12 + count)
  some (.ofList (Utf8.lossy (ascii.takeWhile (· != 0))))

/-- The version 4 encoding: a record for each locale, of which the English one is
taken, or else the first. -/
def multiLocalized (data : List UInt8) : Option String := do
  let count ← readAt 4 data 8
  let recordSize ← readAt 4 data 12
  if recordSize < 12 then none
  else do
    let records := mapWhile
      (fun i => slice data (16 + i * recordSize) (16 + i * recordSize + 12)) count 0
    let record ← (records.find? (·.take 2 == ascii "en")).or records.head?
    let length ← readAt 4 record 4
    let offset ← readAt 4 record 8
    let utf16 ← slice data offset (offset + length)
    some (.ofList (Utf16.lossy (Utf16.unitsOf utf16)))

def text (data : List UInt8) : Option String := do
  let encoding ← slice data 0 4
  if encoding = ascii "desc" then textDescription data
  else if encoding = ascii "mluc" then multiLocalized data
  else none

/-- Trimmed, and the first characters of what is left, if anything is. -/
def shown (text : List Char) : Option String :=
  let text := (text.dropWhile isBlank).rdropWhile isBlank
  if text.isEmpty then none else some (.ofList (Text.trimEnd (text.take maxChars)))

def description (profile : List UInt8) : Option String := do
  let signature ← slice profile 36 40
  if signature ≠ ascii "acsp" then none
  else do
    let count ← readAt 4 profile headerLen
    let tags := mapWhile
      (fun i => slice profile (headerLen + 4 + i * 12) (headerLen + 4 + i * 12 + 12))
      count 0
    let tag ← tags.find? (·.take 4 == ascii "desc")
    let offset ← readAt 4 tag 4
    let size ← readAt 4 tag 8
    let data ← slice profile offset (offset + size)
    (text data).bind fun text => shown text.toList

/-- An ASCII text in the version 2 encoding is read back, whatever follows it. -/
theorem textDescription_encoded {reserved bytes rest : List UInt8}
    (hreserved : reserved.length = 4) (hlength : bytes.length + 1 < 256 ^ 4)
    (hbytes : ∀ b ∈ bytes, b ≠ 0 ∧ b.toNat < 0x80) :
    textDescription (ascii "desc" ++ reserved ++ toBytes 4 (bytes.length + 1) ++
        bytes ++ 0 :: rest) =
      some (.ofList (bytes.map fun b => Char.ofNat b.toNat)) := by
  have hdesc : (ascii "desc").length = 4 := by decide +kernel
  have hcount : readAt 4 (ascii "desc" ++ reserved ++ toBytes 4 (bytes.length + 1) ++
      bytes ++ 0 :: rest) 8 = some (bytes.length + 1) := by
    refine readAt_of_eq (ascii "desc" ++ reserved) (bytes ++ 0 :: rest) ?_ ?_ hlength
    · simp only [List.append_assoc]
    · rw [List.length_append, hdesc, hreserved]
  have hslice : slice (ascii "desc" ++ reserved ++ toBytes 4 (bytes.length + 1) ++
      bytes ++ 0 :: rest) 12 (12 + (bytes.length + 1)) = some (bytes ++ [0]) := by
    refine slice_of_eq (ascii "desc" ++ reserved ++ toBytes 4 (bytes.length + 1)) rest
      ?_ ?_ ?_
    · simp
    · simp [hdesc, hreserved]
    · simp [hdesc, hreserved]
  have htake : (bytes ++ [0]).takeWhile (· != 0) = bytes := by
    rw [List.takeWhile_append_of_pos]
    · simp
    · intro b hb
      simpa using (hbytes b hb).1
  unfold textDescription
  rw [hcount, Option.bind_eq_bind, Option.bind_some, hslice, Option.bind_eq_bind,
    Option.bind_some, htake, Utf8.lossy_ascii fun b hb => (hbytes b hb).2]

end Icc

end Image

end RustSak
