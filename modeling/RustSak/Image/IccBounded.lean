import RustSak.Library.Checked
import RustSak.Image.Icc
import Mathlib.Tactic.Ring

/-!
# The description of a profile, with the widths of `usize`

The reader once more, with every addition, multiplication and index that may panic
written out. It is the reader of `Icc` but for one addition: the end of a record, for
record sizes that bring it past the largest 32-bit address.
-/

namespace RustSak

namespace Image

namespace Bounded

open Library BigEndian Panicking

variable (target : Target)

/-- `bytes.get(start..start.checked_add(len)?)`. -/
def getRange (bytes : List UInt8) (start len : ℕ) : Option (List UInt8) :=
  (Checked.add target.bits start len).bind (slice bytes start)

/-- A big-endian number of `width` bytes. -/
def read (width : ℕ) (bytes : List UInt8) (pos : ℕ) : Panicking Unit ℕ :=
  orReturn () ((getRange target bytes pos width).map ofBytes)

/-- The first `desc` among the entries of the tag table, from the `i`-th on. -/
def findTag (profile : List UInt8) : ℕ → ℕ → Panicking Unit (List UInt8)
  | 0, _ => .error (.returned ())
  | count + 1, i => do
      let product ← orPanic (Checked.mul target.bits i 12)
      let entry ← orPanic (Checked.add target.bits (Icc.headerLen + 4) product)
      let stop ← orPanic (Checked.add target.bits entry 12)
      let entry ← orReturn () (slice profile entry stop)
      let kind ← orPanic (slice entry 0 4)
      if kind = ascii "desc" then .ok entry else findTag profile count (i + 1)

def textDescription (data : List UInt8) : Panicking Unit String := do
  let count ← read target 4 data 8
  let ascii ← orReturn () (getRange target data 12 count)
  .ok (.ofList (Utf8.lossy (ascii.takeWhile (· != 0))))

/-- The records from the `i`-th on; the first that is not there ends them. -/
def recordsFrom (data : List UInt8) (recordSize : ℕ) : ℕ → ℕ → Panicking Unit (List (List UInt8))
  | 0, _ => .ok []
  | count + 1, i =>
      match (Checked.mul target.bits i recordSize).bind (Checked.add target.bits 16) with
      | none => .ok []
      | some start => do
          let stop ← orPanic (Checked.add target.bits start 12)
          match slice data start stop with
          | none => .ok []
          | some record =>
              let records ← recordsFrom data recordSize count (i + 1)
              .ok (record :: records)

/-- The first English record. -/
def findEnglish : List (List UInt8) → Panicking Unit (Option (List UInt8))
  | [] => .ok none
  | record :: records => do
      let language ← orPanic (slice record 0 2)
      if language = ascii "en" then .ok (some record) else findEnglish records

def multiLocalized (data : List UInt8) : Panicking Unit String := do
  let count ← read target 4 data 8
  let recordSize ← read target 4 data 12
  if recordSize < 12 then .error (.returned ())
  else do
    let records ← recordsFrom target data recordSize count 0
    let english ← findEnglish records
    let record ← orReturn () (english.or records.head?)
    let length ← read target 4 record 4
    let offset ← read target 4 record 8
    let utf16 ← orReturn () (getRange target data offset length)
    .ok (.ofList (Utf16.lossy (Utf16.unitsOf utf16)))

def text (data : List UInt8) : Panicking Unit String := do
  let encoding ← orReturn () (slice data 0 4)
  if encoding = ascii "desc" then textDescription target data
  else if encoding = ascii "mluc" then multiLocalized target data
  else .error (.returned ())

/-- The data of the `desc` tag. -/
def descData (profile : List UInt8) : Panicking Unit (List UInt8) := do
  let signature ← orReturn () (slice profile 36 40)
  if signature ≠ ascii "acsp" then .error (.returned ())
  else do
    let count ← read target 4 profile Icc.headerLen
    let tag ← findTag target profile count 0
    let offset ← read target 4 tag 4
    let size ← read target 4 tag 8
    orReturn () (getRange target profile offset size)

def description (profile : List UInt8) : Panicking Unit String := do
  let data ← descData target profile
  let text ← text target data
  orReturn () (Icc.shown text.toList)

end Bounded

/-! ## What the profile is read for -/

namespace Icc

open Library BigEndian

/-- The data of a profile's `desc` tag. -/
def descData (profile : List UInt8) : Option (List UInt8) := do
  let signature ← slice profile 36 40
  if signature ≠ ascii "acsp" then none
  else do
    let count ← readAt 4 profile headerLen
    let tags := mapWhile
      (fun i => slice profile (headerLen + 4 + i * 12) (headerLen + 4 + i * 12 + 12))
      count 0
    let tag ← tags.find? (·.take 4 == ascii "desc")
    let offset ← readAt 4 tag 4
    let size ← readAt 4 tag 8
    slice profile offset (offset + size)

theorem description_eq (profile : List UInt8) : description profile =
    (descData profile).bind fun data => (text data).bind fun text => shown text.toList := by
  unfold description descData
  cases slice profile 36 40 with
  | none => rfl
  | some signature =>
    dsimp only [Option.bind_eq_bind, Option.bind_some]
    split
    · rfl
    · simp only [Option.bind_assoc]

/-- The data are a part of the profile. -/
theorem exists_slice_of_descData {profile data : List UInt8} (h : descData profile = some data) :
    ∃ start stop, slice profile start stop = some data := by
  obtain ⟨signature, -, h⟩ := Option.bind_eq_some_iff.mp h
  split at h
  · cases h
  · obtain ⟨count, -, h⟩ := Option.bind_eq_some_iff.mp h
    obtain ⟨tag, -, h⟩ := Option.bind_eq_some_iff.mp h
    obtain ⟨offset, -, h⟩ := Option.bind_eq_some_iff.mp h
    obtain ⟨size, -, h⟩ := Option.bind_eq_some_iff.mp h
    exact ⟨offset, offset + size, h⟩

/-- Two records or more, each so long that the second ends past a 32-bit address that it
begins before. -/
structure WideRecords (data : List UInt8) : Prop where
  kind : slice data 0 4 = some (ascii "mluc")
  length : 28 ≤ data.length
  count : ∃ count, readAt 4 data 8 = some count ∧ 2 ≤ count
  recordSize : ∃ recordSize, readAt 4 data 12 = some recordSize ∧
    2 ^ 32 ≤ 16 + recordSize + 12 ∧ 16 + recordSize < 2 ^ 32

end Icc

namespace Bounded

open Library BigEndian Panicking

variable {target : Target} {bytes data : List UInt8}

theorem lt_two_pow (h : target.Addresses bytes) {n : ℕ} (hn : n ≤ bytes.length + 2 ^ 31) :
    n < 2 ^ target.bits := by
  have hhalf := target.two_mul_half
  have hle := target.le_half
  rw [Target.Addresses] at h
  omega

theorem addresses_slice (h : target.Addresses bytes) {start stop : ℕ}
    (hslice : slice bytes start stop = some data) : target.Addresses data := by
  obtain ⟨hlength, hstop⟩ := length_slice hslice
  rw [Target.Addresses] at h ⊢
  omega

/-- A range past the addresses is past the bytes. -/
theorem getRange_eq (h : target.Addresses bytes) (start len : ℕ) :
    getRange target bytes start len = slice bytes start (start + len) := by
  rw [getRange]
  by_cases hfits : start + len < 2 ^ target.bits
  · rw [Checked.add_of_lt hfits, Option.bind_some]
  · have hout := lt_two_pow h (Nat.le_add_right bytes.length (2 ^ 31))
    have hnone : slice bytes start (start + len) = none := slice_eq_none.mpr (Or.inl (by omega))
    rw [Checked.add, Checked.fits_eq_none.mpr (Nat.le_of_not_lt hfits), hnone, Option.bind_none]

theorem read_eq (h : target.Addresses bytes) (width pos : ℕ) :
    read target width bytes pos = orReturn () (readAt width bytes pos) := by
  rw [read, getRange_eq h, readAt]

/-- The table's entries are walked no further than the first that is past the end. -/
theorem findTag_eq (h : target.Addresses bytes) (count i : ℕ)
    (hi : Icc.headerLen + 4 + i * 12 ≤ bytes.length + (Icc.headerLen + 4)) :
    findTag target bytes count i = orReturn () ((mapWhile
      (fun i => slice bytes (Icc.headerLen + 4 + i * 12) (Icc.headerLen + 4 + i * 12 + 12))
      count i).find? (·.take 4 == ascii "desc")) := by
  have hheader : Icc.headerLen = 128 := rfl
  induction count generalizing i with
  | zero => rfl
  | succ count ih =>
    rw [findTag, Checked.mul_of_lt (lt_two_pow h (by omega)), orPanic_some, ok_bind,
      Checked.add_of_lt (lt_two_pow h (by omega)), orPanic_some, ok_bind,
      Checked.add_of_lt (lt_two_pow h (by omega)), orPanic_some, ok_bind, mapWhile]
    cases hslice : slice bytes (Icc.headerLen + 4 + i * 12) (Icc.headerLen + 4 + i * 12 + 12) with
    | none => rfl
    | some entry =>
      obtain ⟨hlength, hstop⟩ := length_slice hslice
      have hkind : slice entry 0 4 = some (entry.take 4) := slice_eq_some.mpr ⟨by omega, rfl⟩
      rw [orReturn_some, ok_bind, hkind, orPanic_some, ok_bind]
      dsimp only
      by_cases hdesc : entry.take 4 = ascii "desc"
      · rw [if_pos hdesc, List.find?_cons_of_pos (by simpa using hdesc), orReturn_some]
      · rw [if_neg hdesc, List.find?_cons_of_neg (by simpa using hdesc)]
        exact ih (i + 1) (by omega)

theorem textDescription_eq (h : target.Addresses data) :
    textDescription target data = orReturn () (Icc.textDescription data) := by
  rw [textDescription, Icc.textDescription, read_eq h]
  simp only [getRange_eq h, Option.bind_eq_bind, orReturn_bind]
  rfl

/-! ## The records of a localized text -/

/-- Where the ends of the records walked are addresses, the walk is that of `mapWhile`. -/
theorem recordsFrom_eq (h : target.Addresses data) (recordSize count i : ℕ)
    (hends : ∀ j, i ≤ j → j < i + count → (i < j → 16 + (j - 1) * recordSize + 12 ≤ data.length) →
      16 + j * recordSize < 2 ^ target.bits → 16 + j * recordSize + 12 < 2 ^ target.bits) :
    recordsFrom target data recordSize count i = .ok (mapWhile
      (fun i => slice data (16 + i * recordSize) (16 + i * recordSize + 12)) count i) := by
  induction count generalizing i with
  | zero => rfl
  | succ count ih =>
    rw [recordsFrom, mapWhile]
    by_cases hstart : 16 + i * recordSize < 2 ^ target.bits
    · have hstop := hends i (Nat.le_refl i) (by omega) (by omega) hstart
      rw [Checked.mul_of_lt (by omega), Option.bind_some, Checked.add_of_lt hstart]
      dsimp only
      rw [Checked.add_of_lt hstop, orPanic_some, ok_bind]
      cases hslice : slice data (16 + i * recordSize) (16 + i * recordSize + 12) with
      | none => rfl
      | some record =>
        obtain ⟨-, hin⟩ := length_slice hslice
        dsimp only
        rw [ih (i + 1) fun j hj hlast hbefore => hends j (by omega) (by omega) fun _ => ?_, ok_bind]
        by_cases hnext : i + 1 < j
        · exact hbefore hnext
        · obtain rfl : j = i + 1 := by omega
          exact hin
    · -- the start is no address, so it is past the data
      have hpast : data.length < 16 + i * recordSize + 12 := by
        have hout := lt_two_pow h (Nat.le_add_right data.length (2 ^ 31))
        omega
      have hnone : (Checked.mul target.bits i recordSize).bind (Checked.add target.bits 16) =
          none := by
        rw [Option.bind_eq_none_iff]
        intro product hproduct
        obtain ⟨-, rfl⟩ := Checked.fits_eq_some.mp hproduct
        exact Checked.fits_eq_none.mpr (Nat.le_of_not_lt hstart)
      rw [hnone, slice_eq_none.mpr (Or.inl hpast)]

/-- Only the second record can begin before the last address and end behind it. -/
theorem records_end (h : target.Addresses data) {recordSize count : ℕ}
    (hsecond : 28 ≤ data.length → 2 ≤ count → 16 + recordSize < 2 ^ target.bits →
      16 + recordSize + 12 < 2 ^ target.bits) (j : ℕ) (hj : j < count)
    (hbefore : 0 < j → 16 + (j - 1) * recordSize + 12 ≤ data.length)
    (hstart : 16 + j * recordSize < 2 ^ target.bits) :
    16 + j * recordSize + 12 < 2 ^ target.bits := by
  have hhalf := target.two_mul_half
  have hle := target.le_half
  rw [Target.Addresses] at h
  obtain rfl | rfl | htwo : j = 0 ∨ j = 1 ∨ 2 ≤ j := by omega
  · omega
  · have hlength := hbefore Nat.one_pos
    rw [Nat.one_mul] at hstart ⊢
    exact hsecond (by omega) hj hstart
  · -- the record before lies in the data, so the records are no longer than it
    obtain ⟨k, rfl⟩ := Nat.exists_eq_add_of_le' htwo
    have hlength := hbefore (Nat.succ_pos _)
    have hpred : k + 2 - 1 = k + 1 := rfl
    rw [hpred, Nat.succ_mul] at hlength
    have hsplit : (k + 2) * recordSize = k * recordSize + recordSize + recordSize := by ring
    omega

/-- The second record's end is no address: the walk panics there. -/
theorem recordsFrom_wide (h : target.Addresses data) {recordSize count : ℕ}
    (hlength : 28 ≤ data.length) (hcount : 2 ≤ count)
    (hstart : 16 + recordSize < 2 ^ target.bits)
    (hstop : 2 ^ target.bits ≤ 16 + recordSize + 12) :
    recordsFrom target data recordSize count 0 = .error .panicked := by
  obtain ⟨count, rfl⟩ := Nat.exists_eq_add_of_le' hcount
  have hfirst : 28 < 2 ^ target.bits := lt_two_pow h (by omega)
  obtain ⟨record, hrecord⟩ : ∃ record, slice data 16 28 = some record :=
    ⟨_, slice_eq_some.mpr ⟨by omega, rfl⟩⟩
  have hsecond : recordsFrom target data recordSize (count + 1) 1 = .error .panicked := by
    rw [recordsFrom, Checked.mul_of_lt (by omega), Option.bind_some,
      Checked.add_of_lt (by omega)]
    dsimp only
    rw [Nat.one_mul, Checked.add, Checked.fits_eq_none.mpr hstop]
    rfl
  rw [recordsFrom, Checked.mul_of_lt (by omega), Option.bind_some, Checked.add_of_lt (by omega)]
  dsimp only
  rw [Nat.zero_mul, Checked.add_of_lt hfirst, orPanic_some, ok_bind, hrecord]
  dsimp only
  rw [hsecond]
  rfl

theorem findEnglish_eq {records : List (List UInt8)} (h : ∀ record ∈ records, record.length = 12) :
    findEnglish records = .ok (records.find? (·.take 2 == ascii "en")) := by
  induction records with
  | nil => rfl
  | cons record records ih =>
    have hlength := h record List.mem_cons_self
    have hlanguage : slice record 0 2 = some (record.take 2) := slice_eq_some.mpr ⟨by omega, rfl⟩
    rw [findEnglish, hlanguage, orPanic_some, ok_bind]
    by_cases hen : record.take 2 = ascii "en"
    · rw [if_pos hen, List.find?_cons_of_pos (by simpa using hen)]
    · rw [if_neg hen, List.find?_cons_of_neg (by simpa using hen)]
      exact ih fun record hrecord => h record (List.mem_cons_of_mem _ hrecord)

/-- What is walked of the records is of their size. -/
theorem length_of_mem_mapWhile {f : ℕ → Option (List UInt8)} {n : ℕ}
    (hf : ∀ i record, f i = some record → record.length = n) (count start : ℕ) :
    ∀ record ∈ mapWhile f count start, record.length = n := by
  induction count generalizing start with
  | zero => simp [mapWhile]
  | succ count ih =>
    rw [mapWhile]
    cases hstart : f start with
    | none => simp
    | some first => simpa using ⟨hf start first hstart, ih (start + 1)⟩

theorem length_record {recordSize i : ℕ} {record : List UInt8}
    (h : slice data (16 + i * recordSize) (16 + i * recordSize + 12) = some record) :
    record.length = 12 := by
  obtain ⟨hlength, -⟩ := length_slice h
  omega

theorem mem_of_find?_or_head? {p : List UInt8 → Bool} {records : List (List UInt8)}
    {record : List UInt8} (h : (records.find? p).or records.head? = some record) :
    record ∈ records := by
  obtain hfind | ⟨-, hhead⟩ := Option.or_eq_some_iff.mp h
  · exact List.mem_of_find?_eq_some hfind
  · exact List.mem_of_head? hhead

theorem multiLocalized_eq (h : target.Addresses data)
    (hsecond : ∀ count recordSize, readAt 4 data 8 = some count →
      readAt 4 data 12 = some recordSize → 28 ≤ data.length → 2 ≤ count →
      16 + recordSize < 2 ^ target.bits → 16 + recordSize + 12 < 2 ^ target.bits) :
    multiLocalized target data = orReturn () (Icc.multiLocalized data) := by
  rw [multiLocalized, Icc.multiLocalized, read_eq h, read_eq h]
  cases hcount : readAt 4 data 8 with
  | none => rfl
  | some count =>
  cases hsize : readAt 4 data 12 with
  | none => rfl
  | some recordSize =>
  simp only [Option.bind_eq_bind, Option.bind_some, orReturn_some, ok_bind]
  split
  · rfl
  · rw [recordsFrom_eq h _ _ _ fun j _ hj hbefore hstart => records_end h
      (hsecond count recordSize hcount hsize) j (by omega) hbefore hstart, ok_bind,
      findEnglish_eq (length_of_mem_mapWhile (fun _ _ => length_record) count 0), ok_bind]
    cases hrecord : ((mapWhile
        (fun i => slice data (16 + i * recordSize) (16 + i * recordSize + 12)) count 0).find?
          (·.take 2 == ascii "en")).or (mapWhile (fun i => slice data
        (16 + i * recordSize) (16 + i * recordSize + 12)) count 0).head? with
    | none => rfl
    | some record =>
      have hlength := length_of_mem_mapWhile (fun _ _ => length_record) count 0 record
        (mem_of_find?_or_head? hrecord)
      have hle := target.le_half
      have hshort : target.Addresses record := by
        rw [Target.Addresses]
        omega
      simp only [orReturn_some, ok_bind, read_eq hshort, getRange_eq h, Option.bind_some,
        orReturn_bind]

/-- The reader of a localized text with wide records does not come to its end. -/
theorem multiLocalized_wide (h : target.Addresses data) {count recordSize : ℕ}
    (hcount : readAt 4 data 8 = some count) (hsize : readAt 4 data 12 = some recordSize)
    (hlength : 28 ≤ data.length) (htwo : 2 ≤ count)
    (hstart : 16 + recordSize < 2 ^ target.bits)
    (hstop : 2 ^ target.bits ≤ 16 + recordSize + 12) :
    multiLocalized target data = .error .panicked := by
  have hbits : 2 ^ 32 ≤ 2 ^ target.bits := Nat.pow_le_pow_right Nat.two_pos target.le_bits
  rw [multiLocalized, read_eq h, hcount, orReturn_some, ok_bind, read_eq h, hsize, orReturn_some,
    ok_bind]
  rw [if_neg (by omega), recordsFrom_wide h hlength htwo hstart hstop]
  rfl

/-! ## The whole profile -/

theorem readAt_lt {width pos n : ℕ} (h : readAt width bytes pos = some n) : n < 256 ^ width := by
  obtain ⟨part, hpart, rfl⟩ := Option.map_eq_some_iff.mp h
  obtain ⟨hlength, -⟩ := length_slice hpart
  have hlt := ofBytes_lt part
  rwa [hlength, Nat.add_sub_cancel_left] at hlt

variable (target) in
/-- The records are wide and the addresses are of 32 bits. -/
def Overflows (profile : List UInt8) : Prop :=
  target = .pointer32 ∧ ∃ data, Icc.descData profile = some data ∧ Icc.WideRecords data

theorem text_eq (h : target.Addresses data)
    (hfits : ¬(target = .pointer32 ∧ Icc.WideRecords data)) :
    text target data = orReturn () (Icc.text data) := by
  rw [text, Icc.text]
  cases hkind : slice data 0 4 with
  | none => rfl
  | some encoding =>
  simp only [Option.bind_eq_bind, Option.bind_some, orReturn_some, ok_bind]
  split
  · exact textDescription_eq h
  · split
    · rename_i hmluc
      refine multiLocalized_eq h fun count recordSize hcount hsize hlength htwo hstart => ?_
      have hlt := readAt_lt hsize
      cases htarget : target with
      | pointer64 =>
        rw [Target.bits]
        omega
      | pointer32 =>
        rw [htarget, Target.bits] at hstart
        rw [Target.bits]
        by_contra hstop
        exact hfits ⟨htarget, by rw [hkind, hmluc], hlength, ⟨count, hcount, htwo⟩, recordSize,
          hsize, Nat.le_of_not_lt hstop, hstart⟩
    · rfl

theorem text_wide (h : Target.Addresses .pointer32 data) (hwide : Icc.WideRecords data) :
    text .pointer32 data = .error .panicked := by
  obtain ⟨hkind, hlength, ⟨count, hcount, htwo⟩, recordSize, hsize, hstop, hstart⟩ := hwide
  have hdesc : ascii "mluc" ≠ ascii "desc" := by decide +kernel
  rw [text, hkind, orReturn_some, ok_bind, if_neg hdesc, if_pos rfl]
  exact multiLocalized_wide h hcount hsize hlength htwo hstart hstop

theorem descData_eq (h : target.Addresses bytes) :
    descData target bytes = orReturn () (Icc.descData bytes) := by
  rw [descData, Icc.descData]
  cases slice bytes 36 40 with
  | none => rfl
  | some signature =>
  simp only [Option.bind_eq_bind, Option.bind_some, orReturn_some, ok_bind]
  split
  · rfl
  · rw [read_eq h]
    cases readAt 4 bytes Icc.headerLen with
    | none => rfl
    | some count =>
    rw [orReturn_some, ok_bind, Option.bind_some, findTag_eq h count 0 (by omega)]
    cases htag : (mapWhile (fun i => slice bytes (Icc.headerLen + 4 + i * 12)
        (Icc.headerLen + 4 + i * 12 + 12)) count 0).find? (·.take 4 == ascii "desc") with
    | none => rfl
    | some tag =>
    have hlength : tag.length = 12 := by
      refine length_of_mem_mapWhile (fun i entry hentry => ?_) count 0 tag
        (List.mem_of_find?_eq_some htag)
      obtain ⟨hentry, -⟩ := length_slice hentry
      omega
    have hle := target.le_half
    have hshort : target.Addresses tag := by
      rw [Target.Addresses]
      omega
    simp only [orReturn_some, ok_bind, read_eq hshort, getRange_eq h, Option.bind_some,
      orReturn_bind]

theorem addresses_descData (h : target.Addresses bytes) (hdata : Icc.descData bytes = some data) :
    target.Addresses data := by
  obtain ⟨start, stop, hslice⟩ := Icc.exists_slice_of_descData hdata
  exact addresses_slice h hslice

/-- The reader is that of the numbers, or it panics where records are too wide. -/
theorem description_eq (h : target.Addresses bytes) (hfits : ¬Overflows target bytes) :
    description target bytes = orReturn () (Icc.description bytes) := by
  rw [description, descData_eq h, Icc.description_eq]
  cases hdata : Icc.descData bytes with
  | none => rfl
  | some data =>
    rw [orReturn_some, ok_bind, Option.bind_some, orReturn_bind,
      text_eq (addresses_descData h hdata) fun hwide => hfits ⟨hwide.1, data, hdata, hwide.2⟩]

theorem description_wide (h : target.Addresses bytes) (hwide : Overflows target bytes) :
    description target bytes = .error .panicked := by
  obtain ⟨rfl, data, hdata, hwide⟩ := hwide
  rw [description, descData_eq h, hdata, orReturn_some, ok_bind,
    text_wide (addresses_descData h hdata) hwide]
  rfl

end Bounded

end Image

end RustSak
