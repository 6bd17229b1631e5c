import RustSak.Library.Hex
import RustSak.Library.Text
import RustSak.O11y.Record

/-!
# The `traceparent` header

A span's identity travels as `00-<trace id>-<span id>-01`. The parser follows the
rules for a receiver: it reads later versions, whose further fields it skips, and
refuses what the grammar does not allow, white space around the header apart. The
codec of the ids is a library's and left open up to its laws.
-/

namespace RustSak

namespace O11y

namespace SpanContext

open Library

variable {encode : (n : ℕ) → BitVec (8 * n) → List Char}
  {decodeToSlice : (n : ℕ) → List Char → Option (BitVec (8 * n))}

def toTraceparent (encode : (n : ℕ) → BitVec (8 * n) → List Char) (c : SpanContext) :
    List Char :=
  "00-".toList ++ encode 16 c.traceId ++ '-' :: encode 8 c.spanId ++ "-01".toList

theorem toTraceparent_eq (c : SpanContext) :
    toTraceparent encode c =
      "00-".toList ++ encode 16 c.traceId ++ '-' :: encode 8 c.spanId ++ "-01".toList := by
  delta toTraceparent
  rfl

def isLowerHex (text : List Char) (len : ℕ) : Bool :=
  text.length == len && text.all Hex.isLowerDigit

def decode (decodeToSlice : (n : ℕ) → List Char → Option (BitVec (8 * n))) (n : ℕ)
    (text : List Char) : Option (BitVec (8 * n)) :=
  if isLowerHex text (n * 2) then decodeToSlice n text else none

/-- What the fields of a header are checked for. -/
def ofFields (decodeToSlice : (n : ℕ) → List Char → Option (BitVec (8 * n)))
    (version traceId spanId flags : List Char) (more : List (List Char)) :
    Option SpanContext :=
  if !isLowerHex version 2 || version == "ff".toList || !isLowerHex flags 2 then none
  -- Version 00 has exactly four fields; a later one may have more, which are skipped.
  else if version == "00".toList && !more.isEmpty then none
  else do
    let traceId ← decode decodeToSlice 16 traceId
    let spanId ← decode decodeToSlice 8 spanId
    if traceId = 0 ∨ spanId = 0 then none else some ⟨traceId, spanId⟩

def fromTraceparent (decodeToSlice : (n : ℕ) → List Char → Option (BitVec (8 * n)))
    (header : List Char) : Option SpanContext :=
  match (Text.trimSpace header).splitOn '-' with
  | version :: traceId :: spanId :: flags :: more =>
      ofFields decodeToSlice version traceId spanId flags more
  | _ => none

/-- So many lower-case hexadecimal digits. -/
def LowerHex (len : ℕ) (text : List Char) : Prop :=
  text.length = len ∧ ∀ c ∈ text, Hex.isLowerDigit c = true

/-- Some digit is not zero. -/
def NonZero (text : List Char) : Prop := ∃ c ∈ text, c ≠ '0'

/-- The grammar of the header: four fields, and after those of a later version
whatever follows a further dash. -/
structure Header where
  version : List Char
  traceId : List Char
  spanId : List Char
  flags : List Char
  more : Option (List Char)
  version_hex : LowerHex 2 version
  version_valid : version ≠ "ff".toList
  traceId_hex : LowerHex 32 traceId
  traceId_nonzero : NonZero traceId
  spanId_hex : LowerHex 16 spanId
  spanId_nonzero : NonZero spanId
  flags_hex : LowerHex 2 flags
  more_later : version = "00".toList → more = none

def Header.text (h : Header) : List Char :=
  h.version ++ '-' :: (h.traceId ++ '-' :: (h.spanId ++ '-' ::
    (h.flags ++ h.more.elim [] ('-' :: ·))))

/-- The text is in the grammar. -/
def InGrammar (s : List Char) : Prop := ∃ h : Header, s = h.text

section Digits

theorem isLowerHex_eq_true {text : List Char} {len : ℕ} :
    isLowerHex text len = true ↔ LowerHex len text := by
  rw [isLowerHex, Bool.and_eq_true, beq_iff_eq, List.all_eq_true]
  rfl

theorem LowerHex.notMem_dash {len : ℕ} {text : List Char} (h : LowerHex len text) :
    '-' ∉ text := fun hmem => absurd (h.2 '-' hmem) (by decide)

theorem decode_eq_some {n : ℕ} {text : List Char} {b : BitVec (8 * n)}
    (h : decode decodeToSlice n text = some b) :
    LowerHex (2 * n) text ∧ decodeToSlice n text = some b := by
  obtain ⟨hlower, hdecode⟩ := Option.ite_none_right_eq_some.mp h
  rw [isLowerHex_eq_true, Nat.mul_comm] at hlower
  exact ⟨hlower, hdecode⟩

theorem decode_of_lowerHex {n : ℕ} {text : List Char} (h : LowerHex (2 * n) text) :
    decode decodeToSlice n text = decodeToSlice n text := by
  rw [Nat.mul_comm] at h
  exact if_pos (isLowerHex_eq_true.mpr h)

variable (hex : Hex.Codec encode decodeToSlice)

include hex

theorem lowerHex_encode (n : ℕ) (b : BitVec (8 * n)) : LowerHex (2 * n) (encode n b) :=
  ⟨hex.length_encode n b, hex.isLowerDigit_encode n b⟩

theorem encode_injective {n : ℕ} {b b' : BitVec (8 * n)} (h : encode n b = encode n b') :
    b = b' := by
  have hdecode := hex.decode_encode n b
  rw [h, hex.decode_encode, Option.some.injEq] at hdecode
  exact hdecode.symm

/-- The digits of a word are all zero only when the word is. -/
theorem nonZero_encode {n : ℕ} {b : BitVec (8 * n)} : NonZero (encode n b) ↔ b ≠ 0 := by
  constructor
  · rintro ⟨c, hc, hne⟩ rfl
    rw [hex.encode_zero] at hc
    exact hne (List.eq_of_mem_replicate hc)
  · intro hb
    by_contra hzero
    have hall : encode n b = encode n 0 := by
      rw [hex.encode_zero, List.eq_replicate_iff]
      refine ⟨hex.length_encode n b, fun c hc => ?_⟩
      by_contra hne
      exact hzero ⟨c, hc, hne⟩
    exact hb (encode_injective hex hall)

/-- The digits an id was read from. -/
theorem digits_of_decode {n : ℕ} {text : List Char} {b : BitVec (8 * n)}
    (h : decode decodeToSlice n text = some b) (hb : b ≠ 0) :
    LowerHex (2 * n) text ∧ NonZero text := by
  obtain ⟨hlower, hdecode⟩ := decode_eq_some h
  obtain ⟨b', hdecode', htext⟩ := hex.encode_decode n text hlower.1 hlower.2
  obtain rfl : b = b' := Option.some.inj (hdecode.symm.trans hdecode')
  exact ⟨hlower, htext ▸ (nonZero_encode hex).mpr hb⟩

end Digits

section Fields

/-- Where a header splits. -/
theorem splitOn_text (h : Header) : h.text.splitOn '-' =
    h.version :: h.traceId :: h.spanId :: h.flags ::
      h.more.elim [] (List.splitOn '-') := by
  rw [Header.text, List.splitOn_append_cons_self_of_not_mem h.version_hex.notMem_dash,
    List.splitOn_append_cons_self_of_not_mem h.traceId_hex.notMem_dash,
    List.splitOn_append_cons_self_of_not_mem h.spanId_hex.notMem_dash]
  cases h.more with
  | none => simp [List.splitOn_eq_singleton h.flags_hex.notMem_dash]
  | some rest =>
      simp [List.splitOn_append_cons_self_of_not_mem h.flags_hex.notMem_dash]

theorem ofFields_eq_some {version traceId spanId flags : List Char}
    {more : List (List Char)} {c : SpanContext} :
    ofFields decodeToSlice version traceId spanId flags more = some c ↔
      (LowerHex 2 version ∧ version ≠ "ff".toList ∧ LowerHex 2 flags ∧
        (version = "00".toList → more = [])) ∧
      decode decodeToSlice 16 traceId = some c.traceId ∧
        decode decodeToSlice 8 spanId = some c.spanId ∧
        c.traceId ≠ 0 ∧ c.spanId ≠ 0 := by
  have hfields : (!isLowerHex version 2 || version == "ff".toList ||
      !isLowerHex flags 2) = false ↔
        LowerHex 2 version ∧ version ≠ "ff".toList ∧ LowerHex 2 flags := by
    rw [← isLowerHex_eq_true, ← isLowerHex_eq_true]
    simp only [Bool.or_eq_false_iff, Bool.not_eq_false', beq_eq_false_iff_ne, and_assoc]
  have hmore : (version == "00".toList && !more.isEmpty) = false ↔
      (version = "00".toList → more = []) := by
    rw [Bool.and_eq_false_iff, beq_eq_false_iff_ne, Bool.not_eq_false',
      List.isEmpty_iff, imp_iff_not_or]
  have hids : (do
      let traceId ← decode decodeToSlice 16 traceId
      let spanId ← decode decodeToSlice 8 spanId
      if traceId = 0 ∨ spanId = 0 then none else some (⟨traceId, spanId⟩ : SpanContext)) =
        some c ↔ decode decodeToSlice 16 traceId = some c.traceId ∧
          decode decodeToSlice 8 spanId = some c.spanId ∧
          c.traceId ≠ 0 ∧ c.spanId ≠ 0 := by
    constructor
    · intro h
      obtain ⟨traceId, htrace, h⟩ := Option.bind_eq_some_iff.mp h
      obtain ⟨spanId, hspan, h⟩ := Option.bind_eq_some_iff.mp h
      obtain ⟨hzero, heq⟩ := Option.ite_none_left_eq_some.mp h
      obtain rfl := Option.some.inj heq
      exact ⟨htrace, hspan, not_or.mp hzero⟩
    · rintro ⟨htrace, hspan, hzero⟩
      rw [htrace, hspan]
      exact if_neg (not_or.mpr hzero)
  unfold ofFields
  rw [Option.ite_none_left_eq_some, Option.ite_none_left_eq_some, Bool.not_eq_true,
    Bool.not_eq_true, hfields, hmore, hids]
  simp only [and_assoc]

/-- What the parser demands of the header. -/
theorem fromTraceparent_eq_some {header : List Char} {c : SpanContext} :
    fromTraceparent decodeToSlice header = some c ↔
      ∃ version traceId spanId flags more,
        (Text.trimSpace header).splitOn '-' =
          version :: traceId :: spanId :: flags :: more ∧
        ofFields decodeToSlice version traceId spanId flags more = some c := by
  unfold fromTraceparent
  constructor
  · intro h
    split at h
    · exact ⟨_, _, _, _, _, ‹_›, h⟩
    · exact absurd h (Option.some_ne_none c).symm
  · rintro ⟨version, traceId, spanId, flags, more, hsplit, h⟩
    rw [hsplit]
    exact h

end Fields

section Roundtrip

variable (hex : Hex.Codec encode decodeToSlice)

include hex

/-- A header in the grammar is parsed, into the words its digits stand for. -/
theorem fromTraceparent_of_header {header : List Char} (h : Header)
    (htext : Text.trimSpace header = h.text) :
    ∃ c, fromTraceparent decodeToSlice header = some c ∧
      encode 16 c.traceId = h.traceId ∧ encode 8 c.spanId = h.spanId := by
  obtain ⟨traceId, htrace, htraceText⟩ :=
    hex.encode_decode 16 h.traceId h.traceId_hex.1 h.traceId_hex.2
  obtain ⟨spanId, hspan, hspanText⟩ :=
    hex.encode_decode 8 h.spanId h.spanId_hex.1 h.spanId_hex.2
  have htraceZero : traceId ≠ 0 := by
    rw [← nonZero_encode hex, htraceText]
    exact h.traceId_nonzero
  have hspanZero : spanId ≠ 0 := by
    rw [← nonZero_encode hex, hspanText]
    exact h.spanId_nonzero
  have hmore : h.version = "00".toList → h.more.elim [] (List.splitOn '-') = [] := by
    intro hversion
    rw [h.more_later hversion]
    rfl
  refine ⟨⟨traceId, spanId⟩, ?_, htraceText, hspanText⟩
  refine fromTraceparent_eq_some.mpr ⟨_, _, _, _, _, htext ▸ splitOn_text h, ?_⟩
  refine ofFields_eq_some.mpr
    ⟨⟨h.version_hex, h.version_valid, h.flags_hex, hmore⟩, ?_, ?_, htraceZero, hspanZero⟩
  · exact (decode_of_lowerHex h.traceId_hex).trans htrace
  · exact (decode_of_lowerHex h.spanId_hex).trans hspan

/-- What is parsed is in the grammar. -/
theorem inGrammar_of_fromTraceparent {header : List Char} {c : SpanContext}
    (h : fromTraceparent decodeToSlice header = some c) :
    InGrammar (Text.trimSpace header) := by
  obtain ⟨version, traceId, spanId, flags, more, hsplit, hfields⟩ :=
    fromTraceparent_eq_some.mp h
  obtain ⟨⟨hversion, hvalid, hflags, hmore⟩, htrace, hspan, htraceZero, hspanZero⟩ :=
    ofFields_eq_some.mp hfields
  obtain ⟨htraceHex, htraceNonZero⟩ := digits_of_decode hex htrace htraceZero
  obtain ⟨hspanHex, hspanNonZero⟩ := digits_of_decode hex hspan hspanZero
  have hjoin : ['-'].intercalate ((Text.trimSpace header).splitOn '-') =
      Text.trimSpace header := List.intercalate_splitOn _
  rw [hsplit] at hjoin
  refine ⟨⟨version, traceId, spanId, flags,
    if more = [] then none else some (['-'].intercalate more), hversion, hvalid, htraceHex,
    htraceNonZero, hspanHex, hspanNonZero, hflags, fun h00 => if_pos (hmore h00)⟩, ?_⟩
  rw [← hjoin, Header.text]
  cases more with
  | nil => simp [List.intercalate_cons_cons]
  | cons field more => simp [List.intercalate_cons_cons]

theorem trimSpace_toTraceparent (c : SpanContext) :
    Text.trimSpace (toTraceparent encode c) = toTraceparent encode c := by
  have hdigits : ∀ n (b : BitVec (8 * n)), ∀ d ∈ encode n b, Text.isWhiteSpace d = false :=
    fun n b d hd => Hex.not_isWhiteSpace (hex.isLowerDigit_encode n b d hd)
  have hzero : ∀ d ∈ "00-".toList, Text.isWhiteSpace d = false := by simp [Text.isWhiteSpace]
  have hone : ∀ d ∈ "-01".toList, Text.isWhiteSpace d = false := by simp [Text.isWhiteSpace]
  refine Text.trimSpace_eq_self fun d hd => ?_
  simp only [toTraceparent_eq, List.mem_append, List.mem_cons] at hd
  rcases hd with ((hd | hd) | rfl | hd) | hd
  · exact hzero d hd
  · exact hdigits 16 _ d hd
  · decide
  · exact hdigits 8 _ d hd
  · exact hone d hd

/-- The header of a context whose ids are not zero. -/
def headerOf (c : SpanContext) (htrace : c.traceId ≠ 0) (hspan : c.spanId ≠ 0) :
    Header where
  version := "00".toList
  traceId := encode 16 c.traceId
  spanId := encode 8 c.spanId
  flags := "01".toList
  more := none
  version_hex := ⟨rfl, by simp [Hex.isLowerDigit]⟩
  version_valid := by decide
  traceId_hex := lowerHex_encode hex 16 c.traceId
  traceId_nonzero := (nonZero_encode hex).mpr htrace
  spanId_hex := lowerHex_encode hex 8 c.spanId
  spanId_nonzero := (nonZero_encode hex).mpr hspan
  flags_hex := ⟨rfl, by simp [Hex.isLowerDigit]⟩
  more_later := fun _ => rfl

/-- What was written is read back. -/
theorem fromTraceparent_toTraceparent {c : SpanContext} (htrace : c.traceId ≠ 0)
    (hspan : c.spanId ≠ 0) :
    fromTraceparent decodeToSlice (toTraceparent encode c) = some c := by
  have htext : Text.trimSpace (toTraceparent encode c) =
      (headerOf hex c htrace hspan).text := by
    rw [trimSpace_toTraceparent hex, toTraceparent_eq, Header.text]
    simp [headerOf]
  obtain ⟨d, hd, htraceText, hspanText⟩ := fromTraceparent_of_header hex _ htext
  have htraceId : d.traceId = c.traceId := encode_injective hex htraceText
  have hspanId : d.spanId = c.spanId := encode_injective hex hspanText
  cases c
  cases d
  subst htraceId hspanId
  exact hd

/-- A header is parsed exactly when it is in the grammar, but for the white space
around it; what is written is read back, and what was read is written the same again. -/
theorem traceparent_grammar :
    (∀ s, (fromTraceparent decodeToSlice s).isSome ↔ InGrammar (Text.trimSpace s)) ∧
    (∀ c : SpanContext, c.traceId ≠ 0 → c.spanId ≠ 0 →
      fromTraceparent decodeToSlice (toTraceparent encode c) = some c) ∧
    (∀ s c, fromTraceparent decodeToSlice s = some c →
      (fromTraceparent decodeToSlice (toTraceparent encode c)).map
        (toTraceparent encode) = some (toTraceparent encode c)) := by
  refine ⟨fun s => ⟨fun h => ?_, fun ⟨h, htext⟩ => ?_⟩, ?_, fun s c h => ?_⟩
  · obtain ⟨c, hc⟩ := Option.isSome_iff_exists.mp h
    exact inGrammar_of_fromTraceparent hex hc
  · obtain ⟨c, hc, -⟩ := fromTraceparent_of_header hex h htext
    exact Option.isSome_iff_exists.mpr ⟨c, hc⟩
  · exact fun c htrace hspan => fromTraceparent_toTraceparent hex htrace hspan
  · obtain ⟨_, _, _, _, _, -, hfields⟩ := fromTraceparent_eq_some.mp h
    obtain ⟨-, -, -, htrace, hspan⟩ := ofFields_eq_some.mp hfields
    rw [fromTraceparent_toTraceparent hex htrace hspan]
    rfl

end Roundtrip

/-- A header as it travels. -/
def sample : List Char := "00-4bf92f3577b34da6a3ce929d0e0e4736-00f067aa0ba902b7-01".toList

theorem traceparent_grammar_sample :
    InGrammar (Text.trimSpace sample) ∧
      fromTraceparent Hex.decode (toTraceparent Hex.encode ⟨1, 2⟩) = some ⟨1, 2⟩ := by
  obtain ⟨hgrammar, hback, -⟩ := traceparent_grammar Hex.codec
  exact ⟨(hgrammar sample).mp (by decide +kernel), hback ⟨1, 2⟩ (by decide) (by decide)⟩

/-- A header with white space before it is accepted. -/
theorem space_accepted : (fromTraceparent Hex.decode (' ' :: sample)).isSome ∧
    ¬InGrammar (' ' :: sample) := by
  refine ⟨by decide +kernel, fun ⟨h, htext⟩ => ?_⟩
  obtain ⟨hlength, hlower⟩ := h.version_hex
  cases hversion : h.version with
  | nil => simp [hversion] at hlength
  | cons d version =>
      rw [Header.text, hversion, List.cons_append, List.cons.injEq] at htext
      have hspace := hlower d (hversion ▸ List.mem_cons_self)
      rw [← htext.1] at hspace
      exact absurd hspace (by decide)

end SpanContext

end O11y

end RustSak
