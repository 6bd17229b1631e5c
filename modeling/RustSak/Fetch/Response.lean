import RustSak.Fetch.Partial
import RustSak.Library.Text

/-!
# What the server answers

The request of one attempt, the headers of its response that the transfer reads,
and what is assumed of the server: what a `200` and a `206` carry, that a strong
entity tag names one representation, and that `If-Range` is honoured.
-/

namespace RustSak

namespace Fetch

open Library

inductive Validator where
  | etag (tag : String)
  | lastModified (date : String)
  deriving DecidableEq

/-- The headers an attempt adds, `Range: bytes=<offset>-` and `If-Range`. -/
structure Request where
  range : Option ℕ
  ifRange : Option Validator
  deriving DecidableEq

/-- A strong tag is preferred; the date is the validator of last resort. -/
def Sidecar.validator (sidecar : Sidecar) : Option Validator :=
  (sidecar.etag.map .etag).or (sidecar.lastModified.map .lastModified)

def request (offset : ℕ) (recorded : Option Sidecar) : Request where
  range := if offset > 0 then some offset else none
  ifRange := if offset > 0 then recorded.bind Sidecar.validator else none

/-- A response: its status and headers, the body it carries if its stream comes
to its end, and the representation the server had selected. Only the server
knows the last one. -/
structure Response (β : Type) where
  status : ℕ
  etag : Option String
  lastModified : Option String
  contentRange : Option String
  contentLength : Option ℕ
  body : List β
  representation : List β
  deriving DecidableEq

namespace Response

variable {β : Type} (response : Response β)

/-- The first byte of `bytes <first>-<last>/<length>`. -/
def contentRangeStart : Option ℕ :=
  response.contentRange.bind fun value =>
    (Text.stripPrefix "bytes ".toList value.toList).bind fun rest =>
      Decimal.parse 64 (Text.trim (rest.takeWhile (· != '-')))

/-- The length of `bytes */<length>`. -/
def unsatisfiedRangeTotal : Option ℕ :=
  response.contentRange.bind fun value =>
    (Text.stripPrefix "bytes */".toList value.toList).bind fun rest =>
      Decimal.parse 64 (Text.trim rest)

def responseEtag : Option String :=
  response.etag.bind fun etag =>
    if "W/".toList.isPrefixOf etag.toList then none else some etag

def isError : Bool := 400 ≤ response.status && response.status < 600

end Response

/-- The text is `bytes <first>-<last>/` and the length, or a star. -/
def NamesRange (text : String) (first last : ℕ) : Prop :=
  ∃ ds ds' rest : List Char,
    text.toList = "bytes ".toList ++ (ds ++ '-' :: (ds' ++ '/' :: rest)) ∧
    ds ≠ [] ∧ ds.all Char.isDigit = true ∧ Decimal.value ds = first ∧
    ds' ≠ [] ∧ ds'.all Char.isDigit = true ∧ Decimal.value ds' = last

theorem contentRangeStart_of_names {β : Type} {response : Response β}
    {text : String} {first last n : ℕ} (htext : response.contentRange = some text)
    (hnames : NamesRange text first last)
    (hstart : response.contentRangeStart = some n) : n = first := by
  obtain ⟨ds, ds', rest, hlist, hne, hds, rfl, _⟩ := hnames
  have hdigit : ∀ c ∈ ds, c.isDigit = true := List.all_eq_true.mp hds
  have htake : (ds ++ '-' :: (ds' ++ '/' :: rest)).takeWhile (· != '-') = ds := by
    rw [List.takeWhile_append_of_pos]
    · simp
    · intro c hc
      have hc' := hdigit c hc
      simp only [bne_iff_ne, ne_eq]
      rintro rfl
      simp [Char.isDigit] at hc'
  have htrim : Text.trim ds = ds := Text.trim_eq_self fun c hc =>
    Decimal.not_isWhitespace_of_isDigit (hdigit c hc)
  rw [Response.contentRangeStart, htext, Option.bind_some, hlist,
    Text.stripPrefix_append, Option.bind_some, htake, htrim] at hstart
  exact Decimal.parse_digits hds hstart

/-- What is assumed of a server that answers a request for a URL, where
`represents` is the representation each strong tag stands for. -/
structure Truthful {β : Type} (represents : String → String → List β)
    (url : String) (request : Request) (response : Response β) : Prop where
  strong : ∀ tag, response.responseEtag = some tag →
    response.representation = represents url tag
  whole : response.status = 200 → response.body = response.representation
  range : response.status = 206 → ∃ text first last,
    response.contentRange = some text ∧ NamesRange text first last ∧
    first ≤ last ∧ last < response.representation.length ∧
    response.body = (response.representation.drop first).take (last + 1 - first)
  /-- `If-Range` with a strong tag is honoured: the range is one of the
  representation of that tag, or it is ignored. -/
  ifRange : response.status = 206 ∨ response.status = 416 →
    ∀ tag, request.ifRange = some (.etag tag) →
      response.representation = represents url tag

end Fetch

end RustSak
