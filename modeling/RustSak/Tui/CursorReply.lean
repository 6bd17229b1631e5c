import RustSak.Library.Slice
import RustSak.Library.Text
import RustSak.Library.Unicode

/-!
# Finding the terminal's cursor reply in what was read

`parseReply` looks for the last `R` and, before it, for the last `ESC [`; what stands in
between has to be two numbers. `Last` is what it is to find: the position of the last
complete reply in the bytes. The two agree exactly where the bytes before the last `R`
do not hide a reply, which `Answers` says of the bytes alone.
-/

namespace RustSak

namespace Tui

open Library

structure Position where
  x : ℕ
  y : ℕ
  deriving DecidableEq

def esc : UInt8 := 0x1b

def bracket : UInt8 := 0x5b

def letterR : UInt8 := 0x52

/-- The position that two numbers between `ESC [` and `R` name. -/
def parseBody (text : List UInt8) : Option Position := do
  let text ← Utf8.decode text
  let parts ← Text.splitOnce [';'] text
  let row ← Decimal.parse 16 parts.1
  let column ← Decimal.parse 16 parts.2
  return ⟨column - 1, row - 1⟩

def parseReply (bytes : List UInt8) : Option Position := do
  let stop ← rposition (· == letterR) bytes
  let start ← rposition (· == (esc, bracket)) (windows2 (bytes.take stop))
  parseBody ((bytes.take stop).drop (start + 2))

/-! ## Complete replies -/

def ascii (text : List Char) : List UInt8 := text.map fun c => c.toNat.toUInt8

/-- Decimal digits for a number of 16 bits. -/
structure IsNumber (text : List Char) (n : ℕ) : Prop where
  ne_nil : text ≠ []
  digits : text.all Char.isDigit = true
  value : Decimal.value text = n
  fits : n < 2 ^ 16

/-- The same after a plus sign. -/
def IsSigned (text : List Char) (n : ℕ) : Prop := ∃ digits, text = '+' :: digits ∧ IsNumber digits n

/-- A row and a column; the position is zero-based. -/
def Body (text : List UInt8) (p : Position) : Prop :=
  ∃ row column r c, text = ascii (row ++ ';' :: column) ∧ IsNumber row r ∧
    IsNumber column c ∧ p = ⟨c - 1, r - 1⟩

/-- A row and a column, one of them or both with a plus sign. -/
def SignedBody (text : List UInt8) (p : Position) : Prop :=
  ∃ row column r c, text = ascii (row ++ ';' :: column) ∧
    (IsNumber row r ∧ IsSigned column c ∨
      IsSigned row r ∧ (IsNumber column c ∨ IsSigned column c)) ∧
    p = ⟨c - 1, r - 1⟩

/-- `ESC [`, a body and `R`. -/
def reply (body : List UInt8) (after : List UInt8) : List UInt8 :=
  esc :: bracket :: (body ++ letterR :: after)

/-- There is a complete reply. -/
def Contains (bytes : List UInt8) : Prop :=
  ∃ before body after p, bytes = before ++ reply body after ∧ Body body p

/-- The position of the last complete reply. -/
def Last (bytes : List UInt8) (p : Position) : Prop :=
  ∃ before body after, bytes = before ++ reply body after ∧ Body body p ∧ ¬Contains after

/-- The last `R`, and the last `ESC [` before it. -/
structure Framed (bytes before body after : List UInt8) : Prop where
  eq : bytes = before ++ reply body after
  noR : letterR ∉ after
  noStart : ¬[esc, bracket] <:+: bracket :: body

/-- What stands between the last `ESC [` before the last `R` and that `R` is a complete
reply; or no reply even with plus signs, and there is no complete one anywhere; or a
reply but for plus signs, and the last complete one names the same position. -/
def Answers (bytes : List UInt8) : Prop :=
  ∀ before body after, Framed bytes before body after →
    (∃ p, Body body p) ∨ ((∀ p, ¬SignedBody body p) ∧ ¬Contains bytes) ∨
    ∃ p, SignedBody body p ∧ Last bytes p

variable {bytes body : List UInt8} {p : Position} {text : List Char} {n : ℕ}

theorem IsNumber.toNat_of_mem (h : IsNumber text n) :
    ∀ c ∈ text, 48 ≤ c.toNat ∧ c.toNat ≤ 57 := by
  intro c hc
  have hdigit := List.all_eq_true.mp h.digits c hc
  simp only [Char.isDigit, Bool.and_eq_true, decide_eq_true_eq, ge_iff_le,
    UInt32.le_iff_toNat_le] at hdigit
  exact hdigit

theorem parse_eq_some :
    Decimal.parse 16 text = some n ↔ IsNumber text n ∨ IsSigned text n := by
  have hnumber (digits : List Char) : (if digits ≠ [] ∧ digits.all Char.isDigit = true ∧
      Decimal.value digits < 2 ^ 16 then some (Decimal.value digits) else none) = some n ↔
      IsNumber digits n := by
    rw [Option.ite_none_right_eq_some, Option.some.injEq]
    constructor
    · rintro ⟨⟨hne, hdigits, hfits⟩, rfl⟩
      exact ⟨hne, hdigits, rfl, hfits⟩
    · rintro ⟨hne, hdigits, rfl, hfits⟩
      exact ⟨⟨hne, hdigits, hfits⟩, rfl⟩
  by_cases hsign : ∃ digits, text = '+' :: digits
  · obtain ⟨digits, rfl⟩ := hsign
    have hnot : ¬IsNumber ('+' :: digits) n := by
      intro h
      exact absurd (List.all_eq_true.mp h.digits '+' List.mem_cons_self) (by decide)
    have hsigned : IsSigned ('+' :: digits) n ↔ IsNumber digits n := by
      constructor
      · rintro ⟨same, heq, h⟩
        rwa [(List.cons.inj heq).2]
      · exact fun h => ⟨digits, rfl, h⟩
    rw [or_iff_right hnot, hsigned]
    exact hnumber digits
  · have hunsigned : Decimal.unsigned text = text := by
      unfold Decimal.unsigned
      split
      · rename_i digits
        exact absurd ⟨digits, rfl⟩ hsign
      · rfl
    have hnot : ¬IsSigned text n := fun ⟨digits, h, _⟩ => hsign ⟨digits, h⟩
    rw [or_iff_left hnot, Decimal.parse, hunsigned]
    exact hnumber text

/-- The characters of a number. -/
theorem toNat_of_number (h : IsNumber text n ∨ IsSigned text n) :
    ∀ c ∈ text, c.toNat < 59 := by
  have hdigits {digits : List Char} (h : IsNumber digits n) :
      ∀ c ∈ digits, c.toNat < 59 := by
    intro c hc
    have hle := (h.toNat_of_mem c hc).2
    omega
  rcases h with h | ⟨digits, rfl, h⟩
  · exact hdigits h
  · exact List.forall_mem_cons.mpr ⟨by decide, hdigits h⟩

/-- Two numbers and the semicolon between them are ASCII. -/
theorem ascii_of_numbers {row column : List Char} {r c : ℕ} (hr : IsNumber row r ∨ IsSigned row r)
    (hc : IsNumber column c ∨ IsSigned column c) : ∀ x ∈ row ++ ';' :: column, x.toNat < 0x80 := by
  intro x hx
  rcases List.mem_append.mp hx with hx | hx
  · have hlt := toNat_of_number hr x hx
    omega
  · rcases List.mem_cons.mp hx with rfl | hx
    · decide
    · have hlt := toNat_of_number hc x hx
      omega

theorem body_or_signedBody : Body body p ∨ SignedBody body p ↔ ∃ row column r c,
    body = ascii (row ++ ';' :: column) ∧ (IsNumber row r ∨ IsSigned row r) ∧
    (IsNumber column c ∨ IsSigned column c) ∧ p = ⟨c - 1, r - 1⟩ := by
  constructor
  · rintro (⟨row, column, r, c, hbody, hr, hc, hp⟩ | ⟨row, column, r, c, hbody, h, hp⟩)
    · exact ⟨row, column, r, c, hbody, .inl hr, .inl hc, hp⟩
    · rcases h with ⟨hr, hc⟩ | ⟨hr, hc⟩
      · exact ⟨row, column, r, c, hbody, .inl hr, .inr hc, hp⟩
      · exact ⟨row, column, r, c, hbody, .inr hr, hc, hp⟩
  · rintro ⟨row, column, r, c, hbody, hr, hc, hp⟩
    rcases hr with hr | hr
    · rcases hc with hc | hc
      · exact .inl ⟨row, column, r, c, hbody, hr, hc, hp⟩
      · exact .inr ⟨row, column, r, c, hbody, .inl ⟨hr, hc⟩, hp⟩
    · exact .inr ⟨row, column, r, c, hbody, .inr ⟨hr, hc⟩, hp⟩

theorem parseBody_eq_some : parseBody body = some p ↔ Body body p ∨ SignedBody body p := by
  rw [body_or_signedBody]
  constructor
  · intro h
    obtain ⟨cs, hcs, h⟩ := Option.bind_eq_some_iff.mp h
    obtain ⟨parts, hparts, h⟩ := Option.bind_eq_some_iff.mp h
    obtain ⟨r, hr, h⟩ := Option.bind_eq_some_iff.mp h
    obtain ⟨c, hc, h⟩ := Option.bind_eq_some_iff.mp h
    obtain rfl := Option.some.inj h
    rw [parse_eq_some] at hr hc
    have hsplit : cs = parts.1 ++ ';' :: parts.2 := Text.eq_of_splitOnce hparts
    have hbody : body = ascii cs := by
      rw [Utf8.decode_eq_some.mp hcs]
      exact Utf8.encode_ascii (hsplit ▸ ascii_of_numbers hr hc)
    exact ⟨parts.1, parts.2, r, c, hsplit ▸ hbody, hr, hc, rfl⟩
  · rintro ⟨row, column, r, c, rfl, hr, hc, rfl⟩
    have hdecode : Utf8.decode (ascii (row ++ ';' :: column)) = some (row ++ ';' :: column) :=
      Utf8.decode_eq_some.mpr (Utf8.encode_ascii (ascii_of_numbers hr hc)).symm
    have hsemicolon : ';' ∉ row := fun h => absurd (toNat_of_number hr ';' h) (by decide)
    have hsplit : Text.splitOnce [';'] (row ++ ';' :: column) = some (row, column) :=
      Text.splitOnce_eq_some hsemicolon [] column
    rw [parseBody, hdecode]
    dsimp only [Option.bind_eq_bind, Option.bind_some]
    rw [hsplit]
    dsimp only [Option.bind_some]
    rw [parse_eq_some.mpr hr]
    dsimp only [Option.bind_some]
    rw [parse_eq_some.mpr hc]
    rfl

/-! ## The last reply -/

variable {before after : List UInt8} {q : Position}

theorem toNat_of_body (h : Body body p) : ∀ b ∈ body, 48 ≤ b.toNat ∧ b.toNat ≤ 59 := by
  obtain ⟨row, column, r, c, rfl, hr, hc, -⟩ := h
  intro b hb
  obtain ⟨x, hx, rfl⟩ := List.mem_map.mp hb
  have hbounds : 48 ≤ x.toNat ∧ x.toNat ≤ 59 := by
    rcases List.mem_append.mp hx with hx | hx
    · exact ⟨(hr.toNat_of_mem x hx).1, (hr.toNat_of_mem x hx).2.trans (by decide)⟩
    · rcases List.mem_cons.mp hx with rfl | hx
      · decide
      · exact ⟨(hc.toNat_of_mem x hx).1, (hc.toNat_of_mem x hx).2.trans (by decide)⟩
  have hbyte : x.toNat.toUInt8.toNat = x.toNat := by
    rw [Nat.toUInt8, UInt8.toNat_ofNat']
    omega
  rw [hbyte]
  exact hbounds

theorem esc_notMem (h : Body body p) : esc ∉ body :=
  fun hmem => absurd (toNat_of_body h esc hmem) (by decide)

theorem letterR_notMem (h : Body body p) : letterR ∉ body :=
  fun hmem => absurd (toNat_of_body h letterR hmem) (by decide)

/-- A number is read in one way. -/
theorem Body.position_eq (h : Body body p) (h' : Body body q) : p = q := by
  have hp := parseBody_eq_some.mpr (.inl h)
  rw [parseBody_eq_some.mpr (.inl h')] at hp
  exact (Option.some.inj hp).symm

/-- A reply that begins after another one begins after the end of that one. -/
theorem contains_of_later {skipped body' after' : List UInt8} (h : Body body p)
    (h' : Body body' q) (hne : skipped ≠ [])
    (heq : reply body after = skipped ++ reply body' after') : Contains after := by
  obtain ⟨x, skipped, rfl⟩ := List.exists_cons_of_ne_nil hne
  have hsecond : bracket :: (body ++ letterR :: after) = skipped ++ reply body' after' :=
    (List.cons.inj heq).2
  rcases List.cons_eq_append_iff.mp hsecond with ⟨-, hfirst⟩ | ⟨rest, -, hbody⟩
  · exact absurd (List.cons.inj hfirst).1 (by decide)
  rcases List.append_eq_append_iff.mp hbody with ⟨more, -, hmore⟩ | ⟨more, hmiddle, hmore⟩
  · rcases List.cons_eq_append_iff.mp hmore with ⟨-, hfirst⟩ | ⟨skip, -, hafter⟩
    · exact absurd (List.cons.inj hfirst).1 (by decide)
    · exact ⟨skip, body', after', q, hafter, h'⟩
  · rcases List.cons_eq_append_iff.mp hmore with ⟨-, hfirst⟩ | ⟨skip, hskip, -⟩
    · exact absurd (List.cons.inj hfirst).1 (by decide)
    · refine absurd ?_ (esc_notMem h)
      rw [hmiddle, hskip]
      exact List.mem_append_right _ List.mem_cons_self

/-- One reply is read in one way. -/
theorem position_eq_of_reply {body' after' : List UInt8} (h : Body body p)
    (h' : Body body' q) (heq : reply body after = reply body' after') : p = q := by
  have hrest : body ++ letterR :: after = body' ++ letterR :: after' :=
    (List.cons.inj (List.cons.inj heq).2).2
  have hhead (rest : List UInt8) : ∀ x ∈ (letterR :: rest).head?, x = letterR :=
    fun x hx => (Option.some.inj hx).symm
  have hsame := (Text.append_inj_of_mark (letterR_notMem h) (letterR_notMem h')
    (hhead after) (hhead after') hrest).1
  rw [hsame] at h
  exact h.position_eq h'

/-- There is one last reply. -/
theorem Last.unique (h : Last bytes p) (h' : Last bytes q) : p = q := by
  obtain ⟨before, body, after, rfl, hbody, hlast⟩ := h
  obtain ⟨before', body', after', heq, hbody', hlast'⟩ := h'
  rcases List.append_eq_append_iff.mp heq with ⟨skipped, -, hskip⟩ | ⟨skipped, -, hskip⟩
  · by_cases hne : skipped = []
    · rw [hne, List.nil_append] at hskip
      exact position_eq_of_reply hbody hbody' hskip
    · exact absurd (contains_of_later hbody hbody' hne hskip) hlast
  · by_cases hne : skipped = []
    · rw [hne, List.nil_append] at hskip
      exact (position_eq_of_reply hbody' hbody hskip).symm
    · exact absurd (contains_of_later hbody' hbody hne hskip) hlast'

theorem Last.contains (h : Last bytes p) : Contains bytes := by
  obtain ⟨before, body, after, hbytes, hbody, -⟩ := h
  exact ⟨before, body, after, p, hbytes, hbody⟩

/-- Where there is a reply there is a last one. -/
theorem Contains.exists_last (h : Contains bytes) : ∃ p, Last bytes p := by
  induction hlength : bytes.length using Nat.strong_induction_on generalizing bytes with
  | _ length ih =>
      obtain ⟨before, body, after, p, rfl, hbody⟩ := h
      by_cases hmore : Contains after
      · have hshorter : after.length < length := by
          rw [← hlength, reply]
          simp only [List.length_append, List.length_cons]
          omega
        obtain ⟨q, before', body', after', rfl, hbody', hlast⟩ := ih _ hshorter hmore rfl
        refine ⟨q, before ++ (esc :: bracket :: (body ++ letterR :: before')), body', after',
          ?_, hbody', hlast⟩
        simp [reply]
      · exact ⟨p, before, body, after, rfl, hbody, hmore⟩

/-! ## What the search finds -/

theorem exists_framed (h : parseReply bytes = some p) :
    ∃ before body after, Framed bytes before body after := by
  obtain ⟨stop, hstop, h⟩ := Option.bind_eq_some_iff.mp h
  obtain ⟨start, hstart, -⟩ := Option.bind_eq_some_iff.mp h
  obtain ⟨upTo, r, after, rfl, rfl, hr, hafter⟩ := exists_of_rposition hstop
  obtain rfl := beq_iff_eq.mp hr
  rw [List.take_left] at hstart
  obtain ⟨before, body, rfl, -, hbody⟩ := exists_of_rposition_windows2 hstart
  refine ⟨before, body, after, ?_, ?_, hbody⟩
  · simp [reply]
  · intro hmem
    have hnot := hafter letterR hmem
    rw [beq_self_eq_true] at hnot
    cases hnot

theorem parseReply_of_framed (h : Framed bytes before body after) :
    parseReply bytes = parseBody body := by
  have hbytes : bytes = (before ++ esc :: bracket :: body) ++ letterR :: after := by
    rw [h.eq]
    simp [reply]
  have hnone : ∀ y ∈ after, (y == letterR) = false := by
    intro y hy
    rw [beq_eq_false_iff_ne]
    rintro rfl
    exact h.noR hy
  have hstop := rposition_of_eq (p := (· == letterR)) (before ++ esc :: bracket :: body)
    (beq_self_eq_true letterR) hnone
  have hstart := rposition_windows2 before body h.noStart
  have hdrop : (before ++ esc :: bracket :: body).drop (before.length + 2) = body := by
    rw [List.drop_append, List.drop_eq_nil_of_le (by omega), Nat.add_sub_cancel_left]
    rfl
  rw [parseReply, hbytes, hstop]
  dsimp only [Option.bind_eq_bind, Option.bind_some]
  rw [List.take_left, hstart]
  dsimp only [Option.bind_some]
  rw [hdrop]

/-- No reply is complete without its `R`. -/
theorem not_contains (h : letterR ∉ bytes) : ¬Contains bytes := by
  rintro ⟨before, body, after, p, rfl, -⟩
  refine h (List.mem_append_right _ ?_)
  simp [reply]

/-- Where there is a reply there is a last `R` with a last `ESC [` before it. -/
theorem Contains.exists_framed (h : Contains bytes) :
    ∃ before body after, Framed bytes before body after := by
  obtain ⟨start, text, rest, p, hbytes, -⟩ := h
  have hsplit : bytes = (start ++ esc :: bracket :: text) ++ letterR :: rest := by
    rw [hbytes]
    simp [reply]
  cases hstop : rposition (· == letterR) bytes with
  | none =>
      have hnot := rposition_eq_none.mp hstop letterR (by rw [hsplit]; simp)
      rw [beq_self_eq_true] at hnot
      cases hnot
  | some stop =>
      obtain ⟨upTo, r, after, hupTo, -, hr, hafter⟩ := exists_of_rposition hstop
      obtain rfl := beq_iff_eq.mp hr
      have hnoR : letterR ∉ after := by
        intro hmem
        have hnot := hafter letterR hmem
        rw [beq_self_eq_true] at hnot
        cases hnot
      have hstart : [esc, bracket] <:+: upTo := by
        rw [hupTo] at hsplit
        rcases List.append_eq_append_iff.mp hsplit with ⟨more, hmore, htail⟩ | ⟨more, hmore, -⟩
        · cases more with
          | nil =>
              rw [List.append_nil] at hmore
              exact ⟨start, text, by rw [← hmore]; simp⟩
          | cons x more =>
              have hx : after = more ++ letterR :: rest := (List.cons.inj htail).2
              exact absurd (by rw [hx]; simp) hnoR
        · exact ⟨start, text ++ more, by rw [hmore]; simp⟩
      cases hwindow : rposition (· == (esc, bracket)) (windows2 upTo) with
      | none =>
          have hnot := rposition_eq_none.mp hwindow _ (mem_windows2.mpr hstart)
          rw [beq_self_eq_true] at hnot
          cases hnot
      | some i =>
          obtain ⟨before, body, rfl, -, hbody⟩ := exists_of_rposition_windows2 hwindow
          refine ⟨before, body, after, ?_, hnoR, hbody⟩
          rw [hupTo]
          simp [reply]

/-- The search is right just where the bytes answer it. -/
theorem parseReply_agrees_iff (bytes : List UInt8) :
    (∀ p, parseReply bytes = some p ↔ Last bytes p) ↔ Answers bytes := by
  constructor
  · intro hagree before body after hframed
    rw [parseReply_of_framed hframed] at hagree
    by_cases hbody : ∃ p, Body body p
    · exact .inl hbody
    · refine .inr ?_
      by_cases hsigned : ∃ p, SignedBody body p
      · obtain ⟨p, hp⟩ := hsigned
        exact .inr ⟨p, hp, (hagree p).mp (parseBody_eq_some.mpr (.inr hp))⟩
      · refine .inl ⟨not_exists.mp hsigned, ?_⟩
        intro hcontains
        obtain ⟨p, hlast⟩ := hcontains.exists_last
        rcases parseBody_eq_some.mp ((hagree p).mpr hlast) with hp | hp
        · exact hbody ⟨p, hp⟩
        · exact hsigned ⟨p, hp⟩
  · intro hanswers p
    by_cases hframe : ∃ before body after, Framed bytes before body after
    · obtain ⟨before, body, after, hframed⟩ := hframe
      have hone {q : Position} (hq : parseBody body = some q) (hlast : Last bytes q) :
          parseBody body = some p ↔ Last bytes p := by
        constructor
        · intro hp
          rw [hq] at hp
          exact Option.some.inj hp ▸ hlast
        · intro hp
          rw [hq, hlast.unique hp]
      rw [parseReply_of_framed hframed]
      rcases hanswers before body after hframed with
        ⟨q, hq⟩ | ⟨hsigned, hcontains⟩ | ⟨q, hq, hlast⟩
      · exact hone (parseBody_eq_some.mpr (.inl hq))
          ⟨before, body, after, hframed.eq, hq, not_contains hframed.noR⟩
      · constructor
        · intro hp
          rcases parseBody_eq_some.mp hp with hp | hp
          · exact absurd ⟨before, body, after, p, hframed.eq, hp⟩ hcontains
          · exact absurd hp (hsigned p)
        · exact fun hp => absurd hp.contains hcontains
      · exact hone (parseBody_eq_some.mpr (.inr hq)) hlast
    · constructor
      · exact fun hp => absurd (exists_framed hp) hframe
      · exact fun hp => absurd hp.contains.exists_framed hframe

/-! ## Reading until a reply has arrived -/

/-- What comes of waiting for the terminal and reading from it. -/
inductive Tty where
  | data (bytes : List UInt8)
  | interrupted
  | timedOut
  | closed
  | failed
  deriving DecidableEq

inductive ReadError where
  | timedOut
  | unexpectedEof
  | failed
  deriving DecidableEq

/-- What has been read after one more event. -/
def Tty.next (reply : List UInt8) : Tty → Except ReadError (List UInt8)
  | .data bytes => .ok (reply ++ bytes)
  | .interrupted => .ok reply
  | .timedOut => .error .timedOut
  | .closed => .error .unexpectedEof
  | .failed => .error .failed

/-- The loop, none while it goes on. -/
def readFrom (reply : List UInt8) : List Tty → Option (Except ReadError Position)
  | [] => (parseReply reply).map .ok
  | event :: events =>
      match parseReply reply with
      | some p => some (.ok p)
      | none =>
          match event.next reply with
          | .ok reply => readFrom reply events
          | .error e => some (.error e)

def readCursorPosition (events : List Tty) : Option (Except ReadError Position) :=
  readFrom [] events

/-- What had been read at each turn, until reading failed. -/
def buffers (reply : List UInt8) : List Tty → List (List UInt8)
  | [] => [reply]
  | event :: events => reply ::
      match event.next reply with
      | .ok reply => buffers reply events
      | .error _ => []

theorem readFrom_eq_ok {reply : List UInt8} {events : List Tty} :
    readFrom reply events = some (.ok p) ↔
      (buffers reply events).findSome? parseReply = some p := by
  induction events generalizing reply with
  | nil =>
      cases hparse : parseReply reply with
      | none => simp [readFrom, buffers, hparse]
      | some q => simp [readFrom, buffers, hparse]
  | cons event events ih =>
      cases hparse : parseReply reply with
      | some q => simp [readFrom, buffers, hparse]
      | none =>
          cases hnext : event.next reply with
          | ok more => simp [readFrom, buffers, hparse, hnext, ih]
          | error e => simp [readFrom, buffers, hparse, hnext]

/-- The position is that of the last complete reply just where the bytes answer the
search; and where they do at every turn, it is returned once a reply has arrived. -/
theorem replies_found (bytes : List UInt8) (events : List Tty) :
    ((∀ p, parseReply bytes = some p ↔ Last bytes p) ↔ Answers bytes) ∧
    ((∀ buffer ∈ buffers [] events, Answers buffer) → ∀ p,
      readCursorPosition events = some (.ok p) ↔
        ∃ before buffer after, buffers [] events = before ++ buffer :: after ∧
          (∀ b ∈ before, ¬Contains b) ∧ Last buffer p) := by
  refine ⟨parseReply_agrees_iff bytes, ?_⟩
  intro hanswers p
  have hnone : ∀ b ∈ buffers [] events, parseReply b = none ↔ ¬Contains b := by
    intro b hb
    have hagree := (parseReply_agrees_iff b).mpr (hanswers b hb)
    rw [Option.eq_none_iff_forall_ne_some]
    constructor
    · intro hno hcontains
      obtain ⟨q, hq⟩ := hcontains.exists_last
      exact hno q ((hagree q).mpr hq)
    · exact fun hno q hq => hno ((hagree q).mp hq).contains
  rw [readCursorPosition, readFrom_eq_ok, List.findSome?_eq_some_iff]
  refine exists_congr fun before => exists_congr fun buffer => exists_congr fun after =>
    and_congr_right fun hsplit => ?_
  have hbefore : ∀ b ∈ before, b ∈ buffers [] events := by
    intro b hb
    rw [hsplit]
    exact List.mem_append_left _ hb
  have hbuffer : buffer ∈ buffers [] events := by
    rw [hsplit]
    exact List.mem_append_right _ List.mem_cons_self
  rw [and_comm]
  exact and_congr (forall₂_congr fun b hb => hnone b (hbefore b hb))
    ((parseReply_agrees_iff buffer).mpr (hanswers buffer hbuffer) p)

theorem answers_of_noR (h : letterR ∉ bytes) : Answers bytes := by
  intro before body after hframed
  refine absurd ?_ h
  rw [hframed.eq, reply]
  simp

theorem answers_of_last (h : parseReply bytes = some p) (hlast : Last bytes p) :
    Answers bytes := by
  refine (parseReply_agrees_iff bytes).mp fun q => ?_
  constructor
  · intro hq
    rw [h] at hq
    exact Option.some.inj hq ▸ hlast
  · intro hq
    rw [h, hlast.unique hq]

/-- The body of the reply for row 3 and column 40. -/
theorem body_third_row : Body (ascii "3;40".toList) ⟨39, 2⟩ :=
  ⟨"3".toList, "40".toList, 3, 40, rfl,
    ⟨by decide, by decide +kernel, by decide +kernel, by decide⟩,
    ⟨by decide, by decide +kernel, by decide +kernel, by decide⟩, rfl⟩

theorem replies_found_typed :
    readCursorPosition [.data (ascii "typed".toList), .interrupted,
      .data (reply (ascii "3;40".toList) [])] = some (.ok ⟨39, 2⟩) := by
  have hlast : Last (ascii "typed".toList ++ reply (ascii "3;40".toList) []) ⟨39, 2⟩ :=
    ⟨_, _, _, rfl, body_third_row, not_contains List.not_mem_nil⟩
  have hnoR : ∀ b ∈ [[], ascii "typed".toList, ascii "typed".toList], letterR ∉ b := by
    decide +kernel
  refine ((replies_found [] _).2 ?_ ⟨39, 2⟩).mpr
    ⟨[[], ascii "typed".toList, ascii "typed".toList], _, [], rfl, ?_, hlast⟩
  · intro b hb
    have hsplit : b ∈ [[], ascii "typed".toList, ascii "typed".toList] ++
        [ascii "typed".toList ++ reply (ascii "3;40".toList) []] := hb
    rcases List.mem_append.mp hsplit with hb | hb
    · exact answers_of_noR (hnoR b hb)
    · rw [List.mem_singleton.mp hb]
      exact answers_of_last (by decide +kernel) hlast
  · exact fun b hb => not_contains (hnoR b hb)

/-- A typed `R` after the reply hides it. -/
theorem reply_hidden : ¬∀ p, parseReply (reply (ascii "3;40".toList) [letterR]) = some p ↔
    Last (reply (ascii "3;40".toList) [letterR]) p := by
  intro hagree
  have hshort : ¬Contains [letterR] := by
    rintro ⟨before, body, after, p, heq, -⟩
    have hlength := congrArg List.length heq
    rw [reply] at hlength
    simp only [List.length_append, List.length_cons, List.length_nil] at hlength
    omega
  have hnone : parseReply (reply (ascii "3;40".toList) [letterR]) = none := by
    decide +kernel
  have hlast := (hagree ⟨39, 2⟩).mpr ⟨[], _, _, rfl, body_third_row, hshort⟩
  rw [hnone] at hlast
  cases hlast

end Tui

end RustSak
