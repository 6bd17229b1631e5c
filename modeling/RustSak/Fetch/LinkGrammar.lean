import RustSak.Fetch.Links

/-!
# The grammar of link headers

Commas separate the links of a value, semicolons what is said of each, and between
quotes either may stand for itself. Where no text in quotes holds what the scan goes
by, it finds the links and their parameters.
-/

namespace RustSak

namespace Fetch

open Library

/-- Spaces and tabs. -/
structure Blank where
  text : List Char
  blank : ∀ c ∈ text, c = ' ' ∨ c = '\t'

/-- What a token cannot hold. -/
def delimiters : List Char :=
  ['"', '(', ')', ',', '/', ':', ';', '<', '=', '>', '?', '@', '[', '\\', ']', '\x7b',
    '\x7d']

def isTokenChar (c : Char) : Bool :=
  33 ≤ c.toNat && c.toNat < 127 && !delimiters.contains c

structure Token where
  text : List Char
  ne_nil : text ≠ []
  chars : ∀ c ∈ text, isTokenChar c = true

def isTargetChar (c : Char) : Bool :=
  33 ≤ c.toNat && c.toNat < 127 && c != '<' && c != '>'

/-- A target; one that is empty is malformed. -/
structure Target where
  text : List Char
  ne_nil : text ≠ []
  chars : ∀ c ∈ text, isTargetChar c = true

/-- Tabs, and what is no control character; a byte above ASCII is allowed. -/
def isQuotable (c : Char) : Bool :=
  c == '\t' || (32 ≤ c.toNat && c.toNat < 256 && c.toNat != 127)

/-- What a text between quotes consists of. -/
inductive Quoted where
  | plain (c : Char) (h : (isQuotable c && c != '"' && c != '\\') = true)
  | escaped (c : Char) (h : isQuotable c = true)

namespace Quoted

def text : Quoted → List Char
  | plain c _ => [c]
  | escaped c _ => ['\\', c]

def char : Quoted → Char
  | plain c _ => c
  | escaped c _ => c

/-- It stands for itself, and nothing else is made of it. -/
def IsSafe : Quoted → Prop
  | plain c _ => c ≠ ';' ∧ c ≠ '<' ∧ c.toNat < 128
  | escaped _ _ => False

end Quoted

inductive Value where
  | token (t : Token)
  | quoted (w : List Quoted)

namespace Value

def text : Value → List Char
  | token t => t.text
  | quoted w => '"' :: w.flatMap Quoted.text ++ ['"']

/-- What is meant by the value. -/
def meaning : Value → List Char
  | token t => t.text
  | quoted w => w.map Quoted.char

/-- What the scan makes of it. -/
def read (v : Value) : List Char := Text.trimMatches (· == '"') v.text

end Value

/-- What follows one semicolon: nothing, or a name, perhaps with a value. -/
structure Parameter where
  semicolon : Blank × Blank
  body : Option (Token × Option (Blank × Blank × Value))

namespace Parameter

def bodyText (p : Parameter) : List Char :=
  match p.body with
  | none => []
  | some (name, none) => name.text
  | some (name, some (before, after, v)) =>
      name.text ++ (before.text ++ '=' :: (after.text ++ v.text))

def text (p : Parameter) : List Char :=
  p.semicolon.1.text ++ ';' :: (p.semicolon.2.text ++ p.bodyText)

/-- The parameter is a `rel`, and `rel` is among the words of its value, if that is
taken as `f` has it. -/
def relates (f : Value → List Char) (rel : List Char) (p : Parameter) : Bool :=
  match p.body with
  | some (name, some (_, _, v)) =>
      Text.eqIgnoreAsciiCase name.text relation &&
        (Text.words (f v)).any fun declared => Text.eqIgnoreAsciiCase declared rel
  | _ => false

/-- The text in quotes, if the parameter has one. -/
def quoted (p : Parameter) : Option (List Quoted) :=
  match p.body with
  | some (_, some (_, _, .quoted w)) => some w
  | _ => none

end Parameter

/-- A link, and the white space around the comma after it, if another follows. -/
structure Item where
  target : Target
  parameters : List Parameter
  comma : Blank × Blank

namespace Item

def parametersText (item : Item) : List Char := item.parameters.flatMap Parameter.text

def separator (item : Item) (later : List Item) : List Char :=
  if later.isEmpty then [] else item.comma.1.text ++ ',' :: item.comma.2.text

/-- So it is by any of its parameters, were there two that are a `rel`. -/
def relates (f : Value → List Char) (rel : List Char) (item : Item) : Bool :=
  item.parameters.any (·.relates f rel)

def quoted (item : Item) : List (List Quoted) :=
  item.parameters.filterMap Parameter.quoted

end Item

def render : List Item → HeaderValue
  | [] => []
  | item :: later =>
      '<' :: item.target.text ++
        '>' :: (item.parametersText ++ item.separator later ++ render later)

/-- The target of the first item of which `rel` is a relation. -/
def firstWith (f : Value → List Char) (values : List (List Item)) (rel : List Char) :
    Option (List Char) :=
  (values.flatten.find? (·.relates f rel)).map fun item => item.target.text

/-- Every text in quotes is from `S`. -/
def QuotedIn (S : Set (List Quoted)) (values : List (List Item)) : Prop :=
  ∀ items ∈ values, ∀ item ∈ items, ∀ w ∈ item.quoted, w ∈ S

/-- The lookup goes by the grammar wherever texts in quotes are from `S`. -/
def FollowsGrammar (S : Set (List Quoted)) : Prop :=
  ∀ values, QuotedIn S values → ∀ rel,
    link (values.map render) rel = firstWith Value.meaning values rel

/-! ## Characters -/

/-- What neither ends a parameter nor begins a target. -/
def isParameterChar (c : Char) : Bool := isVisibleAscii c && c != ';' && c != '<'

theorem of_isParameterChar {c : Char} (h : isParameterChar c = true) :
    isVisibleAscii c = true ∧ c ≠ ';' ∧ c ≠ '<' := by
  rw [isParameterChar, Bool.and_eq_true, Bool.and_eq_true, bne_iff_ne, bne_iff_ne] at h
  exact ⟨h.1.1, h.1.2, h.2⟩

theorem not_white_of_toNat {c : Char} (hlow : 33 ≤ c.toNat) (hhigh : c.toNat < 127) :
    Text.isWhiteSpace c = false := by
  simp only [Text.isWhiteSpace, Bool.or_eq_false_iff, Bool.and_eq_false_iff,
    decide_eq_false_iff_not, beq_eq_false_iff_ne]
  omega

theorem isVisibleAscii_of_toNat {c : Char} (hlow : 32 ≤ c.toNat)
    (hhigh : c.toNat < 127) : isVisibleAscii c = true := by
  rw [isVisibleAscii, decide_eq_true hlow, decide_eq_true hhigh]
  rfl

/-- What is known of the characters of a token. -/
structure TokenChar (c : Char) : Prop where
  parameter : isParameterChar c = true
  not_white : Text.isWhiteSpace c = false
  ne_comma : c ≠ ','
  ne_equals : c ≠ '='
  ne_quote : c ≠ '"'

theorem tokenChar {c : Char} (h : isTokenChar c = true) : TokenChar c := by
  have hne : ∀ d, isTokenChar d = false → c ≠ d := by
    rintro d hd rfl
    rw [hd] at h
    cases h
  have hparts := h
  rw [isTokenChar, Bool.and_eq_true, Bool.and_eq_true, decide_eq_true_iff,
    decide_eq_true_iff] at hparts
  refine ⟨?_, not_white_of_toNat hparts.1.1 hparts.1.2, hne _ rfl, hne _ rfl, hne _ rfl⟩
  rw [isParameterChar, isVisibleAscii_of_toNat (by omega) hparts.1.2,
    bne_iff_ne.mpr (hne _ rfl), bne_iff_ne.mpr (hne _ rfl)]
  rfl

theorem Token.tokenChar (t : Token) : ∀ c ∈ t.text, TokenChar c :=
  fun c hc => Fetch.tokenChar (t.chars c hc)

namespace Blank

variable (b : Blank) {c : Char}

theorem parameter (hc : c ∈ b.text) : isParameterChar c = true := by
  rcases b.blank c hc with rfl | rfl
  · rfl
  · rfl

theorem white (hc : c ∈ b.text) : Text.isWhiteSpace c = true := by
  rcases b.blank c hc with rfl | rfl
  · rfl
  · rfl

theorem ne (hc : c ∈ b.text) : c ≠ '=' ∧ c ≠ ',' := by
  rcases b.blank c hc with rfl | rfl
  · decide
  · decide

end Blank

/-! ## What the scan reads -/

/-- What may stand between a parameter and the next, or the next item. -/
def IsEnd (cs : List Char) : Prop :=
  (∃ b : Blank, cs = b.text) ∨ ∃ b b' : Blank, cs = b.text ++ ',' :: b'.text

theorem IsEnd.chars {cs : List Char} (h : IsEnd cs) :
    ∀ c ∈ cs, isParameterChar c = true ∧ c ≠ '=' := by
  intro c hc
  rcases h with ⟨b, rfl⟩ | ⟨b, b', rfl⟩
  · exact ⟨b.parameter hc, (b.ne hc).1⟩
  · rcases List.mem_append.mp hc with hc | hc
    · exact ⟨b.parameter hc, (b.ne hc).1⟩
    · rcases List.mem_cons.mp hc with rfl | hc
      · exact ⟨rfl, by decide⟩
      · exact ⟨b'.parameter hc, (b'.ne hc).1⟩

theorem isEnd_separator (item : Item) (later : List Item) :
    IsEnd (item.separator later) := by
  unfold Item.separator
  split
  · exact .inl ⟨⟨[], nofun⟩, rfl⟩
  · exact .inr ⟨_, _, rfl⟩

namespace Value

variable (v : Value)

theorem head_text {c : Char} (h : c ∈ v.text.head?) :
    Text.isWhiteSpace c = false ∧ c ≠ ',' := by
  cases v with
  | token t =>
      have hc := t.tokenChar c (List.mem_of_mem_head? h)
      exact ⟨hc.not_white, hc.ne_comma⟩
  | quoted w =>
      cases h
      exact ⟨by decide, by decide⟩

theorem last_text {c : Char} (h : c ∈ v.text.getLast?) :
    Text.isWhiteSpace c = false ∧ c ≠ ',' := by
  cases v with
  | token t =>
      have hc := t.tokenChar c (List.mem_of_mem_getLast? h)
      exact ⟨hc.not_white, hc.ne_comma⟩
  | quoted w =>
      rw [text, List.getLast?_append_cons] at h
      cases h
      exact ⟨by decide, by decide⟩

theorem text_ne_nil : v.text ≠ [] := by
  cases v with
  | token t => exact t.ne_nil
  | quoted w => exact List.cons_ne_nil _ _

/-- No comma is taken off that is within a value, nor off the white space after it. -/
theorem rdropWhile_text {cs : List Char} (h : ∀ c ∈ cs, c ≠ ',') :
    (v.text ++ cs).rdropWhile (· == ',') = v.text ++ cs := by
  rw [List.rdropWhile_eq_self_iff]
  intro hne hlast
  have hmem : ',' ∈ (v.text ++ cs).getLast? := by
    rw [List.getLast?_eq_some_getLast hne, beq_iff_eq.mp hlast]
    rfl
  rw [List.getLast?_append] at hmem
  cases hcs : cs.getLast? with
  | none =>
      rw [hcs] at hmem
      exact (v.last_text hmem).2 rfl
  | some c =>
      rw [hcs] at hmem
      cases hmem
      exact h _ (List.mem_of_mem_getLast? hcs) rfl

/-- White space around a value, and the comma of the next item, are taken off. -/
theorem bare_text (b : Blank) {cs : List Char} (hend : IsEnd cs) :
    bare (b.text ++ v.text ++ cs) = v.read := by
  have hself : Text.trimSpace v.text = v.text := Text.trimMatches_eq_self
    (fun c hc => (v.head_text hc).1) (fun c hc => (v.last_text hc).1)
  unfold bare read
  rcases hend with ⟨b', rfl⟩ | ⟨b', b'', rfl⟩
  · have htrim : Text.trimSpace (b.text ++ v.text ++ b'.text) = v.text :=
      Text.trimMatches_append (fun _ => b.white) (fun _ => b'.white)
        (fun c hc => (v.head_text hc).1) (fun c hc => (v.last_text hc).1)
    have hdrop := v.rdropWhile_text (List.forall_mem_nil (· ≠ ','))
    rw [List.append_nil] at hdrop
    rw [htrim, hdrop, hself]
  · have hsplit : b.text ++ v.text ++ (b'.text ++ ',' :: b''.text) =
        b.text ++ (v.text ++ b'.text ++ [',']) ++ b''.text := by simp
    have hhead : ∀ c ∈ (v.text ++ b'.text ++ [',']).head?,
        Text.isWhiteSpace c = false := by
      intro c hc
      rw [List.append_assoc, List.head?_append_of_ne_nil _ v.text_ne_nil] at hc
      exact (v.head_text hc).1
    have hlast : ∀ c ∈ (v.text ++ b'.text ++ [',']).getLast?,
        Text.isWhiteSpace c = false := by
      intro c hc
      rw [List.getLast?_append_cons] at hc
      cases hc
      decide
    have htrim : Text.trimSpace (b.text ++ (v.text ++ b'.text ++ [',']) ++ b''.text) =
        v.text ++ b'.text ++ [','] :=
      Text.trimMatches_append (fun _ => b.white) (fun _ => b''.white) hhead hlast
    have htrim' : Text.trimSpace (v.text ++ b'.text) = v.text :=
      Text.trimMatches_append (a := []) nofun (fun _ => b'.white)
        (fun c hc => (v.head_text hc).1) (fun c hc => (v.last_text hc).1)
    rw [hsplit, htrim, List.rdropWhile_concat_pos (· == ',') _ ',' rfl,
      v.rdropWhile_text fun c hc => (b'.ne hc).2, htrim']

end Value

/-- No text in quotes can be taken for the end of a parameter, or for a target. -/
def Unsplit (w : List Quoted) : Prop :=
  ∀ c ∈ w.flatMap Quoted.text, isParameterChar c = true

namespace Parameter

variable (p : Parameter) {rel : List Char}

theorem chars_bodyText (h : ∀ w ∈ p.quoted, Unsplit w) :
    ∀ c ∈ p.bodyText, isParameterChar c = true := by
  intro c hc
  unfold bodyText at hc
  cases hbody : p.body with
  | none =>
      rw [hbody] at hc
      cases hc
  | some body =>
    obtain ⟨name, assigned⟩ := body
    rw [hbody] at hc
    cases assigned with
    | none => exact (name.tokenChar c hc).parameter
    | some a =>
      obtain ⟨before, after, v⟩ := a
      simp only [List.mem_append, List.mem_cons] at hc
      rcases hc with hc | hc | rfl | hc | hc
      · exact (name.tokenChar c hc).parameter
      · exact before.parameter hc
      · rfl
      · exact after.parameter hc
      · cases v with
        | token t => exact (t.tokenChar c hc).parameter
        | quoted w =>
            have hquoted : w ∈ p.quoted := by
              unfold quoted
              rw [hbody]
              rfl
            simp only [Value.text, List.cons_append, List.mem_cons, List.mem_append,
              List.not_mem_nil, or_false] at hc
            rcases hc with rfl | hc | rfl
            · rfl
            · exact h w hquoted c hc
            · rfl

/-- A parameter is found out as what it is, whatever white space is around it. -/
theorem parameterHasRel_text (b : Blank) {cs : List Char} (hend : IsEnd cs) :
    parameterHasRel rel (b.text ++ p.bodyText ++ cs) = p.relates Value.read rel := by
  have hnone : ∀ name : List Char, (∀ c ∈ name, c ≠ '=') →
      parameterHasRel rel (b.text ++ name ++ cs) = false := by
    intro name hname
    have hmem : '=' ∉ b.text ++ name ++ cs := by
      simp only [List.mem_append, not_or]
      exact ⟨⟨fun h => (b.ne h).1 rfl, fun h => hname _ h rfl⟩,
        fun h => (hend.chars _ h).2 rfl⟩
    rw [parameterHasRel, Text.splitOnce_eq_none hmem]
  unfold bodyText relates
  cases p.body with
  | none => exact hnone [] nofun
  | some body =>
    obtain ⟨name, assigned⟩ := body
    cases assigned with
    | none => exact hnone name.text fun c hc => (name.tokenChar c hc).ne_equals
    | some a =>
      obtain ⟨before, after, v⟩ := a
      have hname : '=' ∉ b.text ++ name.text ++ before.text := by
        simp only [List.mem_append, not_or]
        exact ⟨⟨fun h => (b.ne h).1 rfl, fun h => (name.tokenChar _ h).ne_equals rfl⟩,
          fun h => (before.ne h).1 rfl⟩
      have hsplit : b.text ++ (name.text ++ (before.text ++
          '=' :: (after.text ++ v.text))) ++ cs =
          (b.text ++ name.text ++ before.text) ++
            (['='] ++ (after.text ++ v.text ++ cs)) := by simp
      have htrim : Text.trimSpace (b.text ++ name.text ++ before.text) = name.text :=
        Text.trimMatches_append (fun _ => b.white) (fun _ => before.white)
          (fun c hc => (name.tokenChar c (List.mem_of_mem_head? hc)).not_white)
          (fun c hc => (name.tokenChar c (List.mem_of_mem_getLast? hc)).not_white)
      dsimp only
      rw [hsplit, parameterHasRel, Text.splitOnce_eq_some hname]
      dsimp only
      rw [htrim, v.bare_text after hend]

end Parameter

theorem not_mem_semicolon {cs : List Char} (h : ∀ c ∈ cs, isParameterChar c = true) :
    ';' ∉ cs := fun hmem => (of_isParameterChar (h _ hmem)).2.1 rfl

/-- The parameters are told apart, after what the first of them is found out as. -/
theorem hasRel_parameters {rel before cs : List Char} {found : Bool} (hend : IsEnd cs)
    (hbefore : ∀ c ∈ before, isParameterChar c = true)
    (hfound : ∀ cs, IsEnd cs → parameterHasRel rel (before ++ cs) = found)
    {parameters : List Parameter}
    (h : ∀ p ∈ parameters, ∀ w ∈ p.quoted, Unsplit w) :
    hasRel (before ++ (parameters.flatMap Parameter.text ++ cs)) rel =
      (found || parameters.any (·.relates Value.read rel)) := by
  induction parameters generalizing before found with
  | nil =>
    have hall : ';' ∉ before ++ cs := by
      rw [List.mem_append, not_or]
      exact ⟨not_mem_semicolon hbefore,
        not_mem_semicolon fun c hc => (hend.chars c hc).1⟩
    rw [List.flatMap_nil, List.nil_append, hasRel, List.splitOn_eq_singleton hall,
      List.any_cons, hfound cs hend]
    rfl
  | cons p parameters ih =>
    obtain ⟨hp, hrest⟩ := List.forall_mem_cons.mp h
    have hsplit : before ++ ((p :: parameters).flatMap Parameter.text ++ cs) =
        (before ++ p.semicolon.1.text) ++ ';' :: (p.semicolon.2.text ++ p.bodyText ++
          (parameters.flatMap Parameter.text ++ cs)) := by
      simp [Parameter.text]
    have hfirst : ';' ∉ before ++ p.semicolon.1.text := by
      rw [List.mem_append, not_or]
      exact ⟨not_mem_semicolon hbefore, not_mem_semicolon fun _ => Blank.parameter _⟩
    have hnext : ∀ c ∈ p.semicolon.2.text ++ p.bodyText, isParameterChar c = true := by
      intro c hc
      rcases List.mem_append.mp hc with hc | hc
      · exact Blank.parameter _ hc
      · exact p.chars_bodyText hp c hc
    have hlater := ih hnext (fun cs hcs => p.parameterHasRel_text _ hcs) hrest
    rw [hasRel] at hlater
    rw [hsplit, hasRel, List.splitOn_append_cons_self_of_not_mem hfirst, List.any_cons,
      hlater, hfound _ (.inl ⟨_, rfl⟩), List.any_cons]

namespace Item

variable (item : Item) {rel : List Char}

/-- An item is found out as what its parameters are read as. -/
theorem hasRel_text (h : ∀ w ∈ item.quoted, Unsplit w) (later : List Item) :
    hasRel (item.parametersText ++ item.separator later) rel =
      item.relates Value.read rel := by
  have hnone : ∀ cs, IsEnd cs → parameterHasRel rel ([] ++ cs) = false := by
    intro cs hcs
    have hmem : '=' ∉ [] ++ cs := fun h => (hcs.chars _ h).2 rfl
    rw [parameterHasRel, Text.splitOnce_eq_none hmem]
  have hall : ∀ p ∈ item.parameters, ∀ w ∈ p.quoted, Unsplit w := fun p hp w hw =>
    h w (List.mem_filterMap.mpr ⟨p, hp, hw⟩)
  have hbefore : ∀ c ∈ ([] : List Char), isParameterChar c = true := nofun
  have hrel := hasRel_parameters (isEnd_separator item later) hbefore hnone hall
  rwa [List.nil_append, Bool.false_or] at hrel

theorem chars_text (h : ∀ w ∈ item.quoted, Unsplit w) (later : List Item) :
    ∀ c ∈ item.parametersText ++ item.separator later,
      isVisibleAscii c = true ∧ c ≠ '<' := by
  intro c hc
  have hof : isParameterChar c = true → isVisibleAscii c = true ∧ c ≠ '<' := fun h =>
    ⟨(of_isParameterChar h).1, (of_isParameterChar h).2.2⟩
  rcases List.mem_append.mp hc with hc | hc
  · obtain ⟨p, hp, hc⟩ := List.mem_flatMap.mp hc
    have hall : ∀ w ∈ p.quoted, Unsplit w := fun w hw =>
      h w (List.mem_filterMap.mpr ⟨p, hp, hw⟩)
    simp only [Parameter.text, List.mem_append, List.mem_cons] at hc
    rcases hc with hc | rfl | hc | hc
    · exact hof (Blank.parameter _ hc)
    · exact ⟨rfl, by decide⟩
    · exact hof (Blank.parameter _ hc)
    · exact hof (p.chars_bodyText hall c hc)
  · exact hof ((isEnd_separator item later).chars c hc).1

end Item

theorem targetChar {c : Char} (h : isTargetChar c = true) :
    isVisibleAscii c = true ∧ Text.isWhiteSpace c = false ∧ c ≠ '>' := by
  simp only [isTargetChar, Bool.and_eq_true, decide_eq_true_eq, bne_iff_ne] at h
  obtain ⟨⟨⟨hlow, hhigh⟩, _⟩, hclose⟩ := h
  exact ⟨isVisibleAscii_of_toNat (by omega) hhigh, not_white_of_toNat hlow hhigh,
    hclose⟩

theorem toStr_render {items : List Item}
    (h : ∀ item ∈ items, ∀ w ∈ item.quoted, Unsplit w) :
    (render items).toStr = some (render items) := by
  have hall : ∀ c ∈ render items, isVisibleAscii c = true := by
    induction items with
    | nil => exact nofun
    | cons item later ih =>
      obtain ⟨hitem, hlater⟩ := List.forall_mem_cons.mp h
      intro c hc
      simp only [render, List.cons_append, List.mem_cons, List.mem_append] at hc
      rcases hc with rfl | hc | rfl | hc | hc
      · rfl
      · exact (targetChar (item.target.chars c hc)).1
      · rfl
      · exact (item.chars_text hitem later c (List.mem_append.mpr hc)).1
      · exact ih hlater c hc
  rw [HeaderValue.toStr, if_pos (List.all_eq_true.mpr hall)]

/-- The scan finds the items of a value, each with its own parameters. -/
theorem linksFrom_render {items : List Item} {fuel : ℕ}
    (h : ∀ item ∈ items, ∀ w ∈ item.quoted, Unsplit w) (hfuel : items.length ≤ fuel)
    (rel : List Char) :
    ((linksFrom fuel (render items)).find? fun l => hasRel l.2 rel).map Prod.fst =
      (items.find? (·.relates Value.read rel)).map fun item => item.target.text := by
  induction items generalizing fuel with
  | nil =>
      cases fuel with
      | zero => rfl
      | succ fuel => rfl
  | cons item later ih =>
    cases fuel with
    | zero => cases hfuel
    | succ fuel =>
      obtain ⟨hitem, hlater⟩ := List.forall_mem_cons.mp h
      have hhead : ∀ c ∈ (render later).head?, c = '<' := by
        cases later with
        | nil => exact nofun
        | cons next later =>
            intro c hc
            cases hc
            rfl
      have hrender : render (item :: later) = '<' :: item.target.text ++
          '>' :: ((item.parametersText ++ item.separator later) ++ render later) := rfl
      have hscan := @linksFrom_cons fuel _ _ item.target.text
        (fun hmem => (targetChar (item.target.chars _ hmem)).2.2 rfl)
        (fun c hc => (targetChar (item.target.chars c hc)).2.1) item.target.ne_nil
        (fun hmem => (item.chars_text hitem later _ hmem).2 rfl) hhead
      rw [hrender, hscan, List.find?_cons, List.find?_cons]
      dsimp only
      rw [item.hasRel_text hitem later]
      cases item.relates Value.read rel with
      | true => rfl
      | false => exact ih hlater (Nat.le_of_succ_le_succ hfuel)

theorem length_le_render (items : List Item) :
    items.length ≤ (render items).length := by
  induction items with
  | nil => rfl
  | cons item later ih =>
      simp only [render, List.length_cons, List.length_append]
      omega

/-- Where no text in quotes is split the scan finds the first item that it reads as
one of the relation. -/
theorem link_render {values : List (List Item)}
    (h : ∀ items ∈ values, ∀ item ∈ items, ∀ w ∈ item.quoted, Unsplit w)
    (rel : List Char) :
    link (values.map render) rel = firstWith Value.read values rel := by
  unfold link firstWith
  induction values with
  | nil => rfl
  | cons items values ih =>
    obtain ⟨hitems, hvalues⟩ := List.forall_mem_cons.mp h
    have hfirst := linksFrom_render hitems (length_le_render items) rel
    rw [List.map_cons, List.filterMap_cons_some (toStr_render hitems),
      List.flatMap_cons, List.find?_append, List.flatten_cons, List.find?_append,
      Option.map_or, Option.map_or, ih hvalues]
    congr 1

end Fetch

end RustSak
