import RustSak.Fetch.LinkGrammar

/-!
# The lookup of a relation

The scan knows nothing of quotes: it reads a text between them as it is meant when
nothing in the text is escaped, is a semicolon or a bracket that opens, or is no
ASCII. Any other text is read as something else wherever it is the value of a `rel`.
-/

namespace RustSak

namespace Fetch

open Library

/-! ## What is safe -/

theorem isVisibleAscii_of_isQuotable {c : Char} (h : isQuotable c = true)
    (hascii : c.toNat < 128) : isVisibleAscii c = true := by
  simp only [isQuotable, Bool.or_eq_true, beq_iff_eq, Bool.and_eq_true,
    decide_eq_true_eq, bne_iff_ne] at h
  rcases h with rfl | ⟨⟨hlow, _⟩, hdel⟩
  · rfl
  · exact isVisibleAscii_of_toNat hlow (by omega)

namespace Quoted

variable {q : Quoted}

theorem isQuotable_char (q : Quoted) : isQuotable q.char = true := by
  cases q with
  | plain c h =>
      rw [Bool.and_eq_true, Bool.and_eq_true] at h
      exact h.1.1
  | escaped c h => exact h

theorem isParameterChar_char
    (h : q.char ≠ ';' ∧ q.char ≠ '<' ∧ q.char.toNat < 128) :
    isParameterChar q.char = true := by
  rw [isParameterChar, isVisibleAscii_of_isQuotable q.isQuotable_char h.2.2,
    bne_iff_ne.mpr h.1, bne_iff_ne.mpr h.2.1]
  rfl

theorem text_of_isSafe (h : q.IsSafe) : q.text = [q.char] ∧
    isParameterChar q.char = true ∧ q.char ≠ '"' := by
  cases q with
  | escaped c hc => exact h.elim
  | plain c hc =>
      refine ⟨rfl, isParameterChar_char h, ?_⟩
      rw [Bool.and_eq_true, Bool.and_eq_true, bne_iff_ne] at hc
      exact hc.1.2

/-- Every backslash that is meant has been written as two. -/
theorem count_text (w : List Quoted) :
    2 * (w.map char).count '\\' ≤ (w.flatMap text).count '\\' := by
  induction w with
  | nil => rfl
  | cons q w ih =>
    rw [List.map_cons, List.flatMap_cons, List.count_append, List.count_cons]
    cases q with
    | plain c hc =>
        have hne : (c == '\\') = false := by
          rw [beq_eq_false_iff_ne]
          rintro rfl
          rw [Bool.and_eq_true] at hc
          exact absurd hc.2 (by decide)
        rw [char, hne]
        simp only [Bool.false_eq_true, if_false, Nat.add_zero]
        omega
    | escaped c hc =>
        have htext : (escaped c hc).text.count '\\' =
            1 + if (c == '\\') = true then 1 else 0 := by
          rw [text, List.count_cons, List.count_singleton]
          simp [Nat.add_comm]
        rw [htext, char]
        split
        · omega
        · omega

end Quoted

theorem unsplit_of_chars {w : List Quoted}
    (h : ∀ q ∈ w, isParameterChar q.char = true) : Unsplit w := by
  intro c hc
  obtain ⟨q, hq, hc⟩ := List.mem_flatMap.mp hc
  cases q with
  | plain d hd =>
      have hchar : isParameterChar (Quoted.plain d hd).char = true := h _ hq
      rw [List.mem_singleton.mp hc]
      exact hchar
  | escaped d hd =>
      have hchar : isParameterChar (Quoted.escaped d hd).char = true := h _ hq
      rcases List.mem_cons.mp hc with rfl | hc
      · rfl
      · rw [List.mem_singleton.mp hc]
        exact hchar

namespace Value

theorem read_token (t : Token) : (token t).read = (token t).meaning := by
  have hkept : ∀ c ∈ t.text, (c == '"') = false := fun c hc =>
    beq_eq_false_iff_ne.mpr (t.tokenChar c hc).ne_quote
  exact Text.trimMatches_eq_self (fun c hc => hkept c (List.mem_of_mem_head? hc))
    (fun c hc => hkept c (List.mem_of_mem_getLast? hc))

theorem read_quoted {w : List Quoted} (h : ∀ q ∈ w, q.IsSafe) :
    (quoted w).read = (quoted w).meaning := by
  have htext : w.flatMap Quoted.text = w.map Quoted.char := by
    rw [List.map_eq_flatMap]
    exact List.flatMap_congr fun q hq => (Quoted.text_of_isSafe (h q hq)).1
  have hkept : ∀ c ∈ w.map Quoted.char, (c == '"') = false := by
    intro c hc
    obtain ⟨q, hq, rfl⟩ := List.mem_map.mp hc
    exact beq_eq_false_iff_ne.mpr (Quoted.text_of_isSafe (h q hq)).2.2
  rw [read, text, meaning, htext]
  exact Text.trimMatches_append (p := (· == '"')) (a := ['"']) (b := ['"'])
    (by simp) (by simp) (fun c hc => hkept c (List.mem_of_mem_head? hc))
    (fun c hc => hkept c (List.mem_of_mem_getLast? hc))

end Value

theorem Item.relates_read {item : Item} (h : ∀ w ∈ item.quoted, ∀ q ∈ w, q.IsSafe)
    (rel : List Char) :
    item.relates Value.read rel = item.relates Value.meaning rel := by
  have hall : ∀ p ∈ item.parameters, p.relates Value.read rel =
      p.relates Value.meaning rel := by
    intro p hp
    have hsafe : ∀ w ∈ p.quoted, ∀ q ∈ w, q.IsSafe := fun w hw =>
      h w (List.mem_filterMap.mpr ⟨p, hp, hw⟩)
    unfold Parameter.quoted at hsafe
    unfold Parameter.relates
    cases hbody : p.body with
    | none => rfl
    | some body =>
      obtain ⟨name, assigned⟩ := body
      cases assigned with
      | none => rfl
      | some a =>
        obtain ⟨before, after, v⟩ := a
        rw [hbody] at hsafe
        dsimp only
        cases v with
        | token t => rw [Value.read_token]
        | quoted w => rw [Value.read_quoted (hsafe w rfl)]
  rw [Item.relates, Item.relates, Bool.eq_iff_iff, List.any_eq_true, List.any_eq_true]
  exact exists_congr fun p => and_congr_right fun hp => by rw [hall p hp]

/-- Where every text in quotes is safe, the scan reads what is meant. -/
theorem firstWith_read {values : List (List Item)}
    (h : QuotedIn {w | ∀ q ∈ w, q.IsSafe} values) (rel : List Char) :
    firstWith Value.read values rel = firstWith Value.meaning values rel := by
  unfold firstWith
  congr 1
  have hall : ∀ item ∈ values.flatten, item.relates Value.read rel =
      item.relates Value.meaning rel := by
    intro item hitem
    obtain ⟨items, hitems, hitem⟩ := List.mem_flatten.mp hitem
    exact Item.relates_read (fun w hw => h items hitems item hitem w hw) rel
  generalize values.flatten = items at hall ⊢
  induction items with
  | nil => rfl
  | cons item later ih =>
      obtain ⟨hitem, hlater⟩ := List.forall_mem_cons.mp hall
      rw [List.find?_cons, List.find?_cons, hitem, ih hlater]

/-! ## What is not -/

def noBlank : Blank := ⟨[], nofun⟩

def relToken : Token := ⟨relation, List.cons_ne_nil _ _, List.all_eq_true.mp rfl⟩

/-- An item of one parameter, without white space. -/
def saying (target : Target) (name : Token) (v : Value) : Item where
  target := target
  parameters := [⟨(noBlank, noBlank), some (name, some (noBlank, noBlank, v))⟩]
  comma := (noBlank, noBlank)

/-- The value `<t>;rel="w"`. -/
def onlyRel (w : List Quoted) : Item :=
  saying ⟨['t'], List.cons_ne_nil _ _, List.all_eq_true.mp rfl⟩ relToken (.quoted w)

section Unsafe

variable {w : List Quoted} {c : Char}

theorem firstWith_onlyRel (f : Value → List Char) (rel : List Char) :
    firstWith f [[onlyRel w]] rel =
      if (Text.words (f (.quoted w))).any fun declared =>
        Text.eqIgnoreAsciiCase declared rel then some ['t'] else none := by
  have hrelates : (onlyRel w).relates f rel =
      (Text.words (f (.quoted w))).any fun declared =>
        Text.eqIgnoreAsciiCase declared rel := by
    have hname : Text.eqIgnoreAsciiCase relation relation = true := rfl
    simp only [Item.relates, onlyRel, saying, relToken, List.any_cons, List.any_nil,
      Bool.or_false, Parameter.relates, hname, Bool.true_and]
  unfold firstWith
  rw [List.flatten_cons, List.flatten_nil, List.append_nil, List.find?_cons, hrelates]
  split
  · rename_i htrue
    rw [if_pos htrue]
    rfl
  · rename_i hfalse
    rw [if_neg (by rw [hfalse]; exact Bool.false_ne_true)]
    rfl

theorem eq_of_quoted_onlyRel {items : List Item} (hitems : items ∈ [[onlyRel w]])
    {item : Item} (hitem : item ∈ items) {w' : List Quoted} (h : w' ∈ item.quoted) :
    w' = w := by
  rw [List.mem_singleton.mp hitems, List.mem_singleton] at hitem
  rw [hitem] at h
  exact List.mem_singleton.mp h

/-- Two readings of the text that find the same have words that answer to the same. -/
theorem any_eq_of_firstWith {f g : Value → List Char} {rel : List Char}
    (h : firstWith f [[onlyRel w]] rel = firstWith g [[onlyRel w]] rel) :
    (Text.words (f (.quoted w))).any (Text.eqIgnoreAsciiCase · rel) =
      (Text.words (g (.quoted w))).any (Text.eqIgnoreAsciiCase · rel) := by
  rw [firstWith_onlyRel, firstWith_onlyRel] at h
  split at h
  · rename_i hf
    split at h
    · rename_i hg
      exact hf.trans hg.symm
    · cases h
  · rename_i hf
    split at h
    · cases h
    · rename_i hg
      exact (Bool.not_eq_true _ ▸ hf).trans (Bool.not_eq_true _ ▸ hg).symm

/-- A character that is meant is in a relation that is to be found. -/
theorem exists_relation (hc : c ∈ w.map Quoted.char)
    (hwhite : Text.isAsciiWhitespace c = false) :
    ∃ rel, c ∈ rel ∧ firstWith Value.meaning [[onlyRel w]] rel = some ['t'] := by
  obtain ⟨rel, hrel, hmem⟩ := Text.exists_word_of_mem hc hwhite
  refine ⟨rel, hmem, ?_⟩
  rw [firstWith_onlyRel, if_pos]
  exact List.any_eq_true.mpr ⟨rel, hrel, Text.eqIgnoreAsciiCase_refl rel⟩

/-- What holds a byte above ASCII is passed over. -/
theorem link_eq_none {value : HeaderValue} (hc : c ∈ value) (hbyte : 128 ≤ c.toNat)
    (rel : List Char) : link [value] rel = none := by
  have hnot : ¬ value.all isVisibleAscii = true := by
    intro hall
    have hvisible := List.all_eq_true.mp hall c hc
    simp only [isVisibleAscii, Bool.or_eq_true, Bool.and_eq_true, decide_eq_true_eq,
      beq_iff_eq] at hvisible
    rcases hvisible with hvisible | rfl
    · omega
    · exact absurd hbyte (by decide)
  have htext : value.toStr = none := if_neg hnot
  rw [link, List.filterMap_cons_none htext]
  rfl

theorem mem_render_onlyRel (hc : c ∈ w.flatMap Quoted.text) :
    c ∈ render [onlyRel w] := by
  simp only [render, onlyRel, saying, Item.parametersText, Parameter.text,
    Parameter.bodyText,
    Value.text, List.flatMap_cons, List.mem_append, List.mem_cons]
  tauto

theorem Quoted.char_mem_text (q : Quoted) : q.char ∈ q.text := by
  cases q with
  | plain c h => exact List.mem_singleton_self c
  | escaped c h => exact List.mem_cons_of_mem _ (List.mem_singleton_self c)

theorem char_mem_text (hc : c ∈ w.map Quoted.char) : c ∈ w.flatMap Quoted.text := by
  obtain ⟨q, hq, rfl⟩ := List.mem_map.mp hc
  exact List.mem_flatMap.mpr ⟨q, hq, q.char_mem_text⟩

/-- Nothing that is meant is a semicolon, a bracket or above ASCII, where the lookup
of any relation goes by the grammar. -/
theorem meant_of_follows
    (h : ∀ rel, link [render [onlyRel w]] rel =
      firstWith Value.meaning [[onlyRel w]] rel) (hc : c ∈ w.map Quoted.char) :
    c ≠ ';' ∧ c ≠ '<' ∧ c.toNat < 128 := by
  refine ⟨?_, ?_, ?_⟩
  · rintro rfl
    obtain ⟨rel, hmem, hfound⟩ := exists_relation hc (by decide)
    exact (not_mem_of_link ((h rel).trans hfound)).1 hmem
  · rintro rfl
    obtain ⟨rel, hmem, hfound⟩ := exists_relation hc (by decide)
    exact (not_mem_of_link ((h rel).trans hfound)).2 hmem
  · by_contra hbyte
    have hwhite : Text.isAsciiWhitespace c = false := by
      simp only [Text.isAsciiWhitespace, Bool.or_eq_false_iff, beq_eq_false_iff_ne]
      refine ⟨⟨⟨⟨?_, ?_⟩, ?_⟩, ?_⟩, ?_⟩ <;>
        · rintro rfl
          exact hbyte (by decide)
    obtain ⟨rel, _, hfound⟩ := exists_relation hc hwhite
    rw [← h rel, link_eq_none (mem_render_onlyRel (char_mem_text hc))
      (Nat.le_of_not_lt hbyte)] at hfound
    cases hfound

/-- A part of the text with a backslash is within a word that the scan reads. -/
theorem exists_word_read {part : List Char} (h : part <:+: w.flatMap Quoted.text)
    (hmem : '\\' ∈ part) (hwhite : ∀ c ∈ part, Text.isAsciiWhitespace c = false) :
    ∃ word ∈ Text.words (Value.quoted w).read, part.count '\\' ≤ word.count '\\' := by
  have hin : part <:+: (Value.quoted w).text :=
    h.trans ⟨['"'], ['"'], by rw [Value.text, List.cons_append]; rfl⟩
  obtain ⟨rest, hrest, hcount, hread⟩ :=
    Text.exists_infix_trimMatches (p := (· == '"')) hin hmem (by decide)
  have hne : rest ≠ [] := by
    rintro rfl
    rw [List.count_nil] at hcount
    exact (List.count_pos_iff.mpr hmem).ne hcount
  obtain ⟨word, hword, hinfix⟩ := Text.exists_word_of_infix hread hne
    fun c hc => hwhite c (hrest.subset hc)
  exact ⟨word, hword, hcount ▸ hinfix.count_le '\\'⟩

/-- A word that is meant and has a backslash has been written with more of them. -/
theorem outdone {meant : List Char} (h : meant ∈ Text.words (w.map Quoted.char))
    (hmem : '\\' ∈ meant) : ∃ word ∈ Text.words (Value.quoted w).read,
      meant.count '\\' < word.count '\\' := by
  obtain ⟨before, after, hsplit⟩ := Text.infix_of_mem_words h
  obtain ⟨front, back, hw, hfront, _⟩ := List.map_eq_append_iff.mp hsplit.symm
  obtain ⟨start, part, hfront', _, hpart⟩ := List.map_eq_append_iff.mp hfront
  have hin : part.flatMap Quoted.text <:+: w.flatMap Quoted.text := by
    rw [hw, hfront', List.flatMap_append, List.flatMap_append]
    exact ⟨_, _, rfl⟩
  have htwice := Quoted.count_text part
  rw [hpart] at htwice
  have hpos := List.count_pos_iff.mpr hmem
  have hback : '\\' ∈ part.flatMap Quoted.text := by
    rw [← List.count_pos_iff]
    omega
  have hwhite : ∀ c ∈ part.flatMap Quoted.text, Text.isAsciiWhitespace c = false := by
    intro c hc
    obtain ⟨q, hq, hc⟩ := List.mem_flatMap.mp hc
    have hchar : Text.isAsciiWhitespace q.char = false :=
      Text.not_white_of_mem_words h q.char (hpart ▸ List.mem_map_of_mem hq)
    cases q with
    | plain d hd =>
        rw [List.mem_singleton.mp hc]
        exact hchar
    | escaped d hd =>
        rcases List.mem_cons.mp hc with rfl | hc
        · rfl
        · rw [List.mem_singleton.mp hc]
          exact hchar
  obtain ⟨word, hword, hle⟩ := exists_word_read hin hback hwhite
  exact ⟨word, hword, by omega⟩

/-- Nothing is escaped, where the lookup of any relation goes by the grammar. -/
theorem isSafe_of_follows
    (h : ∀ rel, link [render [onlyRel w]] rel =
      firstWith Value.meaning [[onlyRel w]] rel) : ∀ q ∈ w, q.IsSafe := by
  have hmeant : ∀ q ∈ w, q.char ≠ ';' ∧ q.char ≠ '<' ∧ q.char.toNat < 128 :=
    fun q hq => meant_of_follows h (List.mem_map_of_mem hq)
  have hunsplit : Unsplit w :=
    unsplit_of_chars fun q hq => Quoted.isParameterChar_char (hmeant q hq)
  intro q hq
  cases q with
  | plain c hc => exact hmeant _ hq
  | escaped c hc =>
    have hsame : ∀ rel, (Text.words (Value.quoted w).read).any
        (Text.eqIgnoreAsciiCase · rel) =
        (Text.words (Value.quoted w).meaning).any (Text.eqIgnoreAsciiCase · rel) := by
      intro rel
      have hread := @link_render [[onlyRel w]] (fun items hitems item hitem w' hw' =>
        eq_of_quoted_onlyRel hitems hitem hw' ▸ hunsplit) rel
      exact any_eq_of_firstWith (hread.symm.trans (h rel))
    -- The words as read have more backslashes than any that is meant.
    have hno := Text.not_mem_of_outdone (b := '\\') (by decide) hsame
      fun v hv => outdone hv
    have hpart : ['\\'] <:+: w.flatMap Quoted.text := by
      obtain ⟨before, after, rfl⟩ := List.append_of_mem hq
      refine ⟨before.flatMap Quoted.text, c :: after.flatMap Quoted.text, ?_⟩
      rw [List.flatMap_append, List.flatMap_cons, List.append_assoc]
      rfl
    obtain ⟨word, hword, hle⟩ := exists_word_read hpart (List.mem_singleton_self _)
      (List.forall_mem_singleton.mpr rfl)
    refine absurd (List.count_pos_iff.mp ?_) (hno word hword)
    exact Nat.lt_of_lt_of_le Nat.zero_lt_one hle

end Unsafe

/-- The lookup goes by the grammar for all that the quoted texts in `S` can be put
into, just where all of them are safe. -/
theorem link_follows_grammar_iff (S : Set (List Quoted)) :
    FollowsGrammar S ↔ ∀ w ∈ S, ∀ q ∈ w, q.IsSafe := by
  constructor
  · intro h w hw
    refine isSafe_of_follows fun rel => h [[onlyRel w]] ?_ rel
    exact fun items hitems item hitem w' hw' =>
      eq_of_quoted_onlyRel hitems hitem hw' ▸ hw
  · intro h values hquoted rel
    have hsafe : QuotedIn {w | ∀ q ∈ w, q.IsSafe} values :=
      fun items hitems item hitem w hw => h w (hquoted items hitems item hitem w hw)
    rw [link_render (fun items hitems item hitem w hw =>
      unsplit_of_chars fun q hq => (Quoted.text_of_isSafe
        (hsafe items hitems item hitem w hw q hq)).2.1) rel]
    exact firstWith_read hsafe rel

/-- A title that has a relation in it, and the link that really has it. -/
def misleading : List Item :=
  [saying ⟨['/', '1'], List.cons_ne_nil _ _, List.all_eq_true.mp rfl⟩
      ⟨['t', 'i', 't', 'l', 'e'], List.cons_ne_nil _ _, List.all_eq_true.mp rfl⟩
      (.quoted [.plain ';' rfl, .plain 'r' rfl, .plain 'e' rfl, .plain 'l' rfl,
        .plain '=' rfl, .plain 'n' rfl]),
    saying ⟨['/', '2'], List.cons_ne_nil _ _, List.all_eq_true.mp rfl⟩ relToken
      (.token ⟨['n'], List.cons_ne_nil _ _, List.all_eq_true.mp rfl⟩)]

/-- The value `</1>;title=";rel=n",</2>;rel=n`, and the target `/1`. -/
theorem not_link_follows_grammar :
    ¬ ∀ (values : List (List Item)) (rel : List Char),
      link (values.map render) rel = firstWith Value.meaning values rel := by
  intro h
  have hfirst := h [misleading] ['n']
  revert hfirst
  decide +kernel

end Fetch

end RustSak
