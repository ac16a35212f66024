import Mathlib.Data.List.Forall2
import PathSieve.Json.Printer
import PathSieve.Proofs.Nesting

/-!
# What is written is read back

A text in quotes spells the string it quotes, for all characters (`writes_quote`). From there, a
value of strings, arrays and objects is spelled both by its lexemes one after the other
(`Value.compact`) and by its lines (`Value.pretty`).

Texts are put together from parts that spell a sequence of tokens whatever comes behind them
(`Writes`). Strings and punctuation do; a number or a word does not, since it goes on where a
character comes that it can hold.
-/

namespace PathSieve.Json

open Token (charsOf escape? hexValue? isBlank isHigh isLow punctuation?)

/-! ## Characters in quotes -/

theorem hexValue?_hexDigit (n : Nat) : hexValue? (hexDigit n) = some (n % 16) := by
  have hdigits : ∀ k < 16, hexValue? (Nat.digitChar k) = some k := by decide
  exact hdigits (n % 16) (Nat.mod_lt n (by decide))

/-- Each character is escaped such that it is read back. -/
theorem glyph_quoteChar (c : Char) : Glyph c.toNat (quoteChar c) := by
  unfold quoteChar
  split
  · exact .short rfl
  · exact .short rfl
  · exact .short rfl
  · exact .short rfl
  · exact .short rfl
  · exact .short rfl
  · exact .short rfl
  · next hquote hescape _ _ _ _ _ =>
    split
    · next hcontrol =>
      have hcode : ((0 * 16 + 0) * 16 + c.toNat / 16 % 16) * 16 + c.toNat % 16 = c.toNat := by omega
      have hzero : hexValue? '0' = some 0 := rfl
      have hglyph := Glyph.unit hzero hzero (hexValue?_hexDigit (c.toNat / 16))
        (hexValue?_hexDigit c.toNat)
      rwa [hcode] at hglyph
    · next hcontrol => exact .plain hquote hescape (Nat.le_of_not_lt hcontrol)

theorem body_flatMap_quoteChar (cs : List Char) :
    Body (cs.map Char.toNat) (cs.flatMap quoteChar) := by
  induction cs with
  | nil => exact .nil
  | cons c cs ih => exact .cons (glyph_quoteChar c) ih

/-- The code of a character is no half of a surrogate pair. -/
theorem isHigh_or_isLow_toNat (c : Char) : isHigh c.toNat = false ∧ isLow c.toNat = false := by
  have hvalid : c.toNat < 0xD800 ∨ (0xDFFF < c.toNat ∧ c.toNat < 0x110000) := c.valid
  simp only [isHigh, isLow, Bool.and_eq_false_iff, decide_eq_false_iff_not]
  omega

/-- The codes of characters give these characters. -/
theorem charsOf_map_toNat (cs : List Char) : charsOf (cs.map Char.toNat) = cs := by
  induction cs with
  | nil => rfl
  | cons c cs ih =>
    obtain ⟨hhigh, hlow⟩ := isHigh_or_isLow_toNat c
    cases cs with
    | nil => simp [charsOf, hhigh, hlow]
    | cons d cs =>
      rw [List.map_cons] at ih
      simp only [List.map_cons, charsOf, hhigh, hlow, Bool.false_and, Bool.or_self,
        Bool.false_eq_true, if_false, Char.ofNat_toNat, ih]

/-! ## Parts of a text -/

/-- Whether a part of a text spells tokens, whatever comes behind it. -/
def Writes (tokens : List Token) (cs : List Char) : Prop :=
  ∀ (others : List Token) (rest : List Char), Lexes others rest →
    Lexes (tokens ++ others) (cs ++ rest)

variable {tokens others : List Token} {cs ds : List Char} {groups : List (List Token)}

theorem Writes.nil : Writes [] [] := fun _ _ hothers => hothers

theorem Writes.append (h : Writes tokens cs) (hothers : Writes others ds) :
    Writes (tokens ++ others) (cs ++ ds) := by
  intro later rest hlater
  rw [List.append_assoc, List.append_assoc]
  exact h _ _ (hothers _ _ hlater)

/-- Blanks spell nothing. -/
theorem Writes.blanks (h : ∀ c ∈ cs, isBlank c = true) : Writes [] cs := by
  intro others rest hothers
  induction cs with
  | nil => exact hothers
  | cons c cs ih =>
    rw [List.forall_mem_cons] at h
    exact .blank h.1 (ih h.2)

theorem Writes.punctuation {c : Char} {token : Token} (h : punctuation? c = some token) :
    Writes [token] [c] := fun _ _ hothers => .punctuation h hothers

/-- A text in quotes spells the string that it quotes. -/
theorem writes_quote (s : String) : Writes [.string s] (quote s).toList := by
  intro others rest hothers
  have hlexes := Lexes.string (body_flatMap_quoteChar s.toList) hothers
  rw [charsOf_map_toNat, String.ofList_toList] at hlexes
  simpa [quote] using hlexes

/-- The text that spells the tokens of a whole text. -/
theorem Writes.spells {v : Value} {text : String} (h : Writes v.tokens text.toList) :
    v.Spells text := by
  have hlexes := h [] [] .nil
  rwa [List.append_nil, List.append_nil] at hlexes

/-! ## One lexeme after the other -/

namespace Token

/-- A token as it is written where nothing asks for another form. -/
def lexeme : Token → String
  | .openArray => "["
  | .closeArray => "]"
  | .openObject => "\x7b"
  | .closeObject => "\x7d"
  | .comma => ","
  | .colon => ":"
  | .null => "null"
  | .bool b => if b then "true" else "false"
  | .number n => n.render
  | .string s => quote s

/-- Whether a token shows its own end: all but numbers and words do. -/
def ShowsEnd : Token → Prop
  | .null => False
  | .bool _ => False
  | .number _ => False
  | _ => True

theorem writes_lexeme {token : Token} (h : token.ShowsEnd) :
    Writes [token] token.lexeme.toList := by
  cases token with
  | openArray => exact .punctuation rfl
  | closeArray => exact .punctuation rfl
  | openObject => exact .punctuation rfl
  | closeObject => exact .punctuation rfl
  | comma => exact .punctuation rfl
  | colon => exact .punctuation rfl
  | null => cases h
  | bool b => cases h
  | number n => cases h
  | string s => exact writes_quote s

/-- Such tokens need nothing between them. -/
theorem writes_flatMap_lexeme (h : ∀ token ∈ tokens, token.ShowsEnd) :
    Writes tokens (tokens.flatMap (·.lexeme.toList)) := by
  induction tokens with
  | nil => exact .nil
  | cons token tokens ih =>
    rw [List.forall_mem_cons] at h
    exact (writes_lexeme h.1).append (ih h.2)

end Token

theorem showsEnd_separated (h : ∀ group ∈ groups, ∀ token ∈ group, token.ShowsEnd) :
    ∀ token ∈ separated groups, token.ShowsEnd := by
  induction groups with
  | nil => exact nofun
  | cons first groups ih =>
    rw [List.forall_mem_cons] at h
    cases groups with
    | nil => exact h.1
    | cons next groups =>
      rw [separated, List.forall_mem_append, List.forall_mem_cons]
      exact ⟨h.1, trivial, ih h.2⟩

namespace Value

/-- Whether a value is made of texts only. -/
inductive Textual : Value → Prop
  | string (s : String) : Textual (.string s)
  | array {items : List Value} (h : ∀ item ∈ items, Textual item) : Textual (.array items)
  | object {fields : List (String × Value)} (h : ∀ field ∈ fields, Textual field.2) :
      Textual (.object fields)

variable {v : Value}

theorem Textual.showsEnd (h : v.Textual) : ∀ token ∈ v.tokens, token.ShowsEnd := by
  induction h with
  | string s => exact List.forall_mem_singleton.mpr trivial
  | array _ ih =>
    rw [tokens, List.forall_mem_cons, List.forall_mem_append, itemTokens_eq_map]
    refine ⟨trivial, showsEnd_separated ?_, List.forall_mem_singleton.mpr trivial⟩
    rw [List.forall_mem_map]
    exact ih
  | object _ ih =>
    rw [tokens, List.forall_mem_cons, List.forall_mem_append, fieldTokens_eq_map]
    refine ⟨trivial, showsEnd_separated ?_, List.forall_mem_singleton.mpr trivial⟩
    rw [List.forall_mem_map]
    intro field hfield
    rw [ofField, List.forall_mem_cons, List.forall_mem_cons]
    exact ⟨trivial, trivial, ih field hfield⟩

/-- A value on one line, without blanks. -/
def compact (v : Value) : String := String.ofList (v.tokens.flatMap (·.lexeme.toList))

theorem Textual.spells_compact (h : v.Textual) : v.Spells v.compact := by
  refine Writes.spells ?_
  rw [compact, String.toList_ofList]
  exact Token.writes_flatMap_lexeme h.showsEnd

end Value

/-! ## Lines -/

theorem writes_lineStart (level : Nat) : Writes [] (lineStart level).toList := by
  refine .blanks ?_
  simp [lineStart, isBlank]

/-- Texts with a comma and blanks between each two spell what they spell with a comma between. -/
theorem writes_intercalate {separator : String} (hseparator : Writes [.comma] separator.toList)
    {texts : List String}
    (h : List.Forall₂ (fun group text => Writes group text.toList) groups texts) :
    Writes (separated groups) (separator.intercalate texts).toList := by
  induction h with
  | nil => exact .nil
  | @cons group text groups texts htext h ih =>
    cases h with
    | nil => simpa [separated] using htext
    | cons hnext h =>
      rw [separated, String.intercalate_cons_cons, String.toList_append, String.toList_append,
        List.append_assoc]
      exact htext.append (hseparator.append ih)

/-- Lines between brackets spell what their texts spell, in brackets and with commas between. -/
theorem writes_block {opening closing : String} {first last : Token} (level : Nat)
    {texts : List String} (hopening : Writes [first] opening.toList)
    (hclosing : Writes [last] closing.toList)
    (h : List.Forall₂ (fun group text => Writes group text.toList) groups texts) :
    Writes (first :: (separated groups ++ [last])) (block opening closing level texts).toList := by
  unfold block
  split
  · next hempty =>
    rw [List.isEmpty_iff.mp hempty, List.forall₂_nil_right_iff] at h
    rw [h, String.toList_append]
    exact hopening.append hclosing
  · have hcomma : Writes [.comma] ",".toList := .punctuation rfl
    have hseparator : Writes [.comma] ("," ++ lineStart (level + 1)).toList := by
      rw [String.toList_append]
      exact hcomma.append (writes_lineStart _)
    simp only [String.toList_append, List.append_assoc]
    exact hopening.append ((writes_lineStart _).append
      ((writes_intercalate hseparator h).append ((writes_lineStart _).append hclosing)))

open Value (fieldTokens itemTokens prettyFields prettyFrom prettyItems)

theorem forall₂_prettyItems {level : Nat} {items : List Value}
    (h : ∀ item ∈ items, Writes item.tokens (prettyFrom level item).toList) :
    List.Forall₂ (fun group text => Writes group text.toList) (itemTokens items)
      (prettyItems level items) := by
  induction items with
  | nil => exact .nil
  | cons item items ih =>
    rw [List.forall_mem_cons] at h
    exact .cons h.1 (ih h.2)

theorem forall₂_prettyFields {level : Nat} {fields : List (String × Value)}
    (h : ∀ field ∈ fields, Writes field.2.tokens (prettyFrom level field.2).toList) :
    List.Forall₂ (fun group text => Writes group text.toList) (fieldTokens fields)
      (prettyFields level fields) := by
  induction fields with
  | nil => exact .nil
  | cons field fields ih =>
    rw [List.forall_mem_cons] at h
    refine .cons ?_ (ih h.2)
    have hblank : Writes [] [' '] := .blanks (List.all_eq_true.mp rfl)
    have hcolon : Writes [.colon] ": ".toList := Writes.append (.punctuation rfl) hblank
    rw [String.toList_append, String.toList_append, List.append_assoc]
    exact (writes_quote field.1).append (hcolon.append h.1)

/-- A value of texts is spelled by its lines, at any level. -/
theorem writes_prettyFrom {v : Value} (h : v.Textual) (level : Nat) :
    Writes v.tokens (prettyFrom level v).toList := by
  induction h generalizing level with
  | string s => exact writes_quote s
  | array _ ih =>
    exact writes_block level (.punctuation rfl) (.punctuation rfl)
      (forall₂_prettyItems fun item hitem => ih item hitem (level + 1))
  | object _ ih =>
    exact writes_block level (.punctuation rfl) (.punctuation rfl)
      (forall₂_prettyFields fun field hfield => ih field hfield (level + 1))

theorem Value.Textual.spells_pretty {v : Value} (h : v.Textual) : v.Spells v.pretty :=
  (writes_prettyFrom h 0).spells

end PathSieve.Json
