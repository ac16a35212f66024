import PathSieve.Json.Token
import PathSieve.Proofs.Numerals

/-!
# Lexemes

A JSON text is a sequence of tokens with blanks between them. What the text of a token may be is
said here without the reader (`Lexes`): a string is written character by character, as it is or by
an escape, a number is a numeral, and a number or a word ends where no character comes that could
continue it. The reader, which takes one character at a time, finds exactly these sequences
(`Token.ofText_eq_ok_iff`).
-/

namespace PathSieve.Json

open Token (Mode charsOf escape? finish hexValue? inNumber isBlank ofNumber ofWord punctuation? run
  start startAfter step)

/-! ## The grammar -/

/-- What gives one code of a string: a character as it is, unless it needs an escape, an escape of
one letter, or a code in hexadecimal digits. -/
inductive Glyph : Nat → List Char → Prop
  | plain {c : Char} (hquote : c ≠ '"') (hescape : c ≠ '\\') (hcontrol : 0x20 ≤ c.toNat) :
      Glyph c.toNat [c]
  | short {c d : Char} (hletter : escape? c = some d) : Glyph d.toNat ['\\', c]
  | unit {c₁ c₂ c₃ c₄ : Char} {d₁ d₂ d₃ d₄ : Nat} (h₁ : hexValue? c₁ = some d₁)
      (h₂ : hexValue? c₂ = some d₂) (h₃ : hexValue? c₃ = some d₃) (h₄ : hexValue? c₄ = some d₄) :
      Glyph (((d₁ * 16 + d₂) * 16 + d₃) * 16 + d₄) ['\\', 'u', c₁, c₂, c₃, c₄]

/-- What stands between the quotes of a string, and the codes that it gives. -/
inductive Body : List Nat → List Char → Prop
  | nil : Body [] []
  | cons {code : Nat} {glyph : List Char} {codes : List Nat} {cs : List Char}
      (hglyph : Glyph code glyph) (h : Body codes cs) : Body (code :: codes) (glyph ++ cs)

/-- The words, and the tokens they are. -/
inductive Word : Token → List Char → Prop
  | null : Word .null ['n', 'u', 'l', 'l']
  | true : Word (.bool true) ['t', 'r', 'u', 'e']
  | false : Word (.bool false) ['f', 'a', 'l', 's', 'e']

/-- Whether a character may be in a word. -/
def isLetter (c : Char) : Bool := 'a' ≤ c ∧ c ≤ 'z'

/-- Whether a lexeme of such characters has its end before a text. -/
def Ends (continues : Char → Bool) (cs : List Char) : Prop := ∀ c ∈ cs.head?, continues c = false

/-- A text is a sequence of tokens with blanks between them. -/
inductive Lexes : List Token → List Char → Prop
  | nil : Lexes [] []
  | blank {c : Char} {tokens : List Token} {cs : List Char} (hc : isBlank c = true)
      (h : Lexes tokens cs) : Lexes tokens (c :: cs)
  | punctuation {c : Char} {token : Token} {tokens : List Token} {cs : List Char}
      (hc : punctuation? c = some token) (h : Lexes tokens cs) : Lexes (token :: tokens) (c :: cs)
  | string {codes : List Nat} {body : List Char} {tokens : List Token} {cs : List Char}
      (hbody : Body codes body) (h : Lexes tokens cs) :
      Lexes (.string (String.ofList (charsOf codes)) :: tokens) ('"' :: (body ++ '"' :: cs))
  | number {n : Number} {lexeme : List Char} {tokens : List Token} {cs : List Char}
      (hlexeme : Numeral n lexeme) (hend : Ends inNumber cs) (h : Lexes tokens cs) :
      Lexes (.number n :: tokens) (lexeme ++ cs)
  | word {token : Token} {lexeme : List Char} {tokens : List Token} {cs : List Char}
      (hlexeme : Word token lexeme) (hend : Ends isLetter cs) (h : Lexes tokens cs) :
      Lexes (token :: tokens) (lexeme ++ cs)

variable {c d : Char} {cs seen lexeme : List Char} {codes : List Nat} {mode next : Mode}
variable {token : Token} {tokens others : List Token} {fault : SyntaxFault}

/-! ## One character -/

/-- Reading goes on from where a character leads. -/
theorem run_cons (h : step mode c = .ok (tokens, next)) :
    run mode (c :: cs) = (run next cs).map (tokens ++ ·) := by
  rw [run, h]
  show (run next cs >>= fun others => Except.ok (tokens ++ others)) = _
  cases run next cs <;> rfl

/-- A character that ends no token. -/
theorem run_silent (h : step mode c = .ok ([], next)) : run mode (c :: cs) = run next cs := by
  rw [run_cons h]
  cases run next cs <;> rfl

/-- A character that cannot come here. -/
theorem run_fault (h : step mode c = .error fault) : run mode (c :: cs) = .error fault := by
  rw [run, h]
  rfl

theorem map_eq_ok_iff {ε α β : Type} {x : Except ε α} {f : α → β} {b : β} :
    x.map f = .ok b ↔ ∃ a, x = .ok a ∧ f a = b := by
  cases x <;> simp [Except.map]

/-! ## Strings -/

theorem run_quote :
    run (.inString codes) ('"' :: cs) =
      (run .between cs).map (.string (String.ofList (charsOf codes.reverse)) :: ·) := by
  have hstep : step (.inString codes) '"' =
      .ok ([.string (String.ofList (charsOf codes.reverse))], .between) := rfl
  exact run_cons hstep

/-- The digits of a code are read one after the other. -/
theorem run_hex {value digit : Nat} (h : hexValue? c = some digit) (left : Nat) :
    run (.inHex codes (left + 1) value) (c :: cs) =
      run (.inHex codes left (value * 16 + digit)) cs := by
  refine run_silent ?_
  simp only [step, h]

/-- The last digit of a code completes it. -/
theorem run_hex_last {value digit : Nat} (h : hexValue? c = some digit) :
    run (.inHex codes 0 value) (c :: cs) = run (.inString ((value * 16 + digit) :: codes)) cs := by
  refine run_silent ?_
  simp only [step, h]

theorem run_unicode : run (.inString codes) ('\\' :: 'u' :: cs) = run (.inHex codes 3 0) cs :=
  (run_silent rfl).trans (run_silent rfl)

/-- What gives a code is read as that code. -/
theorem run_glyph {code : Nat} {glyph : List Char} (h : Glyph code glyph) :
    run (.inString codes) (glyph ++ cs) = run (.inString (code :: codes)) cs := by
  cases h with
  | plain hquote hescape hcontrol =>
    refine run_silent ?_
    rw [step, if_neg hquote, if_neg hescape, if_neg (Nat.not_lt.mpr hcontrol)]
  | @short c d hletter =>
    have hu : c ≠ 'u' := by
      rintro rfl
      cases hletter
    have hstep : step (.inEscape codes) c = .ok ([], .inString (d.toNat :: codes)) := by
      rw [step, if_neg hu, hletter]
    exact (run_silent rfl).trans (run_silent hstep)
  | unit h₁ h₂ h₃ h₄ =>
    simp only [List.cons_append, List.nil_append]
    rw [run_unicode, run_hex h₁, run_hex h₂, run_hex h₃, run_hex_last h₄, Nat.zero_mul,
      Nat.zero_add]

/-- The body of a string is read up to its end, with its codes behind those that were there. -/
theorem run_body {body : List Char} {later : List Nat} (h : Body later body) :
    run (.inString codes) (body ++ '"' :: cs) =
      (run .between cs).map (.string (String.ofList (charsOf (codes.reverse ++ later))) :: ·) := by
  induction h generalizing codes with
  | nil =>
    rw [List.append_nil]
    exact run_quote
  | cons hglyph _ ih =>
    rw [List.append_assoc, run_glyph hglyph, ih, List.reverse_cons, List.append_assoc]
    rfl

/-- A code goes on with a digit. -/
theorem exists_hex {left value : Nat} (h : run (.inHex codes left value) cs = .ok tokens) :
    ∃ c digit rest, cs = c :: rest ∧ hexValue? c = some digit := by
  cases cs with
  | nil => cases h
  | cons c rest =>
    cases hdigit : hexValue? c with
    | some digit => exact ⟨c, digit, rest, rfl, hdigit⟩
    | none =>
      have hstep : step (.inHex codes left value) c = .error (.badEscape c) := by
        simp only [step, hdigit]
      rw [run_fault hstep] at h
      cases h

/-- A string goes on with its end or with what gives a code. -/
theorem exists_glyph (h : run (.inString codes) cs = .ok tokens) :
    (∃ rest, cs = '"' :: rest) ∨
      ∃ code glyph rest, cs = glyph ++ rest ∧ glyph ≠ [] ∧ Glyph code glyph := by
  cases cs with
  | nil => cases h
  | cons c cs =>
    by_cases hquote : c = '"'
    · exact .inl ⟨cs, by rw [hquote]⟩
    refine .inr ?_
    by_cases hescape : c = '\\'
    · subst hescape
      cases cs with
      | nil => cases h
      | cons c cs =>
        by_cases hu : c = 'u'
        · subst hu
          rw [run_unicode] at h
          obtain ⟨c₁, d₁, cs, rfl, h₁⟩ := exists_hex h
          rw [run_hex h₁] at h
          obtain ⟨c₂, d₂, cs, rfl, h₂⟩ := exists_hex h
          rw [run_hex h₂] at h
          obtain ⟨c₃, d₃, cs, rfl, h₃⟩ := exists_hex h
          rw [run_hex h₃] at h
          obtain ⟨c₄, d₄, cs, rfl, h₄⟩ := exists_hex h
          exact ⟨_, _, cs, rfl, List.cons_ne_nil _ _, .unit h₁ h₂ h₃ h₄⟩
        · cases hletter : escape? c with
          | some d => exact ⟨_, _, cs, rfl, List.cons_ne_nil _ _, .short hletter⟩
          | none =>
            have hstep : step (.inEscape codes) c = .error (.badEscape c) := by
              rw [step, if_neg hu, hletter]
            have hrun : run (.inString codes) ('\\' :: c :: cs) = .error (.badEscape c) :=
              (run_silent rfl).trans (run_fault hstep)
            rw [hrun] at h
            cases h
    · by_cases hcontrol : 0x20 ≤ c.toNat
      · exact ⟨_, [c], cs, rfl, List.cons_ne_nil _ _, .plain hquote hescape hcontrol⟩
      · have hstep : step (.inString codes) c = .error (.unexpectedCharacter c) := by
          rw [step, if_neg hquote, if_neg hescape, if_pos (Nat.lt_of_not_le hcontrol)]
        rw [run_fault hstep] at h
        cases h

/-- Where a string is read, a body was read up to its end. -/
theorem exists_body (h : run (.inString codes) cs = .ok tokens) :
    ∃ later body rest others, cs = body ++ '"' :: rest ∧ Body later body ∧
      run .between rest = .ok others ∧
      tokens = .string (String.ofList (charsOf (codes.reverse ++ later))) :: others := by
  induction hlength : cs.length using Nat.strongRecOn generalizing codes cs with
  | ind length ih =>
    rcases exists_glyph h with ⟨rest, rfl⟩ | ⟨code, glyph, rest, rfl, hne, hglyph⟩
    · rw [run_quote] at h
      obtain ⟨others, hothers, rfl⟩ := map_eq_ok_iff.mp h
      exact ⟨[], [], rest, others, rfl, .nil, hothers, by rw [List.append_nil]⟩
    · have hshorter : rest.length < length := by
        have hglyph := List.length_pos_iff.mpr hne
        rw [← hlength, List.length_append]
        omega
      rw [run_glyph hglyph] at h
      obtain ⟨later, body, behind, others, rfl, hlater, hothers, rfl⟩ := ih _ hshorter h rfl
      refine ⟨code :: later, glyph ++ body, behind, others, ?_, .cons hglyph hlater, hothers, ?_⟩
      · rw [List.append_assoc]
      · rw [List.reverse_cons, List.append_assoc]
        rfl

/-! ## Numbers and words -/

/-- How a lexeme is read whose end shows only behind it: it grows by the characters that continue it
and is judged as a whole where another one comes. -/
structure Scans (mode : List Char → Mode) (continues : Char → Bool)
    (ended : List Char → Except SyntaxFault Token) : Prop where
  grow : ∀ {seen : List Char} {c : Char}, continues c = true →
    step (mode seen) c = .ok ([], mode (c :: seen))
  stop : ∀ {seen : List Char} {c : Char}, continues c = false →
    step (mode seen) c = startAfter (ended seen) c
  finish : ∀ {seen : List Char}, finish (mode seen) = (ended seen).map ([·])

theorem scans_number : Scans .inNumber inNumber ofNumber where
  grow hc := by rw [step, if_pos hc]
  stop hc := by rw [step, if_neg (by rw [hc]; exact Bool.false_ne_true)]
  finish := rfl

theorem scans_word : Scans .inWord isLetter ofWord where
  grow hc := by rw [step, if_pos (of_decide_eq_true hc)]
  stop hc := by rw [step, if_neg (of_decide_eq_false hc)]
  finish := rfl

variable {kind : List Char → Mode} {continues : Char → Bool}
variable {ended : List Char → Except SyntaxFault Token}

theorem Scans.run_append (hscans : Scans kind continues ended) {more : List Char}
    (h : ∀ c ∈ more, continues c = true) :
    run (kind seen) (more ++ cs) = run (kind (more.reverse ++ seen)) cs := by
  induction more generalizing seen with
  | nil => rfl
  | cons c more ih =>
    rw [List.cons_append, run_silent (hscans.grow (h c List.mem_cons_self)),
      ih fun d hd => h d (List.mem_cons_of_mem c hd), List.reverse_cons, List.append_assoc]
    rfl

/-- Where a lexeme ends, reading goes on behind it as between tokens. -/
theorem Scans.run_end (hscans : Scans kind continues ended) (hend : Ends continues cs) :
    run (kind seen) cs = (ended seen).bind fun token => (run .between cs).map (token :: ·) := by
  cases cs with
  | nil =>
    rw [run, hscans.finish]
    cases ended seen <;> rfl
  | cons c cs =>
    have hstep : step (kind seen) c = startAfter (ended seen) c := hscans.stop (hend c rfl)
    cases hended : ended seen with
    | error fault =>
      rw [hended] at hstep
      exact run_fault hstep
    | ok token =>
      rw [hended] at hstep
      cases hstart : start c with
      | error fault =>
        have hfault : step (kind seen) c = .error fault := by
          rw [hstep, startAfter, hstart]
          rfl
        have hbetween : step .between c = .error fault := hstart
        rw [run_fault hfault, run_fault hbetween]
        rfl
      | ok result =>
        obtain ⟨front, next⟩ := result
        have hnext : step (kind seen) c = .ok (token :: front, next) := by
          rw [hstep, startAfter, hstart]
          rfl
        have hbetween : step .between c = .ok (front, next) := hstart
        rw [run_cons hnext, run_cons hbetween]
        cases run next cs <;> rfl

/-- Where a lexeme is read, it was read up to its end. -/
theorem Scans.exists_lexeme (hscans : Scans kind continues ended)
    (h : run (kind seen) cs = .ok tokens) :
    ∃ more rest token others, cs = more ++ rest ∧ Ends continues rest ∧
      ended (more.reverse ++ seen) = .ok token ∧ run .between rest = .ok others ∧
      tokens = token :: others := by
  have hend {seen rest : List Char} (hrest : Ends continues rest)
      (h : run (kind seen) rest = .ok tokens) :
      ∃ more behind token others, rest = more ++ behind ∧ Ends continues behind ∧
        ended (more.reverse ++ seen) = .ok token ∧ run .between behind = .ok others ∧
        tokens = token :: others := by
    rw [hscans.run_end hrest] at h
    cases hended : ended seen with
    | error fault =>
      rw [hended] at h
      cases h
    | ok token =>
      rw [hended] at h
      obtain ⟨others, hothers, rfl⟩ := map_eq_ok_iff.mp h
      exact ⟨[], rest, token, others, rfl, hrest, hended, hothers, rfl⟩
  induction cs generalizing seen with
  | nil => exact hend nofun h
  | cons c cs ih =>
    cases hc : continues c with
    | false =>
      refine hend ?_ h
      intro d hd
      rw [← Option.some.inj hd]
      exact hc
    | true =>
      rw [run_silent (hscans.grow hc)] at h
      obtain ⟨more, rest, token, others, rfl, hrest, htoken, hothers, rfl⟩ := ih h
      refine ⟨c :: more, rest, token, others, rfl, hrest, ?_, hothers, rfl⟩
      rw [List.reverse_cons, List.append_assoc]
      exact htoken

theorem ofNumber_eq_ok_iff :
    ofNumber seen = .ok token ↔ ∃ n, Numeral n seen.reverse ∧ token = .number n := by
  unfold ofNumber
  simp only [← Number.ofText?_eq_some_iff]
  cases Number.ofText? seen.reverse with
  | none => simp
  | some n => simp [eq_comm]

theorem ofWord_eq_ok_iff : ofWord seen = .ok token ↔ Word token seen.reverse := by
  constructor
  · intro h
    have hchars {text : String} (hword : String.ofList seen.reverse = text) :
        seen.reverse = text.toList := by
      rw [← hword, String.toList_ofList]
    unfold ofWord at h
    split at h
    · next hword =>
      obtain rfl := Except.ok.inj h
      rw [hchars hword]
      exact .null
    · next hword =>
      obtain rfl := Except.ok.inj h
      rw [hchars hword]
      exact .true
    · next hword =>
      obtain rfl := Except.ok.inj h
      rw [hchars hword]
      exact .false
    · cases h
  · intro h
    unfold ofWord
    generalize seen.reverse = cs at h
    cases h <;> rfl

/-! ## The first character of a number -/

theorem exists_of_isDigit (h : c.isDigit = true) : ∃ n < 10, c = Char.ofNat (n + 48) := by
  rw [Char.isDigit, Bool.and_eq_true, decide_eq_true_iff, decide_eq_true_iff, ge_iff_le,
    UInt32.le_iff_toNat_le, UInt32.le_iff_toNat_le] at h
  obtain ⟨hlow, hhigh⟩ : 48 ≤ c.toNat ∧ c.toNat ≤ 57 := h
  refine ⟨c.toNat - 48, by omega, ?_⟩
  rw [Nat.sub_add_cancel hlow, Char.ofNat_toNat]

/-- A digit begins a number. -/
theorem start_digit (h : c.isDigit = true) : start c = .ok ([], .inNumber [c]) := by
  obtain ⟨n, hn, rfl⟩ := exists_of_isDigit h
  have hall : ∀ n < 10,
      start (Char.ofNat (n + 48)) = .ok ([], .inNumber [Char.ofNat (n + 48)]) := by
    decide
  exact hall n hn

theorem inNumber_of_isDigit (h : c.isDigit = true) : inNumber c = true := by
  rw [inNumber, h]
  rfl

theorem inNumber_of_mem_digits {digits : List Char} (h : digits.all Char.isDigit = true) :
    ∀ c ∈ digits, inNumber c = true :=
  fun c hc => inNumber_of_isDigit (List.all_eq_true.mp h c hc)

theorem FractionOf.inNumber_of_mem {digits fraction : List Char} (h : FractionOf digits fraction) :
    ∀ c ∈ fraction, inNumber c = true := by
  cases h with
  | none => exact nofun
  | some hdigits => exact List.forall_mem_cons.mpr ⟨rfl, inNumber_of_mem_digits hdigits.2⟩

theorem ExponentOf.inNumber_of_mem {exponent : Int} {tail : List Char}
    (h : ExponentOf exponent tail) : ∀ c ∈ tail, inNumber c = true := by
  have hletter {e : Char} (he : e = 'e' ∨ e = 'E') : inNumber e = true := by
    rcases he with rfl | rfl <;> rfl
  cases h with
  | none => exact nofun
  | plain he hdigits =>
    exact List.forall_mem_cons.mpr ⟨hletter he, inNumber_of_mem_digits hdigits.2⟩
  | plus he hdigits =>
    exact List.forall_mem_cons.mpr ⟨hletter he,
      List.forall_mem_cons.mpr ⟨rfl, inNumber_of_mem_digits hdigits.2⟩⟩
  | minus he hdigits =>
    exact List.forall_mem_cons.mpr ⟨hletter he,
      List.forall_mem_cons.mpr ⟨rfl, inNumber_of_mem_digits hdigits.2⟩⟩

theorem Unsigned.inNumber_of_mem {negative : Bool} {n : Number} (h : Unsigned negative n lexeme) :
    ∀ c ∈ lexeme, inNumber c = true := by
  obtain ⟨hwhole, hfraction, htail⟩ := h
  intro c hc
  rw [List.mem_append, List.mem_append] at hc
  rcases hc with hc | hc | hc
  · exact inNumber_of_mem_digits hwhole.all_isDigit c hc
  · exact hfraction.inNumber_of_mem c hc
  · exact htail.inNumber_of_mem c hc

/-- A number begins with a digit or its sign, and has only characters of a number behind that. -/
theorem Numeral.exists_start {n : Number} (h : Numeral n lexeme) :
    ∃ c more, lexeme = c :: more ∧ start c = .ok ([], .inNumber [c]) ∧
      ∀ d ∈ more, inNumber d = true := by
  cases h with
  | plain h =>
    obtain ⟨c, more, rfl, hdigit⟩ := h.exists_digit
    exact ⟨c, more, rfl, start_digit hdigit, (List.forall_mem_cons.mp h.inNumber_of_mem).2⟩
  | minus h => exact ⟨_, _, rfl, rfl, h.inNumber_of_mem⟩

/-! ## Whole texts -/

/-- A lexeme that was begun is read up to its end. -/
theorem Scans.run_lexeme (hscans : Scans kind continues ended) {more : List Char}
    (hstart : start c = .ok ([], kind [c])) (hmore : ∀ d ∈ more, continues d = true)
    (hend : Ends continues cs) (htoken : ended (c :: more).reverse = .ok token) :
    run .between (c :: more ++ cs) = (run .between cs).map (token :: ·) := by
  have hbetween : step .between c = .ok ([], kind [c]) := hstart
  rw [List.reverse_cons] at htoken
  rw [List.cons_append, run_silent hbetween, hscans.run_append hmore, hscans.run_end hend, htoken]
  rfl

theorem run_number {n : Number} (hlexeme : Numeral n lexeme) (hend : Ends inNumber cs) :
    run .between (lexeme ++ cs) = (run .between cs).map (.number n :: ·) := by
  obtain ⟨c, more, rfl, hstart, hmore⟩ := hlexeme.exists_start
  refine scans_number.run_lexeme hstart hmore hend (ofNumber_eq_ok_iff.mpr ⟨n, ?_, rfl⟩)
  rwa [List.reverse_reverse]

theorem run_word (hlexeme : Word token lexeme) (hend : Ends isLetter cs) :
    run .between (lexeme ++ cs) = (run .between cs).map (token :: ·) := by
  have htoken : ofWord lexeme.reverse = .ok token := by
    rwa [ofWord_eq_ok_iff, List.reverse_reverse]
  cases hlexeme with
  | null => exact scans_word.run_lexeme rfl (List.all_eq_true.mp rfl) hend htoken
  | true => exact scans_word.run_lexeme rfl (List.all_eq_true.mp rfl) hend htoken
  | false => exact scans_word.run_lexeme rfl (List.all_eq_true.mp rfl) hend htoken

theorem run_string {body : List Char} (h : Body codes body) :
    run .between ('"' :: (body ++ '"' :: cs)) =
      (run .between cs).map (.string (String.ofList (charsOf codes)) :: ·) :=
  (run_silent rfl).trans (run_body h)

theorem run_blank (h : isBlank c = true) : run .between (c :: cs) = run .between cs := by
  refine run_silent ?_
  rw [step, start, if_pos h]

theorem isBlank_of_punctuation (h : punctuation? c = some token) : isBlank c = false := by
  by_contra hblank
  simp only [isBlank, Bool.not_eq_false, Bool.or_eq_true, beq_iff_eq] at hblank
  rcases hblank with ((rfl | rfl) | rfl) | rfl <;> cases h

theorem run_punctuation (hblank : isBlank c = false) (h : punctuation? c = some token) :
    run .between (c :: cs) = (run .between cs).map (token :: ·) := by
  have hstep : step .between c = .ok ([token], .between) := by
    rw [step, start, if_neg (by rw [hblank]; exact Bool.false_ne_true), h]
  exact run_cons hstep

/-- Every sequence of tokens is read as these tokens. -/
theorem run_of_lexes (h : Lexes tokens cs) : run .between cs = .ok tokens := by
  induction h with
  | nil => rfl
  | blank hc _ ih => rw [run_blank hc, ih]
  | @punctuation c _ _ _ hc _ ih =>
    rw [run_punctuation (isBlank_of_punctuation hc) hc, ih]
    rfl
  | string hbody _ ih =>
    rw [run_string hbody, ih]
    rfl
  | number hlexeme hend _ ih =>
    rw [run_number hlexeme hend, ih]
    rfl
  | word hlexeme hend _ ih =>
    rw [run_word hlexeme hend, ih]
    rfl

/-- What a character between tokens does: it is passed over, is a token, or begins one. -/
inductive Starts (c : Char) : List Token → Mode → Prop
  | blank (hc : isBlank c = true) : Starts c [] .between
  | punctuation {token : Token} (hc : punctuation? c = some token) : Starts c [token] .between
  | string (hc : c = '"') : Starts c [] (.inString [])
  | number : Starts c [] (.inNumber [c])
  | word : Starts c [] (.inWord [c])

theorem starts_of_start (h : start c = .ok (tokens, next)) : Starts c tokens next := by
  unfold start at h
  split at h
  · next hblank =>
    obtain ⟨rfl, rfl⟩ := Prod.mk.inj (Except.ok.inj h)
    exact .blank hblank
  split at h
  · next hpunctuation =>
    obtain ⟨rfl, rfl⟩ := Prod.mk.inj (Except.ok.inj h)
    exact .punctuation hpunctuation
  split at h
  · next hquote =>
    obtain ⟨rfl, rfl⟩ := Prod.mk.inj (Except.ok.inj h)
    exact .string hquote
  split at h
  · obtain ⟨rfl, rfl⟩ := Prod.mk.inj (Except.ok.inj h)
    exact .number
  split at h
  · obtain ⟨rfl, rfl⟩ := Prod.mk.inj (Except.ok.inj h)
    exact .word
  · cases h

/-- What is read is a sequence of tokens. -/
theorem lexes_of_run (h : run .between cs = .ok tokens) : Lexes tokens cs := by
  induction hlength : cs.length using Nat.strongRecOn generalizing cs tokens with
  | ind length ih =>
    cases cs with
    | nil =>
      obtain rfl := Except.ok.inj h
      exact .nil
    | cons c cs =>
      have hrest {rest : List Char} {others : List Token} (hle : rest.length ≤ cs.length)
          (h : run .between rest = .ok others) : Lexes others rest :=
        ih rest.length (by rw [← hlength, List.length_cons]; omega) h rfl
      cases hstart : start c with
      | error fault =>
        have hstep : step .between c = .error fault := hstart
        rw [run_fault hstep] at h
        cases h
      | ok result =>
        obtain ⟨front, next⟩ := result
        have hstep : step .between c = .ok (front, next) := hstart
        rw [run_cons hstep] at h
        obtain ⟨behind, hbehind, rfl⟩ := map_eq_ok_iff.mp h
        cases starts_of_start hstart with
        | blank hc => exact .blank hc (hrest (Nat.le_refl _) hbehind)
        | punctuation hc => exact .punctuation hc (hrest (Nat.le_refl _) hbehind)
        | string hc =>
          subst hc
          obtain ⟨codes, body, rest, others, rfl, hbody, hothers, rfl⟩ := exists_body hbehind
          refine .string hbody (hrest ?_ hothers)
          rw [List.length_append, List.length_cons]
          omega
        | number =>
          obtain ⟨more, rest, token, others, rfl, hend, htoken, hothers, rfl⟩ :=
            scans_number.exists_lexeme hbehind
          obtain ⟨n, hlexeme, rfl⟩ := ofNumber_eq_ok_iff.mp htoken
          rw [List.reverse_append, List.reverse_reverse] at hlexeme
          refine .number hlexeme hend (hrest ?_ hothers)
          rw [List.length_append]
          omega
        | word =>
          obtain ⟨more, rest, token, others, rfl, hend, htoken, hothers, rfl⟩ :=
            scans_word.exists_lexeme hbehind
          have hlexeme := ofWord_eq_ok_iff.mp htoken
          rw [List.reverse_append, List.reverse_reverse] at hlexeme
          refine .word hlexeme hend (hrest ?_ hothers)
          rw [List.length_append]
          omega

/-- The reader finds exactly the sequences of tokens that texts are. -/
theorem Token.ofText_eq_ok_iff {text : String} :
    Token.ofText text = .ok tokens ↔ Lexes tokens text.toList :=
  ⟨lexes_of_run, run_of_lexes⟩

end PathSieve.Json
