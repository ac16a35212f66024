import PathSieve.Json.Parser
import PathSieve.Proofs.Lexemes

/-!
# Tokens of a value

Every value has one sequence of tokens (`Value.tokens`): its own, with those of its items or fields
between brackets and separated by commas. The reader takes tokens one at a time and holds what is
open in a list, so what it has taken so far can be read off its state (`State.seen`). A step adds
the token it takes to that, hence a value that is read has exactly the tokens that were there; and
from the tokens of a value it comes to that value, whatever stands around them.

With the lexemes of a text, this says which texts are read as which value: those that spell it
(`Value.ofText_eq_ok_iff`).
-/

namespace PathSieve.Json

/-! ## Tokens of a value -/

/-- Sequences of tokens with a comma between each two. -/
def separated : List (List Token) → List Token
  | [] => []
  | [tokens] => tokens
  | tokens :: next :: groups => tokens ++ .comma :: separated (next :: groups)

namespace Value

mutual

/-- The tokens of a value. -/
def tokens : Value → List Token
  | .null => [.null]
  | .bool b => [.bool b]
  | .number n => [.number n]
  | .string s => [.string s]
  | .array items => .openArray :: (separated (itemTokens items) ++ [.closeArray])
  | .object fields => .openObject :: (separated (fieldTokens fields) ++ [.closeObject])

/-- The tokens of each item. -/
def itemTokens : List Value → List (List Token)
  | [] => []
  | v :: vs => tokens v :: itemTokens vs

/-- The tokens of each field, its name included. -/
def fieldTokens : List (String × Value) → List (List Token)
  | [] => []
  | (name, v) :: fields => (.string name :: .colon :: tokens v) :: fieldTokens fields

end

/-- Whether a text spells a value. -/
def Spells (v : Value) (text : String) : Prop := Lexes v.tokens text.toList

theorem itemTokens_eq_map (items : List Value) : itemTokens items = items.map tokens := by
  induction items with
  | nil => rfl
  | cons v vs ih => rw [itemTokens, ih, List.map_cons]

/-- The tokens of a field. -/
def ofField (field : String × Value) : List Token := .string field.1 :: .colon :: field.2.tokens

theorem fieldTokens_eq_map (fields : List (String × Value)) :
    fieldTokens fields = fields.map ofField := by
  induction fields with
  | nil => rfl
  | cons field fields ih => rw [fieldTokens, ih, List.map_cons, ofField]

/-- An item is smaller than its array. -/
theorem sizeOf_item {v : Value} {items : List Value} (h : v ∈ items) :
    sizeOf v < sizeOf (Value.array items) := by
  have hitem := List.sizeOf_lt_of_mem h
  rw [array.sizeOf_spec]
  omega

/-- The value of a field is smaller than its object. -/
theorem sizeOf_field {field : String × Value} {fields : List (String × Value)}
    (h : field ∈ fields) : sizeOf field.2 < sizeOf (Value.object fields) := by
  have hfield := List.sizeOf_lt_of_mem h
  rw [object.sizeOf_spec]
  rw [show sizeOf field = 1 + sizeOf field.1 + sizeOf field.2 from rfl] at hfield
  omega

end Value

open Value (fieldTokens fieldTokens_eq_map itemTokens itemTokens_eq_map ofField)

/-- Behind sequences that are closed by commas, one more needs no comma. -/
theorem separated_concat (groups : List (List Token)) (last : List Token) :
    separated (groups ++ [last]) = groups.flatMap (· ++ [.comma]) ++ last := by
  induction groups with
  | nil => rfl
  | cons tokens groups ih =>
    obtain ⟨next, more, hmore⟩ : ∃ next more, groups ++ [last] = next :: more :=
      List.exists_cons_of_ne_nil (List.append_ne_nil_of_right_ne_nil groups (List.cons_ne_nil _ _))
    rw [List.cons_append, hmore, separated, ← hmore, ih, List.flatMap_cons, List.append_assoc,
      List.append_assoc]
    rfl

/-- What was put in front of others last comes behind all of them, and needs no comma. -/
theorem separated_map_reverse {α : Type} (f : α → List Token) (last : α) (earlier : List α) :
    separated ((last :: earlier).reverse.map f) =
      (earlier.reverse.map f).flatMap (· ++ [.comma]) ++ f last := by
  rw [List.reverse_cons, List.map_append]
  exact separated_concat _ _

/-- Sequences begin with the first of them. -/
theorem separated_cons (tokens : List Token) (groups : List (List Token)) :
    ∃ more, separated (tokens :: groups) = tokens ++ more := by
  cases groups with
  | nil => exact ⟨[], (List.append_nil tokens).symm⟩
  | cons next groups => exact ⟨_, rfl⟩

/-! ## What was read is the value -/

/-- The tokens of what is open, up to where its next part comes. -/
def Frame.seen : Frame → List Token
  | .array items => .openArray :: (items.reverse.map Value.tokens).flatMap (· ++ [.comma])
  | .object fields name =>
    .openObject :: ((fields.reverse.map ofField).flatMap (· ++ [.comma]) ++ [.string name, .colon])

theorem flatMap_seen_cons (frame : Frame) (outer : List Frame) :
    (frame :: outer).reverse.flatMap Frame.seen =
      outer.reverse.flatMap Frame.seen ++ frame.seen := by
  simp

namespace State

/-- The tokens that led to where the reader is. -/
def seen : State → List Token
  | .value outer => outer.reverse.flatMap Frame.seen
  | .firstItem outer => outer.reverse.flatMap Frame.seen ++ [.openArray]
  | .firstName outer => outer.reverse.flatMap Frame.seen ++ [.openObject]
  | .nextName fields outer =>
    outer.reverse.flatMap Frame.seen ++
      .openObject :: (fields.reverse.map ofField).flatMap (· ++ [.comma])
  | .colon fields name outer =>
    outer.reverse.flatMap Frame.seen ++
      .openObject :: ((fields.reverse.map ofField).flatMap (· ++ [.comma]) ++ [.string name])
  | .after v outer => outer.reverse.flatMap Frame.seen ++ v.tokens

variable {s next : State} {token : Token} {tokens rest : List Token}
variable {outer : List Frame} {v : Value}

theorem seen_startValue (h : startValue outer token = .ok next) :
    next.seen = (State.value outer).seen ++ [token] := by
  cases token <;> cases h <;> rfl

/-- Behind a value, its own tokens are there and not only where it began. -/
theorem seen_next (h : State.next v outer token = .ok next) :
    next.seen = (State.after v outer).seen ++ [token] := by
  unfold State.next at h
  split at h <;> cases h
  · simp [seen, Frame.seen]
  · simp only [seen, Frame.seen, Value.tokens, itemTokens_eq_map, separated_map_reverse,
      flatMap_seen_cons, List.append_assoc, List.cons_append]
  · simp [seen, Frame.seen, ofField]
  · simp only [seen, Frame.seen, Value.tokens, fieldTokens_eq_map, separated_map_reverse, ofField,
      flatMap_seen_cons, List.append_assoc, List.cons_append, List.nil_append]

/-- A step adds the token that it takes. -/
theorem seen_step (h : s.step token = .ok next) : next.seen = s.seen ++ [token] := by
  unfold step at h
  split at h
  · exact seen_startValue h
  · cases h
    simp [seen, Value.tokens, itemTokens, separated]
  · have hopen := seen_startValue h
    simpa [seen, Frame.seen] using hopen
  · cases h
    simp [seen, Value.tokens, fieldTokens, separated]
  · cases h
    simp [seen]
  · cases h
    simp [seen]
  · cases h
    simp [seen, Frame.seen]
  · exact seen_next h
  · cases h

/-- Reading goes on from where a token leads. -/
theorem run_cons (h : s.step token = .ok next) : s.run (token :: tokens) = next.run tokens := by
  rw [run, h]
  rfl

/-- What is read is a value with the tokens that were there. -/
theorem tokens_of_run (h : s.run tokens = .ok v) : v.tokens = s.seen ++ tokens := by
  induction tokens generalizing s with
  | nil =>
    unfold run at h
    split at h
    · cases h
      simp [seen]
    · cases h
    · contradiction
  | cons token tokens ih =>
    cases hstep : s.step token with
    | error fault =>
      rw [run, hstep] at h
      cases h
    | ok next =>
      rw [run_cons hstep] at h
      rw [ih h, seen_step hstep, List.append_assoc]
      rfl

/-! ## The value is read -/

/-- The first item of an array is read like any other value. -/
theorem run_firstItem (v : Value) :
    run (.firstItem outer) (v.tokens ++ rest) =
      run (.value (.array [] :: outer)) (v.tokens ++ rest) := by
  cases v <;> rfl

/-- The first field of an object is read like any other field. -/
theorem run_firstName (field : String × Value) :
    run (.firstName outer) (ofField field ++ rest) =
      run (.nextName [] outer) (ofField field ++ rest) := rfl

/-- Behind a name, the value of the field is read. -/
theorem run_name {name : String} {fields : List (String × Value)} :
    run (.nextName fields outer) (.string name :: .colon :: rest) =
      run (.value (.object fields name :: outer)) rest :=
  (run_cons rfl).trans (run_cons rfl)

/-- Whether the tokens of a value are read as that value, whatever stands around them. -/
def Reads (v : Value) : Prop :=
  ∀ (outer : List Frame) (rest : List Token),
    run (.value outer) (v.tokens ++ rest) = run (.after v outer) rest

/-- The items of an array are read behind those that were there. -/
theorem run_items {items : List Value} (earlier : List Value) (hv : Reads v)
    (hitems : ∀ item ∈ items, Reads item) :
    run (.value (.array earlier :: outer))
        (separated (itemTokens (v :: items)) ++ .closeArray :: rest) =
      run (.after (.array (earlier.reverse ++ v :: items)) outer) rest := by
  induction items generalizing v earlier with
  | nil =>
    rw [itemTokens, itemTokens, separated, hv, run_cons rfl]
    simp
  | cons item items ih =>
    rw [List.forall_mem_cons] at hitems
    rw [itemTokens, itemTokens, separated, ← itemTokens, List.append_assoc, hv, List.cons_append,
      run_cons rfl, ih (v :: earlier) hitems.1 hitems.2]
    simp

/-- The fields of an object are read behind those that were there. -/
theorem run_fields {field : String × Value} {fields : List (String × Value)}
    (earlier : List (String × Value)) (hfield : Reads field.2)
    (hfields : ∀ other ∈ fields, Reads other.2) :
    run (.nextName earlier outer)
        (separated (fieldTokens (field :: fields)) ++ .closeObject :: rest) =
      run (.after (.object (earlier.reverse ++ field :: fields)) outer) rest := by
  induction fields generalizing field earlier with
  | nil =>
    rw [fieldTokens, fieldTokens, separated, List.cons_append, List.cons_append, run_name, hfield,
      run_cons rfl]
    simp
  | cons other fields ih =>
    rw [List.forall_mem_cons] at hfields
    rw [fieldTokens, fieldTokens, separated, ← fieldTokens, List.append_assoc, List.cons_append,
      List.cons_append, run_name, hfield, List.cons_append, run_cons rfl,
      ih (field :: earlier) hfields.1 hfields.2]
    simp

theorem reads_array {items : List Value} (h : ∀ item ∈ items, Reads item) :
    Reads (.array items) := by
  intro outer rest
  cases items with
  | nil => exact (run_cons rfl).trans (run_cons rfl)
  | cons v items =>
    rw [List.forall_mem_cons] at h
    obtain ⟨more, hmore⟩ := separated_cons v.tokens (itemTokens items)
    refine Eq.trans ?_ (run_items [] h.1 h.2)
    rw [Value.tokens, List.cons_append, List.append_assoc, List.singleton_append, run_cons rfl,
      itemTokens, hmore, List.append_assoc, run_firstItem]

theorem reads_object {fields : List (String × Value)} (h : ∀ field ∈ fields, Reads field.2) :
    Reads (.object fields) := by
  intro outer rest
  cases fields with
  | nil => exact (run_cons rfl).trans (run_cons rfl)
  | cons field fields =>
    rw [List.forall_mem_cons] at h
    obtain ⟨more, hmore⟩ := separated_cons (ofField field) (fieldTokens fields)
    refine Eq.trans ?_ (run_fields [] h.1 h.2)
    rw [Value.tokens, List.cons_append, List.append_assoc, List.singleton_append, run_cons rfl,
      fieldTokens, ← ofField, hmore, List.append_assoc, run_firstName]

/-- The tokens of every value are read as that value. -/
theorem reads (v : Value) : Reads v := by
  cases v with
  | null => exact fun _ _ => run_cons rfl
  | bool b => exact fun _ _ => run_cons rfl
  | number n => exact fun _ _ => run_cons rfl
  | string s => exact fun _ _ => run_cons rfl
  | array items => exact reads_array fun item _ => reads item
  | object fields => exact reads_object fun field _ => reads field.2
termination_by sizeOf v
decreasing_by
  · exact Value.sizeOf_item ‹item ∈ items›
  · exact Value.sizeOf_field ‹field ∈ fields›

end State

/-- A text is read as the value that it spells, and as nothing where it spells none. -/
theorem Value.ofText_eq_ok_iff {v : Value} {text : String} :
    Value.ofText text = .ok v ↔ v.Spells text := by
  constructor
  · intro h
    cases htokens : Token.ofText text with
    | error fault =>
      rw [Value.ofText, htokens] at h
      cases h
    | ok tokens =>
      rw [Value.ofText, htokens] at h
      have hv : v.tokens = tokens := State.tokens_of_run h
      rw [Value.Spells, hv]
      exact Token.ofText_eq_ok_iff.mp htokens
  · intro h
    have hrun := State.reads v [] []
    rw [List.append_nil] at hrun
    rw [Value.ofText, Token.ofText_eq_ok_iff.mpr h]
    exact hrun

end PathSieve.Json
