import PathSieve.Usage.Spec

/-!
# Reading the words of a command line

Words are taken from the left. Known options are collected with their values; other words are
operands, until a word looks like an option and is not known: from there on nothing but known
options is taken out, and the rest is left for whoever knows more.

- `--` ends the options: what follows it is taken as it is.
- An option that needs a value takes the next word, whatever it looks like. A variadic one goes on
  taking words up to the next that looks like an option.
- `-xyz` is `-x` with the value `yz`, or `-x` followed by `-yz` if `-x` has no value.
- `--name=value` gives the value to an option that needs one.
- Where commands are named, the first word that is no option either names the command or belongs to
  the standard one. In both cases the rest is left to the command.
-/

namespace PathSieve.Usage

/-- An option on a command line, with its value if it has one. -/
structure Given where
  option : OptionSpec
  value : Option String
deriving DecidableEq, Repr

/-- What the words of a command line came to. -/
structure Scanned where
  given : List Given
  operands : List String
  unknown : List String
deriving DecidableEq, Repr

/-- Nothing yet. -/
def Scanned.empty : Scanned := ⟨[], [], []⟩

/-- Adds an option. -/
def Scanned.give (s : Scanned) (o : OptionSpec) (value : Option String) : Scanned :=
  { s with given := s.given ++ [⟨o, value⟩] }

/-- What can be written at one place of a command line. -/
structure Grammar where
  options : List OptionSpec
  /-- The option that ends reading at once, because all that is asked for is the version. -/
  versionOption : Option OptionSpec
  /-- The names of the commands; the empty list where none can be named. -/
  commands : List String

/-- Why reading the words of a command line ended before their end. -/
inductive Interruption where
  | version
  | missingValue (option : OptionSpec)
deriving DecidableEq, Repr

/-- Whether a word looks like an option. A dash alone does not. -/
def looksLikeOption : List Char → Bool
  | '-' :: _ :: _ => true
  | _ => false

/-- A word as the option in front of it, and what follows: `-x` and `yz` for `-xyz`. -/
def cluster? : List Char → Option (List Char × List Char)
  | '-' :: c :: d :: more => if c = '-' then none else some (['-', c], d :: more)
  | _ => none

/-- A word `--name=value` as its two sides. -/
def assignment? (word : List Char) : Option (List Char × List Char) :=
  match word with
  | '-' :: '-' :: rest =>
    let name := rest.takeWhile (· != '=')
    match rest.dropWhile (· != '=') with
    | '=' :: value => if name = [] then none else some ('-' :: '-' :: name, value)
    | _ => none
  | _ => none

theorem length_of_cluster? {word flag rest : List Char} (h : cluster? word = some (flag, rest)) :
    rest.length + 2 = word.length := by
  unfold cluster? at h
  split at h
  · split at h
    · simp at h
    · simp only [Option.some.injEq, Prod.mk.injEq] at h
      simp [← h.2]
  · simp at h

namespace Grammar

/-- The known option that a word is. -/
def find? (g : Grammar) (word : List Char) : Option OptionSpec :=
  findOption g.options (String.ofList word)

/-- The known option that a word begins with, and the value or the further options behind it. -/
def findCluster? (g : Grammar) (word : List Char) : Option (OptionSpec × List Char) :=
  match cluster? word with
  | some (flag, rest) => (g.find? flag).map (·, rest)
  | none => none

/-- The known option that a word gives a value, and the value. -/
def findAssignment? (g : Grammar) (word : List Char) : Option (OptionSpec × List Char) :=
  match assignment? word with
  | some (flag, value) => ((g.find? flag).filter (·.value.isSome)).map (·, value)
  | none => none

theorem length_of_findCluster? {g : Grammar} {word rest : List Char} {o : OptionSpec}
    (h : g.findCluster? word = some (o, rest)) : rest.length + 2 = word.length := by
  unfold findCluster? at h
  split at h
  · next flag more hc =>
    obtain ⟨o', -, ho⟩ := Option.map_eq_some_iff.1 h
    simp only [Prod.mk.injEq] at ho
    exact ho.2 ▸ length_of_cluster? hc
  · simp at h

/-- Words as texts. -/
def textsOf (words : List (List Char)) : List String := words.map String.ofList

/-- Takes a word that is no option, or none that is known. -/
def leftOver (word : List Char) (s : Scanned) : Scanned :=
  let text := String.ofList word
  if looksLikeOption word ∨ s.unknown ≠ [] then { s with unknown := s.unknown ++ [text] }
  else { s with operands := s.operands ++ [text] }

/-- Reads words. `active` is the variadic option that goes on taking words. -/
def scanFrom (g : Grammar) (active : Option OptionSpec) (s : Scanned) :
    List (List Char) → Except Interruption Scanned
  | [] => .ok s
  | word :: words =>
    if word = ['-', '-'] then
      .ok (if s.unknown = [] then { s with operands := s.operands ++ textsOf words }
        else { s with unknown := s.unknown ++ "--" :: textsOf words })
    else match active.filter fun _ => !looksLikeOption word with
    | some o => scanFrom g active (s.give o (some (String.ofList word))) words
    | none =>
      match (g.find? word).filter fun _ => looksLikeOption word with
      | some o =>
        match o.value with
        | none =>
          if g.versionOption = some o then .error .version
          else scanFrom g none (s.give o none) words
        | some value =>
          match words with
          | [] => .error (.missingValue o)
          | next :: words =>
            scanFrom g (if value.variadic then some o else none)
              (s.give o (some (String.ofList next))) words
      | none =>
        match _h : g.findCluster? word with
        | some (o, rest) =>
          if o.value.isSome then scanFrom g none (s.give o (some (String.ofList rest))) words
          else if g.versionOption = some o then .error .version
          else scanFrom g none (s.give o none) (('-' :: rest) :: words)
        | none =>
          match g.findAssignment? word with
          | some (o, value) => scanFrom g none (s.give o (some (String.ofList value))) words
          | none =>
            if g.commands = [] ∨ s.operands ≠ [] ∨ s.unknown ≠ [] then
              scanFrom g none (leftOver word s) words
            else if String.ofList word ∈ g.commands then
              .ok { s with operands := [String.ofList word], unknown := textsOf words }
            else .ok { s with unknown := String.ofList word :: textsOf words }
termination_by words => words.flatten.length + words.length
decreasing_by
  all_goals simp only [List.flatten_cons, List.length_append, List.length_cons]
  all_goals try omega
  have := length_of_findCluster? _h
  omega

/-- Reads all words. -/
def scan (g : Grammar) (words : List String) : Except Interruption Scanned :=
  g.scanFrom none .empty (words.map String.toList)

end Grammar

end PathSieve.Usage
