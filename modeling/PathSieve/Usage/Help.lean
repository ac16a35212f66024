import PathSieve.Usage.Spec

/-!
# Help

Help shows how a command is called and what it does, and then its arguments, its options, the
program's options and the commands, in sections of two columns. The second column starts behind the
longest term of all sections, and descriptions are filled into it word by word, so that no line is
longer than `lineWidth - 1`. Options and commands are in alphabetical order, where a capital letter
follows its small one.
-/

namespace PathSieve.Usage

/-- The width of a line, of which the last column stays free. -/
def lineWidth : Nat := 80

/-- Blanks. -/
def blanks (n : Nat) : String := String.ofList (List.replicate n ' ')

/-- A text filled up with blanks to a width. -/
def padTo (width : Nat) (text : String) : String := text ++ blanks (width - text.length)

/-- Puts words into lines of at most `width` characters, given the line begun so far. -/
def fillFrom (width : Nat) (line : String) : List String → List String
  | [] => [line]
  | word :: words =>
    if line.length + 1 + word.length ≤ width then fillFrom width (line ++ " " ++ word) words
    else line :: fillFrom width word words

/-- The lines of at most `width` characters that the words of a text fill. -/
def fill (width : Nat) (text : String) : List String :=
  match text.splitOn " " with
  | [] => []
  | word :: words => fillFrom width word words

/-- The place of a text in alphabetical order. -/
def orderKey (text : String) : List (Nat × Bool) :=
  text.toList.map fun c => (c.toLower.toNat, c.isUpper)

/-- Whether one place in alphabetical order comes before another or is the same. -/
def keyLE : List (Nat × Bool) → List (Nat × Bool) → Bool
  | [], _ => true
  | _ :: _, [] => false
  | (a, x) :: as, (b, y) :: bs => a < b || (a == b && (x == y && keyLE as bs || !x && y))

/-- The text that an option is ordered by: its short form if it has one. -/
def OptionSpec.sortText (o : OptionSpec) : String := (o.short.map Char.toString).getD o.long

/-- Options in alphabetical order. -/
def sortedOptions (options : List OptionSpec) : List OptionSpec :=
  options.mergeSort fun a b => keyLE (orderKey a.sortText) (orderKey b.sortText)

/-- A description with the value that is taken when none is given. -/
def withFallback (description : String) (fallback : Option String) : String :=
  description ++ match fallback with
    | some text => " (default: " ++ text ++ ")"
    | none => ""

/-- One line of a section: a term and what it means. -/
structure HelpItem where
  term : String
  meaning : String
deriving DecidableEq, Repr

/-- A section of help. -/
structure HelpSection where
  title : String
  items : List HelpItem
deriving DecidableEq, Repr

/-- An argument in help. -/
def ArgumentSpec.helpItem (a : ArgumentSpec) : HelpItem :=
  ⟨a.name, withFallback a.description a.fallback⟩

/-- An option in help. -/
def OptionSpec.helpItem (o : OptionSpec) : HelpItem :=
  ⟨o.flags, withFallback o.description o.fallback⟩

/-- The terms of a command's arguments, each behind a blank. -/
def CommandSpec.argumentTerms (c : CommandSpec) : String :=
  String.join (c.arguments.map fun a => " " ++ a.term)

/-- A command in help. -/
def CommandSpec.helpItem (c : CommandSpec) : HelpItem :=
  ⟨c.name ++ (if c.options.isEmpty then "" else " [options]") ++ c.argumentTerms, c.description⟩

/-- The options of a command as a section. -/
def optionSection (title : String) (options : List OptionSpec) : HelpSection :=
  ⟨title, (sortedOptions options).map (·.helpItem)⟩

/-- The sections of the help for the program or for one of its commands. -/
def ProgramSpec.helpSections (p : ProgramSpec) : Option CommandSpec → List HelpSection
  | none =>
    [optionSection "Options:" p.root.shownOptions,
      ⟨"Commands:", (p.commands.mergeSort fun a b => keyLE (orderKey a.name) (orderKey b.name)).map
        (·.helpItem)⟩]
  | some c =>
    [⟨"Arguments:", c.arguments.map (·.helpItem)⟩, optionSection "Options:" c.shownOptions,
      optionSection "Global Options:" p.root.options]

/-- How the program or one of its commands is called. -/
def ProgramSpec.usageLine (p : ProgramSpec) : Option CommandSpec → String
  | none => p.root.name ++ " [options] [command]"
  | some c => p.root.name ++ " " ++ c.name ++ " [options]" ++ c.argumentTerms

/-- One item, its meaning in the column at `column`. -/
def HelpItem.render (column : Nat) (item : HelpItem) : String :=
  match fill (lineWidth - 1 - column) item.meaning with
  | [] => item.term
  | first :: others =>
    String.join ((padTo (column - 2) item.term ++ first) ::
      others.map fun line => "\n" ++ blanks column ++ line)

/-- One section, with the blank line behind it. -/
def HelpSection.render (column : Nat) (s : HelpSection) : String :=
  if s.items.isEmpty then ""
  else s.title ++ "\n" ++
    String.join (s.items.map fun item => "  " ++ item.render column ++ "\n") ++ "\n"

/-- The help for the program or for one of its commands. -/
def ProgramSpec.help (p : ProgramSpec) (command : Option CommandSpec) : String :=
  let shown := command.getD p.root
  let sections := (p.helpSections command).filter (!·.items.isEmpty)
  let widest := (sections.flatMap (·.items)).foldl (fun n item => max n item.term.length) 0
  let paragraphs := ["Usage: " ++ p.usageLine command ++ "\n\n",
      "\n".intercalate (fill (lineWidth - 1) shown.description) ++ "\n\n"] ++
    sections.map (·.render (widest + 4))
  -- the last section has no blank line behind it
  String.ofList (String.join paragraphs).toList.dropLast ++ shown.epilogue

end PathSieve.Usage
