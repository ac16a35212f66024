import PathSieve.Cli.LogRecord
import PathSieve.Cli.Options
import PathSieve.Config.File
import PathSieve.Text.Lines
import PathSieve.Usage.Help
import PathSieve.Walk.Find

/-!
# Running the program

A run reads the command line, does what the command says, and ends with an exit code, with what is
printed, and with what was logged. Standard output holds results only: a run that fails prints none.
Messages about the run go to standard error as diagnostics.

- `find` and `filter` take their patterns from the configuration, unless the command line gives
  patterns of the same kind, and print what is selected.
- `base-paths` prints the bases of the given patterns.
- `init` writes a sample configuration.
-/

namespace PathSieve.Cli

open Usage

/-- A message about a run. -/
inductive Diagnostic where
  | misuse (m : Misuse)
  | ignoredPattern (e : Glob.PatternError)
  | notLoaded (e : LoadError)
  | notCreated (e : CreateError)
  | notWalked (e : WalkError)
deriving DecidableEq, Repr

/-- The text of a diagnostic. A misuse is told with a hint, and then once more. -/
def Diagnostic.text : Diagnostic → String
  | misuse m => m.message ++ "\n(add --help for additional information)\n" ++ m.message
  | ignoredPattern e => Report.warning e
  | notLoaded e => e.message
  | notCreated e => e.message
  | notWalked e => e.message

/-- How a run ended. -/
structure Outcome where
  code : Nat
  output : String
  diagnostics : List Diagnostic
  log : List LogRecord
deriving DecidableEq, Repr

namespace Outcome

/-- A run that printed something, or nothing. -/
def success (output : String) : Outcome := ⟨0, output, [], []⟩

/-- A run that failed. -/
def failure (d : Diagnostic) : Outcome := ⟨1, "", [d], []⟩

/-- A run that selected paths. -/
def selected (s : Selection) (format : Report.Format) (separator : String) : Outcome :=
  ⟨0, Report.paths format separator s.paths, s.errors.map .ignoredPattern, []⟩

/-- A run with more records in front of its log. -/
def logged (records : List LogRecord) (o : Outcome) : Outcome := { o with log := records ++ o.log }

end Outcome

/-- The separator of the platform. -/
def separator : String := "/"

/-- The depth of directories that a search goes to. Every directory on the way takes two bytes or
more of a path, so a path that is as long as paths can be is not as deep as this. -/
def searchDepth : Nat := 4096

variable {m : Type → Type} [Monad m]

/-- Goes on with the patterns for a run, or fails if the configuration cannot be loaded. -/
def withPatterns (host : Host m) (env : Environment) (config : Option String)
    (options : SelectOptions) (go : Config → m Outcome) : m Outcome := do
  match ← Config.load host env config with
  | .error e => return .failure (.notLoaded e)
  | .ok loaded =>
    let outcome ← go (loaded.config.override options.includes options.excludes)
    return outcome.logged (loaded.missing.toList.map .unconfigured)

/-- Searches a directory. -/
def search (host : Host m) (env : Environment) (root : String) (options : SelectOptions)
    (patterns : Config) : m Outcome := do
  let place := env.locate root
  let walk := Walk.find searchDepth place patterns.includes patterns.excludes
  let run ← walk.perform fun dir => return (← host.list dir).mapError fun e => .caused (.system e)
  let outcome : Outcome := match run.outcome with
    | .ok s => .selected s options.format separator
    | .error e => .failure (.notWalked e)
  return outcome.logged (.searching place patterns :: run.events.filterMap LogRecord.ofEvent?)

/-- Selects from paths, or from the lines of standard input if there are none. -/
def sift (host : Host m) (paths : List String) (options : SelectOptions) (patterns : Config) :
    m Outcome := do
  let candidates ← if paths.isEmpty then (Text.lines [·]) <$> host.input else pure paths
  let sieve := Sieve.ofLists patterns.includes patterns.excludes
  return .selected (sieve.select (candidates.map (Path.withSlashes separator))) options.format
    separator

/-- Does what a request asks for. -/
def Request.perform (host : Host m) (env : Environment) (r : Request) : m Outcome :=
  match r.command with
  | .find root options => withPatterns host env r.config options (search host env root options)
  | .filter paths options => withPatterns host env r.config options (sift host paths options)
  | .basePaths patterns =>
    return .success (String.join ((Base.collect [] patterns).map (· ++ "\n")))
  | .init force => do
    let path := (r.config.filter (· ≠ "")).getD env.defaultConfig
    match ← Config.create host env path force with
    | .ok () => return .success ""
    | .error e => return .failure (.notCreated e)

/-- The outcome of a command line that runs no command. -/
def Outcome.ofEnding : Ending → Outcome
  | .version => .success (program.version ++ "\n")
  | .help command => .success (program.help command)
  | .misuse m => .failure (.misuse m)

/-- The threshold of the log of a run. -/
def Request.threshold (env : Environment) (r : Request) : LogLevel :=
  if r.verbose then .debug else (Log.configure none none env.vars).threshold

/-- Runs the program. Of the log, the records that its threshold lets through are kept. -/
def run (host : Host m) (env : Environment) (words : List String) : m Outcome := do
  match Request.ofWords words with
  | .error ending => return .ofEnding ending
  | .ok r =>
    let outcome ← r.perform host env
    let log : Log := ⟨r.threshold env, false⟩
    return { outcome with log := outcome.log.filter (log.takes ·.level) }

end PathSieve.Cli
