/-!
# Logging

A message has one of six levels, and a log has a threshold: it takes the messages at or above it.
The threshold `silent` is above every message. A log may also go to a file, which never takes
messages below `info`, and which a silent log does not open.
-/

namespace PathSieve

/-- The levels of messages, and the threshold above them all. -/
inductive LogLevel where
  | trace
  | debug
  | info
  | warn
  | error
  | fatal
  | silent
deriving DecidableEq, Repr

namespace LogLevel

/-- The number of a level; the threshold `silent` has the highest. -/
def rank : LogLevel → Nat
  | trace => 10
  | debug => 20
  | info => 30
  | warn => 40
  | error => 50
  | fatal => 60
  | silent => 70

/-- The name of a level. -/
def name : LogLevel → String
  | trace => "trace"
  | debug => "debug"
  | info => "info"
  | warn => "warn"
  | error => "error"
  | fatal => "fatal"
  | silent => "silent"

/-- Every level, from the lowest on. -/
def all : List LogLevel := [trace, debug, info, warn, error, fatal, silent]

/-- The levels that messages have. -/
def ofMessages : List LogLevel := all.filter (· ≠ silent)

/-- The level of a name. -/
def ofName? (name : String) : Option LogLevel := all.find? (·.name == name)

/-- The threshold of a log: the one asked for, else the one the variable `LOG_LEVEL` names, else
`warn`. -/
def threshold (asked : Option LogLevel) (named : Option String) : LogLevel :=
  (asked.or (named.bind ofName?)).getD warn

end LogLevel

/-- A log, by its threshold and by whether it goes to a file as well. -/
structure Log where
  threshold : LogLevel
  toFile : Bool
deriving DecidableEq, Repr

namespace Log

/-- The log for a wished threshold and file, where a missing wish is decided by the variables
`LOG_LEVEL` and `LOG_TO_FILE`. -/
def configure (level : Option LogLevel) (toFile : Option Bool)
    (vars : List (String × String)) : Log where
  threshold := LogLevel.threshold level (vars.lookup "LOG_LEVEL")
  toFile := toFile.getD (vars.lookup "LOG_TO_FILE" == some "1")

/-- Whether a message of a level is logged. -/
def takes (log : Log) (level : LogLevel) : Bool := decide (log.threshold.rank ≤ level.rank)

/-- Whether the log opens its file. -/
def hasFile (log : Log) : Bool := log.toFile && log.threshold != .silent

/-- Whether a message of a level goes to the file. -/
def fileTakes (log : Log) (level : LogLevel) : Bool :=
  log.hasFile && log.takes level && decide (LogLevel.info.rank ≤ level.rank)

end Log

end PathSieve
