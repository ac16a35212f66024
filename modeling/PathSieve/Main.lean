import PathSieve.Cli.Run

/-!
# The program

The only module with effects. `Disk.host` answers from the disk what a command asks for, and `main`
runs the command line in the environment it finds, prints the results on standard output and
everything else on standard error, and ends with the run's exit code.
-/

namespace PathSieve.Disk

/-- The kind of a failure that the system reports. -/
def errno (e : IO.Error) : Errno :=
  match e with
  | .noFileOrDirectory .. => .noEntry
  | .alreadyExists .. => .alreadyExists
  | .permissionDenied .. => .accessDenied
  | .inappropriateType _ 21 _ => .isDirectory
  | .inappropriateType .. => .notDirectory
  | e => .other "EIO" (toString e)

/-- Does something to a path, and says which call it was if that fails. -/
def attempt {α : Type} (call path : String) (action : IO α) : IO (Except SystemError α) := do
  match FileSystem.checkArgument "path" path with
  | .error e => return .error ⟨e, call, [path]⟩
  | .ok () =>
    try return .ok (← action)
    catch e => return .error ⟨errno e, call, [path]⟩

/-- The entries of a directory, by name. A symbolic link is an entry of its own. -/
def list (dir : String) : IO (List Entry) := do
  let found ← ((← IO.currentDir) / dir).readDir
  let entries ← found.toList.mapM fun entry => do
    return ⟨entry.fileName, (← entry.path.symlinkMetadata).type == .dir⟩
  return entries.mergeSort fun a b => Text.unitsLE a.name b.name

/-- The bytes of a file. A directory can be opened, and fails to be read. -/
def contentOf (path : String) : IO (Except SystemError (List UInt8)) := do
  let content ← attempt "open" path (IO.FS.readBinFile path)
  return match content with
    | .ok bytes => .ok bytes.toList
    | .error e => .error (if e.errno = .isDirectory then ⟨.isDirectory, "read", []⟩ else e)

/-- Writes a file, which must not be there yet unless it is to be replaced. -/
def store (replace : Bool) (path : String) (content : List UInt8) : IO Unit := do
  let file ← IO.FS.Handle.mk path (if replace then .write else .writeNew)
  file.write ⟨content.toArray⟩

/-- Everything that standard input still holds. -/
partial def drain (input : IO.FS.Stream) (read : ByteArray) : IO ByteArray := do
  let block ← input.read 65536
  if block.isEmpty then return read else drain input (read ++ block)

/-- The disk, and standard input. -/
def host : Host IO where
  contentOf := contentOf
  list dir := attempt "scandir" dir (list dir)
  makeDirectories path := attempt "mkdir" path (IO.FS.createDirAll path)
  store replace path content := attempt "open" path (store replace path content)
  input := do return (← drain (← IO.getStdin) .empty).toList

/-- The variables that a run looks at. -/
def variableNames : List String :=
  ["GLOB_SELECT_CONFIG", "XDG_CONFIG_HOME", "XDG_STATE_HOME", "LOG_LEVEL", "LOG_TO_FILE"]

/-- The environment the program was started in. -/
def environment : IO Environment := do
  let vars ← variableNames.filterMapM fun name => do
    return (← IO.getEnv name).map (name, ·)
  return { home := (← IO.getEnv "HOME").getD "/", cwd := (← IO.currentDir).toString, vars }

/-- Adds the records that belong there to the file of the log, if the log has one. -/
def keepLog (env : Environment) (records : List Cli.LogRecord) : IO Unit := do
  let log := Log.configure none none env.vars
  if log.hasFile then
    IO.FS.createDirAll (Path.parent env.logFile)
    let file ← IO.FS.Handle.mk env.logFile .append
    (records.filter (log.fileTakes ·.level)).forM fun r => file.putStr r.line

end PathSieve.Disk

open PathSieve in
/-- Runs the command line. -/
def main (words : List String) : IO UInt32 := do
  let env ← Disk.environment
  let outcome ← Cli.run Disk.host env words
  let errors ← IO.getStderr
  outcome.log.forM fun r => errors.putStr r.line
  Disk.keepLog env outcome.log
  outcome.diagnostics.forM fun d => errors.putStrLn d.text
  let output ← IO.getStdout
  output.putStr outcome.output
  output.flush
  return .ofNat outcome.code
