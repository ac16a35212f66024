import PathSieve.Cli.Run
import PathSieve.Proofs.Failures
import PathSieve.Proofs.Loading
import PathSieve.Proofs.RealDirectories

/-!
# What a run prints

Standard output is for results only. A run that fails prints none, whatever it asks of its host and
whatever it is told (`endsQuiet_run`): every way to end is a success or a failure, and a failure has
nothing to print.

A run of `find` or `filter` fails for two reasons only: the configuration cannot be loaded, or a
directory that the search lists cannot be listed. Otherwise it prints what is selected, and warns of
every pattern that cannot be read, however many they are (`output_run`). A search never fails for
its depth. Every directory on the way down takes two bytes of the path, so the path is too long for
the file system before the search is too deep (`FileSystem.not_gaveUp_of_maxPathBytes_lt`).
-/

namespace PathSieve

open Glob Walk
open Config (load_host)

/-! ## Failing runs are quiet -/

namespace Cli

namespace Outcome

/-- Whether an outcome prints nothing if it is a failure. -/
def Quiet (o : Outcome) : Prop := o.code ≠ 0 → o.output = ""

theorem quiet_success (output : String) : (success output).Quiet := fun h => absurd rfl h

theorem quiet_failure (d : Diagnostic) : (failure d).Quiet := fun _ => rfl

theorem quiet_selected (found : Selection) (format : Report.Format) (separator : String) :
    (selected found format separator).Quiet := fun h => absurd rfl h

theorem quiet_ofEnding (ending : Usage.Ending) : (ofEnding ending).Quiet := by
  cases ending with
  | version => exact quiet_success _
  | help command => exact quiet_success _
  | misuse m => exact quiet_failure _

end Outcome

section Quiet

variable {σ α : Type} {host : Host (StateM σ)} {env : Environment}

/-- Whether a run ends quietly, whatever state it starts in. -/
def EndsQuiet (x : StateM σ Outcome) : Prop := ∀ s, (x s).1.Quiet

theorem endsQuiet_pure {o : Outcome} (h : o.Quiet) : EndsQuiet (pure o : StateM σ Outcome) :=
  fun _ => h

theorem endsQuiet_bind {x : StateM σ α} {f : α → StateM σ Outcome} (h : ∀ a, EndsQuiet (f a)) :
    EndsQuiet (x >>= f) := fun s => h (x s).1 (x s).2

theorem endsQuiet_withPatterns {config : Option String} {options : SelectOptions}
    {go : Config → StateM σ Outcome} (h : ∀ patterns, EndsQuiet (go patterns)) :
    EndsQuiet (withPatterns host env config options go) := by
  refine endsQuiet_bind fun result => ?_
  cases result with
  | error e => exact endsQuiet_pure (Outcome.quiet_failure _)
  | ok loaded => exact h _

theorem endsQuiet_search (root : String) (options : SelectOptions) (patterns : Config) :
    EndsQuiet (search host env root options patterns) := by
  refine endsQuiet_bind fun run => endsQuiet_pure ?_
  cases run.outcome with
  | ok found => exact Outcome.quiet_selected _ _ _
  | error e => exact Outcome.quiet_failure (.notWalked e)

theorem endsQuiet_sift (paths : List String) (options : SelectOptions) (patterns : Config) :
    EndsQuiet (sift host paths options patterns) := by
  unfold sift
  split
  · exact endsQuiet_bind fun _ => endsQuiet_pure (Outcome.quiet_selected _ _ _)
  · exact endsQuiet_pure (Outcome.quiet_selected _ _ _)

theorem endsQuiet_perform (r : Request) : EndsQuiet (r.perform host env) := by
  obtain ⟨command, config, verbose⟩ := r
  cases command with
  | find root options => exact endsQuiet_withPatterns (endsQuiet_search root options)
  | filter paths options => exact endsQuiet_withPatterns (endsQuiet_sift paths options)
  | basePaths patterns => exact endsQuiet_pure (Outcome.quiet_success _)
  | init force =>
    refine endsQuiet_bind fun result => ?_
    cases result with
    | error e => exact endsQuiet_pure (Outcome.quiet_failure _)
    | ok _ => exact endsQuiet_pure (Outcome.quiet_success _)

/-- A run that fails prints nothing, whatever it asks of its host. -/
theorem endsQuiet_run (words : List String) : EndsQuiet (run host env words) := by
  unfold run
  cases Request.ofWords words with
  | error ending => exact endsQuiet_pure (Outcome.quiet_ofEnding ending)
  | ok r => exact endsQuiet_perform r

end Quiet

end Cli

/-! ## Searches are deep enough -/

namespace FileSystem

variable {fs : FileSystem}

/-- A path that can be listed has half as many levels as it may have bytes. -/
theorem two_mul_level_le_of_listing {dir : String} {entries : List Entry}
    (h : fs.listing dir = .ok entries) : 2 * Path.level dir ≤ maxPathBytes + 1 := by
  obtain ⟨here, hplace, -, -⟩ := listing_eq_ok_iff.mp h
  have hlength := (resolve_eq_ok_iff.mp hplace).1.2
  have hlevel := Path.two_mul_level_le dir
  unfold checkLength at hlength
  split_ifs at hlength
  omega

/-- A search of a file system does not give up if it may go deeper than the longest path does. -/
theorem not_gaveUp_of_maxPathBytes_lt (fs : FileSystem) {depth : Nat}
    (hdepth : maxPathBytes + 1 < 2 * (depth - 1)) (root : String)
    (includes excludes : List String) :
    ¬ ((find depth root includes excludes).run fs.listing).GaveUp := by
  refine Walk.not_gaveUp_find fun base path => ?_
  -- what is left of the depth reaches beyond the longest path
  refine not_gaveUp_descend (fun depth dir =>
    0 < depth ∧ maxPathBytes + 1 < 2 * (Path.level dir + depth - 1)) fs.listing_ne_tooDeep ?_ ?_ ?_
  · rintro dir ⟨hzero, -⟩
    exact absurd hzero (Nat.lt_irrefl 0)
  · rintro depth dir entries ⟨-, hfar⟩ hentries name hmem
    have hlevel := two_mul_level_le_of_listing hentries
    have hname : IsName name := fs.proper_listing dir entries hentries _ hmem
    rw [Path.level_join_name dir ⟨name, hname⟩]
    omega
  · omega

end FileSystem

/-! ## What a selecting run prints -/

/-- The warning for a pattern, if it cannot be read. -/
def Glob.warning? (pattern : String) : Option String :=
  match Pattern.ofText pattern with
  | .ok _ => none
  | .error e => some (Report.warning e)

theorem map_warning_errors_ofList (patterns : List String) :
    (PatternSet.ofList patterns).errors.map Report.warning = patterns.filterMap warning? := by
  rw [errors_ofList, List.map_filterMap]
  refine List.filterMap_congr fun pattern _ => ?_
  rw [warning?]
  cases Pattern.ofText pattern <;> rfl

namespace Cli

variable {fs : FileSystem} {input : List UInt8} {env : Environment} {config : Option String}
variable {options : SelectOptions}

/-- The patterns to select by, once a configuration is loaded. -/
def SelectOptions.patterns (options : SelectOptions) (loaded : Config.Loaded) : Config :=
  loaded.config.override options.includes options.excludes

/-- The walk of a search. -/
def walkOf (env : Environment) (root : String) (patterns : Config) : Walk Selection :=
  find searchDepth (env.locate root) patterns.includes patterns.excludes

/-- The paths that are selected from: those given, or the lines of standard input. -/
def candidatesOf (paths : List String) (input : List UInt8) : List String :=
  (if paths.isEmpty then Text.lines [input] else paths).map (Path.withSlashes separator)

/-- Whether an outcome is a success that prints some paths, and warns of each pattern that cannot be
read among those to select by. -/
structure Outcome.Reports (o : Outcome) (patterns : Config) (format : Report.Format)
    (paths : List String) : Prop where
  code : o.code = 0
  output : o.output = Report.paths format separator paths
  warnings : o.diagnostics.map Diagnostic.text =
    (patterns.includes ++ patterns.excludes).filterMap warning?

theorem Outcome.reports_selected {found : Selection} {patterns : Config}
    (h : found.errors = (Sieve.ofLists patterns.includes patterns.excludes).errors)
    (format : Report.Format) :
    (selected found format separator).Reports patterns format found.paths where
  code := rfl
  output := rfl
  warnings := by
    have htext : Diagnostic.text ∘ Diagnostic.ignoredPattern = Report.warning := rfl
    rw [selected, List.map_map, htext, h, Sieve.errors, Sieve.ofLists, List.map_append,
      map_warning_errors_ofList, map_warning_errors_ofList, List.filterMap_append]

/-- The log has no part in what an outcome reports. -/
theorem Outcome.Reports.withLog {o : Outcome} {patterns : Config} {format : Report.Format}
    {paths : List String} (h : o.Reports patterns format paths) (log : List LogRecord) :
    { o with log := log }.Reports patterns format paths :=
  ⟨h.code, h.output, h.warnings⟩

/-- A run fails where the configuration cannot be loaded, and goes on with the patterns else. -/
theorem fst_withPatterns (go : Config → StateM FileSystem Outcome) :
    (withPatterns (FileSystem.host input) env config options go fs).1 =
      match (Config.load (FileSystem.host input) env config fs).1 with
      | .error e => .failure (.notLoaded e)
      | .ok loaded => (go (options.patterns loaded) fs).1.logged
          (loaded.missing.toList.map .unconfigured) := by
  rw [withPatterns, bind_of_eq load_host, load_host]
  cases Config.ofContent _ _ _ <;> rfl

section Selecting

variable {words : List String} {r : Request} {go : Config → StateM FileSystem Outcome}

/-- A run of a command that selects is the selecting, but for what its log leaves out. -/
theorem exists_fst_run_eq (fs : FileSystem) (hwords : Request.ofWords words = .ok r)
    (hr : r.perform (FileSystem.host input) env =
      withPatterns (FileSystem.host input) env r.config options go) :
    ∃ log, (run (FileSystem.host input) env words fs).1 =
      { (withPatterns (FileSystem.host input) env r.config options go fs).1 with log := log } := by
  unfold run
  rw [hwords, ← hr]
  exact ⟨_, rfl⟩

/-- A run of a command that selects succeeds if the configuration can be loaded and the selecting
succeeds. -/
theorem code_run_eq_zero_iff (fs : FileSystem) (hwords : Request.ofWords words = .ok r)
    (hr : r.perform (FileSystem.host input) env =
      withPatterns (FileSystem.host input) env r.config options go) :
    (run (FileSystem.host input) env words fs).1.code = 0 ↔
      ∃ loaded, (Config.load (FileSystem.host input) env r.config fs).1 = .ok loaded ∧
        (go (options.patterns loaded) fs).1.code = 0 := by
  obtain ⟨log, hrun⟩ := exists_fst_run_eq fs hwords hr
  rw [hrun, fst_withPatterns]
  cases (Config.load (FileSystem.host input) env r.config fs).1 with
  | error e => simp [Outcome.failure]
  | ok loaded => simp [Outcome.logged]

/-- What the selecting reports is what the run reports. -/
theorem reports_run (hwords : Request.ofWords words = .ok r)
    (hr : r.perform (FileSystem.host input) env =
      withPatterns (FileSystem.host input) env r.config options go)
    {loaded : Config.Loaded}
    (hload : (Config.load (FileSystem.host input) env r.config fs).1 = .ok loaded)
    {format : Report.Format} {paths : List String}
    (h : (go (options.patterns loaded) fs).1.Reports (options.patterns loaded) format paths) :
    (run (FileSystem.host input) env words fs).1.Reports (options.patterns loaded) format
      paths := by
  obtain ⟨log, hrun⟩ := exists_fst_run_eq fs hwords hr
  rw [hrun, fst_withPatterns, hload]
  exact (h.withLog _).withLog log

end Selecting

/-- A search ends as its walk does. -/
theorem fst_search (root : String) (patterns : Config) :
    (search (FileSystem.host input) env root options patterns fs).1 =
      Outcome.logged (.searching (env.locate root) patterns ::
          ((walkOf env root patterns).run fs.listing).events.filterMap LogRecord.ofEvent?)
        (match ((walkOf env root patterns).run fs.listing).outcome with
          | .ok found => .selected found options.format separator
          | .error e => .failure (.notWalked e)) :=
  congrArg Prod.fst (bind_of_eq (perform_state FileSystem.listing (walkOf env root patterns) fs) _)

theorem reports_search {root : String} {patterns : Config} {found : Selection}
    (h : Gives fs.listing (walkOf env root patterns) found) :
    (search (FileSystem.host input) env root options patterns fs).1.Reports patterns options.format
      found.paths := by
  have herrors : found.errors = (Sieve.ofLists patterns.includes patterns.excludes).errors := by
    obtain ⟨paths, -, rfl⟩ := gives_find.mp h
    rfl
  have houtcome : ((walkOf env root patterns).run fs.listing).outcome = .ok found := h
  rw [fst_search, houtcome]
  exact (Outcome.reports_selected herrors options.format).withLog _

/-- The walk of a search ends well if every directory that it lists can be listed. -/
theorem served_walkOf_iff {root : String} {patterns : Config} :
    Served fs.listing ((walkOf env root patterns).run fs.listing).events ↔
      ∃ found, Gives fs.listing (walkOf env root patterns) found :=
  served_run_iff (candid_find _ _ _ _) (fs.not_gaveUp_of_maxPathBytes_lt (by decide) _ _ _)

theorem code_search_eq_zero_iff {root : String} {patterns : Config} :
    (search (FileSystem.host input) env root options patterns fs).1.code = 0 ↔
      Served fs.listing ((walkOf env root patterns).run fs.listing).events := by
  rw [served_walkOf_iff]
  constructor
  · intro hcode
    rw [fst_search] at hcode
    unfold Gives
    cases hwalk : ((walkOf env root patterns).run fs.listing).outcome with
    | error e =>
      rw [hwalk] at hcode
      exact absurd hcode Nat.one_ne_zero
    | ok found => exact ⟨found, rfl⟩
  · rintro ⟨found, hfound⟩
    exact (reports_search hfound).code

theorem reports_sift (paths : List String) (patterns : Config) :
    (sift (FileSystem.host input) paths options patterns fs).1.Reports patterns options.format
      ((candidatesOf paths input).filter
        (Sieve.ofLists patterns.includes patterns.excludes).keeps) := by
  have hfst : (sift (FileSystem.host input) paths options patterns fs).1 =
      .selected ((Sieve.ofLists patterns.includes patterns.excludes).select
        (candidatesOf paths input)) options.format separator := by
    unfold sift candidatesOf
    split <;> rfl
  rw [hfst]
  exact Outcome.reports_selected rfl options.format

/-- **Whole runs.** A run that fails prints nothing. A run of `find` succeeds exactly if the
configuration can be loaded and every directory that the search lists can be listed, a run of
`filter` exactly if the configuration can be loaded. Then it prints what is selected, and warns of
each pattern that cannot be read, include patterns first. -/
theorem output_run (fs : FileSystem) (input : List UInt8) (env : Environment)
    (words : List String) (o : Outcome)
    (ho : o = (run (FileSystem.host input) env words fs).1) :
    (o.code ≠ 0 → o.output = "") ∧
    ∀ r, Request.ofWords words = .ok r →
      (∀ root options, r.command = .find root options →
        (o.code = 0 ↔ ∃ loaded,
          (Config.load (FileSystem.host input) env r.config fs).1 = .ok loaded ∧
          Served fs.listing ((walkOf env root (options.patterns loaded)).run fs.listing).events) ∧
        (o.code = 0 → ∃ loaded found,
          (Config.load (FileSystem.host input) env r.config fs).1 = .ok loaded ∧
          Gives fs.listing (walkOf env root (options.patterns loaded)) found ∧
          o.Reports (options.patterns loaded) options.format found.paths)) ∧
      ∀ paths options, r.command = .filter paths options →
        (o.code = 0 ↔ ∃ loaded,
          (Config.load (FileSystem.host input) env r.config fs).1 = .ok loaded) ∧
        (o.code = 0 → ∃ loaded,
          (Config.load (FileSystem.host input) env r.config fs).1 = .ok loaded ∧
          o.Reports (options.patterns loaded) options.format
            ((candidatesOf paths input).filter
              (Sieve.ofLists (options.patterns loaded).includes
                (options.patterns loaded).excludes).keeps)) := by
  subst ho
  refine ⟨endsQuiet_run words fs, fun r hwords => ⟨?_, ?_⟩⟩
  · intro root options hfind
    have hr : r.perform (FileSystem.host input) env = withPatterns (FileSystem.host input) env
        r.config options (search (FileSystem.host input) env root options) := by
      rw [Request.perform, hfind]
    have hcode := code_run_eq_zero_iff fs hwords hr
    simp only [code_search_eq_zero_iff] at hcode
    refine ⟨hcode, fun hzero => ?_⟩
    obtain ⟨loaded, hload, hserved⟩ := hcode.mp hzero
    obtain ⟨found, hfound⟩ := served_walkOf_iff.mp hserved
    exact ⟨loaded, found, hload, hfound, reports_run hwords hr hload (reports_search hfound)⟩
  · intro paths options hfilter
    have hr : r.perform (FileSystem.host input) env = withPatterns (FileSystem.host input) env
        r.config options (sift (FileSystem.host input) paths options) := by
      rw [Request.perform, hfilter]
    have hcode := code_run_eq_zero_iff fs hwords hr
    simp only [(reports_sift _ _).code, and_true] at hcode
    refine ⟨hcode, fun hzero => ?_⟩
    obtain ⟨loaded, hload⟩ := hcode.mp hzero
    exact ⟨loaded, hload, reports_run hwords hr hload (reports_sift paths _)⟩

/-- Two searches and a selection from standard input, with a configuration that gives one pattern
twice that cannot be read. One of the searches is of a directory that is not there. -/
theorem output_run_unreadable :
    ∃ (fs : FileSystem) (env : Environment),
      (∃ o r options,
        o = (run (FileSystem.host []) env ["-c", "/c", "find", "/r", "-e", "[b-a]"] fs).1 ∧
        Request.ofWords ["-c", "/c", "find", "/r", "-e", "[b-a]"] = .ok r ∧
        r.command = .find "/r" options ∧ o.code = 0 ∧
        o.Reports ⟨["[", "x", "["], ["[b-a]"]⟩ ⟨false, false⟩ ["x"]) ∧
      (∃ o r options,
        o = (run (FileSystem.host []) env ["-c", "/c", "find", "/none"] fs).1 ∧
        Request.ofWords ["-c", "/c", "find", "/none"] = .ok r ∧
        r.command = .find "/none" options ∧ o.code ≠ 0 ∧ o.output = "") ∧
      ∃ o r options,
        o = (run (FileSystem.host [0x79, 0x0A, 0x78]) env ["-c", "/c", "filter", "-z"] fs).1 ∧
        Request.ofWords ["-c", "/c", "filter", "-z"] = .ok r ∧
        r.command = .filter [] options ∧ o.code = 0 ∧
        o.Reports ⟨["[", "x", "["], []⟩ ⟨false, true⟩ ["x"] := by
  let r : Name := ⟨"r", by decide⟩
  let fs : FileSystem := {
    nodes := [(⟨[], r⟩, .directory), (⟨[r], ⟨"x", by decide⟩⟩, .file []),
      (⟨[], ⟨"c", by decide⟩⟩,
        .file (Text.Utf8.encode "\x7b\"include\":[\"[\",\"x\",\"[\"]\x7d".toList))]
    cwd := []
    distinct := by decide }
  let env : Environment := ⟨"/h", "/", []⟩
  have hload (input : List UInt8) : (Config.load (FileSystem.host input) env (some "/c") fs).1 =
      .ok ⟨⟨["[", "x", "["], []⟩, none⟩ := by
    rw [load_host]
    decide +kernel
  refine ⟨fs, env, ?_, ?_, ?_⟩
  · have hwords : Request.ofWords ["-c", "/c", "find", "/r", "-e", "[b-a]"] =
        .ok ⟨.find "/r" ⟨none, some ["[b-a]"], ⟨false, false⟩⟩, some "/c", false⟩ := by
      decide +kernel
    have hlisting : fs.listing "/r" = .ok [⟨"x", false⟩] :=
      FileSystem.listing_eq_ok_iff.mpr
        ⟨[r], by decide +kernel, rfl, (List.mergeSort_singleton _).symm⟩
    have hwalk : Gives fs.listing (walkOf env "/r" ⟨["[", "x", "["], ["[b-a]"]⟩)
        ⟨["x"], [⟨"[", .openClass⟩, ⟨"[", .openClass⟩, ⟨"[b-a]", .backwardRange⟩]⟩ := by
      let table : Listing := fun _ => .ok [⟨"x", false⟩]
      have hlisted : ((walkOf env "/r" ⟨["[", "x", "["], ["[b-a]"]⟩).run table).listed =
          ["/r"] := by decide +kernel
      have hrun : (walkOf env "/r" ⟨["[", "x", "["], ["[b-a]"]⟩).run fs.listing =
          (walkOf env "/r" ⟨["[", "x", "["], ["[b-a]"]⟩).run table := by
        refine run_congr ?_
        rw [hlisted]
        exact List.forall_mem_singleton.mpr hlisting
      unfold Gives
      rw [hrun]
      decide +kernel
    obtain ⟨-, hruns⟩ := output_run fs [] env ["-c", "/c", "find", "/r", "-e", "[b-a]"] _ rfl
    obtain ⟨hcode, hreports⟩ := (hruns _ hwords).1 "/r" _ rfl
    have hzero := hcode.mpr ⟨_, hload [], served_walkOf_iff.mpr ⟨_, hwalk⟩⟩
    obtain ⟨loaded, found, hloaded, hfound, ho⟩ := hreports hzero
    obtain rfl := Except.ok.inj (hloaded.symm.trans (hload []))
    obtain rfl := Except.ok.inj (hfound.symm.trans hwalk)
    exact ⟨_, _, _, rfl, hwords, rfl, hzero, ho⟩
  · have hwords : Request.ofWords ["-c", "/c", "find", "/none"] =
        .ok ⟨.find "/none" ⟨none, none, ⟨false, false⟩⟩, some "/c", false⟩ := by decide +kernel
    have hwalk : ((walkOf env "/none" ⟨["[", "x", "["], []⟩).run fs.listing).outcome =
        .error (.unlisted "/none" (.system ⟨.noEntry, "scandir", ["/none"]⟩)) := by decide +kernel
    obtain ⟨hquiet, hruns⟩ := output_run fs [] env ["-c", "/c", "find", "/none"] _ rfl
    have hfails : (run (FileSystem.host []) env ["-c", "/c", "find", "/none"] fs).1.code ≠ 0 := by
      intro hzero
      obtain ⟨loaded, found, hloaded, hfound, -⟩ := ((hruns _ hwords).1 "/none" _ rfl).2 hzero
      obtain rfl := Except.ok.inj (hloaded.symm.trans (hload []))
      cases hfound.symm.trans hwalk
    exact ⟨_, _, _, rfl, hwords, rfl, hfails, hquiet hfails⟩
  · have hwords : Request.ofWords ["-c", "/c", "filter", "-z"] =
        .ok ⟨.filter [] ⟨none, none, ⟨false, true⟩⟩, some "/c", false⟩ := by decide +kernel
    have hselected : (candidatesOf [] [0x79, 0x0A, 0x78]).filter
        (Sieve.ofLists ["[", "x", "["] []).keeps = ["x"] := by decide +kernel
    obtain ⟨-, hruns⟩ := output_run fs [0x79, 0x0A, 0x78] env ["-c", "/c", "filter", "-z"] _ rfl
    obtain ⟨hcode, hreports⟩ := (hruns _ hwords).2 [] _ rfl
    have hzero := hcode.mpr ⟨_, hload _⟩
    obtain ⟨loaded, hloaded, ho⟩ := hreports hzero
    obtain rfl := Except.ok.inj (hloaded.symm.trans (hload _))
    exact ⟨_, _, _, rfl, hwords, rfl, hzero, hselected ▸ ho⟩

end Cli

end PathSieve
