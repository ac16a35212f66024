import PathSieve.Config.File
import PathSieve.Proofs.Lookup

/-!
# What loading a configuration gives

Loading looks at one place: the path that is given, or the standard one, made absolute. If the place
leads to a file, its content is the configuration or is faulty. If there is nothing, the
configuration is empty at the standard place, and missing at any other. Everything else is an error
of the system that is passed on.

But what counts as nothing is what the system reports as a missing name (`FileSystem.Lacks`). There
is nothing either behind a file that stands where a directory should be, or at a path that the
system refuses for its length, and there loading passes the error on too (`load_classifies`).
-/

namespace PathSieve

open PathSieve.Path (clean isAbsolute resolveChars)

/-! ## Places -/

/-- An absolute path is never the empty text, not even where the working directory is. -/
theorem Path.resolveChars_ne_nil (cwd path : List Char) : resolveChars cwd path ≠ [] := by
  simp only [resolveChars]
  split
  · next hcwd => exact ne_nil_of_isAbsolute hcwd.2
  · generalize (if isAbsolute path = true ∨ cwd = [] then path else cwd ++ '/' :: path) = whole
    split
    · exact List.cons_ne_nil _ _
    · next hparts =>
      intro hempty
      rw [ofParts, List.append_eq_nil_iff] at hempty
      obtain ⟨hfront, hjoin⟩ := hempty
      have hrooted : isAbsolute whole = false := by
        by_contra hrooted
        rw [if_pos (Bool.eq_true_of_not_eq_false hrooted)] at hfront
        cases hfront
      cases hcleaned : clean (isAbsolute whole) (Text.pieces '/' whole) with
      | nil => exact hparts ⟨hcleaned, by rw [hrooted]; rfl⟩
      | cons p ps =>
        have hp : p ≠ [] := (ne_of_mem_clean (hcleaned ▸ List.mem_cons_self)).1
        rw [hcleaned] at hjoin
        cases ps with
        | nil => exact hp hjoin
        | cons q qs =>
          rw [Text.join, List.append_eq_nil_iff, List.append_eq_nil_iff] at hjoin
          exact hp hjoin.1.1

namespace Environment

variable {env : Environment}

/-- The place of the configuration at a path, or the standard one. -/
def configPlace (env : Environment) (path : Option String) : String :=
  env.locate (path.getD env.defaultConfig)

theorem configPlace_ne_empty (env : Environment) (path : Option String) :
    env.configPlace path ≠ "" := by
  intro h
  have hchars := congrArg String.toList h
  rw [configPlace, locate, Path.locate, String.toList_ofList] at hchars
  exact Path.resolveChars_ne_nil _ _ hchars

end Environment

/-! ## Loading -/

/-- A program that goes on from a value, in the state that it started in. -/
theorem bind_of_eq {σ α β : Type} {x : StateM σ α} {a : α} {s : σ} (h : x s = (a, s))
    (f : α → StateM σ β) : (x >>= f) s = f a s :=
  congrArg (fun result : α × σ => f result.1 result.2) h

namespace Config

open FileSystem

variable {fs : FileSystem} {input : List UInt8} {env : Environment} {path : Option String}
variable {standard place : String}

/-- Loading a configuration reads a file, and leaves the file system as it is. -/
theorem load_host :
    load (FileSystem.host input) env path fs =
      (ofContent (env.configPlace none) (env.configPlace path)
        (fs.contentOf (env.configPlace path)), fs) := by
  have hread (path : String) :
      (FileSystem.host input).contentOf path fs = (fs.contentOf path, fs) := rfl
  rw [load, bind_of_eq (hread _)]
  rfl

/-- What loading gives where there is no file. -/
def absent (standard place : String) : Except LoadError Loaded :=
  if place = standard then .ok ⟨empty, some place⟩ else .error (.notFound place)

/-- The configuration that the content of a file is. -/
def ofBytes (content : List UInt8) : Except ConfigFault Config :=
  ofText (String.ofList (Text.Utf8.decode content))

theorem ofContent_contentOf_of_lacks (hne : place ≠ "") (h : fs.Lacks place) :
    ofContent standard place (fs.contentOf place) = absent standard place := by
  rw [contentOf, (stat_eq_noEntry_iff hne).mpr h]
  rfl

theorem ofContent_contentOf_of_holds (hne : place ≠ "") {content : List UInt8}
    (h : fs.Holds place (.file content)) :
    ofContent standard place (fs.contentOf place) =
      match ofBytes content with
      | .ok config => .ok ⟨config, none⟩
      | .error fault => .error (.unusable place (.content fault)) := by
  rw [contentOf, (stat_eq_ok_iff hne).mpr h]
  rfl

/-- Where the system finds neither a file nor a missing name, its error is passed on. -/
theorem exists_ofContent_contentOf (hne : place ≠ "") (hlacks : ¬ fs.Lacks place)
    (hholds : ∀ content, ¬ fs.Holds place (.file content)) :
    ∃ e, ofContent standard place (fs.contentOf place) = .error (.unusable place (.system e)) := by
  rw [contentOf]
  cases hstat : fs.stat place with
  | ok node =>
    have hnode := (stat_eq_ok_iff hne).mp hstat
    cases node with
    | file content => exact absurd hnode (hholds content)
    | directory => exact ⟨_, rfl⟩
    | link target => exact ⟨_, rfl⟩
  | error errno =>
    have herrno : errno ≠ .noEntry := by
      rintro rfl
      exact hlacks ((stat_eq_noEntry_iff hne).mp hstat)
    exact ⟨failed errno "open" place, if_pos herrno⟩

/-- **Loading.** Loading changes nothing and gives one of three answers. Where the path leads to a
file, this is the configuration in it, or its fault. Where there is nothing, it is the answer for an
absent file exactly if the system misses a name on the way; if it stops before for another reason,
such as a file in place of a directory, its error is passed on. That is also the answer for whatever
is neither a file nor nothing, such as a directory or a cycle of links. -/
theorem load_classifies (fs : FileSystem) (input : List UInt8) (env : Environment)
    (path : Option String) :
    ∃ answer, load (FileSystem.host input) env path fs = (answer, fs) ∧
      (∀ content, fs.Holds (env.configPlace path) (.file content) →
        answer = match ofBytes content with
          | .ok config => .ok ⟨config, none⟩
          | .error fault => .error (.unusable (env.configPlace path) (.content fault))) ∧
      (fs.NothingAt (env.configPlace path) →
        (answer = absent (env.configPlace none) (env.configPlace path) ↔
          fs.Lacks (env.configPlace path)) ∧
        (¬ fs.Lacks (env.configPlace path) →
          ∃ e, answer = .error (.unusable (env.configPlace path) (.system e)))) ∧
      (¬ fs.NothingAt (env.configPlace path) →
        (∀ content, ¬ fs.Holds (env.configPlace path) (.file content)) →
          ∃ e, answer = .error (.unusable (env.configPlace path) (.system e))) := by
  have hne := env.configPlace_ne_empty path
  refine ⟨_, load_host, fun content => ofContent_contentOf_of_holds hne, ?_, ?_⟩
  · intro hnothing
    have hfailed : ¬ fs.Lacks (env.configPlace path) → ∃ e,
        ofContent (env.configPlace none) (env.configPlace path)
          (fs.contentOf (env.configPlace path)) =
            .error (.unusable (env.configPlace path) (.system e)) := fun hlacks =>
      exists_ofContent_contentOf hne hlacks fun _ => not_holds_of_nothingAt hnothing
    refine ⟨⟨?_, ofContent_contentOf_of_lacks hne⟩, hfailed⟩
    intro habsent
    by_contra hlacks
    obtain ⟨e, he⟩ := hfailed hlacks
    rw [he, absent] at habsent
    split at habsent <;> cases habsent
  · intro hnothing hholds
    exact exists_ofContent_contentOf hne (fun hlacks => hnothing hlacks.nothingAt) hholds

/-- A file, a dangling link at the standard place, a path through the file and the root. -/
theorem load_classifies_dangling :
    ∃ (fs : FileSystem) (env : Environment) (content : List UInt8),
      (fs.Holds (env.configPlace (some "../f")) (.file content) ∧
        load (FileSystem.host []) env (some "../f") fs = (.ok ⟨⟨["x"], []⟩, none⟩, fs)) ∧
      (fs.NothingAt (env.configPlace none) ∧ fs.Lacks (env.configPlace none) ∧
        load (FileSystem.host []) env none fs = (.ok ⟨empty, some "/l"⟩, fs)) ∧
      (fs.NothingAt (env.configPlace (some "/f/c")) ∧ ¬ fs.Lacks (env.configPlace (some "/f/c")) ∧
        ∃ e, load (FileSystem.host []) env (some "/f/c") fs =
          (.error (.unusable "/f/c" (.system e)), fs)) ∧
      (¬ fs.NothingAt (env.configPlace (some "/")) ∧
        (∀ content, ¬ fs.Holds (env.configPlace (some "/")) (.file content)) ∧
        ∃ e, load (FileSystem.host []) env (some "/") fs =
          (.error (.unusable "/" (.system e)), fs)) := by
  let content := Text.Utf8.encode "\x7b\"include\": [\"x\"]\x7d".toList
  let fs : FileSystem := ⟨[(⟨[], ⟨"f", by decide⟩⟩, .file content),
    (⟨[], ⟨"l", by decide⟩⟩, .link "gone")], [], by decide⟩
  let env : Environment := ⟨"/h", "/w", [("GLOB_SELECT_CONFIG", "../l")]⟩
  have hfile : fs.Holds (env.configPlace (some "../f")) (.file content) :=
    (stat_eq_ok_iff (by decide)).mp (by decide)
  have hlacks : fs.Lacks (env.configPlace none) := (stat_eq_noEntry_iff (by decide)).mp (by decide)
  have hblocked : fs.NothingAt (env.configPlace (some "/f/c")) :=
    nothingAt_of_notDirectory (by decide) (by decide)
  have hnot : ¬ fs.Lacks (env.configPlace (some "/f/c")) := by
    rw [← stat_eq_noEntry_iff (by decide)]
    decide
  have hbytes : ofBytes content = .ok ⟨["x"], []⟩ := by decide +kernel
  have habsent : absent (env.configPlace none) (env.configPlace none) = .ok ⟨empty, some "/l"⟩ := by
    decide +kernel
  have hbelow : env.configPlace (some "/f/c") = "/f/c" := by decide
  have htop : env.configPlace (some "/") = "/" := by decide
  have hroot : fs.stat (env.configPlace (some "/")) = .ok .directory := by decide
  have hplace : env.configPlace (some "/") ≠ "" := by decide
  have hsomething : ¬ fs.NothingAt (env.configPlace (some "/")) := fun h =>
    not_holds_of_nothingAt h ((stat_eq_ok_iff hplace).mp hroot)
  have hnofile : ∀ content, ¬ fs.Holds (env.configPlace (some "/")) (.file content) := by
    intro content h
    rw [← stat_eq_ok_iff hplace, hroot] at h
    cases h
  refine ⟨fs, env, content, ⟨hfile, ?_⟩, ⟨hlacks.nothingAt, hlacks, ?_⟩, ⟨hblocked, hnot, ?_⟩,
    hsomething, hnofile, ?_⟩
  · obtain ⟨answer, hload, hcontent, -⟩ := load_classifies fs [] env (some "../f")
    rw [hload, hcontent content hfile, hbytes]
  · obtain ⟨answer, hload, -, hnothing, -⟩ := load_classifies fs [] env none
    rw [hload, (hnothing hlacks.nothingAt).1.mpr hlacks, habsent]
  · obtain ⟨answer, hload, -, hnothing, -⟩ := load_classifies fs [] env (some "/f/c")
    obtain ⟨e, he⟩ := (hnothing hblocked).2 hnot
    exact ⟨e, by rw [hload, he, hbelow]⟩
  · obtain ⟨answer, hload, -, -, hother⟩ := load_classifies fs [] env (some "/")
    obtain ⟨e, he⟩ := hother hsomething hnofile
    exact ⟨e, by rw [hload, he, htop]⟩

/-- There is nothing behind a file, and loading does not say so. -/
theorem not_load_absent :
    ¬ ∀ (fs : FileSystem) (input : List UInt8) (env : Environment) (path : Option String),
      fs.NothingAt (env.configPlace path) →
        (load (FileSystem.host input) env path fs).1 =
          absent (env.configPlace none) (env.configPlace path) := by
  intro h
  let fs : FileSystem := ⟨[(⟨[], ⟨"f", by decide⟩⟩, .file [])], [], by decide⟩
  let env : Environment := ⟨"/", "/", []⟩
  have hnothing : fs.NothingAt (env.configPlace (some "f/c")) :=
    nothingAt_of_notDirectory (by decide) (by decide)
  have hload : (load (FileSystem.host []) env (some "f/c") fs).1 =
      .error (.unusable "/f/c" (.system (failed .notDirectory "open" "/f/c"))) := by
    rw [load_host]
    decide +kernel
  have habsent : absent (env.configPlace none) (env.configPlace (some "f/c")) =
      .error (.notFound "/f/c") := by decide +kernel
  have hwanted := h fs [] env (some "f/c") hnothing
  rw [hload, habsent] at hwanted
  cases hwanted

end Config

end PathSieve
