import PathSieve.Proofs.Creating
import PathSieve.Proofs.Parents

/-!
# When a configuration is refused

Without `force`, creating a configuration where something is already is refused with an error that
says so. That error is right wherever the directory above the place is there, or can be made: then
the exclusive write decides, and it fails with "exists" exactly if something is at the place itself
(`FileSystem.Occupied`), be it a file, a directory or a link.

But what stands in the place of the directory above is also something that exists, and making that
directory fails in the same way. Creating does not tell the two calls apart, and says that there is
a configuration where nothing can be (`Config.create_refuses`).
-/

namespace PathSieve

namespace FileSystem

open PathSieve.Path (ofNames)

variable {fs : FileSystem} {names : List Name} {name : Name} {content : List UInt8} {path : String}
variable {e : SystemError}

/-- Whether something is at a path itself, a link included. -/
def Occupied (fs : FileSystem) (path : String) : Prop :=
  ∃ here, fs.resolve .entry path = .ok (.existing here)

/-- A canonical path leads to the same place for a new file as for the entry itself. -/
theorem resolve_newFile_eq_entry (fs : FileSystem) (names : List Name) :
    fs.resolve .newFile (ofNames names) = fs.resolve .entry (ofNames names) := by
  cases names using List.reverseRecOn with
  | nil => rw [resolve_root, resolve_root]
  | append_singleton names name =>
    rcases resolve_cases fs names name with
      ⟨haccepted, there, hleads, hthere⟩ | ⟨errno, -, -, hresolve⟩
    · rw [resolve_of_leads haccepted hleads hthere rfl,
        resolve_of_leads haccepted hleads hthere rfl]
    · rw [hresolve, hresolve]

/-- The directory above what exists is there. -/
theorem Occupied.stat_above (h : fs.Occupied (ofNames names)) :
    fs.stat (ofNames names.dropLast) = .ok .directory := by
  cases names using List.reverseRecOn with
  | nil => exact stat_root fs
  | append_singleton names name =>
    obtain ⟨here, hentry⟩ := h
    rw [List.dropLast_concat]
    rcases resolve_cases fs names name with ⟨haccepted, hdirectory⟩ | ⟨errno, -, -, hresolve⟩
    · exact stat_eq_directory_iff.mpr ⟨accepted_of_concat haccepted, hdirectory⟩
    · rw [hresolve] at hentry
      cases hentry

/-- Nothing is in a directory that has just been made. -/
theorem Bare.not_occupied (h : fs.Bare names) (name : Name) :
    ¬ fs.Occupied (ofNames (names ++ [name])) :=
  fun ⟨here, hentry⟩ => h.resolve_ne_existing rfl name here hentry

/-- An exclusive write says that something exists exactly if something does. -/
theorem store_eq_alreadyExists_iff :
    (∃ e, fs.store false (ofNames names) content = .error e ∧ e.errno = .alreadyExists) ↔
      fs.Occupied (ofNames names) := by
  have hnever : fs.resolve .entry (ofNames names) ≠ .error .alreadyExists :=
    resolve_ne_alreadyExists rfl
  simp only [store, Bool.false_eq_true, if_false, if_true, resolve_newFile_eq_entry, Occupied]
  cases hentry : fs.resolve .entry (ofNames names) with
  | error errno =>
    rw [hentry] at hnever
    have hne : errno ≠ .alreadyExists := fun heq => hnever (by rw [heq])
    simp [failed, hne]
  | ok reached =>
    cases reached with
    | vacant slot => simp
    | existing here => simp [failed]

end FileSystem

namespace Config

open FileSystem
open PathSieve.Path (ofNames)

variable {fs fs₁ : FileSystem} {env : Environment} {path : String} {e : SystemError}

/-- `Raises fs place e fs₁`: writing the sample to a place comes to a call that fails with `e`, in the
file system `fs₁`. -/
def Raises (fs : FileSystem) (place : String) (e : SystemError) (fs₁ : FileSystem) : Prop :=
  fs.makeDirectories (Path.parent place) = (.error e, fs₁) ∨
    fs.makeDirectories (Path.parent place) = (.ok (), fs₁) ∧
      fs₁.store false place sampleBytes = .error e

variable {place : String}

theorem raises_of_error (h : fs.makeDirectories (Path.parent place) = (.error e, fs₁))
    {e' : SystemError} {fs₂ : FileSystem} : Raises fs place e' fs₂ ↔ e = e' ∧ fs₁ = fs₂ := by
  simp [Raises, h]

theorem raises_of_ok (h : fs.makeDirectories (Path.parent place) = (.ok (), fs₁))
    {fs₂ : FileSystem} :
    Raises fs place e fs₂ ↔ fs₁ = fs₂ ∧ fs₁.store false place sampleBytes = .error e := by
  rw [Raises, h]
  constructor
  · rintro (heq | ⟨heq, hstore⟩)
    · cases heq
    · obtain ⟨-, rfl⟩ := Prod.mk.inj heq
      exact ⟨rfl, hstore⟩
  · rintro ⟨rfl, hstore⟩
    exact .inr ⟨rfl, hstore⟩

/-- Creating fails exactly if one of its calls does, and passes the error of that call on. -/
theorem create_eq_error_iff {input : List UInt8} {err : CreateError} :
    create (FileSystem.host input) env path false fs = (.error err, fs₁) ↔
      ∃ e, Raises fs (env.locate path) e fs₁ ∧ err = createError (env.locate path) false e := by
  have hpair {r r' : Except CreateError Unit} {s s' : FileSystem} :
      @Eq (Id (Except CreateError Unit × FileSystem)) (r, s) (r', s') ↔ r = r' ∧ s = s' :=
    Prod.mk_inj
  cases hmake : fs.makeDirectories (Path.parent (env.locate path)) with
  | mk made fs₂ =>
    cases made with
    | error e =>
      rw [create_of_makeDirectories_error hmake, hpair]
      simp [raises_of_error hmake, eq_comm, and_comm]
    | ok _ =>
      simp only [create_of_makeDirectories hmake, raises_of_ok hmake]
      cases fs₂.store false (env.locate path) sampleBytes with
      | ok fs₃ => simp [hpair]
      | error e =>
        dsimp only
        rw [hpair]
        simp [eq_comm, and_comm]

/-- A call says that something exists if something is at the place, or if something else than a
directory is above it. -/
theorem raises_alreadyExists_iff (hgrounded : fs.Grounded) (names : List Name) :
    (∃ e fs₁, Raises fs (ofNames names) e fs₁ ∧ e.errno = .alreadyExists) ↔
      fs.Occupied (ofNames names) ∨
        ∃ node, node ≠ .directory ∧ fs.stat (Path.parent (ofNames names)) = .ok node := by
  have hparent := Path.parent_ofNames names
  have hneither (hnothing : ∀ node, fs.stat (ofNames names.dropLast) ≠ .ok node) :
      ¬ (fs.Occupied (ofNames names) ∨
        ∃ node, node ≠ .directory ∧ fs.stat (Path.parent (ofNames names)) = .ok node) := by
    rintro (hoccupied | ⟨node, -, hstat⟩)
    · exact hnothing _ hoccupied.stat_above
    · exact hnothing node (hparent ▸ hstat)
  cases hmake : fs.makeDirectories (Path.parent (ofNames names)) with
  | mk answer fs₁ =>
    -- what the error says depends on how making the directory above ends
    cases made_makeDirectories hgrounded (hparent ▸ hmake) with
    | there hstat =>
      have hexclusive : (∃ e, fs.store false (ofNames names) sampleBytes = .error e ∧
          e.errno = .alreadyExists) ↔ fs.Occupied (ofNames names) := store_eq_alreadyExists_iff
      have hdirectory : ¬ ∃ node, node ≠ .directory ∧
          fs.stat (Path.parent (ofNames names)) = .ok node := by
        rintro ⟨node, hnode, hother⟩
        rw [hparent, hstat] at hother
        exact hnode (Except.ok.inj hother).symm
      rw [or_iff_left hdirectory, ← hexclusive]
      simp only [raises_of_ok hmake]
      constructor
      · rintro ⟨e, _, ⟨-, hstore⟩, hexists⟩
        exact ⟨e, hstore, hexists⟩
      · rintro ⟨e, hstore, hexists⟩
        exact ⟨e, fs, ⟨rfl, hstore⟩, hexists⟩
    | made hnothing hbare =>
      refine iff_of_false ?_ (hneither hnothing)
      rintro ⟨e, fs₂, hraises, hexists⟩
      obtain ⟨rfl, hstore⟩ := (raises_of_ok hmake).mp hraises
      have hoccupied := store_eq_alreadyExists_iff.mp ⟨e, hstore, hexists⟩
      cases names using List.reverseRecOn with
      | nil => exact hnothing _ (stat_root fs)
      | append_singleton names name =>
        rw [List.dropLast_concat] at hbare
        exact hbare.not_occupied name hoccupied
    | inPlace hnode hstat =>
      rw [← hparent] at hstat
      exact iff_of_true ⟨_, _, (raises_of_error hmake).mpr ⟨rfl, rfl⟩, rfl⟩ (.inr ⟨_, hnode, hstat⟩)
    | failed hnothing herrno =>
      refine iff_of_false ?_ (hneither hnothing)
      rintro ⟨e, fs₂, hraises, hexists⟩
      obtain ⟨rfl, -⟩ := (raises_of_error hmake).mp hraises
      exact herrno hexists

theorem createError_of_alreadyExists (h : e.errno = .alreadyExists) (place : String) :
    createError place false e = .alreadyExists place e := if_pos ⟨h, rfl⟩

theorem createError_of_ne (h : e.errno ≠ .alreadyExists) (place : String) :
    createError place false e = .failed place e := if_neg fun hexists => h hexists.1

/-- **Refusal.** In a file system where everything stands in a directory, creating without `force`
says that there is a configuration exactly if something is at its place, or if what is above its
place is something else than a directory; and there is nothing at the place in the second case. All
errors are those of the call that failed, and all but these are told as a failure to create the
file. -/
theorem create_refuses (hgrounded : fs.Grounded) (hcwd : Path.Canonical env.cwd)
    (input : List UInt8) (path : String) :
    ∃ answer fs₁, create (FileSystem.host input) env path false fs = (answer, fs₁) ∧
      ((∃ e, answer = .error (.alreadyExists (env.locate path) e)) ↔
        fs.Occupied (env.locate path) ∨
          ∃ node, node ≠ .directory ∧ fs.stat (Path.parent (env.locate path)) = .ok node) ∧
      ((∃ node, node ≠ .directory ∧ fs.stat (Path.parent (env.locate path)) = .ok node) →
        ¬ fs.Occupied (env.locate path)) ∧
      (∀ err, answer = .error err → ∃ e, Raises fs (env.locate path) e fs₁ ∧
        (err = .alreadyExists (env.locate path) e ∨ err = .failed (env.locate path) e)) := by
  obtain ⟨names, hplace⟩ := Environment.canonical_locate hcwd path
  cases hcreate : create (FileSystem.host input) env path false fs with
  | mk answer fs₁ =>
    refine ⟨answer, fs₁, rfl, ?_, ?_, ?_⟩
    · rw [hplace, ← raises_alreadyExists_iff hgrounded names, ← hplace]
      constructor
      · rintro ⟨e, rfl⟩
        obtain ⟨e', hraises, herr⟩ := create_eq_error_iff.mp hcreate
        refine ⟨e', fs₁, hraises, ?_⟩
        by_contra hne
        rw [createError_of_ne hne] at herr
        cases herr
      · rintro ⟨e, fs₂, hraises, hexists⟩
        have herror : create (FileSystem.host input) env path false fs =
            (.error (createError (env.locate path) false e), fs₂) :=
          create_eq_error_iff.mpr ⟨e, hraises, rfl⟩
        rw [hcreate, createError_of_alreadyExists hexists] at herror
        exact ⟨e, (Prod.mk.inj herror).1⟩
    · rintro ⟨node, hnode, hstat⟩ hoccupied
      rw [hplace] at hoccupied
      rw [hplace, Path.parent_ofNames, hoccupied.stat_above] at hstat
      exact hnode (Except.ok.inj hstat).symm
    · rintro err rfl
      obtain ⟨e, hraises, rfl⟩ := create_eq_error_iff.mp hcreate
      refine ⟨e, hraises, ?_⟩
      by_cases hexists : e.errno = .alreadyExists
      · exact .inl (createError_of_alreadyExists hexists _)
      · exact .inr (createError_of_ne hexists _)

/-- A file and a link that leads nowhere, in the root. -/
def fileAndLink : FileSystem :=
  (FileSystem.empty.put ⟨[], ⟨"f", by decide⟩⟩ (.file [])).put ⟨[], ⟨"l", by decide⟩⟩ (.link "gone")

theorem grounded_fileAndLink : fileAndLink.Grounded :=
  (grounded_empty.put_vacant rfl rfl).put_vacant rfl (by decide)

theorem not_occupied_behind_file : ¬ fileAndLink.Occupied "/f/c" := by
  rintro ⟨here, hentry⟩
  have herror : fileAndLink.resolve .entry "/f/c" = .error .notDirectory := by decide
  rw [herror] at hentry
  cases hentry

/-- Over the link, behind the file, and behind the link. -/
theorem create_refuses_fileAndLink :
    ∃ env : Environment, fileAndLink.Grounded ∧ Path.Canonical env.cwd ∧
      (fileAndLink.Occupied "/l" ∧ ∃ e fs₁, create (FileSystem.host []) env "l" false fileAndLink =
        (.error (.alreadyExists "/l" e), fs₁)) ∧
      (¬ fileAndLink.Occupied "/f/c" ∧
        ∃ e fs₁, create (FileSystem.host []) env "f/c" false fileAndLink =
          (.error (.alreadyExists "/f/c" e), fs₁)) ∧
      ∃ e fs₁, create (FileSystem.host []) env "l/c" false fileAndLink =
        (.error (.failed "/l/c" e), fs₁) ∧ Raises fileAndLink "/l/c" e fs₁ := by
  let env : Environment := ⟨"/h", "/", []⟩
  have hcwd : Path.Canonical env.cwd := ⟨[], by decide⟩
  have hlink : env.locate "l" = "/l" := by decide
  have hfile : env.locate "f/c" = "/f/c" := by decide
  have hbehind : env.locate "l/c" = "/l/c" := by decide
  refine ⟨env, grounded_fileAndLink, hcwd, ?_, ?_, ?_⟩
  · have hoccupied : fileAndLink.Occupied "/l" := ⟨[⟨"l", by decide⟩], by decide⟩
    obtain ⟨answer, fs₁, hcreate, hiff, -, -⟩ := create_refuses grounded_fileAndLink hcwd [] "l"
    rw [hlink] at hiff
    obtain ⟨e, rfl⟩ := hiff.mpr (.inl hoccupied)
    exact ⟨hoccupied, e, fs₁, hcreate⟩
  · have habove : ∃ node, node ≠ .directory ∧ fileAndLink.stat (Path.parent "/f/c") = .ok node :=
      ⟨.file [], nofun, by decide⟩
    obtain ⟨answer, fs₁, hcreate, hiff, hnot, -⟩ :=
      create_refuses grounded_fileAndLink hcwd [] "f/c"
    rw [hfile] at hiff hnot
    obtain ⟨e, rfl⟩ := hiff.mpr (.inr habove)
    exact ⟨hnot habove, e, fs₁, hcreate⟩
  · obtain ⟨answer, fs₁, hcreate, -, -, herror⟩ := create_refuses grounded_fileAndLink hcwd [] "l/c"
    have hanswer : (create (FileSystem.host []) env "l/c" false fileAndLink).1 =
        .error (.failed "/l/c" (failed .noEntry "mkdir" "/l")) := by decide +kernel
    rw [hcreate] at hanswer
    obtain rfl : answer = _ := hanswer
    rw [hbehind] at herror
    obtain ⟨e, hraises, herr | herr⟩ := herror _ rfl
    · cases herr
    · cases herr
      exact ⟨_, fs₁, hcreate, hraises⟩

/-- Behind a file there is nothing, and creating says that there is. -/
theorem not_create_refuses :
    ¬ ∀ (fs : FileSystem) (input : List UInt8) (env : Environment) (path : String),
      fs.Grounded → Path.Canonical env.cwd →
        ((∃ e, (create (FileSystem.host input) env path false fs).1 =
          .error (.alreadyExists (env.locate path) e)) ↔ fs.Occupied (env.locate path)) := by
  intro h
  let env : Environment := ⟨"/h", "/", []⟩
  have hplace : env.locate "f/c" = "/f/c" := by decide
  have hanswer : (create (FileSystem.host []) env "f/c" false fileAndLink).1 =
      .error (.alreadyExists "/f/c" (failed .alreadyExists "mkdir" "/f")) := by decide +kernel
  have hiff := h fileAndLink [] env "f/c" grounded_fileAndLink ⟨[], by decide⟩
  rw [hanswer, hplace] at hiff
  exact not_occupied_behind_file (hiff.mp ⟨_, rfl⟩)

end Config

end PathSieve
