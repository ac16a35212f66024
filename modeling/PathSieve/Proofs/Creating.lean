import PathSieve.Proofs.Making

/-!
# Creating a configuration

Creating a configuration makes the directories above its place and then the file. Whatever happens
on the way, no file but the one that the place leads to is changed, and without `force` no file that
was there is changed at all. If all went well, the sample is what is loaded from the same path
(`create_changes`).
-/

namespace PathSieve.Config

open FileSystem

variable {fs fs₁ fs₂ : FileSystem} {input : List UInt8} {env : Environment} {path : String}
variable {force : Bool} {e : SystemError}

/-- The bytes of the sample file. -/
def sampleBytes : List UInt8 := Text.Utf8.encode sampleText.toList

/-- The sample file is read as the sample configuration. -/
theorem ofBytes_sampleBytes : ofBytes sampleBytes = .ok sample := by
  have htext : ofText sampleText = .ok sample := by decide +kernel
  rw [ofBytes, sampleBytes, Text.Utf8.decode_encode, String.ofList_toList, htext]

/-! ## The steps of creating -/

/-- A program that goes on from a value, in the state that it came to. -/
theorem bind_of_run {σ α β : Type} {x : StateM σ α} {a : α} {s s' : σ} (h : x s = (a, s'))
    (f : α → StateM σ β) : (x >>= f) s = f a s' :=
  congrArg (fun result : α × σ => f result.1 result.2) h

theorem create_of_makeDirectories_error
    (h : fs.makeDirectories (Path.parent (env.locate path)) = (.error e, fs₁)) :
    create (FileSystem.host input) env path force fs =
      (.error (createError (env.locate path) force e), fs₁) := by
  have hmake : (FileSystem.host input).makeDirectories (Path.parent (env.locate path)) fs =
      (.error e, fs₁) := by simpa only [host] using h
  rw [create, bind_of_run hmake]
  rfl

/-- Where the directories are there, writing decides. -/
theorem create_of_makeDirectories
    (h : fs.makeDirectories (Path.parent (env.locate path)) = (.ok (), fs₁)) :
    create (FileSystem.host input) env path force fs =
      match fs₁.store force (env.locate path) sampleBytes with
      | .ok fs₂ => (.ok (), fs₂)
      | .error e => (.error (createError (env.locate path) force e), fs₁) := by
  have hmake : (FileSystem.host input).makeDirectories (Path.parent (env.locate path)) fs =
      (.ok (), fs₁) := by simpa only [host] using h
  rw [create, bind_of_run hmake]
  cases hstore : fs₁.store force (env.locate path) sampleBytes with
  | ok fs₂ =>
    have hwrite : (FileSystem.host input).store force (env.locate path) sampleBytes fs₁ =
        (.ok (), fs₂) := by simp only [host, hstore]
    exact bind_of_run hwrite _
  | error e =>
    have hwrite : (FileSystem.host input).store force (env.locate path) sampleBytes fs₁ =
        (.error e, fs₁) := by simp only [host, hstore]
    exact bind_of_run hwrite _

/-! ## What is changed -/

/-- Loading gives the sample where its bytes are. -/
theorem load_sample {there : Location}
    (hresolve : fs.resolve .target (env.locate path) = .ok (.existing there))
    (hnode : fs.node? there = some (.file sampleBytes)) :
    load (FileSystem.host input) env (some path) fs = (.ok ⟨sample, none⟩, fs) := by
  have hread : fs.contentOf (env.configPlace (some path)) = .ok sampleBytes :=
    contentOf_of_resolve hresolve hnode
  have hcontent : ofText (String.ofList (Text.Utf8.decode sampleBytes)) = .ok sample :=
    ofBytes_sampleBytes
  rw [load_host, hread]
  simp only [ofContent, hcontent]

/-- **Creating.** If creating succeeds, loading from the same path gives the sample, and every other
file than the one that the path leads to is as it was. If it fails, every file is as it was. Without
`force`, every file that was there has its content either way. -/
theorem create_changes (fs : FileSystem) (input : List UInt8) (env : Environment) (path : String)
    (force : Bool) :
    ∃ answer fs', create (FileSystem.host input) env path force fs = (answer, fs') ∧
      (answer = .ok () →
        load (FileSystem.host input) env (some path) fs' = (.ok ⟨sample, none⟩, fs') ∧
        ∃ there, fs'.resolve .target (env.locate path) = .ok (.existing there) ∧
          ∀ here content, here ≠ there →
            (fs'.node? here = some (.file content) ↔ fs.node? here = some (.file content))) ∧
      (∀ e, answer = .error e → ∀ here content,
        fs'.node? here = some (.file content) ↔ fs.node? here = some (.file content)) ∧
      (force = false → ∀ here content,
        fs.node? here = some (.file content) → fs'.node? here = some (.file content)) := by
  have hgrows := grows_makeDirectories (Path.parent (env.locate path)) fs
  cases hmake : fs.makeDirectories (Path.parent (env.locate path)) with
  | mk made fs₁ =>
    rw [hmake] at hgrows
    cases made with
    | error e =>
      exact ⟨_, fs₁, create_of_makeDirectories_error hmake, nofun,
        fun _ _ here content => hgrows.file_iff, fun _ here content => hgrows.of_some⟩
    | ok _ =>
      rw [create_of_makeDirectories hmake]
      cases hstore : fs₁.store force (env.locate path) sampleBytes with
      | error e =>
        exact ⟨_, fs₁, rfl, nofun,
          fun _ _ here content => hgrows.file_iff, fun _ here content => hgrows.of_some⟩
      | ok fs₂ =>
        obtain ⟨there, hresolve, hfile, hothers, hnone⟩ := exists_place_of_store hstore
        refine ⟨_, fs₂, rfl, fun _ => ⟨load_sample hresolve hfile, there, hresolve, ?_⟩, nofun, ?_⟩
        · intro here content hhere
          rw [hothers here hhere]
          exact hgrows.file_iff
        · intro hforce here content hheld
          have hheld₁ := hgrows.of_some hheld
          have hhere : here ≠ there := by
            rintro rfl
            exact absurd ((hnone hforce).symm.trans hheld₁) nofun
          rwa [hothers here hhere]

/-- Over a link to a file, with `force` and without, and behind a file. -/
theorem create_changes_link :
    ∃ (fs : FileSystem) (env : Environment) (file other : Location) (old : List UInt8),
      fs.node? file = some (.file old) ∧ fs.node? other = some (.file old) ∧
      (∃ fs', create (FileSystem.host []) env "../l" true fs = (.ok (), fs') ∧
        load (FileSystem.host []) env (some "../l") fs' = (.ok ⟨sample, none⟩, fs') ∧
        fs'.node? other = some (.file old)) ∧
      (∃ e fs', create (FileSystem.host []) env "../l" false fs = (.error e, fs') ∧
        fs'.node? file = some (.file old)) ∧
      (∃ e fs', create (FileSystem.host []) env "../l/c" true fs = (.error e, fs') ∧
        fs'.node? file = some (.file old)) := by
  let fs : FileSystem := ⟨[(⟨[], ⟨"d", by decide⟩⟩, .directory),
    (⟨[⟨"d", by decide⟩], ⟨"f", by decide⟩⟩, .file [0]), (⟨[], ⟨"g", by decide⟩⟩, .file [0]),
    (⟨[], ⟨"l", by decide⟩⟩, .link "d/f")], [], by decide⟩
  let env : Environment := ⟨"/h", "/w", []⟩
  let file : Location := [⟨"f", by decide⟩, ⟨"d", by decide⟩]
  let other : Location := [⟨"g", by decide⟩]
  have hfile : fs.node? file = some (.file [0]) := by decide
  have hother : fs.node? other = some (.file [0]) := by decide
  refine ⟨fs, env, file, other, [0], hfile, hother, ?_, ?_, ?_⟩
  · obtain ⟨answer, fs', hrun, hok, -, -⟩ := create_changes fs [] env "../l" true
    have hanswer : (create (FileSystem.host []) env "../l" true fs).1 = .ok () := by decide +kernel
    have hplace : (create (FileSystem.host []) env "../l" true fs).2.resolve .target
        (env.locate "../l") = .ok (.existing file) := by decide +kernel
    rw [hrun] at hanswer hplace
    obtain rfl : answer = _ := hanswer
    obtain ⟨hload, there, hthere, hothers⟩ := hok rfl
    obtain rfl : file = there := Target.existing.inj (Except.ok.inj (hplace.symm.trans hthere))
    exact ⟨fs', hrun, hload, (hothers other [0] (by decide)).mpr hother⟩
  · obtain ⟨answer, fs', hrun, -, -, hkept⟩ := create_changes fs [] env "../l" false
    have hanswer : (create (FileSystem.host []) env "../l" false fs).1 =
        .error (.alreadyExists "/l" (failed .alreadyExists "open" "/l")) := by decide +kernel
    rw [hrun] at hanswer
    obtain rfl : answer = _ := hanswer
    exact ⟨_, fs', hrun, hkept rfl file [0] hfile⟩
  · obtain ⟨answer, fs', hrun, -, herror, -⟩ := create_changes fs [] env "../l/c" true
    have hanswer : (create (FileSystem.host []) env "../l/c" true fs).1 =
        .error (.failed "/l/c" (failed .alreadyExists "mkdir" "/l")) := by decide +kernel
    rw [hrun] at hanswer
    obtain rfl : answer = _ := hanswer
    exact ⟨_, fs', hrun, (herror _ rfl file [0]).mpr hfile⟩

end PathSieve.Config
