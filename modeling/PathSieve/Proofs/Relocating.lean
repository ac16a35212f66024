import PathSieve.Proofs.Canonical
import PathSieve.Proofs.Levels
import PathSieve.Proofs.Tilde

/-!
# Paths that are located again

What a user's path means is a path, and can be taken for a user's path in its turn. A canonical path
means itself wherever that is done (`locate_of_canonical`), so nothing changes however often it is
done (`Environment.relocate_of_canonical`). In particular it makes no difference to whether a path
is the one where the configuration is looked for.

What a path means is canonical wherever resolving gives what it is documented to give
(`Environment.AsDocumented`). In a working directory that is written canonically, as the system
writes each of them, that is so for every path; in any other, for every path that says more than
that the working directory is meant (`MeansHere`). Nothing is claimed of the paths that say only
that, in a directory that the system does not give: they get it as it is written.
-/

namespace PathSieve

namespace Path

open Text (pieces sep_not_mem_pieces join_pieces)

variable {home cwd path : String}

/-! ## Canonical paths -/

/-- A path is canonical if it is `/`, or begins with a slash and has only plain parts behind it:
none is empty, as it would be behind a slash at the end, and none is a dot segment. -/
theorem canonical_iff :
    Canonical path ↔ path = "/" ∨
      isAbsolute path.toList = true ∧ ∀ p ∈ (pieces '/' path.toList).tail, IsPlain p := by
  constructor
  · rintro ⟨names, rfl⟩
    cases names with
    | nil => exact .inl rfl
    | cons name names =>
      refine .inr ⟨isAbsolute_ofNames _, ?_⟩
      rw [ofNames, if_neg (List.cons_ne_nil name names), String.toList_ofList, pieces_belowRoot]
      exact fun p hp => isPlain_of_mem_map_chars hp
  · rintro (rfl | ⟨habsolute, hplain⟩)
    · exact ⟨[], rfl⟩
    · obtain ⟨cs, hcs⟩ := List.head?_eq_some_iff.mp (eq_of_beq habsolute)
      have htail : (pieces '/' ('/' :: cs)).tail = pieces '/' cs := rfl
      rw [hcs, htail] at hplain
      obtain ⟨names, hnames⟩ := exists_names fun p hp =>
        ⟨hplain p hp, sep_not_mem_pieces '/' cs p hp⟩
      refine ⟨names, ?_⟩
      rw [← ofParts_map_chars, ← hnames, ofParts, join_pieces, ← String.ofList_toList (s := path),
        hcs]
      rfl

instance (part : List Char) : Decidable (IsPlain part) := by
  unfold IsPlain
  infer_instance

instance (path : String) : Decidable (Canonical path) := decidable_of_iff' _ canonical_iff

/-! ## Absolute paths are located -/

/-- An absolute path has no tilde and needs no working directory. -/
theorem locate_of_isAbsolute (h : isAbsolute path.toList = true) :
    locate home cwd path = String.ofList (ofParts true (placeOf path)) := by
  obtain ⟨cs, hcs⟩ := List.head?_eq_some_iff.mp (eq_of_beq h)
  have hexpand : expandHome home path.toList = path.toList :=
    expandHome_of_plain (by simp [hcs])
  have hhere : ¬ ((path.toList = [] ∨ path.toList = dot) ∧ isAbsolute cwd.toList = true) := by
    simp [hcs, dot]
  rw [locate, hexpand, resolveChars, if_neg hhere]
  simp [h, placeOf]

theorem canonical_locate_of_isAbsolute (h : isAbsolute path.toList = true) :
    Canonical (locate home cwd path) := by
  rw [locate_of_isAbsolute h]
  exact canonical_ofParts _

/-- A canonical path means itself. -/
theorem locate_of_canonical (h : Canonical path) : locate home cwd path = path := by
  rw [locate_of_isAbsolute h.isAbsolute]
  obtain ⟨names, rfl⟩ := h
  rw [placeOf_ofNames, ofParts_map_chars]

/-! ## The working directory -/

/-- Whether a path says nothing but that the working directory is meant. -/
def MeansHere (home path : String) : Prop :=
  expandHome home path.toList = [] ∨ expandHome home path.toList = dot

instance (home path : String) : Decidable (MeansHere home path) := by
  unfold MeansHere
  infer_instance

theorem isAbsolute_resolveChars (habsolute : isAbsolute cwd.toList = true) (cs : List Char) :
    isAbsolute (resolveChars cwd.toList cs) = true := by
  by_cases hhere : cs = [] ∨ cs = dot
  · rwa [resolveChars_here habsolute hhere]
  · have hcanonical := canonical_resolveChars habsolute fun h => absurd h hhere
    simpa using hcanonical.isAbsolute

/-- A name joined to a path does not mean the directory that the path is seen from. -/
theorem join_ne_here (path : String) (name : Name) :
    ¬ ((join path name.val).toList = [] ∨ (join path name.val).toList = dot) := by
  have hlevel := level_join_name path name
  rintro (h | h)
  · rw [level, h] at hlevel
    cases hlevel
  · rw [level, h] at hlevel
    cases hlevel

end Path

namespace Environment

open PathSieve.Path (Canonical MeansHere isAbsolute)

variable {env : Environment} {path : String}

/-- Whether what a path means is what resolving is documented to give for it. -/
def AsDocumented (env : Environment) (path : String) : Prop :=
  env.locate path =
    String.ofList (Path.resolved env.cwd.toList (Path.expandHome env.home path.toList))

theorem asDocumented_iff (habsolute : isAbsolute env.cwd.toList = true) :
    env.AsDocumented path ↔ (MeansHere env.home path → Canonical env.cwd) := by
  rw [AsDocumented, locate, Path.locate, String.ofList_inj]
  exact Path.resolveChars_eq_resolved_iff habsolute

theorem canonical_locate_iff (habsolute : isAbsolute env.cwd.toList = true) :
    Canonical (env.locate path) ↔ env.AsDocumented path := by
  constructor
  · intro h
    refine (asDocumented_iff habsolute).mpr fun hhere => ?_
    rwa [locate, Path.locate, Path.resolveChars_here habsolute hhere, String.ofList_toList] at h
  · intro h
    rw [h]
    exact Path.canonical_resolved _ _

theorem isAbsolute_locate (habsolute : isAbsolute env.cwd.toList = true) (path : String) :
    isAbsolute (env.locate path).toList = true := by
  rw [locate, Path.locate, String.toList_ofList]
  exact Path.isAbsolute_resolveChars habsolute _

/-! ## Again and again -/

/-- A path that is located in one environment after the other. -/
def relocate (envs : List Environment) (path : String) : String :=
  envs.foldl (fun path env => env.locate path) path

theorem relocate_of_canonical (h : Canonical path) (envs : List Environment) :
    relocate envs path = path := by
  induction envs with
  | nil => rfl
  | cons env envs ih =>
    have hstep : env.locate path = path := Path.locate_of_canonical h
    rw [relocate, List.foldl_cons, hstep]
    exact ih

/-- Only what is canonical stays what it is. -/
theorem relocate_locate_iff (habsolute : isAbsolute env.cwd.toList = true) :
    (∀ later, relocate later (env.locate path) = env.locate path) ↔ env.AsDocumented path := by
  rw [← canonical_locate_iff habsolute]
  constructor
  · intro h
    rw [← h [env]]
    exact Path.canonical_locate_of_isAbsolute (isAbsolute_locate habsolute path)
  · exact relocate_of_canonical

/-! ## The place of the configuration -/

theorem isAbsolute_defaultConfig (habsolute : isAbsolute env.cwd.toList = true) :
    isAbsolute env.defaultConfig.toList = true := by
  unfold defaultConfig
  split
  · exact isAbsolute_locate habsolute _
  · rw [Path.resolve, String.toList_ofList]
    exact Path.isAbsolute_resolveChars habsolute _

/-- The place of the configuration is canonical unless a variable gives it by a path for which
resolving does not give what it should: the usual place has a name of its own. -/
theorem canonical_defaultConfig_iff (habsolute : isAbsolute env.cwd.toList = true) :
    Canonical env.defaultConfig ↔
      ∀ path, env.value? "GLOB_SELECT_CONFIG" = some path → env.AsDocumented path := by
  unfold defaultConfig
  cases env.value? "GLOB_SELECT_CONFIG" with
  | some path => simpa using canonical_locate_iff habsolute
  | none =>
    have hname := Path.join_ne_here (env.ownDirectory "XDG_CONFIG_HOME" ".config")
      ⟨"config.json", by decide⟩
    exact iff_of_true (Path.canonical_resolveChars habsolute fun h => absurd h hname) nofun

/-- However often and wherever the place of the configuration is located, once is enough. -/
theorem relocate_defaultConfig (habsolute : isAbsolute env.cwd.toList = true)
    (first : Environment) (later : List Environment) :
    relocate (first :: later) env.defaultConfig = env.locate env.defaultConfig := by
  have hdefault := isAbsolute_defaultConfig habsolute
  have hfirst : first.locate env.defaultConfig = env.locate env.defaultConfig :=
    (Path.locate_of_isAbsolute hdefault).trans (Path.locate_of_isAbsolute hdefault).symm
  rw [relocate, List.foldl_cons, hfirst]
  exact relocate_of_canonical (Path.canonical_locate_of_isAbsolute hdefault) later

/-! ## What is located -/

/-- **Locating.** In a working directory as the system gives it, which is a canonical one, every
path is resolved as it is documented, and the place of the configuration is canonical. In any other
absolute working directory every path is that says more than that the directory itself is meant.
Always what a path means is absolute. It is canonical, and stays what it is however often and
wherever it is located again, exactly where resolving gives what is documented; and then it is the
place of the configuration or not, however often both are located again. -/
theorem locate_settles (env : Environment) (habsolute : isAbsolute env.cwd.toList = true) :
    (Canonical env.cwd → Canonical env.defaultConfig ∧ ∀ path, env.AsDocumented path) ∧
    (∀ path, ¬ MeansHere env.home path → env.AsDocumented path) ∧
    ∀ path,
      isAbsolute (env.locate path).toList = true ∧
      (Canonical (env.locate path) ↔ env.AsDocumented path) ∧
      ((∀ later, relocate later (env.locate path) = env.locate path) ↔ env.AsDocumented path) ∧
      (env.AsDocumented path → ∀ first later later',
        relocate later (env.locate path) = relocate (first :: later') env.defaultConfig ↔
          env.locate path = env.locate env.defaultConfig) := by
  have hall (hcwd : Canonical env.cwd) (path : String) : env.AsDocumented path :=
    (asDocumented_iff habsolute).mpr fun _ => hcwd
  refine ⟨fun hcwd => ⟨?_, hall hcwd⟩, fun path h => ?_, fun path => ?_⟩
  · exact (canonical_defaultConfig_iff habsolute).mpr fun path _ => hall hcwd path
  · exact (asDocumented_iff habsolute).mpr fun hhere => absurd hhere h
  · refine ⟨isAbsolute_locate habsolute path, canonical_locate_iff habsolute,
      relocate_locate_iff habsolute, fun h first later later' => ?_⟩
    rw [(relocate_locate_iff habsolute).mpr h, relocate_defaultConfig habsolute]

/-- A dot in a canonical working directory, which is where the configuration is looked for; and in
one that is written otherwise a path that comes back to it. -/
theorem locate_settles_dots :
    let env : Environment := ⟨"/h", "/b", [("GLOB_SELECT_CONFIG", "~/..//b")]⟩
    let crooked : Environment := ⟨"/h", "/a/../b/", []⟩
    isAbsolute env.cwd.toList = true ∧ Canonical env.cwd ∧ MeansHere env.home "." ∧
      env.locate "." = "/b" ∧ (∀ later, relocate later (env.locate ".") = env.locate ".") ∧
      (∀ first later later',
        relocate later (env.locate ".") = relocate (first :: later') env.defaultConfig) ∧
      isAbsolute crooked.cwd.toList = true ∧ ¬ MeansHere crooked.home "c/.." ∧
      crooked.locate "c/.." = "/b" ∧ Canonical (crooked.locate "c/..") := by
  intro env crooked
  have habsolute : isAbsolute env.cwd.toList = true := by decide
  have hcwd : Canonical env.cwd := by decide
  have hsame : env.locate "." = env.locate env.defaultConfig := by decide
  obtain ⟨hgiven, -, hdot⟩ := locate_settles env habsolute
  obtain ⟨-, -, hstays, hconfig⟩ := hdot "."
  have hdocumented : env.AsDocumented "." := (hgiven hcwd).2 "."
  have hcrooked : isAbsolute crooked.cwd.toList = true := by decide
  have hmore : ¬ MeansHere crooked.home "c/.." := by decide
  obtain ⟨-, hother, hback⟩ := locate_settles crooked hcrooked
  obtain ⟨-, hcanonical, -, -⟩ := hback "c/.."
  refine ⟨habsolute, hcwd, by decide, by decide, hstays.mpr hdocumented,
    fun first later later' => (hconfig hdocumented first later later').mpr hsame, hcrooked, hmore,
    by decide, hcanonical.mpr (hother "c/.." hmore)⟩

end Environment

end PathSieve
