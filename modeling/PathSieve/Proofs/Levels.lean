import Mathlib.Data.String.Basic
import PathSieve.Proofs.Climbing
import PathSieve.Proofs.Exclusion
import PathSieve.Walk.Table

/-!
# Searches of finitely many directories end

A walk that goes down by proper names comes to directories that lie deeper and deeper, whatever its
root looks like: the *level* of a directory is how many parts are left of its path once it is
normalized, and joining a name adds one (`level_join_name`). So a listing that has entries for
finitely many directories only, and fails nowhere, is searched in full by any search that may go
deeper than there are such directories (`exists_gives_find`).

The induction is on the depth. What has to be less than the depth is the number of directories with
entries at the level of the one to be listed or further down: if that one has entries, it is itself
counted there, but no more at the level of its entries.

How much deeper a search may go than it needs to does not show. Over any listing, one that does not
give up for want of depth (`Run.GaveUp`) is the same run with more of it, also where it fails at a
directory (`run_find_eq_of_le`).
-/

namespace PathSieve

namespace Path

open Text (head?_pieces pieces pieces_append_sep pieces_join sep_not_mem_pieces
  two_mul_countP_pieces_le)

/-! ## Levels of paths -/

/-- What is left of relative parts are steps up, and plain parts behind them. -/
theorem exists_clean_eq (parts : List (List Char)) :
    ∃ ups plain, clean false parts = List.replicate ups dotDot ++ plain ∧
      ∀ p ∈ plain, IsPlain p := by
  obtain ⟨downs, ups, hdowns, hfold, -⟩ := foldl_step_climbed parts [] 0 (by simp)
  refine ⟨ups, downs.reverse, ?_, fun p hp => hdowns p (List.mem_reverse.mp hp)⟩
  show (parts.foldl (step false) ([] ++ List.replicate 0 dotDot)).reverse = _
  rw [hfold, List.reverse_append, List.reverse_replicate]

theorem clean_replicate (ups : Nat) :
    clean false (List.replicate ups dotDot) = List.replicate ups dotDot := by
  -- each step up goes on top of those there are
  have hfold : ∀ n, (List.replicate ups dotDot).foldl (step false) (List.replicate n dotDot) =
      List.replicate (n + ups) dotDot := by
    induction ups with
    | zero => exact fun n => rfl
    | succ ups ih =>
      intro n
      have hstep : step false (List.replicate n dotDot) dotDot = List.replicate (n + 1) dotDot := by
        cases n <;> rfl
      rw [List.replicate_succ, List.foldl_cons, hstep, ih, Nat.add_assoc, Nat.add_comm 1]
  have h := hfold 0
  rw [Nat.zero_add] at h
  show ((List.replicate ups dotDot).foldl (step false) []).reverse = _
  rw [show ([] : List (List Char)) = List.replicate 0 dotDot from rfl, h, List.reverse_replicate]

/-- What is left of parts is left as it is. -/
theorem clean_clean (rooted : Bool) (parts : List (List Char)) :
    clean rooted (clean rooted parts) = clean rooted parts := by
  cases rooted with
  | true => exact clean_plain true fun p hp => (mem_clean_rooted hp).1
  | false =>
    obtain ⟨ups, plain, h, hplain⟩ := exists_clean_eq parts
    rw [h, clean_append_plain false _ hplain, clean_replicate]

/-- No empty part and no `.` is left of parts. -/
theorem ne_of_mem_clean {rooted : Bool} {parts : List (List Char)} {p : List Char}
    (hp : p ∈ clean rooted parts) : p ≠ [] ∧ p ≠ dot := by
  cases rooted with
  | true =>
    have hplain := (mem_clean_rooted hp).1
    exact ⟨hplain.1, hplain.2.1⟩
  | false =>
    obtain ⟨ups, plain, h, hplain⟩ := exists_clean_eq parts
    rw [h] at hp
    rcases List.mem_append.mp hp with hp | hp
    · rw [List.eq_of_mem_replicate hp]
      decide
    · exact ⟨(hplain p hp).1, (hplain p hp).2.1⟩

/-- A path that leads anywhere and does not end in a slash is normalized to what is left of it. -/
theorem normalizeChars_eq_ofParts {path : List Char} {parts : List (List Char)}
    (hparts : clean (isAbsolute path) (pieces '/' path) = parts) (hne : parts ≠ [])
    (hlast : path.getLast? ≠ some '/') : normalizeChars path = ofParts (isAbsolute path) parts := by
  rw [normalizeChars, hparts]
  simp [hne, hlast]

/-- A name joined to a path stands behind what is left of the path. -/
theorem joinChars_name (path : List Char) (name : Name) :
    joinChars path name.chars =
      ofParts (isAbsolute path) (clean (isAbsolute path) (pieces '/' path) ++ [name.chars]) := by
  have hname : name.chars ≠ [] := (isPlain_chars name).1
  have hplain : ∀ p ∈ [name.chars], IsPlain p := List.forall_mem_singleton.mpr (isPlain_chars name)
  have hlast : name.chars.getLast? ≠ some '/' := fun h =>
    slash_not_mem_chars name (List.mem_of_getLast? h)
  by_cases hpath : path = []
  · subst hpath
    have hrelative : isAbsolute name.chars = false := by
      refine Bool.eq_false_iff.mpr fun h => slash_not_mem_chars name ?_
      exact List.mem_of_mem_head? (by simpa [isAbsolute] using h)
    have hjoin : joinChars [] name.chars = normalizeChars name.chars := by
      simp [joinChars, hname, Text.join]
    rw [hjoin, normalizeChars_eq_ofParts (by rw [pieces_chars, clean_plain _ hplain]) (by simp)
      hlast, hrelative]
    rfl
  · have hjoin : joinChars path name.chars = normalizeChars (path ++ '/' :: name.chars) := by
      simp [joinChars, hpath, hname, Text.join]
    have habs : isAbsolute (path ++ '/' :: name.chars) = isAbsolute path := by
      obtain ⟨c, cs, rfl⟩ := List.exists_cons_of_ne_nil hpath
      rfl
    have hend : (path ++ '/' :: name.chars).getLast? ≠ some '/' := by
      rwa [← List.singleton_append, ← List.append_assoc, List.getLast?_append_of_ne_nil _ hname]
    have hclean : clean (isAbsolute (path ++ '/' :: name.chars))
        (pieces '/' (path ++ '/' :: name.chars)) =
          clean (isAbsolute path) (pieces '/' path) ++ [name.chars] := by
      rw [habs, pieces_append_sep, pieces_chars, clean_append_plain _ _ hplain]
    rw [hjoin, normalizeChars_eq_ofParts hclean (by simp) hend, habs]

/-- A path that is made of parts has just these parts, behind an empty one if it is absolute. -/
theorem pieces_ofParts (rooted : Bool) {parts : List (List Char)} (hne : parts ≠ [])
    (hparts : ∀ p ∈ parts, p ≠ [] ∧ '/' ∉ p) :
    isAbsolute (ofParts rooted parts) = rooted ∧
      pieces '/' (ofParts rooted parts) = (if rooted then [[]] else []) ++ parts := by
  have hpieces := pieces_join hne fun p hp => (hparts p hp).2
  cases rooted with
  | true =>
    refine ⟨rfl, ?_⟩
    show [] :: pieces '/' (Text.join ['/'] parts) = _
    rw [hpieces]
    rfl
  | false =>
    show isAbsolute (Text.join ['/'] parts) = false ∧ pieces '/' (Text.join ['/'] parts) = _
    refine ⟨Bool.eq_false_iff.mpr fun h => ?_, hpieces⟩
    have hhead := (head?_pieces _).mpr (.inr (by simpa [isAbsolute] using h))
    rw [hpieces] at hhead
    exact (hparts [] (List.mem_of_mem_head? hhead)).1 rfl

/-- What is left of parts, with a name behind it, can be made a path of. -/
theorem ne_nil_and_slash_not_mem (path : List Char) (name : Name) {p : List Char}
    (hp : p ∈ clean (isAbsolute path) (pieces '/' path) ++ [name.chars]) : p ≠ [] ∧ '/' ∉ p := by
  rcases List.mem_append.mp hp with hp | hp
  · exact ⟨(ne_of_mem_clean hp).1, sep_not_mem_pieces _ _ p (mem_of_mem_clean hp)⟩
  · rw [List.mem_singleton.mp hp]
    exact ⟨(isPlain_chars name).1, slash_not_mem_chars name⟩

/-- A name joined to a path is a piece behind what is left of the path. -/
theorem pieces_join_name (path : String) (name : Name) :
    isAbsolute (join path name.val).toList = isAbsolute path.toList ∧
      pieces '/' (join path name.val).toList =
        (if isAbsolute path.toList then [[]] else []) ++
          (clean (isAbsolute path.toList) (pieces '/' path.toList) ++ [name.chars]) := by
  have hchars : (join path name.val).toList = ofParts (isAbsolute path.toList)
      (clean (isAbsolute path.toList) (pieces '/' path.toList) ++ [name.chars]) := by
    rw [← joinChars_name]
    exact String.toList_ofList
  rw [hchars]
  exact pieces_ofParts _ (by simp) fun p hp => ne_nil_and_slash_not_mem path.toList name hp

/-- What is left of a path, a name joined to it stands behind. -/
theorem clean_join_name (path : String) (name : Name) :
    clean (isAbsolute (join path name.val).toList) (pieces '/' (join path name.val).toList) =
      clean (isAbsolute path.toList) (pieces '/' path.toList) ++ [name.chars] := by
  have hplain : ∀ p ∈ [name.chars], IsPlain p := List.forall_mem_singleton.mpr (isPlain_chars name)
  obtain ⟨habs, hpieces⟩ := pieces_join_name path name
  have hleft : ∀ front : List (List Char), front = [[]] ∨ front = [] →
      clean (isAbsolute path.toList) (front ++
        (clean (isAbsolute path.toList) (pieces '/' path.toList) ++ [name.chars])) =
      clean (isAbsolute path.toList) (pieces '/' path.toList) ++ [name.chars] := by
    rintro front (rfl | rfl)
    · rw [List.singleton_append, clean_cons_nil, clean_append_plain _ _ hplain, clean_clean]
    · rw [List.nil_append, clean_append_plain _ _ hplain, clean_clean]
  rw [habs, hpieces]
  refine hleft _ ?_
  split
  · exact .inl rfl
  · exact .inr rfl

/-- How many parts are left of a path: its steps down, and those up if it is relative. -/
def level (path : String) : Nat :=
  (clean (isAbsolute path.toList) (pieces '/' path.toList)).length

/-- A name joined to a path leads one level further. -/
theorem level_join_name (path : String) (name : Name) :
    level (join path name.val) = level path + 1 := by
  rw [level, clean_join_name, List.length_append]
  rfl

theorem length_step_le (rooted : Bool) (done : List (List Char)) (part : List Char) :
    (step rooted done part).length ≤ done.length + [part].countP (· ≠ []) := by
  unfold step
  split
  · omega
  · next h =>
    have hsolid : part ≠ [] := fun hnil => h (.inl hnil)
    rw [List.countP_singleton, if_pos (decide_eq_true hsolid)]
    split
    · split
      · split <;> simp
      · split <;> simp
        omega
    · simp

/-- No more is left of parts than there are parts that are not empty. -/
theorem length_clean_le (rooted : Bool) (parts : List (List Char)) :
    (clean rooted parts).length ≤ parts.countP (· ≠ []) := by
  have hfold : ∀ (parts done : List (List Char)),
      (parts.foldl (step rooted) done).length ≤ done.length + parts.countP (· ≠ []) := by
    intro parts
    induction parts with
    | nil => exact fun done => Nat.le_refl _
    | cons part parts ih =>
      intro done
      calc (parts.foldl (step rooted) (step rooted done part)).length
          ≤ (step rooted done part).length + parts.countP (· ≠ []) := ih _
        _ ≤ done.length + [part].countP (· ≠ []) + parts.countP (· ≠ []) :=
          Nat.add_le_add_right (length_step_le rooted done part) _
        _ = done.length + (part :: parts).countP (· ≠ []) := by
          rw [Nat.add_assoc, ← List.countP_append, List.singleton_append]
  rw [clean, List.length_reverse]
  exact Nat.le_trans (hfold parts []) (Nat.le_of_eq (Nat.zero_add _))

/-- Every character takes a byte or more. -/
theorem length_le_utf8ByteSize (s : String) : s.toList.length ≤ s.utf8ByteSize := by
  rw [← String.utf8Len_toList]
  induction s.toList with
  | nil => exact Nat.le_refl _
  | cons c cs ih =>
    have hsize := c.utf8Size_pos
    rw [String.utf8Len_cons, List.length_cons]
    omega

/-- Every level of a path takes two bytes or more of it, the slash between two parts included. -/
theorem two_mul_level_le (path : String) : 2 * level path ≤ path.utf8ByteSize + 1 := by
  calc 2 * level path
      ≤ 2 * (pieces '/' path.toList).countP (· ≠ []) :=
        Nat.mul_le_mul_left 2 (length_clean_le _ _)
    _ ≤ path.toList.length + 1 := two_mul_countP_pieces_le path.toList
    _ ≤ path.utf8ByteSize + 1 := Nat.succ_le_succ (length_le_utf8ByteSize path)

end Path

namespace Walk

variable {α β : Type} {listing : Listing} {sieve : Sieve} {depth : Nat} {dirs : List String}

/-! ## Deep enough searches -/

/-- Gathering gives something if every step does. -/
theorem exists_gives_gather {step : β → Walk (List α)} {xs : List β}
    (h : ∀ x ∈ xs, ∃ given, Gives listing (step x) given) :
    ∃ values, Gives listing (gather step xs) values := by
  induction xs with
  | nil => exact ⟨[], gives_done.mpr rfl⟩
  | cons x xs ih =>
    obtain ⟨first, hfirst⟩ := h x List.mem_cons_self
    obtain ⟨others, hothers⟩ := ih fun y hy => h y (List.mem_cons_of_mem x hy)
    exact ⟨_, gives_gather_cons.mpr ⟨first, others, hfirst, hothers, rfl⟩⟩

/-- Fewer of some values are further than one of them than as far as it. -/
theorem countP_succ_lt {γ : Type} {f : γ → Nat} {xs : List γ} {x : γ} (h : x ∈ xs) :
    (xs.countP fun y => f x + 1 ≤ f y) < xs.countP fun y => f x ≤ f y := by
  have hfilter : (xs.filter fun y => f x + 1 ≤ f y) =
      (xs.filter fun y => f x ≤ f y).filter fun y => f x + 1 ≤ f y := by
    rw [List.filter_filter]
    refine List.filter_congr fun y _ => ?_
    simp only [← Bool.decide_and, decide_eq_decide]
    omega
  rw [List.countP_eq_length_filter, List.countP_eq_length_filter, hfilter,
    List.length_filter_lt_length_iff_exists]
  exact ⟨x, by simp [h], by simp⟩

/-- How many of some directories lie at a level or further down. -/
def countFrom (dirs : List String) (level : Nat) : Nat :=
  dirs.countP fun d => level ≤ Path.level d

/-- A directory is not among those further down. -/
theorem countFrom_succ_lt {dir : String} (h : dir ∈ dirs) :
    countFrom dirs (Path.level dir + 1) < countFrom dirs (Path.level dir) := countP_succ_lt h

/-- A walk below a directory ends well if it may go deeper than there are directories with entries
at the level of that one or further down. -/
theorem exists_gives_descend (hproper : listing.Proper)
    (htotal : ∀ dir, ∃ entries, listing dir = .ok entries)
    (hfinite : ∀ dir entries, listing dir = .ok entries → entries = [] ∨ dir ∈ dirs)
    {dir path : String} (hdepth : countFrom dirs (Path.level dir) < depth) :
    ∃ paths, Gives listing (descend sieve depth dir path) paths := by
  induction depth generalizing dir path with
  | zero => cases hdepth
  | succ depth ih =>
    obtain ⟨entries, hentries⟩ := htotal dir
    obtain ⟨values, hvalues⟩ : ∃ values,
        Gives listing (gather (visit sieve depth dir path) entries) values := by
      refine exists_gives_gather fun entry hentry => ?_
      have hmem : dir ∈ dirs := by
        rcases hfinite dir entries hentries with rfl | hmem
        · cases hentry
        · exact hmem
      have hname := hproper dir entries hentries entry hentry
      obtain ⟨name, isDirectory⟩ := entry
      cases isDirectory with
      | false => exact ⟨_, gives_visit_file.mpr rfl⟩
      | true =>
        cases hexcluded : sieve.excludes.accepts (childPath path name) with
        | true => exact ⟨[], (gives_visit_excluded hexcluded).mpr rfl⟩
        | false =>
          have hlevel : Path.level (Path.join dir name) = Path.level dir + 1 :=
            Path.level_join_name dir ⟨name, hname⟩
          have hless := countFrom_succ_lt hmem
          obtain ⟨given, hgiven⟩ : ∃ given, Gives listing
              (descend sieve depth (Path.join dir name) (childPath path name)) given := by
            refine ih ?_
            rw [hlevel]
            omega
          exact ⟨given, (gives_visit_directory hexcluded).mpr hgiven⟩
    exact ⟨values, gives_list.mpr ⟨entries, hentries, hvalues⟩⟩

/-- A search ends well if it may go deeper than there are directories with entries. -/
theorem exists_gives_find (hproper : listing.Proper)
    (htotal : ∀ dir, ∃ entries, listing dir = .ok entries)
    (hfinite : ∀ dir entries, listing dir = .ok entries → entries = [] ∨ dir ∈ dirs)
    (hdepth : dirs.length < depth) (root : String) (includes excludes : List String) :
    ∃ found, Gives listing (find depth root includes excludes) found := by
  obtain ⟨paths, hpaths⟩ : ∃ paths, Gives listing
      (gather (fromBase (Sieve.ofLists includes excludes) depth root) (basesOf includes)) paths := by
    refine exists_gives_gather fun base _ => ?_
    simp only [gives_fromBase]
    split
    · exact ⟨[], rfl⟩
    · exact exists_gives_descend hproper htotal hfinite
        (Nat.lt_of_le_of_lt List.countP_le_length hdepth)
  exact ⟨_, gives_find.mpr ⟨paths, hpaths, rfl⟩⟩

/-- A table is searched to a depth that is more than its directories. -/
theorem Table.length_lt_depth (t : Table) (excludes : List String) :
    t.directories.length < t.depth excludes := by
  unfold Table.depth
  exact Nat.lt_of_lt_of_le (Nat.lt_succ_self _) (Nat.le_mul_of_pos_right _ (Nat.succ_pos _))

end Walk

/-! ## Depth is a bound only -/

variable {α β : Type}

/-- Whether a run ended for want of depth. -/
def Run.GaveUp (r : Run α) : Prop := ∃ dir, r.outcome = .error (.unlisted dir .tooDeep)

theorem Run.GaveUp.andThen {r : Run α} (h : r.GaveUp) (next : α → Run β) :
    (r.andThen next).GaveUp := by
  obtain ⟨dir, hdir⟩ := h
  refine ⟨dir, ?_⟩
  rw [Run.andThen, hdir]

theorem Run.gaveUp_andThen_iff {r : Run α} {value : α} (h : r.outcome = .ok value)
    (next : α → Run β) : (r.andThen next).GaveUp ↔ (next value).GaveUp := by
  rw [Run.andThen, h]
  rfl

theorem Run.not_gaveUp_of_ok {r : Run α} {value : α} (h : r.outcome = .ok value) : ¬ r.GaveUp := by
  rintro ⟨dir, hdir⟩
  rw [h] at hdir
  cases hdir

/-- A run that goes on and gives up does so in one of its parts. -/
theorem Run.gaveUp_cases {r : Run α} {next : α → Run β} (h : (r.andThen next).GaveUp) :
    r.GaveUp ∨ ∃ value, r.outcome = .ok value ∧ (next value).GaveUp := by
  cases hr : r.outcome with
  | ok value => exact .inr ⟨value, rfl, (Run.gaveUp_andThen_iff hr next).mp h⟩
  | error e =>
    obtain ⟨dir, hdir⟩ := h
    rw [Run.andThen, hr] at hdir
    exact .inl ⟨dir, by rw [hr, Except.error.inj hdir]⟩

namespace Walk

variable {listing : Listing} {sieve : Sieve} {depth depth' : Nat}

/-- Steps that go as others do, unless these give up, are gathered as those are. -/
theorem run_gather_eq {step deeper : β → Walk (List α)} {xs : List β}
    (h : ∀ x ∈ xs, ¬ ((step x).run listing).GaveUp →
      (deeper x).run listing = (step x).run listing)
    (hup : ¬ ((gather step xs).run listing).GaveUp) :
    (gather deeper xs).run listing = (gather step xs).run listing := by
  induction xs with
  | nil => rfl
  | cons x xs ih =>
    rw [run_gather_cons] at hup ⊢
    rw [run_gather_cons, h x List.mem_cons_self fun hx => hup (hx.andThen _)]
    refine Run.andThen_congr fun first hfirst => ?_
    rw [Run.gaveUp_andThen_iff hfirst] at hup
    rw [ih (fun y hy => h y (List.mem_cons_of_mem x hy)) fun hxs => hup (hxs.andThen _)]

/-- A walk below a directory that does not give up is the same if it may go deeper. -/
theorem run_descend_eq_of_le (hle : depth ≤ depth') {dir path : String}
    (hup : ¬ ((descend sieve depth dir path).run listing).GaveUp) :
    (descend sieve depth' dir path).run listing = (descend sieve depth dir path).run listing := by
  induction depth generalizing depth' dir path with
  | zero => exact absurd ⟨dir, rfl⟩ hup
  | succ depth ih =>
    obtain ⟨deeper, rfl⟩ : ∃ deeper, depth' = deeper + 1 := ⟨depth' - 1, by omega⟩
    have hdeeper : depth ≤ deeper := by omega
    rw [descend_succ] at hup ⊢
    rw [descend_succ]
    cases hentries : listing dir with
    | error failure => rw [run_list_error _ hentries, run_list_error _ hentries]
    | ok entries =>
      rw [run_list_ok _ hentries] at hup ⊢
      rw [run_list_ok _ hentries]
      refine congrArg (Run.after (.listed dir)) (run_gather_eq (fun entry _ hentry => ?_) hup)
      obtain ⟨name, isDirectory⟩ := entry
      cases isDirectory with
      | false => rfl
      | true =>
        cases hexcluded : sieve.excludes.accepts (childPath path name) with
        | true => rw [visit_excluded hexcluded, visit_excluded hexcluded]
        | false =>
          rw [visit_directory hexcluded] at hentry ⊢
          rw [visit_directory hexcluded]
          exact ih hdeeper hentry

/-- Gathering that gives up has a step that does. -/
theorem exists_gaveUp_of_gather {step : β → Walk (List α)} {xs : List β}
    (h : ((gather step xs).run listing).GaveUp) : ∃ x ∈ xs, ((step x).run listing).GaveUp := by
  induction xs with
  | nil => exact absurd h (Run.not_gaveUp_of_ok rfl)
  | cons x xs ih =>
    rw [run_gather_cons] at h
    rcases Run.gaveUp_cases h with hfirst | ⟨first, -, hrest⟩
    · exact ⟨x, List.mem_cons_self, hfirst⟩
    · rcases Run.gaveUp_cases hrest with hothers | ⟨others, -, hdone⟩
      · obtain ⟨y, hy, hup⟩ := ih hothers
        exact ⟨y, List.mem_cons_of_mem x hy, hup⟩
      · exact absurd hdone (Run.not_gaveUp_of_ok rfl)

/-- A walk below a directory does not give up if the directory is near enough to the end: what is
near by some depth has only directories in it that are near by one less, and no depth at all is
near. -/
theorem not_gaveUp_descend (near : Nat → String → Prop)
    (hcause : ∀ dir, listing dir ≠ .error (.caused .tooDeep)) (hzero : ∀ dir, ¬ near 0 dir)
    (hstep : ∀ depth dir entries, near (depth + 1) dir → listing dir = .ok entries →
      ∀ name, ⟨name, true⟩ ∈ entries → near depth (Path.join dir name))
    {dir path : String} (h : near depth dir) :
    ¬ ((descend sieve depth dir path).run listing).GaveUp := by
  induction depth generalizing dir path with
  | zero => exact absurd h (hzero dir)
  | succ depth ih =>
    rw [descend_succ]
    cases hentries : listing dir with
    | error failure =>
      rw [run_list_error _ hentries]
      rintro ⟨deep, hdeep⟩
      cases failure with
      | textless => cases hdeep
      | caused cause =>
        cases hdeep
        exact hcause dir hentries
    | ok entries =>
      rw [run_list_ok _ hentries]
      intro hup
      obtain ⟨⟨name, isDirectory⟩, hentry, hvisit⟩ := exists_gaveUp_of_gather hup
      cases isDirectory with
      | false => exact Run.not_gaveUp_of_ok rfl hvisit
      | true =>
        cases hexcluded : sieve.excludes.accepts (childPath path name) with
        | true =>
          rw [visit_excluded hexcluded] at hvisit
          exact Run.not_gaveUp_of_ok rfl hvisit
        | false =>
          rw [visit_directory hexcluded] at hvisit
          exact ih (hstep depth dir entries h hentries name hentry) hvisit

/-- A search does not give up if no walk from one of its bases does. -/
theorem not_gaveUp_find {root : String} {includes excludes : List String}
    (h : ∀ base path, ¬ ((descend (Sieve.ofLists includes excludes) depth (startOf root base)
      path).run listing).GaveUp) :
    ¬ ((find depth root includes excludes).run listing).GaveUp := by
  rw [run_find]
  intro hup
  rcases Run.gaveUp_cases hup with hgather | ⟨paths, -, hdone⟩
  · obtain ⟨base, -, hbase⟩ := exists_gaveUp_of_gather hgather
    by_cases hexcluded : base ≠ "." ∧
        (Sieve.ofLists includes excludes).excludes.accepts base = true
    · rw [fromBase_excluded hexcluded] at hbase
      exact Run.not_gaveUp_of_ok rfl hbase
    · rw [fromBase_walked hexcluded] at hbase
      exact h base _ hbase
  · exact Run.not_gaveUp_of_ok rfl hdone

/-- **Depth.** A search that does not give up for want of depth is the same run if it may go deeper,
whether it ends well or fails. -/
theorem run_find_eq_of_le (hle : depth ≤ depth') {root : String} {includes excludes : List String}
    (hup : ¬ ((find depth root includes excludes).run listing).GaveUp) :
    (find depth' root includes excludes).run listing =
      (find depth root includes excludes).run listing := by
  rw [run_find] at hup ⊢
  rw [run_find, run_gather_eq (fun base _ hbase => ?_) fun hgather => hup (hgather.andThen _)]
  by_cases hexcluded : base ≠ "." ∧
      (Sieve.ofLists includes excludes).excludes.accepts base = true
  · rw [fromBase_excluded hexcluded, fromBase_excluded hexcluded]
  · rw [fromBase_walked hexcluded] at hbase ⊢
    rw [fromBase_walked hexcluded]
    exact congrArg (Run.after _) (run_descend_eq_of_le hle hbase)

end Walk

end PathSieve
