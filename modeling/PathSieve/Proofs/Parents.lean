import PathSieve.Proofs.Canonical
import PathSieve.Proofs.Grounded

/-!
# Making the directories above a path

A canonical path is a way down from the root, one name after the other. Where the names before the
last lead to a directory, the last one is looked up in it, and whether something is there does not
depend on what the path is followed for (`resolve_of_leads`). Where they lead to no directory, every
look-up fails, and never because something exists (`exists_errno_of_not_directory`).

From this, making a directory with those above it ends in one of four ways (`Made`): the directory
was there; nothing was there and it has been made, with nothing in it; something else was in its
place; or nothing was there and it could not be made. Only where something else was in place of the
directory itself, and not of one above it, does the error say that something exists.
-/

namespace PathSieve.FileSystem

open PathSieve.Path (ofNames)

variable {fs fs₁ fs₂ : FileSystem} {aim : Aim} {here mid there : Location}
variable {parts more rest : List Part}
variable {names : List Name} {name : Name} {node : Node} {cost links left : Nat} {path : String}

/-! ## The name at the end of a way -/

/-- A step does not look at what comes later. -/
theorem Goes.append (h : fs.Goes cost here parts mid more) (later : List Part) :
    fs.Goes cost here (parts ++ later) mid (more ++ later) := by
  cases h with
  | idle hhere hpart => exact .idle hhere hpart
  | up hhere => exact .up hhere
  | down hhere hsize hnode hlink => exact .down hhere hsize hnode hlink
  | link hhere hsize hnode =>
    rw [List.append_assoc]
    exact .link hhere hsize hnode

theorem Passes.append (h : fs.Passes links here parts there rest) (later : List Part) :
    fs.Passes links here (parts ++ later) there (rest ++ later) := by
  induction h with
  | refl => exact .refl
  | head hgo _ ih => exact .head (hgo.append later) ih

/-- A step before the last name is taken whatever the path is followed for. -/
theorem chase_of_goes_append (h : fs.Goes cost here parts mid more) (aim : Aim) (left : Nat)
    (name : Name) :
    fs.chase aim (cost + left) here (parts ++ [.down name]) =
      fs.chase aim left mid (more ++ [.down name]) := by
  cases h with
  | @idle here part rest hhere hpart =>
    rw [Nat.zero_add, chase_eq_follow_jumpFor]
    cases part with
    | slash => simp [follow, hhere]
    | stay => simp [follow, hhere]
    | up => cases hpart
    | down name => cases hpart
  | up hhere =>
    rw [Nat.zero_add, chase_eq_follow_jumpFor]
    simp [follow, hhere]
  | @down here next node rest hhere hsize hnode hlink =>
    rw [Nat.zero_add, chase_eq_follow_jumpFor, List.cons_append, follow,
      if_neg (not_not_intro hhere)]
    simp only [hnode, Nat.not_lt.mpr hsize]
    cases node with
    | link target => exact absurd rfl (hlink target)
    | directory => simp
    | file content => simp
  | @link here next target rest hhere hsize hnode =>
    rw [Nat.add_comm, chase_eq_follow_jumpFor, List.cons_append, follow,
      if_neg (not_not_intro hhere)]
    simp [hnode, Nat.not_lt.mpr hsize, jumpFor, linkStart]

theorem chase_of_passes_append (h : fs.Passes links here parts there rest) (aim : Aim) (left : Nat)
    (name : Name) :
    fs.chase aim (links + left) here (parts ++ [.down name]) =
      fs.chase aim left there (rest ++ [.down name]) := by
  induction h with
  | refl => rw [Nat.zero_add]
  | head hgo _ ih => rw [Nat.add_assoc, chase_of_goes_append hgo, ih]

/-- What a name in a directory is the place of. -/
def childOf (fs : FileSystem) (there : Location) (name : Name) : Except Errno Target :=
  if maxNameBytes < name.val.utf8ByteSize then .error .nameTooLong
  else match fs.node? (name :: there) with
  | none => .ok (.vacant ⟨there, name⟩)
  | some _ => .ok (.existing (name :: there))

/-- A last name is looked up in its directory, whatever for, unless a link there would be
followed. -/
theorem chase_name (haim : aim.throughLink false = false)
    (hthere : fs.node? there = some .directory) (left : Nat) (name : Name) :
    fs.chase aim left there [.down name] = fs.childOf there name := by
  rw [chase_eq_follow_jumpFor, follow, if_neg (not_not_intro hthere), childOf]
  by_cases hsize : maxNameBytes < name.val.utf8ByteSize
  · simp [hsize]
  · cases hnode : fs.node? (name :: there) with
    | none => simp [hsize]
    | some node =>
      cases node with
      | directory => simp [hsize, follow]
      | file content => simp [hsize, follow]
      | link target => simp [hsize, haim]

/-! ## Ways from the root -/

/-- The parts of a way down from the root. -/
def wayOf (names : List Name) : List Part := .slash :: names.map .down

theorem wayOf_concat (names : List Name) (name : Name) :
    wayOf (names ++ [name]) = wayOf names ++ [.down name] := by
  simp [wayOf]

theorem partsOf_ofNames (names : List Name) (name : Name) :
    partsOf (ofNames (names ++ [name])) = wayOf (names ++ [name]) := by
  have hmap : (names.map Name.chars).map (fun cs => Part.ofText (String.ofList cs)) =
      names.map .down := by
    rw [List.map_map]
    exact List.map_congr_left fun name _ => Part.ofText_chars name
  rw [partsOf, Path.toList_ofNames_concat, Text.pieces_append_sep, Path.pieces_belowRoot,
    Path.pieces_chars, List.map_append, List.map_cons, hmap, List.map_singleton, Part.ofText_chars,
    wayOf_concat]
  rfl

theorem originOf_ofNames (fs : FileSystem) (names : List Name) : fs.originOf (ofNames names) = [] :=
  if_pos (Path.isAbsolute_ofNames names)

/-- `fs.Leads names there`: the way from the root by some names leads to a place, as far as the
system follows it. -/
def Leads (fs : FileSystem) (names : List Name) (there : Location) : Prop :=
  ∃ links, links ≤ maxLinks ∧ fs.Passes links [] (wayOf names) there []

/-- Whether a way leads to a directory. -/
def HasDirectory (fs : FileSystem) (names : List Name) : Prop :=
  ∃ there, fs.Leads names there ∧ fs.node? there = some .directory

theorem leads_nil (fs : FileSystem) : fs.Leads [] [] :=
  ⟨0 + 0, Nat.zero_le _, .head (.idle rfl rfl) .refl⟩

theorem resolve_of_accepted (haccepted : Accepted (ofNames names)) :
    fs.resolve aim (ofNames names) =
      fs.chase aim maxLinks [] (partsOf (ofNames names)) := by
  have hargument : checkArgument "path" (ofNames names) = .ok () := if_neg haccepted.1
  have hcheck : checkLength (ofNames names) = .ok () := by
    rw [checkLength, if_neg (Path.ofNames_ne_empty names), if_neg (Nat.not_lt.mpr haccepted.2)]
  have horigin : (if Path.isAbsolute (ofNames names).toList = true then [] else fs.cwd) = [] :=
    originOf_ofNames fs names
  rw [resolve, hargument, hcheck, horigin]
  rfl

theorem exists_errno_of_not_accepted (fs : FileSystem) (h : ¬ Accepted (ofNames names)) :
    ∃ errno, errno ≠ .alreadyExists ∧ errno ≠ .noEntry ∧
      ∀ aim, fs.resolve aim (ofNames names) = .error errno := by
  by_cases hnul : '\x00' ∈ (ofNames names).toList
  · refine ⟨.nulByte "path" (ofNames names), by simp, by simp, fun aim => ?_⟩
    have hargument : checkArgument "path" (ofNames names) =
        .error (.nulByte "path" (ofNames names)) := if_pos hnul
    rw [resolve, hargument]
    rfl
  · refine ⟨.nameTooLong, by simp, by simp, fun aim => ?_⟩
    have hargument : checkArgument "path" (ofNames names) = .ok () := if_neg hnul
    have hlong : (ofNames names).utf8ByteSize > maxPathBytes :=
      Nat.lt_of_not_le fun hle => h ⟨hnul, hle⟩
    have hcheck : checkLength (ofNames names) = .error .nameTooLong := by
      rw [checkLength, if_neg (Path.ofNames_ne_empty names), if_pos hlong]
    rw [resolve, hargument, hcheck]
    rfl

/-- The path of a directory is accepted if that of an entry in it is. -/
theorem accepted_of_concat (h : Accepted (ofNames (names ++ [name]))) :
    Accepted (ofNames names) := by
  cases names with
  | nil => exact ⟨by decide, by decide⟩
  | cons first names =>
    have hpath : ofNames (first :: names ++ [name]) =
        ofNames (first :: names) ++ String.ofList ('/' :: name.chars) := by
      refine String.toList_inj.mp ?_
      rw [Path.toList_ofNames_concat, String.toList_append, ofNames, String.toList_ofList,
        String.toList_ofList, if_neg (List.cons_ne_nil first names)]
    obtain ⟨hnul, hlength⟩ := h
    rw [hpath, String.toList_append, List.mem_append, not_or] at hnul
    rw [hpath, String.utf8ByteSize_append] at hlength
    exact ⟨hnul.1, by omega⟩

/-- In a directory, a name is looked up in the same way whatever for. -/
theorem resolve_of_leads (haccepted : Accepted (ofNames (names ++ [name])))
    (hleads : fs.Leads names there) (hthere : fs.node? there = some .directory)
    (haim : aim.throughLink false = false) :
    fs.resolve aim (ofNames (names ++ [name])) = fs.childOf there name := by
  obtain ⟨links, hlinks, hpass⟩ := hleads
  have hchase := chase_of_passes_append hpass aim (maxLinks - links) name
  rw [Nat.add_sub_cancel' hlinks, List.nil_append, chase_name haim hthere] at hchase
  rw [resolve_of_accepted haccepted, partsOf_ofNames, wayOf_concat, hchase]

/-- Without a directory to look in, every look-up fails in the same way, and not because something
exists. -/
theorem exists_errno_of_not_directory (hnot : ¬ fs.HasDirectory names) (name : Name) :
    ∃ errno, errno ≠ .alreadyExists ∧
      ∀ aim, fs.resolve aim (ofNames (names ++ [name])) = .error errno := by
  by_cases haccepted : Accepted (ofNames (names ++ [name]))
  · obtain ⟨used, left, there, rest, answer, hsum, hpass, hstops⟩ :=
      exists_stops fs maxLinks [] (wayOf names)
    have hresolve (aim : Aim) : fs.resolve aim (ofNames (names ++ [name])) =
        fs.chase aim left there (rest ++ [.down name]) := by
      rw [resolve_of_accepted haccepted, partsOf_ofNames, wayOf_concat, ← hsum,
        chase_of_passes_append hpass]
    have hblocked (hthere : fs.node? there ≠ some .directory) : ∃ errno, errno ≠ .alreadyExists ∧
        ∀ aim, fs.resolve aim (ofNames (names ++ [name])) = .error errno := by
      refine ⟨.notDirectory, by simp, fun aim => ?_⟩
      rw [hresolve, chase_eq_follow_jumpFor, follow.eq_def]
      cases rest <;> simp [hthere]
    cases hstops with
    | found hnode =>
      refine hblocked fun hthere => hnot ⟨there, ⟨used, by omega, hpass⟩, hthere⟩
    | lost hnode => exact hblocked (by simp [hnode])
    | unnamed hhere hsize hnode =>
      refine ⟨.noEntry, by simp, fun aim => ?_⟩
      rw [hresolve, chase_eq_follow_jumpFor, List.cons_append, follow, if_neg (not_not_intro hhere)]
      simp [hnode, Nat.not_lt.mpr hsize]
    | blocked hhere => exact hblocked hhere
    | overlong hhere hsize =>
      refine ⟨.nameTooLong, by simp, fun aim => ?_⟩
      rw [hresolve, chase_eq_follow_jumpFor, List.cons_append, follow, if_neg (not_not_intro hhere)]
      simp [hsize]
    | exhausted hhere hsize hnode hleft =>
      refine ⟨.linkLoop, by simp, fun aim => ?_⟩
      rw [hresolve, chase_eq_follow_jumpFor, List.cons_append, follow, if_neg (not_not_intro hhere),
        hleft]
      simp [hnode, Nat.not_lt.mpr hsize, jumpFor]
  · obtain ⟨errno, hexists, -, hresolve⟩ := exists_errno_of_not_accepted fs haccepted
    exact ⟨errno, hexists, hresolve⟩

/-- Either a name is looked up in a directory, or every look-up fails in the same way. -/
theorem resolve_cases (fs : FileSystem) (names : List Name) (name : Name) :
    (Accepted (ofNames (names ++ [name])) ∧ fs.HasDirectory names) ∨
      ∃ errno, errno ≠ .alreadyExists ∧ (errno = .noEntry → ¬ fs.HasDirectory names) ∧
        ∀ aim, fs.resolve aim (ofNames (names ++ [name])) = .error errno := by
  by_cases haccepted : Accepted (ofNames (names ++ [name]))
  · by_cases hdirectory : fs.HasDirectory names
    · exact .inl ⟨haccepted, hdirectory⟩
    · obtain ⟨errno, hexists, hresolve⟩ := exists_errno_of_not_directory hdirectory name
      exact .inr ⟨errno, hexists, fun _ => hdirectory, hresolve⟩
  · obtain ⟨errno, hexists, hentry, hresolve⟩ := exists_errno_of_not_accepted fs haccepted
    exact .inr ⟨errno, hexists, fun h => absurd h hentry, hresolve⟩

theorem resolve_root (fs : FileSystem) (aim : Aim) :
    fs.resolve aim (ofNames []) = .ok (.existing []) := by
  have haccepted : Accepted (ofNames []) := ⟨by decide, by decide⟩
  have hparts : partsOf (ofNames []) = [.slash, .slash] := by decide
  rw [resolve_of_accepted haccepted, hparts, chase_eq_follow_jumpFor]
  simp [follow, node?]

theorem stat_root (fs : FileSystem) : fs.stat (ofNames []) = .ok .directory := by
  rw [stat, resolve_root]
  rfl

/-- The system sees a directory where an accepted path leads to one. -/
theorem stat_eq_directory_iff :
    fs.stat (ofNames names) = .ok .directory ↔
      Accepted (ofNames names) ∧ fs.HasDirectory names := by
  cases names using List.reverseRecOn with
  | nil => exact iff_of_true (stat_root fs) ⟨⟨by decide, by decide⟩, [], leads_nil fs, rfl⟩
  | append_singleton names name =>
    rw [stat_eq_ok_iff (Path.ofNames_ne_empty _), Holds, originOf_ofNames, partsOf_ofNames]
    constructor
    · rintro ⟨haccepted, links, there, hlinks, hpass, hnode⟩
      exact ⟨haccepted, there, ⟨links, hlinks, hpass⟩, hnode⟩
    · rintro ⟨haccepted, there, ⟨links, hlinks, hpass⟩, hnode⟩
      exact ⟨haccepted, links, there, hlinks, hpass, hnode⟩

/-- Where a path leads to something, its last name names something in a directory. -/
theorem exists_child_of_stat (h : fs.stat (ofNames (names ++ [name])) = .ok node) :
    Accepted (ofNames (names ++ [name])) ∧ ∃ there, fs.Leads names there ∧
      fs.node? there = some .directory ∧
      fs.childOf there name = .ok (.existing (name :: there)) := by
  have haccepted := ((stat_eq_ok_iff (Path.ofNames_ne_empty _)).mp h).1
  have hdirectory : fs.HasDirectory names := by
    by_contra hnot
    obtain ⟨errno, -, hresolve⟩ := exists_errno_of_not_directory hnot name
    rw [stat, hresolve] at h
    cases h
  obtain ⟨there, ⟨links, hlinks, hpass⟩, hthere⟩ := hdirectory
  refine ⟨haccepted, there, ⟨links, hlinks, hpass⟩, hthere, ?_⟩
  have hchase := chase_of_passes_append hpass .target (maxLinks - links) name
  rw [Nat.add_sub_cancel' hlinks, List.nil_append, ← wayOf_concat, ← partsOf_ofNames,
    ← resolve_of_accepted haccepted] at hchase
  rw [stat] at h
  cases hreached : fs.resolve .target (ofNames (names ++ [name])) with
  | error errno =>
    rw [hreached] at h
    cases h
  | ok reached =>
    cases reached with
    | vacant slot =>
      rw [hreached] at h
      cases h
    | existing here =>
      rw [hreached] at hchase
      obtain ⟨hsize, node, hnode⟩ := exists_node_of_chase_down hchase.symm
      rw [childOf, if_neg (Nat.not_lt.mpr hsize), hnode]

/-- Nothing is said to exist by a look-up that fails. -/
theorem resolve_ne_alreadyExists (haim : aim.throughLink false = false) :
    fs.resolve aim (ofNames names) ≠ .error .alreadyExists := by
  cases names using List.reverseRecOn with
  | nil =>
    rw [resolve_root]
    exact nofun
  | append_singleton names name =>
    intro h
    rcases resolve_cases fs names name with
      ⟨haccepted, there, hleads, hthere⟩ | ⟨errno, hexists, -, hresolve⟩
    · rw [resolve_of_leads haccepted hleads hthere haim, childOf] at h
      split at h
      · cases h
      · split at h <;> cases h
    · rw [hresolve] at h
      exact hexists (Except.error.inj h)

theorem stat_ne_alreadyExists (hne : path ≠ "") : fs.stat path ≠ .error .alreadyExists := by
  intro h
  by_cases haccepted : Accepted path
  · obtain ⟨_, _, _, _, -, -, hstops⟩ := (stat_eq_iff hne haccepted).mp h
    cases hstops
  · rcases stat_of_not_accepted fs hne haccepted with hstat | hstat <;> rw [hstat] at h <;> cases h

/-! ## Making a directory -/

/-- Nothing is made where something is. -/
theorem makeDirectory_of_stat (h : fs.stat (ofNames names) = .ok node) :
    fs.makeDirectory (ofNames names) = .error .alreadyExists := by
  cases names using List.reverseRecOn with
  | nil => rw [makeDirectory, resolve_root]
  | append_singleton names name =>
    obtain ⟨haccepted, there, hleads, hthere, hchild⟩ := exists_child_of_stat h
    rw [makeDirectory, resolve_of_leads haccepted hleads hthere rfl, hchild]

/-- `fs.Bare names`: the way by some names leads to a directory with nothing in it. -/
def Bare (fs : FileSystem) (names : List Name) : Prop :=
  ∃ there, fs.Leads names there ∧ fs.node? there = some .directory ∧
    ∀ name, fs.node? (name :: there) = none

/-- In a directory with nothing in it, nothing is found. -/
theorem Bare.resolve_ne_existing (h : fs.Bare names) (haim : aim.throughLink false = false)
    (name : Name) (here : Location) :
    fs.resolve aim (ofNames (names ++ [name])) ≠ .ok (.existing here) := by
  intro hresolve
  obtain ⟨there, hleads, hthere, hnone⟩ := h
  rcases resolve_cases fs names name with ⟨haccepted, -⟩ | ⟨errno, -, -, herror⟩
  · rw [resolve_of_leads haccepted hleads hthere haim, childOf, hnone] at hresolve
    split at hresolve <;> cases hresolve
  · rw [herror] at hresolve
    cases hresolve

theorem Bare.stat_ne_ok (h : fs.Bare names) (name : Name) (node : Node) :
    fs.stat (ofNames (names ++ [name])) ≠ .ok node := by
  intro hstat
  have hmake := makeDirectory_of_stat hstat
  unfold makeDirectory at hmake
  split at hmake
  · next errno hresolve =>
    rw [Except.error.inj hmake] at hresolve
    exact resolve_ne_alreadyExists rfl hresolve
  · next here hresolve => exact h.resolve_ne_existing rfl name here hresolve
  · cases hmake

theorem Grows.keeps (h : Grows fs fs₁) : Keeps fs fs₁ :=
  fun _ node hnode => ⟨node, h.of_some hnode, id, fun _ => .rfl⟩

/-- A directory that is made has nothing in it. -/
theorem bare_of_makeDirectory (hgrounded : Grounded fs)
    (h : fs.makeDirectory (ofNames names) = .ok fs₁) : fs₁.Bare names := by
  have hgrows := grows_of_makeDirectory h
  unfold makeDirectory at h
  split at h
  · cases h
  · cases h
  next slot hresolve =>
  obtain rfl := Except.ok.inj h
  cases names using List.reverseRecOn with
  | nil =>
    rw [resolve_root] at hresolve
    cases hresolve
  | append_singleton names name =>
    rcases resolve_cases fs names name with
      ⟨haccepted, there, ⟨links, hlinks, hpass⟩, hthere⟩ | ⟨errno, -, -, herror⟩
    swap
    · rw [herror] at hresolve
      cases hresolve
    rw [resolve_of_leads haccepted ⟨links, hlinks, hpass⟩ hthere rfl, childOf] at hresolve
    split at hresolve
    · cases hresolve
    next hsize =>
    split at hresolve
    · next hnone =>
      obtain rfl := Target.vacant.inj (Except.ok.inj hresolve)
      have hway := (hgrows.keeps.passes hpass).append [.down name]
      rw [List.nil_append, ← wayOf_concat] at hway
      have hdown : (fs.put ⟨there, name⟩ .directory).Goes 0 there [.down name] (name :: there) [] :=
        .down (hgrows.of_some hthere) (Nat.le_of_not_lt hsize) (node?_put_self fs ⟨there, name⟩ _)
          nofun
      refine ⟨name :: there, ⟨links + 0, hlinks, hway.snoc hdown⟩,
        node?_put_self fs ⟨there, name⟩ _, fun below => ?_⟩
      have hother : below :: name :: there ≠ Slot.place ⟨there, name⟩ := List.cons_ne_self below _
      rw [node?_put_other hother]
      exact hgrounded.node?_eq_none hnone below
    · cases hresolve

/-- In a directory, no name is missing on the way. -/
theorem makeDirectory_ne_noEntry (h : fs.HasDirectory names) (name : Name) :
    fs.makeDirectory (ofNames (names ++ [name])) ≠ .error .noEntry := by
  intro hmake
  rcases resolve_cases fs names name with
    ⟨haccepted, there, hleads, hthere⟩ | ⟨errno, -, hentry, herror⟩
  · rw [makeDirectory, resolve_of_leads haccepted hleads hthere rfl, childOf] at hmake
    split at hmake
    · next hresolve =>
      split at hresolve
      · cases hresolve
        cases hmake
      · split at hresolve <;> cases hresolve
    · cases hmake
    · cases hmake
  · rw [makeDirectory, herror] at hmake
    exact hentry (Except.error.inj hmake) h

/-- `fs.Made inner names answer fs₁`: how making a directory with those above it ends. `inner` says
that the directory is wanted for another one inside it. -/
inductive Made (fs : FileSystem) (inner : Bool) (names : List Name) :
    Except SystemError Unit → FileSystem → Prop
  | there (hstat : fs.stat (ofNames names) = .ok .directory) : Made fs inner names (.ok ()) fs
  | made {fs₁ : FileSystem} (hnothing : ∀ node, fs.stat (ofNames names) ≠ .ok node)
      (hbare : fs₁.Bare names) : Made fs inner names (.ok ()) fs₁
  | inPlace {node : Node} (hnode : node ≠ .directory) (hstat : fs.stat (ofNames names) = .ok node) :
      Made fs inner names
        (.error (failed (if inner then .notDirectory else .alreadyExists) "mkdir" (ofNames names)))
        fs
  | failed {fs₁ : FileSystem} {e : SystemError}
      (hnothing : ∀ node, fs.stat (ofNames names) ≠ .ok node) (herrno : e.errno ≠ .alreadyExists) :
      Made fs inner names (.error e) fs₁

/-- What making a directory answers in place is one of the ways to end. -/
theorem made_answerInPlace {errno : Errno} {inner : Bool}
    (h : fs.makeDirectory (ofNames names) = .error errno) :
    Made fs inner names (fs.answerInPlace errno inner (ofNames names)) fs := by
  have hexists {node : Node} (hstat : fs.stat (ofNames names) = .ok node) :
      errno = .alreadyExists := Except.error.inj (h.symm.trans (makeDirectory_of_stat hstat))
  unfold answerInPlace
  split
  · next hstat => exact .there hstat
  · next node hnode hstat =>
    have hcause : (if errno = .alreadyExists ∧ inner = true then Errno.notDirectory
        else .alreadyExists) = if inner then .notDirectory else .alreadyExists := by
      simp [hexists hstat]
    rw [hcause]
    exact .inPlace hnode hstat
  · next other hstat =>
    have hother : other ≠ .alreadyExists := by
      rintro rfl
      exact stat_ne_alreadyExists (Path.ofNames_ne_empty names) hstat
    refine .failed (fun node hnode => absurd (hstat.symm.trans hnode) nofun) ?_
    show (if errno = .alreadyExists ∧ inner = true then Errno.notDirectory else other) ≠ _
    split
    · exact nofun
    · exact hother

/-- In a directory that has just been made, a directory is made or that fails, and nothing was there
before either. -/
theorem Made.of_bare {inner : Bool} {answer : Except SystemError Unit}
    (h : Made fs₁ inner (names ++ [name]) answer fs₂) (hbare : fs₁.Bare names)
    (hnothing : ∀ node, fs.stat (ofNames (names ++ [name])) ≠ .ok node) :
    Made fs inner (names ++ [name]) answer fs₂ := by
  cases h with
  | there hstat => exact absurd hstat (hbare.stat_ne_ok name _)
  | made _ hbare₂ => exact .made hnothing hbare₂
  | inPlace _ hstat => exact absurd hstat (hbare.stat_ne_ok name _)
  | failed _ herrno => exact .failed hnothing herrno

/-- Making a directory with those above it ends in one of these ways. -/
theorem made_makeWithParents (hgrounded : Grounded fs) (depth : Nat) (inner : Bool)
    (names : List Name) :
    Made fs inner names (makeWithParents depth inner (ofNames names) fs).1
      (makeWithParents depth inner (ofNames names) fs).2 := by
  induction depth using Nat.strongRecOn generalizing fs inner names with
  | ind depth ih =>
    have hnothing {errno : Errno} (hmake : fs.makeDirectory (ofNames names) = .error errno)
        (hexists : errno ≠ .alreadyExists) (node : Node) : fs.stat (ofNames names) ≠ .ok node :=
      fun hstat => hexists (Except.error.inj (hmake.symm.trans (makeDirectory_of_stat hstat)))
    cases hmake : fs.makeDirectory (ofNames names) with
    | ok fs₁ =>
      rw [makeWithParents_made hmake]
      refine .made (fun node hstat => ?_) (bare_of_makeDirectory hgrounded hmake)
      exact absurd (hmake.symm.trans (makeDirectory_of_stat hstat)) nofun
    | error errno =>
      by_cases hentry : errno = .noEntry
      · subst hentry
        rcases makeWithParents_noEntry hmake depth inner with
          hfailed | ⟨fewer, parent, rfl, habove, answer, fs₁, hparent, hrest⟩
        · rw [hfailed]
          exact .failed (hnothing hmake nofun) nofun
        · -- the directory above has been made, or could not be
          cases names using List.reverseRecOn with
          | nil =>
            rw [makeDirectory, resolve_root] at hmake
            cases hmake
          | append_singleton names name =>
            rw [Path.above?_ofNames] at habove
            obtain rfl := Option.some.inj habove
            have hmade := ih fewer (Nat.lt_succ_self fewer) hgrounded true names
            have hgrounded₁ := hgrounded.makeWithParents fewer true (ofNames names)
            rw [hparent] at hmade hgrounded₁
            rw [hrest]
            cases hmade with
            | there hstat =>
              exact absurd hmake (makeDirectory_ne_noEntry (stat_eq_directory_iff.mp hstat).2 name)
            | made _ hbare =>
              have hlast := ih fewer (Nat.lt_succ_self fewer) hgrounded₁ inner (names ++ [name])
              exact hlast.of_bare hbare (hnothing hmake nofun)
            | inPlace hnode hstat => exact .failed (hnothing hmake nofun) nofun
            | failed _ herrno => exact .failed (hnothing hmake nofun) herrno
      by_cases hdirectory : errno = .notDirectory
      · subst hdirectory
        rw [makeWithParents_notDirectory hmake]
        exact .failed (hnothing hmake nofun) nofun
      · rw [makeWithParents_inPlace hmake hentry hdirectory]
        exact made_answerInPlace hmake

theorem made_makeDirectories (hgrounded : Grounded fs) {answer : Except SystemError Unit}
    (h : fs.makeDirectories (ofNames names) = (answer, fs₁)) : Made fs false names answer fs₁ := by
  have hmade := made_makeWithParents hgrounded (partsOf (ofNames names)).length false names
  rw [makeDirectories] at h
  rwa [h] at hmade

end PathSieve.FileSystem
