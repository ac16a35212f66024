import PathSieve.Config.File
import PathSieve.Proofs.Loading
import PathSieve.Proofs.Utf8

/-!
# What making directories and files changes

Making directories puts directories where nothing was, and changes nothing else (`Grows`). Making a
file changes one place, the one that the path leads to: what was looked up on the way there is still
looked up in the same way, so the path leads to the file that was made (`exists_place_of_store`).
-/

namespace PathSieve

/-- The place of a slot. -/
def Slot.place (slot : Slot) : Location := slot.name :: slot.parent

namespace FileSystem

variable {fs fs₁ fs₂ : FileSystem} {here there : Location} {slot : Slot} {node : Node}
variable {aim : Aim} {links : Nat} {parts rest : List Part} {reached : Target}

/-! ## One place -/

theorem node?_place (fs : FileSystem) (slot : Slot) :
    fs.node? slot.place = fs.nodes.lookup slot := rfl

theorem lookup_eq_none_of_not_mem {nodes : List (Slot × Node)} (h : slot ∉ nodes.map Prod.fst) :
    nodes.lookup slot = none := by
  rw [List.lookup_eq_none_iff]
  intro held hheld
  refine bne_iff_ne.mpr ?_
  rintro rfl
  exact h (List.mem_map_of_mem hheld)

theorem lookup_replace_self {nodes : List (Slot × Node)} (h : slot ∈ nodes.map Prod.fst) :
    (nodes.map fun held => if held.1 = slot then (slot, node) else held).lookup slot =
      some node := by
  induction nodes with
  | nil => cases h
  | cons held nodes ih =>
    by_cases hheld : held.1 = slot
    · simp [hheld]
    · rw [List.map_cons, List.mem_cons] at h
      have hrest := ih (h.resolve_left (Ne.symm hheld))
      rw [List.map_cons, if_neg hheld, List.lookup_cons, beq_false_of_ne (Ne.symm hheld)]
      exact hrest

theorem lookup_replace_other {nodes : List (Slot × Node)} {other : Slot} (h : other ≠ slot) :
    (nodes.map fun held => if held.1 = slot then (slot, node) else held).lookup other =
      nodes.lookup other := by
  induction nodes with
  | nil => rfl
  | cons held nodes ih =>
    by_cases hheld : held.1 = slot
    · subst hheld
      rw [List.map_cons, if_pos rfl, List.lookup_cons, List.lookup_cons, beq_false_of_ne h, ih]
    · rw [List.map_cons, if_neg hheld, List.lookup_cons, List.lookup_cons, ih]

/-- What is put somewhere is there. -/
theorem node?_put_self (fs : FileSystem) (slot : Slot) (node : Node) :
    (fs.put slot node).node? slot.place = some node := by
  rw [node?_place, put]
  split
  · next h => exact lookup_replace_self h
  · next h =>
    have hnone : fs.nodes.lookup slot = none := lookup_eq_none_of_not_mem h
    rw [List.lookup_append, hnone]
    simp

/-- All else is as it was. -/
theorem node?_put_other (h : here ≠ slot.place) :
    (fs.put slot node).node? here = fs.node? here := by
  cases here with
  | nil => rfl
  | cons name parent =>
    have hother : (⟨parent, name⟩ : Slot) ≠ slot := by
      rintro rfl
      exact h rfl
    rw [node?, node?, put]
    split
    · exact lookup_replace_other hother
    · have hlast : [(slot, node)].lookup ⟨parent, name⟩ = none := by
        rw [List.lookup_cons, beq_false_of_ne hother]
        rfl
      rw [List.lookup_append, hlast, Option.or_none]

theorem cwd_put : (fs.put slot node).cwd = fs.cwd := by
  unfold put
  split <;> rfl

/-! ## Only new directories -/

/-- Whether two file systems differ at most in directories that are new in the second one. -/
structure Grows (fs fs₁ : FileSystem) : Prop where
  cwd : fs₁.cwd = fs.cwd
  node? : ∀ here, fs₁.node? here = fs.node? here ∨
    fs.node? here = none ∧ fs₁.node? here = some .directory

theorem Grows.refl : Grows fs fs := ⟨rfl, fun _ => .inl rfl⟩

theorem Grows.trans (h : Grows fs fs₁) (h₁ : Grows fs₁ fs₂) : Grows fs fs₂ := by
  refine ⟨h₁.cwd.trans h.cwd, fun here => ?_⟩
  rcases h.node? here with hsame | ⟨hnone, hnew⟩
  · rcases h₁.node? here with hsame₁ | ⟨hnone₁, hnew₁⟩
    · exact .inl (hsame₁.trans hsame)
    · exact .inr ⟨hsame ▸ hnone₁, hnew₁⟩
  · rcases h₁.node? here with hsame₁ | ⟨hnone₁, -⟩
    · exact .inr ⟨hnone, hsame₁.trans hnew⟩
    · exact absurd (hnew.symm.trans hnone₁) nofun

theorem Grows.put_directory (h : fs.node? slot.place = none) :
    Grows fs (fs.put slot .directory) := by
  refine ⟨cwd_put, fun here => ?_⟩
  by_cases hhere : here = slot.place
  · subst hhere
    exact .inr ⟨h, node?_put_self fs slot .directory⟩
  · exact .inl (node?_put_other hhere)

/-- What was there is still there. -/
theorem Grows.of_some (h : Grows fs fs₁) (hnode : fs.node? here = some node) :
    fs₁.node? here = some node := by
  rcases h.node? here with hsame | ⟨hnone, -⟩
  · rw [hsame, hnode]
  · exact absurd (hnone.symm.trans hnode) nofun

/-- The files are the same. -/
theorem Grows.file_iff (h : Grows fs fs₁) {content : List UInt8} :
    fs₁.node? here = some (.file content) ↔ fs.node? here = some (.file content) := by
  refine ⟨fun hfile => ?_, h.of_some⟩
  rcases h.node? here with hsame | ⟨-, hnew⟩
  · rw [← hsame, hfile]
  · exact absurd (hnew.symm.trans hfile) nofun

/-! ## Where a path comes to -/

/-- `fs.Settles aim here rest reached`: what a look-up with an aim comes to where it has got to: it
has arrived, or the name that is left is that of nothing, or that of something that it does not look
into. -/
inductive Settles (fs : FileSystem) (aim : Aim) : Location → List Part → Target → Prop
  | arrived {here : Location} : Settles fs aim here [] (.existing here)
  | vacant {here : Location} {name : Name} {rest : List Part}
      (hhere : fs.node? here = some .directory) (hsize : name.val.utf8ByteSize ≤ maxNameBytes)
      (hnode : fs.node? (name :: here) = none) (hlast : rest = [] ∨ aim = .newDirectory) :
      Settles fs aim here (.down name :: rest) (.vacant ⟨here, name⟩)
  | entry {here : Location} {name : Name} {rest : List Part} {node : Node}
      (hhere : fs.node? here = some .directory) (hsize : name.val.utf8ByteSize ≤ maxNameBytes)
      (hnode : fs.node? (name :: here) = some node) (htarget : aim ≠ .target)
      (hfile : aim ≠ .file) : Settles fs aim here (.down name :: rest) (.existing (name :: here))

/-- How parts are followed from a link, with an aim, when so many links may be followed. -/
def jumpFor (fs : FileSystem) (aim : Aim) :
    (links : Nat) → Location → List Part → Except Errno Target
  | 0 => fun _ _ => .error .linkLoop
  | links + 1 => fs.chase aim links

theorem chase_eq_follow_jumpFor (fs : FileSystem) (aim : Aim) (links : Nat) :
    fs.chase aim links = fs.follow aim (fs.jumpFor aim links) := by
  cases links <;> rfl

/-- Only a directory can be looked into, whatever for. -/
theorem directory_of_follow_cons {jump : Location → List Part → Except Errno Target} {part : Part}
    (h : fs.follow aim jump here (part :: rest) = .ok reached) :
    fs.node? here = some .directory := by
  by_contra hhere
  rw [follow.eq_def] at h
  simp [hhere] at h

/-- A name that leads somewhere settles there, or puts the target of a link in front, or goes
down. -/
theorem follow_down_cases {jump : Location → List Part → Except Errno Target} {name : Name}
    (h : fs.follow aim jump here (.down name :: rest) = .ok reached) :
    fs.Settles aim here (.down name :: rest) reached ∨ name.val.utf8ByteSize ≤ maxNameBytes ∧
      ((∃ target, fs.node? (name :: here) = some (.link target) ∧
        jump (linkStart here target) (partsOf target ++ rest) = .ok reached) ∨
      ∃ node, fs.node? (name :: here) = some node ∧ (∀ target, node ≠ .link target) ∧
        fs.follow aim jump (name :: here) rest = .ok reached) := by
  have hhere := directory_of_follow_cons h
  rw [follow, if_neg (not_not_intro hhere)] at h
  simp only at h
  split at h
  · cases h
  split at h
  · cases h
  next hsize =>
  rw [Nat.not_lt] at hsize
  split at h
  · next hnode =>
    split at h
    · next hlast =>
      obtain rfl := Except.ok.inj h
      refine .inl (.vacant hhere hsize hnode ?_)
      by_cases hrest : rest = []
      · exact .inl hrest
      · exact .inr (hlast.2 hrest)
    · cases h
  · next target hnode =>
    split at h
    · next hlink =>
      obtain rfl := Except.ok.inj h
      refine .inl (.entry hhere hsize hnode ?_ ?_) <;> rintro rfl <;>
        simp [Aim.throughLink] at hlink
    · exact .inr ⟨hsize, .inl ⟨target, hnode, h⟩⟩
  · next node hlink hnode =>
    split at h
    · next hlast =>
      obtain rfl := Except.ok.inj h
      refine .inl (.entry hhere hsize hnode ?_ ?_) <;> rintro rfl <;>
        simp [Aim.stopsThere] at hlast
    · refine .inr ⟨hsize, .inr ⟨node, hnode, ?_, h⟩⟩
      rintro target rfl
      exact hlink target rfl

/-- Where a path leads somewhere, it gets there through steps and settles there. -/
theorem exists_settles (h : fs.chase aim links here parts = .ok reached) :
    ∃ used there rest, used ≤ links ∧ fs.Passes used here parts there rest ∧
      fs.Settles aim there rest reached := by
  -- a link makes the parts longer, but leaves fewer links
  induction links using Nat.strongRecOn generalizing here parts with
  | ind links ihlinks =>
    rw [chase_eq_follow_jumpFor] at h
    induction parts generalizing here with
    | nil =>
      cases h
      exact ⟨0, here, [], Nat.zero_le _, .refl, .arrived⟩
    | cons part rest ih =>
      have hstep {mid : Location} (hgo : fs.Goes 0 here (part :: rest) mid rest)
          (h : fs.follow aim (fs.jumpFor aim links) mid rest = .ok reached) :
          ∃ used there more, used ≤ links ∧ fs.Passes used here (part :: rest) there more ∧
            fs.Settles aim there more reached := by
        obtain ⟨used, there, more, hused, hpass, hsettles⟩ := ih h
        exact ⟨0 + used, there, more, by omega, .head hgo hpass, hsettles⟩
      have hhere := directory_of_follow_cons h
      cases part with
      | slash =>
        rw [follow, if_neg (not_not_intro hhere)] at h
        exact hstep (.idle hhere rfl) h
      | stay =>
        rw [follow, if_neg (not_not_intro hhere)] at h
        exact hstep (.idle hhere rfl) h
      | up =>
        rw [follow, if_neg (not_not_intro hhere)] at h
        exact hstep (.up hhere) h
      | down name =>
        rcases follow_down_cases h with
          hsettles | ⟨hsize, ⟨target, hnode, hjump⟩ | ⟨node, hnode, hlink, hrest⟩⟩
        · exact ⟨0, here, _, Nat.zero_le _, .refl, hsettles⟩
        · cases links with
          | zero => cases hjump
          | succ links =>
            obtain ⟨used, there, more, hused, hpass, hsettles⟩ :=
              ihlinks links (Nat.lt_succ_self links) hjump
            exact ⟨1 + used, there, more, by omega, .head (.link hhere hsize hnode) hpass,
              hsettles⟩
        · exact hstep (.down hhere hsize hnode hlink) hrest

variable {path : String} {content : List UInt8} {replace : Bool} {written : FileSystem}

theorem chase_of_resolve (h : fs.resolve aim path = .ok reached) :
    (checkArgument "path" path = .ok () ∧ checkLength path = .ok ()) ∧
      fs.chase aim maxLinks (fs.originOf path) (partsOf path) = .ok reached := by
  unfold resolve at h
  cases hargument : checkArgument "path" path with
  | error e =>
    rw [hargument] at h
    cases h
  | ok _ =>
    cases hlength : checkLength path with
    | error e =>
      rw [hargument, hlength] at h
      cases h
    | ok _ =>
      rw [hargument, hlength] at h
      exact ⟨⟨rfl, rfl⟩, h⟩

/-! ## Making directories -/

theorem Settles.vacant_inv {slot : Slot} (h : fs.Settles aim here rest (.vacant slot)) :
    here = slot.parent ∧ fs.node? slot.parent = some .directory ∧
      slot.name.val.utf8ByteSize ≤ maxNameBytes ∧ fs.node? slot.place = none ∧
      ∃ more, rest = .down slot.name :: more ∧ (more = [] ∨ aim = .newDirectory) := by
  cases h with
  | vacant hhere hsize hnode hlast => exact ⟨rfl, hhere, hsize, hnode, _, rfl, hlast⟩

theorem grows_of_makeDirectory (h : fs.makeDirectory path = .ok fs₁) : Grows fs fs₁ := by
  unfold makeDirectory at h
  split at h
  · cases h
  · cases h
  · next slot hresolve =>
    obtain rfl := Except.ok.inj h
    obtain ⟨_, _, _, -, -, hsettles⟩ := exists_settles (chase_of_resolve hresolve).2
    exact .put_directory hsettles.vacant_inv.2.2.2.1

theorem makeWithParents_made (h : fs.makeDirectory path = .ok fs₁) (depth : Nat) (inner : Bool) :
    makeWithParents depth inner path fs = (.ok (), fs₁) := by
  rw [makeWithParents.eq_def, h]

/-- Where the directory above is missing, it is made first, unless that is too deep or at the
top. -/
theorem makeWithParents_noEntry (h : fs.makeDirectory path = .error .noEntry) (depth : Nat)
    (inner : Bool) :
    makeWithParents depth inner path fs = (.error (failed .noEntry "mkdir" path), fs) ∨
      ∃ fewer parent, depth = fewer + 1 ∧ above? path = some parent ∧
        ∃ answer fs₁, makeWithParents fewer true parent fs = (answer, fs₁) ∧
          makeWithParents depth inner path fs =
            match answer with
            | .error e => (.error e, fs₁)
            | .ok () => makeWithParents fewer inner path fs₁ := by
  rw [makeWithParents.eq_def, h]
  cases depth with
  | zero => exact .inl rfl
  | succ fewer =>
    cases habove : above? path with
    | none => exact .inl rfl
    | some parent =>
      refine .inr ⟨fewer, parent, rfl, rfl, _, _, rfl, ?_⟩
      dsimp only
      cases hparent : makeWithParents fewer true parent fs with
      | mk answer fs₁ => cases answer <;> rfl

/-- What making a directory answers where something is in the way, or the path cannot be
followed. -/
def answerInPlace (fs : FileSystem) (errno : Errno) (inner : Bool) (path : String) :
    Except SystemError Unit :=
  match fs.stat path with
  | .ok .directory => .ok ()
  | .ok _ =>
    .error (failed (if errno = .alreadyExists ∧ inner then .notDirectory else .alreadyExists)
      "mkdir" path)
  | .error other =>
    .error (failed (if errno = .alreadyExists ∧ inner then .notDirectory else other) "mkdir" path)

theorem makeWithParents_notDirectory (h : fs.makeDirectory path = .error .notDirectory)
    (depth : Nat) (inner : Bool) :
    makeWithParents depth inner path fs = (.error (failed .notDirectory "mkdir" path), fs) := by
  rw [makeWithParents.eq_def, h]

theorem makeWithParents_inPlace {errno : Errno} (h : fs.makeDirectory path = .error errno)
    (hentry : errno ≠ .noEntry) (hdirectory : errno ≠ .notDirectory) (depth : Nat) (inner : Bool) :
    makeWithParents depth inner path fs = (fs.answerInPlace errno inner path, fs) := by
  rw [makeWithParents.eq_def, h, answerInPlace]
  cases fs.stat path with
  | error other => cases errno <;> first | contradiction | rfl
  | ok node => cases errno <;> first | contradiction | (cases node <;> rfl)

/-- What one directory more does to a file system, and what follows in a chain, is what making a
directory with those above it does, whether that succeeds or not. -/
theorem makeWithParents_induction {R : FileSystem → FileSystem → Prop} (hrefl : ∀ fs, R fs fs)
    (htrans : ∀ {fs fs₁ fs₂}, R fs fs₁ → R fs₁ fs₂ → R fs fs₂)
    (hmake : ∀ {fs fs₁ path}, makeDirectory fs path = .ok fs₁ → R fs fs₁)
    (depth : Nat) (inner : Bool) (path : String) (fs : FileSystem) :
    R fs (makeWithParents depth inner path fs).2 := by
  induction depth using Nat.strongRecOn generalizing inner path fs with
  | ind depth ih =>
    cases hmade : fs.makeDirectory path with
    | ok fs₁ =>
      rw [makeWithParents_made hmade]
      exact hmake hmade
    | error errno =>
      by_cases hentry : errno = .noEntry
      · subst hentry
        rcases makeWithParents_noEntry hmade depth inner with
          hfailed | ⟨fewer, parent, rfl, -, answer, fs₁, hparent, hrest⟩
        · rw [hfailed]
          exact hrefl fs
        · have habove := ih fewer (Nat.lt_succ_self fewer) true parent fs
          rw [hparent] at habove
          rw [hrest]
          cases answer with
          | error e => exact habove
          | ok _ => exact htrans habove (ih fewer (Nat.lt_succ_self fewer) inner path fs₁)
      by_cases hdirectory : errno = .notDirectory
      · subst hdirectory
        rw [makeWithParents_notDirectory hmade]
        exact hrefl fs
      · rw [makeWithParents_inPlace hmade hentry hdirectory]
        exact hrefl fs

/-- Making a directory and those above it only makes directories. -/
theorem grows_makeWithParents (depth : Nat) (inner : Bool) (path : String) (fs : FileSystem) :
    Grows fs (makeWithParents depth inner path fs).2 :=
  makeWithParents_induction (fun _ => .refl) .trans grows_of_makeDirectory depth inner path fs

theorem grows_makeDirectories (path : String) (fs : FileSystem) :
    Grows fs (fs.makeDirectories path).2 := grows_makeWithParents _ false path fs

/-! ## Making a file -/

/-- Whether what can be passed through in one file system can be passed through in another. -/
def Keeps (fs fs₁ : FileSystem) : Prop :=
  ∀ here node, fs.node? here = some node → ∃ node₁, fs₁.node? here = some node₁ ∧
    (node = .directory → node₁ = .directory) ∧ ∀ target, node = .link target ↔ node₁ = .link target

theorem Keeps.directory (h : Keeps fs fs₁) (hhere : fs.node? here = some .directory) :
    fs₁.node? here = some .directory := by
  obtain ⟨node, hnode, hdirectory, -⟩ := h here .directory hhere
  rw [hnode, hdirectory rfl]

/-- A step is still taken. -/
theorem Keeps.goes {cost : Nat} {mid : Location} {more : List Part} (h : Keeps fs fs₁)
    (hgo : fs.Goes cost here parts mid more) : fs₁.Goes cost here parts mid more := by
  cases hgo with
  | idle hhere hpart => exact .idle (h.directory hhere) hpart
  | up hhere => exact .up (h.directory hhere)
  | down hhere hsize hnode hlink =>
    obtain ⟨node, hnode₁, -, hlinks⟩ := h _ _ hnode
    exact .down (h.directory hhere) hsize hnode₁ fun target heq =>
      hlink target ((hlinks target).mpr heq)
  | link hhere hsize hnode =>
    obtain ⟨node, hnode₁, -, hlinks⟩ := h _ _ hnode
    rw [(hlinks _).mp rfl] at hnode₁
    exact .link (h.directory hhere) hsize hnode₁

theorem Keeps.passes (h : Keeps fs fs₁) (hpass : fs.Passes links here parts there rest) :
    fs₁.Passes links here parts there rest := by
  induction hpass with
  | refl => exact .refl
  | head hgo _ ih => exact .head (h.goes hgo) ih

/-- A file in place of a file or of nothing is in nobody's way. -/
theorem keeps_put_file (h : ∀ node, fs.node? slot.place = some node → ∃ old, node = .file old) :
    Keeps fs (fs.put slot (.file content)) := by
  intro here node hnode
  by_cases hhere : here = slot.place
  · subst hhere
    obtain ⟨old, rfl⟩ := h node hnode
    exact ⟨_, node?_put_self _ _ _, nofun, fun target => ⟨nofun, nofun⟩⟩
  · rw [← node?_put_other hhere] at hnode
    exact ⟨node, hnode, id, fun target => .rfl⟩

theorem Passes.snoc {cost : Nat} {mid : Location} {more : List Part}
    (h : fs.Passes links here parts mid more) (hgo : fs.Goes cost mid more there rest) :
    fs.Passes (links + cost) here parts there rest := by
  induction h with
  | refl =>
    rw [Nat.add_comm]
    exact .head hgo .refl
  | head hfirst _ ih =>
    rw [Nat.add_assoc]
    exact .head hfirst (ih hgo)

/-- A path leads where it passes to. -/
theorem resolve_of_passes (hpath : checkArgument "path" path = .ok () ∧ checkLength path = .ok ())
    (hlinks : links ≤ maxLinks)
    (hpass : fs.Passes links (fs.originOf path) (partsOf path) there []) :
    fs.resolve .target path = .ok (.existing there) := by
  refine resolve_eq_ok_iff.mpr ⟨hpath, ?_⟩
  have hchase := chase_of_passes hpass (maxLinks - links)
  rw [Nat.add_sub_cancel' hlinks, chase_nil] at hchase
  exact hchase

theorem originOf_put : (fs.put slot node).originOf path = fs.originOf path := by
  unfold originOf
  rw [cwd_put]

/-- A file that is made is where its path leads, in place of nothing or, where that was asked for,
of another file, and all else is as it was. -/
theorem exists_place_of_store (h : fs.store replace path content = .ok written) :
    ∃ there, written.resolve .target path = .ok (.existing there) ∧
      written.node? there = some (.file content) ∧
      (∀ here, here ≠ there → written.node? here = fs.node? here) ∧
      (replace = false → fs.node? there = none) := by
  unfold store at h
  split at h
  · cases h
  · next slot hresolve =>
    obtain rfl := Except.ok.inj h
    obtain ⟨hpath, hchase⟩ := chase_of_resolve hresolve
    obtain ⟨used, there, rest, hused, hpass, hsettles⟩ := exists_settles hchase
    obtain ⟨rfl, hparent, hsize, hnone, more, rfl, hmore⟩ := hsettles.vacant_inv
    have hmore : more = [] := by
      refine hmore.resolve_right ?_
      split <;> exact nofun
    subst hmore
    have hkeeps : Keeps fs (fs.put slot (.file content)) :=
      keeps_put_file fun node hnode => absurd (hnone.symm.trans hnode) nofun
    have hdown : (fs.put slot (.file content)).Goes 0 slot.parent [.down slot.name] slot.place [] :=
      .down (hkeeps.directory hparent) hsize (node?_put_self fs slot _) nofun
    have hway := (hkeeps.passes hpass).snoc hdown
    rw [← originOf_put] at hway
    exact ⟨slot.place, resolve_of_passes hpath hused hway, node?_put_self _ _ _,
      fun here hhere => node?_put_other hhere, fun _ => hnone⟩
  · next here hresolve =>
    split at h
    · cases h
    next hreplace =>
    rw [if_pos (Bool.eq_true_of_not_eq_false hreplace)] at hresolve
    split at h
    · next name parent old hnode =>
      obtain rfl := Except.ok.inj h
      obtain ⟨hpath, hchase⟩ := chase_of_resolve hresolve
      obtain ⟨used, there, rest, hused, hpass, hsettles⟩ := exists_settles hchase
      have hkeeps : Keeps fs (fs.put ⟨parent, name⟩ (.file content)) := by
        refine keeps_put_file fun node hheld => ⟨old, ?_⟩
        exact Option.some.inj (hheld.symm.trans hnode)
      cases hsettles with
      | arrived =>
        have hway := hkeeps.passes hpass
        rw [← originOf_put] at hway
        exact ⟨name :: parent, resolve_of_passes hpath hused hway,
          node?_put_self _ ⟨parent, name⟩ _, fun here hhere => node?_put_other hhere,
          fun hfalse => absurd hfalse hreplace⟩
      | entry _ _ _ _ hfile => exact absurd rfl hfile
    · cases h

/-- A path leads to the file that was made at it. -/
theorem contentOf_of_resolve (h : fs.resolve .target path = .ok (.existing there))
    (hnode : fs.node? there = some (.file content)) : fs.contentOf path = .ok content := by
  have hstat : fs.stat path = .ok (.file content) := by simp [stat, h, hnode, bind, Except.bind]
  rw [contentOf, hstat]

end FileSystem

end PathSieve
