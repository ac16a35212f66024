import PathSieve.Proofs.Following

/-!
# What a path leads to

A path is looked up in steps: a part that means nothing is passed over, `..` goes up, a name goes
down to what it names, and a link is replaced by the parts of its target (`Goes`). Wherever no step
can be taken, the look-up has its answer (`Stops`): something was found, or nothing has the name
that comes next, or the path goes on from something that is no directory, or the name is too long,
or too many links were followed.

One of the two is always the case, and every step brings the end of the parts closer or costs a link
(`goes_or_stops`). So every look-up comes to an answer, and it is the one that the system gives
(`stat_eq_iff`).
-/

namespace PathSieve.FileSystem

open PathSieve.Path (isAbsolute)

variable {fs : FileSystem} {here mid there : Location} {parts more rest : List Part} {node : Node}
variable {cost links left used : Nat} {answer : Except Errno Node}

/-! ## Steps -/

/-- `fs.Goes cost here parts there rest`: one step on the way from a place along some parts, and how
many links it follows. -/
inductive Goes (fs : FileSystem) : Nat → Location → List Part → Location → List Part → Prop
  | idle {here : Location} {part : Part} {rest : List Part}
      (hhere : fs.node? here = some .directory) (hpart : part.isIdle = true) :
      Goes fs 0 here (part :: rest) here rest
  | up {here : Location} {rest : List Part} (hhere : fs.node? here = some .directory) :
      Goes fs 0 here (.up :: rest) here.tail rest
  | down {here : Location} {name : Name} {node : Node} {rest : List Part}
      (hhere : fs.node? here = some .directory) (hsize : name.val.utf8ByteSize ≤ maxNameBytes)
      (hnode : fs.node? (name :: here) = some node) (hlink : ∀ target, node ≠ .link target) :
      Goes fs 0 here (.down name :: rest) (name :: here) rest
  | link {here : Location} {name : Name} {target : String} {rest : List Part}
      (hhere : fs.node? here = some .directory) (hsize : name.val.utf8ByteSize ≤ maxNameBytes)
      (hnode : fs.node? (name :: here) = some (.link target)) :
      Goes fs 1 here (.down name :: rest) (linkStart here target) (partsOf target ++ rest)

/-- `fs.Passes links here parts there rest`: the way from a place along some parts leads, through so
many links, to another place with the rest of the way ahead. -/
inductive Passes (fs : FileSystem) : Nat → Location → List Part → Location → List Part → Prop
  | refl {here : Location} {parts : List Part} : Passes fs 0 here parts here parts
  | head {cost links : Nat} {here mid there : Location} {parts more rest : List Part}
      (hgo : fs.Goes cost here parts mid more) (h : Passes fs links mid more there rest) :
      Passes fs (cost + links) here parts there rest

/-- `fs.Stops left here rest answer`: from here no step can be taken along the rest when so many
links may still be followed, and what the answer is. -/
inductive Stops (fs : FileSystem) (left : Nat) :
    Location → List Part → Except Errno Node → Prop
  | found {here : Location} {node : Node} (hnode : fs.node? here = some node) :
      Stops fs left here [] (.ok node)
  | lost {here : Location} (hnode : fs.node? here = none) : Stops fs left here [] (.error .noEntry)
  | unnamed {here : Location} {name : Name} {rest : List Part}
      (hhere : fs.node? here = some .directory) (hsize : name.val.utf8ByteSize ≤ maxNameBytes)
      (hnode : fs.node? (name :: here) = none) :
      Stops fs left here (.down name :: rest) (.error .noEntry)
  | blocked {here : Location} {part : Part} {rest : List Part}
      (hhere : fs.node? here ≠ some .directory) :
      Stops fs left here (part :: rest) (.error .notDirectory)
  | overlong {here : Location} {name : Name} {rest : List Part}
      (hhere : fs.node? here = some .directory) (hsize : maxNameBytes < name.val.utf8ByteSize) :
      Stops fs left here (.down name :: rest) (.error .nameTooLong)
  | exhausted {here : Location} {name : Name} {target : String} {rest : List Part}
      (hhere : fs.node? here = some .directory) (hsize : name.val.utf8ByteSize ≤ maxNameBytes)
      (hnode : fs.node? (name :: here) = some (.link target)) (hleft : left = 0) :
      Stops fs left here (.down name :: rest) (.error .linkLoop)

/-- A look-up can take a step or stops, and a step that follows no link leaves fewer parts. -/
theorem goes_or_stops (fs : FileSystem) (left : Nat) (here : Location) (parts : List Part) :
    (∃ cost mid more, cost ≤ left ∧ fs.Goes cost here parts mid more ∧
      (cost = 0 → more.length < parts.length)) ∨ ∃ answer, fs.Stops left here parts answer := by
  cases parts with
  | nil =>
    cases hnode : fs.node? here with
    | none => exact .inr ⟨_, .lost hnode⟩
    | some node => exact .inr ⟨_, .found hnode⟩
  | cons part rest =>
    have hshorter : rest.length < (part :: rest).length := Nat.lt_succ_self _
    by_cases hhere : fs.node? here = some .directory
    · cases part with
      | slash => exact .inl ⟨0, here, rest, Nat.zero_le _, .idle hhere rfl, fun _ => hshorter⟩
      | stay => exact .inl ⟨0, here, rest, Nat.zero_le _, .idle hhere rfl, fun _ => hshorter⟩
      | up => exact .inl ⟨0, here.tail, rest, Nat.zero_le _, .up hhere, fun _ => hshorter⟩
      | down name =>
        by_cases hsize : name.val.utf8ByteSize ≤ maxNameBytes
        · cases hnode : fs.node? (name :: here) with
          | none => exact .inr ⟨_, .unnamed hhere hsize hnode⟩
          | some node =>
            cases node with
            | directory =>
              exact .inl ⟨0, _, rest, Nat.zero_le _, .down hhere hsize hnode nofun, fun _ => hshorter⟩
            | file content =>
              exact .inl ⟨0, _, rest, Nat.zero_le _, .down hhere hsize hnode nofun, fun _ => hshorter⟩
            | link target =>
              by_cases hleft : left = 0
              · exact .inr ⟨_, .exhausted hhere hsize hnode hleft⟩
              · exact .inl ⟨1, _, _, Nat.pos_of_ne_zero hleft, .link hhere hsize hnode, nofun⟩
        · exact .inr ⟨_, .overlong hhere (Nat.lt_of_not_le hsize)⟩
    · exact .inr ⟨_, .blocked hhere⟩

/-- Every look-up comes to an answer. -/
theorem exists_stops (fs : FileSystem) (links : Nat) (here : Location) (parts : List Part) :
    ∃ used left there rest answer, used + left = links ∧ fs.Passes used here parts there rest ∧
      fs.Stops left there rest answer := by
  -- a link makes the parts longer, but leaves fewer links
  induction links using Nat.strongRecOn generalizing here parts with
  | ind links ihlinks =>
    induction hlength : parts.length using Nat.strongRecOn generalizing here parts with
    | ind length ihparts =>
      rcases goes_or_stops fs links here parts with ⟨cost, mid, more, hcost, hgo, hless⟩ | hstops
      · have hrest : ∃ used left there rest answer, used + left = links - cost ∧
            fs.Passes used mid more there rest ∧ fs.Stops left there rest answer := by
          by_cases hzero : cost = 0
          · subst hzero
            exact ihparts _ (hlength ▸ hless rfl) mid more rfl
          · exact ihlinks (links - cost) (by omega) mid more
        obtain ⟨used, left, there, rest, answer, hsum, hpass, hstops⟩ := hrest
        exact ⟨cost + used, left, there, rest, answer, by omega, .head hgo hpass, hstops⟩
      · obtain ⟨answer, hstops⟩ := hstops
        exact ⟨0, links, here, parts, answer, Nat.zero_add links, .refl, hstops⟩

/-! ## The answer of the system -/

/-- What the place that a path leads to makes of the answer. -/
def nodeAt (fs : FileSystem) : Except Errno Target → Except Errno Node
  | .error errno => .error errno
  | .ok (.vacant _) => .error .noEntry
  | .ok (.existing here) =>
    match fs.node? here with
    | some node => .ok node
    | none => .error .noEntry

/-- The place that the parts of a path are followed from. -/
def originOf (fs : FileSystem) (path : String) : Location :=
  if isAbsolute path.toList then [] else fs.cwd

/-- Whether the system takes a path at all: it has no NUL and is not too long. -/
def Accepted (path : String) : Prop := '\x00' ∉ path.toList ∧ path.utf8ByteSize ≤ maxPathBytes

/-- Following takes the same steps. -/
theorem chase_of_goes (h : fs.Goes cost here parts mid more) (left : Nat) :
    fs.chase .target (cost + left) here parts = fs.chase .target left mid more := by
  cases h with
  | idle hhere hpart => rw [Nat.zero_add, chase_idle hpart hhere]
  | up hhere => rw [Nat.zero_add, chase_up hhere]
  | down hhere hsize hnode hlink => rw [Nat.zero_add, chase_down hhere hsize hnode hlink]
  | link hhere hsize hnode =>
    rw [Nat.add_comm, chase_link hhere hsize hnode]
    rfl

theorem chase_of_passes (h : fs.Passes used here parts there rest) (left : Nat) :
    fs.chase .target (used + left) here parts = fs.chase .target left there rest := by
  induction h with
  | refl => rw [Nat.zero_add]
  | head hgo _ ih => rw [Nat.add_assoc, chase_of_goes hgo, ih]

/-- Where a look-up stops, following gives the answer. -/
theorem nodeAt_chase_of_stops (h : fs.Stops left here rest answer) :
    fs.nodeAt (fs.chase .target left here rest) = answer := by
  cases h with
  | found hnode => simp only [chase_nil, nodeAt, hnode]
  | lost hnode => simp only [chase_nil, nodeAt, hnode]
  | unnamed hhere hsize hnode =>
    rw [chase_eq_follow]
    simp only [follow, hhere, hnode, Aim.wantsFile, Nat.not_lt.mpr hsize]
    rw [if_neg (not_not_intro rfl), if_neg (fun h => Bool.false_ne_true h.2.2), if_neg not_false]
    split <;> rfl
  | blocked hhere =>
    rw [chase_eq_follow]
    simp [follow, hhere, nodeAt]
  | overlong hhere hsize =>
    rw [chase_eq_follow]
    simp [follow, hhere, nodeAt, Aim.wantsFile, hsize]
  | exhausted hhere hsize hnode hleft =>
    rw [hleft, chase_link hhere hsize hnode]
    rfl

theorem stat_of_accepted {path : String} (hne : path ≠ "") (haccepted : Accepted path) :
    fs.stat path = fs.nodeAt (fs.chase .target maxLinks (fs.originOf path) (partsOf path)) := by
  obtain ⟨hnul, hlength⟩ := haccepted
  have hargument : checkArgument "path" path = .ok () := if_neg hnul
  have hcheck : checkLength path = .ok () := by
    rw [checkLength, if_neg hne, if_neg (Nat.not_lt.mpr hlength)]
  have hresolve : fs.resolve .target path =
      fs.chase .target maxLinks (fs.originOf path) (partsOf path) := by
    rw [resolve, hargument, hcheck]
    rfl
  rw [stat, hresolve]
  cases fs.chase .target maxLinks (fs.originOf path) (partsOf path) with
  | error errno => rfl
  | ok reached => cases reached <;> rfl

/-- The system answers with what the look-up of an accepted path comes to. -/
theorem stat_eq_iff {path : String} (hne : path ≠ "") (haccepted : Accepted path) :
    fs.stat path = answer ↔ ∃ used left there rest, used + left = maxLinks ∧
      fs.Passes used (fs.originOf path) (partsOf path) there rest ∧ fs.Stops left there rest answer := by
  have hanswer : ∀ {used left there rest answer}, used + left = maxLinks →
      fs.Passes used (fs.originOf path) (partsOf path) there rest → fs.Stops left there rest answer →
      fs.stat path = answer := by
    intro used left there rest answer hsum hpass hstops
    rw [stat_of_accepted hne haccepted, ← hsum, chase_of_passes hpass, nodeAt_chase_of_stops hstops]
  constructor
  · intro h
    obtain ⟨used, left, there, rest, answer', hsum, hpass, hstops⟩ :=
      exists_stops fs maxLinks (fs.originOf path) (partsOf path)
    obtain rfl : answer' = answer := (hanswer hsum hpass hstops).symm.trans h
    exact ⟨used, left, there, rest, hsum, hpass, hstops⟩
  · rintro ⟨used, left, there, rest, hsum, hpass, hstops⟩
    exact hanswer hsum hpass hstops

/-- A path that is not accepted is refused for that. -/
theorem stat_of_not_accepted (fs : FileSystem) {path : String} (hne : path ≠ "") (h : ¬ Accepted path) :
    fs.stat path = .error (.nulByte "path" path) ∨ fs.stat path = .error .nameTooLong := by
  by_cases hnul : '\x00' ∈ path.toList
  · have hargument : checkArgument "path" path = .error (.nulByte "path" path) := if_pos hnul
    refine .inl ?_
    rw [stat, resolve, hargument]
    rfl
  · have hargument : checkArgument "path" path = .ok () := if_neg hnul
    have hlong : path.utf8ByteSize > maxPathBytes := Nat.lt_of_not_le fun hle => h ⟨hnul, hle⟩
    have hcheck : checkLength path = .error .nameTooLong := by
      rw [checkLength, if_neg hne, if_pos hlong]
    refine .inr ?_
    rw [stat, resolve, hargument, hcheck]
    rfl

/-! ## Something, nothing, or neither -/

/-- `fs.Holds path node`: the path leads to the node, as far as the system follows it. -/
def Holds (fs : FileSystem) (path : String) (node : Node) : Prop :=
  Accepted path ∧ ∃ links there, links ≤ maxLinks ∧
    fs.Passes links (fs.originOf path) (partsOf path) there [] ∧ fs.node? there = some node

/-- Whether nothing is where the rest of a path leads next. -/
inductive Vacant (fs : FileSystem) : Location → List Part → Prop
  | lost {here : Location} (hnode : fs.node? here = none) : Vacant fs here []
  | unnamed {here : Location} {name : Name} {rest : List Part}
      (hhere : fs.node? here = some .directory) (hnode : fs.node? (name :: here) = none) :
      Vacant fs here (.down name :: rest)

/-- Whether there is nothing at a path, whoever follows it: it goes on by a name that nothing has, or
from something that is no directory. -/
def NothingAt (fs : FileSystem) (path : String) : Prop :=
  ∃ links there rest, fs.Passes links (fs.originOf path) (partsOf path) there rest ∧
    (fs.Vacant there rest ∨ rest ≠ [] ∧ fs.node? there ≠ some .directory)

/-- Whether there is nothing at a path since it goes on by a name that nothing has, and the system
gets as far as that name and can look for it. -/
def Lacks (fs : FileSystem) (path : String) : Prop :=
  Accepted path ∧ ∃ links there rest, links ≤ maxLinks ∧
    fs.Passes links (fs.originOf path) (partsOf path) there rest ∧ fs.Vacant there rest ∧
    ∀ name more, rest = .down name :: more → name.val.utf8ByteSize ≤ maxNameBytes

theorem Lacks.nothingAt {path : String} (h : fs.Lacks path) : fs.NothingAt path := by
  obtain ⟨-, links, there, rest, -, hpass, hvacant, -⟩ := h
  exact ⟨links, there, rest, hpass, .inl hvacant⟩

theorem stat_eq_ok_iff {path : String} (hne : path ≠ "") :
    fs.stat path = .ok node ↔ fs.Holds path node := by
  by_cases haccepted : Accepted path
  · rw [stat_eq_iff hne haccepted]
    constructor
    · rintro ⟨used, left, there, rest, hsum, hpass, hstops⟩
      cases hstops with
      | found hnode => exact ⟨haccepted, used, there, by omega, hpass, hnode⟩
    · rintro ⟨-, links, there, hle, hpass, hnode⟩
      exact ⟨links, maxLinks - links, there, [], by omega, hpass, .found hnode⟩
  · refine iff_of_false ?_ fun h => haccepted h.1
    rcases stat_of_not_accepted fs hne haccepted with h | h <;> rw [h] <;> exact nofun

theorem stat_eq_noEntry_iff {path : String} (hne : path ≠ "") :
    fs.stat path = .error .noEntry ↔ fs.Lacks path := by
  by_cases haccepted : Accepted path
  · rw [stat_eq_iff hne haccepted]
    constructor
    · rintro ⟨used, left, there, rest, hsum, hpass, hstops⟩
      refine ⟨haccepted, used, there, rest, by omega, hpass, ?_⟩
      cases hstops with
      | lost hnode => exact ⟨.lost hnode, nofun⟩
      | unnamed hhere hsize hnode =>
        refine ⟨.unnamed hhere hnode, ?_⟩
        intro name more heq
        cases heq
        exact hsize
    · rintro ⟨-, links, there, rest, hle, hpass, hvacant, hsize⟩
      refine ⟨links, maxLinks - links, there, rest, by omega, hpass, ?_⟩
      cases hvacant with
      | lost hnode => exact .lost hnode
      | unnamed hhere hnode => exact .unnamed hhere (hsize _ _ rfl) hnode
  · refine iff_of_false ?_ fun h => haccepted h.1
    rcases stat_of_not_accepted fs hne haccepted with h | h <;> rw [h] <;> exact nofun

/-- Where the system says that something is no directory, there is nothing at the path. -/
theorem nothingAt_of_notDirectory {path : String} (hne : path ≠ "")
    (h : fs.stat path = .error .notDirectory) : fs.NothingAt path := by
  have haccepted : Accepted path := by
    by_contra hnot
    rcases stat_of_not_accepted fs hne hnot with hstat | hstat <;> rw [hstat] at h <;> cases h
  obtain ⟨used, left, there, rest, -, hpass, hstops⟩ := (stat_eq_iff hne haccepted).mp h
  cases hstops with
  | blocked hhere => exact ⟨used, there, _, hpass, .inr ⟨List.cons_ne_nil _ _, hhere⟩⟩

/-- The next step is settled by where the way has got to. -/
theorem Goes.unique {cost' : Nat} {mid' : Location} {more' : List Part}
    (h : fs.Goes cost here parts mid more) (h' : fs.Goes cost' here parts mid' more') :
    mid = mid' ∧ more = more' := by
  cases h with
  | idle hhere hpart =>
    cases h' with
    | idle => exact ⟨rfl, rfl⟩
    | up => cases hpart
    | down => cases hpart
    | link => cases hpart
  | up hhere =>
    cases h' with
    | idle _ hpart => cases hpart
    | up => exact ⟨rfl, rfl⟩
  | down hhere hsize hnode hlink =>
    cases h' with
    | idle _ hpart => cases hpart
    | down => exact ⟨rfl, rfl⟩
    | link _ _ hnode' => exact absurd (Option.some.inj (hnode.symm.trans hnode')) (hlink _)
  | link hhere hsize hnode =>
    cases h' with
    | idle _ hpart => cases hpart
    | down _ _ hnode' hlink => exact absurd (Option.some.inj (hnode'.symm.trans hnode)) (hlink _)
    | link _ _ hnode' =>
      obtain rfl := Node.link.inj (Option.some.inj (hnode.symm.trans hnode'))
      exact ⟨rfl, rfl⟩

/-- Two ways along the same parts that cannot go on are at the same place. -/
theorem Passes.unique {links' : Nat} {there' : Location} {rest' : List Part}
    (h : fs.Passes links here parts there rest) (h' : fs.Passes links' here parts there' rest')
    (hend : ∀ cost mid more, ¬ fs.Goes cost there rest mid more)
    (hend' : ∀ cost mid more, ¬ fs.Goes cost there' rest' mid more) :
    there = there' ∧ rest = rest' := by
  induction h generalizing links' with
  | refl =>
    cases h' with
    | refl => exact ⟨rfl, rfl⟩
    | head hgo _ => exact absurd hgo (hend _ _ _)
  | head hgo _ ih =>
    cases h' with
    | refl => exact absurd hgo (hend' _ _ _)
    | head hgo' h' =>
      obtain ⟨rfl, rfl⟩ := hgo.unique hgo'
      exact ih h' hend

/-- No step leads on to what is not there. -/
theorem Vacant.not_goes (h : fs.Vacant here parts) : ¬ fs.Goes cost here parts mid more := by
  intro hgo
  cases h with
  | lost => cases hgo
  | unnamed _ hnone =>
    cases hgo with
    | idle _ hpart => cases hpart
    | down _ _ hsome => exact absurd (hnone.symm.trans hsome) nofun
    | link _ _ hsome => exact absurd (hnone.symm.trans hsome) nofun

/-- Every step starts from a directory. -/
theorem Goes.node?_eq (h : fs.Goes cost here parts mid more) : fs.node? here = some .directory := by
  cases h with
  | idle hhere => exact hhere
  | up hhere => exact hhere
  | down hhere => exact hhere
  | link hhere => exact hhere

/-- Nothing and something are never both at a path. -/
theorem not_holds_of_nothingAt {path : String} (h : fs.NothingAt path) : ¬ fs.Holds path node := by
  obtain ⟨links, there, rest, hpass, hnothing⟩ := h
  rintro ⟨-, links', there', -, hpass', hnode⟩
  have hend : ∀ cost mid more, ¬ fs.Goes cost there rest mid more := by
    intro cost mid more hgo
    rcases hnothing with hvacant | ⟨-, hblocked⟩
    · exact hvacant.not_goes hgo
    · exact hblocked hgo.node?_eq
  obtain ⟨rfl, rfl⟩ := hpass.unique hpass' hend nofun
  rcases hnothing with hvacant | ⟨hne, -⟩
  · cases hvacant with
    | lost hnone => exact absurd (hnone.symm.trans hnode) nofun
  · exact hne rfl

end PathSieve.FileSystem
