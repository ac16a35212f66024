import PathSieve.FileSystem.Resolve
import PathSieve.Proofs.Levels

/-!
# Following paths

Where a path leads is found part by part, and what a part does depends on the place reached so far
and on nothing behind it, as long as the path leads to something: it goes on to another place, or it
is a link and puts the parts of its target in front of the rest (`chase_step`). So a path that leads
somewhere can be continued from there (`exists_chase_append`), and empty parts and `.` can be left
out of it (`Thinned.chase`).

Joining a name to the path of a directory takes the path's dot segments out. Where none of these is
a `..` that takes a part back (`Direct`), that leaves out only what can be left out, and the joined
path leads to the entry of that name if it leads anywhere (`resolve_join_name`). A `..` that takes a
part back may not be left out: behind a link it leads to another place than the directory that the
part is in.
-/

namespace PathSieve

open Text (pieces pieces_append_sep sep_not_mem_pieces)

namespace Path

/-! ## Paths that go straight -/

/-- Whether no part of a path is taken back, so that its dot segments can be taken out by leaving
out empty parts and `.`. -/
def Direct (path : String) : Prop :=
  clean (isAbsolute path.toList) (pieces '/' path.toList) =
    (pieces '/' path.toList).filter fun p => p ≠ [] ∧ p ≠ dot

instance (path : String) : Decidable (Direct path) := by
  unfold Direct
  infer_instance

/-- Parts without `..` go straight. -/
theorem clean_of_no_dotDot (rooted : Bool) {parts : List (List Char)} (h : dotDot ∉ parts) :
    clean rooted parts = parts.filter fun p => p ≠ [] ∧ p ≠ dot := by
  have hfold : ∀ done, parts.foldl (step rooted) done =
      (parts.filter fun p => p ≠ [] ∧ p ≠ dot).reverse ++ done := by
    induction parts with
    | nil => exact fun done => rfl
    | cons part parts ih =>
      intro done
      rw [List.mem_cons, not_or] at h
      by_cases hidle : part = [] ∨ part = dot
      · have hstep : step rooted done part = done := if_pos hidle
        rw [List.foldl_cons, hstep, ih h.2, List.filter_cons_of_neg]
        simpa [← not_or] using hidle
      · have hplain : IsPlain part :=
          ⟨fun hnil => hidle (.inl hnil), fun hdot => hidle (.inr hdot), Ne.symm h.1⟩
        rw [List.foldl_cons, step_plain hplain, ih h.2, List.filter_cons_of_pos, List.reverse_cons,
          List.append_assoc]
        · rfl
        · simpa [← not_or] using hidle
  rw [clean, hfold, List.append_nil, List.reverse_reverse]

/-- Parts that are left of others, among empty ones, are left of all these. -/
theorem clean_surrounded {rooted : Bool} {front cleaned back : List (List Char)}
    (hcleaned : clean rooted cleaned = cleaned) (hfront : front = [] ∨ front = [[]])
    (hback : back = [] ∨ back = [[]]) :
    clean rooted (front ++ cleaned ++ back) =
      (front ++ cleaned ++ back).filter fun p => p ≠ [] ∧ p ≠ dot := by
  have hkept : cleaned.filter (fun p => p ≠ [] ∧ p ≠ dot) = cleaned := by
    refine List.filter_eq_self.mpr fun p hp => ?_
    rw [← hcleaned] at hp
    simpa using ne_of_mem_clean hp
  have hleft : clean rooted (front ++ cleaned) = cleaned := by
    rcases hfront with rfl | rfl
    · exact hcleaned
    · exact (clean_cons_nil rooted cleaned).trans hcleaned
  have hwhole : clean rooted (front ++ cleaned ++ back) = cleaned := by
    rcases hback with rfl | rfl
    · rw [List.append_nil, hleft]
    · rw [clean_append_nil, hleft]
  rw [hwhole, List.filter_append, List.filter_append, hkept]
  rcases hfront with rfl | rfl <;> rcases hback with rfl | rfl <;> simp

/-- A normalized path goes straight. -/
theorem direct_normalizeChars (path : List Char) :
    Direct (String.ofList (normalizeChars path)) := by
  have hparts : ∀ p ∈ clean (isAbsolute path) (pieces '/' path), p ≠ [] ∧ '/' ∉ p := fun p hp =>
    ⟨(ne_of_mem_clean hp).1, sep_not_mem_pieces _ _ p (mem_of_mem_clean hp)⟩
  have hclean := clean_clean (isAbsolute path) (pieces '/' path)
  simp only [normalizeChars]
  generalize clean (isAbsolute path) (pieces '/' path) = cleaned at hparts hclean ⊢
  by_cases hnil : cleaned = []
  · -- nothing is left, which is `/`, `.` or `./`
    rw [if_pos hnil]
    split
    · decide
    · split <;> decide
  · rw [if_neg hnil]
    obtain ⟨habs, hpieces⟩ := pieces_ofParts (isAbsolute path) hnil hparts
    have hfront : (if isAbsolute path then [[]] else []) = ([] : List (List Char)) ∨
        (if isAbsolute path then [[]] else []) = [([] : List Char)] := by
      split
      · exact .inr rfl
      · exact .inl rfl
    rw [Direct, String.toList_ofList]
    split
    · -- a slash that is kept at the end is one more empty part
      have hfull : ofParts (isAbsolute path) cleaned ≠ [] := by
        intro hempty
        obtain ⟨p, hp⟩ := List.exists_mem_of_ne_nil cleaned hnil
        have hmem := List.mem_append_right (if isAbsolute path then [[]] else []) hp
        rw [← hpieces, hempty] at hmem
        exact (hparts p hp).1 (List.mem_singleton.mp hmem)
      have hhead : isAbsolute (ofParts (isAbsolute path) cleaned ++ ['/']) = isAbsolute path := by
        rwa [isAbsolute, List.head?_append_of_ne_nil _ hfull]
      have hslash : pieces '/' ['/'] = [[], []] := rfl
      rw [hhead, pieces_append_sep, hpieces]
      exact clean_surrounded hclean hfront (.inr rfl)
    · rw [List.append_nil, habs, hpieces, ← List.append_nil (_ ++ cleaned)]
      exact clean_surrounded hclean hfront (.inl rfl)

theorem direct_join (first second : String) : Direct (join first second) := direct_normalizeChars _

end Path

open PathSieve.Path (Direct clean dot isAbsolute pieces_join_name)

namespace FileSystem

variable {fs : FileSystem} {links : Nat} {here there : Location} {part : Part}
variable {parts rest more : List Part}

/-! ## One part -/

/-- How parts are followed from a link when so many links may be followed. -/
def jumpOf (fs : FileSystem) : (links : Nat) → Location → List Part → Except Errno Target
  | 0 => fun _ _ => .error .linkLoop
  | links + 1 => fs.chase .target links

theorem chase_eq_follow (fs : FileSystem) (links : Nat) :
    fs.chase .target links = fs.follow .target (fs.jumpOf links) := by
  cases links <;> rfl

theorem chase_nil (fs : FileSystem) (links : Nat) (here : Location) :
    fs.chase .target links here [] = .ok (.existing here) := by
  rw [chase_eq_follow]
  rfl

/-- Only a directory can be looked into. -/
theorem directory_of_chase_cons
    (h : fs.chase .target links here (part :: rest) = .ok (.existing there)) :
    fs.node? here = some .directory := by
  by_contra hnode
  rw [chase_eq_follow] at h
  simp [follow, hnode] at h

/-- Whether a part stays where it is. -/
def Part.isIdle : Part → Bool
  | .slash => true
  | .stay => true
  | .up => false
  | .down _ => false

theorem chase_idle (hpart : part.isIdle = true) (hhere : fs.node? here = some .directory)
    (links : Nat) (rest : List Part) :
    fs.chase .target links here (part :: rest) = fs.chase .target links here rest := by
  rw [chase_eq_follow]
  cases part with
  | slash => simp [follow, hhere]
  | stay => simp [follow, hhere]
  | up => cases hpart
  | down name => cases hpart

theorem chase_up (hhere : fs.node? here = some .directory) (links : Nat) (rest : List Part) :
    fs.chase .target links here (.up :: rest) = fs.chase .target links here.tail rest := by
  rw [chase_eq_follow]
  simp [follow, hhere]

/-- A name goes down to what it names, unless that is a link. -/
theorem chase_down {name : Name} {node : Node} (hhere : fs.node? here = some .directory)
    (hsize : name.val.utf8ByteSize ≤ maxNameBytes) (hnode : fs.node? (name :: here) = some node)
    (hlink : ∀ target, node ≠ .link target) (links : Nat) (rest : List Part) :
    fs.chase .target links here (.down name :: rest) =
      fs.chase .target links (name :: here) rest := by
  rw [chase_eq_follow]
  cases node with
  | link target => exact absurd rfl (hlink target)
  | directory => simp [follow, hhere, hnode, Aim.wantsFile, Aim.stopsThere, Nat.not_lt.mpr hsize]
  | file content => simp [follow, hhere, hnode, Aim.wantsFile, Aim.stopsThere, Nat.not_lt.mpr hsize]

/-- The place that the target of a link in a directory is followed from. -/
def linkStart (here : Location) (target : String) : Location :=
  if isAbsolute target.toList then [] else here

/-- The name of a link puts the parts of the target in front of the rest. -/
theorem chase_link {name : Name} {target : String} (hhere : fs.node? here = some .directory)
    (hsize : name.val.utf8ByteSize ≤ maxNameBytes)
    (hnode : fs.node? (name :: here) = some (.link target)) (links : Nat) (rest : List Part) :
    fs.chase .target links here (.down name :: rest) =
      fs.jumpOf links (linkStart here target) (partsOf target ++ rest) := by
  rw [chase_eq_follow]
  simp [follow, hhere, hnode, Aim.wantsFile, Aim.throughLink, Nat.not_lt.mpr hsize, linkStart]

/-- A name on the way to something names something itself, and is not too long. -/
theorem exists_node_of_chase_down {name : Name}
    (h : fs.chase .target links here (.down name :: rest) = .ok (.existing there)) :
    name.val.utf8ByteSize ≤ maxNameBytes ∧ ∃ node, fs.node? (name :: here) = some node := by
  have hhere := directory_of_chase_cons h
  rw [chase_eq_follow] at h
  by_cases hsize : name.val.utf8ByteSize ≤ maxNameBytes
  · refine ⟨hsize, ?_⟩
    cases hnode : fs.node? (name :: here) with
    | some node => exact ⟨node, rfl⟩
    | none =>
      simp only [follow, hhere, hnode, Aim.wantsFile, Nat.not_lt.mpr hsize] at h
      simp at h
      split at h <;> cases h
  · simp [follow, hhere, Aim.wantsFile, Nat.lt_of_not_le hsize] at h

/-- What one part does on a path that leads to something, whatever stands behind it: it goes on to
another place, or it puts the target of a link in front, and then one link less may be followed. -/
theorem chase_step (h : fs.chase .target links here (part :: rest) = .ok (.existing there)) :
    (∃ next, ∀ rest, fs.chase .target links here (part :: rest) =
      fs.chase .target links next rest) ∨
    ∃ fewer start target, links = fewer + 1 ∧ ∀ rest,
      fs.chase .target links here (part :: rest) =
        fs.chase .target fewer start (target ++ rest) := by
  have hhere := directory_of_chase_cons h
  cases part with
  | slash => exact .inl ⟨here, chase_idle rfl hhere links⟩
  | stay => exact .inl ⟨here, chase_idle rfl hhere links⟩
  | up => exact .inl ⟨here.tail, chase_up hhere links⟩
  | down name =>
    obtain ⟨hsize, node, hnode⟩ := exists_node_of_chase_down h
    cases node with
    | directory => exact .inl ⟨name :: here, chase_down hhere hsize hnode nofun links⟩
    | file content => exact .inl ⟨name :: here, chase_down hhere hsize hnode nofun links⟩
    | link target =>
      have hjump := chase_link hhere hsize hnode links
      cases links with
      | zero =>
        rw [hjump] at h
        cases h
      | succ fewer => exact .inr ⟨fewer, _, _, rfl, hjump⟩

/-! ## Many parts -/

/-- A path that leads somewhere can be continued from there, with the links that are left. -/
theorem exists_chase_append (h : fs.chase .target links here parts = .ok (.existing there)) :
    ∃ left, ∀ rest, fs.chase .target links here (parts ++ rest) =
      fs.chase .target left there rest := by
  -- a link makes the parts longer, but leaves fewer links
  induction links using Nat.strongRecOn generalizing here parts with
  | ind links ihlinks =>
    induction parts generalizing here with
    | nil =>
      rw [chase_nil] at h
      cases h
      exact ⟨links, fun rest => rfl⟩
    | cons part parts ih =>
      rcases chase_step h with ⟨next, hnext⟩ | ⟨fewer, start, target, rfl, htarget⟩
      · rw [hnext] at h
        obtain ⟨left, hleft⟩ := ih h
        exact ⟨left, fun rest => (hnext _).trans (hleft rest)⟩
      · rw [htarget] at h
        obtain ⟨left, hleft⟩ := ihlinks fewer (Nat.lt_succ_self fewer) h
        refine ⟨left, fun rest => (htarget _).trans ?_⟩
        show fs.chase .target fewer start (target ++ (parts ++ rest)) = _
        rw [← List.append_assoc]
        exact hleft rest

/-- Whether some parts are others with idle ones left out. -/
inductive Thinned : List Part → List Part → Prop
  | nil : Thinned [] []
  | keep {parts rest : List Part} (part : Part) (thin : Thinned rest parts) :
      Thinned (part :: rest) (part :: parts)
  | drop {part : Part} {parts rest : List Part} (idle : part.isIdle = true)
      (thin : Thinned rest parts) : Thinned rest (part :: parts)

theorem thinned_filter (parts : List Part) : Thinned (parts.filter (!·.isIdle)) parts := by
  induction parts with
  | nil => exact .nil
  | cons part parts ih =>
    cases hidle : part.isIdle with
    | true =>
      rw [List.filter_cons_of_neg (by simp [hidle])]
      exact .drop hidle ih
    | false =>
      rw [List.filter_cons_of_pos (by simp [hidle])]
      exact .keep part ih

theorem Thinned.append_left (h : Thinned rest parts) (before : List Part) :
    Thinned (before ++ rest) (before ++ parts) := by
  induction before with
  | nil => exact h
  | cons part before ih => exact .keep part ih

/-- Idle parts can be left out of a path that leads to something. -/
theorem Thinned.chase (hthin : Thinned rest parts)
    (h : fs.chase .target links here parts = .ok (.existing there)) :
    fs.chase .target links here rest = .ok (.existing there) := by
  induction links using Nat.strongRecOn generalizing here parts rest with
  | ind links ihlinks =>
    induction hthin generalizing here with
    | nil => exact h
    | @keep parts rest part hthin ih =>
      rcases chase_step h with ⟨next, hnext⟩ | ⟨fewer, start, target, rfl, htarget⟩
      · rw [hnext] at h ⊢
        exact ih h
      · rw [htarget] at h ⊢
        exact ihlinks fewer (Nat.lt_succ_self fewer) (hthin.append_left target) h
    | @drop part parts rest hidle hthin ih =>
      rw [chase_idle hidle (directory_of_chase_cons h)] at h
      exact ih h

/-- From a directory, one name leads to the directory that it names, if it leads anywhere. -/
theorem eq_of_chase_down {name : Name} {reached : Target}
    (hsub : fs.node? (name :: here) = some .directory)
    (h : fs.chase .target links here [.down name] = .ok reached) :
    reached = .existing (name :: here) := by
  rw [chase_eq_follow] at h
  simp only [follow, hsub] at h
  split at h
  · cases h
  · split at h
    · cases h
    · split at h
      · cases h
      · simpa [Aim.stopsThere, eq_comm] using h

/-! ## Paths of entries -/

theorem Part.ofText_chars (name : Name) : Part.ofText (String.ofList name.chars) = .down name := by
  have hname : String.ofList name.chars = name.val := String.ofList_toList
  rw [hname, Part.ofText, dif_pos name.property]

/-- Empty pieces and `.` are the idle parts. -/
theorem Part.isIdle_ofText {cs : List Char} (h : '/' ∉ cs) :
    (Part.ofText (String.ofList cs)).isIdle = true ↔ cs = [] ∨ cs = dot := by
  by_cases hempty : cs = []
  · subst hempty
    exact iff_of_true rfl (.inl rfl)
  by_cases hdot : cs = dot
  · subst hdot
    exact iff_of_true rfl (.inr rfl)
  refine iff_of_false ?_ (not_or.mpr ⟨hempty, hdot⟩)
  by_cases hup : String.ofList cs = ".."
  · rw [hup]
    decide
  · have hname : IsName (String.ofList cs) := by
      refine ⟨fun h => hempty (String.ofList_inj.mp h), fun h => hdot (String.ofList_inj.mp h),
        hup, ?_⟩
      rwa [String.toList_ofList]
    rw [Part.ofText, dif_pos hname]
    exact Bool.false_ne_true

/-- The parts of a path that a name is joined to: the solid ones of the path, and the name. -/
theorem partsOf_join_name {dir : String} (h : Direct dir) (name : Name) :
    partsOf (Path.join dir name.val) =
      (if isAbsolute dir.toList then [.slash] else []) ++
        ((partsOf dir).filter (!·.isIdle) ++ [.down name]) := by
  have hfront : (if isAbsolute dir.toList then [[]] else []).map
      (fun cs => Part.ofText (String.ofList cs)) =
        if isAbsolute dir.toList then [.slash] else [] := by
    split <;> rfl
  have hsolid : ∀ cs ∈ pieces '/' dir.toList,
      decide (cs ≠ [] ∧ cs ≠ dot) = !(Part.ofText (String.ofList cs)).isIdle := by
    intro cs hcs
    rw [Bool.eq_iff_iff, decide_eq_true_iff, Bool.not_eq_true', ← Bool.not_eq_true,
      Part.isIdle_ofText (sep_not_mem_pieces _ _ cs hcs), not_or]
  rw [partsOf, (pieces_join_name dir name).2, h, List.map_append, List.map_append, hfront,
    List.map_singleton, Part.ofText_chars, partsOf, List.filter_map]
  congr 3
  exact List.filter_congr hsolid

theorem resolve_eq_ok_iff {path : String} {reached : Target} :
    fs.resolve .target path = .ok reached ↔
      (checkArgument "path" path = .ok () ∧ checkLength path = .ok ()) ∧
        fs.chase .target maxLinks (if isAbsolute path.toList then [] else fs.cwd) (partsOf path) =
          .ok reached := by
  unfold resolve
  cases checkArgument "path" path with
  | error e => simp [bind, Except.bind]
  | ok _ =>
    cases checkLength path with
    | error e => simp [bind, Except.bind]
    | ok _ => simp [bind, Except.bind]

/-- A name joined to the path of a directory leads to the directory of that name, if it leads
anywhere, where the path goes straight. -/
theorem resolve_join_name {dir : String} (hdirect : Direct dir) {here : Location}
    (hdir : fs.resolve .target dir = .ok (.existing here)) {name : Name}
    (hsub : fs.node? (name :: here) = some .directory) {reached : Target}
    (h : fs.resolve .target (Path.join dir name.val) = .ok reached) :
    reached = .existing (name :: here) := by
  have hparts := (resolve_eq_ok_iff.mp hdir).2
  have hjoined := (resolve_eq_ok_iff.mp h).2
  rw [partsOf_join_name hdirect, (pieces_join_name dir name).1] at hjoined
  obtain ⟨left, hleft⟩ := exists_chase_append ((thinned_filter _).chase hparts)
  have hslash : ∀ rest, fs.chase .target maxLinks (if isAbsolute dir.toList then [] else fs.cwd)
      ((if isAbsolute dir.toList then [.slash] else []) ++ rest) =
        fs.chase .target maxLinks (if isAbsolute dir.toList then [] else fs.cwd) rest := by
    intro rest
    split
    · exact chase_idle rfl rfl _ _
    · rfl
  rw [hslash, hleft] at hjoined
  exact eq_of_chase_down hsub hjoined

end FileSystem

end PathSieve
