import PathSieve.Proofs.Making

/-!
# What holds what

In a file system that came about by the operations, everything but the root stands in a directory
(`Grounded`): nothing is put anywhere else, nothing but a directory takes the place of a directory,
and what is removed goes with all that it holds. So there is nothing below a place where nothing is.
-/

namespace PathSieve.FileSystem

variable {fs fs₁ : FileSystem} {here : Location} {slot : Slot} {node : Node} {path : String}

/-- Whether all that is there stands in a directory. -/
def Grounded (fs : FileSystem) : Prop :=
  ∀ name here node, fs.node? (name :: here) = some node → fs.node? here = some .directory

theorem grounded_empty : Grounded empty := nofun

/-- Nothing is below a place where nothing is. -/
theorem Grounded.node?_eq_none (h : Grounded fs) (hnone : fs.node? here = none) (name : Name) :
    fs.node? (name :: here) = none := by
  cases hnode : fs.node? (name :: here) with
  | none => rfl
  | some node => exact absurd (hnone.symm.trans (h name here node hnode)) nofun

/-- What is put into a directory, and not in place of one, leaves all else where it stands. -/
theorem Grounded.put (h : Grounded fs) (hparent : fs.node? slot.parent = some .directory)
    (hkept : fs.node? slot.place = some .directory → node = .directory) :
    Grounded (fs.put slot node) := by
  have hdirectory {here : Location} (hhere : fs.node? here = some .directory) :
      (fs.put slot node).node? here = some .directory := by
    by_cases hplace : here = slot.place
    · subst hplace
      rw [node?_put_self, hkept hhere]
    · rw [node?_put_other hplace, hhere]
  intro name here held hheld
  by_cases hplace : name :: here = slot.place
  · obtain ⟨-, rfl⟩ := List.cons.inj hplace
    exact hdirectory hparent
  · rw [node?_put_other hplace] at hheld
    exact hdirectory (h name here held hheld)

theorem Grounded.put_vacant (h : Grounded fs) (hparent : fs.node? slot.parent = some .directory)
    (hnone : fs.node? slot.place = none) : Grounded (fs.put slot node) :=
  h.put hparent fun hnode => absurd (hnone.symm.trans hnode) nofun

/-- Where nothing is, something can be put into a directory. -/
theorem slot_of_resolve {aim : Aim} (h : fs.resolve aim path = .ok (.vacant slot)) :
    fs.node? slot.parent = some .directory ∧ fs.node? slot.place = none := by
  obtain ⟨_, _, _, -, -, hsettles⟩ := exists_settles (chase_of_resolve h).2
  exact ⟨hsettles.vacant_inv.2.1, hsettles.vacant_inv.2.2.2.1⟩

/-! ## The operations -/

theorem Grounded.makeDirectory (h : Grounded fs) (hmake : fs.makeDirectory path = .ok fs₁) :
    Grounded fs₁ := by
  unfold FileSystem.makeDirectory at hmake
  split at hmake
  · cases hmake
  · cases hmake
  · next slot hresolve =>
    obtain rfl := Except.ok.inj hmake
    obtain ⟨hparent, hnone⟩ := slot_of_resolve hresolve
    exact h.put_vacant hparent hnone

theorem Grounded.makeWithParents (h : Grounded fs) (depth : Nat) (inner : Bool) (path : String) :
    Grounded (makeWithParents depth inner path fs).2 :=
  makeWithParents_induction (R := fun fs fs₁ => Grounded fs → Grounded fs₁) (fun _ => id)
    (fun h h₁ => h₁ ∘ h) (fun hmake h => h.makeDirectory hmake) depth inner path fs h

theorem Grounded.store (h : Grounded fs) {replace : Bool} {content : List UInt8}
    (hstore : fs.store replace path content = .ok fs₁) : Grounded fs₁ := by
  unfold FileSystem.store at hstore
  split at hstore
  · cases hstore
  · next slot hresolve =>
    obtain rfl := Except.ok.inj hstore
    obtain ⟨hparent, hnone⟩ := slot_of_resolve hresolve
    exact h.put_vacant hparent hnone
  · next here hresolve =>
    split at hstore
    · cases hstore
    split at hstore
    · next name parent old hnode =>
      obtain rfl := Except.ok.inj hstore
      refine h.put (h name parent _ hnode) fun hdirectory => ?_
      exact absurd (hnode.symm.trans hdirectory) nofun
    · cases hstore

theorem resolve_of_placeForLink {target : String} {reached : Target}
    (h : fs.placeForLink target path = .ok reached) : fs.resolve .newLink path = .ok reached := by
  unfold placeForLink at h
  cases htarget : checkArgument "target" target with
  | error e =>
    rw [htarget] at h
    cases h
  | ok _ =>
    cases hpath : checkArgument "path" path with
    | error e =>
      rw [htarget, hpath] at h
      cases h
    | ok _ =>
      cases hlength : checkLength target with
      | error e =>
        rw [htarget, hpath, hlength] at h
        cases h
      | ok _ =>
        rw [htarget, hpath, hlength] at h
        exact h

theorem Grounded.makeLink (h : Grounded fs) {target : String}
    (hmake : fs.makeLink target path = .ok fs₁) : Grounded fs₁ := by
  unfold FileSystem.makeLink at hmake
  split at hmake
  · cases hmake
  · cases hmake
  · next slot hplace =>
    obtain rfl := Except.ok.inj hmake
    obtain ⟨hparent, hnone⟩ := slot_of_resolve (resolve_of_placeForLink hplace)
    exact h.put_vacant hparent hnone

/-- Only what is below a place is removed with it. -/
theorem node?_remove (name : Name) (parent : Location) :
    (fs.remove here).node? (name :: parent) =
      if here.isSuffixOf (name :: parent) then none else fs.node? (name :: parent) := by
  rw [node?, node?, remove]
  dsimp only
  induction fs.nodes with
  | nil => simp
  | cons held nodes ih =>
    by_cases hslot : (⟨parent, name⟩ : Slot) = held.1
    · -- the slot itself is kept or not as its place says
      by_cases hsuffix : here.isSuffixOf (name :: parent) = true
      · rw [List.filter_cons_of_neg (by simp [← hslot, hsuffix]), ih, if_pos hsuffix,
          if_pos hsuffix]
      · rw [List.filter_cons_of_pos (by simp [← hslot, hsuffix]), if_neg hsuffix, List.lookup_cons,
          List.lookup_cons, hslot, beq_self_eq_true]
    · have hother : (⟨parent, name⟩ == held.1) = false := beq_false_of_ne hslot
      rw [List.lookup_cons, hother, List.filter_cons]
      split
      · rw [List.lookup_cons, hother]
        exact ih
      · exact ih

theorem Grounded.remove (h : Grounded fs) (here : Location) : Grounded (fs.remove here) := by
  intro name parent node hnode
  rw [node?_remove, Option.ite_none_left_eq_some] at hnode
  obtain ⟨hkept, hnode⟩ := hnode
  have hparent := h name parent node hnode
  cases parent with
  | nil => rfl
  | cons above parent =>
    rw [node?_remove, if_neg, hparent]
    rw [List.isSuffixOf_iff_suffix] at hkept ⊢
    exact fun hsuffix => hkept (hsuffix.trans (List.suffix_cons name _))

theorem Grounded.removeTree (h : Grounded fs) (hremove : fs.removeTree path = .ok fs₁) :
    Grounded fs₁ := by
  unfold FileSystem.removeTree at hremove
  split at hremove
  · obtain rfl := Except.ok.inj hremove
    exact h
  · cases hremove
  · obtain rfl := Except.ok.inj hremove
    exact h
  · split at hremove
    · cases hremove
    split at hremove
    · obtain rfl := Except.ok.inj hremove
      split
      · exact h.remove _
      · exact h
    · obtain rfl := Except.ok.inj hremove
      exact h

end PathSieve.FileSystem
