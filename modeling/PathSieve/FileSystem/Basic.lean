import PathSieve.FileSystem.Error
import PathSieve.Text.Split

/-!
# File systems

A file system is a finite map. What it holds stands under the directory that holds it and a name in
that directory, and is a directory, a file with its bytes, or a symbolic link with its target. The
root is a directory without being held by one. The order of the map is the order in which a
directory's entries come when nobody sorts them.

Names are such that a path can mean them: not empty, neither `.` nor `..`, and without `/`.

- `FileSystem.node?`: what a place holds.
- `FileSystem.put`, `FileSystem.remove`: changing what a place holds.
-/

namespace PathSieve

/-- Whether a text can name an entry of a directory. -/
def IsName (s : String) : Prop := s ≠ "" ∧ s ≠ "." ∧ s ≠ ".." ∧ '/' ∉ s.toList

instance (s : String) : Decidable (IsName s) := by unfold IsName; infer_instance

/-- The name of an entry. -/
abbrev Name := { s : String // IsName s }

/-- A place in a file system: the names that lead to it, the last one first. The root is `[]`. -/
abbrev Location := List Name

/-- What a place holds. -/
inductive Node where
  | directory
  | file (content : List UInt8)
  | link (target : String)
deriving DecidableEq, Repr

/-- A place other than the root, by its directory and its name there. -/
structure Slot where
  parent : Location
  name : Name
deriving DecidableEq, Repr

/-- A file system, with the directory that relative paths start from. -/
structure FileSystem where
  nodes : List (Slot × Node)
  cwd : Location
  distinct : (nodes.map Prod.fst).Nodup

namespace FileSystem

/-- A file system with nothing in its root. -/
def empty : FileSystem := ⟨[], [], by simp⟩

/-- What a place holds, if anything. -/
def node? (fs : FileSystem) : Location → Option Node
  | [] => some .directory
  | name :: parent => fs.nodes.lookup ⟨parent, name⟩

/-- Makes a slot hold a node in place of whatever it holds now. -/
def put (fs : FileSystem) (slot : Slot) (node : Node) : FileSystem :=
  if h : slot ∈ fs.nodes.map Prod.fst then
    { fs with
      nodes := fs.nodes.map fun held => if held.1 = slot then (slot, node) else held
      distinct := by
        have same : (fs.nodes.map fun held => if held.1 = slot then (slot, node) else held).map
            Prod.fst = fs.nodes.map Prod.fst := by
          rw [List.map_map]
          refine List.map_congr_left fun held _ => ?_
          by_cases hs : held.1 = slot <;> simp [hs]
        rw [same]
        exact fs.distinct }
  else
    { fs with
      nodes := fs.nodes ++ [(slot, node)]
      distinct := by
        rw [List.map_append, List.nodup_append]
        refine ⟨fs.distinct, by simp, ?_⟩
        intro a ha b hb hab
        simp only [List.map_cons, List.map_nil, List.mem_singleton] at hb
        exact h (hb ▸ hab ▸ ha) }

/-- Empties a place and all places below it. -/
def remove (fs : FileSystem) (here : Location) : FileSystem :=
  { fs with
    nodes := fs.nodes.filter fun held => !here.isSuffixOf (held.1.name :: held.1.parent)
    distinct := fs.distinct.sublist (List.filter_sublist.map _) }

end FileSystem

end PathSieve
