import Mathlib.Data.List.Dedup
import Mathlib.Data.List.Lex
import Mathlib.Data.List.Perm.Basic
import PathSieve.Proofs.RealDirectories

/-!
# The order that entries come in

A file system gives the entries of a directory in some order of its own, and they are sorted by name
before anyone sees them. By their UTF-16 units names are in a strict order: the units of a text
determine it, for no character has units that could begin, or be, those of another
(`Text.units_inj`). A directory holds a name only once, so there is one sorted list of its entries,
whichever order they came in (`FileSystem.Reordered.list_eq`). Nothing else that a search asks of a
file system has anything to do with order, and so the whole search is the same: what it lists, what
it finds, and at which directory it fails (`FileSystem.find_order_free`).
-/

namespace PathSieve

namespace Text

variable {a b c : String}

/-! ## The order of names -/

theorem unitsOf_ne_nil (c : Char) : unitsOf c ≠ [] := by
  unfold unitsOf
  split <;> exact List.cons_ne_nil _ _

/-- The units of a character are read in one way. A character of one unit is no surrogate, and the
two surrogates of a character have room for no other one. -/
theorem unitsOf_append_inj {c d : Char} {as bs : List Nat}
    (h : unitsOf c ++ as = unitsOf d ++ bs) : c = d ∧ as = bs := by
  have hc : c.toNat.isValidChar := c.valid
  have hd : d.toNat.isValidChar := d.valid
  unfold Nat.isValidChar at hc hd
  have hsame : c.toNat = d.toNat ∧ as = bs := by
    unfold unitsOf at h
    split at h <;> split at h <;>
      simp only [List.cons_append, List.nil_append, List.cons.injEq] at h
    · exact h
    · omega
    · omega
    · obtain ⟨hhigh, hlow, hrest⟩ := h
      exact ⟨by omega, hrest⟩
  exact ⟨Char.toNat_inj.mp hsame.1, hsame.2⟩

theorem flatMap_unitsOf_inj {cs ds : List Char} (h : cs.flatMap unitsOf = ds.flatMap unitsOf) :
    cs = ds := by
  induction cs generalizing ds with
  | nil =>
    cases ds with
    | nil => rfl
    | cons d ds => exact absurd (List.append_eq_nil_iff.mp h.symm).1 (unitsOf_ne_nil d)
  | cons c cs ih =>
    cases ds with
    | nil => exact absurd (List.append_eq_nil_iff.mp h).1 (unitsOf_ne_nil c)
    | cons d ds =>
      obtain ⟨rfl, hrest⟩ := unitsOf_append_inj h
      rw [ih hrest]

/-- Texts with the same units are the same. -/
theorem units_inj (h : units a = units b) : a = b := String.toList_inj.mp (flatMap_unitsOf_inj h)

theorem unitsLE_iff : unitsLE a b = true ↔ units a ≤ units b := by
  rw [unitsLE, Bool.not_eq_true', Bool.eq_false_iff, Ne, List.lex_eq_true_iff_lt, not_lt]

theorem unitsLE_trans (a b c : String) (hab : unitsLE a b = true) (hbc : unitsLE b c = true) :
    unitsLE a c = true := by
  rw [unitsLE_iff] at hab hbc ⊢
  exact le_trans hab hbc

theorem unitsLE_total (a b : String) : (unitsLE a b || unitsLE b a) = true := by
  rw [Bool.or_eq_true, unitsLE_iff, unitsLE_iff]
  exact le_total _ _

/-- Of different texts one comes before the other. -/
theorem units_lt (hab : unitsLE a b = true) (hne : a ≠ b) : units a < units b :=
  lt_of_le_of_ne (unitsLE_iff.mp hab) (mt units_inj hne)

end Text

namespace FileSystem

open Walk

variable {fs fs' : FileSystem} {here : Location} {dir : String}

/-! ## Sorted entries -/

/-- The entries of a directory are sorted with each of them once. -/
theorem pairwise_mergeSort_entriesAt (fs : FileSystem) (here : Location) :
    ((fs.entriesAt here).mergeSort fun a b => Text.unitsLE a.name b.name).Pairwise
      fun a b => Text.units a.name < Text.units b.name := by
  have hnames : (((fs.entriesAt here).mergeSort fun a b =>
      Text.unitsLE a.name b.name).map Entry.name).Nodup :=
    ((List.mergeSort_perm _ _).map Entry.name).nodup_iff.mpr (fs.nodup_entriesAt here)
  have hsorted : ((fs.entriesAt here).mergeSort fun a b => Text.unitsLE a.name b.name).Pairwise
      fun a b => Text.unitsLE a.name b.name = true := by
    refine List.pairwise_mergeSort ?_ ?_ _
    · exact fun a b c => Text.unitsLE_trans a.name b.name c.name
    · exact fun a b => Text.unitsLE_total a.name b.name
  exact hsorted.imp₂ (fun a b hle hne => Text.units_lt hle hne) (List.pairwise_map.mp hnames)

/-! ## The same file system in another order -/

/-- Whether a file system is another one with all that it holds in another order. -/
def Reordered (fs fs' : FileSystem) : Prop := fs'.cwd = fs.cwd ∧ fs'.nodes.Perm fs.nodes

theorem Reordered.entriesAt_perm (h : Reordered fs fs') (here : Location) :
    (fs'.entriesAt here).Perm (fs.entriesAt here) := (h.2.filter _).map _

/-- What a place holds has nothing to do with order. -/
theorem Reordered.node?_eq (h : Reordered fs fs') (here : Location) :
    fs'.node? here = fs.node? here := by
  cases here with
  | nil => rfl
  | cons name parent =>
    refine Option.ext fun node => ?_
    exact mem_nodes_iff.symm.trans (h.2.mem_iff.trans mem_nodes_iff)

theorem follow_congr (h : ∀ here, fs'.node? here = fs.node? here) (aim : Aim)
    (jump : Location → List Part → Except Errno Target) (here : Location) (parts : List Part) :
    fs'.follow aim jump here parts = fs.follow aim jump here parts := by
  induction parts generalizing here with
  | nil => rfl
  | cons part parts ih => simp only [follow, h, ih]

theorem chase_congr (h : ∀ here, fs'.node? here = fs.node? here) (aim : Aim) (links : Nat) :
    fs'.chase aim links = fs.chase aim links := by
  induction links with
  | zero => exact funext fun here => funext fun parts => follow_congr h aim _ here parts
  | succ links ih =>
    funext here parts
    rw [chase, chase, ih]
    exact follow_congr h aim _ here parts

/-- Where a path leads has nothing to do with order. -/
theorem Reordered.resolve_eq (h : Reordered fs fs') (aim : Aim) (path : String) :
    fs'.resolve aim path = fs.resolve aim path := by
  rw [resolve, resolve, chase_congr h.node?_eq, h.1]

/-- Entries that come in another order are the same when they are sorted. -/
theorem Reordered.mergeSort_eq (h : Reordered fs fs') (here : Location) :
    ((fs'.entriesAt here).mergeSort fun a b => Text.unitsLE a.name b.name) =
      (fs.entriesAt here).mergeSort fun a b => Text.unitsLE a.name b.name := by
  refine List.Perm.eq_of_pairwise ?_ (fs'.pairwise_mergeSort_entriesAt here)
    (fs.pairwise_mergeSort_entriesAt here) ?_
  · exact fun a b _ _ hab hba => absurd hba (lt_asymm hab)
  · exact (List.mergeSort_perm _ _).trans
      ((h.entriesAt_perm here).trans (List.mergeSort_perm _ _).symm)

theorem Reordered.list_eq (h : Reordered fs fs') (dir : String) : fs'.list dir = fs.list dir := by
  simp only [list, h.resolve_eq, h.node?_eq, h.mergeSort_eq]

theorem Reordered.listing_eq (h : Reordered fs fs') : fs'.listing = fs.listing :=
  funext fun dir => congrArg _ (h.list_eq dir)

/-! ## Every order that there can be -/

section Blocks

variable {α κ : Type} [DecidableEq κ] {key : α → κ} {xs : List α} {block : κ → List α}

/-- Of blocks of which only one is kept, that one is left, if it is there. -/
theorem flatMap_ite {keys : List κ} (hkeys : keys.Nodup) (k : κ) :
    (keys.flatMap fun l => if l = k then block l else []) = if k ∈ keys then block k else [] := by
  induction keys with
  | nil => rfl
  | cons l keys ih =>
    obtain ⟨hl, hkeys⟩ := List.nodup_cons.mp hkeys
    rw [List.flatMap_cons, ih hkeys]
    by_cases h : l = k
    · subst h
      simp [hl]
    · simp [h, Ne.symm h]

theorem mem_block_iff (h : ∀ k, (block k).Perm (xs.filter fun x => key x = k)) (k : κ) (x : α) :
    x ∈ block k ↔ x ∈ xs ∧ key x = k := by
  rw [(h k).mem_iff, List.mem_filter, decide_eq_true_iff]

theorem filter_block (h : ∀ k, (block k).Perm (xs.filter fun x => key x = k)) (k l : κ) :
    ((block l).filter fun x => key x = k) = if l = k then block l else [] := by
  split
  · next heq =>
    refine List.filter_eq_self.mpr fun x hx => decide_eq_true ?_
    exact ((mem_block_iff h l x).mp hx).2.trans heq
  · next hne =>
    refine List.filter_eq_nil_iff.mpr fun x hx => ?_
    rw [decide_eq_true_iff, ((mem_block_iff h l x).mp hx).2]
    exact hne

/-- Elements that are put together key by key are the same elements. -/
theorem blocks_perm (hxs : xs.Nodup)
    (h : ∀ k, (block k).Perm (xs.filter fun x => key x = k)) :
    ((xs.map key).dedup.flatMap block).Perm xs := by
  have hnodup : ((xs.map key).dedup.flatMap block).Nodup := by
    refine List.nodup_flatMap.mpr ⟨fun k _ => (h k).nodup_iff.mpr (hxs.filter _), ?_⟩
    refine (List.nodup_dedup (xs.map key)).imp fun hne x hleft hright => hne ?_
    exact ((mem_block_iff h _ x).mp hleft).2.symm.trans ((mem_block_iff h _ x).mp hright).2
  refine (List.perm_ext_iff_of_nodup hnodup hxs).mpr fun x => ?_
  rw [List.mem_flatMap]
  constructor
  · rintro ⟨k, -, hx⟩
    exact ((mem_block_iff h k x).mp hx).1
  · intro hx
    exact ⟨key x, List.mem_dedup.mpr (List.mem_map_of_mem hx), (mem_block_iff h _ x).mpr ⟨hx, rfl⟩⟩

/-- Those of each key are in the order that they are given in. -/
theorem filter_blocks (h : ∀ k, (block k).Perm (xs.filter fun x => key x = k)) (k : κ) :
    (((xs.map key).dedup.flatMap block).filter fun x => key x = k) = block k := by
  rw [List.filter_flatMap, List.flatMap_congr fun l _ => filter_block h k l,
    flatMap_ite (List.nodup_dedup _)]
  split
  · rfl
  · next hk =>
    -- no element has the key, so its block is empty too
    refine (List.eq_nil_iff_forall_not_mem.mpr fun x hx => hk ?_).symm
    obtain ⟨hheld, rfl⟩ := (mem_block_iff h k x).mp hx
    exact List.mem_dedup.mpr (List.mem_map_of_mem hheld)

end Blocks

/-- Whatever order the entries of each directory come in, it is the order of some file system that
holds the same. -/
theorem exists_reordered {order : Location → List Entry}
    (h : ∀ here, (order here).Perm (fs.entriesAt here)) :
    ∃ fs', Reordered fs fs' ∧ ∀ here, fs'.entriesAt here = order here := by
  -- the entries in that order are those of nodes in some order
  choose block horder hperm using
    fun here => (congrFun₂ (List.eq_map_comp_perm _) _ _).mpr (h here)
  have hdistinct : fs.nodes.Nodup := List.Nodup.of_map _ fs.distinct
  have hnodes := blocks_perm hdistinct hperm
  refine ⟨⟨_, fs.cwd, (hnodes.map Prod.fst).nodup_iff.mpr fs.distinct⟩, ⟨rfl, hnodes⟩, ?_⟩
  intro here
  rw [entriesAt, filter_blocks hperm, horder]

/-! ## Whole searches -/

/-- A walk whose requests are answered by one listing after the other, all of which say the same. -/
theorem perform_turns {α : Type} (w : Walk α) {turns : Nat → Listing} {listing : Listing}
    (h : ∀ n, turns n = listing) (n : Nat) :
    ((w.perform (m := StateM Nat) fun dir n => (turns n dir, n + 1)) n).1 = w.run listing := by
  obtain rfl : turns = fun _ => listing := funext h
  induction w generalizing n with
  | done value => rfl
  | note event rest ih => exact congrArg (Run.after event) (ih n)
  | list dir next ih =>
    simp only [perform, run, Bind.bind, StateT.bind]
    cases listing dir with
    | ok entries => exact congrArg (Run.after (.listed dir)) (ih entries (n + 1))
    | error failure => rfl
  | abandon dir => rfl

/-- **Listing order.** A directory is listed with strictly growing names and each entry once. In
whatever order the entries of each directory come, some file system gives them in that order and
holds the same; and all that hold the same list the same, and are searched with the same events and
the same outcome, even if another one of them answers each time. -/
theorem find_order_free (fs : FileSystem) :
    (∀ dir entries, fs.list dir = .ok entries → ∃ here,
      fs.resolve .target dir = .ok (.existing here) ∧
        (entries.Pairwise fun a b => Text.units a.name < Text.units b.name) ∧
        entries.Perm (fs.entriesAt here) ∧
        ∀ entry, entries.count entry = 1 ↔ ∃ name node,
          fs.node? (name :: here) = some node ∧ entry = ⟨name.val, node = .directory⟩) ∧
    (∀ order : Location → List Entry, (∀ here, (order here).Perm (fs.entriesAt here)) →
      ∃ fs', Reordered fs fs' ∧ ∀ here, fs'.entriesAt here = order here) ∧
    (∀ fs', Reordered fs fs' → (∀ dir, fs'.list dir = fs.list dir) ∧
      ∀ depth root includes excludes,
        (find depth root includes excludes).run fs'.listing =
          (find depth root includes excludes).run fs.listing) ∧
    ∀ turns : Nat → FileSystem, (∀ n, Reordered fs (turns n)) →
      ∀ depth root includes excludes n,
        (((find depth root includes excludes).perform (m := StateM Nat) fun dir n =>
          ((turns n).listing dir, n + 1)) n).1 =
            (find depth root includes excludes).run fs.listing := by
  refine ⟨fun dir entries h => ?_, fun order => exists_reordered, fun fs' h => ?_,
    fun turns h depth root includes excludes n => ?_⟩
  · obtain ⟨here, hplace, -, hentries⟩ := list_eq_ok_iff.mp h
    have hsorted := hentries ▸ fs.pairwise_mergeSort_entriesAt here
    have hperm : entries.Perm (fs.entriesAt here) := hentries ▸ List.mergeSort_perm _ _
    have hnodup : entries.Nodup := by
      refine hsorted.imp ?_
      rintro a b hlt rfl
      exact lt_irrefl _ hlt
    refine ⟨here, hplace, hsorted, hperm, fun entry => ?_⟩
    rw [← mem_entriesAt_iff, ← hperm.mem_iff]
    exact ⟨fun hcount => List.count_pos_iff.mp (by omega), List.count_eq_one_of_mem hnodup⟩
  · exact ⟨h.list_eq, fun depth root includes excludes => by rw [h.listing_eq]⟩
  · exact perform_turns _ (fun n => (h n).listing_eq) n

/-- A directory `d` with two names whose characters are in the other order than their units. -/
def ligatureAndFace : FileSystem where
  nodes := [(⟨[], ⟨"d", by decide⟩⟩, .directory),
    (⟨[⟨"d", by decide⟩], ⟨"\uFB00", by decide⟩⟩, .file []),
    (⟨[⟨"d", by decide⟩], ⟨"😀", by decide⟩⟩, .link "/")]
  cwd := []
  distinct := by decide

/-- The same directory, which gives the names the other way round. -/
def faceAndLigature : FileSystem where
  nodes := ligatureAndFace.nodes.reverse
  cwd := []
  distinct := by decide

theorem reordered_ligatureAndFace : Reordered ligatureAndFace faceAndLigature :=
  ⟨rfl, List.reverse_perm _⟩

/-- A search of that directory, where its entries come sorted. -/
theorem run_find_of_list {fs : FileSystem}
    (h : fs.list "/d" = .ok [⟨"😀", false⟩, ⟨"\uFB00", false⟩]) :
    (find 9 "/" ["d/*"] []).run fs.listing =
      ⟨[.walkingBase "d" "/d", .listed "/d"], .ok ⟨["d/😀", "d/\uFB00"], []⟩⟩ := by
  have hrun : (find 9 "/" ["d/*"] []).run (fun _ => .ok [⟨"😀", false⟩, ⟨"\uFB00", false⟩]) =
      ⟨[.walkingBase "d" "/d", .listed "/d"], .ok ⟨["d/😀", "d/\uFB00"], []⟩⟩ := by rfl
  rw [← hrun]
  refine run_congr fun dir hdir => ?_
  rw [hrun] at hdir
  obtain rfl := List.mem_singleton.mp hdir
  rw [listing, h]
  rfl

/-- Either way the directory is listed, and searched, in the order of the units. -/
theorem find_order_free_astral :
    Reordered ligatureAndFace faceAndLigature ∧
      ligatureAndFace.entriesAt [⟨"d", by decide⟩] = [⟨"\uFB00", false⟩, ⟨"😀", false⟩] ∧
      faceAndLigature.entriesAt [⟨"d", by decide⟩] = [⟨"😀", false⟩, ⟨"\uFB00", false⟩] ∧
      "\uFB00".toList < "😀".toList ∧ Text.units "😀" < Text.units "\uFB00" ∧
      ligatureAndFace.list "/d" = .ok [⟨"😀", false⟩, ⟨"\uFB00", false⟩] ∧
      faceAndLigature.list "/d" = ligatureAndFace.list "/d" ∧
      ((find 9 "/" ["d/*"] []).run ligatureAndFace.listing).outcome =
        .ok ⟨["d/😀", "d/\uFB00"], []⟩ ∧
      (find 9 "/" ["d/*"] []).run faceAndLigature.listing =
        (find 9 "/" ["d/*"] []).run ligatureAndFace.listing := by
  obtain ⟨-, -, hsame, -⟩ := find_order_free ligatureAndFace
  obtain ⟨hlist, hfind⟩ := hsame faceAndLigature reordered_ligatureAndFace
  have hsorted : faceAndLigature.list "/d" = .ok [⟨"😀", false⟩, ⟨"\uFB00", false⟩] :=
    list_eq_ok_iff.mpr ⟨[⟨"d", by decide⟩], by decide +kernel, rfl,
      (List.mergeSort_of_pairwise (by decide)).symm⟩
  refine ⟨reordered_ligatureAndFace, rfl, rfl, by decide, by decide,
    (hlist "/d").symm.trans hsorted, hlist "/d", ?_, hfind 9 "/" ["d/*"] []⟩
  rw [← hfind, run_find_of_list hsorted]

end FileSystem

end PathSieve
