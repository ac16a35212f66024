import PathSieve.Walk.Basic

/-!
# Runs of walks that are put together

A run of one walk after another is a run of the first, followed by a run of the second unless the
first has failed (`run_bind`). A walk *gives* a value when its run ends with that value; what
gathering over a list gives is what the steps give, put together (`gives_gather_cons`,
`mem_of_gives_gather`).

The directories that a run *lists* can be read off its events (`Run.listed`). A run that gathers
over a list lists what the steps list, one after the other, as far as it comes
(`listed_gather_isPrefix`), and all of it if it gives something (`listed_gather`).
-/

namespace PathSieve

variable {α β : Type}

/-- A run followed by another, which does not start if the first has failed. -/
def Run.andThen (r : Run α) (next : α → Run β) : Run β :=
  match r.outcome with
  | .ok value => ⟨r.events ++ (next value).events, (next value).outcome⟩
  | .error e => ⟨r.events, .error e⟩

/-- How a run goes on matters for the value only that it has ended with. -/
theorem Run.andThen_congr {r : Run α} {next next' : α → Run β}
    (h : ∀ value, r.outcome = .ok value → next' value = next value) :
    r.andThen next' = r.andThen next := by
  unfold Run.andThen
  cases hr : r.outcome with
  | ok value => simp only [h value hr]
  | error e => rfl

theorem Run.andThen_after (event : Event) (r : Run α) (next : α → Run β) :
    (r.after event).andThen next = (r.andThen next).after event := by
  obtain ⟨events, outcome⟩ := r
  cases outcome <;> rfl

namespace Walk

variable {listing : Listing}

theorem run_list_ok {dir : String} {entries : List Entry} (next : List Entry → Walk α)
    (h : listing dir = .ok entries) :
    (Walk.list dir next).run listing = ((next entries).run listing).after (.listed dir) := by
  rw [run, h]

theorem run_list_error {dir : String} {failure : Failure} (next : List Entry → Walk α)
    (h : listing dir = .error failure) :
    (Walk.list dir next).run listing = ⟨[.listed dir], .error (.ofFailure dir failure)⟩ := by
  rw [run, h]

theorem run_bind (listing : Listing) (w : Walk α) (f : α → Walk β) :
    (w.bind f).run listing = (w.run listing).andThen fun value => (f value).run listing := by
  induction w with
  | done value => rfl
  | note event rest ih => rw [bind, run, run, ih, Run.andThen_after]
  | list dir next ih =>
    rw [bind]
    cases h : listing dir with
    | ok entries => rw [run_list_ok _ h, run_list_ok _ h, ih, Run.andThen_after]
    | error failure =>
      rw [run_list_error _ h, run_list_error _ h]
      rfl
  | abandon dir => rfl

/-- Gathering is a run of the first step, followed by gathering over the others. -/
theorem run_gather_cons (listing : Listing) (step : β → Walk (List α)) (x : β) (xs : List β) :
    (gather step (x :: xs)).run listing =
      ((step x).run listing).andThen fun first =>
        ((gather step xs).run listing).andThen fun others => ⟨[], .ok (first ++ others)⟩ := by
  show ((step x).bind fun first => (gather step xs).bind fun others =>
    .done (first ++ others)).run listing = _
  rw [run_bind]
  refine Run.andThen_congr fun first _ => ?_
  rw [run_bind]
  rfl

/-- Whether a walk ends with a value, its requests answered by a listing. -/
def Gives (listing : Listing) (w : Walk α) (value : α) : Prop :=
  (w.run listing).outcome = .ok value

theorem gives_done {value given : α} : Gives listing (.done value) given ↔ given = value := by
  constructor
  · intro h
    exact (Except.ok.inj h).symm
  · rintro rfl
    rfl

theorem gives_note {event : Event} {rest : Walk α} {value : α} :
    Gives listing (.note event rest) value ↔ Gives listing rest value := Iff.rfl

theorem gives_list {dir : String} {next : List Entry → Walk α} {value : α} :
    Gives listing (.list dir next) value ↔
      ∃ entries, listing dir = .ok entries ∧ Gives listing (next entries) value := by
  unfold Gives
  cases h : listing dir with
  | ok entries =>
    rw [run_list_ok _ h]
    constructor
    · exact fun hrun => ⟨entries, rfl, hrun⟩
    · rintro ⟨_, heq, hrun⟩
      cases heq
      exact hrun
  | error failure =>
    rw [run_list_error _ h]
    constructor
    · exact fun hrun => nomatch hrun
    · rintro ⟨_, heq, -⟩
      cases heq

theorem not_gives_abandon {dir : String} {value : α} : ¬ Gives listing (.abandon dir) value :=
  fun h => nomatch h

theorem gives_bind {w : Walk α} {f : α → Walk β} {value : β} :
    Gives listing (w.bind f) value ↔
      ∃ first, Gives listing w first ∧ Gives listing (f first) value := by
  unfold Gives
  rw [run_bind, Run.andThen]
  cases (w.run listing).outcome with
  | ok first =>
    constructor
    · exact fun h => ⟨first, rfl, h⟩
    · rintro ⟨_, heq, h⟩
      cases heq
      exact h
  | error e =>
    constructor
    · exact fun h => nomatch h
    · rintro ⟨_, heq, -⟩
      cases heq

/-- Gathering over a longer list gives what its first element gives, then what the others give. -/
theorem gives_gather_cons {step : β → Walk (List α)} {x : β} {xs : List β} {values : List α} :
    Gives listing (gather step (x :: xs)) values ↔
      ∃ first others, Gives listing (step x) first ∧ Gives listing (gather step xs) others ∧
        values = first ++ others := by
  show Gives listing ((step x).bind fun first => (gather step xs).bind fun others =>
    .done (first ++ others)) values ↔ _
  simp only [gives_bind, gives_done]
  constructor
  · rintro ⟨first, hfirst, others, hothers, rfl⟩
    exact ⟨first, others, hfirst, hothers, rfl⟩
  · rintro ⟨first, others, hfirst, hothers, rfl⟩
    exact ⟨first, hfirst, others, hothers, rfl⟩

/-- When gathering gives something, every step does, and what is gathered is what the steps give. -/
theorem mem_of_gives_gather {step : β → Walk (List α)} {xs : List β} {values : List α}
    (h : Gives listing (gather step xs) values) :
    (∀ x ∈ xs, ∃ given, Gives listing (step x) given) ∧
      ∀ value, value ∈ values ↔
        ∃ x ∈ xs, ∃ given, Gives listing (step x) given ∧ value ∈ given := by
  induction xs generalizing values with
  | nil =>
    obtain rfl : values = [] := gives_done.mp h
    simp
  | cons x xs ih =>
    obtain ⟨first, others, hfirst, hothers, rfl⟩ := gives_gather_cons.mp h
    obtain ⟨hall, hmem⟩ := ih hothers
    refine ⟨fun y hy => ?_, fun value => ?_⟩
    · rcases List.mem_cons.mp hy with rfl | hy
      · exact ⟨first, hfirst⟩
      · exact hall y hy
    · rw [List.mem_append, hmem]
      constructor
      · rintro (hv | ⟨y, hy, given, hgiven, hv⟩)
        · exact ⟨x, List.mem_cons_self, first, hfirst, hv⟩
        · exact ⟨y, List.mem_cons_of_mem x hy, given, hgiven, hv⟩
      · rintro ⟨y, hy, given, hgiven, hv⟩
        rcases List.mem_cons.mp hy with rfl | hy
        · obtain rfl : first = given := Except.ok.inj (hfirst.symm.trans hgiven)
          exact .inl hv
        · exact .inr ⟨y, hy, given, hgiven, hv⟩

end Walk

/-! ## Directories listed -/

/-- The directory that is listed, if that is what happened. -/
def Event.listed? : Event → Option String
  | .listed dir => some dir
  | .walkingBase _ _ => none
  | .baseExcluded _ => none
  | .directorySkipped _ => none

/-- The directories that a run lists, in order. -/
def Run.listed (r : Run α) : List String := r.events.filterMap Event.listed?

theorem Run.listed_after_listed (dir : String) (r : Run α) :
    (r.after (.listed dir)).listed = dir :: r.listed := rfl

/-- A run that goes on lists what both parts list, and one that has failed nothing more. -/
theorem Run.listed_andThen (r : Run α) (next : α → Run β) :
    (r.andThen next).listed =
      r.listed ++ match r.outcome with
        | .ok value => (next value).listed
        | .error _ => [] := by
  obtain ⟨events, outcome⟩ := r
  cases outcome with
  | ok value => exact List.filterMap_append
  | error e => exact (List.append_nil _).symm

/-- What is made of the value of a run lists nothing more. -/
theorem Run.listed_andThen_ok (r : Run α) (f : α → β) :
    (r.andThen fun value => ⟨[], .ok (f value)⟩).listed = r.listed := by
  rw [Run.listed_andThen]
  cases r.outcome <;> exact List.append_nil _

namespace Walk

variable {listing : Listing}

theorem listed_list (listing : Listing) (dir : String) (next : List Entry → Walk α) :
    ((Walk.list dir next).run listing).listed =
      dir :: match listing dir with
        | .ok entries => ((next entries).run listing).listed
        | .error _ => [] := by
  cases h : listing dir with
  | ok entries => rw [run_list_ok _ h, Run.listed_after_listed]
  | error failure =>
    rw [run_list_error _ h]
    rfl

/-- What gathering lists are the first of the directories that the steps list. -/
theorem listed_gather_isPrefix (listing : Listing) (step : β → Walk (List α)) (xs : List β) :
    ((gather step xs).run listing).listed <+:
      xs.flatMap fun x => ((step x).run listing).listed := by
  induction xs with
  | nil => exact List.nil_prefix
  | cons x xs ih =>
    rw [run_gather_cons, Run.listed_andThen, List.flatMap_cons, List.prefix_append_right_inj]
    cases ((step x).run listing).outcome with
    | error e => exact List.nil_prefix
    | ok first =>
      show (Run.andThen _ fun others => ⟨[], .ok (first ++ others)⟩).listed <+: _
      rwa [Run.listed_andThen_ok]

/-- Gathering lists what its first step lists, and goes on with the others if that one gives
something. -/
theorem listed_gather_cons {step : β → Walk (List α)} {x : β} {first : List α}
    (h : Gives listing (step x) first) (xs : List β) :
    ((gather step (x :: xs)).run listing).listed =
      ((step x).run listing).listed ++ ((gather step xs).run listing).listed := by
  rw [run_gather_cons, Run.listed_andThen, show ((step x).run listing).outcome = .ok first from h]
  exact congrArg (_ ++ ·) (Run.listed_andThen_ok _ (first ++ ·))

/-- Gathering that gives something lists all that the steps list. -/
theorem listed_gather {step : β → Walk (List α)} {xs : List β} {values : List α}
    (h : Gives listing (gather step xs) values) :
    ((gather step xs).run listing).listed = xs.flatMap fun x => ((step x).run listing).listed := by
  induction xs generalizing values with
  | nil => rfl
  | cons x xs ih =>
    obtain ⟨first, others, hfirst, hothers, -⟩ := gives_gather_cons.mp h
    rw [listed_gather_cons hfirst, ih hothers, List.flatMap_cons]

end Walk

end PathSieve
