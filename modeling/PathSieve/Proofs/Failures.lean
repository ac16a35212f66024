import PathSieve.Proofs.Levels

/-!
# A search ends at the first failure

A directory that cannot be listed ends a search, and what it ends in can be said by comparing with
the search in which every such directory is empty instead (`Listing.emptied`). As long as that other
search lists none of them, the two are the same run. Otherwise the search goes the same way up to
and including the first of them, and then it is over: nothing more is listed or noted, nothing that
was found is kept, and the error is the one of that directory, however deep it lies
(`find_ends_at_first_failure`). Directories that the other search does not list are never noticed.

All of this but the end of the other search holds of any walk that notes no listings of its own
(`Candid`), by induction on the walk (`run_emptied_cases`).

The error is about the directory unless what was thrown is a value without a text. There is no
message to report then, and the search ends in the failure to make one.
-/

namespace PathSieve

/-- The listing that gives no entries wherever a listing fails. -/
def Listing.emptied (listing : Listing) : Listing := fun dir =>
  match listing dir with
  | .ok entries => .ok entries
  | .error _ => .ok []

namespace Listing

variable {listing : Listing} {list : String → Except Thrown (List Entry)} {dir : String}

theorem emptied_of_ok {entries : List Entry} (h : listing dir = .ok entries) :
    listing.emptied dir = .ok entries := by
  rw [emptied, h]

theorem emptied_of_error {failure : Failure} (h : listing dir = .error failure) :
    listing.emptied dir = .ok [] := by
  rw [emptied, h]

/-- What an emptied listing gives was given before, unless it is nothing. -/
theorem eq_nil_or_of_emptied {entries : List Entry} (h : listing.emptied dir = .ok entries) :
    entries = [] ∨ listing dir = .ok entries := by
  cases hdir : listing dir with
  | ok given =>
    rw [emptied_of_ok hdir] at h
    exact .inr h
  | error failure =>
    rw [emptied_of_error hdir] at h
    exact .inl (Except.ok.inj h).symm

theorem Proper.emptied (h : listing.Proper) : listing.emptied.Proper := by
  intro dir entries hentries e he
  rcases eq_nil_or_of_emptied hentries with rfl | hentries
  · cases he
  · exact h dir entries hentries e he

theorem exists_emptied_eq_ok (listing : Listing) (dir : String) :
    ∃ entries, listing.emptied dir = .ok entries := by
  cases h : listing dir with
  | ok entries => exact ⟨entries, emptied_of_ok h⟩
  | error failure => exact ⟨[], emptied_of_error h⟩

theorem ofThrowing_eq_ok_iff {entries : List Entry} :
    ofThrowing list dir = .ok entries ↔ list dir = .ok entries := by
  unfold ofThrowing
  cases list dir <;> simp [Except.mapError]

theorem ofThrowing_eq_error_iff {failure : Failure} :
    ofThrowing list dir = .error failure ↔
      ∃ thrown, list dir = .error thrown ∧ failure = thrown.failure := by
  unfold ofThrowing
  cases list dir <;> simp [Except.mapError, eq_comm]

end Listing

/-- The error is about the directory exactly if something was thrown that has a text. -/
theorem ofFailure_eq_unlisted_iff {dir : String} {thrown : Thrown} {cause : Cause} :
    WalkError.ofFailure dir thrown.failure = .unlisted dir cause ↔
      thrown = .error cause ∨
        ∃ v message, thrown = .value v ∧ v.display? = some message ∧ cause = .other message := by
  cases thrown with
  | error c => simp [Thrown.failure, WalkError.ofFailure]
  | value v => cases h : v.display? <;> simp [Thrown.failure, h, WalkError.ofFailure, eq_comm]

namespace Walk

variable {α β : Type} {listing : Listing}

/-! ## Walks that note no listings -/

/-- Whether nothing that a walk notes is a listing, so that its listings are those it asks for. -/
def Candid : Walk α → Prop
  | .done _ => True
  | .note event rest => event.listed? = none ∧ rest.Candid
  | .list _ next => ∀ entries, (next entries).Candid
  | .abandon _ => True

theorem candid_bind {w : Walk α} {f : α → Walk β} (hw : w.Candid) (hf : ∀ value, (f value).Candid) :
    (w.bind f).Candid := by
  induction w with
  | done value => exact hf value
  | note event rest ih => exact ⟨hw.1, ih hw.2⟩
  | list dir next ih => exact fun entries => ih entries (hw entries)
  | abandon dir => trivial

theorem candid_gather {step : β → Walk (List α)} (h : ∀ x, (step x).Candid) (xs : List β) :
    (gather step xs).Candid := by
  induction xs with
  | nil => trivial
  | cons x xs ih =>
    exact candid_bind (h x) fun first => candid_bind ih fun others => trivial

theorem candid_visit {sieve : Sieve} {depth : Nat}
    (hbelow : ∀ dir path, (descend sieve depth dir path).Candid) (dir path : String)
    (entry : Entry) : (visit sieve depth dir path entry).Candid := by
  obtain ⟨name, isDirectory⟩ := entry
  cases isDirectory with
  | false => trivial
  | true =>
    cases hexcluded : sieve.excludes.accepts (childPath path name) with
    | true =>
      rw [visit_excluded hexcluded]
      exact ⟨rfl, trivial⟩
    | false =>
      rw [visit_directory hexcluded]
      exact hbelow _ _

theorem candid_descend (sieve : Sieve) (depth : Nat) (dir path : String) :
    (descend sieve depth dir path).Candid := by
  induction depth generalizing dir path with
  | zero => trivial
  | succ depth ih => exact fun entries => candid_gather (candid_visit ih dir path) entries

theorem candid_fromBase (sieve : Sieve) (depth : Nat) (root base : String) :
    (fromBase sieve depth root base).Candid := by
  by_cases hexcluded : base ≠ "." ∧ sieve.excludes.accepts base = true
  · rw [fromBase_excluded hexcluded]
    exact ⟨rfl, trivial⟩
  · rw [fromBase_walked hexcluded]
    exact ⟨rfl, candid_descend _ _ _ _⟩

theorem candid_find (depth : Nat) (root : String) (includes excludes : List String) :
    (find depth root includes excludes).Candid :=
  candid_bind (candid_gather (candid_fromBase _ _ _) _) fun _ => trivial

/-! ## Runs up to the first failure -/

/-- Whether a listing gives every directory that is listed in some events. -/
def Served (listing : Listing) (events : List Event) : Prop :=
  ∀ dir ∈ events.filterMap Event.listed?, ∃ entries, listing dir = .ok entries

theorem served_nil : Served listing [] := fun _ h => absurd h List.not_mem_nil

theorem served_cons_of_none {event : Event} {events : List Event} (h : event.listed? = none) :
    Served listing (event :: events) ↔ Served listing events := by
  rw [Served, List.filterMap_cons_none h, Served]

theorem served_cons_listed {dir : String} {events : List Event} :
    Served listing (.listed dir :: events) ↔
      (∃ entries, listing dir = .ok entries) ∧ Served listing events :=
  List.forall_mem_cons

theorem not_served_of_error {before after : List Event} {dir : String} {failure : Failure}
    (h : listing dir = .error failure) : ¬ Served listing (before ++ .listed dir :: after) := by
  intro hserved
  have hmem : dir ∈ (before ++ .listed dir :: after).filterMap Event.listed? := by
    rw [List.filterMap_append]
    exact List.mem_append_right _ List.mem_cons_self
  obtain ⟨entries, hentries⟩ := hserved dir hmem
  rw [h] at hentries
  cases hentries

/-- A walk that does not give up for want of depth ends well exactly if every directory that it
lists is given to it. -/
theorem served_run_iff {w : Walk α} (h : w.Candid) (hup : ¬ (w.run listing).GaveUp) :
    Served listing (w.run listing).events ↔ ∃ value, Gives listing w value := by
  induction w with
  | done value => exact iff_of_true served_nil ⟨value, rfl⟩
  | note event rest ih => exact (served_cons_of_none h.1).trans (ih h.2 hup)
  | list dir next ih =>
    unfold Gives
    cases hdir : listing dir with
    | error failure =>
      have hnot : ¬ Served listing ([] ++ [.listed dir]) := not_served_of_error hdir
      rw [run_list_error next hdir]
      refine iff_of_false hnot ?_
      rintro ⟨value, hvalue⟩
      cases hvalue
    | ok entries =>
      rw [run_list_ok next hdir] at hup ⊢
      refine served_cons_listed.trans ((and_iff_right ⟨entries, hdir⟩).trans ?_)
      exact ih entries (h entries) hup
  | abandon dir => exact absurd ⟨dir, rfl⟩ hup

/-- A walk goes as it does where failing directories are empty, or up to the first of these. -/
theorem run_emptied_cases {w : Walk α} (h : w.Candid) (listing : Listing) :
    Served listing (w.run listing.emptied).events ∧ w.run listing = w.run listing.emptied ∨
      ∃ before dir after failure,
        (w.run listing.emptied).events = before ++ .listed dir :: after ∧
          Served listing before ∧ listing dir = .error failure ∧
          w.run listing = ⟨before ++ [.listed dir], .error (.ofFailure dir failure)⟩ := by
  induction w with
  | done value => exact .inl ⟨served_nil, rfl⟩
  | abandon dir => exact .inl ⟨served_nil, rfl⟩
  | note event rest ih =>
    rcases ih h.2 with ⟨hserved, hrun⟩ | ⟨before, dir, after, failure, hevents, hserved, hdir, hrun⟩
    · refine .inl ⟨(served_cons_of_none h.1).mpr hserved, ?_⟩
      rw [run, run, hrun]
    · refine .inr ⟨event :: before, dir, after, failure, ?_, (served_cons_of_none h.1).mpr hserved,
        hdir, ?_⟩
      · exact congrArg (event :: ·) hevents
      · rw [run, hrun]
        rfl
  | list dir next ih =>
    cases hdir : listing dir with
    | error failure =>
      -- this is the first failure, whatever the other run does from here
      refine .inr ⟨[], dir, ((next []).run listing.emptied).events, failure, ?_, served_nil, hdir,
        run_list_error next hdir⟩
      rw [run_list_ok next (Listing.emptied_of_error hdir)]
      rfl
    | ok entries =>
      rw [run_list_ok next hdir, run_list_ok next (Listing.emptied_of_ok hdir)]
      rcases ih entries (h entries) with
        ⟨hserved, hrun⟩ | ⟨before, d, after, failure, hevents, hserved, hd, hrun⟩
      · exact .inl ⟨served_cons_listed.mpr ⟨⟨entries, hdir⟩, hserved⟩, by rw [hrun]⟩
      · refine .inr ⟨.listed dir :: before, d, after, failure, ?_,
          served_cons_listed.mpr ⟨⟨entries, hdir⟩, hserved⟩, hd, ?_⟩
        · exact congrArg (Event.listed dir :: ·) hevents
        · rw [hrun]
          rfl

/-! ## A whole search -/

variable {list : String → Except Thrown (List Entry)} {dirs : List String} {depth : Nat}

/-- Where failing directories are empty, a search ends well, if it may go deeper than there are
directories that can be listed. -/
theorem exists_gives_find_emptied (hproper : (Listing.ofThrowing list).Proper)
    (hfinite : ∀ dir entries, list dir = .ok entries → dir ∈ dirs) (hdepth : dirs.length < depth)
    (root : String) (includes excludes : List String) :
    ∃ found, Gives (Listing.ofThrowing list).emptied (find depth root includes excludes) found := by
  refine exists_gives_find hproper.emptied (Listing.exists_emptied_eq_ok _) (fun dir entries h => ?_)
    hdepth root includes excludes
  refine (Listing.eq_nil_or_of_emptied h).imp_right fun hlisted => ?_
  exact hfinite dir entries (Listing.ofThrowing_eq_ok_iff.mp hlisted)

/-- **Failures.** Compare a search with the one in which failing directories are empty, which ends
well. It ends well exactly if that one lists none of them, and then the two are the same. Otherwise
it goes the same way up to the first of them and ends there, with an error about that directory
exactly if what it threw has a text. -/
theorem find_ends_at_first_failure (hproper : (Listing.ofThrowing list).Proper)
    (hfinite : ∀ dir entries, list dir = .ok entries → dir ∈ dirs) (hdepth : dirs.length < depth)
    (root : String) (includes excludes : List String) :
    ∃ events found,
      (find depth root includes excludes).run (Listing.ofThrowing list).emptied =
        ⟨events, .ok found⟩ ∧
      ((∃ given, ((find depth root includes excludes).run (Listing.ofThrowing list)).outcome =
        .ok given) ↔ Served (Listing.ofThrowing list) events) ∧
      (Served (Listing.ofThrowing list) events →
        (find depth root includes excludes).run (Listing.ofThrowing list) = ⟨events, .ok found⟩) ∧
      (¬ Served (Listing.ofThrowing list) events →
        ∃ before dir after thrown, events = before ++ .listed dir :: after ∧
          Served (Listing.ofThrowing list) before ∧ list dir = .error thrown ∧
          (find depth root includes excludes).run (Listing.ofThrowing list) =
            ⟨before ++ [.listed dir], .error (.ofFailure dir thrown.failure)⟩ ∧
          ∀ cause, WalkError.ofFailure dir thrown.failure = .unlisted dir cause ↔
            thrown = .error cause ∨ ∃ v message, thrown = .value v ∧
              v.display? = some message ∧ cause = .other message) := by
  obtain ⟨found, hfound⟩ :=
    exists_gives_find_emptied hproper hfinite hdepth root includes excludes
  have hcases := run_emptied_cases (candid_find depth root includes excludes)
    (Listing.ofThrowing list)
  unfold Gives at hfound
  generalize (find depth root includes excludes).run (Listing.ofThrowing list).emptied = other
    at hfound hcases
  obtain ⟨events, outcome⟩ := other
  obtain rfl : outcome = .ok found := hfound
  refine ⟨events, found, rfl, ?_⟩
  rcases hcases with ⟨hserved, hrun⟩ | ⟨before, dir, after, failure, hevents, hserved, hdir, hrun⟩
  · exact ⟨iff_of_true ⟨found, by rw [hrun]⟩ hserved, fun _ => hrun, fun h => absurd hserved h⟩
  · have hnot : ¬ Served (Listing.ofThrowing list) events := by
      rw [show events = before ++ .listed dir :: after from hevents]
      exact not_served_of_error hdir
    obtain ⟨thrown, hthrown, rfl⟩ := Listing.ofThrowing_eq_error_iff.mp hdir
    refine ⟨iff_of_false ?_ hnot, fun h => absurd h hnot, fun _ => ?_⟩
    · rintro ⟨given, hgiven⟩
      rw [hrun] at hgiven
      cases hgiven
    · exact ⟨before, dir, after, thrown, hevents, hserved, hthrown, hrun,
        fun cause => ofFailure_eq_unlisted_iff⟩

/-- A directory further down throws a text, and what lies behind it is not looked at. -/
theorem find_ends_at_first_failure_deep :
    ∃ list : String → Except Thrown (List Entry), ∃ before dir after thrown,
      [.walkingBase "." "r", .listed "r", .listed "r/a", .listed "r/a/b", .listed "r/c"] =
          before ++ Event.listed dir :: after ∧
        Served (Listing.ofThrowing list) before ∧ list dir = .error thrown ∧
        (find 4 "r" ["**"] []).run (Listing.ofThrowing list) =
          ⟨before ++ [.listed dir], .error (.ofFailure dir thrown.failure)⟩ ∧
        before = [.walkingBase "." "r", .listed "r", .listed "r/a"] ∧
        WalkError.ofFailure dir thrown.failure = .unlisted "r/a/b" (.other "gone") := by
  let list : String → Except Thrown (List Entry) := fun dir =>
    if dir = "r" then .ok [⟨"a", true⟩, ⟨"c", true⟩]
    else if dir = "r/a" then .ok [⟨"x", false⟩, ⟨"b", true⟩]
    else if dir = "r/c" then .ok [⟨"y", false⟩]
    else .error (.value (.string "gone"))
  have hlisted : ∀ dir entries, list dir = .ok entries →
      dir ∈ ["r", "r/a", "r/c"] ∧ ∀ e ∈ entries, IsName e.name := by
    intro dir entries h
    simp only [list] at h
    split_ifs at h with hr ha hc <;> cases h <;> subst dir <;> decide
  have hrun : (find 4 "r" ["**"] []).run (Listing.ofThrowing list) =
      ⟨[.walkingBase "." "r", .listed "r", .listed "r/a", .listed "r/a/b"],
        .error (.unlisted "r/a/b" (.other "gone"))⟩ := by rfl
  obtain ⟨events, found, hother, -, hsame, hfails⟩ := @find_ends_at_first_failure list
    ["r", "r/a", "r/c"] 4
    (fun dir entries h => (hlisted dir entries (Listing.ofThrowing_eq_ok_iff.mp h)).2)
    (fun dir entries h => (hlisted dir entries h).1) (by decide) "r" ["**"] []
  have hevents : [.walkingBase "." "r", .listed "r", .listed "r/a", .listed "r/a/b",
      .listed "r/c"] = events := congrArg Run.events hother
  subst hevents
  obtain ⟨before, dir, after, thrown, hsplit, hserved, hthrown, hends, -⟩ := hfails fun h => by
    have hok := (congrArg Run.outcome (hsame h)).symm.trans (congrArg Run.outcome hrun)
    cases hok
  have hbefore : before ++ [.listed dir] =
      [.walkingBase "." "r", .listed "r", .listed "r/a"] ++ [.listed "r/a/b"] :=
    (congrArg Run.events hends).symm.trans (congrArg Run.events hrun)
  have herror := (congrArg Run.outcome hends).symm.trans (congrArg Run.outcome hrun)
  exact ⟨list, before, dir, after, thrown, hsplit, hserved, hthrown, hends,
    (List.append_inj' hbefore rfl).1, Except.error.inj herror⟩

/-- A value without a text is thrown at the root, and the error is not about the root. -/
theorem find_not_unlisted :
    ¬ ∀ (list : String → Except Thrown (List Entry)) (dirs : List String) (depth : Nat)
      (root : String) (includes excludes : List String), (Listing.ofThrowing list).Proper →
      (∀ dir entries, list dir = .ok entries → dir ∈ dirs) → dirs.length < depth →
      ∀ before dir after thrown,
        ((find depth root includes excludes).run (Listing.ofThrowing list).emptied).events =
          before ++ .listed dir :: after →
        Served (Listing.ofThrowing list) before → list dir = .error thrown →
        ∃ cause, ((find depth root includes excludes).run (Listing.ofThrowing list)).outcome =
          .error (.unlisted dir cause) := by
  intro h
  obtain ⟨cause, houtcome⟩ := h
    (fun _ => .error (.value (.object [("toString", .number (.ofNat 1))]))) [] 1 "/r" ["*"] []
    (fun _ _ hlisted => nomatch hlisted) (fun _ _ hlisted => nomatch hlisted) (by decide)
    [.walkingBase "." "/r"] "/r" [] _ (by rfl) served_nil rfl
  cases houtcome

end Walk

end PathSieve
