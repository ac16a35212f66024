import PathSieve.FileSystem.Error
import PathSieve.Json.Printer

/-!
# Walks: what is asked of a listing, and in which order

A walk is a tree of requests. It asks for the entries of a directory and goes on according to the
answer, it notes an event, or it is done. Nothing in it says where the entries come from: `run`
answers from a listing in memory and `perform` from any effect. A directory that cannot be listed
ends the walk there, whatever was still to come, and nothing found so far is kept.

- `Thrown`, `Failure`: what listing a directory throws, and how the listing fails with it.
- `Walk`, with its monad structure.
- `Walk.run`: the events and the outcome against a listing.
- `Walk.perform`: the same, with listings that have effects; `perform_state` says when it is the same.
-/

namespace PathSieve

/-- One immediate entry of a directory. A symbolic link is no directory. -/
structure Entry where
  name : String
  isDirectory : Bool
deriving DecidableEq, Repr

/-- Why a directory could not be listed: a failed system call, something else with a message, or a
tree deeper than the walk was allowed to go. -/
inductive Cause where
  | system (e : SystemError)
  | other (message : String)
  | tooDeep
deriving DecidableEq, Repr

/-- The message of a cause. -/
def Cause.message : Cause → String
  | .system e => e.message
  | .other message => message
  | .tooDeep => "directories nested too deeply"

/-- How listing a directory fails: for a cause, or with a value that has no text to report. -/
inductive Failure where
  | caused (cause : Cause)
  | textless
deriving DecidableEq, Repr

/-- What listing a directory can throw: an error with its cause, or a value that is no error. -/
inductive Thrown where
  | error (cause : Cause)
  | value (v : Json.Value)

/-- How listing a directory fails when something is thrown. A value that is no error becomes one with
the text of the value as its message, if it has a text. -/
def Thrown.failure : Thrown → Failure
  | .error cause => .caused cause
  | .value v =>
    match v.display? with
    | some message => .caused (.other message)
    | none => .textless

/-- How a walk fails: at a directory that could not be listed, or for want of a text to say why one
could not. -/
inductive WalkError where
  | unlisted (dir : String) (cause : Cause)
  | textless
deriving DecidableEq, Repr

namespace WalkError

/-- The error that the failure to list a directory is for the walk. -/
def ofFailure (dir : String) : Failure → WalkError
  | .caused cause => .unlisted dir cause
  | .textless => .textless

/-- The wording of a walk error for any cause. -/
def describe (dir cause : String) : String := "failed to list directory '" ++ dir ++ "': " ++ cause

/-- The message of a walk error. -/
def message : WalkError → String
  | unlisted dir cause => describe dir cause.message
  | textless => Json.Value.textlessMessage

end WalkError

/-- What can be observed of a walk. -/
inductive Event where
  | listed (dir : String)
  | walkingBase (base dir : String)
  | baseExcluded (base : String)
  | directorySkipped (path : String)
deriving DecidableEq, Repr

/-- A way to list directories. -/
abbrev Listing := String → Except Failure (List Entry)

/-- The listing that a primitive which throws amounts to. -/
def Listing.ofThrowing (list : String → Except Thrown (List Entry)) : Listing :=
  fun dir => (list dir).mapError Thrown.failure

/-- A walk that gives a value. -/
inductive Walk (α : Type) where
  | done (value : α)
  | note (event : Event) (rest : Walk α)
  | list (dir : String) (next : List Entry → Walk α)
  | abandon (dir : String)

/-- What happened on a walk, and how it ended. -/
structure Run (α : Type) where
  events : List Event
  outcome : Except WalkError α

/-- A run with one more event in front. -/
def Run.after {α : Type} (event : Event) (r : Run α) : Run α :=
  { r with events := event :: r.events }

namespace Walk

variable {α β : Type}

/-- One walk after another. -/
def bind : Walk α → (α → Walk β) → Walk β
  | .done value, f => f value
  | .note event rest, f => .note event (rest.bind f)
  | .list dir next, f => .list dir fun entries => (next entries).bind f
  | .abandon dir, _ => .abandon dir

instance : Monad Walk where
  pure := .done
  bind := bind

/-- The results of a walk for each element of a list, one after the other. -/
def gather (step : β → Walk (List α)) : List β → Walk (List α)
  | [] => .done []
  | x :: xs => do
    let first ← step x
    let others ← gather step xs
    return first ++ others

/-- Takes a walk with every request answered by a listing. -/
def run (listing : Listing) : Walk α → Run α
  | .done value => ⟨[], .ok value⟩
  | .note event rest => (rest.run listing).after event
  | .list dir next =>
    match listing dir with
    | .ok entries => ((next entries).run listing).after (.listed dir)
    | .error failure => ⟨[.listed dir], .error (.ofFailure dir failure)⟩
  | .abandon dir => ⟨[], .error (.unlisted dir .tooDeep)⟩

/-- Takes a walk with every request answered by a listing that has effects. -/
def perform {m : Type → Type} [Monad m] (list : String → m (Except Failure (List Entry))) :
    Walk α → m (Run α)
  | .done value => return ⟨[], .ok value⟩
  | .note event rest => return (← rest.perform list).after event
  | .list dir next => do
    match ← list dir with
    | .ok entries => return (← (next entries).perform list).after (.listed dir)
    | .error failure => return ⟨[.listed dir], .error (.ofFailure dir failure)⟩
  | .abandon dir => return ⟨[], .error (.unlisted dir .tooDeep)⟩

/-- A listing that only looks something up in a state, which the walk leaves as it is. -/
theorem perform_state {σ : Type} (list : σ → Listing) (w : Walk α) (s : σ) :
    (w.perform (m := StateM σ) fun dir s => (list s dir, s)) s = (w.run (list s), s) := by
  induction w with
  | done value => rfl
  | note event rest ih => exact congrArg (fun r => (r.1.after event, r.2)) ih
  | list dir next ih =>
    simp only [perform, run, Bind.bind, StateT.bind]
    cases list s dir with
    | ok entries => exact congrArg (fun r => (r.1.after (.listed dir), r.2)) (ih entries)
    | error failure => rfl
  | abandon dir => rfl

end Walk

end PathSieve
