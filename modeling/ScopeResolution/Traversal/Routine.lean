/-!
What a visit method does, as data. A routine reads and writes a state or acts on it, asks for other
places to be visited, goes on with what its actions and visits give, and either returns or fails.
`defer` leaves a cleanup to be done when the routine ends, in whatever way it ends; `release` does
the latest one at once.

`Routine.runTelling` gives a routine its meaning, given the meaning of a visit and what a routine is
told when a visit that it waits for fails. Pending cleanups are run latest first, each told how the
routine ends, and one that fails takes the place of the outcome (`settle`).
-/

namespace ScopeResolution.Traversal

abbrev Outcome (σ ε α : Type) := Except ε α × σ

/-- How a routine ends: it returns, it fails, or it is closed while it waits for a visit. -/
inductive Ending (ε : Type) where
  | returned
  | failed (e : ε)
  | closed

abbrev Cleanup (σ ε : Type) := Ending ε → σ → Outcome σ ε Unit

inductive Routine (κ σ ε ο α : Type) where
  | done (a : α)
  | fail (e : ε)
  | read (k : σ → Routine κ σ ε ο α)
  | write (s : σ) (k : Routine κ σ ε ο α)
  | act (f : σ → Outcome σ ε ο) (k : ο → Routine κ σ ε ο α)
  | visit (c : κ) (k : ο → Routine κ σ ε ο α)
  | defer (f : Cleanup σ ε) (k : Routine κ σ ε ο α)
  | release (k : Routine κ σ ε ο α)

namespace Routine

variable {κ σ ε ο α β : Type}

def bind : Routine κ σ ε ο α → (α → Routine κ σ ε ο β) → Routine κ σ ε ο β
  | done a, f => f a
  | fail e, _ => fail e
  | read k, f => read fun s => (k s).bind f
  | write s k, f => write s (k.bind f)
  | act g k, f => act g fun o => (k o).bind f
  | visit c k, f => visit c fun o => (k o).bind f
  | defer g k, f => defer g (k.bind f)
  | release k, f => release (k.bind f)

instance : Monad (Routine κ σ ε ο) where
  pure := done
  bind := bind

theorem bind_done (r : Routine κ σ ε ο α) : r.bind done = r := by
  induction r with
  | done a => rfl
  | fail e => rfl
  | read k ih => exact congrArg read (funext ih)
  | write s k ih => exact congrArg (write s) ih
  | act g k ih => exact congrArg (act g) (funext ih)
  | visit c k ih => exact congrArg (visit c) (funext ih)
  | defer g k ih => exact congrArg (defer g) ih
  | release k ih => exact congrArg release ih

theorem bind_assoc {γ : Type} (r : Routine κ σ ε ο α) (f : α → Routine κ σ ε ο β)
    (g : β → Routine κ σ ε ο γ) : (r.bind f).bind g = r.bind fun a => (f a).bind g := by
  induction r with
  | done a => rfl
  | fail e => rfl
  | read k ih => exact congrArg read (funext ih)
  | write s k ih => exact congrArg (write s) ih
  | act g k ih => exact congrArg (act g) (funext ih)
  | visit c k ih => exact congrArg (visit c) (funext ih)
  | defer h k ih => exact congrArg (defer h) ih
  | release k ih => exact congrArg release ih

instance : LawfulMonad (Routine κ σ ε ο) := LawfulMonad.mk' _
  bind_done (fun _ _ => rfl) bind_assoc

def ofExcept : Except ε α → Routine κ σ ε ο α
  | .ok a => done a
  | .error e => fail e

def query (f : σ → Except ε α) : Routine κ σ ε ο α :=
  read fun s => ofExcept (f s)

def perform (f : σ → Outcome σ ε ο) : Routine κ σ ε ο ο :=
  act f done

def modify (f : σ → σ) : Routine κ σ ε ο Unit :=
  read fun s => write (f s) (done ())

def call (c : κ) : Routine κ σ ε ο ο :=
  visit c done

def callAll (cs : List κ) : Routine κ σ ε ο (List ο) :=
  cs.mapM call

def within (enter : σ → σ) (exit : σ → Outcome σ ε Unit) (body : Routine κ σ ε ο α) :
    Routine κ σ ε ο α := do
  modify enter
  defer (fun _ => exit) do
    let a ← body
    release (done a)

end Routine

section Meaning

variable {κ σ ε ο α : Type}

/-- Runs the pending cleanups, latest first; one that fails replaces the outcome so far. -/
def settle (ending : Ending ε) (r : Except ε α) : List (Cleanup σ ε) → σ → Outcome σ ε α
  | [], s => (r, s)
  | f :: rest, s =>
      match f ending s with
      | (.ok (), s) => settle ending r rest s
      | (.error e, s) => settle (.failed e) (.error e) rest s

def Routine.runTelling (told : ε → Ending ε) (go : κ → σ → Outcome σ ε ο) :
    Routine κ σ ε ο α → List (Cleanup σ ε) → σ → Outcome σ ε α
  | .done a, pending, s => settle .returned (.ok a) pending s
  | .fail e, pending, s => settle (.failed e) (.error e) pending s
  | .read k, pending, s => (k s).runTelling told go pending s
  | .write s k, pending, _ => k.runTelling told go pending s
  | .act f k, pending, s =>
      match f s with
      | (.ok o, s) => (k o).runTelling told go pending s
      | (.error e, s) => settle (.failed e) (.error e) pending s
  | .visit c k, pending, s =>
      match go c s with
      | (.ok o, s) => (k o).runTelling told go pending s
      | (.error e, s) => settle (told e) (.error e) pending s
  | .defer f k, pending, s => k.runTelling told go (f :: pending) s
  | .release k, [], s => k.runTelling told go [] s
  | .release k, f :: rest, s =>
      match f .returned s with
      | (.ok (), s) => k.runTelling told go rest s
      | (.error e, s) => settle (.failed e) (.error e) rest s

abbrev Routine.run (go : κ → σ → Outcome σ ε ο) (r : Routine κ σ ε ο α) :
    List (Cleanup σ ε) → σ → Outcome σ ε α :=
  r.runTelling (fun _ => .closed) go

end Meaning

end ScopeResolution.Traversal
