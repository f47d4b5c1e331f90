import ScopeResolution.Proofs.Leaks
import ScopeResolution.Proofs.Lookup

namespace ScopeResolution

theorem Operation.pending_of_symbol? {op : Operation} {symbol : Datum}
    (binds : op.symbol? = some symbol) (ops : List Operation) (n : Nat) :
    pending (op :: ops) n = pending ops n := by
  cases op with
  | enter => cases binds
  | exit => cases binds
  | insert => rfl
  | fresh => rfl

namespace Scopes

def bottom (s : Scopes) : Dictionary :=
  s.frames.getLast (List.cons_ne_nil _ _)

theorem bottom_enter (s : Scopes) : s.enter.bottom = s.bottom :=
  List.getLast_cons _

theorem bottom_of_outer {s t : Scopes} (h : s.outer = t.frames) : s.bottom = t.bottom := by
  have frames : s.frames = s.inner :: t.frames := congrArg (s.inner :: ·) h
  simp only [bottom, frames]
  exact List.getLast_cons (List.cons_ne_nil _ _)

theorem outer_of_depth {s : Scopes} (h : s.depth = 0) : s.outer = [] :=
  List.eq_nil_of_length_eq_zero (s.depth_eq.symm.trans h)

theorem bottom_outermost {s : Scopes} (h : s.depth = 0) : s.bottom = s.inner := by
  have frames : s.frames = [s.inner] := congrArg (s.inner :: ·) (outer_of_depth h)
  simp only [bottom, frames, List.getLast_singleton]

theorem bottom_settle_of_depth {s : Scopes} (h : s.depth ≠ 0) (site : Site) (value : Datum) :
    (s.settle site value).bottom = s.bottom := by
  have around : s.outer ≠ [] := fun none => h (by rw [s.depth_eq, none, List.length_nil])
  simp only [bottom, frames, settle]
  rw [List.getLast_cons around, List.getLast_cons around]

def stored (s : Scopes) (symbol value : Datum) : List Slot :=
  match s.siteOf symbol with
  | .ok site => [⟨site.under, value⟩]
  | .error _ => []

theorem putAll_stored {s : Scopes} {symbol : Datum} {site : Site}
    (placed : s.siteOf symbol = .ok site) (value : Datum) :
    s.inner.putAll (s.stored symbol value) = .ok (s.settle site value).inner := by
  obtain ⟨k, _, found⟩ := Dictionary.siteOf_eq_ok placed
  have under : site.under = k := by
    rw [Dictionary.site] at found
    cases place : s.inner.place? k <;> rw [place] at found <;> cases found
    rfl
  have put : s.inner.put site.under value = .ok (s.inner.settle site value) := by
    rw [Dictionary.put, under, found]
    rfl
  simp only [stored, placed, Dictionary.putAll, put]
  rfl

end Scopes

namespace Resolver

variable {r : Resolver}

def stored (r : Resolver) : Operation → List Slot
  | .insert symbol value => r.scopes.stored symbol value
  | .fresh symbol => match r.supply.pinned with
      | none => r.scopes.stored symbol (r.nextName symbol)
      | some _ => []
  | _ => []

inductive Shift (r : Resolver) : Operation → Scopes → Prop where
  | enter : r.Shift .enter r.scopes.enter
  | exit {s : Scopes} (left : r.scopes.exit? = some s) : r.Shift .exit s
  | unmatched (outermost : r.scopes.exit? = none) : r.Shift .exit r.scopes
  | bound {op : Operation} {symbol value : Datum} {site : Site} (binds : op.symbol? = some symbol)
      (placed : r.scopes.siteOf symbol = .ok site)
      (stored : r.stored op = r.scopes.stored symbol value) :
      r.Shift op (r.scopes.settle site value)
  | kept {op : Operation} {symbol : Datum} (binds : op.symbol? = some symbol)
      (stored : r.stored op = []) : r.Shift op r.scopes

theorem shift_perform (r : Resolver) (op : Operation) : r.Shift op (r.perform op).scopes := by
  cases op with
  | enter => exact .enter
  | exit =>
      rw [perform, Resolver.exit]
      cases left : r.scopes.exit? with
      | none => exact .unmatched left
      | some s => exact .exit left
  | insert symbol value =>
      rw [perform, Resolver.insert]
      cases placed : r.scopes.siteOf symbol with
      | error fault => exact .kept rfl (by rw [stored, Scopes.stored, placed])
      | ok site => exact .bound rfl placed rfl
  | fresh symbol =>
      rw [perform]
      cases pinned : r.supply.pinned with
      | some uid =>
          rw [freshName_of_pinned pinned]
          exact .kept rfl (by rw [stored, pinned])
      | none =>
          cases placed : r.scopes.siteOf symbol with
          | error fault =>
              rw [freshName_of_unplaced pinned placed]
              exact .kept rfl (by rw [stored, pinned, Scopes.stored, placed])
          | ok site =>
              rw [(freshName_of_placed pinned placed).2.1]
              exact .bound rfl placed (by rw [stored, pinned])

end Resolver

structure Turn where
  before : Resolver
  operation : Operation

namespace Turn

def after (t : Turn) : Resolver :=
  t.before.perform t.operation

def pushes (t : Turn) : Bool :=
  match t.operation with
  | .enter => true
  | _ => false

def pops (t : Turn) : Bool :=
  match t.operation with
  | .exit => t.before.exit.1.isOk
  | _ => false

def grounded (t : Turn) : List Slot :=
  if t.before.scopes.depth = 0 then t.before.stored t.operation else []

theorem unmoved_of_symbol? {t : Turn} {symbol : Datum} (binds : t.operation.symbol? = some symbol) :
    t.pushes = false ∧ t.pops = false := by
  rcases t with ⟨before, _ | _ | _ | _⟩
  · cases binds
  · cases binds
  · exact ⟨rfl, rfl⟩
  · exact ⟨rfl, rfl⟩

theorem pops_exit (r : Resolver) : pops ⟨r, .exit⟩ = r.scopes.exit?.isSome := by
  rw [pops, Resolver.exit]
  cases r.scopes.exit? <;> rfl

theorem depth_after (t : Turn) :
    t.after.scopes.depth + (if t.pops then 1 else 0) =
      t.before.scopes.depth + if t.pushes then 1 else 0 := by
  rcases t with ⟨r, op⟩
  have shift := r.shift_perform op
  rw [after]
  generalize (r.perform op).scopes = s at shift
  cases shift with
  | enter => rfl
  | exit left =>
      have around := Scopes.outer_of_exit? left
      rw [pops_exit, left, r.scopes.depth_eq, around, s.depth_eq]
      rfl
  | unmatched outermost =>
      rw [pops_exit, outermost]
      rfl
  | bound binds _ _ =>
      have unmoved := unmoved_of_symbol? (t := ⟨r, op⟩) binds
      rw [unmoved.1, unmoved.2, Scopes.depth_settle]
  | kept binds _ =>
      have unmoved := unmoved_of_symbol? (t := ⟨r, op⟩) binds
      rw [unmoved.1, unmoved.2]

theorem bottom_after (t : Turn) :
    t.before.scopes.bottom.putAll t.grounded = .ok t.after.scopes.bottom := by
  rcases t with ⟨r, op⟩
  have shift := r.shift_perform op
  rw [after, grounded]
  generalize (r.perform op).scopes = s at shift
  cases shift with
  | enter =>
      have nothing : r.stored .enter = [] := rfl
      rw [nothing, ite_self, r.scopes.bottom_enter]
      rfl
  | exit left =>
      have nothing : r.stored .exit = [] := rfl
      rw [nothing, ite_self, Scopes.bottom_of_outer (Scopes.outer_of_exit? left)]
      rfl
  | unmatched _ =>
      have nothing : r.stored .exit = [] := rfl
      rw [nothing, ite_self]
      rfl
  | bound _ placed stored =>
      by_cases outermost : r.scopes.depth = 0
      · rw [if_pos outermost, stored, Scopes.bottom_outermost outermost,
          Scopes.bottom_outermost (by rwa [Scopes.depth_settle])]
        exact Scopes.putAll_stored placed _
      · rw [if_neg outermost, Scopes.bottom_settle_of_depth outermost]
        rfl
  | kept _ stored =>
      rw [stored, ite_self]
      rfl

end Turn

namespace Resolver

def turns (r : Resolver) : List Operation → List Turn
  | [] => []
  | op :: ops => ⟨r, op⟩ :: (r.perform op).turns ops

theorem depth_after (r : Resolver) (ops : List Operation) :
    (r.after ops).scopes.depth + (r.turns ops).countP Turn.pops =
      r.scopes.depth + (r.turns ops).countP Turn.pushes := by
  induction ops generalizing r with
  | nil => rfl
  | cons op ops ih =>
      have first := Turn.depth_after ⟨r, op⟩
      have rest := ih (r.perform op)
      rw [turns, List.countP_cons, List.countP_cons]
      simp only [Turn.after] at first
      show ((r.perform op).after ops).scopes.depth + _ = _
      omega

theorem bottom_after (r : Resolver) (ops : List Operation) :
    r.scopes.bottom.putAll ((r.turns ops).flatMap Turn.grounded) =
      .ok (r.after ops).scopes.bottom := by
  induction ops generalizing r with
  | nil => rfl
  | cons op ops ih =>
      rw [turns, List.flatMap_cons, Dictionary.putAll_append, Turn.bottom_after ⟨r, op⟩]
      exact ih (r.perform op)

theorem outer_after_of_pending {r : Resolver} {ops : List Operation} {own around : List Dictionary}
    {m : Nat} (outer : r.scopes.outer = own ++ around)
    (stays : Operation.pending ops own.length = some m) :
    ∃ own', (r.after ops).scopes.outer = own' ++ around ∧ own'.length = m := by
  induction ops generalizing r own with
  | nil =>
      cases stays
      exact ⟨own, outer, rfl⟩
  | cons op ops ih =>
      have shift := r.shift_perform op
      show ∃ own', ((r.perform op).after ops).scopes.outer = _ ∧ _
      generalize scopes : (r.perform op).scopes = s at shift
      cases shift with
      | enter =>
          have inside : (r.perform .enter).scopes.outer = (r.scopes.inner :: own) ++ around := by
            rw [scopes]
            exact congrArg (r.scopes.inner :: ·) outer
          exact ih inside stays
      | exit left =>
          cases own with
          | nil => cases stays
          | cons d own =>
              have frames := (Scopes.outer_of_exit? left).symm.trans outer
              refine ih ?_ stays
              rw [scopes]
              exact (List.cons.inj frames).2
      | unmatched outermost =>
          cases own with
          | nil => cases stays
          | cons d own =>
              rw [Scopes.exit?_eq_none_iff] at outermost
              rw [Scopes.outer_of_depth outermost] at outer
              cases outer
      | bound binds _ _ =>
          have same : (r.perform op).scopes.outer = own ++ around := by
            rw [scopes]
            exact outer
          rw [Operation.pending_of_symbol? binds] at stays
          exact ih same stays
      | kept binds _ =>
          have same : (r.perform op).scopes.outer = own ++ around := by rw [scopes, outer]
          rw [Operation.pending_of_symbol? binds] at stays
          exact ih same stays

end Resolver

end ScopeResolution
