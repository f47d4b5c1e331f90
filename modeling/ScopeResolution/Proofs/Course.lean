import ScopeResolution.Fault.Message
import ScopeResolution.Proofs.Refinement

/-!
The course of a renaming: what it comes across, in its order. Bindings take numbers; a node that
renaming has no rule for is a stranger, and the first one ends it (`Renaming.Reaches`). A script
takes its course if it follows it from every resolver that shows the context it starts from, and
the steps that scripts are made of take their courses one after the other.
-/

namespace ScopeResolution

open Datum Traversal Traversal.Routine

namespace Renaming

def ruled : List String :=
  ["TypedExpr", "Located", "Identifier", "Lambda", "Let", "Case", "Alternative", "DoLet",
    "ConstructorPattern", "IdentifierPattern"]

/-- A node of a kind that no rule is named after and that does not descend from one of those whose
children are renamed in field order. -/
def Unsupported : Datum → Prop
  | .node k _ => k.name ∉ ruled ∧ passesThrough k.root = false
  | _ => False

def refusal (d : Datum) : Fault :=
  match d.displayed with
  | .ok _ => .unsupportedNode d
  | .error e => e

theorem rule?_of_unruled {k : Kind} (h : k.name ∉ ruled) :
    k.bears.bind (rule? .expression) = none := by
  rw [Option.bind_eq_none_iff]
  intro f named
  rw [Kind.bears_eq] at named
  rw [← Form.name_of_named? named] at h
  cases f <;> first | rfl | exact absurd (by decide) h

theorem isNode_of_unsupported {d : Datum} (h : Unsupported d) : d.isNode = true := by
  cases d <;> first | exact False.elim h | rfl

theorem refusal_of_rendered {d : Datum} {text : String} (h : Unsupported d)
    (told : d.rendered = .ok text) : (refusal d).category = .wrongType ∧
      (refusal d).message = "Unsupported node " ++ text := by
  cases d with
  | node k fs =>
      have shown : (Datum.node k fs).displayed = .ok text := told
      have refused : refusal (.node k fs) = .unsupportedNode (.node k fs) := by
        simp only [refusal, shown]
      have rendered : (Datum.node k fs).render = text := by
        unfold Datum.rendered at told
        split at told <;> cases told
        rfl
      rw [refused, ← rendered]
      exact ⟨rfl, rfl⟩
  | _ => exact False.elim h

theorem renameNode_of_unsupported {d : Datum} (h : Unsupported d) :
    renameNode .expression d = unsupported d := by
  cases d with
  | node k fs =>
      obtain ⟨unruled, blocked⟩ := h
      rw [renameNode, rule?_of_unruled unruled]
      exact if_neg (by simp [blocked])
  | _ => exact False.elim h

theorem ends_unsupported {d : Datum} {go : Part d → Resolver → Outcome Resolver Fault Datum}
    {r : Resolver} (unlimited : r.limits = .unbounded) :
    (unsupported d : Script d Datum).Ends go r (.error (refusal d)) r := by
  have shown : (told d : Script d String).Ends go r (r.limits.displayed d) r := ends_query _
  rw [unlimited, Limits.displayed_unbounded] at shown
  rw [refusal]
  cases displayed : d.displayed with
  | ok text =>
      rw [displayed] at shown
      exact shown.bind_ok (ends_fail _)
  | error e =>
      rw [displayed] at shown
      exact shown.bind_error

/-- What renaming comes across: a binding, which takes a number, or a node it has no rule for. -/
inductive Encounter where
  | binding (x : Symbol)
  | stranger (d : Datum)

namespace Encounter

def offender? : List Encounter → Option Datum
  | [] => none
  | .binding _ :: rest => offender? rest
  | .stranger d :: _ => some d

def taken : List Encounter → List Symbol
  | .binding x :: rest => x :: taken rest
  | _ => []

variable {es : List Encounter}

@[simp]
theorem offender?_bindings (xs : List Symbol) : offender? (xs.map .binding) = none := by
  induction xs with
  | nil => rfl
  | cons x xs ih => exact ih

@[simp]
theorem taken_bindings (xs : List Symbol) : taken (xs.map .binding) = xs := by
  induction xs with
  | nil => rfl
  | cons x xs ih => exact congrArg (x :: ·) ih

theorem append_of_none (h : offender? es = none) (fs : List Encounter) :
    offender? (es ++ fs) = offender? fs ∧ taken (es ++ fs) = taken es ++ taken fs := by
  induction es with
  | nil => exact ⟨rfl, rfl⟩
  | cons e es ih =>
      cases e with
      | binding x => exact ⟨(ih h).1, congrArg (x :: ·) (ih h).2⟩
      | stranger d => cases h

theorem append_of_some {d : Datum} (h : offender? es = some d) (fs : List Encounter) :
    offender? (es ++ fs) = some d ∧ taken (es ++ fs) = taken es := by
  induction es with
  | nil => cases h
  | cons e es ih =>
      cases e with
      | binding x => exact ⟨(ih h).1, congrArg (x :: ·) (ih h).2⟩
      | stranger d' => exact ⟨h, rfl⟩

theorem mem_of_offender? {d : Datum} (h : offender? es = some d) : stranger d ∈ es := by
  induction es with
  | nil => cases h
  | cons e es ih =>
      cases e with
      | binding x => exact List.mem_cons_of_mem _ (ih h)
      | stranger d' =>
          cases h
          exact List.mem_cons_self

theorem first_of_split (xs : List Symbol) (d : Datum) (after : List Encounter) :
    offender? (xs.map binding ++ stranger d :: after) = some d ∧
      taken (xs.map binding ++ stranger d :: after) = xs := by
  obtain ⟨offends, before⟩ := append_of_none (offender?_bindings xs) (stranger d :: after)
  rw [offends, before, taken_bindings]
  exact ⟨rfl, List.append_nil xs⟩

theorem exists_first (h : ∃ d, stranger d ∈ es) :
    ∃ d after, es = (taken es).map binding ++ stranger d :: after ∧ offender? es = some d := by
  induction es with
  | nil => obtain ⟨d, mem⟩ := h; cases mem
  | cons e es ih =>
      cases e with
      | binding x =>
          obtain ⟨d, mem⟩ := h
          rcases List.mem_cons.1 mem with same | mem
          · cases same
          obtain ⟨first, after, split, offends⟩ := ih ⟨d, mem⟩
          exact ⟨first, after, congrArg (binding x :: ·) split, offends⟩
      | stranger d => exact ⟨d, es, rfl, rfl⟩

end Encounter

open Encounter (offender? taken)

def Reaches {α : Type} (run : Resolver → Except Fault α → Resolver → Prop) (c : Context)
    (course : List Encounter) (a : α) (c' : Context) : Prop :=
  ∀ r, r.Shows c → ∃ r', r.Grows r' ∧ r'.counter = c.last + (taken course).length ∧
    match offender? course with
    | none => run r (.ok a) r' ∧ r'.Shows c'
    | some d => run r (.error (refusal d)) r'

section Courses

variable {κ α β : Type} {go : κ → Resolver → Outcome Resolver Fault Datum} {c c₁ c₂ : Context}
variable {es fs : List Encounter}

abbrev Takes (go : κ → Resolver → Outcome Resolver Fault Datum)
    (script : Routine κ Resolver Fault Datum α) : Context → List Encounter → α → Context → Prop :=
  Reaches fun r out r' => script.Ends go r out r'

theorem Reaches.imp {run : Resolver → Except Fault α → Resolver → Prop}
    {run' : Resolver → Except Fault β → Resolver → Prop} {a : α} {b : β}
    (h : Reaches run c es a c₁) (ok : ∀ r r', run r (.ok a) r' → run' r (.ok b) r')
    (error : ∀ r r' e, run r (.error e) r' → run' r (.error e) r') : Reaches run' c es b c₁ := by
  intro r shown
  obtain ⟨r', grown, counted, out⟩ := h r shown
  refine ⟨r', grown, counted, ?_⟩
  cases met : offender? es with
  | none =>
      rw [met] at out
      exact ⟨ok r r' out.1, out.2⟩
  | some d =>
      rw [met] at out
      exact error r r' _ out

theorem Gives.takes {script : Routine κ Resolver Fault Datum α} {a : α}
    (h : Gives go script c a c₁) (xs : List Symbol) (last : c₁.last = c.last + xs.length) :
    Takes go script c (xs.map .binding) a c₁ := by
  intro r shown
  obtain ⟨r', ended, grown, shown'⟩ := h r shown
  refine ⟨r', grown, ?_, ?_⟩
  · rw [Encounter.taken_bindings, shown'.counter, last]
  · rw [Encounter.offender?_bindings]
    exact ⟨ended, shown'⟩

theorem takes_pure (a : α) : Takes go (pure a) c [] a c :=
  (gives_pure a).takes [] rfl

theorem takes_return {a b : α} (h : a = b) : Takes go (pure a) c [] b c :=
  h ▸ takes_pure a

theorem takes_ofExcept {x : Except Fault α} {a : α} (h : x = .ok a) :
    Takes go (ofExcept x) c [] a c :=
  (gives_ofExcept h).takes [] rfl

theorem Reaches.bind {script : Routine κ Resolver Fault Datum α}
    {rest : α → Routine κ Resolver Fault Datum β} {a : α} {b : β}
    (first : Takes go script c es a c₁) (next : Takes go (rest a) c₁ fs b c₂) :
    Takes go (script >>= rest) c (es ++ fs) b c₂ := by
  intro r shown
  obtain ⟨r₁, grown, counted, out⟩ := first r shown
  cases met : offender? es with
  | some d =>
      rw [met] at out
      obtain ⟨offends, before⟩ := Encounter.append_of_some met fs
      refine ⟨r₁, grown, before ▸ counted, ?_⟩
      rw [offends]
      exact out.bind_error
  | none =>
      rw [met] at out
      obtain ⟨ended, shown₁⟩ := out
      obtain ⟨r₂, grown', counted', out⟩ := next r₁ shown₁
      obtain ⟨offends, before⟩ := Encounter.append_of_none met fs
      refine ⟨r₂, trans_of Resolver.Grows grown grown', ?_, ?_⟩
      · rw [before, List.length_append, counted', ← shown₁.counter, counted, Nat.add_assoc]
      · rw [offends]
        cases met' : offender? fs with
        | none =>
            rw [met'] at out
            exact ⟨ended.bind_ok out.1, out.2⟩
        | some d =>
            rw [met'] at out
            exact ended.bind_ok out

theorem Reaches.bind_first {script : Routine κ Resolver Fault Datum α}
    {rest : α → Routine κ Resolver Fault Datum β} {a : α} {b : β}
    (first : Takes go script c [] a c₁) (next : Takes go (rest a) c₁ es b c₂) :
    Takes go (script >>= rest) c es b c₂ :=
  first.bind next

theorem Reaches.bind_last {script : Routine κ Resolver Fault Datum α}
    {rest : α → Routine κ Resolver Fault Datum β} {a : α} {b : β}
    (first : Takes go script c es a c₁) (next : Takes go (rest a) c₁ [] b c₂) :
    Takes go (script >>= rest) c es b c₂ := by
  have whole := first.bind next
  rwa [List.append_nil] at whole

theorem takes_mapM_nil (f : α → Routine κ Resolver Fault Datum β) :
    Takes go ([].mapM f) c [] [] c :=
  (gives_mapM_nil f).takes [] rfl

theorem Reaches.mapM_cons {f : α → Routine κ Resolver Fault Datum β} {x : α} {xs : List α} {y : β}
    {ys : List β} (head : Takes go (f x) c es y c₁) (tail : Takes go (xs.mapM f) c₁ fs ys c₂) :
    Takes go ((x :: xs).mapM f) c (es ++ fs) (y :: ys) c₂ := by
  rw [List.mapM_cons]
  exact head.bind (tail.bind_last (takes_pure _))

end Courses

section Steps

variable {d : Datum} {go : Part d → Resolver → Outcome Resolver Fault Datum} {c c₁ : Context}
variable {es : List Encounter}

theorem takes_bindFresh (x : Symbol) :
    Takes go (bindFresh x.datum) c [.binding x] (c.next x).datum (c.bind x) :=
  (gives_bindFresh x).takes [x] rfl

theorem Reaches.inScope {script : Script d Datum} {v : Datum} (h : Takes go script c es v c₁) :
    Takes go (inScope script) c es v (c.leave c₁) := by
  intro r shown
  obtain ⟨r₁, grown, counted, out⟩ := h r.enter shown.enter
  obtain ⟨r₂, left, scopes, supply, limits⟩ := grown.exit_of_enter
  have counter : r₂.counter = r₁.counter := by rw [Resolver.counter, Resolver.counter, supply]
  have risen : r.counter ≤ r₂.counter := counter ▸ grown.counter
  refine ⟨r₂, .of_same scopes risen, counter.trans counted, ?_⟩
  cases met : offender? es with
  | none =>
      rw [met] at out
      exact ⟨out.1.within left, shown.leave out.2 scopes supply limits⟩
  | some d =>
      rw [met] at out
      exact out.within left

end Steps

def Meets (d : Datum) : Context → List Encounter → Datum → Context → Prop :=
  Reaches fun r out r' => (visitor .expression).recurse d r = (out, r')

section Visits

variable {d v w : Datum} {c c₁ c₂ : Context} {es fs : List Encounter} {xs : List Symbol}

theorem meets_of_takes (h : Takes (visits .expression d) (renameNode .expression d) c es v c₁) :
    Meets d c es v c₁ :=
  h.imp (fun r _ ended => (Visitor.recurse_eq d r).trans ended.run_eq)
    fun r _ _ ended => (Visitor.recurse_eq d r).trans ended.run_eq

theorem meets_of_renames (h : Renames .expression d c v c₁) (last : c₁.last = c.last + xs.length) :
    Meets d c (xs.map .binding) v c₁ := by
  intro r shown
  obtain ⟨r', visited, grown, shown'⟩ := h r shown
  refine ⟨r', grown, ?_, ?_⟩
  · rw [Encounter.taken_bindings, shown'.counter, last]
  · rw [Encounter.offender?_bindings]
    exact ⟨visited, shown'⟩

theorem meets_stranger (h : Unsupported d) : Meets d c [.stranger d] v c₁ := by
  refine meets_of_takes fun r shown => ⟨r, refl_of Resolver.Grows r, shown.counter, ?_⟩
  rw [renameNode_of_unsupported h]
  exact ends_unsupported shown.limits

theorem takes_call {p : Part d} (h : Meets p.1 c es v c₁) :
    Takes (visits .expression d) (call p) c es v c₁ := by
  have ended (r : Resolver) : (call p).Ends (visits .expression d) r _ _ := ends_call p
  refine h.imp (fun r r' visited => ?_) fun r r' e visited => ?_
  · have here := ended r
    rwa [visits, visited] at here
  · have here := ended r
    rwa [visits, visited] at here

theorem takes_renameItems {x : Part d} {ds vs : List Datum} (items : x.1.items? = some ds)
    (h : ∀ ps : List (Part d), ps.map (·.1) = ds →
      Takes (visits .expression d) (ps.mapM call) c es vs c₁) :
    Takes (visits .expression d) (renameItems x) c es vs c₁ := by
  obtain ⟨ps, found, same⟩ := Part.items_ok items
  exact (takes_ofExcept found).bind_first (h ps same)

theorem takes_rebuild {f : Form} {fs : List Datum} (changes : List (List (String × Datum)))
    (changed : Takes (visits .expression (node (.builtin f) fs))
      ((f.fields.zip (fieldParts (.builtin f) fs)).mapM fun p => fieldChange call p.1 p.2)
      c es changes c₁)
    (updated : (node (.builtin f) fs).update changes.flatten = .ok v) :
    Takes (visits .expression (node (.builtin f) fs)) (rebuild (node (.builtin f) fs) call)
      c es v c₁ := by
  rw [rebuild_builtin]
  exact changed.bind_last (takes_ofExcept updated)

theorem takes_fieldChange_node {f : String} {e : Datum} {smaller : e.size < d.size}
    (isNode : e.isNode = true) (h : Meets e c es v c₁) :
    Takes (visits .expression d) (fieldChange call f ⟨e, smaller⟩) c es [(f, v)] c₁ := by
  rw [fieldChange_node isNode]
  exact Reaches.bind_last (takes_call h) (takes_pure _)

theorem takes_fieldChange_items {f : String} {ds vs : List Datum}
    {smaller : (tuple ds).size < d.size} (nodes : ∀ e ∈ ds, e.isNode = true)
    (h : ∀ ps : List (Part d), ps.map (·.1) = ds →
      Takes (visits .expression d) (ps.mapM call) c es vs c₁) :
    Takes (visits .expression d) (fieldChange call f ⟨tuple ds, smaller⟩) c es
      [(f, .tuple vs)] c₁ := by
  obtain ⟨ps, same, visited⟩ := fieldChange_items f nodes
  rw [visited]
  exact (h ps same).bind_last (takes_pure _)

theorem meets_pair {f : Form} {a b : String} {x y : Datum} (passes : passesThrough f = true)
    (fields : f.fields = [a, b])
    (first : Takes (visits .expression (node (.builtin f) [x, y]))
      (fieldChange call a (child x List.mem_cons_self)) c es [(a, v)] c₁)
    (second : Takes (visits .expression (node (.builtin f) [x, y]))
      (fieldChange call b (child y (List.mem_cons_of_mem x List.mem_cons_self))) c₁ fs [(b, w)] c₂)
    (frozen : v.freeze = v) (frozen' : w.freeze = w) :
    Meets (node (.builtin f) [x, y]) c (es ++ fs) (node (.builtin f) [v, w]) c₂ := by
  refine meets_of_takes ?_
  rw [renameNode_of_passesThrough passes]
  refine takes_rebuild [[(a, v)], [(b, w)]] ?_ (update_pair fields frozen frozen')
  rw [fields, ← List.append_nil fs]
  refine Reaches.mapM_cons first ?_
  exact Reaches.mapM_cons second (takes_mapM_nil _)

theorem meets_single {f : Form} {a : String} {x : Datum} (passes : passesThrough f = true)
    (fields : f.fields = [a])
    (changed : Takes (visits .expression (node (.builtin f) [x]))
      (fieldChange call a (child x List.mem_cons_self)) c es [(a, v)] c₁)
    (frozen : v.freeze = v) :
    Meets (node (.builtin f) [x]) c es (node (.builtin f) [v]) c₁ := by
  refine meets_of_takes ?_
  rw [renameNode_of_passesThrough passes]
  refine takes_rebuild [[(a, v)]] ?_ (update_single fields frozen)
  rw [fields, ← List.append_nil es]
  exact Reaches.mapM_cons changed (takes_mapM_nil _)

theorem takes_renameRight {p : Part d} {e : Datum} (right : p.1.attribute? "expression" = some e)
    (h : Meets e c es v c₁) : Takes (visits .expression d) (renameRight p) c es v c₁ := by
  obtain ⟨q, found, same⟩ := Part.attr_ok right
  subst same
  exact (takes_ofExcept found).bind_first (takes_call h)

theorem takes_renameMember {p : Part d} {x : Symbol} {right type arity : Datum}
    (member : p.1 = Phrase.node .binding [x.datum, right, type.freeze, arity.freeze])
    (bound : (c.bound x.essence).isSome) (h : Meets right c es v c₁) (frozen : v.freeze = v) :
    Takes (visits .expression d) (renameMember p) c es
      (Phrase.node .binding [(c.nameOf x).datum, v, type.freeze, arity.freeze]) c₁ := by
  have named : p.1.attribute? "name" = some x.datum := by rw [member]; rfl
  obtain ⟨q, found, same⟩ := Part.attr_ok named
  have bindsTo : p.1.attribute? "expression" = some right := by rw [member]; rfl
  refine (takes_ofExcept found).bind_first ?_
  rw [same]
  refine ((gives_boundName bound).takes [] rfl).bind_first ?_
  refine (takes_renameRight bindsTo h).bind_last (takes_ofExcept ?_)
  rw [member, Phrase.update_binding, Name.freeze_datum, frozen]

theorem takes_renameGroup {x : Part d} {ds vs : List Datum} (items : x.1.items? = some ds)
    (named : ds.map (·.attribute? "name") = xs.map fun x => some x.datum)
    (h : ∀ ps : List (Part d), ps.map (·.1) = ds →
      Takes (visits .expression d) (ps.mapM renameMember) (c.bindAll xs) es vs c₁) :
    Takes (visits .expression d) (renameGroup x) c (xs.map .binding ++ es) (.tuple vs) c₁ := by
  obtain ⟨ps, found, same⟩ := Part.items_ok items
  have named : ps.map (fun p => p.1.attribute? "name") = xs.map fun x => some x.datum := by
    rw [← named, ← same, List.map_map]
    rfl
  obtain ⟨us, bound⟩ : ∃ us, Gives (visits .expression d) _ c us _ :=
    Phrase.gives_bindMembers named c
  refine (takes_ofExcept found).bind_first ((bound.takes xs (c.last_bindAll xs)).bind ?_)
  exact (h ps same).bind_last (takes_pure _)

end Visits

end Renaming

end ScopeResolution
