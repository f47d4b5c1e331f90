import ScopeResolution.Proofs.Faults

namespace ScopeResolution.Renaming

open Datum Traversal Traversal.Routine

/-- A property of scripts that run at a value: it holds of the steps of the rules, and of scripts
made of scripts that have it. -/
structure Upheld (d : Datum) (P : {α : Type} → Script d α → Prop) : Prop where
  pure {α : Type} (a : α) : P (pure a)
  bind {α β : Type} {r : Script d α} {f : α → Script d β} : P r → (∀ a, P (f a)) → P (r >>= f)
  attempt {α : Type} {x : Except Fault α} : FailsOrdinarily x → P (ofExcept x)
  told (x : Datum) : P (told x : Script d String)
  debug (text : String) : P (modify (Resolver.debug text) : Script d Unit)
  nameOf (symbol : Datum) : P (nameOf symbol : Script d Datum)
  bindFresh (symbol : Datum) : P (bindFresh symbol : Script d Datum)
  inScope {body : Script d Datum} : P body → P (inScope body)
  call (x : Part d) : P (call x : Script d Datum)
  group (x : Part d) : P (renameGroup x)

namespace Upheld

variable {d : Datum} {P : {α : Type} → Script d α → Prop} (upheld : Upheld d P)
include upheld

theorem refuse {α : Type} {fault : Fault} (h : fault.Ordinary) : P (fail fault : Script d α) :=
  upheld.attempt (ordinarily_error h)

theorem part (a : String) : P (ofExcept (d.part a)) :=
  upheld.attempt (ordinarily_part d a)

theorem update (b : Datum) (changes : List (String × Datum)) : P (ofExcept (b.update changes)) :=
  upheld.attempt (ordinarily_update changes b)

theorem mapM {α β : Type} {f : α → Script d β} (h : ∀ x, P (f x)) :
    (xs : List α) → P (xs.mapM f)
  | [] => by
      rw [List.mapM_nil]
      exact upheld.pure []
  | x :: xs => by
      rw [List.mapM_cons]
      exact upheld.bind (h x) fun y => upheld.bind (mapM h xs) fun ys => upheld.pure (y :: ys)

theorem items (x : Part d) : P (renameItems x) :=
  upheld.bind (upheld.attempt x.ordinarily_items) fun xs => upheld.mapM upheld.call xs

theorem declared (b : Part d) : P (renameDeclared b) := by
  have right : P (renameRight b) :=
    upheld.bind (upheld.attempt (b.ordinarily_attr _)) fun e => upheld.call e
  refine upheld.bind right fun right => ?_
  exact upheld.bind (upheld.attempt (b.ordinarily_attr _)) fun symbol => upheld.update b.1 _

theorem declarations (x : Part d) : P (renameDeclarations x) :=
  upheld.bind (upheld.attempt x.ordinarily_items) fun bs => upheld.mapM upheld.declared bs

theorem finish (e : Datum) : P (finishEntries e : Script d Unit) := by
  unfold finishEntries
  split
  · rename_i fault met
    exact upheld.refuse (ordinary_of_entriesFault met)
  · exact upheld.pure ()

theorem fieldChange (f : String) (x : Part d) :
    P (fieldChange .call f x : Script d (List (String × Datum))) := by
  unfold Traversal.fieldChange
  split
  · exact upheld.bind (upheld.call x) fun y => upheld.pure _
  · split
    · refine upheld.bind (upheld.mapM (fun y => ?_) _) fun ys => upheld.pure _
      unfold rebuildItem
      split
      · exact upheld.call y
      · exact upheld.pure _
    · exact upheld.pure _

theorem rebuild : P (rebuild d .call : Script d Datum) := by
  cases d with
  | node k fs =>
      refine upheld.bind (upheld.mapM (fun p => ?_) _) fun changes => ?_
      · cases p.2 with
        | some x => exact upheld.fieldChange p.1 x
        | none => exact upheld.pure _
      · exact upheld.bind (upheld.finish _) fun _ => upheld.update _ _
  | _ => exact upheld.refuse (.inr rfl)

theorem unsupported : P (unsupported d) :=
  upheld.bind (upheld.told d) fun _ => upheld.refuse (.inl rfl)

theorem within (a : String) : P (renameWithin d a) :=
  upheld.bind (upheld.part a) fun x => upheld.bind (upheld.call x) fun _ => upheld.update d _

theorem identifier : P (renameIdentifier d) :=
  upheld.bind (upheld.part _) fun symbol =>
    upheld.bind (upheld.nameOf symbol.1) fun _ => upheld.pure _

theorem lambda : P (renameLambda d) := by
  refine upheld.inScope (upheld.bind (upheld.part _) fun symbol => ?_)
  refine upheld.bind (upheld.bindFresh symbol.1) fun arg => upheld.bind (upheld.part _) fun x => ?_
  exact upheld.bind (upheld.call x) fun body => upheld.pure _

theorem letIn : P (renameLet d) := by
  refine upheld.inScope (upheld.bind (upheld.part _) fun bs => ?_)
  refine upheld.bind (upheld.group bs) fun bindings => upheld.bind (upheld.part _) fun x => ?_
  exact upheld.bind (upheld.call x) fun body => upheld.pure _

theorem caseOf : P (renameCase d) := by
  refine upheld.bind (upheld.part _) fun xs => upheld.bind (upheld.items xs) fun alternatives => ?_
  refine upheld.bind (upheld.part _) fun x => ?_
  exact upheld.bind (upheld.call x) fun expr => upheld.pure _

theorem alternative : P (renameAlternative d) := by
  refine upheld.inScope (upheld.bind (upheld.part _) fun p => ?_)
  refine upheld.bind (upheld.call p) fun pattern => upheld.bind (upheld.part _) fun x => ?_
  exact upheld.bind (upheld.call x) fun expression => upheld.pure _

theorem doLet : P (renameDoLet d) :=
  upheld.bind (upheld.part _) fun bs => upheld.bind (upheld.group bs) fun _ => upheld.pure _

theorem constructorPattern : P (renameConstructorPattern d) := by
  refine upheld.bind (upheld.part _) fun xs => upheld.bind (upheld.items xs) fun patterns => ?_
  exact upheld.bind (upheld.part _) fun symbol => upheld.pure _

theorem identifierPattern : P (renameIdentifierPattern d) :=
  upheld.bind (upheld.part _) fun symbol =>
    upheld.bind (upheld.bindFresh symbol.1) fun _ => upheld.pure _

theorem module : P (renameModule d) := by
  refine upheld.bind (upheld.part _) fun shown => upheld.bind (upheld.told shown.1) fun text => ?_
  refine upheld.bind (upheld.debug _) fun _ => ?_
  refine upheld.bind (upheld.part _) fun xs => upheld.bind (upheld.items xs) fun types => ?_
  refine upheld.bind (upheld.part _) fun ys => upheld.bind (upheld.items ys) fun instances => ?_
  refine upheld.bind (upheld.part _) fun bs => ?_
  refine upheld.bind (upheld.declarations bs) fun bindings => ?_
  refine upheld.bind (upheld.part _) fun symbol => ?_
  exact upheld.bind (upheld.bindFresh symbol.1) fun bound => upheld.update d _

theorem dataDefinition : P (renameDataDefinition d) :=
  upheld.bind (upheld.part _) fun xs => upheld.bind (upheld.items xs) fun _ => upheld.update d _

theorem constructor : P (renameConstructor d) :=
  upheld.bind (upheld.part _) fun _ => upheld.update d _

theorem instanceOf : P (renameInstance d) :=
  upheld.bind (upheld.part _) fun bs =>
    upheld.bind (upheld.declarations bs) fun _ => upheld.update d _

theorem rule {extent : Extent} {f : Form} {rule : (d : Datum) → Script d Datum}
    (h : rule? extent f = some rule) : P (rule d) := by
  cases f with
  | typedExpr => cases h; exact upheld.within "expr"
  | located => cases h; exact upheld.within "node"
  | identifier => cases h; exact upheld.identifier
  | lambda => cases h; exact upheld.lambda
  | letIn => cases h; exact upheld.letIn
  | caseOf => cases h; exact upheld.caseOf
  | alternative => cases h; exact upheld.alternative
  | doLet => cases h; exact upheld.doLet
  | constructorPattern => cases h; exact upheld.constructorPattern
  | identifierPattern => cases h; exact upheld.identifierPattern
  | module => cases extent <;> cases h; exact upheld.module
  | dataDefinition => cases extent <;> cases h; exact upheld.dataDefinition
  | constructor => cases extent <;> cases h; exact upheld.constructor
  | instanceOf => cases extent <;> cases h; exact upheld.instanceOf
  | _ => cases extent <;> cases h

theorem visit (extent : Extent) : P (renameNode extent d) := by
  cases d with
  | node k fs =>
      simp only [renameNode]
      split
      · rename_i rule found
        obtain ⟨f, _, found⟩ := Option.bind_eq_some_iff.1 found
        exact upheld.rule found
      · unfold renameOther
        split
        · exact upheld.rebuild
        · exact upheld.unsupported
  | _ => exact upheld.unsupported

end Upheld

section Builtin

variable {extent : Extent}

theorem ofExcept_part {α : Type} {a : String} {k : Kind} {fs : List Datum} {v : Datum}
    (h : field? a k.fields fs = some v) (f : Part (.node k fs) → Script (.node k fs) α) :
    (ofExcept (part a (.node k fs)) >>= f) = f (child v (mem_of_field? h)) := by
  rw [part_of_field? h]
  rfl

theorem renameNode_typedExpr (expr typ location : Datum) :
    renameNode extent (.node (.builtin .typedExpr) [expr, typ, location]) = (do
      let expr ← .call (child expr (by simp))
      return .ofForm .typedExpr [expr, typ, location]) :=
  ofExcept_part (k := .builtin .typedExpr) (a := "expr") rfl _

theorem renameNode_located (inner location : Datum) :
    renameNode extent (.node (.builtin .located) [inner, location]) = (do
      let inner ← .call (child inner (by simp))
      return .ofForm .located [inner, location]) :=
  ofExcept_part (k := .builtin .located) (a := "node") rfl _

theorem renameNode_identifier (symbol : Datum) :
    renameNode extent (.node (.builtin .identifier) [symbol]) = (do
      let bound ← nameOf symbol
      return .ofForm .identifier [bound]) :=
  ofExcept_part (k := .builtin .identifier) rfl _

theorem renameNode_lambda (arg body : Datum) :
    renameNode extent (.node (.builtin .lambda) [arg, body]) = inScope (do
      let arg ← bindFresh arg
      let body ← .call (child body (by simp))
      return .ofForm .lambda [arg, body]) := by
  refine congrArg inScope ((ofExcept_part (k := .builtin .lambda) rfl _).trans ?_)
  exact congrArg _ (funext fun _ => ofExcept_part (k := .builtin .lambda) rfl _)

theorem renameNode_letIn (bindings body : Datum) :
    renameNode extent (.node (.builtin .letIn) [bindings, body]) = inScope (do
      let bindings ← renameGroup (child bindings (by simp))
      let body ← .call (child body (by simp))
      return .ofForm .letIn [bindings, body]) := by
  refine congrArg inScope ((ofExcept_part (k := .builtin .letIn) rfl _).trans ?_)
  exact congrArg _ (funext fun _ => ofExcept_part (k := .builtin .letIn) rfl _)

theorem renameNode_caseOf (expr alternatives : Datum) :
    renameNode extent (.node (.builtin .caseOf) [expr, alternatives]) = (do
      let alternatives ← renameItems (child alternatives (by simp))
      let expr ← .call (child expr (by simp))
      return .ofForm .caseOf [expr, .tuple alternatives]) := by
  refine (ofExcept_part (k := .builtin .caseOf) rfl _).trans ?_
  exact congrArg _ (funext fun _ => ofExcept_part (k := .builtin .caseOf) rfl _)

theorem renameNode_alternative (pattern expression : Datum) :
    renameNode extent (.node (.builtin .alternative) [pattern, expression]) = inScope (do
      let pattern ← .call (child pattern (by simp))
      let expression ← .call (child expression (by simp))
      return .ofForm .alternative [pattern, expression]) := by
  refine congrArg inScope ((ofExcept_part (k := .builtin .alternative) rfl _).trans ?_)
  exact congrArg _ (funext fun _ => ofExcept_part (k := .builtin .alternative) rfl _)

theorem renameNode_doLet (bindings : Datum) :
    renameNode extent (.node (.builtin .doLet) [bindings]) = (do
      let bindings ← renameGroup (child bindings (by simp))
      return .ofForm .doLet [bindings]) :=
  ofExcept_part (k := .builtin .doLet) rfl _

theorem renameNode_constructorPattern (symbol patterns : Datum) :
    renameNode extent (.node (.builtin .constructorPattern) [symbol, patterns]) = (do
      let patterns ← renameItems (child patterns (by simp))
      return .ofForm .constructorPattern [.globalName symbol, .tuple patterns]) := by
  refine (ofExcept_part (k := .builtin .constructorPattern) rfl _).trans ?_
  exact congrArg _ (funext fun _ => ofExcept_part (k := .builtin .constructorPattern) rfl _)

theorem renameNode_identifierPattern (symbol : Datum) :
    renameNode extent (.node (.builtin .identifierPattern) [symbol]) = (do
      let bound ← bindFresh symbol
      return .ofForm .identifierPattern [bound]) :=
  ofExcept_part (k := .builtin .identifierPattern) rfl _

theorem renameNode_module (symbol classes types declared bindings instances : Datum) :
    renameNode .module
        (.node (.builtin .module) [symbol, classes, types, declared, bindings, instances]) = (do
      let text ← told symbol
      .modify (Resolver.debug ("renaming module " ++ text))
      let types ← renameItems (child types (by simp))
      let instances ← renameItems (child instances (by simp))
      let bindings ← renameDeclarations (child bindings (by simp))
      let bound ← bindFresh symbol
      return .ofForm .module
        [bound, classes, .tuple types, declared, .tuple bindings, .tuple instances]) := by
  refine (ofExcept_part (k := .builtin .module) rfl _).trans (congrArg _ (funext fun _ => ?_))
  refine congrArg _ (funext fun _ => ?_)
  refine (ofExcept_part (k := .builtin .module) rfl _).trans (congrArg _ (funext fun _ => ?_))
  refine (ofExcept_part (k := .builtin .module) rfl _).trans (congrArg _ (funext fun _ => ?_))
  refine (ofExcept_part (k := .builtin .module) rfl _).trans (congrArg _ (funext fun _ => ?_))
  exact ofExcept_part (k := .builtin .module) rfl _

theorem renameNode_dataDefinition (constructors typ parameters : Datum) :
    renameNode .module (.node (.builtin .dataDefinition) [constructors, typ, parameters]) = (do
      let constructors ← renameItems (child constructors (by simp))
      return .ofForm .dataDefinition [.tuple constructors, typ, parameters]) :=
  ofExcept_part (k := .builtin .dataDefinition) rfl _

theorem renameNode_constructor (symbol typ tag arity : Datum) :
    renameNode .module (.node (.builtin .constructor) [symbol, typ, tag, arity]) =
      return .ofForm .constructor [.globalName symbol, typ, tag, arity] :=
  ofExcept_part (k := .builtin .constructor) rfl _

theorem renameNode_instanceOf (bindings constraints typ classname : Datum) :
    renameNode .module
        (.node (.builtin .instanceOf) [bindings, constraints, typ, classname]) = (do
      let bindings ← renameDeclarations (child bindings (by simp))
      return .ofForm .instanceOf [.tuple bindings, constraints, typ, classname]) :=
  ofExcept_part (k := .builtin .instanceOf) rfl _

end Builtin

end ScopeResolution.Renaming
