import ScopeResolution.Proofs.Phrase

/-!
Resolution of a phrase in one map from symbols to names. Every binding of a symbol takes the next
number and takes the place of the one before it; what a lambda, a let or an alternative binds is
forgotten when it ends, by going back to the map it began with. All names of a group are bound
before its right-hand sides are resolved, and each of its bindings is named by what its symbol means
when its turn comes.
-/

namespace ScopeResolution

/-- The names that symbols mean, and the number taken last. -/
structure Context where
  bound : Essence → Option Name
  last : Nat

namespace Context

def initial : Context :=
  ⟨fun _ => none, 1⟩

def nameOf (c : Context) (x : Symbol) : Name :=
  (c.bound x.essence).getD ⟨x, 0⟩

def next (c : Context) (x : Symbol) : Name :=
  ⟨x, c.last + 1⟩

def bind (c : Context) (x : Symbol) : Context :=
  ⟨fun e => if x.essence = e then some (c.next x) else c.bound e, c.last + 1⟩

def bindAll (c : Context) (xs : List Symbol) : Context :=
  xs.foldl bind c

def leave (c inner : Context) : Context :=
  ⟨c.bound, inner.last⟩

theorem nameOf_of_bound {c : Context} {x : Symbol} {n : Name} (h : c.bound x.essence = some n) :
    c.nameOf x = n := by
  rw [nameOf, h, Option.getD_some]

theorem bound_bind_self (c : Context) (x : Symbol) :
    (c.bind x).bound x.essence = some (c.next x) :=
  if_pos rfl

theorem bound_bind_of_ne {c : Context} {x : Symbol} {e : Essence} (h : x.essence ≠ e) :
    (c.bind x).bound e = c.bound e :=
  if_neg h

theorem last_bindAll (c : Context) (xs : List Symbol) :
    (c.bindAll xs).last = c.last + xs.length := by
  induction xs generalizing c with
  | nil => rfl
  | cons x xs ih =>
      have rest := ih (c.bind x)
      simp only [bindAll, List.foldl_cons, List.length_cons, bind] at rest ⊢
      omega

structure Rebinds (c c' : Context) (es : List Essence) : Prop where
  later : c.last ≤ c'.last
  renews : ∀ e ∈ es, ∃ n, c'.bound e = some n ∧ c.last < n.uid
  keeps : ∀ e ∉ es, c'.bound e = c.bound e

theorem rebinds_refl (c : Context) : c.Rebinds c [] :=
  ⟨Nat.le_refl _, (fun _ h => nomatch h), fun _ _ => rfl⟩

theorem rebinds_bind (c : Context) (x : Symbol) : c.Rebinds (c.bind x) [x.essence] := by
  refine ⟨Nat.le_succ _, fun e he => ?_, fun e he => ?_⟩
  · rw [List.mem_singleton.1 he]
    exact ⟨c.next x, c.bound_bind_self x, Nat.lt_succ_self c.last⟩
  · exact bound_bind_of_ne (Ne.symm (List.ne_of_not_mem_cons he))

namespace Rebinds

variable {c c₁ c₂ : Context} {es fs : List Essence} {e : Essence} {n : Name}

theorem append (h : c.Rebinds c₁ es) (k : c₁.Rebinds c₂ fs) : c.Rebinds c₂ (es ++ fs) := by
  refine ⟨Nat.le_trans h.later k.later, fun e he => ?_, fun e he => ?_⟩
  · by_cases last : e ∈ fs
    · obtain ⟨n, bound, newer⟩ := k.renews e last
      exact ⟨n, bound, Nat.lt_of_le_of_lt h.later newer⟩
    · obtain ⟨n, bound, newer⟩ := h.renews e ((List.mem_append.1 he).resolve_right last)
      exact ⟨n, (k.keeps e last).trans bound, newer⟩
  · rw [List.mem_append, not_or] at he
    exact (k.keeps e he.2).trans (h.keeps e he.1)

theorem leave (h : c.Rebinds c₁ es) : c.Rebinds (c.leave c₁) [] :=
  ⟨h.later, (fun _ he => nomatch he), fun _ _ => rfl⟩

theorem lt_uid (h : c.Rebinds c₁ es) (he : e ∈ es) (bound : c₁.bound e = some n) :
    c.last < n.uid := by
  obtain ⟨m, found, newer⟩ := h.renews e he
  rw [found, Option.some.injEq] at bound
  exact bound ▸ newer

end Rebinds

theorem rebinds_bindAll (c : Context) (xs : List Symbol) :
    c.Rebinds (c.bindAll xs) (xs.map Symbol.essence) := by
  induction xs generalizing c with
  | nil => exact c.rebinds_refl
  | cons x xs ih => exact (c.rebinds_bind x).append (ih (c.bind x))

def Binds (c : Context) (xs : List Symbol) : Prop :=
  ∀ x ∈ xs, (c.bound x.essence).isSome

theorem binds_bindAll (c : Context) (xs : List Symbol) : (c.bindAll xs).Binds xs := by
  intro x hx
  obtain ⟨n, bound, _⟩ := (c.rebinds_bindAll xs).renews x.essence (List.mem_map_of_mem hx)
  rw [bound]
  rfl

theorem Rebinds.binds {c c' : Context} {es : List Essence} {xs : List Symbol}
    (h : c.Rebinds c' es) (binds : c.Binds xs) : c'.Binds xs := by
  intro x hx
  by_cases renewed : x.essence ∈ es
  · obtain ⟨n, bound, _⟩ := h.renews x.essence renewed
    rw [bound]
    rfl
  · rw [h.keeps x.essence renewed]
    exact binds x hx

def Sound (c : Context) : Prop :=
  ∀ e n, c.bound e = some n → n.symbol.essence = e ∧ 0 < n.uid ∧ n.uid ≤ c.last

theorem sound_initial : initial.Sound :=
  fun _ _ h => nomatch h

namespace Sound

variable {c inner : Context}

theorem bind (h : c.Sound) (x : Symbol) : (c.bind x).Sound := by
  intro e n bound
  by_cases same : x.essence = e
  · rw [← same, bound_bind_self, Option.some.injEq] at bound
    subst bound
    exact ⟨same, Nat.succ_pos _, Nat.le_refl _⟩
  · rw [bound_bind_of_ne same] at bound
    obtain ⟨symbol, positive, taken⟩ := h e n bound
    exact ⟨symbol, positive, Nat.le_succ_of_le taken⟩

theorem bindAll (h : c.Sound) (xs : List Symbol) : (c.bindAll xs).Sound := by
  induction xs generalizing c with
  | nil => exact h
  | cons x xs ih => exact ih (h.bind x)

theorem leave (h : c.Sound) (later : c.last ≤ inner.last) : (c.leave inner).Sound := by
  intro e n bound
  obtain ⟨symbol, positive, taken⟩ := h e n bound
  exact ⟨symbol, positive, Nat.le_trans taken later⟩

theorem uid_nameOf_le (h : c.Sound) (x : Symbol) : (c.nameOf x).uid ≤ c.last := by
  cases bound : c.bound x.essence with
  | none =>
      rw [nameOf, bound]
      exact Nat.zero_le _
  | some n =>
      rw [nameOf_of_bound bound]
      exact (h _ _ bound).2.2

end Sound

theorem Rebinds.mem_of_lt {c c' : Context} {es : List Essence} {e : Essence} {n : Name}
    (h : c.Rebinds c' es) (sound : c.Sound) (bound : c'.bound e = some n)
    (newer : c.last < n.uid) : e ∈ es := by
  by_contra kept
  rw [h.keeps e kept] at bound
  exact Nat.not_le.2 newer (sound e n bound).2.2

end Context

namespace Phrase

def names {ν : Type} : {s : Shape} → Phrase ν s → List ν
  | .one _, _ => []
  | .many _, _ => []
  | .group, .noBinding => []
  | .group, .binding x _ _ _ rest => x :: rest.names
  | .declarations, _ => []

def resolve : {s : Shape} → Phrase Symbol s → Context → Phrase Name s × Context
  | _, .typed e type location, c =>
      let e := e.resolve c
      (.typed e.1 type location, e.2)
  | _, .located e location, c =>
      let e := e.resolve c
      (.located e.1 location, e.2)
  | _, .literal f value, c => (.literal f value, c)
  | _, .reference x, c => (.reference (c.nameOf x), c)
  | _, .apply f a, c =>
      let f := f.resolve c
      let a := a.resolve f.2
      (.apply f.1 a.1, a.2)
  | _, .lambda x body, c =>
      let body := body.resolve (c.bind x)
      (.lambda (c.next x) body.1, c.leave body.2)
  | _, .letIn g body, c =>
      let g := g.resolve (c.bindAll g.names)
      let body := body.resolve g.2
      (.letIn g.1 body.1, c.leave body.2)
  | _, .caseOf e alternatives, c =>
      let alternatives := alternatives.resolve c
      let e := e.resolve alternatives.2
      (.caseOf e.1 alternatives.1, e.2)
  | _, .doBlock statements e, c =>
      let statements := statements.resolve c
      let e := e.resolve statements.2
      (.doBlock statements.1 e.1, e.2)
  | _, .locatedPattern p location, c =>
      let p := p.resolve c
      (.locatedPattern p.1 location, p.2)
  | _, .numberPattern value, c => (.numberPattern value, c)
  | _, .wildCardPattern, c => (.wildCardPattern, c)
  | _, .identifierPattern x, c => (.identifierPattern (c.next x), c.bind x)
  | _, .constructorPattern x patterns, c =>
      let patterns := patterns.resolve c
      (.constructorPattern ⟨x, 0⟩ patterns.1, patterns.2)
  | _, .alternative p e, c =>
      let p := p.resolve c
      let e := e.resolve p.2
      (.alternative p.1 e.1, c.leave e.2)
  | _, .doExpr e, c =>
      let e := e.resolve c
      (.doExpr e.1, e.2)
  | _, .doLet g, c =>
      let g := g.resolve (c.bindAll g.names)
      (.doLet g.1, g.2)
  | _, .doBind p e, c =>
      let p := p.resolve c
      let e := e.resolve p.2
      (.doBind p.1 e.1, e.2)
  | _, .constructor x type tag arity, c => (.constructor ⟨x, 0⟩ type tag arity, c)
  | _, .definition constructors type parameters, c =>
      let constructors := constructors.resolve c
      (.definition constructors.1 type parameters, constructors.2)
  | _, .instanceOf bindings constraints type classname, c =>
      let bindings := bindings.resolve c
      (.instanceOf bindings.1 constraints type classname, bindings.2)
  | _, .nil category, c => (.nil category, c)
  | _, .cons t ts, c =>
      let t := t.resolve c
      let ts := ts.resolve t.2
      (.cons t.1 ts.1, ts.2)
  | _, .noBinding, c => (.noBinding, c)
  | _, .binding x right type arity rest, c =>
      let right := right.resolve c
      let rest := rest.resolve right.2
      (.binding (c.nameOf x) right.1 type arity rest.1, rest.2)
  | _, .noDeclaration, c => (.noDeclaration, c)
  | _, .declaration x right type arity rest, c =>
      let right := right.resolve c
      let rest := rest.resolve right.2
      (.declaration ⟨x, 0⟩ right.1 type arity rest.1, rest.2)

end Phrase

namespace Module

def resolve (m : Module Symbol) (c : Context) : Module Name × Context :=
  let definitions := m.definitions.resolve c
  let instances := m.instances.resolve definitions.2
  let bindings := m.bindings.resolve instances.2
  (⟨bindings.2.next m.name, m.classes, definitions.1, m.declared, bindings.1, instances.1⟩,
    bindings.2.bind m.name)

end Module

end ScopeResolution
