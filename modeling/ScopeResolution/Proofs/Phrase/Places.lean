import ScopeResolution.Names.Collection
import ScopeResolution.Proofs.Resolution

namespace ScopeResolution

/-- An identifier, the value of a literal, or data that are carried along. Data are exposed where a
collection of names looks for nodes in them, and sealed where it does not. -/
inductive Place (ν : Type) where
  | identifier (role : Role) (x : ν)
  | literal (l : Literal)
  | exposed (v : Datum)
  | sealed (v : Datum)

namespace Place

variable {ν μ : Type}

def map (f : ν → μ) (g : Datum → Datum) : Place ν → Place μ
  | .identifier role x => .identifier role (f x)
  | .literal l => .literal l
  | .exposed v => .exposed (g v)
  | .sealed v => .sealed (g v)

@[simp]
def identifier? : Place ν → Option (Role × ν)
  | .identifier role x => some (role, x)
  | _ => none

@[simp]
def exposed? : Place ν → Option Datum
  | .exposed v => some v
  | _ => none

@[simp]
def carried? : Place ν → Option Datum
  | .identifier _ _ => none
  | .literal l => some l.datum
  | .exposed v => some v
  | .sealed v => some v

theorem exposed_map (f : ν → μ) (ps : List (Place ν)) :
    (ps.map (map f id)).filterMap exposed? = ps.filterMap exposed? := by
  rw [List.filterMap_map]
  refine List.filterMap_congr fun p _ => ?_
  cases p <;> rfl

theorem carried_map (f : ν → μ) (ps : List (Place ν)) :
    (ps.map (map f id)).filterMap carried? = ps.filterMap carried? := by
  rw [List.filterMap_map]
  refine List.filterMap_congr fun p _ => ?_
  cases p <;> rfl

theorem identifier_map (g : Datum → Datum) (ps : List (Place ν)) :
    (ps.map (map id g)).filterMap identifier? = ps.filterMap identifier? := by
  rw [List.filterMap_map]
  refine List.filterMap_congr fun p _ => ?_
  cases p <;> rfl

end Place

theorem Literal.nodesIn_datum (l : Literal) : l.datum.nodesIn = [] := by
  have plain := l.plain
  have itemless := l.itemless
  cases h : l.datum with
  | node k fs =>
      rw [h] at plain
      cases plain
  | tuple xs =>
      rw [h] at itemless
      cases itemless
  | name s u =>
      rw [h] at itemless
      cases itemless
  | _ => rfl

namespace Phrase

variable {ν μ : Type}

def map (f : ν → μ) (g : Datum → Datum) : {s : Shape} → Phrase ν s → Phrase μ s
  | _, .typed e type location => .typed (e.map f g) (g type) (g location)
  | _, .located e location => .located (e.map f g) (g location)
  | _, .literal form value => .literal form value
  | _, .reference x => .reference (f x)
  | _, .apply e a => .apply (e.map f g) (a.map f g)
  | _, .lambda x body => .lambda (f x) (body.map f g)
  | _, .letIn bs body => .letIn (bs.map f g) (body.map f g)
  | _, .caseOf e alternatives => .caseOf (e.map f g) (alternatives.map f g)
  | _, .doBlock statements e => .doBlock (statements.map f g) (e.map f g)
  | _, .locatedPattern p location => .locatedPattern (p.map f g) (g location)
  | _, .numberPattern value => .numberPattern value
  | _, .wildCardPattern => .wildCardPattern
  | _, .identifierPattern x => .identifierPattern (f x)
  | _, .constructorPattern x patterns => .constructorPattern (f x) (patterns.map f g)
  | _, .alternative p e => .alternative (p.map f g) (e.map f g)
  | _, .doExpr e => .doExpr (e.map f g)
  | _, .doLet bs => .doLet (bs.map f g)
  | _, .doBind p e => .doBind (p.map f g) (e.map f g)
  | _, .constructor x type tag arity => .constructor (f x) (g type) (g tag) (g arity)
  | _, .definition constructors type parameters =>
      .definition (constructors.map f g) (g type) (g parameters)
  | _, .instanceOf bindings constraints type classname =>
      .instanceOf (bindings.map f g) (g constraints) (g type) (g classname)
  | _, .nil category => .nil category
  | _, .cons t ts => .cons (t.map f g) (ts.map f g)
  | _, .noBinding => .noBinding
  | _, .binding x right type arity rest =>
      .binding (f x) (right.map f g) (g type) (g arity) (rest.map f g)
  | _, .noDeclaration => .noDeclaration
  | _, .declaration x right type arity rest =>
      .declaration (f x) (right.map f g) (g type) (g arity) (rest.map f g)

def places : {s : Shape} → Phrase ν s → List (Place ν)
  | _, .typed e type location => e.places ++ [.sealed type, .sealed location]
  | _, .located e location => e.places ++ [.exposed location]
  | _, .literal _ value => [.literal value]
  | _, .reference x => [.identifier .load x]
  | _, .apply e a => e.places ++ a.places
  | _, .lambda x body => .identifier .bind x :: body.places
  | _, .letIn bs body => bs.places ++ body.places
  | _, .caseOf e alternatives => e.places ++ alternatives.places
  | _, .doBlock statements e => statements.places ++ e.places
  | _, .locatedPattern p location => p.places ++ [.exposed location]
  | _, .numberPattern value => [.literal value]
  | _, .wildCardPattern => []
  | _, .identifierPattern x => [.identifier .bind x]
  | _, .constructorPattern x patterns => .identifier .constructor x :: patterns.places
  | _, .alternative p e => p.places ++ e.places
  | _, .doExpr e => e.places
  | _, .doLet bs => bs.places
  | _, .doBind p e => p.places ++ e.places
  | _, .constructor x type tag arity =>
      [.identifier .constructor x, .sealed type, .sealed tag, .sealed arity]
  | _, .definition constructors type parameters =>
      constructors.places ++ [.exposed type, .exposed parameters]
  | _, .instanceOf bindings constraints type classname =>
      bindings.places ++ [.exposed constraints, .exposed type, .exposed classname]
  | _, .nil _ => []
  | _, .cons t ts => t.places ++ ts.places
  | _, .noBinding => []
  | _, .binding x right type arity rest =>
      .identifier .bind x :: (right.places ++ .exposed type :: .exposed arity :: rest.places)
  | _, .noDeclaration => []
  | _, .declaration x right type arity rest =>
      .identifier .bind x :: (right.places ++ .exposed type :: .exposed arity :: rest.places)

def sites {s : Shape} (t : Phrase ν s) : List (Role × ν) :=
  t.places.filterMap Place.identifier?

def exposed {s : Shape} (t : Phrase ν s) : List Datum :=
  t.places.filterMap Place.exposed?

def carried {s : Shape} (t : Phrase ν s) : List Datum :=
  t.places.filterMap Place.carried?

def bare {s : Shape} (t : Phrase ν s) : Phrase ν s :=
  t.map id fun _ => .null

@[simp]
theorem map_id {s : Shape} (t : Phrase ν s) : t.map id id = t := by
  induction t <;> simp_all [map]

theorem places_map (f : ν → μ) (g : Datum → Datum) {s : Shape} (t : Phrase ν s) :
    (t.map f g).places = t.places.map (Place.map f g) := by
  induction t <;> simp_all [map, places, Place.map]

theorem sites_bare {s : Shape} (t : Phrase ν s) : t.bare.sites = t.sites := by
  rw [sites, bare, places_map, Place.identifier_map, sites]

theorem names_map (f : ν → μ) (g : Datum → Datum) :
    (bs : Phrase ν .group) → (bs.map f g).names = bs.names.map f
  | .noBinding => by simp [map, names]
  | .binding x right type arity rest => by simp [map, names, names_map f g rest]

theorem resolve_map (g : Datum → Datum) {s : Shape} (t : Phrase Symbol s) (c : Context) :
    (t.map id g).resolve c = ((t.resolve c).1.map id g, (t.resolve c).2) := by
  induction t generalizing c <;> simp_all [map, resolve, names_map]

theorem unnamed_resolve {s : Shape} (t : Phrase Symbol s) (c : Context) :
    (t.resolve c).1.map (fun _ => ()) id = t.map (fun _ => ()) id := by
  induction t generalizing c <;> simp_all [map, resolve]

theorem exposed_resolve {s : Shape} (t : Phrase Symbol s) (c : Context) :
    (t.resolve c).1.exposed = t.exposed := by
  have same := congrArg exposed (t.unnamed_resolve c)
  rwa [exposed, places_map, exposed, places_map, Place.exposed_map, Place.exposed_map] at same

theorem carried_resolve {s : Shape} (t : Phrase Symbol s) (c : Context) :
    (t.resolve c).1.carried = t.carried := by
  have same := congrArg carried (t.unnamed_resolve c)
  rwa [carried, places_map, carried, places_map, Place.carried_map, Place.carried_map] at same

theorem bare_resolve {s : Shape} (t : Phrase Symbol s) (c : Context) :
    (t.resolve c).1.bare = (t.bare.resolve c).1 := by
  rw [bare, bare, resolve_map]

end Phrase

namespace Module

variable {ν μ : Type}

def map (f : ν → μ) (g : Datum → Datum) (m : Module ν) : Module μ where
  name := f m.name
  classes := g m.classes
  definitions := m.definitions.map f g
  declared := g m.declared
  bindings := m.bindings.map f g
  instances := m.instances.map f g

def places (m : Module ν) : List (Place ν) :=
  .identifier .bind m.name :: .exposed m.classes :: (m.definitions.places ++
    .exposed m.declared :: (m.bindings.places ++ m.instances.places))

def sites (m : Module ν) : List (Role × ν) :=
  m.places.filterMap Place.identifier?

def exposed (m : Module ν) : List Datum :=
  m.places.filterMap Place.exposed?

def carried (m : Module ν) : List Datum :=
  m.places.filterMap Place.carried?

def bare (m : Module ν) : Module ν :=
  m.map id fun _ => .null

@[simp]
theorem map_id (m : Module ν) : m.map id id = m := by
  simp [map]

theorem places_map (f : ν → μ) (g : Datum → Datum) (m : Module ν) :
    (m.map f g).places = m.places.map (Place.map f g) := by
  simp [map, places, Phrase.places_map, Place.map]

theorem sites_bare (m : Module ν) : m.bare.sites = m.sites := by
  rw [sites, bare, places_map, Place.identifier_map, sites]

theorem resolve_map (g : Datum → Datum) (m : Module Symbol) (c : Context) :
    (m.map id g).resolve c = ((m.resolve c).1.map id g, (m.resolve c).2) := by
  simp [map, resolve, Phrase.resolve_map]

theorem unnamed_resolve (m : Module Symbol) (c : Context) :
    (m.resolve c).1.map (fun _ => ()) id = m.map (fun _ => ()) id := by
  simp [map, resolve, Phrase.unnamed_resolve]

theorem exposed_resolve (m : Module Symbol) (c : Context) :
    (m.resolve c).1.exposed = m.exposed := by
  have same := congrArg exposed (m.unnamed_resolve c)
  rwa [exposed, places_map, exposed, places_map, Place.exposed_map, Place.exposed_map] at same

theorem carried_resolve (m : Module Symbol) (c : Context) :
    (m.resolve c).1.carried = m.carried := by
  have same := congrArg carried (m.unnamed_resolve c)
  rwa [carried, places_map, carried, places_map, Place.carried_map, Place.carried_map] at same

theorem bare_resolve (m : Module Symbol) (c : Context) :
    (m.resolve c).1.bare = (m.bare.resolve c).1 := by
  rw [bare, bare, resolve_map]

end Module

end ScopeResolution
