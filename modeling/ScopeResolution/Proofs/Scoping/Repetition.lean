import ScopeResolution.Proofs.Names.Members
import ScopeResolution.Proofs.Pipeline
import ScopeResolution.Proofs.Restoration
import ScopeResolution.Proofs.Scoping.Alpha
import ScopeResolution.Proofs.Scoping.Numbering

namespace ScopeResolution

namespace Name

def rewrapped (n : Name) : Name :=
  ⟨n.entry, n.uid⟩

theorem entry_essence_iff (n m : Name) : n.entry.essence = m.entry.essence ↔
    n.symbol.essence = m.symbol.essence ∧ n.uid = m.uid :=
  n.essence_eq_iff m

end Name

namespace Context

structure Echoes (c d : Context) : Prop where
  last : d.last = c.last
  bound : ∀ e n, c.bound e = some n → d.bound n.entry.essence = some n.rewrapped
  global : ∀ x : Symbol, d.bound (Name.entry ⟨x, 0⟩).essence = none

theorem bound_bindAll_map {f : Symbol → Symbol} {c d : Context} (last : d.last = c.last)
    {xs : List Symbol}
    (h : ∀ x ∈ xs, ∀ y ∈ xs, (f x).essence = (f y).essence ↔ x.essence = y.essence) :
    ∀ x ∈ xs, (d.bindAll (xs.map f)).bound (f x).essence =
      ((c.bindAll xs).bound x.essence).map fun n => ⟨f n.symbol, n.uid⟩ := by
  induction xs generalizing c d with
  | nil => exact fun _ hx => nomatch hx
  | cons y ys ih =>
      intro x hx
      have next : (d.bind (f y)).last = (c.bind y).last := congrArg (· + 1) last
      have rest := ih next fun x hx z hz =>
        h x (List.mem_cons_of_mem y hx) z (List.mem_cons_of_mem y hz)
      by_cases later : x.essence ∈ ys.map Symbol.essence
      · obtain ⟨z, hz, same⟩ := List.mem_map.1 later
        have same' := (h z (List.mem_cons_of_mem y hz) x hx).2 same
        rw [← same, ← same']
        exact rest z hz
      · obtain rfl : x = y := (List.mem_cons.1 hx).resolve_right fun mem =>
          later (List.mem_map_of_mem mem)
        have later' : (f x).essence ∉ (ys.map f).map Symbol.essence := by
          rw [List.map_map]
          intro mem
          obtain ⟨z, hz, same⟩ := List.mem_map.1 mem
          have same' := (h z (List.mem_cons_of_mem x hz) x hx).1 same
          exact later (List.mem_map.2 ⟨z, hz, same'⟩)
        have found : (c.bindAll (x :: ys)).bound x.essence = some (c.next x) :=
          (((c.bind x).rebinds_bindAll ys).keeps _ later).trans (c.bound_bind_self x)
        have found' : (d.bindAll ((x :: ys).map f)).bound (f x).essence = some (d.next (f x)) :=
          (((d.bind (f x)).rebinds_bindAll _).keeps _ later').trans (d.bound_bind_self (f x))
        rw [found, found', Context.next, last]
        rfl

namespace Echoes

variable {c d : Context}

theorem initial : Context.initial.Echoes Context.initial :=
  ⟨rfl, (fun _ _ h => nomatch h), fun _ => rfl⟩

theorem nameOf (h : c.Echoes d) (x : Symbol) :
    d.nameOf (c.nameOf x).entry = (c.nameOf x).rewrapped := by
  cases bound : c.bound x.essence with
  | none =>
      have meant : c.nameOf x = ⟨x, 0⟩ := by rw [Context.nameOf, bound, Option.getD_none]
      rw [meant, Context.nameOf, h.global, Option.getD_none]
      rfl
  | some n =>
      rw [nameOf_of_bound bound]
      exact nameOf_of_bound (h.bound _ n bound)

theorem next (h : c.Echoes d) (x : Symbol) : d.next (c.next x).entry = (c.next x).rewrapped := by
  rw [Context.next, h.last]
  rfl

theorem entry_nameOf_iff (sound : c.Sound) {xs : List Symbol} (binds : c.Binds xs) :
    ∀ x ∈ xs, ∀ y ∈ xs, (c.nameOf x).entry.essence = (c.nameOf y).entry.essence ↔
      x.essence = y.essence := by
  intro x hx y hy
  rw [Name.entry_essence_iff, sound.essence_nameOf, sound.essence_nameOf]
  refine ⟨And.left, fun same => ⟨same, ?_⟩⟩
  obtain ⟨n, bound⟩ := Option.isSome_iff_exists.1 (binds x hx)
  rw [nameOf_of_bound bound, nameOf_of_bound (same ▸ bound)]

theorem bindAll (h : c.Echoes d) (sound : c.Sound) (xs : List Symbol) :
    (c.bindAll xs).Echoes (d.bindAll (xs.map fun x => ((c.bindAll xs).nameOf x).entry)) := by
  have sound' := sound.bindAll xs
  have rebinds := c.rebinds_bindAll xs
  have older (n : Name) (old : n.uid ≤ c.last) :
      (d.bindAll (xs.map fun x => ((c.bindAll xs).nameOf x).entry)).bound n.entry.essence =
        d.bound n.entry.essence := by
    refine (d.rebinds_bindAll _).keeps _ fun mem => ?_
    rw [List.map_map] at mem
    obtain ⟨x, hx, same⟩ := List.mem_map.1 mem
    obtain ⟨m, bound, newer⟩ := rebinds.renews x.essence (List.mem_map_of_mem hx)
    have number := ((Name.entry_essence_iff _ n).1 same).2
    rw [nameOf_of_bound bound] at number
    omega
  refine ⟨?_, fun e n bound => ?_, fun x => ?_⟩
  · rw [last_bindAll, last_bindAll, List.length_map, h.last]
  · by_cases mem : e ∈ xs.map Symbol.essence
    · obtain ⟨x, hx, rfl⟩ := List.mem_map.1 mem
      have mapped := bound_bindAll_map h.last (entry_nameOf_iff sound' (c.binds_bindAll xs)) x hx
      have own : (c.bindAll xs).nameOf n.symbol = n :=
        nameOf_of_bound ((sound' _ n bound).1 ▸ bound)
      rw [bound, Option.map_some, nameOf_of_bound bound, own] at mapped
      exact mapped
    · rw [rebinds.keeps e mem] at bound
      rw [older n (sound e n bound).2.2]
      exact h.bound e n bound
  · rw [older ⟨x, 0⟩ (Nat.zero_le _)]
    exact h.global x

theorem bind (h : c.Echoes d) (sound : c.Sound) (x : Symbol) :
    (c.bind x).Echoes (d.bind (c.next x).entry) := by
  have single := h.bindAll sound [x]
  have meant : (c.bindAll [x]).nameOf x = c.next x := nameOf_of_bound (c.bound_bind_self x)
  rwa [List.map_singleton, meant] at single

theorem leave {c' d' : Context} (h : c.Echoes d) (inner : c'.Echoes d') :
    (c.leave c').Echoes (d.leave d') :=
  ⟨inner.last, h.bound, h.global⟩

end Echoes

end Context

namespace Scoping

variable {p : Portion}

/-- No right-hand side binds a symbol of its own group in the scope of that group. -/
def Lasting : {p : Portion} → Scoping Symbol p → Prop
  | _, .none => True
  | _, .refer _ => True
  | _, .bind _ => True
  | _, .seq a b => a.Lasting ∧ b.Lasting
  | _, .scope a => a.Lasting
  | _, .group g => (∀ x ∈ g.names, x.essence ∉ g.leaks) ∧ g.Lasting
  | _, .nil => True
  | _, .member _ right rest => right.Lasting ∧ rest.Lasting

end Scoping

namespace Phrase

def again {s : Shape} (t : Phrase Name s) : Phrase Symbol s :=
  t.map Name.entry id

theorem datum_again {s : Shape} (t : Phrase Name s) : t.again.datum = t.datum := by
  induction t <;> simp_all [again, map, datum, Identifier.datum, Name.entry]

theorem names_again (g : Phrase Symbol .group) (kept : ∀ x ∈ g.names, x.essence ∉ g.scoping.leaks)
    (c : Context) :
    (g.resolve c).1.again.names = g.names.map fun x => (c.nameOf x).entry := by
  rw [again, names_map, ← names_scoping, (g.scoping_resolve c).1,
    Scoping.names_resolve (Scoping.undisturbed_of_kept (by rwa [names_scoping])), names_scoping,
    List.map_map]
  rfl

theorem again_resolve {s : Shape} (t : Phrase Symbol s) {c d : Context} (h : c.Echoes d)
    (sound : c.Sound) (lasting : t.scoping.Lasting) :
    ∃ d', (t.resolve c).1.again.resolve d = ((t.resolve c).1.map Name.rewrapped id, d') ∧
      (t.resolve c).2.Echoes d' := by
  induction t generalizing c d with
    simp only [scoping, Scoping.Lasting, true_and, names_scoping] at lasting
  | typed e type location ih =>
      obtain ⟨d', same, echoes⟩ := ih h sound lasting
      exact ⟨d', by simp_all [resolve, again, map], echoes⟩
  | located e location ih =>
      obtain ⟨d', same, echoes⟩ := ih h sound lasting
      exact ⟨d', by simp_all [resolve, again, map], echoes⟩
  | literal form value => exact ⟨d, rfl, h⟩
  | reference x => exact ⟨d, by simp [resolve, again, map, h.nameOf], h⟩
  | apply f a ihf iha =>
      obtain ⟨d₁, first, echoes⟩ := ihf h sound lasting.1
      obtain ⟨d₂, second, echoes⟩ := iha echoes (f.sound_resolve sound) lasting.2
      exact ⟨d₂, by simp_all [resolve, again, map], echoes⟩
  | lambda x body ih =>
      obtain ⟨d', same, echoes⟩ := ih (h.bind sound x) (sound.bind x) lasting
      exact ⟨d.leave d', by simp_all [resolve, again, map, h.next], h.leave echoes⟩
  | letIn g body ihg ih =>
      have sound' := sound.bindAll g.names
      have names := g.names_again lasting.1.1 (c.bindAll g.names)
      obtain ⟨d₁, first, echoes⟩ := ihg (h.bindAll sound g.names) sound' lasting.1.2
      obtain ⟨d₂, second, echoes⟩ := ih echoes (g.sound_resolve sound') lasting.2
      exact ⟨d.leave d₂, by simp_all [resolve, again, map], h.leave echoes⟩
  | caseOf e alternatives ihe iha =>
      obtain ⟨d₁, first, echoes⟩ := iha h sound lasting.1
      obtain ⟨d₂, second, echoes⟩ := ihe echoes (alternatives.sound_resolve sound) lasting.2
      exact ⟨d₂, by simp_all [resolve, again, map], echoes⟩
  | doBlock statements e ihs ihe =>
      obtain ⟨d₁, first, echoes⟩ := ihs h sound lasting.1
      obtain ⟨d₂, second, echoes⟩ := ihe echoes (statements.sound_resolve sound) lasting.2
      exact ⟨d₂, by simp_all [resolve, again, map], echoes⟩
  | locatedPattern p location ih =>
      obtain ⟨d', same, echoes⟩ := ih h sound lasting
      exact ⟨d', by simp_all [resolve, again, map], echoes⟩
  | numberPattern value => exact ⟨d, rfl, h⟩
  | wildCardPattern => exact ⟨d, rfl, h⟩
  | identifierPattern x =>
      exact ⟨_, by simp [resolve, again, map, h.next], h.bind sound x⟩
  | constructorPattern x patterns ih =>
      obtain ⟨d', same, echoes⟩ := ih h sound lasting
      exact ⟨d', by simp_all [resolve, again, map, Name.rewrapped], echoes⟩
  | alternative p e ihp ihe =>
      obtain ⟨d₁, first, echoes⟩ := ihp h sound lasting.1
      obtain ⟨d₂, second, echoes⟩ := ihe echoes (p.sound_resolve sound) lasting.2
      exact ⟨d.leave d₂, by simp_all [resolve, again, map], h.leave echoes⟩
  | doExpr e ih =>
      obtain ⟨d', same, echoes⟩ := ih h sound lasting
      exact ⟨d', by simp_all [resolve, again, map], echoes⟩
  | doLet g ih =>
      have names := g.names_again lasting.1 (c.bindAll g.names)
      obtain ⟨d', same, echoes⟩ := ih (h.bindAll sound g.names) (sound.bindAll g.names) lasting.2
      exact ⟨d', by simp_all [resolve, again, map], echoes⟩
  | doBind p e ihp ihe =>
      obtain ⟨d₁, first, echoes⟩ := ihp h sound lasting.1
      obtain ⟨d₂, second, echoes⟩ := ihe echoes (p.sound_resolve sound) lasting.2
      exact ⟨d₂, by simp_all [resolve, again, map], echoes⟩
  | constructor x => exact ⟨d, rfl, h⟩
  | definition constructors type parameters ih =>
      obtain ⟨d', same, echoes⟩ := ih h sound lasting
      exact ⟨d', by simp_all [resolve, again, map], echoes⟩
  | instanceOf bindings constraints type classname ih =>
      obtain ⟨d', same, echoes⟩ := ih h sound lasting
      exact ⟨d', by simp_all [resolve, again, map], echoes⟩
  | nil => exact ⟨d, rfl, h⟩
  | cons t ts iht ihts =>
      obtain ⟨d₁, first, echoes⟩ := iht h sound lasting.1
      obtain ⟨d₂, second, echoes⟩ := ihts echoes (t.sound_resolve sound) lasting.2
      exact ⟨d₂, by simp_all [resolve, again, map], echoes⟩
  | noBinding => exact ⟨d, rfl, h⟩
  | binding x right type arity rest ihr ihrest =>
      obtain ⟨d₁, first, echoes⟩ := ihr h sound lasting.1
      obtain ⟨d₂, second, echoes⟩ := ihrest echoes (right.sound_resolve sound) lasting.2
      exact ⟨d₂, by simp_all [resolve, again, map, h.nameOf], echoes⟩
  | noDeclaration => exact ⟨d, rfl, h⟩
  | declaration x right type arity rest ihr ihrest =>
      obtain ⟨d₁, first, echoes⟩ := ihr h sound lasting.1
      obtain ⟨d₂, second, echoes⟩ := ihrest echoes (right.sound_resolve sound) lasting.2
      exact ⟨d₂, by simp_all [resolve, again, map, Name.rewrapped], echoes⟩

end Phrase

namespace Module

def again (m : Module Name) : Module Symbol :=
  m.map Name.entry id

theorem datum_again (m : Module Name) : m.again.datum = m.datum := by
  have definitions := m.definitions.datum_again
  have bindings := m.bindings.datum_again
  have instances := m.instances.datum_again
  rw [Phrase.again] at definitions bindings instances
  simp only [again, map, datum, definitions, bindings, instances]
  rfl

theorem again_resolve (m : Module Symbol) (lasting : m.scoping.Lasting) :
    ∃ d', (m.resolve .initial).1.again.resolve .initial =
        ((m.resolve .initial).1.map Name.rewrapped id, d') ∧
      d'.last = (m.resolve .initial).2.last := by
  have sound := m.definitions.sound_resolve Context.sound_initial
  have sound' := m.instances.sound_resolve sound
  obtain ⟨d₁, first, echoes⟩ := m.definitions.again_resolve .initial Context.sound_initial lasting.1
  obtain ⟨d₂, second, echoes⟩ := m.instances.again_resolve echoes sound lasting.2.1
  obtain ⟨d₃, third, echoes⟩ := m.bindings.again_resolve echoes sound' lasting.2.2
  rw [Phrase.again] at first second third
  refine ⟨_, ?_, (echoes.bind (m.bindings.sound_resolve sound') m.name).last⟩
  simp [resolve, again, map, first, second, third, echoes.next]

end Module

structure Datum.RenamedTwice (tree : Datum) (extent : Renaming.Extent) (once twice : Datum) :
    Prop where
  first : (tree.renamed extent).1 = .ok once
  second : (once.renamed extent).1 = .ok twice
  counter : (once.renamed extent).2.counter = (tree.renamed extent).2.counter

structure Pipeline.RenamedTwice (tree once twice : Datum) (w w₁ w₂ : Workspace) : Prop where
  first : runPasses [.rename] tree w = (.ok once, w₁)
  second : runPasses [.rename, .rename] tree w = (.ok twice, w₂)
  noted : ∃ uid, w₁.lastUid = .ok (some uid) ∧ w₂.lastUid = .ok (some uid)

namespace Renaming

open Datum

theorem renames_again (extent : Extent) (t : Phrase Symbol (.one .expression))
    (lasting : t.scoping.Lasting) : ∃ c, Renames extent (t.resolve .initial).1.datum .initial
      ((t.resolve .initial).1.map Name.rewrapped id).datum c ∧
        c.last = (t.resolve .initial).2.last := by
  obtain ⟨c, same, echoes⟩ := t.again_resolve .initial Context.sound_initial lasting
  have renames := (t.resolve .initial).1.again.refined extent trivial .initial
  rw [Phrase.datum_again, same] at renames
  exact ⟨c, renames, echoes.last⟩

theorem renames_module_again (m : Module Symbol) (lasting : m.scoping.Lasting) :
    ∃ c, Renames .module (m.resolve .initial).1.datum .initial
      ((m.resolve .initial).1.map Name.rewrapped id).datum c ∧
        c.last = (m.resolve .initial).2.last := by
  obtain ⟨c, same, last⟩ := m.again_resolve lasting
  have renames := (m.resolve .initial).1.again.renames .initial
  rw [Module.datum_again, same] at renames
  exact ⟨c, renames, last⟩

theorem renamedTwice_of_renames {extent : Extent} {tree once twice : Datum} {c c' : Context}
    (first : Renames extent tree .initial once c) (second : Renames extent once .initial twice c')
    (same : c'.last = c.last) : tree.RenamedTwice extent once twice := by
  obtain ⟨r, done, _, shown⟩ := first _ Resolver.shows_initial
  obtain ⟨r', done', _, shown'⟩ := second _ Resolver.shows_initial
  rw [← Resolver.rename_eq_recurse] at done done'
  refine ⟨?_, ?_, ?_⟩
  · rw [renamed, done]
  · rw [renamed, done']
  · rw [renamed, renamed, done, done', shown.counter, shown'.counter, same]

theorem passesTwice_of_renames {extent : Extent} {tree once twice : Datum} {c c' : Context}
    (kind : Pass.extent? tree = some extent) (kind' : Pass.extent? once = some extent)
    (first : Renames extent tree .initial once c) (second : Renames extent once .initial twice c')
    (same : c'.last = c.last) (w : Workspace) :
    ∃ w₁ w₂, Pipeline.RenamedTwice tree once twice w w₁ w₂ := by
  obtain ⟨w₁, done, noted⟩ := Pipeline.runPasses_rename kind first [] w
  obtain ⟨w', begun, _⟩ := Pipeline.runPasses_rename kind first [.rename] w
  obtain ⟨w₂, done', noted'⟩ := Pipeline.runPasses_rename kind' second [] w'
  exact ⟨w₁, w₂, done, begun.trans done', _, noted, same ▸ noted'⟩

/-- Where no right-hand side leaks a symbol of its own group, renaming what was renamed makes of
each name a name of itself with the same number, and changes nothing else. Two such names are equal
just if the names in them are. -/
theorem renamed_again (t : Phrase Symbol (.one .expression)) (m : Module Symbol)
    (ht : t.scoping.Lasting) (hm : m.scoping.Lasting) :
    t.datum.RenamedTwice .expression (t.resolve .initial).1.datum
        ((t.resolve .initial).1.map Name.rewrapped id).datum ∧
      m.datum.RenamedTwice .module (m.resolve .initial).1.datum
        ((m.resolve .initial).1.map Name.rewrapped id).datum ∧
      (∀ n n' : Name, n.rewrapped.datum.Equal n'.rewrapped.datum ↔ n.datum.Equal n'.datum) ∧
      ∀ w, (∀ type location, ∃ w₁ w₂, Pipeline.RenamedTwice (t.typed type location).datum
          ((t.typed type location).resolve .initial).1.datum
          (((t.typed type location).resolve .initial).1.map Name.rewrapped id).datum w w₁ w₂) ∧
        ∃ w₁ w₂, Pipeline.RenamedTwice m.datum (m.resolve .initial).1.datum
          ((m.resolve .initial).1.map Name.rewrapped id).datum w w₁ w₂ := by
  obtain ⟨c, again, last⟩ := renames_again .expression t ht
  obtain ⟨c', again', last'⟩ := renames_module_again m hm
  have first := t.refined .expression trivial .initial
  have first' := m.renames .initial
  refine ⟨renamedTwice_of_renames first again last, renamedTwice_of_renames first' again' last',
    fun n n' => ?_, fun w => ⟨fun type location => ?_, ?_⟩⟩
  · rw [Name.equal_datum_iff n.rewrapped]
    exact and_iff_left_of_imp fun equal => ((Name.equal_datum_iff n n').1 equal).2
  · obtain ⟨d, typed, same⟩ := renames_again .expression (t.typed type location) ht
    have once := (t.typed type location).refined .expression trivial .initial
    exact passesTwice_of_renames rfl rfl once typed same w
  · exact passesTwice_of_renames rfl rfl first' again' last' w

def boundThrice : Phrase Symbol (.one .expression) :=
  let x := Symbol.ofText "x"
  let y := Symbol.ofText "y"
  .letIn (.binding x (.reference x) .null (.int 0) (.binding x (.reference y) .null (.int 0)
    .noBinding)) (.apply (.doBlock (.cons (.doBind (.identifierPattern x) (.reference x))
      (.nil .statement)) (.reference x)) (.reference x))

def boundThriceModule : Module Symbol where
  name := .ofText "m"
  classes := .null
  definitions := .nil .definition
  declared := .null
  bindings := .declaration (.ofText "x") boundThrice .null (.int 0) .noDeclaration
  instances := .nil .instanceOf

theorem boundThrice_again :
    boundThrice.datum.RenamedTwice .expression (boundThrice.resolve .initial).1.datum
      ((boundThrice.resolve .initial).1.map Name.rewrapped id).datum ∧
    (boundThrice.resolve .initial).1.binders.map Name.uid = [3, 3, 4] ∧
    ((boundThrice.resolve .initial).1.map Name.rewrapped id).references.map Name.uid =
      [3, 0, 4, 4, 4] ∧
    boundThriceModule.datum.RenamedTwice .module (boundThriceModule.resolve .initial).1.datum
      ((boundThriceModule.resolve .initial).1.map Name.rewrapped id).datum := by
  have lasting : boundThrice.scoping.Lasting := by
    simp [boundThrice, Phrase.scoping, Scoping.Lasting, Scoping.leaks]
  have lasting' : boundThriceModule.scoping.Lasting := ⟨trivial, trivial, lasting, trivial⟩
  obtain ⟨tree, module, _⟩ := renamed_again boundThrice boundThriceModule lasting lasting'
  exact ⟨tree, rfl, rfl, module⟩

end Renaming

end ScopeResolution
