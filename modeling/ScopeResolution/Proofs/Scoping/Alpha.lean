import ScopeResolution.Proofs.Restoration
import ScopeResolution.Proofs.Scoping.Free
import ScopeResolution.Proofs.Scoping.Uniqueness

namespace ScopeResolution

abbrev Pairing := List (Symbol × Symbol)

namespace Pairing

variable {same : Datum → Datum → Prop}

/-- The first pair that one of the symbols is in holds both of them; if there is none, the symbols
are free and have to be the same. -/
def Meets (same : Datum → Datum → Prop) : Pairing → Symbol → Symbol → Prop
  | [], x, y => same x.datum y.datum
  | (a, b) :: ρ, x, y =>
      if a.essence = x.essence ∨ b.essence = y.essence then
        a.essence = x.essence ∧ b.essence = y.essence
      else Meets same ρ x y

def extend : Pairing → List Symbol → List Symbol → Pairing
  | ρ, x :: xs, y :: ys => extend ((x, y) :: ρ) xs ys
  | ρ, _, _ => ρ

theorem meets_extend_iff {ρ : Pairing} {x y : Symbol} {xs ys : List Symbol}
    (hx : x.essence ∉ xs.map Symbol.essence) (hy : y.essence ∉ ys.map Symbol.essence) :
    (ρ.extend xs ys).Meets same x y ↔ ρ.Meets same x y := by
  induction xs generalizing ys ρ with
  | nil => rfl
  | cons a xs ih =>
      cases ys with
      | nil => rfl
      | cons b ys =>
          rw [List.map_cons, List.mem_cons, not_or] at hx hy
          refine (ih hx.2 hy.2).trans ?_
          rw [Meets, if_neg]
          rintro (first | second)
          · exact hx.1 first.symm
          · exact hy.1 second.symm

theorem meets_extend {ρ : Pairing} {xs ys : List Symbol} (hx : (xs.map Symbol.essence).Nodup)
    (hy : (ys.map Symbol.essence).Nodup) (long : xs.length = ys.length) :
    List.Forall₂ ((ρ.extend xs ys).Meets same) xs ys := by
  induction xs generalizing ys ρ with
  | nil =>
      rw [List.length_eq_zero_iff.1 long.symm]
      exact .nil
  | cons x xs ih =>
      cases ys with
      | nil => cases long
      | cons y ys =>
          rw [List.map_cons, List.nodup_cons] at hx hy
          refine .cons ?_ (ih hx.2 hy.2 (Nat.succ.inj long))
          refine (meets_extend_iff hx.1 hy.1).2 ?_
          rw [Meets, if_pos (.inl rfl)]
          exact ⟨rfl, rfl⟩

end Pairing

def Name.Alike (same : Datum → Datum → Prop) (n m : Name) : Prop :=
  n.uid = m.uid ∧ (n.uid = 0 → same n.symbol.datum m.symbol.datum)

namespace Context

structure Aligned (same : Datum → Datum → Prop) (ρ : Pairing) (c d : Context) : Prop where
  sound : c.Sound
  sound' : d.Sound
  last : c.last = d.last
  meets_iff : ∀ x y, ρ.Meets same x y ↔ (c.nameOf x).Alike same (d.nameOf y)

theorem bindAll_append (c : Context) (xs ys : List Symbol) :
    c.bindAll (xs ++ ys) = (c.bindAll xs).bindAll ys :=
  List.foldl_append

namespace Aligned

variable {same : Datum → Datum → Prop} {ρ : Pairing} {c d c' d' : Context}

theorem initial : Aligned same [] .initial .initial :=
  ⟨sound_initial, sound_initial, rfl, fun _ _ =>
    ⟨fun meets => ⟨rfl, fun _ => meets⟩, fun alike => alike.2 rfl⟩⟩

theorem bind (h : Aligned same ρ c d) (x y : Symbol) :
    Aligned same ((x, y) :: ρ) (c.bind x) (d.bind y) := by
  refine ⟨h.sound.bind x, h.sound'.bind y, congrArg (· + 1) h.last, fun a b => ?_⟩
  have last := h.last
  have older := h.sound.uid_nameOf_le a
  have older' := h.sound'.uid_nameOf_le b
  have bound (e : x.essence = a.essence) : (c.bind x).nameOf a = c.next x :=
    nameOf_of_bound (e ▸ c.bound_bind_self x)
  have bound' (e : y.essence = b.essence) : (d.bind y).nameOf b = d.next y :=
    nameOf_of_bound (e ▸ d.bound_bind_self y)
  have kept (e : x.essence ≠ a.essence) : (c.bind x).nameOf a = c.nameOf a := by
    rw [nameOf, nameOf, bound_bind_of_ne e]
  have kept' (e : y.essence ≠ b.essence) : (d.bind y).nameOf b = d.nameOf b := by
    rw [nameOf, nameOf, bound_bind_of_ne e]
  rw [Pairing.Meets]
  -- The new names carry a number that no older name has, so they are alike with each other alone.
  by_cases left : x.essence = a.essence <;> by_cases right : y.essence = b.essence
  · rw [bound left, bound' right]
    simp [left, right, Name.Alike, next, last]
  · rw [bound left, kept' right, if_pos (.inl left)]
    refine iff_of_false (fun both => right both.2) fun alike => ?_
    have same : c.last + 1 = (d.nameOf b).uid := alike.1
    omega
  · rw [kept left, bound' right, if_pos (.inr right)]
    refine iff_of_false (fun both => left both.1) fun alike => ?_
    have same : (c.nameOf a).uid = d.last + 1 := alike.1
    omega
  · rw [kept left, kept' right, if_neg (not_or.2 ⟨left, right⟩)]
    exact h.meets_iff a b

theorem bindAll (h : Aligned same ρ c d) {xs ys : List Symbol} (long : xs.length = ys.length) :
    Aligned same (ρ.extend xs ys) (c.bindAll xs) (d.bindAll ys) := by
  induction xs generalizing ys ρ c d with
  | nil =>
      rw [List.length_eq_zero_iff.1 long.symm]
      exact h
  | cons x xs ih =>
      cases ys with
      | nil => cases long
      | cons y ys => exact ih (h.bind x y) (Nat.succ.inj long)

theorem later (h : Aligned same ρ c d) (kept : c'.bound = c.bound) (kept' : d'.bound = d.bound)
    (le : c.last ≤ c'.last) (last : c'.last = d'.last) : Aligned same ρ c' d' := by
  have le' : d.last ≤ d'.last := by
    have before := h.last
    omega
  have left : c' = c.leave c' := by rw [leave, ← kept]
  have right : d' = d.leave d' := by rw [leave, ← kept']
  refine ⟨left ▸ h.sound.leave le, right ▸ h.sound'.leave le', last, fun x y => ?_⟩
  rw [nameOf, nameOf, kept, kept']
  exact h.meets_iff x y

end Aligned

end Context

namespace Shape

def isPattern : Shape → Bool
  | .one .pattern | .many .pattern => true
  | _ => false

def isExpression : Shape → Bool
  | .one .expression | .one .alternative | .many .alternative | .group => true
  | _ => false

theorem isPattern_one (c : Category) : (one c).isPattern = (many c).isPattern := by
  cases c <;> rfl

theorem isExpression_one {c : Category} (h : (many c).isExpression = true) :
    (one c).isExpression = true := by
  cases c with
  | alternative => rfl
  | _ => cases h

end Shape

namespace Phrase

variable {same : Datum → Datum → Prop}

/-- Trees that are the same but for a choice of bound symbols. The names of a group are bound in its
right-hand sides and in the body, the variables of a pattern (what it leaks) in one alternative.
Blocks and declarations are left out. -/
def Alpha (same : Datum → Datum → Prop) :
    {s : Shape} → Pairing → Phrase Symbol s → Phrase Symbol s → Prop
  | _, ρ, .typed e type location, q => ∃ e' type' location', q = .typed e' type' location' ∧
      e.Alpha same ρ e' ∧ same type.freeze type'.freeze ∧ same location.freeze location'.freeze
  | _, ρ, .located e location, q => ∃ e' location', q = .located e' location' ∧
      e.Alpha same ρ e' ∧ same location.freeze location'.freeze
  | _, _, .literal form value, q => ∃ value', q = .literal form value' ∧
      same value.datum value'.datum
  | _, ρ, .reference x, q => ∃ x', q = .reference x' ∧ ρ.Meets same x x'
  | _, ρ, .apply f a, q => ∃ f' a', q = .apply f' a' ∧ f.Alpha same ρ f' ∧ a.Alpha same ρ a'
  | _, ρ, .lambda x body, q => ∃ x' body', q = .lambda x' body' ∧
      body.Alpha same ((x, x') :: ρ) body'
  | _, ρ, .letIn g body, q => ∃ g' body', q = .letIn g' body' ∧
      g.names.length = g'.names.length ∧ g.Alpha same (ρ.extend g.names g'.names) g' ∧
        body.Alpha same (ρ.extend g.names g'.names) body'
  | _, ρ, .caseOf e alternatives, q => ∃ e' alternatives', q = .caseOf e' alternatives' ∧
      e.Alpha same ρ e' ∧ alternatives.Alpha same ρ alternatives'
  | _, _, .doBlock _ _, _ => False
  | _, ρ, .locatedPattern p location, q => ∃ p' location', q = .locatedPattern p' location' ∧
      p.Alpha same ρ p' ∧ same location.freeze location'.freeze
  | _, _, .numberPattern value, q => ∃ value', q = .numberPattern value' ∧
      same value.datum value'.datum
  | _, _, .wildCardPattern, q => q = .wildCardPattern
  | _, _, .identifierPattern _, q => ∃ x', q = .identifierPattern x'
  | _, ρ, .constructorPattern x patterns, q => ∃ x' patterns',
      q = .constructorPattern x' patterns' ∧ same x.datum x'.datum ∧ patterns.Alpha same ρ patterns'
  | _, ρ, .alternative p e, q => ∃ p' e', q = .alternative p' e' ∧
      p.Alpha same ρ p' ∧ e.Alpha same (ρ.extend p.leak p'.leak) e'
  | _, _, .doExpr _, _ => False
  | _, _, .doLet _, _ => False
  | _, _, .doBind _ _, _ => False
  | _, _, .constructor _ _ _ _, _ => False
  | _, _, .definition _ _ _, _ => False
  | _, _, .instanceOf _ _ _ _, _ => False
  | _, _, .nil category, q => q = .nil category
  | _, ρ, .cons t ts, q => ∃ t' ts', q = .cons t' ts' ∧ t.Alpha same ρ t' ∧ ts.Alpha same ρ ts'
  | _, _, .noBinding, q => q = .noBinding
  | _, ρ, .binding _ right type arity rest, q => ∃ x' right' type' arity' rest',
      q = .binding x' right' type' arity' rest' ∧ right.Alpha same ρ right' ∧
        same type.freeze type'.freeze ∧ same arity.freeze arity'.freeze ∧ rest.Alpha same ρ rest'
  | _, _, .noDeclaration, _ => False
  | _, _, .declaration _ _ _ _ _, _ => False

def Orderly : {s : Shape} → Phrase Symbol s → Prop
  | _, .typed e _ _ => e.Orderly
  | _, .located e _ => e.Orderly
  | _, .apply f a => f.Orderly ∧ a.Orderly
  | _, .lambda _ body => body.Orderly
  | _, .letIn g body => (g.names.map Symbol.essence).Nodup ∧ g.Orderly ∧ body.Orderly
  | _, .caseOf e alternatives => e.Orderly ∧ alternatives.Orderly
  | _, .doBlock _ _ => False
  | _, .alternative _ e => e.Orderly
  | _, .cons t ts => t.Orderly ∧ ts.Orderly
  | _, .binding _ right _ _ rest => right.Orderly ∧ rest.Orderly
  | _, _ => True

theorem leak_eq_nil_of_orderly {s : Shape} (t : Phrase Symbol s) (hs : s.isExpression = true)
    (h : t.Orderly) : t.leak = [] := by
  induction t with
  | typed e type location ih => exact ih rfl h
  | located e location ih => exact ih rfl h
  | literal => rfl
  | reference => rfl
  | apply f a ihf iha => rw [leak, ihf rfl h.1, iha rfl h.2, List.append_nil]
  | lambda => rfl
  | letIn => rfl
  | caseOf e alternatives ihe _ => exact ihe rfl h.1
  | doBlock => exact h.elim
  | alternative => rfl
  | nil => rfl
  | cons t ts iht ihts =>
      rw [leak, iht (Shape.isExpression_one hs) h.1, ihts hs h.2, List.append_nil]
  | noBinding => rfl
  | binding x right type arity rest ihr ihrest =>
      rw [leak, ihr rfl h.1, ihrest rfl h.2, List.append_nil]
  | _ => cases hs

theorem bound_resolve {s : Shape} (t : Phrase Symbol s) (hs : s.isExpression = true)
    (h : t.Orderly) (c : Context) : (t.resolve c).2.bound = c.bound := by
  have leaks : t.scoping.leaks = [] := by
    rw [t.leaks_scoping, t.leak_eq_nil_of_orderly hs h, List.map_nil]
  funext e
  rw [(t.scoping_resolve c).2]
  exact (t.scoping.rebinds_resolve c).keeps e (by rw [leaks]; exact List.not_mem_nil)

theorem resolve_pattern {s : Shape} (p : Phrase Symbol s) (hs : s.isPattern = true) (c : Context) :
    (p.resolve c).2 = c.bindAll p.leak := by
  induction p generalizing c with
  | locatedPattern p location ih => exact ih rfl c
  | numberPattern => rfl
  | wildCardPattern => rfl
  | identifierPattern => rfl
  | constructorPattern x patterns ih => exact ih rfl c
  | nil => rfl
  | cons t ts iht ihts =>
      rw [resolve, iht ((Shape.isPattern_one _).trans hs), ihts hs, leak, Context.bindAll_append]
  | _ => cases hs

theorem length_leak_pattern {s : Shape} (p : Phrase Symbol s) (hs : s.isPattern = true) :
    p.leak.length = p.scoping.count := by
  have resolved := congrArg Context.last (p.resolve_pattern hs .initial)
  rw [last_resolve, Context.last_bindAll] at resolved
  omega

theorem count_of_alpha {s : Shape} {t u : Phrase Symbol s} {ρ : Pairing} (h : t.Alpha same ρ u) :
    t.scoping.count = u.scoping.count := by
  induction t generalizing ρ with
  | typed e type location ih =>
      obtain ⟨e', _, _, rfl, he, _⟩ := h
      exact (ih he :)
  | located e location ih =>
      obtain ⟨e', _, rfl, he, _⟩ := h
      exact (ih he :)
  | literal =>
      obtain ⟨_, rfl, _⟩ := h
      rfl
  | reference =>
      obtain ⟨_, rfl, _⟩ := h
      rfl
  | apply f a ihf iha =>
      obtain ⟨f', a', rfl, hf, ha⟩ := h
      exact congrArg₂ (· + ·) (ihf hf) (iha ha)
  | lambda x body ih =>
      obtain ⟨x', body', rfl, hbody⟩ := h
      exact congrArg (1 + ·) (ih hbody)
  | letIn g body ihg ih =>
      obtain ⟨g', body', rfl, long, hg, hbody⟩ := h
      simp [scoping, Scoping.count, names_scoping, long, ihg hg, ih hbody]
  | caseOf e alternatives ihe iha =>
      obtain ⟨e', alternatives', rfl, he, ha⟩ := h
      exact congrArg₂ (· + ·) (iha ha) (ihe he)
  | locatedPattern p location ih =>
      obtain ⟨p', _, rfl, hp, _⟩ := h
      exact (ih hp :)
  | numberPattern =>
      obtain ⟨_, rfl, _⟩ := h
      rfl
  | wildCardPattern =>
      obtain rfl := h
      rfl
  | identifierPattern =>
      obtain ⟨_, rfl⟩ := h
      rfl
  | constructorPattern x patterns ih =>
      obtain ⟨_, patterns', rfl, _, hp⟩ := h
      exact ih hp
  | alternative p e ihp ihe =>
      obtain ⟨p', e', rfl, hp, he⟩ := h
      exact congrArg₂ (· + ·) (ihp hp) (ihe he)
  | nil =>
      obtain rfl := h
      rfl
  | cons t ts iht ihts =>
      obtain ⟨t', ts', rfl, ht, hts⟩ := h
      exact congrArg₂ (· + ·) (iht ht) (ihts hts)
  | noBinding =>
      obtain rfl := h
      rfl
  | binding x right type arity rest ihr ihrest =>
      obtain ⟨_, right', _, _, rest', rfl, hr, _, _, hrest⟩ := h
      exact congrArg₂ (· + ·) (ihr hr) (ihrest hrest)
  | _ => exact h.elim

section Resolved

open Context (Aligned)

variable {ρ : Pairing} {c d : Context}

def Resolves (same : Datum → Datum → Prop) {s : Shape} (t u : Phrase Symbol s) (c d : Context) :
    Prop :=
  (t.resolve c).1.Like (Name.Alike same) same (u.resolve d).1

theorem alpha_pattern_iff {s : Shape} (p q : Phrase Symbol s) (hs : s.isPattern = true)
    (last : c.last = d.last) : p.Alpha same ρ q ↔ p.Resolves same q c d := by
  induction p generalizing c d with
  | locatedPattern p location ih =>
      cases q with
      | locatedPattern p' location' =>
          simp [Alpha, Resolves, resolve, Like, ih p' rfl last]
      | _ => simp [Alpha, Resolves, resolve, Like]
  | numberPattern value => cases q <;> simp [Alpha, Resolves, resolve, Like]
  | wildCardPattern => cases q <;> simp [Alpha, Resolves, resolve, Like]
  | identifierPattern x =>
      cases q <;> simp [Alpha, Resolves, resolve, Like, Name.Alike, Context.next, last]
  | constructorPattern x patterns ih =>
      cases q with
      | constructorPattern x' patterns' =>
          simp [Alpha, Resolves, resolve, Like, Name.Alike, ih patterns' rfl last]
      | _ => simp [Alpha, Resolves, resolve, Like]
  | nil category => cases q <;> simp [Alpha, Resolves, resolve, Like]
  | cons t ts iht ihts =>
      cases q with
      | nil => simp [Alpha, Resolves, resolve, Like]
      | cons t' ts' =>
          have head := iht t' ((Shape.isPattern_one _).trans hs) last
          have tail (h : t.Alpha same ρ t') : ts.Alpha same ρ ts' ↔
              ts.Resolves same ts' (t.resolve c).2 (t'.resolve d).2 := by
            refine ihts ts' hs ?_
            rw [last_resolve, last_resolve, last, count_of_alpha h]
          have both := (and_congr_right tail).trans (and_congr_left' head)
          simpa [Alpha, Resolves, resolve, Like] using both
  | _ => cases hs

theorem names_one {ν : Type} {c : Category} (t : Phrase ν (.one c)) : t.names = [] := by
  rw [names]

theorem names_many {ν : Type} {c : Category} (ts : Phrase ν (.many c)) : ts.names = [] := by
  rw [names]

theorem forall₂_names_one {R : Symbol → Symbol → Prop} {c : Category}
    (t u : Phrase Symbol (.one c)) : List.Forall₂ R t.names u.names := by
  rw [names_one, names_one]
  exact .nil

theorem forall₂_names_many {R : Symbol → Symbol → Prop} {c : Category}
    (ts us : Phrase Symbol (.many c)) : List.Forall₂ R ts.names us.names := by
  rw [names_many, names_many]
  exact .nil

theorem length_names_of_resolves : (g g' : Phrase Symbol .group) → (c d : Context) →
    g.Resolves same g' c d → g.names.length = g'.names.length
  | .noBinding, .noBinding, _, _, _ => rfl
  | .noBinding, .binding _ _ _ _ _, _, _, h => by simp [Resolves, resolve, Like] at h
  | .binding _ _ _ _ _, .noBinding, _, _, h => by simp [Resolves, resolve, Like] at h
  | .binding x right type arity rest, .binding x' right' type' arity' rest', c, d, h => by
      obtain ⟨_, _, _, _, _, fields, _, _, _, _, like⟩ := h
      cases fields
      have tail := length_names_of_resolves rest rest' (right.resolve c).2 (right'.resolve d).2 like
      simp [names, tail]

theorem aligned_resolve {s : Shape} {t u : Phrase Symbol s} (h : Aligned same ρ c d)
    (hs : s.isExpression = true) (ht : t.Orderly) (hu : u.Orderly) (alpha : t.Alpha same ρ u) :
    Aligned same ρ (t.resolve c).2 (u.resolve d).2 := by
  refine h.later (t.bound_resolve hs ht c) (u.bound_resolve hs hu d) ?_ ?_
  · rw [last_resolve]
    exact Nat.le_add_right _ _
  · rw [last_resolve, last_resolve, h.last, count_of_alpha alpha]

theorem alpha_iff_resolves {s : Shape} (t u : Phrase Symbol s) (hs : s.isExpression = true)
    (ht : t.Orderly) (hu : u.Orderly) (h : Aligned same ρ c d)
    (met : List.Forall₂ (ρ.Meets same) t.names u.names) :
    t.Alpha same ρ u ↔ t.Resolves same u c d := by
  -- What comes after a part is resolved from aligned contexts only if the part takes as many
  -- numbers on both sides; that is known once the part is the same but for its bound symbols.
  induction t generalizing ρ c d with
  | typed e type location ih =>
      cases u with
      | typed e' type' location' =>
          have inner := ih e' rfl ht hu h (forall₂_names_one e e')
          simpa [Alpha, Resolves, resolve, Like] using fun _ _ => inner
      | _ => simp [Alpha, Resolves, resolve, Like]
  | located e location ih =>
      cases u with
      | located e' location' =>
          have inner := ih e' rfl ht hu h (forall₂_names_one e e')
          simpa [Alpha, Resolves, resolve, Like] using fun _ => inner
      | _ => simp [Alpha, Resolves, resolve, Like]
  | literal form value => cases u <;> simp [Alpha, Resolves, resolve, Like]
  | reference x => cases u <;> simp [Alpha, Resolves, resolve, Like, h.meets_iff]
  | apply f a ihf iha =>
      cases u with
      | apply f' a' =>
          have head := ihf f' rfl ht.1 hu.1 h (forall₂_names_one f f')
          have tail (alpha : f.Alpha same ρ f') := iha a' rfl ht.2 hu.2
            (aligned_resolve h rfl ht.1 hu.1 alpha) (forall₂_names_one a a')
          have both := (and_congr_right tail).trans (and_congr_left' head)
          simpa [Alpha, Resolves, resolve, Like] using both
      | _ => simp [Alpha, Resolves, resolve, Like]
  | lambda x body ih =>
      cases u with
      | lambda x' body' =>
          have inner := ih body' rfl ht hu (h.bind x x') (forall₂_names_one body body')
          simpa [Alpha, Resolves, resolve, Like, Name.Alike, Context.next, h.last] using inner
      | _ => simp [Alpha, Resolves, resolve, Like]
  | letIn g body ihg ih =>
      cases u with
      | letIn g' body' =>
          by_cases long : g.names.length = g'.names.length
          · have opened := h.bindAll long
            have head := ihg g' rfl ht.2.1 hu.2.1 opened (Pairing.meets_extend ht.1 hu.1 long)
            have tail (alpha : g.Alpha same (ρ.extend g.names g'.names) g') :=
              ih body' rfl ht.2.2 hu.2.2 (aligned_resolve opened rfl ht.2.1 hu.2.1 alpha)
                (forall₂_names_one body body')
            have both := (and_congr_right tail).trans (and_congr_left' head)
            simpa [Alpha, Resolves, resolve, Like, long] using both
          · have apart : ¬ g.Resolves same g' (c.bindAll g.names) (d.bindAll g'.names) :=
              mt (length_names_of_resolves g g' _ _) long
            rw [Resolves] at apart
            simp [Alpha, Resolves, resolve, Like, long, apart]
      | _ => simp [Alpha, Resolves, resolve, Like]
  | caseOf e alternatives ihe iha =>
      cases u with
      | caseOf e' alternatives' =>
          have head := iha alternatives' rfl ht.2 hu.2 h (forall₂_names_many _ _)
          have tail (alpha : alternatives.Alpha same ρ alternatives') := ihe e' rfl ht.1 hu.1
            (aligned_resolve h rfl ht.2 hu.2 alpha) (forall₂_names_one e e')
          have both := (and_congr_right tail).trans (and_congr_left' head)
          rw [and_comm] at both
          simpa [Alpha, Resolves, resolve, Like, and_comm] using both
      | _ => simp [Alpha, Resolves, resolve, Like]
  | doBlock => exact ht.elim
  | alternative p e ihp ihe =>
      cases u with
      | alternative p' e' =>
          have head : p.Alpha same ρ p' ↔ p.Resolves same p' c d :=
            alpha_pattern_iff p p' rfl h.last
          have tail (alpha : p.Alpha same ρ p') : e.Alpha same (ρ.extend p.leak p'.leak) e' ↔
              e.Resolves same e' (p.resolve c).2 (p'.resolve d).2 := by
            have long : p.leak.length = p'.leak.length := by
              rw [p.length_leak_pattern rfl, p'.length_leak_pattern rfl, count_of_alpha alpha]
            rw [p.resolve_pattern rfl, p'.resolve_pattern rfl]
            exact ihe e' rfl ht hu (h.bindAll long) (forall₂_names_one e e')
          have both := (and_congr_right tail).trans (and_congr_left' head)
          simpa [Alpha, Resolves, resolve, Like] using both
  | nil category => cases u <;> simp [Alpha, Resolves, resolve, Like]
  | cons t ts iht ihts =>
      cases u with
      | nil => simp [Alpha, Resolves, resolve, Like]
      | cons t' ts' =>
          have first := Shape.isExpression_one hs
          have head := iht t' first ht.1 hu.1 h (forall₂_names_one t t')
          have tail (alpha : t.Alpha same ρ t') := ihts ts' hs ht.2 hu.2
            (aligned_resolve h first ht.1 hu.1 alpha) (forall₂_names_many ts ts')
          have both := (and_congr_right tail).trans (and_congr_left' head)
          simpa [Alpha, Resolves, resolve, Like] using both
  | noBinding => cases u <;> simp [Alpha, Resolves, resolve, Like]
  | binding x right type arity rest ihr ihrest =>
      cases u with
      | noBinding => simp [Alpha, Resolves, resolve, Like]
      | binding x' right' type' arity' rest' =>
          obtain ⟨meets, met⟩ := List.forall₂_cons.1 met
          have alike := (h.meets_iff x x').1 meets
          have head := ihr right' rfl ht.1 hu.1 h (forall₂_names_one right right')
          have tail (alpha : right.Alpha same ρ right') := ihrest rest' rfl ht.2 hu.2
            (aligned_resolve h rfl ht.1 hu.1 alpha) met
          have both := (and_congr_right tail).trans (and_congr_left' head)
          constructor
          · rintro ⟨_, _, _, _, _, fields, hr, type, arity, hrest⟩
            cases fields
            obtain ⟨hr', hrest'⟩ := both.1 ⟨hr, hrest⟩
            exact ⟨_, _, _, _, _, rfl, alike, hr', type, arity, hrest'⟩
          · rintro ⟨_, _, _, _, _, fields, _, hr, type, arity, hrest⟩
            cases fields
            obtain ⟨hr', hrest'⟩ := both.2 ⟨hr, hrest⟩
            exact ⟨_, _, _, _, _, rfl, hr', type, arity, hrest'⟩
  | _ => cases hs

end Resolved

end Phrase

namespace Name

def nothing : Symbol :=
  ⟨⟨.null, .null, rfl⟩, rfl⟩

def bared (n : Name) : Name :=
  if n.uid = 0 then n else ⟨nothing, n.uid⟩

theorem regular_datum (n : Name) : n.datum.regular = true := by
  simp [datum, Datum.regular, n.symbol.regular]

theorem equal_int_iff (i j : Int) : (Datum.int i).Equal (.int j) ↔ i = j := by
  simp [Datum.Equal, Datum.equals, Datum.compare, Datum.sameNumber, Datum.integer?]

theorem equal_datum_iff (n m : Name) :
    n.datum.Equal m.datum ↔ n.symbol.datum.Equal m.symbol.datum ∧ n.uid = m.uid := by
  have items : n.datum.equals m.datum =
      (Datum.tuple [n.symbol.datum, .int n.uid]).equals (.tuple [m.symbol.datum, .int m.uid]) := by
    rw [Datum.equals, Datum.compare_of_tupleItems? (a := n.datum) rfl]
    rfl
  have number := equal_int_iff n.uid m.uid
  have regular (k : Name) : Datum.regular.all [k.symbol.datum, .int k.uid] = true := k.regular_datum
  rw [Datum.Equal, items]
  constructor
  · intro equal
    obtain ⟨symbol, rest⟩ := List.forall₂_cons.1
      (Datum.items_of_equal_tuple (regular n) (regular m) equal)
    exact ⟨symbol, by have := number.1 (List.forall₂_cons.1 rest).1; omega⟩
  · rintro ⟨symbol, uid⟩
    exact Datum.equal_tuple_of_items (.cons symbol (.cons (number.2 (by omega)) .nil))

theorem eq_datum_iff (n m : Name) :
    n.datum = m.datum ↔ n.symbol.datum = m.symbol.datum ∧ n.uid = m.uid := by
  simp only [datum, Datum.name.injEq, Datum.int.injEq, Int.natCast_inj]

theorem alike_iff {E : Datum → Datum → Prop} (null : E .null .null)
    (pair : ∀ n m : Name, E n.datum m.datum ↔ E n.symbol.datum m.symbol.datum ∧ n.uid = m.uid)
    (n m : Name) : n.Alike E m ↔ E n.bared.datum m.bared.datum := by
  have uid (k : Name) : k.bared.uid = k.uid := by
    unfold bared
    split <;> rfl
  rw [pair, uid, uid]
  refine and_comm.trans (and_congr_left fun same => ?_)
  by_cases zero : n.uid = 0
  · have left : n.bared = n := if_pos zero
    have right : m.bared = m := if_pos (same ▸ zero)
    simp [left, right, zero]
  · have left : n.bared.symbol = nothing := by rw [bared, if_neg zero]
    have right : m.bared.symbol = nothing := by rw [bared, if_neg (same ▸ zero)]
    rw [left, right]
    exact iff_of_true (fun global => absurd global zero) null

end Name

namespace Phrase

def bared {s : Shape} (t : Phrase Name s) : Phrase Name s :=
  t.map Name.bared id

end Phrase

namespace Renaming

open Phrase

theorem alpha_reduces {D : Datum → Prop} {E : Datum → Datum → Prop} (parts : Partwise D E)
    (null : E .null .null)
    (pair : ∀ n m : Name, E n.datum m.datum ↔ E n.symbol.datum m.symbol.datum ∧ n.uid = m.uid)
    {t u : Phrase Symbol (.one .expression)} (ht : t.Orderly) (hu : u.Orderly) :
    Reduces (D (t.resolve .initial).1.bared.datum ∧ D (u.resolve .initial).1.bared.datum)
      (E (t.resolve .initial).1.bared.datum (u.resolve .initial).1.bared.datum)
      (t.Alpha E [] u) := by
  have agree := agree_reduces parts Name.bared Name.bared (t.resolve .initial).1
    (u.resolve .initial).1
  refine agree.congr ?_
  have alike : Name.Alike E = fun n m => E n.bared.datum m.bared.datum := by
    funext n m
    exact propext (Name.alike_iff null pair n m)
  have aligned : Context.Aligned E [] .initial .initial := .initial
  have resolves := alpha_iff_resolves t u rfl ht hu aligned (forall₂_names_one t u)
  rw [Resolves, alike] at resolves
  exact resolves.symm

theorem regular_bared (t : Phrase Symbol (.one .expression))
    (h : ∀ v ∈ t.carried, v.freeze.regular = true) :
    (t.resolve .initial).1.bared.datum.regular = true := by
  have carried : (t.resolve .initial).1.bared.carried = t.carried := by
    rw [← t.carried_resolve .initial, carried, bared, places_map, Place.carried_map, Phrase.carried]
  rw [← carried] at h
  exact Phrase.regular_datum Name.regular_datum _ h

theorem alpha_iff_renamed_equal (t u : Phrase Symbol (.one .expression)) (ht : t.Orderly)
    (hu : u.Orderly) :
    (t.datum.renamed .expression).1 = .ok (t.resolve .initial).1.datum ∧
      (u.datum.renamed .expression).1 = .ok (u.resolve .initial).1.datum ∧
      (t.Alpha Eq [] u ↔
        (t.resolve .initial).1.bared.datum = (u.resolve .initial).1.bared.datum) ∧
      (t.Alpha Datum.Equal [] u →
        (t.resolve .initial).1.bared.datum.Equal (u.resolve .initial).1.bared.datum) ∧
      ((∀ v ∈ t.carried, v.freeze.regular = true) → (∀ v ∈ u.carried, v.freeze.regular = true) →
        (t.resolve .initial).1.bared.datum.Equal (u.resolve .initial).1.bared.datum →
          t.Alpha Datum.Equal [] u) := by
  have compared := alpha_reduces partwise_equal rfl Name.equal_datum_iff ht hu
  refine ⟨t.ok_renamed .expression, u.ok_renamed .expression, ?_, compared.intro,
    fun regular regular' => ?_⟩
  · exact ((alpha_reduces partwise_eq rfl Name.eq_datum_iff ht hu).iff ⟨trivial, trivial⟩).symm
  · exact compared.elim ⟨regular_bared t regular, regular_bared u regular'⟩

def mutualGroup (f g x : String) : Phrase Symbol (.one .expression) :=
  let reference (s : String) : Phrase Symbol (.one .expression) := .reference (.ofText s)
  .letIn (.binding (.ofText f) (.lambda (.ofText x) (.apply (reference g) (reference x))) .null
    (.int 1) (.binding (.ofText g) (.lambda (.ofText x) (.lambda (.ofText x) (reference x))) .null
      (.int 2) .noBinding)) (.apply (reference f) (reference "z"))

theorem alpha_mutualGroup :
    (mutualGroup "f" "g" "x").Orderly ∧ (mutualGroup "x" "f" "g").Orderly ∧
      (mutualGroup "f" "g" "x").Alpha Eq [] (mutualGroup "x" "f" "g") ∧
      (mutualGroup "f" "g" "x").Alpha Datum.Equal [] (mutualGroup "x" "f" "g") := by
  have ht : (mutualGroup "f" "g" "x").Orderly :=
    ⟨by decide, ⟨⟨trivial, trivial⟩, trivial, trivial⟩, trivial, trivial⟩
  have hu : (mutualGroup "x" "f" "g").Orderly :=
    ⟨by decide, ⟨⟨trivial, trivial⟩, trivial, trivial⟩, trivial, trivial⟩
  obtain ⟨_, _, identity, _, compared⟩ := alpha_iff_renamed_equal _ _ ht hu
  have same : ((mutualGroup "f" "g" "x").resolve .initial).1.bared.datum =
      ((mutualGroup "x" "f" "g").resolve .initial).1.bared.datum := rfl
  have regular : ∀ v ∈ (mutualGroup "f" "g" "x").carried, v.freeze.regular = true := by decide
  have regular' : ∀ v ∈ (mutualGroup "x" "f" "g").carried, v.freeze.regular = true := by decide
  refine ⟨ht, hu, identity.2 same, compared regular regular' ?_⟩
  have whole := regular_bared _ regular
  exact Datum.equal_of_essence whole (same ▸ whole) (congrArg Datum.essence same)

end Renaming

end ScopeResolution
