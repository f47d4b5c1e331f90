import ScopeResolution.Fault.Message
import ScopeResolution.Proofs.Construction.Keywords
import ScopeResolution.Proofs.Datum.Comparison

namespace ScopeResolution

open Datum

namespace Kind

structure Plain (k : Kind) : Prop where
  distinct : k.fields.Nodup
  own : ∀ o : Own, o.name ∉ k.fields
  reserved : ∀ r : Reserved, r.name ∉ k.fields
  unnamed : ownName ∉ k.fields

theorem plain_builtin (f : Form) : (builtin f).Plain where
  distinct := f.fields_nodup
  own o := o.name_not_mem_fields f
  reserved r := by cases r <;> cases f <;> decide
  unnamed := ownName_not_mem_fields f

def offered? (k : Kind) (given : List (String × Datum)) (f : String) : Option Datum :=
  (lastValue? f given).or (lastValue? f k.defaults)

def fill (k : Kind) (given : List (String × Datum)) (fs : List String) : List Datum :=
  fs.map fun f => ((k.offered? given f).getD .null).freeze

theorem length_fill (k : Kind) (given : List (String × Datum)) (fs : List String) :
    (k.fill given fs).length = fs.length :=
  List.length_map _

theorem freeze_fill {k : Kind} {given : List (String × Datum)} {fs : List String} :
    ∀ v ∈ k.fill given fs, v.freeze = v :=
  List.forall_mem_map.2 fun _ _ => freeze_freeze _

theorem exists_value {k : Kind} {vs : List Datum} (full : vs.length = k.fields.length) {i : Nat}
    {f : String} (at_i : k.fields[i]? = some f) : ∃ v, vs[i]? = some v :=
  ⟨_, List.getElem?_eq_getElem (full.symm ▸ (List.getElem?_eq_some_iff.1 at_i).1)⟩

theorem values_ext {k : Kind} {vs ws : List Datum} (full : vs.length = k.fields.length)
    (full' : ws.length = k.fields.length)
    (same : ∀ (i : Nat) (f : String), k.fields[i]? = some f → vs[i]? = ws[i]?) : vs = ws := by
  refine List.ext_getElem? fun i => ?_
  cases at_i : k.fields[i]? with
  | some f => exact same i f at_i
  | none =>
      have beyond := List.getElem?_eq_none_iff.1 at_i
      rw [List.getElem?_eq_none (full ▸ beyond), List.getElem?_eq_none (full' ▸ beyond)]

section Steps

variable {k : Kind} {given before after : List (String × Datum)} {f : String} {v : Datum}

theorem offered?_eq_none_iff :
    k.offered? given f = none ↔ f ∉ given.map (·.1) ∧ f ∉ k.defaults.map (·.1) := by
  rw [offered?, Option.or_eq_none_iff, lastValue?_eq_none_iff, lastValue?_eq_none_iff]

theorem valueFor_of_offered (h : k.offered? given f = some v) :
    k.valueFor given none f = .ok v.freeze := by
  rw [offered?] at h
  cases named : lastValue? f given with
  | some w =>
      rw [named] at h
      cases h
      simp only [valueFor, named]
  | none =>
      rw [named, Option.none_or] at h
      simp only [valueFor, named, h]

theorem valueFor_of_none (h : k.offered? given f = none) :
    k.valueFor given none f = .error (.missingField k f) := by
  obtain ⟨named, default⟩ := Option.or_eq_none_iff.1 h
  simp only [valueFor, named, default]

theorem assign_append (known : ∀ p ∈ before, p.1 ∈ k.fields)
    (distinct : ((given ++ before).map (·.1)).Nodup) (rest : List (String × Datum)) :
    k.assign given (before ++ rest) = k.assign (given ++ before) rest := by
  induction before generalizing given with
  | nil => rw [List.nil_append, List.append_nil]
  | cons p before ih =>
      rw [List.forall_mem_cons] at known
      have free : p.1 ∉ given.map (·.1) := by
        rw [List.map_append] at distinct
        exact fun mem => (List.nodup_append.1 distinct).2.2 p.1 mem p.1 List.mem_cons_self rfl
      -- The keyword is taken in, and has to be told from those after it.
      have taken : k.assign given (p :: (before ++ rest)) =
          k.assign (given ++ [p]) (before ++ rest) := by
        rw [assign, if_neg (not_not_intro known.1), lastValue?_eq_none_iff.2 free]
        rfl
      rw [List.append_cons] at distinct
      rw [List.cons_append, taken, ih known.2 distinct, ← List.append_cons]

theorem assign_unknown (unknown : f ∉ k.fields) :
    k.assign given ((f, v) :: after) = .error (.unknownField k f) :=
  if_pos unknown

theorem assign_repeated (known : f ∈ k.fields) (taken : f ∈ given.map (·.1)) :
    k.assign given ((f, v) :: after) = .error (.repeatedField k f) := by
  obtain ⟨w, found⟩ := exists_lastValue? taken
  rw [assign, if_neg (not_not_intro known), found]
  rfl

end Steps

namespace Plain

variable {k : Kind} (plain : k.Plain)
include plain

theorem hiding?_eq_none (o : Own) (fs : List Datum) : hiding? o k fs = none := by
  rw [hiding?_eq_field?]
  exact field?_eq_none (plain.own o)

theorem namedFields_eq (fs : List Datum) : (node k fs).namedFields = .ok (k.fields.zip fs) := by
  simp only [namedFields, entriesFault?, fieldNames, fieldEntries, entries, known,
    plain.hiding?_eq_none]

theorem ofName?_eq_none {f : String} (h : f ∈ k.fields) : Reserved.ofName? f = none := by
  refine List.find?_eq_none.2 fun r _ same => ?_
  exact plain.reserved r (of_decide_eq_true same ▸ h)

theorem complete_cons {given : List (String × Datum)} {f : String} (h : f ∈ k.fields)
    (fs : List String) : k.complete given none (f :: fs) = (do
      let v ← k.valueFor given none f
      let vs ← k.complete given none fs
      return v :: vs) := by
  have other : f ≠ Own.defaults.name := fun same => plain.own .defaults (same ▸ h)
  simp only [complete, plain.ofName?_eq_none h, if_neg other]

theorem complete_append {given : List (String × Datum)} {before : List String}
    (known : ∀ f ∈ before, f ∈ k.fields) (offered : ∀ f ∈ before, k.offered? given f ≠ none)
    (rest : List String) : k.complete given none (before ++ rest) =
      (k.complete given none rest).map (k.fill given before ++ ·) := by
  induction before with
  | nil => cases h : k.complete given none rest <;> simp [fill, h, Except.map]
  | cons f before ih =>
      rw [List.forall_mem_cons] at known offered
      obtain ⟨v, found⟩ := Option.ne_none_iff_exists'.1 offered.1
      rw [List.cons_append, plain.complete_cons known.1, valueFor_of_offered found,
        ih known.2 offered.2]
      cases k.complete given none rest <;>
        simp [fill, found, Except.map, bind, Except.bind, pure, Except.pure]

theorem complete_missing {given : List (String × Datum)} {f : String} (h : f ∈ k.fields)
    (none : k.offered? given f = none) (after : List String) :
    k.complete given .none (f :: after) = .error (.missingField k f) := by
  rw [plain.complete_cons h, valueFor_of_none none]
  rfl

end Plain

theorem build_eq {k : Kind} {args : List Datum} {named : List (String × Datum)}
    (unnamed : ownName ∉ named.map (·.1)) (fits : args.length ≤ k.fields.length) :
    k.build args named = (do
      let given ← k.assign (k.fields.zip args) named
      return .node k (← k.complete given none k.fields)) := by
  simp only [build, refuseOwnName_eq_ok unnamed, if_neg (Nat.not_lt.2 fits)]
  rfl

theorem build_of_ownName {k : Kind} {args : List Datum} {named : List (String × Datum)}
    (h : ownName ∈ named.map (·.1)) :
    k.build args named = .error (.ownName .building) := by
  simp only [build, refuseOwnName, if_pos h]
  rfl

theorem build_of_exceeds {k : Kind} {args : List Datum} {named : List (String × Datum)}
    (unnamed : ownName ∉ named.map (·.1)) (exceeds : k.fields.length < args.length) :
    k.build args named = .error (.tooManyArguments k args.length) := by
  simp only [build, refuseOwnName_eq_ok unnamed, if_pos exceeds]
  rfl

end Kind

structure Arguments where
  positional : List Datum
  keywords : Keywords

namespace Arguments

variable (k : Kind) (c : Arguments)

def placed : List String :=
  k.fields.take c.positional.length

def given : List (String × Datum) :=
  k.fields.zip c.positional ++ c.keywords.pairs

def Admits (f : String) : Prop :=
  f ∈ k.fields ∧ f ∉ c.placed k

def Fills (f : String) : Prop :=
  f ∈ c.placed k ∨ f ∈ c.keywords.names ∨ f ∈ k.defaults.map (·.1)

instance (f : String) : Decidable (c.Admits k f) :=
  inferInstanceAs (Decidable (_ ∧ _))

instance (f : String) : Decidable (c.Fills k f) :=
  inferInstanceAs (Decidable (_ ∨ _))

structure Complete : Prop where
  fits : c.positional.length ≤ k.fields.length
  admits : ∀ f ∈ c.keywords.names, c.Admits k f
  fills : ∀ f ∈ k.fields, c.Fills k f

instance : Decidable (c.Complete k) :=
  decidable_of_iff (c.positional.length ≤ k.fields.length ∧ (∀ f ∈ c.keywords.names, c.Admits k f) ∧
    ∀ f ∈ k.fields, c.Fills k f)
    ⟨fun ⟨fits, admits, fills⟩ => ⟨fits, admits, fills⟩, fun ⟨fits, admits, fills⟩ =>
      ⟨fits, admits, fills⟩⟩

/-- The fault of arguments that are not complete: that of the first rule, in this order, that
applies, and of the first keyword or field it applies to. -/
inductive Refused : Fault → Prop
  | tooMany (exceeds : k.fields.length < c.positional.length) :
      Refused (.tooManyArguments k c.positional.length)
  | unknown {before after : List String} {f : String} (fits : c.positional.length ≤ k.fields.length)
      (names : c.keywords.names = before ++ f :: after) (admits : ∀ g ∈ before, c.Admits k g)
      (unknown : f ∉ k.fields) :
      Refused (.unknownField k f)
  | repeated {before after : List String} {f : String}
      (fits : c.positional.length ≤ k.fields.length)
      (names : c.keywords.names = before ++ f :: after) (admits : ∀ g ∈ before, c.Admits k g)
      (placed : f ∈ c.placed k) :
      Refused (.repeatedField k f)
  | missing {before after : List String} {f : String} (fits : c.positional.length ≤ k.fields.length)
      (admits : ∀ g ∈ c.keywords.names, c.Admits k g) (fields : k.fields = before ++ f :: after)
      (fills : ∀ g ∈ before, c.Fills k g) (bare : ¬ c.Fills k f) :
      Refused (.missingField k f)

def supplied? (i : Nat) (f : String) : Option Datum :=
  (c.positional[i]?.or (c.keywords.value? f)).or (lastValue? f k.defaults)

variable {k} {c}

theorem names_given : (c.given k).map (·.1) = c.placed k ++ c.keywords.names := by
  rw [given, List.map_append, names_zip]
  rfl

theorem fills_iff {f : String} : c.Fills k f ↔ k.offered? (c.given k) f ≠ none := by
  rw [Ne, Kind.offered?_eq_none_iff, names_given, List.mem_append, Fills, ← or_assoc,
    not_and_or, not_not, not_not]

section Plain

variable (plain : k.Plain)
include plain

theorem distinct_given {ps : List (String × Datum)} (distinct : (ps.map (·.1)).Nodup)
    (admits : ∀ f ∈ ps.map (·.1), c.Admits k f) :
    ((k.fields.zip c.positional ++ ps).map (·.1)).Nodup := by
  rw [List.map_append, names_zip]
  refine List.nodup_append.2 ⟨plain.distinct.sublist (List.take_sublist _ _), distinct, ?_⟩
  rintro f placed g named rfl
  exact (admits f named).2 placed

theorem assign_keywords {before rest : List (String × Datum)}
    (keywords : c.keywords.pairs = before ++ rest)
    (admits : ∀ f ∈ before.map (·.1), c.Admits k f) :
    k.assign (k.fields.zip c.positional) c.keywords.pairs =
      k.assign (k.fields.zip c.positional ++ before) rest := by
  have distinct : (before.map (·.1)).Nodup := by
    have all := c.keywords.distinct
    rw [keywords, List.map_append] at all
    exact (List.nodup_append.1 all).1
  rw [keywords]
  exact Kind.assign_append (fun p hp => (admits p.1 (List.mem_map_of_mem hp)).1)
    (distinct_given plain distinct admits) rest

theorem assign_admitted (admits : ∀ f ∈ c.keywords.names, c.Admits k f) :
    k.assign (k.fields.zip c.positional) c.keywords.pairs = .ok (c.given k) :=
  assign_keywords plain (List.append_nil _).symm admits

theorem Refused.build_eq {e : Fault} (h : c.Refused k e) (unnamed : ownName ∉ c.keywords.names) :
    k.build c.positional c.keywords.pairs = .error e := by
  cases h with
  | tooMany exceeds => exact Kind.build_of_exceeds unnamed exceeds
  | unknown fits names admits unknown =>
      obtain ⟨ps, v, qs, keywords, rfl⟩ := Keywords.pairs_of_names names
      rw [Kind.build_eq unnamed fits, assign_keywords plain keywords admits,
        Kind.assign_unknown unknown]
      rfl
  | @repeated before after f fits names admits placed =>
      obtain ⟨ps, v, qs, keywords, rfl⟩ := Keywords.pairs_of_names names
      have taken : f ∈ (k.fields.zip c.positional ++ ps).map (·.1) := by
        rw [List.map_append, names_zip]
        exact List.mem_append_left _ placed
      rw [Kind.build_eq unnamed fits, assign_keywords plain keywords admits,
        Kind.assign_repeated (List.mem_of_mem_take placed) taken]
      rfl
  | @missing before after f fits admits fields fills bare =>
      have mem : ∀ g ∈ before ++ f :: after, g ∈ k.fields := fun g hg => fields ▸ hg
      rw [List.forall_mem_append, List.forall_mem_cons] at mem
      rw [fills_iff, not_not] at bare
      have stops : k.complete (c.given k) none k.fields = .error (.missingField k f) := by
        rw [fields, plain.complete_append mem.1 fun g hg => fills_iff.1 (fills g hg),
          plain.complete_missing mem.2.1 bare]
        rfl
      rw [Kind.build_eq unnamed fits, assign_admitted plain admits]
      simp only [bind, Except.bind, stops]

theorem Complete.build_eq (h : c.Complete k) :
    k.build c.positional c.keywords.pairs = .ok (.node k (k.fill (c.given k) k.fields)) := by
  have unnamed : ownName ∉ c.keywords.names := fun mem => plain.unnamed (h.admits _ mem).1
  have offered : ∀ f ∈ k.fields, k.offered? (c.given k) f ≠ none :=
    fun f hf => fills_iff.1 (h.fills f hf)
  have filled := plain.complete_append (fun f hf => hf) offered []
  rw [List.append_nil] at filled
  rw [Kind.build_eq unnamed h.fits, assign_admitted plain h.admits]
  simp only [bind, Except.bind, filled]
  simp [Kind.complete, Except.map, pure, Except.pure]

end Plain

theorem complete_or_refused (k : Kind) (c : Arguments) : c.Complete k ∨ ∃ e, c.Refused k e := by
  rcases Nat.lt_or_ge k.fields.length c.positional.length with exceeds | fits
  · exact .inr ⟨_, .tooMany exceeds⟩
  rcases all_or_first (c.Admits k) c.keywords.names with
    admits | ⟨before, f, after, names, admits, fails⟩
  · rcases all_or_first (c.Fills k) k.fields with fills | ⟨before, f, after, fields, fills, bare⟩
    · exact .inl ⟨fits, admits, fills⟩
    · exact .inr ⟨_, .missing fits admits fields fills bare⟩
  · by_cases known : f ∈ k.fields
    · have placed : f ∈ c.placed k := by_contra fun free => fails ⟨known, free⟩
      exact .inr ⟨_, .repeated fits names admits placed⟩
    · exact .inr ⟨_, .unknown fits names admits known⟩

theorem complete_of_names (fits : c.positional.length ≤ k.fields.length)
    (distinct : ((c.given k).map (·.1)).Nodup)
    (known : ∀ f ∈ (c.given k).map (·.1), f ∈ k.fields)
    (offered : ∀ f ∈ k.fields, k.offered? (c.given k) f ≠ none) : c.Complete k := by
  rw [names_given] at distinct known
  refine ⟨fits, fun f named => ⟨known f (List.mem_append_right _ named), fun placed => ?_⟩, ?_⟩
  · exact (List.nodup_append.1 distinct).2.2 f placed f named rfl
  · exact fun f hf => fills_iff.2 (offered f hf)

theorem Complete.known (h : c.Complete k) : ∀ f ∈ (c.given k).map (·.1), f ∈ k.fields := by
  rw [names_given]
  exact List.forall_mem_append.2 ⟨fun _ => List.mem_of_mem_take, fun f hf => (h.admits f hf).1⟩

section Values

variable (plain : k.Plain)
include plain

theorem Complete.distinct (h : c.Complete k) : ((c.given k).map (·.1)).Nodup :=
  distinct_given plain c.keywords.distinct h.admits

theorem Complete.offered?_given (h : c.Complete k) {i : Nat} {f : String}
    (at_i : k.fields[i]? = some f) : k.offered? (c.given k) f = c.supplied? k i f := by
  rw [Kind.offered?, given, lastValue?_append, lastValue?_zip plain.distinct at_i, supplied?]
  refine congrArg (Option.or · _) ?_
  rw [Keywords.value?]
  cases named : lastValue? f c.keywords.pairs with
  | none => rw [Option.none_or, Option.or_none]
  | some v =>
      -- A field with a keyword is given nothing by position.
      have free := (h.admits f (List.mem_map_of_mem (mem_of_lastValue? named))).2
      have beyond : c.positional[i]? = none := List.getElem?_eq_none (Nat.le_of_not_lt fun inside =>
        free (List.mem_of_getElem? ((List.getElem?_take_of_lt inside).trans at_i)))
      rw [beyond]
      rfl

theorem attribute?_node {f : String} {i : Nat} (at_i : k.fields[i]? = some f) (vs : List Datum) :
    (node k vs).attribute? f = vs[i]? := by
  rw [attribute?, field?_eq_lastValue? plain.distinct, lastValue?_zip plain.distinct at_i]

theorem Complete.of_perm {d : Arguments} (h : c.Complete k)
    (fits : d.positional.length ≤ k.fields.length) (perm : (d.given k).Perm (c.given k)) :
    d.Complete k ∧ k.fill (d.given k) k.fields = k.fill (c.given k) k.fields := by
  have names := perm.map (·.1)
  have distinct := (names.nodup_iff).2 (h.distinct plain)
  have same (f : String) : k.offered? (d.given k) f = k.offered? (c.given k) f :=
    congrArg (Option.or · _) (lastValue?_perm distinct perm f)
  refine ⟨complete_of_names fits distinct ?_ ?_, List.map_congr_left fun f _ => by rw [same f]⟩
  · exact fun f hf => h.known f (names.mem_iff.1 hf)
  · exact fun f hf => (same f).symm ▸ fills_iff.1 (h.fills f hf)

theorem complete_of_values {vs : List Datum} (full : vs.length = k.fields.length)
    (frozen : ∀ v ∈ vs, v.freeze = v) :
    (Arguments.mk vs .empty).Complete k ∧
      k.fill ((Arguments.mk vs .empty).given k) k.fields = vs := by
  have complete : (Arguments.mk vs .empty).Complete k := by
    refine ⟨Nat.le_of_eq full, List.forall_mem_nil _, fun f hf => .inl ?_⟩
    rwa [placed, full, List.take_length]
  refine ⟨complete, Kind.values_ext (Kind.length_fill k _ _) full fun i f at_i => ?_⟩
  obtain ⟨v, held⟩ := Kind.exists_value full at_i
  rw [Kind.fill, List.getElem?_map, at_i, Option.map_some, complete.offered?_given plain at_i,
    supplied?, held]
  exact congrArg some (frozen v (List.mem_of_getElem? held))

theorem build_eq_ok {n : Datum} (h : k.build c.positional c.keywords.pairs = .ok n) :
    c.Complete k ∧ n = .node k (k.fill (c.given k) k.fields) := by
  rcases complete_or_refused k c with complete | ⟨e, refused⟩
  · rw [complete.build_eq plain] at h
    exact ⟨complete, (Except.ok.inj h).symm⟩
  -- Neither the keyword that comes before all else nor a fault of the arguments leaves a node.
  · by_cases named : ownName ∈ c.keywords.names
    · rw [Kind.build_of_ownName named] at h
      cases h
    · rw [refused.build_eq plain named] at h
      cases h

theorem refused_of_build {e : Fault} (unnamed : ownName ∉ c.keywords.names)
    (h : k.build c.positional c.keywords.pairs = .error e) : c.Refused k e := by
  rcases complete_or_refused k c with complete | ⟨e', refused⟩
  · rw [complete.build_eq plain] at h
    cases h
  · rw [refused.build_eq plain unnamed] at h
    exact Except.error.inj h ▸ refused

end Values

end Arguments

def Kind.Builds (k : Kind) (n : Datum) : Prop :=
  ∃ c : Arguments, k.build c.positional c.keywords.pairs = .ok n

namespace Kind.Plain

variable {k : Kind} (plain : k.Plain)
include plain

theorem builds_iff {n : Datum} : k.Builds n ↔ ∃ vs : List Datum,
    n = .node k vs ∧ vs.length = k.fields.length ∧ ∀ v ∈ vs, v.freeze = v := by
  constructor
  · rintro ⟨c, built⟩
    obtain ⟨_, rfl⟩ := Arguments.build_eq_ok plain built
    exact ⟨_, rfl, Kind.length_fill k _ _, Kind.freeze_fill⟩
  · rintro ⟨vs, rfl, full, frozen⟩
    obtain ⟨complete, filled⟩ := Arguments.complete_of_values plain full frozen
    exact ⟨_, (complete.build_eq plain).trans (congrArg (fun fs => Except.ok (node k fs)) filled)⟩

end Kind.Plain

theorem Datum.compareFields_self (xs : List Datum) (side : Side) :
    compare.compareFields xs side xs = xs.map fun x => x.compare side x := by
  induction xs with
  | nil => rfl
  | cons x xs ih => simp [compare.compareFields, ih]

theorem Datum.equal_self_of_fields {k : Kind} {vs : List Datum} (names : hiding? .names k vs = none)
    (fields : ∀ p ∈ k.fields.zip vs, p.2.Equal p.2) : (node k vs).Equal (node k vs) := by
  have all : ∀ p ∈ (k.fields.zip vs).map fun p => (p.1, p.2.compare .left p.2), p.2 = .ok true :=
    List.forall_mem_map.2 fields
  simp only [Equal, equals, compare, known, names, fieldNames, compareFields_self, if_true]
  rw [List.zip_map_right]
  exact agreement_of_forall all

namespace Arguments

variable {k : Kind} {c : Arguments}

theorem Refused.category {e : Fault} (h : c.Refused k e) : e.category = .wrongType := by
  cases h <;> rfl

section Built

variable (plain : k.Plain)
include plain

theorem category_of_build {e : Fault} (h : k.build c.positional c.keywords.pairs = .error e) :
    e.category = .wrongType := by
  by_cases named : ownName ∈ c.keywords.names
  · rw [Kind.build_of_ownName named] at h
    cases h
    rfl
  · exact (refused_of_build plain named h).category

theorem Complete.holds (h : c.Complete k) {i : Nat} {f : String} (at_i : k.fields[i]? = some f) :
    ∃ v, c.supplied? k i f = some v ∧
      (node k (k.fill (c.given k) k.fields)).attribute? f = some v.freeze := by
  have offered := fills_iff.1 (h.fills f (List.mem_of_getElem? at_i))
  obtain ⟨v, found⟩ := Option.ne_none_iff_exists'.1 offered
  refine ⟨v, (h.offered?_given plain at_i).symm.trans found, ?_⟩
  rw [attribute?_node plain at_i, Kind.fill, List.getElem?_map, at_i, Option.map_some, found]
  rfl

theorem Complete.build_of_perm {d : Arguments} (h : c.Complete k)
    (fits : d.positional.length ≤ k.fields.length) (perm : (d.given k).Perm (c.given k)) :
    k.build d.positional d.keywords.pairs = .ok (node k (k.fill (c.given k) k.fields)) := by
  obtain ⟨complete, filled⟩ := h.of_perm plain fits perm
  rw [complete.build_eq plain, filled]

theorem build_of_entries {vs : List Datum} {d : Arguments} (full : vs.length = k.fields.length)
    (frozen : ∀ v ∈ vs, v.freeze = v) (fits : d.positional.length ≤ k.fields.length)
    (perm : (d.given k).Perm (k.fields.zip vs)) :
    k.build d.positional d.keywords.pairs = .ok (node k vs) := by
  obtain ⟨complete, filled⟩ := complete_of_values plain full frozen
  have same : (Arguments.mk vs .empty).given k = k.fields.zip vs := List.append_nil _
  rw [complete.build_of_perm plain fits (same ▸ perm), filled]

end Built

/-- Arguments build a node exactly when they are complete. A keyword by the name under which the
node itself goes fails before all else; any others that are not complete fail with the first of
their faults. What is built holds the values supplied, and comes of every other way to give the same
values, and again of its own. -/
theorem build_told {k : Kind} (plain : k.Plain) (c : Arguments) :
    ((∃ n, k.build c.positional c.keywords.pairs = .ok n) ↔ c.Complete k) ∧
    (∀ e, k.build c.positional c.keywords.pairs = .error e → e.category = .wrongType) ∧
    (ownName ∈ c.keywords.names →
      k.build c.positional c.keywords.pairs = .error (.ownName .building)) ∧
    (ownName ∉ c.keywords.names →
      ∀ e, k.build c.positional c.keywords.pairs = .error e ↔ c.Refused k e) ∧
    ∀ n, k.build c.positional c.keywords.pairs = .ok n →
      (∃ vs, n = .node k vs ∧ vs.length = k.fields.length) ∧
      (∀ i f, k.fields[i]? = some f →
        ∃ v, c.supplied? k i f = some v ∧ n.attribute? f = some v.freeze) ∧
      ∃ entries, n.namedFields = .ok entries ∧
        (∀ d : Arguments, d.positional.length ≤ k.fields.length →
          (d.given k).Perm (c.given k) ∨ (d.given k).Perm entries →
            k.build d.positional d.keywords.pairs = .ok n) ∧
        ((∀ p ∈ entries, p.2.Equal p.2) → n.Equal n) := by
  refine ⟨⟨fun ⟨n, built⟩ => (build_eq_ok plain built).1, fun complete =>
    ⟨_, complete.build_eq plain⟩⟩, fun e => category_of_build plain, Kind.build_of_ownName,
    fun unnamed e => ⟨refused_of_build plain unnamed,
      fun refused => refused.build_eq plain unnamed⟩, fun n built => ?_⟩
  obtain ⟨complete, rfl⟩ := build_eq_ok plain built
  have full := k.length_fill (c.given k) k.fields
  refine ⟨⟨_, rfl, full⟩, fun i f => complete.holds plain, _, plain.namedFields_eq _,
    fun d fits same => ?_, equal_self_of_fields (plain.hiding?_eq_none .names _)⟩
  rcases same with same | same
  · exact complete.build_of_perm plain fits same
  · exact build_of_entries plain full Kind.freeze_fill fits same

def annotated : Kind :=
  .derived 0 none "Annotated" ["name", "value", "notes"] [("notes", .list [.text "a"])]
    (.builtin .binding)

def annotating : Arguments where
  positional := [.text "f"]
  keywords := ⟨[("value", .list [.int 1])], by decide⟩

theorem annotating_built :
    annotated.Plain ∧ annotating.Complete annotated ∧
      ∃ n, annotated.build [.text "f"] [("value", .list [.int 1])] = .ok n ∧
        n.attribute? "value" = some (.tuple [.int 1]) ∧
        n.attribute? "notes" = some (.tuple [.text "a"]) ∧
        annotated.build [] [("value", .list [.int 1]), ("name", .text "f")] = .ok n := by
  have plain : annotated.Plain :=
    ⟨by decide, fun o => by cases o <;> decide, fun r => by cases r <;> decide, by decide⟩
  have complete : annotating.Complete annotated := by decide
  obtain ⟨builds, _, _, _, told⟩ := build_told plain annotating
  obtain ⟨n, built⟩ := builds.2 complete
  obtain ⟨_, holds, entries, _, again, _⟩ := told n built
  obtain ⟨v, given, value⟩ := holds 1 "value" rfl
  obtain ⟨w, default, notes⟩ := holds 2 "notes" rfl
  cases given
  cases default
  let byName : Arguments := ⟨[], ⟨[("value", .list [.int 1]), ("name", .text "f")], by decide⟩⟩
  exact ⟨plain, complete, n, built, value, notes,
    again byName (by decide) (.inl (List.Perm.swap _ _ []))⟩

theorem overfull_ownName :
    let k : Kind := .builtin .identifier
    let args : List Datum := [.text "x", .text "y"]
    k.Plain ∧ k.fields.length < args.length ∧
      k.build args [(ownName, .int 1)] = .error (.ownName .building) ∧
      (Fault.ownName .building).message ≠ (Fault.tooManyArguments k args.length).message := by
  exact ⟨Kind.plain_builtin .identifier, by decide, rfl, by decide⟩

end Arguments

end ScopeResolution
