import ScopeResolution.Names.Collection
import ScopeResolution.Proofs.Traversal.Ending

namespace ScopeResolution

open Datum Traversal Traversal.Routine

inductive Mention where
  | name (role : Role) (d : Datum)
  | fault (f : Fault)

namespace Names

def mentionsBelow (d : Datum) (go : Part d → List Mention) : List Mention :=
  d.children.flatMap go ++ d.entriesFault?.toList.map .fault

def mentionsAt (d : Datum) (a : String) (told : Part d → List Mention) : List Mention :=
  match d.part a with
  | .ok x => told x
  | .error e => [.fault e]

def Rule.mentions (d : Datum) (go : Part d → List Mention) : Rule → List Mention
  | .through a => mentionsAt d a go
  | .leaf role a => mentionsAt d a fun x => [.name role x.1]
  | .head role a => mentionsAt d a fun x => .name role x.1 :: mentionsBelow d go

def mentionsNode (d : Datum) (go : Part d → List Mention) : List Mention :=
  match ruleOf? d with
  | some rule => rule.mentions d go
  | none => mentionsBelow d go

end Names

def Datum.mentions (d : Datum) : List Mention :=
  Names.mentionsNode d fun c => mentions c.1
termination_by d.size
decreasing_by exact c.2

namespace NameSet

def record (roles : Roles) : List Mention → NameSet → Outcome NameSet Fault Unit
  | [], s => (.ok (), s)
  | .fault f :: _, s => (.error f, s)
  | .name role d :: rest, s =>
      if roles.asksFor role then
        match s.insert d with
        | (.ok (), s) => record roles rest s
        | (.error e, s) => (.error e, s)
      else record roles rest s

def gather (roles : Roles) (ms : List Mention) : Except Fault NameSet :=
  match record roles ms empty with
  | (.ok (), s) => .ok s
  | (.error e, _) => .error e

theorem record_append (roles : Roles) (ms ns : List Mention) (s : NameSet) :
    record roles (ms ++ ns) s = match record roles ms s with
      | (.ok (), t) => record roles ns t
      | (.error e, t) => (.error e, t) := by
  induction ms generalizing s with
  | nil => rfl
  | cons m ms ih =>
      cases m with
      | fault f => rfl
      | name role d =>
          simp only [List.cons_append, record]
          split
          · rcases s.insert d with ⟨out, t⟩
            cases out with
            | ok => exact ih t
            | error e => rfl
          · exact ih s

end NameSet

namespace Names

open NameSet (record)

variable {κ α β : Type} {go : κ → NameSet → Outcome NameSet Fault Unit} {roles : Roles}

def Tells (roles : Roles) (go : κ → NameSet → Outcome NameSet Fault Unit)
    (r : Routine κ NameSet Fault Unit α) (ms : List Mention) : Prop :=
  ∀ s, ∃ out, r.Ends go s out (record roles ms s).2 ∧
    out.map (fun _ => ()) = (record roles ms s).1

theorem tells_of_ends {r : Routine κ NameSet Fault Unit Unit} {ms : List Mention}
    (h : ∀ s, r.Ends go s (record roles ms s).1 (record roles ms s).2) : Tells roles go r ms := by
  intro s
  refine ⟨_, h s, ?_⟩
  cases (record roles ms s).1 <;> rfl

theorem tells_pure (a : α) : Tells roles go (pure a) [] :=
  fun _ => ⟨.ok a, ends_pure a, rfl⟩

theorem Tells.bind {r : Routine κ NameSet Fault Unit α} {f : α → Routine κ NameSet Fault Unit β}
    {ms ns : List Mention} (first : Tells roles go r ms) (next : ∀ a, Tells roles go (f a) ns) :
    Tells roles go (r >>= f) (ms ++ ns) := by
  intro s
  obtain ⟨out, ended, same⟩ := first s
  rw [NameSet.record_append]
  rcases told : record roles ms s with ⟨result, t⟩
  rw [told] at ended same
  cases out with
  | error e =>
      cases same
      exact ⟨.error e, ended.bind_error, rfl⟩
  | ok a =>
      cases same
      obtain ⟨out, ended', same'⟩ := next a t
      exact ⟨out, ended.bind_ok ended', same'⟩

theorem Tells.bind_pure {r : Routine κ NameSet Fault Unit α} {ms : List Mention} (f : α → β)
    (h : Tells roles go r ms) : Tells roles go (r >>= fun a => pure (f a)) ms := by
  have both : Tells roles go (r >>= fun a => pure (f a)) (ms ++ []) :=
    h.bind fun a => tells_pure (f a)
  rwa [List.append_nil] at both

theorem tells_add {d : Datum} {go : Part d → NameSet → Outcome NameSet Fault Unit} (role : Role)
    (name : Datum) : Tells roles go (add roles role name) [.name role name] := by
  refine tells_of_ends fun s => ?_
  simp only [record, add]
  split
  · have ended : Ends go (perform (NameSet.insert name)) s _ _ := ends_perform _
    rcases taken : s.insert name with ⟨out, t⟩
    rw [taken] at ended
    cases out <;> exact ended
  · exact ends_done ()

theorem tells_call {c : κ} {ms : List Mention} (h : ∀ s, go c s = record roles ms s) :
    Tells roles go (call c) ms := by
  refine tells_of_ends fun s => ?_
  rw [← h s]
  exact ends_call c

theorem tells_mapM {f : κ → Routine κ NameSet Fault Unit α} {told : κ → List Mention}
    (h : ∀ c, Tells roles go (f c) (told c)) (cs : List κ) :
    Tells roles go (cs.mapM f) (cs.flatMap told) := by
  induction cs with
  | nil =>
      rw [List.mapM_nil]
      exact tells_pure []
  | cons c cs ih =>
      rw [List.mapM_cons, List.flatMap_cons]
      exact (h c).bind fun result => ih.bind_pure (result :: ·)

theorem tells_finishEntries (d : Datum) :
    Tells roles go (finishEntries d) (d.entriesFault?.toList.map .fault) := by
  refine tells_of_ends fun s => ?_
  rw [finishEntries]
  cases d.entriesFault? with
  | none => exact ends_done ()
  | some fault => exact ends_fail fault

section Collection

variable {d : Datum} {go : Part d → NameSet → Outcome NameSet Fault Unit}
  {told : Part d → List Mention}

theorem tells_collectBelow (h : ∀ c s, go c s = record roles (told c) s) :
    Tells roles go (collectBelow d) (mentionsBelow d told) := by
  have children := tells_mapM (f := call) (fun c => tells_call (h c)) d.children
  have below := children.bind fun results =>
    (tells_finishEntries d).bind_pure fun _ => results
  exact below.bind_pure fun _ => ()

theorem tells_part (a : String) {f : Part d → Routine (Part d) NameSet Fault Unit Unit}
    (h : ∀ x, Tells roles go (f x) (told x)) :
    Tells roles go (ofExcept (d.part a) >>= f) (mentionsAt d a told) := by
  unfold mentionsAt
  cases d.part a with
  | ok x => exact h x
  | error e => exact tells_of_ends fun _ => ends_fail e

theorem tells_rule (rule : Rule) (h : ∀ c s, go c s = record roles (told c) s) :
    Tells roles go (rule.collect roles d) (rule.mentions d told) := by
  cases rule with
  | through a => exact tells_part a fun x => tells_call (h x)
  | leaf role a => exact tells_part a fun x => tells_add role x.1
  | head role a =>
      exact tells_part a fun x => (tells_add role x.1).bind fun _ => tells_collectBelow h

theorem tells_collectNode (h : ∀ c s, go c s = record roles (told c) s) :
    Tells roles go (collectNode roles d) (mentionsNode d told) := by
  unfold mentionsNode collectNode
  cases ruleOf? d with
  | some rule => exact tells_rule rule h
  | none => exact tells_collectBelow h

end Collection

theorem recurse_eq_record (roles : Roles) (d : Datum) (s : NameSet) :
    (visitor roles).recurse d s = record roles d.mentions s := by
  induction d using size_wf.induction generalizing s with
  | _ d ih =>
      obtain ⟨out, ended, same⟩ := tells_collectNode (fun c s => ih c.1 c.2 s) s
      rw [Visitor.recurse_eq, mentions]
      refine ended.run_eq.trans (Prod.ext ?_ rfl)
      rw [← same]
      cases out <;> rfl

end Names

theorem Datum.names_eq_gather (roles : Roles) (d : Datum) :
    d.names roles = NameSet.gather roles d.mentions := by
  rw [names, Visitor.drive_eq_recurse, Names.recurse_eq_record]
  rfl

end ScopeResolution
