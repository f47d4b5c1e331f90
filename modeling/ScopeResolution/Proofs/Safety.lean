import Mathlib.Algebra.Group.Int.Defs
import ScopeResolution.Proofs.Balance
import ScopeResolution.Session

namespace ScopeResolution

namespace Resolver

def settings (r : Resolver) : Option Datum × Limits :=
  (r.supply.pinned, r.limits)

theorem settings_exit (r : Resolver) : r.exit.2.settings = r.settings := by
  unfold exit
  split <;> rfl

theorem Secures.settings {r r' : Resolver} (h : r.Secures r') : r'.settings = r.settings :=
  Prod.ext h.pinned h.limits

end Resolver

namespace Session

theorem report_snd (p : Except Fault Reply × Resolver) : (report p).2 = p.2 := by
  unfold report
  split <;> rfl

theorem exit_leave (r : Resolver) (ended : Except Fault Reply) : (leave r ended).2 = r.exit.2 := by
  rw [leave]
  split
  case h_1 left => rw [left]
  case h_2 left => rw [left]

/-- A property of resolvers that the admitted steps keep, be it within a block or not. -/
structure Invariant (admits : Step → Prop) (each : List Step → Prop) (P : Resolver → Prop) :
    Prop where
  block {steps : List Step} {raises : Option Fault} : admits (.within steps raises) → each steps
  cons {s : Step} {ss : List Step} : each (s :: ss) → admits s ∧ each ss
  enter {r : Resolver} : P r → P r.enter
  exit {r : Resolver} : P r → P r.exit.2
  insert {symbol value : Datum} {r : Resolver} :
    admits (.insert symbol value) → P r → P (r.insert symbol value).2
  pin {uid : Datum} {r : Resolver} :
    admits (.pin uid) → P r → P { r with supply := { r.supply with pinned := some uid } }
  secures {r r' : Resolver} : r.Secures r' → P r → P r'

namespace Invariant

variable {admits : Step → Prop} {each : List Step → Prop} {P : Resolver → Prop}

mutual

theorem run (inv : Invariant admits each P) (extent : Renaming.Extent) : (s : Step) →
    admits s → (r : Resolver) → P r → P (run extent s r).2
  | .enter, _, r, h => by
      rw [Session.run, report_snd]
      exact inv.enter h
  | .exit, _, r, h => by
      rw [Session.run, report_snd]
      exact inv.exit h
  | .within steps raises, admitted, r, h => by
      rw [Session.run, report_snd, exit_leave]
      exact inv.exit (inv.runAll extent steps (inv.block admitted) r.enter (inv.enter h))
  | .insert symbol value, admitted, r, h => by
      rw [Session.run, report_snd]
      exact inv.insert admitted h
  | .fresh symbol, _, r, h => by
      rw [Session.run, report_snd]
      exact inv.secures (Resolver.secures_freshName symbol r) h
  | .rename tree, _, r, h => by
      rw [Session.run, report_snd]
      exact inv.secures (Resolver.rename_keeps extent tree r).moves h
  | .pin uid, admitted, r, h => by
      rw [Session.run, report_snd]
      exact inv.pin admitted h
  | .lookup _, _, r, h
  | .require _, _, r, h
  | .get _ _, _, r, h
  | .contains _, _, r, h
  | .items, _, r, h
  | .frames, _, r, h
  | .equals _, _, r, h
  | .render, _, r, h
  | .nameOf _, _, r, h
  | .malformed _, _, r, h => by
      rw [Session.run]
      exact (report_snd _).symm ▸ h

theorem runAll (inv : Invariant admits each P) (extent : Renaming.Extent) :
    (steps : List Step) → each steps → (r : Resolver) → P r → P (run.runAll extent steps r).2
  | [], _, _, h => h
  | s :: ss, admitted, r, h => by
      have first := inv.run extent s (inv.cons admitted).1 r h
      rw [run.runAll]
      split
      case h_1 same => rwa [same] at first
      case h_2 same =>
        rw [same] at first
        exact inv.runAll extent ss (inv.cons admitted).2 _ first

end

end Invariant

def nested : Nat → Datum
  | 0 => .int 1
  | n + 1 => .tuple [nested n]

end Session

end ScopeResolution
