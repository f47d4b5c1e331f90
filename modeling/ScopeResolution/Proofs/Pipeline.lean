import ScopeResolution.Pipeline.Basic
import ScopeResolution.Proofs.Refinement

namespace ScopeResolution

theorem Datum.eq_text_of_key {d : Datum} {s : String} (h : d.key = .ok (.text s)) :
    d = .text s := by
  cases d with
  | null => cases h
  | bool b => cases h
  | int n => cases h
  | real x =>
      simp only [Datum.key, Key.ofReal, Except.ok.injEq] at h
      split at h
      · cases h
      · split_ifs at h <;> cases h
  | text t =>
      simp only [Datum.key, Key.ofText, Except.ok.injEq] at h
      split_ifs at h
      exact congrArg Datum.text (Key.text.inj h)
  | list xs => cases h
  | tuple xs =>
      rw [Datum.key] at h
      cases keys : key.keys xs <;> rw [keys] at h <;> cases h
  | name x u =>
      rw [Datum.key] at h
      cases symbol : x.key <;> cases uid : u.key <;> rw [symbol, uid] at h <;> cases h
  | node k fs =>
      rw [Datum.key] at h
      split at h
      · cases keys : key.keys fs <;> rw [keys] at h <;> cases h
      · split at h
        · cases h
        · simp only [bind, Except.bind] at h
          split at h <;> cases h

namespace Keyed

theorem meets_text (k : Keyed) {s : String} (h : s ≠ "") : ∃ b, k.meets (.ofText s) = .ok b := by
  by_cases same : k.key = (ofText s).key
  · have key : (ofText s).key = .text s := if_neg h
    have text : k.datum = .text s := Datum.eq_text_of_key (k.key_eq.trans (by rw [same, key]))
    refine ⟨true, ?_⟩
    simp [meets, same, text, ofText, Datum.equals, Datum.compare]
  · exact ⟨false, meets_of_key_ne same⟩

end Keyed

theorem Slot.store_text {s : String} (h : s ≠ "") (v : Datum) (slots : List Slot) :
    ∃ after, store (.ofText s) v slots = .ok after := by
  induction slots with
  | nil => exact ⟨_, rfl⟩
  | cons t rest ih =>
      obtain ⟨b, met⟩ := t.under.meets_text h
      obtain ⟨after, stored⟩ := ih
      cases b with
      | true => exact ⟨{ t with value := v } :: rest, by rw [store, met]; rfl⟩
      | false => exact ⟨t :: after, by rw [store, met, stored]; rfl⟩

theorem Dictionary.put_text (d : Dictionary) {s : String} (h : s ≠ "") (v : Datum) :
    ∃ e, d.put (.ofText s) v = .ok e ∧ e.get? (.ofText s) = .ok (some v) := by
  obtain ⟨after, stored⟩ := Slot.store_text h v d.toList
  rw [← toList_put] at stored
  cases put : d.put (.ofText s) v with
  | error e =>
      rw [put] at stored
      cases stored
  | ok e => exact ⟨e, rfl, get?_of_put_self put⟩

namespace Workspace

open Renaming (Extent Renames)

def lastUid (w : Workspace) : Except Fault (Option Datum) :=
  w.metadata.get? (.ofText "last_uid")

theorem rename_of_renames {extent : Extent} {tree renamed : Datum} {c : Context}
    (h : Renames extent tree .initial renamed c) (w : Workspace) :
    ∃ w', w.rename extent tree = (.ok renamed, w') ∧
      w'.lastUid = .ok (some (.int c.last)) := by
  have shown : Resolver.Shows { Resolver.initial with log := w.log } .initial :=
    Resolver.shows_initial.of_same rfl rfl rfl
  obtain ⟨r, done, _, after⟩ := h _ shown
  rw [← Resolver.rename_eq_recurse] at done
  have named : "last_uid" ≠ "" := by decide
  obtain ⟨m, put, found⟩ := w.metadata.put_text named (.int r.counter)
  refine ⟨{ w with log := r.log, metadata := m }, ?_, ?_⟩
  · simp only [rename, done, put]
  · rw [lastUid, found, after.counter]

end Workspace

namespace Pass

open Renaming (Extent Renames)

theorem apply_rename {extent : Extent} {tree renamed : Datum} {c : Context}
    (kind : extent? tree = some extent) (h : Renames extent tree .initial renamed c)
    (w : Workspace) :
    ∃ w', rename.apply tree w = (.ok renamed, w') ∧ w'.lastUid = .ok (some (.int c.last)) := by
  obtain ⟨w', done, noted⟩ := w.rename_of_renames h
  refine ⟨w', ?_, noted⟩
  rw [apply, kind]
  exact done

end Pass

namespace Pipeline

open Renaming (Extent Renames)

theorem runPasses_rename {extent : Extent} {tree renamed : Datum} {c : Context}
    (kind : Pass.extent? tree = some extent) (h : Renames extent tree .initial renamed c)
    (ps : List Pass) (w : Workspace) :
    ∃ w', runPasses (.rename :: ps) tree w = runPasses ps renamed w' ∧
      w'.lastUid = .ok (some (.int c.last)) := by
  obtain ⟨w', done, noted⟩ := Pass.apply_rename kind h w
  refine ⟨w', ?_, noted⟩
  rw [runPasses, done]

end Pipeline

end ScopeResolution
