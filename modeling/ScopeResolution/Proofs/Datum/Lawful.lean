import ScopeResolution.Proofs.Datum.Closed

namespace ScopeResolution

theorem Datum.closed_regular : Datum.Closed fun d => d.regular = true where
  number h := h
  items h items := Datum.regular_all_iff.1 (Datum.regular_of_tupleItems? items h)
  list h := Datum.regular_all_iff.1 h
  names h := (Datum.regular_node h).1
  full h := (Datum.regular_node h).2.2.1
  fields h := Datum.regular_all_iff.1 (Datum.regular_node h).2.2.2

namespace Keyed

def same (k l : Keyed) : Bool :=
  match k.datum.equals l.datum with
  | .ok r => r
  | .error _ => false

structure Lawful (K : Keyed → Prop) : Prop where
  alike {k l : Keyed} : K k → K l → k.datum.resembles l.datum = true → k.same l = true
  answers {k l : Keyed} : K k → K l → ∃ r, k.datum.equals l.datum = .ok r
  key_eq {k l : Keyed} : K k → K l → k.same l = true → k.key = l.key
  symm {k l : Keyed} : K k → K l → k.same l = true → l.same k = true
  trans {k l m : Keyed} : K k → K l → K m → k.same l = true → l.same m = true → k.same m = true

namespace Lawful

variable {K : Keyed → Prop} {k l m : Keyed}

theorem meets_eq (lawful : Lawful K) (hk : K k) (hl : K l) : k.meets l = .ok (k.same l) := by
  by_cases keys : k.key = l.key
  · rw [meets, if_pos keys]
    split
    · rw [lawful.alike hk hl ‹_›]
    · obtain ⟨r, found⟩ := lawful.answers hk hl
      rw [same, found]
  · rw [meets_of_key_ne keys]
    cases found : k.same l with
    | false => rfl
    | true => exact absurd (lawful.key_eq hk hl found) keys

theorem same_self (lawful : Lawful K) (hk : K k) : k.same k = true :=
  lawful.alike hk hk k.datum.resembles_self

theorem same_congr (lawful : Lawful K) (hk : K k) (hl : K l) (hm : K m) (h : l.same m = true) :
    k.same l = k.same m := by
  rw [Bool.eq_iff_iff]
  exact ⟨fun first => lawful.trans hk hl hm first h,
    fun first => lawful.trans hk hm hl first (lawful.symm hl hm h)⟩

end Lawful

theorem lawful_of_closed {C : Datum → Prop} (closed : Datum.Closed C) :
    Lawful fun k => C k.datum := by
  have told {k l : Keyed} (hk : C k.datum) (hl : C l.datum) :
      k.datum.equals l.datum = .ok (decide (k.datum.essence = l.datum.essence)) :=
    closed.tells k.datum hk .left l.datum hl
  have same_iff {k l : Keyed} (hk : C k.datum) (hl : C l.datum) :
      k.same l = true ↔ k.datum.essence = l.datum.essence := by
    rw [same, told hk hl, decide_eq_true_eq]
  refine ⟨fun hk hl alike => (same_iff hk hl).2 (Datum.essence_of_resembles alike),
    fun hk hl => ⟨_, told hk hl⟩, fun {k l} hk hl h => ?_, fun hk hl h => ?_,
    fun hk hl hm h h' => ?_⟩
  · have keys : k.datum.key = l.datum.key := by
      rw [closed.key_eq _ hk, closed.key_eq _ hl, (same_iff hk hl).1 h]
    rw [k.key_eq, l.key_eq] at keys
    exact Except.ok.inj keys
  · exact (same_iff hl hk).2 ((same_iff hk hl).1 h).symm
  · exact (same_iff hk hm).2 (((same_iff hk hl).1 h).trans ((same_iff hl hm).1 h'))

theorem lawful_regular : Lawful fun k => k.datum.regular = true :=
  lawful_of_closed Datum.closed_regular

end Keyed

def selectiveKind : Kind :=
  .derived 0 none "Selective" [Own.names.name, "a", "b", "c"] [] (.builtin .node)

def Datum.selective (counted : String) (a b c : Int) : Datum :=
  .node selectiveKind [.tuple [.text counted], .int a, .int b, .int c]

end ScopeResolution
