import ScopeResolution.Datum.Basic

namespace ScopeResolution

def Kind.settle (place : Nat) : Kind → Kind
  | .derived i none name fields defaults base =>
      .derived i (some place) name fields defaults base
  | k => k

namespace Kind

def place? : Kind → Option Nat
  | .builtin _ => none
  | .derived _ p _ _ _ _ => p

/-- Whether two nodes of these kinds that look the same are one and the same. -/
def shared (k l : Kind) : Bool :=
  k.tag == l.tag && match k with
    | .builtin _ => true
    | .derived _ p _ _ _ _ => p.isSome && p == l.place?

end Kind

namespace Datum

def settle : Datum → Nat → Datum
  | .list xs, free => .list (settleAll xs free)
  | .tuple xs, free => .tuple (settleAll xs free)
  | .name s u, free => .name (settle s free) (settle u (free + s.size))
  | .node k fs, free => .node (k.settle free) (settleAll fs (free + 1))
  | d, _ => d
where
  settleAll : List Datum → Nat → List Datum
    | [], _ => []
    | d :: ds, free => settle d free :: settleAll ds (free + d.size)

def matching (alike : Kind → Kind → Bool) : Datum → Datum → Bool
  | .null, .null => true
  | .bool a, .bool b => a == b
  | .int m, .int n => m == n
  | .real c, .real d => c == d
  | .text s, .text t => s == t
  | .list xs, .list ys => all xs ys
  | .tuple xs, .tuple ys => all xs ys
  | .name s u, .name t v => matching alike s t && matching alike u v
  | .node k xs, .node l ys => alike k l && all xs ys
  | _, _ => false
where
  all : List Datum → List Datum → Bool
    | [], [] => true
    | x :: xs, y :: ys => matching alike x y && all xs ys
    | _, _ => false

def identical : Datum → Datum → Bool :=
  matching Kind.shared

def resembles : Datum → Datum → Bool :=
  matching fun k l => k.tag == l.tag

mutual

theorem resembles_self : (d : Datum) → d.resembles d = true
  | .null | .bool _ | .int _ | .real _ | .text _ => by simp [resembles, matching]
  | .list xs => all_resemble xs
  | .tuple xs => all_resemble xs
  | .name s u => by
      have symbol := resembles_self s
      have uid := resembles_self u
      simp_all [resembles, matching]
  | .node k xs => by
      have fields := all_resemble xs
      simp_all [resembles, matching]

theorem all_resemble : (ds : List Datum) → matching.all (fun k l => k.tag == l.tag) ds ds = true
  | [] => rfl
  | d :: ds => by
      have head := resembles_self d
      have tail := all_resemble ds
      simp_all [resembles, matching.all]

end

end Datum

end ScopeResolution
