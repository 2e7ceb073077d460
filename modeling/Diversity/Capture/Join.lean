import Diversity.Capture.Basic
/-! The join of two captures of one variable. -/
namespace Diversity

namespace Expr

/-- Both are literals, and equal ones. -/
def sameLiteral : Expr → Expr → Bool
  | .value _ a, .value _ b => a == b
  | _, _ => false

end Expr

namespace Capture

/-- The address `c` of `inner` serves all that `inner` alone would have served. -/
def absorb (c inner joined : Capture) : Capture := if joined.sameShape inner then c else joined

/-- The most general capture that both can be expressed through. -/
def join : Capture → Capture → Capture
  | .ref a, .ref b => .ref (join a b)
  | .ref a, .assigned b | .assigned a, .ref b | .assigned a, .assigned b => .assigned (join a b)
  | .ref a, d => absorb (.ref a) a (join a d)
  | .assigned a, d => absorb (.assigned a) a (join a d)
  | c, .ref b => absorb (.ref b) b (join b c)
  | c, .assigned b => absorb (.assigned b) b (join b c)
  | .base e, _ => .base e
  | _, .base e => .base e
  | .deref a, .deref b => .deref (join a b)
  | .index a i, .index b j => if i.sameLiteral j then .index (join a b) i else join a b
  | .deref a, .index b _ | .index a _, .deref b => join a b
termination_by c d => c.depth + d.depth
decreasing_by all_goals simp only [depth]; omega

/-- The join of two captures, which must be of one variable. -/
def maximal (c d : Capture) : Except SynthesisError Capture :=
  if c.key = d.key then .ok (c.join d)
  else .error (.incompatibleCapture c.text d.text c.root.text)

end Capture

end Diversity
