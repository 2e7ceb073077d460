/-! Powers of the bases that numbers are written in. -/
namespace Diversity

/-- Two to the power of `k`. -/
def pow2 (k : Nat) : Nat := Nat.pow 2 k

/-- Ten to the power of `k`. -/
def pow10 (k : Nat) : Nat := Nat.pow 10 k

end Diversity
