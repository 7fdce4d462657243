/-
  PropertyGraph.Decimal.Power

  Powers of the two bases that numbers are written in.
-/

namespace PropertyGraph.Decimal

/-- Two to the power `k`. -/
def twoTo (k : Nat) : Nat := Nat.pow 2 k

/-- Ten to the power `k`. -/
def tenTo (k : Nat) : Nat := Nat.pow 10 k

theorem twoTo_pos (k : Nat) : 0 < twoTo k := Nat.pow_pos (by decide)

theorem tenTo_pos (k : Nat) : 0 < tenTo k := Nat.pow_pos (by decide)

end PropertyGraph.Decimal
