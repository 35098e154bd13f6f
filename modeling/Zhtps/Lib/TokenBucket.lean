import Mathlib

/-!
Accounting for a token bucket.

A bucket starts with a balance, is credited over time and pays a fixed
cost for every grant. Whatever caps are put on the balance, grants are
covered by what was ever put in: `Covered` states this as an inequality
that every operation keeps, and from which the bound on the number of
grants can be read off.
-/

namespace Lib

/-- The balance and what the grants have cost are covered by the opening
balance and the credit. -/
def Covered (cost opening balance granted credited : Nat) : Prop :=
  balance + cost * granted ≤ opening + credited

namespace Covered

variable {cost opening balance granted credited : Nat}

theorem start (cost opening : Nat) : Covered cost opening opening 0 0 := by
  simp [Covered]

/-- A refill that adds at most the credit, capped or not, keeps the cover. -/
theorem credit {balance' more : Nat} (h : Covered cost opening balance granted credited)
    (hle : balance' ≤ balance + more) :
    Covered cost opening balance' granted (credited + more) := by
  unfold Covered at h ⊢
  omega

theorem spend (h : Covered cost opening balance granted credited) (hcost : cost ≤ balance) :
    Covered cost opening (balance - cost) (granted + 1) credited := by
  unfold Covered at h ⊢
  rw [Nat.mul_add, Nat.mul_one]
  omega

theorem bound (h : Covered cost opening balance granted credited) :
    cost * granted ≤ opening + credited := by
  unfold Covered at h
  omega

end Covered

end Lib
