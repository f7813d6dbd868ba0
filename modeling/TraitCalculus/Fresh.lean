/-! Fresh names: a running number behind a mark that no identifier of the source holds. -/
namespace TraitCalculus

/-- Computations that draw fresh names; the state counts the names drawn so far. -/
abbrev Fresh := StateM Nat

/-- The `k`-th fresh name, drawn in place of `base`. -/
def freshName (base : String) (k : Nat) : String := base ++ "$" ++ toString k

/-- Draws a fresh name in place of `base`. -/
def Fresh.draw (base : String) : Fresh String := fun k => (freshName base (k + 1), k + 1)

/-- Names in increasing order, each once. -/
def sortedNames (xs : List String) : List String :=
  (xs.mergeSort (· ≤ ·)).eraseReps

end TraitCalculus
