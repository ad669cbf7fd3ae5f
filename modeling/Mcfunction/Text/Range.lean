/-! Classes of characters given by a table: a class is the union of the ranges of code points, both ends
included, that its table lists in increasing order. A long table is written as the lengths of its runs. -/

namespace Mcfunction.Text

def inRanges (table : List (Nat × Nat)) (c : Char) : Bool :=
  table.any fun (low, high) => low ≤ c.toNat && c.toNat ≤ high

/-- The ranges of a table that says in turn how many code points from `first` on lie outside and how many then lie in a
row inside. -/
def runs (first : Nat) : List Nat → List (Nat × Nat)
  | outside :: inside :: rest =>
    (first + outside, first + outside + inside - 1) :: runs (first + outside + inside) rest
  | _ => []

end Mcfunction.Text
