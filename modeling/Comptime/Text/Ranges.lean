/-! Sets of characters given by ranges of code points. The tables are those of Unicode 17. -/
namespace Comptime.Text

/-- Ranges of code points, both ends included, in ascending order. -/
abbrev Ranges := List (Nat × Nat)

/-- Whether a character is in one of the ranges. Those that start after it are not looked at. -/
def Ranges.has (rs : Ranges) (c : Char) : Bool :=
  match rs with
  | [] => false
  | (first, last) :: rs => first ≤ c.toNat && (c.toNat ≤ last || Ranges.has rs c)

end Comptime.Text
