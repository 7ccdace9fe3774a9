import Mathlib.Algebra.Group.Nat.Defs

/-!
The bounds of the machine's integers and additions that stay within them. A `usize` has the 64
bits of a `u64`.
-/

namespace Cusco

def u32Max : ℕ := 2 ^ 32 - 1

/-- The largest `u64`, and the largest `usize`. -/
def u64Max : ℕ := 2 ^ 64 - 1

def saturatingAdd (a b : ℕ) : ℕ := min (a + b) u64Max

def checkedAdd (a b : ℕ) : Option ℕ := if a + b ≤ u64Max then some (a + b) else none

def hexEncode (bytes : List UInt8) : String :=
  String.ofList (bytes.flatMap (fun b =>
    [Nat.digitChar (b.toNat / 16), Nat.digitChar (b.toNat % 16)]))

end Cusco
