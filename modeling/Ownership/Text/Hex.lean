/-!
# Hexadecimal digits of a fixed width

`hex w n` writes `n` in lower-case hexadecimal, filled up with zeros to `w` digits; a larger number
keeps all its digits. `ofHex?` reads digits of either case back.
-/

namespace Ownership.Text

/-- `n` in lower-case hexadecimal with at least `w` digits. -/
def hex (w n : Nat) : List Char :=
  let ds := Nat.toDigits 16 n
  List.replicate (w - ds.length) '0' ++ ds

/-- The value of one hexadecimal digit, of either case. -/
def hexDigit? (c : Char) : Option Nat :=
  if '0' ≤ c ∧ c ≤ '9' then some (c.toNat - '0'.toNat)
  else if 'a' ≤ c ∧ c ≤ 'f' then some (c.toNat - 'a'.toNat + 10)
  else if 'A' ≤ c ∧ c ≤ 'F' then some (c.toNat - 'A'.toNat + 10)
  else none

/-- The value of a run of hexadecimal digits; no value if any character is none. -/
def ofHex? (cs : List Char) : Option Nat :=
  cs.foldlM (fun n c => (hexDigit? c).map (16 * n + ·)) 0

end Ownership.Text
