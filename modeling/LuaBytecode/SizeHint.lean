/-!
# Size hints

`NEWTABLE` carries sizes as bytes `eeeeexxx` of a small float format: below 8 the byte is the
size, above it is `1xxx` in binary followed by `eeeee - 1` zeros.

* `SizeHint.decode` is the size of a hint.
* `SizeHint.encode` is the hint of the least size that is not too small.
-/

namespace LuaBytecode.SizeHint

/-- The size that a hint stands for. -/
def decode (hint : UInt32) : UInt64 :=
  if hint < 8 then hint.toUInt64
  else (hint &&& 7 ||| 8).toUInt64 <<< ((hint >>> 3).toUInt64 - 1)

/-- Divide by `2 ^ bits`, rounding up, as long as the number does not fit into three bits beside
the leading one and those that go; what goes is added to the exponent.  No more than `rounds`
divisions are made. -/
def shrink (bits : UInt32) : Nat → UInt32 → UInt32 → UInt32 × UInt32
  | 0, x, e => (x, e)
  | rounds + 1, x, e =>
    if x < 8 <<< bits then (x, e)
    else shrink bits rounds ((x + (1 <<< bits - 1)) >>> bits) (e + bits)

/-- The hint of the least size, of those that hints can tell, that is not below `x`. -/
def encode (x : UInt32) : UInt32 :=
  if x < 8 then x
  else
    let (x, e) := shrink 4 8 x 0
    let (x, e) := shrink 1 4 x e
    ((e + 1) <<< 3) ||| (x - 8)

end LuaBytecode.SizeHint
