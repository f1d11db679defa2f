import ScopedConfig.Powers

/-!
# Floating-point numbers by their bits

A number of 64 bits is kept as its IEEE 754 encoding, so that equality tells apart signed zeros and
the payloads of NaNs. Here are the conversions into that encoding: from integers, rounding to
nearest and ties to even, and from the 32-bit format, which is exact.
-/

namespace ScopedConfig

/-- The encoding of a 64-bit binary floating-point number. -/
abbrev Binary64 := UInt64

namespace Binary64

/-- `n / 2 ^ shift`, rounded to nearest, ties to even. -/
def roundedShift (n shift : Nat) : Nat :=
  let q := n / 2 ^ shift
  let r := n % 2 ^ shift
  if 2 * r < 2 ^ shift ∨ (2 * r = 2 ^ shift ∧ q % 2 = 0) then q else q + 1

/-- The encoding of a natural number below `2 ^ 1023`. The significand counts from `2 ^ 52`, so
rounding up to the next power of two carries into the exponent. -/
def ofNat (n : Nat) : Nat :=
  if n = 0 then 0
  else
    let e := n.log2
    let significand := if e ≤ 52 then n * 2 ^ (52 - e) else roundedShift n (e - 52)
    (e + 1023) * 2 ^ 52 + significand - 2 ^ 52

/-- The encoding of the double nearest to an integer. -/
def ofInt (i : Int) : Binary64 :=
  UInt64.ofNat ((if i < 0 then 2 ^ 63 else 0) + ofNat i.natAbs)

/-- The encoding of a number given in the 32-bit format; a signalling NaN becomes quiet. -/
def ofBinary32 (bits : UInt32) : Binary64 :=
  let n := bits.toNat
  let sign := n / 2 ^ 31
  let exponent := n / 2 ^ 23 % 2 ^ 8
  let fraction := n % 2 ^ 23
  let magnitude :=
    if exponent = 255 then
      2047 * 2 ^ 52 +
        if fraction = 0 then 0 else 2 ^ 51 + fraction % 2 ^ 22 * 2 ^ 29
    else if exponent = 0 then
      if fraction = 0 then 0
      else
        let k := fraction.log2
        (k + 874) * 2 ^ 52 + (fraction - 2 ^ k) * 2 ^ (52 - k)
    else (exponent + 896) * 2 ^ 52 + fraction * 2 ^ 29
  UInt64.ofNat (sign * 2 ^ 63 + magnitude)

end Binary64

end ScopedConfig
