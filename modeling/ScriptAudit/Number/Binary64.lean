/-
The sixty-four bit binary number nearest to a fraction.

Rounding is exact: it compares natural numbers only, takes the nearest
representable value, and gives a tie to the even one. Values too small for a
normal number become subnormal or zero; values too large become infinite.
-/

namespace ScriptAudit

/-- A binary floating-point number, given by its sixty-four bits. -/
structure Binary64 where
  bits : UInt64
  deriving DecidableEq

namespace Binary64

/-- The integer nearest to a fraction; a half goes to the even neighbour. -/
def roundHalfEven (numerator denominator : Nat) : Nat :=
  let quotient := numerator / denominator
  let remainder := numerator % denominator
  if 2 * remainder < denominator then quotient
  else if denominator < 2 * remainder then quotient + 1
  else quotient + quotient % 2

/-- The greatest `exponent` with `2 ^ exponent ≤ numerator / denominator`. -/
def binaryOrder (numerator denominator : Nat) : Int :=
  let estimate : Int := numerator.log2 - denominator.log2
  let reached :=
    if 0 ≤ estimate then
      denominator * Nat.pow 2 estimate.toNat ≤ numerator
    else
      denominator ≤ numerator * Nat.pow 2 (-estimate).toNat
  if reached then estimate else estimate - 1

def infinityBits : Nat := 0x7ff0000000000000

/-- The quiet values that are not numbers begin here. -/
def notANumberBits : Nat := 0x7ff8000000000000

def payloadSize : Nat := 0x8000000000000

def greatestWord : Nat := 0xffffffffffffffff

def signBit : Nat := 0x8000000000000000

def exponentUnit : Nat := 0x10000000000000

/--
The bits of the nonnegative number nearest to a fraction. `unit` is the
exponent of the last place; adding the rounded significand to the exponent
field lets a carry move into the next exponent.
-/
def magnitudeBits (numerator denominator : Nat) : Nat :=
  if numerator = 0 then 0
  else
    let unit : Int := max (binaryOrder numerator denominator - 52) (-1074)
    let significand :=
      if 0 ≤ unit then
        roundHalfEven numerator (denominator * Nat.pow 2 unit.toNat)
      else
        roundHalfEven (numerator * Nat.pow 2 (-unit).toNat) denominator
    min ((unit + 1074).toNat * exponentUnit + significand) infinityBits

def ofMagnitude (negative : Bool) (magnitude : Nat) : Binary64 :=
  { bits := UInt64.ofNat (if negative then signBit + magnitude else magnitude) }

/-- A value that is not a number. Its payload is first held to sixty-four bits,
and then only the bits that have a place are kept. -/
def notANumber (negative : Bool) (payload : Nat) : Binary64 :=
  ofMagnitude negative
    (notANumberBits + min payload greatestWord % payloadSize)

/--
The number nearest to `significand * base ^ exponent`. An exponent that puts
the value beyond every representable magnitude is settled without computing
the power.
-/
def ofScaled (negative : Bool) (significand base : Nat) (exponent : Int) :
    Binary64 :=
  let reach : Int := significand.log2 + 1 + base.log2 * exponent
  let magnitude :=
    if significand = 0 then 0
    else if 0 ≤ exponent then
      if 1025 < reach then infinityBits
      else magnitudeBits (significand * base.pow exponent.toNat) 1
    else
      if reach < -1100 then 0
      else magnitudeBits significand (base.pow (-exponent).toNat)
  ofMagnitude negative magnitude

end Binary64

end ScriptAudit
