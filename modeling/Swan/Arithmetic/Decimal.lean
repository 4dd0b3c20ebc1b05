import Swan.Cpu.Flags

/-! Adjustment of a binary sum or difference of decimal digits, and conversion
between a byte and two decimal digits. A packed byte holds two digits; unpacked
digits take a byte each, the higher one in the upper half of a word. -/
namespace Swan.Arithmetic

/-- Whether the low digit of a result has left the decimal range. -/
def lowDigitWrong (v : Byte) (f : Flags) : Bool := 9 < v.toNat % 16 || f.auxCarry

/-- Whether the high digit has. It is judged before the low digit is mended. -/
def highDigitWrong (v : Byte) (f : Flags) : Bool := 0x99 < v.toNat || f.carry

/-- The amount by which the digits of a packed byte are off. -/
def packedCorrection (low high : Bool) : Byte :=
  (if low then 0x06 else 0) + (if high then 0x60 else 0)

def adjustPackedSum (al : Byte) (f : Flags) : Byte × Flags :=
  let low := lowDigitWrong al f
  let high := highDigitWrong al f
  let r := al + packedCorrection low high
  (r, { f.describe r with auxCarry := low, carry := high })

def adjustPackedDifference (al : Byte) (f : Flags) : Byte × Flags :=
  let low := lowDigitWrong al f
  let high := highDigitWrong al f
  let r := al - packedCorrection low high
  (r, { f.describe r with auxCarry := low, carry := high })

/-- After adding unpacked digits. The upper half counts the carry. -/
def adjustUnpackedSum (ax : Word) (f : Flags) : Word × Flags :=
  let adjust := lowDigitWrong ax.low f
  let al := if adjust then ax.low + 6 else ax.low
  let ah := if adjust then ax.high + 1 else ax.high
  (.ofBytes (al &&& 0x0F) ah, { f with auxCarry := adjust, carry := adjust })

/-- After subtracting unpacked digits. The upper half counts the borrow. -/
def adjustUnpackedDifference (ax : Word) (f : Flags) : Word × Flags :=
  let adjust := lowDigitWrong ax.low f
  let al := if adjust then ax.low - 6 else ax.low
  let ah := if adjust then ax.high - 1 else ax.high
  (.ofBytes (al &&& 0x0F) ah, { f with auxCarry := adjust, carry := adjust })

/-- Split a byte into its tens and its units. The flags describe the units. -/
def toDigits (al : Byte) (f : Flags) : Word × Flags :=
  let units := al % 10
  (.ofBytes units (al / 10), f.describe units)

/-- Join tens and units into a byte, modulo 256. -/
def ofDigits (ax : Word) (f : Flags) : Word × Flags :=
  let r := ax.high * 10 + ax.low
  (.ofBytes r 0, f.describe r)

end Swan.Arithmetic
