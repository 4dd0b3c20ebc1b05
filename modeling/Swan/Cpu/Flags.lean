import Swan.Word

/-! The processor status word. Nine of its sixteen bits are flags; bit 1 and bits 12
to 15 always read as one and bits 3 and 5 as zero, so a flag set and the words that
software can read are the same thing. -/
namespace Swan

structure Flags where
  carry : Bool := false
  parity : Bool := false
  /-- Carry out of, or borrow into, bit 3. -/
  auxCarry : Bool := false
  zero : Bool := false
  sign : Bool := false
  trap : Bool := false
  interrupt : Bool := false
  /-- String instructions move downward. -/
  direction : Bool := false
  overflow : Bool := false
  deriving DecidableEq, Repr, Inhabited

namespace Flags

def ofWord (w : Word) : Flags where
  carry := w.getLsbD 0
  parity := w.getLsbD 2
  auxCarry := w.getLsbD 4
  zero := w.getLsbD 6
  sign := w.getLsbD 7
  trap := w.getLsbD 8
  interrupt := w.getLsbD 9
  direction := w.getLsbD 10
  overflow := w.getLsbD 11

def toWord (f : Flags) : Word :=
  0xF002 ||| mask f.carry 0x0001 ||| mask f.parity 0x0004 ||| mask f.auxCarry 0x0010 |||
    mask f.zero 0x0040 ||| mask f.sign 0x0080 ||| mask f.trap 0x0100 |||
    mask f.interrupt 0x0200 ||| mask f.direction 0x0400 ||| mask f.overflow 0x0800
where
  mask (on : Bool) (bit : Word) : Word := if on then bit else 0

/-- The half that the processor can exchange with a byte register. -/
def lowByte (f : Flags) : Byte := f.toWord.low

def zipWith (op : Bool → Bool → Bool) (f g : Flags) : Flags where
  carry := op f.carry g.carry
  parity := op f.parity g.parity
  auxCarry := op f.auxCarry g.auxCarry
  zero := op f.zero g.zero
  sign := op f.sign g.sign
  trap := op f.trap g.trap
  interrupt := op f.interrupt g.interrupt
  direction := op f.direction g.direction
  overflow := op f.overflow g.overflow

/-- Set the flags named by a mask. Bits of the mask that are no flags do nothing. -/
def set (f : Flags) (mask : Word) : Flags := f.zipWith (· || ·) (ofWord mask)

def clear (f : Flags) (mask : Word) : Flags := f.zipWith (fun on named => on && !named) (ofWord mask)

def assign (f : Flags) (mask : Word) (on : Bool) : Flags := if on then f.set mask else f.clear mask

/-- Whether any bit of the mask reads as one, the fixed bits included. -/
def isSet (f : Flags) (mask : Word) : Bool := f.toWord &&& mask != 0

/-- Load the five flags of the low byte. -/
def withLowByte (f : Flags) (b : Byte) : Flags :=
  { f with
    carry := b.getLsbD 0
    parity := b.getLsbD 2
    auxCarry := b.getLsbD 4
    zero := b.getLsbD 6
    sign := b.getLsbD 7 }

@[simp] theorem getElem_mask (on : Bool) (bit : Word) (i : Nat) (h : i < 16) :
    (toWord.mask on bit)[i] = (on && bit[i]) := by
  cases on <;> simp [toWord.mask]

@[simp] theorem ofWord_toWord (f : Flags) : ofWord f.toWord = f := by
  simp [ofWord, toWord]

end Flags

def evenParity (b : Byte) : Bool := (List.range 8).countP b.getLsbD % 2 == 0

/-- The three flags that describe a result of any width. Parity looks at its low
byte only. -/
def Flags.describe {n : Nat} (f : Flags) (result : BitVec n) : Flags :=
  { f with
    zero := result == 0
    sign := result.msb
    parity := evenParity (result.setWidth 8) }

end Swan
