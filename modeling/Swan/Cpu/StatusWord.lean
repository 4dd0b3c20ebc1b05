import Swan.Cpu.Flags

/-! The status word as it is kept. It is written through masks: the whole word, the bits that a
mask names, or the low byte. No write reaches a bit that is no flag. -/
namespace Swan

structure StatusWord where
  bits : Word
  deriving DecidableEq, Repr

namespace StatusWord

/-- The bits that always read as one. -/
def reservedSet : Word := 0xF002

def writable : Word := 0x0FD5

/-- The flags of the low byte. -/
def lowWritable : Word := 0x00D5

def powerOn : StatusWord := ⟨reservedSet⟩

/-- Load the whole word. -/
def ofWord (w : Word) : StatusWord := ⟨w &&& writable ||| reservedSet⟩

def set (s : StatusWord) (mask : Word) : StatusWord := ⟨s.bits ||| mask &&& writable⟩

def clear (s : StatusWord) (mask : Word) : StatusWord := ⟨s.bits &&& ~~~(mask &&& writable)⟩

def assign (s : StatusWord) (mask : Word) (on : Bool) : StatusWord :=
  if on then s.set mask else s.clear mask

def withLowByte (s : StatusWord) (b : Byte) : StatusWord :=
  ⟨s.bits &&& ~~~lowWritable ||| b.setWidth 16 &&& lowWritable⟩

/-- The flags that the word shows. -/
def flags (s : StatusWord) : Flags := .ofWord s.bits

/-- What can be written to the status word. -/
inductive Write where
  | word (w : Word)
  | set (mask : Word)
  | clear (mask : Word)
  | assign (mask : Word) (on : Bool)
  | lowByte (b : Byte)

def write (s : StatusWord) : Write → StatusWord
  | .word w => ofWord w
  | .set mask => s.set mask
  | .clear mask => s.clear mask
  | .assign mask on => s.assign mask on
  | .lowByte b => s.withLowByte b

end StatusWord

def Flags.write (f : Flags) : StatusWord.Write → Flags
  | .word w => ofWord w
  | .set mask => f.set mask
  | .clear mask => f.clear mask
  | .assign mask on => f.assign mask on
  | .lowByte b => f.withLowByte b

end Swan
