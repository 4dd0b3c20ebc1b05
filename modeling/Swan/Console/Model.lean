import Swan.Clock
import Swan.Word

/-! The two models of the console and the constants in which they differ. They share
the crystal and the raster. -/
namespace Swan

inductive Model where
  | mono
  | color
  deriving DecidableEq, Repr

namespace Model

def isColor : Model → Bool
  | mono => false
  | color => true

/-- The processor clock in hertz. It is the master clock. -/
def clockFrequency : Nat := 3072000

def cyclesPerLine : Nat := 256

def linesPerFrame : Nat := 159

def cyclesPerFrame : Nat := cyclesPerLine * linesPerFrame

def masterClock : MasterClock := ⟨clockFrequency⟩

/-- Frames per second, about 75.47. -/
def refreshRate : Float := masterClock.frameRate ⟨cyclesPerFrame⟩

def ramSize : Model → Nat
  | mono => 0x4000
  | color => 0x10000

def bootstrapSize : Model → Nat
  | mono => 0x1000
  | color => 0x2000

def hasTransfer : Model → Bool := isColor

def vectorBaseMask : Model → Byte
  | mono => 0xF8
  | color => 0xFE

/-- The bits of the vector base that always read as one. -/
def vectorBaseFixed : Model → Byte
  | mono => 0x03
  | color => 0x01

def unmappedPort : Model → Byte
  | mono => 0x90
  | color => 0x00

/-- What an internal address with no memory behind it reads. -/
def openBus : Model → Byte
  | mono => 0x90
  | color => 0x00

end Model

end Swan
