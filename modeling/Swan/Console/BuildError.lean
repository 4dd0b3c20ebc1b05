/-! Why a console cannot be built. -/
namespace Swan

inductive BuildError where
  | bootstrapSize (expected actual : Nat)
  | emptyRom
  | romTooLarge (size window : Nat)
  | romNotAligned (size : Nat)
  deriving DecidableEq, Repr

def BuildError.message : BuildError → String
  | bootstrapSize expected actual =>
    s!"bootstrap ROM is {actual} bytes, this model needs {expected}"
  | emptyRom => "cartridge ROM is empty"
  | romTooLarge size window =>
    s!"cartridge ROM is {size} bytes, larger than the {window}-byte ROM window"
  | romNotAligned size => s!"cartridge ROM is {size} bytes, not a multiple of 64 KiB"

end Swan
