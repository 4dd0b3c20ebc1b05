import Swan.Word

/-! A host's view of bus traffic. -/
namespace Swan

/-- An observer sees every value about to be returned or stored, and answers the
value to use in its place. -/
class Observer (ω : Type) where
  memoryRead : ω → Address → Byte → Byte × ω
  memoryWrite : ω → Address → Byte → Byte × ω
  portRead : ω → Byte → Byte → Byte × ω
  portWrite : ω → Byte → Byte → Byte × ω

instance : Observer Empty := ⟨nofun, nofun, nofun, nofun⟩

def observe {ω : Type} (see : ω → Byte → Byte × ω) (v : Byte) : Option ω → Byte × Option ω
  | none => (v, none)
  | some o =>
    let (v, o) := see o v
    (v, some o)

end Swan
