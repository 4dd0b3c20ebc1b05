import Swan.Word

/-! What a processor sees of the rest of a machine: byte-wide memory and byte-wide
ports. Reading may change a bus, because a device can react to being read. -/
namespace Swan

class Bus (β : Type) where
  read : β → Address → Byte × β
  write : β → Address → Byte → β
  portIn : β → Byte → Byte × β
  portOut : β → Byte → Byte → β

end Swan
