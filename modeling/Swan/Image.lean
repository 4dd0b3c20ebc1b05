import Swan.Word

/-! The contents of a file or of a read-only memory: any number of bytes, read by
offset. Offsets past the end read as zero; every reader keeps below `size`. -/
namespace Swan

structure Image where
  bytes : ByteArray := .empty

namespace Image

def size (image : Image) : Nat := image.bytes.size

def isEmpty (image : Image) : Bool := image.size == 0

def byte (image : Image) (i : Nat) : Byte :=
  if h : i < image.bytes.size then (image.bytes[i]).toBitVec else 0

theorem isEmpty_iff {image : Image} : image.isEmpty = true ↔ image.size = 0 := by
  simp [isEmpty]

end Image

end Swan
