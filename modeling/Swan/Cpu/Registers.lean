import Swan.Cpu.Flags

/-! The register file. The four data registers can also be read and written by
halves; a half is not stored apart, so writing one leaves the other alone. -/
namespace Swan

inductive ByteReg where
  | al | cl | dl | bl | ah | ch | dh | bh
  deriving DecidableEq, Repr

inductive WordReg where
  | ax | cx | dx | bx | sp | bp | si | di
  deriving DecidableEq, Repr

inductive Segment where
  | es | cs | ss | ds
  deriving DecidableEq, Repr

/-- Byte registers in encoding order: the four low halves, then the four high ones. -/
def ByteReg.ofIndex (i : BitVec 3) : ByteReg :=
  match i.toNat with
  | 0 => al | 1 => cl | 2 => dl | 3 => bl | 4 => ah | 5 => ch | 6 => dh | _ => bh

def WordReg.ofIndex (i : BitVec 3) : WordReg :=
  match i.toNat with
  | 0 => ax | 1 => cx | 2 => dx | 3 => bx | 4 => sp | 5 => bp | 6 => si | _ => di

def Segment.ofIndex (i : BitVec 2) : Segment :=
  match i.toNat with
  | 0 => es | 1 => cs | 2 => ss | _ => ds

/-- The initial values are those at power on: execution starts at FFFF:0000. -/
structure Registers where
  ax : Word := 0
  cx : Word := 0
  dx : Word := 0
  bx : Word := 0
  sp : Word := 0
  bp : Word := 0
  si : Word := 0
  di : Word := 0
  es : Word := 0
  cs : Word := 0xFFFF
  ss : Word := 0
  ds : Word := 0
  ip : Word := 0
  flags : Flags := {}
  deriving DecidableEq, Repr, Inhabited

namespace Registers

def word (r : Registers) : WordReg → Word
  | .ax => r.ax | .cx => r.cx | .dx => r.dx | .bx => r.bx
  | .sp => r.sp | .bp => r.bp | .si => r.si | .di => r.di

def setWord (r : Registers) (v : Word) : WordReg → Registers
  | .ax => { r with ax := v } | .cx => { r with cx := v }
  | .dx => { r with dx := v } | .bx => { r with bx := v }
  | .sp => { r with sp := v } | .bp => { r with bp := v }
  | .si => { r with si := v } | .di => { r with di := v }

def byte (r : Registers) : ByteReg → Byte
  | .al => r.ax.low | .cl => r.cx.low | .dl => r.dx.low | .bl => r.bx.low
  | .ah => r.ax.high | .ch => r.cx.high | .dh => r.dx.high | .bh => r.bx.high

def setByte (r : Registers) (v : Byte) : ByteReg → Registers
  | .al => { r with ax := .ofBytes v r.ax.high }
  | .cl => { r with cx := .ofBytes v r.cx.high }
  | .dl => { r with dx := .ofBytes v r.dx.high }
  | .bl => { r with bx := .ofBytes v r.bx.high }
  | .ah => { r with ax := .ofBytes r.ax.low v }
  | .ch => { r with cx := .ofBytes r.cx.low v }
  | .dh => { r with dx := .ofBytes r.dx.low v }
  | .bh => { r with bx := .ofBytes r.bx.low v }

def segment (r : Registers) : Segment → Word
  | .es => r.es | .cs => r.cs | .ss => r.ss | .ds => r.ds

def setSegment (r : Registers) (v : Word) : Segment → Registers
  | .es => { r with es := v } | .cs => { r with cs := v }
  | .ss => { r with ss := v } | .ds => { r with ds := v }

/-- The register that an encoded index names at a width. -/
def operand (r : Registers) : (w : Width) → BitVec 3 → Operand w
  | .byte, i => r.byte (.ofIndex i)
  | .word, i => r.word (.ofIndex i)

def setOperand (r : Registers) : (w : Width) → BitVec 3 → Operand w → Registers
  | .byte, i, v => r.setByte v (.ofIndex i)
  | .word, i, v => r.setWord v (.ofIndex i)

abbrev al (r : Registers) : Byte := r.byte .al

abbrev ah (r : Registers) : Byte := r.byte .ah

abbrev cl (r : Registers) : Byte := r.byte .cl

abbrev dl (r : Registers) : Byte := r.byte .dl

def codeAddress (r : Registers) : Address := physical r.cs r.ip

end Registers

end Swan
