import Swan.Cpu.State
import Swan.Inspect

/-! The names under which a processor shows its state. -/
namespace Swan.Cpu

def properties : List (String × (Cpu → Value)) :=
  [("ax", fun c => .word c.regs.ax),
    ("cx", fun c => .word c.regs.cx),
    ("dx", fun c => .word c.regs.dx),
    ("bx", fun c => .word c.regs.bx),
    ("sp", fun c => .word c.regs.sp),
    ("bp", fun c => .word c.regs.bp),
    ("si", fun c => .word c.regs.si),
    ("di", fun c => .word c.regs.di),
    ("al", fun c => .byte (c.regs.byte .al)),
    ("cl", fun c => .byte (c.regs.byte .cl)),
    ("dl", fun c => .byte (c.regs.byte .dl)),
    ("bl", fun c => .byte (c.regs.byte .bl)),
    ("ah", fun c => .byte (c.regs.byte .ah)),
    ("ch", fun c => .byte (c.regs.byte .ch)),
    ("dh", fun c => .byte (c.regs.byte .dh)),
    ("bh", fun c => .byte (c.regs.byte .bh)),
    ("es", fun c => .word c.regs.es),
    ("cs", fun c => .word c.regs.cs),
    ("ss", fun c => .word c.regs.ss),
    ("ds", fun c => .word c.regs.ds),
    ("ip", fun c => .word c.regs.ip),
    ("pc", fun c => .wide (c.pc.setWidth 32)),
    ("flags", fun c => .word c.regs.flags.toWord),
    ("flags.c", fun c => .bool c.regs.flags.carry),
    ("flags.p", fun c => .bool c.regs.flags.parity),
    ("flags.a", fun c => .bool c.regs.flags.auxCarry),
    ("flags.z", fun c => .bool c.regs.flags.zero),
    ("flags.s", fun c => .bool c.regs.flags.sign),
    ("flags.t", fun c => .bool c.regs.flags.trap),
    ("flags.i", fun c => .bool c.regs.flags.interrupt),
    ("flags.d", fun c => .bool c.regs.flags.direction),
    ("flags.o", fun c => .bool c.regs.flags.overflow),
    ("halted", fun c => .bool c.halted),
    ("cycles", fun c => .count c.total.count),
    ("opcode", fun c => .byte c.opcode),
    ("prefixes", fun c => .bytes c.prefixes.bytes)]

instance : Inspectable Cpu where
  query c path := (properties.lookup path).map (· c)
  paths := properties.map (·.1)

end Swan.Cpu
