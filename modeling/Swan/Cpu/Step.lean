import Swan.Cpu.Execute

/-! One step of the processor: the prefixes and the opcode of an instruction are
fetched, it is executed, and a single-step trap follows if it was asked for. A halted
processor spends a step of one cycle. -/
namespace Swan.Exec

variable {β : Type} [Bus β]

def pushPrefix (b : Byte) : Exec β Unit
  | ⟨cpu, bus⟩ => ((), ⟨{ cpu with prefixes := cpu.prefixes.push b }, bus⟩)

/-- Fetch bytes until one is no prefix, queueing the prefixes. Answers that opcode and
the number of prefixes, or nothing after a given number of bytes. -/
def fetchOpcode? (fetched : Nat) : Nat → Exec β (Option (Byte × Nat))
  | 0 => return none
  | limit + 1 => do
    let b ← fetchByte
    if isPrefix b then
      pushPrefix b
      fetchOpcode? (fetched + 1) limit
    else
      return some (b, fetched)

def dispatch (opcode : Byte) : Exec β Unit
  | ⟨cpu, bus⟩ => ((), ⟨{ cpu with opcode }, bus⟩)

def clearPrefixes : Exec β Unit
  | ⟨cpu, bus⟩ => ((), ⟨{ cpu with prefixes := .empty }, bus⟩)

def takeDeferred : Exec β Nat
  | ⟨cpu, bus⟩ => (cpu.deferred, ⟨{ cpu with deferred := 0 }, bus⟩)

def charge (cycles : Nat) : Exec β Nat
  | ⟨cpu, bus⟩ => (cycles, ⟨{ cpu with total := cpu.total.advance cycles }, bus⟩)

/-- An instruction after its opcode is fetched. Its prefixes are kept only for another
element of a repeated string instruction. -/
def retire (opcode : Byte) (trap : Bool) : Exec β Nat := do
  dispatch opcode
  let retired ← (Operation.decode opcode).execute
  if !retired.again then clearPrefixes
  if trap then interrupt singleStepVector
  return retired.cycles

/-- One instruction, or one cycle of waiting. Answers the cycles it took, or nothing if no opcode
comes within a number of bytes. -/
def stepWithin (limit : Nat) : Exec β (Option Nat) := do
  let deferred ← takeDeferred
  if (← isHalted) then return some (← charge (deferred + 1))
  let trap := (← regs).flags.trap
  match ← fetchOpcode? 0 limit with
  | none => return none
  | some (opcode, prefixes) => do
    let cycles ← retire opcode trap
    return some (← charge (deferred + prefixes + cycles + (← takeDeferred)))
where
  isHalted : Exec β Bool := fun c => (c.cpu.halted, c)

/-- As many bytes as a code segment holds. From memory that stays as it is, an opcode comes within
them or never. -/
def fetchLimit : Nat := 0x10000

def step : Exec β (Option Nat) := stepWithin fetchLimit

/-- A step as a host calls it. Nothing is answered if no opcode comes, or if a counter overflows:
that of the step has 32 bits and the total 64. -/
def step? (limit : Nat) (c : Core β) : Option (Nat × Core β) :=
  match stepWithin limit c with
  | (none, _) => none
  | (some cycles, d) =>
    if overflows 32 cycles || overflows 64 d.cpu.total.count then none else some (cycles, d)

/-- An interrupt as a host calls it. What it costs is kept in a counter of 32 bits. -/
def interrupt? (vector : Byte) (c : Core β) : Option (Core β) :=
  let d := (interrupt vector c).2
  if overflows 32 d.cpu.deferred then none else some d

end Swan.Exec
