import Swan.Proofs.Parametricity

/-! Two buses that answer alike. The processor meets a bus through its four operations
only, so a relation between two buses that each operation keeps, with equal answers, is
kept by whatever the processor does, and the processor itself ends up the same on both. -/
namespace Swan

variable {β γ α : Type} [Bus β] [Bus γ]

/-- Related buses answer alike and stay related. -/
class Simulates (R : β → γ → Prop) : Prop where
  read : ∀ {b c}, R b c → ∀ a, (Bus.read b a).1 = (Bus.read c a).1 ∧
    R (Bus.read b a).2 (Bus.read c a).2
  write : ∀ {b c}, R b c → ∀ a v, R (Bus.write b a v) (Bus.write c a v)
  portIn : ∀ {b c}, R b c → ∀ p, (Bus.portIn b p).1 = (Bus.portIn c p).1 ∧
    R (Bus.portIn b p).2 (Bus.portIn c p).2
  portOut : ∀ {b c}, R b c → ∀ p v, R (Bus.portOut b p v) (Bus.portOut c p v)

namespace Exec

/-- Two computations that on related buses give the same answer and leave the same
processor, and related buses again. -/
class Related (R : β → γ → Prop) (x : Exec β α) (y : Exec γ α) : Prop where
  related : ∀ {b c}, R b c → ∀ cpu, ∃ a cpu' b' c',
    x ⟨cpu, b⟩ = (a, ⟨cpu', b'⟩) ∧ y ⟨cpu, c⟩ = (a, ⟨cpu', c'⟩) ∧ R b' c'

variable {R : β → γ → Prop}

/-- The same processor on related buses. -/
instance onBuses_stepwise [sim : Simulates R] :
    Stepwise fun (c : Core β) (d : Core γ) => c.cpu = d.cpu ∧ R c.bus d.bus where
  regs h := by rw [h.1]
  prefixes h := by rw [h.1]
  halted h := by rw [h.1]
  deferred h := by rw [h.1]
  setRegs h regs := ⟨by rw [h.1], h.2⟩
  setHalted h halted := ⟨by rw [h.1], h.2⟩
  setPrefixes h prefixes := ⟨by rw [h.1], h.2⟩
  setOpcode h opcode := ⟨by rw [h.1], h.2⟩
  setDeferred h deferred := ⟨by rw [h.1], h.2⟩
  advance h cycles := ⟨by rw [h.1], h.2⟩
  read h a := ⟨(sim.read h.2 a).1, h.1, (sim.read h.2 a).2⟩
  write h a v := ⟨h.1, sim.write h.2 a v⟩
  portIn h p := ⟨(sim.portIn h.2 p).1, h.1, (sim.portIn h.2 p).2⟩
  portOut h p v := ⟨h.1, sim.portOut h.2 p v⟩

omit [Bus β] [Bus γ] in
theorem Paired.related {x : Exec β α} {y : Exec γ α}
    (paired : Paired (fun c d => c.cpu = d.cpu ∧ R c.bus d.bus) x y) : Related R x y where
  related {b c} h cpu := by
    obtain ⟨same, cpus, buses⟩ := paired.paired (c := ⟨cpu, b⟩) (d := ⟨cpu, c⟩) ⟨rfl, h⟩
    exact ⟨_, _, _, _, rfl, Prod.ext same.symm (congrArg (Core.mk · _) cpus.symm), buses⟩

/-- A step of the processor does the same on related buses. -/
theorem step_related [Simulates R] : Related R (step : Exec β (Option Nat)) step :=
  step_paired.related

end Exec

/-- A property of one bus that accesses to memory keep. -/
structure MemoryStable (P : β → Prop) : Prop where
  read : ∀ {b}, P b → ∀ a, P (Bus.read b a).2
  write : ∀ {b}, P b → ∀ a v, P (Bus.write b a v)

structure Stable (P : β → Prop) : Prop extends MemoryStable P where
  portIn : ∀ {b}, P b → ∀ p, P (Bus.portIn b p).2
  portOut : ∀ {b}, P b → ∀ p v, P (Bus.portOut b p v)

variable {P : β → Prop}

/-- Entering an interrupt goes through memory alone: the stack and the vector table. -/
theorem MemoryStable.interrupt (stable : MemoryStable P) (vector : Byte) {c : Core β}
    (h : P c.bus) : P (Exec.interrupt vector c).2.bus := by
  have word {c : Core β} (h : P c.bus) (s o : Word) : P (Exec.readWord s o c).2.bus :=
    stable.read (stable.read h _) _
  have push {c : Core β} (h : P c.bus) (v : Word) : P (Exec.push v c).2.bus :=
    stable.write (stable.write h _ _) _ _
  exact word (word (push (push (push h _) _) _) _ _) _ _

namespace Stable

variable {x : Exec β α}

theorem simulates (stable : Stable P) : Simulates fun b c : β => b = c ∧ P b where
  read := by
    rintro b _ ⟨rfl, h⟩ a
    exact ⟨rfl, rfl, stable.read h a⟩
  write := by
    rintro b _ ⟨rfl, h⟩ a v
    exact ⟨rfl, stable.write h a v⟩
  portIn := by
    rintro b _ ⟨rfl, h⟩ p
    exact ⟨rfl, rfl, stable.portIn h p⟩
  portOut := by
    rintro b _ ⟨rfl, h⟩ p v
    exact ⟨rfl, stable.portOut h p v⟩

theorem step (stable : Stable P) {c : Core β} (h : P c.bus) : P (Exec.step c).2.bus := by
  have := stable.simulates
  obtain ⟨a, cpu, b, b', run, _, _, after⟩ :=
    (Exec.step_related (R := fun b c : β => b = c ∧ P b)).related (b := c.bus) ⟨rfl, h⟩ c.cpu
  rw [show Exec.step c = _ from run]
  exact after

end Stable

end Swan
