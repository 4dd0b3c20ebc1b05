import Swan.Cpu.ModRM
import Swan.Proofs.FlatAccess

/-! The same thing done on two machines that differ only in some hidden bytes of memory. As
long as what is read lies in sight, both answer alike and the difference stays hidden. What is
stored may lie anywhere: both store the same. -/
namespace Swan

def Location.addresses (r : Registers) (w : Width) : Location → List Address
  | register _ => []
  | memory segment offset => w.addresses (r.segment segment) offset

theorem Location.addresses_moved (l : Location) (r : Registers) (ip : Word) (w : Width) :
    l.addresses { r with ip } w = l.addresses r w := by
  cases l with
  | register i => rfl
  | memory s o => cases s <;> rfl

/-- Two machines alike but for hidden memory and the opcode they last fetched. -/
structure Core.LikeOff (hidden : List Address) (c c' : Core Flat) : Prop where
  cpu : c'.cpu = { c.cpu with opcode := c'.cpu.opcode }
  bus : c.bus.AgreeOff hidden c'.bus

namespace Exec

variable {α γ : Type} {hidden : List Address}

/-- From this state, nothing that is done depends on hidden memory. -/
def ShownAt (hidden : List Address) (x : Exec Flat α) (c : Core Flat) : Prop :=
  ∀ c', c.LikeOff hidden c' → (x c').1 = (x c).1 ∧ (x c).2.LikeOff hidden (x c').2

class Shown (hidden : List Address) (x : Exec Flat α) : Prop where
  shown : ∀ c, ShownAt hidden x c

theorem ShownAt.bind {x : Exec Flat α} {f : α → Exec Flat γ} {c : Core Flat}
    (first : ShownAt hidden x c) (rest : ShownAt hidden (f (x c).1) (x c).2) :
    ShownAt hidden (x >>= f) c := by
  intro c' like
  obtain ⟨answer, after⟩ := first c' like
  change (f (x c').1 (x c').2).1 = _ ∧ Core.LikeOff hidden _ (f (x c').1 (x c').2).2
  rw [answer]
  exact rest _ after

instance (a : α) : Shown hidden (pure a) := ⟨fun _ _ like => ⟨rfl, like⟩⟩

instance (x : Exec Flat α) (f : α → Exec Flat γ) [first : Shown hidden x]
    [rest : ∀ a, Shown hidden (f a)] : Shown hidden (x >>= f) :=
  ⟨fun c => (first.shown c).bind ((rest _).shown _)⟩

instance (p : Prop) [Decidable p] (x y : Exec Flat α) [Shown hidden x] [Shown hidden y] :
    Shown hidden (if p then x else y) := by
  split <;> assumption

instance : Shown hidden regs := ⟨fun _ _ like => ⟨congrArg (·.regs) like.cpu, like⟩⟩

instance (f : Registers → Registers) : Shown hidden (setRegs f) := by
  refine ⟨fun c c' like => ⟨rfl, ?_, like.bus⟩⟩
  change { c'.cpu with regs := f c'.cpu.regs } = _
  rw [like.cpu]
  rfl

instance (op : Flags → α × Flags) : Shown hidden (withFlags op) := by
  refine ⟨fun c c' like => ⟨?_, ?_, like.bus⟩⟩
  · change (op c'.cpu.regs.flags).1 = _
    rw [like.cpu]
    rfl
  · change { c'.cpu with regs := { c'.cpu.regs with flags := (op c'.cpu.regs.flags).2 } } = _
    rw [like.cpu]
    rfl

instance (w : Width) (i : BitVec 3) : Shown hidden (operand w i) :=
  inferInstanceAs (Shown hidden (regs >>= fun r => pure (r.operand w i)))

instance (w : Width) (i : BitVec 3) (v : Operand w) : Shown hidden (setOperand w i v) :=
  inferInstanceAs (Shown hidden (setRegs _))

theorem store_flat (w : Width) (segment offset : Word) (v : Operand w) (c : Core Flat) :
    store w segment offset v c = ((), ⟨c.cpu, c.bus.put w segment offset v⟩) := by
  cases w <;> rfl

theorem load_flat (w : Width) (segment offset : Word) (c : Core Flat) :
    load w segment offset c = (c.bus.get w segment offset, c) := by
  cases w <;> rfl

instance (w : Width) (segment offset : Word) (v : Operand w) :
    Shown hidden (store w segment offset v) := by
  refine ⟨fun c c' like => ?_⟩
  rw [store_flat, store_flat]
  exact ⟨rfl, like.cpu, like.bus.put w segment offset v⟩

instance (segment offset v : Word) : Shown hidden (writeWord segment offset v) :=
  inferInstanceAs (Shown hidden (store .word segment offset v))

instance (v : Word) : Shown hidden (push v) :=
  inferInstanceAs (Shown hidden
    (setRegs (fun r => { r with sp := r.sp - 2 }) >>= fun _ => regs >>= fun r =>
      writeWord r.ss r.sp v))

instance (w : Width) (v : Operand w) (l : Location) : Shown hidden (writeAt w v l) := by
  cases l with
  | register i => exact inferInstanceAs (Shown hidden (setOperand w _ v))
  | memory s o =>
    exact inferInstanceAs (Shown hidden (regs >>= fun r => store w (r.segment s) o v))

theorem shownAt_load {w : Width} {segment offset : Word} {c : Core Flat}
    (seen : ∀ a ∈ w.addresses segment offset, a ∉ hidden) :
    ShownAt hidden (load w segment offset) c := by
  intro c' like
  rw [load_flat, load_flat]
  exact ⟨(like.bus.get seen).symm, like⟩

theorem shownAt_readAt {w : Width} {l : Location} {c : Core Flat}
    (seen : ∀ a ∈ l.addresses c.cpu.regs w, a ∉ hidden) : ShownAt hidden (readAt w l) c := by
  cases l with
  | register i => exact Shown.shown (x := operand w _) c
  | memory s o => exact .bind (Shown.shown (x := regs) c) (shownAt_load seen)

theorem shownAt_pop {c : Core Flat}
    (seen : ∀ a ∈ Width.word.addresses c.cpu.regs.ss c.cpu.regs.sp, a ∉ hidden) :
    ShownAt hidden pop c := by
  refine .bind (Shown.shown (x := regs) c) (.bind ?_ (Shown.shown _))
  exact shownAt_load (w := .word) seen

end Exec

end Swan
