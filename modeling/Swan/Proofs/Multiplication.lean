import Mathlib.Algebra.Group.Nat.Defs
import Swan.Proofs.Division
import Swan.Proofs.EncodingAgreement

/-! Multiplication, in numbers. A product always fits twice the width of its factors, so the wide
accumulator holds it as it is, and the flags tell whether one width would have done. Division by
the same operand then has a quotient that fits, which is the number that was multiplied. -/
namespace Swan

def Width.magnitude (w : Width) (signed : Bool) : Nat :=
  if signed then 2 ^ (w.bits - 1) else 2 ^ w.bits - 1

theorem Width.Fits.natAbs_le {w : Width} {signed : Bool} {n : Int} (fits : w.Fits signed n) :
    n.natAbs ≤ w.magnitude signed := by
  cases w <;> cases signed <;> simp only [Fits] at fits <;>
    simp [Width.magnitude, Width.bits] <;> omega

/-- No bit of a product is lost in twice the width. -/
theorem Width.Fits.number_mul {w : Width} {signed : Bool} {a b : Int} (left : w.Fits signed a)
    (right : w.Fits signed b) : number signed (BitVec.ofInt (2 * w.bits) (a * b)) = a * b := by
  have size : (a * b).natAbs ≤ w.magnitude signed * w.magnitude signed := by
    rw [Int.natAbs_mul]
    exact Nat.mul_le_mul left.natAbs_le right.natAbs_le
  have sign : signed = false → 0 ≤ a * b := by
    rintro rfl
    cases w <;> exact Int.mul_nonneg left.1 right.1
  generalize a * b = product at size sign ⊢
  cases w <;> cases signed <;>
    simp [Width.magnitude, Width.bits] at size sign <;>
    simp [number, Width.bits, BitVec.toNat_ofInt, BitVec.toInt_ofInt, Int.bmod] <;>
    omega

theorem ofInt_number {n : Nat} (signed : Bool) (v : BitVec n) :
    BitVec.ofInt n (number signed v) = v := by
  cases signed <;> simp [number]

theorem number_ofInt_product {w : Width} (signed : Bool) (a b : Operand w) :
    number signed (BitVec.ofInt (2 * w.bits) (number signed a * number signed b)) =
      number signed a * number signed b :=
  (Width.fits_number signed a).number_mul (Width.fits_number signed b)

theorem Width.fits_natCast {w : Width} {n : Nat} : w.Fits false n ↔ n < 2 ^ w.bits := by
  cases w <;> simp only [Fits, bits] <;> omega

theorem upper_eq_zero {n : Nat} (v : BitVec (2 * n)) :
    v.extractLsb' n n = 0 ↔ v.toNat < 2 ^ n := by
  have bound : v.toNat / 2 ^ n < 2 ^ n := by
    refine Nat.div_lt_of_lt_mul ?_
    rw [← Nat.pow_add, ← Nat.two_mul]
    exact v.isLt
  rw [← BitVec.toNat_inj, BitVec.extractLsb'_toNat, Nat.shiftRight_eq_div_pow,
    Nat.mod_eq_of_lt bound]
  exact Nat.div_eq_zero_iff_lt (Nat.two_pow_pos n)

theorem upper_append_lower (v : BitVec 32) : v.extractLsb' 16 16 ++ v.setWidth 16 = v := by
  rw [BitVec.setWidth_eq_extractLsb' (by decide),
    BitVec.extractLsb'_append_extractLsb'_eq_extractLsb' (show 16 = 0 + 16 from rfl)]
  exact BitVec.extractLsb'_eq_self

/-- Carry and overflow tell that a product does not fit, and no other flag tells of it. -/
def Flags.ofProduct (f : Flags) (w : Width) (signed : Bool) (product : Int) : Flags :=
  { f with
    carry := !decide (w.Fits signed product)
    overflow := !decide (w.Fits signed product) }

namespace Arithmetic

def multiply {n : Nat} (signed : Bool) (a b : BitVec n) : Flags → BitVec (2 * n) × Flags :=
  if signed then imul a b else mul a b

theorem multiply_eq {w : Width} (signed : Bool) (a b : Operand w) (f : Flags) :
    let product := number signed a * number signed b
    multiply signed a b f = (BitVec.ofInt (2 * w.bits) product, f.ofProduct w signed product) := by
  intro product
  cases signed with
  | true =>
    have wide : ((BitVec.ofInt w.bits product).toInt != product) =
        !decide (w.Fits true product) := by
      rw [Bool.eq_iff_iff, bne_iff_ne, Bool.not_eq_true', decide_eq_false_iff_not, Width.fits_iff]
      rfl
    rw [Flags.ofProduct, ← wide]
    rfl
  | false =>
    have natural : product = ((a.toNat * b.toNat : Nat) : Int) := (Int.natCast_mul _ _).symm
    have bits : ((BitVec.ofInt (2 * w.bits) product).toNat : Int) = product :=
      number_ofInt_product false a b
    rw [natural, BitVec.ofInt_natCast] at bits
    have wide : ((BitVec.ofNat (2 * w.bits) (a.toNat * b.toNat)).extractLsb' w.bits w.bits != 0) =
        !decide (w.Fits false product) := by
      rw [Bool.eq_iff_iff, bne_iff_ne, Bool.not_eq_true', decide_eq_false_iff_not, Ne,
        upper_eq_zero, ← Width.fits_natCast, bits, ← natural]
    rw [Flags.ofProduct, ← wide, natural]
    rfl

/-- A product is divided by one of its factors. -/
theorem divide?_product {w : Width} (signed : Bool) (a b : Operand w) (nonzero : b ≠ 0) :
    divide? signed (BitVec.ofInt (2 * w.bits) (number signed a * number signed b)) b =
      some (a, 0) := by
  have divisor : number signed b ≠ 0 := mt number_eq_zero.mp nonzero
  have quotient := Int.mul_tdiv_cancel (number signed a) divisor
  have fits := Width.fits_number signed a
  rw [divide?_eq, number_ofInt_product, quotient, Int.mul_tmod_left, if_pos ⟨divisor, fits⟩,
    ofInt_number]
  rfl

end Arithmetic

namespace Exec

open Arithmetic

theorem wideAccumulator_setWideAccumulator {w : Width} (v : BitVec (2 * w.bits)) (r : Registers) :
    wideAccumulator (setWideAccumulator w v r) w = v := by
  cases w with
  | byte => rfl
  | word => exact upper_append_lower v

theorem readAt_flat (w : Width) (rm : Location) (c : Core Flat) :
    readAt w rm c = (rm.value c.bus.read c.cpu.regs w, c) := by
  cases rm with
  | register i => rfl
  | memory s offset => cases w <;> rfl

def multiplying (w : Width) (signed : Bool) (rm : Location) : Exec Flat Unit := do
  let v ← readAt w rm
  let product ← withFlags (multiply signed (← operand w 0) v)
  setRegs (setWideAccumulator w product)

instance (w : Width) (signed : Bool) (rm : Location) : Still (multiplying w signed rm) := by
  unfold multiplying
  infer_instance

variable {c : Core Flat} {w : Width} {signed : Bool}

theorem multiplying_apply (rm : Location) (c : Core Flat) :
    let v := rm.value c.bus.read c.cpu.regs w
    let product := number signed (c.cpu.regs.operand w 0) * number signed v
    multiplying w signed rm c = ((), ⟨{ c.cpu with
      regs := setWideAccumulator w (BitVec.ofInt (2 * w.bits) product)
        { c.cpu.regs with flags := c.cpu.regs.flags.ofProduct w signed product } }, c.bus⟩) := by
  intro v product
  have multiplied : withFlags (multiply signed (c.cpu.regs.operand w 0) v) c =
      (BitVec.ofInt (2 * w.bits) product, ⟨{ c.cpu with
        regs.flags := c.cpu.regs.flags.ofProduct w signed product }, c.bus⟩) := by
    rw [withFlags, multiply_eq]
  rw [multiplying, bind_apply, readAt_flat, bind_apply]
  change (withFlags (multiply signed (c.cpu.regs.operand w 0) v) >>=
    fun product => setRegs (setWideAccumulator w product)) c = _
  rw [bind_apply, multiplied]
  rfl

theorem amounts_group3_multiply (o : OperandBytes) (here : c.At o.bytes)
    (member : o.field = if signed then 5 else 4) :
    let rm := o.place c.cpu.regs c.cpu.prefixes
    Amounts o.bytes (group3 w) (taking (multiplying w signed rm) (rm.cost 3 4)) c := by
  intro rm
  refine amounts_operands here (takes_operand o) fun d skips => ?_
  have field : (ModRM.ofByte o.modRM).reg = if signed then 5 else 4 := member
  dsimp only
  rw [field]
  cases signed <;> rfl

instance (w : Width) (quotient remainder : Operand w) :
    Still (setRegs (setQuotient w quotient remainder) : Exec Flat Unit) :=
  .setRegs (fun _ _ => by cases w <;> rfl) fun _ => by cases w <;> rfl

def divisionCost (rm : Location) : Width → Bool → Nat
  | .byte, false => rm.cost 15 16
  | .byte, true => rm.cost 17 18
  | .word, false => rm.cost 23 24
  | .word, true => rm.cost 24 25

/-- Only a division that comes out amounts to anything: a fault looks at its place. -/
theorem amounts_group3_divide (o : OperandBytes) (here : c.At o.bytes)
    (member : o.field = if signed then 7 else 6) {quotient remainder : Operand w} :
    let rm := o.place c.cpu.regs c.cpu.prefixes
    divide? signed (wideAccumulator c.cpu.regs w) (rm.value c.bus.read c.cpu.regs w) =
        some (quotient, remainder) →
      Amounts o.bytes (group3 w)
        (taking (setRegs (setQuotient w quotient remainder)) (divisionCost rm w signed)) c := by
  intro rm comesOut
  refine amounts_operands here (takes_operand o) fun d skips => ?_
  have field : (ModRM.ofByte o.modRM).reg = if signed then 7 else 6 := member
  have dividend : wideAccumulator d.cpu.regs w = wideAccumulator c.cpu.regs w := by
    rw [skips.cpu]
    exact wideAccumulator_moved _ _ w
  have divisor : rm.value d.bus.read d.cpu.regs w = rm.value c.bus.read c.cpu.regs w :=
    skips.value rm w
  rw [← dividend, ← divisor] at comesOut
  dsimp only
  rw [bind_apply, readAt_flat, field]
  have finished : finishDivision w (divide? signed (wideAccumulator d.cpu.regs w)
      (rm.value d.bus.read d.cpu.regs w)) d = setRegs (setQuotient w quotient remainder) d := by
    rw [comesOut]
    rfl
  rw [taking, bind_apply, ← finished]
  cases signed <;> cases w <;> rfl

def multiplyingInto (reg : BitVec 3) (rm : Location) (b : Word) : Exec Flat Unit := do
  let a ← readAt .word rm
  let product ← withFlags (imul a b)
  setOperand .word reg (product.setWidth 16)

instance (reg : BitVec 3) (rm : Location) (b : Word) : Still (multiplyingInto reg rm b) := by
  unfold multiplyingInto
  infer_instance

theorem amounts_imulImmediate {form : ImmediateForm} (o : OperandBytes) {bytes : List Byte}
    (size : bytes.length = form.size .word) (here : c.At (o.bytes ++ bytes)) :
    let rm := o.place c.cpu.regs c.cpu.prefixes
    Amounts (o.bytes ++ bytes) (imulImmediate form)
      (taking (multiplyingInto o.field rm (form.value .word bytes)) (rm.cost 3 4)) c := by
  intro rm
  obtain ⟨d, located, next⟩ := takes_operand o here
  obtain ⟨e, read, behind⟩ := takes_readAt .word rm next
  obtain ⟨f, takes, -⟩ := takes_immediate size behind.append_nil
  refine located.before (read.before (takes.amounts ?_))
  have again : rm.value f.bus.read f.cpu.regs .word = rm.value d.bus.read d.cpu.regs .word :=
    (read.skips.trans takes.skips).value rm .word
  have run : multiplyingInto o.field rm (form.value .word bytes) f = (do
      let product ← withFlags (imul (rm.value d.bus.read d.cpu.regs .word) (form.value .word bytes))
      setOperand .word o.field (product.setWidth 16)) f := by
    rw [multiplyingInto, bind_apply, readAt_flat, again]
  have retired : taking (multiplyingInto o.field rm (form.value .word bytes)) (rm.cost 3 4) f =
      ({ cycles := rm.cost 3 4 }, (multiplyingInto o.field rm (form.value .word bytes) f).2) := rfl
  rw [retired, run]
  rfl

theorem multiplyingInto_apply (reg : BitVec 3) (rm : Location) (b : Word) (c : Core Flat) :
    let product := (rm.value c.bus.read c.cpu.regs .word).toInt * b.toInt
    multiplyingInto reg rm b c = ((), ⟨{ c.cpu with
      regs := { c.cpu.regs with flags := c.cpu.regs.flags.ofProduct .word true product }.setOperand
        .word reg (BitVec.ofInt 16 product) }, c.bus⟩) := by
  intro product
  let a := rm.value c.bus.read c.cpu.regs .word
  have multiplied : withFlags (imul a b) c = (BitVec.ofInt 32 product,
      ⟨{ c.cpu with regs.flags := c.cpu.regs.flags.ofProduct .word true product }, c.bus⟩) := by
    have both : imul a b c.cpu.regs.flags = _ := multiply_eq (w := .word) true a b _
    rw [withFlags, both]
    rfl
  have low : (BitVec.ofInt 32 product).setWidth 16 = BitVec.ofInt 16 product := by
    apply BitVec.eq_of_toNat_eq
    rw [BitVec.toNat_setWidth, BitVec.toNat_ofInt, BitVec.toNat_ofInt]
    omega
  rw [multiplyingInto, bind_apply, readAt_flat, bind_apply, multiplied, ← low]
  rfl

end Exec

def ImmediateForm.productOpcode : ImmediateForm → Byte
  | full => 0x69
  | signedByte => 0x6B

def Location.OffAccumulator (w : Width) : Location → Prop
  | register i => i.setWidth 3 ≠ 0 ∧ i.setWidth 3 ≠ w.remainderRegister
  | memory _ _ => True

theorem Registers.operand_setWideAccumulator {w : Width} (product : BitVec (2 * w.bits))
    (r : Registers) {i : BitVec 3} (first : i ≠ 0) (second : i ≠ w.remainderRegister) :
    (Exec.setWideAccumulator w product r).operand w i = r.operand w i := by
  cases w with
  | byte =>
    have low : ByteReg.ofIndex i ≠ .al := by revert i; decide
    have high : ByteReg.ofIndex i ≠ .ah := by revert i; decide
    change (Exec.setWideAccumulator .byte product r).byte (.ofIndex i) = r.byte (.ofIndex i)
    generalize ByteReg.ofIndex i = reg at low high ⊢
    cases reg with
    | al => exact absurd rfl low
    | ah => exact absurd rfl high
    | cl | dl | bl | ch | dh | bh => rfl
  | word =>
    have low : WordReg.ofIndex i ≠ .ax := by revert i; decide
    have high : WordReg.ofIndex i ≠ .dx := by revert i; decide
    change (Exec.setWideAccumulator .word product r).word (.ofIndex i) = r.word (.ofIndex i)
    generalize WordReg.ofIndex i = reg at low high ⊢
    cases reg with
    | ax => exact absurd rfl low
    | dx => exact absurd rfl high
    | cx | bx | sp | bp | si | di => rfl

/-- A multiplication leaves such an operand as it is, and the way to it. -/
theorem Location.OffAccumulator.value {w : Width} {rm : Location} (off : rm.OffAccumulator w)
    (view : Address → Byte) (product : BitVec (2 * w.bits)) (r : Registers) (flags : Flags)
    (ip : Word) : rm.value view (Exec.setWideAccumulator w product { r with flags, ip }) w =
      rm.value view r w := by
  cases rm with
  | register i =>
    refine (Registers.operand_setWideAccumulator product _ off.1 off.2).trans ?_
    cases w <;> rfl
  | memory segment offset => cases w <;> cases segment <;> rfl

theorem OperandBytes.place_setWideAccumulator (o : OperandBytes) (w : Width)
    (product : BitVec (2 * w.bits)) (r : Registers) (flags : Flags) (ip : Word) (q : PrefixQueue) :
    o.place (Exec.setWideAccumulator w product { r with flags, ip }) q = o.place r q := by
  cases w <;> rfl

namespace Core

variable {c : Core Flat} {prefixes : List Byte} {w : Width} {signed : Bool}

theorem performs_multiply {o : OperandBytes}
    (code : c.bus.CodeAt c.cpu.regs.cs c.cpu.regs.ip (prefixes ++ w.divisionOpcode :: o.bytes))
    (queued : ∀ b ∈ prefixes, isPrefix b = true) (member : o.field = if signed then 5 else 4) :
    let r := c.cpu.regs
    let rm := o.place r (c.cpu.prefixes.pushAll prefixes)
    let product := number signed (r.operand w 0) * number signed (rm.value c.bus.read r w)
    c.Performs prefixes w.divisionOpcode (rm.cost 3 4) ⟨{ c.cpu with
      regs := Exec.setWideAccumulator w (BitVec.ofInt (2 * w.bits) product) { r with
        flags := r.flags.ofProduct w signed product
        ip := r.ip + BitVec.ofNat 16 (prefixes.length + 1 + o.bytes.length) }
      prefixes := .empty
      opcode := w.divisionOpcode
      deferred := 0 }, c.bus⟩ := by
  intro r rm product
  have decoded : Operation.decode w.divisionOpcode = .group3 w := by cases w <;> rfl
  have performs := Performs.of_amounts code queued (by cases w <;> rfl) decoded
    (Exec.amounts_group3_multiply o (fetched_at code) member) (Exec.multiplying_apply _ _)
  cases w <;> exact performs

theorem performs_divide {o : OperandBytes}
    (code : c.bus.CodeAt c.cpu.regs.cs c.cpu.regs.ip (prefixes ++ w.divisionOpcode :: o.bytes))
    (queued : ∀ b ∈ prefixes, isPrefix b = true) (member : o.field = if signed then 7 else 6)
    {quotient remainder : Operand w} :
    let r := c.cpu.regs
    let rm := o.place r (c.cpu.prefixes.pushAll prefixes)
    Arithmetic.divide? signed (Exec.wideAccumulator r w) (rm.value c.bus.read r w) =
        some (quotient, remainder) →
      c.Performs prefixes w.divisionOpcode (Exec.divisionCost rm w signed) ⟨{ c.cpu with
        regs := Exec.setQuotient w quotient remainder { r with
          ip := r.ip + BitVec.ofNat 16 (prefixes.length + 1 + o.bytes.length) }
        prefixes := .empty
        opcode := w.divisionOpcode
        deferred := 0 }, c.bus⟩ := by
  intro r rm comesOut
  let fetched := c.fetched prefixes w.divisionOpcode
  have dividend : Exec.wideAccumulator fetched.cpu.regs w = Exec.wideAccumulator r w :=
    Exec.wideAccumulator_moved r _ w
  have divisor : rm.value c.bus.read fetched.cpu.regs w = rm.value c.bus.read r w :=
    rm.value_moved c.bus.read r _ w
  rw [← dividend, ← divisor] at comesOut
  have decoded : Operation.decode w.divisionOpcode = .group3 w := by cases w <;> rfl
  have performs := Performs.of_amounts code queued (by cases w <;> rfl) decoded
    (Exec.amounts_group3_divide o (fetched_at code) member comesOut) rfl
  cases w <;> exact performs

theorem performs_multiplyInto {form : ImmediateForm} {o : OperandBytes} {bytes : List Byte}
    (code : c.bus.CodeAt c.cpu.regs.cs c.cpu.regs.ip
      (prefixes ++ form.productOpcode :: (o.bytes ++ bytes)))
    (queued : ∀ b ∈ prefixes, isPrefix b = true) (size : bytes.length = form.size .word) :
    let r := c.cpu.regs
    let rm := o.place r (c.cpu.prefixes.pushAll prefixes)
    let product := (rm.value c.bus.read r .word).toInt * (form.value .word bytes).toInt
    c.Performs prefixes form.productOpcode (rm.cost 3 4) ⟨{ c.cpu with
      regs := { r with
        flags := r.flags.ofProduct .word true product
        ip := r.ip + BitVec.ofNat 16 (prefixes.length + 1 + (o.bytes ++ bytes).length)
        }.setOperand .word o.field (BitVec.ofInt 16 product)
      prefixes := .empty
      opcode := form.productOpcode
      deferred := 0 }, c.bus⟩ := by
  intro r rm product
  have decoded : Operation.decode form.productOpcode = .imulImmediate form := by cases form <;> rfl
  have performs := Performs.of_amounts code queued (by cases form <;> rfl) decoded
    (Exec.amounts_imulImmediate o size (fetched_at code)) (Exec.multiplyingInto_apply _ _ _ _)
  rw [← Registers.setOperand_moved] at performs
  exact performs

/-- The wide accumulator holds a product, whatever its size. -/
structure Multiplies (w : Width) (signed : Bool) (v : Operand w) (next : Word) (c d : Core Flat) :
    Prop where
  product : number signed (Exec.wideAccumulator d.cpu.regs w) =
    number signed (c.cpu.regs.operand w 0) * number signed v
  regs : d.cpu.regs = Exec.setWideAccumulator w (Exec.wideAccumulator d.cpu.regs w)
    { c.cpu.regs with
      flags := c.cpu.regs.flags.ofProduct w signed
        (number signed (c.cpu.regs.operand w 0) * number signed v)
      ip := next }
  bus : d.bus = c.bus

theorem Multiplies.of_product {v : Operand w} {next : Word} {d : Core Flat}
    (regs : d.cpu.regs = Exec.setWideAccumulator w (BitVec.ofInt (2 * w.bits)
        (number signed (c.cpu.regs.operand w 0) * number signed v)) { c.cpu.regs with
      flags := c.cpu.regs.flags.ofProduct w signed
        (number signed (c.cpu.regs.operand w 0) * number signed v)
      ip := next }) (bus : d.bus = c.bus) : Multiplies w signed v next c d := by
  have held : Exec.wideAccumulator d.cpu.regs w = BitVec.ofInt (2 * w.bits)
      (number signed (c.cpu.regs.operand w 0) * number signed v) := by
    rw [regs, Exec.wideAccumulator_setWideAccumulator]
  exact ⟨by rw [held, number_ofInt_product], by rw [held, regs], bus⟩

/-- The accumulator is what it was before it was multiplied, and nothing is left of it. -/
structure Restores (w : Width) (signed : Bool) (v : Operand w) (next : Word) (c e : Core Flat) :
    Prop where
  quotient : e.cpu.regs.operand w 0 = c.cpu.regs.operand w 0
  remainder : e.cpu.regs.operand w w.remainderRegister = 0
  regs : e.cpu.regs = Exec.setQuotient w (c.cpu.regs.operand w 0) 0 { c.cpu.regs with
    flags := c.cpu.regs.flags.ofProduct w signed
      (number signed (c.cpu.regs.operand w 0) * number signed v)
    ip := next }
  bus : e.bus = c.bus

section Apart

variable {v : Operand w} {next after : Word} {d e : Core Flat}

theorem Multiplies.dividend (multiplied : Multiplies w signed v next c d) :
    Exec.wideAccumulator d.cpu.regs w = BitVec.ofInt (2 * w.bits)
      (number signed (c.cpu.regs.operand w 0) * number signed v) := by
  rw [← multiplied.product, ofInt_number]

/-- What the place and the fate of the next instruction depend on. -/
theorem Multiplies.rest (multiplied : Multiplies w signed v next c d) :
    d.cpu.regs.cs = c.cpu.regs.cs ∧ d.cpu.regs.ip = next ∧ d.cpu.regs.sp = c.cpu.regs.sp ∧
      d.cpu.regs.flags.trap = c.cpu.regs.flags.trap := by
  rw [multiplied.regs]
  cases w <;> exact ⟨rfl, rfl, rfl, rfl⟩

/-- The stack pointer tells that vector 0 was not entered. -/
theorem Restores.not_faults (restored : Restores w signed v after c e)
    (multiplied : Multiplies w signed v next c d) : ¬ Faults after d e := by
  intro faults
  obtain ⟨-, -, top, -⟩ := multiplied.rest
  have stays : e.cpu.regs.sp = d.cpu.regs.sp := by
    rw [restored.regs, top]
    cases w <;> rfl
  have moves : e.cpu.regs.sp = d.cpu.regs.sp - 6 := by rw [faults.regs]
  bv_omega

end Apart

/-- A multiplication and, behind it, the division by the same operand. -/
structure MultipliesAndDivides (c : Core Flat) (front back : List Byte) (w : Width) (signed : Bool)
    (o o' : OperandBytes) (v : Operand w) : Prop where
  code : c.bus.CodeAt c.cpu.regs.cs c.cpu.regs.ip
    (front ++ w.divisionOpcode :: (o.bytes ++ (back ++ w.divisionOpcode :: o'.bytes)))
  queued : ∀ b ∈ front ++ back, isPrefix b = true
  multiplies : o.field = if signed then 5 else 4
  divides : o'.field = if signed then 7 else 6
  same : o'.place c.cpu.regs (PrefixQueue.empty.pushAll back) =
    o.place c.cpu.regs (c.cpu.prefixes.pushAll front)
  off : (o.place c.cpu.regs (c.cpu.prefixes.pushAll front)).OffAccumulator w
  value : (o.place c.cpu.regs (c.cpu.prefixes.pushAll front)).value c.bus.read c.cpu.regs w = v
  nonzero : v ≠ 0

namespace MultipliesAndDivides

variable {front back : List Byte} {o o' : OperandBytes} {v : Operand w}

/-- Whatever led there: behind the multiplication, the division undoes it. -/
theorem divides_back (both : c.MultipliesAndDivides front back w signed o o' v) {d : Core Flat}
    {next : Word} (multiplied : Multiplies w signed v next c d)
    (behind : next = c.cpu.regs.ip + BitVec.ofNat 16 (front.length + 1 + o.bytes.length))
    (queue : d.cpu.prefixes = .empty) :
    let rm := o.place c.cpu.regs (c.cpu.prefixes.pushAll front)
    ∃ e, d.Performs back w.divisionOpcode (Exec.divisionCost rm w signed) e ∧
      Restores w signed v (next + BitVec.ofNat 16 (back.length + 1 + o'.bytes.length)) c e := by
  intro rm
  obtain ⟨segment, offset, -, -⟩ := multiplied.rest
  have here := both.code.split.2
  rw [← behind, ← multiplied.bus, ← segment, ← offset] at here
  have regs := multiplied.regs
  rw [multiplied.dividend] at regs
  have place : o'.place d.cpu.regs (d.cpu.prefixes.pushAll back) = rm := by
    rw [regs, queue, OperandBytes.place_setWideAccumulator, both.same]
  have divisor : (o'.place d.cpu.regs (d.cpu.prefixes.pushAll back)).value d.bus.read
      d.cpu.regs w = v := by
    rw [place, multiplied.bus, regs, both.off.value, both.value]
  have comesOut := Arithmetic.divide?_product signed (c.cpu.regs.operand w 0) v both.nonzero
  rw [← multiplied.dividend, ← divisor] at comesOut
  have performs := performs_divide here
    (fun b member => both.queued b (List.mem_append_right _ member)) both.divides comesOut
  have left : Exec.setQuotient w (c.cpu.regs.operand w 0) 0 { d.cpu.regs with
        ip := d.cpu.regs.ip + BitVec.ofNat 16 (back.length + 1 + o'.bytes.length) } =
      Exec.setQuotient w (c.cpu.regs.operand w 0) 0 { c.cpu.regs with
        flags := c.cpu.regs.flags.ofProduct w signed
          (number signed (c.cpu.regs.operand w 0) * number signed v)
        ip := next + BitVec.ofNat 16 (back.length + 1 + o'.bytes.length) } := by
    rw [offset, regs]
    cases w <;> rfl
  obtain ⟨quotient, remainder⟩ := Registers.operand_setQuotient w (c.cpu.regs.operand w 0) 0
    { d.cpu.regs with
      ip := d.cpu.regs.ip + BitVec.ofNat 16 (back.length + 1 + o'.bytes.length) }
  rw [place] at performs
  exact ⟨_, performs, quotient, remainder, left, multiplied.bus⟩

theorem multiplied (both : c.MultipliesAndDivides front back w signed o o' v) :
    let rm := o.place c.cpu.regs (c.cpu.prefixes.pushAll front)
    let next := c.cpu.regs.ip + BitVec.ofNat 16 (front.length + 1 + o.bytes.length)
    ∃ d, c.Performs front w.divisionOpcode (rm.cost 3 4) d ∧ Multiplies w signed v next c d ∧
      d.cpu.prefixes = .empty ∧ d.cpu.halted = c.cpu.halted ∧ d.cpu.deferred = 0 := by
  intro rm next
  have performs := performs_multiply both.code.split.1
    (fun b member => both.queued b (List.mem_append_left _ member)) both.multiplies
  refine ⟨_, performs, ?_, rfl, rfl, rfl⟩
  rw [← both.value]
  exact .of_product rfl rfl

end MultipliesAndDivides

/-- A product by an immediate number, of which a register takes the lower half. -/
structure MultipliesInto (reg : BitVec 3) (a b next : Word) (c d : Core Flat) : Prop where
  regs : d.cpu.regs = { c.cpu.regs with
    flags := c.cpu.regs.flags.ofProduct .word true (a.toInt * b.toInt)
    ip := next }.setOperand .word reg (BitVec.ofInt 16 (a.toInt * b.toInt))
  bus : d.bus = c.bus

/-- If the processor runs and is not traced, its step leaves these registers and this bus. -/
def StepsTo (c : Core Flat) (cycles : Nat) (d : Core Flat) : Prop :=
  c.cpu.halted = false → c.cpu.regs.flags.trap = false → ∃ e, Exec.step c = (some cycles, e) ∧
    e.cpu.regs = d.cpu.regs ∧ e.bus = d.bus

/-- Multiplication loses nothing: the wide accumulator holds the product, or the flags tell what a
register loses. So division by the same operand finds the number again, with nothing left. -/
theorem multiplication_exact (c : Core Flat) :
    (∀ (prefixes : List Byte) (w : Width) (signed : Bool) (o : OperandBytes),
      c.bus.CodeAt c.cpu.regs.cs c.cpu.regs.ip (prefixes ++ w.divisionOpcode :: o.bytes) →
      (∀ b ∈ prefixes, isPrefix b = true) → (o.field = if signed then 5 else 4) →
      let rm := o.place c.cpu.regs (c.cpu.prefixes.pushAll prefixes)
      let next := c.cpu.regs.ip + BitVec.ofNat 16 (prefixes.length + 1 + o.bytes.length)
      ∃ d, c.Performs prefixes w.divisionOpcode (rm.cost 3 4) d ∧
        c.StepsTo (c.cpu.deferred + prefixes.length + rm.cost 3 4) d ∧
        Multiplies w signed (rm.value c.bus.read c.cpu.regs w) next c d) ∧
    (∀ (prefixes : List Byte) (form : ImmediateForm) (o : OperandBytes) (bytes : List Byte),
      c.bus.CodeAt c.cpu.regs.cs c.cpu.regs.ip
        (prefixes ++ form.productOpcode :: (o.bytes ++ bytes)) →
      (∀ b ∈ prefixes, isPrefix b = true) → bytes.length = form.size .word →
      let rm := o.place c.cpu.regs (c.cpu.prefixes.pushAll prefixes)
      let next := c.cpu.regs.ip +
        BitVec.ofNat 16 (prefixes.length + 1 + (o.bytes ++ bytes).length)
      ∃ d, c.Performs prefixes form.productOpcode (rm.cost 3 4) d ∧
        c.StepsTo (c.cpu.deferred + prefixes.length + rm.cost 3 4) d ∧
        MultipliesInto o.field (rm.value c.bus.read c.cpu.regs .word) (form.value .word bytes)
          next c d) ∧
    (∀ (front back : List Byte) (w : Width) (signed : Bool) (o o' : OperandBytes) (v : Operand w),
      c.MultipliesAndDivides front back w signed o o' v →
      let rm := o.place c.cpu.regs (c.cpu.prefixes.pushAll front)
      let next := c.cpu.regs.ip + BitVec.ofNat 16 (front.length + 1 + o.bytes.length)
      let after := next + BitVec.ofNat 16 (back.length + 1 + o'.bytes.length)
      ∃ d e, c.Performs front w.divisionOpcode (rm.cost 3 4) d ∧
        d.Performs back w.divisionOpcode (Exec.divisionCost rm w signed) e ∧
        Restores w signed v after c e ∧ ¬ Faults after d e ∧
        (c.cpu.halted = false → c.cpu.regs.flags.trap = false → ∃ d' e',
          Exec.step c = (some (c.cpu.deferred + front.length + rm.cost 3 4), d') ∧
          Exec.step d' = (some (back.length + Exec.divisionCost rm w signed), e') ∧
          e'.cpu.regs = e.cpu.regs ∧ e'.bus = e.bus)) ∧
    ∀ (w : Width) (signed : Bool) (a b : Operand w),
      WideFits signed (number signed a * number signed b) := by
  refine ⟨fun prefixes w signed o code queued member => ?_,
    fun prefixes form o bytes code queued size => ?_,
    fun front back w signed o o' v both => ?_, fun w signed a b => ?_⟩
  · have performs := performs_multiply code queued member
    exact ⟨_, performs, performs.exists_step, .of_product rfl rfl⟩
  · have performs := performs_multiplyInto code queued size
    exact ⟨_, performs, performs.exists_step, rfl, rfl⟩
  · intro rm next after
    obtain ⟨d, performs, multiplied, queue, halted, owed⟩ := both.multiplied
    obtain ⟨e, divides, restored⟩ := both.divides_back multiplied rfl queue
    refine ⟨d, e, performs, divides, restored, restored.not_faults multiplied,
      fun running untrapped => ?_⟩
    obtain ⟨e', divides', restored'⟩ := both.divides_back (d := ⟨{ d.cpu with
      total := c.cpu.total.advance (c.cpu.deferred + front.length + rm.cost 3 4) }, d.bus⟩)
      ⟨multiplied.product, multiplied.regs, multiplied.bus⟩ rfl queue
    obtain ⟨-, -, -, traced⟩ := multiplied.rest
    have second := divides'.step_untrapped (halted.trans running) (traced.trans untrapped)
    have cost : d.cpu.deferred + back.length + Exec.divisionCost rm w signed =
        back.length + Exec.divisionCost rm w signed := by rw [owed, Nat.zero_add]
    dsimp only at second
    rw [cost] at second
    exact ⟨_, _, performs.step_untrapped running untrapped, second,
      restored'.regs.trans restored.regs.symm, restored'.bus.trans restored.bus.symm⟩
  · rw [← number_ofInt_product signed a b]
    exact wideFits_number signed _

/-- In front of `IMUL CL` and `IDIV CL`, with the least number in both places. -/
def squaring : Core Flat where
  cpu := { regs := { ax := 0x1280, cx := 0x80 } }
  bus := (default : Flat).load 0xFFFF0 [0xF6, 0xE9, 0xF6, 0xF9]

/-- In front of `IMUL DX, CX, -1`, with the least number. -/
def negating : Core Flat where
  cpu := { regs := { cx := 0x8000 } }
  bus := (default : Flat).load 0xFFFF0 [0x6B, 0xD1, 0xFF]

/-- The square of the least number has twice its width, and the least number takes it back. Its
opposite has one bit too many. -/
theorem multiplication_exact_extremes :
    (∃ d, Exec.step squaring = (some 3, d) ∧ d.cpu.regs.ax = 0x4000) ∧
    (∃ d, Exec.step negating = (some 3, d) ∧ d.cpu.regs.dx = 0x8000 ∧
      d.cpu.regs.flags.overflow = true) ∧
    ∃ d e, Exec.step squaring = (some 3, d) ∧ Exec.step d = (some 17, e) ∧
      e.cpu.regs.ax = 0x80 ∧ e.cpu.regs.flags.overflow = true := by
  let times := OperandBytes.registers 5 1
  let undone := OperandBytes.registers 7 1
  have code : squaring.bus.CodeAt squaring.cpu.regs.cs squaring.cpu.regs.ip
      ([] ++ Width.byte.divisionOpcode ::
        (times.bytes ++ ([] ++ Width.byte.divisionOpcode :: undone.bytes))) := by
    simp [squaring, times, undone, OperandBytes.bytes, OperandBytes.registers, ModRM.registers,
      Width.divisionOpcode, Flat.CodeAt, Flat.load, Memory.load, Flat.read, Memory.read_write,
      physical]
  have code' : negating.bus.CodeAt negating.cpu.regs.cs negating.cpu.regs.ip
      ([] ++ ImmediateForm.signedByte.productOpcode ::
        ((OperandBytes.registers 2 1).bytes ++ [0xFF])) := by
    simp [negating, OperandBytes.bytes, OperandBytes.registers, ModRM.registers,
      ImmediateForm.productOpcode, Flat.CodeAt, Flat.load, Memory.load, Flat.read,
      Memory.read_write, physical]
  have place : times.place squaring.cpu.regs (squaring.cpu.prefixes.pushAll []) = .register 1 := by
    decide
  have both : squaring.MultipliesAndDivides [] [] .byte true times undone 0x80 := {
    code
    queued := by decide
    multiplies := by decide
    divides := by decide
    same := by decide
    off := by
      rw [place]
      exact ⟨by decide, by decide⟩
    value := by decide
    nonzero := by decide }
  refine ⟨?_, ?_, ?_⟩
  · obtain ⟨d, -, steps, product⟩ := (multiplication_exact squaring).1 [] .byte true times
      code.split.1 (by decide) (by decide)
    obtain ⟨d', first, regs, -⟩ := steps rfl rfl
    rw [place] at first
    refine ⟨d', first, BitVec.eq_of_toInt_eq ?_⟩
    rw [regs]
    exact product.product.trans (by decide)
  · obtain ⟨d, -, steps, product⟩ :=
      (multiplication_exact negating).2.1 _ _ _ _ code' (by decide) rfl
    obtain ⟨d', first, regs, -⟩ := steps rfl rfl
    refine ⟨d', first, ?_, ?_⟩
    · rw [regs, product.regs]
      decide
    · rw [regs, product.regs]
      decide
  · obtain ⟨d, e, -, -, restored, -, steps⟩ :=
      (multiplication_exact squaring).2.2.1 _ _ _ _ _ _ _ both
    obtain ⟨d', e', first, second, regs, -⟩ := steps rfl rfl
    rw [place] at first second
    refine ⟨d', e', first, second, ?_, ?_⟩
    · rw [regs, restored.regs]
      decide
    · rw [regs, restored.regs]
      decide

end Core

end Swan
