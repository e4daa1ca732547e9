import Mathlib.Algebra.Order.Group.Nat
import Mathlib.Algebra.Order.Ring.Int
import Salam.Ir.Binary
import Salam.Lib.System

/-!
# Arithmetic modulo a power of two

The integer instructions of LLVM on `N`-bit values, and what the engine commits for them.

* `parse_operands`, `exec_operands`: an instruction reads its two operands as words, the registers through the
  conversion of its class, the immediate as `atol` left it, and commits the low bytes of the result.
* `modular_committed`: `add`, `sub`, `mul`, `and`, `or`, `xor` and `shl` commit the result of LLVM.
-/

namespace Salam.Ir

open CString

/-! ## The instructions of LLVM -/

/-- The result of an opcode on `N`-bit integers. -/
def llvm {N : Nat} (op : Opcode) (x y : BitVec N) : BitVec N :=
  match op with
  | .add => x + y
  | .sub => x - y
  | .mul => x * y
  | .udiv => x / y
  | .sdiv => x.sdiv y
  | .urem => x % y
  | .srem => x.srem y
  | .shl => x <<< y.toNat
  | .lshr => x >>> y.toNat
  | .ashr => x.sshiftRight y.toNat
  | .and => x &&& y
  | .or => x ||| y
  | .xor => x ^^^ y

/-- An operand as it is written in the line. -/
inductive Operand
  | reg (name : Text)
  | imm (l : Literal)
  deriving DecidableEq

namespace Operand

def text : Operand → Text
  | reg name => '%' :: name
  | imm l => l.text

def isReg : Operand → Bool
  | reg _ => true
  | imm _ => false

/-- The `N`-bit value of an operand. -/
def read (N : Nat) (regs : Regs) : Operand → BitVec N
  | reg name => (regs name).value.setWidth N
  | imm l => BitVec.ofInt N l.value

/-- A register holds an `N`-bit value zero-extended. -/
def Held (N : Nat) (regs : Regs) : Operand → Prop
  | reg name => (regs name).value.toNat < 2 ^ N
  | imm _ => True

/-- A literal is one of the type, and in the range of `long`. LLVM prints a constant as a signed number, which is. -/
def Fits (N : Nat) : Operand → Prop
  | reg _ => True
  | imm l => -2 ^ (N - 1) ≤ l.value ∧ l.value < 2 ^ N ∧ l.value < 2 ^ 63

/-- The word that `compute()` takes for an operand. -/
def word (ty : IntTy) (conv : Word → Word) (regs : Regs) : Operand → Word
  | reg name => if ty = .i32 then conv (regs name).value else (regs name).value
  | imm l => BitVec.ofInt 64 (strtol l.text)

end Operand

namespace IntTy

theorem bits_pos (ty : IntTy) : 0 < ty.bits := by cases ty <;> decide

theorem bits_le (ty : IntTy) : ty.bits ≤ 64 := by cases ty <;> decide

theorem two_pow_le (ty : IntTy) : (2 : Int) ^ (ty.bits - 1) ≤ 2 ^ 63 := by cases ty <;> decide

theorem eight_dvd_bits (ty : IntTy) : 8 * (ty.bits / 8) = ty.bits := by cases ty <;> decide

theorem text_eq_i32 (ty : IntTy) : ty.text = ['i', '3', '2'] ↔ ty = .i32 := by cases ty <;> decide

end IntTy

theorem Register.setSize_int (r : Register) (ty : IntTy) : r.setSize ty.text = .ok { r with size := ty.bits / 8 } := by
  cases ty <;> rfl

/-! ## Parsing -/

theorem isRegister_text (o : Operand) : isRegister o.text = o.isReg := by
  cases o with
  | reg name => rfl
  | imm l =>
    obtain ⟨neg, ds, hd, hne⟩ := l
    cases neg with
    | true => rfl
    | false =>
      cases ds with
      | nil => exact absurd rfl hne
      | cons d ds =>
        have hdigit : d.isDigit := hd d (by simp)
        have hd : d ≠ '%' := by
          rintro rfl
          exact absurd hdigit (by decide)
        simp [isRegister, Operand.text, Literal.text, Operand.isReg, hd]

theorem isRegister_percent (name : Text) : isRegister ('%' :: name) = true := rfl

theorem isRegister_literal (l : Literal) : isRegister l.text = false := isRegister_text (.imm l)

theorem setRegOperands_literal (name : Text) (l : Literal) : setRegOperands ('%' :: name) l.text = [name] ∧
    setRegOperands l.text ('%' :: name) = [name] := by
  simp [setRegOperands, List.filter_cons, isRegister_percent, isRegister_literal]

/-- The instruction of a line with these operands. -/
def Binary.ofOperands (op : Opcode) (ty : IntTy) (ret : Text) (o₁ o₂ : Operand) : Binary where
  opCode := op
  returnType := ty.text
  returnRegister := ret
  operands := setRegOperands o₁.text o₂.text
  operand := match setImmOperands o₁.text o₂.text with
    | [] => 0
    | imm :: _ => BitVec.ofInt 64 (strtol imm)
  immFirst := !o₁.isReg

/-- A line is parsed to the instruction of its operands, whatever flags stand before the type. -/
theorem parse_operands (op : Opcode) (ty : IntTy) (ret : Text) (flags : List Text) (o₁ o₂ : Operand) (regs : Regs) :
    parse op ret (flags ++ [ty.text, o₁.text, o₂.text]) regs =
      .ok (.ofOperands op ty ret o₁ o₂, Function.update regs ret { regs ret with size := ty.bits / 8 }) := by
  have hlen : (flags ++ [ty.text, o₁.text, o₂.text]).length = flags.length + 3 := by simp
  have hty : parameter (flags ++ [ty.text, o₁.text, o₂.text]) (flags.length + 3 - 1 - 2) = .ok ty.text := by
    simp [parameter]
  have h₁ : parameter (flags ++ [ty.text, o₁.text, o₂.text]) (flags.length + 3 - 1 - 1) = .ok o₁.text := by
    simp [parameter]
  have h₂ : parameter (flags ++ [ty.text, o₁.text, o₂.text]) (flags.length + 3 - 1) = .ok o₂.text := by
    simp [parameter]
  have hge : ¬flags.length + 3 < 3 := by omega
  unfold parse
  simp only [hlen, hty, h₁, h₂, hge, if_false, bind, Except.bind, pure, Except.pure, Register.setSize_int,
    isRegister_text]
  rfl

/-! ## The words of the operands -/

/-- One register: the immediate stands on the side that `_ImmFirst` says. -/
theorem computed_one (conv : Word → Word) (withImm onRegs : Word → Word → Except Err Word) {i : Binary}
    (h : i.operands.length = 1) (a : Word) :
    Binary.computed conv withImm onRegs i [a] = let a' := if i.returnType = "i32".toList then conv a else a
      if i.immFirst then withImm i.operand a' else withImm a' i.operand := by
  by_cases h32 : i.returnType = "i32".toList
  · simp only [Binary.computed, convertOps, h, h32, if_true, opAt, bind, Except.bind, pure, Except.pure]
    rfl
  · simp only [Binary.computed, convertOps, h, h32, if_true, if_false, opAt, bind, Except.bind]
    rfl

theorem computed_two (conv : Word → Word) (withImm onRegs : Word → Word → Except Err Word) {i : Binary}
    (h : i.operands.length = 2) (a b : Word) :
    Binary.computed conv withImm onRegs i [a, b] =
      if i.returnType = "i32".toList then onRegs (conv a) (conv b) else onRegs a b := by
  by_cases h32 : i.returnType = "i32".toList
  · simp only [Binary.computed, convertOps, h, h32, if_true, opAt, bind, Except.bind, pure, Except.pure]
    rfl
  · simp only [Binary.computed, convertOps, h, h32, if_false, opAt, bind, Except.bind]
    rfl

variable {o₁ o₂ : Operand}

/-- All bodies combine the words of the two operands. -/
theorem computed_operands (harr : o₁.isReg ∨ o₂.isReg) (op : Opcode) (ty : IntTy) (ret : Text) (conv : Word → Word)
    (withImm onRegs : Word → Word → Except Err Word) (regs : Regs) :
    Binary.computed conv withImm onRegs (.ofOperands op ty ret o₁ o₂)
        ((Binary.ofOperands op ty ret o₁ o₂).operands.map fun name => (regs name).value) =
      (if o₁.isReg ∧ o₂.isReg then onRegs else withImm) (o₁.word ty conv regs) (o₂.word ty conv regs) := by
  cases o₁ with
  | reg n₁ =>
    cases o₂ with
    | reg n₂ =>
      have hops : (Binary.ofOperands op ty ret (.reg n₁) (.reg n₂)).operands = [n₁, n₂] := rfl
      rw [hops]
      refine (computed_two conv withImm onRegs (by rw [hops]; rfl) _ _).trans ?_
      have hi32 : (Binary.ofOperands op ty ret (.reg n₁) (.reg n₂)).returnType = "i32".toList ↔ ty = .i32 :=
        ty.text_eq_i32
      by_cases h32 : ty = .i32
      · rw [if_pos (hi32.mpr h32)]
        simp [Operand.isReg, Operand.word, h32]
      · rw [if_neg (mt hi32.mp h32)]
        simp [Operand.isReg, Operand.word, h32]
    | imm l =>
      have hops : (Binary.ofOperands op ty ret (.reg n₁) (.imm l)).operands = [n₁] := (setRegOperands_literal n₁ l).1
      have himm : (Binary.ofOperands op ty ret (.reg n₁) (.imm l)).operand = BitVec.ofInt 64 (strtol l.text) := by
        simp [Binary.ofOperands, setImmOperands, isRegister_percent, isRegister_literal, Operand.text]
      rw [hops]
      refine (computed_one conv withImm onRegs (by rw [hops]; rfl) _).trans ?_
      rw [himm]
      simp [Binary.ofOperands, IntTy.text_eq_i32, Operand.isReg, Operand.word]
  | imm l =>
    cases o₂ with
    | reg n₂ =>
      have hops : (Binary.ofOperands op ty ret (.imm l) (.reg n₂)).operands = [n₂] := (setRegOperands_literal n₂ l).2
      have himm : (Binary.ofOperands op ty ret (.imm l) (.reg n₂)).operand = BitVec.ofInt 64 (strtol l.text) := by
        simp [Binary.ofOperands, setImmOperands, isRegister_percent, isRegister_literal, Operand.text]
      rw [hops]
      refine (computed_one conv withImm onRegs (by rw [hops]; rfl) _).trans ?_
      rw [himm]
      simp [Binary.ofOperands, IntTy.text_eq_i32, Operand.isReg, Operand.word]
    | imm l₂ => simp [Operand.isReg] at harr

/-! ## Committing -/

theorem getLsbD_memcpy (n : Nat) (dst src : Word) {i : Nat} (hi : i < 64) :
    (memcpy n dst src).getLsbD i = if i < 8 * n then src.getLsbD i else dst.getLsbD i := by
  have hmask : (BitVec.ofNat 64 (2 ^ (8 * n) - 1)).getLsbD i = decide (i < 8 * n) := by
    rw [BitVec.getLsbD_ofNat]
    simp [Nat.testBit_two_pow_sub_one, hi]
  unfold memcpy
  simp only [BitVec.getLsbD_or, BitVec.getLsbD_and, BitVec.getLsbD_not, hmask, hi, decide_true, Bool.true_and]
  by_cases h : i < 8 * n <;> simp [h]

/-- What a register of the size of its type holds after a commit, when it held a value of the type before. -/
theorem memcpy_zeroext {k : Nat} {old : Word} (hold : old.toNat < 2 ^ (8 * k)) (final r : Word) :
    memcpy k old (memcpy k final r) = (r.setWidth (8 * k)).setWidth 64 := by
  apply BitVec.eq_of_getLsbD_eq
  intro i hi
  rw [getLsbD_memcpy _ _ _ hi, getLsbD_memcpy _ _ _ hi, BitVec.getLsbD_setWidth, BitVec.getLsbD_setWidth]
  by_cases h : i < 8 * k
  · simp [h, hi]
  · have hzero : old.getLsbD i = false := by
      exact Nat.testBit_lt_two_pow (Nat.lt_of_lt_of_le hold (Nat.pow_le_pow_right (by omega) (by omega)))
    simp [h, hzero]

variable {regs : Regs} {ret : Text}

theorem commit_low (hheld : (regs ret).value.toNat < 2 ^ (8 * (regs ret).size)) (final r : Word) :
    (commit regs ret final r ret).value = (r.setWidth (8 * (regs ret).size)).setWidth 64 := by
  simpa [commit, Register.setValue] using memcpy_zeroext hheld final r

/-- The return register after the commit, in a register of the size of the type. -/
theorem commit_value {ty : IntTy} (hsize : (regs ret).size = ty.bits / 8) (hheld : (regs ret).value.toNat < 2 ^ ty.bits)
    (final r : Word) : (commit regs ret final r ret).value = (r.setWidth ty.bits).setWidth 64 := by
  have hbits := ty.eight_dvd_bits
  have hlow := commit_low (show (regs ret).value.toNat < 2 ^ (8 * (regs ret).size) by rwa [hsize, hbits]) final r
  rwa [hsize, hbits] at hlow

/-- A result that the return register has room for is held as it is. -/
theorem commit_of_lt (hheld : (regs ret).value.toNat < 2 ^ (8 * (regs ret).size)) (final : Word) {r : Word}
    (hr : r.toNat < 2 ^ (8 * (regs ret).size)) : (commit regs ret final r ret).value = r := by
  rw [commit_low hheld]
  apply BitVec.eq_of_toNat_eq
  rw [BitVec.toNat_setWidth, BitVec.toNat_setWidth, Nat.mod_eq_of_lt hr, Nat.mod_eq_of_lt r.isLt]

/-! ## The low bits of the words -/

theorem setWidth_int32 (ty : IntTy) (h : ty.bits ≤ 32) (x : Word) :
    (int32 x).setWidth ty.bits = x.setWidth ty.bits := by
  unfold int32
  apply BitVec.eq_of_getLsbD_eq
  intro i hi
  have hi32 : i < 32 := by omega
  have hi64 : i < 64 := by omega
  rw [BitVec.getLsbD_setWidth, BitVec.getLsbD_setWidth, BitVec.getLsbD_signExtend, BitVec.getLsbD_setWidth]
  simp [hi, hi32, hi64]

theorem setWidth_ofInt {N : Nat} (hN : N ≤ 64) (z : Int) : (BitVec.ofInt 64 z).setWidth N = BitVec.ofInt N z := by
  apply BitVec.eq_of_toNat_eq
  have hdvd : ((2 ^ N : Nat) : Int) ∣ ((2 ^ 64 : Nat) : Int) := Int.natCast_dvd_natCast.mpr (Nat.pow_dvd_pow 2 hN)
  have hmod : z % ((2 ^ 64 : Nat) : Int) % ((2 ^ N : Nat) : Int) = z % ((2 ^ N : Nat) : Int) :=
    Int.emod_emod_of_dvd z hdvd
  have hnonneg : 0 ≤ z % ((2 ^ 64 : Nat) : Int) := Int.emod_nonneg z (by decide)
  rw [BitVec.toNat_setWidth, BitVec.toNat_ofInt, BitVec.toNat_ofInt, ← hmod, Int.toNat_emod hnonneg (by omega),
    Int.toNat_natCast]

/-- The low bits of the word of an operand are the operand. -/
theorem setWidth_word (ty : IntTy) {o : Operand} (hfits : o.Fits ty.bits) (regs : Regs) :
    (o.word ty int32 regs).setWidth ty.bits = o.read ty.bits regs := by
  cases o with
  | reg name =>
    by_cases h32 : ty = .i32
    · subst h32
      exact setWidth_int32 .i32 (Nat.le_refl 32) (regs name).value
    · simp [Operand.word, Operand.read, h32]
  | imm l =>
    obtain ⟨hlo, -, hhi⟩ := hfits
    have hpow := ty.two_pow_le
    have hread := strtol_of_fits l ⟨by omega, hhi⟩
    rw [Operand.word, hread]
    exact setWidth_ofInt ty.bits_le l.value

theorem int32_of_lt {x : Word} (h : x.toNat < 2 ^ 31) : int32 x = x := by
  have hx : (x.setWidth 32).toNat = x.toNat := by
    rw [BitVec.toNat_setWidth, Nat.mod_eq_of_lt (by omega)]
  have hmsb : (x.setWidth 32).msb = false := by
    rw [BitVec.msb_eq_false_iff_two_mul_lt, hx]
    omega
  rw [int32, BitVec.signExtend_eq_setWidth_of_msb_false hmsb]
  apply BitVec.eq_of_toNat_eq
  rw [BitVec.toNat_setWidth, hx, Nat.mod_eq_of_lt x.isLt]

/-- The amount of a shift is read as it is. -/
theorem toNat_word (ty : IntTy) {o : Operand} (hfits : o.Fits ty.bits) (hheld : o.Held ty.bits regs)
    (h : (o.read ty.bits regs).toNat < ty.bits) : (o.word ty int32 regs).toNat = (o.read ty.bits regs).toNat := by
  cases o with
  | reg name =>
    have hread : ((regs name).value.setWidth ty.bits).toNat = (regs name).value.toNat := by
      rw [BitVec.toNat_setWidth, Nat.mod_eq_of_lt hheld]
    have hlt : (regs name).value.toNat < ty.bits := by rwa [Operand.read, hread] at h
    have hle := ty.bits_le
    rw [Operand.read, hread, Operand.word]
    split
    · rw [int32_of_lt (by omega)]
    · rfl
  | imm l =>
    obtain ⟨hlo, hty, hhi⟩ := hfits
    have hpow := ty.two_pow_le
    have hread := strtol_of_fits l ⟨by omega, hhi⟩
    rw [Operand.read, BitVec.toNat_ofInt] at h ⊢
    rw [Operand.word, hread, BitVec.toNat_ofInt]
    -- a negative literal stands for an amount of at least half the range
    cases ty <;> simp only [IntTy.bits] at hlo hty h ⊢ <;> omega

/-! ## The modular instructions -/

theorem setWidth_sub {N : Nat} (hN : N ≤ 64) (a b : Word) : (a - b).setWidth N = a.setWidth N - b.setWidth N := by
  rw [BitVec.sub_eq_add_neg, BitVec.setWidth_add _ _ hN, BitVec.setWidth_neg_of_le hN, ← BitVec.sub_eq_add_neg]

/-- The opcodes whose result modulo a power of two depends on the operands modulo that power only. -/
def Opcode.modular : Opcode → Bool
  | .add | .sub | .mul | .and | .or | .xor | .shl => true
  | .udiv | .sdiv | .urem | .srem | .lshr | .ashr => false

/-- A body that does not ask for the immediate. -/
theorem computed_same (harr : o₁.isReg ∨ o₂.isReg) (op : Opcode) (ty : IntTy) (ret : Text) (conv : Word → Word)
    (f : Word → Word → Except Err Word) (regs : Regs) : Binary.computed conv f f (.ofOperands op ty ret o₁ o₂)
        ((Binary.ofOperands op ty ret o₁ o₂).operands.map fun name => (regs name).value) =
      f (o₁.word ty conv regs) (o₂.word ty conv regs) := by
  rw [computed_operands harr, ite_self]

/-- The words of the operands give the result of LLVM in the low bits. -/
theorem compute_modular {op : Opcode} (hop : op.modular) (ty : IntTy) (ret : Text) (harr : o₁.isReg ∨ o₂.isReg)
    (h₁ : o₁.Fits ty.bits) (h₂ : o₂.Fits ty.bits) (hheld : o₂.Held ty.bits regs)
    (hshl : op = .shl → (o₂.read ty.bits regs).toNat < ty.bits) : ∃ r, (Binary.ofOperands op ty ret o₁ o₂).compute
        ((Binary.ofOperands op ty ret o₁ o₂).operands.map fun name => (regs name).value) = .ok r ∧
      r.setWidth ty.bits = llvm op (o₁.read ty.bits regs) (o₂.read ty.bits regs) := by
  have hle := ty.bits_le
  rw [← setWidth_word ty h₁ regs, ← setWidth_word ty h₂ regs]
  cases op with
  | add => exact ⟨_, computed_same harr .add ty ret int32 _ regs, BitVec.setWidth_add _ _ hle⟩
  | sub => exact ⟨_, computed_same harr .sub ty ret int32 _ regs, setWidth_sub hle _ _⟩
  | mul => exact ⟨_, computed_same harr .mul ty ret int32 _ regs, BitVec.setWidth_mul _ _ hle⟩
  | and => exact ⟨_, computed_same harr .and ty ret int32 _ regs, BitVec.setWidth_and⟩
  | or => exact ⟨_, computed_same harr .or ty ret int32 _ regs, BitVec.setWidth_or⟩
  | xor => exact ⟨_, computed_same harr .xor ty ret int32 _ regs, BitVec.setWidth_xor⟩
  | shl =>
    have hlt := hshl rfl
    have hamount := toNat_word ty h₂ hheld hlt
    refine ⟨o₁.word ty int32 regs <<< (o₂.word ty int32 regs).toNat, ?_, ?_⟩
    · refine (computed_same harr .shl ty ret int32 ishl regs).trans ?_
      rw [ishl, if_pos (by omega)]
    · rw [setWidth_word ty h₂ regs, llvm, hamount, BitVec.setWidth_shiftLeft_of_le hle]
  | udiv | sdiv | urem | srem | lshr | ashr => cases hop

/-- **Modular instructions.** A line of `add`, `sub`, `mul`, `and`, `or`, `xor`, or `shl` by less than the width, is
parsed to an instruction that commits the result of LLVM, zero-extended, and changes no other register. -/
theorem modular_committed {op : Opcode} (hop : op.modular) (ty : IntTy) (ret : Text) (flags : List Text)
    {o₁ o₂ : Operand} (harr : o₁.isReg ∨ o₂.isReg) (h₁ : o₁.Fits ty.bits) (h₂ : o₂.Fits ty.bits) (parsed : Regs) :
    ∃ i parsed', parse op ret (flags ++ [ty.text, o₁.text, o₂.text]) parsed = .ok (i, parsed') ∧
      ∀ (final : Word) (regs : Regs), (regs ret).size = (parsed' ret).size →
        o₂.Held ty.bits regs → (regs ret).value.toNat < 2 ^ ty.bits →
        (op = .shl → (o₂.read ty.bits regs).toNat < ty.bits) →
        ∃ regs', i.exec final regs = .ok regs' ∧
          (regs' ret).value = (llvm op (o₁.read ty.bits regs) (o₂.read ty.bits regs)).setWidth 64 ∧
          (regs' ret).value.toNat < 2 ^ ty.bits ∧ ∀ name ≠ ret, regs' name = regs name := by
  refine ⟨_, _, parse_operands op ty ret flags o₁ o₂ parsed, ?_⟩
  intro final regs hsize hheld₂ hret hshl
  obtain ⟨r, hr, hlow⟩ := compute_modular hop ty ret harr h₁ h₂ hheld₂ hshl
  have hsize' : (regs ret).size = ty.bits / 8 := by simpa using hsize
  have hvalue : (commit regs ret final r ret).value =
    (llvm op (o₁.read ty.bits regs) (o₂.read ty.bits regs)).setWidth 64 := by
    rw [commit_value hsize' hret, hlow]
  refine ⟨commit regs ret final r, ?_, hvalue, ?_, ?_⟩
  · rw [Binary.exec, hr]
    rfl
  · rw [hvalue, BitVec.toNat_setWidth]
    exact Nat.lt_of_le_of_lt (Nat.mod_le _ _) (BitVec.isLt _)
  · intro name hne
    simp [commit, hne]

theorem isDigit_one : ∀ c ∈ ['1'], c.isDigit = true := fun c hc => by
  rw [List.mem_singleton.mp hc]
  rfl

theorem one_ne_nil : ['1'] ≠ [] := List.cons_ne_nil _ _

def minusOne : Literal := ⟨true, ['1'], isDigit_one, one_ne_nil⟩

/-- `%x = add i8 %a, -1`, where `%a` holds 0. -/
theorem modular_committed_add : ∃ i parsed',
    parse .add ['x'] ["i8".toList, "%a".toList, "-1".toList] (fun _ => .new) = .ok (i, parsed') ∧
    ∃ regs', i.exec 0 (fun _ => ⟨0, 1⟩) = .ok regs' ∧ (regs' ['x']).value = 255 := by
  obtain ⟨i, parsed', hparse, hexec⟩ := modular_committed (show Opcode.add.modular = true from rfl) .i8 ['x'] []
    (show (Operand.reg ['a']).isReg = true ∨ (Operand.imm minusOne).isReg = true from .inl rfl) trivial
      ⟨by decide, by decide, by decide⟩ fun _ => .new
  have hp : parsed' ['x'] = ⟨0, 1⟩ := by
    have h := hparse.symm.trans (parse_operands .add .i8 ['x'] [] (.reg ['a']) (.imm minusOne) fun _ => .new)
    cases h
    rfl
  obtain ⟨regs', hr, hvalue, -⟩ := hexec 0 (fun _ => ⟨0, 1⟩) (by rw [hp]) trivial (by decide) (by decide)
  exact ⟨i, parsed', hparse, regs', hr, hvalue.trans (by decide)⟩

/-! ## Runs -/

/-- Every register holds a value of its size. -/
def Regs.Fits (regs : Regs) : Prop := ∀ name, (regs name).value.toNat < 2 ^ (8 * (regs name).size)

theorem commit_fits (h : regs.Fits) (ret : Text) (final r : Word) : (commit regs ret final r).Fits := by
  intro name
  by_cases hne : name = ret
  · subst hne
    have hvalue := memcpy_zeroext (h name) final r
    simp only [commit, Function.update_self, Register.setValue, hvalue, BitVec.toNat_setWidth]
    exact Nat.lt_of_le_of_lt (Nat.mod_le _ _) (Nat.mod_lt _ (Nat.two_pow_pos _))
  · simpa [commit, hne] using h name

/-- The runs of integer instructions on a register list whose values have the sizes of their registers. An event is an
instruction and what its `_FinalResult` holds. -/
def datapath : System Regs (Binary × Word) where
  init := Regs.Fits
  step regs e := (e.1.exec e.2 regs).toOption

/-- **Register representation.** A run that starts with values of the registers' sizes keeps the bytes of a register
above its size zero. -/
theorem fits_of_reachable (h : datapath.Reachable regs) : regs.Fits := by
  refine System.invariantWhen (I := Regs.Fits) ?_ ?_ h
  · exact fun _ hinit => hinit
  · intro regs e regs' _ hfits _ hstep
    cases hr : e.1.compute (e.1.operands.map fun name => (regs name).value) with
    | error err => simp [datapath, Binary.exec, hr, bind, Except.bind, Except.toOption] at hstep
    | ok r =>
      have hexec : datapath.step regs e = some (commit regs e.1.returnRegister e.2 r) := by
        simp only [datapath, Binary.exec, hr]
        rfl
      cases hexec.symm.trans hstep
      exact commit_fits hfits _ _ _

/-- `%x = add i8 %a, -1`, where every register holds 1, as `alwaysTrue` does. -/
theorem fits_of_reachable_add : ∃ regs, datapath.Reachable regs ∧ (regs ['x']).value = 0 ∧ regs.Fits := by
  have hinit : datapath.init fun _ => ⟨1, 1⟩ := fun _ => show (1 : Word).toNat < 2 ^ (8 * 1) by decide
  have hreach : datapath.Reachable (commit (fun _ => ⟨1, 1⟩) ['x'] 0 0) :=
    (System.ReachableWhen.init hinit).step (a := (⟨.add, "i8".toList, ['x'], [['a']], -1, false⟩, 0)) trivial rfl
  exact ⟨_, hreach, by decide, fits_of_reachable hreach⟩

end Salam.Ir
