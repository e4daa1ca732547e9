import Salam.Ir.Compare

/-!
# Integer conversions

`trunc`, `zext` and `sext`. The type that `compute()` knows, `_OriginalType`, is the one that is converted to.

* `conversion_committed`: exactly when the converted value is committed. A truncation to `i1` tests the whole value, and
  the sign of the source of `sext` is not looked at.
-/

namespace Salam.Ir

open CString TwosComplement
open BitVec (eq_of_toNat_eq toNat_inj toNat_setWidth)

/-! ## The instructions -/

/-- The integer types that are converted. -/
inductive Width
  | i1
  | i8
  | i16
  | i32
  | i64
  deriving DecidableEq

namespace Width

def bits : Width → Nat
  | i1 => 1
  | i8 => 8
  | i16 => 16
  | i32 => 32
  | i64 => 64

/-- The type as it is written. -/
def text : Width → Text
  | i1 => "i1".toList
  | i8 => "i8".toList
  | i16 => "i16".toList
  | i32 => "i32".toList
  | i64 => "i64".toList

end Width

/-- `Trunc`, `ZExt` and `SExt`. -/
inductive Conv
  | trunc
  | zext
  | sext
  deriving DecidableEq

namespace Conv

/-- The opcode as it is written. -/
def text : Conv → Text
  | trunc => "trunc".toList
  | zext => "zext".toList
  | sext => "sext".toList

/-- The conversions that LLVM has. -/
def Allowed (op : Conv) (src dst : Width) : Prop :=
  match op with
  | trunc => dst.bits < src.bits
  | zext | sext => src.bits < dst.bits

/-- The conversion of LLVM. -/
def convert (op : Conv) {N : Nat} (M : Nat) (x : BitVec N) : BitVec M :=
  match op with
  | trunc | zext => x.setWidth M
  | sext => x.signExtend M

end Conv

/-- An object of one of these classes; `operand` is none for an operand that is not a register. -/
structure Conversion where
  opCode : Conv
  returnType : Text
  returnRegister : Text
  originalType : Text
  operand : Option Text
  deriving DecidableEq

namespace Conversion

/-- `BasicBlock::parse` for one of these opcodes. -/
def parse (opCode : Conv) (l : Line) : Except Err Conversion := do
  let returnType ← parameter l.parameters 0
  let originalType ← parameter l.parameters 3
  let p ← parameter l.parameters 1
  match l.ret with
  | some ret => return ⟨opCode, returnType, ret, originalType, if isRegister p then some (p.drop 1) else none⟩
  | none => throw .undefined

end Conversion

/-- `Trunc::compute()`. For another type `_Result` is indeterminate. -/
def Trunc.compute (originalType : Text) (ops : List Word) : Except Err Word := do
  let a ← opAt ops 0
  if originalType = "i32".toList then return 0xffffffff &&& a
  else if originalType = "i16".toList then return 0xffff &&& a
  else if originalType = "i8".toList then return 0xff &&& a
  else if originalType = "i1".toList then return bit (a != 0)
  else throw .undefined

/-- `ZExt::compute()`. -/
def ZExt.compute (originalType : Text) (ops : List Word) : Except Err Word := do
  let a ← opAt ops 0
  if originalType = "i64".toList then return a
  else if originalType = "i32".toList then return (a.setWidth 32).setWidth 64
  else if originalType = "i16".toList then return (a.setWidth 16).setWidth 64
  else if originalType = "i8".toList then return (a.setWidth 8).setWidth 64
  else if originalType = "i1".toList then return bit (a != 0)
  else throw .undefined

/-- `SExt::compute()`. -/
def SExt.compute (originalType : Text) (ops : List Word) : Except Err Word := do
  let a ← opAt ops 0
  if originalType = "i64".toList then return a
  else if originalType = "i32".toList then return (a.setWidth 32).signExtend 64
  else if originalType = "i16".toList then return (a.setWidth 16).signExtend 64
  else if originalType = "i8".toList then return (a.setWidth 8).signExtend 64
  else if originalType = "i1".toList then return bit (a != 0)
  else throw .undefined

namespace Conversion

/-- `compute()`. -/
def compute (i : Conversion) : List Word → Except Err Word :=
  match i.opCode with
  | .trunc => Trunc.compute i.originalType
  | .zext => ZExt.compute i.originalType
  | .sext => SExt.compute i.originalType

/-- The operand is fetched, `compute()` runs, and the result is committed. -/
def exec (i : Conversion) (final : Word) (regs : Regs) : Except Err Regs := do
  let result ← i.compute (i.operand.toList.map fun name => (regs name).value)
  return commit regs i.returnRegister final result

/-- `  %ret = op src %name to dst` -/
def line (op : Conv) (src dst : Width) (ret name : Text) : Text :=
  ' ' :: ' ' :: '%' :: (ret ++ (' ' :: '=' :: ' ' :: (op.text ++ ' ' :: (src.text ++ ' ' :: ('%' :: name ++ ' ' ::
    ("to".toList ++ ' ' :: dst.text))))))

end Conversion

/-! ## Parsing -/

theorem isWord_width (w : Width) : IsWord w.text := by
  cases w <;> exact ⟨rfl, by decide, by decide, by decide⟩

theorem isWord_register {name : Text} (h : IsName name) : IsWord ('%' :: name) := ⟨rfl, by decide, h.1, h.2⟩

theorem isWord_to : IsWord "to".toList := ⟨rfl, by decide, by decide, by decide⟩

theorem blank_not_mem_conv (op : Conv) : ' ' ∉ op.text := by
  cases op <;> decide

theorem parse_conversion (op : Conv) (src dst : Width) {ret name : Text} (hret : IsName ret) (hname : IsName name) :
    ∃ l, parseLine (Conversion.line op src dst ret name) = some l ∧ l.opCode = op.text ∧
      Conversion.parse op l = .ok ⟨op, src.text, ret, dst.text, some name⟩ := by
  have hwritten : Written [src.text, '%' :: name, "to".toList, dst.text]
      (src.text ++ ' ' :: ('%' :: name ++ ' ' :: ("to".toList ++ ' ' :: dst.text))) :=
    .word (isWord_width src) (.inl rfl) (.word (isWord_register hname) (.inl rfl)
      (.word isWord_to (.inl rfl) (.last (isWord_width dst))))
  exact ⟨_, parseLine_assign hret.1 (blank_not_mem_conv op) hwritten, rfl, rfl⟩

/-! ## The results -/

section Result

variable {src dst : Width} {v : Word}

theorem mask_and {k : Nat} {m v : Word} (hm : m.toNat = 2 ^ k - 1) (hk : k ≤ 64) :
    m &&& v = (v.setWidth k).setWidth 64 := by
  have hlt : v.toNat % 2 ^ k < 2 ^ 64 :=
    Nat.lt_of_lt_of_le (Nat.mod_lt _ (Nat.two_pow_pos k)) (Nat.pow_le_pow_right (by decide) hk)
  apply eq_of_toNat_eq
  rw [BitVec.toNat_and, hm, Nat.and_comm, Nat.and_two_pow_sub_one_eq_mod, toNat_setWidth, toNat_setWidth,
    Nat.mod_eq_of_lt hlt]

/-- A truncation takes the low bits, except one to `i1`. -/
theorem trunc_compute (h : Conv.trunc.Allowed src dst) :
    Trunc.compute dst.text [v] = .ok (if dst = .i1 then bit (v != 0) else (v.setWidth dst.bits).setWidth 64) := by
  cases dst with
  | i1 => rfl
  | i8 =>
    have hmask : (0xff : Word) &&& v = (v.setWidth 8).setWidth 64 := mask_and (by decide) (by decide)
    exact congrArg Except.ok hmask
  | i16 =>
    have hmask : (0xffff : Word) &&& v = (v.setWidth 16).setWidth 64 := mask_and (by decide) (by decide)
    exact congrArg Except.ok hmask
  | i32 =>
    have hmask : (0xffffffff : Word) &&& v = (v.setWidth 32).setWidth 64 := mask_and (by decide) (by decide)
    exact congrArg Except.ok hmask
  | i64 => cases src <;> simp [Conv.Allowed, Width.bits] at h

/-- A value of few bits is its own zero extension, and its own sign extension. -/
theorem low_eq {k : Nat} (hk : k < 64) (hv : v.toNat < 2 ^ (k - 1)) :
    (v.setWidth k).setWidth 64 = v ∧ (v.setWidth k).signExtend 64 = v := by
  have hle : 2 ^ (k - 1) ≤ 2 ^ k := Nat.pow_le_pow_right (by decide) (by omega)
  have hlow : (v.setWidth k).toNat = v.toNat := by
    rw [toNat_setWidth, Nat.mod_eq_of_lt (by omega)]
  have hzero : (v.setWidth k).setWidth 64 = v := by
    apply eq_of_toNat_eq
    rw [toNat_setWidth, hlow, Nat.mod_eq_of_lt v.isLt]
  refine ⟨hzero, ?_⟩
  cases k with
  | zero =>
    obtain rfl : v = 0 := eq_of_toNat_eq (by simpa using hv)
    decide
  | succ k =>
    have hmsb : (v.setWidth (k + 1)).msb = false := by
      rw [BitVec.msb_eq_false_iff_two_mul_lt, hlow, Nat.pow_succ]
      simp only [Nat.add_sub_cancel] at hv
      omega
    rw [BitVec.signExtend_eq_setWidth_of_msb_false hmsb, hzero]

theorem extended_lt (h : src.bits < dst.bits) (hv : v.toNat < 2 ^ src.bits) : v.toNat < 2 ^ (dst.bits - 1) :=
  Nat.lt_of_lt_of_le hv (Nat.pow_le_pow_right (by decide) (by omega))

theorem zext_compute (h : Conv.zext.Allowed src dst) (hv : v.toNat < 2 ^ src.bits) :
    ZExt.compute dst.text [v] = .ok v := by
  have hlt := extended_lt h hv
  cases dst with
  | i1 => cases src <;> simp [Conv.Allowed, Width.bits] at h
  | i8 => exact congrArg Except.ok (low_eq (show 8 < 64 by decide) hlt).1
  | i16 => exact congrArg Except.ok (low_eq (show 16 < 64 by decide) hlt).1
  | i32 => exact congrArg Except.ok (low_eq (show 32 < 64 by decide) hlt).1
  | i64 => rfl

theorem sext_compute (h : Conv.sext.Allowed src dst) (hv : v.toNat < 2 ^ src.bits) :
    SExt.compute dst.text [v] = .ok v := by
  have hlt := extended_lt h hv
  cases dst with
  | i1 => cases src <;> simp [Conv.Allowed, Width.bits] at h
  | i8 => exact congrArg Except.ok (low_eq (show 8 < 64 by decide) hlt).2
  | i16 => exact congrArg Except.ok (low_eq (show 16 < 64 by decide) hlt).2
  | i32 => exact congrArg Except.ok (low_eq (show 32 < 64 by decide) hlt).2
  | i64 => rfl

end Result

/-! ## What is committed -/

/-- Exactly when the conversion of LLVM is committed. -/
def Converts (op : Conv) (dst : Width) {N : Nat} (x : BitVec N) : Prop :=
  match op with
  | .trunc => dst = .i1 → x ≠ 0 → x.getLsbD 0
  | .zext => True
  | .sext => x.msb = false

/-- A truncation to `i1` of a value other than 0 gives 1. -/
theorem trunc_bit_iff {N : Nat} (hN : N ≤ 64) (x : BitVec N) :
    bit (x.setWidth 64 != 0) = (x.setWidth 1).setWidth 64 ↔ (x ≠ 0 → x.getLsbD 0) := by
  have hpow : 2 ^ N ≤ 2 ^ 64 := Nat.pow_le_pow_right (by decide) hN
  have hlow : ((x.setWidth 1).setWidth 64).toNat = x.toNat % 2 := by
    rw [toNat_setWidth, toNat_setWidth, Nat.mod_eq_of_lt (by omega)]
  have hodd : x.getLsbD 0 = true ↔ x.toNat % 2 = 1 := by
    rw [BitVec.getLsbD, Nat.testBit_zero, decide_eq_true_iff]
  have hzero : x.setWidth 64 = 0#64 ↔ x = 0 := by
    rw [← toNat_inj, ← toNat_inj, toNat_setWidth, Nat.mod_eq_of_lt (by omega)]
    rfl
  rw [← toNat_inj, hlow, hodd]
  by_cases h : x = 0
  · subst h
    simp [bit]
  · have hbit : bit (x.setWidth 64 != 0) = 1 := by simp [bit, mt hzero.mp h]
    rw [hbit]
    constructor
    · exact fun heq _ => heq.symm
    · exact fun himp => (himp h).symm

/-- The zero extension is the sign extension of a number without sign bit. -/
theorem sext_iff {N M : Nat} (hNM : N < M) (hM : M ≤ 64) (x : BitVec N) :
    x.setWidth 64 = (x.signExtend M).setWidth 64 ↔ x.msb = false := by
  have hpow : 2 ^ N < 2 ^ M := Nat.pow_lt_pow_right (by decide) hNM
  have hpow' : 2 ^ M ≤ 2 ^ 64 := Nat.pow_le_pow_right (by decide) hM
  rw [← toNat_inj, toNat_setWidth, toNat_setWidth, Nat.mod_eq_of_lt (by omega),
    Nat.mod_eq_of_lt (by omega), BitVec.toNat_signExtend, toNat_setWidth, Nat.mod_eq_of_lt (by omega)]
  cases x.msb with
  | false => simp
  | true =>
    rw [if_pos rfl]
    constructor
    · intro h
      omega
    · intro h
      cases h

/-- What `compute()` gives for a register that holds an `N`-bit value. -/
theorem compute_conversion {op : Conv} {src dst : Width} (h : op.Allowed src dst) (ret : Text) (operand : Option Text)
    (x : BitVec src.bits) :
    ∃ r, Conversion.compute ⟨op, src.text, ret, dst.text, operand⟩ [x.setWidth 64] = .ok r ∧ r.toNat < 2 ^ dst.bits ∧
      (r = (op.convert dst.bits x).setWidth 64 ↔ Converts op dst x) := by
  have hsrc : src.bits ≤ 64 := by cases src <;> decide
  have hdst : dst.bits ≤ 64 := by cases dst <;> decide
  have hpow : 2 ^ src.bits ≤ 2 ^ 64 := Nat.pow_le_pow_right (by decide) hsrc
  have hx := x.isLt
  have hv : (x.setWidth 64).toNat = x.toNat := by
    rw [toNat_setWidth, Nat.mod_eq_of_lt (by omega)]
  have hlow : (x.setWidth 64).setWidth dst.bits = x.setWidth dst.bits := by
    apply eq_of_toNat_eq
    rw [toNat_setWidth, hv, toNat_setWidth]
  cases op with
  | trunc =>
    refine ⟨_, trunc_compute h, ?_, ?_⟩
    · split
      · cases x.setWidth 64 != 0 <;> cases dst <;> decide
      · have hpow' : 2 ^ dst.bits ≤ 2 ^ 64 := Nat.pow_le_pow_right (by decide) hdst
        have hr := (x.setWidth dst.bits).isLt
        rw [hlow, toNat_setWidth, Nat.mod_eq_of_lt (by omega)]
        exact hr
    · by_cases hi1 : dst = .i1
      · subst hi1
        exact (trunc_bit_iff hsrc x).trans (by simp [Converts])
      · rw [if_neg hi1, hlow]
        simp [Conv.convert, Converts, hi1]
  | zext =>
    have hlt := extended_lt h (hv.symm ▸ hx)
    have hle : 2 ^ (dst.bits - 1) ≤ 2 ^ dst.bits := Nat.pow_le_pow_right (by decide) (by omega)
    refine ⟨_, zext_compute h (hv.symm ▸ hx), by omega, ?_⟩
    have hsame : x.setWidth 64 = (x.setWidth dst.bits).setWidth 64 := by
      apply eq_of_toNat_eq
      rw [toNat_setWidth, toNat_setWidth, toNat_setWidth, Nat.mod_eq_of_lt (show x.toNat < 2 ^ dst.bits by omega)]
    simpa [Conv.convert, Converts] using hsame
  | sext =>
    have hlt := extended_lt h (hv.symm ▸ hx)
    have hle : 2 ^ (dst.bits - 1) ≤ 2 ^ dst.bits := Nat.pow_le_pow_right (by decide) (by omega)
    exact ⟨_, sext_compute h (hv.symm ▸ hx), by omega, sext_iff h hdst x⟩

/-- **The converted value is committed, exactly under `Converts`.** -/
theorem conversion_committed {op : Conv} {src dst : Width} (hop : op.Allowed src dst) {ret name : Text}
    (hret : IsName ret)
    (hname : IsName name) :
    ∃ l i, parseLine (Conversion.line op src dst ret name) = some l ∧ Conversion.parse op l = .ok i ∧
      ∀ (final : Word) (regs : Regs), dst.bits ≤ 8 * (regs ret).size →
        (regs ret).value.toNat < 2 ^ (8 * (regs ret).size) → (Operand.reg name).Held src.bits regs →
        ((∃ regs', i.exec final regs = .ok regs' ∧
            (regs' ret).value = (op.convert dst.bits ((Operand.reg name).read src.bits regs)).setWidth 64) ↔
          Converts op dst ((Operand.reg name).read src.bits regs)) := by
  obtain ⟨l, hline, -, hparse⟩ := parse_conversion op src dst hret hname
  refine ⟨l, _, hline, hparse, fun final regs hsize hold hheld => ?_⟩
  obtain ⟨r, hr, hlt, hiff⟩ := compute_conversion hop ret (some name) ((Operand.reg name).read src.bits regs)
  have hvalue := value_eq_read hheld
  have hexec : Conversion.exec ⟨op, src.text, ret, dst.text, some name⟩ final regs = .ok (commit regs ret final r) := by
    have hops : (some name).toList.map (fun name => (regs name).value) =
      [((Operand.reg name).read src.bits regs).setWidth 64] :=
      congrArg (fun v => [v]) hvalue
    rw [Conversion.exec, hops, hr]
    rfl
  have hroom : r.toNat < 2 ^ (8 * (regs ret).size) :=
    Nat.lt_of_lt_of_le hlt (Nat.pow_le_pow_right (by decide) hsize)
  rw [hexec, ← hiff]
  constructor
  · rintro ⟨regs', hregs, hv⟩
    cases hregs
    exact (commit_of_lt hold final hroom).symm.trans hv
  · exact fun h => ⟨_, rfl, (commit_of_lt hold final hroom).trans h⟩

/-- Registers of one byte and of four: `%a` holds -1 as an `i8`, and the rest 0. -/
def minusRegs (name : Text) : Register := if name = ['a'] then ⟨0xff, 1⟩ else ⟨0, 4⟩

/-- `  %x = zext i8 %a to i32` -/
theorem conversion_committed_zext : ∃ l i, parseLine (Conversion.line .zext .i8 .i32 ['x'] ['a']) = some l ∧
    Conversion.parse .zext l = .ok i ∧ ∃ regs', i.exec 0 minusRegs = .ok regs' ∧ (regs' ['x']).value = 0xff := by
  obtain ⟨l, i, hline, hparse, hexec⟩ := conversion_committed
    (show Conv.zext.Allowed .i8 .i32 from show 8 < 32 by decide)
    (show IsName ['x'] from ⟨by decide, by decide⟩) (show IsName ['a'] from ⟨by decide, by decide⟩)
  obtain ⟨regs', hr, hvalue⟩ := (hexec 0 minusRegs (by decide) (by decide) (show _ < _ by decide)).mpr trivial
  exact ⟨l, i, hline, hparse, regs', hr, hvalue.trans (by decide)⟩

/-- `  %x = sext i8 %a to i32` gives 255 for -1. -/
theorem sign_not_extended : ¬ ∀ (op : Conv) (src dst : Width) (ret name : Text), op.Allowed src dst → IsName ret →
    IsName name →
    ∃ l i, parseLine (Conversion.line op src dst ret name) = some l ∧ Conversion.parse op l = .ok i ∧
      ∀ (final : Word) (regs : Regs), dst.bits ≤ 8 * (regs ret).size →
        (regs ret).value.toNat < 2 ^ (8 * (regs ret).size) → (Operand.reg name).Held src.bits regs →
        ∃ regs', i.exec final regs = .ok regs' ∧
          (regs' ret).value = (op.convert dst.bits ((Operand.reg name).read src.bits regs)).setWidth 64 := by
  intro h
  obtain ⟨l, i, hline, hparse, hexec⟩ := h .sext .i8 .i32 ['x'] ['a'] (show 8 < 32 by decide) ⟨by decide, by decide⟩
    ⟨by decide, by decide⟩
  obtain ⟨l', hline', -, hparse'⟩ := parse_conversion .sext .i8 .i32 (show IsName ['x'] from ⟨by decide, by decide⟩)
    (show IsName ['a'] from ⟨by decide, by decide⟩)
  cases hline.symm.trans hline'
  cases hparse.symm.trans hparse'
  obtain ⟨regs', hr, hvalue⟩ := hexec 0 minusRegs (by decide) (by decide) (show _ < _ by decide)
  cases hr
  exact absurd hvalue (by decide)

end Salam.Ir
