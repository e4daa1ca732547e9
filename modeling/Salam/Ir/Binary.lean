import Mathlib.Logic.Function.Basic
import Salam.Engine.Instruction
import Salam.Lib.CString

/-!
# Integer instructions

`Register`, the instructions of the classes `Binary` and `Bitwise` as `BasicBlock::parse` creates them, and their
`compute()` and `commit()`. A register is found by its name. The engine computes on `int64_t` and copies as many bytes
of the result as the return register is large; signed arithmetic, and `<<` of a negative value, wraps in two's
complement, as it is compiled.
-/

namespace Salam.Ir

open CString

/-- What ends a run: `std::out_of_range` and `std::invalid_argument`, the trap of a division, and what the language
leaves undefined. -/
inductive Err
  | outOfRange
  | stoi
  | trap
  | undefined
  deriving DecidableEq

/-! ## Registers -/

/-- `_Value` and `_Size` of a `Register`. -/
structure Register where
  value : Word
  size : Nat
  deriving DecidableEq

/-- `BYTESIZE(X)`. -/
def byteSize (n : Int) : Nat := ((n - 1).tdiv 8 + 1).toNat

namespace Register

/-- `new Register(Name)`. -/
def new : Register := ⟨0, 8⟩

def setSize (r : Register) (dataType : Text) : Except Err Register :=
  if dataType = "pointer".toList then .ok { r with size := 8 }
  else if dataType.getLast? = some '*' then .ok { r with size := 8 }
  else if dataType.head? = some 'i' then
    match stoi (dataType.drop 1) with
    | some n => .ok { r with size := byteSize n }
    | none => .error .stoi
  else if dataType = "float".toList then .ok { r with size := 4 }
  else if dataType = "double".toList then .ok { r with size := 8 }
  else if dataType = "void".toList then .ok { r with size := 0 }
  else if dataType = "label".toList then .ok { r with size := 8 }
  else .ok { r with size := 8 }

/-- The low `_Size` bytes of `_Value` are replaced. -/
def setValue (r : Register) (data : Word) : Register := { r with value := memcpy r.size r.value data }

end Register

/-- The register list: `findRegister` finds the register of a name, and a name that is not in the list yet is added
with `Register::new`. -/
abbrev Regs := Text → Register

/-! ## The integer types -/

/-- The integer types of a whole number of bytes that a register holds. -/
inductive IntTy
  | i8
  | i16
  | i32
  | i64
  deriving DecidableEq

namespace IntTy

def bits : IntTy → Nat
  | i8 => 8
  | i16 => 16
  | i32 => 32
  | i64 => 64

/-- The type as it is written. -/
def text : IntTy → Text
  | i8 => "i8".toList
  | i16 => "i16".toList
  | i32 => "i32".toList
  | i64 => "i64".toList

end IntTy

/-! ## Instructions -/

/-- The integer opcodes of the classes `Binary` and `Bitwise`. -/
inductive Opcode
  | add
  | sub
  | mul
  | udiv
  | sdiv
  | urem
  | srem
  | shl
  | lshr
  | ashr
  | and
  | or
  | xor
  deriving DecidableEq

/-- A `Binary` or `Bitwise` object. `operand` is the immediate: `_Operand`, and `_UOperand` or `_SOperand` where the
class has one. The `_Dependencies` are the registers of `_Operands`. -/
structure Binary where
  opCode : Opcode
  returnType : Text
  returnRegister : Text
  operands : List Text
  operand : Word
  immFirst : Bool
  deriving DecidableEq

/-- `parameters[k]`. -/
def parameter (parameters : List Text) (k : Nat) : Except Err Text :=
  match parameters[k]? with
  | some p => .ok p
  | none => .error .undefined

def isRegister (data : Text) : Bool := data.head? = some '%'

/-- `setRegOperands`: the names of the operands that are registers. -/
def setRegOperands (p₁ p₂ : Text) : List Text := ([p₁, p₂].filter isRegister).map (·.drop 1)

/-- `setImmOperands`: the operands that are not. -/
def setImmOperands (p₁ p₂ : Text) : List Text := [p₁, p₂].filter fun p => !isRegister p

/-- `BasicBlock::parse` for one of these opcodes, from the parameters of the line: the instruction, and the register
list with the size of the return register set by `initializeReturnRegister`. -/
def parse (opCode : Opcode) (ret : Text) (parameters : List Text) (regs : Regs) : Except Err (Binary × Regs) := do
  let last := parameters.length - 1
  if parameters.length < 3 then throw .undefined
  let returnType ← parameter parameters (last - 2)
  let retReg ← (regs ret).setSize returnType
  let p₁ ← parameter parameters (last - 1)
  let p₂ ← parameter parameters last
  let immOp := match setImmOperands p₁ p₂ with
    | [] => 0
    | imm :: _ => BitVec.ofInt 64 (strtol imm)
  return (⟨opCode, returnType, ret, setRegOperands p₁ p₂, immOp, !isRegister p₁⟩, Function.update regs ret retReg)

/-! ## Evaluation -/

/-- `(int32_t) x`. -/
def int32 (x : Word) : Word := (x.setWidth 32).signExtend 64

/-- `(uint32_t) x`. -/
def uint32 (x : Word) : Word := (x.setWidth 32).setWidth 64

/-- `_Ops.at(k)`. -/
def opAt (ops : List Word) (k : Nat) : Except Err Word :=
  match ops[k]? with
  | some x => .ok x
  | none => .error .outOfRange

/-- `a / b` of two `int64_t`. -/
def idiv (a b : Word) : Except Err Word :=
    if b = 0 ∨ (a = BitVec.intMin 64 ∧ b = -1) then .error .trap else .ok (a.sdiv b)

/-- `a % b` of two `int64_t`. -/
def imod (a b : Word) : Except Err Word :=
    if b = 0 ∨ (a = BitVec.intMin 64 ∧ b = -1) then .error .trap else .ok (a.srem b)

/-- `a / b` where one of them is an `uint64_t`. -/
def uidiv (a b : Word) : Except Err Word := if b = 0 then .error .trap else .ok (a / b)

/-- `a << b` of two `int64_t`. -/
def ishl (a b : Word) : Except Err Word := if b.toNat < 64 then .ok (a <<< b.toNat) else .error .undefined

/-- `a >> b` of two `int64_t`. -/
def ishr (a b : Word) : Except Err Word := if b.toNat < 64 then .ok (a.sshiftRight b.toNat) else .error .undefined

/-- The conversion of `_Ops` at the start of `compute()`. -/
def convertOps (conv : Word → Word) (returnType : Text) (operands : List Text) (ops : List Word) :
    Except Err (List Word) :=
  if returnType = "i32".toList then
    if operands.length = 1 then do
      let a ← opAt ops 0
      return ops.set 0 (conv a)
    else do
      let a ← opAt ops 0
      let b ← opAt ops 1
      return (ops.set 0 (conv a)).set 1 (conv b)
  else .ok ops

namespace Binary

/-- The body that all `compute()` have: `withImm` where one operand is the immediate, `onRegs` where none is. -/
def computed (conv : Word → Word) (withImm onRegs : Word → Word → Except Err Word) (i : Binary) (ops : List Word) :
    Except Err Word := do
  let ops ← convertOps conv i.returnType i.operands ops
  if i.operands.length = 1 then
    let a ← opAt ops 0
    if i.immFirst then withImm i.operand a else withImm a i.operand
  else
    let a ← opAt ops 0
    let b ← opAt ops 1
    onRegs a b

end Binary

def Add.compute := Binary.computed int32 (fun a b => .ok (a + b)) (fun a b => .ok (a + b))

def Sub.compute := Binary.computed int32 (fun a b => .ok (a - b)) (fun a b => .ok (a - b))

def Mul.compute := Binary.computed int32 (fun a b => .ok (a * b)) (fun a b => .ok (a * b))

/-- The immediate is `_UOperand`; two registers are divided as `int64_t`. -/
def UDiv.compute := Binary.computed uint32 uidiv idiv

def SDiv.compute := Binary.computed int32 idiv idiv

/-- The immediate is `_Operand`. -/
def URem.compute := Binary.computed uint32 imod imod

def SRem.compute := Binary.computed int32 imod imod

def Shl.compute := Binary.computed int32 ishl ishl

def LShr.compute := Binary.computed int32 ishr ishr

def AShr.compute := Binary.computed int32 ishr ishr

def And.compute := Binary.computed int32 (fun a b => .ok (a &&& b)) (fun a b => .ok (a &&& b))

def Or.compute := Binary.computed int32 (fun a b => .ok (a ||| b)) (fun a b => .ok (a ||| b))

def Xor.compute := Binary.computed int32 (fun a b => .ok (a ^^^ b)) (fun a b => .ok (a ^^^ b))

namespace Binary

/-- `compute()`: the `_Result` that is handed to `setResult`. -/
def compute (i : Binary) : List Word → Except Err Word :=
  match i.opCode with
  | .add => Add.compute i
  | .sub => Sub.compute i
  | .mul => Mul.compute i
  | .udiv => UDiv.compute i
  | .sdiv => SDiv.compute i
  | .urem => URem.compute i
  | .srem => SRem.compute i
  | .shl => Shl.compute i
  | .lshr => LShr.compute i
  | .ashr => AShr.compute i
  | .and => And.compute i
  | .or => Or.compute i
  | .xor => Xor.compute i

end Binary

/-- `setResult(&_Result)` into the `_FinalResult` that holds `final`, and `commit()`. -/
def commit (regs : Regs) (ret : Text) (final result : Word) : Regs :=
  Function.update regs ret ((regs ret).setValue (memcpy (regs ret).size final result))

/-- The operands are fetched from their registers, `compute()` runs, and the result is committed. `final` is what
`_FinalResult` held before. -/
def Binary.exec (i : Binary) (final : Word) (regs : Regs) : Except Err Regs := do
  let result ← i.compute (i.operands.map fun name => (regs name).value)
  return commit regs i.returnRegister final result

end Salam.Ir
