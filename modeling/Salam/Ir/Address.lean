import Salam.Ir.Compare

/-!
# Address arithmetic

`getelementptr` from its parameters to the address. `compute()` finds the lengths of nested arrays by scanning the text
of the type, into arrays that have one element for each index.

* `count_strides`: the products of the lengths are the strides.
* `address_computed`: exactly when the address of LLVM is computed.
-/

namespace Salam.Ir

open CString TwosComplement

/-! ## The instruction -/

/-- The elements of `typeList`: the name and the size of a custom data type. -/
abbrev TypeList := List (Text × Word)

/-- The custom data type of a line that starts with `%struct`: its elements are counted by the commas. -/
def llvmType (line : Text) : Text × Word :=
  match find line '=' 0 with
  | some pos => (substr line 1 (pos - 2), BitVec.ofNat 64 (1 + (line.drop pos).count ','))
  | none => (line.drop 1, 1)

/-- The list that `constructBBList` builds from the lines in front of the function. -/
def typeList (lines : List Text) : TypeList := (lines.filter ("%struct".toList.isPrefixOf ·)).map llvmType

def findType (types : TypeList) (name : Text) : Option Word := (types.find? (·.1 = name)).map (·.2)

/-- A `GetElementPtr` object. `idx` are the `_Dependencies`, a register or NULL for each of the `_Index` indices, and
`llvmType` is the size of `_LLVMType`. -/
structure GetElementPtr where
  returnRegister : Text
  pty : Text
  llvmType : Option Word
  idx : List (Option Text)
  immIdx : List Word
  ptrVal : Text
  deriving DecidableEq

namespace GetElementPtr

/-- The words of a text, as an `istream_iterator` reads them. -/
def words : Text → Text → List Text
  | [], w => if w = [] then [] else [w]
  | c :: s, w => if isSpace c then if w = [] then words s [] else w :: words s [] else words s (w ++ [c])

/-- The register of the base address: one that is made for an embedded `inttoptr`, one of the list, or a new one.
`known` says which names `findRegister` finds. -/
def pointer (known : Text → Bool) (parameters : List Text) (first : Nat) (regs : Regs) : Except Err (Text × Regs) := do
  let ptr ← parameter parameters (first + 2)
  if (search "inttoptr".toList ptr).isSome then
    let embedded ← parameter parameters (first + 3)
    match words embedded [] with
    | _ :: address :: _ =>
      let name := "%global_".toList ++ address
      return (name, Function.update regs name (Register.new.setValue (BitVec.ofInt 64 (strtol address))))
    | _ => throw .undefined
  else if known (ptr.drop 1) then return (ptr.drop 1, regs)
  else
    let name ← parameter parameters 3
    return (name, Function.update regs name .new)

/-- The custom data type of the source element type. -/
def customType (types : TypeList) (pty : Text) : Option Word :=
  let start := (find pty '%' 0).elim 0 (· + 1)
  match pty with
  | '[' :: _ =>
    match find pty ']' 0 with
    | some k => findType types (if start ≤ k then substr pty start (k - start) else pty.drop start)
    | none => findType types (pty.drop start)
  | '%' :: _ => findType types (substr pty start (((find pty ' ' 0).getD pty.length) - start))
  | _ => none

/-- The loop over the indices: types and values. -/
def indices : List Text → Except Err (List (Option Text × Word))
  | [] => .ok []
  | _ :: p :: ps => do
    let rest ← indices ps
    return (if isRegister p then (some (p.drop 1), 0) else (none, BitVec.ofInt 64 (strtol p))) :: rest
  | [_] => .error .undefined

/-- `BasicBlock::parse` for `getelementptr`. -/
def parse (types : TypeList) (known : Text → Bool) (ret : Text) (parameters : List Text) (regs : Regs) :
    Except Err (GetElementPtr × Regs) := do
  let retReg ← (regs ret).setSize "pointer".toList
  let p₀ ← parameter parameters 0
  let first := if p₀ = "inbounds".toList then 1 else 0
  let pty ← parameter parameters first
  let (ptrVal, regs) ← pointer known parameters first (Function.update regs ret retReg)
  let ptr ← parameter parameters (first + 2)
  -- only the branch for `inbounds` skips the parameter of the embedded address
  let skipped := if p₀ = "inbounds".toList ∧ (search "inttoptr".toList ptr).isSome then 1 else 0
  let index := first + (if pty.getLast? = some '*' then 1 else 2) + skipped
  let idx ← indices (parameters.drop (index + 1))
  return (⟨ret, pty, customType types pty, idx.map (·.1), idx.map (·.2), ptrVal⟩, regs)

/-! ## Evaluation -/

/-- The `_Ops`: values of registers, and 0 where an index is immediate. -/
def ops (i : GetElementPtr) (regs : Regs) : List Word := i.idx.map fun d => d.elim 0 fun name => (regs name).value

/-- The `k`-th index. -/
def index (i : GetElementPtr) (ops : List Word) (k : Nat) : Except Err Word :=
  match i.idx[k]? with
  | none => .error .outOfRange
  | some none => opAt i.immIdx k
  | some (some _) => opAt ops k

/-- The size of the elements of the innermost array, whose `[` stands at `prev` and whose `]` stands at `pos`. -/
def elementSize (pty : Text) (prev pos : Nat) : Except Err Word :=
  let sub := (find pty 'x' prev).elim 1 (· + 2)
  if pty.length < sub then .error .outOfRange
  else
    match if sub ≤ pos then substr pty sub (pos - sub) else pty.drop sub with
    | [] => .error .undefined
    | 'i' :: bits =>
      match stoi bits with
      | some n => .ok (BitVec.ofInt 64 ((n - 1).tdiv 8 + 1))
      | none => .error .stoi
    | dataType =>
      if dataType = "float".toList then .ok 4 else if dataType = "double".toList then .ok 8 else .ok 0

/-- The scan of the type for lengths, which are stored from `elements[j]` on, up to the first `]`: the arrays, the
number of them, and `dataSize`. -/
def scanType (i : GetElementPtr) : Nat → Text → List Word → Nat → Nat → Except Err (List Word × Nat × Word)
  | _, [], elements, j, _ => .ok (elements, j, 0)
  | pos, c :: s, elements, j, prev =>
    if c = '[' then
      match stoi ((find i.pty ' ' pos).elim (i.pty.drop (pos + 1)) fun k => substr i.pty (pos + 1) (k - pos - 1)) with
      | some n =>
        if j < elements.length then scanType i (pos + 1) s (elements.set j (BitVec.ofInt 64 n)) (j + 1) pos
        else .error .undefined
      | none => .error .stoi
    else if c = ']' then
      match i.llvmType with
      | some size => .ok (elements, j + 1, size * 8)
      | none => do
        let dataSize ← elementSize i.pty prev pos
        return (elements, j, dataSize)
    else scanType i (pos + 1) s elements j prev

/-- The loop over `0 ≤ i ≤ j`, of which `n` rounds remain: the index times the product of `elements[0 .. j]`, in which
the elements of the indices before are 1. -/
def count (i : GetElementPtr) (ops : List Word) (j : Nat) : Nat → Nat → List Word → Word → Except Err Word
  | 0, _, _, finalCount => .ok finalCount
  | n + 1, k, elements, finalCount => do
    if elements.length < j + 1 then throw .undefined
    let x ← i.index ops k
    count i ops j n (k + 1) (elements.set k 1) (finalCount + (elements.take (j + 1)).foldl (· * ·) 1 * x)

/-- `size[i]` of a type that is neither an array nor a custom data type. -/
def scalarSize (pty : Text) : Except Err Word :=
  match pty with
  | 'i' :: bits =>
    match stoi bits with
    | some n => .ok (BitVec.ofInt 64 (n.tdiv 8))
    | none => .error .stoi
  | _ =>
    if "double".toList.isPrefixOf pty then .ok 8 else if "float".toList.isPrefixOf pty then .ok 4 else .ok 1

/-- The sum over the indices of such a type. -/
def scaled (i : GetElementPtr) (ops : List Word) : Nat → Nat → Word → Except Err Word
  | 0, _, acc => .ok acc
  | n + 1, k, acc => do
    let size ← scalarSize i.pty
    let x ← i.index ops k
    scaled i ops n (k + 1) (acc + x * size)

/-- `GetElementPtr::compute()`: the `newAddress` that is handed to `setResult`. -/
def compute (i : GetElementPtr) (activePtr : Word) (ops : List Word) : Except Err Word :=
  match i.pty with
  | '%' :: _ =>
    match i.llvmType with
    | some size => do
      let x ← i.index ops 0
      let y ← i.index ops 1
      return activePtr + (size * x + y) * 8
    | none => do
      let x ← i.index ops 0
      return activePtr + x * 4
  | '[' :: _ => do
    let (elements, j, dataSize) ← scanType i 0 i.pty (i.idx.map fun _ => 1) 0 0
    let finalCount ← count i ops j (j + 1) 0 elements 0
    return activePtr + finalCount * dataSize
  | _ => do
    let offset ← scaled i ops i.idx.length 0 0
    return offset + activePtr

end GetElementPtr

/-! ## Types and indices of LLVM -/

/-- The types that arrays are built from. -/
inductive Leaf
  /-- The integers of `n + 1` bytes. -/
  | int (n : Nat)
  | float
  | double
  deriving DecidableEq

namespace Leaf

def text : Leaf → Text
  | int n => 'i' :: Nat.toDigits 10 (8 * (n + 1))
  | float => "float".toList
  | double => "double".toList

@[simp] theorem text_int (n : Nat) : (int n).text = 'i' :: Nat.toDigits 10 (8 * (n + 1)) := rfl

@[simp] theorem text_float : float.text = "float".toList := rfl

@[simp] theorem text_double : double.text = "double".toList := rfl

def bytes : Leaf → Nat
  | int n => n + 1
  | float => 4
  | double => 8

end Leaf

/-- Arrays that are nested to any depth. -/
inductive Ty
  | leaf (l : Leaf)
  | array (n : Nat) (t : Ty)
  deriving DecidableEq

namespace Ty

def text : Ty → Text
  | leaf l => l.text
  | array n t => '[' :: (Nat.toDigits 10 n ++ (' ' :: 'x' :: ' ' :: (t.text ++ [']'])))

def bytes : Ty → Nat
  | leaf l => l.bytes
  | array n t => n * t.bytes

def depth : Ty → Nat
  | leaf _ => 0
  | array _ t => t.depth + 1

/-- The sizes that the indices step over: the type itself, then its elements. -/
def strides : Ty → List Nat
  | leaf l => [l.bytes]
  | array n t => n * t.bytes :: t.strides

/-- The numbers in the type are ones of an `int`. -/
def Small : Ty → Prop
  | leaf (.int n) => 8 * (n + 1) < 2 ^ 31
  | leaf _ => True
  | array n t => n < 2 ^ 31 ∧ t.Small

end Ty

/-- An index of type `i32` or `i64`. -/
structure Index where
  wide : Bool
  operand : Operand

namespace Index

def bits (x : Index) : Nat := if x.wide then 64 else 32

def typeText (x : Index) : Text := if x.wide then "i64".toList else "i32".toList

/-- The index as a signed number. -/
def value (regs : Regs) (x : Index) : Int := (x.operand.read x.bits regs).toInt

/-- How much the number that `compute()` takes differs from it. -/
def misread (regs : Regs) (x : Index) : Int :=
  match x.operand with
  | .reg _ => if !x.wide && (x.operand.read x.bits regs).msb then 2 ^ 32 else 0
  | .imm l => if l.value < 2 ^ (x.bits - 1) then 0 else if x.wide then 2 ^ 63 - 1 - (l.value - 2 ^ 64) else 2 ^ 32

end Index

/-- The sum of the indices times their strides. -/
def weighted : List Nat → List Int → Int
  | s :: ss, x :: xs => s * x + weighted ss xs
  | _, _ => 0

/-- The address of LLVM. -/
def address (base : Word) (t : Ty) (xs : List Int) : Word := base + BitVec.ofInt 64 (weighted t.strides xs)

/-! ## The words of the indices -/

namespace Index

/-- What `compute()` takes for an index. -/
def word (regs : Regs) (x : Index) : Word :=
  match x.operand with
  | .reg name => (regs name).value
  | .imm l => BitVec.ofInt 64 (strtol l.text)

variable {regs : Regs}

theorem word_reg {wide : Bool} {name : Text} (h : (Operand.reg name).Held (if wide then 64 else 32) regs) :
    word regs ⟨wide, .reg name⟩ = BitVec.ofInt 64 (value regs ⟨wide, .reg name⟩ + misread regs ⟨wide, .reg name⟩) := by
  cases wide with
  | true =>
    show (regs name).value = BitVec.ofInt 64 (((regs name).value.setWidth 64).toInt + 0)
    rw [BitVec.setWidth_eq, Int.add_zero, BitVec.ofInt_toInt]
  | false =>
    have hheld : (regs name).value.toNat < 2 ^ 32 := h
    have hlow : ((regs name).value.setWidth 32).toNat = (regs name).value.toNat := by
      rw [BitVec.toNat_setWidth, Nat.mod_eq_of_lt hheld]
    have hword : (regs name).value = BitVec.ofInt 64 ((regs name).value.setWidth 32).toNat := by
      apply BitVec.eq_of_toNat_eq
      rw [hlow, BitVec.ofInt_natCast, BitVec.toNat_ofNat, Nat.mod_eq_of_lt (regs name).value.isLt]
    show (regs name).value = BitVec.ofInt 64 (((regs name).value.setWidth 32).toInt +
      if !false && ((regs name).value.setWidth 32).msb then 2 ^ 32 else 0)
    cases hmsb : ((regs name).value.setWidth 32).msb with
    | false => simpa [toInt_of_not_msb hmsb] using hword
    | true =>
      have hsum : ((regs name).value.setWidth 32).toInt + 2 ^ 32 = (((regs name).value.setWidth 32).toNat : Int) := by
        rw [toInt_of_msb hmsb]
        omega
      simp only [Bool.not_false, Bool.and_self, if_true, hsum]
      exact hword

theorem word_imm {wide : Bool} {l : Literal} (h : (Operand.imm l).Typed (if wide then 64 else 32)) :
    word regs ⟨wide, .imm l⟩ = BitVec.ofInt 64 (value regs ⟨wide, .imm l⟩ + misread regs ⟨wide, .imm l⟩) := by
  cases wide with
  | true =>
    have hbounds : -2 ^ 63 ≤ l.value ∧ l.value < 2 ^ 64 := h
    have hread := strtol_typed .i64 h
    show BitVec.ofInt 64 (strtol l.text) = BitVec.ofInt 64 ((BitVec.ofInt 64 l.value).toInt +
      if l.value < 2 ^ 63 then 0 else if true then 2 ^ 63 - 1 - (l.value - 2 ^ 64) else 2 ^ 32)
    rw [hread, BitVec.toInt_ofInt, Int.bmod_def, if_pos rfl]
    congr 1
    split <;> omega
  | false =>
    have hbounds : -2 ^ 31 ≤ l.value ∧ l.value < 2 ^ 32 := h
    have hread := strtol_typed .i32 h
    show BitVec.ofInt 64 (strtol l.text) = BitVec.ofInt 64 ((BitVec.ofInt 32 l.value).toInt +
      if l.value < 2 ^ 31 then 0 else if false then 2 ^ 63 - 1 - (l.value - 2 ^ 64) else 2 ^ 32)
    rw [hread, BitVec.toInt_ofInt, Int.bmod_def, if_neg (show ¬false = true by decide)]
    congr 1
    split <;> omega

/-- An index that its register holds, or that is a literal of its type. -/
def Ok (regs : Regs) (x : Index) : Prop := x.operand.Held x.bits regs ∧ x.operand.Typed x.bits

theorem word_eq {x : Index} (h : x.Ok regs) : x.word regs = BitVec.ofInt 64 (x.value regs + x.misread regs) := by
  obtain ⟨wide, operand⟩ := x
  cases operand with
  | reg name => exact word_reg h.1
  | imm l => exact word_imm h.2

/-- The register of an index. -/
def register (x : Index) : Option Text :=
  match x.operand with
  | .reg name => some name
  | .imm _ => none

/-- The immediate of an index. -/
def immediate (x : Index) : Word :=
  match x.operand with
  | .reg _ => 0
  | .imm l => BitVec.ofInt 64 (strtol l.text)

end Index

/-- The instruction of a line. -/
def GetElementPtr.ofType (ret : Text) (t : Ty) (ptrVal : Text) (xs : List Index) : GetElementPtr where
  returnRegister := ret
  pty := t.text
  llvmType := none
  idx := xs.map Index.register
  immIdx := xs.map Index.immediate
  ptrVal := ptrVal

section Evaluation

variable {ret ptrVal : Text} {t : Ty} {xs : List Index} {regs : Regs} {i : GetElementPtr}

theorem index_ofType (k : Nat) :
    (GetElementPtr.ofType ret t ptrVal xs).index ((GetElementPtr.ofType ret t ptrVal xs).ops regs) k =
      match (xs.map (Index.word regs))[k]? with
      | some x => .ok x
      | none => .error .outOfRange := by
  cases hk : xs[k]? with
  | none => simp [GetElementPtr.index, GetElementPtr.ofType, hk]
  | some x =>
    obtain ⟨wide, operand⟩ := x
    cases operand <;>
      simp [GetElementPtr.index, GetElementPtr.ofType, GetElementPtr.ops, opAt, hk, Index.register, Index.immediate,
        Index.word]

/-! ## The loops -/

/-- The sum of words times the products of the lengths from there on. -/
def weights : List Nat → List Word → Word
  | n :: ns, x :: xs => BitVec.ofNat 64 (n :: ns).prod * x + weights ns xs
  | _, _ => 0

theorem foldl_mul (ns : List Nat) (a : Nat) :
    (ns.map (BitVec.ofNat 64)).foldl (· * ·) (BitVec.ofNat 64 a) = BitVec.ofNat 64 (a * ns.prod) := by
  induction ns generalizing a with
  | nil => simp
  | cons n ns ih =>
    have hmul : BitVec.ofNat 64 a * BitVec.ofNat 64 n = BitVec.ofNat 64 (a * n) := (BitVec.ofNat_mul a n).symm
    rw [List.map_cons, List.foldl_cons, hmul, ih, List.prod_cons, Nat.mul_assoc]

theorem foldl_ones (k : Nat) (ns : List Nat) :
    (List.replicate k (1 : Word) ++ ns.map (BitVec.ofNat 64)).foldl (· * ·) 1 = BitVec.ofNat 64 ns.prod := by
  have hones : (List.replicate k (1 : Word)).foldl (· * ·) 1 = 1 := by
    induction k with
    | zero => rfl
    | succ k ih => simpa [List.replicate_succ] using ih
  have h := foldl_mul ns 1
  rw [Nat.one_mul] at h
  rw [List.foldl_append, hones]
  exact h

/-- The rounds of the loop over the arrays, from the `k`-th on. -/
theorem count_strides {ops : List Word} {j : Nat} (ns : List Nat) (xs : List Word) (k : Nat) (acc : Word)
    (hlen : xs.length = ns.length) (hj : k + ns.length = j + 1)
      (hx : ∀ m x, xs[m]? = some x → i.index ops (k + m) = .ok x) :
    i.count ops j ns.length k (List.replicate k 1 ++ ns.map (BitVec.ofNat 64)) acc = .ok (acc + weights ns xs) := by
  induction ns generalizing xs k acc with
  | nil => simp [GetElementPtr.count, weights]
  | cons n ns ih =>
    cases xs with
    | nil => simp at hlen
    | cons x xs =>
      have hall : (List.replicate k (1 : Word) ++ (n :: ns).map (BitVec.ofNat 64)).length = j + 1 := by simpa using hj
      have hset : (List.replicate k (1 : Word) ++ (n :: ns).map (BitVec.ofNat 64)).set k 1 =
          List.replicate (k + 1) 1 ++ ns.map (BitVec.ofNat 64) := by
        simp [List.replicate_succ']
      have hhead : i.index ops k = .ok x := hx 0 x rfl
      have htail := ih xs (k + 1) (acc + BitVec.ofNat 64 (n :: ns).prod * x) (by simpa using hlen)
        (by simp at hj; omega) fun m y hy => by
          rw [Nat.add_assoc, Nat.add_comm 1 m]
          exact hx (m + 1) y hy
      rw [List.length_cons, GetElementPtr.count, if_neg (by omega), hhead, hset,
        List.take_of_length_le (by omega), foldl_ones]
      refine htail.trans ?_
      rw [weights, BitVec.add_assoc]

/-- The lengths of an array type, and the size of the elements of the innermost array. -/
def Ty.lengths : Ty → List Nat
  | leaf _ => []
  | array n t => n :: t.lengths

def Ty.elem : Ty → Leaf
  | leaf l => l
  | array _ t => t.elem

theorem Ty.length_lengths (t : Ty) : t.lengths.length = t.depth := by
  induction t with
  | leaf l => rfl
  | array n t ih => simp [lengths, depth, ih]

theorem Ty.bytes_eq (t : Ty) : t.bytes = t.lengths.prod * t.elem.bytes := by
  induction t with
  | leaf l => simp [bytes, lengths, elem]
  | array n t ih => simp [bytes, lengths, elem, ih, Nat.mul_assoc]

/-- The products of the lengths are the strides, counted in elements. -/
theorem weights_strides (t : Ty) (zs : List Int) (hlen : zs.length = t.depth + 1) :
    weights (t.lengths ++ [1]) (zs.map (BitVec.ofInt 64)) * BitVec.ofNat 64 t.elem.bytes =
      BitVec.ofInt 64 (weighted t.strides zs) := by
  induction t generalizing zs with
  | leaf l =>
    cases zs with
    | nil => simp at hlen
    | cons z zs =>
      cases zs with
      | cons z' zs => simp [Ty.depth] at hlen
      | nil =>
        simp [weights, weighted, Ty.lengths, Ty.strides, Ty.elem, Leaf.bytes, BitVec.ofInt_mul, BitVec.ofInt_natCast,
          BitVec.mul_comm]
  | array n t ih =>
    cases zs with
    | nil => simp at hlen
    | cons z zs =>
      have htail := ih zs (by simpa [Ty.depth] using hlen)
      have hprod : (n :: (t.lengths ++ [1])).prod = n * t.lengths.prod := by simp
      have hhead : BitVec.ofNat 64 (n * t.lengths.prod) * BitVec.ofInt 64 z * BitVec.ofNat 64 t.elem.bytes =
          BitVec.ofInt 64 ((n * t.bytes : Nat) * z) := by
        rw [BitVec.mul_assoc, BitVec.mul_comm (BitVec.ofInt 64 z), ← BitVec.mul_assoc, ← BitVec.ofNat_mul,
          Nat.mul_assoc, ← t.bytes_eq, BitVec.ofInt_mul, BitVec.ofInt_natCast]
      have hsum : weighted (Ty.array n t).strides (z :: zs) = (n * t.bytes : Nat) * z + weighted t.strides zs := by
        simp [Ty.strides, weighted]
      rw [Ty.lengths, List.cons_append, List.map_cons, weights, hprod, BitVec.add_mul, Ty.elem, htail, hhead, hsum,
        BitVec.ofInt_add]

/-! ## The scan of the type -/

/-- Characters that are not brackets are passed over. -/
theorem scanType_skip (u s : Text) (pos : Nat) (elements : List Word) (j prev : Nat) (ho : '[' ∉ u) (hc : ']' ∉ u) :
    i.scanType pos (u ++ s) elements j prev = i.scanType (pos + u.length) s elements j prev := by
  induction u generalizing pos with
  | nil => rfl
  | cons c u ih =>
    simp only [List.mem_cons, not_or] at ho hc
    have hnext := ih (pos + 1) ho.2 hc.2
    rw [List.cons_append, GetElementPtr.scanType, if_neg (Ne.symm ho.1), if_neg (Ne.symm hc.1), hnext, List.length_cons]
    congr 1
    omega

/-- The length of an array, which stands behind its bracket. -/
theorem scanType_open {i : GetElementPtr} {u v : Text} {n : Nat}
    (hpty : i.pty = u ++ '[' :: (Nat.toDigits 10 n ++ ' ' :: v))
    (s : Text) (elements : List Word) (j prev : Nat) (r : List Word × Nat × Word) :
    i.scanType u.length ('[' :: s) elements j prev = .ok r ↔
      (n < 2 ^ 31 ∧ j < elements.length) ∧
        i.scanType (u.length + 1) s (elements.set j (BitVec.ofNat 64 n)) (j + 1) u.length = .ok r := by
  have hblank : find i.pty ' ' u.length = some (u.length + ('[' :: Nat.toDigits 10 n).length) := by
    have h := find_drop (u := u) (s := '[' :: Nat.toDigits 10 n) (t := v) (c := ' ')
      (by simp [not_mem_toDigits])
    rw [hpty]
    simpa using h
  have hlength : substr i.pty (u.length + 1) (u.length + ('[' :: Nat.toDigits 10 n).length - u.length - 1) =
      Nat.toDigits 10 n := by
    have hcount : u.length + ('[' :: Nat.toDigits 10 n).length - u.length - 1 = (Nat.toDigits 10 n).length := by
      simp
    rw [substr, hcount, hpty, ← List.drop_drop, List.drop_left, List.drop_succ_cons, List.drop_zero, List.take_left]
  rw [GetElementPtr.scanType, if_pos rfl, hblank, Option.elim_some, hlength, stoi_toDigits]
  by_cases hn : n < 2 ^ 31
  · by_cases hj : j < elements.length
    · simp only [hn, hj, if_true, true_and, BitVec.ofInt_natCast]
    · simp only [hn, hj, if_true, if_false, and_false, false_and, reduceCtorEq]
  · simp only [hn, if_false, false_and, reduceCtorEq]

/-- The size of the elements, which stand between the `x` of the innermost array and its bracket. -/
theorem elementSize_leaf {pty u v : Text} {n : Nat} {l : Leaf}
    (hpty : pty = u ++ '[' :: (Nat.toDigits 10 n ++ ' ' :: 'x' :: ' ' :: (l.text ++ ']' :: v))) (r : Word) :
    GetElementPtr.elementSize pty u.length (u.length + (Nat.toDigits 10 n).length + 4 + l.text.length) = .ok r ↔
      (Ty.leaf l).Small ∧ r = BitVec.ofNat 64 l.bytes := by
  have hx : find pty 'x' u.length = some (u.length + ('[' :: (Nat.toDigits 10 n ++ [' '])).length) := by
    have h := find_drop (u := u) (s := '[' :: (Nat.toDigits 10 n ++ [' ']))
      (t := ' ' :: (l.text ++ ']' :: v)) (c := 'x')
      (by simp [not_mem_toDigits])
    rw [hpty]
    simpa using h
  have hsub : u.length + ('[' :: (Nat.toDigits 10 n ++ [' '])).length + 2 = u.length +
    (Nat.toDigits 10 n).length + 4 := by
    simp
    omega
  have hsplit : pty = (u ++ '[' :: (Nat.toDigits 10 n ++ [' ', 'x', ' '])) ++ (l.text ++ ']' :: v) := by simp [hpty]
  have hpos : (u ++ '[' :: (Nat.toDigits 10 n ++ [' ', 'x', ' '])).length = u.length +
    (Nat.toDigits 10 n).length + 4 := by
    simp
    omega
  have htext : substr pty (u.length + (Nat.toDigits 10 n).length + 4)
      (u.length + (Nat.toDigits 10 n).length + 4 + l.text.length - (u.length + (Nat.toDigits 10 n).length + 4))
        = l.text := by
    rw [substr, hsplit, ← hpos, List.drop_left, Nat.add_sub_cancel_left, List.take_left]
  have hlen : ¬pty.length < u.length + (Nat.toDigits 10 n).length + 4 := by
    rw [hsplit, List.length_append, hpos]
    omega
  unfold GetElementPtr.elementSize
  rw [hx, Option.elim_some, hsub]
  simp only [if_neg hlen, Nat.le_add_right, if_true, htext]
  cases l with
  | int k =>
    have hbytes : BitVec.ofInt 64 (((8 * (k + 1) : Nat) - 1 : Int).tdiv 8 + 1) = BitVec.ofNat 64 (k + 1) := by
      have hdiv : ((8 * (k + 1) : Nat) - 1 : Int).tdiv 8 + 1 = (k + 1 : Nat) := by
        rw [Int.tdiv_eq_ediv_of_nonneg (by omega)]
        omega
      rw [hdiv, BitVec.ofInt_natCast]
    simp only [Leaf.text_int, stoi_toDigits, Ty.Small, Leaf.bytes]
    by_cases hn : 8 * (k + 1) < 2 ^ 31
    · simp only [hn, if_true, true_and, hbytes, Except.ok.injEq]
      exact eq_comm
    · simp only [hn, if_false, false_and, reduceCtorEq]
  | float => simp [Ty.Small, Leaf.bytes, eq_comm]
  | double => simp [Ty.Small, Leaf.bytes, eq_comm]

/-- The lengths stored from `elements[j]` on. -/
def stored (elements : List Word) : Nat → List Nat → List Word
  | _, [] => elements
  | j, n :: ns => stored (elements.set j (BitVec.ofNat 64 n)) (j + 1) ns

theorem no_bracket_leaf (l : Leaf) : '[' ∉ l.text ∧ ']' ∉ l.text := by
  cases l <;> simp [not_mem_toDigits]

/-- An array type is scanned to its end exactly when its numbers are small and `elements` has room for its lengths. -/
theorem scanType_array (hnone : i.llvmType = none) (t : Ty) (n : Nat) (u v : Text) (elements : List Word) (j prev : Nat)
    (hpty : i.pty = u ++ '[' :: (Nat.toDigits 10 n ++ ' ' :: 'x' :: ' ' :: (t.text ++ ']' :: v)))
      (r : List Word × Nat × Word) :
    i.scanType u.length ('[' :: (Nat.toDigits 10 n ++ ' ' :: 'x' :: ' ' :: (t.text ++ ']' :: v))) elements j
      prev = .ok r ↔ ((Ty.array n t).Small ∧ j + (Ty.array n t).depth ≤ elements.length) ∧
        r = (stored elements j (Ty.array n t).lengths, j + (Ty.array n t).depth, BitVec.ofNat 64 t.elem.bytes) := by
  rw [scanType_open hpty]
  induction t generalizing n u v elements j prev with
  | leaf l =>
    have hskip : Nat.toDigits 10 n ++ ' ' :: 'x' :: ' ' :: ((Ty.leaf l).text ++ ']' :: v) =
        (Nat.toDigits 10 n ++ ' ' :: 'x' :: ' ' :: l.text) ++ ']' :: v := by simp [Ty.text]
    have hpos : u.length + 1 + (Nat.toDigits 10 n ++ ' ' :: 'x' :: ' ' :: l.text).length =
        u.length + (Nat.toDigits 10 n).length + 4 + l.text.length := by
      simp
      omega
    have hsize := elementSize_leaf (l := l) hpty
    rw [hskip, scanType_skip _ _ _ _ _ _ (by simp [not_mem_toDigits, no_bracket_leaf])
      (by simp [not_mem_toDigits, no_bracket_leaf]), hpos, GetElementPtr.scanType, if_neg (by decide),
        if_pos rfl, hnone]
    cases he : GetElementPtr.elementSize i.pty u.length (u.length + (Nat.toDigits 10 n).length + 4 + l.text.length) with
    | ok size =>
      obtain ⟨hsmall, rfl⟩ := (hsize size).mp he
      simp only [bind, Except.bind, pure, Except.pure, Except.ok.injEq]
      constructor
      · rintro ⟨⟨hn, hj⟩, rfl⟩
        exact ⟨⟨⟨hn, hsmall⟩, hj⟩, rfl⟩
      · rintro ⟨⟨⟨hn, -⟩, hj⟩, rfl⟩
        exact ⟨⟨hn, hj⟩, rfl⟩
    | error e =>
      have hsmall : ¬(Ty.leaf l).Small := fun h => by
        rw [(hsize _).mpr ⟨h, rfl⟩] at he
        cases he
      simp only [bind, Except.bind, reduceCtorEq, and_false, false_iff]
      exact fun h => hsmall h.1.1.2
  | array m t ih =>
    have hskip : Nat.toDigits 10 n ++ ' ' :: 'x' :: ' ' :: ((Ty.array m t).text ++ ']' :: v) =
        (Nat.toDigits 10 n ++ [' ', 'x', ' ']) ++
          ('[' :: (Nat.toDigits 10 m ++ ' ' :: 'x' :: ' ' :: (t.text ++ ']' :: (']' :: v)))) := by simp [Ty.text]
    have hpos : u.length + 1 + (Nat.toDigits 10 n ++ [' ', 'x', ' ']).length =
        (u ++ '[' :: (Nat.toDigits 10 n ++ [' ', 'x', ' '])).length := by
      simp
      omega
    have hpty' : i.pty = (u ++ '[' :: (Nat.toDigits 10 n ++ [' ', 'x', ' '])) ++
        '[' :: (Nat.toDigits 10 m ++ ' ' :: 'x' :: ' ' :: (t.text ++ ']' :: (']' :: v))) := by
      rw [hpty, hskip]
      simp
    rw [hskip, scanType_skip _ _ _ _ _ _ (by simp [not_mem_toDigits]) (by simp [not_mem_toDigits]), hpos,
      scanType_open hpty', ih m _ _ _ _ u.length hpty']
    have hdepth : j + 1 + (t.depth + 1) = j + (t.depth + 1 + 1) := by omega
    simp only [List.length_set, Ty.Small, Ty.depth, Ty.lengths, Ty.elem, stored, hdepth]
    constructor
    · rintro ⟨⟨hn, -⟩, ⟨hsmall, hlen⟩, rfl⟩
      exact ⟨⟨⟨hn, hsmall⟩, hlen⟩, rfl⟩
    · rintro ⟨⟨⟨hn, hsmall⟩, hlen⟩, rfl⟩
      exact ⟨⟨hn, by omega⟩, ⟨hsmall, hlen⟩, rfl⟩

/-! ## The address -/

/-- What is stored over the elements that `compute()` starts with. -/
theorem stored_ones (ns : List Nat) (u : List Word) (m : Nat) :
    stored (u ++ List.replicate (ns.length + m) 1) u.length ns = u ++ ns.map (BitVec.ofNat 64) ++
    List.replicate m 1 := by
  induction ns generalizing u with
  | nil => simp [stored]
  | cons n ns ih =>
    have hset : (u ++ List.replicate ((n :: ns).length + m) (1 : Word)).set u.length (BitVec.ofNat 64 n) =
        (u ++ [BitVec.ofNat 64 n]) ++ List.replicate (ns.length + m) 1 := by
      have hcount : (n :: ns).length + m = (ns.length + m) + 1 := by
        simp
        omega
      rw [List.set_append_right _ _ (Nat.le_refl _), hcount, List.replicate_succ]
      simp
    have hnext := ih (u ++ [BitVec.ofNat 64 n])
    rw [List.length_append, List.length_singleton] at hnext
    rw [stored, hset, hnext]
    simp

theorem weighted_add (ss : List Nat) {α : Type} (f g : α → Int) (xs : List α) :
    weighted ss (xs.map fun x => f x + g x) = weighted ss (xs.map f) + weighted ss (xs.map g) := by
  induction ss generalizing xs with
  | nil => simp [weighted]
  | cons s ss ih =>
    cases xs with
    | nil => simp [weighted]
    | cons x xs =>
      simp only [List.map_cons, weighted, ih, Int.mul_add]
      omega

/-- The words of the indices are their numbers, as `compute()` takes them. -/
theorem words_eq (h : ∀ x ∈ xs, x.Ok regs) :
    xs.map (Index.word regs) = (xs.map fun x => x.value regs + x.misread regs).map (BitVec.ofInt 64) := by
  rw [List.map_map]
  exact List.map_congr_left fun x hx => Index.word_eq (h x hx)

theorem length_stored (elements : List Word) (j : Nat) (ns : List Nat) :
    (stored elements j ns).length = elements.length := by
  induction ns generalizing elements j with
  | nil => rfl
  | cons n ns ih => simpa [stored] using ih (elements.set j (BitVec.ofNat 64 n)) (j + 1)

/-- **Arrays: the scan and the loop give an address only when there is an index for every dimension.** -/
theorem compute_array (n : Nat) (t : Ty) (hok : ∀ x ∈ xs, x.Ok regs) (hxs : xs.length ≤ t.depth + 2) (base r : Word) :
    (GetElementPtr.ofType ret (.array n t) ptrVal xs).compute base
        ((GetElementPtr.ofType ret (.array n t) ptrVal xs).ops regs) = .ok r ↔
      (xs.length = t.depth + 2 ∧ (Ty.array n t).Small) ∧
        r = base +
          BitVec.ofInt 64 (weighted (Ty.array n t).strides (xs.map fun x => x.value regs + x.misread regs)) := by
  obtain ⟨i, hi⟩ : ∃ i, GetElementPtr.ofType ret (.array n t) ptrVal xs = i := ⟨_, rfl⟩
  have hpty : i.pty = [] ++ '[' :: (Nat.toDigits 10 n ++ ' ' :: 'x' :: ' ' :: (t.text ++ [']'])) := by
    rw [← hi]
    rfl
  have hones : i.idx.map (fun _ => (1 : Word)) = List.replicate xs.length 1 := by
    rw [List.map_const', ← hi]
    simp [GetElementPtr.ofType]
  have hindex : ∀ m x, (xs.map (Index.word regs))[m]? = some x → i.index (i.ops regs) (0 + m) = .ok x := by
    intro m x hm
    rw [← hi, Nat.zero_add, index_ofType, hm]
  have hscan := scanType_array (by rw [← hi]; rfl) t n [] [] (List.replicate xs.length 1) 0 0 hpty
  have hcompute : i.compute base (i.ops regs) = (do
      let (elements, j, dataSize) ← i.scanType 0 ('[' :: (Nat.toDigits 10 n ++ ' ' :: 'x' :: ' ' :: (t.text ++ [']'])))
        (List.replicate xs.length 1) 0 0
      let finalCount ← i.count (i.ops regs) j (j + 1) 0 elements 0
      return base + finalCount * dataSize) := by
    rw [GetElementPtr.compute, hones, hpty]
    rfl
  rw [hi, hcompute]
  cases hs : i.scanType 0 ('[' :: (Nat.toDigits 10 n ++ ' ' :: 'x' :: ' ' :: (t.text ++ [']'])))
      (List.replicate xs.length 1) 0 0 with
  | error e =>
    simp only [bind, Except.bind, reduceCtorEq, false_iff]
    rintro ⟨⟨hlen, hsmall⟩, -⟩
    have hok := (hscan _).mpr ⟨⟨hsmall, by simp [Ty.depth, hlen]⟩, rfl⟩
    cases hs.symm.trans hok
  | ok res =>
    obtain ⟨⟨hsmall, hroom⟩, rfl⟩ := (hscan res).mp hs
    simp only [bind, Except.bind, pure, Except.pure, Ty.depth, Nat.zero_add]
    by_cases hlen : xs.length = t.depth + 2
    · have hstored : stored (List.replicate xs.length 1) 0 (Ty.array n t).lengths =
          List.replicate 0 1 ++ ((Ty.array n t).lengths ++ [1]).map (BitVec.ofNat 64) := by
        have h := stored_ones (Ty.array n t).lengths [] 1
        have hcount : xs.length = (Ty.array n t).lengths.length + 1 := by
          rw [Ty.length_lengths, hlen]
          rfl
        rw [hcount]
        simpa using h
      have hns : ((Ty.array n t).lengths ++ [1]).length = t.depth + 1 + 1 := by
        rw [List.length_append, Ty.length_lengths]
        rfl
      have hcount := (count_strides (j := t.depth + 1) ((Ty.array n t).lengths ++ [1]) (xs.map (Index.word regs)) 0 0
        (by rw [hns, List.length_map, hlen]) (by rw [hns]; omega) hindex).trans (congrArg _ (BitVec.zero_add _))
      rw [hns, ← hstored] at hcount
      have hweights := weights_strides (.array n t) (xs.map fun x => x.value regs + x.misread regs)
        (by rw [List.length_map, hlen]; rfl)
      rw [← words_eq hok] at hweights
      rw [hcount]
      simp only [Except.ok.injEq]
      rw [show t.elem = (Ty.array n t).elem from rfl, hweights]
      simp only [hlen, hsmall, and_self, true_and]
      exact eq_comm
    · have hfail : i.count (i.ops regs) (t.depth + 1) (t.depth + 1 + 1) 0
          (stored (List.replicate xs.length 1) 0 (Ty.array n t).lengths) 0 = .error .undefined := by
        rw [GetElementPtr.count, length_stored, List.length_replicate, if_pos (by omega)]
        rfl
      rw [hfail]
      simp [hlen]

theorem scalarSize_leaf (l : Leaf) (r : Word) :
    GetElementPtr.scalarSize l.text = .ok r ↔ (Ty.leaf l).Small ∧ r = BitVec.ofNat 64 l.bytes := by
  cases l with
  | int k =>
    have hbytes : BitVec.ofInt 64 (((8 * (k + 1) : Nat) : Int).tdiv 8) = BitVec.ofNat 64 (k + 1) := by
      have hdiv : ((8 * (k + 1) : Nat) : Int).tdiv 8 = (k + 1 : Nat) := by
        rw [Int.tdiv_eq_ediv_of_nonneg (by omega)]
        omega
      rw [hdiv, BitVec.ofInt_natCast]
    simp only [GetElementPtr.scalarSize, Leaf.text_int, stoi_toDigits, Ty.Small, Leaf.bytes]
    by_cases hn : 8 * (k + 1) < 2 ^ 31
    · simp only [hn, if_true, true_and, hbytes, Except.ok.injEq]
      exact eq_comm
    · simp only [hn, if_false, false_and, reduceCtorEq]
  | float => simp [GetElementPtr.scalarSize, Ty.Small, Leaf.bytes, eq_comm, List.isPrefixOf]
  | double => simp [GetElementPtr.scalarSize, Ty.Small, Leaf.bytes, eq_comm, List.isPrefixOf]

theorem compute_leaf (l : Leaf) {x : Index} (hok : x.Ok regs) (base r : Word) :
    (GetElementPtr.ofType ret (.leaf l) ptrVal [x]).compute base
        ((GetElementPtr.ofType ret (.leaf l) ptrVal [x]).ops regs) = .ok r ↔
      (Ty.leaf l).Small ∧ r = base + BitVec.ofInt 64
        (weighted (Ty.leaf l).strides [x.value regs + x.misread regs]) := by
  obtain ⟨i, hi⟩ : ∃ i, GetElementPtr.ofType ret (.leaf l) ptrVal [x] = i := ⟨_, rfl⟩
  have hindex : i.index (i.ops regs) 0 = .ok (x.word regs) := by
    rw [← hi, index_ofType]
    rfl
  have hcompute : i.compute base (i.ops regs) = (do
      let offset ← i.scaled (i.ops regs) 1 0 0
      return offset + base) := by
    rw [← hi]
    cases l <;> rfl
  have hpty : i.pty = l.text := by
    rw [← hi]
    rfl
  rw [hi, hcompute, GetElementPtr.scaled, hpty, hindex]
  cases hs : GetElementPtr.scalarSize l.text with
  | error e =>
    simp only [bind, Except.bind, reduceCtorEq, false_iff]
    intro h
    rw [(scalarSize_leaf l _).mpr ⟨h.1, rfl⟩] at hs
    cases hs
  | ok size =>
    obtain ⟨hsmall, rfl⟩ := (scalarSize_leaf l size).mp hs
    have hsum : (0 : Word) + x.word regs * BitVec.ofNat 64 l.bytes + base =
        base + BitVec.ofInt 64 (weighted (Ty.leaf l).strides [x.value regs + x.misread regs]) := by
      have hzero : (0 : Word) + x.word regs * BitVec.ofNat 64 l.bytes = x.word regs * BitVec.ofNat 64 l.bytes :=
        BitVec.zero_add _
      rw [hzero, BitVec.add_comm, Index.word_eq hok, BitVec.mul_comm, ← BitVec.ofInt_natCast, ← BitVec.ofInt_mul]
      simp [weighted, Ty.strides]
    simp only [bind, Except.bind, pure, Except.pure, GetElementPtr.scaled, hsum, hsmall, true_and, Except.ok.injEq]
    exact eq_comm

/-- `compute()` gives the address of LLVM exactly when there is an index for every dimension, the numbers in the type
are those of an `int`, and what the indices are misread by does not count. -/
theorem compute_iff (t : Ty) (hok : ∀ x ∈ xs, x.Ok regs) (hne : xs ≠ []) (hxs : xs.length ≤ t.depth + 1) (base : Word) :
    (GetElementPtr.ofType ret t ptrVal xs).compute base ((GetElementPtr.ofType ret t ptrVal xs).ops regs) =
        .ok (address base t (xs.map (Index.value regs))) ↔
      xs.length = t.depth + 1 ∧ t.Small ∧
        ((2 ^ 64 : Nat) : Int) ∣ weighted t.strides (xs.map (Index.misread regs)) := by
  have hsame : address base t (xs.map (Index.value regs)) =
        base + BitVec.ofInt 64 (weighted t.strides (xs.map fun x => x.value regs + x.misread regs)) ↔
      ((2 ^ 64 : Nat) : Int) ∣ weighted t.strides (xs.map (Index.misread regs)) := by
    have hneg : weighted t.strides (xs.map (Index.value regs)) -
        (weighted t.strides (xs.map (Index.value regs)) + weighted t.strides (xs.map (Index.misread regs))) =
          -weighted t.strides (xs.map (Index.misread regs)) := by omega
    have hadd : weighted t.strides (xs.map fun x => x.value regs + x.misread regs) =
        weighted t.strides (xs.map (Index.value regs)) + weighted t.strides (xs.map (Index.misread regs)) :=
      weighted_add t.strides (Index.value regs) (Index.misread regs) xs
    rw [address, hadd, BitVec.add_right_inj, ofInt_eq_iff, hneg, Int.dvd_neg]
  cases t with
  | leaf l =>
    cases xs with
    | nil => exact absurd rfl hne
    | cons x xs =>
      cases xs with
      | cons y xs => simp [Ty.depth] at hxs
      | nil =>
        rw [compute_leaf l (hok x (by simp)), ← hsame]
        simp [Ty.depth]
  | array n t =>
    rw [compute_array n t hok hxs, ← hsame]
    exact and_assoc

end Evaluation

/-! ## Parsing -/

/-- The parameters of `getelementptr [inbounds] t, t* %base, ..`. -/
def gepParameters (inbounds : Bool) (t : Ty) (base : Text) (xs : List Index) : List Text :=
  (if inbounds then ["inbounds".toList] else []) ++
    t.text :: (t.text ++ ['*']) :: ('%' :: base) :: xs.flatMap fun x => [x.typeText, x.operand.text]

theorem head_of_typeList {lines : List Text} {e : Text × Word} (h : e ∈ typeList lines) : e.1.head? = some 's' := by
  simp only [typeList, List.mem_map, List.mem_filter] at h
  obtain ⟨line, ⟨-, hstruct⟩, rfl⟩ := h
  obtain ⟨rest, rfl⟩ := List.isPrefixOf_iff_prefix.mp hstruct
  unfold llvmType
  cases hpos : find ("%struct".toList ++ rest) '=' 0 with
  | none => rfl
  | some pos =>
    have hmap := find_append_right (u := "%struct".toList) (c := '=') (by decide) rest
    rw [hpos] at hmap
    obtain ⟨k, -, hk⟩ := Option.map_eq_some_iff.mp hmap.symm
    have hlen : "%struct".toList.length = 7 := rfl
    have htake : pos - 2 = (k + 4) + 1 := by omega
    simp only [substr, htake]
    rfl

theorem findType_eq_none (lines : List Text) {name : Text} (h : name.head? ≠ some 's') :
    findType (typeList lines) name = none := by
  have hnone : (typeList lines).find? (·.1 = name) = none := by
    rw [List.find?_eq_none]
    intro e he heq
    have hhead := head_of_typeList he
    rw [of_decide_eq_true heq] at hhead
    exact h hhead
  rw [findType, hnone]
  rfl

theorem percent_not_mem_text (t : Ty) : '%' ∉ t.text := by
  induction t with
  | leaf l => cases l <;> simp [Ty.text, not_mem_toDigits]
  | array n t ih => simp [Ty.text, not_mem_toDigits, ih]

/-- No custom data type is found for these types. -/
theorem customType_text (lines : List Text) (t : Ty) : GetElementPtr.customType (typeList lines) t.text = none := by
  cases t with
  | leaf l => cases l <;> rfl
  | array n t =>
    have hpercent : find (Ty.array n t).text '%' 0 = none := find_eq_none (percent_not_mem_text (.array n t))
    have hpty : (Ty.array n t).text = '[' :: (Nat.toDigits 10 n ++ (' ' :: 'x' :: ' ' :: (t.text ++ [']']))) := rfl
    unfold GetElementPtr.customType
    rw [hpercent, hpty]
    simp only [Option.elim_none, Nat.zero_le, if_true]
    split
    · rename_i k _
      apply findType_eq_none
      cases k <;> simp [substr]
    · exact findType_eq_none lines (by simp)

theorem text_ne_inbounds (t : Ty) : t.text ≠ "inbounds".toList := by
  cases t with
  | leaf l =>
    cases l with
    | int n =>
      intro h
      have hmem : 'n' ∈ Nat.toDigits 10 (8 * (n + 1)) := by
        have htail := congrArg (List.drop 1) h
        simp only [Ty.text, Leaf.text_int, List.drop_succ_cons, List.drop_zero] at htail
        rw [htail]
        decide
      exact not_mem_toDigits (by decide) hmem
    | float => decide
    | double => decide
  | array n t =>
    intro h
    cases congrArg List.head? h

theorem text_not_pointer (t : Ty) : t.text.getLast? ≠ some '*' := by
  intro h
  have hmem := List.mem_of_getLast? h
  have hstar : ∀ t : Ty, '*' ∉ t.text := by
    intro t
    induction t with
    | leaf l => cases l <;> simp [Ty.text, not_mem_toDigits]
    | array n t ih => simp [Ty.text, not_mem_toDigits, ih]
  exact hstar t hmem

theorem indices_flatMap (xs : List Index) :
    GetElementPtr.indices (xs.flatMap fun x => [x.typeText, x.operand.text]) =
      .ok (xs.map fun x => (x.register, x.immediate)) := by
  induction xs with
  | nil => rfl
  | cons x xs ih =>
    obtain ⟨wide, operand⟩ := x
    simp only [List.flatMap_cons, List.cons_append, List.nil_append, GetElementPtr.indices, ih, bind, Except.bind, pure,
      Except.pure, List.map_cons, isRegister_text]
    cases operand <;> rfl

/-- A base address in a register, of the list or new. -/
theorem pointer_register (known : Text → Bool) {parameters : List Text} {first : Nat} {base name : Text}
    (hptr : parameter parameters (first + 2) = .ok ('%' :: base)) (hname : parameter parameters 3 = .ok name)
    (hbase : search "inttoptr".toList ('%' :: base) = none) (regs : Regs) :
    ∃ ptrVal regs', GetElementPtr.pointer known parameters first regs = .ok (ptrVal, regs') := by
  simp only [GetElementPtr.pointer, hptr, hname, hbase, bind, Except.bind, pure, Except.pure, Option.isSome_none,
    Bool.false_eq_true, if_false]
  by_cases hknown : known (('%' :: base).drop 1)
  · exact ⟨_, _, if_pos hknown⟩
  · exact ⟨_, _, if_neg hknown⟩

theorem parse_gep (lines : List Text) (known : Text → Bool) (ret : Text) (inbounds : Bool) (t : Ty) {base : Text}
    {xs : List Index} (hne : xs ≠ []) (hbase : search "inttoptr".toList ('%' :: base) = none) (regs : Regs) :
    ∃ ptrVal regs', GetElementPtr.parse (typeList lines) known ret (gepParameters inbounds t base xs) regs =
      .ok (.ofType ret t ptrVal xs, regs') := by
  obtain ⟨p, ps, hps⟩ : ∃ p ps, (xs.flatMap fun x => [x.typeText, x.operand.text]) = p :: ps := by
    cases xs with
    | nil => exact absurd rfl hne
    | cons x xs => exact ⟨_, _, rfl⟩
  have hret : (regs ret).setSize "pointer".toList = .ok { regs ret with size := 8 } := rfl
  have hindices := indices_flatMap xs
  rw [hps] at hindices
  cases inbounds with
  | false =>
    obtain ⟨ptrVal, regs', hpointer⟩ := pointer_register known
      (show parameter (t.text :: (t.text ++ ['*']) :: ('%' :: base) :: p :: ps) (0 + 2) =
        .ok ('%' :: base) from rfl) rfl hbase
      (Function.update regs ret { regs ret with size := 8 })
    refine ⟨ptrVal, regs', ?_⟩
    simp only [GetElementPtr.parse, gepParameters, hps, hret, bind, Except.bind, pure, Except.pure, Bool.false_eq_true,
      if_false, List.nil_append, parameter, List.getElem?_cons_zero, text_ne_inbounds, hpointer, false_and,
      List.getElem?_cons_succ, text_not_pointer, List.drop_succ_cons, List.drop_zero, hindices, customType_text]
    simp [GetElementPtr.ofType, Function.comp_def]
  | true =>
    obtain ⟨ptrVal, regs', hpointer⟩ := pointer_register known
      (show parameter ("inbounds".toList :: t.text :: (t.text ++ ['*']) :: ('%' :: base) :: p :: ps) (1 + 2) =
        .ok ('%' :: base) from rfl) rfl hbase (Function.update regs ret { regs ret with size := 8 })
    refine ⟨ptrVal, regs', ?_⟩
    simp only [GetElementPtr.parse, gepParameters, hps, hret, bind, Except.bind, pure, Except.pure, if_true,
      List.cons_append, List.nil_append, parameter, List.getElem?_cons_zero, hpointer, hbase, Option.isSome_none,
      Bool.false_eq_true, and_false, if_false, List.getElem?_cons_succ, text_not_pointer, List.drop_succ_cons,
      List.drop_zero, hindices, customType_text]
    simp [GetElementPtr.ofType, Function.comp_def]

/-- **The address of LLVM is computed exactly under these conditions.** -/
theorem address_computed (lines : List Text) (known : Text → Bool) (ret : Text) (inbounds : Bool) (t : Ty) {base : Text}
    {xs : List Index} (hne : xs ≠ []) (hxs : xs.length ≤ t.depth + 1)
    (hbase : search "inttoptr".toList ('%' :: base) = none) (parsed : Regs) :
    ∃ i parsed', GetElementPtr.parse (typeList lines) known ret (gepParameters inbounds t base xs) parsed =
        .ok (i, parsed') ∧
      ∀ (activePtr : Word) (regs : Regs), (∀ x ∈ xs, x.Ok regs) →
        (i.compute activePtr (i.ops regs) = .ok (address activePtr t (xs.map (Index.value regs))) ↔
          xs.length = t.depth + 1 ∧ t.Small ∧
            ((2 ^ 64 : Nat) : Int) ∣ weighted t.strides (xs.map (Index.misread regs))) := by
  obtain ⟨ptrVal, parsed', hparse⟩ := parse_gep lines known ret inbounds t hne hbase parsed
  exact ⟨_, parsed', hparse, fun activePtr regs hok => compute_iff t hok hne hxs activePtr⟩

def one : Literal := ⟨false, ['1'], isDigit_one, one_ne_nil⟩

/-- `%a` holds 3 and the rest 0. -/
def threeRegs (name : Text) : Register := if name = ['a'] then ⟨3, 8⟩ else .new

/-- `getelementptr inbounds [10 x i32], [10 x i32]* %p, i64 1, i64 %a` -/
theorem address_computed_array : ∃ i parsed', GetElementPtr.parse [] (fun _ => true) ['r']
      (gepParameters true (.array 10 (.leaf (.int 3))) ['p'] [⟨true, .imm one⟩, ⟨true, .reg ['a']⟩]) (fun _ => .new) =
        .ok (i, parsed') ∧
    i.compute 0x1000 (i.ops threeRegs) = .ok 0x1034 := by
  obtain ⟨i, parsed', hparse, hcompute⟩ := address_computed [] (fun _ => true) ['r'] true (.array 10 (.leaf (.int 3)))
    (show [(⟨true, .imm one⟩ : Index), ⟨true, .reg ['a']⟩] ≠ [] from List.cons_ne_nil _ _) (by decide)
    (show search "inttoptr".toList ('%' :: ['p']) = none by decide) fun _ => .new
  have hok : ∀ x ∈ [(⟨true, .imm one⟩ : Index), ⟨true, .reg ['a']⟩], x.Ok threeRegs := by
    intro x hx
    simp only [List.mem_cons, List.not_mem_nil, or_false] at hx
    rcases hx with rfl | rfl
    · exact ⟨trivial, show -2 ^ 63 ≤ one.value ∧ one.value < 2 ^ 64 by decide⟩
    · exact ⟨show (threeRegs ['a']).value.toNat < 2 ^ 64 by decide, trivial⟩
  have haddress := (hcompute 0x1000 threeRegs hok).mpr
    ⟨rfl, ⟨by decide, show 8 * (3 + 1) < 2 ^ 31 by decide⟩, by decide⟩
  exact ⟨i, parsed', hparse, haddress.trans (by decide)⟩

/-- `getelementptr [10 x i32], [10 x i32]* %p, i64 1`, which ends in an exception. -/
theorem short_index_list : ¬ ∀ (lines : List Text) (known : Text → Bool) (ret : Text) (inbounds : Bool)
    (t : Ty) (base : Text)
    (xs : List Index) (parsed : Regs), xs ≠ [] → xs.length ≤ t.depth + 1 →
      search "inttoptr".toList ('%' :: base) = none →
    ∃ i parsed', GetElementPtr.parse (typeList lines) known ret (gepParameters inbounds t base xs) parsed =
        .ok (i, parsed') ∧
      ∀ (activePtr : Word) (regs : Regs), (∀ x ∈ xs, x.Ok regs) →
        i.compute activePtr (i.ops regs) = .ok (address activePtr t (xs.map (Index.value regs))) := by
  intro h
  have hshort : search "inttoptr".toList ('%' :: ['p']) = none := by decide
  obtain ⟨i, parsed', hparse, hcompute⟩ := h [] (fun _ => true) ['r'] false (.array 10 (.leaf (.int 3))) ['p']
    [⟨true, .imm one⟩] (fun _ => .new) (List.cons_ne_nil _ _) (by decide) hshort
  obtain ⟨ptrVal, regs', hparse'⟩ := parse_gep [] (fun _ => true) ['r'] false (.array 10 (.leaf (.int 3)))
    (show [(⟨true, .imm one⟩ : Index)] ≠ [] from List.cons_ne_nil _ _) hshort fun _ => .new
  cases hparse.symm.trans hparse'
  have hok : ∀ x ∈ [(⟨true, .imm one⟩ : Index)], x.Ok threeRegs := by
    intro x hx
    rw [List.mem_singleton.mp hx]
    exact ⟨trivial, show -2 ^ 63 ≤ one.value ∧ one.value < 2 ^ 64 by decide⟩
  have hlen := ((compute_iff _ hok (List.cons_ne_nil _ _) (by decide) 0).mp (hcompute 0 threeRegs hok)).1
  exact absurd hlen (by decide)

end Salam.Ir
