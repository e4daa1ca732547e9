import Mathlib.Data.BitVec
import Mathlib.Data.List.Basic

/-!
# Instructions, basic blocks and programs

What `BasicBlock::parse` leaves behind: the nodes of every block, with the fields of `InstructionBase` and of its
subclasses that the runtime engine reads. A register is the identity of a `Register` object; its `_Size` is fixed by
the type of its one definition, so it stands in the instruction that writes it. Arithmetic is a function carried by
the instruction (`eval`): the engine never looks inside it, and the results here hold for every such function.
-/

namespace Salam

/-- `uint64_t` and `int64_t` contents: the engine copies both as 64 bits. -/
abbrev Word := BitVec 64

/-- `memcpy(dst, src, n)` between two 64-bit objects: the low `n` bytes of `dst` are replaced. -/
def memcpy (n : Nat) (dst src : Word) : Word :=
  let mask : Word := BitVec.ofNat 64 (2 ^ (8 * n) - 1)
  (dst &&& ~~~mask) ||| (src &&& mask)

/-- The low `n` bytes. -/
def lowBytes (n : Nat) (w : Word) : Word := memcpy n 0 w

theorem memcpy_memcpy (n : Nat) (a b c : Word) : memcpy n a (memcpy n b c) = memcpy n a c := by
  unfold memcpy
  ext i
  grind

theorem lowBytes_memcpy (n : Nat) (a b : Word) : lowBytes n (memcpy n a b) = lowBytes n b := memcpy_memcpy n 0 a b

namespace Engine

/-- The exceptions that can leave `tick()`: `std::out_of_range` of `vector::at`, those of `std::stoi`, and the null
block of a branch to a label that `findBB` does not know. -/
inductive Err
  | outOfRange
  | stoi
  | nullBB
  deriving DecidableEq

/-- A `Register *`. -/
abbrev Reg := Nat

/-- The name of a basic block. -/
abbrev Label := String

/-- The hardware units of `macros.hh`; `other` is the `-1` of an instruction that uses none. -/
inductive FunctionalUnit
  | counter
  | intAdder
  | intMulti
  | intShifter
  | intBitwise
  | fpSpAdder
  | fpDpAdder
  | fpSpMulti
  | fpSpDivid
  | fpDpMulti
  | fpDpDivid
  | compare
  | getElementPtr
  | conversion
  | other
  deriving DecidableEq

/-- The value of a phi edge: `_PhiVal` is `"reg"` and `_PhiReg` the register, or `_PhiVal` is the literal. -/
inductive PhiVal
  | reg (r : Reg)
  | imm (text : String)
  deriving DecidableEq

/-- What a store writes: a register of `size` bytes, or an immediate of the size of the stored type. -/
inductive StoreVal
  | reg (r : Reg) (size : Nat)
  | imm (v : Word) (size : Nat)
  deriving DecidableEq

/-- The instruction classes. `compute` covers `Binary`, `Bitwise`, `Conversion`, `Compare` and `Select`: their
`compute()` is a function of `_Ops`. In `gep` a `none` index is an immediate, and `junk` is the indeterminate value
that the constructor leaves in `_ActivePtr` and every clone copies; `junk` of a phi is that of `_Result`. -/
inductive Body
  | compute (ret : Reg) (size : Nat) (deps : List Reg) (unit : FunctionalUnit) (eval : List Word → Word)
  | gep (ret : Reg) (size : Nat) (ptrVal : Reg) (idx : List (Option Reg)) (junk : Word)
      (eval : Word → List Word → Word)
  | phi (ret : Reg) (size : Nat) (type : String) (incoming : List (Label × PhiVal)) (junk : Word)
  | load (ret : Reg) (size : Nat) (pointer : Reg)
  | store (pointer : Reg) (value : StoreVal)
  | br (dest : Label)
  | condBr (cond : Reg) (ifTrue ifFalse : Label)
  | switch (cond : Reg) (default : Label) (cases : List (BitVec 32 × Label))
  | ret

/-- An instruction of a basic block: `_LLVMLine`, `_MaxCycle` and the class. -/
structure Node where
  line : String
  maxCycle : Nat
  body : Body

namespace Node

/-- `_ReturnRegister`. -/
def returnRegister (n : Node) : Option Reg :=
  match n.body with
  | .compute r .. | .gep r .. | .phi r .. | .load r .. => some r
  | .store .. | .br .. | .condBr .. | .switch .. | .ret => none

/-- `_ReturnRegister->getSize()`. -/
def returnSize (n : Node) : Nat :=
  match n.body with
  | .compute _ k .. | .gep _ k .. | .phi _ k .. | .load _ k .. => k
  | .store .. | .br .. | .condBr .. | .switch .. | .ret => 0

/-- `_Dependencies`; the entries of `_Ops` are in the same places. -/
def dependencies (n : Node) : List (Option Reg) :=
  match n.body with
  | .compute _ _ deps .. => deps.map some
  | .gep _ _ _ idx .. => idx
  | .phi _ _ _ incoming _ => incoming.filterMap fun e =>
      match e.2 with
      | .reg r => some (some r)
      | .imm _ => none
  | .load _ _ p => [some p]
  | .store p (.reg r _) => [some p, some r]
  | .store p (.imm ..) => [some p]
  | .condBr c .. | .switch c .. => [some c]
  | .br .. | .ret => []

/-- `runtimeDependencies(PrevBB)`: a phi depends only on the registers of the edges from `PrevBB`. -/
def runtimeDependencies (n : Node) (prev : Label) : List (Option Reg) :=
  match n.body with
  | .phi _ _ _ incoming _ => incoming.filterMap fun e =>
      match e.2 with
      | .reg r => if e.1 = prev then some (some r) else none
      | .imm _ => none
  | _ => n.dependencies

/-- `_Terminator`. -/
def terminator (n : Node) : Bool :=
  match n.body with
  | .br .. | .condBr .. | .switch .. | .ret => true
  | .compute .. | .gep .. | .phi .. | .load .. | .store .. => false

def isLoad (n : Node) : Bool := match n.body with | .load .. => true | _ => false

def isStore (n : Node) : Bool := match n.body with | .store .. => true | _ => false

def isRet (n : Node) : Bool := match n.body with | .ret => true | _ => false

def isPhi (n : Node) : Bool := match n.body with | .phi .. => true | _ => false

/-- The classes that `tick()` runs on a functional unit: everything but memory accesses and terminators. -/
def onUnit (n : Node) : Bool :=
  match n.body with
  | .compute .. | .gep .. | .phi .. => true
  | .load .. | .store .. | .br .. | .condBr .. | .switch .. | .ret => false

/-- The classes that leave the reservation table for a queue. -/
def queued (n : Node) : Bool := n.onUnit || n.isLoad || n.isStore

/-- `_FunctionalUnit` as `BasicBlock::parse` sets it. -/
def functionalUnit (n : Node) : FunctionalUnit :=
  match n.body with
  | .compute _ _ _ u _ => u
  | .gep .. => .getElementPtr
  | .phi .. | .condBr .. | .switch .. => .compare
  | .load .. | .store .. | .br .. | .ret => .other

/-- `_RawCheck`: the pointer register of a load or a store. -/
def rawCheck (n : Node) : Option Reg :=
  match n.body with
  | .load _ _ p | .store p _ => some p
  | _ => none

/-- The base register `_PtrVal` of a getelementptr. -/
def ptrVal (n : Node) : Option Reg :=
  match n.body with
  | .gep _ _ p .. => some p
  | _ => none

variable {n : Node}

theorem isLoad_of_onUnit (h : n.onUnit = true) : n.isLoad = false := by
  unfold onUnit isLoad at *; split at h <;> simp_all

theorem isStore_of_onUnit (h : n.onUnit = true) : n.isStore = false := by
  unfold onUnit isStore at *; split at h <;> simp_all

theorem isStore_of_isLoad (h : n.isLoad = true) : n.isStore = false := by
  unfold isLoad isStore at *; split at h <;> simp_all

theorem isLoad_of_isPhi (h : n.isPhi = true) : n.isLoad = false := by
  unfold isPhi isLoad at *; split at h <;> simp_all

theorem onUnit_of_isPhi (h : n.isPhi = true) : n.onUnit = true := by
  unfold isPhi onUnit at *; split at h <;> simp_all

theorem onUnit_of_isLoad (h : n.isLoad = true) : n.onUnit = false := by
  unfold onUnit isLoad at *; split at h <;> simp_all

theorem onUnit_of_isStore (h : n.isStore = true) : n.onUnit = false := by
  unfold onUnit isStore at *; split at h <;> simp_all

theorem isLoad_of_isStore (h : n.isStore = true) : n.isLoad = false := by
  unfold isLoad isStore at *; split at h <;> simp_all

theorem returnRegister_of_isStore (h : n.isStore = true) : n.returnRegister = none := by
  unfold isStore returnRegister at *; split at h <;> simp_all

theorem onUnit_of_not (ht : n.terminator = false) (hl : n.isLoad = false) (hs : n.isStore = false) :
    n.onUnit = true := by
  unfold terminator isLoad isStore onUnit at *; split at ht <;> simp_all

theorem queued_of_returnRegister {r : Reg} (h : n.returnRegister = some r) : n.queued = true ∧ n.isStore = false := by
  unfold returnRegister at h
  unfold queued onUnit isLoad isStore
  split at h <;> simp_all

theorem returnRegister_of_onUnit (h : n.onUnit = true) : n.returnRegister.isSome = true := by
  unfold onUnit returnRegister at *; split at h <;> simp_all

theorem returnRegister_of_isLoad (h : n.isLoad = true) : n.returnRegister.isSome = true := by
  unfold isLoad returnRegister at *; split at h <;> simp_all

/-- `_ActiveParents` of a fresh node: the constructor of `Ret` adds one that nobody ever removes. -/
def baseParents (n : Node) : Int := if n.isRet then 1 else 0

end Node

/-- `std::stoi`: blanks, a sign and decimal digits; `none` is either of its exceptions. -/
def stoi (text : String) : Option Int :=
  let cs := text.toList.dropWhile Char.isWhitespace
  let neg := cs.head? = some '-'
  let ds := (if neg ∨ cs.head? = some '+' then cs.tail else cs).takeWhile Char.isDigit
  if ds = [] then none
  else
    let n : Int := ds.foldl (fun a d => 10 * a + (d.toNat - 48 : Nat)) 0
    let z := if neg then -n else n
    if -2 ^ 31 ≤ z ∧ z < 2 ^ 31 then some z else none

/-- The loop of `Phi::compute`: the first edge from `prev` that gives a value ends it. A literal is only read for a
type starting with `i`; without any value `_Result` stays as it was. -/
def phiCompute (regs : Reg → Word) (type : String) (prev : Label) (junk : Word) :
    List (Label × PhiVal) → Except Err Word
  | [] => .ok junk
  | (l, v) :: rest =>
    if l = prev then
      match v with
      | .reg r => .ok (regs r)
      | .imm text =>
        if type.toList.head? = some 'i' then
          match stoi text with
          | some z => .ok (BitVec.ofInt 64 z)
          | none => .error .stoi
        else phiCompute regs type prev junk rest
    else phiCompute regs type prev junk rest

/-- `LLVMSwitch::compute`: the first case whose `int` value, widened to `uint64_t`, is the captured condition. -/
def switchDest (v : Word) (default : Label) : List (BitVec 32 × Label) → Label
  | [] => default
  | (c, l) :: rest => if v = c.signExtend 64 then l else switchDest v default rest

structure BasicBlock where
  name : Label
  nodes : List Node

/-- The blocks of one function, in the order of the file. `parse` takes the return register from the text of the
line, so equal lines return to the same register. -/
structure Program where
  bbList : List BasicBlock
  line_ret : ∀ n ∈ bbList.flatMap (·.nodes), ∀ m ∈ bbList.flatMap (·.nodes), n.line = m.line →
    n.returnRegister = m.returnRegister

namespace Program

/-- Every static instruction. -/
def nodes (P : Program) : List Node := P.bbList.flatMap (·.nodes)

/-- `LLVMInterface::findBB`. -/
def findBB (P : Program) (name : Label) : Option BasicBlock := P.bbList.find? fun b => b.name = name

/-- `LLVMInterface::findEntryBB`: the first block with instructions; `none` is its panic. -/
def findEntryBB (P : Program) : Option BasicBlock := P.bbList.find? fun b => !b.nodes.isEmpty

/-- Each register has one static writer. -/
def OneWriter (P : Program) : Prop :=
  ∀ r, (P.nodes.filter fun n => n.returnRegister = some r).length ≤ 1

/-- No instruction other than a phi reads the register it writes; in LLVM its definition would have to dominate
itself. -/
def NoSelfRead (P : Program) : Prop :=
  ∀ n ∈ P.nodes, n.isPhi = false → ∀ r, n.returnRegister = some r → some r ∉ n.dependencies

/-- Loads and stores have latency 0, as `CycleCounts` documents. -/
def MemoryLatencyZero (P : Program) : Prop :=
  ∀ n ∈ P.nodes, n.isLoad = true ∨ n.isStore = true → n.maxCycle = 0

/-- Every block is a list of ordinary instructions ended by its one br, switch or ret. -/
def Terminated (P : Program) : Prop :=
  ∀ b ∈ P.bbList, ∃ body t, b.nodes = body ++ [t] ∧ t.terminator = true ∧ ∀ n ∈ body, n.terminator = false

variable {P : Program}

/-- With one static writer for each register, equal return registers mean the same instruction. -/
theorem OneWriter.eq (h : P.OneWriter) {n m : Node} (hn : n ∈ P.nodes) (hm : m ∈ P.nodes) {r : Reg}
    (hr : n.returnRegister = some r) (hr' : m.returnRegister = some r) : n = m := by
  have hn' : n ∈ P.nodes.filter fun n => n.returnRegister = some r := by simp [hn, hr]
  have hm' : m ∈ P.nodes.filter fun n => n.returnRegister = some r := by simp [hm, hr']
  have hl := h r
  rcases hf : P.nodes.filter fun n => n.returnRegister = some r with _ | ⟨a, _ | ⟨b, l⟩⟩
  · rw [hf] at hn'; cases hn'
  · rw [hf, List.mem_singleton] at hn' hm'; rw [hn', hm']
  · rw [hf] at hl; simp at hl

theorem OneWriter.iff_nodup : P.OneWriter ↔ (P.nodes.filterMap (·.returnRegister)).Nodup := by
  have hcount : ∀ (ns : List Node) (r : Reg), (ns.filter fun n => n.returnRegister = some r).length =
      (ns.filterMap (·.returnRegister)).count r := by
    intro ns r
    induction ns with
    | nil => rfl
    | cons n ns ih =>
      rw [List.filter_cons, List.filterMap_cons]
      cases hn : n.returnRegister with
      | none => simpa using ih
      | some r' =>
        by_cases hr : r' = r
        · subst hr; simpa using ih
        · simpa [hr] using ih
  rw [List.nodup_iff_count]
  exact forall_congr' fun r => by rw [hcount]

instance (P : Program) : Decidable P.OneWriter := decidable_of_iff _ OneWriter.iff_nodup.symm

instance (P : Program) : Decidable P.NoSelfRead :=
  decidable_of_iff (∀ n ∈ P.nodes, n.isPhi = false → ∀ r ∈ n.returnRegister, some r ∉ n.dependencies) Iff.rfl

instance (P : Program) : Decidable P.MemoryLatencyZero :=
  inferInstanceAs (Decidable (∀ n ∈ P.nodes, n.isLoad = true ∨ n.isStore = true → n.maxCycle = 0))

theorem returnRegister_of_line {n m : Node} (hn : n ∈ P.nodes) (hm : m ∈ P.nodes) (h : n.line = m.line) :
    n.returnRegister = m.returnRegister := P.line_ret n hn m hm h

end Program

end Engine

end Salam
