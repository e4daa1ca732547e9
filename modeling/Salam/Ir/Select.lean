import Salam.Ir.Phi

/-!
# Selects

`select` from its line to the committed value. The parser keeps the registers among the three operands as dependencies,
one after the other, and the constants among the two values in vectors of their own, read by `atol` and by `std::stol`;
`compute()` takes the condition and the values from fixed places of the fetched dependencies.

* `parse_select`: the instruction of a line.
* `select_committed`: exactly when the selected value is committed.
-/

namespace Salam.Ir

open CString

/-! ## The instruction -/

/-- `std::stol(s)`: `none` stands for the exceptions. -/
def stol (s : Text) : Option Int :=
  let v := signed (scan s).1 (scan s).2
  if (scan s).2 = [] then none else if -2 ^ 63 ≤ v ∧ v < 2 ^ 63 then some v else none

/-- A `Select` object. -/
structure Select where
  returnType : Text
  returnRegister : Text
  dependencies : List Text
  immValues : List Word
  imm : List Bool
  deriving DecidableEq

namespace Select

/-- Whether the first value is a constant, and what `_ImmValues` gets for it. -/
def firstValue (p : Text) : Bool × Word := if isRegister p then (false, 0) else (true, BitVec.ofInt 64 (strtol p))

/-- Whether the second value is a constant, and what `_ImmValues` gets for it. -/
def secondValue (p : Text) : Except Err (Bool × Word) :=
  if isRegister p then .ok (false, 0)
  else
    match stol p with
    | some num => .ok (true, BitVec.ofInt 64 num)
    | none => .error .stoi

/-- `BasicBlock::parse` for `select`: the instruction, and the register list with the size of the return register. A
condition that is not a register is one of the registers `alwaysTrue` and `alwaysFalse`, and no dependency. -/
def parse (l : Line) (regs : Regs) : Except Err (Select × Regs) := do
  let returnType ← parameter l.parameters 2
  match l.ret with
  | some ret =>
    let retReg ← (regs ret).setSize returnType
    let p₁ ← parameter l.parameters 1
    let p₃ ← parameter l.parameters 3
    let p₅ ← parameter l.parameters 5
    let first := firstValue p₃
    let second ← secondValue p₅
    return ({
      returnType := returnType
      returnRegister := ret
      dependencies := ([p₁, p₃, p₅].filter isRegister).map (·.drop 1)
      immValues := [first.2, second.2]
      imm := [first.1, second.1] }, Function.update regs ret retReg)
  | none => throw .undefined

/-- `Select::compute()`; `result` is the `_Result` before. -/
def compute (i : Select) (result : Word) (ops : List Word) : Except Err Word := do
  if i.returnType.head? = some 'i' then
    let condition ← opAt ops 0
    if condition ≠ 0 then
      if ← elementAt i.imm 0 then elementAt i.immValues 0
      else opAt ops 1
    else if ← elementAt i.imm 1 then elementAt i.immValues 1
    else if ← elementAt i.imm 0 then opAt ops 1
    else opAt ops 2
  else return result

/-- The dependencies are fetched, `compute()` runs, and the result is committed. -/
def exec (i : Select) (result final : Word) (regs : Regs) : Except Err Regs := do
  let result ← i.compute result (i.dependencies.map fun name => (regs name).value)
  return commit regs i.returnRegister final result

end Select

/-! ## Selects of LLVM -/

/-- A condition is a register or a constant. -/
inductive Condition
  | reg (name : Text)
  | bool (b : Bool)
  deriving DecidableEq

namespace Condition

def value : Condition → Value
  | reg name => .reg name
  | bool b => .bool b

/-- Whether the condition is true; a register of one bit holds 0 or 1. -/
def holds (regs : Regs) : Condition → Bool
  | reg name => (regs name).value = 1
  | bool b => b

def Held (regs : Regs) : Condition → Prop
  | reg name => (regs name).value = 0 ∨ (regs name).value = 1
  | bool _ => True

end Condition

/-- `  %ret = select i1 cond, ty v₁, ty v₂` -/
def Select.line (ty : Width) (ret : Text) (c : Condition) (v₁ v₂ : Value) : Text :=
  ' ' :: ' ' :: '%' :: (ret ++ (' ' :: '=' :: ' ' :: ("select".toList ++ ' ' :: ("i1".toList ++ ' ' ::
    (c.value.text ++ ',' :: ' ' :: (ty.text ++ ' ' :: (v₁.text ++ ',' :: ' ' :: (ty.text ++ ' ' :: v₂.text))))))))

/-! ## Parsing -/

namespace Value

/-- The name of a register stays in one parameter. -/
def Named : Value → Prop
  | reg name => IsName name
  | imm _ | bool _ => True

theorem isWord {v : Value} (h : v.Named) : IsWord v.text := by
  cases v with
  | reg name => exact isWord_register h
  | imm l => exact isWord_operand (o := .imm l) trivial
  | bool b => cases b <;> exact ⟨rfl, by decide, by decide, by decide⟩

/-- What `_ImmValues` keeps of a value. -/
def immValue (v : Value) : Word := if v.keptReg.isSome then 0 else BitVec.ofInt 64 (strtol v.text)

/-- `std::stol` does not throw for a value. -/
def Parses : Value → Prop
  | reg _ => True
  | imm l => l.value < 2 ^ 63
  | bool _ => False

theorem regs_eq (v : Value) : (if isRegister v.text then [v.text.drop 1] else []) = v.regs := by
  rw [isRegister_eq]
  cases v <;> rfl

end Value

theorem stol_literal (l : Literal) : stol l.text = if -2 ^ 63 ≤ l.value ∧ l.value < 2 ^ 63 then some l.value
    else none := by
  have hread : scan (l.text ++ []) = (l.neg, l.digits) := scan_literal l (by simp)
  rw [List.append_nil] at hread
  simp only [stol, hread, l.ne_nil, if_false]
  rfl

theorem Width.le_of_typed (ty : Width) {z : Int} (h : -2 ^ (ty.bits - 1) ≤ z) : -2 ^ 63 ≤ z := by
  have hle : (2 : Int) ^ (ty.bits - 1) ≤ 2 ^ 63 := by cases ty <;> decide
  omega

/-- The instruction of these operands. -/
def Select.ofValues (ty : Width) (ret : Text) (c : Condition) (v₁ v₂ : Value) : Select where
  returnType := ty.text
  returnRegister := ret
  dependencies := c.value.regs ++ (v₁.regs ++ v₂.regs)
  immValues := [v₁.immValue, v₂.immValue]
  imm := [v₁.keptReg.isNone, v₂.keptReg.isNone]

theorem filter_registers (v₁ v₂ v₃ : Value) :
    ([v₁.text, v₂.text, v₃.text].filter isRegister).map (·.drop 1) = v₁.regs ++ (v₂.regs ++ v₃.regs) := by
  rw [← v₁.regs_eq, ← v₂.regs_eq, ← v₃.regs_eq]
  cases h₁ : isRegister v₁.text <;> cases h₂ : isRegister v₂.text <;> cases h₃ :
    isRegister v₃.text <;> simp [h₁, h₂, h₃]

theorem firstValue_text (v : Value) : Select.firstValue v.text = (v.keptReg.isNone, v.immValue) := by
  rw [Select.firstValue, Value.immValue, v.isRegister_eq]
  cases v <;> rfl

/-- The second value is read by `std::stol`. -/
theorem secondValue_text {ty : Width} {v : Value} (h : v.Typed ty) :
    Select.secondValue v.text = .ok (v.keptReg.isNone, v.immValue) ∧ v.Parses ∨
      Select.secondValue v.text = .error .stoi ∧ ¬ v.Parses := by
  cases v with
  | reg name => exact .inl ⟨rfl, trivial⟩
  | bool b => cases b <;> exact .inr ⟨rfl, id⟩
  | imm l =>
    have hlo := ty.le_of_typed h.1
    have hreg : isRegister (Value.imm l).text = false := isRegister_literal l
    rw [Select.secondValue, hreg, if_neg Bool.false_ne_true, Value.text, stol_literal]
    by_cases hlt : l.value < 2 ^ 63
    · refine .inl ⟨?_, hlt⟩
      rw [if_pos ⟨hlo, hlt⟩]
      simp only [Value.immValue, Value.keptReg, Value.text, strtol_of_fits l ⟨hlo, hlt⟩]
      rfl
    · refine .inr ⟨?_, hlt⟩
      rw [if_neg fun h => hlt h.2]

theorem parse_select (ty : Width) {ret : Text} {c : Condition} {v₁ v₂ : Value} (hret : IsName ret) (hc : c.value.Named)
    (h₁ : v₁.Named) (h₂ : v₂.Named) (htyped : v₂.Typed ty) :
    ∃ l, parseLine (Select.line ty ret c v₁ v₂) = some l ∧ l.opCode = "select".toList ∧ ∀ regs : Regs,
      Select.parse l regs = .ok (.ofValues ty ret c v₁ v₂, Function.update regs ret { regs ret with size := ty.bytes })
        ∧ v₂.Parses ∨ Select.parse l regs = .error .stoi ∧ ¬ v₂.Parses := by
  have hi1 : IsWord "i1".toList := isWord_width .i1
  have hwritten : Written ["i1".toList, c.value.text, ty.text, v₁.text, ty.text, v₂.text]
      ("i1".toList ++ ' ' :: (c.value.text ++ ',' :: ' ' :: (ty.text ++ ' ' :: (v₁.text ++ ',' :: ' ' ::
        (ty.text ++ ' ' :: v₂.text))))) :=
    .word hi1 (.inl rfl) (.word (Value.isWord hc) (.inr rfl) (.skip (.inl rfl) (.word (isWord_width ty) (.inl rfl)
      (.word (Value.isWord h₁) (.inr rfl) (.skip (.inl rfl) (.word (isWord_width ty) (.inl rfl)
        (.last (Value.isWord h₂))))))))
  refine ⟨_, parseLine_assign hret.1 (by decide) hwritten, rfl, fun regs => ?_⟩
  simp only [Select.parse, parameter, List.getElem?_cons_zero, List.getElem?_cons_succ, Register.setSize_width, bind,
    Except.bind, pure, Except.pure, filter_registers, firstValue_text]
  rcases secondValue_text htyped with ⟨hsecond, hparses⟩ | ⟨hsecond, hparses⟩
  · refine .inl ⟨?_, hparses⟩
    rw [hsecond]
    rfl
  · refine .inr ⟨?_, hparses⟩
    rw [hsecond]

/-! ## The selected value -/

/-- What `compute()` has for a value: a constant from `_ImmValues`. -/
def Value.operand (regs : Regs) (v : Value) : Word :=
  match v.keptReg with
  | some name => (regs name).value
  | none => v.immValue

/-- What is committed of a value: a constant as `strtol` reads it, in the bytes of the type. -/
def Value.taken (ty : Width) (regs : Regs) (v : Value) : Word :=
  match v.keptReg with
  | some name => (regs name).value
  | none => (BitVec.ofInt (8 * ty.bytes) (strtol v.text)).setWidth 64

/-- When a value is read as it is: a literal is in the range of `long` and a negative one is not of one bit, and `true`
is read as 0. -/
def Value.Reads (ty : Width) : Value → Prop
  | reg _ => True
  | imm l => l.value < 2 ^ 63 ∧ (ty = .i1 → 0 ≤ l.value)
  | bool b => b = false

section Compute

variable {ty : Width} {ret : Text} {c : Condition} {v₁ v₂ : Value} {regs : Regs}

theorem compute_nil (result : Word) : (Select.ofValues ty ret c v₁ v₂).compute result [] = .error .outOfRange := by
  have htype : (Select.ofValues ty ret c v₁ v₂).returnType.head? = some 'i' := by cases ty <;> rfl
  rw [Select.compute, if_pos htype]
  rfl

/-- `compute()` takes its first operand as the condition. -/
theorem compute_cons (c : Condition) (v₁ v₂ : Value) (result a : Word) (ops : List Word) :
    (Select.ofValues ty ret c v₁ v₂).compute result (a :: ops) =
    if a = 0 then
      if v₂.keptReg.isNone then .ok v₂.immValue else if v₁.keptReg.isNone then opAt ops 0 else opAt ops 1
    else if v₁.keptReg.isNone then .ok v₁.immValue else opAt ops 0 := by
  have htype : (Select.ofValues ty ret c v₁ v₂).returnType.head? = some 'i' := by cases ty <;> rfl
  rw [Select.compute, if_pos htype]
  cases h₁ : v₁.keptReg <;> cases h₂ : v₂.keptReg <;> simp [Select.ofValues, h₁, h₂, opAt, elementAt, bind, Except.bind]

/-- What is committed of the operand for a value. -/
theorem commit_operand {v : Value} (hheld : v.Held ty regs) (hsize : (regs ret).size = ty.bytes)
    (hret : (regs ret).value.toNat < 2 ^ (8 * ty.bytes)) (final : Word) :
    (commit regs ret final (v.operand regs) ret).value = v.taken ty regs := by
  have hbytes : 8 * ty.bytes ≤ 64 := by cases ty <;> decide
  have hlow : ∀ z : Int, (commit regs ret final (BitVec.ofInt 64 z) ret).value =
      (BitVec.ofInt (8 * ty.bytes) z).setWidth 64 := by
    intro z
    rw [commit_low (by rwa [hsize]), hsize, setWidth_ofInt hbytes]
  cases v with
  | reg name => exact commit_of_lt (by rwa [hsize]) final (by rw [hsize]; exact hheld)
  | imm l => exact hlow _
  | bool b => exact hlow _

theorem taken_eq_word_iff {v : Value} (htyped : v.Typed ty) : v.taken ty regs = v.word ty.bits regs ↔ v.Reads ty := by
  cases v with
  | reg name => exact iff_of_true rfl trivial
  | bool b =>
    obtain rfl : ty = .i1 := htyped
    cases b
    · exact iff_of_true rfl rfl
    · refine iff_of_false ?_ Bool.noConfusion
      simp only [Value.taken, Value.keptReg, Value.word]
      decide
  | imm l =>
    have hlo := ty.le_of_typed htyped.1
    simp only [Value.taken, Value.keptReg, Value.text, Value.word, Value.Reads]
    by_cases hlt : l.value < 2 ^ 63
    · rw [strtol_of_fits l ⟨hlo, hlt⟩, low_bytes_iff htyped.1 htyped.2]
      exact (and_iff_right hlt).symm
    · -- `strtol` gives the largest `long`
      refine iff_of_false (fun heq => ?_) fun h => hlt h.1
      have hread : strtol (l.text ++ []) = max (-2 ^ 63) (min (2 ^ 63 - 1) l.value) := strtol_literal l (by simp)
      obtain rfl : ty = .i64 := by
        have hhi := htyped.2
        cases ty <;> first | rfl | (simp only [Width.bits] at hhi; omega)
      have hhi := htyped.2
      rw [List.append_nil] at hread
      have hmax : strtol l.text = 2 ^ 63 - 1 := by omega
      have hnat := congrArg BitVec.toNat heq
      have hbytes : Width.i64.bytes = 8 := rfl
      rw [hbytes] at hnat
      simp only [Width.bits, BitVec.toNat_setWidth, BitVec.toNat_ofInt] at hnat hhi
      omega

end Compute

/-! ## What is committed -/

/-- When the selected value is committed. With a constant as the condition the first register among the values is taken
for it, and the values are one place too far. -/
def Selects (ty : Width) (regs : Regs) : Condition → Value → Value → Prop
  | .reg c, v₁, v₂ => if (regs c).value = 1 then v₁.Reads ty else v₂.Reads ty
  | .bool b, .reg a₁, .reg a₂ => (regs a₁).value ≠ 0 ∧ (b = true → (regs a₁).value = (regs a₂).value)
  | .bool b, .reg a, v => (regs a).value = 0 ∧ if b then v.taken ty regs = 0 else v.Reads ty
  | .bool b, v, .reg a => (regs a).value ≠ 0 ∧ if b then v.Reads ty else v.taken ty regs = (regs a).value
  | .bool _, _, _ => False

section Committed

variable {ty : Width} {ret : Text} {c : Condition} {v₁ v₂ : Value} {regs : Regs}

/-- What the instruction leaves in its return register. -/
def Leaves (i : Select) (result final : Word) (regs : Regs) (w : Word) : Prop :=
  ∃ regs', i.exec result final regs = .ok regs' ∧ (regs' i.returnRegister).value = w

theorem leaves_iff (h₁ : v₁.Typed ty) (h₂ : v₂.Typed ty) (hc : c.Held regs) (held₁ : v₁.Held ty regs)
    (held₂ : v₂.Held ty regs)
    (hsize : (regs ret).size = ty.bytes) (hret : (regs ret).value.toNat < 2 ^ (8 * ty.bytes)) (result final : Word) :
    Leaves (.ofValues ty ret c v₁ v₂) result final regs ((if c.holds regs then v₁ else v₂).word ty.bits regs) ↔
      Selects ty regs c v₁ v₂ := by
  have hok : ∀ {r w : Word}, (Select.ofValues ty ret c v₁ v₂).compute result
      ((Select.ofValues ty ret c v₁ v₂).dependencies.map fun name => (regs name).value) = .ok r →
      (Leaves (.ofValues ty ret c v₁ v₂) result final regs w ↔ (commit regs ret final r ret).value = w) := by
    intro r w hr
    rw [Leaves, Select.exec, hr]
    simp only [bind, Except.bind, pure, Except.pure, Except.ok.injEq, exists_eq_left']
    rfl
  have herror : ∀ {w : Word}, (Select.ofValues ty ret c v₁ v₂).compute result
      ((Select.ofValues ty ret c v₁ v₂).dependencies.map fun name => (regs name).value) = .error .outOfRange →
      ¬ Leaves (.ofValues ty ret c v₁ v₂) result final regs w := by
    rintro w he ⟨regs', hexec, -⟩
    rw [Select.exec, he] at hexec
    cases hexec
  cases c with
  | reg c =>
    have hops : (Select.ofValues ty ret (.reg c) v₁ v₂).dependencies.map (fun name => (regs name).value) =
        (regs c).value :: (v₁.regs ++ v₂.regs).map fun name => (regs name).value := rfl
    rcases hc with hc | hc
    · have hr : (Select.ofValues ty ret (.reg c) v₁ v₂).compute result
          ((Select.ofValues ty ret (.reg c) v₁ v₂).dependencies.map fun name => (regs name).value) =
            .ok (v₂.operand regs) := by
        rw [hops, compute_cons, if_pos hc]
        cases v₁ <;> cases v₂ <;> rfl
      have hholds : (Condition.reg c).holds regs = false := by
        rw [Condition.holds, hc]
        rfl
      rw [hok hr, commit_operand held₂ hsize hret, hholds, if_neg Bool.false_ne_true, taken_eq_word_iff h₂, Selects, hc,
        if_neg (by decide)]
    · have hr : (Select.ofValues ty ret (.reg c) v₁ v₂).compute result
          ((Select.ofValues ty ret (.reg c) v₁ v₂).dependencies.map fun name => (regs name).value) =
            .ok (v₁.operand regs) := by
        rw [hops, compute_cons, if_neg (by rw [hc]; decide)]
        cases v₁ <;> cases v₂ <;> rfl
      have hholds : (Condition.reg c).holds regs = true := by
        rw [Condition.holds, hc]
        rfl
      rw [hok hr, commit_operand held₁ hsize hret, hholds, if_pos rfl, taken_eq_word_iff h₁, Selects, if_pos hc]
  | bool b =>
    cases v₁ with
    | reg a₁ =>
      cases v₂ with
      | reg a₂ =>
        by_cases ha : (regs a₁).value = 0
        · have he : (Select.ofValues ty ret (.bool b) (.reg a₁) (.reg a₂)).compute result
              [(regs a₁).value, (regs a₂).value] = .error .outOfRange := by
            rw [compute_cons, if_pos ha]
            rfl
          exact iff_of_false (herror he) fun h => h.1 ha
        · have hr : (Select.ofValues ty ret (.bool b) (.reg a₁) (.reg a₂)).compute result
              [(regs a₁).value, (regs a₂).value] = .ok ((Value.reg a₂).operand regs) := by
            rw [compute_cons, if_neg ha]
            rfl
          rw [hok hr, commit_operand held₂ hsize hret, Selects]
          cases b with
          | true => exact ⟨fun h => ⟨ha, fun _ => h.symm⟩, fun h => (h.2 rfl).symm⟩
          | false => exact iff_of_true rfl ⟨ha, fun h => absurd h Bool.false_ne_true⟩
      | imm _ | bool _ =>
        by_cases ha : (regs a₁).value = 0
        · rw [hok ((compute_cons (.bool b) (.reg a₁) _ result (regs a₁).value []).trans (if_pos ha))]
          have hcommit := commit_operand held₂ hsize hret final
          cases b with
          | true =>
            refine (Eq.congr hcommit ha).trans ?_
            exact (and_iff_right ha).symm
          | false =>
            refine (Eq.congr_left hcommit).trans ((taken_eq_word_iff h₂).trans ?_)
            exact (and_iff_right ha).symm
        · refine iff_of_false (herror ?_) fun h => ha h.1
          exact (compute_cons (.bool b) (.reg a₁) _ result (regs a₁).value []).trans (if_neg ha)
    | imm _ | bool _ =>
      cases v₂ with
      | reg a =>
        by_cases ha : (regs a).value = 0
        · refine iff_of_false (herror ?_) fun h => h.1 ha
          exact (compute_cons (.bool b) _ (.reg a) result (regs a).value []).trans (if_pos ha)
        · rw [hok ((compute_cons (.bool b) _ (.reg a) result (regs a).value []).trans (if_neg ha))]
          have hcommit := commit_operand held₁ hsize hret final
          cases b with
          | true =>
            refine (Eq.congr_left hcommit).trans ((taken_eq_word_iff h₁).trans ?_)
            exact (and_iff_right ha).symm
          | false =>
            refine (Eq.congr_left hcommit).trans ?_
            exact (and_iff_right ha).symm
      | imm _ | bool _ => exact iff_of_false (herror (compute_nil result)) id

end Committed

/-- **The selected value is committed, exactly when the second value is no word and fits into a `long`, and the operands
stand where `compute()` takes them.** -/
theorem select_committed (ty : Width) {ret : Text} {c : Condition} {v₁ v₂ : Value} (hret : IsName ret)
    (hc : c.value.Named)
    (h₁ : v₁.Named ∧ v₁.Typed ty) (h₂ : v₂.Named ∧ v₂.Typed ty) :
    ∃ l, parseLine (Select.line ty ret c v₁ v₂) = some l ∧ l.opCode = "select".toList ∧
      ∀ (before regs : Regs) (result final : Word), (regs ret).size = ty.bytes →
        (regs ret).value.toNat < 2 ^ (8 * ty.bytes) → c.Held regs → v₁.Held ty regs → v₂.Held ty regs →
        ((∃ i before', Select.parse l before = .ok (i, before') ∧
            Leaves i result final regs ((if c.holds regs then v₁ else v₂).word ty.bits regs)) ↔
          v₂.Parses ∧ Selects ty regs c v₁ v₂) := by
  obtain ⟨l, hline, hop, hparse⟩ := parse_select ty hret hc h₁.1 h₂.1 h₂.2
  refine ⟨l, hline, hop, fun before regs result final hsize hold heldc held₁ held₂ => ?_⟩
  rw [← leaves_iff h₁.2 h₂.2 heldc held₁ held₂ hsize hold result final]
  rcases hparse before with ⟨hok, hparses⟩ | ⟨herror, hno⟩
  · rw [hok]
    constructor
    · rintro ⟨i, before', heq, hleaves⟩
      cases heq
      exact ⟨hparses, hleaves⟩
    · rintro ⟨-, hleaves⟩
      exact ⟨_, _, rfl, hleaves⟩
  · rw [herror]
    constructor
    · rintro ⟨i, before', heq, -⟩
      cases heq
    · exact fun h => absurd h.1 hno

theorem named_letter (c : Char) (hblank : ' ' ≠ c) (hcomma : ',' ≠ c) : IsName [c] :=
  ⟨fun h => hblank (List.mem_singleton.mp h), fun h => hcomma (List.mem_singleton.mp h)⟩

/-- `  %x = select i1 %c, i32 5, i32 %y` with `%c` true. -/
theorem select_committed_five : ∃ l i before',
    parseLine (Select.line .i32 ['x'] (.reg ['c']) (.imm (.ofNat 5)) (.reg ['y'])) =
    some l ∧ Select.parse l phiRegs = .ok (i, before') ∧ Leaves i 0 0 (Function.update phiRegs ['c'] ⟨1, 1⟩) 5 := by
  have hc : (Condition.reg ['c']).value.Named := named_letter 'c' (by decide) (by decide)
  have hy : (Value.reg ['y']).Named ∧ (Value.reg ['y']).Typed .i32 :=
    ⟨named_letter 'y' (by decide) (by decide), trivial⟩
  have hfive : (Value.imm (.ofNat 5)).Named ∧ (Value.imm (.ofNat 5)).Typed .i32 := by
    refine ⟨trivial, ?_⟩
    rw [Value.Typed, Literal.value_ofNat]
    decide
  obtain ⟨l, hline, -, h⟩ := select_committed .i32 (named_letter 'x' (by decide) (by decide)) hc hfive hy
  obtain ⟨i, before', hparse, hleaves⟩ := (h phiRegs (Function.update phiRegs ['c'] ⟨1, 1⟩) 0 0 (by decide) (by decide)
    (.inr rfl) trivial (show 7 < 2 ^ 32 by decide)).mpr
      ⟨trivial, by rw [Selects, if_pos (by rfl), Value.Reads, Literal.value_ofNat]; decide⟩
  have hword : (if (Condition.reg ['c']).holds (Function.update phiRegs ['c'] ⟨1, 1⟩) = true then Value.imm (.ofNat 5)
      else .reg ['y']).word Width.i32.bits (Function.update phiRegs ['c'] ⟨1, 1⟩) = 5 := by
    rfl
  exact ⟨l, i, before', hline, hparse, hword ▸ hleaves⟩

/-- `  %x = select i1 %c, i1 %y, i1 false`: `std::stol` throws. -/
theorem word_not_parsed : ∃ l, parseLine (Select.line .i1 ['x'] (.reg ['c']) (.reg ['y']) (.bool false)) = some l ∧
    l.opCode = "select".toList ∧ ∀ regs, Select.parse l regs = .error .stoi := by
  have hc : (Condition.reg ['c']).value.Named := named_letter 'c' (by decide) (by decide)
  have hy : (Value.reg ['y']).Named := named_letter 'y' (by decide) (by decide)
  have hnamed : (Value.bool false).Named := trivial
  have hfalse : (Value.bool false).Typed .i1 := rfl
  obtain ⟨l, hline, hop, hparse⟩ := parse_select .i1 (named_letter 'x' (by decide) (by decide)) hc hy hnamed hfalse
  exact ⟨l, hline, hop, fun regs => ((hparse regs).resolve_left fun h => h.2).1⟩

end Salam.Ir
