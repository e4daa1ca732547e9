import Salam.Ir.Division
import Salam.Ir.Tokens

/-!
# Integer comparisons

`icmp` from its line to the committed bit. The parser keeps one immediate without the side it stands on, and `compute()`
compares `int64_t`: registers as it finds them, or converted for the type `i32`.

* `icmp_committed`: exactly when the committed bit is the one of LLVM.
-/

namespace Salam.Ir

open CString TwosComplement

/-! ## The instruction -/

/-- The flags of `computeFlags`. -/
inductive Predicate
  | eq
  | ne
  | ugt
  | uge
  | ult
  | ule
  | sgt
  | sge
  | slt
  | sle
  deriving DecidableEq

namespace Predicate

/-- The predicate as it is written. -/
def text : Predicate → Text
  | eq => "eq".toList
  | ne => "ne".toList
  | ugt => "ugt".toList
  | uge => "uge".toList
  | ult => "ult".toList
  | ule => "ule".toList
  | sgt => "sgt".toList
  | sge => "sge".toList
  | slt => "slt".toList
  | sle => "sle".toList

/-- The predicate on `w`-bit integers. -/
def holds {w : Nat} (p : Predicate) (a b : BitVec w) : Bool :=
  match p with
  | eq => a == b
  | ne => a != b
  | ugt => b.ult a
  | uge => b.ule a
  | ult => a.ult b
  | ule => a.ule b
  | sgt => b.slt a
  | sge => b.sle a
  | slt => a.slt b
  | sle => a.sle b

end Predicate

/-- The chain of comparisons that sets `computeFlags`; `none` is the 0 it starts with. -/
def computeFlags (condition : Text) : Option Predicate :=
  [.eq, .ne, .ugt, .uge, .ult, .ule, .sgt, .sge, .slt, .sle].find? fun p : Predicate => condition = p.text

/-- An `ICmp` object; `operand` is `_Operand`, `_UOperand` and `_SOperand`. -/
structure ICmp where
  returnType : Text
  returnRegister : Text
  operands : List Text
  flags : Option Predicate
  operand : Word
  deriving DecidableEq

/-- The immediate: the last of the two operands that is not a register. -/
def immOp (p₁ p₂ : Text) : Word :=
  if isRegister p₂ then if isRegister p₁ then 0 else BitVec.ofInt 64 (strtol p₁) else BitVec.ofInt 64 (strtol p₂)

/-- `BasicBlock::parse` for `icmp`. -/
def ICmp.parse (l : Line) : Except Err ICmp := do
  let last := l.parameters.length - 1
  if l.parameters.length < 2 then throw .undefined
  let condition ← parameter l.parameters 0
  let returnType ← parameter l.parameters 1
  let p₁ ← parameter l.parameters (last - 1)
  let p₂ ← parameter l.parameters last
  match l.ret with
  | some ret => return ⟨returnType, ret, setRegOperands p₁ p₂, computeFlags condition, immOp p₁ p₂⟩
  | none => throw .undefined

/-- `ICmp::compute()`. Without a flag `_Result` is indeterminate. -/
def ICmp.compute (i : ICmp) (ops : List Word) : Except Err Word := do
  let ops ← convertOps int32 i.returnType i.operands ops
  let a ← opAt ops 0
  let b ← if ops.length = 1 then pure i.operand else opAt ops 1
  match i.flags with
  | some p => return if p.holds a b then 1 else 0
  | none => throw .undefined

/-- The operands are fetched, `compute()` runs, and the result is committed. -/
def ICmp.exec (i : ICmp) (final : Word) (regs : Regs) : Except Err Regs := do
  let result ← i.compute (i.operands.map fun name => (regs name).value)
  return commit regs i.returnRegister final result

/-! ## Names and lines -/

/-- A name that stays in one parameter; the other characters need quotes. -/
def IsName (name : Text) : Prop := ' ' ∉ name ∧ ',' ∉ name

namespace Operand

/-- The name of a register stays in one parameter. -/
def Named : Operand → Prop
  | reg name => IsName name
  | imm _ => True

/-- A literal is one of the type, signed or unsigned. -/
def Typed (N : Nat) : Operand → Prop
  | reg _ => True
  | imm l => -2 ^ (N - 1) ≤ l.value ∧ l.value < 2 ^ N

end Operand

/-- `  %ret = icmp p ty o₁, o₂` -/
def ICmp.line (p : Predicate) (ty : IntTy) (ret : Text) (o₁ o₂ : Operand) : Text :=
  ' ' :: ' ' :: '%' :: (ret ++ (' ' :: '=' :: ' ' :: ("icmp".toList ++ ' ' :: (p.text ++ ' ' :: (ty.text ++ ' ' ::
    (o₁.text ++ ',' :: ' ' :: o₂.text))))))

theorem isWord_operand {o : Operand} (h : o.Named) : IsWord o.text := by
  cases o with
  | reg name =>
    exact ⟨rfl, by decide, h.1, h.2⟩
  | imm l =>
    obtain ⟨neg, ds, hd, hne⟩ := l
    have hdigit : ∀ c : Char, c.isDigit = false → c ∉ ds := fun c hc hm => by simp [hd c hm] at hc
    cases neg with
    | true => exact ⟨rfl, by decide, hdigit ' ' (by decide), hdigit ',' (by decide)⟩
    | false =>
      cases ds with
      | nil => exact absurd rfl hne
      | cons d ds =>
        have hd0 : d.isDigit := hd d (by simp)
        have hclose : closing d = none := by
          unfold closing
          split <;> first | rfl | exact absurd hd0 (by decide)
        refine ⟨hclose, ?_, fun hm => hdigit ' ' (by decide) (List.mem_cons_of_mem _ hm),
          fun hm => hdigit ',' (by decide) (List.mem_cons_of_mem _ hm)⟩
        intro hm
        simp only [List.mem_cons, List.not_mem_nil, or_false] at hm
        rcases hm with rfl | rfl | rfl | rfl <;> exact absurd hd0 (by decide)

theorem isWord_type (ty : IntTy) : IsWord ty.text := by
  cases ty <;> exact ⟨rfl, by decide, by decide, by decide⟩

theorem isWord_predicate (p : Predicate) : IsWord p.text := by
  cases p <;> exact ⟨rfl, by decide, by decide, by decide⟩

theorem computeFlags_text (p : Predicate) : computeFlags p.text = some p := by
  cases p <;> decide

/-- The instruction of a line. -/
def ICmp.ofOperands (p : Predicate) (ty : IntTy) (ret : Text) (o₁ o₂ : Operand) : ICmp where
  returnType := ty.text
  returnRegister := ret
  operands := setRegOperands o₁.text o₂.text
  flags := some p
  operand := immOp o₁.text o₂.text

variable {o₁ o₂ : Operand}

theorem parse_icmp (p : Predicate) (ty : IntTy) {ret : Text} (hret : IsName ret) (h₁ : o₁.Named) (h₂ : o₂.Named) :
    ∃ l, parseLine (ICmp.line p ty ret o₁ o₂) = some l ∧ l.opCode = "icmp".toList ∧
      ICmp.parse l = .ok (.ofOperands p ty ret o₁ o₂) := by
  have hwritten : Written [p.text, ty.text, o₁.text, o₂.text]
      (p.text ++ ' ' :: (ty.text ++ ' ' :: (o₁.text ++ ',' :: ' ' :: o₂.text))) :=
    .word (isWord_predicate p) (.inl rfl) (.word (isWord_type ty) (.inl rfl)
      (.word (isWord_operand h₁) (.inr rfl) (.skip (.inl rfl) (.last (isWord_operand h₂)))))
  refine ⟨_, parseLine_assign hret.1 (by decide) hwritten, rfl, ?_⟩
  rw [ICmp.ofOperands, ← computeFlags_text p]
  rfl

/-! ## Orders -/

/-- The predicates that read their operands as signed numbers. -/
def Predicate.signed : Predicate → Bool
  | sgt | sge | slt | sle => true
  | eq | ne | ugt | uge | ult | ule => false

/-- The orders of two numbers for which the predicate holds. -/
def Predicate.accepts : Predicate → Ordering → Bool
  | eq => Ordering.isEq
  | ne => Ordering.isNe
  | ugt | sgt => Ordering.isGT
  | uge | sge => Ordering.isGE
  | ult | slt => Ordering.isLT
  | ule | sle => Ordering.isLE

/-- The order of two `N`-bit numbers. -/
def order {N : Nat} (signed : Bool) (x y : BitVec N) : Ordering := compare (reading (!signed) x) (reading (!signed) y)

theorem compare_cases (a b : Int) :
    (a < b ∧ compare a b = .lt) ∨ (a = b ∧ compare a b = .eq) ∨ (b < a ∧ compare a b = .gt) := by
  rcases Int.lt_trichotomy a b with h | h | h
  · exact .inl ⟨h, compare_lt_iff_lt.mpr h⟩
  · exact .inr (.inl ⟨h, compare_eq_iff_eq.mpr h⟩)
  · exact .inr (.inr ⟨h, compare_gt_iff_gt.mpr h⟩)

theorem compare_congr {a b c d : Int} (hlt : a < b ↔ c < d) (hgt : b < a ↔ d < c) : compare a b = compare c d := by
  rcases compare_cases a b with ⟨h, e⟩ | ⟨h, e⟩ | ⟨h, e⟩ <;>
    rcases compare_cases c d with ⟨h', e'⟩ | ⟨h', e'⟩ | ⟨h', e'⟩ <;>
    first | omega | rw [e, e']

/-- A predicate holds of two numbers when it accepts their order. -/
theorem holds_eq_accepts {N : Nat} (p : Predicate) (x y : BitVec N) : p.holds x y = p.accepts (order p.signed x y) := by
  have hnat : x = y ↔ (x.toNat : Int) = y.toNat := by rw [Int.natCast_inj, BitVec.toNat_inj]
  cases hs : p.signed with
  | false =>
    rcases compare_cases x.toNat y.toNat with ⟨h, e⟩ | ⟨h, e⟩ | ⟨h, e⟩ <;> cases p <;>
      simp [Predicate.signed] at hs <;>
      simp [Predicate.holds, Predicate.accepts, order, reading, BitVec.ult, BitVec.ule, e, hnat] <;> omega
  | true =>
    rcases compare_cases x.toInt y.toInt with ⟨h, e⟩ | ⟨h, e⟩ | ⟨h, e⟩ <;> cases p <;>
      simp [Predicate.signed] at hs <;>
      simp [Predicate.holds, Predicate.accepts, order, reading, BitVec.slt, BitVec.sle, e] <;> omega

/-! ## Registers -/

section Extended

variable {N : Nat} {x y : BitVec N}

/-- Two numbers that are extended in one way keep their order, except signed ones that are extended with zeros. -/
theorem order_extend (hN : 0 < N) (hle : N ≤ 64) {s z : Bool} (hz : z = true → N < 64) (h : s = true → z = false) :
    order s (extend z x) (extend z y) = order s x y := by
  cases s with
  | true =>
    obtain rfl := h rfl
    simp only [order, Bool.not_true, reading]
    simp [toInt_extend hle hz, reading]
  | false =>
    cases z with
    | true => simp only [order, Bool.not_false, reading, if_true, toNat_extend_zero hle]
    | false =>
      simp only [order, Bool.not_false, reading, if_true]
      cases hx : x.msb with
      | false =>
        have hxlt := lt_of_msb hN hx
        rw [toNat_extend_of_not_msb hle hx]
        cases hy : y.msb with
        | false => rw [toNat_extend_of_not_msb hle hy]
        | true =>
          have hyle := le_of_msb hN hy
          rw [toNat_extend_of_msb hle hy]
          apply compare_congr <;> omega
      | true =>
        have hxle := le_of_msb hN hx
        rw [toNat_extend_of_msb hle hx]
        cases hy : y.msb with
        | false =>
          have hylt := lt_of_msb hN hy
          rw [toNat_extend_of_not_msb hle hy]
          apply compare_congr <;> omega
        | true =>
          rw [toNat_extend_of_msb hle hy]
          apply compare_congr <;> omega

theorem accepts_swapped {p : Predicate} (h : p.signed) : p.accepts .lt ≠ p.accepts .gt := by
  cases p <;> simp_all [Predicate.signed, Predicate.accepts]

/-- Signed numbers that are extended with zeros keep their order when they have one sign, and are swapped otherwise. -/
theorem accepts_zero_iff (hN : 0 < N) (hlt : N < 64) {p : Predicate} (hp : p.signed) :
    p.accepts (order p.signed (extend true x) (extend true y)) = p.accepts (order p.signed x y) ↔ x.msb = y.msb := by
  have hzero : order p.signed (extend true x) (extend true y) = compare (x.toNat : Int) y.toNat := by
    rw [hp]
    simp only [order, Bool.not_true, reading]
    simp [toInt_extend (Nat.le_of_lt hlt) fun _ => hlt, reading]
  have hsigned : order p.signed x y = compare x.toInt y.toInt := by
    rw [hp]
    rfl
  rw [hzero, hsigned]
  cases hx : x.msb with
  | false =>
    have hxl := lt_of_msb hN hx
    rw [toInt_of_not_msb hx]
    cases hy : y.msb with
    | false => simp [toInt_of_not_msb hy]
    | true =>
      have hyl := le_of_msb hN hy
      have hbefore : compare (x.toNat : Int) y.toNat = .lt := compare_lt_iff_lt.mpr (by omega)
      have hafter : compare (x.toNat : Int) y.toInt = .gt := compare_gt_iff_gt.mpr (by rw [toInt_of_msb hy]; omega)
      simpa [hbefore, hafter] using accepts_swapped hp
  | true =>
    have hxl := le_of_msb hN hx
    cases hy : y.msb with
    | false =>
      have hyl := lt_of_msb hN hy
      have hbefore : compare (x.toNat : Int) y.toNat = .gt := compare_gt_iff_gt.mpr (by omega)
      have hafter : compare x.toInt y.toInt = .lt :=
        compare_lt_iff_lt.mpr (by rw [toInt_of_msb hx, toInt_of_not_msb hy]; omega)
      simpa [hbefore, hafter] using (accepts_swapped hp).symm
    | true =>
      have hsame : compare (x.toNat : Int) y.toNat = compare x.toInt y.toInt := by
        rw [toInt_of_msb hx, toInt_of_msb hy]
        apply compare_congr <;> omega
      simp [hsame]

end Extended

variable {ty : IntTy}

theorem accepts_registers_iff {x y : BitVec ty.bits} (p : Predicate) :
    p.accepts (order p.signed (extend ty.small x) (extend ty.small y)) = p.accepts (order p.signed x y) ↔
      (p.signed → ty.small → x.msb = y.msb) := by
  have hlt := fun h : ty.small = true => IntTy.bits_lt_of_narrow (IntTy.narrow_of_small h)
  by_cases h : p.signed = true ∧ ty.small = true
  · rw [h.2, accepts_zero_iff ty.bits_pos (hlt h.2) h.1]
    simp [h.1]
  · have hsame : order p.signed (extend ty.small x) (extend ty.small y) = order p.signed x y :=
      order_extend ty.bits_pos ty.bits_le hlt fun hs => by simpa [hs] using h
    simp only [hsame, true_iff]
    exact fun hs hsmall => absurd ⟨hs, hsmall⟩ h

/-! ## A register and a literal -/

/-- The order in which the engine sees a register and a literal: a literal is not cut to the type, and `atol` stops at
the largest `long`. -/
def seen (signed : Bool) (ty : IntTy) (x : BitVec ty.bits) (z : Int) : Ordering :=
  if ty.small then if 0 ≤ z then compare (x.toNat : Int) z else if signed then .gt else .lt
  else if z < 2 ^ (ty.bits - 1) then order signed x (BitVec.ofInt ty.bits z)
  else if ty.narrow then if signed || !x.msb then .lt else .gt
  else order signed x (BitVec.intMax ty.bits)

variable {l : Literal}

theorem strtol_typed (ty : IntTy) (h : (Operand.imm l).Typed ty.bits) : strtol l.text = min (2 ^ 63 - 1) l.value := by
  have hread : strtol (l.text ++ []) = _ := strtol_literal l (by simp)
  have hpow := ty.two_pow_le
  rw [List.append_nil] at hread
  have hlo := h.1
  omega

section Seen

variable {ty : IntTy} {s : Bool} {x : BitVec ty.bits} {z : Int}

theorem seen_of_lt (hsmall : ty.small = false) (hz : z < 2 ^ (ty.bits - 1)) :
    seen s ty x z = order s x (BitVec.ofInt ty.bits z) := by
  simp [seen, hsmall, hz]

theorem seen_of_narrow (hsmall : ty.small = false) (hnarrow : ty.narrow = true) (hz : ¬z < 2 ^ (ty.bits - 1)) :
    seen s ty x z = if s || !x.msb then .lt else .gt := by
  simp [seen, hsmall, hnarrow, hz]

theorem seen_of_long (hnarrow : ty.narrow = false) (hz : ¬z < 2 ^ (ty.bits - 1)) :
    seen s ty x z = order s x (BitVec.intMax ty.bits) := by
  have hsmall : ty.small = false := by
    by_contra h
    simp [IntTy.narrow_of_small (by simpa using h)] at hnarrow
  simp [seen, hsmall, hnarrow, hz]

end Seen

theorem seen_small (hsmall : ty.small = true) (h : (Operand.imm l).Typed ty.bits) (s : Bool) (x : BitVec ty.bits) :
    order s (extend true x) (BitVec.ofInt 64 (strtol l.text)) = seen s ty x l.value := by
  have hbits : ty.bits ≤ 16 := by cases ty <;> first | decide | cases hsmall
  have hxlt : x.toNat < 2 ^ 16 := Nat.lt_of_lt_of_le x.isLt (Nat.pow_le_pow_right (by decide) hbits)
  have hlo : -2 ^ 15 ≤ l.value ∧ l.value < 2 ^ 16 := by
    obtain ⟨hlo, hhi⟩ := h
    cases ty <;> simp only [IntTy.bits] at * <;> omega
  have hz : min (2 ^ 63 - 1) l.value = l.value := by omega
  rw [strtol_typed ty h, hz, seen, if_pos hsmall]
  cases s with
  | false =>
    have hword : ((BitVec.ofInt 64 l.value).toNat : Int) = if 0 ≤ l.value then l.value else l.value + 2 ^ 64 := by
      rw [BitVec.toNat_ofInt]
      split <;> omega
    simp only [order, Bool.not_false, reading, if_true, toNat_extend_zero ty.bits_le, hword]
    split
    · rfl
    · rw [if_neg (by decide)]
      exact compare_lt_iff_lt.mpr (by omega)
  | true =>
    have hword : (BitVec.ofInt 64 l.value).toInt = l.value := by
      rw [BitVec.toInt_ofInt, Int.bmod_def]
      omega
    have hreg : (extend true x).toInt = x.toNat :=
      toInt_extend ty.bits_le fun _ => Nat.lt_of_le_of_lt hbits (by decide)
    simp only [order, Bool.not_true, reading]
    simp only [hreg, hword, Bool.false_eq_true, if_false, if_true]
    split
    · rfl
    · exact compare_gt_iff_gt.mpr (by omega)

theorem seen_i32 (h : (Operand.imm l).Typed 32) (s : Bool) (x : BitVec 32) :
    order s (extend false x) (BitVec.ofInt 64 (strtol l.text)) = seen s .i32 x l.value := by
  by_cases hlit : l.value < 2 ^ 31
  · have hprinted : (Operand.imm l).Printed IntTy.i32.bits := ⟨h.1, hlit⟩
    have hword : BitVec.ofInt 64 (strtol l.text) = extend false (BitVec.ofInt 32 l.value) :=
      word_imm hprinted int32 fun _ => .new
    rw [hword, order_extend (by decide) (by decide) (by simp) (fun _ => rfl)]
    exact (seen_of_lt (show IntTy.i32.small = false from rfl) hlit).symm
  · have hhi := h.2
    have hz : min (2 ^ 63 - 1) l.value = l.value := by omega
    have hseen : seen s .i32 x l.value = if s || !x.msb then .lt else .gt := seen_of_narrow rfl rfl hlit
    have hread := strtol_typed .i32 h
    rw [hread, hz, hseen]
    cases s with
    | true =>
      have hword : (BitVec.ofInt 64 l.value).toInt = l.value := by
        rw [BitVec.toInt_ofInt, Int.bmod_def]
        omega
      have hreg : (extend false x).toInt = x.toInt := toInt_extend (by decide) (by simp)
      simp only [order, Bool.not_true, reading]
      simp only [hreg, hword, Bool.false_eq_true, if_false, Bool.true_or, if_true]
      have hbound := x.toInt_lt
      exact compare_lt_iff_lt.mpr (by omega)
    | false =>
      have hword : ((BitVec.ofInt 64 l.value).toNat : Int) = l.value := by
        rw [BitVec.toNat_ofInt]
        omega
      simp only [order, Bool.not_false, reading, if_true, hword, Bool.false_or]
      cases hx : x.msb with
      | false =>
        have hxl := lt_of_msb (by decide) hx
        rw [toNat_extend_of_not_msb (by decide) hx]
        exact compare_lt_iff_lt.mpr (by omega)
      | true =>
        rw [toNat_extend_of_msb (by decide) hx]
        exact compare_gt_iff_gt.mpr (by omega)

theorem seen_i64 (h : (Operand.imm l).Typed 64) (s : Bool) (x : BitVec 64) :
    order s (extend false x) (BitVec.ofInt 64 (strtol l.text)) = seen s .i64 x l.value := by
  have hreg : extend false x = x := extend_i64 x
  have hread := strtol_typed .i64 h
  rw [hreg, hread]
  by_cases hlit : l.value < 2 ^ 63
  · have hz : min (2 ^ 63 - 1) l.value = l.value := by omega
    rw [hz]
    exact (seen_of_lt (show IntTy.i64.small = false from rfl) hlit).symm
  · have hz : min (2 ^ 63 - 1) l.value = 2 ^ 63 - 1 := by omega
    have hmax : BitVec.ofInt 64 (2 ^ 63 - 1) = BitVec.intMax 64 := by decide
    rw [hz, hmax]
    exact (seen_of_long (show IntTy.i64.narrow = false from rfl) hlit).symm

theorem order_literal (h : (Operand.imm l).Typed ty.bits) (s : Bool) (x : BitVec ty.bits) :
    order s (extend ty.small x) (BitVec.ofInt 64 (strtol l.text)) = seen s ty x l.value := by
  cases ty with
  | i8 => exact seen_small rfl h s x
  | i16 => exact seen_small rfl h s x
  | i32 => exact seen_i32 h s x
  | i64 => exact seen_i64 h s x

/-! ## What is committed -/

/-- Exactly when the engine compares as LLVM does. The side of a literal is lost: the register always counts as the
first operand. -/
def Compares (p : Predicate) (ty : IntTy) (regs : Regs) (o₁ o₂ : Operand) : Prop :=
  match o₁, o₂ with
  | .reg _, .reg _ => p.signed → ty.small → (o₁.read ty.bits regs).msb = (o₂.read ty.bits regs).msb
  | .reg _, .imm l =>
    p.accepts (seen p.signed ty (o₁.read ty.bits regs) l.value) =
      p.accepts (order p.signed (o₁.read ty.bits regs) (o₂.read ty.bits regs))
  | .imm l, .reg _ =>
    p.accepts (seen p.signed ty (o₂.read ty.bits regs) l.value) =
      p.accepts (order p.signed (o₁.read ty.bits regs) (o₂.read ty.bits regs))
  | .imm _, .imm _ => True

/-- `_Result`. -/
def bit (b : Bool) : Word := if b then 1 else 0

theorem bit_inj {a b : Bool} : bit a = bit b ↔ a = b := by
  cases a <;> cases b <;> decide

/-- The operands as `compute()` takes them: a literal is always the second. -/
def taken : Operand → Operand → Operand × Operand
  | .imm l, o => (o, .imm l)
  | .reg name, o => (.reg name, o)

variable {p : Predicate}

theorem icmp_one {i : ICmp} (h : i.operands.length = 1) (hp : i.flags = some p) (a : Word) :
    i.compute [a] = .ok (bit (p.holds (if i.returnType = "i32".toList then int32 a else a) i.operand)) := by
  by_cases h32 : i.returnType = "i32".toList
  · simp only [ICmp.compute, convertOps, h, hp, h32, if_true, opAt, bind, Except.bind, pure, Except.pure]
    rfl
  · simp only [ICmp.compute, convertOps, hp, h32, if_false, opAt, bind, Except.bind, pure, Except.pure]
    rfl

theorem icmp_two {i : ICmp} (h : i.operands.length = 2) (hp : i.flags = some p) (a b : Word) :
    i.compute [a, b] =
    .ok (bit (if i.returnType = "i32".toList then p.holds (int32 a) (int32 b) else p.holds a b)) := by
  by_cases h32 : i.returnType = "i32".toList
  · simp only [ICmp.compute, convertOps, h, hp, h32, if_true, opAt, bind, Except.bind, pure, Except.pure]
    rfl
  · simp only [ICmp.compute, convertOps, hp, h32, if_false, opAt, bind, Except.bind, pure, Except.pure]
    rfl

/-- `compute()` on the registers of the operands. -/
theorem compute_icmp (p : Predicate) (ty : IntTy) (ret : Text) (harr : o₁.isReg ∨ o₂.isReg) (regs : Regs) :
    (ICmp.ofOperands p ty ret o₁ o₂).compute
      ((ICmp.ofOperands p ty ret o₁ o₂).operands.map fun name => (regs name).value) =
      .ok (bit (p.holds ((taken o₁ o₂).1.word ty int32 regs) ((taken o₁ o₂).2.word ty int32 regs))) := by
  cases o₁ with
  | reg n₁ =>
    cases o₂ with
    | reg n₂ =>
      have hops : (ICmp.ofOperands p ty ret (.reg n₁) (.reg n₂)).operands = [n₁, n₂] := rfl
      rw [hops]
      refine (icmp_two (by rw [hops]; rfl) rfl _ _).trans ?_
      by_cases h32 : ty = .i32 <;> simp [ICmp.ofOperands, IntTy.text_eq_i32, taken, Operand.word, h32]
    | imm l =>
      have hops : (ICmp.ofOperands p ty ret (.reg n₁) (.imm l)).operands = [n₁] := (setRegOperands_literal n₁ l).1
      have himm : (ICmp.ofOperands p ty ret (.reg n₁) (.imm l)).operand = BitVec.ofInt 64 (strtol l.text) := by
        simp [ICmp.ofOperands, immOp, isRegister_literal, Operand.text]
      rw [hops]
      refine (icmp_one (by rw [hops]; rfl) rfl _).trans ?_
      rw [himm]
      simp [ICmp.ofOperands, IntTy.text_eq_i32, taken, Operand.word]
  | imm l =>
    cases o₂ with
    | reg n₂ =>
      have hops : (ICmp.ofOperands p ty ret (.imm l) (.reg n₂)).operands = [n₂] := (setRegOperands_literal n₂ l).2
      have himm : (ICmp.ofOperands p ty ret (.imm l) (.reg n₂)).operand = BitVec.ofInt 64 (strtol l.text) := by
        simp [ICmp.ofOperands, immOp, isRegister_percent, isRegister_literal, Operand.text]
      rw [hops]
      refine (icmp_one (by rw [hops]; rfl) rfl _).trans ?_
      rw [himm]
      simp [ICmp.ofOperands, IntTy.text_eq_i32, taken, Operand.word]
    | imm l₂ => simp [Operand.isReg] at harr

variable {regs : Regs}

theorem word_reg {name : Text} (h : (Operand.reg name).Held ty.bits regs) :
    (Operand.reg name).word ty int32 regs = extend ty.small ((Operand.reg name).read ty.bits regs) :=
  word_int32 (o := .reg name) trivial h

/-- The predicate on the words, and the one on the operands. -/
theorem holds_word_iff (harr : o₁.isReg ∨ o₂.isReg) (ht₁ : o₁.Typed ty.bits) (ht₂ : o₂.Typed ty.bits)
    (hh₁ : o₁.Held ty.bits regs) (hh₂ : o₂.Held ty.bits regs) :
    p.holds ((taken o₁ o₂).1.word ty int32 regs) ((taken o₁ o₂).2.word ty int32 regs) =
        p.holds (o₁.read ty.bits regs) (o₂.read ty.bits regs) ↔ Compares p ty regs o₁ o₂ := by
  rw [holds_eq_accepts, holds_eq_accepts]
  cases o₁ with
  | reg a =>
    cases o₂ with
    | reg b =>
      simp only [taken, word_reg hh₁, word_reg hh₂]
      exact accepts_registers_iff p
    | imm l =>
      have hlit : (Operand.imm l).word ty int32 regs = BitVec.ofInt 64 (strtol l.text) := rfl
      simp only [taken, word_reg hh₁, hlit, order_literal ht₂]
      rfl
  | imm l =>
    cases o₂ with
    | reg b =>
      have hlit : (Operand.imm l).word ty int32 regs = BitVec.ofInt 64 (strtol l.text) := rfl
      simp only [taken, word_reg hh₂, hlit, order_literal ht₁]
      rfl
    | imm l₂ => simp [Operand.isReg] at harr

/-- A bit in a return register of any size. -/
theorem commit_bit {ret : Text} (hsize : 0 < (regs ret).size)
    (hheld : (regs ret).value.toNat < 2 ^ (8 * (regs ret).size))
    (final : Word) (b : Bool) : (commit regs ret final (bit b) ret).value = bit b := by
  have hle : 2 ^ 1 ≤ 2 ^ (8 * (regs ret).size) := Nat.pow_le_pow_right (by decide) (by omega)
  have hlt : (bit b).toNat < 2 := by cases b <;> decide
  exact commit_of_lt hheld final (by omega)

/-- **The committed bit says whether the predicate holds, exactly under `Compares`.** -/
theorem icmp_committed (p : Predicate) (ty : IntTy) (ret : Text) (o₁ o₂ : Operand) (harr : o₁.isReg ∨ o₂.isReg)
    (hret : IsName ret) (hn₁ : o₁.Named) (hn₂ : o₂.Named) (ht₁ : o₁.Typed ty.bits) (ht₂ : o₂.Typed ty.bits) :
    ∃ l i, parseLine (ICmp.line p ty ret o₁ o₂) = some l ∧ ICmp.parse l = .ok i ∧
      ∀ (final : Word) (regs : Regs), 0 < (regs ret).size → (regs ret).value.toNat < 2 ^ (8 * (regs ret).size) →
        o₁.Held ty.bits regs → o₂.Held ty.bits regs →
        ((∃ regs', i.exec final regs = .ok regs' ∧
            (regs' ret).value = if p.holds (o₁.read ty.bits regs) (o₂.read ty.bits regs) then 1 else 0) ↔
          Compares p ty regs o₁ o₂) := by
  obtain ⟨l, hline, -, hparse⟩ := parse_icmp p ty hret hn₁ hn₂
  refine ⟨l, _, hline, hparse, fun final regs hsize hold hh₁ hh₂ => ?_⟩
  have hexec : (ICmp.ofOperands p ty ret o₁ o₂).exec final regs =
      .ok (commit regs ret final
        (bit (p.holds ((taken o₁ o₂).1.word ty int32 regs) ((taken o₁ o₂).2.word ty int32 regs)))) := by
    rw [ICmp.exec, compute_icmp p ty ret harr]
    rfl
  rw [hexec]
  refine Iff.trans ?_ (bit_inj.trans (holds_word_iff harr ht₁ ht₂ hh₁ hh₂))
  constructor
  · rintro ⟨regs', hr, hvalue⟩
    cases hr
    exact (commit_bit hsize hold final _).symm.trans hvalue
  · exact fun h => ⟨_, rfl, (commit_bit hsize hold final _).trans h⟩

theorem isDigit_five : ∀ c ∈ ['5'], c.isDigit = true := fun c hc => by
  rw [List.mem_singleton.mp hc]
  rfl

theorem five_ne_nil : ['5'] ≠ [] := List.cons_ne_nil _ _

def five : Literal := ⟨false, ['5'], isDigit_five, five_ne_nil⟩

/-- Registers of 32 bits: `%a` holds 7 and the rest 0. -/
def sevenRegs (name : Text) : Register := if name = ['a'] then ⟨7, 4⟩ else ⟨0, 8⟩

/-- `  %x = icmp sgt i32 %a, 5` -/
theorem icmp_committed_sgt : ∃ l i, parseLine (ICmp.line .sgt .i32 ['x'] (.reg ['a']) (.imm five)) = some l ∧
    ICmp.parse l = .ok i ∧ ∃ regs', i.exec 0 sevenRegs = .ok regs' ∧ (regs' ['x']).value = 1 := by
  obtain ⟨l, i, hline, hparse, hexec⟩ := icmp_committed .sgt .i32 ['x'] (.reg ['a']) (.imm five) (.inl rfl)
    ⟨by decide, by decide⟩ ⟨by decide, by decide⟩ trivial trivial ⟨by decide, by decide⟩
  have hiff := hexec 0 sevenRegs (by decide) (by decide) (show _ < _ by decide) trivial
  obtain ⟨regs', hr, hvalue⟩ := hiff.mpr (show Predicate.accepts _ _ = Predicate.accepts _ _ by decide)
  exact ⟨l, i, hline, hparse, regs', hr, hvalue.trans (by decide)⟩

/-- `  %x = icmp slt i32 5, %a` gives 0 for 7. -/
theorem literal_first_compared : ¬ ∀ (p : Predicate) (ty : IntTy) (ret : Text) (o₁ o₂ : Operand), o₁.isReg ∨ o₂.isReg →
    IsName ret → o₁.Named → o₂.Named → o₁.Typed ty.bits → o₂.Typed ty.bits →
    ∃ l i, parseLine (ICmp.line p ty ret o₁ o₂) = some l ∧ ICmp.parse l = .ok i ∧
      ∀ (final : Word) (regs : Regs), 0 < (regs ret).size → (regs ret).value.toNat < 2 ^ (8 * (regs ret).size) →
        o₁.Held ty.bits regs → o₂.Held ty.bits regs →
        ∃ regs', i.exec final regs = .ok regs' ∧
          (regs' ret).value = if p.holds (o₁.read ty.bits regs) (o₂.read ty.bits regs) then 1 else 0 := by
  intro h
  obtain ⟨l, i, hline, hparse, hexec⟩ := h .slt .i32 ['x'] (.imm five) (.reg ['a']) (.inr rfl) ⟨by decide, by decide⟩
    trivial ⟨by decide, by decide⟩ ⟨by decide, by decide⟩ trivial
  obtain ⟨l', hline', -, hparse'⟩ := parse_icmp .slt .i32 (show IsName ['x'] from ⟨by decide, by decide⟩)
    (show (Operand.imm five).Named from trivial) (show (Operand.reg ['a']).Named from ⟨by decide, by decide⟩)
  cases hline.symm.trans hline'
  cases hparse.symm.trans hparse'
  obtain ⟨regs', hr, hvalue⟩ := hexec 0 sevenRegs (by decide) (by decide) trivial (show _ < _ by decide)
  cases hr
  exact absurd hvalue (by decide)

end Salam.Ir
