import Mathlib.Algebra.Ring.Int.Defs
import Mathlib.Algebra.Ring.Nat
import Salam.Replacement.Brrip

/-!
# `SatCounter`

The operators against the numbers they stand for. An operator that computes before it compares loses what leaves the
eight bits of the counter.

* `toNat_shiftLeftAssign`: a shift to the left saturates what is left of the number in eight bits.
* `trace_eq_clamped_iff`: the sequences of operators that saturate.
-/

namespace Salam.Replacement

namespace SatCounter

variable {bits : Nat}

theorem maxVal_le (bits : Nat) : maxVal bits ≤ maxVal bits := BitVec.le_refl _

/-- The constructor; nothing after a `fatal_if`. -/
def make (bits : Nat) (initial_val : BitVec 8) : Option (SatCounter bits) :=
  if bits > 8 then none else if h : initial_val > maxVal bits then none else some ⟨initial_val, BitVec.not_lt.mp h⟩

/-- `operator--` -/
def decrement (c : SatCounter bits) : SatCounter bits :=
  if h : 0 < c.counter then ⟨c.counter - 1, by have := c.counter_le; bv_omega⟩ else c

/-- `operator>>=`. The counter becomes an `int`, for which a shift by its width is undefined. -/
def shiftRightAssign (c : SatCounter bits) (shift : Nat) : Option (SatCounter bits) :=
  if shift < 32 then
    some ⟨c.counter >>> shift, BitVec.le_trans (by
      rw [BitVec.le_def, BitVec.toNat_ushiftRight, Nat.shiftRight_eq_div_pow]
      exact Nat.div_le_self _ _) c.counter_le⟩
  else none

/-- `operator<<=`. The eight bits that are kept are compared with the maximum. -/
def shiftLeftAssign (c : SatCounter bits) (shift : Nat) : Option (SatCounter bits) :=
  if shift < 32 then
    some (if h : maxVal bits < c.counter <<< shift then ⟨maxVal bits, maxVal_le bits⟩
      else ⟨c.counter <<< shift, BitVec.not_lt.mp h⟩)
  else none

/-- `operator-=` -/
def subAssign (c : SatCounter bits) (value : Nat) : SatCounter bits :=
  if h : value < c.counter.toNat then ⟨c.counter - BitVec.ofNat 8 value, by have := c.counter_le; bv_omega⟩
  else ⟨0, by bv_omega⟩

inductive Op
  | increment
  | decrement
  | addAssign (value : Nat)
  | subAssign (value : Nat)
  | shiftLeftAssign (shift : Nat)
  | shiftRightAssign (shift : Nat)
  deriving DecidableEq

def step (c : SatCounter bits) : Op → Option (SatCounter bits)
  | .increment => some c.increment
  | .decrement => some c.decrement
  | .addAssign value => some (c.addAssign value)
  | .subAssign value => some (c.subAssign value)
  | .shiftLeftAssign shift => c.shiftLeftAssign shift
  | .shiftRightAssign shift => c.shiftRightAssign shift

/-- The counters after each operator. -/
def trace (c : SatCounter bits) : List Op → Option (List (SatCounter bits))
  | [] => some []
  | op :: ops => do
    let c' ← c.step op
    let rest ← c'.trace ops
    return c' :: rest

/-- The number that an operator gives. -/
def Op.result (v : Int) : Op → Int
  | .increment => v + 1
  | .decrement => v - 1
  | .addAssign value => v + value
  | .subAssign value => v - value
  | .shiftLeftAssign shift => v * 2 ^ shift
  | .shiftRightAssign shift => v / 2 ^ shift

/-- The number in the range of the counter. -/
def clamp (bits : Nat) (v : Int) : Int := max 0 (min v (2 ^ bits - 1))

/-- The numbers after each operator. -/
def clamped (bits : Nat) (v : Int) : List Op → List Int
  | [] => []
  | op :: ops => clamp bits (op.result v) :: clamped bits (clamp bits (op.result v)) ops

/-- The bits that a shift to the left loses are not needed, and no shift is undefined. -/
def Op.Safe (bits : Nat) (v : Int) : Op → Prop
  | .shiftLeftAssign shift => shift < 32 ∧ (v * 2 ^ shift < 2 ^ 8 ∨ 2 ^ bits - 1 ≤ v * 2 ^ shift % 2 ^ 8)
  | .shiftRightAssign shift => shift < 32
  | _ => True

/-- Every operator of the sequence is safe at its number. -/
def Safe (bits : Nat) (v : Int) : List Op → Prop
  | [] => True
  | op :: ops => op.Safe bits v ∧ Safe bits (clamp bits (op.result v)) ops

theorem toNat_maxVal (hbits : bits ≤ 8) : (maxVal bits).toNat = 2 ^ bits - 1 := by
  have hle := Nat.pow_le_pow_right (by decide : 0 < 2) hbits
  rw [maxVal, BitVec.toNat_ofNat, Nat.shiftLeft_eq, Nat.one_mul, Nat.mod_eq_of_lt (by omega)]

theorem two_pow_sub_one_eq (hbits : bits ≤ 8) : (2 ^ bits - 1 : Int) = (maxVal bits).toNat := by
  rw [toNat_maxVal hbits, Int.natCast_sub (Nat.two_pow_pos bits)]
  rfl

theorem toNat_decrement (c : SatCounter bits) : c.decrement.counter.toNat = c.counter.toNat - 1 := by
  have hone : (1 : BitVec 8).toNat = 1 := rfl
  rw [decrement]
  split
  · rename_i h
    exact BitVec.toNat_sub_of_le (BitVec.le_def.mpr (hone ▸ BitVec.lt_def.mp h))
  · rename_i h
    have hzero : ¬ 0 < c.counter.toNat := fun hpos => h (BitVec.lt_def.mpr hpos)
    omega

theorem toNat_subAssign (c : SatCounter bits) (value : Nat) :
    (c.subAssign value).counter.toNat = c.counter.toNat - value := by
  rw [subAssign]
  split
  · bv_omega
  · show 0 = _
    omega

theorem toNat_shiftLeftAssign {c c' : SatCounter bits} {shift : Nat} (h : c.shiftLeftAssign shift = some c') :
    c'.counter.toNat = min (c.counter.toNat * 2 ^ shift % 2 ^ 8) (maxVal bits).toNat := by
  simp only [shiftLeftAssign, Option.ite_none_right_eq_some, Option.some.injEq] at h
  obtain ⟨-, rfl⟩ := h
  rw [← Nat.shiftLeft_eq, ← BitVec.toNat_shiftLeft]
  split
  · rename_i h
    exact (Nat.min_eq_right (Nat.le_of_lt h)).symm
  · rename_i h
    exact (Nat.min_eq_left (Nat.not_lt.mp h)).symm

theorem toNat_shiftRightAssign {c c' : SatCounter bits} {shift : Nat} (h : c.shiftRightAssign shift = some c') :
    c'.counter.toNat = c.counter.toNat / 2 ^ shift := by
  simp only [shiftRightAssign, Option.ite_none_right_eq_some, Option.some.injEq] at h
  obtain ⟨-, rfl⟩ := h
  exact (BitVec.toNat_ushiftRight _ _).trans (Nat.shiftRight_eq_div_pow _ _)

/-- **One operator** gives its number, clamped, if and only if it is safe. -/
theorem step_iff (hbits : bits ≤ 8) (c : SatCounter bits) (op : Op) :
    (∃ c', c.step op = some c' ∧ (c'.counter.toNat : Int) = clamp bits (op.result c.counter.toNat)) ↔
      op.Safe bits c.counter.toNat := by
  have hmax := two_pow_sub_one_eq hbits
  have hle := c.toNat_le
  have hdet {c' : SatCounter bits} {v : Int} (h : (c'.counter.toNat : Int) = clamp bits v) :
      ∃ c₁, some c' = some c₁ ∧ (c₁.counter.toNat : Int) = clamp bits v := ⟨c', rfl, h⟩
  cases op with
  | increment =>
    refine iff_of_true (hdet ?_) trivial
    rw [toNat_increment, clamp, hmax, Op.result]
    omega
  | decrement =>
    refine iff_of_true (hdet ?_) trivial
    rw [toNat_decrement, clamp, hmax, Op.result]
    omega
  | addAssign value =>
    refine iff_of_true (hdet ?_) trivial
    rw [toNat_addAssign, clamp, hmax, Op.result]
    omega
  | subAssign value =>
    refine iff_of_true (hdet ?_) trivial
    rw [toNat_subAssign, clamp, hmax, Op.result]
    omega
  | shiftLeftAssign shift =>
    have hcast : (c.counter.toNat : Int) * 2 ^ shift = ((c.counter.toNat * 2 ^ shift : Nat) : Int) := by push_cast; rfl
    rw [Op.result, Op.Safe, hcast, clamp, hmax]
    constructor
    · rintro ⟨c', hc, hclamp⟩
      rw [toNat_shiftLeftAssign hc] at hclamp
      simp only [step, shiftLeftAssign, Option.ite_none_right_eq_some] at hc
      exact ⟨hc.1, by omega⟩
    · rintro ⟨hshift, hkept⟩
      obtain ⟨c', hc⟩ : ∃ c', c.shiftLeftAssign shift = some c' := ⟨_, if_pos hshift⟩
      refine ⟨c', hc, ?_⟩
      rw [toNat_shiftLeftAssign hc]
      omega
  | shiftRightAssign shift =>
    have hcast : (c.counter.toNat : Int) / 2 ^ shift = ((c.counter.toNat / 2 ^ shift : Nat) : Int) := by push_cast; rfl
    have hdiv := Nat.div_le_self c.counter.toNat (2 ^ shift)
    rw [Op.result, Op.Safe, hcast, clamp, hmax]
    constructor
    · rintro ⟨c', hc, -⟩
      simp only [step, shiftRightAssign, Option.ite_none_right_eq_some] at hc
      exact hc.1
    · intro hshift
      obtain ⟨c', hc⟩ : ∃ c', c.shiftRightAssign shift = some c' := ⟨_, if_pos hshift⟩
      refine ⟨c', hc, ?_⟩
      rw [toNat_shiftRightAssign hc]
      generalize c.counter.toNat / 2 ^ shift = n at hdiv ⊢
      omega

theorem trace_iff (hbits : bits ≤ 8) (ops : List Op) (c : SatCounter bits) :
    (∃ cs, c.trace ops = some cs ∧ cs.map (fun c => (c.counter.toNat : Int)) = clamped bits c.counter.toNat ops) ↔
      Safe bits c.counter.toNat ops := by
  induction ops generalizing c with
  | nil => exact iff_of_true ⟨[], rfl, rfl⟩ trivial
  | cons op ops ih =>
    rw [Safe, ← step_iff hbits c op]
    simp only [trace, clamped, Option.bind_eq_bind, Option.bind_eq_some_iff]
    constructor
    · rintro ⟨_, ⟨c', hc, cs, hcs, h⟩, hnums⟩
      cases h
      obtain ⟨hhead, htail⟩ := List.cons_eq_cons.mp hnums
      refine ⟨⟨c', hc, hhead⟩, ?_⟩
      rw [← hhead] at htail ⊢
      exact (ih c').mp ⟨cs, hcs, htail⟩
    · rintro ⟨⟨c', hc, hhead⟩, hsafe⟩
      rw [← hhead] at hsafe ⊢
      obtain ⟨cs, hcs, htail⟩ := (ih c').mpr hsafe
      exact ⟨c' :: cs, ⟨c', hc, cs, hcs, rfl⟩, by rw [List.map_cons, htail]⟩

/-- **The counter saturates** on a sequence of operators, from every value it can start with, if and only if every
operator is safe; `saturate` returns what it adds. -/
theorem trace_eq_clamped_iff {initial_val : BitVec 8} {c : SatCounter bits} (h : make bits initial_val = some c)
    (ops : List Op) :
    ((∃ cs, c.trace ops = some cs ∧ cs.map (fun c => (c.counter.toNat : Int)) = clamped bits initial_val.toNat ops) ↔
      Safe bits initial_val.toNat ops) ∧
    ∀ c' : SatCounter bits, c'.saturate.2.counter.toNat = 2 ^ bits - 1 ∧
      c'.counter.toNat + c'.saturate.1 = c'.saturate.2.counter.toNat := by
  simp only [make, Option.ite_none_left_eq_some, Option.dite_none_left_eq_some, Option.some.injEq] at h
  obtain ⟨hbits, _, rfl⟩ := h
  refine ⟨trace_iff (by omega) ops _, fun c' => ⟨toNat_maxVal (by omega), ?_⟩⟩
  have hle := c'.toNat_le
  have hdiff := c'.diff_eq
  show c'.counter.toNat + c'.diff = (maxVal bits).toNat
  omega

/-- A shift that keeps what it needs. -/
theorem trace_eq_clamped_iff_three :
    ((∃ cs, (⟨4, by decide⟩ : SatCounter 3).trace [.shiftLeftAssign 2] = some cs ∧
      cs.map (fun c => (c.counter.toNat : Int)) = clamped 3 (4 : BitVec 8).toNat [.shiftLeftAssign 2]) ↔
      Safe 3 (4 : BitVec 8).toNat [.shiftLeftAssign 2]) ∧
    ∀ c' : SatCounter 3, c'.saturate.2.counter.toNat = 2 ^ 3 - 1 ∧
      c'.counter.toNat + c'.saturate.1 = c'.saturate.2.counter.toNat :=
  trace_eq_clamped_iff rfl _

/-- Four times sixty-four leaves nothing in eight bits: a counter of three bits becomes zero instead of seven. -/
theorem trace_shiftLeftAssign_six : ∃ c : SatCounter 3, make 3 4 = some c ∧
    (c.trace [.shiftLeftAssign 6]).map (fun cs => cs.map fun c => c.counter.toNat) = some [0] ∧
    clamped 3 4 [.shiftLeftAssign 6] = [7] :=
  ⟨⟨4, by decide⟩, rfl, rfl, rfl⟩

end SatCounter

end Salam.Replacement
