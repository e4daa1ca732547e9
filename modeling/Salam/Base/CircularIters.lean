import Mathlib.Algebra.Order.Ring.Int
import Mathlib.Data.Int.ModEq
import Mathlib.Tactic.LinearCombination
import Mathlib.Tactic.Ring
import Mathlib.Tactic.Zify
import Salam.Base.CircularValid

/-!
# The iterators of a circular queue

The random access operators of an iterator, in the machine arithmetic of the source: indices and rounds have 32 bits,
numbers to add 64 bits and a sign, and the capacity is an unsigned number of 64 bits, so that a negative number is
divided as an unsigned one.

* `iterator_laws`: adding and subtracting are right as long as no round is borrowed, or the capacity is a power of two,
  and exactly then.
-/

namespace Salam.Base

namespace CircularQueue

variable {T : Type}

/-- A number as an `uint32_t`. -/
def toU32 (t : Int) : Nat := (t % 2 ^ 32).toNat

/-- A number as a `size_t`. -/
def toU64 (t : Int) : Nat := (t % 2 ^ 64).toNat

/-- `sub`, which returns an `int32_t`. -/
def sub (op₁ op₂ size : Nat) : Int :=
  if op₂ < op₁ then (((op₁ - op₂) % size : Nat) : Int).bmod (2 ^ 32)
  else (-(((op₂ - op₁) % size : Nat) : Int)).bmod (2 ^ 32)

def moduloSub (op₁ op₂ size : Nat) : Nat :=
  let ret := sub op₁ op₂ size
  toU32 (if 0 ≤ ret then ret else ret + size)

/-- `iterator::operator+=`; the sum of number and index is divided as a `size_t`. -/
def plus (q : CircularQueue T) (it : Iter) (t : Int) : Iter where
  idx := moduloAdd it.idx (toU32 t) q.capacity
  round := (it.round + toU64 (t + it.idx) / q.capacity) % 2 ^ 32

/-- `iterator::operator-=` -/
def minus (q : CircularQueue T) (it : Iter) (t : Int) : Iter :=
  if 0 ≤ t then
    { idx := moduloSub it.idx (toU32 t) q.capacity
      round := (it.round + toU64 (-t + it.idx) / q.capacity) % 2 ^ 32 }
  else q.plus it (-t)

/-- `iterator::operator-`; the result has the type `int32_t` of `sub`. -/
def diff (q : CircularQueue T) (this that : Iter) : Int :=
  let ret := sub this.idx that.idx q.capacity
  if this.round ≠ that.round then
    (ret + ((toU32 (this.round - that.round) * q.capacity % 2 ^ 64 : Nat) : Int)).bmod (2 ^ 32)
  else ret

def decrementable (q : CircularQueue T) (it : Iter) : Bool :=
  !(it.idx = q.head &&
    (q.isEmpty || it.idx = 0 && it.round ≠ incRound q.round || it.idx ≠ 0 && it.round ≠ q.round))

/-- `iterator::operator--`; nothing if the assertion fails. -/
def prev (q : CircularQueue T) (it : Iter) : Option Iter :=
  if q.decrementable it then
    some { idx := q.decrease it.idx, round := if it.idx = 0 then decRound it.round else it.round }
  else none

/-! ## Machine arithmetic -/

section Arithmetic

variable {c : Nat} {q : CircularQueue T} {P Q : Nat} {n : Int}

/-- A negative number `-d` divided as an unsigned one borrows `s` rounds exactly if the capacity is a power of two. -/
theorem borrow_iff (hc : 0 < c) (hc' : c < 2 ^ 32) {d s i : Nat} (hd : d ≤ 2 ^ 64) (hs : c * s = d + i) (hi : i < c) :
    (s + (2 ^ 64 - d) / c) % 2 ^ 32 = 0 ↔ c ∣ 2 ^ 32 := by
  have hdiv := Nat.div_add_mod (2 ^ 64 - d) c
  have hmod := Nat.mod_lt (2 ^ 64 - d) hc
  have hsum : c * (s + (2 ^ 64 - d) / c) + (2 ^ 64 - d) % c = 2 ^ 64 + i := by
    rw [Nat.mul_add, hs]
    omega
  constructor
  · intro hzero
    obtain ⟨k, hk⟩ := Nat.dvd_of_mod_eq_zero hzero
    have hfull : c * (s + (2 ^ 64 - d) / c) = 2 ^ 32 * (c * k) := by
      rw [hk]
      ring
    exact ⟨k, by omega⟩
  · rintro ⟨k, hk⟩
    have hfull : 2 ^ 64 = c * (k * 2 ^ 32) := by
      rw [← Nat.mul_assoc, ← hk]
      rfl
    have hle : s ≤ k * 2 ^ 32 := by
      by_contra hgt
      have hmul : c * (k * 2 ^ 32 + 1) ≤ c * s := Nat.mul_le_mul_left c (by omega)
      rw [Nat.mul_add, Nat.mul_one, ← hfull, hs] at hmul
      omega
    have hquot : (2 ^ 64 - d) / c = k * 2 ^ 32 - s := by
      have hmul : c * s ≤ 2 ^ 64 := hfull ▸ Nat.mul_le_mul_left c hle
      have heq : 2 ^ 64 - d = i + c * (k * 2 ^ 32 - s) := by
        rw [Nat.mul_sub, ← hfull, hs]
        omega
      rw [heq, Nat.add_mul_div_left _ _ hc, Nat.div_eq_of_lt hi, Nat.zero_add]
    rw [hquot, Nat.add_sub_cancel' hle, Nat.mul_mod_left]

theorem sub_emod (op₁ op₂ : Nat) (h₁ : op₁ < c) (h₂ : op₂ < c) : sub op₁ op₂ c = ((op₁ : Int) - op₂).bmod (2 ^ 32) := by
  unfold sub
  split
  · rw [Nat.mod_eq_of_lt (by omega), Int.ofNat_sub (by omega)]
  · rw [Nat.mod_eq_of_lt (by omega), Int.ofNat_sub (by omega), Int.neg_sub]

/-- The difference of two iterators is that of their positions, in 32 bits. -/
theorem diff_eq (hq : q.capacity = c) {a b : Iter} (ha : a.idx < c) (hb : b.idx < c) :
    q.diff a b = ((a.idx : Int) - b.idx + ((a.round : Int) - b.round) * c).bmod (2 ^ 32) := by
  unfold diff
  rw [hq, sub_emod _ _ ha hb]
  split
  · have hu : ((toU32 ((a.round : Int) - b.round) : Nat) : Int) = ((a.round : Int) - b.round) % 2 ^ 32 := by
      rw [toU32]
      omega
    have hz : ((toU32 ((a.round : Int) - b.round) : Nat) : Int) * c =
        ((a.round : Int) - b.round) * c - 2 ^ 32 * (((a.round : Int) - b.round) / 2 ^ 32 * c) := by
      rw [hu, Int.emod_def]
      ring
    push_cast
    rw [hz]
    generalize ((a.round : Int) - b.round) * c = x
    generalize ((a.round : Int) - b.round) / 2 ^ 32 * c = y
    simp only [Int.bmod_def]
    omega
  · rename_i heq
    rw [not_ne_iff.mp heq, sub_self, zero_mul, add_zero]

theorem diff_pos (hc : 0 < c) (hq : q.capacity = c) (P Q : Nat) :
    q.diff (pos c Q) (pos c P) = ((Q : Int) - P).bmod (2 ^ 32) := by
  rw [diff_eq hq (Nat.mod_lt _ hc) (Nat.mod_lt _ hc)]
  have hP := Nat.div_add_mod P c
  have hQ := Nat.div_add_mod Q c
  have hz : ((Q / c % 2 ^ 32 : Nat) - (P / c % 2 ^ 32 : Nat) : Int) * c =
      (c * (Q / c) : Nat) - (c * (P / c) : Nat) - 2 ^ 32 *
        (((Q / c / 2 ^ 32 : Nat) - (P / c / 2 ^ 32 : Nat) : Int) * c) := by
    have hr : ∀ a : Nat, ((a % 2 ^ 32 : Nat) : Int) = a - 2 ^ 32 * ((a / 2 ^ 32 : Nat) : Int) := by
      intro a
      omega
    rw [hr, hr, Nat.cast_mul, Nat.cast_mul]
    ring
  simp only [pos]
  generalize (((Q / c / 2 ^ 32 : Nat) - (P / c / 2 ^ 32 : Nat) : Int) * c) = y
  simp only [Int.bmod_def]
  omega

/-- The round after a sum that may be negative, if the capacity is a power of two. -/
theorem round_of_dvd (hc : 0 < c) (hdvd : c ∣ 2 ^ 32) (hn : (Q : Int) = P + n) :
    (P / c % 2 ^ 32 + toU64 (n + (P % c : Nat)) / c) % 2 ^ 32 = Q / c % 2 ^ 32 := by
  obtain ⟨m, hm⟩ := hdvd
  have hc' : (c : Int) ≠ 0 := by omega
  have hP := Nat.div_add_mod P c
  have hx : n + (P % c : Nat) = Q + c * -((P / c : Nat) : Int) := by
    rw [hn]
    zify at hP
    push_cast
    linear_combination hP
  have hm' : (2 : Int) ^ 64 = c * (m * 2 ^ 32) := by
    rw [← mul_assoc, ← Nat.cast_mul, ← hm]
    rfl
  have hdiv : ((toU64 (n + (P % c : Nat)) / c : Nat) : Int) =
      (Q / c : Nat) - (P / c : Nat) - 2 ^ 32 * (m * ((n + (P % c : Nat)) / 2 ^ 64)) := by
    have htoU : ((toU64 (n + (P % c : Nat)) : Nat) : Int) = (n + (P % c : Nat)) % 2 ^ 64 := by
      rw [toU64]
      omega
    rw [Int.natCast_ediv, htoU, Int.emod_def, hm']
    generalize (n + ((P % c : Nat) : Int)) / (c * (m * 2 ^ 32)) = k
    rw [hx, show (Q : Int) + c * -((P / c : Nat) : Int) - c * (m * 2 ^ 32) * k =
      Q + c * (-((P / c : Nat) : Int) - m * 2 ^ 32 * k) by ring, Int.add_mul_ediv_left _ _ hc', ← Int.natCast_ediv]
    ring
  generalize m * ((n + ((P % c : Nat) : Int)) / 2 ^ 64) = y at hdiv
  omega

theorem toU32_modEq (hdvd : c ∣ 2 ^ 32) (n : Int) : ((toU32 n : Nat) : Int) ≡ n [ZMOD c] := by
  have hmod : ((toU32 n : Nat) : Int) = n % 2 ^ 32 := by
    rw [toU32]
    omega
  rw [hmod]
  exact Int.emod_emod_of_dvd n (by exact_mod_cast hdvd)

theorem le_half_of_dvd (hc' : c < 2 ^ 32) (hdvd : c ∣ 2 ^ 32) : c ≤ 2 ^ 31 := by
  obtain ⟨m, hm⟩ := hdvd
  rcases Nat.lt_or_ge m 2 with hlt | hge
  · obtain rfl | rfl : m = 0 ∨ m = 1 := by omega
    · omega
    · omega
  · have hmul := Nat.mul_le_mul_left c hge
    omega

theorem moduloSub_of_dvd (hc : 0 < c) (hc' : c ≤ 2 ^ 31) (op₁ op₂ : Nat) :
    ((moduloSub op₁ op₂ c : Nat) : Int) = ((op₁ : Int) - op₂) % c := by
  unfold moduloSub sub toU32
  split
  · have hmod := Nat.mod_lt (op₁ - op₂) hc
    have hcast : ((op₁ : Int) - op₂) % c = (((op₁ - op₂) % c : Nat) : Int) := by
      rw [Int.natCast_emod, Int.ofNat_sub (by omega)]
    rw [hcast]
    generalize (op₁ - op₂) % c = y at hmod
    simp only [Int.bmod_def]
    omega
  · have hmod := Nat.mod_lt (op₂ - op₁) hc
    have hdiv := Nat.div_add_mod (op₂ - op₁) c
    have hsub : (op₁ : Int) - op₂ = -(((op₂ - op₁) % c : Nat) : Int) + c * -(((op₂ - op₁) / c : Nat) : Int) := by
      have hD : ((op₂ - op₁ : Nat) : Int) = op₂ - op₁ := Int.ofNat_sub (by omega)
      zify [show op₁ ≤ op₂ by omega] at hdiv
      rw [Int.natCast_emod, Int.natCast_ediv, hD]
      linear_combination hdiv
    rw [hsub, Int.add_mul_emod_self_left]
    generalize (op₂ - op₁) % c = y at hmod
    by_cases hy : y = 0
    · subst hy
      simp
    · have hneg : (-(y : Int)) % c = c - y := by
        rw [← Int.add_emod_right, Int.emod_eq_of_lt (by omega) (by omega)]
        omega
      simp only [Int.bmod_def]
      omega

/-- At a power of two, adding gives the next position. -/
theorem plus_of_dvd (hc : 0 < c) (hq : q.capacity = c) (hdvd : c ∣ 2 ^ 32) (hn : (Q : Int) = P + n) :
    q.plus (pos c P) n = pos c Q := by
  unfold plus pos
  rw [hq]
  simp only [Iter.mk.injEq]
  refine ⟨?_, round_of_dvd hc hdvd hn⟩
  have hmod : ((P % c + toU32 n : Nat) : Int) % c = (Q : Int) % c := by
    rw [hn, Nat.cast_add, Int.natCast_emod]
    exact Int.ModEq.add (Int.mod_modEq _ _) (toU32_modEq hdvd n)
  rw [moduloAdd, Nat.mod_mod_of_dvd _ hdvd]
  exact Int.ofNat.inj hmod

section

variable (hc : 0 < c) (hc' : c < 2 ^ 32)
include hc hc'

theorem minus_of_dvd (hq : q.capacity = c) (hdvd : c ∣ 2 ^ 32) (hn : (Q : Int) = P + n) :
    q.minus (pos c Q) n = pos c P := by
  unfold minus
  split
  · have hhalf := le_half_of_dvd hc' hdvd
    unfold pos
    rw [hq]
    simp only [Iter.mk.injEq]
    refine ⟨?_, round_of_dvd hc hdvd (by omega)⟩
    have hsub := moduloSub_of_dvd hc hhalf (Q % c) (toU32 n)
    have heq : ((Q % c : Nat) - (toU32 n : Nat) : Int) % c = (P % c : Nat) := by
      rw [Int.natCast_emod, Int.natCast_emod, show (P : Int) = Q - n by omega]
      exact Int.ModEq.sub (Int.mod_modEq _ _) (toU32_modEq hdvd n)
    exact Int.ofNat.inj (hsub.trans heq)
  · exact plus_of_dvd hc hq hdvd (by omega)

/-- In one round, adding gives the next position at every capacity. -/
theorem plus_of_round (hq : q.capacity = c) (hn : (Q : Int) = P + n) (hround : P / c = Q / c) :
    q.plus (pos c P) n = pos c Q := by
  have hP := Nat.div_add_mod P c
  have hQ := Nat.div_add_mod Q c
  have hmod := Nat.mod_lt Q hc
  rw [← hround] at hQ
  have hsum : n + ((P % c : Nat) : Int) = (Q % c : Nat) := by omega
  unfold plus pos
  rw [hq]
  simp only [Iter.mk.injEq]
  constructor
  · have hidx : (P % c + toU32 n) % 2 ^ 32 = Q % c := by
      rw [toU32]
      omega
    rw [moduloAdd, hidx, Nat.mod_mod]
  · have hidx : toU64 (n + (P % c : Nat)) = Q % c := by
      rw [hsum, toU64]
      omega
    rw [hidx, Nat.div_eq_of_lt hmod, Nat.add_zero, Nat.mod_mod, hround]

/-- In one round, subtracting is right if the index can be the result of `sub`. -/
theorem moduloSub_iff {i j : Nat} (hj : j < c) (hi : i ≤ j) : moduloSub j (j - i) c = i ↔ i < 2 ^ 31 := by
  unfold moduloSub sub toU32
  split
  · rw [show j - (j - i) = i by omega, Nat.mod_eq_of_lt (show i < c by omega)]
    simp only [Int.bmod_def]
    omega
  · obtain rfl : i = 0 := by omega
    simp

theorem minus_of_round (hq : q.capacity = c) (hle : P ≤ Q) (hround : P / c = Q / c) :
    q.minus (pos c Q) ((Q : Int) - P) = pos c P ↔ P % c < 2 ^ 31 := by
  have hP := Nat.div_add_mod P c
  have hQ := Nat.div_add_mod Q c
  have hmod := Nat.mod_lt Q hc
  have hmod' := Nat.mod_lt P hc
  rw [← hround] at hQ
  have hn : toU32 ((Q : Int) - P) = Q % c - P % c := by
    rw [toU32]
    omega
  have hidx : toU64 (-((Q : Int) - P) + (Q % c : Nat)) = P % c := by
    rw [toU64]
    omega
  unfold minus pos
  rw [if_pos (by omega)]
  simp only [hq, Iter.mk.injEq, hn, hidx, Nat.div_eq_of_lt hmod', Nat.add_zero, Nat.mod_mod, hround, and_true]
  exact moduloSub_iff hc hc' hmod (by omega)

end

/-- What the difference of a sum and its first operand being right says about the sum. -/
theorem diff_plus (hc : 0 < c) (hq : q.capacity = c) {P : Nat} (hdiff : q.diff (q.plus (pos c P) n) (pos c P) = n) :
    (-2 ^ 31 ≤ n ∧ n < 2 ^ 31) ∧ ∃ k : Int,
      ((q.plus (pos c P) n).idx : Int) + c * (toU64 (n + (P % c : Nat)) / c : Nat) = n + (P % c : Nat) +
        2 ^ 32 * k := by
  have hlt : (q.plus (pos c P) n).idx < c := by
    rw [plus, moduloAdd, hq]
    exact Nat.mod_lt _ hc
  rw [diff_eq hq hlt (Nat.mod_lt _ hc)] at hdiff
  simp only [plus, pos, hq] at hdiff ⊢
  generalize moduloAdd (P % c) (toU32 n) c = j at hdiff ⊢
  generalize hw : toU64 (n + (P % c : Nat)) / c = w at hdiff ⊢
  have hr : (((P / c % 2 ^ 32 + w) % 2 ^ 32 : Nat) : Int) - (P / c % 2 ^ 32 : Nat) =
      w - 2 ^ 32 * (((P / c % 2 ^ 32 + w) / 2 ^ 32 : Nat) : Int) := by omega
  rw [hr, sub_mul, mul_assoc, mul_comm (w : Int)] at hdiff
  generalize (((P / c % 2 ^ 32 + w) / 2 ^ 32 : Nat) : Int) * c = y at hdiff
  generalize (c : Int) * w = z at hdiff ⊢
  simp only [Int.bmod_def] at hdiff
  exact ⟨by omega, (j + z - n - (P % c : Nat)) / 2 ^ 32, by omega⟩

/-- If a number is added across a round and both laws hold, the capacity is a power of two. -/
theorem dvd_of_laws (hc : 0 < c) (hc' : c < 2 ^ 32) (hq : q.capacity = c) (hn : (Q : Int) = P + n)
    (hround : P / c ≠ Q / c)
    (hback : q.minus (q.plus (pos c P) n) n = pos c P) (hdiff : q.diff (q.plus (pos c P) n) (pos c P) = n) :
      c ∣ 2 ^ 32 := by
  obtain ⟨⟨hlo, hhi⟩, k, hk⟩ := diff_plus hc hq hdiff
  have hP := Nat.div_add_mod P c
  have hmod := Nat.mod_lt P hc
  have hidx : (q.plus (pos c P) n).idx < c := by
    rw [plus, moduloAdd, hq]
    exact Nat.mod_lt _ hc
  have hplus : (q.plus (pos c P) n).round = (P / c % 2 ^ 32 + toU64 (n + (P % c : Nat)) / c) % 2 ^ 32 := by
    rw [plus, hq]
    rfl
  have hback' := congrArg Iter.round hback
  unfold minus at hback'
  generalize q.plus (pos c P) n = it at *
  by_cases hsign : 0 ≤ n
  · rw [if_pos hsign] at hback'
    simp only [pos, hplus, hq] at hback'
    have hM : toU64 (n + (P % c : Nat)) = Q - P + P % c := by
      rw [toU64]
      omega
    rw [hM] at hk hback'
    have hdiv := Nat.div_add_mod (Q - P + P % c) c
    have hmodM := Nat.mod_lt (Q - P + P % c) hc
    have hQ : Q / c = P / c + (Q - P + P % c) / c := by
      have hsum : Q = Q - P + P % c + c * (P / c) := by omega
      nth_rewrite 1 [hsum]
      rw [Nat.add_mul_div_left _ _ hc, Nat.add_comm]
    generalize (Q - P + P % c) / c = w at *
    have hpos : c ≤ c * w := Nat.le_mul_of_pos_right c (by omega)
    -- the index of the sum is right
    have hneg : toU64 (-n + (it.idx : Int)) = 2 ^ 64 - (c * w - P % c) := by
      rw [toU64]
      omega
    rw [hneg] at hback'
    exact (borrow_iff hc hc' (d := c * w - P % c) (s := w) (i := P % c) (by omega) (by omega) hmod).mp (by omega)
  · rw [if_neg hsign] at hback'
    simp only [plus, pos, hplus, hq] at hback'
    have hlt : ((P % c : Nat) : Int) < -n := by
      by_contra hge
      refine hround ?_
      have hsum : Q = P % c - (P - Q) + c * (P / c) := by omega
      have hsmall : P % c - (P - Q) < c := by omega
      rw [hsum, Nat.add_mul_div_left _ _ hc, Nat.div_eq_of_lt hsmall, Nat.zero_add]
    have hneg : toU64 (n + (P % c : Nat)) = 2 ^ 64 - (P - Q - P % c) := by
      rw [toU64]
      omega
    have hM : toU64 (-n + (it.idx : Int)) = P - Q + it.idx := by
      rw [toU64]
      omega
    rw [hneg, hM] at hback'
    rw [hneg] at hk
    have hdiv := Nat.div_add_mod (P - Q + it.idx) c
    have hmodM := Nat.mod_lt (P - Q + it.idx) hc
    generalize (P - Q + it.idx) / c = w at *
    have hzero : (w + (2 ^ 64 - (P - Q - P % c)) / c) % 2 ^ 32 = 0 := by omega
    -- the index of the sum of both is right
    have hi : (P - Q + it.idx) % c = P % c := by
      obtain ⟨t, ht⟩ := Nat.dvd_of_mod_eq_zero hzero
      have hct : c * w + c * ((2 ^ 64 - (P - Q - P % c)) / c) = 2 ^ 32 * (c * t) := by
        rw [← Nat.mul_add, ht]
        ring
      omega
    exact (borrow_iff hc hc' (d := P - Q - P % c) (s := w) (i := it.idx) (by omega) (by omega) hidx).mp hzero

/-- The order of positions is that of rounds and indices. -/
theorem lex_iff (P Q : Nat) : (P / c < Q / c ∨ P / c = Q / c ∧ P % c < Q % c) ↔ P < Q := by
  have hP := Nat.div_add_mod P c
  have hQ := Nat.div_add_mod Q c
  rcases Nat.lt_trichotomy (P / c) (Q / c) with h | h | h
  · exact iff_of_true (.inl h) (Nat.lt_of_div_lt_div h)
  · rw [h] at hP
    omega
  · have hlt := Nat.lt_of_div_lt_div h
    omega

theorem div_le_add (hc : 0 < c) (hle : P ≤ Q) : P / c ≤ Q / c ∧ Q / c ≤ P / c + (Q - P) := by
  refine ⟨Nat.div_le_div_right hle, ?_⟩
  have hmul : Q ≤ P + c * (Q - P) := by
    have hone := Nat.le_mul_of_pos_left (Q - P) hc
    omega
  have hdiv := Nat.div_le_div_right (c := c) hmul
  rwa [Nat.add_mul_div_left _ _ hc] at hdiv

/-- Iterators less than `2 ^ 31` apart are ordered as their positions if the counter of rounds does not wrap around
between them. -/
theorem lt_iff (hc : 0 < c) (hlo : -2 ^ 31 ≤ (Q : Int) - P) (hhi : (Q : Int) - P < 2 ^ 31) :
    ((pos c P).lt (pos c Q) ↔ 0 < (Q : Int) - P) ↔ P = Q ∨ P / c / 2 ^ 32 = Q / c / 2 ^ 32 := by
  have hlex := lex_iff (c := c) P Q
  unfold Iter.lt pos
  dsimp only
  rcases Nat.lt_trichotomy P Q with h | rfl | h
  · have hdiv := div_le_add hc (Nat.le_of_lt h)
    omega
  · simp
  · have hdiv := div_le_add hc (Nat.le_of_lt h)
    omega

theorem plus_natCast (it : Iter) {n : Nat} (hn : n < 2 ^ 32) (hidx : it.idx < 2 ^ 32) :
    q.plus it n = q.advance it n := by
  have hu : toU32 n = n := by
    rw [toU32]
    omega
  have hu' : toU64 (n + it.idx) = n + it.idx := by
    rw [toU64]
    omega
  rw [plus, advance, hu, hu']

theorem next_eq_plus (hc : 0 < c) (hc' : c < 2 ^ 32) (hq : q.capacity = c) (P : Nat) :
    q.next (pos c P) = q.plus (pos c P) 1 := by
  have hmod := Nat.mod_lt P hc
  have hidx : (pos c P).idx < 2 ^ 32 := Nat.lt_trans hmod hc'
  rw [next_pos hc hc' hq, ← advance_pos hc hq P (show 1 ≤ c by omega) (by omega), ← plus_natCast _ (by decide) hidx]
  rfl

/-- Going back by one borrows a round at index 0. -/
theorem prev_iff (hc : 0 < c) (hc' : c < 2 ^ 32) (hq : q.capacity = c) {P : Nat}
    (hdec : q.decrementable (pos c P) = true) :
    q.prev (pos c P) = some (q.minus (pos c P) 1) ↔ c ∣ 2 ^ 32 ∨ 0 < P % c ∧ P % c ≤ 2 ^ 31 := by
  have hmod := Nat.mod_lt P hc
  have hround : (pos c P).round < 2 ^ 32 := Nat.mod_lt _ (Nat.two_pow_pos 32)
  have hprev : q.prev (pos c P) = some
      ⟨(if P % c ≠ 0 then P % c else c) - 1, if P % c = 0 then decRound (pos c P).round else (pos c P).round⟩ := by
    rw [prev, if_pos hdec, decrease, hq]
    rfl
  have hminus : q.minus (pos c P) 1 =
      ⟨moduloSub (P % c) 1 c, ((pos c P).round + toU64 (-1 + (P % c : Nat)) / c) % 2 ^ 32⟩ := by
    rw [minus, if_pos (by decide), hq]
    rfl
  rw [hprev, hminus, Option.some.injEq, Iter.mk.injEq]
  generalize (pos c P).round = r at hround ⊢
  by_cases hzero : P % c = 0
  · have hsub : moduloSub 0 1 c = c - 1 := by
      unfold moduloSub sub toU32
      rcases Nat.lt_or_eq_of_le (show 1 ≤ c by omega) with hlt | rfl
      · rw [Nat.mod_eq_of_lt hlt, show ((-((1 : Nat) : Int)).bmod (2 ^ 32)) = -1 from rfl]
        dsimp only
        omega
      · rfl
    have hborrow := borrow_iff hc hc' (d := 1) (s := 1) (i := c - 1) (by decide) (by omega) (by omega)
    rw [hzero, hsub, show toU64 (-1 + ((0 : Nat) : Int)) = 2 ^ 64 - 1 from rfl, ← hborrow]
    generalize (2 ^ 64 - 1) / c = w
    unfold decRound
    simp only [ne_eq, not_true_eq_false, if_false, if_true, true_and]
    omega
  · have hsub := moduloSub_iff hc hc' hmod (show P % c - 1 ≤ P % c by omega)
    rw [show P % c - (P % c - 1) = 1 by omega] at hsub
    have hu : toU64 (-1 + ((P % c : Nat) : Int)) = P % c - 1 := by
      rw [toU64]
      omega
    rw [hu, Nat.div_eq_of_lt (show P % c - 1 < c by omega), Nat.add_zero, Nat.mod_eq_of_lt hround, if_neg hzero,
      if_pos hzero, eq_comm (a := P % c - 1), hsub]
    constructor
    · rintro ⟨hlt, -⟩
      exact .inr ⟨by omega, by omega⟩
    · rintro (hdvd | ⟨-, hle⟩)
      · have hhalf := le_half_of_dvd hc' hdvd
        exact ⟨by omega, rfl⟩
      · exact ⟨by omega, rfl⟩

theorem moduloSub_lt (hc' : c < 2 ^ 32) {op₁ : Nat} (h : op₁ < c) (op₂ : Nat) : moduloSub op₁ op₂ c < c := by
  unfold moduloSub sub toU32
  split
  · have hmod := Nat.mod_lt (op₁ - op₂) (show 0 < c by omega)
    simp only [Int.bmod_def]
    omega
  · have hmod := Nat.mod_lt (op₂ - op₁) (show 0 < c by omega)
    simp only [Int.bmod_def]
    omega

theorem idx_minus_plus (hc : 0 < c) (hc' : c < 2 ^ 32) (hq : q.capacity = c) (it : Iter) (n : Int) :
    (q.minus (q.plus it n) n).idx < c := by
  have hplus : ∀ it n, (q.plus it n).idx < c := by
    intro it n
    rw [plus, moduloAdd, hq]
    exact Nat.mod_lt _ hc
  unfold minus
  split
  · rw [hq]
    exact moduloSub_lt hc' (hplus it n) _
  · exact hplus _ _

end Arithmetic

/-- **The laws of the iterators.** Iterators of positions `P` and `Q` are compared rightly, and adding and subtracting
their distance is right, exactly if the distance has 32 bits, the positions are in one round or the capacity is a power
of two (in one round a distance that is subtracted must leave an index with 31 bits), and the counter of rounds does not
wrap around between them. `++` is adding 1; `--` is subtracting 1 exactly if no round is borrowed or the capacity is a
power of two, for an index with 31 bits. No law holds of an iterator that is outside the vector. -/
theorem iterator_laws {q : CircularQueue T} (hc : 1 ≤ q.capacity) (hc' : q.capacity < 2 ^ 32) :
    (∀ P Q : Nat,
      (q.minus (q.plus (pos q.capacity P) ((Q : Int) - P)) ((Q : Int) - P) = pos q.capacity P ∧
        q.diff (q.plus (pos q.capacity P) ((Q : Int) - P)) (pos q.capacity P) = (Q : Int) - P ∧
        ((pos q.capacity P).lt (pos q.capacity Q) ↔ 0 < q.diff (pos q.capacity Q) (pos q.capacity P))) ↔
      (-2 ^ 31 ≤ (Q : Int) - P ∧ (Q : Int) - P < 2 ^ 31) ∧
        (q.capacity ∣ 2 ^ 32 ∨ P / q.capacity = Q / q.capacity ∧ (P ≤ Q → P % q.capacity < 2 ^ 31)) ∧
        (P = Q ∨ P / q.capacity / 2 ^ 32 = Q / q.capacity / 2 ^ 32)) ∧
    (∀ P, q.next (pos q.capacity P) = q.plus (pos q.capacity P) 1) ∧
    (∀ P, q.decrementable (pos q.capacity P) = true → (q.prev (pos q.capacity P) = some (q.minus (pos q.capacity P) 1) ↔
      q.capacity ∣ 2 ^ 32 ∨ 0 < P % q.capacity ∧ P % q.capacity ≤ 2 ^ 31)) ∧
    ∀ it n, q.capacity ≤ it.idx → q.minus (q.plus it n) n ≠ it := by
  refine ⟨fun P Q => ?_, next_eq_plus hc hc' rfl, fun P => prev_iff hc hc' rfl, fun it n hle heq => ?_⟩
  · have hn : (Q : Int) = P + (Q - P) := by omega
    have hpos : -2 ^ 31 ≤ (Q : Int) - P ∧ (Q : Int) - P < 2 ^ 31 →
        q.diff (pos q.capacity Q) (pos q.capacity P) = (Q : Int) - P := fun h => by
      rw [diff_pos hc rfl, Int.bmod_eq_of_le (by omega) (by omega)]
    constructor
    · rintro ⟨hback, hdiff, hlt⟩
      have hrange := (diff_plus hc rfl hdiff).1
      rw [hpos hrange, lt_iff hc hrange.1 hrange.2] at hlt
      refine ⟨hrange, ?_, hlt⟩
      by_cases hround : P / q.capacity = Q / q.capacity
      · refine .inr ⟨hround, fun hle => ?_⟩
        rw [plus_of_round hc hc' rfl hn hround] at hback
        exact (minus_of_round hc hc' rfl hle hround).mp hback
      · exact .inl (dvd_of_laws hc hc' rfl hn hround hback hdiff)
    · rintro ⟨hrange, hcap, hwrap⟩
      have hplus : q.plus (pos q.capacity P) ((Q : Int) - P) = pos q.capacity Q := by
        rcases hcap with hdvd | ⟨hround, -⟩
        · exact plus_of_dvd hc rfl hdvd hn
        · exact plus_of_round hc hc' rfl hn hround
      rw [hplus, hpos hrange]
      refine ⟨?_, rfl, (lt_iff hc hrange.1 hrange.2).mpr hwrap⟩
      rcases hcap with hdvd | ⟨hround, hhalf⟩
      · exact minus_of_dvd hc hc' rfl hdvd hn
      · by_cases hle : P ≤ Q
        · exact (minus_of_round hc hc' rfl hle hround).mpr (hhalf hle)
        · rw [minus, if_neg (by omega)]
          exact plus_of_round hc hc' rfl (by omega) hround.symm
  · have hlt := idx_minus_plus hc hc' rfl it n
    rw [heq] at hlt
    omega

/-- Two steps across the end of a vector of four. -/
theorem iterator_laws_four : (new 4 : CircularQueue Nat).minus ((new 4 : CircularQueue Nat).plus ⟨3, 0⟩ 2) 2 = ⟨3, 0⟩ ∧
    (new 4 : CircularQueue Nat).diff ((new 4 : CircularQueue Nat).plus ⟨3, 0⟩ 2) ⟨3, 0⟩ = 2 ∧
    ((⟨3, 0⟩ : Iter).lt ⟨1, 1⟩ ↔ 0 < (new 4 : CircularQueue Nat).diff ⟨1, 1⟩ ⟨3, 0⟩) :=
  ((iterator_laws (q := (new 4 : CircularQueue Nat)) (by decide) (by decide)).1 3 5).mpr
    ⟨by decide, .inl (by decide), .inr rfl⟩

/-- At capacity three, one step back from the first slot does not lead to the round before. -/
theorem round_not_borrowed : ¬∀ c, 1 ≤ c → c < 2 ^ 32 → ∀ s, (system Nat c).Reachable s → ∀ it n,
    s.queue.isValidIn it.idx it.round = true →
    s.queue.isValidIn (s.queue.plus it n).idx (s.queue.plus it n).round = true →
    s.queue.minus (s.queue.plus it n) n = it := by
  intro hall
  obtain ⟨s, hs, hfrom, hto, hne⟩ := System.reachable_of_replay (S := system Nat 3) rfl
    [.pushBack 5, .pushBack 6, .pushBack 7]
    (fun s => s.queue.isValidIn 2 0 = true ∧
      s.queue.isValidIn (s.queue.plus ⟨2, 0⟩ 1).idx (s.queue.plus ⟨2, 0⟩ 1).round = true ∧
      s.queue.minus (s.queue.plus ⟨2, 0⟩ 1) 1 ≠ ⟨2, 0⟩) (by decide)
  exact hne (hall 3 (by decide) (by decide) s hs ⟨2, 0⟩ 1 hfrom hto)

end CircularQueue

end Salam.Base
