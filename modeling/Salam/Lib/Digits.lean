import Mathlib.Algebra.Order.Group.Nat
import Mathlib.Data.Nat.Init

/-!
# Digits of machine words

A word of `w` bits as a list of digits of `d` bits each, lowest first: the bytes of an integer, or the small integers
that share a large one.

* `ofDigits_digits`, `digits_ofDigits`: taking a word apart and putting it together undo each other.
* `place_digits`: the same for the digits that are shifted to their places one by one.
-/

namespace Salam.Digits

variable {d w : Nat}

/-- The low `k` digits of a word. -/
def digits (d : Nat) : Nat → BitVec w → List (BitVec d)
  | 0, _ => []
  | k + 1, v => v.setWidth d :: digits d k (v >>> d)

/-- The word with these digits. -/
def ofDigits (w : Nat) : List (BitVec d) → BitVec w
  | [] => 0
  | x :: xs => ofDigits w xs <<< d ||| x.setWidth w

/-- The word with `k` digits, each shifted to its place. -/
def place (w : Nat) (f : Nat → BitVec d) (k : Nat) : BitVec w :=
  (List.range k).foldr (fun j acc => acc ||| (f j).setWidth w <<< (j * d)) 0

@[simp] theorem length_digits (k : Nat) (v : BitVec w) : (digits d k v).length = k := by
  induction k generalizing v with
  | zero => rfl
  | succ k ih => simp [digits, ih]

theorem getElem?_digits {k i : Nat} (v : BitVec w) (hi : i < k) :
    (digits d k v)[i]? = some ((v >>> (i * d)).setWidth d) := by
  induction k generalizing v i with
  | zero => omega
  | succ k ih =>
    cases i with
    | zero => simp [digits]
    | succ i =>
      rw [digits, List.getElem?_cons_succ, ih _ (by omega), ← BitVec.shiftRight_add, Nat.succ_mul, Nat.add_comm]

/-- A digit of one of several words, in the list of all their digits. -/
theorem getElem?_flatMap_digits {l : List (BitVec w)} {k i j : Nat} (hi : i < l.length) (hj : j < k) :
    (l.flatMap (digits d k))[k * i + j]? = some ((l[i] >>> (j * d)).setWidth d) := by
  induction l generalizing i with
  | nil => simp at hi
  | cons v l ih =>
    rw [List.flatMap_cons]
    cases i with
    | zero => rw [List.getElem?_append_left (by simp; omega), Nat.mul_zero, Nat.zero_add, getElem?_digits v hj]; rfl
    | succ i =>
      have hsub : k * (i + 1) + j - k = k * i + j := by
        rw [Nat.mul_succ]
        omega
      rw [List.getElem?_append_right (by rw [length_digits, Nat.mul_succ]; omega), length_digits, hsub,
        ih (by simpa using hi)]
      rfl

/-- A bit of a word is a bit of one of its digits. -/
theorem getLsbD_ofDigits (hd : 0 < d) (l : List (BitVec d)) {b : Nat} (hb : b < w) :
    (ofDigits w l).getLsbD b = l[b / d]?.any (·.getLsbD (b % d)) := by
  induction l generalizing b with
  | nil => simp [ofDigits]
  | cons x xs ih =>
    rw [ofDigits, BitVec.getLsbD_or, BitVec.getLsbD_shiftLeft, BitVec.getLsbD_setWidth]
    by_cases hbd : b < d
    · simp [hb, hbd, Nat.div_eq_of_lt hbd, Nat.mod_eq_of_lt hbd]
    · have hdiv : b / d = (b - d) / d + 1 := by
        rw [← Nat.add_div_right _ hd, Nat.sub_add_cancel (by omega)]
      have hmod : b % d = (b - d) % d := (Nat.mod_eq_sub_mod (by omega))
      have hx : x.getLsbD b = false := x.getLsbD_of_ge b (by omega)
      rw [hdiv, hmod, List.getElem?_cons_succ, ih (by omega)]
      simp [hb, hbd, hx]

/-- **A word is put together from its digits.** -/
theorem ofDigits_digits (hd : 0 < d) {k : Nat} (hk : w ≤ k * d) (v : BitVec w) : ofDigits w (digits d k v) = v := by
  apply BitVec.eq_of_getLsbD_eq
  intro b hb
  have hi : b / d < k := Nat.div_lt_of_lt_mul (by rw [Nat.mul_comm]; omega)
  rw [getLsbD_ofDigits hd _ hb, getElem?_digits v hi, Option.any_some, BitVec.getLsbD_setWidth,
    BitVec.getLsbD_ushiftRight, Nat.mul_comm, Nat.div_add_mod]
  simp [Nat.mod_lt _ hd]

/-- **A word has the digits that it is put together from.** -/
theorem digits_ofDigits (hd : 0 < d) {l : List (BitVec d)} (hl : l.length * d ≤ w) :
    digits d l.length (ofDigits w l) = l := by
  apply List.ext_getElem?
  intro i
  by_cases hi : i < l.length
  · rw [getElem?_digits _ hi, List.getElem?_eq_getElem hi, Option.some.injEq]
    apply BitVec.eq_of_getLsbD_eq
    intro b hb
    have hlt : i * d + b < w := by
      have : (i + 1) * d ≤ l.length * d := Nat.mul_le_mul_right d hi
      rw [Nat.succ_mul] at this
      omega
    have hdiv : (i * d + b) / d = i := by
      rw [Nat.add_comm, Nat.add_mul_div_right _ _ hd, Nat.div_eq_of_lt hb, Nat.zero_add]
    have hmod : (i * d + b) % d = b := by
      rw [Nat.add_comm, Nat.add_mul_mod_self_right, Nat.mod_eq_of_lt hb]
    rw [BitVec.getLsbD_setWidth, BitVec.getLsbD_ushiftRight, getLsbD_ofDigits hd _ hlt, hdiv, hmod,
      List.getElem?_eq_getElem hi]
    simp [hb]
  · rw [List.getElem?_eq_none (by simpa using hi), List.getElem?_eq_none (by simpa using hi)]

theorem getLsbD_foldr_place (f : Nat → BitVec d) (l : List Nat) {b : Nat} (hb : b < w) :
    (l.foldr (fun j acc => acc ||| (f j).setWidth w <<< (j * d)) (0 : BitVec w)).getLsbD b =
      l.any fun j => decide (j * d ≤ b) && (f j).getLsbD (b - j * d) := by
  induction l with
  | nil => simp
  | cons j l ih =>
    have hlt : b - j * d < w := by omega
    rw [List.foldr_cons, BitVec.getLsbD_or, ih, BitVec.getLsbD_shiftLeft, BitVec.getLsbD_setWidth, List.any_cons,
      Bool.or_comm]
    by_cases hj : j * d ≤ b
    · simp [hb, hj, hlt, Nat.not_lt.mpr hj]
    · simp [hj, Nat.lt_of_not_le hj]

/-- **The digits of a word in their places are the word.** -/
theorem place_digits (hd : 0 < d) {k : Nat} (hk : w ≤ k * d) {v : BitVec w} {f : Nat → BitVec d}
    (hf : ∀ j < k, f j = (v >>> (j * d)).setWidth d) : place w f k = v := by
  apply BitVec.eq_of_getLsbD_eq
  intro b hb
  rw [place, getLsbD_foldr_place f _ hb, Bool.eq_iff_iff, List.any_eq_true]
  constructor
  · rintro ⟨j, hj, hbit⟩
    simp only [Bool.and_eq_true, decide_eq_true_eq] at hbit
    obtain ⟨hle, hbit⟩ := hbit
    rw [hf j (List.mem_range.mp hj), BitVec.getLsbD_setWidth, BitVec.getLsbD_ushiftRight,
      Nat.add_sub_cancel' hle] at hbit
    simp only [Bool.and_eq_true] at hbit
    exact hbit.2
  · intro hbit
    have hi : b / d < k := Nat.div_lt_of_lt_mul (by rw [Nat.mul_comm]; omega)
    have hle : b / d * d ≤ b := Nat.div_mul_le_self b d
    have hsub : b - b / d * d = b % d := by
      rw [Nat.mul_comm, Nat.mod_eq_sub_mul_div]
    refine ⟨b / d, List.mem_range.mpr hi, ?_⟩
    rw [hf _ hi, BitVec.getLsbD_setWidth, BitVec.getLsbD_ushiftRight, Nat.add_sub_cancel' hle, hbit, hsub]
    simp [hle, Nat.mod_lt _ hd]

end Salam.Digits
