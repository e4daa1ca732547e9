import Mathlib.Data.List.FinRange
import Mathlib.Order.Fin.Basic

/-!
# The first element of the smallest key

A scan keeps the element of the smallest key so far, and an element of the same key does not replace it.

* `firstLeast_spec`: what the scan ends with, for a list in order.
* `eq_of_first_least`: there is one such element.
-/

namespace Salam

variable {ι κ : Type} [LinearOrder ι] [LinearOrder κ] {key : ι → κ} {l : List ι} {v w : ι}

/-- The scan, with the element that it starts from. -/
def firstLeast (key : ι → κ) (l : List ι) (v : ι) : ι := l.foldl (fun v c => if key c < key v then c else v) v

/-- **The scan ends with the first element of the smallest key.** -/
theorem firstLeast_spec (key : ι → κ) (hl : (v :: l).Pairwise (· ≤ ·)) :
    ∀ j ∈ v :: l, key (firstLeast key l v) < key j ∨ key (firstLeast key l v) = key j ∧ firstLeast key l v ≤ j := by
  induction l generalizing v with
  | nil =>
    intro j hj
    rw [List.mem_singleton.mp hj]
    exact .inr ⟨rfl, le_rfl⟩
  | cons c l ih =>
    intro j hj
    rw [List.pairwise_cons] at hl
    rw [firstLeast, List.foldl_cons]
    by_cases hlt : key c < key v
    · rw [if_pos hlt]
      have hrest := ih hl.2
      rcases List.mem_cons.mp hj with rfl | hj
      · -- the one that is replaced has a larger key
        rcases hrest c List.mem_cons_self with hc | ⟨hc, -⟩
        · exact .inl (hc.trans hlt)
        · exact .inl (hc.trans_lt hlt)
      · exact hrest j hj
    · rw [if_neg hlt]
      have hrest := ih (v := v) (List.pairwise_cons.mpr
        ⟨fun a ha => hl.1 a (List.mem_cons_of_mem c ha), (List.pairwise_cons.mp hl.2).2⟩)
      rcases List.mem_cons.mp hj with rfl | hj
      · exact hrest j List.mem_cons_self
      · rcases List.mem_cons.mp hj with rfl | hj
        · -- the one that does not replace it comes later
          rcases hrest v List.mem_cons_self with hv | ⟨hv, hle⟩
          · exact .inl (hv.trans_le (not_lt.mp hlt))
          · rcases (not_lt.mp hlt).lt_or_eq with hless | heq
            · exact .inl (hv.trans_lt hless)
            · exact .inr ⟨hv.trans heq, hle.trans (hl.1 j List.mem_cons_self)⟩
        · exact hrest j (List.mem_cons_of_mem v hj)

omit [LinearOrder ι] in
theorem firstLeast_congr {key' : ι → κ} (h : ∀ i j, key i < key j ↔ key' i < key' j) :
    firstLeast key l v = firstLeast key' l v := by
  simp only [firstLeast, h]

theorem eq_of_first_least (hv : key v < key w ∨ key v = key w ∧ v ≤ w) (hw : key w < key v ∨ key w = key v ∧ w ≤ v) :
    v = w := by
  rcases hv with hv | ⟨hkey, hv⟩
  · rcases hw with hw | ⟨hw, -⟩
    · exact absurd hw hv.asymm
    · exact absurd hw hv.ne'
  · rcases hw with hw | ⟨-, hw⟩
    · exact absurd hkey hw.ne'
    · exact le_antisymm hv hw

/-- The list of all positions, with the first one before it. -/
theorem pairwise_zero_finRange (n : Nat) : ((0 : Fin (n + 1)) :: List.finRange (n + 1)).Pairwise (· ≤ ·) :=
  List.pairwise_cons.mpr ⟨fun a _ => Fin.zero_le a, (List.pairwise_lt_finRange _).imp le_of_lt⟩

end Salam
