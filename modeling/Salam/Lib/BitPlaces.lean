import Mathlib.Data.BitVec
import Mathlib.Data.Nat.Count

/-!
# Words without some of their bits

`place ps k` is the place of bit `k` of a word once the bits `ps` are taken out of it and the bits above them have moved
down.
`Without ps a b` says that `b` is `a` without the bits `ps`.

* `Without.step`, `Without.insert`: one more bit is taken out, or put in.
* `Without.unique`, `Without.agree`: the word that is left is determined by `a`, and determines `a` outside `ps`.
* `countP_mod_two_eq_iff`: two words that agree except for one bit have the same parity exactly when they agree.
-/

namespace Salam.BitPlaces

/-! ## Places -/

def place (ps : List Nat) (k : Nat) : Nat := Nat.count (fun j => j ∉ ps) k

section Place

variable {ps ps' : List Nat} {p k k' : Nat}

theorem place_congr (h : ∀ j, j ∈ ps ↔ j ∈ ps') (k : Nat) : place ps k = place ps' k := by
  unfold place
  congr 1
  funext j
  rw [h]

theorem place_succ (ps : List Nat) (k : Nat) : place ps (k + 1) = place ps k + if k ∈ ps then 0 else 1 := by
  rw [place, Nat.count_succ, ← place]
  split <;> simp_all

theorem place_nil (k : Nat) : place [] k = k := by
  induction k with
  | zero => rfl
  | succ k ih => rw [place_succ, ih, if_neg List.not_mem_nil]

theorem place_lt (hk : k ∉ ps) (h : k < k') : place ps k < place ps k' := Nat.count_strict_mono hk h

theorem place_mono (h : k ≤ k') : place ps k ≤ place ps k' := Nat.count_monotone _ h

/-- A bit that is taken out moves the bits above it down by one. -/
theorem place_cons (hp : p ∉ ps) (k : Nat) : place ps k = place (p :: ps) k + if p < k then 1 else 0 := by
  induction k with
  | zero => rfl
  | succ k ih =>
    rw [place_succ, place_succ, ih]
    by_cases hk : k = p
    · subst hk
      rw [if_neg hp, if_pos List.mem_cons_self, if_neg (Nat.lt_irrefl k), if_pos (Nat.lt_succ_self k)]
    · have hmem : k ∈ p :: ps ↔ k ∈ ps := by simp [hk]
      have hlt : p < k + 1 ↔ p < k := by omega
      simp only [hmem, hlt]
      omega

theorem place_of_above (hnd : ps.Nodup) (h : ∀ p ∈ ps, p < k) : place ps k + ps.length = k := by
  induction ps with
  | nil => exact place_nil k
  | cons p ps ih =>
    have hstep := place_cons (List.nodup_cons.mp hnd).1 k
    rw [if_pos (h p List.mem_cons_self)] at hstep
    have hrest := ih (List.nodup_cons.mp hnd).2 fun q hq => h q (List.mem_cons_of_mem p hq)
    rw [List.length_cons]
    omega

theorem exists_place {w j : Nat} (h : j < place ps w) : ∃ k < w, k ∉ ps ∧ place ps k = j := by
  induction w with
  | zero => exact absurd h (Nat.not_lt_zero j)
  | succ w ih =>
    rw [place_succ] at h
    by_cases hj : j < place ps w
    · obtain ⟨k, hk, hmem, hplace⟩ := ih hj
      exact ⟨k, by omega, hmem, hplace⟩
    · by_cases hw : w ∈ ps
      · rw [if_pos hw] at h
        exact absurd h hj
      · rw [if_neg hw] at h
        exact ⟨w, Nat.lt_succ_self w, hw, by omega⟩

end Place

/-! ## Words -/

section Without

variable {w : Nat} {ps ps' : List Nat} {p : Nat} {a a' b b' x : BitVec w}

/-- `b` is `a` without the bits `ps`. -/
structure Without (ps : List Nat) (a b : BitVec w) : Prop where
  kept : ∀ k < w, k ∉ ps → b.getLsbD (place ps k) = a.getLsbD k
  top : ∀ j, place ps w ≤ j → b.getLsbD j = false

theorem Without.refl (a : BitVec w) : Without [] a a := by
  constructor
  · intro k _ _
    rw [place_nil]
  · intro j hj
    rw [place_nil] at hj
    exact BitVec.getLsbD_of_ge a j hj

theorem Without.congr (hps : ∀ j, j ∈ ps ↔ j ∈ ps') (h : Without ps a b) : Without ps' a b := by
  constructor
  · intro k hk hmem
    rw [← place_congr hps]
    exact h.kept k hk (mt (hps k).mp hmem)
  · intro j hj
    rw [← place_congr hps] at hj
    exact h.top j hj

theorem Without.of_agree (h : Without ps a b) (ha : ∀ k, k ∉ ps → a'.getLsbD k = a.getLsbD k) : Without ps a' b :=
  ⟨fun k hk hmem => by rw [ha k hmem, h.kept k hk hmem], h.top⟩

/-- The next bit is taken out at the place where it is now. -/
theorem Without.step (h : Without ps a b) (hp : p ∉ ps) (hpw : p < w)
    (hb : ∀ j, b'.getLsbD j = if j < place ps p then b.getLsbD j else b.getLsbD (j + 1)) : Without (p :: ps) a b' := by
  constructor
  · intro k hk hmem
    have hkp : k ≠ p := fun he => hmem (he ▸ List.mem_cons_self)
    have hkps : k ∉ ps := fun hin => hmem (List.mem_cons_of_mem p hin)
    have hplace := place_cons hp k
    rw [hb, ← h.kept k hk hkps]
    rcases Nat.lt_or_gt_of_ne hkp with hlt | hgt
    · rw [if_neg (by omega), Nat.add_zero] at hplace
      rw [← hplace, if_pos (place_lt hkps hlt)]
    · have hpk := place_lt hp hgt
      rw [if_pos hgt] at hplace
      rw [if_neg (by omega), hplace]
  · intro j hj
    have hplace := place_cons hp w
    rw [if_pos hpw] at hplace
    have hlt := place_lt hp hpw
    rw [hb, if_neg (by omega)]
    exact h.top (j + 1) (by omega)

/-- A bit is put in above the bits that were put in before. -/
theorem Without.insert (h : Without ps b x) (hps : ∀ q ∈ ps, q < p)
    (ha : ∀ k < w, k ≠ p → a.getLsbD k = if k < p then b.getLsbD k else b.getLsbD (k - 1))
    (hx : ∀ j, place (p :: ps) w ≤ j → x.getLsbD j = false) : Without (p :: ps) a x := by
  have hp : p ∉ ps := fun hin => absurd (hps p hin) (Nat.lt_irrefl p)
  refine ⟨fun k hk hmem => ?_, hx⟩
  have hkp : k ≠ p := fun he => hmem (he ▸ List.mem_cons_self)
  have hkps : k ∉ ps := fun hin => hmem (List.mem_cons_of_mem p hin)
  have hplace := place_cons hp k
  rw [ha k hk hkp]
  rcases Nat.lt_or_gt_of_ne hkp with hlt | hgt
  · rw [if_neg (by omega), Nat.add_zero] at hplace
    rw [if_pos hlt, ← hplace, h.kept k hk hkps]
  · have hbelow : k - 1 ∉ ps := fun hin => by
      have := hps (k - 1) hin
      omega
    have hsucc := place_succ ps (k - 1)
    rw [if_neg hbelow, show k - 1 + 1 = k by omega] at hsucc
    rw [if_pos hgt] at hplace
    rw [if_neg (by omega), ← h.kept (k - 1) (by omega) hbelow, show place (p :: ps) k = place ps (k - 1) by omega]

theorem Without.unique (h : Without ps a b) (h' : Without ps a b') : b = b' := by
  refine BitVec.eq_of_getLsbD_eq fun j hj => ?_
  by_cases hplace : j < place ps w
  · obtain ⟨k, hk, hmem, rfl⟩ := exists_place hplace
    rw [h.kept k hk hmem, h'.kept k hk hmem]
  · rw [h.top j (by omega), h'.top j (by omega)]

theorem Without.agree (h : Without ps a b) (h' : Without ps a' b) {k : Nat} (hk : k ∉ ps) :
    a.getLsbD k = a'.getLsbD k := by
  by_cases hkw : k < w
  · rw [← h.kept k hkw hk, ← h'.kept k hkw hk]
  · rw [BitVec.getLsbD_of_ge a k (by omega), BitVec.getLsbD_of_ge a' k (by omega)]

end Without

/-! ## Parity -/

theorem countP_range_of_agree {f g : Nat → Bool} {l : Nat} (h : ∀ i, i ≠ l → f i = g i) (n : Nat) :
    (List.range n).countP f + (if l < n then (g l).toNat else 0) =
      (List.range n).countP g + if l < n then (f l).toNat else 0 := by
  induction n with
  | zero => rfl
  | succ n ih =>
    simp only [List.range_succ, List.countP_append, List.countP_singleton]
    by_cases hl : l = n
    · subst hl
      rw [if_neg (Nat.lt_irrefl l), if_neg (Nat.lt_irrefl l)] at ih
      cases f l <;> cases g l <;> simp <;> omega
    · have hlt : l < n + 1 ↔ l < n := by omega
      rw [h n fun he => hl he.symm]
      simp only [hlt]
      omega

theorem countP_mod_two_eq_iff {f g : Nat → Bool} {l n : Nat} (h : ∀ i, i ≠ l → f i = g i) (hl : l < n) :
    (List.range n).countP f % 2 = (List.range n).countP g % 2 ↔ f l = g l := by
  have hcount := countP_range_of_agree h n
  rw [if_pos hl, if_pos hl] at hcount
  cases hf : f l <;> cases hg : g l <;> simp only [hf, hg, Bool.toNat_true, Bool.toNat_false] at hcount <;>
    simp <;> omega

end Salam.BitPlaces
