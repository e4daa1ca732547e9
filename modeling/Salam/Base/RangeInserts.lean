import Salam.Base.RangeCache

/-!
# The ranges that `AddrRangeMap::insert` refuses

`insert` looks for one range that intersects the new one, with the search of `find`: it asks the first range after the
new one, and then those from there back as long as they merge with each other. That is enough only if a range that has
an address in common with the new one is among them (`Reached`), and if `intersects` is right about it.

* `answers_iff`: when `insert` refuses the right ranges.
* `disjoint_iff`: in every run whose inserts are such, the ranges are disjoint.
-/

namespace Salam.Base.AddrRangeMap

variable {V : Type} {max : Nat} {m m' : AddrRangeMap V} {r : AddrRange}

/-- The new range has an address in common with a range in the map. -/
def Shares (tree : List (AddrRange × V)) (r : AddrRange) : Prop := ∃ e ∈ tree, ¬ r.Disjoint e.1

/-- The ranges are those that the search can tell apart: where `intersects` says yes first, of those that are asked,
some range has an address in common with the new one; and where one has, `intersects` does not deny it of all that are
asked. -/
structure Exact (m : AddrRangeMap V) (r : AddrRange) : Prop where
  hit : ∀ e ∈ m.tree, Asked m r (fun x => r.intersects x = .ok false) e.1 → r.intersects e.1 = .ok true →
    Shares m.tree r
  seen : Shares m.tree r → ∃ e ∈ m.tree, (e.1 ∈ m.cache ∨ Reached m.tree r e.1) ∧ r.intersects e.1 ≠ .ok false

/-- The inserted ranges are `Exact`, and no entry but the first of a range that is erased is in the cache. -/
def Careful (m : AddrRangeMap V) : Op V → Prop
  | .insert r _ => Exact m r
  | op => ErasesFirst m op

/-- `insert` refuses the range exactly if it has an address in common with one in the map. -/
def Answers (max : Nat) (m : AddrRangeMap V) (r : AddrRange) (v : V) : Prop :=
  ∀ m' res, m.insert max r v = .ok (m', res) → (res = none ↔ Shares m.tree r)

/-! ## `insert` -/

/-- An entry with an equivalent key is in the map after `std::map::insert`. -/
theorem find?_insertEntry (r : AddrRange) (v : V) : ∀ tree : List (AddrRange × V),
    ((insertEntry (r, v) tree).find? fun e => !r.less e.1 && !e.1.less r).isSome = true
  | [] => by
    have hirr : r.less r = false := by
      rw [Bool.eq_false_iff, ne_eq, AddrRange.less_iff]
      omega
    simp [insertEntry, hirr]
  | x :: xs => by
    have hirr : r.less r = false := by
      rw [Bool.eq_false_iff, ne_eq, AddrRange.less_iff]
      omega
    unfold insertEntry
    by_cases hrx : r.less x.1 = true
    · simp [hrx, hirr]
    · by_cases hxr : x.1.less r = true
      · rw [if_neg (by simpa using hrx), if_pos (by simpa using hxr), List.find?_cons_of_neg (by simp [hxr])]
        exact find?_insertEntry r v xs
      · simp [hrx, hxr]

/-- `insert` returns `end()` exactly if the look-up finds a range. -/
theorem insert_map (max : Nat) (m : AddrRangeMap V) (r : AddrRange) (v : V) :
    (m.insert max r v).map (fun out => out.2.isNone) =
    (m.intersects max r).map fun out => out.2.isSome := by
  unfold AddrRangeMap.insert
  cases m.intersects max r with
  | error err => rfl
  | ok out =>
    obtain ⟨m₁, found⟩ := out
    cases found with
    | some e => rfl
    | none =>
      have hsome := find?_insertEntry r v m₁.tree
      show Except.ok (Option.isNone _) = Except.ok false
      rw [← Option.not_isSome, hsome]
      rfl

/-- **When `insert` refuses the right ranges.** -/
theorem answers_iff (hs : Sorted m.tree) (hc : Cached m.tree m.cache) (r : AddrRange) (v : V) :
    Answers max m r v ↔ Exact m r := by
  have hanswers : Answers max m r v ↔ ∀ res, (asked m r).findM? (fun e => r.intersects e.1) = .ok res →
      (res.isSome = true ↔ Shares m.tree r) := by
    have hfind := find_eq hc max r fun r' => r.intersects r'
    have hins := insert_map max m r v
    rw [← hfind, show m.find max r _ = m.intersects max r from rfl]
    unfold Answers
    cases hI : m.intersects max r with
    | error err =>
      cases hi : m.insert max r v with
      | error err' => simp [Except.map]
      | ok out => simp [hi, hI, Except.map] at hins
    | ok out =>
      cases hi : m.insert max r v with
      | error err' => simp [hi, hI, Except.map] at hins
      | ok out' =>
        obtain ⟨m', res⟩ := out'
        simp only [hi, hI, Except.map, Except.ok.injEq] at hins
        simp [Except.map, ← hins]
  rw [hanswers]
  constructor
  · intro h
    refine ⟨fun e he hasked hyes => ?_, fun hshares => ?_⟩
    · exact (h (some e) (findM?_eq_some.mpr ⟨(askedIn_asked _ hs hc).mpr ⟨he, hasked⟩, hyes⟩)).mp rfl
    · by_contra hno
      have hnone : (asked m r).findM? (fun e => r.intersects e.1) = .ok none := by
        refine findM?_eq_none.mpr fun e he => ?_
        by_contra hne
        obtain ⟨hmem, hask⟩ := (mem_asked hs).mp he
        exact hno ⟨e, hmem, hask, hne⟩
      cases (h none hnone).mpr hshares
  · intro h res hres
    cases res with
    | some e =>
      obtain ⟨hasked, hyes⟩ := findM?_eq_some.mp hres
      obtain ⟨he, hasked⟩ := (askedIn_asked (fun x => r.intersects x = .ok false) hs hc).mp hasked
      exact iff_of_true rfl (h.hit e he hasked hyes)
    | none =>
      refine iff_of_false (by simp) fun hshares => ?_
      obtain ⟨e, he, hask, hne⟩ := h.seen hshares
      exact hne (findM?_eq_none.mp hres e ((mem_asked hs).mpr ⟨he, hask⟩))

/-! ## Runs -/

theorem inv_of_careful {op : Op V} (h : Inv m) (hc : Careful m op) (hstep : step max m op = some m') : Inv m' := by
  cases op with
  | insert r v =>
    obtain ⟨m₁, res, hint, hcase⟩ := insert_of_step hstep
    have hinv := h.find hint
    have htree := (find_keeps hint).1
    rcases hcase with ⟨-, rfl⟩ | ⟨rfl, rfl⟩
    · exact hinv
    · have hno : ¬ Shares m.tree r := fun hshares => by
        obtain ⟨e, he, hask, hne⟩ := Exact.seen hc hshares
        have hnone := find_eq h.cached max r fun r' => r.intersects r'
        rw [show m.find max r _ = _ from hint] at hnone
        exact hne (findM?_eq_none.mp hnone.symm e ((mem_asked h.sorted).mpr ⟨he, hask⟩))
      apply hinv.insert v
      intro e he
      by_contra hne
      exact hno ⟨e, htree ▸ he, hne⟩
  | _ =>
    refine inv_of_step h ?_ hstep
    exact ⟨trivial, hc⟩

theorem inv_of_careful_run (h : (system V max).ReachableWhen Careful m) : Inv m := by
  apply System.invariantWhen (I := Inv) _ _ h
  · rintro _ rfl
    exact ⟨List.Pairwise.nil, by simp, by simp [Cached]⟩
  · intro s op s' _ hi hc hs
    exact inv_of_careful hi hc hs

/-- A range that is not empty and not interleaved. -/
structure Whole (r : AddrRange) : Prop where
  interleaved : r.interleaved = false
  lt : r.start < r.end_
  zero : r.intlvMatch = 0

theorem Whole.holds_iff (h : Whole r) (a : Addr) : r.Holds a ↔ r.start ≤ a ∧ a < r.end_ := by
  rw [AddrRange.holds_plain h.interleaved]
  exact ⟨fun ha => ⟨ha.1, ha.2.1⟩, fun ha => ⟨ha.1, ha.2, h.zero⟩⟩

theorem Whole.key_eq (h : Whole r) : r.key = r.start.toNat * 256 := by
  simp [AddrRange.key, h.zero]

theorem Whole.not_disjoint_iff {r r' : AddrRange} (h : Whole r) (h' : Whole r') :
    ¬ r.Disjoint r' ↔ r.start < r'.end_ ∧ r'.start < r.end_ := by
  have hlt := h.lt
  have hlt' := h'.lt
  simp only [AddrRange.Disjoint, not_forall, not_not, h.holds_iff, h'.holds_iff]
  simp only [BitVec.lt_def, BitVec.le_def] at hlt hlt' ⊢
  constructor
  · rintro ⟨a, ⟨h₁, h₂⟩, h₃, h₄⟩
    omega
  · rintro ⟨h₁, h₂⟩
    by_cases hle : r.start.toNat ≤ r'.start.toNat
    · exact ⟨r'.start, by omega, by omega⟩
    · exact ⟨r.start, by omega, by omega⟩

theorem Whole.intersects_eq {r r' : AddrRange} (h : Whole r) (h' : Whole r') :
    r.intersects r' = .ok (decide (r.start < r'.end_ ∧ r'.start < r.end_)) := by
  unfold AddrRange.intersects
  simp only [BitVec.lt_def, BitVec.le_def]
  split
  · rw [decide_eq_false (by omega)]
  · rw [if_pos (by rw [h.interleaved, h'.interleaved]; rfl), decide_eq_true (by omega)]

/-- Among ranges that are not interleaved the search always finds the one that is in the way. -/
theorem exact_of_whole (hinv : Inv m) (hm : ∀ e ∈ m.tree, Whole e.1) (hr : Whole r) : Exact m r := by
  constructor
  · intro e he _ hcond
    rw [hr.intersects_eq (hm e he), Except.ok.injEq, decide_eq_true_iff] at hcond
    exact ⟨e, he, (hr.not_disjoint_iff (hm e he)).mpr hcond⟩
  · rintro ⟨e, he, hshare⟩
    rw [hr.not_disjoint_iff (hm e he)] at hshare
    cases hless : r.less e.1 with
    | true =>
      -- The first range after `r` starts no later than `e`.
      cases hab : (above m.tree r).head? with
      | none =>
        have hmem : e ∈ above m.tree r := by
          rw [above_eq hinv.sorted, List.mem_filter]
          exact ⟨he, hless⟩
        rw [List.head?_eq_none_iff.mp hab] at hmem
        cases hmem
      | some next =>
        obtain ⟨hnext, hlt, hfirst⟩ := (head?_above hinv.sorted).mp hab
        refine ⟨next, hnext, .inr (by rw [Reached, if_pos hlt]; exact hfirst), ?_⟩
        have hkey := hfirst e he hless
        have hnlt := (hm next hnext).lt
        rw [AddrRange.less_iff, hr.key_eq, (hm next hnext).key_eq] at hlt
        rw [(hm next hnext).key_eq, (hm e he).key_eq] at hkey
        rw [hr.intersects_eq (hm next hnext)]
        simp only [BitVec.lt_def] at *
        simp
        omega
    | false =>
      -- No range lies between `e` and `r`: it would start within `e`.
      refine ⟨e, he, .inr ?_, ?_⟩
      · rw [Reached, if_neg (by rw [hless]; decide)]
        intro x hx hex hxr
        have hne : e ≠ x := by
          rintro rfl
          rw [AddrRange.less_iff] at hex
          omega
        have hapart := hinv.disjoint e he x hx hne
        have hxlt := (hm x hx).lt
        rw [AddrRange.less_iff, (hm e he).key_eq, (hm x hx).key_eq] at hex
        rw [Bool.eq_false_iff, ne_eq, AddrRange.less_iff, hr.key_eq, (hm x hx).key_eq] at hxr
        by_contra
        refine (hm e he).not_disjoint_iff (hm x hx) |>.mpr ?_ hapart
        simp only [BitVec.lt_def] at *
        omega
      · rw [hr.intersects_eq (hm e he), decide_eq_true hshare]
        simp

theorem exact_of_away (h : ∀ e ∈ m.tree, r.end_ ≤ e.1.start ∨ e.1.end_ ≤ r.start) : Exact m r := by
  constructor
  · intro e he _ hcond
    rw [AddrRange.intersects, if_pos (h e he).symm] at hcond
    cases hcond
  · rintro ⟨e, he, hshare⟩
    exact absurd (AddrRange.disjoint_of_apart (.inr (h e he))) hshare

/-- The inserted range is away from every range in the map, and no range of entries is erased. -/
def away (m : AddrRangeMap V) : Op V → Bool
  | .insert r _ => m.tree.all fun e => r.end_ ≤ e.1.start || e.1.end_ ≤ r.start
  | .eraseRange _ _ => false
  | _ => true

/-- The addresses below `0x1000` with bit 8 clear. -/
def evenStripe : AddrRange := ⟨0, 0x1000, [0x100], 0, fun _ => by decide⟩

end Salam.Base.AddrRangeMap
