import Mathlib.Data.Fintype.Card
import Mathlib.Logic.Function.Basic
import Salam.Base.AddrRange

/-!
# `SectorBlk`

A sector: the tag and the security of its blocks, and how many of them are valid, in eight bits.

* `SectorBlk.Ok`: what holds of a sector the blocks of which are put in and invalidated.
* `Ok.invalidate`, `Ok.insert`: it is kept, by an insertion as long as fewer than 255 blocks are valid.
-/

namespace Salam.Cache

open Function (update_of_ne update_self update_idem update)

open Base (Addr)

/-- A `SectorSubBlk`, with the bits of its `status` that the tags look at, and the `_size` of a `CompressionBlk`. -/
structure SubBlk where
  tag : Addr
  valid : Bool
  secure : Bool
  compressed : Bool
  size : Nat

structure SectorBlk (N : Nat) where
  tag : Addr
  validCounter : BitVec 8
  secureBit : Bool
  blks : Fin N → SubBlk

namespace SectorBlk

inductive Err
  | assertion
  /-- `Overwriting valid sector!` -/
  | overwriting
  deriving DecidableEq

variable {N : Nat}

/-- `SectorBlk()`, with its blocks. -/
def fresh : SectorBlk N := ⟨BitVec.allOnes 64, 0, false, fun _ => ⟨BitVec.allOnes 64, false, false, false, 0⟩⟩

def isValid (s : SectorBlk N) : Bool := s.validCounter ≠ 0

def setBlk (s : SectorBlk N) (k : Fin N) (b : SubBlk) : SectorBlk N := { s with blks := Function.update s.blks k b }

def validateSubBlk (s : SectorBlk N) : SectorBlk N := { s with validCounter := s.validCounter + 1 }

def invalidateSubBlk (s : SectorBlk N) : SectorBlk N :=
  let _validCounter := s.validCounter - 1
  { s with validCounter := _validCounter, secureBit := if _validCounter = 0 then false else s.secureBit }

/-- `SectorSubBlk::setValid` -/
def setValid (s : SectorBlk N) (k : Fin N) : Except Err (SectorBlk N) :=
  if (s.blks k).valid then .error .assertion else .ok (s.setBlk k { s.blks k with valid := true }).validateSubBlk

/-- `SectorSubBlk::setSecure` -/
def setSecure (s : SectorBlk N) (k : Fin N) : SectorBlk N :=
  { s.setBlk k { s.blks k with secure := true } with secureBit := true }

/-- `SectorSubBlk::invalidate` -/
def invalidate (s : SectorBlk N) (k : Fin N) : SectorBlk N :=
  (s.setBlk k { s.blks k with tag := BitVec.allOnes 64, valid := false, secure := false, compressed :=
  false }).invalidateSubBlk

/-- `SectorSubBlk::insert` -/
def insert (s : SectorBlk N) (k : Fin N) (tag : Addr) (is_secure : Bool) : Except Err (SectorBlk N) :=
  if s.isValid && (s.tag ≠ tag || s.secureBit ≠ is_secure) then .error .overwriting
  else if (s.blks k).valid || (s.blks k).secure || (s.blks k).compressed then .error .assertion
  else do
    let s := s.setBlk k { s.blks k with tag := tag }
    let s := if is_secure then s.setSecure k else s
    let s ← s.setValid k
    return { s with tag := tag }

/-! ## The blocks of a sector -/

/-- How many of them are valid. -/
def validBlocks (s : SectorBlk N) : Nat := (Finset.univ.filter fun k => (s.blks k).valid = true).card

/-- The sector agrees with its blocks. -/
structure Ok (s : SectorBlk N) : Prop where
  tag : ∀ k, (s.blks k).valid = true → (s.blks k).tag = s.tag
  secure : ∀ k, (s.blks k).valid = true → (s.blks k).secure = s.secureBit
  clean : ∀ k, (s.blks k).valid = false → (s.blks k).secure = false ∧ (s.blks k).compressed = false
  counter : s.validCounter.toNat = s.validBlocks
  idle : s.validBlocks = 0 → s.secureBit = false

variable {s : SectorBlk N} {k : Fin N} {tag : Addr} {is_secure : Bool}

theorem ok_fresh : (fresh : SectorBlk N).Ok := by
  constructor
  · intro k hk
    cases hk
  · intro k hk
    cases hk
  · exact fun _ _ => ⟨rfl, rfl⟩
  · simp [fresh, validBlocks]
  · exact fun _ => rfl

theorem validBlocks_pos (h : (s.blks k).valid = true) : 0 < s.validBlocks := by
  apply Finset.card_pos.mpr
  exact ⟨k, by simpa using h⟩

theorem valid_eq_false (h : s.validBlocks = 0) (k : Fin N) : (s.blks k).valid = false := by
  cases hv : (s.blks k).valid with
  | false => rfl
  | true =>
    have := validBlocks_pos hv
    omega

theorem Ok.isValid_iff (h : s.Ok) : s.isValid = true ↔ 0 < s.validBlocks := by
  rw [isValid, decide_eq_true_iff, ← h.counter, Nat.pos_iff_ne_zero, ne_eq, ne_eq, BitVec.toNat_eq]
  rfl

/-- The valid blocks after one of them has changed. -/
theorem validBlocks_setBlk_true {b : SubBlk} (hk : (s.blks k).valid = false) (hb : b.valid = true) :
    (s.setBlk k b).validBlocks = s.validBlocks + 1 := by
  have hset : (Finset.univ.filter fun i => ((s.setBlk k b).blks i).valid = true) =
      Insert.insert k (Finset.univ.filter fun i => (s.blks i).valid = true) := by
    ext i
    simp only [Finset.mem_insert, Finset.mem_filter, Finset.mem_univ, true_and]
    by_cases hi : i = k
    · subst hi
      simp [setBlk, hb]
    · simp [setBlk, hi]
  rw [validBlocks, hset, Finset.card_insert_of_notMem (by simp [hk])]
  rfl

theorem validBlocks_setBlk_false {b : SubBlk} (hk : (s.blks k).valid = true) (hb : b.valid = false) :
    (s.setBlk k b).validBlocks + 1 = s.validBlocks := by
  have hback : (s.setBlk k b).setBlk k (s.blks k) = s := by simp [setBlk]
  have hset := validBlocks_setBlk_true (s := s.setBlk k b) (k := k) (b := s.blks k) (by simp [setBlk, hb]) hk
  rw [← hset, hback]

/-- **An invalidation.** -/
theorem Ok.invalidate (h : s.Ok) (hk : (s.blks k).valid = true) : (s.invalidate k).Ok := by
  have hcount := validBlocks_setBlk_false
    (b := { s.blks k with tag := BitVec.allOnes 64, valid := false, secure := false,
                                                                compressed := false }) hk rfl
  have hblks : ∀ i, i ≠ k → (s.invalidate k).blks i = s.blks i := fun i hi => update_of_ne hi _ _
  have hself : (s.invalidate k).blks k =
      { s.blks k with tag := BitVec.allOnes 64, valid := false, secure := false, compressed := false } :=
    update_self _ _ _
  have hcounter : (s.invalidate k).validCounter.toNat = (s.invalidate k).validBlocks := by
    have hold := h.counter
    have hval : (s.invalidate k).validBlocks + 1 = s.validBlocks := hcount
    have hsub : (s.invalidate k).validCounter = s.validCounter - 1 := rfl
    rw [hsub, BitVec.toNat_sub]
    have hone : (1 : BitVec 8).toNat = 1 := rfl
    omega
  have hzero : (s.invalidate k).validBlocks = 0 → (s.invalidate k).secureBit = false := by
    intro h0
    rw [h0] at hcounter
    have hc0 : s.validCounter - 1 = 0 := BitVec.eq_of_toNat_eq hcounter
    exact if_pos hc0
  have hsec : (s.invalidate k).validBlocks ≠ 0 → (s.invalidate k).secureBit = s.secureBit := by
    intro h0
    apply if_neg
    intro hc0
    apply h0
    rw [← hcounter]
    exact congrArg BitVec.toNat hc0
  constructor
  · intro i hi
    by_cases hik : i = k
    · rw [hik, hself] at hi
      cases hi
    · rw [hblks i hik] at hi ⊢
      exact h.tag i hi
  · intro i hi
    have hpos := validBlocks_pos hi
    by_cases hik : i = k
    · rw [hik, hself] at hi
      cases hi
    · rw [hblks i hik] at hi ⊢
      rw [hsec (by omega)]
      exact h.secure i hi
  · intro i hi
    by_cases hik : i = k
    · rw [hik, hself]
      exact ⟨rfl, rfl⟩
    · rw [hblks i hik] at hi ⊢
      exact h.clean i hi
  · exact hcounter
  · exact hzero

/-- What an insertion does that neither panics nor finds a status. -/
theorem insert_eq (tag : Addr) (is_secure : Bool) (hk : (s.blks k).valid = false) (hsec : (s.blks k).secure = false)
    (hcomp : (s.blks k).compressed = false)
    (hpanic : (s.isValid && (s.tag ≠ tag || s.secureBit ≠ is_secure)) = false)
    (hbit : is_secure = true ∨ s.secureBit = is_secure) :
    s.insert k tag is_secure =
      .ok { s.setBlk k { s.blks k with tag := tag, valid := true, secure := is_secure } with
            tag := tag, secureBit := is_secure, validCounter := s.validCounter + 1 } := by
  rw [SectorBlk.insert, hpanic, if_neg (by simp), if_neg (by simp [hk, hsec, hcomp])]
  cases is_secure with
  | true =>
    simp only [if_true, setValid, setSecure, setBlk, update_self, hk, Bool.false_eq_true, if_false, bind, Except.bind,
      validateSubBlk, update_idem]
    rfl
  | false =>
    have hb : s.secureBit = false := hbit.resolve_left (by simp)
    simp only [Bool.false_eq_true, if_false, setValid, setBlk, update_self, hk, bind, Except.bind, validateSubBlk,
      update_idem, hb, hsec]
    rfl

theorem insert_blks {s' : SectorBlk N} (h : s.insert k tag is_secure = .ok s') :
    s'.blks = update s.blks k { s.blks k with tag := tag, valid := true, secure := is_secure } := by
  rw [SectorBlk.insert] at h
  split at h
  · cases h
  split at h
  · cases h
  rename_i hstatus
  simp only [Bool.or_eq_true, not_or, Bool.not_eq_true] at hstatus
  obtain ⟨⟨hk, hsec⟩, -⟩ := hstatus
  cases is_secure with
  | true =>
    simp only [if_true, setValid, setSecure, setBlk, update_self, hk, Bool.false_eq_true, if_false, bind, Except.bind,
      validateSubBlk, update_idem] at h
    exact congrArg blks (Except.ok.inj h).symm
  | false =>
    simp only [Bool.false_eq_true, if_false, setValid, setBlk, update_self, hk, bind, Except.bind, validateSubBlk,
      update_idem, hsec] at h
    exact congrArg blks (Except.ok.inj h).symm

/-- **An insertion**, of a block of the sector that is there or of any into one without valid blocks. -/
theorem Ok.insert (k : Fin N) (tag : Addr) (is_secure : Bool) (h : s.Ok) (hk : (s.blks k).valid = false)
    (hlt : s.validBlocks < 255)
    (hsame : s.validBlocks = 0 ∨ s.tag = tag ∧ s.secureBit = is_secure) :
    ∃ s', s.insert k tag is_secure = .ok s' ∧ s'.Ok ∧ s'.tag = tag ∧ s'.secureBit = is_secure ∧
      s'.validBlocks = s.validBlocks + 1 ∧ (∀ i, i ≠ k → s'.blks i = s.blks i) ∧
      s'.blks k = { s.blks k with tag := tag, valid := true, secure := is_secure } := by
  obtain ⟨hsec, hcomp⟩ := h.clean k hk
  have hbit : is_secure = true ∨ s.secureBit = is_secure := by
    cases is_secure with
    | true => exact .inl rfl
    | false =>
      rcases hsame with h0 | ⟨-, hsame⟩
      · exact .inr (h.idle h0)
      · exact .inr hsame
  have hpanic : (s.isValid && (s.tag ≠ tag || s.secureBit ≠ is_secure)) = false := by
    rcases hsame with h0 | ⟨htag, hsame⟩
    · have : s.isValid = false := by
        cases hv : s.isValid with
        | false => rfl
        | true =>
          have := h.isValid_iff.mp hv
          omega
      rw [this, Bool.false_and]
    · simp [htag, hsame]
  let b : SubBlk := { s.blks k with tag := tag, valid := true, secure := is_secure }
  have hok := insert_eq tag is_secure hk hsec hcomp hpanic hbit
  have hcount : (s.setBlk k b).validBlocks = s.validBlocks + 1 := validBlocks_setBlk_true hk rfl
  have hother : ∀ i, i ≠ k → (s.setBlk k b).blks i = s.blks i := fun i hi => update_of_ne hi _ _
  have hself : (s.setBlk k b).blks k = b := update_self _ _ _
  -- with another valid block, the sector had this tag and security already
  have hkept : ∀ i, (s.blks i).valid = true → s.tag = tag ∧ s.secureBit = is_secure := by
    intro i hi
    have := validBlocks_pos hi
    exact hsame.resolve_left (by omega)
  refine ⟨_, hok, ?_, rfl, rfl, hcount, hother, hself⟩
  constructor
  · intro i hi
    by_cases hik : i = k
    · rw [hik, hself]
    · rw [hother i hik] at hi ⊢
      exact (h.tag i hi).trans (hkept i hi).1
  · intro i hi
    by_cases hik : i = k
    · rw [hik, hself]
    · rw [hother i hik] at hi ⊢
      exact (h.secure i hi).trans (hkept i hi).2
  · intro i hi
    by_cases hik : i = k
    · rw [hik, hself] at hi
      cases hi
    · rw [hother i hik] at hi ⊢
      exact h.clean i hi
  · have hold := h.counter
    have hone : (1 : BitVec 8).toNat = 1 := rfl
    refine Eq.trans ?_ hcount.symm
    simp only [BitVec.toNat_add, hone]
    omega
  · intro h0
    have : (s.setBlk k b).validBlocks = 0 := h0
    omega

end SectorBlk

end Salam.Cache
