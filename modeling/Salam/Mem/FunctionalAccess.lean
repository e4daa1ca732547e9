import Mathlib.Data.List.Induction
import Salam.Base.AddrRange

/-!
# Functional accesses

A functional access is checked against buffers of any place one after the other: a read collects the bytes that they
share with it, a write changes these bytes in them.

* `read_spec`, `write_spec`: one call of `trySatisfyFunctional`.
* `run_accumulates`: the bytes of a read after any sequence of calls.
-/

namespace Salam.Mem.FunctionalAccess

open Base (Addr)

/-- What a `uint8_t *` points at. -/
abbrev Bytes := Nat → BitVec 8

/-- `n` bytes, from the place `s` of `src` on, are copied to the place `d`. -/
def memcpy (dst : Bytes) (d : Nat) (src : Bytes) (s n : Nat) : Bytes := fun j =>
  if d ≤ j ∧ j < d + n then src (s + (j - d)) else dst j

structure Packet where
  addr : Addr
  size : Nat
  isSecure : Bool
  isPrint : Bool
  isRead : Bool
  isWrite : Bool
  data : Bytes
  bytesValid : List Bool

/-- What the packet is checked against; no data stands for a null pointer. -/
structure Buffer where
  addr : Addr
  is_secure : Bool
  size : Nat
  data : Option Bytes

/-- The last address of a range. -/
def endAddr (addr : Addr) (size : Nat) : Addr := addr + BitVec.ofNat 64 size - 1

def valOffset (pkt : Packet) (b : Buffer) : Nat := if pkt.addr > b.addr then (pkt.addr - b.addr).toNat else 0

def funcOffset (pkt : Packet) (b : Buffer) : Nat := if pkt.addr < b.addr then (b.addr - pkt.addr).toNat else 0

/-- `std::min` -/
def minAddr (a b : Addr) : Addr := if b < a then b else a

/-- `std::max` -/
def maxAddr (a b : Addr) : Addr := if a < b then b else a

def overlapSize (pkt : Packet) (b : Buffer) : Nat :=
  (minAddr (endAddr b.addr b.size) (endAddr pkt.addr pkt.size) + 1 - maxAddr b.addr pkt.addr).toNat

/-- `n` turns, from the byte `i` on, of a loop that stops at a byte that is not valid. -/
def checkValid (bytesValid : List Bool) : Bool → Nat → Nat → Bool
  | all_bytes_valid, _, 0 => all_bytes_valid
  | false, _, _ + 1 => false
  | true, i, n + 1 => checkValid bytesValid (true && bytesValid.getD i false) (i + 1) n

/-- The loop that marks `n` bytes, from the byte `i` on. -/
def markValid : List Bool → Nat → Nat → List Bool
  | bytesValid, _, 0 => bytesValid
  | bytesValid, i, n + 1 => markValid (bytesValid.set i true) (i + 1) n

/-- What a call returns and leaves. -/
structure Result where
  satisfied : Bool
  pkt : Packet
  buffer : Buffer

/-- Nothing if an assertion fails or the command is not known. -/
def trySatisfyFunctional (pkt : Packet) (b : Buffer) : Option Result :=
  if b.is_secure ≠ pkt.isSecure ∨ pkt.addr > endAddr b.addr b.size ∨ b.addr > endAddr pkt.addr pkt.size then
    some ⟨false, pkt, b⟩
  else if pkt.isPrint then if b.data.isSome then none else some ⟨false, pkt, b⟩
  else
    match b.data with
    | none => some ⟨false, pkt, b⟩
    | some data =>
      let val_offset := valOffset pkt b
      let func_offset := funcOffset pkt b
      let overlap_size := overlapSize pkt b
      if pkt.isRead then
        let bytesValid := if pkt.bytesValid = [] then List.replicate pkt.size false else pkt.bytesValid
        let before := checkValid bytesValid true 0 func_offset
        let marked := markValid bytesValid func_offset overlap_size
        some ⟨checkValid marked before (func_offset + overlap_size) (pkt.size - (func_offset + overlap_size)),
          { pkt with data := memcpy pkt.data func_offset data val_offset overlap_size, bytesValid := marked }, b⟩
      else if pkt.isWrite then
        some ⟨false, pkt, { b with data := some (memcpy data val_offset pkt.data func_offset overlap_size) }⟩
      else none

/-- A sequence of calls. -/
def run (pkt : Packet) : List Buffer → Option Packet
  | [] => some pkt
  | b :: bs => do
    let r ← trySatisfyFunctional pkt b
    run r.pkt bs

/-! ## Ranges -/

/-- The size is an `int`, and the last address does not wrap. -/
structure NoWrap (addr : Addr) (size : Nat) : Prop where
  isInt : size < 2 ^ 31
  pos : 0 < addr.toNat + size
  le : addr.toNat + size ≤ 2 ^ 64

/-- The ranges meet, in the same security state, and the buffer has data. A buffer of no bytes inside the packet meets
it. -/
def Overlaps (pkt : Packet) (b : Buffer) : Prop :=
  b.data.isSome ∧ b.is_secure = pkt.isSecure ∧
    pkt.addr.toNat < b.addr.toNat + b.size ∧ b.addr.toNat < pkt.addr.toNat + pkt.size

/-- The byte `j` of the packet is in the buffer, in the same security state. -/
def Provides (pkt : Packet) (j : Nat) (b : Buffer) : Prop :=
  b.data.isSome ∧ b.is_secure = pkt.isSecure ∧ j < pkt.size ∧
    b.addr.toNat ≤ pkt.addr.toNat + j ∧ pkt.addr.toNat + j < b.addr.toNat + b.size

instance (pkt : Packet) (j : Nat) : DecidablePred (Provides pkt j) := fun _ => inferInstanceAs (Decidable (_ ∧ _))

/-- The byte `j` of the packet, as the buffer has it. -/
def provided (pkt : Packet) (j : Nat) (b : Buffer) : BitVec 8 :=
  (b.data.getD fun _ => 0) (pkt.addr.toNat + j - b.addr.toNat)

theorem toNat_endAddr {addr : Addr} {size : Nat} (h : NoWrap addr size) :
    (endAddr addr size).toNat = addr.toNat + size - 1 := by
  obtain ⟨-, hpos, hle⟩ := h
  unfold endAddr
  bv_omega

variable {pkt : Packet} {b : Buffer}

theorem miss_iff (hp : NoWrap pkt.addr pkt.size) (hb : NoWrap b.addr b.size) :
    pkt.addr > endAddr b.addr b.size ∨ b.addr > endAddr pkt.addr pkt.size ↔
      ¬ (pkt.addr.toNat < b.addr.toNat + b.size ∧ b.addr.toNat < pkt.addr.toNat + pkt.size) := by
  rw [GT.gt, GT.gt, BitVec.lt_def, BitVec.lt_def, toNat_endAddr hp, toNat_endAddr hb]
  have := hp.pos
  have := hb.pos
  omega

theorem valOffset_eq (pkt : Packet) (b : Buffer) : valOffset pkt b = pkt.addr.toNat - b.addr.toNat := by
  unfold valOffset
  split
  · bv_omega
  · bv_omega

theorem funcOffset_eq (pkt : Packet) (b : Buffer) : funcOffset pkt b = b.addr.toNat - pkt.addr.toNat := by
  unfold funcOffset
  split
  · bv_omega
  · bv_omega

theorem toNat_minAddr (a b : Addr) : (minAddr a b).toNat = min a.toNat b.toNat := by
  unfold minAddr
  split
  · bv_omega
  · bv_omega

theorem toNat_maxAddr (a b : Addr) : (maxAddr a b).toNat = max a.toNat b.toNat := by
  unfold maxAddr
  split
  · bv_omega
  · bv_omega

theorem overlapSize_eq (hp : NoWrap pkt.addr pkt.size) (hb : NoWrap b.addr b.size)
    (hmeet : pkt.addr.toNat < b.addr.toNat + b.size ∧ b.addr.toNat < pkt.addr.toNat + pkt.size) : overlapSize pkt b =
      min (pkt.addr.toNat + pkt.size) (b.addr.toNat + b.size) - max pkt.addr.toNat b.addr.toNat := by
  have hlast := toNat_minAddr (endAddr b.addr b.size) (endAddr pkt.addr pkt.size)
  have hfirst := toNat_maxAddr b.addr pkt.addr
  have hone : (1 : Addr).toNat = 1 := rfl
  rw [toNat_endAddr hp, toNat_endAddr hb] at hlast
  obtain ⟨hint, hpos, hple⟩ := hp
  obtain ⟨-, hpos', hble⟩ := hb
  have hle : max b.addr.toNat pkt.addr.toNat ≤ min (b.addr.toNat + b.size - 1) (pkt.addr.toNat + pkt.size - 1) + 1 := by
    omega
  have hsucc : min (pkt.addr.toNat + pkt.size) (b.addr.toNat + b.size) =
      min (b.addr.toNat + b.size - 1) (pkt.addr.toNat + pkt.size - 1) + 1 := by omega
  have hlt : min (b.addr.toNat + b.size - 1) (pkt.addr.toNat + pkt.size - 1) <
    max b.addr.toNat pkt.addr.toNat + 2 ^ 31 := by
    omega
  rw [overlapSize, BitVec.toNat_sub, BitVec.toNat_add, hlast, hfirst, hone, hsucc, Nat.max_comm pkt.addr.toNat]
  have hfirst' : max b.addr.toNat pkt.addr.toNat < 2 ^ 64 := by omega
  generalize max b.addr.toNat pkt.addr.toNat = first at hle hlt hfirst'
  generalize min (b.addr.toNat + b.size - 1) (pkt.addr.toNat + pkt.size - 1) = last at hle hlt
  omega

/-! ## The loops -/

theorem checkValid_iff (bytesValid : List Bool) (n : Nat) : ∀ (all_bytes_valid : Bool) (i : Nat),
    checkValid bytesValid all_bytes_valid i n = true ↔
      all_bytes_valid = true ∧ ∀ k, i ≤ k → k < i + n → bytesValid.getD k false = true := by
  induction n with
  | zero =>
    intro all i
    exact ⟨fun h => ⟨h, fun k _ _ => by omega⟩, fun h => h.1⟩
  | succ n ih =>
    intro all i
    cases all with
    | false => simp [checkValid]
    | true =>
      rw [checkValid, ih, Bool.true_and]
      constructor
      · rintro ⟨hhead, htail⟩
        refine ⟨rfl, fun k hik hk => ?_⟩
        rcases Nat.eq_or_lt_of_le hik with rfl | hlt
        · exact hhead
        · exact htail k hlt (by omega)
      · rintro ⟨-, h⟩
        exact ⟨h i (le_refl _) (by omega), fun k hik hk => h k (by omega) (by omega)⟩

theorem length_markValid (n : Nat) : ∀ (bytesValid : List Bool) (i : Nat),
    (markValid bytesValid i n).length = bytesValid.length := by
  induction n with
  | zero => exact fun _ _ => rfl
  | succ n ih => exact fun bytesValid i => by rw [markValid, ih, List.length_set]

theorem getD_markValid (n : Nat) : ∀ (bytesValid : List Bool) (i k : Nat), i + n ≤ bytesValid.length →
    ((markValid bytesValid i n).getD k false = true ↔ bytesValid.getD k false = true ∨ i ≤ k ∧ k < i + n) := by
  induction n with
  | zero =>
    intro bytesValid i k _
    exact ⟨.inl, fun h => h.elim id fun h => by omega⟩
  | succ n ih =>
    intro bytesValid i k hlen
    rw [markValid, ih _ _ _ (by rw [List.length_set]; omega)]
    by_cases hk : i = k
    · subst hk
      have hset : (bytesValid.set i true).getD i false = true := by
        rw [List.getD_eq_getElem?_getD, List.getElem?_set_self (by omega)]
        rfl
      exact iff_of_true (.inl hset) (.inr (by omega))
    · rw [List.getD_eq_getElem?_getD, List.getElem?_set_ne hk, ← List.getD_eq_getElem?_getD]
      refine or_congr_right ?_
      omega

/-! ## One call -/

/-- The vector of the bytes that are valid is not used yet, or has the size of the packet. -/
def Sized (pkt : Packet) : Prop := pkt.bytesValid = [] ∨ pkt.bytesValid.length = pkt.size

/-- The byte is marked. -/
def Valid (pkt : Packet) (j : Nat) : Prop := pkt.bytesValid.getD j false = true

/-- What a read takes from a buffer. -/
structure Collected (pkt : Packet) (b : Buffer) (r : Result) : Prop where
  frame : r.pkt = { pkt with data := r.pkt.data, bytesValid := r.pkt.bytesValid }
  buffer : r.buffer = b
  sized : Sized r.pkt
  valid : ∀ j < pkt.size, Valid r.pkt j ↔ Valid pkt j ∨ Provides pkt j b
  data : ∀ j, r.pkt.data j = if Provides pkt j b then provided pkt j b else pkt.data j
  satisfied : r.satisfied = true ↔ Overlaps pkt b ∧ ∀ j < pkt.size, Valid r.pkt j

/-- The bytes from the offset on, as many as the overlap has, are those that the buffer provides. -/
theorem shared_iff {f n v m j : Nat} (hmeet : f < v + m ∧ v < f + n) :
    v - f ≤ j ∧ j < v - f + (min (f + n) (v + m) - max f v) ↔ j < n ∧ v ≤ f + j ∧ f + j < v + m := by
  omega

theorem not_provides (h : ¬ Overlaps pkt b) (j : Nat) : ¬ Provides pkt j b := by
  rintro ⟨hdata, hsecure, hj, hle, hlt⟩
  exact h ⟨hdata, hsecure, by omega, by omega⟩

theorem collected_of_miss (hsized : Sized pkt) (hover : ¬ Overlaps pkt b) : Collected pkt b ⟨false, pkt, b⟩ where
  frame := rfl
  buffer := rfl
  sized := hsized
  valid j _ := by simp [not_provides hover]
  data j := by rw [if_neg (not_provides hover j)]
  satisfied := by simp [hover]

theorem miss_eq (hp : NoWrap pkt.addr pkt.size) (hb : NoWrap b.addr b.size) (hprint : pkt.isPrint = false)
    (hover : ¬ Overlaps pkt b) : trySatisfyFunctional pkt b = some ⟨false, pkt, b⟩ := by
  rw [trySatisfyFunctional]
  split
  · rfl
  · rename_i hmeet
    rw [miss_iff hp hb, not_or, not_not, not_not] at hmeet
    rw [hprint, if_neg (by decide)]
    cases hd : b.data with
    | none => rfl
    | some data => exact absurd ⟨by rw [hd]; rfl, hmeet.1, hmeet.2⟩ hover

theorem read_spec (hread : pkt.isRead = true) (hprint : pkt.isPrint = false) (hp : NoWrap pkt.addr pkt.size)
    (hb : NoWrap b.addr b.size) (hsized : Sized pkt) :
      ∃ r, trySatisfyFunctional pkt b = some r ∧ Collected pkt b r := by
  by_cases hover : Overlaps pkt b
  · obtain ⟨hdata, hsecure, hmeet⟩ := id hover
    obtain ⟨data, hd⟩ := Option.isSome_iff_exists.mp hdata
    rw [trySatisfyFunctional, if_neg (by rw [miss_iff hp hb]; simp [hsecure, hmeet]), if_neg (by simp [hprint]), hd]
    dsimp only
    rw [if_pos hread, valOffset_eq, funcOffset_eq, overlapSize_eq hp hb hmeet]
    -- the vector that the loops look at
    obtain ⟨bytesValid, hbv, hlen, hold⟩ : ∃ bv, (if pkt.bytesValid = [] then List.replicate pkt.size false
        else pkt.bytesValid) = bv ∧ bv.length = pkt.size ∧ ∀ j, bv.getD j false = true ↔ Valid pkt j := by
      refine ⟨_, rfl, ?_⟩
      split
      · rename_i hnil
        refine ⟨List.length_replicate, fun j => iff_of_false ?_ (by simp [Valid, hnil])⟩
        rw [List.getD_eq_getElem?_getD, List.getElem?_replicate]
        split
        · exact Bool.false_ne_true
        · exact Bool.false_ne_true
      · rename_i hne
        exact ⟨hsized.resolve_left hne, fun _ => Iff.rfl⟩
    rw [hbv]
    have hprovides (j : Nat) : Provides pkt j b ↔ _ :=
      ((and_iff_right hdata).trans (and_iff_right hsecure)).trans (shared_iff hmeet).symm
    have hfit : b.addr.toNat - pkt.addr.toNat + (min (pkt.addr.toNat + pkt.size) (b.addr.toNat + b.size) -
        max pkt.addr.toNat b.addr.toNat) ≤ bytesValid.length := by omega
    have hmark (j : Nat) := getD_markValid _ bytesValid _ j hfit
    refine ⟨_, rfl, rfl, rfl, .inr ((length_markValid _ _ _).trans hlen), fun j _ => ?_, fun j => ?_, ?_⟩
    · rw [← hold, hprovides]
      exact hmark j
    · by_cases hj : Provides pkt j b
      · obtain ⟨hlow, hhigh⟩ := (hprovides j).mp hj
        rw [if_pos hj, provided, hd]
        refine (if_pos ⟨hlow, hhigh⟩).trans ?_
        show data _ = data _
        congr 1
        omega
      · rw [if_neg hj]
        exact if_neg fun hin => hj ((hprovides j).mpr hin)
    · show checkValid _ _ _ _ = true ↔ _
      rw [checkValid_iff, checkValid_iff, and_iff_right rfl, and_iff_right hover]
      constructor
      · rintro ⟨hbefore, hafter⟩ j hj
        by_cases hlow : j < b.addr.toNat - pkt.addr.toNat
        · exact (hmark j).mpr (.inl (hbefore j (Nat.zero_le _) (by omega)))
        · by_cases hhigh : j < b.addr.toNat - pkt.addr.toNat +
            (min (pkt.addr.toNat + pkt.size) (b.addr.toNat + b.size) -
            max pkt.addr.toNat b.addr.toNat)
          · exact (hmark j).mpr (.inr ⟨by omega, hhigh⟩)
          · exact hafter j (by omega) (by omega)
      · intro hall
        refine ⟨fun j _ hj => ?_, fun j _ hj => hall j (by omega)⟩
        exact ((hmark j).mp (hall j (by omega))).resolve_right (by omega)
  · exact ⟨_, miss_eq hp hb hprint hover, collected_of_miss hsized hover⟩

/-- The byte `k` of the buffer is in the packet, in the same security state. -/
def Reached (pkt : Packet) (b : Buffer) (k : Nat) : Prop :=
  b.is_secure = pkt.isSecure ∧ k < b.size ∧ pkt.addr.toNat ≤ b.addr.toNat + k ∧
    b.addr.toNat + k < pkt.addr.toNat + pkt.size

instance (pkt : Packet) (b : Buffer) : DecidablePred (Reached pkt b) := fun _ => inferInstanceAs (Decidable (_ ∧ _))

theorem write_spec {data : Bytes} (hread : pkt.isRead = false) (hwrite : pkt.isWrite = true)
    (hprint : pkt.isPrint = false)
    (hp : NoWrap pkt.addr pkt.size) (hb : NoWrap b.addr b.size) (hd : b.data = some data) :
    ∃ data', trySatisfyFunctional pkt b = some ⟨false, pkt, { b with data := some data' }⟩ ∧
      ∀ k, data' k = if Reached pkt b k then pkt.data (b.addr.toNat + k - pkt.addr.toNat) else data k := by
  by_cases hover : Overlaps pkt b
  · obtain ⟨-, hsecure, hmeet⟩ := id hover
    rw [trySatisfyFunctional, if_neg (by rw [miss_iff hp hb]; simp [hsecure, hmeet]), if_neg (by simp [hprint]), hd]
    dsimp only
    rw [if_neg (by simp [hread]), if_pos hwrite, valOffset_eq, funcOffset_eq, overlapSize_eq hp hb hmeet]
    refine ⟨_, rfl, fun k => ?_⟩
    have hreached : Reached pkt b k ↔ _ := (and_iff_right hsecure).trans (shared_iff hmeet.symm).symm
    rw [Nat.min_comm, Nat.max_comm, memcpy]
    by_cases hk : Reached pkt b k
    · rw [if_pos hk, if_pos (hreached.mp hk)]
      congr 1
      omega
    · rw [if_neg hk, if_neg (hk ∘ hreached.mpr)]
  · refine ⟨data, by rw [miss_eq hp hb hprint hover, ← hd], fun k => (if_neg ?_).symm⟩
    rintro ⟨hsecure, hk, hle, hlt⟩
    exact hover ⟨by rw [hd]; rfl, hsecure, by omega, by omega⟩

/-! ## Any sequence of calls -/

/-- The byte of the last buffer that has it, or the one that the packet started with. -/
def collected (pkt : Packet) (bs : List Buffer) (j : Nat) : BitVec 8 :=
  match bs.reverse.find? fun b => decide (Provides pkt j b) with
  | some b => provided pkt j b
  | none => pkt.data j

/-- What the packet holds after calls against `bs`. -/
structure Held (pkt : Packet) (bs : List Buffer) (p : Packet) : Prop where
  frame : p = { pkt with data := p.data, bytesValid := p.bytesValid }
  sized : Sized p
  valid : ∀ j < pkt.size, Valid p j ↔ ∃ b ∈ bs, Provides pkt j b
  data : ∀ j, p.data j = collected pkt bs j

theorem collected_append (pkt : Packet) (bs : List Buffer) (b : Buffer) (j : Nat) :
    collected pkt (bs ++ [b]) j = if Provides pkt j b then provided pkt j b else collected pkt bs j := by
  rw [collected, List.reverse_append, List.reverse_singleton, List.singleton_append, List.find?_cons]
  by_cases hj : Provides pkt j b
  · rw [decide_eq_true hj, if_pos hj]
  · rw [decide_eq_false hj, if_neg hj, collected]

theorem Held.call {pkt p : Packet} {bs : List Buffer} (h : Held pkt bs p) (hread : pkt.isRead = true)
    (hprint : pkt.isPrint = false) (hp : NoWrap pkt.addr pkt.size) (hb : NoWrap b.addr b.size) :
    ∃ r, trySatisfyFunctional p b = some r ∧ Held pkt (bs ++ [b]) r.pkt ∧ Collected p b r := by
  have hframe := h.frame
  have hsame : p.addr = pkt.addr ∧ p.size = pkt.size ∧ p.isRead = pkt.isRead ∧ p.isPrint = pkt.isPrint := by
    rw [hframe]
    exact ⟨rfl, rfl, rfl, rfl⟩
  have hprovides (j : Nat) : (Provides p j b ↔ Provides pkt j b) ∧ provided p j b = provided pkt j b := by
    rw [hframe]
    exact ⟨Iff.rfl, rfl⟩
  obtain ⟨r, hr, hc⟩ := read_spec (b := b) (hsame.2.2.1.trans hread) (hsame.2.2.2.trans hprint)
    (by rw [hsame.1, hsame.2.1]; exact hp) hb h.sized
  refine ⟨r, hr, ⟨?_, hc.sized, fun j hj => ?_, fun j => ?_⟩, hc⟩
  · have hkeep := hc.frame
    rw [hframe] at hkeep
    exact hkeep
  · rw [hc.valid j (by rw [hsame.2.1]; exact hj), h.valid j hj, (hprovides j).1]
    simp [or_and_right, exists_or]
  · rw [hc.data, collected_append, h.data, (hprovides j).2]
    exact if_congr (hprovides j).1 rfl rfl

theorem Held.run (hread : pkt.isRead = true) (hprint : pkt.isPrint = false) (hp : NoWrap pkt.addr pkt.size)
    (bs : List Buffer) :
    ∀ {before : List Buffer} {p : Packet}, Held pkt before p →
    (∀ b ∈ bs, NoWrap b.addr b.size) → ∃ p', run p bs = some p' ∧ Held pkt (before ++ bs) p' := by
  induction bs with
  | nil =>
    intro before p h _
    exact ⟨p, rfl, by rwa [List.append_nil]⟩
  | cons b bs ih =>
    intro before p h hbs
    obtain ⟨r, hr, hheld, -⟩ := h.call hread hprint hp (hbs b (List.mem_cons_self ..))
    obtain ⟨p', hp', hheld'⟩ := ih hheld fun x hx => hbs x (List.mem_cons_of_mem _ hx)
    refine ⟨p', ?_, by rwa [List.append_assoc] at hheld'⟩
    rw [FunctionalAccess.run, hr]
    exact hp'

/-- **Functional accesses**: after every call of a sequence, the bytes of a read that are marked are those that a buffer
so far provides, with the data of the last one, and the call is satisfied if it overlaps and all bytes are marked; a
write changes the bytes of a buffer that it reaches. -/
theorem run_accumulates {pkt : Packet} (hread : pkt.isRead = true) (hprint : pkt.isPrint = false)
    (hp : NoWrap pkt.addr pkt.size) (hfresh : pkt.bytesValid = []) {bs : List Buffer} {b : Buffer}
    (hbs : ∀ x ∈ bs, NoWrap x.addr x.size) (hb : NoWrap b.addr b.size) {w : Packet} {c : Buffer} {data : Bytes}
    (hnread : w.isRead = false) (hwrite : w.isWrite = true) (hnprint : w.isPrint = false) (hw : NoWrap w.addr w.size)
    (hc : NoWrap c.addr c.size) (hd : c.data = some data) :
    (∃ p r, run pkt bs = some p ∧ trySatisfyFunctional p b = some r ∧
      (∀ j < pkt.size, Valid r.pkt j ↔ ∃ x ∈ bs ++ [b], Provides pkt j x) ∧
      (∀ j, r.pkt.data j = collected pkt (bs ++ [b]) j) ∧ (∀ j, ¬ Provides pkt j b → r.pkt.data j = p.data j) ∧
      r.buffer = b ∧ (r.satisfied = true ↔ Overlaps pkt b ∧ ∀ j < pkt.size, Valid r.pkt j)) ∧
    ∃ data', trySatisfyFunctional w c = some ⟨false, w, { c with data := some data' }⟩ ∧
      ∀ k, data' k = if Reached w c k then w.data (c.addr.toNat + k - w.addr.toNat) else data k := by
  refine ⟨?_, write_spec hnread hwrite hnprint hw hc hd⟩
  have hstart : Held pkt [] pkt := ⟨rfl, .inl hfresh, fun j _ => by simp [Valid, hfresh], fun _ => rfl⟩
  obtain ⟨p, hrun, hheld⟩ := Held.run hread hprint hp bs hstart hbs
  obtain ⟨r, hr, hheld', hcol⟩ := hheld.call hread hprint hp hb
  refine ⟨p, r, hrun, hr, hheld'.valid, hheld'.data, fun j hj => ?_, hcol.buffer, ?_⟩
  · rw [hheld'.data, List.nil_append, collected_append, if_neg hj, hheld.data, List.nil_append]
  · have hframe := hheld.frame
    rw [hframe] at hcol
    exact hcol.satisfied

/-- A packet of four bytes. -/
def fourBytes (isRead : Bool) : Packet := ⟨0x10, 4, false, false, isRead, !isRead, fun _ => 0, []⟩

/-- A buffer of two bytes. -/
def twoBytes (addr : Addr) : Buffer := ⟨addr, false, 2, some fun _ => 1⟩

/-- Two buffers, of two bytes each, that cover a read of four bytes. -/
theorem run_accumulates_four :
    (∃ p r, run (fourBytes true) [twoBytes 0x10] = some p ∧ trySatisfyFunctional p (twoBytes 0x12) = some r ∧
      (∀ j < 4, Valid r.pkt j ↔ ∃ x ∈ [twoBytes 0x10, twoBytes 0x12], Provides (fourBytes true) j x) ∧
      (∀ j, r.pkt.data j = collected (fourBytes true) [twoBytes 0x10, twoBytes 0x12] j) ∧
      (∀ j, ¬ Provides (fourBytes true) j (twoBytes 0x12) → r.pkt.data j = p.data j) ∧ r.buffer = twoBytes 0x12 ∧
      (r.satisfied = true ↔ Overlaps (fourBytes true) (twoBytes 0x12) ∧ ∀ j < 4, Valid r.pkt j)) ∧
    ∃ data', trySatisfyFunctional (fourBytes false) (twoBytes 0x12) =
      some ⟨false, fourBytes false, { twoBytes 0x12 with data := some data' }⟩ ∧
      ∀ k, data' k = if Reached (fourBytes false) (twoBytes 0x12) k then 0 else 1 :=
  @run_accumulates (fourBytes true) rfl rfl ⟨by decide, by decide, by decide⟩ rfl [twoBytes 0x10] (twoBytes 0x12)
    (by rintro x (_ | ⟨_, h⟩); exacts [⟨by decide, by decide, by decide⟩, nomatch h])
    ⟨by decide, by decide, by decide⟩ (fourBytes false) (twoBytes 0x12) (fun _ => 1) rfl rfl rfl
    ⟨by decide, by decide, by decide⟩ ⟨by decide, by decide, by decide⟩ rfl

end Salam.Mem.FunctionalAccess
