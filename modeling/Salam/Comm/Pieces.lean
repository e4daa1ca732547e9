import Mathlib.Algebra.Order.Ring.Int
import Salam.Comm.Interface

/-!
# Cutting a request at the cache lines

`pieces` is what `tryRead` and `tryWrite` are meant to do to a request: one piece up to the end of the cache line, then
the rest. The code does it with an `int` next to counters of 64 bits; the constructor of `MemoryRequest` and the loop in
`recvPacket` count with an `int` too. `chunkInt`, `intLoop` and `markDone` are these computations.

* `pieces_at`, `bytes_pieces`: the pieces follow each other through the whole request, and end at the lines.
* `initRead_eq`, `chunkInt_eq_iff`, `markDone_eq`: when the `memset` and the `int`s are right.
-/

namespace Salam.Comm

/-! ## Pieces -/

/-- The distance from the address to the end of its cache line. -/
def lineEnd (line : Nat) (current : Word) : Nat :=
  if current.toNat % line ≠ 0 then line - current.toNat % line else line

theorem chunk_eq (line : Nat) (current : Word) (left : Nat) :
    chunk line current left = if left > lineEnd line current - 1 then lineEnd line current else left := rfl

variable {line : Nat}

theorem lineEnd_pos (h : 0 < line) (current : Word) : 0 < lineEnd line current := by
  have := Nat.mod_lt current.toNat h
  unfold lineEnd
  split <;> omega

theorem lineEnd_le (line : Nat) (current : Word) : lineEnd line current ≤ line := by
  unfold lineEnd
  split <;> omega

theorem chunk_eq_min (line : Nat) (current : Word) (left : Nat) :
    chunk line current left = min (lineEnd line current) left := by
  rw [chunk_eq]
  split <;> omega

/-- A chunk ends at the end of the line at the latest. -/
theorem mod_add_chunk_le (h : 0 < line) (current : Word) (left : Nat) :
    current.toNat % line + chunk line current left ≤ line := by
  have hmod := Nat.mod_lt current.toNat h
  have hle : chunk line current left ≤ lineEnd line current := by
    rw [chunk_eq_min]
    exact Nat.min_le_left ..
  unfold lineEnd at hle
  split at hle <;> omega

/-- The pieces of the `left` bytes from `current` on, each with its first address and its size. -/
def piecesFrom (line : Nat) : Nat → Word → Nat → List (Word × Nat)
  | 0, _, _ => []
  | fuel + 1, current, left =>
    if left = 0 then []
    else
      let size := chunk line current left
      (current, size) :: piecesFrom line fuel (current + BitVec.ofNat 64 size) (left - size)

def pieces (line : Nat) (a : Word) (n : Nat) : List (Word × Nat) := piecesFrom line n a n

/-- The bytes of the pieces. -/
def bytes (ps : List (Word × Nat)) : Nat := (ps.map Prod.snd).sum

@[simp] theorem bytes_nil : bytes [] = 0 := rfl

@[simp] theorem bytes_cons (x : Word × Nat) (ps : List (Word × Nat)) : bytes (x :: ps) = x.2 + bytes ps := by
  simp [bytes]

@[simp] theorem bytes_append (ps qs : List (Word × Nat)) : bytes (ps ++ qs) = bytes ps + bytes qs := by simp [bytes]

section Pieces

variable {line : Nat}

/-- A fuel that is large enough makes no difference. -/
theorem piecesFrom_fuel (h : 0 < line) {fuel : Nat} : ∀ {fuel' : Nat} {current : Word} {left : Nat}, left ≤ fuel →
    left ≤ fuel' → piecesFrom line fuel current left = piecesFrom line fuel' current left := by
  induction fuel with
  | zero =>
    intro fuel' current left hle _
    obtain rfl := Nat.le_zero.mp hle
    cases fuel' <;> rfl
  | succ fuel ih =>
    intro fuel' current left hle hle'
    cases fuel' with
    | zero =>
      obtain rfl := Nat.le_zero.mp hle'
      rfl
    | succ fuel' =>
      unfold piecesFrom
      split
      · rfl
      · have hpos := lineEnd_pos h current
        have hsize := chunk_eq_min line current left
        exact congrArg _ (ih (by omega) (by omega))

@[simp] theorem pieces_zero (a : Word) : pieces line a 0 = [] := rfl

theorem pieces_cons (h : 0 < line) (a : Word) {n : Nat} (hn : 0 < n) : pieces line a n =
    (a, chunk line a n) :: pieces line (a + BitVec.ofNat 64 (chunk line a n)) (n - chunk line a n) := by
  cases n with
  | zero => exact absurd hn (Nat.lt_irrefl 0)
  | succ n =>
    have hpos := lineEnd_pos h a
    have hsize := chunk_eq_min line a (n + 1)
    have hfuel : piecesFrom line n (a + BitVec.ofNat 64 (chunk line a (n + 1))) (n + 1 - chunk line a (n + 1)) =
        pieces line (a + BitVec.ofNat 64 (chunk line a (n + 1))) (n + 1 - chunk line a (n + 1)) :=
      piecesFrom_fuel h (by omega) (Nat.le_refl _)
    rw [← hfuel]
    rfl

/-- What is true of no bytes, and of a piece and the bytes after it when it is true of these, is true of all. -/
theorem pieces_induction (h : 0 < line) {motive : Word → Nat → Prop} (zero : ∀ a, motive a 0)
    (step : ∀ a n, 0 < n → motive (a + BitVec.ofNat 64 (chunk line a n)) (n - chunk line a n) → motive a n) (a : Word)
    (n : Nat) : motive a n := by
  induction n using Nat.strongRecOn generalizing a with
  | ind n ih =>
    cases n with
    | zero => exact zero a
    | succ n =>
      have hpos := lineEnd_pos h a
      have hsize := chunk_eq_min line a (n + 1)
      exact step a (n + 1) (Nat.succ_pos n) (ih _ (by omega) _)

/-- **The pieces have all the bytes.** -/
theorem bytes_pieces (h : 0 < line) (a : Word) (n : Nat) : bytes (pieces line a n) = n := by
  induction a, n using pieces_induction h with
  | zero a => rfl
  | step a n hn ih =>
    have hsize := chunk_eq_min line a n
    rw [pieces_cons h a hn, bytes_cons, ih]
    omega

/-- **A piece starts where the pieces before it end**; it is as long as the line and the rest allow. -/
theorem pieces_at (h : 0 < line) (a : Word) (n : Nat) : ∀ {ps₁ ps₂ : List (Word × Nat)} {x : Word × Nat},
    pieces line a n = ps₁ ++ x :: ps₂ → x.1 = a + BitVec.ofNat 64 (bytes ps₁) ∧
      x.2 = chunk line x.1 (n - bytes ps₁) ∧ bytes ps₁ < n := by
  induction a, n using pieces_induction h with
  | zero a =>
    intro ps₁ ps₂ x heq
    simp at heq
  | step a n hn ih =>
    intro ps₁ ps₂ x heq
    rw [pieces_cons h a hn] at heq
    cases ps₁ with
    | nil =>
      obtain ⟨rfl, -⟩ := List.cons.inj heq
      simp [hn]
    | cons y ps₁ =>
      obtain ⟨rfl, hrest⟩ := List.cons.inj heq
      obtain ⟨hstart, hsize, hlt⟩ := ih hrest
      refine ⟨?_, ?_, ?_⟩
      · rw [hstart, bytes_cons, BitVec.ofNat_add, BitVec.add_assoc]
      · rw [bytes_cons, ← Nat.sub_sub]
        exact hsize
      · rw [bytes_cons]
        omega

/-- A piece has a byte, and lies in one line. -/
theorem pieces_mem (h : 0 < line) {a : Word} {n : Nat} {x : Word × Nat} (hx : x ∈ pieces line a n) :
    0 < x.2 ∧ x.1.toNat % line + x.2 ≤ line := by
  obtain ⟨ps₁, ps₂, heq⟩ := List.append_of_mem hx
  obtain ⟨-, hsize, hlt⟩ := pieces_at h a n heq
  have hpos := lineEnd_pos h x.1
  have hmin := chunk_eq_min line x.1 (n - bytes ps₁)
  refine ⟨by omega, ?_⟩
  rw [hsize]
  exact mod_add_chunk_le h x.1 _

end Pieces

/-! ## Loops and sizes of type `int` -/

/-- `for (int i = ..; i < hi; i++) body(i)` for a `size_t hi`, with `k` rounds to go; `none` when `i` overflows. -/
def intLoop {σ : Type*} (body : Nat → σ → σ) : Nat → Nat → σ → Option σ
  | 0, _, s => some s
  | k + 1, i, s => if i + 1 < 2 ^ 31 then intLoop body k (i + 1) (body i s) else none

/-- `std::memset(buffer, 0, len)`; `none` when the buffer is shorter. -/
def memset (buffer : List Byte) (len : Nat) : Option (List Byte) :=
  if len ≤ buffer.length then some (overwrite buffer 0 (List.replicate len 0)) else none

/-- The constructor for a read. It fills `sizeof(length)` bytes, which are eight whatever `length` is; then its loop
does `buffer[i] = 0; readsDone[i] = false`. -/
def initRead (len : Nat) (s : List Byte × List Bool) : Option (List Byte × List Bool) := do
  let buffer ← memset s.1 8
  intLoop (fun i s => (s.1.set i 0, s.2.set i false)) len 0 (buffer, s.2)

/-- The loop of the constructor for a write: `buffer[i] = *(data + i); readsDone[i] = true`. -/
def initWrite (data : List Byte) (s : List Byte × List Bool) : Option (List Byte × List Bool) :=
  intLoop (fun i s => (s.1.set i (data[i]?.getD 0), s.2.set i true)) data.length 0 s

/-- The loop of `recvPacket` over `readsDone`. When the offset is negative as an `int`, it is, converted again, beyond
the end. -/
def markDone (readsDone : List Bool) (off size : Nat) : Option (List Bool) :=
  let i := (BitVec.ofNat 32 off).toInt
  if i < 0 then some readsDone else intLoop (fun i r => r.set i true) (off + size - i.toNat) i.toNat readsDone

/-- The size of the next packet. `size` is an `int`, the bytes that are left are a `Tick`, and so is the result of the
conditional expression; `none` when `size - 1` overflows. -/
def chunkInt (line : Nat) (current : Word) (left : Nat) : Option Int :=
  let size := (BitVec.ofNat 32 (lineEnd line current)).toInt
  if size - 1 < -2 ^ 31 then none
  else some (if left > (BitVec.ofInt 64 (size - 1)).toNat then size else (BitVec.ofNat 32 left).toInt)


theorem intLoop_of_lt {σ : Type*} (body : Nat → σ → σ) {k : Nat} : ∀ {i : Nat} (s : σ), i + k < 2 ^ 31 →
    intLoop body k i s = some ((List.range' i k).foldl (fun s i => body i s) s) := by
  induction k with
  | zero => exact fun _ _ => rfl
  | succ k ih =>
    intro i s h
    have hi : i + 1 < 2 ^ 31 := by omega
    rw [intLoop, if_pos hi, ih _ (by omega), List.range'_succ, List.foldl_cons]

theorem intLoop_of_le {σ : Type*} (body : Nat → σ → σ) {k : Nat} : ∀ {i : Nat} (s : σ), 0 < k → 2 ^ 31 ≤ i + k →
    intLoop body k i s = none := by
  induction k with
  | zero => exact fun _ h => absurd h (Nat.lt_irrefl 0)
  | succ k ih =>
    intro i s _ h
    rw [intLoop]
    split
    · exact ih _ (by omega) (by omega)
    · rfl

variable {α : Type*}

/-- A loop that writes `f i` at every index `i`. -/
theorem foldl_set (f : Nat → α) {k : Nat} : ∀ {i : Nat} {l : List α}, i + k ≤ l.length →
    (List.range' i k).foldl (fun l i => l.set i (f i)) l = overwrite l i ((List.range' i k).map f) := by
  induction k with
  | zero =>
    intro i l _
    simp [overwrite]
  | succ k ih =>
    intro i l h
    have hi : i < l.length := by omega
    rw [List.range'_succ, List.foldl_cons, ih (by rw [List.length_set]; omega), List.map_cons]
    simp only [overwrite, List.length_cons, List.length_map, List.length_range']
    rw [List.set_eq_take_append_cons_drop, if_pos hi]
    have hk : i + 1 + k - i = k + 1 := by omega
    have htake : List.take (i + 1) (List.take i l) = List.take i l := by
      rw [List.take_take, Nat.min_eq_right (Nat.le_succ i)]
    have hdrop : List.drop (i + 1 + k) (List.take i l) = [] := List.drop_eq_nil_of_le (by rw [List.length_take]; omega)
    rw [List.take_append, List.drop_append, htake, hdrop, List.length_take, Nat.min_eq_left (Nat.le_of_lt hi), hk]
    simp [Nat.add_assoc, Nat.add_comm 1 k]

theorem map_range'_const (x : α) (i k : Nat) : (List.range' i k).map (fun _ => x) = List.replicate k x := by
  rw [List.map_const', List.length_range']

theorem overwrite_all {l data : List α} (h : l.length = data.length) : overwrite l 0 data = data := by
  simp [overwrite, ← h]

theorem foldl_pair {α β γ : Type*} (f : β → α → β) (g : γ → α → γ) (as : List α) : ∀ s : β × γ,
    as.foldl (fun s a => (f s.1 a, g s.2 a)) s = (as.foldl f s.1, as.foldl g s.2) := by
  induction as with
  | nil => exact fun _ => rfl
  | cons a as ih => exact fun s => ih (f s.1 a, g s.2 a)

theorem memset_eq_some {l : List Byte} {n : Nat} (h : n ≤ l.length) :
    ∃ l', memset l n = some l' ∧ l'.length = l.length :=
  ⟨_, if_pos h, by simp [overwrite, Nat.add_sub_cancel' h]⟩

/-- **The constructor for a read** writes past the end of a buffer that is shorter than eight bytes. -/
theorem initRead_eq_none {len : Nat} {s : List Byte × List Bool} (hs : s.1.length = len) (h : len < 8) :
    initRead len s = none := by
  rw [initRead, memset, if_neg (by omega)]
  rfl

/-- **The constructors count to the length**, and fail from `2 ^ 31` on. -/
theorem initRead_eq {len : Nat} {s : List Byte × List Bool} (hs : s.1.length = len ∧ s.2.length = len) (h : 8 ≤ len) :
    initRead len s = if len < 2 ^ 31 then some (List.replicate len 0, List.replicate len false) else none := by
  obtain ⟨buffer, hset, hlen⟩ := memset_eq_some (h.trans_eq hs.1.symm)
  rw [hs.1] at hlen
  rw [initRead, hset]
  change intLoop _ _ _ (buffer, s.2) = _
  split
  · rw [intLoop_of_lt _ _ (by omega), foldl_pair (fun (b : List Byte) i => b.set i 0) (fun (r : List Bool) i =>
      r.set i false), foldl_set (fun _ => 0) (by simp [hlen]), foldl_set (fun _ => false) (by simp [hs]),
        map_range'_const,
      map_range'_const, overwrite_all (by simp [hlen]), overwrite_all (by simp [hs])]
  · exact intLoop_of_le _ _ (by omega) (by omega)

theorem initWrite_eq {data : List Byte} {s : List Byte × List Bool}
    (hs : s.1.length = data.length ∧ s.2.length = data.length) : initWrite data s = if data.length < 2 ^ 31 then
      some (data, List.replicate data.length true) else none := by
  unfold initWrite
  split
  · have hdata : (List.range' 0 data.length).map (fun i => data[i]?.getD 0) = data := by
      refine List.ext_getElem (by simp) fun i _ h₂ => ?_
      simp [h₂]
    rw [intLoop_of_lt _ _ (by omega), foldl_pair (fun (b : List Byte) i => b.set i (data[i]?.getD 0))
      (fun (r : List Bool) i => r.set i true), foldl_set (fun i => data[i]?.getD 0) (by omega),
      foldl_set (fun _ => true) (by omega), hdata, map_range'_const, overwrite_all hs.1, overwrite_all (by simp [hs])]
  · exact intLoop_of_le _ _ (by omega) (by omega)

theorem toInt_ofNat_eq {x : Nat} (h : x < 2 ^ 32) :
    (BitVec.ofNat 32 x).toInt = if x < 2 ^ 31 then (x : Int) else x - 2 ^ 32 := by
  rw [BitVec.toInt_eq_toNat_cond, BitVec.toNat_ofNat, Nat.mod_eq_of_lt h]
  split <;> split <;> omega

/-- The bytes of a packet below `2 ^ 31` are marked. -/
theorem markDone_eq {readsDone : List Bool} {off size : Nat} (h : off + size ≤ readsDone.length)
    (hlt : off + size < 2 ^ 31) :
    markDone readsDone off size = some (overwrite readsDone off (List.replicate size true)) := by
  have hoff : off < 2 ^ 31 := by omega
  have hint : (BitVec.ofNat 32 off).toInt = off := by rw [toInt_ofNat_eq (by omega), if_pos hoff]
  unfold markDone
  rw [hint, if_neg (by omega), Int.toNat_natCast, Nat.add_sub_cancel_left, intLoop_of_lt _ _ hlt,
    foldl_set (fun _ => true) h, map_range'_const]

/-- **The size of a packet is right**, except when the line ends `2 ^ 31` bytes further on. -/
theorem chunkInt_eq_iff (hpos : 0 < line) (hline : line < 2 ^ 32) (current : Word) {left : Nat} (hlt : left < 2 ^ 31) :
    chunkInt line current left = some (chunk line current left : Int) ↔ lineEnd line current ≠ 2 ^ 31 := by
  have hend := lineEnd_pos hpos current
  have hle := lineEnd_le line current
  rw [chunk_eq]
  unfold chunkInt
  rw [toInt_ofNat_eq (by omega), toInt_ofNat_eq (by omega), if_pos hlt]
  by_cases hsmall : lineEnd line current < 2 ^ 31
  · have hbound : (BitVec.ofInt 64 ((lineEnd line current : Int) - 1)).toNat = lineEnd line current - 1 := by
      rw [BitVec.toNat_ofInt]
      omega
    rw [if_pos hsmall, if_neg (by omega), hbound]
    refine ⟨fun _ => by omega, fun _ => ?_⟩
    split <;> rfl
  · rw [if_neg hsmall]
    by_cases hedge : lineEnd line current = 2 ^ 31
    · rw [if_pos (by omega)]
      exact ⟨fun h => (Option.some_ne_none _ h.symm).elim, fun h => absurd hedge h⟩
    · -- `size` is negative, and its predecessor larger than any rest
      have hbound : (BitVec.ofInt 64 ((lineEnd line current : Int) - 2 ^ 32 - 1)).toNat ≥ 2 ^ 31 := by
        rw [BitVec.toNat_ofInt]
        omega
      rw [if_neg (by omega), if_neg (by omega), if_neg (by omega)]
      exact ⟨fun _ => hedge, fun _ => rfl⟩

end Salam.Comm
