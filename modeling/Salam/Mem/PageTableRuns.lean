import Salam.Lib.Radix
import Salam.Mem.PageTable

/-!
# The pages in the tables are the pages of the map

The entries of a page table are cells (`cell`), the word of which is read as a pointer to the next table (`next`) or as
the entry of a page (`leaf`); so the tables are a `Radix.Tree`, the path of a page is that of its virtual address, and
what a walk finds is `Radix.find`.

* `Grown`, `walkFrom_grown`: a walk that allocates tables finds an entry, and changes nothing that is found.
* `mapPage_spec`, `remapPage_spec`, `unmapPage_spec`: one page in the tables.
* `page_tables_agree`: in every run, both page tables have the same pages.
-/

namespace Salam.Mem

open Function (update_of_ne update_self update_apply update)

open Base (Addr)
open Base.Bitfield (mask bits insertBits getLsbD_mask getLsbD_bits getLsbD_insertBits_to)
open PageTable (Err offsets)

/-! ## Fields -/

namespace EmulationPageTable

theorem toNat_pageAlign (a : Addr) : (pageAlign a).toNat = a.toNat / 4096 * 4096 := by
  have heq : pageAlign a = (a >>> 12) <<< 12 := by
    apply BitVec.eq_of_getLsbD_eq
    intro i hi
    rw [pageAlign, offsetMask, BitVec.getLsbD_and, BitVec.getLsbD_not, getLsbD_mask (by decide),
      BitVec.getLsbD_shiftLeft, BitVec.getLsbD_ushiftRight]
    by_cases h12 : i < 12
    · simp [h12]
    · have hsub : 12 + (i - 12) = i := by omega
      simp [h12, hi, hsub]
  rw [heq, BitVec.toNat_shiftLeft, BitVec.toNat_ushiftRight, Nat.shiftRight_eq_div_pow, Nat.shiftLeft_eq,
    Nat.mod_eq_of_lt (by omega)]

theorem pageAlign_eq_iff {a b : Addr} : pageAlign a = pageAlign b ↔ a.toNat / 4096 = b.toNat / 4096 := by
  rw [← BitVec.toNat_inj, toNat_pageAlign, toNat_pageAlign]
  omega

theorem toNat_pageOffset (a : Addr) : (pageOffset a).toNat = a.toNat % 4096 := by
  have hmask : offsetMask = 4095 := by decide
  exact Nat.and_two_pow_sub_one_eq_mod _ 12

/-- The address of a page of a region is aligned. -/
theorem pageAlign_page {vaddr : Addr} {offset : Nat} (h0 : pageOffset vaddr = 0) (hoff : 4096 ∣ offset)
    (hlt : vaddr.toNat + offset < 2 ^ 48) :
    pageAlign (vaddr + BitVec.ofNat 64 offset) = vaddr + BitVec.ofNat 64 offset ∧
      (vaddr + BitVec.ofNat 64 offset).toNat = vaddr.toNat + offset := by
  have hmod : vaddr.toNat % 4096 = 0 := by rw [← toNat_pageOffset, h0]; rfl
  have hnat : (vaddr + BitVec.ofNat 64 offset).toNat = vaddr.toNat + offset := by
    rw [BitVec.toNat_add, BitVec.toNat_ofNat]
    omega
  refine ⟨?_, hnat⟩
  rw [← BitVec.toNat_inj, toNat_pageAlign, hnat]
  omega

end EmulationPageTable

open EmulationPageTable (pageAlign)

theorem toNat_bits {x : Addr} {first last : Nat} (hle : last ≤ first) (hlt : first < 64) :
    (bits x first last).toNat = x.toNat / 2 ^ last % 2 ^ (first - last + 1) := by
  have heq : bits x first last = BitVec.ofNat 64 (x.toNat / 2 ^ last % 2 ^ (first - last + 1)) := by
    apply BitVec.eq_of_getLsbD_eq
    intro i hi
    have hbelow : decide (i ≤ first - last) = decide (i < first - last + 1) := decide_eq_decide.mpr Nat.lt_succ_iff.symm
    rw [getLsbD_bits hle hlt, hbelow, BitVec.getLsbD_ofNat, Nat.testBit_mod_two_pow, Nat.testBit_div_two_pow,
      Nat.add_comm i last]
    simp [hi, BitVec.getLsbD]
  have hpow : 2 ^ (first - last + 1) ≤ 2 ^ 64 := Nat.pow_le_pow_right (by decide) (by omega)
  rw [heq, BitVec.toNat_ofNat, Nat.mod_eq_of_lt ((Nat.mod_lt _ (Nat.two_pow_pos _)).trans_le hpow)]

theorem bits_bit_eq_zero {x : Addr} {b : Nat} (hb : b < 64) : bits x b b = 0 ↔ x.getLsbD b = false := by
  have hbit : ∀ i, (bits x b b).getLsbD i = (decide (i = 0) && x.getLsbD b) := by
    intro i
    rw [getLsbD_bits le_rfl hb, Nat.sub_self]
    by_cases hi : i = 0
    · simp [hi]
    · simp [hi]
  constructor
  · intro h
    have := hbit 0
    rw [h] at this
    simpa using this.symm
  · intro h
    apply BitVec.eq_of_getLsbD_eq
    intro i _
    rw [hbit, h]
    simp

theorem decide_bits {x : Addr} {b : Nat} (hb : b < 64) : decide (bits x b b = 0) = !x.getLsbD b := by
  cases h : x.getLsbD b with
  | false => exact decide_eq_true ((bits_bit_eq_zero hb).mpr h)
  | true =>
    apply decide_eq_false
    rw [bits_bit_eq_zero hb, h]
    decide

namespace LongModePTE

variable {e : LongModePTE} {a : Addr} {p u r : Bool}

theorem present_eq : e.present = e.pte.getLsbD 0 := by
  rw [present, decide_not, decide_bits (by decide), Bool.not_not]

theorem uncacheable_eq : e.uncacheable = e.pte.getLsbD 4 := by
  rw [uncacheable, decide_not, decide_bits (by decide), Bool.not_not]

theorem readonly_eq : e.readonly = !e.pte.getLsbD 1 := by
  rw [readonly, decide_bits (by decide)]

theorem getLsbD_paddr {i : Nat} : e.paddr.getLsbD i = (decide (12 ≤ i ∧ i ≤ 51) && e.pte.getLsbD i) := by
  rw [paddr, BitVec.getLsbD_shiftLeft, getLsbD_bits (by decide) (by decide)]
  by_cases hi : 12 ≤ i ∧ i ≤ 51
  · have h1 : i < 64 := by omega
    have h2 : ¬ i < 12 := by omega
    have h3 : i - 12 ≤ 51 - 12 := by omega
    have h4 : 12 + (i - 12) = i := by omega
    simp [hi, h1, h2, h3, h4]
  · by_cases h12 : i < 12
    · simp [h12]
    · have h3 : ¬ i - 12 ≤ 51 - 12 := by omega
      simp [hi, h3]

theorem paddr_lt : e.paddr.toNat < 2 ^ 52 := by
  apply Nat.lt_pow_two_of_testBit
  intro i hi
  have hin : ¬ (12 ≤ i ∧ i ≤ 51) := by omega
  have hbit := e.getLsbD_paddr (i := i)
  rw [decide_eq_false hin, Bool.false_and] at hbit
  exact hbit

theorem pageAlign_paddr : pageAlign e.paddr = e.paddr := by
  apply BitVec.eq_of_getLsbD_eq
  intro i hi
  rw [pageAlign, EmulationPageTable.offsetMask, BitVec.getLsbD_and, BitVec.getLsbD_not, getLsbD_mask (by decide),
    getLsbD_paddr]
  by_cases h12 : i < 12
  · have : ¬ 12 ≤ i := by omega
    simp [this]
  · simp [h12, hi]

theorem present_reset : (e.reset a p u r).present = p := by
  rw [present_eq]
  simp (disch := decide) only [reset, setReadonly, setUncacheable, setPresent, getLsbD_insertBits_to]
  cases p <;> simp

theorem uncacheable_reset : (e.reset a p u r).uncacheable = u := by
  rw [uncacheable_eq]
  simp (disch := decide) only [reset, setReadonly, setUncacheable, setPresent, getLsbD_insertBits_to]
  cases u <;> simp

theorem readonly_reset : (e.reset a p u r).readonly = r := by
  rw [readonly_eq]
  simp (disch := decide) only [reset, setReadonly, getLsbD_insertBits_to]
  cases r <;> simp

/-- The page of the address that is put into an entry. -/
theorem paddr_reset (ha : a.toNat < 2 ^ 52) : (e.reset a p u r).paddr = pageAlign a := by
  apply BitVec.eq_of_getLsbD_eq
  intro i hi
  rw [getLsbD_paddr, pageAlign, EmulationPageTable.offsetMask, BitVec.getLsbD_and, BitVec.getLsbD_not,
    getLsbD_mask (by decide)]
  simp (disch := decide) only [reset, setReadonly, setUncacheable, setPresent, setPaddr, getLsbD_insertBits_to,
    BitVec.getLsbD_ushiftRight]
  by_cases hin : 12 ≤ i ∧ i ≤ 51
  · have h1 : ¬ (1 ≤ i ∧ i ≤ 1) := by omega
    have h4 : ¬ (4 ≤ i ∧ i ≤ 4) := by omega
    have h0 : ¬ i ≤ 0 := by omega
    have h12 : ¬ i < 12 := by omega
    have hsub : 12 + (i - 12) = i := by omega
    simp [hin, h1, h4, h0, h12, hi, hsub]
  · by_cases h12 : i < 12
    · have : ¬ 12 ≤ i := by omega
      simp [h12, this]
    · have hbit : a.getLsbD i = false := by
        exact Nat.testBit_lt_two_pow (ha.trans_le (Nat.pow_le_pow_right (by decide) (by omega)))
      simp [hin, hbit]

/-- The page of an entry stays when it is no longer present. -/
theorem fields_setPresent : (e.setPresent p).present = p ∧ (e.setPresent p).paddr = e.paddr ∧
    (e.setPresent p).uncacheable = e.uncacheable ∧ (e.setPresent p).readonly = e.readonly := by
  have hbit : ∀ i, (e.setPresent p).pte.getLsbD i = if i = 0 then p else e.pte.getLsbD i := by
    intro i
    simp (disch := decide) only [setPresent, getLsbD_insertBits_to]
    by_cases hi : i = 0
    · subst hi
      cases p <;> simp
    · simp [hi]
  refine ⟨?_, ?_, ?_, ?_⟩
  · rw [present_eq, hbit, if_pos rfl]
  · apply BitVec.eq_of_getLsbD_eq
    intro i _
    rw [getLsbD_paddr, getLsbD_paddr, hbit]
    by_cases hi : i = 0
    · simp [hi]
    · simp [hi]
  · rw [uncacheable_eq, uncacheable_eq, hbit, if_neg (by decide)]
  · rw [readonly_eq, readonly_eq, hbit, if_neg (by decide)]

end LongModePTE

/-! ## The tables as a tree -/

namespace MultiLevelPageTable

/-- The entry of a virtual address in its table. -/
def index (l : Level) (vaddr : Addr) : Fin 512 := ⟨vaddr.toNat / 2 ^ l.last % 512, Nat.mod_lt _ (by decide)⟩

/-- The address of an entry. -/
def cell (t : Addr) (i : Fin 512) : Addr := t + BitVec.ofNat 64 (8 * i.1)

/-- The entries that the levels before the last one are walked through. -/
def inner (first : Level) : List Level → Addr → List (Fin 512)
  | [], _ => []
  | second :: rest, vaddr => index first vaddr :: inner second rest vaddr

def final (first : Level) : List Level → Level
  | [] => first
  | second :: rest => final second rest

def entry (p : Addr → Addr) (t : Addr) (i : Fin 512) : LongModePTE := ⟨p (cell t i), cell t i⟩

def next (p : Addr → Addr) (t : Addr) (i : Fin 512) : Option Addr :=
  if (entry p t i).present then some (entry p t i).paddr else none

def leaf (p : Addr → Addr) (t : Addr) (i : Fin 512) : Option LongModePTE :=
  if (entry p t i).present then some (entry p t i) else none

/-- A walk that finds an entry that is present. -/
def found {S : Type} : Except Err (LongModePTE × S) → Option LongModePTE
  | .ok (e, _) => if e.present then some e else none
  | .error _ => none

/-- A page-aligned address below `2 ^ 52`. -/
def Aligned (t : Addr) : Prop := t.toNat % 4096 = 0 ∧ t.toNat < 2 ^ 52

section Cells

variable {l : Level} {p : Addr → Addr} {t u f vaddr : Addr} {i j : Fin 512} {w : Addr}

theorem read_eq : LongModePTE.read l p t vaddr = entry p t (index l vaddr) := by
  have hbits : (bits vaddr l.first l.last * 8).toNat = 8 * (index l vaddr).1 := by
    have hb := toNat_bits (x := vaddr) (l.width ▸ Nat.le_add_right _ _ : l.last ≤ l.first) l.first_lt
    have hw : l.first - l.last + 1 = 9 := by
      have := l.width
      omega
    rw [hw] at hb
    have hi : (bits vaddr l.first l.last).toNat = (index l vaddr).1 := hb
    have h8 : BitVec.toNat (8 : Addr) = 8 := rfl
    rw [BitVec.toNat_mul, hi, h8]
    omega
  have hcell : t + bits vaddr l.first l.last * 8 = cell t (index l vaddr) := by
    rw [cell, ← hbits, BitVec.ofNat_toNat, BitVec.setWidth_eq]
  rw [LongModePTE.read, hcell]
  rfl

theorem toNat_cell (ht : Aligned t) : (cell t i).toNat = t.toNat + 8 * i.1 := by
  have hlt := ht.2
  rw [cell, BitVec.toNat_add, BitVec.toNat_ofNat]
  omega

theorem cell_inj (ht : Aligned t) (hu : Aligned u) (h : cell t i = cell u j) : t = u ∧ i = j := by
  have h' := congrArg BitVec.toNat h
  rw [toNat_cell ht, toNat_cell hu] at h'
  have h₁ := ht.1
  have h₂ := hu.1
  constructor
  · apply BitVec.eq_of_toNat_eq
    omega
  · apply Fin.ext
    omega

theorem entry_update (ht : Aligned t) (hu : Aligned u) :
    entry (update p (cell t i) w) u j = if (u, j) = (t, i) then ⟨w, cell t i⟩ else entry p u j := by
  by_cases h : (u, j) = (t, i)
  · obtain ⟨rfl, rfl⟩ := Prod.mk.inj h
    rw [if_pos rfl, entry, update_self]
  · rw [if_neg h, entry, update_of_ne, entry]
    rintro heq
    obtain ⟨rfl, rfl⟩ := cell_inj hu ht heq
    exact h rfl

/-- The page of a new table is cleared, and no other. -/
theorem entry_clear (hf : Aligned f) (hu : Aligned u) :
    entry (clear p f 4096) u j = if u = f then ⟨0, cell f j⟩ else entry p u j := by
  by_cases h : u = f
  · subst h
    rw [if_pos rfl, entry, clear, if_pos]
    rw [toNat_cell hu]
    omega
  · rw [if_neg h, entry, clear, if_neg]
    · rfl
    · rw [toNat_cell hu]
      have h₁ := hf.1
      have h₂ := hu.1
      have hne : u.toNat ≠ f.toNat := fun heq => h (BitVec.eq_of_toNat_eq heq)
      omega

theorem not_present_zero {a : Addr} : LongModePTE.present ⟨0, a⟩ = false := by
  rw [LongModePTE.present_eq]
  exact BitVec.getLsbD_zero

end Cells

/-! ## Walks -/

/-- The tables of the last level are three tables away from the root. -/
structure Rep (s : MultiLevelPageTable) (path : Addr → Option (List (Fin 512))) : Prop where
  tree : Radix.Tree (next s.physProxy) path 3 s.basePtr
  pages : ∀ {t p}, path t = some p → t ∈ s.pages
  aligned : ∀ {t p}, path t = some p → Aligned t

/-- Tables are added that nothing is found in. -/
structure Grown (s s' : MultiLevelPageTable) (path path' : Addr → Option (List (Fin 512))) : Prop where
  rep : Rep s' path'
  pTable : s'.pTable = s.pTable
  basePtr : s'.basePtr = s.basePtr
  paths : ∀ {t p}, path t = some p → path' t = some p
  links : ∀ {t p i u}, path t = some p → p.length < 3 → next s.physProxy t i = some u → next s'.physProxy t i = some u
  same : ∀ {is i}, is.length = 3 → Radix.find (next s'.physProxy) (leaf s'.physProxy) s.basePtr is i =
    Radix.find (next s.physProxy) (leaf s.physProxy) s.basePtr is i

section Walks

variable {A : PhysPages} {s s' s'' : MultiLevelPageTable} {path path' path'' : Addr → Option (List (Fin 512))}
  {first : Level} {rest : List Level} {t f vaddr : Addr} {p : List (Fin 512)} {i : Fin 512} {e : LongModePTE}

theorem Grown.refl (h : Rep s path) : Grown s s path path := ⟨h, rfl, rfl, id, fun _ _ => id, fun _ => rfl⟩

theorem Grown.trans (h₁ : Grown s s' path path') (h₂ : Grown s' s'' path' path'') : Grown s s'' path path'' := by
  constructor
  · exact h₂.rep
  · exact h₂.pTable.trans h₁.pTable
  · exact h₂.basePtr.trans h₁.basePtr
  · exact fun ht => h₂.paths (h₁.paths ht)
  · exact fun ht hlt hn => h₂.links (h₁.paths ht) hlt (h₁.links ht hlt hn)
  · intro is i hlen
    have := h₂.same (i := i) hlen
    rw [h₁.basePtr] at this
    exact this.trans (h₁.same hlen)

/-- A walk without allocation follows the path of the address. -/
theorem found_walkFrom : found (walkFrom A first rest t vaddr false s) =
    Radix.find (next s.physProxy) (leaf s.physProxy) t (inner first rest vaddr) (index (final first rest) vaddr) := by
  induction rest generalizing first t with
  | nil =>
    rw [walkFrom, read_eq]
    rfl
  | cons second rest ih =>
    rw [walkFrom, read_eq, inner, Radix.find, Radix.follow, next]
    by_cases hp : (entry s.physProxy t (index first vaddr)).present = true
    · rw [if_pos hp, if_pos hp, ih]
      rfl
    · rw [if_neg hp, if_neg hp]
      rfl

/-- The entry that a walk without allocation ends at. -/
theorem walkFrom_false (h : walkFrom A first rest t vaddr false s = .ok (e, s')) : s' = s ∧
    ∃ u, Radix.follow (next s.physProxy) t (inner first rest vaddr) = some u ∧
      e = entry s.physProxy u (index (final first rest) vaddr) := by
  induction rest generalizing first t with
  | nil =>
    rw [walkFrom, read_eq] at h
    obtain ⟨rfl, rfl⟩ := Prod.mk.inj (Except.ok.inj h)
    exact ⟨rfl, t, rfl, rfl⟩
  | cons second rest ih =>
    rw [walkFrom, read_eq] at h
    by_cases hp : (entry s.physProxy t (index first vaddr)).present = true
    · simp only [if_pos hp] at h
      obtain ⟨hs, u, hu, he⟩ := ih h
      refine ⟨hs, u, ?_, he⟩
      rw [inner, Radix.follow, next, if_pos hp]
      exact hu
    · simp only [if_neg hp] at h
      cases h

/-- A table is allocated for an entry that is not present. -/
theorem grown_alloc (h : Rep s path) (ht : path t = some p) (hlt : p.length < 3) (hnext : next s.physProxy t i = none)
    (hf : A.allocPhysPages s.pages = some f) :
    Grown s (write { s with physProxy := clear s.physProxy f 4096, pages := f :: s.pages }
      ((entry s.physProxy t i).reset f true false false)) path (update path f (some (p ++ [i]))) ∧
      next (write { s with physProxy := clear s.physProxy f 4096, pages := f :: s.pages }
        ((entry s.physProxy t i).reset f true false false)).physProxy t i = some f := by
  have hfa : Aligned f := ⟨A.aligned hf, A.lt hf⟩
  have hnew : path f = none := by
    cases hpf : path f with
    | none => rfl
    | some q => exact absurd (h.pages hpf) (A.fresh hf)
  have hne : ∀ {u q}, path u = some q → u ≠ f := by
    rintro u q hu rfl
    rw [hnew] at hu
    cases hu
  have hta := h.aligned ht
  -- the entries of the tables afterwards
  have hentry : ∀ u j, Aligned u → entry (update (clear s.physProxy f 4096) (cell t i)
      ((entry s.physProxy t i).reset f true false false).pte) u j =
        if (u, j) = (t, i) then (entry s.physProxy t i).reset f true false false
        else if u = f then ⟨0, cell f j⟩ else entry s.physProxy u j := by
    intro u j hu
    rw [entry_update hta hu, entry_clear hfa hu]
    rfl
  have hself : next (update (clear s.physProxy f 4096) (cell t i)
      ((entry s.physProxy t i).reset f true false false).pte) t i = some f := by
    rw [next, hentry t i hta, if_pos rfl, LongModePTE.present_reset, if_pos rfl, LongModePTE.paddr_reset hfa.2]
    have := hfa.1
    congr 1
    rw [← BitVec.toNat_inj, EmulationPageTable.toNat_pageAlign]
    omega
  have hzero : ∀ j, entry (update (clear s.physProxy f 4096) (cell t i)
      ((entry s.physProxy t i).reset f true false false).pte) f j = ⟨0, cell f j⟩ := by
    intro j
    have hcell : (f, j) ≠ (t, i) := fun heq => hne ht (Prod.mk.inj heq).1.symm
    rw [hentry f j hfa, if_neg hcell, if_pos rfl]
  have hempty : ∀ j, next (update (clear s.physProxy f 4096) (cell t i)
      ((entry s.physProxy t i).reset f true false false).pte) f j = none := by
    intro j
    rw [next, hzero, not_present_zero]
    rfl
  have hnone : ∀ j, leaf (update (clear s.physProxy f 4096) (cell t i)
      ((entry s.physProxy t i).reset f true false false).pte) f j = none := by
    intro j
    rw [leaf, hzero, not_present_zero]
    rfl
  have hsame : ∀ u j q, path u = some q → (u, j) ≠ (t, i) → entry (update (clear s.physProxy f 4096) (cell t i)
      ((entry s.physProxy t i).reset f true false false).pte) u j = entry s.physProxy u j := by
    intro u j q hu hcell
    rw [hentry u j (h.aligned hu), if_neg hcell, if_neg (hne hu)]
  have hother : ∀ u j q, path u = some q → q.length < 3 → (u, j) ≠ (t, i) →
      next (update (clear s.physProxy f 4096) (cell t i)
        ((entry s.physProxy t i).reset f true false false).pte) u j = next s.physProxy u j := by
    intro u j q hu _ hcell
    rw [next, next, hsame u j q hu hcell]
  have hleaf : ∀ u j q, path u = some q → q.length = 3 → leaf (update (clear s.physProxy f 4096) (cell t i)
      ((entry s.physProxy t i).reset f true false false).pte) u j = leaf s.physProxy u j := by
    intro u j q hu hq
    have hcell : (u, j) ≠ (t, i) := by
      rintro heq
      obtain ⟨rfl, rfl⟩ := Prod.mk.inj heq
      rw [Option.some.inj (ht.symm.trans hu)] at hlt
      omega
    rw [leaf, leaf, hsame u j q hu hcell]
  refine ⟨⟨⟨h.tree.link ht hnew hself hempty hother, ?_, ?_⟩, rfl, rfl, ?_, ?_, ?_⟩, hself⟩
  · intro u q hu
    by_cases huf : u = f
    · rw [huf]
      exact List.mem_cons_self
    · rw [update_of_ne huf] at hu
      exact List.mem_cons_of_mem _ (h.pages hu)
  · intro u q hu
    by_cases huf : u = f
    · rw [huf]
      exact hfa
    · rw [update_of_ne huf] at hu
      exact h.aligned hu
  · intro u q hu
    rw [update_of_ne (hne hu)]
    exact hu
  · intro u q j v hu hq hn
    have hcell : (u, j) ≠ (t, i) := by
      rintro heq
      obtain ⟨rfl, rfl⟩ := Prod.mk.inj heq
      rw [hnext] at hn
      cases hn
    exact (hother u j q hu hq hcell).trans hn
  · intro is j hlen
    exact Radix.find_link h.tree hnext hself hempty hnone hother hleaf h.tree.root (by simpa using hlen)

/-- **A walk that allocates**: the tables grow, and the entry at the end of the path is read. -/
theorem walkFrom_grown (h : Rep s path) (ht : path t = some p) (hlen : p.length + rest.length = 3)
    (hwidth : ∀ l ∈ rest, LongModePTE.tableSize l = 1)
    (hok : walkFrom A first rest t vaddr true s = .ok (e, s')) :
    ∃ path', Grown s s' path path' ∧ ∃ u, Radix.follow (next s'.physProxy) t (inner first rest vaddr) = some u ∧
      e = entry s'.physProxy u (index (final first rest) vaddr) := by
  induction rest generalizing first s t p path with
  | nil =>
    rw [walkFrom, read_eq] at hok
    obtain ⟨rfl, rfl⟩ := Prod.mk.inj (Except.ok.inj hok)
    exact ⟨path, .refl h, t, rfl, rfl⟩
  | cons second rest ih =>
    have hlt : p.length < 3 := by
      simp only [List.length_cons] at hlen
      omega
    have hlen' : (p ++ [index first vaddr]).length + rest.length = 3 := by
      simp only [List.length_append, List.length_cons, List.length_nil] at hlen ⊢
      omega
    have hwidth' : ∀ l ∈ rest, LongModePTE.tableSize l = 1 := fun l hl => hwidth l (List.mem_cons_of_mem _ hl)
    rw [walkFrom, read_eq] at hok
    by_cases hp : (entry s.physProxy t (index first vaddr)).present = true
    · simp only [if_pos hp] at hok
      have hnext : next s.physProxy t (index first vaddr) = some (entry s.physProxy t (index first vaddr)).paddr :=
        if_pos hp
      obtain ⟨path', hgrown, u, hu, he⟩ := ih h (h.tree.child ht hlt hnext) hlen' hwidth' hok
      refine ⟨path', hgrown, u, ?_, he⟩
      rw [inner, Radix.follow, hgrown.links ht hlt hnext]
      exact hu
    · have hnext : next s.physProxy t (index first vaddr) = none := if_neg hp
      simp only [if_neg hp, if_true] at hok
      obtain ⟨⟨f, s₁⟩, hprep, hok⟩ := ok_of_bind hok
      rw [prepTopTable] at hprep
      cases hf : A.allocPhysPages s.pages with
      | none =>
        rw [hf] at hprep
        cases hprep
      | some f' =>
        rw [hf, hwidth second List.mem_cons_self, Nat.one_mul] at hprep
        obtain ⟨rfl, rfl⟩ := Prod.mk.inj (Except.ok.inj hprep)
        obtain ⟨hgrown, hself⟩ := grown_alloc h ht hlt hnext hf
        have hpath : update path f' (some (p ++ [index first vaddr])) f' = some (p ++ [index first vaddr]) :=
          update_self ..
        obtain ⟨path', hgrown', u, hu, he⟩ := ih hgrown.rep hpath hlen' hwidth' hok
        refine ⟨path', hgrown.trans hgrown', u, ?_, he⟩
        rw [inner, Radix.follow, hgrown'.links (hgrown.paths ht) hlt hself]
        exact hu

/-- An entry of a table of the last level is written. -/
theorem Rep.write_leaf (h : Rep s path) (hp : p.length = 3)
    (hf : Radix.follow (next s.physProxy) s.basePtr p = some t) (he : e.entryAddr = cell t i) :
    Rep (s.write e) path ∧ ∀ is j, is.length = 3 →
      Radix.find (next (s.write e).physProxy) (leaf (s.write e).physProxy) s.basePtr is j =
        if (is, j) = (p, i) then (if e.present then some e else none)
        else Radix.find (next s.physProxy) (leaf s.physProxy) s.basePtr is j := by
  have ht : path t = some p := h.tree.follow_path h.tree.root hp.le hf
  have hta := h.aligned ht
  have hentry : ∀ u j, Aligned u → entry (s.write e).physProxy u j = if (u, j) = (t, i) then e
    else entry s.physProxy u j := by
    intro u j hu
    rw [write, he, entry_update hta hu, ← he]
  have hother : ∀ u j q, path u = some q → q.length < 3 → next (s.write e).physProxy u j = next s.physProxy u j := by
    intro u j q hu hq
    have hcell : (u, j) ≠ (t, i) := by
      rintro heq
      obtain ⟨rfl, rfl⟩ := Prod.mk.inj heq
      rw [Option.some.inj (hu.symm.trans ht)] at hq
      omega
    rw [next, next, hentry u j (h.aligned hu), if_neg hcell]
  have hleaf : ∀ u k q, path u = some q → q.length = 3 → (u, k) ≠ (t, i) →
      leaf (s.write e).physProxy u k = leaf s.physProxy u k := by
    intro u k q hu _ hcell
    rw [leaf, leaf, hentry u k (h.aligned hu), if_neg hcell]
  refine ⟨⟨⟨h.tree.root, ?_⟩, h.pages, h.aligned⟩, ?_⟩
  · intro u q k v hu hq hn
    exact h.tree.child hu hq ((hother u k q hu hq).symm.trans hn)
  · intro is j his
    rw [h.tree.find_write hp hf hother hleaf his]
    rw [leaf, hentry t i hta, if_pos rfl]

end Walks

/-! ## Pages -/

/-- What a page is mapped to: its page, and whether it is uncacheable and read-only. -/
def attrs (e : LongModePTE) : Addr × Bool × Bool := (e.paddr, e.uncacheable, e.readonly)

/-- The same of an entry of the map. -/
def pageAttrs (e : EmulationPageTable.Entry) : Addr × Bool × Bool :=
  (pageAlign e.paddr, e.flags &&& EmulationPageTable.Uncacheable ≠ 0, e.flags &&& EmulationPageTable.ReadOnly ≠ 0)

/-- The page of an address in the tables. -/
def look (A : PhysPages) (s : MultiLevelPageTable) (v : Addr) : Option (Addr × Bool × Bool) :=
  (found (s.walk A v false)).map attrs

section Pages

variable {A : PhysPages} {s s' : MultiLevelPageTable} {path path' : Addr → Option (List (Fin 512))} {v w w' : Addr}
  {e : LongModePTE} {t : Addr}

/-- The entry of an address in the table at the end of its path. -/
def last (v : Addr) : Fin 512 := index (final top lower) v

theorem length_inner : (inner top lower v).length = 3 := rfl

/-- The addresses of one page are those with one path. -/
theorem path_eq_iff (hv : v.toNat < 2 ^ 48) (hw : w.toNat < 2 ^ 48) :
    (inner top lower v, last v) = (inner top lower w, last w) ↔ pageAlign v = pageAlign w := by
  rw [EmulationPageTable.pageAlign_eq_iff]
  simp only [inner, top, lower, last, final, index, Prod.mk.injEq, List.cons.injEq, Fin.mk.injEq, and_true]
  constructor
  · rintro ⟨⟨h₁, h₂, h₃⟩, h₄⟩
    omega
  · intro h
    omega

theorem look_eq : look A s v =
    (Radix.find (next s.physProxy) (leaf s.physProxy) s.basePtr (inner top lower v) (last v)).map attrs := by
  rw [look, walk, found_walkFrom]
  rfl

theorem look_of_follow (hf : Radix.follow (next s.physProxy) s.basePtr (inner top lower v) = some t) : look A s v =
    if (entry s.physProxy t (last v)).present then some (attrs (entry s.physProxy t (last v))) else none := by
  rw [look_eq, Radix.find, hf, Option.bind_some, leaf]
  split <;> rfl

theorem Grown.look_eq (h : Grown s s' path path') : look A s' v = look A s v := by
  rw [MultiLevelPageTable.look_eq, MultiLevelPageTable.look_eq, h.basePtr, h.same length_inner]

theorem Rep.look_write (h : Rep s path)
    (hf : Radix.follow (next s.physProxy) s.basePtr (inner top lower w) = some t) (he : e.entryAddr = cell t (last w))
    (hw : w.toNat < 2 ^ 48) (hv : v.toNat < 2 ^ 48) : look A (s.write e) v =
      if pageAlign v = pageAlign w then (if e.present then some (attrs e) else none) else look A s v := by
  have hbase : (s.write e).basePtr = s.basePtr := rfl
  rw [look_eq, look_eq, hbase, (h.write_leaf length_inner hf he).2 _ _ length_inner]
  by_cases hvw : pageAlign v = pageAlign w
  · rw [if_pos ((path_eq_iff hv hw).mpr hvw), if_pos hvw]
    split <;> rfl
  · rw [if_neg (fun heq => hvw ((path_eq_iff hv hw).mp heq)), if_neg hvw]

theorem mapPage_spec {paddr flags : Addr} (h : Rep s path) (hw : w.toNat < 2 ^ 48) (hp : paddr.toNat < 2 ^ 52)
    (hok : s.mapPage A w paddr flags = .ok s') : s'.pTable = s.pTable ∧ (∃ path', Rep s' path') ∧
      ∀ v : Addr, v.toNat < 2 ^ 48 → look A s' v =
        if pageAlign v = pageAlign w then some (pageAttrs ⟨paddr, flags⟩) else look A s v := by
  obtain ⟨⟨e, s₁⟩, hwalk, hok⟩ := ok_of_bind hok
  obtain rfl := Except.ok.inj hok
  obtain ⟨path₁, hgrown, u, hu, rfl⟩ := walkFrom_grown h h.tree.root rfl (by decide) hwalk
  rw [← hgrown.basePtr] at hu
  refine ⟨hgrown.pTable, ⟨path₁, (hgrown.rep.write_leaf length_inner hu rfl).1⟩, fun v hv => ?_⟩
  rw [hgrown.rep.look_write hu rfl hw hv, hgrown.look_eq, LongModePTE.present_reset, if_pos rfl, attrs,
    LongModePTE.paddr_reset hp, LongModePTE.uncacheable_reset, LongModePTE.readonly_reset]
  rfl

theorem unmapPage_spec (h : Rep s path) (hw : w.toNat < 2 ^ 48) (hok : s.unmapPage A w = .ok s') :
    s'.pTable = s.pTable ∧ (∃ path', Rep s' path') ∧ ∀ v : Addr, v.toNat < 2 ^ 48 → look A s' v =
      if pageAlign v = pageAlign w then none else look A s v := by
  obtain ⟨⟨e, s₁⟩, hwalk, hrest⟩ := ok_of_bind hok
  obtain ⟨rfl, u, hu, he⟩ := walkFrom_false hwalk
  have hend : s₁.write (e.setPresent false) = s' := by
    cases hp : e.present with
    | false =>
      simp only [hp] at hrest
      cases hrest
    | true =>
      simp only [hp] at hrest
      exact Except.ok.inj hrest
  have haddr : (e.setPresent false).entryAddr = cell u (last w) := by rw [he]; rfl
  rw [← hend]
  refine ⟨rfl, ⟨path, (h.write_leaf length_inner hu haddr).1⟩, fun v hv => ?_⟩
  rw [h.look_write hu haddr hw hv, LongModePTE.fields_setPresent.1]
  rfl

/-- A page is moved: it is found at its new address only. -/
theorem remapPage_spec (h : Rep s path) (hw : w.toNat < 2 ^ 48) (hw' : w'.toNat < 2 ^ 48)
    (hne : pageAlign w ≠ pageAlign w')
    {x : Addr × Bool × Bool} (hx : look A s w = some x)
    (hok : s.remapPage A w w' = .ok s') : s'.pTable = s.pTable ∧ (∃ path', Rep s' path') ∧
      ∀ v : Addr, v.toNat < 2 ^ 48 → look A s' v =
        if pageAlign v = pageAlign w then none else if pageAlign v = pageAlign w' then some x else look A s v := by
  obtain ⟨⟨e, s₁⟩, hwalk, hrest⟩ := ok_of_bind hok
  obtain ⟨⟨e', s₂⟩, hwalk', hend⟩ := ok_of_bind hrest
  obtain ⟨rfl, u, hu, he⟩ := walkFrom_false hwalk
  rw [← Except.ok.inj hend]
  have haddr : (e.setPresent false).entryAddr = cell u (last w) := by rw [he]; rfl
  obtain ⟨hrep, -⟩ := h.write_leaf length_inner hu haddr
  obtain ⟨path₂, hgrown, u', hu', he'⟩ := walkFrom_grown hrep hrep.tree.root rfl (by decide) hwalk'
  have haddr' : (e'.reset (e.setPresent false).paddr true (e.setPresent false).uncacheable
      (e.setPresent false).readonly).entryAddr = cell u' (last w') := by rw [he']; rfl
  have hu₂ : Radix.follow (next s₂.physProxy) s₂.basePtr (inner top lower w') = some u' := by
    rw [hgrown.basePtr]
    exact hu'
  obtain ⟨-, hpaddr, huncacheable, hreadonly⟩ := e.fields_setPresent (p := false)
  have hattrs : attrs e = x := by
    have he' : entry s₁.physProxy u (last w) = e := he.symm
    rw [look_of_follow hu, he'] at hx
    split at hx
    · exact Option.some.inj hx
    · cases hx
  have hlt : e.paddr.toNat < 2 ^ 52 := LongModePTE.paddr_lt
  refine ⟨hgrown.pTable, ⟨path₂, (hgrown.rep.write_leaf length_inner hu₂ haddr').1⟩, fun v hv => ?_⟩
  rw [hgrown.rep.look_write hu₂ haddr' hw' hv, hgrown.look_eq, h.look_write hu haddr hw hv, LongModePTE.present_reset,
    if_pos rfl, LongModePTE.fields_setPresent.1, ← hattrs]
  have hnew : attrs (e'.reset (e.setPresent false).paddr true (e.setPresent false).uncacheable
      (e.setPresent false).readonly) = attrs e := by
    rw [attrs, LongModePTE.uncacheable_reset, LongModePTE.readonly_reset, hpaddr, huncacheable, hreadonly,
      LongModePTE.paddr_reset hlt, LongModePTE.pageAlign_paddr, attrs]
  rw [hnew]
  by_cases hv' : pageAlign v = pageAlign w'
  · have hvw : pageAlign v ≠ pageAlign w := fun heq => hne (heq.symm.trans hv')
    rw [if_pos hv', if_neg hvw, if_pos hv']
  · rw [if_neg hv', if_neg hv']
    rfl

end Pages

/-! ## Regions -/

/-- The pages of the map are the pages that are found in the tables. -/
structure Sim (A : PhysPages) (t : EmulationPageTable) (s : MultiLevelPageTable) : Prop where
  rep : ∃ path, Rep s path
  agree : ∀ v : Addr, v.toNat < 2 ^ 48 → look A s v = (t.lookup v).map pageAttrs

section Regions

variable {A : PhysPages} {t t' : EmulationPageTable} {s s' : MultiLevelPageTable} {vaddr paddr new_vaddr flags : Addr}
  {size : Int} {offset : Nat}

theorem lookup_update {x : Option EmulationPageTable.Entry} {w v : Addr} :
    EmulationPageTable.lookup (update t w x) v = if pageAlign v = w then x else t.lookup v := by
  rw [EmulationPageTable.lookup, update_apply]
  rfl

theorem dvd_of_mem_offsets (h : offset ∈ offsets size) : 4096 ∣ offset := by
  obtain ⟨n, -, rfl⟩ := List.mem_map.mp h
  exact Nat.dvd_mul_left _ _

theorem ok_mapPage (h : t.mapPage vaddr paddr flags = .ok t') : t' = update t vaddr (some ⟨paddr, flags⟩) := by
  rw [EmulationPageTable.mapPage] at h
  cases ht : t vaddr with
  | none =>
    simp only [ht] at h
    exact (Except.ok.inj h).symm
  | some e =>
    simp only [ht] at h
    split at h
    · cases h
    · exact (Except.ok.inj h).symm

theorem ok_remapPage (h : t.remapPage vaddr new_vaddr = .ok t') : ∃ e, t vaddr = some e ∧ t new_vaddr = none ∧
    t' = update (update t new_vaddr (some e)) vaddr none := by
  rw [EmulationPageTable.remapPage] at h
  cases ht : t vaddr with
  | none =>
    simp only [ht] at h
    cases h
  | some e =>
    cases hn : t new_vaddr with
    | none =>
      simp only [ht, hn] at h
      exact ⟨e, rfl, rfl, (Except.ok.inj h).symm⟩
    | some e' =>
      simp only [ht, hn] at h
      cases h

theorem ok_unmapPage (h : t.unmapPage vaddr = .ok t') : t' = update t vaddr none := by
  rw [EmulationPageTable.unmapPage] at h
  cases ht : t vaddr with
  | none =>
    simp only [ht] at h
    cases h
  | some e =>
    simp only [ht] at h
    exact (Except.ok.inj h).symm

section

variable (h : Sim A t s) (hw : vaddr.toNat < 2 ^ 48)
include h hw

theorem Sim.mapPage (hp : paddr.toNat < 2 ^ 52) (halign : pageAlign vaddr = vaddr)
    (ht : t.mapPage vaddr paddr flags = .ok t')
    (hs : s.mapPage A vaddr paddr flags = .ok s') : Sim A t' s' ∧ s'.pTable = s.pTable := by
  obtain ⟨path, hrep⟩ := h.rep
  obtain ⟨hpTable, hrep', hlook⟩ := mapPage_spec hrep hw hp hs
  refine ⟨⟨hrep', fun v hv => ?_⟩, hpTable⟩
  rw [hlook v hv, ok_mapPage ht, lookup_update, halign, h.agree v hv]
  split <;> rfl

theorem Sim.remapPage (hw' : new_vaddr.toNat < 2 ^ 48) (halign : pageAlign vaddr = vaddr)
    (halign' : pageAlign new_vaddr = new_vaddr) (ht : t.remapPage vaddr new_vaddr = .ok t')
    (hs : s.remapPage A vaddr new_vaddr = .ok s') : Sim A t' s' ∧ s'.pTable = s.pTable := by
  obtain ⟨path, hrep⟩ := h.rep
  obtain ⟨e, he, hn, rfl⟩ := ok_remapPage ht
  have hne : pageAlign vaddr ≠ pageAlign new_vaddr := by
    rw [halign, halign']
    rintro rfl
    rw [he] at hn
    cases hn
  have hx : look A s vaddr = some (pageAttrs e) := by
    rw [h.agree vaddr hw, EmulationPageTable.lookup, halign, he]
    rfl
  obtain ⟨hpTable, hrep', hlook⟩ := remapPage_spec hrep hw hw' hne hx hs
  refine ⟨⟨hrep', fun v hv => ?_⟩, hpTable⟩
  rw [hlook v hv, lookup_update, lookup_update, halign, halign', h.agree v hv]
  split
  · rfl
  · split <;> rfl

theorem Sim.unmapPage (halign : pageAlign vaddr = vaddr) (ht : t.unmapPage vaddr = .ok t')
    (hs : s.unmapPage A vaddr = .ok s') :
    Sim A t' s' ∧ s'.pTable = s.pTable := by
  obtain ⟨path, hrep⟩ := h.rep
  obtain ⟨hpTable, hrep', hlook⟩ := unmapPage_spec hrep hw hs
  refine ⟨⟨hrep', fun v hv => ?_⟩, hpTable⟩
  rw [hlook v hv, ok_unmapPage ht, lookup_update, halign, h.agree v hv]
  split <;> rfl

end

/-- The tables after the loop over the pages of a region: the loop over the map has ended before. -/
theorem Sim.region {f : EmulationPageTable → Nat → Except Err EmulationPageTable}
    {g : MultiLevelPageTable → Nat → Except Err MultiLevelPageTable} (h : Sim A s.pTable s)
    (hstep : ∀ offset ∈ offsets size, ∀ t s t' s', Sim A t s → f t offset = .ok t' → g s offset = .ok s' →
      Sim A t' s' ∧ s'.pTable = s.pTable)
    (ht : (offsets size).foldlM f s.pTable = .ok t') (hs : (offsets size).foldlM g { s with pTable := t' } = .ok s') :
    Sim A s'.pTable s' := by
  have hstart : Sim A s.pTable { s with pTable := t' } := by
    obtain ⟨path, hrep⟩ := h.rep
    refine ⟨⟨path, hrep.tree, hrep.pages, hrep.aligned⟩, fun v hv => ?_⟩
    rw [← h.agree v hv, look_eq, look_eq]
  obtain ⟨hsim, hpTable⟩ := foldlM_simulation (R := fun t s => Sim A t s ∧ s.pTable = t')
    (fun offset hoff t s t₁ s₁ hR ht hs => by
      obtain ⟨hsim, hpTable⟩ := hstep offset hoff t s t₁ s₁ hR.1 ht hs
      exact ⟨hsim, hpTable.trans hR.2⟩) ht hs ⟨hstart, rfl⟩
  rw [hpTable]
  exact hsim

end Regions

/-! ## Runs -/

section Runs

variable {A : PhysPages} {s s' : MultiLevelPageTable} {op : Op}

theorem Sim.exec (h : Sim A s.pTable s) (hrange : op.InRange) (hok : s.exec A op = .ok s') : Sim A s'.pTable s' := by
  cases op with
  | map vaddr paddr size flags =>
    obtain ⟨t, ht, hs⟩ := ok_of_bind hok
    obtain ⟨h0, ht⟩ := ok_of_guard ht
    refine h.region (fun offset hoff t s t' s' hsim ht hs => ?_) ht hs
    obtain ⟨hv, hp⟩ := hrange offset hoff
    obtain ⟨halign, hnat⟩ := EmulationPageTable.pageAlign_page (not_ne_iff.mp h0) (dvd_of_mem_offsets hoff) hv
    refine hsim.mapPage (hnat ▸ hv) ?_ halign ht hs
    rw [BitVec.toNat_add, BitVec.toNat_ofNat]
    omega
  | remap vaddr size new_vaddr =>
    obtain ⟨t, ht, hs⟩ := ok_of_bind hok
    obtain ⟨h0, ht⟩ := ok_of_guard ht
    obtain ⟨h0, h0'⟩ := not_or.mp h0
    refine h.region (fun offset hoff t s t' s' hsim ht hs => ?_) ht hs
    obtain ⟨hv, hv'⟩ := hrange offset hoff
    obtain ⟨halign, hnat⟩ := EmulationPageTable.pageAlign_page (not_ne_iff.mp h0) (dvd_of_mem_offsets hoff) hv
    obtain ⟨halign', hnat'⟩ := EmulationPageTable.pageAlign_page (not_ne_iff.mp h0') (dvd_of_mem_offsets hoff) hv'
    exact hsim.remapPage (hnat ▸ hv) (hnat' ▸ hv') halign halign' ht hs
  | unmap vaddr size =>
    obtain ⟨t, ht, hs⟩ := ok_of_bind hok
    obtain ⟨h0, ht⟩ := ok_of_guard ht
    refine h.region (fun offset hoff t s t' s' hsim ht hs => ?_) ht hs
    have hv := hrange offset hoff
    obtain ⟨halign, hnat⟩ := EmulationPageTable.pageAlign_page (not_ne_iff.mp h0) (dvd_of_mem_offsets hoff) hv
    exact hsim.unmapPage (hnat ▸ hv) halign ht hs

/-- The table that `initState` allocates has no entries. -/
theorem Sim.initState {s₀ : MultiLevelPageTable} (h₀ : ∀ vaddr, s₀.pTable vaddr = none) (h : s₀.initState A = .ok s) :
    Sim A s.pTable s := by
  obtain ⟨⟨f, s₁⟩, hprep, hend⟩ := ok_of_bind h
  rw [← Except.ok.inj hend]
  rw [prepTopTable] at hprep
  cases hf : A.allocPhysPages s₀.pages with
  | none =>
    simp only [hf] at hprep
    cases hprep
  | some f' =>
    have hsize : LongModePTE.tableSize top * pageSize = 4096 := by decide
    simp only [hf, hsize] at hprep
    obtain ⟨rfl, rfl⟩ := Prod.mk.inj (Except.ok.inj hprep)
    have haligned : Aligned f' := ⟨A.aligned hf, A.lt hf⟩
    have hnext : ∀ i, next (clear s₀.physProxy f' 4096) f' i = none := by
      intro i
      rw [next, entry_clear haligned haligned, if_pos rfl, not_present_zero]
      rfl
    have hpath : ∀ {t p}, update (fun _ => none) f' (some ([] : List (Fin 512))) t = some p → t = f' ∧ p = [] := by
      intro t p ht
      by_cases htf : t = f'
      · rw [htf, update_self] at ht
        exact ⟨htf, (Option.some.inj ht).symm⟩
      · rw [update_of_ne htf] at ht
        cases ht
    refine ⟨⟨update (fun _ => none) f' (some []), ⟨update_self .., ?_⟩, ?_, ?_⟩, fun v _ => ?_⟩
    · intro t p i t' ht _ hn
      rw [(hpath ht).1] at hn
      exact absurd hn (by simp [hnext])
    · intro t p ht
      rw [(hpath ht).1]
      exact List.mem_cons_self
    · intro t p ht
      rw [(hpath ht).1]
      exact haligned
    · have hnone : EmulationPageTable.lookup s₀.pTable v = none := h₀ _
      rw [look_eq, hnone, Radix.find]
      simp only [inner, top, lower, Radix.follow, hnext]
      rfl

theorem Sim.of_reachable (h : (system A).Reachable s) : Sim A s.pTable s := by
  refine System.invariantWhen (I := fun s => Sim A s.pTable s) ?_ ?_ h
  · rintro s ⟨s₀, h₀, hinit⟩
    exact .initState h₀ hinit
  · intro s op s' _ hsim _ hstep
    obtain ⟨hrange, hok⟩ := Option.ite_none_right_eq_some.mp hstep
    exact hsim.exec hrange (ok_of_toOption hok)

/-- **The page tables agree**: a walk of the tables finds a page if the map has it, with the same attributes, and the
entries that two walks end at are different ones unless the addresses are in one page. -/
theorem page_tables_agree (h : (system A).Reachable s) :
    (∀ v : Addr, v.toNat < 2 ^ 48 → (found (s.walk A v false)).map attrs = (s.pTable.lookup v).map pageAttrs) ∧
      ∀ v w : Addr, v.toNat < 2 ^ 48 → w.toNat < 2 ^ 48 → ∀ e e' s₁ s₂, s.walk A v false = .ok (e, s₁) →
        s.walk A w false = .ok (e', s₂) → pageAlign v ≠ pageAlign w → e.entryAddr ≠ e'.entryAddr := by
  have hsim := Sim.of_reachable h
  refine ⟨hsim.agree, fun v w hv hw e e' s₁ s₂ he he' hne heq => hne ?_⟩
  obtain ⟨path, hrep⟩ := hsim.rep
  obtain ⟨-, t, ht, rfl⟩ := walkFrom_false he
  obtain ⟨-, u, hu, rfl⟩ := walkFrom_false he'
  have hpt := hrep.tree.follow_path hrep.tree.root length_inner.le ht
  have hpu := hrep.tree.follow_path hrep.tree.root length_inner.le hu
  obtain ⟨rfl, hlast⟩ := cell_inj (hrep.aligned hpt) (hrep.aligned hpu) heq
  exact (path_eq_iff hv hw).mp (Prod.ext (hrep.tree.follow_inj length_inner.le length_inner.le ht hu) hlast)

theorem le_foldr_max {a : Addr} {as : List Addr} (h : a ∈ as) : a.toNat ≤ as.foldr (fun a n => max a.toNat n) 0 := by
  induction as with
  | nil => cases h
  | cons b as ih =>
    obtain rfl | h := List.mem_cons.mp h
    · exact le_max_left _ _
    · exact (ih h).trans (le_max_right _ _)

/-- The page after the last one that has been allocated. -/
def nextPage : PhysPages where
  allocPhysPages pages :=
    let addr := (pages.foldr (fun a n => max a.toNat n) 0 / 4096 + 1) * 4096
    if addr < 2 ^ 52 then some (BitVec.ofNat 64 addr) else none
  fresh {pages addr} h hmem := by
    obtain ⟨hlt, hsome⟩ := Option.ite_none_right_eq_some.mp h
    have haddr := congrArg BitVec.toNat (Option.some.inj hsome)
    have hle := le_foldr_max hmem
    rw [BitVec.toNat_ofNat] at haddr
    omega
  aligned {pages addr} h := by
    obtain ⟨hlt, hsome⟩ := Option.ite_none_right_eq_some.mp h
    have haddr := congrArg BitVec.toNat (Option.some.inj hsome)
    rw [BitVec.toNat_ofNat] at haddr
    change addr.toNat % 4096 = 0
    omega
  lt {pages addr} h := by
    obtain ⟨hlt, hsome⟩ := Option.ite_none_right_eq_some.mp h
    have haddr := congrArg BitVec.toNat (Option.some.inj hsome)
    rw [BitVec.toNat_ofNat] at haddr
    rw [← haddr]
    omega

/-- Two pages are mapped; one is moved, the other one is unmapped. -/
theorem page_tables_agree_remap : ∃ s, (system nextPage).Reachable s ∧
    (s.pTable.lookup 0x200000123 = some ⟨0x5000, 8⟩ ∧ s.pTable.lookup 0x1000 = none ∧ s.pTable.lookup 0x2000 = none) ∧
    (∀ v : Addr, v.toNat < 2 ^ 48 → (found (s.walk nextPage v false)).map attrs = (s.pTable.lookup v).map pageAttrs) ∧
      ∀ v w : Addr, v.toNat < 2 ^ 48 → w.toNat < 2 ^ 48 → ∀ e e' s₁ s₂, s.walk nextPage v false = .ok (e, s₁) →
        s.walk nextPage w false = .ok (e', s₂) → pageAlign v ≠ pageAlign w → e.entryAddr ≠ e'.entryAddr := by
  let s₀ : MultiLevelPageTable := ⟨fun _ => none, clear (fun _ => 0) 4096 4096, 4096, [4096]⟩
  have h₀ : (system nextPage).init s₀ := ⟨⟨fun _ => none, fun _ => 0, 0, []⟩, fun _ => rfl, rfl⟩
  obtain ⟨s, hs, hlookup⟩ := System.reachable_of_replay h₀
    [.map 0x1000 0x5000 8192 8, .remap 0x1000 4096 0x200000000, .unmap 0x2000 4096]
    (fun s => s.pTable.lookup 0x200000123 = some ⟨0x5000, 8⟩ ∧ s.pTable.lookup 0x1000 = none ∧
      s.pTable.lookup 0x2000 = none)
    (by decide +kernel)
  exact ⟨s, hs, hlookup, page_tables_agree hs⟩

end Runs

end MultiLevelPageTable

end Salam.Mem
