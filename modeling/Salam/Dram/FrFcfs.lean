import Salam.Dram.BankPrep

/-!
# `DRAMCtrl::chooseNextFRFCFS`

One pass over a queue: the first row hit that can issue without a gap ends it; a packet of one of the earliest banks, or
the first other row hit, is remembered.

* `bankId_inj`: the numbers of the banks differ when 16 bits are enough.
* `Looked.step`: what the pass has remembered after a packet.
* `chooseNextFRFCFS_spec`: what it returns.
* `not_selected`: what it returns when the numbers do not differ, or for a row hit in a rank that is refreshed.
-/

namespace Salam.Dram.FrFcfs

theorem bankId_inj {p : Params} (hids : p.ranksPerChannel * p.banksPerRank ≤ 2 ^ 16) {i i' : Fin p.ranksPerChannel}
    {j j' : Fin p.banksPerRank} (h : bankId i j = bankId i' j') : i = i' ∧ j = j' := by
  have hlt : ∀ (i : Fin p.ranksPerChannel) (j : Fin p.banksPerRank), p.banksPerRank * i + j < 2 ^ 16 := by
    intro i j
    have hmul : p.banksPerRank * (i + 1) ≤ p.banksPerRank * p.ranksPerChannel := Nat.mul_le_mul_left _ i.isLt
    rw [Nat.mul_comm p.banksPerRank p.ranksPerChannel, Nat.mul_add, Nat.mul_one] at hmul
    omega
  have heq := congrArg BitVec.toNat h
  rw [bankId, bankId, BitVec.toNat_ofNat, BitVec.toNat_ofNat, Nat.mod_eq_of_lt (hlt i j),
    Nat.mod_eq_of_lt (hlt i' j')] at heq
  have hpos : 0 < p.banksPerRank := j.pos
  have hrank : ∀ (i : Fin p.ranksPerChannel) (j : Fin p.banksPerRank),
    (p.banksPerRank * i + j) / p.banksPerRank = i := by
    intro i j
    rw [Nat.mul_add_div hpos, Nat.div_eq_of_lt j.isLt, Nat.add_zero]
  have hi : i.val = i'.val := by rw [← hrank i j, heq, hrank]
  rw [hi] at heq
  exact ⟨Fin.ext hi, Fin.ext (Nat.add_left_cancel heq)⟩

namespace DRAMCtrl

variable {p : Params} (s : DRAMCtrl p) (queue : List p.Packet) (min_col_at curTick : Tick)

def bankRef (dram_pkt : p.Packet) : Bank := s.bank (dram_pkt.rank, dram_pkt.bank)

def col_allowed_at (dram_pkt : p.Packet) : Tick :=
  if dram_pkt.isRead then (s.bankRef dram_pkt).rdAllowedAt else (s.bankRef dram_pkt).wrAllowedAt

/-- The local variables of the pass. -/
structure Pass (p : Params) where
  earliest_banks : Fin p.ranksPerChannel → BitVec 32
  filled_earliest_banks : Bool
  hidden_bank_prep : Bool
  found_hidden_bank : Bool
  found_prepped_pkt : Bool
  found_earliest_pkt : Bool
  selected_pkt_it : Option Nat

def Pass.start : Pass p := ⟨fun _ => 0, false, false, false, false, false, none⟩

/-- `minBankPrep` is called once at most. -/
def fill (st : Pass p) : Except Err (Pass p) := do
  if st.filled_earliest_banks then return st
  let (earliest_banks, hidden_bank_prep) ← s.minBankPrep queue min_col_at curTick
  return { st with
    earliest_banks := earliest_banks
    hidden_bank_prep := hidden_bank_prep
    filled_earliest_banks := true }

/-- The pass at packet `i`, and whether it ends there. -/
def checkPacket (i : Nat) (dram_pkt : p.Packet) (st : Pass p) : Except Err (Pass p × Bool) := do
  if s.available dram_pkt then
    if (s.bankRef dram_pkt).openRow = dram_pkt.row then
      if s.col_allowed_at dram_pkt ≤ min_col_at then return ({ st with selected_pkt_it := some i }, true)
      else if !st.found_hidden_bank && !st.found_prepped_pkt then
        return ({ st with selected_pkt_it := some i, found_prepped_pkt := true }, false)
      else return (st, false)
    else if !st.found_earliest_pkt then
      let st ← s.fill queue min_col_at curTick st
      if bits (st.earliest_banks dram_pkt.rank) dram_pkt.bank ≠ 0#32 then
        return ({ st with
          found_earliest_pkt := true
          found_hidden_bank := st.hidden_bank_prep
          selected_pkt_it := if st.hidden_bank_prep || !st.found_prepped_pkt then some i
            else st.selected_pkt_it }, false)
      else return (st, false)
    else return (st, false)
  else return (st, false)

def pass : List p.Packet → Nat → Pass p → Except Err (Pass p)
  | [], _, st => .ok st
  | dram_pkt :: rest, i, st => do
    let (st, ends) ← s.checkPacket queue min_col_at curTick i dram_pkt st
    if ends then return st
    pass rest (i + 1) st

/-- The position of the packet in the queue. -/
def chooseNextFRFCFS (extra_col_delay : Tick) : Except Err (Option Nat) := do
  let min_col_at := Tick.max (s.nextBurstAt + extra_col_delay) curTick
  let st ← s.pass queue min_col_at curTick queue 0 Pass.start
  return st.selected_pkt_it

/-- A row hit of an available rank whose column command is allowed by `min_col_at`. -/
def seamlessHit (dram_pkt : p.Packet) : Bool :=
  s.available dram_pkt && (s.bankRef dram_pkt).openRow == dram_pkt.row && s.col_allowed_at dram_pkt ≤ min_col_at

section Pass

variable {s queue min_col_at curTick} {bank_mask : Fin p.ranksPerChannel → BitVec 32} {hidden_bank_prep : Bool}
  {done : List p.Packet} {dram_pkt : p.Packet} {st : Pass p}

/-- After the packets `done`, none of which has ended the pass. -/
structure Looked (s : DRAMCtrl p) (min_col_at : Tick) (bank_mask : Fin p.ranksPerChannel → BitVec 32)
    (done : List p.Packet) (st : Pass p) : Prop where
  filled : st.filled_earliest_banks = true → st.earliest_banks = bank_mask
  found : st.found_hidden_bank = true ∨ st.found_prepped_pkt = true ∨ st.found_earliest_pkt = true →
    st.selected_pkt_it.isSome = true
  chosen : ∀ q ∈ done, s.available q = true →
    (s.bankRef q).openRow = q.row ∨ bits (bank_mask q.rank) q.bank ≠ 0#32 → st.selected_pkt_it.isSome = true
  only : ∀ k, st.selected_pkt_it = some k → ∃ q, done[k]? = some q ∧ s.available q = true ∧
    ((s.bankRef q).openRow = q.row ∨ bits (bank_mask q.rank) q.bank ≠ 0#32)
  noHit : ∀ q ∈ done, s.seamlessHit min_col_at q = false

theorem Looked.start : Looked s min_col_at bank_mask [] Pass.start := by
  refine ⟨fun h => ?_, fun h => ?_, fun q hq => ?_, fun k hk => ?_, fun q hq => ?_⟩
  · cases h
  · rcases h with h | h | h <;> cases h
  · cases hq
  · cases hk
  · cases hq

theorem Looked.next {st' : Pass p} (h : Looked s min_col_at bank_mask done st)
    (hno : s.seamlessHit min_col_at dram_pkt = false)
    (hfilled : st'.filled_earliest_banks = true → st'.earliest_banks = bank_mask)
    (hsel : st'.selected_pkt_it = st.selected_pkt_it ∨
      st'.selected_pkt_it = some done.length ∧ s.available dram_pkt = true ∧
        ((s.bankRef dram_pkt).openRow = dram_pkt.row ∨ bits (bank_mask dram_pkt.rank) dram_pkt.bank ≠ 0#32))
    (hfound : st'.found_hidden_bank = true ∨ st'.found_prepped_pkt = true ∨ st'.found_earliest_pkt = true →
      st'.selected_pkt_it.isSome = true)
    (hchosen : s.available dram_pkt = true →
      (s.bankRef dram_pkt).openRow = dram_pkt.row ∨ bits (bank_mask dram_pkt.rank) dram_pkt.bank ≠ 0#32 →
      st'.selected_pkt_it.isSome = true) : Looked s min_col_at bank_mask (done ++ [dram_pkt]) st' := by
  refine ⟨hfilled, hfound, fun q hq hav hor => ?_, fun k hk => ?_, fun q hq => ?_⟩
  · rcases List.mem_append.mp hq with hq | hq
    · rcases hsel with heq | ⟨heq, -⟩
      · rw [heq]
        exact h.chosen q hq hav hor
      · rw [heq]
        rfl
    · obtain rfl := List.mem_singleton.mp hq
      exact hchosen hav hor
  · rcases hsel with heq | ⟨heq, hav⟩
    · obtain ⟨q, hq, hav⟩ := h.only k (heq ▸ hk)
      have hlt : k < done.length := (List.getElem?_eq_some_iff.mp hq).1
      exact ⟨q, by rw [List.getElem?_append_left hlt, hq], hav⟩
    · obtain rfl := Option.some.inj (heq.symm.trans hk)
      exact ⟨dram_pkt, List.getElem?_concat_length, hav⟩
  · rcases List.mem_append.mp hq with hq | hq
    · exact h.noHit q hq
    · obtain rfl := List.mem_singleton.mp hq
      exact hno

theorem Looked.fill (h : Looked s min_col_at bank_mask done st)
    (hprep : s.minBankPrep queue min_col_at curTick = .ok (bank_mask, hidden_bank_prep)) :
    ∃ st', s.fill queue min_col_at curTick st = .ok st' ∧ st'.earliest_banks = bank_mask ∧
      st'.found_hidden_bank = st.found_hidden_bank ∧ st'.found_prepped_pkt = st.found_prepped_pkt ∧
      st'.found_earliest_pkt = st.found_earliest_pkt ∧ st'.selected_pkt_it = st.selected_pkt_it := by
  by_cases hfilled : st.filled_earliest_banks = true
  · refine ⟨st, ?_, h.filled hfilled, rfl, rfl, rfl, rfl⟩
    rw [DRAMCtrl.fill, if_pos hfilled]
    rfl
  · refine ⟨{ st with
      earliest_banks := bank_mask
      hidden_bank_prep := hidden_bank_prep
      filled_earliest_banks := true }, ?_, rfl, rfl, rfl, rfl, rfl⟩
    rw [DRAMCtrl.fill, if_neg hfilled, hprep]
    rfl

/-- **One packet.** -/
theorem Looked.step (h : Looked s min_col_at bank_mask done st)
    (hprep : s.minBankPrep queue min_col_at curTick = .ok (bank_mask, hidden_bank_prep))
    (hno : s.seamlessHit min_col_at dram_pkt = false) :
    ∃ st', s.checkPacket queue min_col_at curTick done.length dram_pkt st = .ok (st', false) ∧
      Looked s min_col_at bank_mask (done ++ [dram_pkt]) st' := by
  rw [checkPacket]
  by_cases hav : s.available dram_pkt = true
  · rw [if_pos hav]
    by_cases hhit : (s.bankRef dram_pkt).openRow = dram_pkt.row
    · have hgap : ¬ s.col_allowed_at dram_pkt ≤ min_col_at := by
        intro hle
        rw [seamlessHit, hav, hhit, beq_self_eq_true, decide_eq_true hle] at hno
        cases hno
      rw [if_pos hhit, if_neg hgap]
      by_cases hnew : (!st.found_hidden_bank && !st.found_prepped_pkt) = true
      · rw [if_pos hnew]
        exact ⟨_, rfl, h.next hno h.filled (.inr ⟨rfl, hav, .inl hhit⟩) (fun _ => rfl) fun _ _ => rfl⟩
      · rw [if_neg hnew]
        refine ⟨st, rfl, h.next hno h.filled (.inl rfl) h.found fun _ _ => h.found ?_⟩
        -- a hidden bank or a prepared packet is found before
        simp only [Bool.and_eq_true, Bool.not_eq_true', not_and_or, Bool.not_eq_false] at hnew
        exact hnew.imp_right .inl
    · rw [if_neg hhit]
      by_cases hearliest : (!st.found_earliest_pkt) = true
      · obtain ⟨st', hfill, hmask, hhidden, hprepped, hfound, hsel⟩ := h.fill hprep
        have hfilled : st'.filled_earliest_banks = true → st'.earliest_banks = bank_mask := fun _ => hmask
        rw [if_pos hearliest, hfill]
        simp only [bind, Except.bind]
        by_cases hbit : bits (bank_mask dram_pkt.rank) dram_pkt.bank ≠ 0#32
        · rw [hmask, if_pos hbit]
          by_cases hselect : (st'.hidden_bank_prep || !st'.found_prepped_pkt) = true
          · have hsome : (if (st'.hidden_bank_prep || !st'.found_prepped_pkt) = true then some done.length
                else st'.selected_pkt_it).isSome = true := by
              rw [if_pos hselect]
              rfl
            exact ⟨_, rfl, h.next hno (fun _ => rfl) (.inr ⟨if_pos hselect, hav, .inr hbit⟩)
              (fun _ => hsome) fun _ _ => hsome⟩
          · have hsome : (if (st'.hidden_bank_prep || !st'.found_prepped_pkt) = true then some done.length
                else st'.selected_pkt_it).isSome = true := by
              rw [if_neg hselect, hsel]
              simp only [Bool.or_eq_true, Bool.not_eq_true', not_or, Bool.not_eq_false] at hselect
              exact h.found (.inr (.inl (hprepped ▸ hselect.2)))
            exact ⟨_, rfl, h.next hno (fun _ => rfl) (.inl ((if_neg hselect).trans hsel))
              (fun _ => hsome) fun _ _ => hsome⟩
        · rw [hmask, if_neg hbit]
          refine ⟨st', rfl, h.next hno hfilled (.inl hsel) (fun hor => ?_) fun _ hor => ?_⟩
          · rw [hhidden, hprepped, hfound] at hor
            rw [hsel]
            exact h.found hor
          · exact absurd (hor.resolve_left hhit) hbit
      · rw [if_neg hearliest]
        refine ⟨st, rfl, h.next hno h.filled (.inl rfl) h.found fun _ _ => h.found (.inr (.inr ?_))⟩
        simpa using hearliest
  · rw [if_neg hav]
    exact ⟨st, rfl, h.next hno h.filled (.inl rfl) h.found fun hyes => absurd hyes hav⟩

/-- A row hit that can issue without a gap ends the pass. -/
theorem checkPacket_seamlessHit (i : Nat) (st : Pass p) (hhit : s.seamlessHit min_col_at dram_pkt = true) :
    s.checkPacket queue min_col_at curTick i dram_pkt st = .ok ({ st with selected_pkt_it := some i }, true) := by
  simp only [seamlessHit, Bool.and_eq_true, beq_iff_eq, decide_eq_true_iff] at hhit
  rw [checkPacket, if_pos hhit.1.1, if_pos hhit.1.2, if_pos hhit.2]
  rfl

/-- **The pass**: it ends at the first such row hit, or has looked at all packets. -/
theorem Looked.pass (h : Looked s min_col_at bank_mask done st)
    (hprep : s.minBankPrep queue min_col_at curTick = .ok (bank_mask, hidden_bank_prep)) (rest : List p.Packet) :
    ∃ st', s.pass queue min_col_at curTick rest done.length st = .ok st' ∧
      ((∃ k, st'.selected_pkt_it = some k ∧ (done ++ rest).findIdx? (s.seamlessHit min_col_at) = some k) ∨
        Looked s min_col_at bank_mask (done ++ rest) st') := by
  induction rest generalizing done st with
  | nil =>
    rw [List.append_nil]
    exact ⟨st, rfl, .inr h⟩
  | cons dram_pkt rest ih =>
    rw [DRAMCtrl.pass]
    cases hhit : s.seamlessHit min_col_at dram_pkt with
    | true =>
      rw [checkPacket_seamlessHit _ st hhit]
      refine ⟨_, rfl, .inl ⟨done.length, rfl, ?_⟩⟩
      rw [List.findIdx?_append, List.findIdx?_eq_none_iff.mpr h.noHit, List.findIdx?_cons, if_pos hhit]
      simp only [Option.map_some, Nat.zero_add, Option.none_or]
    | false =>
      obtain ⟨st₁, hcheck, h₁⟩ := h.step hprep hhit
      obtain ⟨st', hpass, h'⟩ := ih h₁
      rw [hcheck]
      rw [List.length_append, List.length_singleton] at hpass
      rw [List.append_assoc, List.singleton_append] at h'
      exact ⟨st', hpass, h'⟩

/-- With numbers that differ, a packet waits for a bank whose number tells so. -/
theorem waiting_iff (hids : p.ranksPerChannel * p.banksPerRank ≤ 2 ^ 16) (x : At p) :
    Waiting s queue x ↔ ∃ q ∈ queue, s.available q = true ∧ (q.rank, q.bank) = x := by
  simp only [Waiting, gotWaiting, List.any_eq_true, Bool.and_eq_true, decide_eq_true_iff]
  refine exists_congr fun q => and_congr_right fun _ => and_congr_right fun _ => ⟨fun heq => ?_, ?_⟩
  · obtain ⟨hrank, hbank⟩ := bankId_inj hids heq
    exact Prod.ext hrank hbank
  · rintro rfl
    rfl

theorem chooseNextFRFCFS_looked {extra_col_delay : Tick}
    (hmin : min_col_at = Tick.max (s.nextBurstAt + extra_col_delay) curTick)
    (hprep : s.minBankPrep queue min_col_at curTick = .ok (bank_mask, hidden_bank_prep)) :
    ∃ st, s.chooseNextFRFCFS queue curTick extra_col_delay = .ok st.selected_pkt_it ∧
      ((∃ k, st.selected_pkt_it = some k ∧ queue.findIdx? (s.seamlessHit min_col_at) = some k) ∨
        Looked s min_col_at bank_mask queue st) := by
  have hstart : Looked s min_col_at bank_mask [] Pass.start := Looked.start
  obtain ⟨st, hpass, hend⟩ := hstart.pass hprep queue
  refine ⟨st, ?_, hend⟩
  rw [List.length_nil] at hpass
  rw [chooseNextFRFCFS, ← hmin, hpass]
  rfl

end Pass

/-- **FR-FCFS selection.** -/
theorem chooseNextFRFCFS_spec (s : DRAMCtrl p) (queue : List p.Packet) (extra_col_delay curTick : Tick)
    (hbanks : p.banksPerRank ≤ 32) (hids : p.ranksPerChannel * p.banksPerRank ≤ 2 ^ 16) :
    ∃ ret, s.chooseNextFRFCFS queue curTick extra_col_delay = .ok ret ∧
      (ret.isSome = true ↔ ∃ q ∈ queue, s.available q = true) ∧
      (∀ k, ret = some k → ∃ q, queue[k]? = some q ∧ s.available q = true) ∧
      ∀ k, queue.findIdx? (s.seamlessHit (Tick.max (s.nextBurstAt + extra_col_delay) curTick)) = some k →
      ret = some k := by
  have havail : ∀ x : At p, Waiting s queue x → (s.ranks x.1).inRefIdleState = true := by
    intro x hx
    obtain ⟨q, -, hav, rfl⟩ := (waiting_iff hids x).mp hx
    exact hav
  obtain ⟨bank_mask, hidden_bank_prep, hprep, hmask, hbest⟩ := minBankPrep_spec s queue
    (Tick.max (s.nextBurstAt + extra_col_delay) curTick) curTick hbanks havail
  obtain ⟨st, hret, hend⟩ := chooseNextFRFCFS_looked rfl hprep
  refine ⟨st.selected_pkt_it, hret, ?_⟩
  rcases hend with ⟨k, hk, hfirst⟩ | hlooked
  · -- the first row hit without a gap
    obtain ⟨hlt, hhit, -⟩ := List.findIdx?_eq_some_iff_getElem.mp hfirst
    have hav : s.available queue[k] = true := by
      simp only [seamlessHit, Bool.and_eq_true] at hhit
      exact hhit.1.1
    rw [hk]
    refine ⟨iff_of_true rfl ⟨_, List.getElem_mem hlt, hav⟩, fun k' hk' => ?_, fun k' hk' => hfirst.symm.trans hk'⟩
    obtain rfl := Option.some.inj hk'
    exact ⟨_, List.getElem?_eq_getElem hlt, hav⟩
  · refine ⟨⟨fun hsome => ?_, ?_⟩, fun k hk => ?_, fun k hk => ?_⟩
    · obtain ⟨k, hk⟩ := Option.isSome_iff_exists.mp hsome
      obtain ⟨q, hq, hav, -⟩ := hlooked.only k hk
      exact ⟨q, List.mem_of_getElem? hq, hav⟩
    · rintro ⟨q, hq, hav⟩
      -- a packet waits for one of the best banks
      obtain ⟨x, hx⟩ := hbest ⟨(q.rank, q.bank), (waiting_iff hids _).mpr ⟨q, hq, hav, rfl⟩⟩
      obtain ⟨q', hq', hav', rfl⟩ := (waiting_iff hids x).mp hx.2.1
      exact hlooked.chosen q' hq' hav' (.inr ((bits_ne_zero _ _).mpr ((hmask _).mpr hx)))
    · obtain ⟨q, hq, hav, -⟩ := hlooked.only k hk
      exact ⟨q, hq, hav⟩
    · obtain ⟨hlt, hhit, -⟩ := List.findIdx?_eq_some_iff_getElem.mp hk
      rw [hlooked.noHit _ (List.getElem_mem hlt)] at hhit
      cases hhit

/-- One rank with two closed banks. -/
def closed : DRAMCtrl ⟨1, 2, 10, 10⟩ := ⟨fun _ => ⟨true, fun _ => ⟨NO_ROW, 0, 0, 0, 0⟩⟩, .READ, 0⟩

theorem chooseNextFRFCFS_closed : ∃ ret, closed.chooseNextFRFCFS
    [⟨0, true, 0, 0, 1⟩, ⟨1, true, 0, 1, 2⟩] 1 0 = .ok ret ∧ ret.isSome = true := by
  obtain ⟨ret, hret, hsome, -⟩ := chooseNextFRFCFS_spec closed [⟨0, true, 0, 0, 1⟩, ⟨1, true, 0, 1, 2⟩] 0 1
    (by decide) (by decide)
  exact ⟨ret, hret, hsome.mpr ⟨_, List.mem_cons_self, rfl⟩⟩

/-- 4096 ranks of 32 banks: one bank is open and can be precharged from tick 100 on, the others are closed. -/
def manyRanks : DRAMCtrl ⟨4096, 32, 10, 10⟩ :=
  ⟨fun i => ⟨true, fun j => if i.val = 0 ∧ j.val = 0 then ⟨0, 0, 0, 100, 0⟩ else ⟨NO_ROW, 0, 0, 0, 0⟩⟩, .READ, 0⟩

/-- Two packets for other rows of the open bank. -/
def otherRows : List (DRAMPacket 4096 32) :=
  [⟨0, true, ⟨0, by decide⟩, ⟨0, Nat.succ_pos 31⟩, 1⟩, ⟨1, true, ⟨0, by decide⟩, ⟨0, Nat.succ_pos 31⟩, 2⟩]

/-- One rank that is refreshed, with an open bank. -/
def refreshed : DRAMCtrl ⟨1, 1, 10, 10⟩ := ⟨fun _ => ⟨false, fun _ => ⟨1, 0, 0, 0, 0⟩⟩, .READ, 0⟩

/-- The bank 0 of rank 2048 has the number of the open bank and is earlier, so that no packet is selected though its
rank is available; and a row hit is not selected when its rank is not available. -/
theorem not_selected :
    ((∃ q ∈ otherRows, manyRanks.available q = true) ∧ manyRanks.chooseNextFRFCFS otherRows 1 0 = .ok none) ∧
      (refreshed.bankRef ⟨0, true, 0, 0, 1⟩).openRow = 1 ∧
      refreshed.col_allowed_at ⟨0, true, 0, 0, 1⟩ ≤ Tick.max (0 + 0) 1 ∧
      refreshed.chooseNextFRFCFS [⟨0, true, 0, 0, 1⟩] 1 0 = .ok none := by
  refine ⟨⟨⟨_, List.mem_cons_self, rfl⟩, ?_⟩, rfl, by decide, rfl⟩
  obtain ⟨bank_mask, hidden_bank_prep, hprep, hmask, -⟩ := minBankPrep_spec manyRanks otherRows 1 1 (by decide)
    fun _ _ => rfl
  have hwait : Waiting manyRanks otherRows (⟨2048, by decide⟩, 0) := by
    refine List.any_eq_true.mpr ⟨_, List.mem_cons_self, ?_⟩
    rw [Bool.and_eq_true]
    exact ⟨rfl, by decide⟩
  have hnot : ¬ Best manyRanks otherRows 1 1 (allBanks _) (⟨0, by decide⟩, 0) := by
    rintro ⟨-, -, hgap | hall⟩
    · exact absurd hgap (by decide)
    · exact absurd (hall (⟨2048, by decide⟩, 0) (mem_allBanks _) hwait).2 (by decide)
  have hbits : ¬ bits (bank_mask ⟨0, by decide⟩) 0 ≠ 0#32 :=
    fun hbit => hnot ((hmask _).mp ((bits_ne_zero _ _).mp hbit))
  have hqueue : ∀ q ∈ otherRows, ¬ ((manyRanks.bankRef q).openRow = q.row ∨ bits (bank_mask q.rank) q.bank ≠ 0#32) := by
    refine List.forall_mem_cons.mpr ⟨?_, List.forall_mem_cons.mpr ⟨?_, fun q hq => absurd hq List.not_mem_nil⟩⟩
    · exact not_or.mpr ⟨by decide, hbits⟩
    · exact not_or.mpr ⟨by decide, hbits⟩
  have hmin : 1 = Tick.max (manyRanks.nextBurstAt + 0) 1 := by decide
  obtain ⟨st, hret, hend⟩ := chooseNextFRFCFS_looked hmin hprep
  rw [hret]
  rcases hend with ⟨k, -, hfirst⟩ | hlooked
  · obtain ⟨hlt, hhit, -⟩ := List.findIdx?_eq_some_iff_getElem.mp hfirst
    simp only [seamlessHit, Bool.and_eq_true, beq_iff_eq] at hhit
    exact absurd (.inl hhit.1.2) (hqueue _ (List.getElem_mem hlt))
  · cases hsel : st.selected_pkt_it with
    | none => rfl
    | some k =>
      obtain ⟨q, hq, -, hor⟩ := hlooked.only k hsel
      exact absurd hor (hqueue q (List.mem_of_getElem? hq))

end DRAMCtrl

end Salam.Dram.FrFcfs
