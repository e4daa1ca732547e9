import Mathlib.Data.Fintype.Card
import Salam.Dram.Access
import Salam.Lib.Window

/-!
# The timing of the DRAM commands

Every command that has been issued delays the commands that may follow it (`Due`), and what is allowed only moves later
(`Later`). So a command that is issued when it is allowed keeps its distance from all those before it (`Spacing`).

* `activateBank_inv`, `prechargeBank_inv`, `burst_inv`: what the three kinds of command keep; none of them fails.
* `dram_timing`: in every run, the commands keep their distances, and the panic of `activateBank` is not reached.
-/

namespace Salam.Dram

open Function (update_of_ne update_self update_apply update)

variable {p : Params}

/-- A column command. -/
def Kind.IsCol (k : Kind) : Prop := k = .RD ∨ k = .WR

/-- The distances from `c` to `d`, which is issued after it. -/
structure Spacing (c d : Command p) : Prop where
  /-- The commands of a bank are issued in the order of their ticks. -/
  order : c.rank = d.rank → c.bank = d.bank → c.timeStamp ≤ d.timeStamp
  act_col : c.rank = d.rank → c.bank = d.bank → c.type = .ACT → d.type.IsCol → c.timeStamp + p.tRCD ≤ d.timeStamp
  act_pre : c.rank = d.rank → c.bank = d.bank → c.type = .ACT → d.type = .PRE → c.timeStamp + p.tRAS ≤ d.timeStamp
  pre_act : c.rank = d.rank → c.bank = d.bank → c.type = .PRE → d.type = .ACT → c.timeStamp + p.tRP ≤ d.timeStamp
  rd_pre : c.rank = d.rank → c.bank = d.bank → c.type = .RD → d.type = .PRE → c.timeStamp + p.tRTP ≤ d.timeStamp
  /-- The data of a write ends `tCL + tBURST` after the command. -/
  wr_pre : c.rank = d.rank → c.bank = d.bank → c.type = .WR → d.type = .PRE →
    c.timeStamp + p.tCL + p.tBURST + p.tWR ≤ d.timeStamp
  act_act : c.rank = d.rank → c.type = .ACT → d.type = .ACT → ¬ (p.bankGroupArch ∧ p.bankgr c.bank = p.bankgr d.bank) →
    c.timeStamp + p.tRRD ≤ d.timeStamp
  act_act_group : c.rank = d.rank → c.type = .ACT → d.type = .ACT → p.bankGroupArch →
    p.bankgr c.bank = p.bankgr d.bank → c.timeStamp + p.tRRD_L ≤ d.timeStamp
  col_col : c.type.IsCol → d.type.IsCol → c.timeStamp + p.tBURST ≤ d.timeStamp

/-- The ticks of the activations of a rank, in the order in which they are issued. -/
def acts (cmdList : List (Command p)) (r : Fin p.ranksPerChannel) : List Nat :=
  (cmdList.filter fun c => c.rank = r ∧ c.type = .ACT).map (·.timeStamp)

namespace DRAMCtrl

/-- What a command delays a precharge of its bank by. -/
def preGap (p : Params) : Kind → Nat
  | .ACT => p.tRAS
  | .PRE => 0
  | .RD => p.tRTP
  | .WR => p.tCL + p.tBURST + p.tWR

/-- The commands that `c` delays. -/
structure Due (s : DRAMCtrl p) (c : Command p) : Prop where
  burst : c.type.IsCol → c.timeStamp + p.tBURST ≤ s.nextBurstAt
  act : c.type = .ACT → ∀ i, c.timeStamp + rrd p c.bank i ≤ (s.bank c.rank i).actAllowedAt
  rd : c.type = .ACT → c.timeStamp + p.tRCD ≤ (s.bank c.rank c.bank).rdAllowedAt
  wr : c.type = .ACT → c.timeStamp + p.tRCD ≤ (s.bank c.rank c.bank).wrAllowedAt
  pre : c.timeStamp + preGap p c.type ≤ (s.bank c.rank c.bank).preAllowedAt
  rp : c.type = .PRE → c.timeStamp + p.tRP ≤ (s.bank c.rank c.bank).actAllowedAt
  /-- A row that has been opened after a precharge. -/
  reopened : c.type = .PRE → (s.bank c.rank c.bank).openRow ≠ NO_ROW →
    c.timeStamp ≤ (s.bank c.rank c.bank).rdAllowedAt ∧ c.timeStamp ≤ (s.bank c.rank c.bank).wrAllowedAt

/-- What is allowed in `s'` is allowed in `s`. -/
structure Later (s s' : DRAMCtrl p) : Prop where
  burst : s.nextBurstAt ≤ s'.nextBurstAt
  act : ∀ r i, (s.bank r i).actAllowedAt ≤ (s'.bank r i).actAllowedAt
  rd : ∀ r i, (s.bank r i).rdAllowedAt ≤ (s'.bank r i).rdAllowedAt
  wr : ∀ r i, (s.bank r i).wrAllowedAt ≤ (s'.bank r i).wrAllowedAt
  pre : ∀ r i, (s.bank r i).preAllowedAt ≤ (s'.bank r i).preAllowedAt
  reopened : ∀ r i, (s'.bank r i).openRow ≠ NO_ROW → (s.bank r i).openRow ≠ NO_ROW ∨
    (s.bank r i).actAllowedAt ≤ (s'.bank r i).rdAllowedAt ∧ (s.bank r i).actAllowedAt ≤ (s'.bank r i).wrAllowedAt

section Due

variable {s s' : DRAMCtrl p} {c d : Command p}

theorem Due.later (h : s.Due c) (hl : Later s s') : s'.Due c := by
  constructor
  · exact fun hc => (h.burst hc).trans hl.burst
  · exact fun hc i => (h.act hc i).trans (hl.act ..)
  · exact fun hc => (h.rd hc).trans (hl.rd ..)
  · exact fun hc => (h.wr hc).trans (hl.wr ..)
  · exact h.pre.trans (hl.pre ..)
  · exact fun hc => (h.rp hc).trans (hl.act ..)
  · intro hc hopen
    obtain hopen | ⟨hrd, hwr⟩ := hl.reopened _ _ hopen
    · obtain ⟨hrd, hwr⟩ := h.reopened hc hopen
      exact ⟨hrd.trans (hl.rd ..), hwr.trans (hl.wr ..)⟩
    · have hrp := h.rp hc
      exact ⟨by omega, by omega⟩

/-- A command is issued when it is allowed. -/
def Allowed (s : DRAMCtrl p) (d : Command p) : Prop :=
  let bank := s.bank d.rank d.bank
  match d.type with
  | .ACT => bank.actAllowedAt ≤ d.timeStamp ∧ bank.preAllowedAt ≤ d.timeStamp
  | .PRE => bank.preAllowedAt ≤ d.timeStamp
  | .RD => s.nextBurstAt ≤ d.timeStamp ∧ bank.rdAllowedAt ≤ d.timeStamp ∧ bank.openRow ≠ NO_ROW
  | .WR => s.nextBurstAt ≤ d.timeStamp ∧ bank.wrAllowedAt ≤ d.timeStamp ∧ bank.openRow ≠ NO_ROW

theorem Due.order (h : s.Due c) (hd : s.Allowed d) (hr : c.rank = d.rank) (hb : c.bank = d.bank) :
    c.timeStamp ≤ d.timeStamp := by
  have hpre := h.pre
  rw [hr, hb] at hpre
  rw [Allowed] at hd
  cases hk : d.type with
  | ACT =>
    simp only [hk] at hd
    omega
  | PRE =>
    simp only [hk] at hd
    omega
  | RD =>
    simp only [hk] at hd
    obtain ⟨hburst, hrd, hopen⟩ := hd
    cases hc : c.type with
    | ACT =>
      have := h.rd hc
      rw [hr, hb] at this
      omega
    | PRE =>
      have := (h.reopened hc (by rw [hr, hb]; exact hopen)).1
      rw [hr, hb] at this
      omega
    | RD =>
      have := h.burst (.inl hc)
      omega
    | WR =>
      have := h.burst (.inr hc)
      omega
  | WR =>
    simp only [hk] at hd
    obtain ⟨hburst, hwr, hopen⟩ := hd
    cases hc : c.type with
    | ACT =>
      have := h.wr hc
      rw [hr, hb] at this
      omega
    | PRE =>
      have := (h.reopened hc (by rw [hr, hb]; exact hopen)).2
      rw [hr, hb] at this
      omega
    | RD =>
      have := h.burst (.inl hc)
      omega
    | WR =>
      have := h.burst (.inr hc)
      omega

theorem Due.spacing (h : s.Due c) (hd : s.Allowed d) : Spacing c d := by
  have hpre : c.rank = d.rank → c.bank = d.bank → d.type = .PRE → c.timeStamp + preGap p c.type ≤ d.timeStamp := by
    intro hr hb hk
    have hle := h.pre
    rw [hr, hb] at hle
    simp only [Allowed, hk] at hd
    exact hle.trans hd
  have hact : c.rank = d.rank → c.type = .ACT → d.type = .ACT → c.timeStamp + rrd p c.bank d.bank ≤ d.timeStamp := by
    intro hr hc hk
    have hle := h.act hc d.bank
    rw [hr] at hle
    simp only [Allowed, hk] at hd
    exact hle.trans hd.1
  constructor
  · exact h.order hd
  · intro hr hb hc hk
    have hrd := h.rd hc
    have hwr := h.wr hc
    rw [hr, hb] at hrd hwr
    obtain hk | hk := hk
    · simp only [Allowed, hk] at hd
      exact hrd.trans hd.2.1
    · simp only [Allowed, hk] at hd
      exact hwr.trans hd.2.1
  · intro hr hb hc hk
    have := hpre hr hb hk
    rwa [hc] at this
  · intro hr hb hc hk
    have hle := h.rp hc
    rw [hr, hb] at hle
    simp only [Allowed, hk] at hd
    exact hle.trans hd.1
  · intro hr hb hc hk
    have := hpre hr hb hk
    rwa [hc] at this
  · intro hr hb hc hk
    have := hpre hr hb hk
    rw [hc, preGap] at this
    omega
  · intro hr hc hk hgroup
    have := hact hr hc hk
    rwa [rrd, if_neg hgroup] at this
  · intro hr hc hk harch hgroup
    have := hact hr hc hk
    rwa [rrd, if_pos ⟨harch, hgroup⟩] at this
  · intro hc hk
    have hle := h.burst hc
    obtain hk | hk := hk
    · simp only [Allowed, hk] at hd
      exact hle.trans hd.1
    · simp only [Allowed, hk] at hd
      exact hle.trans hd.1

end Due

/-! ## The invariant -/

open Window (recent Spaced Below)

structure Inv (s : DRAMCtrl p) : Prop where
  spacing : s.cmdList.Pairwise Spacing
  due : ∀ c ∈ s.cmdList, s.Due c
  pos : ∀ c ∈ s.cmdList, 0 < c.timeStamp
  closed : ∀ r i, (s.bank r i).openRow = NO_ROW → (s.bank r i).preAllowedAt ≤ (s.bank r i).actAllowedAt
  active : ∀ r, (s.ranks r).numBanksActive = (Finset.univ.filter fun i => (s.bank r i).openRow ≠ NO_ROW).card
  ticks : ∀ r, (s.ranks r).actTicks = recent p.activationLimit 0 (acts s.cmdList r)
  spaced : 0 < p.activationLimit → ∀ r, Spaced p.activationLimit p.tXAW (acts s.cmdList r)
  below : 0 < p.activationLimit → ∀ r i, Below p.activationLimit p.tXAW (s.bank r i).actAllowedAt (acts s.cmdList r)

section Steps

variable {s s' : DRAMCtrl p} {c d : Command p} {r r' : Fin p.ranksPerChannel} {b i : Fin p.banksPerRank} {t : Nat}
  {row : BitVec 32}
  {cmds : List (Command p)} {rank : Rank p}

theorem acts_push : acts (cmds ++ [d]) r =
    if d.rank = r ∧ d.type = .ACT then acts cmds r ++ [d.timeStamp] else acts cmds r := by
  rw [acts, List.filter_append, List.map_append]
  by_cases h : d.rank = r ∧ d.type = .ACT
  · rw [if_pos h, List.filter_singleton, decide_eq_true h]
    rfl
  · rw [if_neg h, List.filter_singleton, decide_eq_false h]
    exact List.append_nil _

/-- What is kept of the commands when one more is issued. -/
theorem Inv.push (h : s.Inv) (hcmd : s'.cmdList = s.cmdList ++ [d]) (hd : s.Allowed d) (hl : Later s s')
    (hdue : s'.Due d)
    (hpos : 0 < d.timeStamp) :
    s'.cmdList.Pairwise Spacing ∧ (∀ c ∈ s'.cmdList, s'.Due c) ∧ ∀ c ∈ s'.cmdList, 0 < c.timeStamp := by
  rw [hcmd]
  refine ⟨List.pairwise_append.mpr ⟨h.spacing, List.pairwise_singleton _ _, ?_⟩, ?_, ?_⟩
  · intro c hc d' hd'
    obtain rfl := List.mem_singleton.mp hd'
    exact (h.due c hc).spacing hd
  · intro c hc
    obtain hc | hc := List.mem_append.mp hc
    · exact (h.due c hc).later hl
    · rw [List.mem_singleton.mp hc]
      exact hdue
  · intro c hc
    obtain hc | hc := List.mem_append.mp hc
    · exact h.pos c hc
    · rw [List.mem_singleton.mp hc]
      exact hpos

theorem Inv.acts_pos (h : s.Inv) {u : Nat} (hu : u ∈ acts s.cmdList r) : 0 < u := by
  obtain ⟨c, hc, rfl⟩ := List.mem_map.mp hu
  exact h.pos c (List.mem_filter.mp hc).1

/-- **The window of activations**: the panic is not reached, and the next activation is delayed enough. -/
theorem enforceXAW_spec {ticks : List Nat} (hticks : rank.actTicks = recent p.activationLimit 0 ticks)
    (hpos : ∀ u ∈ ticks, 0 < u ∧ u ≤ t) (ht : 0 < t)
      (hbelow : 0 < p.activationLimit → Below p.activationLimit p.tXAW t ticks)
    (hact : ∀ j, t ≤ (rank.banks j).actAllowedAt) :
    ∃ rank', enforceXAW t rank = .ok rank' ∧ rank'.numBanksActive = rank.numBanksActive ∧
      rank'.actTicks = recent p.activationLimit 0 (ticks ++ [t]) ∧
      (∀ j, ∃ until_, rank'.banks j = delayAct until_ (rank.banks j)) ∧
      (0 < p.activationLimit → ∀ j u, (ticks ++ [t]).reverse[p.activationLimit - 1]? = some u →
        u + p.tXAW ≤ (rank'.banks j).actAllowedAt) := by
  by_cases hlimit : 0 < p.activationLimit
  · have hback : (recent p.activationLimit 0 ticks).getLast? = some ((ticks.reverse[p.activationLimit - 1]?).getD 0) :=
      Window.getLast?_recent hlimit
    rw [← hticks] at hback
    have hsafe : ¬ ((ticks.reverse[p.activationLimit - 1]?).getD 0 ≠ 0 ∧
        t - (ticks.reverse[p.activationLimit - 1]?).getD 0 < p.tXAW) := by
      rintro ⟨hne, hlt⟩
      cases hu : ticks.reverse[p.activationLimit - 1]? with
      | none => simp [hu] at hne
      | some u =>
        have hle := (hbelow hlimit).oldest hlimit hu
        rw [hu, Option.getD_some] at hlt
        omega
    have hpush : t :: rank.actTicks.dropLast = recent p.activationLimit 0 (ticks ++ [t]) := by
      rw [Window.recent_push hlimit, hticks]
    have hlast : (t :: rank.actTicks.dropLast).getLast (List.cons_ne_nil _ _) =
        ((ticks ++ [t]).reverse[p.activationLimit - 1]?).getD 0 := by
      apply Option.some.inj
      rw [← List.getLast?_eq_some_getLast, hpush, Window.getLast?_recent hlimit]
    have hpos' : ∀ u ∈ ticks ++ [t], 0 < u ∧ u ≤ t := by
      intro u hu
      obtain hu | hu := List.mem_append.mp hu
      · exact hpos u hu
      · rw [List.mem_singleton.mp hu]
        exact ⟨ht, le_rfl⟩
    rw [enforceXAW, hback]
    simp only [if_neg hsafe, hlast]
    split
    · refine ⟨_, rfl, rfl, hpush, fun j => ⟨_, rfl⟩, fun _ j u hu => ?_⟩
      rw [hu]
      exact le_max_left _ _
    · rename_i hwide
      refine ⟨_, rfl, rfl, hpush, fun j => ⟨0, by rw [delayAct, Nat.zero_max]⟩, fun _ j u hu => ?_⟩
      obtain ⟨hu0, hut⟩ := hpos' u (List.mem_reverse.mp (List.mem_of_getElem? hu))
      have hj : t ≤ (rank.banks j).actAllowedAt := hact j
      rw [hu, Option.getD_some] at hwide
      change u + p.tXAW ≤ (rank.banks j).actAllowedAt
      omega
  · obtain h0 : p.activationLimit = 0 := by omega
    have hnil : ∀ l, recent p.activationLimit 0 l = ([] : List Nat) := fun l => by
      rw [recent, h0, List.take_zero]
    have hnone : rank.actTicks.getLast? = none := by
      rw [hticks, hnil]
      rfl
    rw [enforceXAW, hnone]
    refine ⟨rank, rfl, rfl, ?_, fun j => ⟨0, by rw [delayAct, Nat.zero_max]⟩, fun h => absurd h hlimit⟩
    rw [hticks, hnil, hnil]

theorem setRank_ranks : (s.setRank r rank).ranks r' = if r' = r then rank else s.ranks r' :=
  update_apply ..

theorem setRank_bank : (s.setRank r rank).bank r' i = if r' = r then rank.banks i else s.bank r' i := by
  rw [bank, setRank_ranks]
  split <;> rfl

theorem delayAct_delayAct {m n : Nat} {bank : Bank} : delayAct m (delayAct n bank) = delayAct (max m n) bank := by
  rw [delayAct, delayAct, delayAct, max_assoc]

theorem card_update {P : Fin p.banksPerRank → Prop} [DecidablePred P] (hb : ¬ P b) :
    (Finset.univ.filter fun i => P i ∨ i = b).card = (Finset.univ.filter P).card + 1 := by
  have hmem : b ∉ Finset.univ.filter P := by simpa using hb
  rw [← Finset.card_insert_of_notMem hmem]
  congr 1
  ext i
  simp [or_comm]

theorem Inv.act_le (h : s.Inv) {u : Nat} (hu : u ∈ acts s.cmdList r) : u ≤ (s.bank r i).actAllowedAt := by
  obtain ⟨c, hmem, rfl⟩ := List.mem_map.mp hu
  obtain ⟨hc, hkind⟩ := List.mem_filter.mp hmem
  obtain ⟨rfl, hact⟩ := of_decide_eq_true hkind
  have := (h.due c hc).act hact i
  omega

/-- What an activation does. -/
structure Activated (s s' : DRAMCtrl p) (r : Fin p.ranksPerChannel) (b : Fin p.banksPerRank) (t : Nat)
    (row : BitVec 32) : Prop where
  cmdList : s'.cmdList = s.cmdList ++ [⟨.ACT, r, b, t⟩]
  nextBurstAt : s'.nextBurstAt = s.nextBurstAt
  openRow : (s'.bank r b).openRow = row
  rd : (s'.bank r b).rdAllowedAt = max (t + p.tRCD) (s.bank r b).rdAllowedAt
  wr : (s'.bank r b).wrAllowedAt = max (t + p.tRCD) (s.bank r b).wrAllowedAt
  pre : (s'.bank r b).preAllowedAt = t + p.tRAS
  act : ∀ r' i, (s.bank r' i).actAllowedAt ≤ (s'.bank r' i).actAllowedAt
  rrd : ∀ i, t + rrd p b i ≤ (s'.bank r i).actAllowedAt
  other : ∀ r' i, ¬ (r' = r ∧ i = b) → (s'.bank r' i).openRow = (s.bank r' i).openRow ∧
    (s'.bank r' i).rdAllowedAt = (s.bank r' i).rdAllowedAt ∧ (s'.bank r' i).wrAllowedAt = (s.bank r' i).wrAllowedAt ∧
    (s'.bank r' i).preAllowedAt = (s.bank r' i).preAllowedAt
  active : ∀ r', (s'.ranks r').numBanksActive = if r' = r then (s.ranks r').numBanksActive + 1
    else (s.ranks r').numBanksActive
  ticks : ∀ r', (s'.ranks r').actTicks =
    if r' = r then recent p.activationLimit 0 (acts s.cmdList r' ++ [t]) else (s.ranks r').actTicks
  window : 0 < p.activationLimit → ∀ i u, (acts s.cmdList r ++ [t]).reverse[p.activationLimit - 1]? = some u →
    u + p.tXAW ≤ (s'.bank r i).actAllowedAt

/-- A bank that has no open row can be activated. -/
theorem Inv.activateBank (h : s.Inv) (hclosed : (s.bank r b).openRow = NO_ROW) (hpos : 0 < t)
    (ht : (s.bank r b).actAllowedAt ≤ t) : ∃ s', s.activateBank r b t row = .ok s' ∧ Activated s s' r b t row := by
  have hcount : (Finset.univ.filter fun i => (s.bank r i).openRow ≠ NO_ROW ∨ i = b).card =
      (s.ranks r).numBanksActive + 1 := by
    rw [h.active, card_update (not_not.mpr hclosed)]
  have hle : (s.ranks r).numBanksActive + 1 ≤ p.banksPerRank := by
    rw [← hcount]
    exact (Finset.card_le_univ _).trans_eq (Fintype.card_fin _)
  have hlength : (s.ranks r).actTicks.length = p.activationLimit := by
    rw [h.ticks, Window.length_recent]
  have hclosed' : ((s.ranks r).banks b).openRow = NO_ROW := hclosed
  -- the rank before the window is enforced
  let rank : Rank p := ⟨fun i =>
    delayAct (t + rrd p b i) (update (s.ranks r).banks b (openBank p t row ((s.ranks r).banks b)) i),
    (s.ranks r).numBanksActive + 1, (s.ranks r).actTicks⟩
  have hrank : rank.actTicks = recent p.activationLimit 0 (acts s.cmdList r) := h.ticks r
  obtain ⟨rank', hok, hnum, hticks, hbanks, hwindow⟩ := enforceXAW_spec (t := t) hrank
    (fun u hu => ⟨h.acts_pos hu, (h.act_le hu).trans ht⟩) hpos (fun hlimit => (h.below hlimit r b).mono ht)
    (fun j => (Nat.le_add_right _ _).trans (le_max_left _ _))
  have hbank : ∀ i, ∃ until_, t + rrd p b i ≤ until_ ∧
      rank'.banks i = delayAct until_ (if i = b then openBank p t row (s.bank r i) else s.bank r i) := by
    intro i
    obtain ⟨until_, hb⟩ := hbanks i
    refine ⟨max until_ (t + rrd p b i), le_max_right _ _, hb.trans ?_⟩
    simp only [rank, delayAct_delayAct]
    by_cases hi : i = b
    · rw [if_pos hi, hi, update_self]
      rfl
    · rw [if_neg hi, update_of_ne hi]
      rfl
  have hself : ∀ i, ((s.push r b .ACT t).setRank r rank').bank r i = rank'.banks i := fun i => by
    rw [setRank_bank, if_pos rfl]
  obtain ⟨until_, hle_b, hb⟩ := hbank b
  rw [if_pos rfl] at hb
  refine ⟨(s.push r b .ACT t).setRank r rank', ?_, rfl, rfl, ?_, ?_, ?_, ?_, ?_, ?_, ?_, ?_, ?_, ?_⟩
  · rw [DRAMCtrl.activateBank]
    simp only [ne_eq, hlength, not_true_eq_false, if_false]
    rw [if_neg (not_not.mpr hclosed'), if_neg (by omega), hok]
    rfl
  · rw [hself, hb]
    rfl
  · rw [hself, hb]
    rfl
  · rw [hself, hb]
    rfl
  · rw [hself, hb]
    rfl
  · intro r' i
    rw [setRank_bank]
    split
    · rename_i hr
      obtain ⟨m, -, hm⟩ := hbank i
      rw [hm, hr]
      split
      · exact le_max_right _ _
      · exact le_max_right _ _
    · exact le_rfl
  · intro i
    obtain ⟨m, hle, hm⟩ := hbank i
    rw [hself, hm]
    exact hle.trans (le_max_left _ _)
  · intro r' i hne
    rw [setRank_bank]
    by_cases hr : r' = r
    · obtain ⟨m, -, hm⟩ := hbank i
      rw [if_pos hr, hm, if_neg fun hi => hne ⟨hr, hi⟩, hr]
      exact ⟨rfl, rfl, rfl, rfl⟩
    · rw [if_neg hr]
      exact ⟨rfl, rfl, rfl, rfl⟩
  · intro r'
    rw [setRank_ranks]
    by_cases hr : r' = r
    · rw [if_pos hr, if_pos hr, hnum, hr]
    · rw [if_neg hr, if_neg hr]
      rfl
  · intro r'
    rw [setRank_ranks]
    by_cases hr : r' = r
    · rw [if_pos hr, if_pos hr, hticks, hr]
    · rw [if_neg hr, if_neg hr]
      rfl
  · intro hlimit i u hu
    rw [hself]
    exact hwindow hlimit i u hu

theorem Activated.later (ha : Activated s s' r b t row) (h : s.Inv) (hclosed : (s.bank r b).openRow = NO_ROW)
    (ht : (s.bank r b).actAllowedAt ≤ t) : Later s s' := by
  have hpre := h.closed r b hclosed
  have hrd := ha.rd
  have hwr := ha.wr
  have hpre' := ha.pre
  refine ⟨ha.nextBurstAt.ge, ha.act, fun r' i => ?_, fun r' i => ?_, fun r' i => ?_, fun r' i hopen => ?_⟩
  · by_cases hi : r' = r ∧ i = b
    · obtain ⟨rfl, rfl⟩ := hi
      omega
    · exact (ha.other r' i hi).2.1.ge
  · by_cases hi : r' = r ∧ i = b
    · obtain ⟨rfl, rfl⟩ := hi
      omega
    · exact (ha.other r' i hi).2.2.1.ge
  · by_cases hi : r' = r ∧ i = b
    · obtain ⟨rfl, rfl⟩ := hi
      omega
    · exact (ha.other r' i hi).2.2.2.ge
  · by_cases hi : r' = r ∧ i = b
    · obtain ⟨rfl, rfl⟩ := hi
      exact .inr ⟨by omega, by omega⟩
    · rw [(ha.other r' i hi).1] at hopen
      exact .inl hopen

theorem Activated.due (ha : Activated s s' r b t row) : s'.Due ⟨.ACT, r, b, t⟩ := by
  have hrd := ha.rd
  have hwr := ha.wr
  have hpre := ha.pre
  constructor
  · rintro (h | h)
    · cases h
    · cases h
  · exact fun _ => ha.rrd
  · intro _
    change t + p.tRCD ≤ (s'.bank r b).rdAllowedAt
    omega
  · intro _
    change t + p.tRCD ≤ (s'.bank r b).wrAllowedAt
    omega
  · exact hpre.ge
  · intro h
    cases h
  · intro h
    cases h

theorem Activated.inv (ha : Activated s s' r b t row) (h : s.Inv) (hclosed : (s.bank r b).openRow = NO_ROW)
    (hrow : row ≠ NO_ROW) (hpos : 0 < t) (ht : (s.bank r b).actAllowedAt ≤ t) : s'.Inv := by
  have hallowed : s.Allowed ⟨.ACT, r, b, t⟩ := ⟨ht, (h.closed r b hclosed).trans ht⟩
  obtain ⟨hspacing, hdue, hpos'⟩ := h.push ha.cmdList hallowed (ha.later h hclosed ht) ha.due hpos
  have hacts : ∀ r', acts s'.cmdList r' = if r' = r then acts s.cmdList r' ++ [t] else acts s.cmdList r' := by
    intro r'
    rw [ha.cmdList, acts_push]
    by_cases hr : r' = r
    · rw [if_pos ⟨hr.symm, rfl⟩, if_pos hr]
    · rw [if_neg (fun hr' => hr hr'.1.symm), if_neg hr]
  refine ⟨hspacing, hdue, hpos', fun r' i hi => ?_, fun r' => ?_, fun r' => ?_, fun hlimit r' => ?_,
    fun hlimit r' i => ?_⟩
  · by_cases hb : r' = r ∧ i = b
    · obtain ⟨rfl, rfl⟩ := hb
      exact absurd (ha.openRow.symm.trans hi) hrow
    · obtain ⟨hopen, -, -, hpre⟩ := ha.other r' i hb
      rw [hopen] at hi
      rw [hpre]
      exact (h.closed r' i hi).trans (ha.act r' i)
  · rw [ha.active]
    by_cases hr : r' = r
    · subst hr
      rw [if_pos rfl, h.active, ← card_update (not_not.mpr hclosed)]
      congr 1
      ext i
      by_cases hi : i = b
      · simp [hi, ha.openRow, hrow]
      · simp [hi, (ha.other r' i (fun hb => hi hb.2)).1]
    · rw [if_neg hr, h.active]
      simp only [(ha.other r' _ fun hb => hr hb.1).1]
  · rw [ha.ticks, hacts]
    by_cases hr : r' = r
    · rw [if_pos hr, if_pos hr]
    · rw [if_neg hr, if_neg hr, h.ticks]
  · rw [hacts]
    by_cases hr : r' = r
    · rw [if_pos hr, hr]
      exact (h.spaced hlimit r).push ((h.below hlimit r b).mono ht) hlimit
    · rw [if_neg hr]
      exact h.spaced hlimit r'
  · have hbelow := (h.below hlimit r' i).mono (ha.act r' i)
    rw [hacts]
    by_cases hr : r' = r
    · rw [if_pos hr]
      subst hr
      exact hbelow.push hlimit (ha.window hlimit i)
    · rw [if_neg hr]
      exact hbelow

/-- What a precharge does. -/
structure Precharged (s s' : DRAMCtrl p) (r : Fin p.ranksPerChannel) (b : Fin p.banksPerRank) (t : Nat) : Prop where
  cmdList : s'.cmdList = s.cmdList ++ [⟨.PRE, r, b, t⟩]
  nextBurstAt : s'.nextBurstAt = s.nextBurstAt
  bank : s'.bank r b = { s.bank r b with
    openRow := NO_ROW, preAllowedAt := t, actAllowedAt := max (s.bank r b).actAllowedAt (t + p.tRP) }
  other : ∀ r' i, ¬ (r' = r ∧ i = b) → s'.bank r' i = s.bank r' i
  active : ∀ r', (s'.ranks r').numBanksActive = if r' = r then (s.ranks r').numBanksActive - 1
    else (s.ranks r').numBanksActive
  ticks : ∀ r', (s'.ranks r').actTicks = (s.ranks r').actTicks

/-- A bank that has an open row can be precharged. -/
theorem Inv.prechargeBank (h : s.Inv) (hopen : (s.bank r b).openRow ≠ NO_ROW) :
    ∃ s', s.prechargeBank r b t = .ok s' ∧ Precharged s s' r b t := by
  have hne : (s.ranks r).numBanksActive ≠ 0 := by
    rw [h.active]
    exact Finset.card_ne_zero_of_mem (Finset.mem_filter.mpr ⟨Finset.mem_univ b, hopen⟩)
  have hopen' : ((s.ranks r).banks b).openRow ≠ NO_ROW := hopen
  let rank : Rank p := { s.ranks r with
    numBanksActive := (s.ranks r).numBanksActive - 1
    banks := update (s.ranks r).banks b { s.bank r b with
      openRow := NO_ROW, preAllowedAt := t, actAllowedAt := max (s.bank r b).actAllowedAt (t + p.tRP) } }
  refine ⟨(s.push r b .PRE t).setRank r rank, ?_, ?_⟩
  · rw [DRAMCtrl.prechargeBank]
    simp only [if_neg hopen', if_neg hne]
    rfl
  · refine ⟨rfl, rfl, ?_, fun r' i hne => ?_, fun r' => ?_, fun r' => ?_⟩
    · rw [setRank_bank, if_pos rfl]
      exact update_self ..
    · rw [setRank_bank]
      by_cases hr : r' = r
      · rw [if_pos hr, hr]
        exact update_of_ne (fun hi => hne ⟨hr, hi⟩) ..
      · rw [if_neg hr]
        rfl
    · rw [setRank_ranks]
      by_cases hr : r' = r
      · rw [if_pos hr, if_pos hr, hr]
      · rw [if_neg hr, if_neg hr]
        rfl
    · rw [setRank_ranks]
      by_cases hr : r' = r
      · rw [if_pos hr, hr]
      · rw [if_neg hr]
        rfl

theorem Precharged.later (hp : Precharged s s' r b t) (ht : (s.bank r b).preAllowedAt ≤ t) : Later s s' := by
  refine ⟨hp.nextBurstAt.ge, fun r' i => ?_, fun r' i => ?_, fun r' i => ?_, fun r' i => ?_, fun r' i hopen => ?_⟩
  · by_cases hi : r' = r ∧ i = b
    · rw [hi.1, hi.2, hp.bank]
      exact le_max_left _ _
    · rw [hp.other r' i hi]
  · by_cases hi : r' = r ∧ i = b
    · rw [hi.1, hi.2, hp.bank]
    · rw [hp.other r' i hi]
  · by_cases hi : r' = r ∧ i = b
    · rw [hi.1, hi.2, hp.bank]
    · rw [hp.other r' i hi]
  · by_cases hi : r' = r ∧ i = b
    · rw [hi.1, hi.2, hp.bank]
      exact ht
    · rw [hp.other r' i hi]
  · by_cases hi : r' = r ∧ i = b
    · rw [hi.1, hi.2, hp.bank] at hopen
      exact absurd rfl hopen
    · rw [hp.other r' i hi] at hopen
      exact .inl hopen

theorem Precharged.due (hp : Precharged s s' r b t) : s'.Due ⟨.PRE, r, b, t⟩ := by
  constructor
  · rintro (h | h)
    · cases h
    · cases h
  · intro h
    cases h
  · intro h
    cases h
  · intro h
    cases h
  · rw [hp.bank]
    exact le_rfl
  · intro _
    rw [hp.bank]
    exact le_max_right _ _
  · intro _ hopen
    rw [hp.bank] at hopen
    exact absurd rfl hopen

theorem acts_push_of_ne (h : d.type ≠ .ACT) : acts (cmds ++ [d]) r = acts cmds r := by
  rw [acts_push, if_neg fun hr => h hr.2]

/-- **A precharge** of a bank that has an open row. -/
theorem Precharged.inv (hp : Precharged s s' r b t) (h : s.Inv) (hopen : (s.bank r b).openRow ≠ NO_ROW) (hpos : 0 < t)
    (ht : (s.bank r b).preAllowedAt ≤ t) : s'.Inv := by
  have hallowed : s.Allowed ⟨.PRE, r, b, t⟩ := ht
  have hlater := hp.later ht
  obtain ⟨hspacing, hdue, hpos'⟩ := h.push hp.cmdList hallowed hlater hp.due hpos
  have hacts : ∀ r', acts s'.cmdList r' = acts s.cmdList r' := fun r' => by
    rw [hp.cmdList, acts_push_of_ne (by simp)]
  refine ⟨hspacing, hdue, hpos', fun r' i hi => ?_, fun r' => ?_, fun r' => ?_, fun hlimit r' => ?_,
    fun hlimit r' i => ?_⟩
  · by_cases hb : r' = r ∧ i = b
    · rw [hb.1, hb.2, hp.bank]
      exact (Nat.le_add_right _ _).trans (le_max_right _ _)
    · rw [hp.other r' i hb] at hi ⊢
      exact h.closed r' i hi
  · rw [hp.active]
    by_cases hr : r' = r
    · subst hr
      have hsplit : (Finset.univ.filter fun i => (s.bank r' i).openRow ≠ NO_ROW) =
          Finset.univ.filter fun i => (s'.bank r' i).openRow ≠ NO_ROW ∨ i = b := by
        ext i
        by_cases hi : i = b
        · simp [hi, hopen]
        · simp [hi, hp.other r' i (fun hb => hi hb.2)]
      have hclosed : ¬ (s'.bank r' b).openRow ≠ NO_ROW := by
        rw [hp.bank]
        exact not_not.mpr rfl
      rw [if_pos rfl, h.active, hsplit, card_update hclosed, Nat.add_sub_cancel]
    · rw [if_neg hr, h.active]
      simp only [hp.other r' _ fun hb => hr hb.1]
  · rw [hp.ticks, hacts, h.ticks]
  · rw [hacts]
    exact h.spaced hlimit r'
  · rw [hacts]
    exact (h.below hlimit r' i).mono (hlater.act r' i)

/-! ## Accesses -/

variable {dram_pkt : p.Packet} {curTick cmd_at : Nat}

/-- The command of a packet. -/
def colCommand (dram_pkt : p.Packet) (cmd_at : Nat) : Command p :=
  ⟨if dram_pkt.isRead then .RD else .WR, dram_pkt.rank, dram_pkt.bank, cmd_at⟩

theorem isCol_colCommand (dram_pkt : p.Packet) (cmd_at : Nat) : (colCommand dram_pkt cmd_at).type.IsCol := by
  rw [colCommand]
  cases dram_pkt.isRead with
  | true => exact .inl rfl
  | false => exact .inr rfl

/-- What a column command leaves as it is, in a bank other than its own. -/
theorem burst_bank_of_ne (hne : ¬ (r = dram_pkt.rank ∧ i = dram_pkt.bank)) : (s.burst dram_pkt cmd_at).bank r i =
    { s.bank r i with
      rdAllowedAt := max (cmd_at + (dlyTo dram_pkt r i).1) (s.bank r i).rdAllowedAt
      wrAllowedAt := max (cmd_at + (dlyTo dram_pkt r i).2) (s.bank r i).wrAllowedAt } := by
  by_cases hr : r = dram_pkt.rank
  · subst hr
    have hi : i ≠ dram_pkt.bank := fun hi => hne ⟨rfl, hi⟩
    simp only [burst, bank, update_self, update_of_ne hi]
  · simp only [burst, bank, update_of_ne hr]

theorem burst_bank : (s.burst dram_pkt cmd_at).bank dram_pkt.rank dram_pkt.bank =
    { s.bank dram_pkt.rank dram_pkt.bank with
      rdAllowedAt := max (cmd_at + (dlyTo dram_pkt dram_pkt.rank dram_pkt.bank).1)
        (s.bank dram_pkt.rank dram_pkt.bank).rdAllowedAt
      wrAllowedAt := max (cmd_at + (dlyTo dram_pkt dram_pkt.rank dram_pkt.bank).2)
        (s.bank dram_pkt.rank dram_pkt.bank).wrAllowedAt
      preAllowedAt := max (s.bank dram_pkt.rank dram_pkt.bank).preAllowedAt
        (if dram_pkt.isRead then cmd_at + p.tRTP else cmd_at + p.tCL + p.tBURST + p.tWR)
      rowAccesses := ((s.bank dram_pkt.rank dram_pkt.bank).rowAccesses + 1) % 2 ^ 32 } := by
  simp only [burst, bank, update_self]

/-- A column command opens and closes no bank, and delays no activation. -/
theorem burst_fields : ((s.burst dram_pkt cmd_at).bank r i).openRow = (s.bank r i).openRow ∧
    ((s.burst dram_pkt cmd_at).bank r i).actAllowedAt = (s.bank r i).actAllowedAt ∧
    (s.bank r i).rdAllowedAt ≤ ((s.burst dram_pkt cmd_at).bank r i).rdAllowedAt ∧
    (s.bank r i).wrAllowedAt ≤ ((s.burst dram_pkt cmd_at).bank r i).wrAllowedAt ∧
    (s.bank r i).preAllowedAt ≤ ((s.burst dram_pkt cmd_at).bank r i).preAllowedAt := by
  by_cases hb : r = dram_pkt.rank ∧ i = dram_pkt.bank
  · rw [hb.1, hb.2, burst_bank]
    exact ⟨rfl, rfl, le_max_right _ _, le_max_right _ _, le_max_left _ _⟩
  · rw [burst_bank_of_ne hb]
    exact ⟨rfl, rfl, le_max_right _ _, le_max_right _ _, le_rfl⟩

theorem burst_rank : ((s.burst dram_pkt cmd_at).ranks r).numBanksActive = (s.ranks r).numBanksActive ∧
    ((s.burst dram_pkt cmd_at).ranks r).actTicks = (s.ranks r).actTicks := by
  by_cases hr : r = dram_pkt.rank
  · subst hr
    simp only [burst, update_self, and_self]
  · simp only [burst, update_of_ne hr, and_self]

theorem burst_cmdList : (s.burst dram_pkt cmd_at).cmdList = s.cmdList ++ [colCommand dram_pkt cmd_at] := rfl

theorem burst_due : (s.burst dram_pkt cmd_at).Due (colCommand dram_pkt cmd_at) := by
  have hne : ∀ k, (k = .ACT ∨ k = .PRE) → (colCommand dram_pkt cmd_at).type ≠ k := by
    rintro k hk rfl
    obtain hc | hc := isCol_colCommand dram_pkt cmd_at
    · simp [hc] at hk
    · simp [hc] at hk
  constructor
  · exact fun _ => le_rfl
  · exact fun h => absurd h (hne _ (.inl rfl))
  · exact fun h => absurd h (hne _ (.inl rfl))
  · exact fun h => absurd h (hne _ (.inl rfl))
  · change cmd_at + _ ≤ ((s.burst dram_pkt cmd_at).bank dram_pkt.rank dram_pkt.bank).preAllowedAt
    rw [burst_bank, colCommand]
    cases dram_pkt.isRead with
    | true => exact le_max_right _ _
    | false =>
      refine le_trans ?_ (le_max_right _ _)
      simp only [preGap, Bool.false_eq_true, if_false]
      omega
  · exact fun h => absurd h (hne _ (.inr rfl))
  · exact fun h => absurd h (hne _ (.inr rfl))

/-- **A column command** to an open row, not before it is allowed. -/
theorem burst_inv (h : s.Inv) (hopen : (s.bank dram_pkt.rank dram_pkt.bank).openRow ≠ NO_ROW) (hpos : 0 < curTick) :
    (s.burst dram_pkt (s.cmdAt dram_pkt curTick)).Inv := by
  have hcmd : s.cmdAt dram_pkt curTick = max
    (max (if dram_pkt.isRead then (s.bank dram_pkt.rank dram_pkt.bank).rdAllowedAt
    else (s.bank dram_pkt.rank dram_pkt.bank).wrAllowedAt) s.nextBurstAt) curTick := rfl
  have hbus : s.nextBurstAt ≤ s.cmdAt dram_pkt curTick := by omega
  have hallowed : s.Allowed (colCommand dram_pkt (s.cmdAt dram_pkt curTick)) := by
    rw [Allowed, colCommand]
    cases hread : dram_pkt.isRead with
    | true =>
      simp only [hread, if_true] at hcmd
      have hrd : (s.bank dram_pkt.rank dram_pkt.bank).rdAllowedAt ≤ s.cmdAt dram_pkt curTick := by omega
      exact ⟨hbus, hrd, hopen⟩
    | false =>
      simp only [hread, Bool.false_eq_true, if_false] at hcmd
      have hwr : (s.bank dram_pkt.rank dram_pkt.bank).wrAllowedAt ≤ s.cmdAt dram_pkt curTick := by omega
      exact ⟨hbus, hwr, hopen⟩
  have hlater : Later s (s.burst dram_pkt (s.cmdAt dram_pkt curTick)) := by
    refine ⟨hbus.trans (Nat.le_add_right _ _), fun r i => burst_fields.2.1.ge, fun r i => burst_fields.2.2.1,
      fun r i => burst_fields.2.2.2.1, fun r i => burst_fields.2.2.2.2, fun r i hi => ?_⟩
    rw [burst_fields.1] at hi
    exact .inl hi
  have hpos' : 0 < (colCommand dram_pkt (s.cmdAt dram_pkt curTick)).timeStamp := by
    change 0 < s.cmdAt dram_pkt curTick
    omega
  obtain ⟨hspacing, hdue, hpos''⟩ := h.push burst_cmdList hallowed hlater burst_due hpos'
  have hacts : ∀ r, acts (s.burst dram_pkt (s.cmdAt dram_pkt curTick)).cmdList r = acts s.cmdList r := by
    intro r
    rw [burst_cmdList, acts_push_of_ne]
    rintro hact
    obtain hc | hc := isCol_colCommand dram_pkt (s.cmdAt dram_pkt curTick)
    · rw [hc] at hact
      cases hact
    · rw [hc] at hact
      cases hact
  refine ⟨hspacing, hdue, hpos'', fun r i hi => ?_, fun r => ?_, fun r => ?_, fun hlimit r => ?_, fun hlimit r i => ?_⟩
  · rw [burst_fields.1] at hi
    have hne : ¬ (r = dram_pkt.rank ∧ i = dram_pkt.bank) := by
      rintro ⟨rfl, rfl⟩
      exact hopen hi
    rw [burst_bank_of_ne hne]
    exact h.closed r i hi
  · rw [burst_rank.1, h.active]
    simp only [burst_fields.1]
  · rw [burst_rank.2, hacts, h.ticks]
  · rw [hacts]
    exact h.spaced hlimit r
  · rw [hacts, burst_fields.2.1]
    exact h.below hlimit r i

/-- The row of a packet is opened, if it is not open. -/
theorem openRow_inv (h : s.Inv) (hrow : dram_pkt.row ≠ NO_ROW) (hpos : 0 < curTick) :
    ∃ s', s.openRow dram_pkt curTick = .ok s' ∧ s'.Inv ∧
    (s'.bank dram_pkt.rank dram_pkt.bank).openRow = dram_pkt.row := by
  rw [openRow]
  by_cases hhit : (s.bank dram_pkt.rank dram_pkt.bank).openRow = dram_pkt.row
  · rw [if_pos hhit]
    exact ⟨s, rfl, h, hhit⟩
  · rw [if_neg hhit]
    have hact : ∀ s₁ : DRAMCtrl p, s₁.Inv → (s₁.bank dram_pkt.rank dram_pkt.bank).openRow = NO_ROW → ∃ s',
        s₁.activateBank dram_pkt.rank dram_pkt.bank (max (s₁.bank dram_pkt.rank dram_pkt.bank).actAllowedAt curTick)
          dram_pkt.row = .ok s' ∧ s'.Inv ∧ (s'.bank dram_pkt.rank dram_pkt.bank).openRow = dram_pkt.row := by
      intro s₁ h₁ hclosed
      have hpos' := hpos.trans_le (le_max_right (s₁.bank dram_pkt.rank dram_pkt.bank).actAllowedAt curTick)
      obtain ⟨s', hok, ha⟩ : ∃ s', s₁.activateBank dram_pkt.rank dram_pkt.bank _ dram_pkt.row = .ok s' ∧
          Activated s₁ s' dram_pkt.rank dram_pkt.bank _ dram_pkt.row := h₁.activateBank hclosed hpos' (le_max_left _ _)
      exact ⟨s', hok, ha.inv h₁ hclosed hrow hpos' (le_max_left _ _), ha.openRow⟩
    by_cases hopen : (s.bank dram_pkt.rank dram_pkt.bank).openRow ≠ NO_ROW
    · obtain ⟨s₁, hok, hp⟩ := h.prechargeBank (t := max (s.bank dram_pkt.rank dram_pkt.bank).preAllowedAt curTick) hopen
      rw [if_pos hopen, hok]
      refine hact s₁ (hp.inv h hopen (lt_max_of_lt_right hpos) (le_max_left _ _)) ?_
      rw [hp.bank]
    · rw [if_neg hopen]
      exact hact s h (not_not.mp hopen)

/-- **One access**: it does not fail. -/
theorem doDRAMAccess_inv (readQueue writeQueue : List (List p.Packet)) (h : s.Inv) (hrow : dram_pkt.row ≠ NO_ROW)
    (hpos : 0 < curTick) : ∃ s' readyTime, s.doDRAMAccess dram_pkt curTick readQueue writeQueue = .ok (s', readyTime) ∧
      s'.Inv := by
  obtain ⟨s₁, hok, h₁, hopen⟩ := openRow_inv h hrow hpos
  have hopen₁ : (s₁.bank dram_pkt.rank dram_pkt.bank).openRow ≠ NO_ROW := by
    rw [hopen]
    exact hrow
  have h₂ := burst_inv h₁ hopen₁ hpos
  by_cases hauto : (s₁.burst dram_pkt (s₁.cmdAt dram_pkt curTick)).autoPrecharge dram_pkt readQueue writeQueue = true
  · have hopen₂ : ((s₁.burst dram_pkt (s₁.cmdAt dram_pkt curTick)).bank dram_pkt.rank dram_pkt.bank).openRow
      ≠ NO_ROW := by
      rw [burst_fields.1]
      exact hopen₁
    obtain ⟨s₃, hok₃, hp⟩ := h₂.prechargeBank hopen₂ (t := max curTick
      ((s₁.burst dram_pkt (s₁.cmdAt dram_pkt curTick)).bank dram_pkt.rank dram_pkt.bank).preAllowedAt)
    refine ⟨s₃, s₁.cmdAt dram_pkt curTick + p.tCL + p.tBURST, ?_,
      hp.inv h₂ hopen₂ (hpos.trans_le (le_max_left _ _)) (le_max_right _ _)⟩
    simp only [doDRAMAccess, hok, bind, Except.bind, hauto, if_true, hok₃]
    rfl
  · refine ⟨s₁.burst dram_pkt (s₁.cmdAt dram_pkt curTick), s₁.cmdAt dram_pkt curTick + p.tCL + p.tBURST, ?_, h₂⟩
    simp only [doDRAMAccess, hok, bind, Except.bind, hauto]
    rfl

end Steps

end DRAMCtrl

/-! ## Runs -/

namespace Run

open Window (Spaced)

theorem inv_of_reachable {s : Run p} (h : (system p).Reachable s) : s.ctrl.Inv := by
  refine System.invariantWhen (I := fun s => s.ctrl.Inv) ?_ ?_ h
  · rintro s ⟨nextBurstAt, rfl⟩
    refine ⟨.nil, ?_, ?_, fun r i _ => le_rfl, fun r => ?_, fun r => Window.recent_nil.symm, fun _ r => .nil,
      fun hlimit r i => .nil hlimit⟩
    · intro c hc
      cases hc
    · intro c hc
      cases hc
    · exact (Finset.card_eq_zero.mpr (Finset.filter_eq_empty_iff.mpr fun i _ => not_not.mpr rfl)).symm
  · intro s a s' _ hinv _ hstep
    obtain ⟨⟨hpos, -, hrow⟩, hok⟩ := Option.ite_none_right_eq_some.mp hstep
    obtain ⟨⟨ctrl, readyTime⟩, haccess, hend⟩ := ok_of_bind (ok_of_toOption hok)
    obtain ⟨ctrl', readyTime', hok', hinv'⟩ := DRAMCtrl.doDRAMAccess_inv a.readQueue a.writeQueue
      hinv hrow hpos
    rw [haccess] at hok'
    obtain ⟨rfl, -⟩ := Prod.mk.inj (Except.ok.inj hok')
    rw [← Except.ok.inj hend]
    exact hinv'

/-- **The DRAM timing**: in every run, the commands keep their distances, `activationLimit` activations of a rank after
another one are `tXAW` later (if the limit is not disabled), and the next access does not fail. -/
theorem dram_timing {s : Run p} (h : (system p).Reachable s) :
    s.ctrl.cmdList.Pairwise Spacing ∧
      (0 < p.activationLimit → ∀ r, Spaced p.activationLimit p.tXAW (acts s.ctrl.cmdList r)) ∧
      ∀ a : Access p, s.Ok a → ∃ s', s.access a = .ok s' := by
  have hinv := inv_of_reachable h
  refine ⟨hinv.spacing, hinv.spaced, fun a ⟨hpos, _, hrow⟩ => ?_⟩
  obtain ⟨ctrl, readyTime, hok, -⟩ := DRAMCtrl.doDRAMAccess_inv a.readQueue a.writeQueue
    hinv hrow hpos
  refine ⟨⟨ctrl, a.curTick⟩, ?_⟩
  rw [access, hok]
  rfl

/-- One rank of two banks. -/
def oneRank (activationLimit : Nat) : Params where
  ranksPerChannel := 1
  banksPerRank := 2
  bankGroupsPerRank := 0
  tRTW := 3
  tWTR := 8
  tCS := 3
  tBURST := 5
  tCCD_L_WR := 5
  tCCD_L := 5
  tRCD := 14
  tCL := 14
  tRP := 14
  tRAS := 35
  tWR := 15
  tRTP := 8
  tRRD := 6
  tRRD_L := 6
  tXAW := 30
  activationLimit := activationLimit
  pageMgmt := .open
  maxAccessesPerRow := 16

def start (activationLimit : Nat) : Run (oneRank activationLimit) :=
  ⟨⟨fun _ => ⟨fun _ => .init, 0, List.replicate activationLimit 0⟩, 28, []⟩, 0⟩

theorem init_start (activationLimit : Nat) : (system (oneRank activationLimit)).init (start activationLimit) :=
    ⟨28, rfl⟩

/-- A read, two writes of the other bank, and a read that closes the row of the first one. -/
theorem dram_timing_three_rows : ∃ s, (system (oneRank 2)).Reachable s ∧
    acts s.ctrl.cmdList ⟨0, Nat.one_pos⟩ = [10, 16, 59] ∧ s.ctrl.cmdList.Pairwise Spacing ∧
      (0 < (oneRank 2).activationLimit →
        ∀ r, Spaced (oneRank 2).activationLimit (oneRank 2).tXAW (acts s.ctrl.cmdList r)) ∧
      ∀ a : Access (oneRank 2), s.Ok a → ∃ s', s.access a = .ok s' := by
  have h₀ := init_start 2
  obtain ⟨s, hs, hacts⟩ := System.reachable_of_replay h₀
    [⟨10, ⟨0, true, ⟨0, Nat.one_pos⟩, ⟨0, Nat.two_pos⟩, 7⟩, [[]], [[]]⟩,
      ⟨10, ⟨1, false, ⟨0, Nat.one_pos⟩, ⟨1, Nat.one_lt_two⟩, 7⟩, [[]], [[]]⟩,
      ⟨12, ⟨2, false, ⟨0, Nat.one_pos⟩, ⟨1, Nat.one_lt_two⟩, 7⟩, [[]], [[]]⟩,
      ⟨12, ⟨3, true, ⟨0, Nat.one_pos⟩, ⟨0, Nat.two_pos⟩, 9⟩, [[]], [[]]⟩]
    (fun s => acts s.ctrl.cmdList ⟨0, Nat.one_pos⟩ = [10, 16, 59]) (by decide +kernel)
  exact ⟨s, hs, hacts, dram_timing hs⟩

/-- An `activationLimit` of 0 disables the window. -/
theorem window_disabled : ¬ ∀ (p : Params) (s : Run p), (system p).Reachable s →
    ∀ r, Spaced p.activationLimit p.tXAW (acts s.ctrl.cmdList r) := by
  intro h
  have h₀ := init_start 0
  obtain ⟨s, hs, hacts⟩ := System.reachable_of_replay h₀
    [⟨10, ⟨0, true, ⟨0, Nat.one_pos⟩, ⟨0, Nat.two_pos⟩, 7⟩, [[]], [[]]⟩]
    (fun s => acts s.ctrl.cmdList ⟨0, Nat.one_pos⟩ = [10]) (by decide +kernel)
  have hspan := h (oneRank 0) s hs ⟨0, Nat.one_pos⟩ 0 0 10 10 le_rfl (by rw [hacts]; rfl) (by rw [hacts]; rfl)
  change 10 + 30 ≤ 10 at hspan
  omega

end Run

end Salam.Dram
