import Salam.Engine.Cycles

/-!
# Every tick ends

The scan of the reservation table erases entries and adds whole blocks while it goes on. What is left of a tick is
counted by `load`: the entries not yet looked at and the nodes to be added. It falls with every iteration, but for a
branch, which adds the nodes of the next block; so a tick ends if the branches lead to a ret (`ControlPath`).

* `next_of_iter`: what an iteration does to the stream of instances and to `load`.
* `tick_ends`: `tick()` comes to an end.
-/

namespace Salam.Engine

/-! ## A call of `tick()` -/

/-- `tick()` from where it is, as far as the fuel goes; an exception ends it, too. -/
def St.runTick (P : Program) (cfg : Config) : Nat → St → Option (Except Err St)
  | 0, _ => none
  | fuel + 1, s =>
    match s.pc with
    | .idle => some (.ok s)
    | _ =>
      match s.tickStep P cfg with
      | .error e => some (.error e)
      | .ok s' => s'.runTick P cfg fuel

/-- The blocks that are entered after the block `b`, whose last instance is the one before `n`, when each br or switch
`t` goes to the label `goes t`. The last one of them ends in a ret. -/
inductive ControlPath (P : Program) (goes : Nat → Label) : Nat → BasicBlock → List BasicBlock → Prop
  | ret {n : Nat} {b : BasicBlock} {t : Node} (ht : b.nodes.getLast? = some t) (hr : t.isRet = true) :
      ControlPath P goes n b []
  | next {n : Nat} {b b' : BasicBlock} {bs : List BasicBlock} (hb : P.findBB (goes (n - 1)) = some b')
      (h : ControlPath P goes (n + b'.nodes.length) b' bs) : ControlPath P goes n b (b' :: bs)

namespace St

/-- What the conditions decide: up to the end of this tick, each br or switch that is taken goes where `goes` says. -/
def Decides (P : Program) (cfg : Config) (s : St) (goes : Nat → Label) : Prop :=
  ∀ s', (engine P cfg).Run (fun _ e => e = .iter) s s' → ∀ t d, .branch t d ∈ s'.core.log → goes t = d

/-- The nodes of all instances up to the end of the current block. -/
def stream (s : St) : List Node := (List.range s.core.next).map s.core.node ++ s.pc.todo

/-- The number of instances at the end of the current block. Before the first block is entered, it is that one. -/
def blockEnd (s : St) : Nat := if s.stream = [] then s.currBB.nodes.length else s.stream.length

/-- What is left of a tick without the blocks that branches lead to. -/
def load (s : St) : Nat :=
  match s.pc with
  | .idle => 0
  | .compute i => (s.core.computeQueue.length - i) + 2 * s.core.reservation.length + 3 * s.currBB.nodes.length + 4
  | .sched ns none => 3 * ns.length + 2 * s.core.reservation.length + 3
  | .lockstep => 2 * s.core.reservation.length + 2
  | .sched ns (some i) => 3 * ns.length + 2 * (s.core.reservation.length - i) + 2
  | .scan i => 2 * (s.core.reservation.length - i) + 1

/-- What an iteration does to the blocks. -/
inductive Next (P : Program) (s s' : St) : Prop
  | same (hcurr : s'.currBB = s.currBB) (hstream : s'.stream = s.stream) (hless : s'.pc = .idle ∨ s'.load < s.load)
  | first {i : Nat} (hpc : s.pc = .compute i) (hres : s.core.reservation = []) (hcurr : s'.currBB = s.currBB)
      (hstream : s'.stream = s.stream ++ s.currBB.nodes) (hless : s'.load < s.load)
  | branch {i id : Nat} {d : Label} (hpc : s.pc = .scan i) (hid : id ∈ s.core.reservation)
      (hd : (s.core.heap id).dest s.core.regs = some d) (hbb : P.findBB d = some s'.currBB)
      (hlog : .branch id d ∈ s'.core.log) (hstream : s'.stream = s.stream ++ s'.currBB.nodes)
      (hless : s'.load < s.load + 3 * s'.currBB.nodes.length)

end St

/-! ## The lists -/

namespace Core

variable {c c' : Core} {a : Act} {id : Nat}

/-- An instance that leaves the table for a queue, or at once. -/
theorem reservation_of_starts (h : c.step a = some c') (ha : a.starts = some id) :
    id ∈ c.reservation ∧ c'.reservation = c.reservation.erase id := by
  cases a with
  | launch id' =>
    cases ha
    simp only [step, Option.ite_none_right_eq_some, Bool.and_eq_true] at h
    obtain ⟨⟨hr, -⟩, h⟩ := h
    refine ⟨mem_of_ready hr, ?_⟩
    split at h
    · rename_i c₁ hc
      cases h
      obtain ⟨v, rfl⟩ := compute_eq hc
      rfl
    · cases h
  | launchLoad id' =>
    cases ha
    simp only [step, Option.ite_none_right_eq_some, Bool.and_eq_true, Option.some.injEq] at h
    obtain ⟨⟨hr, -⟩, rfl⟩ := h
    exact ⟨mem_of_ready hr, rfl⟩
  | launchStore id' =>
    cases ha
    simp only [step, Option.ite_none_right_eq_some, Bool.and_eq_true, Option.some.injEq] at h
    obtain ⟨⟨hr, -⟩, rfl⟩ := h
    exact ⟨mem_of_ready hr, rfl⟩
  | branch id' =>
    cases ha
    obtain ⟨d, hr, -, rfl⟩ := St.step_branch h
    exact ⟨mem_of_ready hr, rfl⟩
  | _ => cases ha

theorem length_of_starts (h : c.step a = some c') (ha : a.starts = some id) :
    c'.reservation.length + 1 = c.reservation.length := by
  obtain ⟨hid, hres⟩ := reservation_of_starts h ha
  rw [hres]
  exact List.length_erase_add_one hid

theorem length_of_commit (h : c.step (.commit id) = some c') :
    c'.reservation = c.reservation ∧ c'.computeQueue.length + 1 = c.computeQueue.length := by
  simp only [step, Option.ite_none_right_eq_some, Option.some.injEq] at h
  obtain ⟨⟨hid, -⟩, rfl⟩ := h
  refine ⟨retire_reservation c id, ?_⟩
  show ((c.retire id).computeQueue.erase id).length + 1 = _
  rw [retire_computeQueue]
  exact List.length_erase_add_one hid

theorem length_of_bump (h : c.step (.bump id) = some c') :
    c'.reservation = c.reservation ∧ c'.computeQueue = c.computeQueue := by
  simp only [step, Option.ite_none_right_eq_some, Option.some.injEq] at h
  obtain ⟨-, rfl⟩ := h
  exact ⟨rfl, rfl⟩

end Core

namespace St

variable {P : Program} {cfg : Config} {s s' : St}

theorem stream_of_plain (h : s.core.Plain s'.core) (ht : s'.pc.todo = s.pc.todo) : s'.stream = s.stream := by
  rw [stream, stream, h.next, ht, funext h.node]

theorem stream_schedule (hL : s.core.Lists) {n : Node} {rest : List Node} {k : Option Nat}
    (hpc : s.pc = .sched (n :: rest) k) :
    ({ s with core := s.core.scheduleNode s.prevBB.name n, pc := .sched rest k } : St).stream = s.stream := by
  have hnodes : (List.range s.core.next).map (s.core.scheduleNode s.prevBB.name n).node =
      (List.range s.core.next).map s.core.node := by
    refine List.map_congr_left fun m hm => ?_
    rw [Core.scheduleNode_eq hL.lt_next]
    exact Core.withNew_node (Nat.ne_of_lt (List.mem_range.mp hm))
  have hnew : (s.core.scheduleNode s.prevBB.name n).node s.core.next = n := by
    rw [Core.scheduleNode_eq hL.lt_next]
    simp [Core.withNew, Core.node, Inst.clone]
  have hnext : (s.core.scheduleNode s.prevBB.name n).next = s.core.next + 1 := by
    rw [Core.scheduleNode_eq hL.lt_next, Core.withNew_next]
  rw [stream, stream, hpc]
  dsimp only [Pc.todo]
  rw [hnext, List.range_succ, List.map_append, List.map_singleton, hnew, hnodes, List.append_assoc,
    List.singleton_append]

/-- The instance at the place of the scan leaves the table, and the scan goes on there. -/
theorem next_of_starts {i id : Nat} {a : Act} {c : Core} (hpc : s.pc = .scan i) (hid : s.core.reservation[i]? = some id)
    (hc : s.core.step a = some c) (ha : a.starts = some id) (hplain : s.core.Plain s'.core)
    (hres : s'.core.reservation = c.reservation) (hpc' : s'.pc = .scan i) (hcurr : s'.currBB = s.currBB) :
      s.Next P s' := by
  have hlen := Core.length_of_starts hc ha
  have hi : i < s.core.reservation.length := (List.getElem?_eq_some_iff.mp hid).1
  refine .same hcurr (stream_of_plain hplain (by rw [hpc', hpc])) (.inr ?_)
  simp only [load, hpc, hpc', hres]
  omega

/-- **What an iteration does**, when no ret is without active parents. -/
theorem next_of_iter (hL : s.core.Lists)
    (hret : ∀ id ∈ s.core.reservation, (s.core.node id).isRet = true → (s.core.heap id).activeParents ≠ 0)
    (hi : Iter P cfg s s') : s.Next P s' := by
  have hlt : ∀ {l : List Nat} {i k : Nat}, l[i]? = some k → i < l.length := fun h => (List.getElem?_eq_some_iff.mp h).1
  cases hi with
  | @commit i id r c hpc hid hr hk hc =>
    obtain ⟨hres, hqueue⟩ := Core.length_of_commit hc
    refine .same rfl (stream_of_plain (Core.plain_of_step hL rfl hc) (by rw [hpc])) (.inr ?_)
    have := hlt hid
    simp only [load, hpc, hres]
    omega
  | @bump i id r c hpc hid hr hk hc =>
    obtain ⟨hres, hqueue⟩ := Core.length_of_bump hc
    refine .same rfl (stream_of_plain (Core.plain_of_step hL rfl hc) (by rw [hpc]; rfl)) (.inr ?_)
    have := hlt hid
    simp only [load, hpc, hres, hqueue]
    omega
  | @noUnit i id r hpc hid hr hk =>
    refine .same rfl (stream_of_plain (.refl _) (by rw [hpc]; rfl)) (.inr ?_)
    have := hlt hid
    simp only [load, hpc]
    omega
  | @computeEnd i hpc hi hr =>
    refine .same rfl (stream_of_plain (.refl _) (by rw [hpc]; rfl)) (.inr ?_)
    simp only [load, hpc]
    omega
  | @nextBB i hpc hi hr =>
    refine .first hpc hr rfl ?_ ?_
    · simp [stream, scheduleBB, hpc, Pc.todo, Core.node]
    · simp only [load, hpc, scheduleBB, Core.emit_reservation]
      omega
  | @schedule n rest k hpc =>
    have hres : (s.core.scheduleNode s.prevBB.name n).reservation.length = s.core.reservation.length + 1 := by
      rw [Core.scheduleNode_eq hL.lt_next, Core.withNew_reservation, List.length_append, List.length_singleton]
    refine .same rfl (stream_schedule hL hpc) (.inr ?_)
    cases k <;> simp only [load, hpc, hres, List.length_cons] <;> omega
  | @schedEnd k hpc =>
    have htodo : s.pc.todo = [] := by
      rw [hpc]
      rfl
    refine .same rfl (stream_of_plain (.refl _) ?_) (.inr ?_)
    · rw [htodo]
      cases k <;> rfl
    · cases k <;> simp only [load, hpc, List.length_nil] <;> omega
  | lockstep hpc => exact .same rfl (stream_of_plain (.refl _) (by rw [hpc]; rfl)) (.inl rfl)
  | scanBegin hpc =>
    refine .same rfl (stream_of_plain (.refl _) (by rw [hpc]; rfl)) (.inr ?_)
    simp only [load, hpc]
    omega
  | scanEnd hpc hi => exact .same rfl (stream_of_plain (.refl _) (by rw [hpc]; rfl)) (.inl rfl)
  | @load i id c hpc hid hc =>
    refine next_of_starts hpc hid hc rfl ?_ (by rw [charge_core]) (by rw [charge_pc]) (by rw [charge_currBB])
    rw [charge_core]
    exact Core.plain_of_step hL rfl hc
  | @store i id c hpc hid hc =>
    refine next_of_starts hpc hid hc rfl ?_ (by rw [charge_core]) (by rw [charge_pc]) (by rw [charge_currBB])
    rw [charge_core]
    exact Core.plain_of_step hL rfl hc
  | @zero i id c c' hpc hid hz hc hc' =>
    have hL' := hL.effect (Core.effect_of_step hL hc)
    refine next_of_starts hpc hid hc rfl ?_ ?_ (by rw [charge_pc]) (by rw [charge_currBB])
    · rw [charge_core]
      exact (Core.plain_of_step hL rfl hc).trans (Core.plain_of_step hL' rfl hc')
    · rw [charge_core]
      exact (Core.length_of_commit hc').1
  | @unit i id c c' hpc hid hz hk hc hc' =>
    have hL' := hL.effect (Core.effect_of_step hL hc)
    exact next_of_starts hpc hid hc rfl ((Core.plain_of_step hL rfl hc).trans (Core.plain_of_step hL' rfl hc'))
      (Core.length_of_bump hc').1 rfl rfl
  | @branch i id c d bb hpc hid hl hd hbb hc =>
    have hlen := Core.length_of_starts hc rfl
    have := hlt hid
    obtain ⟨d', hr, hd', rfl⟩ := step_branch hc
    obtain rfl : d' = d := Option.some.inj (hd'.symm.trans hd)
    refine .branch hpc (List.mem_of_getElem? hid) hd hbb ?_ ?_ ?_
    · simp [scheduleBB]
    · simp [stream, scheduleBB, hpc, Pc.todo, Core.node]
    · simp only [St.load, scheduleBB, hpc, Core.emit_reservation] at hlen ⊢
      omega
  | @finish id c hpc hid ha hq hl hw hc =>
    simp only [Core.step, Option.ite_none_right_eq_some, Option.some.injEq] at hc
    obtain ⟨-, rfl⟩ := hc
    refine .same rfl ?_ (.inr ?_)
    · simp [stream, hpc, Pc.todo, Core.node]
    · have := hlt hid
      have hlen : (s.core.reservation.erase id).length ≤ s.core.reservation.length := List.length_erase_le
      simp only [St.load, hpc, Core.emit_reservation]
      omega
  | @skip i id hpc hid =>
    have := hlt hid
    refine .same rfl (stream_of_plain (.refl _) (by rw [hpc]; rfl)) (.inr ?_)
    simp only [St.load, hpc]
    omega
  | @spin i id hpc hid hn ha => exact absurd ha (hret id (List.mem_of_getElem? hid) hn)

/-! ## The path -/

/-- A ret is never without an active parent: the one of its constructor is signalled by nobody. -/
theorem ret_waits (hA : s.core.Accounts) (hL : s.core.Lists) {id : Nat} (hid : id ∈ s.core.reservation)
    (hret : (s.core.node id).isRet = true) : (s.core.heap id).activeParents ≠ 0 := by
  rw [hA.active id (hL.lt_next id (Core.mem_live.mpr (.inl hid))), Node.baseParents, if_pos hret]
  omega

/-- The current block is the last one of the stream, once it has been entered. -/
def Placed (s : St) : Prop := s.stream = [] ∨ s.currBB.nodes <:+ s.stream

theorem placed_of_reachable (h : (engine P cfg).Reachable s) : s.Placed := by
  refine System.invariantWhen (I := Placed) ?_ ?_ h
  · rintro s ⟨s₀, entry, init, -, -, rfl⟩
    exact .inl rfl
  · intro s e s' hr hI _ hs
    have hL := lists_of_reachable (core_of_reachable hr)
    have hA := accounts_of_reachable (core_of_reachable hr)
    have keep : s'.currBB = s.currBB → s'.stream = s.stream → s'.Placed := fun hcurr hstream => by
      rw [Placed, hcurr, hstream]
      exact hI
    cases move_of_reachable hr hs with
    | tick hpc hrun => exact keep rfl (stream_of_plain (.refl _) (by rw [hpc]; rfl))
    | @readCommit id data hpc hid =>
      have hc : s.core.step (.readCommit id data) = some (s.core.readCommit id data) := if_pos hid
      exact keep rfl (stream_of_plain (Core.plain_of_step hL rfl hc) rfl)
    | @writeCommit id hpc hid =>
      have hc : s.core.step (.writeCommit id) = some (s.core.writeCommit id) := if_pos hid
      exact keep rfl (stream_of_plain (Core.plain_of_step hL rfl hc) rfl)
    | iter hpc hi =>
      cases next_of_iter hL (fun id => ret_waits hA hL) hi with
      | same hcurr hstream hless => exact keep hcurr hstream
      | first hpc hres hcurr hstream hless =>
        rw [Placed, hcurr, hstream]
        exact .inr (List.suffix_append ..)
      | branch hpc hid hd hbb hlog hstream hless =>
        rw [Placed, hstream]
        exact .inr (List.suffix_append ..)

/-- What is left of a tick, with the blocks of the path. -/
def left (s : St) (bs : List BasicBlock) : Nat := s.load + 3 * (bs.flatMap (·.nodes)).length

theorem blockEnd_same (hcurr : s'.currBB = s.currBB) (hstream : s'.stream = s.stream) : s'.blockEnd = s.blockEnd := by
  rw [blockEnd, blockEnd, hcurr, hstream]

theorem blockEnd_of_ne (h : s.stream ≠ []) : s.blockEnd = s.stream.length := if_neg h

/-- **An iteration comes closer to the end of the path**, or it ends the tick. -/
theorem descends (hT : P.Terminated) (h : (engine P cfg).Reachable s) (hi : Iter P cfg s s') {goes : Nat → Label}
    (hd : ∀ t d, .branch t d ∈ s'.core.log → goes t = d) {bs : List BasicBlock}
    (hp : ControlPath P goes s.blockEnd s.currBB bs) :
    s'.pc = .idle ∨ ∃ bs', ControlPath P goes s'.blockEnd s'.currBB bs' ∧ s'.left bs' < s.left bs := by
  have hL := lists_of_reachable (core_of_reachable h)
  have hA := accounts_of_reachable (core_of_reachable h)
  obtain ⟨es, cs, hC⟩ := control_of_reachable hT h
  have hP := inProgram_of_reachable h
  cases next_of_iter hL (fun id => ret_waits hA hL) hi with
  | same hcurr hstream hless =>
    refine hless.imp_right fun hless => ⟨bs, ?_, Nat.add_lt_add_right hless _⟩
    rw [blockEnd_same hcurr hstream, hcurr]
    exact hp
  | first hpc hres hcurr hstream hless =>
    -- nothing has been entered before
    have htodo : s.pc.todo = [] := by
      rw [hpc]
      rfl
    have hcs : cs = [] := by
      by_contra hne
      rcases hC.pending hne (hC.running (by simp [hpc]) (by simp [hpc])) with ht | ⟨k, hk, -⟩
      · exact ht htodo
      · rw [hres] at hk
        cases hk
    have hnil : s.stream = [] := by
      rw [stream, hC.stream, hcs]
      rfl
    refine .inr ⟨bs, ?_, Nat.add_lt_add_right hless _⟩
    have hend : s'.blockEnd = s.blockEnd := by
      obtain ⟨body, t, hbt, -⟩ := hT _ hP.currBB
      rw [hnil, List.nil_append] at hstream
      have hne : s'.stream ≠ [] := by
        rw [hstream, hbt]
        simp
      rw [blockEnd_of_ne hne, blockEnd, if_pos hnil, hstream]
    rw [hend, hcurr]
    exact hp
  | @branch i id d hpc hid hdest hbb hlog hstream hless =>
    obtain ⟨hterm, hnot⟩ := terminator_of_dest hdest
    obtain ⟨hlast, htodo⟩ := hC.last id hid hterm
    have hstr : s.stream = (List.range id).map s.core.node ++ [s.core.node id] := by
      rw [stream, htodo, List.append_nil, ← hlast, List.range_succ, List.map_append, List.map_singleton]
    have hne : s.stream ≠ [] := by
      rw [hstr]
      simp
    have hend : s.blockEnd = id + 1 := by
      rw [blockEnd_of_ne hne, hstr]
      simp
    rw [hend] at hp
    cases hp with
    | @ret _ _ t ht hr =>
      -- the branch would be the ret of its block
      rcases placed_of_reachable h with hnil | ⟨pre, hpre⟩
      · exact absurd hnil hne
      · obtain ⟨body, hbody⟩ := List.getLast?_eq_some_iff.mp ht
        rw [hbody, ← List.append_assoc, hstr] at hpre
        have heq : t = s.core.node id := List.cons.inj (List.append_inj' hpre rfl).2 |>.1
        rw [heq] at hr
        rw [show (s.core.node id).isRet = false from hnot] at hr
        cases hr
    | @next _ _ b' bs' hb hp' =>
      rw [Nat.add_sub_cancel, hd id d hlog, hbb] at hb
      obtain rfl := Option.some.inj hb
      have hne' : s'.stream ≠ [] := by
        rw [hstream]
        simp [hne]
      refine .inr ⟨bs', ?_, ?_⟩
      · rw [blockEnd_of_ne hne', hstream, List.length_append, ← blockEnd_of_ne hne, hend]
        exact hp'
      · simp only [left, List.flatMap_cons, List.length_append]
        omega

end St

/-! ## The end -/

theorem step_iter {P : Program} {cfg : Config} {s s' : St} (hpc : s.pc ≠ .idle) (ht : s.tickStep P cfg = .ok s') :
    (engine P cfg).step s .iter = some s' := by
  show (match s.pc with | .idle => none | _ => (s.tickStep P cfg).toOption) = some s'
  split
  · rename_i hidle
    exact absurd hidle hpc
  · rw [ht]
    rfl

theorem run_iter {P : Program} {cfg : Config} {s s' s'' : St} (hs : (engine P cfg).step s .iter = some s')
    (h : (engine P cfg).Run (fun _ e => e = .iter) s' s'') : (engine P cfg).Run (fun _ e => e = .iter) s s'' :=
  (System.Run.single (C := fun _ e => e = .iter) rfl hs).trans h

/-- **Every tick ends.** In a program whose blocks end in a br, a switch or a ret, `tick()` comes to an end from every
state that the engine reaches and from which the conditions of the branches lead to a ret. -/
theorem tick_ends {P : Program} {cfg : Config} {s : St} (hT : P.Terminated) (h : (engine P cfg).Reachable s)
    {goes : Nat → Label} (hd : s.Decides P cfg goes) {bs : List BasicBlock}
    (hp : ControlPath P goes s.blockEnd s.currBB bs) : ∃ fuel, (s.runTick P cfg fuel).isSome = true := by
  induction hm : s.left bs using Nat.strong_induction_on generalizing s bs with
  | _ m ih =>
    by_cases hpc : s.pc = .idle
    · exact ⟨1, by simp [St.runTick, hpc]⟩
    · have hrun : ∀ n, s.runTick P cfg (n + 1) = match s.tickStep P cfg with
          | .error e => some (.error e)
          | .ok s' => s'.runTick P cfg n := by
        intro n
        rw [St.runTick]
        split
        · rename_i hidle
          exact absurd hidle hpc
        · rfl
      cases ht : s.tickStep P cfg with
      | error e => exact ⟨1, by rw [hrun, ht]; rfl⟩
      | ok s' =>
        have hs := step_iter hpc ht
        have hi : St.Iter P cfg s s' := by
          cases move_of_reachable h hs with
          | iter _ hi => exact hi
        have hd' : s'.Decides P cfg goes := fun t hr => hd t (run_iter hs hr)
        rcases St.descends hT h hi (hd' s' (.refl _)) hp with hidle | ⟨bs', hp', hless⟩
        · exact ⟨2, by rw [hrun, ht]; simp [St.runTick, hidle]⟩
        · obtain ⟨fuel, hfuel⟩ := ih _ (hm ▸ hless) (h.step trivial hs) hd' hp' rfl
          exact ⟨fuel + 1, by rw [hrun, ht]; exact hfuel⟩

/-- Iterations one after another are a replay. -/
theorem replay_of_run {P : Program} {cfg : Config} {s s' : St} (h : (engine P cfg).Run (fun _ e => e = .iter) s s') :
    ∃ k, (engine P cfg).replay (fun _ _ => true) s (List.replicate k .iter) = some s' := by
  induction h with
  | refl => exact ⟨0, rfl⟩
  | @tail s₁ s₂ e hr he hs ih =>
    obtain ⟨k, hk⟩ := ih
    subst he
    refine ⟨k + 1, ?_⟩
    rw [List.replicate_succ', System.replay_append, hk]
    simpa [System.replay] using hs

theorem decides_of_replay {P : Program} {cfg : Config} {s : St} {goes : Nat → Label} {n : Nat}
    (hend : (engine P cfg).replay (fun _ _ => true) s (List.replicate n .iter) = none)
    (hall : ∀ k < n, ∀ s', (engine P cfg).replay (fun _ _ => true) s (List.replicate k .iter) = some s' →
      ∀ t d, .branch t d ∈ s'.core.log → goes t = d) : s.Decides P cfg goes := by
  intro s' hr
  obtain ⟨k, hk⟩ := replay_of_run hr
  refine hall k ?_ s' hk
  by_contra hle
  obtain ⟨j, rfl⟩ := Nat.exists_eq_add_of_le (Nat.le_of_not_lt hle)
  rw [← List.replicate_append_replicate, System.replay_append, hend] at hk
  cases hk

/-- A branch that is taken goes to `dest`. -/
def Event.goesTo (dest : Label) : Event → Bool
  | .branch _ d => d = dest
  | _ => true

/-- The tick in which the loop is left. -/
theorem tick_ends_loopExit : ∃ s, (engine loopExit .unlimited).Reachable s ∧ s.stats.cycle = 2 ∧
    ∃ fuel, (s.runTick loopExit .unlimited fuel).isSome = true := by
  obtain ⟨s, hs, hcycle, hend, hall⟩ := System.reachable_of_replay (engine_boot loopExit .unlimited rfl fun _ => 7)
    (List.replicate 8 .iter ++ [.tick])
    (fun s => s.stats.cycle = 2 ∧
      ((engine loopExit .unlimited).replay (fun _ _ => true) s (List.replicate 10 .iter)).isNone = true ∧
      ((List.range 10).all fun k =>
      ((engine loopExit .unlimited).replay (fun _ _ => true) s (List.replicate k .iter)).all
        fun s' => s'.core.log.all (Event.goesTo "exit")) = true)
    (by decide)
  have hd : s.Decides loopExit .unlimited fun _ => "exit" := by
    refine decides_of_replay (Option.isNone_iff_eq_none.mp hend) fun k hk s' hs' t d hlog => ?_
    have hlogs := List.all_eq_true.mp hall k (List.mem_range.mpr hk)
    rw [hs', Option.all_some, List.all_eq_true] at hlogs
    exact (of_decide_eq_true (hlogs _ hlog)).symm
  have hp : ControlPath loopExit (fun _ => "exit") s.blockEnd s.currBB [exitBB] := .next rfl (.ret rfl rfl)
  exact ⟨s, hs, hcycle, tick_ends loopExit_terminated hs hd hp⟩

end Salam.Engine
