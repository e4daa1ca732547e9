import Mathlib.Data.List.Sort
import Salam.Engine.Dataflow

/-!
# Control order and completion

In a program whose blocks end in a br, a switch or a ret, the terminator of the last block is the last entry of the
reservation table until it is taken, and only then the next block is added. So the blocks handed to `scheduleBB` are a
path through the program (`Path`), the instances are the nodes of these blocks one after the other, and the table
keeps them in this order. The invariant is `St.Control`.

* `control_of_reachable`: `Control` holds in every reachable state of the engine.
-/

namespace Salam.Engine

/-- The events of the control flow. -/
def Event.control : Event → Bool
  | .scheduleBB _ | .branch .. | .finish => true
  | _ => false

/-- Where the terminator `t` goes, by the value that its condition has in program order. -/
def Core.destBefore (c : Core) (t : Nat) : Option Label :=
  match (c.node t).body with
  | .br d => some d
  | .condBr r ifTrue ifFalse => (c.valueBefore r t).map fun v => if v = 0 then ifFalse else ifTrue
  | .switch r d cases => (c.valueBefore r t).map fun v => switchDest v d cases
  | _ => none

/-- The control events of a path through the blocks `bs`: it begins at the entry block, and each block is left through
its last instance `t`, which goes to the label `d` of the next one. -/
inductive Path (P : Program) (goes : Nat → Label → Prop) : List Event → List BasicBlock → Prop
  | start : Path P goes [] []
  | entry {b : BasicBlock} (h : P.findEntryBB = some b) : Path P goes [.scheduleBB b.name] [b]
  | next {es : List Event} {bs : List BasicBlock} {t : Nat} {d : Label} {b : BasicBlock} (h : Path P goes es bs)
      (ht : t + 1 = (bs.flatMap (·.nodes)).length) (hg : goes t d) (hb : P.findBB d = some b) :
      Path P goes (es ++ [.branch t d, .scheduleBB b.name]) (bs ++ [b])

theorem Path.mono {P : Program} {goes goes' : Nat → Label → Prop} (hg : ∀ t d, goes t d → goes' t d) {es : List Event}
    {bs : List BasicBlock} (h : Path P goes es bs) : Path P goes' es bs := by
  induction h with
  | start => exact .start
  | entry h => exact .entry h
  | next h ht hgo hb ih => exact .next ih ht (hg _ _ hgo) hb

theorem Path.not_finish {P : Program} {goes : Nat → Label → Prop} {es : List Event} {bs : List BasicBlock}
    (h : Path P goes es bs) : .finish ∉ es := by
  induction h with
  | start => simp
  | entry h => simp
  | next h ht hgo hb ih => simpa using ih

/-- The instance `t` goes to `d`: with registers in SSA form and loads of latency 0, by the value of its condition. -/
def Core.goes (P : Program) (c : Core) (t : Nat) (d : Label) : Prop :=
  t < c.next ∧ (P.OneWriter → P.MemoryLatencyZero → c.destBefore t = some d)

/-- The nodes of the current block that `scheduleBB` has not added yet. -/
def Pc.todo : Pc → List Node
  | .sched ns _ => ns
  | _ => []

/-! ## The condition of a branch -/

section Dest

variable {P : Program} {c c' : Core} {id : Nat} {d : Label}

theorem terminator_of_dest {regs : Reg → Word} {x : Inst} (h : x.dest regs = some d) :
    x.node.terminator = true ∧ x.node.isRet = false := by
  unfold Inst.dest at h
  unfold Node.terminator Node.isRet
  split at h <;> simp_all

/-- **The value a branch reads.** No younger instance exists when the last one is taken, so the register of the
condition holds its value in program order. -/
theorem destBefore_of_ready (hw : P.OneWriter) (hz : P.MemoryLatencyZero) (h : core.ReachableWhen (ofProgram P) c)
    (hr : c.ready id = true) (hlast : id + 1 = c.next) (hd : (c.heap id).dest c.regs = some d) :
      c.destBefore id = some d := by
  have hops : ∀ r, (c.node id).isPhi = false → (c.node id).returnRegister = none →
      (c.node id).dependencies[0]? = some (some r) → ∃ v, (c.heap id).ops[0]? = some v ∧ c.valueBefore r id = some v :=
    fun r hphi hret hj => ops_of_ready hw hz h hr hphi (by simp [hret]) hj
  unfold Inst.dest at hd
  unfold Core.destBefore Core.node
  split at hd
  · rename_i hb
    simpa [hb] using hd
  · rename_i r t f hb
    have hphi : (c.node id).isPhi = false := by simp [Node.isPhi, Core.node, hb]
    have hret : (c.node id).returnRegister = none := by simp [Node.returnRegister, Core.node, hb]
    have hj : (c.node id).dependencies[0]? = some (some r) := by simp [Node.dependencies, Core.node, hb]
    have hv : c.valueBefore r id = some (c.regs r) := by
      refine regFile_of_reachable hw hz h r id (by omega) (fun k hk hkr => ?_) fun k hk hkn hkr => ?_
      · exact committed_of_latest hw hz h (by omega)
          (fun m hm => latest_committed_of_ready hw hz h hr hphi (by simp [hret]) hj hm) hk hkr
      · obtain rfl : k = id := by omega
        rw [hret] at hkr
        cases hkr
    simpa [hb, hv] using hd
  · rename_i r df cases hb
    obtain ⟨v, hv, hval⟩ := hops r (by simp [Node.isPhi, Core.node, hb]) (by simp [Node.returnRegister, Core.node, hb])
      (by simp [Node.dependencies, Core.node, hb])
    have hhead : (c.heap id).ops.headD 0 = v := by
      rw [List.headD_eq_head?_getD, List.head?_eq_getElem?, hv]
      rfl
    rw [hhead] at hd
    simpa [hb, hval] using hd
  · cases hd

theorem Core.Kind.next_le {a : Act} (hk : Core.Kind c c' a) : c.next ≤ c'.next := by
  cases hk with
  | schedule h => rw [h, Core.withNew_next]; omega
  | quiet h => exact h.next.ge
  | retire hv h => exact h.next.ge

/-- Where a branch goes is settled once and for all. -/
theorem goes_of_run (h : core.ReachableWhen (ofProgram P) c) (hrun : core.Run (ofProgram P) c c')
    (hg : c.goes P id d) : c'.goes P id d := by
  induction hrun with
  | refl => exact hg
  | @tail c₁ c₂ a hr hC hs ih =>
    have hreach := h.run hr
    have hk := kind_of_reachable hreach hs
    refine ⟨Nat.lt_of_lt_of_le ih.1 hk.next_le, fun hw hz => ?_⟩
    have hd := ih.2 hw hz
    have hval : ∀ r v, c₁.valueBefore r id = some v → c₂.valueBefore r id = some v := fun r v hv =>
      valueBefore_kept hreach hk (Nat.le_of_lt ih.1) hv
    simp only [Core.destBefore, hk.node ih.1] at hd ⊢
    split at hd
    · exact hd
    · obtain ⟨v, hv, rfl⟩ := Option.map_eq_some_iff.mp hd
      rw [hval _ v hv, Option.map_some]
    · obtain ⟨v, hv, rfl⟩ := Option.map_eq_some_iff.mp hd
      rw [hval _ v hv, Option.map_some]
    · cases hd

end Dest

/-! ## Acts outside the control flow -/

/-- The acts that launch and commit instances of the classes that have a queue. -/
def Act.plain : Act → Bool
  | .enterBB _ | .schedule .. | .branch _ | .finish _ => false
  | _ => true

/-- The change from `c` to `c'` takes no terminator out of the table and is not recorded as control flow. -/
structure Core.Plain (c c' : Core) : Prop where
  log : c'.log.filter Event.control = c.log.filter Event.control
  next : c'.next = c.next
  node : ∀ k, c'.node k = c.node k
  reservation : ∀ k ∈ c'.reservation, k ∈ c.reservation
  terminator : ∀ k ∈ c.reservation, (c.node k).terminator = true → k ∈ c'.reservation

namespace Core

variable {c c' c'' : Core} {id : Nat}

theorem Plain.refl (c : Core) : c.Plain c := ⟨rfl, rfl, fun _ => rfl, fun _ h => h, fun _ h _ => h⟩

theorem Plain.trans (h : c.Plain c') (h' : c'.Plain c'') : c.Plain c'' where
  log := h'.log.trans h.log
  next := h'.next.trans h.next
  node k := (h'.node k).trans (h.node k)
  reservation k hk := h.reservation k (h'.reservation k hk)
  terminator k hk ht := h'.terminator k (h.terminator k hk ht) (by rw [h.node]; exact ht)

theorem terminator_of_queued {n : Node} (h : n.queued = true) : n.terminator = false := by
  unfold Node.queued Node.onUnit Node.isLoad Node.isStore at h
  unfold Node.terminator
  split <;> simp_all

theorem Plain.park (hL : c.Lists) (hq : (c.node id).queued = true) : c.Plain (c.park id) where
  log := rfl
  next := rfl
  node _ := rfl
  reservation k hk := ((mem_park_reservation hL).mp hk).1
  terminator k hk ht := by
    refine (mem_park_reservation hL).mpr ⟨hk, fun he => ?_⟩
    rw [he, terminator_of_queued hq] at ht
    cases ht

theorem Plain.drop (hL : c.Lists) (hid : id ∉ c.reservation) : c.Plain (c.drop id) where
  log := rfl
  next := rfl
  node _ := rfl
  reservation _ hk := ((mem_drop_reservation hL).mp hk).1
  terminator _ hk _ := (mem_drop_reservation hL).mpr ⟨hk, fun he => hid (he ▸ hk)⟩

theorem Plain.modify {f : Inst → Inst} (hf : (f (c.heap id)).node = (c.heap id).node) : c.Plain (c.modify id f) :=
  ⟨rfl, rfl, node_modify hf, fun _ h => h, fun _ h _ => h⟩

theorem Plain.setFinal (v : Word) : c.Plain (c.setFinal id v) := .modify rfl

theorem Plain.emit {e : Event} (he : e.control = false) : c.Plain (c.emit e) :=
  ⟨by simp [Core.emit, he], rfl, fun _ => rfl, fun _ h => h, fun _ h _ => h⟩

theorem filter_emit {e : Event} (he : e.control = true) :
    (c.emit e).log.filter Event.control = c.log.filter Event.control ++ [e] := by
  simp [Core.emit, he]

theorem filter_append_plain {l es : List Event} (h : ∀ e ∈ es, e.control = false) :
    (l ++ es).filter Event.control = l.filter Event.control := by
  have hes : es.filter Event.control = [] := List.filter_eq_nil_iff.mpr fun e he => by simp [h e he]
  rw [List.filter_append, hes, List.append_nil]

theorem Plain.retire : c.Plain (c.retire id) where
  log := by
    rw [retire_log]
    exact filter_append_plain (by simp [Event.control])
  next := retire_next ..
  node k := retire_node k
  reservation _ hk := by rwa [retire_reservation] at hk
  terminator _ hk _ := by rwa [retire_reservation]

theorem plain_of_step (hL : c.Lists) {a : Act} (ha : a.plain = true) (hs : c.step a = some c') : c.Plain c' := by
  cases effect_of_step hL hs with
  | enter bb => cases ha
  | schedule prev n => cases ha
  | @launchUnit id v hr hn hv =>
    refine ((Plain.setFinal _).trans (.emit rfl)).trans (.park ((hL.setFinal _ _).emit _) ?_)
    simp [Node.queued, hn]
  | @launchMem _ id ha hr hn =>
    refine ((Plain.emit rfl).trans (.emit rfl)).trans (.park ((hL.emit _).emit _) ?_)
    rcases hn with hn | hn <;> simp [Node.queued, hn]
  | branch hr hd => cases ha
  | bump hid hc => exact .modify rfl
  | @retire _ id v ha hid hv =>
    refine ((Plain.setFinal v).trans .retire).trans (.drop ((hL.setFinal _ _).retire _) ?_)
    rw [retire_reservation, setFinal_reservation]
    exact not_reservation hL hid
  | @lose _ id v ha hid hc =>
    have hid' : id ∉ c.reservation := not_reservation hL (.inr (.inl hid))
    exact (Plain.modify rfl).trans (.drop (hL.modify rfl) hid')
  | finish hid hn => cases ha

end Core

/-! ## The invariant -/

/-- What the state knows of the path taken so far: `es` are its control events and `bs` its blocks. -/
structure St.Control (P : Program) (s : St) (es : List Event) (bs : List BasicBlock) : Prop where
  path : Path P (s.core.goes P) es bs
  log : s.core.log.filter Event.control = es ++ if s.running then [] else [.finish]
  stream : (List.range s.core.next).map s.core.node ++ s.pc.todo = bs.flatMap (·.nodes)
  entry : bs = [] → P.findEntryBB = some s.currBB
  todo : s.pc.todo <:+ s.currBB.nodes
  last : ∀ k ∈ s.core.reservation, (s.core.node k).terminator = true → k + 1 = s.core.next ∧ s.pc.todo = []
  pending : bs ≠ [] → s.running = true → s.pc.todo ≠ [] ∨ ∃ k ∈ s.core.reservation, (s.core.node k).terminator = true
  taken : s.running = true → ∀ k < s.core.next, (s.core.node k).terminator = true →
    k ∈ s.core.reservation ∨ ∃ d, .branch k d ∈ s.core.log
  stopped : s.running = false → s.Quiet ∧ (s.pc = .idle ∨ ∃ i, s.pc = .scan i)

namespace St

variable {P : Program} {cfg : Config} {s s' : St} {es : List Event} {bs : List BasicBlock}

theorem mem_control {l l' : List Event} (h : l'.filter Event.control = l.filter Event.control) {e : Event}
    (he : e.control = true) : e ∈ l' ↔ e ∈ l := by
  have := congrArg (e ∈ ·) h
  simpa [he] using this

section

variable (h : s.Control P es bs)
include h

/-- A running engine that neither takes a branch, adds a node nor ends keeps the path. -/
theorem Control.plain (hg : ∀ t d, s.core.goes P t d → s'.core.goes P t d) (hp : s.core.Plain s'.core)
    (hr : s.running = true)
    (hr' : s'.running = true) (hb : s'.currBB = s.currBB) (ht : s'.pc.todo = s.pc.todo) : s'.Control P es bs where
  path := h.path.mono hg
  log := by rw [hp.log, h.log, hr, hr']
  stream := by rw [hp.next, ht, funext hp.node, h.stream]
  entry hn := by rw [hb]; exact h.entry hn
  todo := by rw [ht, hb]; exact h.todo
  last k hk htm := by
    rw [hp.node] at htm
    rw [hp.next, ht]
    exact h.last k (hp.reservation k hk) htm
  pending hn _ := by
    rw [ht]
    refine (h.pending hn hr).imp_right fun ⟨k, hk, htm⟩ => ⟨k, hp.terminator k hk htm, ?_⟩
    rw [hp.node]
    exact htm
  taken _ k hk htm := by
    rw [hp.next] at hk
    rw [hp.node] at htm
    refine (h.taken hr k hk htm).imp (fun hm => hp.terminator k hm htm) fun ⟨d, hd⟩ => ⟨d, ?_⟩
    exact (mem_control hp.log rfl).mpr hd
  stopped hf := by rw [hr'] at hf; cases hf

theorem Control.running (hi : s.pc ≠ .idle) (hs : ∀ i, s.pc ≠ .scan i) : s.running = true := by
  by_contra hr
  rcases (h.stopped (by simpa using hr)).2 with hp | ⟨i, hp⟩
  exacts [hi hp, hs i hp]

theorem Control.running_of_mem {k : Nat} (hk : k ∈ s.core.live) : s.running = true := by
  by_contra hr
  obtain ⟨⟨h₁, h₂, h₃, h₄⟩, -⟩ := h.stopped (by simpa using hr)
  simp [Core.live, h₁, h₂, h₃, h₄] at hk

theorem Control.nextBB {i : Nat} (hpc : s.pc = .compute i) (hr : s.core.reservation = []) :
    (s.scheduleBB s.currBB none).Control P [.scheduleBB s.currBB.name] [s.currBB] := by
  have hrun : s.running = true := h.running (by simp [hpc]) (by simp [hpc])
  have htodo : s.pc.todo = [] := by rw [hpc]; rfl
  obtain rfl : bs = [] := by
    by_contra hn
    rcases h.pending hn hrun with ht | ⟨k, hk, -⟩
    · exact ht htodo
    · rw [hr] at hk
      cases hk
  have hes : es = [] := by
    generalize hbs : ([] : List BasicBlock) = bs at h
    cases h.path with
    | start => rfl
    | entry h => cases hbs
    | next h ht hg hb => simp at hbs
  subst hes
  have hnext : s.core.next = 0 := by
    have := congrArg List.length h.stream
    simpa [htodo] using this
  have hentry := h.entry rfl
  exact {
    path := .entry hentry
    log := by
      have hlog := h.log
      have hctl : (Event.scheduleBB s.currBB.name).control = true := rfl
      simp only [scheduleBB, Core.filter_emit hctl, hlog, hrun, if_true, List.nil_append, List.append_nil]
    stream := by simp [scheduleBB, Pc.todo, hnext]
    entry := fun hn => by cases hn
    todo := List.suffix_rfl
    last := fun k hk _ => by simp [scheduleBB, hr] at hk
    pending := fun _ _ => .inl fun hn => by
      have := List.find?_some hentry
      simp only [scheduleBB, Pc.todo] at hn
      simp [hn] at this
    taken := fun _ k hk _ => by simp [scheduleBB, hnext] at hk
    stopped := fun hf => by
      have hf : s.running = false := hf
      rw [hrun] at hf
      cases hf }

end

/-- In a suffix of a block, the terminator is the last node, and it is there. -/
theorem suffix_terminated (hT : P.Terminated) {b : BasicBlock} (hb : b ∈ P.bbList) {n : Node} {rest : List Node}
    (h : (n :: rest) <:+ b.nodes) : n.terminator = true ↔ rest = [] := by
  obtain ⟨body, t, hbt, ht, hbody⟩ := hT b hb
  obtain ⟨pre, hpre⟩ := h
  rw [hbt] at hpre
  rcases List.eq_nil_or_concat rest with rfl | ⟨rest', t', rfl⟩
  · obtain ⟨-, hnt⟩ := List.append_inj' hpre rfl
    cases hnt
    simp [ht]
  · rw [List.concat_eq_append, ← List.cons_append, ← List.append_assoc] at hpre
    obtain ⟨hp, -⟩ := List.append_inj' hpre rfl
    have hn : n ∈ body := by rw [← hp]; simp
    simp [hbody n hn]

theorem Control.schedule (h : s.Control P es bs) (hT : P.Terminated) (hP : s.InProgram P) (hL : s.core.Lists)
    {n : Node} {rest : List Node} {k : Option Nat} (hpc : s.pc = .sched (n :: rest) k)
    (hg : ∀ t d, s.core.goes P t d → (s.core.scheduleNode s.prevBB.name n).goes P t d) :
    ({ s with core := s.core.scheduleNode s.prevBB.name n, pc := .sched rest k } : St).Control P es bs := by
  have hrun : s.running = true := h.running (by simp [hpc]) (by simp [hpc])
  have htodo : s.pc.todo = n :: rest := by rw [hpc]; rfl
  have hsuf : (n :: rest) <:+ s.currBB.nodes := htodo ▸ h.todo
  have hterm := suffix_terminated hT hP.currBB hsuf
  -- no terminator is in the table while nodes are being added
  have hnone : ∀ m ∈ s.core.reservation, (s.core.node m).terminator = false := by
    intro m hm
    rw [Bool.eq_false_iff]
    intro ht
    have := (h.last m hm ht).2
    rw [htodo] at this
    cases this
  have hgoes := hg
  rw [Core.scheduleNode_eq hL.lt_next] at hgoes ⊢
  generalize hc : s.core.withNew n _ _ _ _ = c at hgoes ⊢
  have hold : ∀ m, m ≠ s.core.next → c.node m = s.core.node m := fun m hm => hc ▸ Core.withNew_node hm
  have hnew : c.node s.core.next = n := by rw [← hc]; simp [Core.withNew, Core.node, Inst.clone]
  have hnext : c.next = s.core.next + 1 := by rw [← hc, Core.withNew_next]
  have hres : c.reservation = s.core.reservation ++ [s.core.next] := by rw [← hc, Core.withNew_reservation]
  have hlog : c.log.filter Event.control = s.core.log.filter Event.control := by
    rw [← hc, Core.withNew_log]
    exact Core.filter_append_plain (by simp [Event.control])
  exact {
    path := h.path.mono hgoes
    log := by simpa only [hlog] using h.log
    stream := by
      rw [← h.stream, htodo, hnext, List.range_succ, List.map_append, List.map_singleton, hnew, List.append_assoc,
        List.singleton_append]
      congr 1
      exact List.map_congr_left fun m hm => hold m (Nat.ne_of_lt (List.mem_range.mp hm))
    entry := h.entry
    todo := (List.suffix_cons n rest).trans hsuf
    last := by
      intro m hm ht
      simp only [hres, List.mem_append, List.mem_singleton] at hm
      rcases hm with hm | rfl
      · have := hL.lt_next m (Core.mem_live.mpr (.inl hm))
        rw [hold m (by omega), hnone m hm] at ht
        cases ht
      · rw [hnew] at ht
        exact ⟨hnext.symm, hterm.mp ht⟩
    pending := by
      intro _ _
      by_cases hrest : rest = []
      · refine .inr ⟨s.core.next, by simp [hres], ?_⟩
        rw [hnew]
        exact hterm.mpr hrest
      · exact .inl hrest
    taken := by
      intro _ m hm ht
      simp only [hres, List.mem_append, List.mem_singleton]
      by_cases hmn : m = s.core.next
      · exact .inl (.inr hmn)
      · rw [hold m hmn] at ht
        refine (h.taken hrun m (by simp only [hnext] at hm; omega) ht).imp .inl (Exists.imp fun d hd => ?_)
        exact (mem_control hlog rfl).mpr hd
    stopped := fun hf => by
      have hf : s.running = false := hf
      rw [hrun] at hf
      cases hf }

theorem step_branch {c c' : Core} {id : Nat} (h : c.step (.branch id) = some c') : ∃ d, c.ready id = true ∧
    (c.heap id).dest c.regs = some d ∧
    c' = { (c.emit (.launch id)).emit (.branch id d) with reservation := c.reservation.erase id } := by
  simp only [Core.step, Option.ite_none_right_eq_some] at h
  obtain ⟨hr, h⟩ := h
  split at h
  · rename_i d hd
    exact ⟨d, hr, hd, (Option.some.inj h).symm⟩
  · cases h

/-- The terminator is taken and the next block entered. -/
theorem Control.branch (h : s.Control P es bs) (hT : P.Terminated)
    (hcore : Engine.core.ReachableWhen (ofProgram P) s.core)
    {i id : Nat} {c : Core} {d : Label} {bb : BasicBlock} (hpc : s.pc = .scan i)
    (hd : (s.core.heap id).dest s.core.regs = some d) (hbb : P.findBB d = some bb)
    (hc : s.core.step (.branch id) = some c)
    (hg : ∀ t d, s.core.goes P t d → (c.emit (.scheduleBB bb.name)).goes P t d) :
    (({ s.charge cfg (s.core.node id).functionalUnit with core := c, prevBB := s.currBB, currBB := bb } :
      St).scheduleBB bb (some i)).Control P (es ++ [.branch id d, .scheduleBB bb.name]) (bs ++ [bb]) := by
  have hL := lists_of_reachable hcore
  obtain ⟨d', hr, hd', rfl⟩ := step_branch hc
  obtain rfl : d' = d := Option.some.inj (hd'.symm.trans hd)
  have hid := Core.mem_of_ready hr
  have hrun : s.running = true := h.running_of_mem (Core.mem_live.mpr (.inl hid))
  have hterm : (s.core.node id).terminator = true := (terminator_of_dest hd).1
  have htodo : s.pc.todo = [] := by rw [hpc]; rfl
  obtain ⟨hlast, -⟩ := h.last id hid hterm
  have hlen : id + 1 = (bs.flatMap (·.nodes)).length := by
    rw [← h.stream, htodo, List.append_nil, List.length_map, List.length_range, hlast]
  have hgoes : s.core.goes P id d' := ⟨by omega, fun hw hz => destBefore_of_ready hw hz hcore hr hlast hd⟩
  -- the terminator that leaves was the only one
  have hnone : ∀ m ∈ s.core.reservation.erase id, (s.core.node m).terminator = false := by
    intro m hm
    obtain ⟨hne, hm⟩ := hL.reservation_nodup.mem_erase_iff.mp hm
    rw [Bool.eq_false_iff]
    intro ht
    have := (h.last m hm ht).1
    omega
  have hmem : bb ∈ P.bbList := List.mem_of_find?_eq_some hbb
  have hlog := h.log
  exact {
    path := (h.path.mono hg).next hlen (hg _ _ hgoes) hbb
    log := by
      have h₁ : (Event.launch id).control = false := rfl
      have h₂ : (Event.branch id d').control = true := rfl
      have h₃ : (Event.scheduleBB bb.name).control = true := rfl
      simp only [scheduleBB, Core.emit, List.append_assoc, List.filter_append, charge_running, hrun, hlog, if_true,
        List.append_nil, List.filter_cons, List.filter_nil, h₁, h₂, h₃, Bool.false_eq_true, if_false,
        List.singleton_append]
    stream := by
      rw [List.flatMap_append, ← h.stream, htodo, List.append_nil]
      simp [scheduleBB, Pc.todo, Core.emit, Core.node]
    entry := fun hn => by simp at hn
    todo := List.suffix_rfl
    last := fun m hm ht => by
      have hm : m ∈ s.core.reservation.erase id := hm
      have ht : (s.core.node m).terminator = true := ht
      rw [hnone m hm] at ht
      cases ht
    pending := fun _ _ => .inl fun hn => by
      obtain ⟨body, t, hbt, -⟩ := hT bb hmem
      have hn : bb.nodes = [] := hn
      simp [hbt] at hn
    taken := by
      intro _ m hm ht
      by_cases hmid : m = id
      · exact .inr ⟨d', by simp [scheduleBB, Core.emit, hmid]⟩
      · refine (h.taken hrun m hm ht).imp (fun hm => ?_) (Exists.imp fun d hd => by simp [scheduleBB, Core.emit, hd])
        exact hL.reservation_nodup.mem_erase_iff.mpr ⟨hmid, hm⟩
    stopped := fun hf => by
      have hf : (s.charge cfg (s.core.node id).functionalUnit).running = false := hf
      rw [charge_running, hrun] at hf
      cases hf }

/-- A terminator at the head of the table is alone in it. -/
theorem Control.alone (h : s.Control P es bs) (hL : s.core.Lists) {id : Nat} (hid : s.core.reservation[0]? = some id)
    (ht : (s.core.node id).terminator = true) : s.core.reservation = [id] := by
  have hlast := (h.last id (List.mem_of_getElem? hid) ht).1
  have hsorted := hL.sorted
  have hlt : ∀ k ∈ s.core.reservation, k < s.core.next := fun k hk => hL.lt_next k (Core.mem_live.mpr (.inl hk))
  rcases hres : s.core.reservation with _ | ⟨a, _ | ⟨b, rest⟩⟩
  · simp [hres] at hid
  · simpa [hres] using hid
  · obtain rfl : a = id := by simpa [hres] using hid
    rw [hres, List.pairwise_cons] at hsorted
    have h₁ := hsorted.1 b List.mem_cons_self
    have h₂ := hlt b (by simp [hres])
    omega

theorem terminator_of_isRet {n : Node} (h : n.isRet = true) : n.terminator = true := by
  unfold Node.isRet Node.terminator at *
  split at h <;> simp_all

theorem Control.finish (h : s.Control P es bs) (hL : s.core.Lists) {id : Nat} {c : Core} (hpc : s.pc = .scan 0)
    (hid : s.core.reservation[0]? = some id) (hq : s.core.computeQueue = []) (hl : s.core.readQueue = [])
    (hw : s.core.writeQueue = []) (hc : s.core.step (.finish id) = some c)
      (hg : ∀ t d, s.core.goes P t d → c.goes P t d)
    (stats : Stats) : ({ s with core := c, running := false, stats := stats, pc := .scan 1 } : St).Control P es bs := by
  have hrun : s.running = true := h.running_of_mem (Core.mem_live.mpr (.inl (List.mem_of_getElem? hid)))
  simp only [Core.step, Option.ite_none_right_eq_some, Bool.and_eq_true, decide_eq_true_eq, Option.some.injEq] at hc
  obtain ⟨⟨-, hret⟩, rfl⟩ := hc
  have hres := h.alone hL hid (terminator_of_isRet hret)
  have htodo : s.pc.todo = [] := by rw [hpc]; rfl
  have hlog := h.log
  simp only [hrun, if_true, List.append_nil] at hlog
  have hnil : (s.core.emit .finish).reservation.erase id = [] := by simp [hres]
  exact {
    path := h.path.mono hg
    log := by
      have hctl : Event.finish.control = true := rfl
      simp only [Core.filter_emit hctl, hlog, Bool.false_eq_true, if_false]
    stream := by rw [← h.stream, htodo]; rfl
    entry := h.entry
    todo := List.nil_suffix
    last := fun k hk _ => by simp only [hnil, List.not_mem_nil] at hk
    pending := fun _ hf => by cases hf
    taken := fun hf => by cases hf
    stopped := fun _ => ⟨⟨hnil, hq, hl, hw⟩, .inr ⟨1, rfl⟩⟩ }

/-- **One iteration keeps to the path**, or goes one block further. -/
theorem Control.iter (h : s.Control P es bs) (hT : P.Terminated) (hP : s.InProgram P)
    (hcore : Engine.core.ReachableWhen (ofProgram P) s.core) (hg : ∀ t d, s.core.goes P t d → s'.core.goes P t d)
    (hi : Iter P cfg s s') : ∃ es bs, s'.Control P es bs := by
  have hL := lists_of_reachable hcore
  have hrun : ∀ {i k : Nat}, s.core.reservation[i]? = some k → s.running = true := fun hk =>
    h.running_of_mem (Core.mem_live.mpr (.inl (List.mem_of_getElem? hk)))
  have hpass : ∀ {i : Nat}, s.pc = .compute i → s.running = true := fun hpc =>
    h.running (by simp [hpc]) (by simp [hpc])
  cases hi with
  | commit hpc hid hr hk hc =>
    exact ⟨es, bs, h.plain hg (Core.plain_of_step hL rfl hc) (hpass hpc) (hpass hpc) rfl (by simp [hpc, Pc.todo])⟩
  | bump hpc hid hr hk hc =>
    exact ⟨es, bs, h.plain hg (Core.plain_of_step hL rfl hc) (hpass hpc) (hpass hpc) rfl (by simp [hpc, Pc.todo])⟩
  | noUnit hpc hid hr hk =>
    exact ⟨es, bs, h.plain hg (.refl _) (hpass hpc) (hpass hpc) rfl (by simp [hpc, Pc.todo])⟩
  | computeEnd hpc hi hr =>
    exact ⟨es, bs, h.plain hg (.refl _) (hpass hpc) (hpass hpc) rfl (by simp [hpc, Pc.todo])⟩
  | nextBB hpc hi hr => exact ⟨_, _, h.nextBB hpc hr⟩
  | schedule hpc => exact ⟨es, bs, h.schedule hT hP hL hpc hg⟩
  | @schedEnd k hpc =>
    have hr : s.running = true := h.running (by simp [hpc]) (by simp [hpc])
    exact ⟨es, bs, h.plain hg (.refl _) hr hr rfl (by cases k <;> simp [hpc, Pc.todo])⟩
  | lockstep hpc =>
    have hr : s.running = true := h.running (by simp [hpc]) (by simp [hpc])
    exact ⟨es, bs, h.plain hg (.refl _) hr hr rfl (by simp [tickEnd, hpc, Pc.todo])⟩
  | scanBegin hpc =>
    have hr : s.running = true := h.running (by simp [hpc]) (by simp [hpc])
    exact ⟨es, bs, h.plain hg (.refl _) hr hr rfl (by simp [hpc, Pc.todo])⟩
  | scanEnd hpc hi =>
    -- the only iteration after the end of the run
    have htodo : s.pc.todo = [] := by rw [hpc]; rfl
    refine ⟨es, bs, h.path, h.log, by rw [← h.stream, htodo]; rfl, h.entry, List.nil_suffix, ?_, ?_, h.taken, ?_⟩
    · exact fun k hk ht => ⟨(h.last k hk ht).1, rfl⟩
    · exact fun hn hr => (h.pending hn hr).imp_left (absurd htodo)
    · exact fun hf => ⟨(h.stopped hf).1, .inl rfl⟩
  | load hpc hid hc =>
    exact ⟨es, bs, h.plain hg (by simpa using Core.plain_of_step hL rfl hc) (hrun hid) (by simpa using hrun hid)
      (by simp) (by simp [hpc, Pc.todo])⟩
  | store hpc hid hc =>
    exact ⟨es, bs, h.plain hg (by simpa using Core.plain_of_step hL rfl hc) (hrun hid) (by simpa using hrun hid)
      (by simp) (by simp [hpc, Pc.todo])⟩
  | @zero i id c c' hpc hid hz hc hc' =>
    have hp := (Core.plain_of_step hL rfl hc).trans
      (Core.plain_of_step (hL.effect (Core.effect_of_step hL hc)) rfl hc')
    exact ⟨es, bs, h.plain hg (by simpa using hp) (hrun hid) (by simpa using hrun hid) (by simp)
      (by simp [hpc, Pc.todo])⟩
  | @unit i id c c' hpc hid hz hk hc hc' =>
    have hp := (Core.plain_of_step hL rfl hc).trans
      (Core.plain_of_step (hL.effect (Core.effect_of_step hL hc)) rfl hc')
    exact ⟨es, bs, h.plain hg hp (hrun hid) (hrun hid) rfl (by simp [hpc, Pc.todo])⟩
  | branch hpc hid hlt hd hbb hc => exact ⟨_, _, h.branch hT hcore hpc hd hbb hc hg⟩
  | finish hpc hid ha hq hl hw hc => exact ⟨es, bs, h.finish hL hpc hid hq hl hw hc hg _⟩
  | skip hpc hid => exact ⟨es, bs, h.plain hg (.refl _) (hrun hid) (hrun hid) rfl (by simp [hpc, Pc.todo])⟩
  | spin hpc hid hn ha => exact ⟨es, bs, h⟩

theorem Control.move (h : s.Control P es bs) (hT : P.Terminated) (hP : s.InProgram P)
    (hcore : Engine.core.ReachableWhen (ofProgram P) s.core) {e : Ev}
    (hg : ∀ t d, s.core.goes P t d → s'.core.goes P t d) (hm : Move P cfg s e s') : ∃ es bs, s'.Control P es bs := by
  have hL := lists_of_reachable hcore
  cases hm with
  | tick hpc hr => exact ⟨es, bs, h.plain hg (.refl _) hr hr rfl (by simp [tickBegin, hpc, Pc.todo])⟩
  | iter hpc hi => exact h.iter hT hP hcore hg hi
  | @readCommit id data hpc hid =>
    have hs : s.core.step (.readCommit id data) = some (s.core.readCommit id data) := by simp [Core.step, hid]
    have hr : s.running = true := h.running_of_mem (Core.mem_live.mpr (.inr (.inr (.inl hid))))
    exact ⟨es, bs, h.plain hg (Core.plain_of_step hL rfl hs) hr hr rfl rfl⟩
  | @writeCommit id hpc hid =>
    have hs : s.core.step (.writeCommit id) = some (s.core.writeCommit id) := by simp [Core.step, hid]
    have hr : s.running = true := h.running_of_mem (Core.mem_live.mpr (.inr (.inr (.inr hid))))
    exact ⟨es, bs, h.plain hg (Core.plain_of_step hL rfl hs) hr hr rfl rfl⟩

end St

section Reachable

variable {P : Program} {cfg : Config} {s : St} {bs : List BasicBlock} {es : List Event}

/-- **Every reachable state is on a path.** -/
theorem control_of_reachable (hT : P.Terminated) (h : (engine P cfg).Reachable s) : ∃ es bs, s.Control P es bs := by
  refine System.invariantWhen (I := fun s => ∃ es bs, St.Control P s es bs) ?_ ?_ h
  · rintro s ⟨s₀, entry, init, ⟨h₁, h₂, h₃, h₄⟩, he, rfl⟩
    refine ⟨[], [], .start, rfl, rfl, fun _ => he, List.nil_suffix, ?_, ?_, ?_, ?_⟩
    · intro k hk
      simp [St.initializeRun, St.tickBegin, h₁] at hk
    · exact fun hn => absurd rfl hn
    · intro _ k hk
      simp [St.initializeRun, St.tickBegin, Core.start] at hk
    · exact fun hf => by cases hf
  · rintro s e s' hr ⟨es, bs, hI⟩ hC hs
    have hcore := core_of_reachable hr
    have hP := inProgram_of_reachable hr
    have hm := move_of_reachable hr hs
    have hrun := (hm.refines (gives_ofProgram P cfg fun _ _ => True) hC hP).2
    exact hI.move hT hP hcore (fun t d => goes_of_run hcore hrun) hm

/-- The number of calls of `comm->finish()`. -/
theorem St.Control.count_finish (h : s.Control P es bs) : s.core.log.count .finish = if s.running then 0 else 1 := by
  have hc : s.core.log.count .finish = (s.core.log.filter Event.control).count .finish :=
    (List.count_filter rfl).symm
  rw [hc, h.log, List.count_append, List.count_eq_zero.mpr h.path.not_finish]
  cases s.running <;> rfl

/-- The engine stops only when the ret leaves the table. -/
theorem St.Move.stops {s' : St} {e : Ev} (h : St.Move P cfg s e s') (hne : s'.running ≠ s.running) :
    ∃ ret, s.pc = .scan 0 ∧ s.core.reservation[0]? = some ret ∧ (s.core.node ret).isRet = true ∧
      s.core.computeQueue = [] ∧ s.core.readQueue = [] ∧ s.core.writeQueue = [] ∧ s'.running = false := by
  cases h with
  | tick hpc hr => exact absurd rfl hne
  | readCommit hpc hid => exact absurd rfl hne
  | writeCommit hpc hid => exact absurd rfl hne
  | iter hpc hi =>
    cases hi with
    | finish hpc hid ha hq hl hw hc =>
      simp only [Core.step, Option.ite_none_right_eq_some, Bool.and_eq_true, decide_eq_true_eq] at hc
      exact ⟨_, hpc, hid, hc.1.2, hq, hl, hw, rfl⟩
    | _ => exact absurd (by first | rfl | simp [St.scheduleBB]) hne

/-- The instances of the table, in program order. -/
theorem Core.Lists.sublist_range {c : Core} (h : c.Lists) : c.reservation.Sublist (List.range c.next) := by
  refine List.sublist_of_subperm_of_pairwise (r := (· < ·)) ?_ h.sorted List.pairwise_lt_range
  exact List.subperm_of_subset h.reservation_nodup fun k hk =>
    List.mem_range.mpr (h.lt_next k (Core.mem_live.mpr (.inl hk)))

/-- The terminator is the last entry of the table. -/
theorem St.Control.getLast (h : s.Control P es bs) (hL : s.core.Lists) {k : Nat} (hk : k ∈ s.core.reservation)
    (ht : (s.core.node k).terminator = true) : s.core.reservation.getLast? = some k := by
  have hlast := (h.last k hk ht).1
  obtain ⟨pre, m, hm⟩ := List.eq_nil_or_concat s.core.reservation |>.resolve_left (List.ne_nil_of_mem hk)
  rw [List.concat_eq_append] at hm
  have hmk : m = k := by
    have hlt := hL.lt_next m (Core.mem_live.mpr (.inl (by simp [hm])))
    have hsorted := hL.sorted
    rw [hm, List.pairwise_append] at hsorted
    rw [hm, List.mem_append, List.mem_singleton] at hk
    rcases hk with hk | hk
    · have := hsorted.2.2 k hk m (List.mem_singleton_self m)
      omega
    · exact hk.symm
  rw [hm, hmk, List.getLast?_append, List.getLast?_singleton, Option.some_or]

/-- Every instance but the ret has committed or was taken when the queues are empty. -/
theorem St.Control.committed (h : s.Control P es bs) (hcore : Engine.core.ReachableWhen (ofProgram P) s.core)
    (hz : P.MemoryLatencyZero) (hrun : s.running = true) {ret : Nat} (hlive : s.core.live = [ret]) {k : Nat}
    (hk : k < s.core.next) (hne : k ≠ ret) : Engine.committed s.core.log k = true ∨ ∃ d, .branch k d ∈ s.core.log := by
  have hnot : k ∉ s.core.live := by simpa [hlive] using hne
  by_cases hq : (s.core.node k).queued = true
  · exact .inl ((settled_of_reachable hz hcore k hk hq).resolve_left hnot)
  · have ht : (s.core.node k).terminator = true := by
      simp only [Node.queued, Bool.or_eq_true, not_or, Bool.not_eq_true] at hq
      by_contra ht
      simp [Node.onUnit_of_not (by simpa using ht) hq.1.2 hq.2] at hq
    exact .inr ((h.taken hrun k hk ht).resolve_left fun hr => hnot (Core.mem_live.mpr (.inl hr)))

end Reachable

/-- **Control order and completion.** In every reachable state the reservation table is in program order and holds a
terminator only as its last entry; the blocks handed to `scheduleBB` are the path that the conditions of the branches
give, and the instances are the nodes of its blocks; `comm->finish()` is called at most once, when nothing but the ret
is left and every other instance has committed or was taken. -/
theorem control_order {P : Program} {cfg : Config} {s : St} (hT : P.Terminated) (h : (engine P cfg).Reachable s) :
    s.core.reservation.Sublist (List.range s.core.next) ∧
    (∀ k ∈ s.core.reservation, (s.core.node k).terminator = true → s.core.reservation.getLast? = some k) ∧
    (∃ es bs, Path P (s.core.goes P) es bs ∧
      (List.range s.core.next).map s.core.node ++ s.pc.todo = bs.flatMap (·.nodes) ∧
      s.core.log.filter Event.control = es ++ if s.running then [] else [.finish]) ∧
    s.core.log.count .finish ≤ 1 ∧
    ∀ e s', (engine P cfg).step s e = some s' → s'.core.log.count .finish ≠ s.core.log.count .finish →
      ∃ ret, (s.core.node ret).isRet = true ∧ s.core.reservation = [ret] ∧ s.core.computeQueue = [] ∧
        s.core.readQueue = [] ∧ s.core.writeQueue = [] ∧ s.pc.todo = [] ∧ s'.Quiet ∧
        (P.MemoryLatencyZero → ∀ k < s.core.next, k ≠ ret →
          committed s.core.log k = true ∨ ∃ d, .branch k d ∈ s.core.log) := by
  obtain ⟨es, bs, hI⟩ := control_of_reachable hT h
  have hcore := core_of_reachable h
  have hL := lists_of_reachable hcore
  refine ⟨hL.sublist_range, fun k hk ht => hI.getLast hL hk ht, ⟨es, bs, hI.path, hI.stream, hI.log⟩, ?_, ?_⟩
  · rw [hI.count_finish]
    split <;> omega
  · intro e s' hs hne
    obtain ⟨es', bs', hI'⟩ := control_of_reachable hT (h.step trivial hs)
    -- the number of calls changes only when the engine stops
    have hrun : s'.running ≠ s.running := by
      intro he
      rw [hI.count_finish, hI'.count_finish, he] at hne
      exact hne rfl
    obtain ⟨ret, hpc, hid, hret, hq, hl, hw, hstop⟩ := (move_of_reachable h hs).stops hrun
    have hres := hI.alone hL hid (St.terminator_of_isRet hret)
    have hrunning : s.running = true := by simpa [hstop] using hrun
    refine ⟨ret, hret, hres, hq, hl, hw, by rw [hpc]; rfl, (hI'.stopped hstop).1, fun hz k hk hkr => ?_⟩
    exact hI.committed hcore hz hrunning (by simp [Core.live, hres, hq, hl, hw]) hk hkr

/-- `%1 = icmp %0` decides between a block that goes back and a ret. -/
def loopBB : BasicBlock where
  name := "loop"
  nodes := [⟨"%1 = icmp eq i64 %0, 7", 1, .compute 1 1 [0] .compare fun ops => if ops.headD 0 = 7 then 1 else 0⟩,
    ⟨"br i1 %1, label %exit, label %loop", 0, .condBr 1 "exit" "loop"⟩]

def exitBB : BasicBlock where
  name := "exit"
  nodes := [⟨"ret void", 0, .ret⟩]

def loopExit : Program := ⟨[loopBB, exitBB], by decide⟩

theorem loopExit_terminated : loopExit.Terminated := by
  intro b hb
  simp only [loopExit, List.mem_cons, List.not_mem_nil, or_false] at hb
  rcases hb with rfl | rfl
  · exact ⟨[_], _, rfl, rfl, by simp [Node.terminator]⟩
  · exact ⟨[], _, rfl, rfl, by simp⟩

theorem control_order_loopExit : ∃ s, (engine loopExit .unlimited).Reachable s ∧
    s.core.log.filter Event.control = [.scheduleBB "loop", .branch 1 "exit", .scheduleBB "exit"] ∧
    s.core.reservation.getLast? = some 2 ∧
    ∃ ret, s.core.reservation = [ret] ∧ ∀ k < s.core.next, k ≠ ret →
      committed s.core.log k = true ∨ ∃ d, .branch k d ∈ s.core.log := by
  obtain ⟨s, hs, hk, ht, hlog, hfin⟩ := System.reachable_of_replay
    (engine_boot loopExit .unlimited rfl fun _ => 7) (List.replicate 8 .iter ++ [.tick] ++ List.replicate 6 .iter)
    (fun s => 2 ∈ s.core.reservation ∧ (s.core.node 2).terminator = true ∧
      s.core.log.filter Event.control = [.scheduleBB "loop", .branch 1 "exit", .scheduleBB "exit"] ∧
      (((engine loopExit .unlimited).step s .iter).any fun s' =>
        s'.core.log.count .finish ≠ s.core.log.count .finish) = true) (by decide)
  obtain ⟨-, hlast, -, -, hstop⟩ := control_order loopExit_terminated hs
  obtain ⟨s', hs', hne⟩ := (Option.any_eq_true _ _).mp hfin
  obtain ⟨ret, -, hres, -, -, -, -, -, hall⟩ := hstop .iter s' hs' (by simpa using hne)
  exact ⟨s, hs, hlog, hlast 2 hk ht, ret, hres, hall (by decide)⟩

end Salam.Engine
