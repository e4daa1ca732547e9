import Salam.Scratchpad.Protocol

/-!
# What the ports see

Along the runs that keep `St.alone`, no response is sent to a port that has yet to ask for one, a port that asks is
expected to, and every request that needs a response gets one. That the response comes is shown by a run: the time goes
on tick by tick, the releases that are due are carried out (`run_releases`), and the head of the queue is taken
(`run_deliver`), until the queue is empty (`run_drain`).

* `response_protocol`: the protocol as the ports see it.
* `response_to_waiting`: a run with two ports that breaks it.
-/

namespace Salam.Scratchpad

open St

/-- The runs in which a request that needs a response is accepted only while no other port waits. -/
abbrev AloneRun (cfg : Config) : St → St → Prop := (memory cfg).Run fun s e => s.alone cfg e = true

namespace St

/-- The release events are those of the ports, and they are not late. -/
def Released (cfg : Config) (s : St) : Prop := ∀ p u, s.releaseEvent p = some u → p < cfg.ports ∧ s.curTick ≤ u

section Released

variable {cfg : Config} {s s' : St}

theorem Released.recvTimingReq (h : Released cfg s) {p jitter : Nat} {pkt : Packet} {b : Bool} (hp : p < cfg.ports)
    (hr : s.recvTimingReq cfg p pkt jitter = .ok (s', b)) : Released cfg s' := by
  have hcases : s'.curTick = s.curTick ∧ (s'.releaseEvent = s.releaseEvent ∨
      s'.releaseEvent = Function.update s.releaseEvent p (some (s.curTick + cfg.duration pkt.size))) := by
    rcases recvTimingReq_cases hr with ⟨hsame, hrelease⟩ | ⟨-, -, s₁, hsame, hrelease, rfl⟩
    · exact ⟨hsame.curTick, .inl hrelease⟩
    · split
      · obtain ⟨t, -, heq⟩ := respond_eq s₁ ⟨s.curTick + pkt.delay + (cfg.latency + jitter), pkt, p⟩
        rw [heq]
        exact ⟨hsame.curTick, hrelease⟩
      · exact ⟨hsame.curTick, hrelease⟩
  obtain ⟨hnow, hevent | hevent⟩ := hcases
  · intro q u hq
    rw [hnow]
    rw [hevent] at hq
    exact h q u hq
  · intro q u hq
    rw [hnow]
    rw [hevent, Function.update_apply] at hq
    split at hq
    · rename_i hqp
      obtain rfl := Option.some.inj hq
      exact ⟨hqp ▸ hp, Nat.le_add_right _ _⟩
    · exact h q u hq

theorem Released.step {e : Ev} (h : Released cfg s) (hs : s.step cfg e = some s') : Released cfg s' := by
  cases e with
  | advance t =>
    simp only [St.step] at hs
    split at hs
    · rename_i hc
      obtain rfl := Option.some.inj hs
      intro q u hq
      have hquiet := hc.2.2
      simp only [quiet, Bool.and_eq_true, List.all_eq_true, List.mem_range] at hquiet
      have hq : s.releaseEvent q = some u := hq
      have := hquiet.2 q (h q u hq).1
      rw [hq, Option.all_some, decide_eq_true_eq] at this
      exact ⟨(h q u hq).1, this⟩
    · cases hs
  | request p pkt jitter =>
    simp only [St.step] at hs
    split at hs
    · rename_i hc
      obtain ⟨⟨s₁, b⟩, hok, rfl⟩ := Option.map_eq_some_iff.mp hs
      exact h.recvTimingReq hc.1 (ok_of_toOption hok)
    · cases hs
  | release p =>
    simp only [St.step] at hs
    split at hs
    · obtain rfl := Option.some.inj hs
      intro q u hq
      have hq : Function.update s.releaseEvent p none q = some u := hq
      rw [Function.update_apply] at hq
      split at hq
      · cases hq
      · exact h q u hq
    · cases hs
  | releaseNext =>
    simp only [St.step] at hs
    split at hs
    · obtain rfl := Option.some.inj hs
      unfold St.release
      split
      · dsimp only
        split
        · exact h
        · exact h
      · exact h
    · cases hs
  | dequeue taken =>
    simp only [St.step] at hs
    split at hs
    · obtain ⟨d, rest, -, rfl⟩ := dequeue_ok (ok_of_toOption hs)
      exact h
    · cases hs
  | returned =>
    simp only [St.step] at hs
    split at hs
    · obtain rfl := Option.some.inj hs
      unfold St.dequeued
      dsimp only
      split
      · split
        · exact h
        · exact h
      · exact h
    · cases hs
  | respRetry p taken =>
    simp only [St.step] at hs
    split at hs
    · have hr := ok_of_toOption hs
      unfold St.recvRespRetry at hr
      split at hr
      · obtain ⟨d, rest, -, rfl⟩ := dequeue_ok hr
        exact h
      · cases hr
    · cases hs

end Released

end St

/-! ## The responses come -/

section Drain

variable (cfg : Config) {s s' : St}

theorem run_step {e : Ev} (ha : s.alone cfg e = true) (h : s.step cfg e = some s') : AloneRun cfg s s' := .single ha h

/-- The memory is idle again, and the queue has not been touched. -/
structure Idle (s s' : St) : Prop where
  pc : s'.pc = .idle
  packetQueue : s'.packetQueue = s.packetQueue
  dequeueEvent : s'.dequeueEvent = s.dequeueEvent
  log : s'.log = s.log

theorem Idle.trans {s s₁ s₂ : St} (h : Idle s s₁) (h' : Idle s₁ s₂) : Idle s s₂ :=
  ⟨h'.pc, h'.packetQueue.trans h.packetQueue, h'.dequeueEvent.trans h.dequeueEvent, h'.log.trans h.log⟩

theorem run_release {idx : Nat} (hpc : s.pc = .releasing idx) : ∃ s', AloneRun cfg s s' ∧ Idle s s' ∧
    s'.curTick = s.curTick ∧ s'.releaseEvent = s.releaseEvent := by
  -- by induction over the ports that are left
  generalize hn : cfg.ports - idx = n
  induction n generalizing s idx with
  | zero =>
    refine ⟨{ s with pc := .idle }, run_step cfg (e := .releaseNext) rfl ?_, ⟨rfl, rfl, rfl, rfl⟩, rfl, rfl⟩
    simp only [St.step, hpc, St.release]
    rw [if_neg (by omega)]
  | succ n ih =>
    have hstep : s.step cfg .releaseNext = some (s.release cfg idx) := by simp only [St.step, hpc]
    have hlt : idx < cfg.ports := by omega
    have hpc' : (s.release cfg idx).pc = .releasing (idx + 1) := by
      simp only [St.release, if_pos hlt]
      split <;> rfl
    obtain ⟨s', hrun, hidle, hnow, hevent⟩ := ih hpc' (by omega)
    refine ⟨s', (run_step cfg rfl hstep).trans hrun, ⟨hidle.pc, hidle.packetQueue.trans ?_, hidle.dequeueEvent.trans ?_,
      hidle.log.trans ?_⟩, hnow.trans ?_, hevent.trans ?_⟩
    all_goals
      simp only [St.release, if_pos hlt]
      split <;> rfl

/-- The release events of the ports in the list fire, when they are due. -/
theorem run_due (hpc : s.pc = .idle) (l : List Nat) : ∃ s', AloneRun cfg s s' ∧ Idle s s' ∧ s'.curTick = s.curTick ∧
    (∀ q, s'.releaseEvent q = none ∨ s'.releaseEvent q = s.releaseEvent q) ∧
    ∀ p ∈ l, s'.releaseEvent p ≠ some s.curTick := by
  induction l generalizing s with
  | nil => exact ⟨s, .refl s, ⟨hpc, rfl, rfl, rfl⟩, rfl, fun q => .inr rfl, fun p hp => nomatch hp⟩
  | cons p l ih =>
    by_cases hdue : s.releaseEvent p = some s.curTick
    · -- the event of `p` fires first
      have hstep : s.step cfg (.release p) =
          some { s with releaseEvent := Function.update s.releaseEvent p none, pc := .releasing 0 } :=
        if_pos ⟨hpc, hdue⟩
      obtain ⟨s₁, hrun₁, hidle₁, hnow₁, hevent₁⟩ := run_release cfg
        (s := { s with releaseEvent := Function.update s.releaseEvent p none, pc := .releasing 0 }) rfl
      obtain ⟨s', hrun, hidle, hnow, hkept, hdone⟩ := ih hidle₁.pc
      have hp : s₁.releaseEvent p = none := by rw [hevent₁]; exact Function.update_self ..
      refine ⟨s', ((run_step cfg rfl hstep).trans hrun₁).trans hrun, ?_, hnow.trans hnow₁, fun q => ?_, fun q hq => ?_⟩
      · have hidle₀ : Idle s s₁ := ⟨hidle₁.pc, hidle₁.packetQueue, hidle₁.dequeueEvent, hidle₁.log⟩
        exact hidle₀.trans hidle
      · by_cases hqp : q = p
        · rw [hqp]
          exact .inl ((hkept p).elim id fun he => he.trans hp)
        · refine (hkept q).imp_right fun he => he.trans ?_
          rw [hevent₁]
          exact Function.update_of_ne hqp ..
      · rcases List.mem_cons.mp hq with rfl | hq
        · rw [(hkept q).elim id fun he => he.trans hp]
          exact nofun
        · have := hdone q hq
          rwa [hnow₁] at this
    · obtain ⟨s', hrun, hidle, hnow, hkept, hdone⟩ := ih hpc
      refine ⟨s', hrun, hidle, hnow, hkept, fun q hq => ?_⟩
      rcases List.mem_cons.mp hq with rfl | hq
      · rcases hkept q with he | he
        · rw [he]
          exact nofun
        · rw [he]
          exact hdue
      · exact hdone q hq

/-- The time comes at which the head of the queue is sent. -/
theorem run_until {t : Nat} (hpc : s.pc = .idle) (hr : Released cfg s) (hd : s.dequeueEvent = some t)
    (ht : s.curTick ≤ t) : ∃ s', AloneRun cfg s s' ∧ Idle s s' ∧ s'.curTick = t := by
  generalize hn : t - s.curTick = n
  induction n generalizing s with
  | zero => exact ⟨s, .refl s, ⟨hpc, rfl, rfl, rfl⟩, by omega⟩
  | succ n ih =>
    obtain ⟨s₁, hrun₁, hidle₁, hnow₁, -, hdone⟩ := run_due cfg hpc (List.range cfg.ports)
    have hr₁ : Released cfg s₁ := hrun₁.keeps (fun _ _ _ h _ hs => h.step hs) hr
    have hstep : s₁.step cfg (.advance (s₁.curTick + 1)) = some { s₁ with curTick := s₁.curTick + 1 } := by
      refine if_pos ⟨hidle₁.pc, Nat.le_succ _, ?_⟩
      simp only [quiet, hidle₁.dequeueEvent, hd, Option.all_some, Bool.and_eq_true, decide_eq_true_eq,
        List.all_eq_true, List.mem_range]
      refine ⟨by omega, fun p hp => ?_⟩
      cases hu : s₁.releaseEvent p with
      | none => rfl
      | some u =>
        have hle := (hr₁ p u hu).2
        have hne := hdone p (List.mem_range.mpr hp)
        rw [hu, ne_eq, Option.some.injEq] at hne
        rw [Option.all_some, decide_eq_true_eq]
        omega
    have hrun₂ := run_step cfg rfl hstep
    obtain ⟨s', hrun, hidle, hnow⟩ := ih (s := { s₁ with curTick := s₁.curTick + 1 }) hidle₁.pc
      (hrun₂.keeps (fun _ _ _ h _ hs => h.step hs) hr₁) (hidle₁.dequeueEvent.trans hd)
      (by show s₁.curTick + 1 ≤ t; omega) (by show t - (s₁.curTick + 1) = n; omega)
    exact ⟨s', (hrun₁.trans hrun₂).trans hrun,
      hidle₁.trans ⟨hidle.pc, hidle.packetQueue, hidle.dequeueEvent, hidle.log⟩, hnow⟩

/-- The head of the queue is sent and taken. -/
theorem run_deliver (h : Protocol cfg s) (hr : Released cfg s) (hpc : s.pc = .idle) {d : DeferredPacket}
    {rest : List DeferredPacket} (hq : s.packetQueue = d :: rest) : ∃ s', AloneRun cfg s s' ∧ s'.pc = .idle ∧
    s'.packetQueue = rest ∧ ∀ p id, .accept p id true ∈ s.log → .accept p id true ∈ s'.log := by
  -- after the call there is one packet less
  have hreturned : ∀ s₁ : St, s₁.pc = .sending d true → s₁.packetQueue = d :: rest → s₁.log = s.log →
      ∃ s', AloneRun cfg s₁ s' ∧ s'.pc = .idle ∧ s'.packetQueue = rest ∧
        ∀ p id, .accept p id true ∈ s.log → .accept p id true ∈ s'.log := by
    intro s₁ hpc₁ hq₁ hlog
    have hstep : s₁.step cfg .returned = some (s₁.dequeued d true) := by simp only [St.step, hpc₁]
    refine ⟨_, run_step cfg rfl hstep, ?_, ?_, fun p id hm => ?_⟩
    · cases rest <;> simp [St.dequeued, emit, hq₁]
    · cases rest <;> simp [St.dequeued, emit, hq₁]
    · have hlog' : (s₁.dequeued d true).log = s₁.log ++ [.response d.origin d.pkt.id true] := by
        cases rest <;> simp [St.dequeued, emit, hq₁]
      rw [hlog', hlog]
      exact List.mem_append_left _ hm
  have hcall : s.call = none := call_of_idle hpc
  rcases h.served (by rw [hq]; exact List.cons_ne_nil d rest) hcall with he | ⟨p, hw⟩
  · obtain ⟨t, ht⟩ := Option.isSome_iff_exists.mp he
    obtain ⟨s₁, hrun₁, hidle₁, hnow⟩ := run_until cfg hpc hr ht (h.future t ht)
    have hq₁ : s₁.packetQueue = d :: rest := hidle₁.packetQueue.trans hq
    have hstep : s₁.step cfg (.dequeue true) = some { s₁ with dequeueEvent := none, pc := .sending d true } := by
      simp only [St.step, hidle₁.pc, hidle₁.dequeueEvent, ht, hnow, and_self, if_true, St.dequeue, hq₁]
      rfl
    obtain ⟨s', hrun, hs'⟩ := hreturned { s₁ with dequeueEvent := none, pc := .sending d true } rfl hq₁ hidle₁.log
    exact ⟨s', (hrun₁.trans (run_step cfg rfl hstep)).trans hrun, hs'⟩
  · have hstep : s.step cfg (.respRetry p true) =
        some { s with waiting := Function.update s.waiting p false, pc := .sending d true } := by
      simp only [St.step, hpc, hw, and_self, if_true, St.recvRespRetry, (h.waits p hw).1, St.dequeue, hq]
      rfl
    obtain ⟨s', hrun, hs'⟩ := hreturned
      { s with waiting := Function.update s.waiting p false, pc := .sending d true } rfl hq rfl
    exact ⟨s', (run_step cfg rfl hstep).trans hrun, hs'⟩

/-- Whatever the memory is doing, it can become idle. -/
theorem run_idle (s : St) : ∃ s', AloneRun cfg s s' ∧ s'.pc = .idle ∧
    ∀ p id, .accept p id true ∈ s.log → .accept p id true ∈ s'.log := by
  cases hpc : s.pc with
  | idle => exact ⟨s, .refl s, hpc, fun _ _ => id⟩
  | releasing idx =>
    obtain ⟨s', hrun, hidle, -⟩ := run_release cfg hpc
    exact ⟨s', hrun, hidle.pc, fun p id hm => hidle.log ▸ hm⟩
  | sending d taken =>
    have hstep : s.step cfg .returned = some (s.dequeued d taken) := by simp only [St.step, hpc]
    refine ⟨_, run_step cfg rfl hstep, ?_, fun p id hm => ?_⟩
    · unfold St.dequeued
      dsimp only
      split
      · split <;> rfl
      · rfl
    · have hlog : (s.dequeued d taken).log = s.log ++ [.response d.origin d.pkt.id taken] := by
        unfold St.dequeued
        dsimp only
        split
        · split <;> rfl
        · rfl
      rw [hlog]
      exact List.mem_append_left _ hm

/-- **The queue can be emptied.** -/
theorem run_drain (h : Protocol cfg s) (hr : Released cfg s) : ∃ s', AloneRun cfg s s' ∧ s'.packetQueue = [] ∧
    ∀ p id, .accept p id true ∈ s.log → .accept p id true ∈ s'.log := by
  have hkeep : ∀ {s s'}, AloneRun cfg s s' → Protocol cfg s → Protocol cfg s' := fun hrun hp =>
    hrun.keeps (fun _ _ _ h ha hs => h.step ha hs) hp
  have hkeep' : ∀ {s s'}, AloneRun cfg s s' → Released cfg s → Released cfg s' := fun hrun hp =>
    hrun.keeps (fun _ _ _ h _ hs => h.step hs) hp
  obtain ⟨s₁, hrun₁, hpc, hlog₁⟩ := run_idle cfg s
  suffices hsuff : ∀ (q : List DeferredPacket) (s : St), s.packetQueue = q → Protocol cfg s → Released cfg s →
      s.pc = .idle → ∃ s', AloneRun cfg s s' ∧ s'.packetQueue = [] ∧
        ∀ p id, .accept p id true ∈ s.log → .accept p id true ∈ s'.log by
    obtain ⟨s', hrun, hnil, hlog⟩ := hsuff _ s₁ rfl (hkeep hrun₁ h) (hkeep' hrun₁ hr) hpc
    exact ⟨s', hrun₁.trans hrun, hnil, fun p id hm => hlog p id (hlog₁ p id hm)⟩
  intro q
  induction q with
  | nil => exact fun s hq _ _ _ => ⟨s, .refl s, hq, fun _ _ => id⟩
  | cons d rest ih =>
    intro s hq h hr hpc
    obtain ⟨s₂, hrun₂, hpc₂, hq₂, hlog₂⟩ := run_deliver cfg h hr hpc hq
    obtain ⟨s', hrun, hnil, hlog⟩ := ih s₂ hq₂ (hkeep hrun₂ h) (hkeep' hrun₂ hr) hpc₂
    exact ⟨s', hrun₂.trans hrun, hnil, fun p id hm => hlog p id (hlog₂ p id hm)⟩

end Drain

/-! ## The protocol -/

/-- The protocol as the ports see it: no response is sent to a port that has refused one and not yet asked for it; a
port that asks is expected to; and a packet that needs a response has one, in the queue or taken by its port, and its
port can take it. -/
structure ResponseProtocol (cfg : Config) (s : St) : Prop where
  notWaiting : ∀ d taken, s.pc = .sending d taken → s.waiting d.origin = false
  expected : ∀ p taken, s.pc = .idle → s.waiting p = true → s.recvRespRetry p taken ≠ .error .noRetryResp
  once : ∀ p id, .accept p id true ∈ s.log → s.pending p id + s.answers p id = 1
  solicited : ∀ p id, .response p id true ∈ s.log → .accept p id true ∈ s.log
  delivered : ∀ p id, .accept p id true ∈ s.log → ∃ s', (memory cfg).Run (fun _ _ => True) s s' ∧ s'.answers p id = 1

theorem released_of_reachable {cfg : Config} {s : St} (h : (memory cfg).Reachable s) : Released cfg s := by
  refine System.invariantWhen (I := Released cfg) ?_ ?_ h
  · rintro s rfl p u hu
    cases hu
  · exact fun s e s' _ hs _ hstep => hs.step hstep

/-- **The protocol holds as long as no request that needs a response is accepted while another port waits.** -/
theorem response_protocol {cfg : Config} {s : St}
    (h : (memory cfg).ReachableWhen (fun s e => s.alone cfg e = true) s) : ResponseProtocol cfg s := by
  have hp := protocol_of_reachable h
  refine ⟨?_, ?_, hp.once, ?_, ?_⟩
  · intro d taken hpc
    have hc : s.call = some (d, taken) := by rw [call, hpc]
    exact hp.not_waiting_of_call hc d.origin
  · intro p taken _ hw he
    obtain ⟨hretry, -, -, d, rest, hq, -⟩ := hp.waits p hw
    unfold recvRespRetry at he
    rw [if_pos hretry] at he
    simp only [dequeue, hq] at he
    cases he
  · intro p id hm
    have hpos : 0 < s.answers p id := List.count_pos_iff.mpr hm
    exact hp.known p id (by omega)
  · intro p id hm
    obtain ⟨s', hrun, hnil, hlog⟩ := run_drain cfg hp (released_of_reachable h.reachable)
    refine ⟨s', hrun.mono fun _ _ _ => trivial, ?_⟩
    have hone := (protocol_of_reachable (h.run hrun)).once p id (hlog p id hm)
    simpa [pending, hnil] using hone

/-- Two ports, a latency of ten ticks and a tick for each byte. -/
def twoPorts : Config := ⟨2, 0, 64, false, false, false, false, 10, 0, id⟩

def readReq (id : Nat) (addr : Word) : Packet := ⟨id, addr, 4, true, false, false, false, true, false, false, 0⟩

/-- The release event of the port, at the tick `t`. -/
def releaseAt (t p : Nat) : List Ev := [.advance t, .release p, .releaseNext, .releaseNext, .releaseNext]

/-- The port `0` refuses its response. -/
def refuse : List Ev :=
  .request 0 (readReq 0 0) 0 :: releaseAt 4 0 ++ [.advance 10, .dequeue false, .returned]

/-- A second request on the port that waits is not followed by a second response. -/
theorem response_protocol_samePort : ∃ s, (memory twoPorts).ReachableWhen (fun s e => s.alone twoPorts e = true) s ∧
    s.waiting 0 = true ∧ s.packetQueue.length = 2 ∧ ResponseProtocol twoPorts s := by
  obtain ⟨s, hs, hw, hq⟩ := System.reachableWhen_of_replay (S := memory twoPorts) (C := fun s e => s.alone twoPorts e)
    (rfl : (memory twoPorts).init .start) (refuse ++ [.request 0 (readReq 1 8) 0])
    (fun s => s.waiting 0 = true ∧ s.packetQueue.length = 2) (by decide)
  exact ⟨s, hs, hw, hq, response_protocol hs⟩

/-- A request on the port `1` instead, and the event that it schedules. -/
def secondPort : List Ev :=
  refuse ++ .request 1 (readReq 1 8) 0 :: releaseAt 14 1 ++ [.advance 20, .dequeue true]

/-- A request on another port makes the memory send a response to a port that waits; when the port takes it, its retry
runs into the assertion. -/
theorem response_to_waiting :
    (∃ s d, (memory twoPorts).Reachable s ∧ s.pc = .sending d true ∧ s.waiting d.origin = true ∧
      ¬ ResponseProtocol twoPorts s) ∧
    ∃ s, (memory twoPorts).Reachable s ∧ s.pc = .idle ∧ s.waiting 0 = true ∧
      s.recvRespRetry 0 true = .error .noRetryResp ∧ ¬ ResponseProtocol twoPorts s := by
  constructor
  · obtain ⟨s, hs, hpc, hw⟩ := System.reachable_of_replay (S := memory twoPorts)
      (rfl : (memory twoPorts).init .start) secondPort
      (fun s => s.pc = .sending ⟨10, readReq 0 0, 0⟩ true ∧ s.waiting 0 = true) (by decide)
    refine ⟨s, _, hs, hpc, hw, fun hr => ?_⟩
    have := hr.notWaiting _ _ hpc
    rw [hw] at this
    cases this
  · obtain ⟨s, hs, hpc, hw, hr⟩ := System.reachable_of_replay (S := memory twoPorts)
      (rfl : (memory twoPorts).init .start)
      (secondPort ++ [.returned]) (fun s => s.pc = .idle ∧ s.waiting 0 = true ∧ s.retryResp 0 = false)
      (by decide)
    have hfail : s.recvRespRetry 0 true = .error .noRetryResp := if_neg (by simp [hr])
    exact ⟨s, hs, hpc, hw, hfail, fun h => h.expected 0 true hpc hw hfail⟩

end Salam.Scratchpad
