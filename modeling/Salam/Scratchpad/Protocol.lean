import Mathlib.Data.List.Perm.Basic
import Salam.Scratchpad.Memory

/-!
# The response protocol as an invariant

`retryResp` is kept for each port, but the queue and the event that empties it are shared. The test in `recvTimingReq`
looks at the port of the new request only: a request on one port schedules `dequeueEvent` while another port, whose
response is at the head of the queue, has yet to ask for it again. Runs in which no request that needs a response is
accepted at such a moment (`St.alone`) keep `Protocol`.

* `protocol_of_reachable`: `Protocol` holds in every state of these runs.
-/

namespace Salam.Scratchpad

namespace St

/-! ## The queue -/

section Queue

variable {d x : DeferredPacket}

/-- A response never goes before the head of the queue. -/
theorem emplaceBack_append (d x : DeferredPacket) : ∀ l : List DeferredPacket,
    ∃ l', emplaceBack d (l ++ [x]) = l' ++ [x] ∧ l'.Perm (d :: l) := by
  intro l
  induction l with
  | nil => exact ⟨[d], rfl, .refl _⟩
  | cons a l ih =>
    obtain ⟨l', hl, hperm⟩ := ih
    obtain ⟨y, rest, hy⟩ := List.exists_cons_of_ne_nil (List.append_ne_nil_of_right_ne_nil l (List.cons_ne_nil x []))
    rw [List.cons_append, hy, emplaceBack]
    split
    · refine ⟨a :: l', by rw [← hy, hl]; rfl, ?_⟩
      exact (hperm.cons a).trans (.swap d a l)
    · exact ⟨d :: a :: l, by rw [← hy]; rfl, .refl _⟩

theorem emplace_cons (d x : DeferredPacket) (q : List DeferredPacket) :
    ∃ q', emplace d (x :: q) = x :: q' ∧ q'.Perm (d :: q) := by
  obtain ⟨l', hl, hperm⟩ := emplaceBack_append d x q.reverse
  refine ⟨l'.reverse, ?_, ?_⟩
  · rw [emplace, List.reverse_cons, hl]
    simp
  · exact (l'.reverse_perm.trans hperm).trans (q.reverse_perm.cons d)

theorem emplace_perm (d : DeferredPacket) (q : List DeferredPacket) : (emplace d q).Perm (d :: q) := by
  cases q with
  | nil => exact .refl _
  | cons x q =>
    obtain ⟨q', hq, hperm⟩ := emplace_cons d x q
    rw [hq]
    exact (hperm.cons x).trans (.swap d x q)

/-- The last response of the queue is not due before the new one. -/
theorem emplace_getLast (d : DeferredPacket) (q : List DeferredPacket) :
    ∃ y, (emplace d q).getLast? = some y ∧ d.tick ≤ y.tick := by
  rw [emplace, List.getLast?_reverse]
  match q.reverse with
  | [] => exact ⟨d, rfl, Nat.le_refl _⟩
  | [x] => exact ⟨d, rfl, Nat.le_refl _⟩
  | x :: y :: rest =>
    rw [emplaceBack]
    split
    · rename_i h
      rw [Bool.and_eq_true, decide_eq_true_eq] at h
      exact ⟨x, rfl, Nat.le_of_lt h.1⟩
    · exact ⟨d, rfl, Nat.le_refl _⟩

end Queue

/-! ## The protocol -/

/-- The call of `sendTimingResp` that is running. -/
def call (s : St) : Option (DeferredPacket × Bool) :=
  match s.pc with
  | .sending d taken => some (d, taken)
  | _ => none

/-- The responses to the packet that are in the queue, and those that the port has taken. -/
def pending (s : St) (p id : Nat) : Nat := s.packetQueue.countP fun d => d.origin = p && d.pkt.id = id

def answers (s : St) (p id : Nat) : Nat := s.log.count (.response p id true)

/-- At most the port of the head of the queue waits, and then `dequeueEvent` is not scheduled. -/
structure Protocol (cfg : Config) (s : St) : Prop where
  retrying : ∀ p, s.retryResp p = true → s.waiting p = true ∨ ∃ d taken, s.call = some (d, taken) ∧ d.origin = p
  waits : ∀ p, s.waiting p = true → s.retryResp p = true ∧ s.call = none ∧ s.dequeueEvent = none ∧
    ∃ d rest, s.packetQueue = d :: rest ∧ d.origin = p
  sending : ∀ d taken, s.call = some (d, taken) → ∃ rest, s.packetQueue = d :: rest ∧
    (s.dequeueEvent = none ∨ taken = true ∧ rest ≠ [])
  scheduled : s.dequeueEvent.isSome = true → s.packetQueue ≠ []
  served : s.packetQueue ≠ [] → s.call = none → s.dequeueEvent.isSome = true ∨ ∃ p, s.waiting p = true
  future : ∀ t, s.dequeueEvent = some t → s.curTick ≤ t
  origin : ∀ d ∈ s.packetQueue, d.origin < cfg.ports
  once : ∀ p id, .accept p id true ∈ s.log → s.pending p id + s.answers p id = 1
  known : ∀ p id, s.pending p id + s.answers p id ≠ 0 → .accept p id true ∈ s.log

theorem protocol_start {cfg : Config} : Protocol cfg start := by
  constructor <;> simp [start, call, pending, answers]

section Steps

variable {cfg : Config} {s s' : St}

/-- `Protocol` does not look at requests, and of the log only at some entries. -/
theorem Protocol.congr (h : Protocol cfg s) (hcall : s'.call = s.call) (hq : s'.packetQueue = s.packetQueue)
    (hr : s'.retryResp = s.retryResp) (hd : s'.dequeueEvent = s.dequeueEvent) (hw : s'.waiting = s.waiting)
    (hl : ∀ p id, .accept p id true ∈ s'.log ↔ .accept p id true ∈ s.log)
      (ha : ∀ p id, s'.answers p id = s.answers p id)
    (hfuture : ∀ t, s'.dequeueEvent = some t → s'.curTick ≤ t) : Protocol cfg s' := by
  have hpending : ∀ p id, s'.pending p id = s.pending p id := fun p id => by rw [pending, hq]; rfl
  refine ⟨?_, ?_, ?_, ?_, ?_, hfuture, ?_, ?_, ?_⟩
  · simpa only [hr, hw, hcall] using h.retrying
  · simpa only [hr, hw, hcall, hd, hq] using h.waits
  · simpa only [hcall, hq, hd] using h.sending
  · simpa only [hd, hq] using h.scheduled
  · simpa only [hq, hcall, hd, hw] using h.served
  · simpa only [hq] using h.origin
  · simpa only [hl, hpending, ha] using h.once
  · simpa only [hl, hpending, ha] using h.known

theorem Protocol.not_waiting_of_call (h : Protocol cfg s) {c : DeferredPacket × Bool} (hc : s.call = some c) (p : Nat) :
    s.waiting p = false := by
  by_contra hw
  have := (h.waits p (by simpa using hw)).2.1
  rw [hc] at this
  cases this

/-- While `sendTimingResp` runs, `retryResp` of the other ports is not set. -/
theorem Protocol.not_retrying_of_call (h : Protocol cfg s) {d : DeferredPacket} {taken : Bool}
    (hc : s.call = some (d, taken)) {q : Nat} (hq : q ≠ d.origin) : s.retryResp q = false := by
  by_contra hr
  rcases h.retrying q (by simpa using hr) with hw | ⟨x, b, hx, he⟩
  · rw [h.not_waiting_of_call hc] at hw
    cases hw
  · rw [hc] at hx
    cases hx
    exact hq he.symm

theorem Protocol.waits_unique (h : Protocol cfg s) {p q : Nat} (hp : s.waiting p = true) (hq : s.waiting q = true) :
    p = q := by
  obtain ⟨-, -, -, d, rest, hd, rfl⟩ := h.waits p hp
  obtain ⟨-, -, -, d', rest', hd', rfl⟩ := h.waits q hq
  rw [hd] at hd'
  rw [(List.cons.inj hd').1]

end Steps

/-! ## A request -/

/-- The states differ in what the requests do to the port and to the ready bits only. -/
structure Same (s s' : St) : Prop where
  curTick : s'.curTick = s.curTick
  pc : s'.pc = s.pc
  packetQueue : s'.packetQueue = s.packetQueue
  retryResp : s'.retryResp = s.retryResp
  dequeueEvent : s'.dequeueEvent = s.dequeueEvent
  waiting : s'.waiting = s.waiting
  log : s'.log = s.log

theorem Same.refl (s : St) : Same s s := ⟨rfl, rfl, rfl, rfl, rfl, rfl, rfl⟩

theorem Same.trans {s s₁ s₂ : St} (h : Same s s₁) (h' : Same s₁ s₂) : Same s s₂ :=
  ⟨h'.curTick.trans h.curTick, h'.pc.trans h.pc, h'.packetQueue.trans h.packetQueue, h'.retryResp.trans h.retryResp,
    h'.dequeueEvent.trans h.dequeueEvent, h'.waiting.trans h.waiting, h'.log.trans h.log⟩

section Request

variable {cfg : Config} {s s' : St} {p jitter : Nat} {pkt : Packet}

theorem same_of_scratchpadAccess {validate : Bool} (h : s.scratchpadAccess cfg pkt validate = .ok s') :
    Same s s' ∧ s'.releaseEvent = s.releaseEvent := by
  unfold scratchpadAccess at h
  split_ifs at h <;> cases h <;> exact ⟨⟨rfl, rfl, rfl, rfl, rfl, rfl, rfl⟩, rfl⟩

/-- A request is refused, or carried out and answered. -/
theorem recvTimingReq_cases {b : Bool} (h : s.recvTimingReq cfg p pkt jitter = .ok (s', b)) :
    Same s s' ∧ s'.releaseEvent = s.releaseEvent ∨
    s.retryReq p = false ∧ s.isBusy p = false ∧ ∃ s₁, Same (s.emit (.accept p pkt.id pkt.needsResponse)) s₁ ∧
      (s₁.releaseEvent = s.releaseEvent ∨
        s₁.releaseEvent = Function.update s.releaseEvent p (some (s.curTick + cfg.duration pkt.size))) ∧
      s' = if pkt.needsResponse then s₁.respond ⟨s.curTick + pkt.delay + (cfg.latency + jitter), pkt, p⟩ else s₁ := by
  unfold recvTimingReq at h
  by_cases h₁ : pkt.cacheResponding = true
  · rw [if_pos h₁] at h
    cases h
  rw [if_neg h₁] at h
  by_cases h₂ : (!(pkt.isRead || pkt.isWrite)) = true
  · rw [if_pos h₂] at h
    cases h
  rw [if_neg h₂] at h
  by_cases h₃ : s.retryReq p = true
  · rw [if_pos h₃] at h
    cases h
    exact .inl ⟨.refl s, rfl⟩
  rw [if_neg h₃] at h
  by_cases h₄ : s.isBusy p = true
  · rw [if_pos h₄] at h
    cases h
    exact .inl ⟨⟨rfl, rfl, rfl, rfl, rfl, rfl, rfl⟩, rfl⟩
  · rw [if_neg h₄] at h
    refine .inr ⟨by simpa using h₃, by simpa using h₄, ?_⟩
    generalize hs₀ : (if cfg.duration pkt.size ≠ 0 then
        { s with
          releaseEvent := Function.update s.releaseEvent p (some (s.curTick + cfg.duration pkt.size))
          isBusy := Function.update s.isBusy p true }
      else s) = s₀ at h
    have hsame₀ : Same s s₀ ∧ (s₀.releaseEvent = s.releaseEvent ∨
        s₀.releaseEvent = Function.update s.releaseEvent p (some (s.curTick + cfg.duration pkt.size))) := by
      rw [← hs₀]
      split
      · exact ⟨⟨rfl, rfl, rfl, rfl, rfl, rfl, rfl⟩, .inr rfl⟩
      · exact ⟨.refl s, .inl rfl⟩
    dsimp only at h
    split at h
    · cases h
    · rename_i s₁ haccess
      obtain ⟨hsame₁, hrelease⟩ := same_of_scratchpadAccess haccess
      have hsame := hsame₀.1.trans hsame₁
      cases h
      refine ⟨s₁.emit (.accept p pkt.id pkt.needsResponse), ?_, ?_, ?_⟩
      · exact ⟨hsame.curTick, hsame.pc, hsame.packetQueue, hsame.retryResp, hsame.dequeueEvent, hsame.waiting,
          congrArg (· ++ _) hsame.log⟩
      · show s₁.releaseEvent = _ ∨ s₁.releaseEvent = _
        rw [hrelease]
        exact hsame₀.2
      · rw [← hsame.curTick]
        rfl

theorem Same.call (h : Same s s') : s'.call = s.call := by rw [St.call, h.pc]; rfl

theorem Protocol.same (hp : Protocol cfg s) (h : Same s s') : Protocol cfg s' := by
  refine hp.congr h.call h.packetQueue h.retryResp h.dequeueEvent h.waiting (fun p id => by rw [h.log])
    (fun p id => by rw [answers, h.log]; rfl) fun t ht => ?_
  rw [h.curTick]
  exact hp.future t (h.dequeueEvent ▸ ht)

theorem not_mem_of_fresh {id : Nat} (h : s.fresh id = true) (q : Nat) (b : Bool) : .accept q id b ∉ s.log :=
    fun hm => by
  simpa using List.all_eq_true.mp h _ hm

theorem respond_eq (s : St) (d : DeferredPacket) : ∃ t, d.tick ≤ t ∧ s.respond d = { s with
    packetQueue := emplace d s.packetQueue
    dequeueEvent := if !s.retryResp d.origin && s.dequeueEvent.isNone then some t else s.dequeueEvent } := by
  obtain ⟨y, hy, hle⟩ := emplace_getLast d s.packetQueue
  refine ⟨y.tick, hle, ?_⟩
  simp only [St.respond, hy, Option.map_some]
  split <;> rfl

/-- The packet is accepted, and its response is in the queue. -/
structure Responded (s : St) (d : DeferredPacket) (s' : St) : Prop where
  curTick : s'.curTick = s.curTick
  call : s'.call = s.call
  retryResp : s'.retryResp = s.retryResp
  waiting : s'.waiting = s.waiting
  packetQueue : s'.packetQueue = emplace d s.packetQueue
  dequeueEvent : ∃ t, d.tick ≤ t ∧
    s'.dequeueEvent = if !s.retryResp d.origin && s.dequeueEvent.isNone then some t else s.dequeueEvent
  log : s'.log = s.log ++ [.accept d.origin d.pkt.id true]

theorem responded_of_same {d : DeferredPacket} (h : Same (s.emit (.accept d.origin d.pkt.id true)) s') :
    Responded s d (s'.respond d) := by
  obtain ⟨t, ht, heq⟩ := respond_eq s' d
  refine ⟨?_, ?_, ?_, ?_, ?_, ⟨t, ht, ?_⟩, ?_⟩
  · rw [heq]
    exact h.curTick
  · rw [heq]
    exact h.call
  · rw [heq]
    exact h.retryResp
  · rw [heq]
    exact h.waiting
  · rw [heq, h.packetQueue]
    rfl
  · rw [heq, h.retryResp, h.dequeueEvent]
    rfl
  · rw [heq]
    exact h.log

section Responded

variable {d : DeferredPacket}

theorem Responded.pending (hr : Responded s d s') (p id : Nat) :
    s'.pending p id = s.pending p id + if d.origin = p ∧ d.pkt.id = id then 1 else 0 := by
  rw [St.pending, hr.packetQueue, (emplace_perm d s.packetQueue).countP_eq, List.countP_cons]
  simp [St.pending]

theorem Responded.answers (hr : Responded s d s') (p id : Nat) : s'.answers p id = s.answers p id := by
  simp [St.answers, hr.log, List.count_append]

theorem Protocol.once_of_responded (h : Protocol cfg s) (hf : s.fresh d.pkt.id = true)
    (hr : Responded s d s') (p id : Nat)
    (hm : .accept p id true ∈ s'.log) : s'.pending p id + s'.answers p id = 1 := by
  have hnew := not_mem_of_fresh hf
  rw [hr.pending, hr.answers]
  rw [hr.log, List.mem_append, List.mem_singleton] at hm
  rcases hm with hm | hm
  · have hne : ¬(d.origin = p ∧ d.pkt.id = id) := fun he => hnew p true (he.2 ▸ hm)
    rw [if_neg hne]
    exact h.once p id hm
  · cases hm
    have hzero : s.pending d.origin d.pkt.id + s.answers d.origin d.pkt.id = 0 := by
      by_contra hne
      exact hnew _ _ (h.known _ _ hne)
    rw [if_pos ⟨rfl, rfl⟩]
    omega

theorem Protocol.known_of_responded (h : Protocol cfg s) (hr : Responded s d s') (p id : Nat)
    (hne : s'.pending p id + s'.answers p id ≠ 0) : .accept p id true ∈ s'.log := by
  rw [hr.pending, hr.answers] at hne
  rw [hr.log, List.mem_append, List.mem_singleton]
  by_cases he : d.origin = p ∧ d.pkt.id = id
  · obtain ⟨rfl, rfl⟩ := he
    exact .inr rfl
  · rw [if_neg he] at hne
    exact .inl (h.known p id hne)

/-- The response of a new packet goes to the queue, and no other port waits. -/
theorem Protocol.respond (h : Protocol cfg s) (hp : d.origin < cfg.ports) (hf : s.fresh d.pkt.id = true)
    (htick : s.curTick ≤ d.tick) (hreq : s.mayRequest = true) (halone : ∀ q, q ≠ d.origin → s.waiting q = false)
    (hr : Responded s d s') : Protocol cfg s' := by
  obtain ⟨t, ht, hevent⟩ := hr.dequeueEvent
  refine ⟨?_, ?_, ?_, ?_, ?_, ?_, ?_, h.once_of_responded hf hr, h.known_of_responded hr⟩
  · simpa only [hr.retryResp, hr.waiting, hr.call] using h.retrying
  · intro p hw
    rw [hr.waiting] at hw
    obtain ⟨hretry, hc, hnone, x, rest, hx, rfl⟩ := h.waits p hw
    have hpd : x.origin = d.origin := by
      by_contra hne
      rw [halone _ hne] at hw
      cases hw
    obtain ⟨q', hq', -⟩ := emplace_cons d x rest
    refine ⟨by rw [hr.retryResp]; exact hretry, by rw [hr.call]; exact hc, ?_, x,
      q', by rw [hr.packetQueue, hx, hq'], rfl⟩
    rw [hevent, ← hpd, hretry, hnone]
    rfl
  · intro x taken hc
    rw [hr.call] at hc
    obtain ⟨rest, hx, -⟩ := h.sending x taken hc
    obtain ⟨q', hq', hperm⟩ := emplace_cons d x rest
    refine ⟨q', by rw [hr.packetQueue, hx, hq'], .inr ⟨?_, ?_⟩⟩
    · unfold St.call at hc
      unfold mayRequest at hreq
      split at hc
      · rename_i hpc
        rw [hpc] at hreq
        simpa [← (Prod.mk.inj (Option.some.inj hc)).2] using hreq
      · cases hc
    · rintro rfl
      simpa using hperm.length_eq
  · intro _ hnil
    rw [hr.packetQueue] at hnil
    have := (emplace_perm d s.packetQueue).length_eq
    rw [hnil] at this
    simp at this
  · intro _ hc
    rw [hr.call] at hc
    rw [hevent, hr.waiting]
    by_cases hretry : s.retryResp d.origin = true
    · rcases h.retrying _ hretry with hw | ⟨x, taken, hx, -⟩
      · exact .inr ⟨_, hw⟩
      · rw [hc] at hx
        cases hx
    · left
      rw [Bool.not_eq_true] at hretry
      rw [hretry]
      cases s.dequeueEvent <;> rfl
  · intro t' ht'
    rw [hr.curTick]
    rw [hevent] at ht'
    split at ht'
    · obtain rfl := Option.some.inj ht'
      omega
    · exact h.future t' ht'
  · intro x hx
    rw [hr.packetQueue] at hx
    rcases List.mem_cons.mp ((emplace_perm d s.packetQueue).mem_iff.mp hx) with rfl | hx
    · exact hp
    · exact h.origin x hx

end Responded

/-- A request that needs a response is accepted only while no other port waits. -/
def alone (cfg : Config) (s : St) : Ev → Bool
  | .request p pkt _ =>
    s.retryReq p || s.isBusy p || !pkt.needsResponse || (List.range cfg.ports).all fun q => q == p || !s.waiting q
  | _ => true

theorem Protocol.recvTimingReq (h : Protocol cfg s) {b : Bool} (hp : p < cfg.ports) (hf : s.fresh pkt.id = true)
    (hreq : s.mayRequest = true) (halone : s.alone cfg (.request p pkt jitter) = true)
    (hr : s.recvTimingReq cfg p pkt jitter = .ok (s', b)) : Protocol cfg s' := by
  rcases recvTimingReq_cases hr with ⟨hsame, -⟩ | ⟨hretry, hbusy, s₁, hsame, -, rfl⟩
  · exact h.same hsame
  cases hn : pkt.needsResponse with
  | false =>
    rw [hn] at hsame
    have hemit : Protocol cfg (s.emit (.accept p pkt.id false)) := by
      refine h.congr rfl rfl rfl rfl rfl (fun q id => ?_) (fun q id => ?_) h.future
      · simp [emit]
      · simp [answers, emit]
    exact hemit.same hsame
  | true =>
    rw [hn] at hsame
    refine h.respond hp hf ?_ hreq (fun q hq => ?_) (responded_of_same hsame)
    · show s.curTick ≤ s.curTick + pkt.delay + (cfg.latency + jitter)
      omega
    · simp only [alone, hretry, hbusy, hn, Bool.not_true, Bool.false_or, List.all_eq_true, List.mem_range] at halone
      by_contra hw
      have hw : s.waiting q = true := by simpa using hw
      obtain ⟨-, -, -, x, rest, hx, rfl⟩ := h.waits q hw
      have := halone x.origin (h.origin x (by rw [hx]; exact List.mem_cons_self))
      simp [hw] at this
      exact hq this

end Request

/-! ## The events of the memory -/

section Events

variable {cfg : Config} {s s' : St} {p : Nat} {taken : Bool} {d : DeferredPacket}

theorem Protocol.release (h : Protocol cfg s) {idx : Nat} (hpc : s.pc = .releasing idx) :
    Protocol cfg (s.release cfg idx) := by
  have hcall : s.call = none := by rw [call, hpc]
  unfold St.release
  split
  · dsimp only
    split
    · exact h.congr hcall.symm rfl rfl rfl rfl (fun _ _ => .rfl) (fun _ _ => rfl) h.future
    · exact h.congr hcall.symm rfl rfl rfl rfl (fun _ _ => .rfl) (fun _ _ => rfl) h.future
  · exact h.congr hcall.symm rfl rfl rfl rfl (fun _ _ => .rfl) (fun _ _ => rfl) h.future

/-- `sendTimingResp` is called, and no port waits. -/
theorem Protocol.send (h : Protocol cfg s) (taken : Bool) {rest : List DeferredPacket} (hq : s.packetQueue = d :: rest)
    (hretry : ∀ q, s.retryResp q = true → q = d.origin) (hw : ∀ q, s'.waiting q = false)
    (hs' : s' = { s with pc := .sending d taken, dequeueEvent := none, waiting := s'.waiting }) : Protocol cfg s' := by
  have hcall : s'.call = some (d, taken) := by rw [hs']; rfl
  have hqueue : s'.packetQueue = d :: rest := by rw [hs']; exact hq
  have hnone : s'.dequeueEvent = none := by rw [hs']
  have hlog : s'.log = s.log := by rw [hs']
  have hpending : ∀ p id, s'.pending p id = s.pending p id := fun p id => by rw [pending, hqueue, ← hq]; rfl
  have hanswers : ∀ p id, s'.answers p id = s.answers p id := fun p id => by rw [answers, hlog]; rfl
  refine ⟨?_, ?_, ?_, ?_, ?_, ?_, ?_, ?_, ?_⟩
  · intro q hr
    rw [hs'] at hr
    exact .inr ⟨d, taken, hcall, (hretry q hr).symm⟩
  · intro q hr
    rw [hw] at hr
    cases hr
  · intro x b hx
    rw [hcall] at hx
    cases hx
    exact ⟨rest, hqueue, .inl hnone⟩
  · intro he
    rw [hnone] at he
    cases he
  · intro _ hc
    rw [hcall] at hc
    cases hc
  · intro t ht
    rw [hnone] at ht
    cases ht
  · rw [hqueue, ← hq]
    exact h.origin
  · simpa only [hlog, hpending, hanswers] using h.once
  · simpa only [hlog, hpending, hanswers] using h.known

theorem dequeue_ok {s s' : St} (h : s.dequeue taken = .ok s') :
    ∃ d rest, s.packetQueue = d :: rest ∧ s' = { s with pc := .sending d taken } := by
  unfold St.dequeue at h
  split at h
  · cases h
  · rename_i d rest hq
    exact ⟨d, rest, hq, (Except.ok.inj h).symm⟩

theorem call_of_idle (hpc : s.pc = .idle) : s.call = none := by rw [call, hpc]

section

variable (h : Protocol cfg s)
include h

/-- Outside the call, the ports that wait are those with `retryResp`. -/
theorem Protocol.waiting_of_retryResp (hc : s.call = none) (hr : s.retryResp p = true) : s.waiting p = true := by
  rcases h.retrying p hr with hw | ⟨d, b, hd, -⟩
  · exact hw
  · rw [hc] at hd
    cases hd

theorem Protocol.fire (hpc : s.pc = .idle) (he : s.dequeueEvent.isSome = true)
    (hd : ({ s with dequeueEvent := none } : St).dequeue taken = .ok s') : Protocol cfg s' := by
  obtain ⟨d, rest, hq, rfl⟩ := dequeue_ok hd
  have hw : ∀ q, s.waiting q = false := fun q => by
    by_contra hw
    rw [(h.waits q (by simpa using hw)).2.2.1] at he
    cases he
  refine h.send taken hq (fun q hr => ?_) hw rfl
  have := h.waiting_of_retryResp (call_of_idle hpc) hr
  rw [hw] at this
  cases this

theorem Protocol.recvRespRetry (hpc : s.pc = .idle) (hw : s.waiting p = true) (hr : s.recvRespRetry p taken = .ok s') :
    Protocol cfg s' := by
  obtain ⟨hretry, -, hnone, x, rest, hx, rfl⟩ := h.waits p hw
  unfold St.recvRespRetry at hr
  rw [if_pos hretry] at hr
  obtain ⟨d, rest', hq, rfl⟩ := dequeue_ok hr
  obtain ⟨rfl, rfl⟩ := List.cons.inj (hx.symm.trans hq)
  refine h.send taken hx (fun q hr => ?_) (fun q => ?_) ?_
  · exact h.waits_unique (h.waiting_of_retryResp (call_of_idle hpc) hr) hw
  · by_cases hqx : q = x.origin
    · rw [hqx]
      exact Function.update_self ..
    · refine (Function.update_of_ne hqx ..).trans ?_
      by_contra hwq
      exact hqx (h.waits_unique (by simpa using hwq) hw)
  · rw [← hnone]

theorem Protocol.refused (hpc : s.pc = .sending d false) : Protocol cfg (s.dequeued d false) := by
  have hc : s.call = some (d, false) := by rw [call, hpc]
  obtain ⟨rest, hq, hnone | ⟨hf, -⟩⟩ := h.sending d false hc
  swap
  · cases hf
  have hw := h.not_waiting_of_call hc
  have hwait : ∀ q, (s.dequeued d false).waiting q = true ↔ q = d.origin := fun q => by
    by_cases hqd : q = d.origin
    · simp [St.dequeued, emit, hqd]
    · simp [St.dequeued, emit, hqd, hw]
  have hretry : ∀ q, (s.dequeued d false).retryResp q = true ↔ q = d.origin := fun q => by
    by_cases hqd : q = d.origin
    · simp [St.dequeued, emit, hqd]
    · simp [St.dequeued, emit, hqd, h.not_retrying_of_call hc hqd]
  have hanswers : ∀ p id, (s.dequeued d false).answers p id = s.answers p id := fun p id => by
    simp [answers, St.dequeued, emit]
  have hlog : ∀ p id, .accept p id true ∈ (s.dequeued d false).log ↔ .accept p id true ∈ s.log := fun p id => by
    simp [St.dequeued, emit]
  refine ⟨?_, ?_, ?_, ?_, ?_, ?_, h.origin, ?_, ?_⟩
  · exact fun q hr => .inl ((hwait q).mpr ((hretry q).mp hr))
  · intro q hr
    obtain rfl := (hwait q).mp hr
    exact ⟨(hretry _).mpr rfl, rfl, hnone, d, rest, hq, rfl⟩
  · intro x b hx
    cases hx
  · exact h.scheduled
  · exact fun _ _ => .inr ⟨d.origin, (hwait _).mpr rfl⟩
  · exact h.future
  · intro q id hm
    rw [hanswers]
    exact h.once q id ((hlog q id).mp hm)
  · intro q id hm
    rw [hanswers] at hm
    exact (hlog q id).mpr (h.known q id hm)

theorem Protocol.delivered (hpc : s.pc = .sending d true) : Protocol cfg (s.dequeued d true) := by
  have hc : s.call = some (d, true) := by rw [call, hpc]
  obtain ⟨rest, hq, hempty⟩ := h.sending d true hc
  have hw := h.not_waiting_of_call hc
  have heq : s.dequeued d true = { s with
      pc := .idle
      retryResp := Function.update s.retryResp d.origin false
      packetQueue := rest
      dequeueEvent := match rest with
        | [] => s.dequeueEvent
        | x :: _ => some (max x.tick s.curTick)
      log := s.log ++ [.response d.origin d.pkt.id true] } := by
    cases rest <;> simp [St.dequeued, emit, hq]
  have hretry : ∀ q, (s.dequeued d true).retryResp q = false := fun q => by
    rw [heq]
    by_cases hqd : q = d.origin
    · simp [hqd]
    · simp [hqd, h.not_retrying_of_call hc hqd]
  have hwait : ∀ q, (s.dequeued d true).waiting q = false := fun q => by
    rw [heq]
    exact hw q
  have hqueue : (s.dequeued d true).packetQueue = rest := by rw [heq]
  have hlog : (s.dequeued d true).log = s.log ++ [.response d.origin d.pkt.id true] := by rw [heq]
  -- the response moves from the queue to the answers
  have hsum : ∀ p id, (s.dequeued d true).pending p id + (s.dequeued d true).answers p id =
      s.pending p id + s.answers p id := by
    intro p id
    have hpending : s.pending p id = (s.dequeued d true).pending p id +
        if d.origin = p ∧ d.pkt.id = id then 1 else 0 := by
      rw [pending, pending, hqueue, hq, List.countP_cons]
      simp
    have hanswers : (s.dequeued d true).answers p id = s.answers p id +
        if d.origin = p ∧ d.pkt.id = id then 1 else 0 := by
      rw [answers, answers, hlog, List.count_append, List.count_singleton]
      simp
    omega
  have hmem : ∀ p id, .accept p id true ∈ (s.dequeued d true).log ↔ .accept p id true ∈ s.log := fun p id => by
    simp [hlog]
  refine ⟨?_, ?_, ?_, ?_, ?_, ?_, ?_, ?_, ?_⟩
  · intro q hr
    rw [hretry] at hr
    cases hr
  · intro q hr
    rw [hwait] at hr
    cases hr
  · intro x b hx
    rw [heq] at hx
    cases hx
  · intro he hnil
    rw [hqueue] at hnil
    subst hnil
    rw [heq] at he
    rcases hempty with hnone | ⟨-, hne⟩
    · simp [hnone] at he
    · exact hne rfl
  · intro hne _
    rw [hqueue] at hne
    obtain ⟨x, rest', rfl⟩ := List.exists_cons_of_ne_nil hne
    rw [heq]
    exact .inl rfl
  · intro t ht
    rw [heq] at ht ⊢
    cases rest with
    | nil => exact h.future t ht
    | cons x rest' =>
      obtain rfl := Option.some.inj ht
      exact Nat.le_max_right ..
  · intro x hx
    rw [hqueue] at hx
    exact h.origin x (by rw [hq]; exact List.mem_cons_of_mem _ hx)
  · intro q id hm
    rw [hsum]
    exact h.once q id ((hmem q id).mp hm)
  · intro q id hne
    rw [hsum] at hne
    exact (hmem q id).mpr (h.known q id hne)

theorem Protocol.dequeued (hpc : s.pc = .sending d taken) : Protocol cfg (s.dequeued d taken) := by
  cases taken with
  | false => exact h.refused hpc
  | true => exact h.delivered hpc

end

end Events

/-! ## Runs -/

theorem Protocol.step {cfg : Config} {s s' : St} {e : Ev} (h : Protocol cfg s) (ha : s.alone cfg e = true)
    (hs : s.step cfg e = some s') : Protocol cfg s' := by
  cases e with
  | advance t =>
    simp only [St.step] at hs
    split at hs
    · rename_i hc
      obtain rfl := Option.some.inj hs
      refine h.congr rfl rfl rfl rfl rfl (fun _ _ => .rfl) (fun _ _ => rfl) fun t' ht' => ?_
      have hquiet := hc.2.2
      have ht' : s.dequeueEvent = some t' := ht'
      simp only [quiet, Bool.and_eq_true, ht', Option.all_some, decide_eq_true_eq] at hquiet
      exact hquiet.1
    · cases hs
  | request p pkt jitter =>
    simp only [St.step] at hs
    split at hs
    · rename_i hc
      obtain ⟨⟨s₁, b⟩, hok, rfl⟩ := Option.map_eq_some_iff.mp hs
      exact h.recvTimingReq hc.1 hc.2.2.1 hc.2.2.2 ha (ok_of_toOption hok)
    · cases hs
  | release p =>
    simp only [St.step] at hs
    split at hs
    · rename_i hc
      obtain rfl := Option.some.inj hs
      exact h.congr (call_of_idle hc.1).symm rfl rfl rfl rfl (fun _ _ => .rfl) (fun _ _ => rfl) h.future
    · cases hs
  | releaseNext =>
    simp only [St.step] at hs
    split at hs
    · rename_i idx hpc
      exact Option.some.inj hs ▸ h.release hpc
    · cases hs
  | dequeue taken =>
    simp only [St.step] at hs
    split at hs
    · rename_i hc
      exact h.fire hc.1 (by rw [hc.2]; rfl) (ok_of_toOption hs)
    · cases hs
  | returned =>
    simp only [St.step] at hs
    split at hs
    · rename_i d taken hpc
      exact Option.some.inj hs ▸ h.dequeued hpc
    · cases hs
  | respRetry p taken =>
    simp only [St.step] at hs
    split at hs
    · rename_i hc
      exact h.recvRespRetry hc.1 hc.2 (ok_of_toOption hs)
    · cases hs

end St

open St

theorem protocol_of_reachable {cfg : Config} {s : St}
    (h : (memory cfg).ReachableWhen (fun s e => s.alone cfg e = true) s) : Protocol cfg s := by
  refine System.invariantWhen (I := Protocol cfg) ?_ ?_ h
  · rintro s rfl
    exact protocol_start
  · exact fun s e s' _ hs ha hstep => hs.step ha hstep

end Salam.Scratchpad
