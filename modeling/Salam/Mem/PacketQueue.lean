import Mathlib.Algebra.Order.Group.Nat
import Mathlib.Data.List.Perm.Basic
import Salam.Lib.System
import Salam.Mem.Command

/-!
# `PacketQueue`

A queue of packets that a port sends at given ticks. `sendDeferredPacket` takes the front packet off the list, and hands
it to the peer with `sendTiming`; it is cut in two there, so that the peer can call `schedSendTiming` while it accepts
the packet. `sendEvent` is the tick the event is scheduled for. A refused packet goes back to the front, and the queue
waits for the peer's `retry`.

`MaxTick` stands for no time: nothing is scheduled for it.

* `Placed`: where `schedSendTiming` puts a packet.
* `St.Books`: what the list, `waitingOnRetry` and `sendEvent` have to do with each other.
* `bookkeeping`: it holds in every run, no assertion fails, and no packet is lost, sent twice or sent early.
-/

namespace Salam.Mem

def maxTick : Nat := 0xffffffffffffffff

/-- The fields of a `Packet` that the queue reads. -/
structure Pkt where
  addr : Nat
  isSecure : Bool
  isExpressSnoop : Bool
  deriving DecidableEq

def Pkt.matchAddr (p pkt : Pkt) : Bool := Mem.matchAddr p.addr p.isSecure pkt.addr pkt.isSecure

structure DeferredPacket where
  tick : Nat
  pkt : Pkt
  deriving DecidableEq

structure PacketQueueParams where
  forceOrder : Bool
  disableSanityCheck : Bool

inductive DrainState
  | running
  | draining
  | drained
  deriving DecidableEq

inductive PacketErr
  | assertion
  /-- `panic("Packet queue %s has grown beyond 100 packets\n")`. -/
  | grown
  /-- The call or the event cannot come now. -/
  | notNow
  deriving DecidableEq

structure PacketQueue where
  transmitList : List DeferredPacket
  /-- When `sendEvent` is scheduled. -/
  sendEvent : Option Nat
  waitingOnRetry : Bool
  drainState : DrainState
  curTick : Nat
  /-- The packet that `sendTiming` was called with and has not returned for, and whether the peer has called back. -/
  sending : Option DeferredPacket
  calledBack : Bool
  /-- The peer has refused a packet and not yet asked for it again. -/
  owesRetry : Bool
  /-- The calls of `schedSendTiming`, and the packets the peer has accepted, with the tick. -/
  enqueued : List DeferredPacket
  sent : List (DeferredPacket × Nat)

/-- The loop of `schedSendTiming` from the end of the list: the packet goes after the last one that it may not pass. -/
def placeAfter (P : PacketQueueParams) (d : DeferredPacket) : List DeferredPacket → Option (List DeferredPacket)
  | [] => none
  | x :: xs =>
    match placeAfter P d xs with
    | some ys => some (x :: ys)
    | none => if P.forceOrder && x.pkt.matchAddr d.pkt || x.tick ≤ d.tick then some (x :: d :: xs) else none

namespace PacketQueue

variable (P : PacketQueueParams) (s : PacketQueue)

def deferredPacketReady : Bool :=
  match s.transmitList with
  | [] => false
  | d :: _ => d.tick ≤ s.curTick

def deferredPacketReadyTime : Nat :=
  match s.transmitList with
  | [] => maxTick
  | d :: _ => d.tick

/-- `em.schedule` and `em.reschedule`, which assert that the tick is not past. -/
def schedule (when : Nat) : Except PacketErr PacketQueue :=
  if s.curTick ≤ when then .ok { s with sendEvent := some when } else .error .assertion

def signalDrainDone : PacketQueue :=
  if s.drainState = .draining then { s with drainState := .drained } else s

def schedSendEvent (when : Nat) : Except PacketErr PacketQueue :=
  if s.waitingOnRetry then if s.sendEvent.isSome then .error .assertion else .ok s
  else if when ≠ maxTick then
    let when := max when ((s.curTick + 1) % 2 ^ 64)
    match s.sendEvent with
    | none => s.schedule when
    | some t => if when < t then s.schedule when else .ok s
  else
    .ok (if s.drainState = .draining ∧ s.transmitList = [] ∧ s.sendEvent = none then s.signalDrainDone else s)

def schedSendTiming (pkt : Pkt) (when : Nat) : Except PacketErr PacketQueue :=
  if when < s.curTick ∨ pkt.isExpressSnoop = true then .error .assertion
  else if P.disableSanityCheck = false ∧ 100 < s.transmitList.length then .error .grown
  else
    let s : PacketQueue := { s with enqueued := s.enqueued ++ [⟨when, pkt⟩] }
    match placeAfter P ⟨when, pkt⟩ s.transmitList with
    | some l => .ok { s with transmitList := l }
    | none => { s with transmitList := ⟨when, pkt⟩ :: s.transmitList }.schedSendEvent when

/-- `sendDeferredPacket` up to the call of `sendTiming`. -/
def sendDeferredPacket : Except PacketErr PacketQueue :=
  if s.waitingOnRetry = true ∨ s.deferredPacketReady = false then .error .assertion
  else
    match s.transmitList with
    | [] => .error .assertion
    | dp :: rest => .ok { s with transmitList := rest, sending := some dp, calledBack := false }

/-- The rest of it, when the peer has accepted the packet. -/
def accepted (dp : DeferredPacket) : Except PacketErr PacketQueue :=
  let s : PacketQueue := { s with sending := none, waitingOnRetry := false, sent := s.sent ++ [(dp, s.curTick)] }
  s.schedSendEvent s.deferredPacketReadyTime

/-- The rest of it, when the peer has refused the packet. -/
def refused (dp : DeferredPacket) : PacketQueue :=
  { s with sending := none, waitingOnRetry := true, owesRetry := true, transmitList := dp :: s.transmitList }

def processSendEvent : Except PacketErr PacketQueue :=
  if s.waitingOnRetry then .error .assertion else s.sendDeferredPacket

def retry : Except PacketErr PacketQueue :=
  if s.waitingOnRetry then { s with waitingOnRetry := false }.sendDeferredPacket else .error .assertion

def drain : PacketQueue := { s with drainState := if s.transmitList = [] then .drained else .draining }

end PacketQueue

/-- What can happen. `accept` and `refuse` are the returns of `sendTiming`. -/
inductive PacketOp
  | schedSendTiming (pkt : Pkt) (when : Nat)
  | sendEvent
  | retry
  | accept
  | refuse
  | advance (tick : Nat)
  | drain
  | resume
  deriving DecidableEq

namespace PacketQueue

variable (P : PacketQueueParams) (s : PacketQueue)

/-- The peer calls back only while it accepts a packet, and calls `retry` once for each refusal. Time does not pass
while a packet is handed over, nor past the tick of `sendEvent`. -/
def exec : PacketOp → Except PacketErr PacketQueue
  | .schedSendTiming pkt when => { s with calledBack := true }.schedSendTiming P pkt when
  | .sendEvent =>
    if s.sending = none ∧ s.sendEvent = some s.curTick then { s with sendEvent := none }.processSendEvent
    else .error .notNow
  | .retry =>
    if s.sending = none ∧ s.owesRetry = true then { s with owesRetry := false }.retry else .error .notNow
  | .accept =>
    match s.sending with
    | some dp => s.accepted dp
    | none => .error .notNow
  | .refuse =>
    match s.sending with
    | some dp => if s.calledBack then .error .notNow else .ok (s.refused dp)
    | none => .error .notNow
  | .advance t =>
    if s.sending = none ∧ s.curTick < t ∧ t ≤ maxTick ∧ (∀ e ∈ s.sendEvent, t ≤ e) then .ok { s with curTick := t }
    else .error .notNow
  | .drain => if s.sending = none then .ok s.drain else .error .notNow
  | .resume => .ok { s with drainState := .running }

/-- A queue made by the constructor. -/
def Fresh : Prop :=
  s.transmitList = [] ∧ s.sendEvent = none ∧ s.waitingOnRetry = false ∧ s.drainState = .running ∧
    s.curTick < maxTick ∧ s.sending = none ∧ s.owesRetry = false ∧ s.enqueued = [] ∧ s.sent = []

end PacketQueue

/-- Every interleaving of calls, events and answers of the peer. -/
def packetQueue (P : PacketQueueParams) : System PacketQueue PacketOp where
  init := PacketQueue.Fresh
  step s op := (s.exec P op).toOption

/-- The assertions on the packet and the tick hold, which are the caller's to see to, and `MaxTick` is no time. -/
def Timely (s : PacketQueue) : PacketOp → Prop
  | .schedSendTiming pkt when => s.curTick ≤ when ∧ pkt.isExpressSnoop = false ∧ when < maxTick
  | .advance t => t < maxTick
  | _ => True

/-! ## Where a packet goes -/

section Place

variable {P : PacketQueueParams} {d f : DeferredPacket} {rest l : List DeferredPacket}

/-- A packet that does not go to the front leaves the front as it is. -/
theorem placeAfter_some : ∀ {xs l : List DeferredPacket}, placeAfter P d xs = some l →
    l.Perm (d :: xs) ∧ ∃ f rest ys, xs = f :: rest ∧ l = f :: ys
  | [], l, h => by cases h
  | x :: xs, l, h => by
    unfold placeAfter at h
    split at h
    · rename_i ys hys
      cases h
      refine ⟨?_, x, xs, ys, rfl, rfl⟩
      exact ((placeAfter_some hys).1.cons x).trans (.swap d x xs)
    · split at h
      · cases h
        exact ⟨.swap d x xs, x, xs, d :: xs, rfl, rfl⟩
      · cases h

/-- A packet goes to the front only if it is earlier than all others. -/
theorem placeAfter_none : ∀ {xs : List DeferredPacket}, placeAfter P d xs = none → ∀ x ∈ xs, d.tick < x.tick
  | [], _ => by simp
  | x :: xs, h => by
    unfold placeAfter at h
    split at h
    · cases h
    · rename_i hxs
      split at h
      · cases h
      · rename_i hx
        simp only [Bool.or_eq_true, decide_eq_true_eq, not_or, Nat.not_le] at hx
        intro y hy
        rcases List.mem_cons.mp hy with rfl | hy
        · exact hx.2
        · exact placeAfter_none hxs y hy

end Place

/-! ## The books -/

namespace PacketQueue

/-- `sendEvent` is scheduled for the front packet: not before its tick, and not after that or the next tick. -/
def Armed (s : PacketQueue) : Prop :=
  ∃ f rest t, s.transmitList = f :: rest ∧ s.sendEvent = some t ∧ f.tick ≤ t ∧ s.curTick ≤ t ∧
    t ≤ max f.tick (s.curTick + 1)

structure Books (s : PacketQueue) : Prop where
  time : s.curTick < maxTick
  ticks : ∀ d ∈ s.sending.toList ++ s.transmitList, d.tick < maxTick
  idle : s.sending = none → (s.transmitList = [] ∧ s.sendEvent = none ∧ s.waitingOnRetry = false) ∨
    (s.waitingOnRetry = true ∧ s.sendEvent = none ∧ ∃ f rest, s.transmitList = f :: rest ∧ f.tick ≤ s.curTick) ∨
    (s.waitingOnRetry = false ∧ s.Armed)
  attempt : ∀ dp, s.sending = some dp → s.waitingOnRetry = false ∧ dp.tick ≤ s.curTick ∧
    (s.sendEvent = none ∨ s.calledBack = true ∧ s.Armed)
  owes : s.owesRetry = s.waitingOnRetry
  draining : s.sending = none → s.drainState = .draining → s.transmitList ≠ []
  kept : (s.sent.map Prod.fst ++ (s.sending.toList ++ s.transmitList)).Perm s.enqueued
  onTime : ∀ x ∈ s.sent, x.1.tick ≤ x.2

variable {P : PacketQueueParams} {s : PacketQueue} {f : DeferredPacket} {rest : List DeferredPacket}

/-- The specification of `schedSendEvent` for the front packet. -/
theorem schedSendEvent_armed (hw : s.waitingOnRetry = false) (ht : s.curTick < maxTick)
    (hl : s.transmitList = f :: rest) (hf : f.tick < maxTick) (he : ∀ t ∈ s.sendEvent, f.tick ≤ t ∧ s.curTick ≤ t) :
    ∃ t, s.schedSendEvent f.tick = .ok { s with sendEvent := some t } ∧ Armed { s with sendEvent := some t } := by
  have hnext : (s.curTick + 1) % 2 ^ 64 = s.curTick + 1 := Nat.mod_eq_of_lt (by unfold maxTick at ht; omega)
  have hne : f.tick ≠ maxTick := by omega
  have hsched : s.schedule (max f.tick (s.curTick + 1)) =
      .ok { s with sendEvent := some (max f.tick (s.curTick + 1)) } := by
    unfold schedule
    rw [if_pos (by omega)]
  have harmed : Armed { s with sendEvent := some (max f.tick (s.curTick + 1)) } :=
    ⟨f, rest, max f.tick (s.curTick + 1), hl, rfl, Nat.le_max_left _ _,
      Nat.le_trans (Nat.le_succ _) (Nat.le_max_right _ _), Nat.le_refl _⟩
  have heq : s.schedSendEvent f.tick = match s.sendEvent with
      | none => s.schedule (max f.tick (s.curTick + 1))
      | some t => if max f.tick (s.curTick + 1) < t then s.schedule (max f.tick (s.curTick + 1)) else .ok s := by
    unfold schedSendEvent
    simp only [hw, Bool.false_eq_true, if_false, hne, ne_eq, not_false_eq_true, if_true, hnext]
  rw [heq]
  cases hev : s.sendEvent with
  | none => exact ⟨_, hsched, harmed⟩
  | some t =>
    obtain ⟨hft, hct⟩ := he t hev
    by_cases hlt : max f.tick (s.curTick + 1) < t
    · exact ⟨_, (if_pos hlt).trans hsched, harmed⟩
    · have hs : { s with sendEvent := some t } = s := by rw [← hev]
      refine ⟨t, (if_neg hlt).trans (by rw [hs]), ?_⟩
      rw [hs]
      exact ⟨f, rest, t, hl, hev, hft, hct, Nat.not_lt.mp hlt⟩

/-- `schedSendEvent` when there is nothing to send. -/
theorem schedSendEvent_maxTick (hw : s.waitingOnRetry = false) (hl : s.transmitList = []) (he : s.sendEvent = none) :
    s.schedSendEvent maxTick = .ok { s with drainState :=
    if s.drainState = .draining then .drained else s.drainState } := by
  have hnot : ¬ s.waitingOnRetry = true := by simp [hw]
  rw [schedSendEvent, if_neg hnot, if_neg (by simp)]
  by_cases hd : s.drainState = .draining
  · simp only [hd, hl, he, and_self, if_true, signalDrainDone]
  · simp only [hd, false_and, if_false]

/-- An operation keeps the books, or does not fail an assertion. -/
def Fine : Except PacketErr PacketQueue → Prop
  | .ok s' => s'.Books
  | .error e => e ≠ .assertion

theorem perm_concat {a b c l : List DeferredPacket} {d : DeferredPacket} (h : (a ++ (b ++ c)).Perm l)
    {c' : List DeferredPacket} (hc : c'.Perm (d :: c)) : (a ++ (b ++ c')).Perm (l ++ [d]) := by
  have h₁ : (a ++ (b ++ c')).Perm (a ++ (b ++ d :: c)) := (hc.append_left b).append_left a
  have h₂ : (a ++ (b ++ d :: c)).Perm (d :: (a ++ (b ++ c))) := by
    rw [← List.append_assoc, ← List.append_assoc]
    exact List.perm_middle
  exact h₁.trans (h₂.trans ((h.cons d).trans (List.perm_append_singleton d l).symm))

/-- A scheduled `sendEvent` is for the front packet. -/
theorem Books.armed (h : s.Books) {t : Nat} (ht : s.sendEvent = some t) : s.waitingOnRetry = false ∧ s.Armed := by
  cases hs : s.sending with
  | none =>
    rcases h.idle hs with ⟨-, he, -⟩ | ⟨-, he, -⟩ | ha
    · simp [ht] at he
    · simp [ht] at he
    · exact ha
  | some dp =>
    obtain ⟨hw, -, he | ⟨-, ha⟩⟩ := h.attempt dp hs
    · simp [ht] at he
    · exact ⟨hw, ha⟩

/-- While the queue waits for a retry, its front packet is due. -/
theorem Books.waiting (h : s.Books) (hw : s.waitingOnRetry = true) :
    s.sending = none ∧ s.sendEvent = none ∧ ∃ f rest, s.transmitList = f :: rest ∧ f.tick ≤ s.curTick := by
  cases hs : s.sending with
  | none =>
    rcases h.idle hs with ⟨-, -, hf⟩ | ⟨-, he, hfront⟩ | ⟨hf, -⟩
    · simp [hw] at hf
    · exact ⟨rfl, he, hfront⟩
    · simp [hw] at hf
  | some dp =>
    have := (h.attempt dp hs).1
    simp [hw] at this

/-- Behind the front packet the list may change. -/
theorem Armed.congr {s' : PacketQueue} (h : s.Armed) {ys : List DeferredPacket} (hl : s.transmitList = f :: rest)
    (hl' : s'.transmitList = f :: ys) (he : s'.sendEvent = s.sendEvent) (hc : s'.curTick = s.curTick) : s'.Armed := by
  obtain ⟨f', rest', t, hf, ht, hbounds⟩ := h
  obtain ⟨rfl, -⟩ := List.cons.inj (hl.symm.trans hf)
  exact ⟨f, ys, t, hl', he.trans ht, by rw [hc]; exact hbounds⟩

/-- `schedSendTiming` of a packet that does not go to the front. -/
theorem Books.placed (h : s.Books) {d : DeferredPacket} (hd : d.tick < maxTick) {l : List DeferredPacket}
    (hl : placeAfter P d s.transmitList = some l) :
    Books { s with calledBack := true, enqueued := s.enqueued ++ [d], transmitList := l } := by
  obtain ⟨hperm, f, rest, ys, hf, rfl⟩ := placeAfter_some hl
  exact {
    time := h.time
    ticks := fun x hx => by
      rcases List.mem_append.mp hx with hx | hx
      · exact h.ticks x (List.mem_append_left _ hx)
      · rcases List.mem_cons.mp (hperm.mem_iff.mp hx) with rfl | hx
        · exact hd
        · exact h.ticks x (List.mem_append_right _ hx)
    idle := fun hs => by
      rcases h.idle hs with ⟨hnil, -⟩ | ⟨hw, he, f', rest', hf', ht⟩ | ⟨hw, ha⟩
      · simp [hf] at hnil
      · obtain ⟨rfl, -⟩ := List.cons.inj (hf.symm.trans hf')
        exact .inr (.inl ⟨hw, he, f, ys, rfl, ht⟩)
      · exact .inr (.inr ⟨hw, ha.congr hf rfl rfl rfl⟩)
    attempt := fun dp hs => by
      obtain ⟨hw, ht, he | ⟨-, ha⟩⟩ := h.attempt dp hs
      · exact ⟨hw, ht, .inl he⟩
      · exact ⟨hw, ht, .inr ⟨rfl, ha.congr hf rfl rfl rfl⟩⟩
    owes := h.owes
    draining := fun _ _ hnil => by cases hnil
    kept := perm_concat h.kept hperm
    onTime := h.onTime }

/-- `schedSendTiming` of a packet that goes to the front, where the send event is scheduled for it. -/
theorem Books.front (h : s.Books) {d : DeferredPacket} (hc : s.curTick ≤ d.tick) (hd : d.tick < maxTick)
    (hl : ∀ x ∈ s.transmitList, d.tick < x.tick) :
    Fine (({ s with calledBack := true, enqueued := s.enqueued ++ [d], transmitList := d :: s.transmitList } :
      PacketQueue).schedSendEvent d.tick) := by
  have hw : s.waitingOnRetry = false := by
    cases hw : s.waitingOnRetry with
    | false => rfl
    | true =>
      obtain ⟨-, -, f, rest, hf, ht⟩ := h.waiting hw
      have := hl f (by rw [hf]; exact List.mem_cons_self)
      omega
  have he : ∀ t ∈ s.sendEvent, d.tick ≤ t ∧ s.curTick ≤ t := fun t ht => by
    obtain ⟨f, rest, t', hf, ht', hft, hct, -⟩ := (h.armed ht).2
    obtain rfl : t' = t := Option.some.inj (ht'.symm.trans ht)
    have := hl f (by rw [hf]; exact List.mem_cons_self)
    exact ⟨by omega, hct⟩
  obtain ⟨t, hok, ha⟩ := schedSendEvent_armed (s := { s with
    calledBack := true, enqueued := s.enqueued ++ [d], transmitList := d :: s.transmitList }) hw h.time rfl hd he
  rw [hok]
  exact {
    time := h.time
    ticks := fun x hx => by
      rcases List.mem_append.mp hx with hx | hx
      · exact h.ticks x (List.mem_append_left _ hx)
      · rcases List.mem_cons.mp hx with rfl | hx
        · exact hd
        · exact h.ticks x (List.mem_append_right _ hx)
    idle := fun _ => .inr (.inr ⟨hw, ha⟩)
    attempt := fun dp hs => ⟨hw, (h.attempt dp hs).2.1, .inr ⟨rfl, ha⟩⟩
    owes := h.owes
    draining := fun _ _ hnil => by cases hnil
    kept := perm_concat h.kept (.refl _)
    onTime := h.onTime }

/-- `schedSendTiming`, also from inside `sendTiming`. -/
theorem schedSendTiming_fine (h : s.Books) {pkt : Pkt} {when : Nat} (hc : s.curTick ≤ when)
    (hp : pkt.isExpressSnoop = false) (hm : when < maxTick) : Fine (s.exec P (.schedSendTiming pkt when)) := by
  have hok : ¬ (when < s.curTick ∨ pkt.isExpressSnoop = true) := by simp [hp]; omega
  simp only [exec, schedSendTiming, hok, if_false]
  split
  · exact fun he => by cases he
  · split
    · rename_i l hl
      exact h.placed (d := ⟨when, pkt⟩) hm hl
    · rename_i hl
      exact h.front (d := ⟨when, pkt⟩) hc hm (placeAfter_none hl)

/-- The front packet is handed to the peer. -/
theorem Books.handed (h : s.Books) (hs : s.sending = none) (hl : s.transmitList = f :: rest) (hf : f.tick ≤ s.curTick) :
    Books { s with
      sendEvent := none
      waitingOnRetry := false
      owesRetry := false
      transmitList := rest
      sending := some f
      calledBack := false } where
  time := h.time
  ticks x hx := h.ticks x (by rw [hs, hl]; exact hx)
  idle hn := by cases hn
  attempt dp hdp := by
    cases hdp
    exact ⟨rfl, hf, .inl rfl⟩
  owes := rfl
  draining hn := by cases hn
  kept := by
    have hk := h.kept
    rw [hs, hl] at hk
    exact hk
  onTime := h.onTime

theorem sendDeferredPacket_eq (hw : s.waitingOnRetry = false) (hl : s.transmitList = f :: rest)
    (hf : f.tick ≤ s.curTick) :
    s.sendDeferredPacket = .ok { s with transmitList := rest, sending := some f, calledBack := false } := by
  have hr : s.deferredPacketReady = true := by simp [deferredPacketReady, hl, hf]
  have hnot : ¬ (s.waitingOnRetry = true ∨ s.deferredPacketReady = false) := by simp [hw, hr]
  rw [sendDeferredPacket, if_neg hnot]
  simp only [hl]

/-- `sendDeferredPacket` with the front packet due and no send event or retry to come. -/
theorem Books.sendDeferredPacket (h : s.Books) (hs : s.sending = none) (hl : s.transmitList = f :: rest)
    (hf : f.tick ≤ s.curTick) : Fine (({ s with sendEvent := none, waitingOnRetry := false, owesRetry := false } :
      PacketQueue).sendDeferredPacket) := by
  rw [sendDeferredPacket_eq (s := { s with sendEvent := none, waitingOnRetry := false, owesRetry := false }) rfl hl hf]
  exact h.handed hs hl hf

theorem sendEvent_fine (h : s.Books) : Fine (s.exec P .sendEvent) := by
  simp only [exec]
  split
  · rename_i hc
    obtain ⟨hw, f, rest, t, hl, ht, hft, -⟩ := h.armed hc.2
    obtain rfl : s.curTick = t := Option.some.inj (hc.2.symm.trans ht)
    have ho : s.owesRetry = false := h.owes.trans hw
    have hb := h.sendDeferredPacket hc.1 hl hft
    simp only [hw, ho]
    exact hb
  · exact fun he => by cases he

theorem retry_fine (h : s.Books) : Fine (s.exec P .retry) := by
  simp only [exec]
  split
  · rename_i hc
    have hw : s.waitingOnRetry = true := h.owes.symm.trans hc.2
    obtain ⟨-, he, f, rest, hl, hft⟩ := h.waiting hw
    have hb := h.sendDeferredPacket hc.1 hl hft
    rw [retry, if_pos hw]
    simp only [he]
    exact hb
  · exact fun he => by cases he

/-- The state in which `sendDeferredPacket` looks at the next packet. -/
def delivered (s : PacketQueue) (dp : DeferredPacket) : PacketQueue :=
  { s with sending := none, waitingOnRetry := false, sent := s.sent ++ [(dp, s.curTick)] }

section

variable (h : s.Books)
include h

/-- The packet is accounted for, whether the list is empty or the next packet has its send event. -/
theorem Books.delivered {dp : DeferredPacket} (hs : s.sending = some dp) {e : Option Nat} {r : DrainState}
    (hnext : s.transmitList = [] ∧ e = none ∧ r ≠ .draining ∨ Armed { s.delivered dp with sendEvent := e }) :
    Books { s.delivered dp with sendEvent := e, drainState := r } where
  time := h.time
  ticks d hd := h.ticks d (List.mem_append_right _ hd)
  idle _ := by
    rcases hnext with ⟨hl, he, -⟩ | ha
    · exact .inl ⟨hl, he, rfl⟩
    · exact .inr (.inr ⟨rfl, ha⟩)
  attempt dp' hdp' := by cases hdp'
  owes := h.owes.trans (h.attempt dp hs).1
  draining _ hd := by
    rcases hnext with ⟨-, -, hr⟩ | ⟨f, rest, t, hl, -⟩
    · exact absurd hd hr
    · exact fun hnil => by cases hl.symm.trans hnil
  kept := by
    have hk := h.kept
    rw [hs] at hk
    simpa [PacketQueue.delivered] using hk
  onTime x hx := by
    rcases List.mem_append.mp hx with hx | hx
    · exact h.onTime x hx
    · rw [List.mem_singleton.mp hx]
      exact (h.attempt dp hs).2.1

/-- The peer accepts the packet, and the next one is looked at. -/
theorem accept_fine : Fine (s.exec P .accept) := by
  simp only [exec]
  split
  · rename_i dp hs
    show Fine ((s.delivered dp).schedSendEvent (s.delivered dp).deferredPacketReadyTime)
    obtain hl | ⟨f, rest, hl⟩ : s.transmitList = [] ∨ ∃ f rest, s.transmitList = f :: rest := by
      cases s.transmitList <;> simp
    · have he : s.sendEvent = none := by
        rcases (h.attempt dp hs).2.2 with he | ⟨-, f, rest, t, hf, -⟩
        · exact he
        · simp [hl] at hf
      have hready : (s.delivered dp).deferredPacketReadyTime = maxTick := by
        simp [deferredPacketReadyTime, PacketQueue.delivered, hl]
      rw [hready, schedSendEvent_maxTick (s := s.delivered dp) rfl hl he]
      refine h.delivered hs (e := s.sendEvent) (.inl ⟨hl, he, ?_⟩)
      split
      · exact fun hd => by cases hd
      · assumption
    · have hready : (s.delivered dp).deferredPacketReadyTime = f.tick := by
        simp [deferredPacketReadyTime, PacketQueue.delivered, hl]
      have hf : f.tick < maxTick := h.ticks f (by rw [hl]; simp)
      have hbound : ∀ t ∈ s.sendEvent, f.tick ≤ t ∧ s.curTick ≤ t := fun t ht => by
        obtain ⟨f', rest', t', hf', ht', hft, hct, -⟩ := (h.armed ht).2
        obtain ⟨rfl, -⟩ := List.cons.inj (hl.symm.trans hf')
        obtain rfl : t' = t := Option.some.inj (ht'.symm.trans ht)
        exact ⟨hft, hct⟩
      obtain ⟨t, hok, ha⟩ := schedSendEvent_armed (s := s.delivered dp) rfl h.time hl hf hbound
      rw [hready, hok]
      exact h.delivered hs (r := s.drainState) (.inr ha)
  · exact fun he => by cases he

theorem refuse_fine : Fine (s.exec P .refuse) := by
  simp only [exec]
  split
  · rename_i dp hs
    split
    · exact fun he => by cases he
    · rename_i hcb
      obtain ⟨hw, hdp, he | ⟨hc, -⟩⟩ := h.attempt dp hs
      · exact {
          time := h.time
          ticks := fun x hx => h.ticks x (by rw [hs]; exact hx)
          idle := fun _ => .inr (.inl ⟨rfl, he, dp, s.transmitList, rfl, hdp⟩)
          attempt := fun dp' hdp' => by cases hdp'
          owes := rfl
          draining := fun _ _ hnil => by cases hnil
          kept := by
            have hk := h.kept
            rw [hs] at hk
            exact hk
          onTime := h.onTime }
      · exact absurd hc hcb
  · exact fun he => by cases he

theorem advance_fine {t : Nat} (ht : t < maxTick) : Fine (s.exec P (.advance t)) := by
  simp only [exec]
  split
  · rename_i hc
    obtain ⟨hs, hlt, -, he⟩ := hc
    exact {
      time := ht
      ticks := h.ticks
      idle := fun hn => by
        rcases h.idle hn with hi | ⟨hw, hev, f, rest, hl, hf⟩ | ⟨hw, f, rest, e, hl, hev, hft, hct, hle⟩
        · exact .inl hi
        · exact .inr (.inl ⟨hw, hev, f, rest, hl, Nat.le_trans hf (Nat.le_of_lt hlt)⟩)
        · refine .inr (.inr ⟨hw, f, rest, e, hl, hev, hft, he e hev, ?_⟩)
          show e ≤ max f.tick (t + 1)
          omega
      attempt := fun dp hdp => by simp [hs] at hdp
      owes := h.owes
      draining := h.draining
      kept := h.kept
      onTime := h.onTime }
  · exact fun he => by cases he

theorem drain_fine : Fine (s.exec P .drain) := by
  simp only [exec]
  split
  · exact { h with
      draining := fun _ hd hnil => by
        simp only [drain] at hd hnil
        simp [hnil] at hd }
  · exact fun he => by cases he

/-- **Every operation of a timely run keeps the books, and fails no assertion.** -/
theorem exec_fine {op : PacketOp} (hop : Timely s op) : Fine (s.exec P op) := by
  cases op with
  | schedSendTiming pkt when => exact schedSendTiming_fine h hop.1 hop.2.1 hop.2.2
  | sendEvent => exact sendEvent_fine h
  | retry => exact retry_fine h
  | accept => exact accept_fine h
  | refuse => exact refuse_fine h
  | advance t => exact advance_fine h hop
  | drain => exact drain_fine h
  | resume => exact { h with draining := fun _ hd => by cases hd }

end

end PacketQueue

open PacketQueue

theorem books_of_step {P : PacketQueueParams} {s s' : PacketQueue} {op : PacketOp} (h : s.Books) (hop : Timely s op)
    (hs : (packetQueue P).step s op = some s') : s'.Books := by
  have hf := exec_fine (P := P) h hop
  rw [ok_of_toOption hs] at hf
  exact hf

theorem books_of_reachable {P : PacketQueueParams} {s : PacketQueue} (h : (packetQueue P).ReachableWhen Timely s) :
    s.Books := by
  refine System.invariantWhen (I := PacketQueue.Books) ?_ ?_ h
  · rintro s ⟨hl, he, hw, hd, ht, hs, ho, hen, hsent⟩
    exact {
      time := ht
      ticks := by simp [hs, hl]
      idle := fun _ => .inl ⟨hl, he, hw⟩
      attempt := by simp [hs]
      owes := by rw [ho, hw]
      draining := by simp [hd]
      kept := by simp [hs, hl, hen, hsent]
      onTime := by simp [hsent] }
  · exact fun s op s' _ hI hC hs => books_of_step hI hC hs

/-! ## Every packet is sent -/

section Progress

variable {P : PacketQueueParams} {s s' : PacketQueue} {f dp : DeferredPacket} {rest : List DeferredPacket}

theorem schedSendEvent_error {when : Nat} {e : PacketErr} (h : s.schedSendEvent when = .error e) : e = .assertion := by
  unfold schedSendEvent schedule at h
  grind

theorem schedSendEvent_frame {when : Nat} (h : s.schedSendEvent when = .ok s') :
    s'.transmitList = s.transmitList ∧ s'.sending = s.sending ∧ s'.curTick = s.curTick ∧ s'.enqueued = s.enqueued ∧
      s'.sent = s.sent := by
  unfold schedSendEvent schedule signalDrainDone at h
  grind

theorem run_accept (h : s.Books) (hs : s.sending = some dp) :
    ∃ s', (packetQueue P).Run Timely s s' ∧ s'.transmitList = s.transmitList ∧ s'.sending = none ∧
    s'.curTick = s.curTick := by
  have hf := accept_fine (P := P) h
  have hx : s.exec P .accept = (s.delivered dp).schedSendEvent (s.delivered dp).deferredPacketReadyTime := by
    simp only [exec, hs]
    rfl
  cases hr : (s.delivered dp).schedSendEvent (s.delivered dp).deferredPacketReadyTime with
  | error e =>
    rw [hx, hr] at hf
    exact absurd (schedSendEvent_error hr) hf
  | ok s' =>
    obtain ⟨hl, hn, hc, -⟩ := schedSendEvent_frame hr
    refine ⟨s', .single (a := .accept) trivial ?_, hl, hn, hc⟩
    show (s.exec P .accept).toOption = some s'
    rw [hx, hr]
    rfl

/-- The peer is given the front packet, and accepts it. -/
theorem run_handed {a : PacketOp} (h : s.Books) (ha : Timely s a) {s₁ : PacketQueue} (hx : s.exec P a = .ok s₁)
    (hs₁ : s₁.sending = some f) : ∃ s', (packetQueue P).Run Timely s s' ∧ s'.transmitList = s₁.transmitList ∧
      s'.sending = none ∧ s'.curTick = s₁.curTick := by
  have hstep : (packetQueue P).step s a = some s₁ := by
    show (s.exec P a).toOption = some s₁
    rw [hx]
    rfl
  obtain ⟨s', hrun, hrest⟩ := run_accept (P := P) (books_of_step h ha hstep) hs₁
  exact ⟨s', (System.Run.single ha hstep).trans hrun, hrest⟩

theorem exec_retry (h : s.Books) (hw : s.waitingOnRetry = true) (hl : s.transmitList = f :: rest) : ∃ s₁,
    s.exec P .retry = .ok s₁ ∧ s₁.transmitList = rest ∧ s₁.sending = some f ∧ s₁.curTick = s.curTick := by
  obtain ⟨hs, -, f', rest', hl', hf⟩ := h.waiting hw
  obtain ⟨rfl, -⟩ := List.cons.inj (hl.symm.trans hl')
  have ho : s.owesRetry = true := h.owes.trans hw
  have hsend := sendDeferredPacket_eq (s := { s with owesRetry := false, waitingOnRetry := false }) rfl hl hf
  rw [exec, if_pos ⟨hs, ho⟩, retry, if_pos hw]
  exact ⟨_, hsend, rfl, rfl, rfl⟩

section

variable (h : s.Books) (hs : s.sending = none)
include h hs

theorem exec_sendEvent (hev : s.sendEvent = some s.curTick) (hl : s.transmitList = f :: rest) : ∃ s₁,
    s.exec P .sendEvent = .ok s₁ ∧ s₁.transmitList = rest ∧ s₁.sending = some f ∧ s₁.curTick = s.curTick := by
  obtain ⟨hw, f', rest', t, hl', ht, hf, -⟩ := h.armed hev
  obtain ⟨rfl, -⟩ := List.cons.inj (hl.symm.trans hl')
  obtain rfl : s.curTick = t := Option.some.inj (hev.symm.trans ht)
  have hsend := sendDeferredPacket_eq (s := { s with sendEvent := none }) hw hl hf
  rw [exec, if_pos ⟨hs, hev⟩, processSendEvent, if_neg (by simp [hw])]
  exact ⟨_, hsend, rfl, rfl, rfl⟩

/-- The front packet goes out, by the next tick or by its own. -/
theorem run_front (hl : s.transmitList = f :: rest) {T : Nat} (hc : s.curTick ≤ T) (hf : f.tick ≤ T)
    (hT : T + 1 < maxTick) :
    ∃ s', (packetQueue P).Run Timely s s' ∧ s'.transmitList = rest ∧ s'.sending = none ∧ s'.curTick ≤ T + 1 := by
  rcases h.idle hs with ⟨hnil, -⟩ | ⟨hw, -⟩ | ⟨hw, f', rest', t, hl', hev, hft, hct, hle⟩
  · simp [hl] at hnil
  · -- the peer asks for the packet again
    obtain ⟨s₁, hx, hl₁, hs₁, hc₁⟩ := exec_retry (P := P) h hw hl
    obtain ⟨s', hrun, hl', hs', hc'⟩ := run_handed (a := .retry) h trivial hx hs₁
    exact ⟨s', hrun, hl'.trans hl₁, hs', by omega⟩
  · -- time goes on to the send event
    obtain ⟨rfl, -⟩ := List.cons.inj (hl.symm.trans hl')
    obtain ⟨s₀, hrun₀, hb₀, hl₀, hs₀, hev₀, hc₀⟩ : ∃ s₀, (packetQueue P).Run Timely s s₀ ∧ s₀.Books ∧
        s₀.transmitList = f :: rest ∧ s₀.sending = none ∧ s₀.sendEvent = some s₀.curTick ∧ s₀.curTick = t := by
      rcases Nat.lt_or_ge s.curTick t with hlt | hge
      · have hop : Timely s (.advance t) := by show t < maxTick; omega
        have hguard : s.sending = none ∧ s.curTick < t ∧ t ≤ maxTick ∧ ∀ e ∈ s.sendEvent, t ≤ e :=
          ⟨hs, hlt, by omega, fun e he => Nat.le_of_eq (Option.some.inj (hev.symm.trans he))⟩
        have hstep : (packetQueue P).step s (.advance t) = some { s with curTick := t } := by
          show (s.exec P (.advance t)).toOption = _
          rw [exec, if_pos hguard]
          rfl
        exact ⟨_, .single hop hstep, books_of_step h hop hstep, hl, hs, hev, rfl⟩
      · obtain rfl : s.curTick = t := by omega
        exact ⟨s, .refl s, h, hl, hs, hev, rfl⟩
    obtain ⟨s₁, hx, hl₁, hs₁, hc₁⟩ := exec_sendEvent (P := P) hb₀ hs₀ hev₀ hl₀
    obtain ⟨s', hrun, hl', hs', hc'⟩ := run_handed (a := .sendEvent) hb₀ trivial hx hs₁
    exact ⟨s', hrun₀.trans hrun, hl'.trans hl₁, hs', by omega⟩

/-- All packets go out, if time does not end before. -/
theorem run_all {T : Nat} (hc : s.curTick ≤ T) (ht : ∀ d ∈ s.transmitList, d.tick ≤ T)
    (hT : T + s.transmitList.length < maxTick) :
    ∃ s', (packetQueue P).Run Timely s s' ∧ s'.transmitList = [] ∧ s'.sending = none := by
  generalize hn : s.transmitList = l at ht hT
  induction l generalizing s T with
  | nil => exact ⟨s, .refl s, hn, hs⟩
  | cons f rest ih =>
    rw [List.length_cons] at hT
    obtain ⟨s₁, hrun, hl₁, hs₁, hc₁⟩ := run_front (P := P) h hs hn hc (ht f List.mem_cons_self) (by omega)
    have hb₁ : s₁.Books := hrun.keeps (fun s op s' hI hC hstep => books_of_step hI hC hstep) h
    obtain ⟨s', hrun', hl', hs'⟩ := ih hb₁ hs₁ hc₁ hl₁
      (fun d hd => Nat.le_succ_of_le (ht d (List.mem_cons_of_mem _ hd))) (by omega)
    exact ⟨s', hrun.trans hrun', hl', hs'⟩

end

end Progress

/-- **The books of a packet queue.** In every timely run no assertion fails; outside a send attempt a queue that is not
empty waits for a retry or has its send event scheduled, and not both, the event by the tick of the front packet or the
next one; every packet enqueued is in the list, with the peer, or sent, once, and was not sent before its tick; and if
time does not end before, all packets in the list are sent. -/
theorem bookkeeping {P : PacketQueueParams} {s : PacketQueue} (h : (packetQueue P).ReachableWhen Timely s) :
    (∀ op, Timely s op → s.exec P op ≠ .error .assertion) ∧
    (s.sending = none → s.transmitList ≠ [] →
      s.waitingOnRetry = true ∧ s.sendEvent = none ∨ s.waitingOnRetry = false ∧ s.sendEvent ≠ none) ∧
    (∀ t f rest, s.sending = none → s.sendEvent = some t → s.transmitList = f :: rest →
      t ≤ max f.tick (s.curTick + 1)) ∧
    (s.sent.map Prod.fst ++ (s.sending.toList ++ s.transmitList)).Perm s.enqueued ∧
    (∀ d t, (d, t) ∈ s.sent → d.tick ≤ t) ∧
    ∀ T, s.sending = none → s.curTick ≤ T → (∀ d ∈ s.transmitList, d.tick ≤ T) →
      T + s.transmitList.length < maxTick →
      ∃ s', (packetQueue P).Run Timely s s' ∧ s'.transmitList = [] ∧ s'.sending = none := by
  have hb := books_of_reachable h
  refine ⟨fun op hop hx => ?_, fun hs hl => ?_, fun t f rest hs ht hl => ?_, hb.kept, fun d t hd => hb.onTime _ hd,
    fun T hs hc ht hT => run_all hb hs hc ht hT⟩
  · have hf := exec_fine (P := P) hb hop
    rw [hx] at hf
    exact hf rfl
  · rcases hb.idle hs with ⟨hnil, -⟩ | ⟨hw, he, -⟩ | ⟨hw, f, rest, t, -, he, -⟩
    · exact absurd hnil hl
    · exact .inl ⟨hw, he⟩
    · exact .inr ⟨hw, by simp [he]⟩
  · obtain ⟨f', rest', t', hl', ht', -, -, hle⟩ := (hb.armed ht).2
    obtain ⟨rfl, -⟩ := List.cons.inj (hl.symm.trans hl')
    obtain rfl : t' = t := Option.some.inj (ht'.symm.trans ht)
    exact hle

/-- A queue without packets at the tick `0`. -/
def PacketQueue.empty : PacketQueue :=
  ⟨[], none, false, .running, 0, none, false, false, [], []⟩

theorem PacketQueue.empty_fresh (P : PacketQueueParams) : (packetQueue P).init .empty :=
  ⟨rfl, rfl, rfl, rfl, by decide, rfl, rfl, rfl, rfl⟩

/-- The assertions that are the caller's to see to. -/
def Called (s : PacketQueue) : PacketOp → Prop
  | .schedSendTiming pkt when => s.curTick ≤ when ∧ pkt.isExpressSnoop = false
  | _ => True

instance (s : PacketQueue) : (op : PacketOp) → Decidable (Called s op)
  | .schedSendTiming pkt when => inferInstanceAs (Decidable (s.curTick ≤ when ∧ pkt.isExpressSnoop = false))
  | .sendEvent | .retry | .accept | .refuse | .advance _ | .drain | .resume => .isTrue trivial

instance (s : PacketQueue) : (op : PacketOp) → Decidable (Timely s op)
  | .schedSendTiming pkt when =>
    inferInstanceAs (Decidable (s.curTick ≤ when ∧ pkt.isExpressSnoop = false ∧ when < maxTick))
  | .advance t => inferInstanceAs (Decidable (t < maxTick))
  | .sendEvent | .retry | .accept | .refuse | .drain | .resume => .isTrue trivial

/-- A packet that is refused, asked for again, and answered with a new one while it is accepted. -/
theorem bookkeeping_retry : ∃ P s, (packetQueue P).ReachableWhen Timely s ∧ s.sent.length = 1 ∧
    s.transmitList.length = 1 ∧ s.waitingOnRetry = false ∧ s.sendEvent ≠ none := by
  obtain ⟨s, hs, hn, hsent, hl⟩ := System.reachableWhen_of_replay (C := fun s op => decide (Timely s op))
    (PacketQueue.empty_fresh ⟨false, false⟩)
    [.schedSendTiming ⟨64, false, false⟩ 5, .advance 5, .sendEvent, .refuse, .advance 9, .retry,
      .schedSendTiming ⟨64, false, false⟩ 9, .accept]
    (fun s => s.sending = none ∧ s.sent.length = 1 ∧ s.transmitList.length = 1 ∧ s.waitingOnRetry = false)
    (by decide)
  have hs' := hs.mono (fun s op hop => of_decide_eq_true hop)
  have hb := (bookkeeping hs').2.1 hn (by intro hnil; simp [hnil] at hl)
  refine ⟨_, s, hs', hsent, hl.1, hl.2, ?_⟩
  rcases hb with ⟨hw, -⟩ | ⟨-, he⟩
  · simp [hl.2] at hw
  · exact he

/-- `MaxTick` is no time: no event is scheduled for a packet with this tick, and at this tick `curTick() + 1` is `0`. -/
theorem not_bookkeeping_maxTick :
    (¬ ∀ P s, (packetQueue P).ReachableWhen Called s → s.sending = none → s.transmitList ≠ [] →
      s.waitingOnRetry = true ∧ s.sendEvent = none ∨ s.waitingOnRetry = false ∧ s.sendEvent ≠ none) ∧
    ¬ ∀ P s op, (packetQueue P).ReachableWhen Called s → Called s op → s.exec P op ≠ .error .assertion := by
  constructor
  · intro h
    obtain ⟨s, hs, hn, hl, hw, he⟩ := System.reachableWhen_of_replay (C := fun s op => decide (Called s op))
      (PacketQueue.empty_fresh ⟨false, false⟩) [.schedSendTiming ⟨64, false, false⟩ maxTick]
      (fun s => s.sending = none ∧ s.transmitList ≠ [] ∧ s.waitingOnRetry = false ∧ s.sendEvent = none)
      (by decide)
    have := h _ s (hs.mono fun s op hop => of_decide_eq_true hop) hn hl
    simp [hw, he] at this
  · intro h
    obtain ⟨s, hs, hx⟩ := System.reachableWhen_of_replay (C := fun s op => decide (Called s op))
      (PacketQueue.empty_fresh ⟨false, false⟩)
        [.advance (maxTick - 1), .schedSendTiming ⟨64, false, false⟩ (maxTick - 1),
        .schedSendTiming ⟨64, false, false⟩ (maxTick - 1), .advance maxTick, .sendEvent]
      (fun s => (match s.exec ⟨false, false⟩ .accept with
        | .error e => decide (e = .assertion)
        | .ok _ => false) = true) (by decide)
    refine h _ s .accept (hs.mono fun s op hop => of_decide_eq_true hop) trivial ?_
    split at hx
    · rename_i e he
      rw [he, of_decide_eq_true hx]
    · cases hx

end Salam.Mem
