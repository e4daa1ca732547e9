import Salam.Comm.Interface

/-!
# Who owns a request

Every request that was enqueued and not committed is in its queue, or in the list of its direction with one packet out
and one port that carries it; the invariant is `Owned`. A port takes a request (`Owned.carry`), a refused packet is
accepted later (`Owned.resend`), a response takes the packet away and gives the request back or commits it
(`Owned.recvPacket`).

* `owned_of_reachable`: `Owned` holds in every reachable state.
-/

namespace Salam.Comm

open Function (update_of_ne update_self update_apply update)

namespace St

/-- The commits of `r`. -/
def commits (s : St) (d : Dir) (r : Nat) : Nat := s.log.count (.commit d r)

/-- The packet is in flight, or waits in a port. -/
def Out (s : St) (k : Packet) : Prop := k ∈ s.inFlight ∨ ∃ p, k ∈ s.outstandingPkts p

/-- Who owns the requests and the packets. -/
structure Owned (s : St) : Prop where
  once : ∀ r < s.nextReq, (s.queue (s.reqs r).dir).count r + (s.acc (s.reqs r).dir).count r +
    s.commits (s.reqs r).dir r = 1
  own : ∀ d r, r ∈ s.queue d ∨ r ∈ s.acc d ∨ s.commits d r ≠ 0 → r < s.nextReq ∧ (s.reqs r).dir = d
  left : ∀ r < s.nextReq, (s.reqs r).needTo = true ↔ 0 < (s.reqs r).left
  waiting : ∀ d, ∀ r ∈ s.queue d, (s.reqs r).needTo = true
  carrier : ∀ d p r, s.portReq d p = some r ↔ r ∈ s.acc d ∧ (s.reqs r).port = some p
  carried : ∀ d, ∀ r ∈ s.acc d, (s.reqs r).port.isSome = true
  packet : ∀ d, ∀ r ∈ s.acc d, ∃ k, s.Out k ∧ k.req = r ∧ k.dir = d
  owner : ∀ k, s.Out k → k.req ∈ s.acc k.dir ∧ (s.reqs k.req).pkt = some k.id ∧ k.id < s.nextPkt
  stalledAt : ∀ p, ∀ k ∈ s.outstandingPkts p, (s.reqs k.req).port = some p
  unique : ∀ k k', s.Out k → s.Out k' → k.id = k'.id → k = k'
  inFlight_nodup : s.inFlight.Nodup
  stalled_nodup : ∀ p, (s.outstandingPkts p).Nodup
  apart : ∀ p, ∀ k ∈ s.inFlight, k ∉ s.outstandingPkts p

section Consequences

variable {s : St} {d : Dir} {r : Nat} {k k' : Packet}

theorem Owned.not_acc (h : s.Owned) (hr : r ∈ s.queue d) : r ∉ s.acc d := by
  obtain ⟨hlt, rfl⟩ := h.own d r (.inl hr)
  have := h.once r hlt
  have := List.count_pos_iff.mpr hr
  exact fun ha => by have := List.count_pos_iff.mpr ha; omega

theorem Owned.acc_nodup (h : s.Owned) (d : Dir) : (s.acc d).Nodup := by
  refine List.nodup_iff_count.mpr fun r => ?_
  by_cases hr : r ∈ s.acc d
  · obtain ⟨hlt, rfl⟩ := h.own d r (.inr (.inl hr))
    have := h.once r hlt
    omega
  · rw [List.count_eq_zero.mpr hr]
    omega

theorem Owned.eq_of_req (h : s.Owned) (hk : s.Out k) (hk' : s.Out k') (he : k.req = k'.req) : k = k' := by
  refine h.unique k k' hk hk' (Option.some.inj ?_)
  rw [← (h.owner k hk).2.1, ← (h.owner k' hk').2.1, he]

/-- **`findMemRequest` finds the request of the packet.** -/
theorem Owned.findMemRequest (h : s.Owned) (hk : s.Out k) : s.findMemRequest k = some k.req := by
  obtain ⟨hacc, hpkt, -⟩ := h.owner k hk
  have hsome : (s.findMemRequest k).isSome = true := List.find?_isSome.mpr ⟨k.req, hacc, by simpa using hpkt⟩
  obtain ⟨r, hr⟩ := Option.isSome_iff_exists.mp hsome
  have hmem := List.mem_of_find?_eq_some hr
  have hid : (s.reqs r).pkt = some k.id := by simpa using List.find?_some hr
  obtain ⟨k', hk', rfl, -⟩ := h.packet k.dir r hmem
  obtain rfl : k' = k := h.unique k' k hk' hk (Option.some.inj ((h.owner k' hk').2.1.symm.trans hid))
  exact hr

end Consequences

variable {s s' : St}

/-- `Owned` does not look at the flags, and of the log only at the commits. -/
theorem Owned.congr (h : s.Owned) (hreqs : s'.reqs = s.reqs) (hn : s'.nextReq = s.nextReq) (hp : s.nextPkt ≤ s'.nextPkt)
    (hq : s'.queue = s.queue) (ha : s'.acc = s.acc) (hpr : s'.portReq = s.portReq)
      (ho : s'.outstandingPkts = s.outstandingPkts)
    (hf : s'.inFlight = s.inFlight) (hc : ∀ d r, s'.commits d r = s.commits d r) : s'.Owned := by
  have hout : ∀ k, s'.Out k ↔ s.Out k := fun k => by simp only [Out, ho, hf]
  refine ⟨?_, ?_, ?_, ?_, ?_, ?_, ?_, ?_, ?_, ?_, ?_, ?_, ?_⟩
  · simpa only [hreqs, hn, hq, ha, hc] using h.once
  · simpa only [hreqs, hn, hq, ha, hc] using h.own
  · simpa only [hreqs, hn] using h.left
  · simpa only [hreqs, hq] using h.waiting
  · simpa only [hreqs, ha, hpr] using h.carrier
  · simpa only [hreqs, ha] using h.carried
  · simpa only [hout, ha] using h.packet
  · intro k hk
    obtain ⟨h₁, h₂, h₃⟩ := h.owner k ((hout k).mp hk)
    rw [ha, hreqs]
    exact ⟨h₁, h₂, Nat.lt_of_lt_of_le h₃ hp⟩
  · simpa only [hreqs, ho] using h.stalledAt
  · simpa only [hout] using h.unique
  · simpa only [hf] using h.inFlight_nodup
  · simpa only [ho] using h.stalled_nodup
  · simpa only [hf, ho] using h.apart

theorem owned_start : start.Owned := by
  constructor <;> simp [start, commits, Out]

/-! ## A new request -/

theorem Owned.enqueue {s : St} (h : s.Owned) {q : MemoryRequest} (hn : q.needTo = true) (hl : 0 < q.left) :
    (s.enqueue q).Owned := by
  have hold : ∀ {r}, r < s.nextReq → (s.enqueue q).reqs r = s.reqs r := fun hr => by
    simp [St.enqueue, setQueue, schedule, Nat.ne_of_lt hr]
  have hnew : (s.enqueue q).reqs s.nextReq = q := by simp [St.enqueue, setQueue, schedule]
  have hqueue : ∀ d, (s.enqueue q).queue d = if d = q.dir then s.queue d ++ [s.nextReq] else s.queue d := fun d => by
    by_cases hd : d = q.dir
    · subst hd; simp [St.enqueue, setQueue, schedule]
    · simp [St.enqueue, setQueue, schedule, hd]
  have hmem : ∀ d r, r ∈ (s.enqueue q).queue d → r ∈ s.queue d ∨ r = s.nextReq ∧ d = q.dir := fun d r hr => by
    rw [hqueue] at hr
    split at hr
    · simp only [List.mem_append, List.mem_singleton] at hr
      exact hr.imp_right fun he => ⟨he, by assumption⟩
    · exact .inl hr
  -- the new request is nowhere else
  have hfresh : ∀ d, s.nextReq ∉ s.queue d ∧ s.nextReq ∉ s.acc d ∧ s.commits d s.nextReq = 0 := fun d =>
    ⟨fun hr => Nat.lt_irrefl _ (h.own d _ (.inl hr)).1, fun hr => Nat.lt_irrefl _ (h.own d _ (.inr (.inl hr))).1,
      Decidable.not_not.mp fun hr => Nat.lt_irrefl _ (h.own d _ (.inr (.inr hr))).1⟩
  have hacc : ∀ {d r}, r ∈ s.acc d → r < s.nextReq := fun hr => (h.own _ _ (.inr (.inl hr))).1
  refine ⟨?_, ?_, ?_, ?_, ?_, ?_, h.packet, ?_, ?_, h.unique, h.inFlight_nodup, h.stalled_nodup, h.apart⟩
  · intro r hr
    show ((s.enqueue q).queue _).count r + (s.acc _).count r + s.commits _ r = 1
    by_cases hrn : r = s.nextReq
    · subst hrn
      obtain ⟨h₁, h₂, h₃⟩ := hfresh q.dir
      rw [hnew, hqueue, if_pos rfl, List.count_append, List.count_eq_zero.mpr h₁, List.count_eq_zero.mpr h₂, h₃]
      simp
    · have hlt : r < s.nextReq := Nat.lt_of_le_of_ne (Nat.le_of_lt_succ hr) hrn
      have hcount : ((s.enqueue q).queue (s.reqs r).dir).count r = (s.queue (s.reqs r).dir).count r := by
        rw [hqueue]
        split
        · simp [List.count_append, Ne.symm hrn]
        · rfl
      rw [hold hlt, hcount]
      exact h.once r hlt
  · intro d r hr
    show r < s.nextReq + 1 ∧ _
    have hcase : (r ∈ s.queue d ∨ r ∈ s.acc d ∨ s.commits d r ≠ 0) ∨ r = s.nextReq ∧ d = q.dir := by
      rcases hr with hr | hr | hr
      · exact (hmem d r hr).imp_left .inl
      · exact .inl (.inr (.inl hr))
      · exact .inl (.inr (.inr hr))
    rcases hcase with hr | ⟨rfl, rfl⟩
    · obtain ⟨hlt, hd⟩ := h.own d r hr
      exact ⟨Nat.lt_succ_of_lt hlt, by rw [hold hlt]; exact hd⟩
    · exact ⟨Nat.lt_succ_self _, by rw [hnew]⟩
  · intro r hr
    by_cases hrn : r = s.nextReq
    · subst hrn
      simp [hnew, hn, hl]
    · have hlt : r < s.nextReq := Nat.lt_of_le_of_ne (Nat.le_of_lt_succ hr) hrn
      rw [hold hlt]
      exact h.left r hlt
  · intro d r hr
    rcases hmem d r hr with hr | ⟨rfl, -⟩
    · rw [hold (h.own d r (.inl hr)).1]
      exact h.waiting d r hr
    · rw [hnew]
      exact hn
  · intro d p r
    show s.portReq d p = some r ↔ r ∈ s.acc d ∧ _
    rw [h.carrier]
    exact and_congr_right fun hr => by rw [hold (hacc hr)]
  · intro d r hr
    rw [hold (hacc hr)]
    exact h.carried d r hr
  · intro k hk
    obtain ⟨h₁, h₂, h₃⟩ := h.owner k hk
    exact ⟨h₁, by rw [hold (hacc h₁)]; exact h₂, h₃⟩
  · intro p k hk
    rw [hold (hacc (h.owner k (.inr ⟨p, hk⟩)).1)]
    exact h.stalledAt p k hk

theorem Owned.call {s : St} (h : s.Owned) {c : Call} (hc : c.ok = true) : (s.call c).Owned := by
  cases c with
  | enqueueRead add len => exact h.enqueue rfl (of_decide_eq_true hc)
  | enqueueWrite add data => exact h.enqueue rfl (of_decide_eq_true hc)
  | finish => exact h.congr rfl rfl (Nat.le_refl _) rfl rfl rfl rfl rfl fun _ _ => rfl

theorem Owned.calls {calls : List Call} :
    ∀ {s : St}, s.Owned → (∀ c ∈ calls, c.ok = true) → (calls.foldl St.call s).Owned := by
  induction calls with
  | nil => exact fun h _ => h
  | cons c calls ih =>
    intro s h hc
    exact ih (h.call (hc c List.mem_cons_self)) fun c' hc' => hc c' (List.mem_cons_of_mem _ hc')

theorem Owned.checkMMR {s : St} (h : s.Owned) {calls : List Call} (hc : ∀ c ∈ calls, c.ok = true) :
    (s.checkMMR calls).Owned := by
  unfold St.checkMMR
  split
  · refine Owned.calls (h.congr rfl rfl (Nat.le_refl _) rfl rfl rfl rfl rfl fun d r => ?_) hc
    simp [commits, emit]
  · exact h

/-! ## A port takes a request -/

/-- The port `p` has taken the request `r`, now `q`, and sent the packet `k` or holds it. -/
structure Sent (s : St) (d : Dir) (p r : Nat) (k : Packet) (q : MemoryRequest) (s' : St) : Prop where
  id : k.id = s.nextPkt
  dir : k.dir = d
  req : k.req = r
  same : q.dir = (s.reqs r).dir
  port : q.port = some p
  pkt : q.pkt = some k.id
  left : q.needTo = true ↔ 0 < q.left
  size : 0 < k.size ∧ k.size ≤ (s.reqs r).left
  rest : q.left = (s.reqs r).left - k.size
  current : q.current = (s.reqs r).current + BitVec.ofNat 64 k.size
  reqs : s'.reqs = Function.update s.reqs r q
  nextReq : s'.nextReq = s.nextReq
  nextPkt : s'.nextPkt = s.nextPkt + 1
  queue : s'.queue = s.queue
  acc : s'.acc = Function.update s.acc d (s.acc d ++ [r])
  portReq : s'.portReq = Function.update s.portReq d (Function.update (s.portReq d) p (some r))
  commits : ∀ d r, s'.commits d r = s.commits d r
  out : s'.inFlight = s.inFlight ++ [k] ∧ s'.outstandingPkts = s.outstandingPkts ∨
    s'.inFlight = s.inFlight ∧ s'.outstandingPkts = Function.update s.outstandingPkts p [k]

theorem chunk_bounds {line left : Nat} (current : Word) (hline : 0 < line) (hleft : 0 < left) :
    0 < chunk line current left ∧ chunk line current left ≤ left := by
  have hmod := Nat.mod_lt current.toNat hline
  unfold chunk
  dsimp only
  split <;> split <;> omega

/-- After the packet, bytes are needed as long as there are any. -/
theorem needTo_sent {q : MemoryRequest} (hn : q.needTo = true) (k : Packet) :
    (q.sent k).needTo = true ↔ 0 < (q.sent k).left := by
  show (if q.left - k.size = 0 then false else q.needTo) = true ↔ 0 < q.left - k.size
  split
  · rename_i h
    rw [h]
    exact ⟨nofun, fun h => absurd h (Nat.lt_irrefl 0)⟩
  · exact ⟨fun _ => by omega, fun _ => hn⟩

variable {k : Packet} {p : Nat}

theorem sendPacket_eq {s : St} {env : Env} (hp : s.outstandingPkts p = []) : s.sendPacket env p k =
      if env.accept k.id then { s with inFlight := s.inFlight ++ [k] } else s.setOutstanding p [k] := by
  cases ha : env.accept k.id <;> simp [sendPacket, isStalled, hp, ha]

theorem ite_schedule (s : St) (c : Bool) : ∃ b, (if c then s.schedule else s) = { s with tickScheduled := b } := by
  cases c
  · exact ⟨s.tickScheduled, rfl⟩
  · exact ⟨true, rfl⟩

/-- `tryRead` and `tryWrite` when there are bytes left and the port is not stalled. -/
theorem tryAccess_eq (cfg : Config) (env : Env) {s : St} {d : Dir} {r p : Nat} (hl : 0 < (s.reqs r).left)
    (hp : s.outstandingPkts p = []) : ∃ b, s.tryAccess cfg env d p r = { s with
      reqs := update s.reqs r ((s.reqs r).sent (s.nextPacket cfg d r))
      nextPkt := s.nextPkt + 1
      inFlight := if env.accept s.nextPkt then s.inFlight ++ [s.nextPacket cfg d r] else s.inFlight
      outstandingPkts := if env.accept s.nextPkt then s.outstandingPkts
        else update s.outstandingPkts p [s.nextPacket cfg d r]
      tickScheduled := b
      log := s.log ++ [.issue (s.nextPacket cfg d r)] } := by
  generalize hk : s.nextPacket cfg d r = k
  have hid : k.id = s.nextPkt := by rw [← hk]; rfl
  have hsend : (({ s with nextPkt := s.nextPkt + 1 }.emit (.issue k)).modify r fun q => q.sent k).sendPacket env p k =
      { s with
        reqs := update s.reqs r ((s.reqs r).sent k)
        nextPkt := s.nextPkt + 1
        inFlight := if env.accept s.nextPkt then s.inFlight ++ [k] else s.inFlight
        outstandingPkts := if env.accept s.nextPkt then s.outstandingPkts
          else update s.outstandingPkts p [k]
        log := s.log ++ [.issue k] } := by
    have hs : ∀ t : St, t.outstandingPkts = s.outstandingPkts → t.sendPacket env p k =
        if env.accept s.nextPkt then { t with inFlight := t.inFlight ++ [k] } else t.setOutstanding p [k] :=
        fun t ht => by
      rw [sendPacket_eq (by rw [ht, hp]), hid]
    refine (hs _ ?_).trans ?_
    · rfl
    · cases env.accept s.nextPkt <;> rfl
  unfold tryAccess
  rw [if_neg (by omega), hk]
  obtain ⟨b, hb⟩ := ite_schedule ((({ s with nextPkt := s.nextPkt + 1 }.emit (.issue k)).modify r fun q =>
    q.sent k).sendPacket env p k) _
  exact ⟨b, hb.trans (by rw [hsend])⟩

/-- `processMemoryRequests` for the request `r` and the port `p` that was chosen for it. -/
theorem sent_of_carry (cfg : Config) (env : Env) {s : St} {d : Dir} {r p : Nat} (hn : (s.reqs r).needTo = true)
    (hl : 0 < (s.reqs r).left) (hp : s.outstandingPkts p = []) :
    s.Sent d p r (s.nextPacket cfg d r) (({ s.reqs r with port := some p } : MemoryRequest).sent (s.nextPacket cfg d r))
      (s.carry cfg env d r p) ∧
    (s.carry cfg env d r p).log = s.log ++ [.issue (s.nextPacket cfg d r)] := by
  let s₁ := (s.setPortReq d p (some r)).modify r fun q => { q with port := some p }
  have hreq : s₁.reqs r = { s.reqs r with port := some p } := by simp [s₁, modify, setPortReq]
  have hnext : s₁.nextPacket cfg d r = s.nextPacket cfg d r := by
    simp only [nextPacket, hreq]
    rfl
  have hcarry : s.carry cfg env d r p = (s₁.tryAccess cfg env d p r).setAcc d
    ((s₁.tryAccess cfg env d p r).acc d ++ [r]) := by
    have hneed : (s₁.reqs r).needTo = true := by rw [hreq]; exact hn
    cases d <;> simp [carry, s₁, hneed, tryRead, tryWrite]
  obtain ⟨b, htry⟩ := tryAccess_eq cfg env (s := s₁) (d := d) (r := r) (p := p) (by rw [hreq]; exact hl) hp
  rw [hnext, hreq] at htry
  rw [hcarry, htry]
  refine ⟨⟨rfl, rfl, rfl, rfl, rfl, rfl, ?_, ?_, rfl, rfl, ?_, rfl, rfl, rfl, rfl, rfl, fun d' r' => ?_, ?_⟩, rfl⟩
  · exact needTo_sent hn _
  · exact chunk_bounds (s.reqs r).current cfg.cacheLineSize_pos hl
  · simp [s₁, setAcc, modify, setPortReq]
  · simp [commits, setAcc, s₁, modify, setPortReq]
  · cases env.accept s₁.nextPkt
    · exact .inr ⟨rfl, rfl⟩
    · exact .inl ⟨rfl, rfl⟩

section Sent

variable {s s' : St} {d : Dir} {p r : Nat} {k : Packet} {q : MemoryRequest}

section

variable (h : s.Sent d p r k q s')
include h

theorem Sent.out_iff (hp : s.outstandingPkts p = []) (x : Packet) : s'.Out x ↔ s.Out x ∨ x = k := by
  unfold Out
  rcases h.out with ⟨h₁, h₂⟩ | ⟨h₁, h₂⟩
  · simp only [h₁, h₂, List.mem_append, List.mem_singleton]
    tauto
  · simp only [h₁, h₂]
    constructor
    · rintro (hx | ⟨p', hx⟩)
      · exact .inl (.inl hx)
      · by_cases hpp : p' = p
        · subst hpp
          exact .inr (by simpa using hx)
        · exact .inl (.inr ⟨p', by simpa [hpp] using hx⟩)
    · rintro ((hx | ⟨p', hx⟩) | rfl)
      · exact .inl hx
      · have hpp : p' ≠ p := by rintro rfl; simp [hp] at hx
        exact .inr ⟨p', by simpa [hpp] using hx⟩
      · exact .inr ⟨p, by simp⟩

theorem Sent.reqs_self : s'.reqs r = q := by rw [h.reqs, update_self]

theorem Sent.reqs_of_ne {x : Nat} (hx : x ≠ r) : s'.reqs x = s.reqs x := by
  rw [h.reqs, update_of_ne hx]

theorem Sent.dir_eq (x : Nat) : (s'.reqs x).dir = (s.reqs x).dir := by
  by_cases hx : x = r
  · rw [hx, h.reqs_self]
    exact h.same
  · rw [h.reqs_of_ne hx]

theorem Sent.mem_acc (d' : Dir) (x : Nat) : x ∈ s'.acc d' ↔ x ∈ s.acc d' ∨ x = r ∧ d' = d := by
  rw [h.acc]
  by_cases hd : d' = d
  · subst hd; simp
  · simp [hd]

theorem Sent.portReq_of_ne {d' : Dir} {p' : Nat} (hne : ¬(d' = d ∧ p' = p)) : s'.portReq d' p' = s.portReq d' p' := by
  rw [h.portReq]
  by_cases hd : d' = d
  · subst hd
    rw [update_self, update_of_ne fun he => hne ⟨rfl, he⟩]
  · rw [update_of_ne hd]

/-- A packet that waits in a port waited there before, or is the new one. -/
theorem Sent.mem_stalled {p' : Nat} {x : Packet} (hx : x ∈ s'.outstandingPkts p') :
    x ∈ s.outstandingPkts p' ∨ x = k ∧ p' = p := by
  rcases h.out with ⟨-, h₂⟩ | ⟨-, h₂⟩
  · rw [h₂] at hx
    exact .inl hx
  · rw [h₂] at hx
    by_cases hpp : p' = p
    · subst hpp
      rw [update_self] at hx
      exact .inr ⟨List.mem_singleton.mp hx, rfl⟩
    · rw [update_of_ne hpp] at hx
      exact .inl hx

end

theorem Owned.ne_of_mem_acc (h : s.Owned) (hr : r ∈ s.queue d) {d' : Dir} {x : Nat} (hx : x ∈ s.acc d') : x ≠ r := by
  rintro rfl
  obtain rfl : d = d' := (h.own d x (.inl hr)).2.symm.trans (h.own d' x (.inr (.inl hx))).2
  exact h.not_acc hr hx

theorem Owned.id_ne (h : s.Owned) {k' : Packet} (hk' : s.Out k') (hid : k.id = s.nextPkt) : k'.id ≠ k.id :=
    fun heq => by
  have := (h.owner _ hk').2.2
  rw [heq, hid] at this
  exact Nat.lt_irrefl _ this

section Taken

variable {kept rest : List Nat}

/-- The request moves from one list to the other. -/
theorem Sent.count_eq (hq : s.queue d = kept ++ r :: rest) (hs : (s.setQueue d (kept ++ rest)).Sent d p r k q s')
    (d' : Dir) (x : Nat) : (s'.queue d').count x + (s'.acc d').count x = (s.queue d').count x + (s.acc d').count x := by
  rw [hs.queue, hs.acc]
  by_cases hd : d' = d
  · subst hd
    simp only [setQueue, update_self, hq, List.count_append, List.count_cons, List.count_nil]
    omega
  · simp [setQueue, hd]

theorem Owned.mem_queue_of_sent (h : s.Owned) (hq : s.queue d = kept ++ r :: rest)
    (hs : (s.setQueue d (kept ++ rest)).Sent d p r k q s') {d' : Dir} {x : Nat} (hx : x ∈ s'.queue d') :
    x ∈ s.queue d' ∧ x ≠ r := by
  have hr : r ∈ s.queue d := by rw [hq]; simp
  obtain ⟨hlt, hdir⟩ := h.own d r (.inl hr)
  have hpos := List.count_pos_iff.mpr hx
  have hc := hs.count_eq hq d' x
  rw [hs.queue] at hx
  by_cases hd : d' = d
  · subst hd
    simp only [setQueue, update_self, List.mem_append] at hx
    refine ⟨by rw [hq, List.mem_append, List.mem_cons]; tauto, ?_⟩
    rintro rfl
    have hone := h.once x hlt
    have := List.count_pos_iff.mpr ((hs.mem_acc d' x).mpr (.inr ⟨rfl, rfl⟩))
    rw [hdir] at hone
    omega
  · have hx : x ∈ s.queue d' := by simpa [setQueue, hd] using hx
    refine ⟨hx, ?_⟩
    rintro rfl
    exact hd ((h.own d' x (.inl hx)).2.symm.trans hdir)

/-- The ports carry what they carried, and `p` the request. -/
theorem Owned.carrier_of_sent (h : s.Owned) (hr : r ∈ s.queue d) (hfree : s.portReq d p = none)
    (hs : (s.setQueue d (kept ++ rest)).Sent d p r k q s') (d' : Dir) (p' x : Nat) :
    s'.portReq d' p' = some x ↔ x ∈ s'.acc d' ∧ (s'.reqs x).port = some p' := by
  have hport : (s'.reqs r).port = some p := by rw [hs.reqs_self, hs.port]
  have hother : ∀ {x}, x ∈ s.acc d' → s'.reqs x = s.reqs x := fun hx => hs.reqs_of_ne (h.ne_of_mem_acc hr hx)
  have hmem : x ∈ s'.acc d' ↔ x ∈ s.acc d' ∨ x = r ∧ d' = d := hs.mem_acc d' x
  rw [hmem]
  by_cases hdp : d' = d ∧ p' = p
  · obtain ⟨rfl, rfl⟩ := hdp
    have hself : s'.portReq d' p' = some r := by rw [hs.portReq, update_self, update_self]
    rw [hself, Option.some.injEq]
    constructor
    · rintro rfl
      exact ⟨.inr ⟨rfl, rfl⟩, hport⟩
    · rintro ⟨hx | ⟨rfl, -⟩, hpx⟩
      · rw [hother hx] at hpx
        have := (h.carrier d' p' x).mpr ⟨hx, hpx⟩
        simp [hfree] at this
      · rfl
  · have hkept : s'.portReq d' p' = s.portReq d' p' := hs.portReq_of_ne hdp
    rw [hkept, h.carrier]
    constructor
    · rintro ⟨hx, hpx⟩
      exact ⟨.inl hx, by rw [hother hx]; exact hpx⟩
    · rintro ⟨hx | ⟨rfl, rfl⟩, hpx⟩
      · exact ⟨hx, by rwa [hother hx] at hpx⟩
      · exact absurd ⟨rfl, Option.some.inj (hpx.symm.trans hport)⟩ hdp

/-- **A port takes a request.** -/
theorem Owned.sent (h : s.Owned) (hq : s.queue d = kept ++ r :: rest) (hfree : s.portReq d p = none)
    (hp : s.outstandingPkts p = []) (hs : (s.setQueue d (kept ++ rest)).Sent d p r k q s') : s'.Owned := by
  have hr : r ∈ s.queue d := by rw [hq]; simp
  have hout : ∀ x, s'.Out x ↔ s.Out x ∨ x = k := hs.out_iff hp
  have hother : ∀ {x}, x ≠ r → s'.reqs x = s.reqs x := hs.reqs_of_ne
  have hkept : ∀ {d' x}, x ∈ s.acc d' → s'.reqs x = s.reqs x := fun hx => hother (h.ne_of_mem_acc hr hx)
  have hsame : ∀ x, (s'.reqs x).dir = (s.reqs x).dir := hs.dir_eq
  have hcommits : ∀ d' x, s'.commits d' x = s.commits d' x := hs.commits
  have hacc : ∀ d' x, x ∈ s'.acc d' ↔ x ∈ s.acc d' ∨ x = r ∧ d' = d := hs.mem_acc
  have hid : ∀ {k'}, s.Out k' → k'.id ≠ k.id := fun hk' => h.id_ne hk' hs.id
  have hnew : ∀ {k'}, s.Out k' → k' ≠ k := fun hk' heq => hid hk' (heq ▸ rfl)
  refine ⟨?_, ?_, ?_, ?_, h.carrier_of_sent hr hfree hs, ?_, ?_, ?_, ?_, ?_, ?_, ?_, ?_⟩
  · intro x hx
    rw [hsame, hs.count_eq hq, hcommits]
    exact h.once x (hs.nextReq ▸ hx)
  · intro d' x hx
    rw [hs.nextReq, hsame]
    refine h.own d' x ?_
    rcases hx with hx | hx | hx
    · exact .inl (h.mem_queue_of_sent hq hs hx).1
    · rcases (hacc d' x).mp hx with hx | ⟨rfl, rfl⟩
      · exact .inr (.inl hx)
      · exact .inl hr
    · exact .inr (.inr (hcommits d' x ▸ hx))
  · intro x hx
    by_cases hxr : x = r
    · rw [hxr, hs.reqs_self]
      exact hs.left
    · rw [hother hxr]
      exact h.left x (hs.nextReq ▸ hx)
  · intro d' x hx
    obtain ⟨hx, hxr⟩ := h.mem_queue_of_sent hq hs hx
    rw [hother hxr]
    exact h.waiting d' x hx
  · intro d' x hx
    rcases (hacc d' x).mp hx with hx | ⟨rfl, -⟩
    · rw [hkept hx]
      exact h.carried d' x hx
    · rw [hs.reqs_self, hs.port]
      rfl
  · intro d' x hx
    rcases (hacc d' x).mp hx with hx | ⟨rfl, rfl⟩
    · obtain ⟨k', hk', hreq, hdir'⟩ := h.packet d' x hx
      exact ⟨k', (hout k').mpr (.inl hk'), hreq, hdir'⟩
    · exact ⟨k, (hout k).mpr (.inr rfl), hs.req, hs.dir⟩
  · intro k' hk'
    rw [hs.nextPkt]
    rcases (hout k').mp hk' with hk' | rfl
    · obtain ⟨h₁, h₂, h₃⟩ := h.owner k' hk'
      exact ⟨(hacc _ _).mpr (.inl h₁), by rw [hkept h₁]; exact h₂, Nat.lt_succ_of_lt h₃⟩
    · refine ⟨(hacc _ _).mpr (.inr ⟨hs.req, hs.dir⟩), ?_, hs.id ▸ Nat.lt_succ_self _⟩
      rw [hs.req, hs.reqs_self]
      exact hs.pkt
  · intro p' k' hk'
    rcases hs.mem_stalled hk' with hk' | ⟨rfl, rfl⟩
    · rw [hkept (h.owner k' (.inr ⟨p', hk'⟩)).1]
      exact h.stalledAt p' k' hk'
    · rw [hs.req, hs.reqs_self]
      exact hs.port
  · intro k₁ k₂ h₁ h₂ he
    rcases (hout k₁).mp h₁ with h₁ | rfl
    · rcases (hout k₂).mp h₂ with h₂ | rfl
      · exact h.unique k₁ k₂ h₁ h₂ he
      · exact absurd he (hid h₁)
    · rcases (hout k₂).mp h₂ with h₂ | rfl
      · exact absurd he.symm (hid h₂)
      · rfl
  · rcases hs.out with ⟨h₁, -⟩ | ⟨h₁, -⟩
    · rw [h₁]
      exact List.nodup_append.mpr ⟨h.inFlight_nodup, List.nodup_singleton k, fun x hx y hy =>
        List.mem_singleton.mp hy ▸ hnew (.inl hx)⟩
    · rw [h₁]
      exact h.inFlight_nodup
  · intro p'
    rcases hs.out with ⟨-, h₂⟩ | ⟨-, h₂⟩
    · rw [h₂]
      exact h.stalled_nodup p'
    · rw [h₂, update_apply]
      split
      · exact List.nodup_singleton k
      · exact h.stalled_nodup p'
  · intro p' k' hk' hst
    rcases hs.out with ⟨h₁, h₂⟩ | ⟨h₁, -⟩
    · rw [h₁, List.mem_append, List.mem_singleton] at hk'
      rw [h₂] at hst
      rcases hk' with hk' | hk'
      · exact h.apart p' k' hk' hst
      · exact hnew (.inr ⟨p', hst⟩) hk'
    · rw [h₁] at hk'
      rcases hs.mem_stalled hst with hst | ⟨he, -⟩
      · exact h.apart p' k' hk' hst
      · exact hnew (.inl hk') he

end Taken

end Sent

/-! ## The tick -/

section Tick

variable {s s' : St} {cfg : Config} {env : Env} {d : Dir} {r p : Nat}

/-- A port that is chosen is not stalled and carries nothing in this direction. -/
theorem getValidPort_some {kind : PortKind} {add : Word} {ok : Nat → Bool}
    (h : getValidPort cfg s d kind add ok = some p) : s.portReq d p = none ∧ s.outstandingPkts p = [] := by
  have hp := List.find?_some h
  simp only [Bool.and_eq_true, isStalled, Bool.not_not, List.isEmpty_iff, Option.isNone_iff_eq_none] at hp
  exact ⟨hp.1.2, hp.1.1.2⟩

theorem choosePort_some (h : choosePort cfg env s d r = .ok (some p)) :
    s.portReq d p = none ∧ s.outstandingPkts p = [] := by
  simp only [choosePort] at h
  split_ifs at h with h₁ h₂ h₃ h₄
  · exact getValidPort_some (Except.ok.inj h)
  · exact getValidPort_some (Except.ok.inj h)
  · exact getValidPort_some (Except.ok.inj h)
  · exact getValidPort_some (Except.ok.inj h)

/-- The port that was chosen takes the request. -/
theorem Owned.sent_of_choosePort (h : s.Owned) {kept rest : List Nat} (hq : s.queue d = kept ++ r :: rest)
    (hp : choosePort cfg env s d r = .ok (some p)) :
    ∃ k q, (s.setQueue d (kept ++ rest)).Sent d p r k q ((s.setQueue d (kept ++ rest)).carry cfg env d r p) := by
  have hr : r ∈ s.queue d := by rw [hq]; simp
  have hneed := h.waiting d r hr
  have hleft := (h.left r (h.own d r (.inl hr)).1).mp hneed
  exact ⟨_, _, (sent_of_carry cfg env (s := s.setQueue d (kept ++ rest)) hneed hleft (choosePort_some hp).2).1⟩

theorem Owned.carry (h : s.Owned) {kept rest : List Nat} (hq : s.queue d = kept ++ r :: rest)
    (hp : choosePort cfg env s d r = .ok (some p)) :
    ((s.setQueue d (kept ++ rest)).carry cfg env d r p).Owned ∧
      ((s.setQueue d (kept ++ rest)).carry cfg env d r p).queue d = kept ++ rest := by
  obtain ⟨hfree, hst⟩ := choosePort_some hp
  obtain ⟨k, q, hs⟩ := h.sent_of_choosePort hq hp
  refine ⟨h.sent hq hfree hst hs, ?_⟩
  rw [hs.queue]
  exact update_self ..

/-- The loop over a queue, by induction over what is still to be looked at: it keeps what is kept when a request gets
its port. -/
theorem process_invariant {I : St → Prop} (hcarry : ∀ {kept rest : List Nat} {r p : Nat} {s : St}, I s → s.Owned →
      s.queue d = kept ++ r :: rest → choosePort cfg env s d r = .ok (some p) →
      I ((s.setQueue d (kept ++ rest)).carry cfg env d r p)) {todo : List Nat} : ∀ {kept : List Nat} {s : St}, I s →
    s.Owned → s.queue d = kept ++ todo → process cfg env d kept todo s = .ok s' → I s' := by
  induction todo with
  | nil =>
    intro kept s h _ _ hp
    exact Except.ok.inj hp ▸ h
  | cons r rest ih =>
    intro kept s h ho hq hp
    unfold St.process at hp
    split at hp
    · cases hp
    · exact ih h ho (by rw [hq]; simp) hp
    · rename_i p hport
      obtain ⟨ho', hq'⟩ := ho.carry hq hport
      exact ih (hcarry h ho hq hport) ho' hq' hp

theorem Owned.process {kept todo : List Nat} (h : s.Owned) (hq : s.queue d = kept ++ todo)
    (hp : process cfg env d kept todo s = .ok s') : s'.Owned :=
  process_invariant (fun h _ hq hport => (h.carry hq hport).1) h h hq hp

theorem Owned.schedule (h : s.Owned) : s.schedule.Owned :=
  h.congr rfl rfl (Nat.le_refl _) rfl rfl rfl rfl rfl fun _ _ => rfl

theorem Owned.rescheduleIfWaiting (h : s.Owned) : s.rescheduleIfWaiting.Owned := by
  unfold St.rescheduleIfWaiting
  split
  · exact h
  · exact h.schedule

theorem Owned.processMemoryRequests (h : s.Owned) (hp : s.processMemoryRequests cfg env = .ok s') : s'.Owned := by
  unfold St.processMemoryRequests at hp
  split at hp
  · exact Except.ok.inj hp ▸ h.rescheduleIfWaiting
  · split at hp
    · cases hp
    · rename_i s₁ h₁
      split at hp
      · cases hp
      · rename_i s₂ h₂
        have ho₁ : s₁.Owned := h.process rfl h₁
        have ho₂ : s₂.Owned := ho₁.process rfl h₂
        exact Except.ok.inj hp ▸ ho₂.rescheduleIfWaiting

theorem Owned.tick (h : s.Owned) {calls : List Call} (hc : ∀ c ∈ calls, c.ok = true)
    (ht : s.tick cfg env calls = .ok s') : s'.Owned := by
  have hstart : ({ s with tickScheduled := false } : St).Owned :=
    h.congr rfl rfl (Nat.le_refl _) rfl rfl rfl rfl rfl fun _ _ => rfl
  have hcheck := hstart.checkMMR hc
  simp only [St.tick] at ht
  split at ht
  · exact Except.ok.inj ht ▸ hcheck
  · exact hcheck.processMemoryRequests ht

end Tick

/-! ## A packet that was refused -/

/-- A packet that is accepted is still out. -/
theorem out_accepted {s : St} {rest : List Packet} (hp : s.outstandingPkts p = k :: rest) (x : Packet) :
    ({ s.setOutstanding p rest with inFlight := s.inFlight ++ [k] } : St).schedule.Out x ↔ s.Out x := by
  have hst : ∀ p', ({ s.setOutstanding p rest with inFlight := s.inFlight ++ [k] } : St).schedule.outstandingPkts p' =
      if p' = p then rest else s.outstandingPkts p' := fun p' => update_apply ..
  have hin : ({ s.setOutstanding p rest with inFlight := s.inFlight ++ [k] } : St).schedule.inFlight =
    s.inFlight ++ [k] :=
    rfl
  unfold Out
  rw [hin, List.mem_append, List.mem_singleton]
  constructor
  · rintro ((hx | rfl) | ⟨p', hx⟩)
    · exact .inl hx
    · exact .inr ⟨p, by rw [hp]; exact List.mem_cons_self⟩
    · rw [hst] at hx
      split at hx
      · exact .inr ⟨p, by rw [hp]; exact List.mem_cons_of_mem _ hx⟩
      · exact .inr ⟨p', hx⟩
  · rintro (hx | ⟨p', hx⟩)
    · exact .inl (.inl hx)
    · by_cases hpp : p' = p
      · rw [hpp, hp, List.mem_cons] at hx
        rcases hx with rfl | hx
        · exact .inl (.inr rfl)
        · exact .inr ⟨p, by rw [hst, if_pos rfl]; exact hx⟩
      · exact .inr ⟨p', by rw [hst, if_neg hpp]; exact hx⟩

/-- The first packet that waits in the port is accepted. -/
theorem Owned.accepted {s : St} (h : s.Owned) {rest : List Packet} (hp : s.outstandingPkts p = k :: rest) :
    ({ s.setOutstanding p rest with inFlight := s.inFlight ++ [k] } : St).schedule.Owned := by
  generalize hs : ({ s.setOutstanding p rest with inFlight := s.inFlight ++ [k] } : St).schedule = s'
  have hin : s'.inFlight = s.inFlight ++ [k] := by rw [← hs]; rfl
  have hst : ∀ p', s'.outstandingPkts p' = if p' = p then rest else s.outstandingPkts p' := fun p' => by
    rw [← hs]
    exact update_apply ..
  have hk : k ∈ s.outstandingPkts p := by rw [hp]; exact List.mem_cons_self
  have hsub : ∀ {p' x}, x ∈ s'.outstandingPkts p' → x ∈ s.outstandingPkts p' := fun {p' x} hx => by
    rw [hst] at hx
    split at hx
    · rename_i hpp
      rw [hpp, hp]
      exact List.mem_cons_of_mem _ hx
    · exact hx
  have hnodup := h.stalled_nodup p
  rw [hp, List.nodup_cons] at hnodup
  have hout : ∀ x, s'.Out x ↔ s.Out x := fun x => hs ▸ out_accepted hp x
  -- a packet waits in the carrier port of its request only
  have hat : ∀ {p'}, k ∈ s.outstandingPkts p' → p' = p := fun {p'} hx =>
    Option.some.inj ((h.stalledAt p' k hx).symm.trans (h.stalledAt p k hk))
  obtain rfl := hs
  refine ⟨h.once, h.own, h.left, h.waiting, h.carrier, h.carried, ?_, ?_, ?_, ?_, ?_, ?_, ?_⟩
  · intro d r hr
    obtain ⟨k', hk', hk''⟩ := h.packet d r hr
    exact ⟨k', (hout k').mpr hk', hk''⟩
  · exact fun x hx => h.owner x ((hout x).mp hx)
  · exact fun p' x hx => h.stalledAt p' x (hsub hx)
  · exact fun x y hx hy => h.unique x y ((hout x).mp hx) ((hout y).mp hy)
  · rw [hin]
    refine List.nodup_append.mpr ⟨h.inFlight_nodup, List.nodup_singleton k, fun x hx y hy => ?_⟩
    rintro rfl
    rw [List.mem_singleton.mp hy] at hx
    exact h.apart p k hx hk
  · intro p'
    rw [hst]
    split
    · exact hnodup.2
    · exact h.stalled_nodup p'
  · intro p' x hx hx'
    rw [hin, List.mem_append, List.mem_singleton] at hx
    rcases hx with hx | rfl
    · exact h.apart p' x hx (hsub hx')
    · have hpp := hat (hsub hx')
      rw [hst, if_pos hpp] at hx'
      exact hnodup.1 hx'

theorem Owned.resend {env : Env} {ks : List Packet} : ∀ {s : St}, s.Owned → s.outstandingPkts p = ks →
    (resend env p ks s).Owned := by
  induction ks with
  | nil => exact fun h _ => h
  | cons k rest ih =>
    intro s h hp
    unfold St.resend
    split
    · exact ih (h.accepted hp) (update_self ..)
    · exact h

theorem Owned.recvReqRetry {s : St} (h : s.Owned) (env : Env) (p : Nat) : (s.recvReqRetry env p).Owned := h.resend rfl

/-! ## A response -/

/-- The packet `k` has been answered: its request is committed, or waits at the head of its queue. -/
structure Answered (s : St) (k : Packet) (s' : St) : Prop where
  dir : ∀ x, (s'.reqs x).dir = (s.reqs x).dir
  needTo : ∀ x, (s'.reqs x).needTo = (s.reqs x).needTo
  left : ∀ x, (s'.reqs x).left = (s.reqs x).left
  current : ∀ x, (s'.reqs x).current = (s.reqs x).current
  pkt : ∀ x, (s'.reqs x).pkt = (s.reqs x).pkt
  port : ∀ x, (s'.reqs x).port = (s.reqs x).port
  nextReq : s'.nextReq = s.nextReq
  nextPkt : s'.nextPkt = s.nextPkt
  portReq : ∀ d p, s'.portReq d p = if d = k.dir ∧ (s.reqs k.req).port = some p then none else s.portReq d p
  acc : ∀ d, s'.acc d = if d = k.dir then (s.acc d).erase k.req else s.acc d
  inFlight : s'.inFlight = s.inFlight.erase k
  outstandingPkts : s'.outstandingPkts = s.outstandingPkts
  queue : ∀ d, s'.queue d =
    if d = k.dir ∧ (s.reqs k.req).needTo = true then k.req :: s.queue d else s.queue d
  commits : ∀ d x, s'.commits d x =
    s.commits d x + if d = k.dir ∧ x = k.req ∧ (s.reqs k.req).needTo = false then 1 else 0

theorem receive_frame (q : MemoryRequest) (k : Packet) (data : List Byte) :
    (q.receive k data).dir = q.dir ∧ (q.receive k data).needTo = q.needTo ∧ (q.receive k data).left = q.left ∧
      (q.receive k data).current = q.current ∧ (q.receive k data).pkt = q.pkt ∧ (q.receive k data).port = q.port := by
  unfold MemoryRequest.receive
  split <;> exact ⟨rfl, rfl, rfl, rfl, rfl, rfl⟩

theorem recvPacket_eq {s : St} {r p : Nat} (data : List Byte) (hfind : s.findMemRequest k = some r)
    (hp : (s.reqs r).port = some p) : s.recvPacket k data = .ok { s with
      reqs := update s.reqs r ((s.reqs r).receive k data)
      portReq := update s.portReq k.dir (update (s.portReq k.dir) p none)
      queue := if (s.reqs r).needTo then update s.queue k.dir (r :: s.queue k.dir) else s.queue
      acc := update s.acc k.dir ((s.acc k.dir).erase r)
      tickScheduled := true
      log := if (s.reqs r).needTo then s.log else s.log ++ [.commit k.dir r] } := by
  have hneed := (receive_frame (s.reqs r) k data).2.1
  unfold recvPacket
  rw [hfind]
  cases hn : (s.reqs r).needTo <;> rw [hn] at hneed <;>
    simp [release, hp, modify, setPortReq, setQueue, setAcc, emit, schedule, hneed]

theorem answered_of_recvPacket {data : List Byte} (hfind : s.findMemRequest k = some k.req)
    (hport : (s.reqs k.req).port.isSome = true)
    (h : ({ s with inFlight := s.inFlight.erase k } : St).recvPacket k data = .ok s') : s.Answered k s' := by
  obtain ⟨p, hp⟩ := Option.isSome_iff_exists.mp hport
  obtain ⟨hdir, hneed, hleft, hcur, hpkt, hcar⟩ := receive_frame (s.reqs k.req) k data
  have hreqs : ∀ {α : Type} (f : MemoryRequest → α), f ((s.reqs k.req).receive k data) = f (s.reqs k.req) → ∀ x,
      f (update s.reqs k.req ((s.reqs k.req).receive k data) x) = f (s.reqs x) := fun f hf x => by
    by_cases hx : x = k.req
    · rw [hx, update_self, hf]
    · rw [update_of_ne hx]
  rw [recvPacket_eq (s := { s with inFlight := s.inFlight.erase k }) data hfind hp] at h
  injection h with h
  subst h
  refine ⟨hreqs _ hdir, hreqs _ hneed, hreqs _ hleft, hreqs _ hcur, hreqs _ hpkt, hreqs _ hcar, rfl, rfl, ?_,
    ?_, rfl, rfl, ?_, ?_⟩
  · intro d p'
    by_cases hd : d = k.dir
    · subst hd
      simp [hp, update_apply, eq_comm]
    · simp [hd]
  · intro d
    by_cases hd : d = k.dir
    · subst hd
      simp
    · simp [hd]
  · intro d
    cases (s.reqs k.req).needTo
    · simp
    · by_cases hd : d = k.dir
      · subst hd
        simp
      · simp [hd]
  · intro d x
    cases (s.reqs k.req).needTo
    · by_cases hx : d = k.dir ∧ x = k.req
      · obtain ⟨rfl, rfl⟩ := hx
        simp [commits]
      · have hne : Event.commit k.dir k.req ≠ .commit d x := fun he => by
          cases he
          exact hx ⟨rfl, rfl⟩
        simp only [commits, Bool.false_eq_true, if_false, List.count_append, List.count_singleton, beq_iff_eq, hne,
          and_true, hx]
    · simp [commits]

section Answered

variable {s s' : St} {k : Packet}

section

variable (ha : s.Answered k s')
include ha

theorem Answered.mem_acc (h : s.Owned) (d : Dir) (x : Nat) : x ∈ s'.acc d ↔ x ∈ s.acc d ∧ ¬(d = k.dir ∧ x = k.req) := by
  rw [ha.acc]
  split
  · rename_i hd
    rw [(h.acc_nodup d).mem_erase_iff]
    tauto
  · tauto

theorem Answered.out_iff (h : s.Owned) (hk : k ∈ s.inFlight) (x : Packet) : s'.Out x ↔ s.Out x ∧ x ≠ k := by
  unfold Out
  rw [ha.inFlight, ha.outstandingPkts, h.inFlight_nodup.mem_erase_iff]
  constructor
  · rintro (⟨hne, hx⟩ | ⟨p, hx⟩)
    · exact ⟨.inl hx, hne⟩
    · exact ⟨.inr ⟨p, hx⟩, fun he => h.apart p k hk (he ▸ hx)⟩
  · rintro ⟨hx | hx, hne⟩
    · exact .inl ⟨hne, hx⟩
    · exact .inr hx

theorem Answered.mem_queue {d : Dir} {x : Nat} (hx : x ∈ s'.queue d) :
    x ∈ s.queue d ∨ d = k.dir ∧ x = k.req ∧ (s.reqs x).needTo = true := by
  rw [ha.queue] at hx
  split at hx
  · rename_i hd
    rcases List.mem_cons.mp hx with rfl | hx
    · exact .inr ⟨hd.1, rfl, hd.2⟩
    · exact .inl hx
  · exact .inl hx

/-- The request moves from the one list to the queue or to the commits. -/
theorem Answered.count_eq (hacc : k.req ∈ s.acc k.dir) (d : Dir) (x : Nat) :
    (s'.queue d).count x + (s'.acc d).count x + s'.commits d x = (s.queue d).count x + (s.acc d).count x +
      s.commits d x := by
  rw [ha.queue, ha.acc, ha.commits]
  by_cases hd : d = k.dir
  · subst hd
    by_cases hx : x = k.req
    · subst hx
      have hpos := List.count_pos_iff.mpr hacc
      cases (s.reqs k.req).needTo <;> simp <;> omega
    · cases (s.reqs k.req).needTo <;> simp [hx, Ne.symm hx, List.count_erase_of_ne hx]
  · simp [hd]

end

theorem Owned.carrier_of_answered (h : s.Owned) (ha : s.Answered k s') (hacc : k.req ∈ s.acc k.dir)
    (d : Dir) (p x : Nat) :
    s'.portReq d p = some x ↔ x ∈ s'.acc d ∧ (s'.reqs x).port = some p := by
  rw [ha.portReq, ha.port, ha.mem_acc h]
  split
  · rename_i hd
    obtain ⟨rfl, hp⟩ := hd
    have hself := (h.carrier k.dir p k.req).mpr ⟨hacc, hp⟩
    refine ⟨fun he => (nomatch he), fun ⟨⟨hx, hne⟩, hpx⟩ => absurd ⟨rfl, ?_⟩ hne⟩
    exact Option.some.inj (((h.carrier k.dir p x).mpr ⟨hx, hpx⟩).symm.trans hself)
  · rename_i hd
    rw [h.carrier]
    refine ⟨fun ⟨hx, hpx⟩ => ⟨⟨hx, ?_⟩, hpx⟩, fun ⟨⟨hx, _⟩, hpx⟩ => ⟨hx, hpx⟩⟩
    rintro ⟨rfl, rfl⟩
    exact hd ⟨rfl, hpx⟩

/-- **A response takes the packet away and gives the request back or commits it.** -/
theorem Owned.answered (h : s.Owned) (hk : k ∈ s.inFlight) (ha : s.Answered k s') : s'.Owned := by
  obtain ⟨hacc, -, -⟩ := h.owner k (.inl hk)
  obtain ⟨hlt, hdir⟩ := h.own k.dir k.req (.inr (.inl hacc))
  have hmem : ∀ d x, x ∈ s'.acc d ↔ x ∈ s.acc d ∧ ¬(d = k.dir ∧ x = k.req) := ha.mem_acc h
  have hout : ∀ x, s'.Out x ↔ s.Out x ∧ x ≠ k := ha.out_iff h hk
  refine ⟨?_, ?_, ?_, ?_, h.carrier_of_answered ha hacc, ?_, ?_, ?_, ?_, ?_, ?_, ?_, ?_⟩
  · intro x hx
    rw [ha.dir, ha.count_eq hacc]
    exact h.once x (ha.nextReq ▸ hx)
  · intro d x hx
    rw [ha.nextReq, ha.dir]
    rcases hx with hx | hx | hx
    · rcases ha.mem_queue hx with hx | ⟨rfl, rfl, -⟩
      · exact h.own d x (.inl hx)
      · exact ⟨hlt, hdir⟩
    · exact h.own d x (.inr (.inl ((hmem d x).mp hx).1))
    · by_cases hxk : d = k.dir ∧ x = k.req
      · obtain ⟨rfl, rfl⟩ := hxk
        exact ⟨hlt, hdir⟩
      · rw [ha.commits, if_neg fun he => hxk ⟨he.1, he.2.1⟩] at hx
        exact h.own d x (.inr (.inr hx))
  · intro x hx
    rw [ha.needTo, ha.left]
    exact h.left x (ha.nextReq ▸ hx)
  · intro d x hx
    rw [ha.needTo]
    rcases ha.mem_queue hx with hx | ⟨-, -, hx⟩
    · exact h.waiting d x hx
    · exact hx
  · intro d x hx
    rw [ha.port]
    exact h.carried d x ((hmem d x).mp hx).1
  · intro d x hx
    obtain ⟨hx, hne⟩ := (hmem d x).mp hx
    obtain ⟨k', hk', hreq, hd⟩ := h.packet d x hx
    refine ⟨k', (hout k').mpr ⟨hk', ?_⟩, hreq, hd⟩
    rintro rfl
    exact hne ⟨hd.symm, hreq.symm⟩
  · intro k' hk'
    obtain ⟨hk', hne⟩ := (hout k').mp hk'
    obtain ⟨h₁, h₂, h₃⟩ := h.owner k' hk'
    rw [ha.pkt, ha.nextPkt]
    exact ⟨(hmem _ _).mpr ⟨h₁, fun he => hne (h.eq_of_req hk' (.inl hk) he.2)⟩, h₂, h₃⟩
  · intro p k' hk'
    rw [ha.port]
    rw [ha.outstandingPkts] at hk'
    exact h.stalledAt p k' hk'
  · exact fun x y hx hy => h.unique x y ((hout x).mp hx).1 ((hout y).mp hy).1
  · rw [ha.inFlight]
    exact h.inFlight_nodup.erase k
  · rw [ha.outstandingPkts]
    exact h.stalled_nodup
  · intro p k' hk'
    rw [ha.inFlight] at hk'
    rw [ha.outstandingPkts]
    exact h.apart p k' (List.mem_of_mem_erase hk')

end Answered

theorem Owned.recvPacket (h : s.Owned) (hk : k ∈ s.inFlight) {data : List Byte}
    (hr : ({ s with inFlight := s.inFlight.erase k } : St).recvPacket k data = .ok s') : s'.Owned :=
  h.answered hk (answered_of_recvPacket (h.findMemRequest (.inl hk)) (h.carried _ _ (h.owner k (.inl hk)).1) hr)

/-! ## Runs -/

theorem Owned.step {cfg : Config} {e : Ev} (h : s.Owned) (hs : s.step cfg e = some s') : s'.Owned := by
  cases e with
  | call c =>
    simp only [St.step] at hs
    split at hs
    · rename_i hc
      exact Option.some.inj hs ▸ h.call hc
    · cases hs
  | tick calls env =>
    simp only [St.step] at hs
    split at hs
    · rename_i hc
      rw [Bool.and_eq_true, List.all_eq_true] at hc
      exact h.tick hc.2 (ok_of_toOption hs)
    · cases hs
  | retry p env =>
    simp only [St.step] at hs
    split at hs
    · exact Option.some.inj hs ▸ h.recvReqRetry env p
    · cases hs
  | response id data =>
    simp only [St.step] at hs
    split at hs
    · rename_i k hk
      split at hs
      · exact h.recvPacket (List.mem_of_find?_eq_some hk) (ok_of_toOption hs)
      · cases hs
    · cases hs
  | write flags =>
    obtain rfl := Option.some.inj hs
    exact h.congr rfl rfl (Nat.le_refl _) rfl rfl rfl rfl rfl fun _ _ => rfl

end St

open St

theorem owned_of_reachable {cfg : Config} {s : St} (h : (comm cfg).Reachable s) : s.Owned := by
  refine System.invariantWhen (I := St.Owned) ?_ ?_ h
  · rintro s rfl
    exact owned_start
  · exact fun s e s' _ hs _ hstep => hs.step hstep

namespace St

/-- The request `r` is carried by the port `p` alone, and of its packets `k` alone is out: in flight, or waiting in the
port `p`. -/
structure CarriedBy (s : St) (d : Dir) (r p : Nat) (k : Packet) : Prop where
  port : ∀ p', s.portReq d p' = some r ↔ p' = p
  packet : k.req = r ∧ k.dir = d ∧ (s.reqs r).pkt = some k.id
  out : s.inFlight.filter (fun x => x.req = r) = [k] ∧ (∀ p', (s.outstandingPkts p').filter (fun x => x.req = r) = []) ∨
    s.inFlight.filter (fun x => x.req = r) = [] ∧
      ∀ p', (s.outstandingPkts p').filter (fun x => x.req = r) = if p' = p then [k] else []

variable {s : St} {d : Dir} {r : Nat}

/-- A request is in the lists of its own direction only. -/
theorem Owned.count_eq (h : s.Owned) (hr : r < s.nextReq) :
    (s.queue .read).count r + (s.queue .write).count r + (s.acc .read).count r + (s.acc .write).count r +
      s.commits .read r + s.commits .write r = 1 := by
  have hother : ∀ d, d ≠ (s.reqs r).dir → (s.queue d).count r = 0 ∧ (s.acc d).count r = 0 ∧ s.commits d r = 0 := by
    intro d hd
    refine ⟨List.count_eq_zero.mpr fun hm => ?_, List.count_eq_zero.mpr fun hm => ?_, ?_⟩
    · exact hd (h.own d r (.inl hm)).2.symm
    · exact hd (h.own d r (.inr (.inl hm))).2.symm
    · by_contra hm
      exact hd (h.own d r (.inr (.inr hm))).2.symm
  have hone := h.once r hr
  cases hdir : (s.reqs r).dir with
  | read =>
    obtain ⟨h₁, h₂, h₃⟩ := hother .write (by simp [hdir])
    rw [hdir] at hone
    omega
  | write =>
    obtain ⟨h₁, h₂, h₃⟩ := hother .read (by simp [hdir])
    rw [hdir] at hone
    omega

/-- In a list without repetitions the only packet of a request is what its filter leaves. -/
theorem filter_req_eq {l : List Packet} {k : Packet} (hn : l.Nodup) (hk : k ∈ l)
    (hu : ∀ x ∈ l, x.req = r ↔ x = k) : l.filter (fun x => x.req = r) = [k] := by
  have hperm : l.filter (fun x => x.req = r) = l.filter (fun x => x = k) :=
    List.filter_congr fun x hx => by simp only [hu x hx]
  rw [hperm, List.filter_eq, List.count_eq_one_of_mem hn hk]
  rfl

theorem filter_req_eq_nil {l : List Packet} {k : Packet} (hk : k ∉ l) (hu : ∀ x ∈ l, x.req = r ↔ x = k) :
    l.filter (fun x => x.req = r) = [] := by
  refine List.filter_eq_nil_iff.mpr fun x hx he => hk ?_
  exact (hu x hx).mp (of_decide_eq_true he) ▸ hx

theorem Owned.carriedBy (h : s.Owned) (hr : r ∈ s.acc d) : ∃ p k, s.CarriedBy d r p k := by
  obtain ⟨p, hp⟩ := Option.isSome_iff_exists.mp (h.carried d r hr)
  obtain ⟨k, hk, rfl, rfl⟩ := h.packet d r hr
  have hu : ∀ x, s.Out x → (x.req = k.req ↔ x = k) := fun x hx =>
    ⟨fun he => h.eq_of_req hx hk he, fun he => he ▸ rfl⟩
  refine ⟨p, k, fun p' => ?_, ⟨rfl, rfl, (h.owner k hk).2.1⟩, ?_⟩
  · rw [h.carrier, hp]
    exact ⟨fun he => (Option.some.inj he.2).symm, fun he => ⟨hr, he ▸ rfl⟩⟩
  · rcases hk with hin | ⟨q, hst⟩
    · refine .inl ⟨filter_req_eq h.inFlight_nodup hin fun x hx => hu x (.inl hx), fun p' => ?_⟩
      exact filter_req_eq_nil (h.apart p' k hin) fun x hx => hu x (.inr ⟨p', hx⟩)
    · refine .inr ⟨filter_req_eq_nil (fun hin => h.apart q k hin hst) fun x hx => hu x (.inl hx), fun p' => ?_⟩
      split
      · have hqp : p' = q := by
          have := h.stalledAt q k hst
          rw [hp] at this
          rename_i he
          exact he.trans (Option.some.inj this)
        subst hqp
        exact filter_req_eq (h.stalled_nodup p') hst fun x hx => hu x (.inr ⟨p', hx⟩)
      · rename_i hne
        refine filter_req_eq_nil (fun hx => hne ?_) fun x hx => hu x (.inr ⟨p', hx⟩)
        exact Option.some.inj ((h.stalledAt p' k hx).symm.trans hp)

end St

end Salam.Comm
