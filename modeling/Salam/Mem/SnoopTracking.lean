import Salam.Lib.System
import Salam.Mem.SnoopFilter

/-!
# What the snoop filter tracks

The calls of the filter in any order; `lookupRequest` and the `finishRequest` that it must be followed by are one call.
The requests that the filter has let pass and that have not been answered are kept beside the filter: a response answers
what its port has asked for in its line.

* `retry_restores`: a request that will be retried leaves no trace.
* `entries_tracked`: what the entries say in every run.
-/

namespace Salam.Mem

open Base

/-- A port has asked for a line. -/
structure Asked where
  line : Addr
  port : Nat
  uncacheable : Bool
  deriving DecidableEq

/-- The filter, with the requests that have not been answered, which are not in the source. -/
structure Snooping where
  filter : SnoopFilter
  outstanding : List Asked

inductive SnoopEv
  | request (cpkt : SnoopPacket) (slave_port : Nat) (will_retry : Bool)
  | lookupSnoop (cpkt : SnoopPacket)
  | updateSnoopResponse (cpkt : SnoopPacket) (rsp_port req_port : Nat)
  | updateSnoopForward (cpkt : SnoopPacket)
  | updateResponse (cpkt : SnoopPacket) (slave_port : Nat)
  deriving DecidableEq

/-- `lookupRequest`, and `finishRequest` when it is known whether the request will be retried. -/
def SnoopFilter.request (cfg : SnoopParams) (s : SnoopFilter) (cpkt : SnoopPacket) (slave_port : Nat)
    (will_retry : Bool) : Except SnoopErr SnoopFilter :=
  match s.lookupRequest cfg cpkt slave_port with
  | .error e => .error e
  | .ok (s, _) => s.finishRequest cfg will_retry cpkt.addr cpkt.isSecure

namespace Snooping

def start : Snooping := ⟨.start, []⟩

/-- What a packet of a port asks for or answers. -/
def asked (cfg : SnoopParams) (cpkt : SnoopPacket) (port : Nat) : Asked :=
  ⟨cfg.lineAddr cpkt.addr cpkt.isSecure, port, cpkt.isUncacheable⟩

/-- A request that passes and needs a response that the filter will see is outstanding from then on. -/
def sent (cfg : SnoopParams) (s : Snooping) (cpkt : SnoopPacket) (port : Nat) (will_retry : Bool) : List Asked :=
  if !will_retry && cpkt.cmd.needsResponse && !cpkt.cacheResponding then asked cfg cpkt port :: s.outstanding
  else s.outstanding

def answered (cfg : SnoopParams) (s : Snooping) (cpkt : SnoopPacket) (port : Nat) : List Asked :=
  s.outstanding.filter fun a => a ≠ asked cfg cpkt port

/-- One call; nothing if the filter panics. -/
def step (cfg : SnoopParams) (s : Snooping) : SnoopEv → Option Snooping
  | .request cpkt slave_port will_retry =>
    (s.filter.request cfg cpkt slave_port will_retry).toOption.map fun f => ⟨f, s.sent cfg cpkt slave_port will_retry⟩
  | .lookupSnoop cpkt => (s.filter.lookupSnoop cfg cpkt).toOption.map fun out => ⟨out.1, s.outstanding⟩
  | .updateSnoopResponse cpkt rsp_port req_port =>
    (s.filter.updateSnoopResponse cfg cpkt rsp_port req_port).toOption.map fun f => ⟨f, s.answered cfg cpkt req_port⟩
  | .updateSnoopForward cpkt => (s.filter.updateSnoopForward cfg cpkt).toOption.map fun f => ⟨f, s.outstanding⟩
  | .updateResponse cpkt slave_port =>
    (s.filter.updateResponse cfg cpkt slave_port).toOption.map fun f => ⟨f, s.answered cfg cpkt slave_port⟩

end Snooping

/-- The runs of a `SnoopFilter`. -/
def snooping (cfg : SnoopParams) : System Snooping SnoopEv where
  init s := s = .start
  step := Snooping.step cfg

/-! ## Entries -/

section Entries

variable {cfg : SnoopParams} {m : SnoopFilterCache} {out out' : List Asked} {line : Addr} {item : SnoopItem}

theorem insert_of_lookup (h : m.lookup line = some item) (item' : SnoopItem) :
    (m.insert line item').insert line item = m := by
  apply Finmap.ext_lookup
  intro x
  by_cases hx : x = line
  · subst hx
    rw [Finmap.lookup_insert, h]
  · rw [Finmap.lookup_insert_of_ne _ hx, Finmap.lookup_insert_of_ne _ hx]

theorem erase_insert (h : m.lookup line = none) (item item' : SnoopItem) :
    ((m.insert line item').insert line item).erase line = m := by
  apply Finmap.ext_lookup
  intro x
  by_cases hx : x = line
  · subst hx
    rw [Finmap.lookup_erase, h]
  · rw [Finmap.lookup_erase_ne hx, Finmap.lookup_insert_of_ne _ hx, Finmap.lookup_insert_of_ne _ hx]

/-- Every entry has a holder or a requester, and every requester waits for a response. -/
structure Tracked (cfg : SnoopParams) (m : SnoopFilterCache) (out : List Asked) : Prop where
  notNull : ∀ line item, m.lookup line = some item → item.requested ||| item.holder ≠ 0
  requested : ∀ line item p, m.lookup line = some item → cfg.marked item.requested p = true → ⟨line, p, false⟩ ∈ out

theorem Tracked.mono (h : Tracked cfg m out) (hsub : ∀ a ∈ out, a ∈ out') : Tracked cfg m out' :=
  ⟨h.notNull, fun line item p hl hp => hsub _ (h.requested line item p hl hp)⟩

theorem Tracked.insert (h : Tracked cfg m out) (hnull : item.requested ||| item.holder ≠ 0)
    (hreq : ∀ p, cfg.marked item.requested p = true → ⟨line, p, false⟩ ∈ out) :
      Tracked cfg (m.insert line item) out := by
  constructor
  · intro x item' hx
    by_cases hxl : x = line
    · subst hxl
      rw [Finmap.lookup_insert] at hx
      cases hx
      exact hnull
    · rw [Finmap.lookup_insert_of_ne _ hxl] at hx
      exact h.notNull x item' hx
  · intro x item' p hx hp
    by_cases hxl : x = line
    · subst hxl
      rw [Finmap.lookup_insert] at hx
      cases hx
      exact hreq p hp
    · rw [Finmap.lookup_insert_of_ne _ hxl] at hx
      exact h.requested x item' p hx hp

/-- An entry is written, and removed if it is null. -/
theorem Tracked.store (h : Tracked cfg m out)
    (hreq : ∀ p, cfg.marked item.requested p = true → ⟨line, p, false⟩ ∈ out) :
    Tracked cfg (SnoopFilter.eraseIfNullEntry (m.insert line item) line) out := by
  rw [SnoopFilter.eraseIfNullEntry, Finmap.lookup_insert]
  dsimp only
  split
  · have hlookup : ∀ {x : Addr} {item' : SnoopItem}, ((m.insert line item).erase line).lookup x = some item' →
        m.lookup x = some item' := by
      intro x item' hx
      by_cases hxl : x = line
      · subst hxl
        rw [Finmap.lookup_erase] at hx
        cases hx
      · rwa [Finmap.lookup_erase_ne hxl, Finmap.lookup_insert_of_ne _ hxl] at hx
    exact ⟨fun x item' hx => h.notNull x item' (hlookup hx), fun x item' p hx => h.requested x item' p (hlookup hx)⟩
  · rename_i hnull
    exact h.insert hnull hreq

theorem eq_of_lookup_store {item' : SnoopItem}
    (h : (SnoopFilter.eraseIfNullEntry (m.insert line item) line).lookup line = some item') : item' = item := by
  rw [SnoopFilter.eraseIfNullEntry, Finmap.lookup_insert] at h
  dsimp only at h
  split at h
  · rw [Finmap.lookup_erase] at h
    cases h
  · rw [Finmap.lookup_insert] at h
    exact (Option.some.inj h).symm

/-- A response: the port that it goes to has no request for the line any more. -/
theorem Tracked.answer {a : Asked} (h : Tracked cfg m out)
    (ha : a.uncacheable = false → ∀ item, m.lookup a.line = some item → cfg.marked item.requested a.port = false) :
    Tracked cfg m (out.filter fun b => b ≠ a) := by
  refine ⟨h.notNull, fun line item p hl hp => ?_⟩
  refine List.mem_filter.mpr ⟨h.requested line item p hl hp, ?_⟩
  rw [decide_eq_true_iff]
  rintro rfl
  rw [ha rfl item hl] at hp
  cases hp

end Entries

/-! ## The calls -/

namespace SnoopFilter

section Calls

variable {cfg : SnoopParams} {s s' : SnoopFilter} {cpkt : SnoopPacket} {port : Nat} {ports : List Nat}

/-- What `lookupRequest` does to the entry of the line: nothing if it does not allocate. -/
inductive Looked (cfg : SnoopParams) (s : SnoopFilter) (cpkt : SnoopPacket) (port : Nat) (s' : SnoopFilter)
    (ports : List Nat) : Prop
  | miss (lookup : s.cachedLocations.lookup (cfg.lineAddr cpkt.addr cpkt.isSecure) = none) (it : s'.it = none)
      (cached : s'.cachedLocations = s.cachedLocations) (list : ports = [])
  | entry (old item : SnoopItem)
      (lookup : (s.cachedLocations.lookup (cfg.lineAddr cpkt.addr cpkt.isSecure)).getD ⟨0, 0⟩ = old)
      (it : s'.it = some (cfg.lineAddr cpkt.addr cpkt.isSecure)) (retryItem : s'.retryItem = old)
      (cached : s'.cachedLocations = s.cachedLocations.insert (cfg.lineAddr cpkt.addr cpkt.isSecure) item)
      (list : ports = cfg.maskToPortList ((old.holder ||| old.requested) &&& ~~~cfg.portToMask port))
      (change : item = old ∨ cpkt.isUncacheable = false ∧ requestItem cpkt (cfg.portToMask port) old = .ok item)

theorem looked_of_lookupRequest {lat : Nat} (h : s.lookupRequest cfg cpkt port = .ok (s', ports, lat)) :
    Looked cfg s cpkt port s' ports := by
  rw [lookupRequest] at h
  generalize halloc : (!cpkt.isUncacheable && cfg.isSnooping port && cpkt.cmd.fromCache) = allocate at h
  generalize hfound : s.cachedLocations.lookup (cfg.lineAddr cpkt.addr cpkt.isSecure) = found at h
  cases allocate with
  | false =>
    cases found with
    | none =>
      cases h
      exact .miss hfound rfl rfl rfl
    | some old =>
      cases h
      refine .entry old old (by rw [hfound]; rfl) rfl rfl ?_ rfl (.inl rfl)
      have hself := insert_of_lookup hfound old
      rw [Finmap.insert_insert] at hself
      exact hself.symm
  | true =>
    simp only [Bool.not_true, Bool.and_false, Bool.false_eq_true, if_false] at h
    simp only [Bool.and_eq_true, Bool.not_eq_true'] at halloc
    cases hitem : requestItem cpkt (cfg.portToMask port) (found.getD ⟨0, 0⟩) with
    | error e =>
      rw [hitem] at h
      cases h
    | ok item =>
      rw [hitem] at h
      cases h
      exact .entry _ item (by rw [hfound]) rfl rfl rfl rfl (.inr ⟨halloc.1.1, hitem⟩)

theorem requested_of_requestItem {req_port : SnoopMask} {old item : SnoopItem}
    (h : requestItem cpkt req_port old = .ok item) : item.requested = old.requested ∨
      cpkt.cmd.needsResponse = true ∧ cpkt.cacheResponding = false ∧ item.requested = old.requested ||| req_port := by
  rw [requestItem] at h
  cases hneeds : cpkt.cmd.needsResponse with
  | true =>
    cases hresp : cpkt.cacheResponding with
    | false =>
      simp only [hneeds, hresp, if_true, Bool.not_false] at h
      split at h
      · cases h
      · cases h
        exact .inr ⟨rfl, rfl, rfl⟩
    | true =>
      simp only [hneeds, hresp, if_true, Bool.not_true, Bool.false_eq_true, if_false] at h
      split at h
      · cases h
      · cases h
        exact .inl rfl
  | false =>
    simp only [hneeds, Bool.false_eq_true, if_false] at h
    split at h
    · cases h
    · split at h
      · cases h
      · split at h <;> cases h <;> exact .inl rfl

/-- The undo, for an entry that was not null. -/
theorem finishRequest_retry (h : Looked cfg s cpkt port s' ports)
    (hnull : ∀ line item, s.cachedLocations.lookup line = some item → item.requested ||| item.holder ≠ 0) :
    ∃ s'', s'.finishRequest cfg true cpkt.addr cpkt.isSecure = .ok s'' ∧ s''.cachedLocations = s.cachedLocations := by
  cases h with
  | miss _ it cached _ => exact ⟨s', by rw [finishRequest, it], cached⟩
  | entry old item lookup it retryItem cached _ _ =>
    generalize hline : cfg.lineAddr cpkt.addr cpkt.isSecure = line at *
    refine ⟨{ s' with cachedLocations := eraseIfNullEntry (s'.cachedLocations.insert line s'.retryItem) line }, ?_, ?_⟩
    · simp [finishRequest, it, cached, hline]
    · dsimp only
      rw [cached, retryItem, eraseIfNullEntry, Finmap.lookup_insert]
      dsimp only
      cases hfound : s.cachedLocations.lookup line with
      | none =>
        rw [hfound] at lookup
        obtain rfl : (⟨0, 0⟩ : SnoopItem) = old := lookup
        exact erase_insert hfound _ _
      | some old' =>
        rw [hfound] at lookup
        obtain rfl : old' = old := lookup
        rw [if_neg (hnull line _ hfound)]
        exact insert_of_lookup hfound _

/-- Without a retry, the entry that `lookupRequest` has left stays, unless it is null. -/
theorem finishRequest_sent {s'' : SnoopFilter} (h : Looked cfg s cpkt port s' ports)
    (hf : s'.finishRequest cfg false cpkt.addr cpkt.isSecure = .ok s'') : s''.cachedLocations = s.cachedLocations ∨
      ∃ old item, (s.cachedLocations.lookup (cfg.lineAddr cpkt.addr cpkt.isSecure)).getD ⟨0, 0⟩ = old ∧
        (item = old ∨ cpkt.isUncacheable = false ∧ requestItem cpkt (cfg.portToMask port) old = .ok item) ∧
        s''.cachedLocations = eraseIfNullEntry
          (s.cachedLocations.insert (cfg.lineAddr cpkt.addr cpkt.isSecure) item)
            (cfg.lineAddr cpkt.addr cpkt.isSecure) := by
  cases h with
  | miss _ it cached _ =>
    rw [finishRequest, it] at hf
    cases hf
    exact .inl cached
  | entry old item lookup it _ cached _ change =>
    rw [finishRequest, it] at hf
    simp only [ne_eq, not_true_eq_false, if_false, cached, Finmap.lookup_insert, Option.isNone_some,
      Bool.false_eq_true] at hf
    cases hf
    exact .inr ⟨old, item, lookup, change, rfl⟩

variable {out : List Asked}

theorem tracked_request {will_retry : Bool} (h : Tracked cfg s.cachedLocations out)
    (hr : s.request cfg cpkt port will_retry = .ok s') :
    Tracked cfg s'.cachedLocations (Snooping.sent cfg ⟨s, out⟩ cpkt port will_retry) := by
  rw [request] at hr
  cases hl : s.lookupRequest cfg cpkt port with
  | error e =>
    rw [hl] at hr
    cases hr
  | ok res =>
    rw [hl] at hr
    dsimp only at hr
    have hlooked := looked_of_lookupRequest hl
    cases will_retry with
    | true =>
      obtain ⟨s₂, hs₂, hcached⟩ := finishRequest_retry hlooked h.notNull
      rw [hr] at hs₂
      cases hs₂
      rw [hcached]
      exact h
    | false =>
      have hsub : ∀ a ∈ out, a ∈ Snooping.sent cfg ⟨s, out⟩ cpkt port false := by
        intro a ha
        rw [Snooping.sent]
        split
        · exact List.mem_cons_of_mem _ ha
        · exact ha
      rcases finishRequest_sent hlooked hr with hcached | ⟨old, item, hold, hchange, hcached⟩
      · rw [hcached]
        exact h.mono hsub
      · rw [hcached]
        have hasked : ∀ p, cfg.marked old.requested p = true →
            ⟨cfg.lineAddr cpkt.addr cpkt.isSecure, p, false⟩ ∈ Snooping.sent cfg ⟨s, out⟩ cpkt port false := by
          intro p hp
          cases hfound : s.cachedLocations.lookup (cfg.lineAddr cpkt.addr cpkt.isSecure) with
          | none =>
            rw [hfound] at hold
            rw [← hold] at hp
            simp at hp
          | some old' =>
            rw [hfound] at hold
            obtain rfl : old' = old := hold
            exact hsub _ (h.requested _ _ p hfound hp)
        refine (h.mono hsub).store fun p hp => ?_
        rcases hchange with rfl | ⟨hun, hitem⟩
        · exact hasked p hp
        · rcases requested_of_requestItem hitem with hreq | ⟨hneeds, hresp, hreq⟩
          · exact hasked p (hreq ▸ hp)
          · rw [hreq, SnoopParams.marked_or_portToMask, Bool.or_eq_true, decide_eq_true_iff] at hp
            rcases hp with hp | ⟨rfl, -⟩
            · exact hasked p hp
            · -- the request that has just passed
              simp [Snooping.sent, Snooping.asked, hneeds, hresp, hun]

theorem tracked_lookupSnoop {res : List Nat × Nat} (h : Tracked cfg s.cachedLocations out)
    (hr : s.lookupSnoop cfg cpkt = .ok (s', res)) : Tracked cfg s'.cachedLocations out := by
  rw [lookupSnoop] at hr
  split at hr
  · cases hr
  · cases hfound : s.cachedLocations.lookup (cfg.lineAddr cpkt.addr cpkt.isSecure) with
    | none =>
      rw [hfound] at hr
      dsimp only at hr
      split at hr
      · cases hr
      · cases hr
        exact h
    | some sf_item =>
      rw [hfound] at hr
      dsimp only at hr
      split at hr
      · cases hr
      · split at hr
        · cases hr
          exact h.store fun p hp => h.requested _ _ p hfound hp
        · cases hr
          exact h

theorem tracked_updateSnoopForward (h : Tracked cfg s.cachedLocations out)
    (hr : s.updateSnoopForward cfg cpkt = .ok s') : Tracked cfg s'.cachedLocations out := by
  rw [updateSnoopForward] at hr
  dsimp only at hr
  split at hr
  · cases hr
  · cases hfound : s.cachedLocations.lookup (cfg.lineAddr cpkt.addr cpkt.isSecure) with
    | none =>
      rw [hfound] at hr
      cases hr
      exact h
    | some sf_item =>
      rw [hfound] at hr
      dsimp only at hr
      split at hr
      · cases hr
        exact h.store fun p hp => h.requested _ _ p hfound hp
      · cases hr
        exact h

/-- Nothing is asked for by a port that is not snooping. -/
theorem answer_uncacheable (h : Tracked cfg s.cachedLocations out)
    (hskip : cpkt.isUncacheable = true ∨ cfg.isSnooping port = false) :
    Tracked cfg s.cachedLocations (Snooping.answered cfg ⟨s, out⟩ cpkt port) := by
  apply h.answer
  intro hun item _
  rcases hskip with hskip | hskip
  · exact absurd (hskip.symm.trans hun) (by decide)
  · show cfg.marked item.requested port = false
    rw [SnoopParams.marked_eq, hskip, Bool.false_and]

theorem tracked_updateSnoopResponse {rsp_port : Nat} (h : Tracked cfg s.cachedLocations out)
    (hr : s.updateSnoopResponse cfg cpkt rsp_port port = .ok s') :
    Tracked cfg s'.cachedLocations (Snooping.answered cfg ⟨s, out⟩ cpkt port) := by
  rw [updateSnoopResponse] at hr
  split at hr
  · cases hr
  · split at hr
    · rename_i hskip
      cases hr
      refine answer_uncacheable h ?_
      rwa [Bool.or_eq_true, Bool.not_eq_true'] at hskip
    · dsimp only at hr
      generalize hold : (s.cachedLocations.lookup (cfg.lineAddr cpkt.addr cpkt.isSecure)).getD ⟨0, 0⟩ = old at hr
      generalize (if (!cpkt.hasSharers) = true then (0 : SnoopMask) else old.holder) = holder at hr
      split at hr
      · cases hr
      · split at hr
        · cases hr
        · rename_i hreq
          split at hr
          · cases hr
          · split at hr
            · cases hr
            · rename_i hnull
              cases hr
              -- the entry is not a new one, as there is a requester
              obtain ⟨old', hfound⟩ : ∃ old',
                  s.cachedLocations.lookup (cfg.lineAddr cpkt.addr cpkt.isSecure) = some old' := by
                cases hfound : s.cachedLocations.lookup (cfg.lineAddr cpkt.addr cpkt.isSecure) with
                | none =>
                  rw [hfound] at hold
                  rw [← hold] at hreq
                  exact absurd (BitVec.zero_and (x := cfg.portToMask port)) hreq
                | some old' => exact ⟨old', rfl⟩
              rw [hfound] at hold
              obtain rfl : old' = old := hold
              refine (h.insert hnull fun p hp => ?_).answer fun _ item hitem => ?_
              · rw [SnoopParams.marked_and_not_portToMask, Bool.and_eq_true] at hp
                exact h.requested _ _ p hfound hp.1
              · have hitem' := hitem
                simp only [Snooping.asked, Finmap.lookup_insert, Option.some.injEq] at hitem'
                rw [← hitem']
                simp [Snooping.asked, SnoopParams.marked_and_not_portToMask]

theorem tracked_updateResponse (h : Tracked cfg s.cachedLocations out)
    (hr : s.updateResponse cfg cpkt port = .ok s') :
    Tracked cfg s'.cachedLocations (Snooping.answered cfg ⟨s, out⟩ cpkt port) := by
  rw [updateResponse] at hr
  split at hr
  · cases hr
  · split at hr
    · rename_i hskip
      cases hr
      refine answer_uncacheable h ?_
      rwa [Bool.or_eq_true, Bool.not_eq_true'] at hskip
    · dsimp only at hr
      cases hfound : s.cachedLocations.lookup (cfg.lineAddr cpkt.addr cpkt.isSecure) with
      | none =>
        rw [hfound] at hr
        cases hr
        apply h.answer
        intro _ item hitem
        have hnone := hfound.symm.trans hitem
        cases hnone
      | some old =>
        rw [hfound] at hr
        dsimp only at hr
        have hasked : ∀ p, cfg.marked (old.requested &&& ~~~cfg.portToMask port) p = true →
            ⟨cfg.lineAddr cpkt.addr cpkt.isSecure, p, false⟩ ∈ out := by
          intro p hp
          rw [SnoopParams.marked_and_not_portToMask, Bool.and_eq_true] at hp
          exact h.requested _ _ p hfound hp.1
        split at hr
        · cases hr
        · split at hr
          · cases hr
            refine (h.store hasked).answer fun _ item hitem => ?_
            rw [eq_of_lookup_store hitem]
            simp [Snooping.asked, SnoopParams.marked_and_not_portToMask]
          · split at hr
            · cases hr
            · rename_i hnull
              cases hr
              refine (h.insert ?_ hasked).answer fun _ item hitem => ?_
              · rw [BitVec.or_comm]
                exact hnull
              · simp only [Snooping.asked, Finmap.lookup_insert, Option.some.injEq] at hitem
                rw [← hitem]
                simp [Snooping.asked, SnoopParams.marked_and_not_portToMask]

end Calls

end SnoopFilter

/-! ## Runs -/

namespace Snooping

theorem tracked_of_reachable {cfg : SnoopParams} {s : Snooping} (h : (snooping cfg).Reachable s) :
    Tracked cfg s.filter.cachedLocations s.outstanding := by
  refine System.invariantWhen (I := fun s : Snooping => Tracked cfg s.filter.cachedLocations s.outstanding) ?_ ?_ h
  · rintro s rfl
    constructor
    · intro line item hl
      simp [start, SnoopFilter.start] at hl
    · intro line item p hl
      simp [start, SnoopFilter.start] at hl
  · intro s e s' _ hs _ hstep
    cases e with
    | request cpkt slave_port will_retry =>
      obtain ⟨f, hf, rfl⟩ := Option.map_eq_some_iff.mp hstep
      exact SnoopFilter.tracked_request hs (ok_of_toOption hf)
    | lookupSnoop cpkt =>
      obtain ⟨⟨f, res⟩, hf, rfl⟩ := Option.map_eq_some_iff.mp hstep
      exact SnoopFilter.tracked_lookupSnoop hs (ok_of_toOption hf)
    | updateSnoopResponse cpkt rsp_port req_port =>
      obtain ⟨f, hf, rfl⟩ := Option.map_eq_some_iff.mp hstep
      exact SnoopFilter.tracked_updateSnoopResponse hs (ok_of_toOption hf)
    | updateSnoopForward cpkt =>
      obtain ⟨f, hf, rfl⟩ := Option.map_eq_some_iff.mp hstep
      exact SnoopFilter.tracked_updateSnoopForward hs (ok_of_toOption hf)
    | updateResponse cpkt slave_port =>
      obtain ⟨f, hf, rfl⟩ := Option.map_eq_some_iff.mp hstep
      exact SnoopFilter.tracked_updateResponse hs (ok_of_toOption hf)

/-- **The retry is undone**: after `lookupRequest` and a `finishRequest` with `will_retry`, all entries are as
before. -/
theorem retry_restores {cfg : SnoopParams} {s : Snooping} (h : (snooping cfg).Reachable s) {cpkt : SnoopPacket}
    {slave_port : Nat} {f : SnoopFilter} {ports : List Nat} {lat : Nat}
    (hl : s.filter.lookupRequest cfg cpkt slave_port = .ok (f, ports, lat)) :
    ∃ f', f.finishRequest cfg true cpkt.addr cpkt.isSecure = .ok f' ∧
      f'.cachedLocations = s.filter.cachedLocations :=
  SnoopFilter.finishRequest_retry (SnoopFilter.looked_of_lookupRequest hl) (tracked_of_reachable h).notNull

/-- Two caches above the bus, and a port that is not snooping. -/
def twoCaches : SnoopParams where
  slave_ports := [true, false, true]
  linesize := 64
  lookupLatency := 1
  maxEntryCount := 8
  few := by decide

def plain (cmd : MemCmd) (addr : Addr) : SnoopPacket where
  cmd := cmd
  addr := addr
  isSecure := false
  isUncacheable := false
  isCacheMaintenance := false
  cacheResponding := false
  isBlockCached := false
  hasSharers := true

/-- The only holder evicts its line, and is told to retry. -/
theorem retry_restores_eviction : ∃ (s : Snooping) (f f' : SnoopFilter), (snooping twoCaches).Reachable s ∧
    f.cachedLocations.lookup 0x40 = some ⟨0, 0⟩ ∧ f.finishRequest twoCaches true 0x44 false = .ok f' ∧
    f'.cachedLocations = s.filter.cachedLocations := by
  obtain ⟨s, hs, hp⟩ := System.reachable_of_replay (S := snooping twoCaches)
    (show (snooping twoCaches).init start from rfl)
    [.request (plain .ReadSharedReq 0x44) 0 false, .updateResponse (plain .ReadResp 0x44) 0]
    (fun s => (s.filter.lookupRequest twoCaches (plain .WritebackDirty 0x44) 0).toOption.any
      (fun out => out.1.cachedLocations.lookup 0x40 = some ⟨0, 0⟩) = true) (by decide)
  obtain ⟨⟨f, ports, lat⟩, hf, hnull⟩ := (Option.any_eq_true _ _).mp hp
  obtain ⟨f', hf', hcached⟩ := retry_restores hs (ok_of_toOption hf)
  exact ⟨s, f, f', hs, of_decide_eq_true hnull, hf', hcached⟩

/-- After every call, no entry is null, a port is a requester only if it waits for a response, and `lookupRequest`
returns all other ports that hold or have asked for the line. -/
theorem entries_tracked {cfg : SnoopParams} {s : Snooping} (h : (snooping cfg).Reachable s) :
    (∀ line item, s.filter.cachedLocations.lookup line = some item → item.requested ||| item.holder ≠ 0) ∧
      (∀ line item p, s.filter.cachedLocations.lookup line = some item → cfg.marked item.requested p = true →
        ⟨line, p, false⟩ ∈ s.outstanding) ∧
      ∀ cpkt slave_port f ports lat, s.filter.lookupRequest cfg cpkt slave_port = .ok (f, ports, lat) →
        ∀ item, s.filter.cachedLocations.lookup (cfg.lineAddr cpkt.addr cpkt.isSecure) = some item →
          ∀ p, p ≠ slave_port → (cfg.marked item.holder p = true ∨ cfg.marked item.requested p = true) → p ∈ ports := by
  have ht := tracked_of_reachable h
  refine ⟨ht.notNull, ht.requested, ?_⟩
  intro cpkt slave_port f ports lat hl item hitem p hp hmarked
  cases SnoopFilter.looked_of_lookupRequest hl with
  | miss lookup _ _ _ =>
    have hnone := lookup.symm.trans hitem
    cases hnone
  | entry old _ lookup _ _ _ list _ =>
    rw [hitem] at lookup
    obtain rfl : item = old := lookup
    rw [list, SnoopParams.mem_maskToPortList, SnoopParams.marked_and_not_portToMask, SnoopParams.marked_or,
      Bool.and_eq_true, Bool.or_eq_true]
    exact ⟨hmarked, decide_eq_true hp⟩

/-- One cache holds the line, and the other has asked for it. -/
theorem entries_tracked_two_caches : ∃ s, (snooping twoCaches).Reachable s ∧
    s.filter.cachedLocations.lookup 0x40 = some ⟨2, 1⟩ ∧ ⟨0x40, 2, false⟩ ∈ s.outstanding := by
  obtain ⟨s, hs, hitem, hmarked⟩ := System.reachable_of_replay (S := snooping twoCaches)
    (show (snooping twoCaches).init start from rfl)
    [.request (plain .ReadSharedReq 0x44) 0 false, .updateResponse (plain .ReadResp 0x44) 0,
      .request (plain .ReadExReq 0x40) 2 true, .request (plain .ReadExReq 0x40) 2 false]
    (fun s => s.filter.cachedLocations.lookup 0x40 = some ⟨2, 1⟩ ∧ twoCaches.marked 2 2 = true) (by decide)
  exact ⟨s, hs, hitem, (entries_tracked hs).2.1 _ _ 2 hitem hmarked⟩

end Snooping

end Salam.Mem
