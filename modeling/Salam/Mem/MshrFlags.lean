import Salam.Mem.Mshr

/-!
# The flags of the targets

A list of targets caches whether one of them needs a writable block, is an upgrade, allocates on a fill or comes from a
cache. `add` raises the flags, and the operations that take targets out make them anew with `populateFlags`, but for
`promoteIf`: it makes those of the deferred targets anew and leaves those of the targets that it appends to.

* `flags_exact`: the flags are those of the targets as long as what is promoted raises no other flag, and exactly then.
-/

namespace Salam.Mem

inductive Flag
  | needsWritable
  | hasUpgrade
  | allocOnFill
  | hasFromCache
  deriving DecidableEq

instance {p : Flag → Prop} [DecidablePred p] : Decidable (∀ f, p f) :=
  decidable_of_iff (p .needsWritable ∧ p .hasUpgrade ∧ p .allocOnFill ∧ p .hasFromCache)
    ⟨fun h f => by cases f <;> simp [h], fun h => ⟨h _, h _, h _, h _⟩⟩

/-- The flags that `updateFlags` raises for a packet. -/
def raises (pkt : TargetPacket) (source : Source) (alloc_on_fill : Bool) : Flag → Bool
  | .needsWritable => source != .FromSnoop && pkt.cmd.needsWritable
  | .hasUpgrade => source != .FromSnoop && (pkt.cmd.isUpgrade || pkt.cmd == .StoreCondReq)
  | .allocOnFill => source != .FromSnoop && alloc_on_fill
  | .hasFromCache => source != .FromSnoop && source != .FromPrefetcher && pkt.cmd.fromCache

namespace Target

def raises (t : Target) : Flag → Bool := Mem.raises t.pkt t.source t.allocOnFill

/-- What `needsWritable` asserts: a target that is not a snoop is a request. -/
def Asks (t : Target) : Prop := t.source ≠ .FromSnoop → t.pkt.cmd.isRequest = true

end Target

namespace TargetList

def has (l : TargetList) : Flag → Bool
  | .needsWritable => l.needsWritable
  | .hasUpgrade => l.hasUpgrade
  | .allocOnFill => l.allocOnFill
  | .hasFromCache => l.hasFromCache

/-- The flags are those that `populateFlags` would compute. -/
def Exact (l : TargetList) : Prop := ∀ f, l.has f = l.populateFlags.has f

section Flags

variable {l : TargetList} {ts : List Target} {f : Flag} {pkt : TargetPacket}

@[simp] theorem has_resetFlags : l.resetFlags.has f = false := by
  cases f <;> rfl

theorem has_updateWriteFlags (pkt : TargetPacket) : (l.updateWriteFlags pkt).has f = l.has f := by
  unfold updateWriteFlags
  split
  · rfl
  · dsimp only
    split <;> cases f <;> rfl

theorem has_updateFlags (pkt : TargetPacket) (source : Source) (alloc_on_fill : Bool) :
    (l.updateFlags pkt source alloc_on_fill).has f = (l.has f || raises pkt source alloc_on_fill f) := by
  cases source with
  | FromCPU =>
    unfold updateFlags
    simp only [ne_eq, reduceCtorEq, not_false_eq_true, if_true]
    rw [has_updateWriteFlags]
    cases f <;> rfl
  | FromPrefetcher =>
    cases f with
    | hasFromCache => exact (Bool.or_false _).symm
    | _ => rfl
  | FromSnoop => cases f <;> exact (Bool.or_false _).symm

/-- `populateFlags` raises the flags that one of the targets raises. -/
theorem has_populateFlags : l.populateFlags.has f = l.list.any (·.raises f) := by
  have hfold : ∀ (ts : List Target) (l : TargetList),
      (ts.foldl (fun l t => l.updateFlags t.pkt t.source t.allocOnFill) l).has f =
      (l.has f || ts.any (·.raises f)) := by
    intro ts
    induction ts with
    | nil => simp
    | cons t ts ih =>
      intro l
      rw [List.foldl_cons, ih, has_updateFlags, List.any_cons, Bool.or_assoc]
      rfl
  rw [populateFlags, hfold, has_resetFlags, Bool.false_or]

theorem exact_iff : l.Exact ↔ ∀ f, l.has f = l.list.any (·.raises f) := by
  simp only [Exact, has_populateFlags]

theorem exact_populateFlags (l : TargetList) : l.populateFlags.Exact := by
  rw [exact_iff]
  intro f
  rw [has_populateFlags, list_populateFlags]

theorem Exact.add (h : l.Exact) (pkt : TargetPacket) (readyTime order : Nat) (source : Source)
    (markPending alloc_on_fill : Bool) : (l.add pkt readyTime order source markPending alloc_on_fill).Exact := by
  rw [exact_iff] at h ⊢
  intro f
  have hhas : (l.add pkt readyTime order source markPending alloc_on_fill).has f =
      (l.updateFlags pkt source alloc_on_fill).has f := by
    cases f <;> rfl
  rw [hhas, has_updateFlags, h f, list_add, List.any_append, List.any_cons, List.any_nil, Bool.or_false]
  rfl

theorem or_any_eq_left {b : Bool} {p : Target → Bool} (h : ∀ t ∈ ts, p t = true → b = true) : (b || ts.any p) = b := by
  cases hany : ts.any p with
  | false => rw [Bool.or_false]
  | true =>
    obtain ⟨t, hmem, hp⟩ := List.any_eq_true.mp hany
    rw [h t hmem hp, Bool.or_true]

theorem exact_resetFlags (h : l.list = []) : l.resetFlags.Exact := by
  rw [exact_iff]
  intro f
  have hlist : l.resetFlags.list = [] := h
  rw [has_resetFlags, hlist, List.any_nil]

@[simp] theorem any_unmark : (unmark ts).any (·.raises f) = ts.any (·.raises f) := by
  rw [unmark, List.any_map]
  rfl

theorem Exact.append_iff (h : l.Exact) {l' : TargetList} (hl : l'.list = l.list ++ unmark ts) :
    l'.Exact ↔ ∀ f, l'.has f = (l.has f || ts.any (·.raises f)) := by
  rw [exact_iff] at h ⊢
  refine forall_congr' fun f => ?_
  rw [hl, List.any_append, any_unmark, ← h f]

theorem Exact.clearDownstreamPending (h : l.Exact) : l.clearDownstreamPending.Exact := by
  rw [exact_iff] at h ⊢
  intro f
  have hhas : l.clearDownstreamPending.has f = l.has f := by
    cases f <;> rfl
  rw [hhas, h f]
  exact any_unmark.symm

theorem isUpgrade_request {cmd : MemCmd} (hreq : cmd.isRequest = true) (h : cmd ≠ .UpgradeReq)
    (h' : cmd ≠ .SCUpgradeReq) :
    cmd.isUpgrade = false := by
  cases cmd with
  | UpgradeReq => exact absurd rfl h
  | SCUpgradeReq => exact absurd rfl h'
  | UpgradeResp => exact absurd hreq (by decide)
  | _ => rfl

/-- A replaced request is no upgrade any more, and raises the other flags as before. -/
theorem raises_replaceUpgrade (hreq : pkt.cmd.isRequest = true) (source : Source) (alloc_on_fill : Bool) :
    raises pkt.replaceUpgrade source alloc_on_fill f =
    (decide (f ≠ .hasUpgrade) && raises pkt source alloc_on_fill f) := by
  have hup : pkt.replaceUpgrade.cmd.isUpgrade = false ∧ (pkt.replaceUpgrade.cmd == .StoreCondReq) = false ∧
      pkt.replaceUpgrade.cmd.needsWritable = pkt.cmd.needsWritable ∧
      pkt.replaceUpgrade.cmd.fromCache = pkt.cmd.fromCache := by
    unfold TargetPacket.replaceUpgrade
    split
    · rename_i hcmd
      rw [hcmd]
      exact ⟨rfl, rfl, rfl, rfl⟩
    · rename_i hcmd
      rw [hcmd]
      exact ⟨rfl, rfl, rfl, rfl⟩
    · rename_i hcmd
      rw [hcmd]
      exact ⟨rfl, rfl, rfl, rfl⟩
    · rename_i hne hne' hne''
      exact ⟨isUpgrade_request hreq hne hne', beq_eq_false_iff_ne.mpr hne'', rfl, rfl⟩
  obtain ⟨h₁, h₂, h₃, h₄⟩ := hup
  cases f <;> simp [raises, h₁, h₂, h₃, h₄]

/-- Without `hasUpgrade` there is nothing to replace; otherwise no target raises it afterwards. -/
theorem Exact.replaceUpgrades (h : l.Exact) (hasks : ∀ t ∈ l.list, t.Asks) : l.replaceUpgrades.Exact := by
  unfold TargetList.replaceUpgrades
  split
  · exact h
  · rw [exact_iff] at h ⊢
    intro f
    have hraises : ∀ t ∈ l.list, Target.raises { t with pkt := t.pkt.replaceUpgrade } f =
        (decide (f ≠ .hasUpgrade) && t.raises f) := by
      intro t ht
      by_cases hsnoop : t.source = .FromSnoop
      · simp only [Target.raises, hsnoop]
        cases f <;> rfl
      · exact raises_replaceUpgrade (hasks t ht hsnoop) t.source t.allocOnFill
    have hany : (l.list.map fun t => { t with pkt := t.pkt.replaceUpgrade }).any (·.raises f) =
        (decide (f ≠ .hasUpgrade) && l.list.any (·.raises f)) := by
      rw [List.any_map, List.and_any_distrib_left, Bool.eq_iff_iff]
      simp only [List.any_eq_true]
      exact exists_congr fun t => and_congr_right fun ht => by rw [Function.comp_apply, hraises t ht]
    rw [hany, ← h f]
    cases f <;> rfl

theorem isRequest_replaceUpgrade (hreq : pkt.cmd.isRequest = true) : pkt.replaceUpgrade.cmd.isRequest = true := by
  unfold TargetPacket.replaceUpgrade
  split
  · rfl
  · rfl
  · rfl
  · exact hreq

/-- A list has its flags, and what is not a snoop is a request. -/
structure Kept (l : TargetList) : Prop where
  exact : l.Exact
  asks : ∀ t ∈ l.list, t.Asks

theorem Kept.resetFlags (h : l.list = []) : l.resetFlags.Kept where
  exact := exact_resetFlags h
  asks := by
    intro t ht
    have hlist : l.resetFlags.list = [] := h
    rw [hlist] at ht
    cases ht

theorem Kept.populateFlags (h : ∀ t ∈ l.list, t.Asks) : l.populateFlags.Kept where
  exact := exact_populateFlags l
  asks := by rwa [list_populateFlags]

theorem Kept.add (h : l.Kept) {source : Source} (hreq : source ≠ .FromSnoop → pkt.cmd.isRequest = true)
    (readyTime order : Nat)
    (markPending alloc_on_fill : Bool) : (l.add pkt readyTime order source markPending alloc_on_fill).Kept where
  exact := h.exact.add pkt readyTime order source markPending alloc_on_fill
  asks := by
    intro t ht
    rw [list_add, List.mem_append, List.mem_singleton] at ht
    rcases ht with ht | rfl
    · exact h.asks t ht
    · exact hreq

theorem Kept.replaceUpgrades (h : l.Kept) : l.replaceUpgrades.Kept where
  exact := h.exact.replaceUpgrades h.asks
  asks := by
    unfold TargetList.replaceUpgrades
    split
    · exact h.asks
    · intro t ht
      obtain ⟨t', ht', rfl⟩ := List.mem_map.mp ht
      exact fun hsource => isRequest_replaceUpgrade (h.asks t' ht' hsource)

theorem asks_unmark (h : ∀ t ∈ ts, t.Asks) : ∀ t ∈ unmark ts, t.Asks := by
  intro t ht
  obtain ⟨t', ht', rfl⟩ := List.mem_map.mp ht
  exact h t' ht'

theorem Kept.clearDownstreamPending (h : l.Kept) : l.clearDownstreamPending.Kept where
  exact := h.exact.clearDownstreamPending
  asks := asks_unmark h.asks

end Flags

end TargetList

namespace MSHR

/-- Both lists have their flags. -/
structure FlagsKept (m : MSHR) : Prop where
  targets : m.targets.Kept
  deferred : m.deferredTargets.Kept

section Kept

variable {m m' : MSHR}

theorem FlagsKept.allocate (hnone : m.getNumTargets = 0) (blk_addr : Base.Addr) (blk_size : Nat) {target : TargetPacket}
    (hreq : target.cmd.isRequest = true) (when_ready order : Nat) (alloc_on_fill : Bool) :
    (m.allocate blk_addr blk_size target when_ready order alloc_on_fill).FlagsKept := by
  simp only [getNumTargets, Nat.add_eq_zero_iff, List.length_eq_zero_iff] at hnone
  have hinit : (m.targets.init blk_addr blk_size).Kept := .resetFlags hnone.1
  exact {
    targets := hinit.add (fun _ => hreq) _ _ _ _
    deferred := .resetFlags hnone.2 }

section

variable (h : m.FlagsKept)
include h

theorem FlagsKept.markInService {b : Bool} (hm : m.markInService b = .ok m') : m'.FlagsKept := by
  unfold MSHR.markInService at hm
  split at hm
  · cases hm
  · cases hm
    refine ⟨?_, h.deferred⟩
    split
    · exact h.targets.clearDownstreamPending
    · exact h.targets

theorem FlagsKept.clearDownstreamPending (hm : m.clearDownstreamPending = .ok m') : m'.FlagsKept := by
  unfold MSHR.clearDownstreamPending at hm
  split at hm
  · cases hm
  · cases hm
    exact ⟨h.targets.clearDownstreamPending, h.deferred⟩

theorem FlagsKept.deallocate (hm : m.deallocate = .ok m') : m'.FlagsKept := by
  unfold MSHR.deallocate at hm
  split at hm
  · cases hm
  · rename_i hnone
    cases hm
    simp only [hasTargets, Bool.or_eq_true, Bool.not_eq_true', not_or, Bool.not_eq_false, List.isEmpty_iff] at hnone
    exact ⟨.resetFlags hnone.1, h.deferred⟩

theorem FlagsKept.allocateTarget {pkt : TargetPacket} (hreq : pkt.cmd.isRequest = true) {whenReady order : Nat}
    {alloc_on_fill : Bool} (hm : m.allocateTarget pkt whenReady order alloc_on_fill = .ok m') : m'.FlagsKept := by
  unfold MSHR.allocateTarget at hm
  split at hm
  · cases hm
  · split at hm
    · cases hm
    · split at hm
      · cases hm
        refine ⟨h.targets, h.deferred.add (fun _ => ?_) _ _ _ _⟩
        split
        · exact TargetList.isRequest_replaceUpgrade hreq
        · exact hreq
      · cases hm
        exact ⟨h.targets.add (fun _ => hreq) _ _ _ _, h.deferred⟩

theorem FlagsKept.saveSnoop (curTick : Nat) (pkt : TargetPacket) (order : Nat) :
    (m.saveSnoop curTick pkt order).1.FlagsKept :=
  ⟨h.targets.add (fun hsource => absurd rfl hsource) _ _ _ _, h.deferred⟩

theorem FlagsKept.handleSnoop {curTick : Nat} {pkt pkt' : TargetPacket} {order : Nat} {b : Bool}
    (hm : m.handleSnoop curTick pkt order = .ok (m', pkt', b)) : m'.FlagsKept := by
  unfold MSHR.handleSnoop at hm
  split at hm
  · cases hm
  · split at hm
    · cases hm
      split
      · exact ⟨h.targets.replaceUpgrades, h.deferred.replaceUpgrades⟩
      · exact h
    · dsimp only at hm
      -- the deferred upgrades may be replaced first
      generalize hfirst : (if (pkt.cmd.needsWritable || pkt.isCacheInvalidate) = true then
        { m with deferredTargets := m.deferredTargets.replaceUpgrades } else m) = m₁ at hm
      have h₁ : m₁.FlagsKept := by
        rw [← hfirst]
        split
        · exact ⟨h.targets, h.deferred.replaceUpgrades⟩
        · exact h
      split at hm
      · cases hm
      · split at hm
        · cases hm
          exact h₁
        · generalize hs : (if (m₁.pendingModified || pkt.cmd.isInvalidate) = true then m₁.saveSnoop curTick pkt order
            else (m₁, pkt)) = out at hm
          have hout : out.1.FlagsKept := by
            rw [← hs]
            split
            · exact h₁.saveSnoop ..
            · exact h₁
          split at hm
          · cases hm
            exact ⟨hout.targets, hout.deferred⟩
          · cases hm
            exact hout

end

theorem left_of_extractSnoops : ∀ {ts ready left : List Target}, extractSnoops ts = .ok (ready, left) → left ⊆ ts
  | [], ready, left, h => by
    cases h
    exact List.Subset.refl []
  | t :: ts, ready, left, h => by
    rw [extractSnoops] at h
    cases hrec : extractSnoops ts with
    | error e =>
      rw [hrec] at h
      cases h
    | ok res =>
      have ih := left_of_extractSnoops hrec
      rw [hrec] at h
      dsimp only at h
      split at h
      · cases h
        exact List.cons_subset_cons t ih
      · split at h
        · cases h
          exact List.subset_cons_of_subset t ih
        · cases h

theorem FlagsKept.extractServiceableTargets (h : m.FlagsKept) {cmd : MemCmd} {ready : TargetList}
    (hm : m.extractServiceableTargets cmd = .ok (m', ready)) : m'.FlagsKept := by
  unfold MSHR.extractServiceableTargets at hm
  split at hm
  · split at hm
    · cases hm
    · rename_i t ts hlist
      split at hm
      · cases hm
      · cases hrec : extractSnoops ts with
        | error e =>
          rw [hrec] at hm
          cases hm
        | ok res =>
          rw [hrec] at hm
          cases hm
          refine ⟨.populateFlags fun t' ht' => h.targets.asks t' ?_, h.deferred⟩
          rw [hlist]
          exact List.mem_cons_of_mem t (left_of_extractSnoops hrec ht')
  · cases hm
    refine ⟨.populateFlags fun t ht => ?_, h.deferred⟩
    cases ht

theorem FlagsKept.promoteDeferredTargets (h : m.FlagsKept) {curTick : Nat} {b : Bool}
    (hm : m.promoteDeferredTargets curTick = .ok (m', b)) : m'.FlagsKept := by
  have hparts : ∀ t, t ∈ m.promotable.1 ∨ t ∈ m.promotable.2 → t.Asks := fun t ht =>
    h.deferred.asks t (promotable_append m ▸ List.mem_append.mpr ht)
  unfold MSHR.promoteDeferredTargets at hm
  split at hm
  · cases hm
    exact h
  · dsimp only at hm
    split at hm
    · cases hm
    · cases hm
      refine ⟨.populateFlags fun t ht => ?_, .populateFlags fun t ht => hparts t (.inr ht)⟩
      rcases List.mem_append.mp ht with ht | ht
      · exact h.targets.asks t ht
      · exact hparts t (.inl ht)

/-- The flags of the targets are left as they are. -/
theorem promoteIf_flags {pred : Target → Bool} (ha : ∀ t ∈ m.targets.list, t.Asks) (hd : m.deferredTargets.Kept)
    (hm : m.promoteIf pred = .ok m') :
    m'.targets = { m.targets with
      list := m.targets.list ++ TargetList.unmark (m.deferredTargets.list.takeWhile pred) } ∧
      (∀ t ∈ m'.targets.list, t.Asks) ∧ m'.deferredTargets.Kept := by
  unfold promoteIf at hm
  split at hm
  · cases hm
  · dsimp only at hm
    split at hm
    · cases hm
    · cases hm
      refine ⟨rfl, fun t ht => ?_, .populateFlags fun t ht => hd.asks t ((List.dropWhile_sublist pred).subset ht)⟩
      rcases List.mem_append.mp ht with ht | ht
      · exact ha t ht
      · exact TargetList.asks_unmark (fun t ht => hd.asks t ((List.takeWhile_sublist pred).subset ht)) t ht

/-- What `promoteReadable` moves. -/
def readable (m : MSHR) : List Target :=
  m.deferredTargets.list.takeWhile fun t => !t.pkt.isCacheInvalidate && !t.pkt.cmd.needsWritable

/-- What `promoteWritable` moves. -/
def writable (m : MSHR) : List Target := m.deferredTargets.list.takeWhile fun t => !t.pkt.isCacheInvalidate

/-- `promoteWritable` moves targets. -/
def PromotesWritable (m : MSHR) : Prop :=
  m.deferredTargets.needsWritable = true ∧ m.postInvalidate = false ∧ m.postDowngrade = false ∧ m.writable ≠ []

/-- The promoted targets raise the flags that the targets have, and no others. -/
def Covered (m : MSHR) : MshrOp → Prop
  | .promoteReadable => m.postInvalidate = false → ∀ f, ∀ t ∈ m.readable, t.raises f = true → m.targets.has f = true
  | .promoteWritable =>
    m.PromotesWritable → (∃ t ∈ m.writable, t.raises .needsWritable = true) ∧
      ∀ f, f ≠ .needsWritable → ∀ t ∈ m.writable, t.raises f = true → m.targets.has f = true
  | _ => True

instance (m : MSHR) : DecidablePred m.Covered := fun op => by
  unfold Covered PromotesWritable
  cases op <;> infer_instance

theorem FlagsKept.promoteReadable (h : m.FlagsKept) (hm : m.promoteReadable = .ok m') :
    m'.deferredTargets.Kept ∧ (∀ t ∈ m'.targets.list, t.Asks) ∧ (m'.targets.Exact ↔ m.Covered .promoteReadable) := by
  unfold MSHR.promoteReadable at hm
  split at hm
  · rename_i hnil
    cases hm
    have hread : m.readable = [] := by rw [readable, List.isEmpty_iff.mp hnil, List.takeWhile_nil]
    refine ⟨h.deferred, h.targets.asks, iff_of_true h.targets.exact fun _ f t ht => ?_⟩
    rw [hread] at ht
    cases ht
  · split at hm
    · cases hm
    · split at hm
      · rename_i hpost
        cases hm
        exact ⟨h.deferred, h.targets.asks, iff_of_true h.targets.exact fun hno => by simp [hno] at hpost⟩
      · rename_i hpost
        obtain ⟨ht, ha, hd⟩ := promoteIf_flags h.targets.asks h.deferred hm
        refine ⟨hd, ha, ?_⟩
        have hhas : ∀ f, m'.targets.has f = m.targets.has f := by
          intro f
          rw [ht]
          cases f <;> rfl
        rw [h.targets.exact.append_iff (congrArg TargetList.list ht)]
        simp only [hhas]
        constructor
        · intro hall _ f t hmem hraises
          have hany : m.readable.any (·.raises f) = true := List.any_eq_true.mpr ⟨t, hmem, hraises⟩
          rw [hall f, Bool.or_eq_true]
          exact .inr hany
        · intro hcov f
          refine (TargetList.or_any_eq_left fun t hmem hraises => ?_).symm
          exact hcov (Bool.eq_false_iff.mpr hpost) f t hmem hraises

theorem promoteWritable_cases (hm : m.promoteWritable = .ok m') :
    (m = m' ∧ ¬m.PromotesWritable) ∨ (m.PromotesWritable ∧ m.targets.needsWritable = false ∧
      { m with targets := { m.targets with needsWritable := true } }.promoteIf (fun t => !t.pkt.isCacheInvalidate) =
        .ok m') := by
  unfold MSHR.promoteWritable at hm
  split at hm
  · rename_i hneeds
    exact .inl ⟨Except.ok.inj hm, fun hp => by simp [hp.1] at hneeds⟩
  · rename_i hneeds
    split at hm
    · cases hm
    · split at hm
      · rename_i hpost
        exact .inl ⟨Except.ok.inj hm, fun hp => by simp [hp.2.1, hp.2.2.1] at hpost⟩
      · rename_i hpost
        simp only [Bool.or_eq_true, not_or, Bool.not_eq_true, Bool.not_eq_false'] at hpost hneeds
        split at hm
        · cases hm
        · rename_i def_tgt ts hlist
          split at hm
          · rename_i hinv
            refine .inl ⟨Except.ok.inj hm, fun hp => hp.2.2.2 ?_⟩
            rw [writable, hlist, List.takeWhile_cons_of_neg (by simp [hinv])]
          · rename_i hinv
            split at hm
            · cases hm
            · rename_i hnot
              refine .inr ⟨⟨hneeds, hpost.1, hpost.2, ?_⟩, Bool.eq_false_iff.mpr hnot, hm⟩
              rw [writable, hlist, List.takeWhile_cons_of_pos (by simp [hinv])]
              exact List.cons_ne_nil def_tgt _

/-- The flag for a writable block is set by hand. -/
theorem FlagsKept.promoteWritable (h : m.FlagsKept) (hm : m.promoteWritable = .ok m') :
    m'.deferredTargets.Kept ∧ (∀ t ∈ m'.targets.list, t.Asks) ∧ (m'.targets.Exact ↔ m.Covered .promoteWritable) := by
  rcases promoteWritable_cases hm with ⟨rfl, hnot⟩ | ⟨hp, hfalse, hm⟩
  · exact ⟨h.deferred, h.targets.asks, iff_of_true h.targets.exact fun hp => absurd hp hnot⟩
  obtain ⟨ht, ha, hd⟩ := promoteIf_flags (m := { m with targets := { m.targets with needsWritable := true } })
    h.targets.asks h.deferred hm
  refine ⟨hd, ha, ?_⟩
  have hhas : ∀ f, m'.targets.has f = (decide (f = .needsWritable) || m.targets.has f) := by
    intro f
    rw [ht]
    cases f <;> rfl
  have hwrite : (m.targets.has .needsWritable || m.writable.any (·.raises .needsWritable)) =
      m.writable.any (·.raises .needsWritable) := by
    have hhas' : m.targets.has .needsWritable = false := hfalse
    rw [hhas', Bool.false_or]
  rw [h.targets.exact.append_iff (congrArg TargetList.list ht)]
  constructor
  · intro hall _
    refine ⟨List.any_eq_true.mp ?_, fun f hf t hmem hraises => ?_⟩
    · rw [← hwrite]
      exact (hall .needsWritable).symm.trans (hhas .needsWritable)
    · have hany : m.writable.any (·.raises f) = true := List.any_eq_true.mpr ⟨t, hmem, hraises⟩
      have hother := hall f
      rw [hhas, decide_eq_false hf, Bool.false_or] at hother
      rw [hother, Bool.or_eq_true]
      exact .inr hany
  · intro hcov f
    obtain ⟨hsome, hother⟩ := hcov hp
    rw [hhas]
    by_cases hf : f = .needsWritable
    · subst hf
      exact (hwrite.trans (List.any_eq_true.mpr hsome)).symm
    · rw [decide_eq_false hf, Bool.false_or]
      exact (TargetList.or_any_eq_left (hother f hf)).symm

end Kept

end MSHR

/-- The operations that keep the flags, with packets for which `needsWritable` meets its assertion; `popTarget` takes a
target out and leaves the flags. -/
def MshrOp.Called : MshrOp → Prop
  | .allocate _ _ target _ _ _ => target.cmd.isRequest = true
  | .allocateTarget pkt _ _ _ => pkt.cmd.isRequest = true
  | .popTarget => False
  | _ => True

instance : DecidablePred MshrOp.Called := fun op => by
  unfold MshrOp.Called
  cases op <;> infer_instance

namespace Misses

theorem flags_apply {m m' : MSHR} (h : m.FlagsKept) {curTick : Nat} {op : MshrOp} {ready : List Target} (hc : op.Called)
    (happly : apply m curTick op = .ok (m', ready)) :
    m'.deferredTargets.Kept ∧ (∀ t ∈ m'.targets.list, t.Asks) ∧ (m'.targets.Exact ↔ m.Covered op) := by
  have hkept : m'.FlagsKept → m.Covered op →
      m'.deferredTargets.Kept ∧ (∀ t ∈ m'.targets.list, t.Asks) ∧ (m'.targets.Exact ↔ m.Covered op) :=
    fun h' hcov => ⟨h'.deferred, h'.targets.asks, iff_of_true h'.targets.exact hcov⟩
  cases op with
  | allocate blk_addr blk_size target when_ready order alloc_on_fill =>
    simp only [apply] at happly
    split at happly
    · cases happly
    · rename_i hnone
      cases happly
      exact hkept (.allocate (not_ne_iff.mp hnone) blk_addr blk_size hc when_ready order alloc_on_fill) trivial
  | allocateTarget pkt whenReady order alloc_on_fill =>
    obtain ⟨m₁, hm, heq⟩ := ok_of_map happly
    cases heq
    exact hkept (h.allocateTarget hc hm) trivial
  | handleSnoop pkt order =>
    obtain ⟨⟨m₁, pkt', b⟩, hm, heq⟩ := ok_of_map happly
    cases heq
    exact hkept (h.handleSnoop hm) trivial
  | extractServiceableTargets cmd =>
    obtain ⟨⟨m₁, ready'⟩, hm, heq⟩ := ok_of_map happly
    cases heq
    exact hkept (h.extractServiceableTargets hm) trivial
  | promoteDeferredTargets =>
    obtain ⟨⟨m₁, b⟩, hm, heq⟩ := ok_of_map happly
    cases heq
    exact hkept (h.promoteDeferredTargets hm) trivial
  | promoteReadable =>
    obtain ⟨m₁, hm, heq⟩ := ok_of_map happly
    cases heq
    exact h.promoteReadable hm
  | promoteWritable =>
    obtain ⟨m₁, hm, heq⟩ := ok_of_map happly
    cases heq
    exact h.promoteWritable hm
  | popTarget => exact absurd hc id
  | markInService pending_modified_resp =>
    obtain ⟨m₁, hm, heq⟩ := ok_of_map happly
    cases heq
    exact hkept (h.markInService hm) trivial
  | deallocate =>
    obtain ⟨m₁, hm, heq⟩ := ok_of_map happly
    cases heq
    exact hkept (h.deallocate hm) trivial
  | clearDownstreamPending =>
    obtain ⟨m₁, hm, heq⟩ := ok_of_map happly
    cases heq
    exact hkept (h.clearDownstreamPending hm) trivial
  | markPending =>
    simp only [apply] at happly
    split at happly
    · cases happly
      exact hkept ⟨h.targets, h.deferred⟩ trivial
    · cases happly
  | downstreamPending =>
    simp only [apply] at happly
    split at happly
    · cases happly
    · cases happly
      exact hkept ⟨h.targets, h.deferred⟩ trivial
  | forward isForward =>
    cases happly
    exact hkept ⟨h.targets, h.deferred⟩ trivial

theorem flags_step {s s' : Misses} (h : s.mshr.FlagsKept) {e : Nat × MshrOp} (hc : e.2.Called)
    (hs : step s e = some s') :
    s'.mshr.deferredTargets.Kept ∧ (∀ t ∈ s'.mshr.targets.list, t.Asks) ∧
    (s'.mshr.targets.Exact ↔ s.mshr.Covered e.2) := by
  obtain ⟨⟨m, ready⟩, hm, rfl⟩ := Option.map_eq_some_iff.mp hs
  exact flags_apply h hc (ok_of_toOption hm)

/-- **The flags are exact**: in a run in which what is promoted raises no flag that the targets lack, and for
`promoteWritable` one of the promoted targets needs a writable block, the flags of both lists are those that
`populateFlags` would compute; the next operation keeps them so exactly if it meets this condition too. -/
theorem flags_exact {s : Misses} (h : misses.ReachableWhen (fun s e => e.2.Called ∧ s.mshr.Covered e.2) s) :
    (s.mshr.targets.Exact ∧ s.mshr.deferredTargets.Exact) ∧
      ∀ e s', e.2.Called → misses.step s e = some s' →
        (s'.mshr.targets.Exact ∧ s'.mshr.deferredTargets.Exact ↔ s.mshr.Covered e.2) := by
  have hinv : s.mshr.FlagsKept := by
    refine System.invariantWhen (I := fun s : Misses => s.mshr.FlagsKept) ?_ ?_ h
    · rintro s rfl
      have hempty : TargetList.empty.Kept :=
        ⟨fun f => by cases f <;> rfl, fun t ht => by cases ht⟩
      exact ⟨hempty, hempty⟩
    · intro s e s' _ hs hC hstep
      obtain ⟨hd, ha, hiff⟩ := flags_step hs hC.1 hstep
      exact ⟨⟨hiff.mpr hC.2, ha⟩, hd⟩
  refine ⟨⟨hinv.targets.exact, hinv.deferred.exact⟩, fun e s' hc hstep => ?_⟩
  obtain ⟨hd, _, hiff⟩ := flags_step hinv hc hstep
  exact (and_iff_left hd.exact).trans hiff

/-- A write is deferred, and promoted as the block that comes is writable. -/
theorem flags_exact_writable : ∃ s : Misses, (s.mshr.targets.needsWritable = true ∧
    cpuIds s.mshr.targets.list = [1, 2]) ∧ s.mshr.targets.Exact ∧ s.mshr.deferredTargets.Exact := by
  obtain ⟨s, hs, hp⟩ := System.reachableWhen_of_replay (S := misses)
    (C := fun s e => decide (e.2.Called ∧ s.mshr.Covered e.2)) (show misses.init start from rfl)
    [(0, .allocate 0 64 (missPacket 1 .ReadSharedReq) 5 0 true), (5, .markInService false),
      (6, .allocateTarget (missPacket 2 .ReadExReq) 6 1 true), (9, .promoteWritable)]
    (fun s => s.mshr.targets.needsWritable = true ∧ cpuIds s.mshr.targets.list = [1, 2]) (by decide +kernel)
  exact ⟨s, hp, (flags_exact (hs.mono fun _ _ => of_decide_eq_true)).1⟩

/-- A read waits for the cleaning of a block that the cache keeps; it is promoted, and that it allocates on a fill is
lost. -/
theorem promoted_flag_lost : ¬∀ s, misses.ReachableWhen (fun _ e => e.2.Called) s →
    s.mshr.targets.Exact ∧ s.mshr.deferredTargets.Exact := by
  intro hall
  obtain ⟨s, hs, hflag, hpop⟩ := System.reachableWhen_of_replay (S := misses) (C := fun _ e => decide e.2.Called)
    (show misses.init start from rfl)
    [(0, .allocate 0 64 { missPacket 1 .CleanSharedReq with clean := true } 5 0 false),
      (3, .allocateTarget (missPacket 2 .ReadReq) 3 1 true), (5, .markInService false), (9, .promoteReadable)]
    (fun s => s.mshr.targets.has .allocOnFill = false ∧ s.mshr.targets.populateFlags.has .allocOnFill = true)
    (by decide +kernel)
  have hexact := (hall s (hs.mono fun _ _ => of_decide_eq_true)).1 .allocOnFill
  rw [hflag, hpop] at hexact
  cases hexact

end Misses

end Salam.Mem
