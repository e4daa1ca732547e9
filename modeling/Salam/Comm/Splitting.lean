import Salam.Comm.Ownership
import Salam.Comm.Pieces
import Salam.Lib.Trace

/-!
# The packets of a request

The packets that were issued for a request are the first of its `pieces`, and what is left of the request is cut into
the others (`Cut.cut`). One packet is out at a time, so the answers come in the order of the packets, and the buffer of
a read is what they brought, followed by zeros.

* `request_splitting`: the packets cut the request exactly, and at the commit every byte was read or written.
-/

namespace Salam.Comm

/-- A packet with the data of its response. -/
abbrev Answer := Packet × List Byte

/-- The interface, and the responses so far. -/
structure Watched where
  s : St
  answers : List Answer

/-- The packet that the event answers. -/
def answered (s : St) : Ev → List Answer
  | .response id data => ((s.inFlight.find? fun k => k.id = id).map fun k => (k, data)).toList
  | _ => []

/-- The runs of the interface with the responses written down. -/
def watched (cfg : Config) : System Watched Ev where
  init w := w = ⟨.start, []⟩
  step w e := (w.s.step cfg e).map fun s' => ⟨s', w.answers ++ answered w.s e⟩

/-- The first address and the size. -/
def Packet.piece (k : Packet) : Word × Nat := (k.addr, k.size)

def Event.issued (r : Nat) : Event → Option Packet
  | .issue k => if k.req = r then some k else none
  | _ => none

/-- The packets of the request. -/
def St.issued (s : St) (r : Nat) : List Packet := s.log.filterMap (Event.issued r)

/-- The answers to the packets of the request. -/
def answersTo (as : List Answer) (r : Nat) : List Answer := as.filter fun x => x.1.req = r

/-- The bytes of the packets. -/
def sizeOf (ks : List Packet) : Nat := bytes (ks.map Packet.piece)

/-- No `int` overflows on the `n` bytes from `a` on: they are fewer than `2 ^ 31`, and at no piece does the cache line
end exactly `2 ^ 31` bytes further on. -/
def Counted (line : Nat) (a : Word) (n : Nat) : Prop := n < 2 ^ 31 ∧ ∀ x ∈ pieces line a n, lineEnd line x.1 ≠ 2 ^ 31

/-- A read has the bytes that its constructor fills, and no request lets an `int` overflow. -/
def Call.counted (line : Nat) : Call → Prop
  | .enqueueRead add len => 8 ≤ len ∧ Counted line add len
  | .enqueueWrite add data => Counted line add data.length
  | .finish => True

/-- The requests that the event makes can be counted. -/
def Ev.counted (line : Nat) : Ev → Prop
  | .call c => c.counted line
  | .tick calls _ => ∀ c ∈ calls, c.counted line
  | _ => True

/-- How far the request `r` is: `ks` are its packets and `as` the answers to them. -/
structure CutBy (line : Nat) (q : MemoryRequest) (ks : List Packet) (as : List Answer) : Prop where
  counted : Counted line q.address q.length
  filled : q.dir = .read → 8 ≤ q.length
  cut : ks.map Packet.piece ++ pieces line q.current q.left = pieces line q.address q.length
  dir : ∀ k ∈ ks, k.dir = q.dir
  buffer_length : q.buffer.length = q.length
  data : q.dir = .write → Ordered (fun before k => k.data = (q.buffer.drop (sizeOf before)).take k.size) ks
  size : q.dir = .read → ∀ x ∈ as, x.2.length = x.1.size
  buffer : q.dir = .read →
    q.buffer = (as.map Prod.snd).flatten ++ List.replicate (q.length - sizeOf (as.map Prod.fst)) 0
  readsDone : q.dir = .read → q.readsDone =
    List.replicate (sizeOf (as.map Prod.fst)) true ++ List.replicate (q.length - sizeOf (as.map Prod.fst)) false
  done : q.done = sizeOf (as.map Prod.fst)

@[simp] theorem sizeOf_append (ks ks' : List Packet) : sizeOf (ks ++ ks') = sizeOf ks + sizeOf ks' := by simp [sizeOf]

@[simp] theorem sizeOf_singleton (k : Packet) : sizeOf [k] = k.size := by simp [sizeOf, Packet.piece]

namespace CutBy

variable {line : Nat} {q : MemoryRequest} {ks : List Packet} {as : List Answer} {k : Packet}

theorem forRead {a : Word} {n : Nat} (h : 8 ≤ n ∧ Counted line a n) : CutBy line (.forRead a n) [] [] where
  counted := h.2
  filled := fun _ => h.1
  cut := rfl
  dir := fun _ hk => absurd hk List.not_mem_nil
  buffer_length := List.length_replicate
  data := fun hd => nomatch hd
  size := fun _ _ hx => absurd hx List.not_mem_nil
  buffer := fun _ => rfl
  readsDone := fun _ => rfl
  done := rfl

theorem forWrite {a : Word} {data : List Byte} (h : Counted line a data.length) :
    CutBy line (.forWrite a data) [] [] where
  counted := h
  filled := fun hd => nomatch hd
  cut := rfl
  dir := fun _ hk => absurd hk List.not_mem_nil
  buffer_length := rfl
  data := fun _ => .nil
  size := fun hd => nomatch hd
  buffer := fun hd => nomatch hd
  readsDone := fun hd => nomatch hd
  done := rfl

/-- The packets and the rest have all the bytes. -/
theorem sizeOf_add_left (h : CutBy line q ks as) (hpos : 0 < line) : sizeOf ks + q.left = q.length := by
  have hsum := congrArg bytes h.cut
  rwa [bytes_append, bytes_pieces hpos, bytes_pieces hpos] at hsum

theorem sent (h : CutBy line q ks as) (hpos : 0 < line) (hleft : 0 < q.left) (hdir : k.dir = q.dir)
    (haddr : k.addr = q.current)
    (hsize : k.size = chunk line q.current q.left)
    (hdata : q.dir = .write → k.data = (q.buffer.drop (q.length - q.left)).take k.size) (p : Option Nat) :
    CutBy line (({ q with port := p } : MemoryRequest).sent k) (ks ++ [k]) as where
  counted := h.counted
  filled := h.filled
  cut := by
    have hpiece : k.piece = (q.current, chunk line q.current q.left) := Prod.ext haddr hsize
    have hcut := h.cut
    rw [pieces_cons hpos q.current hleft, ← hpiece, ← hsize] at hcut
    rw [List.map_append, List.append_assoc, List.map_singleton]
    exact hcut
  dir := fun k' hk' => by
    rcases List.mem_append.mp hk' with hk' | hk'
    · exact h.dir k' hk'
    · rw [List.mem_singleton.mp hk']
      exact hdir
  buffer_length := h.buffer_length
  data := fun hd => (h.data hd).concat <| by
    have hsum := h.sizeOf_add_left hpos
    rw [hdata hd]
    congr 2
    omega
  size := h.size
  buffer := h.buffer
  readsDone := h.readsDone
  done := h.done

/-- The last packet starts after the others. -/
theorem addr_of_concat (h : CutBy line q (ks ++ [k]) as) (hpos : 0 < line) :
    k.addr = q.address + BitVec.ofNat 64 (sizeOf ks) ∧ sizeOf ks + k.size ≤ q.length := by
  have hcut := h.cut
  rw [List.map_append, List.append_assoc] at hcut
  obtain ⟨haddr, -, -⟩ := pieces_at hpos q.address q.length hcut.symm
  have hsum := h.sizeOf_add_left hpos
  rw [sizeOf_append, sizeOf_singleton] at hsum
  exact ⟨haddr, by omega⟩

theorem offset_of_concat (h : CutBy line q (ks ++ [k]) as) (hpos : 0 < line) :
    (k.addr - q.address).toNat = sizeOf ks := by
  obtain ⟨haddr, hle⟩ := h.addr_of_concat hpos
  have hlt := h.counted.1
  rw [haddr, add_sub_cancel_left, BitVec.toNat_ofNat]
  exact Nat.mod_eq_of_lt (by omega)

end CutBy

theorem overwrite_append {α : Type*} {l : List α} {off : Nat} (h : l.length = off) (data : List α) (c : Nat) (x : α) :
    overwrite (l ++ List.replicate c x) off data = l ++ data ++ List.replicate (c - data.length) x := by
  subst h
  simp [overwrite, List.drop_append]

/-- `readDone` moves to the first byte that is not there. -/
theorem advance_eq {m n fuel : Nat} (hmn : m ≤ n) : ∀ {done : Nat}, done ≤ m → m - done ≤ fuel →
    advance (List.replicate m true ++ List.replicate (n - m) false) n fuel done = m := by
  induction fuel with
  | zero =>
    intro done hle hfuel
    have hdone : done = m := by omega
    exact hdone
  | succ fuel ih =>
    intro done hle hfuel
    unfold advance
    by_cases hlt : done < m
    · rw [if_pos ⟨by omega, by simp [List.getElem?_append, hlt]⟩]
      exact ih hlt (by omega)
    · obtain rfl : done = m := by omega
      refine if_neg fun hc => ?_
      have hbit := hc.2
      simp [List.getElem?_append, List.getElem?_replicate] at hbit

theorem length_flatten {as : List Answer} (hsize : ∀ x ∈ as, x.2.length = x.1.size) :
    (as.map Prod.snd).flatten.length = sizeOf (as.map Prod.fst) := by
  induction as with
  | nil => rfl
  | cons x as ih =>
    have hx := hsize x List.mem_cons_self
    have hrest := ih fun y hy => hsize y (List.mem_cons_of_mem _ hy)
    simp only [List.map_cons, List.flatten_cons, List.length_append, hrest, hx]
    simp [sizeOf, Packet.piece]

namespace CutBy

variable {line : Nat} {q : MemoryRequest} {as : List Answer} {k : Packet} {data : List Byte}

/-- What the answer to the last packet does to the data of a read. -/
theorem receive_read (h : CutBy line q (as.map Prod.fst ++ [k]) as) (hpos : 0 < line) (hq : q.dir = .read)
    (hlen : data.length = k.size) : q.receive k data = { q with
      buffer := (as.map Prod.snd).flatten ++ data ++ List.replicate (q.length - (sizeOf (as.map Prod.fst) + k.size)) 0
      readsDone := List.replicate (sizeOf (as.map Prod.fst) + k.size) true ++
        List.replicate (q.length - (sizeOf (as.map Prod.fst) + k.size)) false
      done := sizeOf (as.map Prod.fst) + k.size } := by
  have hdir : k.dir = .read := (h.dir k (by simp)).trans hq
  have hoff := h.offset_of_concat hpos
  obtain ⟨-, hle⟩ := h.addr_of_concat hpos
  have hbuffer : overwrite q.buffer (sizeOf (as.map Prod.fst)) data =
      (as.map Prod.snd).flatten ++ data ++ List.replicate (q.length - (sizeOf (as.map Prod.fst) + k.size)) 0 := by
    rw [h.buffer hq, overwrite_append (length_flatten (h.size hq)), hlen, Nat.sub_sub]
  have hmarks : overwrite q.readsDone (sizeOf (as.map Prod.fst)) (List.replicate k.size true) =
      List.replicate (sizeOf (as.map Prod.fst) + k.size) true ++
        List.replicate (q.length - (sizeOf (as.map Prod.fst) + k.size)) false := by
    rw [h.readsDone hq, overwrite_append List.length_replicate, List.length_replicate, Nat.sub_sub,
      List.replicate_append_replicate]
  have hdone : q.done ≤ sizeOf (as.map Prod.fst) + k.size := by
    rw [h.done]
    exact Nat.le_add_right ..
  simp only [MemoryRequest.receive, hdir, hoff, hbuffer, hmarks]
  rw [advance_eq hle hdone (by omega)]

/-- **The answer to the last packet extends what has been read.** -/
theorem receive (h : CutBy line q (as.map Prod.fst ++ [k]) as) (hpos : 0 < line)
    (hdata : k.dir = .read → data.length = k.size) :
    CutBy line (q.receive k data) ((as ++ [(k, data)]).map Prod.fst) (as ++ [(k, data)]) := by
  have hdir : k.dir = q.dir := h.dir k (by simp)
  obtain ⟨-, hle⟩ := h.addr_of_concat hpos
  have hks : (as ++ [(k, data)]).map Prod.fst = as.map Prod.fst ++ [k] := by simp
  have hsize : sizeOf ((as ++ [(k, data)]).map Prod.fst) = sizeOf (as.map Prod.fst) + k.size := by
    rw [hks, sizeOf_append, sizeOf_singleton]
  cases hq : q.dir with
  | write =>
    have hrec : q.receive k data = { q with done := q.done + k.size } := by
      simp [MemoryRequest.receive, hdir, hq]
    rw [hrec, hks]
    exact ⟨h.counted, h.filled, h.cut, h.dir, h.buffer_length, h.data, fun hd => (nomatch hq.symm.trans hd),
      fun hd => (nomatch hq.symm.trans hd), fun hd => (nomatch hq.symm.trans hd), by rw [hsize, ← h.done]⟩
  | read =>
    have hlen := hdata (hdir.trans hq)
    have hflat := length_flatten (h.size hq)
    rw [h.receive_read hpos hq hlen]
    refine ⟨h.counted, h.filled, ?_, ?_, ?_, fun hd => (nomatch hq.symm.trans hd), fun _ x hx => ?_, fun _ => ?_,
      fun _ => ?_, ?_⟩
    · rw [hks]
      exact h.cut
    · rw [hks]
      exact h.dir
    · simp only [List.length_append, List.length_replicate, hflat, hlen]
      omega
    · rcases List.mem_append.mp hx with hx | hx
      · exact h.size hq x hx
      · rw [List.mem_singleton.mp hx]
        exact hlen
    · rw [hsize]
      simp
    · rw [hsize]
    · rw [hsize]

end CutBy

/-! ## The requests of a state -/

namespace St

/-- How far the request `r` is, and which of its packets is out. -/
structure Cut (line : Nat) (as : List Answer) (s : St) (r : Nat) : Prop where
  cutBy : CutBy line (s.reqs r) (s.issued r) (answersTo as r)
  idle : r ∉ s.acc (s.reqs r).dir → s.issued r = (answersTo as r).map Prod.fst
  out : ∀ k, s.Out k → k.req = r → s.issued r = (answersTo as r).map Prod.fst ++ [k]
  committed : ∀ d, s.commits d r ≠ 0 → (s.reqs r).left = 0

/-- All requests, and nothing about others. -/
structure Cuts (line : Nat) (as : List Answer) (s : St) : Prop where
  cut : ∀ r < s.nextReq, s.Cut line as r
  fresh : ∀ r, s.nextReq ≤ r → s.issued r = []
  answers : ∀ x ∈ as, x.1.req < s.nextReq

variable {line : Nat} {as as' : List Answer} {s s' : St} {r : Nat}

theorem Cut.congr (h : s.Cut line as r) (hreqs : s'.reqs r = s.reqs r) (hissued : s'.issued r = s.issued r)
    (has : answersTo as' r = answersTo as r) (hacc : ∀ d, r ∈ s.acc d → r ∈ s'.acc d)
    (hout : ∀ k, s'.Out k → k.req = r → s.Out k) (hcommits : ∀ d, s'.commits d r = s.commits d r) :
      s'.Cut line as' r := by
  refine ⟨?_, fun hr => ?_, fun k hk hreq => ?_, fun d hd => ?_⟩
  · rw [hreqs, hissued, has]
    exact h.cutBy
  · rw [hissued, has]
    rw [hreqs] at hr
    exact h.idle fun hin => hr (hacc _ hin)
  · rw [hissued, has]
    exact h.out k (hout k hk hreq) hreq
  · rw [hcommits] at hd
    rw [hreqs]
    exact h.committed d hd

/-- The flags, the schedule, and where a packet waits do not matter. -/
theorem Cuts.congr (h : s.Cuts line as) (hreqs : s'.reqs = s.reqs) (hn : s'.nextReq = s.nextReq)
    (hissued : ∀ r, s'.issued r = s.issued r) (hacc : s'.acc = s.acc) (hout : ∀ k, s'.Out k → s.Out k)
    (hcommits : ∀ d r, s'.commits d r = s.commits d r) : s'.Cuts line as where
  cut := fun r hr => (h.cut r (hn ▸ hr)).congr (by rw [hreqs]) (hissued r) rfl (fun d hd => by rwa [hacc])
    (fun k hk _ => hout k hk) fun d => hcommits d r
  fresh := fun r hr => by
    rw [hissued]
    exact h.fresh r (hn ▸ hr)
  answers := fun x hx => hn ▸ h.answers x hx

theorem answersTo_eq_nil (h : s.Cuts line as) (hr : s.nextReq ≤ r) : answersTo as r = [] := by
  refine List.filter_eq_nil_iff.mpr fun x hx he => ?_
  have hlt := h.answers x hx
  rw [of_decide_eq_true he] at hlt
  omega

theorem Cuts.enqueue (h : s.Cuts line as) (ho : s.Owned) {q : MemoryRequest} (hq : CutBy line q [] []) :
    (s.enqueue q).Cuts line as := by
  have hissued : ∀ r, (s.enqueue q).issued r = s.issued r := fun _ => rfl
  refine ⟨fun r hr => ?_, fun r hr => ?_, fun x hx => Nat.lt_succ_of_lt (h.answers x hx)⟩
  · by_cases hnew : r = s.nextReq
    · subst hnew
      have hreq : (s.enqueue q).reqs s.nextReq = q := by simp [St.enqueue, setQueue, schedule]
      have hks : (s.enqueue q).issued s.nextReq = [] := h.fresh _ (Nat.le_refl _)
      have has : answersTo as s.nextReq = [] := answersTo_eq_nil h (Nat.le_refl _)
      refine ⟨?_, fun _ => ?_, fun k hk hreq' => ?_, fun d hd => ?_⟩
      · rw [hreq, hks, has]
        exact hq
      · rw [hks, has]
        rfl
      · have hlt := (ho.own _ _ (.inr (.inl (ho.owner k hk).1))).1
        rw [hreq'] at hlt
        exact absurd hlt (Nat.lt_irrefl _)
      · exact absurd (ho.own d _ (.inr (.inr hd))).1 (Nat.lt_irrefl _)
    · have hlt : r < s.nextReq := Nat.lt_of_le_of_ne (Nat.le_of_lt_succ hr) hnew
      refine (h.cut r hlt).congr ?_ (hissued r) rfl (fun _ hd => hd) (fun _ hk _ => hk) fun _ => rfl
      simp [St.enqueue, setQueue, schedule, hnew]
  · rw [hissued]
    exact h.fresh r (Nat.le_of_succ_le hr)

theorem Cuts.call (h : s.Cuts line as) (ho : s.Owned) {c : Call} (hc : c.counted line) : (s.call c).Cuts line as := by
  cases c with
  | enqueueRead add len => exact h.enqueue ho (.forRead hc)
  | enqueueWrite add data => exact h.enqueue ho (.forWrite hc)
  | finish => exact h.congr rfl rfl (fun _ => rfl) rfl (fun _ hk => hk) fun _ _ => rfl

theorem Cuts.calls {calls : List Call} : ∀ {s : St}, s.Cuts line as → s.Owned → (∀ c ∈ calls, c.ok = true) →
    (∀ c ∈ calls, c.counted line) → (calls.foldl St.call s).Cuts line as := by
  induction calls with
  | nil => exact fun h _ _ _ => h
  | cons c calls ih =>
    intro s h ho hok hc
    exact ih (h.call ho (hc c List.mem_cons_self)) (ho.call (hok c List.mem_cons_self))
      (fun c' hc' => hok c' (List.mem_cons_of_mem _ hc')) fun c' hc' => hc c' (List.mem_cons_of_mem _ hc')

theorem Cuts.checkMMR (h : s.Cuts line as) (ho : s.Owned) {calls : List Call} (hok : ∀ c ∈ calls, c.ok = true)
    (hc : ∀ c ∈ calls, c.counted line) : (s.checkMMR calls).Cuts line as := by
  unfold St.checkMMR
  split
  · refine Cuts.calls ?_ ?_ hok hc
    · refine h.congr rfl rfl (fun r => ?_) rfl (fun _ hk => hk) fun d r => ?_
      · simp [issued, emit, Event.issued]
      · simp [commits, emit]
    · refine ho.congr rfl rfl (Nat.le_refl _) rfl rfl rfl rfl rfl fun d r => ?_
      simp [commits, emit]
  · exact h

section Tick

variable {cfg : Config} {env : Env} {d : Dir} {p : Nat} {kept rest : List Nat}

/-- **A packet that is made is the next piece of its request.** -/
theorem Cuts.carry (h : s.Cuts cfg.cacheLineSize as) (ho : s.Owned) (hq : s.queue d = kept ++ r :: rest)
    (hp : choosePort cfg env s d r = .ok (some p)) :
    ((s.setQueue d (kept ++ rest)).carry cfg env d r p).Cuts cfg.cacheLineSize as := by
  have hr : r ∈ s.queue d := by rw [hq]; simp
  obtain ⟨hlt, hdir⟩ := ho.own d r (.inl hr)
  have hneed := ho.waiting d r hr
  have hleft := (ho.left r hlt).mp hneed
  obtain ⟨-, hst⟩ := choosePort_some hp
  obtain ⟨hs, hlog⟩ := sent_of_carry cfg env (s := s.setQueue d (kept ++ rest)) hneed hleft hst
  have hnext : (s.setQueue d (kept ++ rest)).nextPacket cfg d r = s.nextPacket cfg d r := rfl
  rw [hnext] at hlog
  generalize (s.setQueue d (kept ++ rest)).carry cfg env d r p = s' at hs hlog
  have hout : ∀ x, s'.Out x ↔ s.Out x ∨ x = s.nextPacket cfg d r := hs.out_iff hst
  have hissued : ∀ x, s'.issued x = s.issued x ++ if x = r then [s.nextPacket cfg d r] else [] := fun x => by
    unfold issued
    rw [hlog, List.filterMap_append]
    congr 1
    by_cases hx : x = r
    · subst hx
      simp [Event.issued, nextPacket]
    · simp [Event.issued, nextPacket, hx, Ne.symm hx]
  refine ⟨fun x hx => ?_, fun x hx => ?_, fun x hx => hs.nextReq ▸ h.answers x hx⟩
  · have hx : x < s.nextReq := by
      rw [hs.nextReq] at hx
      exact hx
    by_cases hxr : x = r
    · subst hxr
      have hcut := h.cut x hx
      have hidle : s.issued x = (answersTo as x).map Prod.fst := hcut.idle (hdir ▸ ho.not_acc hr)
      refine ⟨?_, fun hacc => ?_, fun k hk hreq => ?_, fun d' hd' => ?_⟩
      · rw [hs.reqs_self, hissued, if_pos rfl]
        refine hcut.cutBy.sent cfg.cacheLineSize_pos hleft hdir.symm rfl rfl (fun hw => ?_) (some p)
        rw [hdir] at hw
        subst hw
        rfl
      · rw [hs.dir_eq] at hacc
        exact absurd ((hs.mem_acc _ x).mpr (.inr ⟨rfl, hdir⟩)) hacc
      · rw [hissued, if_pos rfl, hidle]
        rcases (hout k).mp hk with hk | rfl
        · have hin := (ho.owner k hk).1
          rw [hreq] at hin
          exact absurd rfl (ho.ne_of_mem_acc hr hin)
        · rfl
      · rw [hs.commits] at hd'
        have hnone := hcut.committed d' hd'
        omega
    · refine (h.cut x hx).congr (hs.reqs_of_ne hxr) ?_ rfl (fun d' hd' => (hs.mem_acc d' x).mpr (.inl hd')) ?_ fun d' =>
        hs.commits d' x
      · rw [hissued, if_neg hxr, List.append_nil]
      · intro k hk hreq
        rcases (hout k).mp hk with hk | rfl
        · exact hk
        · exact absurd hreq.symm hxr
  · have hx : s.nextReq ≤ x := by
      rw [hs.nextReq] at hx
      exact hx
    have hne : x ≠ r := by omega
    rw [hissued, if_neg hne, List.append_nil]
    exact h.fresh x hx

theorem Cuts.process {kept todo : List Nat} (h : s.Cuts cfg.cacheLineSize as) (ho : s.Owned)
    (hq : s.queue d = kept ++ todo) (hp : process cfg env d kept todo s = .ok s') : s'.Cuts cfg.cacheLineSize as :=
  process_invariant Cuts.carry h ho hq hp

theorem Cuts.schedule (h : s.Cuts line as) : s.schedule.Cuts line as :=
  h.congr rfl rfl (fun _ => rfl) rfl (fun _ hk => hk) fun _ _ => rfl

theorem Cuts.rescheduleIfWaiting (h : s.Cuts line as) : s.rescheduleIfWaiting.Cuts line as := by
  unfold St.rescheduleIfWaiting
  split
  · exact h
  · exact h.schedule

theorem Cuts.tick (h : s.Cuts cfg.cacheLineSize as) (ho : s.Owned) {calls : List Call} (hok : ∀ c ∈ calls, c.ok = true)
    (hc : ∀ c ∈ calls, c.counted cfg.cacheLineSize) (ht : s.tick cfg env calls = .ok s') :
      s'.Cuts cfg.cacheLineSize as := by
  have hstart : ({ s with tickScheduled := false } : St).Cuts cfg.cacheLineSize as :=
    h.congr rfl rfl (fun _ => rfl) rfl (fun _ hk => hk) fun _ _ => rfl
  have hostart : ({ s with tickScheduled := false } : St).Owned :=
    ho.congr rfl rfl (Nat.le_refl _) rfl rfl rfl rfl rfl fun _ _ => rfl
  have hcheck := hstart.checkMMR hostart hok hc
  have hocheck := hostart.checkMMR hok
  simp only [St.tick] at ht
  split at ht
  · exact Except.ok.inj ht ▸ hcheck
  · unfold St.processMemoryRequests at ht
    split at ht
    · exact Except.ok.inj ht ▸ hcheck.rescheduleIfWaiting
    · split at ht
      · cases ht
      · rename_i s₁ h₁
        split at ht
        · cases ht
        · rename_i s₂ h₂
          have hread := hcheck.process hocheck rfl h₁
          have horead := hocheck.process rfl h₁
          have hwrite := hread.process horead rfl h₂
          exact Except.ok.inj ht ▸ hwrite.rescheduleIfWaiting

end Tick

theorem Cuts.resend {env : Env} {p : Nat} {ks : List Packet} : ∀ {s : St}, s.Cuts line as → s.outstandingPkts p = ks →
    (resend env p ks s).Cuts line as := by
  induction ks with
  | nil => exact fun h _ => h
  | cons k rest ih =>
    intro s h hp
    unfold St.resend
    split
    · refine ih ?_ (Function.update_self ..)
      exact h.congr rfl rfl (fun _ => rfl) rfl (fun x hx => (out_accepted hp x).mp hx) fun _ _ => rfl
    · exact h

/-- **A response brings the bytes of the last packet.** -/
theorem Cuts.recvPacket (h : s.Cuts line as) (ho : s.Owned) (hpos : 0 < line) {k : Packet} (hk : k ∈ s.inFlight)
    {data : List Byte} (hdata : k.dir = .read → data.length = k.size)
    (hr : ({ s with inFlight := s.inFlight.erase k } : St).recvPacket k data = .ok s') :
    s'.Cuts line (as ++ [(k, data)]) := by
  have hacc := (ho.owner k (.inl hk)).1
  have hlt := (ho.own _ _ (.inr (.inl hacc))).1
  have hfind := ho.findMemRequest (.inl hk)
  have hport := ho.carried _ _ hacc
  have ha : s.Answered k s' := answered_of_recvPacket hfind hport hr
  obtain ⟨p, hp⟩ := Option.isSome_iff_exists.mp hport
  rw [recvPacket_eq (s := { s with inFlight := s.inFlight.erase k }) data hfind hp] at hr
  injection hr with hr
  have hreqs : s'.reqs = Function.update s.reqs k.req ((s.reqs k.req).receive k data) := by rw [← hr]
  have hissued : ∀ x, s'.issued x = s.issued x := fun x => by
    unfold issued
    rw [← hr]
    cases (s.reqs k.req).needTo <;> simp [Event.issued]
  have hout : ∀ x, s'.Out x ↔ s.Out x ∧ x ≠ k := ha.out_iff ho hk
  refine ⟨fun x hx => ?_, fun x hx => ?_, fun x hx => ?_⟩
  · by_cases hxk : x = k.req
    · subst hxk
      have hcut := h.cut k.req hlt
      have hks := hcut.out k (.inl hk) rfl
      have has : answersTo (as ++ [(k, data)]) k.req = answersTo as k.req ++ [(k, data)] := by simp [answersTo]
      have hall : s'.issued k.req = (answersTo (as ++ [(k, data)]) k.req).map Prod.fst := by
        rw [hissued, hks, has, List.map_append]
        rfl
      refine ⟨?_, fun _ => hall, fun k' hk' hreq => ?_, fun d hd => ?_⟩
      · rw [hall, has, hreqs, Function.update_self]
        have hcutBy := hcut.cutBy
        rw [hks] at hcutBy
        exact hcutBy.receive hpos hdata
      · obtain ⟨hk', hne⟩ := (hout k').mp hk'
        exact absurd (ho.eq_of_req hk' (.inl hk) hreq) hne
      · rw [ha.left]
        rw [ha.commits] at hd
        by_cases hold : s.commits d k.req = 0
        · rw [hold, Nat.zero_add] at hd
          split at hd
          · rename_i hnow
            have hneed := (ho.left k.req hlt).mpr.mt (by rw [hnow.2.2]; exact Bool.false_ne_true)
            omega
          · exact absurd rfl hd
        · exact hcut.committed d hold
    · have hx : x < s.nextReq := by rwa [ha.nextReq] at hx
      refine (h.cut x hx).congr ?_ (hissued x) ?_ (fun d hd => (ha.mem_acc ho d x).mpr ⟨hd, fun he => hxk he.2⟩)
        (fun k' hk' _ => ((hout k').mp hk').1) fun d => ?_
      · rw [hreqs, Function.update_of_ne hxk]
      · simp [answersTo, Ne.symm hxk]
      · rw [ha.commits, if_neg fun he => hxk he.2.1, Nat.add_zero]
  · rw [hissued]
    exact h.fresh x (ha.nextReq ▸ hx)
  · rw [ha.nextReq]
    rcases List.mem_append.mp hx with hx | hx
    · exact h.answers x hx
    · rw [List.mem_singleton.mp hx]
      exact hlt

end St

theorem cuts_of_reachable {cfg : Config} {w : Watched}
    (h : (watched cfg).ReachableWhen (fun _ e => e.counted cfg.cacheLineSize) w) :
    w.s.Owned ∧ w.s.Cuts cfg.cacheLineSize w.answers := by
  refine System.invariantWhen (I := fun w => w.s.Owned ∧ w.s.Cuts cfg.cacheLineSize w.answers) ?_ ?_ h
  · rintro w rfl
    exact ⟨St.owned_start, fun r hr => absurd hr (Nat.not_lt_zero r), fun _ _ => rfl,
      fun _ hx => absurd hx List.not_mem_nil⟩
  · rintro w e w' - ⟨ho, hcuts⟩ hC hstep
    obtain ⟨s', hs, rfl⟩ := Option.map_eq_some_iff.mp hstep
    refine ⟨ho.step hs, ?_⟩
    cases e with
    | call c =>
      simp only [St.step] at hs
      split at hs
      · obtain rfl := Option.some.inj hs
        simpa [answered] using hcuts.call ho hC
      · cases hs
    | tick calls env =>
      simp only [St.step] at hs
      split at hs
      · rename_i hc
        rw [Bool.and_eq_true, List.all_eq_true] at hc
        simpa [answered] using hcuts.tick ho hc.2 hC (ok_of_toOption hs)
      · cases hs
    | retry p env =>
      simp only [St.step] at hs
      split at hs
      · obtain rfl := Option.some.inj hs
        simpa [answered, St.recvReqRetry] using hcuts.resend rfl
      · cases hs
    | response id data =>
      simp only [St.step] at hs
      split at hs
      · rename_i k hk
        split at hs
        · rename_i hdata
          have hans : answered w.s (.response id data) = [(k, data)] := by simp [answered, hk]
          rw [hans]
          exact hcuts.recvPacket ho cfg.cacheLineSize_pos (List.mem_of_find?_eq_some hk) hdata (ok_of_toOption hs)
        · cases hs
      · cases hs
    | write flags =>
      obtain rfl := Option.some.inj hs
      have hflags : ({ w.s with mmreg := flags } : St).schedule.Cuts cfg.cacheLineSize w.answers :=
        hcuts.congr rfl rfl (fun _ => rfl) rfl (fun _ hk => hk) fun _ _ => rfl
      simpa [answered] using hflags

/-! ## Bytes -/

/-- The packets `ks` of the request `q` follow each other from its first byte on; none is empty, crosses a line or has a
byte that is not of the request. -/
structure Exact (line : Nat) (q : MemoryRequest) (ks : List Packet) : Prop where
  contiguous : Ordered (fun before k => k.addr = q.address + BitVec.ofNat 64 (sizeOf before)) ks
  increasing : q.address.toNat + q.length ≤ 2 ^ 64 → ks.Pairwise fun k k' => k.addr.toNat + k.size ≤ k'.addr.toNat
  nonempty : ∀ k ∈ ks, 0 < k.size
  aligned : ∀ k ∈ ks, k.addr.toNat / line = (k.addr.toNat + k.size - 1) / line
  inside : ∀ k ∈ ks, ∀ j < k.size, ∃ i < q.length, k.addr + BitVec.ofNat 64 j = q.address + BitVec.ofNat 64 i

/-- Every byte of the request was moved by one packet: the byte `x.2` of the packet number `x.1`. -/
structure Moved (q : MemoryRequest) (ks : List Packet) (as : List Answer) : Prop where
  answered : as.map Prod.fst = ks
  covered : ∀ i < q.length, ∃! x : Nat × Nat, ∃ k, ks[x.1]? = some k ∧ x.2 < k.size ∧
    k.addr + BitVec.ofNat 64 x.2 = q.address + BitVec.ofNat 64 i
  done : q.done = q.length
  read : q.dir = .read → ∀ i < q.length, ∃ x ∈ as, ∃ j b, x.1.addr + BitVec.ofNat 64 j = q.address + BitVec.ofNat 64 i ∧
    x.2[j]? = some b ∧ q.buffer[i]? = some b
  written : q.dir = .write → ∀ i < q.length, ∃ k ∈ ks, ∃ j b,
    k.addr + BitVec.ofNat 64 j = q.address + BitVec.ofNat 64 i ∧ k.data[j]? = some b ∧ q.buffer[i]? = some b

/-- The `memset` and the `int`s of the code give what the model says: in the constructor, for every packet, and for the
answer to the packet that is out. -/
structure IntsRight (line : Nat) (s : St) (r : Nat) (ks : List Packet) : Prop where
  read : (s.reqs r).dir = .read → ∀ raw : List Byte × List Bool,
    raw.1.length = (s.reqs r).length ∧ raw.2.length = (s.reqs r).length → initRead (s.reqs r).length raw =
      some ((MemoryRequest.forRead (s.reqs r).address (s.reqs r).length).buffer,
        (MemoryRequest.forRead (s.reqs r).address (s.reqs r).length).readsDone)
  write : (s.reqs r).dir = .write → ∀ raw : List Byte × List Bool,
    raw.1.length = (s.reqs r).length ∧ raw.2.length = (s.reqs r).length → initWrite (s.reqs r).buffer raw =
      some ((MemoryRequest.forWrite (s.reqs r).address (s.reqs r).buffer).buffer,
        (MemoryRequest.forWrite (s.reqs r).address (s.reqs r).buffer).readsDone)
  size : Ordered (fun before k => chunkInt line k.addr ((s.reqs r).length - sizeOf before) = some (k.size : Int)) ks
  marks : ∀ k, s.Out k → k.req = r → k.dir = .read →
    markDone (s.reqs r).readsDone (k.addr - (s.reqs r).address).toNat k.size =
    some (overwrite (s.reqs r).readsDone (k.addr - (s.reqs r).address).toNat (List.replicate k.size true))

theorem exists_packet {ks : List Packet} : ∀ i < sizeOf ks, ∃ ks₁ k ks₂,
    ks = ks₁ ++ k :: ks₂ ∧ sizeOf ks₁ ≤ i ∧ i < sizeOf ks₁ + k.size := by
  induction ks with
  | nil => exact fun i hi => absurd hi (Nat.not_lt_zero i)
  | cons k ks ih =>
    intro i hi
    have hcons : ∀ l : List Packet, sizeOf (k :: l) = k.size + sizeOf l := fun l => bytes_cons ..
    rw [hcons] at hi
    by_cases hk : i < k.size
    · exact ⟨[], k, ks, rfl, Nat.zero_le i, by simpa [sizeOf] using hk⟩
    · obtain ⟨ks₁, k', ks₂, rfl, hle, hlt⟩ := ih (i - k.size) (by omega)
      exact ⟨k :: ks₁, k', ks₂, rfl, by rw [hcons]; omega, by rw [hcons]; omega⟩

theorem sizeOf_take_add_le {ks : List Packet} {p p' : Nat} {k : Packet} (hk : ks[p]? = some k) (hlt : p < p') :
    sizeOf (ks.take p) + k.size ≤ sizeOf (ks.take p') := by
  have hnext : ks.take (p + 1) = ks.take p ++ [k] := by rw [List.take_add_one, hk]; rfl
  have hsplit : ks.take p' = ks.take (p + 1) ++ (ks.take p').drop (p + 1) := by
    nth_rewrite 1 [← List.take_append_drop (p + 1) (ks.take p')]
    rw [List.take_take, Nat.min_eq_left hlt]
  rw [hsplit, hnext, sizeOf_append, sizeOf_append, sizeOf_singleton]
  omega

theorem split_getElem {α : Type*} {l : List α} {p : Nat} {a : α} (h : l[p]? = some a) :
    l = l.take p ++ a :: l.drop (p + 1) := by
  obtain ⟨hp, rfl⟩ := List.getElem?_eq_some_iff.mp h
  rw [List.cons_getElem_drop_succ, List.take_append_drop]

namespace CutBy

variable {line : Nat} {q : MemoryRequest} {ks ks₁ ks₂ : List Packet} {as : List Answer} {k : Packet}

section

variable (h : CutBy line q ks as)
include h

/-- Where a packet starts and how long it is. -/
theorem packet_at (hpos : 0 < line) (hks : ks = ks₁ ++ k :: ks₂) :
    k.addr = q.address + BitVec.ofNat 64 (sizeOf ks₁) ∧ k.size = chunk line k.addr (q.length - sizeOf ks₁) ∧
      sizeOf ks₁ + k.size ≤ q.length := by
  have hcut := h.cut
  have hsum := h.sizeOf_add_left hpos
  rw [hks, List.map_append, List.map_cons, List.append_assoc] at hcut
  obtain ⟨haddr, hsize, -⟩ := pieces_at hpos q.address q.length hcut.symm
  have hcons : sizeOf (k :: ks₂) = k.size + sizeOf ks₂ := bytes_cons ..
  rw [hks, sizeOf_append, hcons] at hsum
  exact ⟨haddr, hsize, by omega⟩

theorem piece_mem (hk : k ∈ ks) : k.piece ∈ pieces line q.address q.length := by
  rw [← h.cut]
  exact List.mem_append_left _ (List.mem_map_of_mem hk)

theorem offset_inj {i j : Nat} (hi : i < q.length) (hj : j < q.length)
    (he : q.address + BitVec.ofNat 64 i = q.address + BitVec.ofNat 64 j) : i = j := by
  have hlt := h.counted.1
  have hnat := congrArg BitVec.toNat (add_left_cancel he)
  rwa [BitVec.toNat_ofNat, BitVec.toNat_ofNat, Nat.mod_eq_of_lt (by omega), Nat.mod_eq_of_lt (by omega)] at hnat

theorem addr_add (hpos : 0 < line) (hks : ks = ks₁ ++ k :: ks₂) (j : Nat) :
    k.addr + BitVec.ofNat 64 j = q.address + BitVec.ofNat 64 (sizeOf ks₁ + j) := by
  rw [(h.packet_at hpos hks).1, BitVec.add_assoc, BitVec.ofNat_add]

/-- **The packets cut the request exactly.** -/
theorem exact (hpos : 0 < line) : Exact line q ks where
  contiguous := fun _ _ _ hks => (h.packet_at hpos hks).1
  increasing := fun hwrap => by
    refine List.pairwise_iff_getElem.mpr fun i j hi hj hij => ?_
    have hki : ks[i]? = some ks[i] := List.getElem?_eq_getElem hi
    have hkj : ks[j]? = some ks[j] := List.getElem?_eq_getElem hj
    obtain ⟨haddri, -, -⟩ := h.packet_at hpos (split_getElem hki)
    obtain ⟨haddrj, -, hle⟩ := h.packet_at hpos (split_getElem hkj)
    have hpos := (pieces_mem hpos (h.piece_mem (List.getElem_mem hj))).1
    have hsize : 0 < ks[j].size := hpos
    have hstep := sizeOf_take_add_le hki hij
    have hnat : ∀ m < q.length, (q.address + BitVec.ofNat 64 m).toNat = q.address.toNat + m := fun m hm => by
      rw [BitVec.toNat_add, BitVec.toNat_ofNat]
      omega
    rw [haddri, haddrj, hnat _ (by omega), hnat _ (by omega)]
    omega
  nonempty := fun k hk => (pieces_mem hpos (h.piece_mem hk)).1
  aligned := fun k hk => by
    obtain ⟨hsize, hline⟩ := pieces_mem hpos (h.piece_mem hk)
    have hsize : 0 < k.size := hsize
    have hline : k.addr.toNat % line + k.size ≤ line := hline
    have hdiv := Nat.div_add_mod k.addr.toNat line
    refine (Nat.div_eq_of_lt_le ?_ ?_).symm
    · rw [Nat.mul_comm]
      omega
    · rw [Nat.add_mul, Nat.one_mul, Nat.mul_comm]
      omega
  inside := fun k hk j hj => by
    obtain ⟨ks₁, ks₂, hks⟩ := List.append_of_mem hk
    obtain ⟨-, -, hle⟩ := h.packet_at hpos hks
    exact ⟨sizeOf ks₁ + j, by omega, h.addr_add hpos hks j⟩

end

/-- The answers are as long as the packets. -/
theorem getElem_flatten {as₁ as₂ : List Answer} {x : Answer}
    (hsize : ∀ y ∈ as₁ ++ x :: as₂, y.2.length = y.1.size) {j : Nat}
    (hj : j < x.1.size) : (((as₁ ++ x :: as₂).map Prod.snd).flatten)[sizeOf (as₁.map Prod.fst) + j]? = x.2[j]? := by
  have hlen := length_flatten fun y hy => hsize y (List.mem_append_left _ hy)
  have hx := hsize x (by simp)
  rw [List.map_append, List.flatten_append, List.map_cons, List.flatten_cons,
    List.getElem?_append_right (by omega), hlen, Nat.add_sub_cancel_left, List.getElem?_append_left (by omega)]

/-- **When nothing is left and the last answer is there, every byte was moved.** -/
theorem moved (h : CutBy line q ks as) (hpos : 0 < line) (hleft : q.left = 0) (has : as.map Prod.fst = ks) :
    Moved q ks as := by
  have hall : sizeOf ks = q.length := by
    have hsum := h.sizeOf_add_left hpos
    omega
  refine ⟨has, fun i hi => ?_, by rw [h.done, has, hall], fun hd i hi => ?_, fun hd i hi => ?_⟩
  · obtain ⟨ks₁, k, ks₂, hks, hle, hlt⟩ := exists_packet i (hall ▸ hi)
    have hindex : ks[ks₁.length]? = some k := by rw [hks]; simp
    refine ⟨(ks₁.length, i - sizeOf ks₁), ⟨k, hindex, by dsimp only; omega, ?_⟩, ?_⟩
    · rw [h.addr_add hpos hks, Nat.add_sub_cancel' hle]
    · rintro ⟨p, j⟩ ⟨k', hk', hj, haddr⟩
      have hks' : ks = ks.take p ++ k' :: ks.drop (p + 1) := split_getElem hk'
      rw [h.addr_add hpos hks' j] at haddr
      obtain ⟨-, -, hle'⟩ := h.packet_at hpos hks'
      have hbyte : sizeOf (ks.take p) + j = i := h.offset_inj (by omega) hi haddr
      have hfirst : ks.take ks₁.length = ks₁ := by rw [hks]; simp
      -- two packets share no byte
      rcases Nat.lt_trichotomy p ks₁.length with hlt' | rfl | hgt
      · have hstep := sizeOf_take_add_le (p := p) hk' hlt'
        rw [hfirst] at hstep
        omega
      · rw [hfirst] at hbyte
        exact Prod.ext rfl (by dsimp only; omega)
      · have hstep := sizeOf_take_add_le hindex hgt
        rw [hfirst] at hstep
        omega
  · rw [← hall, ← has] at hi
    obtain ⟨ks₁, k, ks₂, hks, hle, hlt⟩ := exists_packet i hi
    obtain ⟨as₁, as', rfl, rfl, hrest⟩ := List.map_eq_append_iff.mp hks
    obtain ⟨x, as₂, rfl, rfl, rfl⟩ := List.map_eq_cons_iff.mp hrest
    have hlen : x.2.length = x.1.size := h.size hd x (by simp)
    have hj : i - sizeOf (as₁.map Prod.fst) < x.2.length := by omega
    refine ⟨x, by simp, i - sizeOf (as₁.map Prod.fst), x.2[i - sizeOf (as₁.map Prod.fst)], ?_,
      List.getElem?_eq_getElem hj, ?_⟩
    · rw [h.addr_add hpos (has.symm.trans hks), Nat.add_sub_cancel' hle]
    · have hbyte := getElem_flatten (h.size hd) (j := i - sizeOf (as₁.map Prod.fst)) (by omega)
      rw [Nat.add_sub_cancel' hle] at hbyte
      rw [h.buffer hd, has, hall, Nat.sub_self, List.replicate_zero, List.append_nil, hbyte]
      exact List.getElem?_eq_getElem hj
  · rw [← hall] at hi
    obtain ⟨ks₁, k, ks₂, hks, hle, hlt⟩ := exists_packet i hi
    have hdata : k.data = (q.buffer.drop (sizeOf ks₁)).take k.size := h.data hd ks₁ k ks₂ hks
    have hi' : i < q.buffer.length := by rw [h.buffer_length, ← hall]; exact hi
    refine ⟨k, by rw [hks]; simp, i - sizeOf ks₁, q.buffer[i], ?_, ?_, List.getElem?_eq_getElem hi'⟩
    · rw [h.addr_add hpos hks, Nat.add_sub_cancel' hle]
    · rw [hdata, List.getElem?_take_of_lt (by omega), List.getElem?_drop, Nat.add_sub_cancel' hle]
      exact List.getElem?_eq_getElem hi'

/-- **The `int`s are right** when the request can be counted, and the `memset` when a read has eight bytes. -/
theorem intsRight {s : St} {r : Nat} (h : CutBy line (s.reqs r) ks as) (hpos : 0 < line) (hline : line < 2 ^ 32)
    (hout : ∀ k, s.Out k → k.req = r → ks = as.map Prod.fst ++ [k]) : IntsRight line s r ks where
  read := fun hd raw hraw => by
    rw [initRead_eq hraw (h.filled hd), if_pos h.counted.1]
    rfl
  write := fun _ raw hraw => by
    rw [← h.buffer_length] at hraw
    rw [initWrite_eq hraw, if_pos (h.buffer_length ▸ h.counted.1)]
    rfl
  size := fun before k rest hks => by
    obtain ⟨-, hsize, -⟩ := h.packet_at hpos hks
    have hlt := h.counted.1
    have hend := h.counted.2 k.piece (h.piece_mem (by rw [hks]; simp))
    rw [hsize]
    exact (chunkInt_eq_iff hpos hline k.addr (by omega)).mpr hend
  marks := fun k hk hreq hdir => by
    have hks := hout k hk hreq
    have hd : (s.reqs r).dir = .read := (h.dir k (by rw [hks]; simp)).symm.trans hdir
    have hlt := h.counted.1
    have hmarks := congrArg List.length (h.readsDone hd)
    rw [List.length_append, List.length_replicate, List.length_replicate] at hmarks
    rw [hks] at h
    obtain ⟨-, hle⟩ := h.addr_of_concat hpos
    rw [h.offset_of_concat hpos]
    exact markDone_eq (by omega) (by omega)

end CutBy

/-- **Requests are split exactly**, in every run whose reads have at least eight bytes and whose requests can be
counted: the `memset` and the `int`s are right, the packets cut the request exactly, and at its commit every byte was
read or written. -/
theorem request_splitting {cfg : Config} (hline : cfg.cacheLineSize < 2 ^ 32) {w : Watched}
    (h : (watched cfg).ReachableWhen (fun _ e => e.counted cfg.cacheLineSize) w) : ∀ r < w.s.nextReq,
    IntsRight cfg.cacheLineSize w.s r (w.s.issued r) ∧
    Exact cfg.cacheLineSize (w.s.reqs r) (w.s.issued r) ∧
    ∀ d, w.s.commits d r ≠ 0 → Moved (w.s.reqs r) (w.s.issued r) (answersTo w.answers r) := by
  obtain ⟨ho, hcuts⟩ := cuts_of_reachable h
  intro r hr
  have hcut := hcuts.cut r hr
  refine ⟨hcut.cutBy.intsRight cfg.cacheLineSize_pos hline hcut.out, hcut.cutBy.exact cfg.cacheLineSize_pos,
    fun d hd => ?_⟩
  have hidle : r ∉ w.s.acc (w.s.reqs r).dir := fun hacc => by
    obtain rfl := (ho.own d r (.inr (.inr hd))).2
    have hone := ho.once r hr
    have hpos := List.count_pos_iff.mpr hacc
    omega
  exact hcut.cutBy.moved cfg.cacheLineSize_pos (hcut.committed d hd) (hcut.idle hidle).symm

instance (line : Nat) (a : Word) (n : Nat) : Decidable (Counted line a n) :=
  inferInstanceAs (Decidable (_ ∧ _))

instance (line : Nat) : (c : Call) → Decidable (c.counted line)
  | .enqueueRead add len => inferInstanceAs (Decidable (_ ∧ Counted line add len))
  | .enqueueWrite add data => inferInstanceAs (Decidable (Counted line add data.length))
  | .finish => inferInstanceAs (Decidable True)

instance (line : Nat) : (e : Ev) → Decidable (e.counted line)
  | .call c => inferInstanceAs (Decidable (c.counted line))
  | .tick calls _ => inferInstanceAs (Decidable (∀ c ∈ calls, c.counted line))
  | .retry _ _ => inferInstanceAs (Decidable True)
  | .response _ _ => inferInstanceAs (Decidable True)
  | .write _ => inferInstanceAs (Decidable True)

/-- One port for all addresses, and cache lines of 64 bytes. -/
def allAddresses : Config := ⟨[⟨.localPorts, fun _ => true⟩], 64, Nat.succ_pos 63⟩

/-- The memory accepts every packet. -/
def accepting : Env := ⟨fun _ => true, fun _ _ => true⟩

/-- A read over a line boundary, and a write whose packet is refused; the packets of the read are answered. -/
def wholeRead : List Ev :=
  [.call (.enqueueRead 60 8), .tick [] accepting, .call (.enqueueWrite 0 [1, 2]), .response 0 [1, 2, 3, 4],
  .tick [] accepting,
    .response 1 [5, 6, 7, 8]]

theorem request_splitting_wholeRead : ∃ w,
    (watched allAddresses).ReachableWhen (fun _ e => e.counted allAddresses.cacheLineSize) w ∧
    w.s.nextReq = 2 ∧ w.s.commits .read 0 = 1 ∧ (w.s.reqs 0).buffer = [1, 2, 3, 4, 5, 6, 7, 8] ∧
    (∀ r < 2, IntsRight 64 w.s r (w.s.issued r) ∧ Exact 64 (w.s.reqs r) (w.s.issued r)) ∧
    Moved (w.s.reqs 0) (w.s.issued 0) (answersTo w.answers 0) := by
  obtain ⟨w, hw, hnext, hcommit, hbuffer⟩ := System.reachableWhen_of_replay (S := watched allAddresses)
    (C := fun _ e => decide (e.counted 64)) (rfl : (watched allAddresses).init ⟨.start, []⟩) wholeRead
    (fun w => w.s.nextReq = 2 ∧ w.s.commits .read 0 = 1 ∧ (w.s.reqs 0).buffer = [1, 2, 3, 4, 5, 6, 7, 8])
      (by decide +kernel)
  have hw : (watched allAddresses).ReachableWhen (fun _ e => e.counted allAddresses.cacheLineSize) w :=
    hw.mono fun _ _ h => of_decide_eq_true h
  have hline : allAddresses.cacheLineSize < 2 ^ 32 := by decide
  have hsplit := request_splitting hline hw
  refine ⟨w, hw, hnext, hcommit, hbuffer, fun r hr => ?_, ?_⟩
  · obtain ⟨hints, hexact, -⟩ := hsplit r (by omega)
    exact ⟨hints, hexact⟩
  · exact (hsplit 0 (by omega)).2.2 .read (by rw [hcommit]; exact one_ne_zero)

/-! ## A short read -/

/-- **A read of four bytes**: the constructor fills eight bytes of its buffer. -/
theorem short_read_overruns :
    (∀ raw : List Byte × List Bool, raw.1.length = 4 ∧ raw.2.length = 4 → initRead 4 raw = none) ∧
    ∃ w, (watched allAddresses).Reachable w ∧ w.s.nextReq = 1 ∧ ¬ IntsRight 64 w.s 0 (w.s.issued 0) := by
  refine ⟨fun raw hraw => initRead_eq_none hraw.1 (by decide), ?_⟩
  obtain ⟨w, hw, hnext, hdir, hlen⟩ := System.reachable_of_replay (S := watched allAddresses)
    (rfl : (watched allAddresses).init ⟨.start, []⟩) [.call (.enqueueRead 0 4)]
    (fun w => w.s.nextReq = 1 ∧ (w.s.reqs 0).dir = .read ∧ (w.s.reqs 0).length = 4) (by decide)
  refine ⟨w, hw, hnext, fun hints => ?_⟩
  have hread := hints.read hdir (List.replicate 4 0, List.replicate 4 false) (by simp [hlen])
  rw [hlen, initRead_eq_none (by simp) (by decide)] at hread
  exact Option.some_ne_none _ hread.symm

end Salam.Comm
