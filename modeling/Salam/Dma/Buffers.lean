import Salam.Base.CircleBuf
import Salam.Dma.Fifo

/-!
# The buffer of a FIFO

In the source the bytes of a `DmaReadFifo` or a `DmaWriteFifo` are in a `Fifo`. `ReadFifo` and `WriteFifo` keep the list
of them. The calls of the `Fifo` do the same to the queue.
-/

namespace Salam.Dma

open Base Base.CircularQueue

/-- The queue holds these bytes. -/
def Holds (c : Nat) (q : CircularQueue Byte) (bytes : List Byte) : Prop := ∃ places, Sound c ⟨⟨q, bytes⟩, places⟩

/-- The loop of `handlePending` over the finished requests. -/
def writeAll (q : CircularQueue Byte) : List Req → Except CircleErr (CircularQueue Byte)
  | [] => .ok q
  | r :: rs => if r.canceled then writeAll q rs else (q.fifoWrite r.data).bind fun q => writeAll q rs

theorem holds_new (c : Nat) : Holds c (new c) [] := ⟨[], sound_new c⟩

section

variable {c : Nat} {q : CircularQueue Byte} {bytes : List Byte} (hpos : 0 < c) (hc : c < 2 ^ 31) (h : Holds c q bytes)
include hpos hc h

theorem Holds.size : q.size = bytes.length := by
  obtain ⟨places, h⟩ := h
  exact h.size hpos (by omega)

theorem Holds.read {n : Nat} (hn : n ≤ bytes.length) (hfit : (FifoOp.read n).Fits q) :
    ∃ q', q.read n = .ok (bytes.take n, q') ∧ Holds c q' (bytes.drop n) := by
  obtain ⟨places, h⟩ := h
  exact (h.fifoExec (by omega) hfit).1 hn

theorem Holds.write (block : List Byte) (hroom : bytes.length + block.length ≤ c) :
    ∃ q', q.fifoWrite block = .ok q' ∧ Holds c q' (bytes ++ block) := by
  have hsize := h.size hpos hc
  obtain ⟨places, h⟩ := h
  have hcap : q.capacity = c := h.capacity.1
  have hfit : (FifoOp.write block).Fits q := ⟨⟨by omega, by omega⟩, by omega⟩
  obtain ⟨q', hq, places', h'⟩ := (h.fifoExec (by omega) hfit).1 hroom
  obtain ⟨q₁, hq₁, heq⟩ := ok_of_map hq
  cases heq
  refine ⟨q', hq₁, places', ?_⟩
  rwa [FifoOp.call, CircleOp.after, keep_of_le (by simpa using hroom)] at h'

theorem Holds.writeAll {rs : List Req} (hroom : bytes.length + (ReadFifo.arrived rs).length ≤ c) :
    ∃ q', writeAll q rs = .ok q' ∧ Holds c q' (bytes ++ ReadFifo.arrived rs) := by
  induction rs generalizing q bytes with
  | nil => exact ⟨q, rfl, by simpa [ReadFifo.arrived] using h⟩
  | cons r rs ih =>
    rw [Dma.writeAll]
    cases hr : r.canceled with
    | true =>
      have heq : ReadFifo.arrived (r :: rs) = ReadFifo.arrived rs := by simp [ReadFifo.arrived, hr]
      rw [heq] at hroom ⊢
      exact ih h hroom
    | false =>
      have heq : ReadFifo.arrived (r :: rs) = r.data ++ ReadFifo.arrived rs := by simp [ReadFifo.arrived, hr]
      rw [heq, List.length_append] at hroom
      obtain ⟨q₁, hq₁, h₁⟩ := h.write hpos hc r.data (by omega)
      rw [hq₁, heq, ← List.append_assoc]
      exact ih h₁ (by rw [List.length_append]; omega)

end

section Calls

variable {cfg : FifoConfig} {q : CircularQueue Byte} (hpos : 0 < cfg.fifoSize) (hc : cfg.fifoSize < 2 ^ 31) {n : Nat}
include hpos hc

theorem WriteFifo.tryFill_calls {f : WriteFifo} (h : Holds cfg.fifoSize q f.buffer) (src : List Byte) :
    ((f.tryFill cfg src).2 = true ↔ q.size + src.length ≤ cfg.fifoSize) ∧ (q.size + src.length ≤ cfg.fifoSize →
      ∃ q', q.fifoWrite src = .ok q' ∧ Holds cfg.fifoSize q' (f.buffer ++ src)) := by
  rw [h.size hpos hc]
  refine ⟨?_, h.write hpos hc src⟩
  unfold tryFill
  split <;> simp [*]

theorem WriteFifo.send_calls {f : WriteFifo} (h : Holds cfg.fifoSize q f.buffer) (hn : n ≤ f.buffer.length)
    (hfit : (FifoOp.read n).Fits q) :
    ∃ q', q.read n = .ok (f.buffer.take n, q') ∧ Holds cfg.fifoSize q' (f.send n).buffer :=
  h.read hpos hc hn hfit

theorem ReadFifo.tryGet_calls {f f' : ReadFifo} {out : List Byte} (h : Holds cfg.fifoSize q f.buffer)
    (hfit : (FifoOp.read n).Fits q) (hget : f.tryGet cfg n = some (f', out)) :
    n ≤ q.size ∧ ∃ q', q.read n = .ok (out, q') ∧ Holds cfg.fifoSize q' f'.buffer := by
  obtain ⟨hn, heq⟩ := Option.ite_none_right_eq_some.mp hget
  cases heq
  obtain ⟨rs, hrs, -⟩ := resumeFill_issued cfg { f with buffer := f.buffer.drop n }
  rw [hrs.buffer, h.size hpos hc]
  exact ⟨hn, h.read hpos hc hn hfit⟩

theorem ReadFifo.handlePending_calls {f : ReadFifo} (h : Holds cfg.fifoSize q f.buffer)
    (hroom : f.handlePending.buffer.length ≤ cfg.fifoSize) :
    ∃ q', Dma.writeAll q (f.pendingRequests.takeWhile (·.done)) = .ok q' ∧
      Holds cfg.fifoSize q' f.handlePending.buffer :=
  h.writeAll hpos hc (by rwa [handlePending, List.length_append] at hroom)

end Calls

end Salam.Dma
