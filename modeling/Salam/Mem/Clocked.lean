import Mathlib.Algebra.Order.Group.Nat

/-!
# `Clocked`

The clock of `sim/clocked_object.hh`: the next edge at or after a tick, and a period that is not zero. The period may
change.
-/

namespace Salam.Mem

/-- The clock of an object. -/
structure Clock where
  /-- `tick` after `update()`, at a current tick. -/
  nextEdge : Nat → Nat
  clockPeriod : Nat → Nat
  le_nextEdge : ∀ t, t ≤ nextEdge t
  clockPeriod_pos : ∀ t, 0 < clockPeriod t

namespace Clock

def clockEdge (C : Clock) (curTick cycles : Nat) : Nat := C.nextEdge curTick + C.clockPeriod curTick * cycles

theorem le_clockEdge (C : Clock) (t cycles : Nat) : t ≤ C.clockEdge t cycles :=
  (C.le_nextEdge t).trans (Nat.le_add_right _ _)

theorem lt_clockEdge_one (C : Clock) (t : Nat) : t < C.clockEdge t 1 := by
  have hedge := C.le_nextEdge t
  have hpos := C.clockPeriod_pos t
  rw [clockEdge, Nat.mul_one]
  omega

/-- A clock with edges at the multiples of a period. -/
def ofPeriod (p : Nat) (hp : 0 < p) : Clock where
  nextEdge t := (t + (p - 1)) / p * p
  clockPeriod _ := p
  le_nextEdge t := by
    have hdiv := Nat.div_add_mod (t + (p - 1)) p
    have hmod := Nat.mod_lt (t + (p - 1)) hp
    rw [Nat.mul_comm] at hdiv
    omega
  clockPeriod_pos _ := hp

end Clock

end Salam.Mem
