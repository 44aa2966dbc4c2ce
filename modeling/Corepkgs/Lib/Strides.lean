import Mathlib.Tactic.Ring
import Mathlib.Order.Basic
/-!
# Counters that wrap

A counter modulo `m` that is moved by a fixed stride leaves every interval `[0, stop)` of at most
half the modulus: forwards if the stride is small, backwards if it is close to the modulus.
-/

namespace Corepkgs.Lib

/-- The counter is at `stop` or beyond within so many looks. -/
def leaves (m stride stop : Nat) : Nat → Nat → Prop
  | 0, _ => False
  | fuel + 1, off => stop ≤ off ∨ leaves m stride stop fuel ((off + stride) % m)

theorem leaves_forward {m stride stop : Nat} (hpos : 0 < stride) (hhalf : 2 * stride ≤ m)
    (hstop : 2 * stop ≤ m) (fuel off : Nat) (hfuel : stop - off < fuel) :
    leaves m stride stop fuel off := by
  induction fuel generalizing off with
  | zero => omega
  | succ fuel ih =>
    by_cases hout : stop ≤ off
    · exact .inl hout
    · have hsmall : (off + stride) % m = off + stride := Nat.mod_eq_of_lt (by omega)
      refine .inr (ih _ ?_)
      rw [hsmall]
      omega

theorem leaves_backward {m stride stop : Nat} (hlt : stride < m) (hhalf : m < 2 * stride)
    (hstop : 2 * stop ≤ m) (fuel off : Nat) (hfuel : off + 1 < fuel) :
    leaves m stride stop fuel off := by
  induction fuel generalizing off with
  | zero => omega
  | succ fuel ih =>
    by_cases hout : stop ≤ off
    · exact .inl hout
    · refine .inr ?_
      by_cases hwrap : m ≤ off + stride
      · -- one step back
        have hback : (off + stride) % m = off + stride - m := by
          rw [Nat.mod_eq_sub_mod hwrap, Nat.mod_eq_of_lt (by omega)]
        apply ih
        rw [hback]
        omega
      · -- below zero, which is at the upper end
        obtain ⟨fuel, rfl⟩ : ∃ k, fuel = k + 1 := ⟨fuel - 1, by omega⟩
        refine .inl ?_
        rw [Nat.mod_eq_of_lt (by omega)]
        omega

theorem leaves_of_lt {m stride stop fuel : Nat} (hpos : 0 < stride) (hlt : stride < m)
    (hstop : 2 * stop ≤ m) (hfuel : stop < fuel) (off : Nat) : leaves m stride stop fuel off := by
  by_cases hout : stop ≤ off
  · obtain ⟨fuel, rfl⟩ : ∃ k, fuel = k + 1 := ⟨fuel - 1, by omega⟩
    exact .inl hout
  · rcases Nat.lt_or_ge m (2 * stride) with hhalf | hhalf
    · exact leaves_backward hlt hhalf hstop fuel off (by omega)
    · exact leaves_forward hpos hhalf hstop fuel off (by omega)

end Corepkgs.Lib
