import Iposix.Devices.Timer
import Iposix.Sched.RoundRobin
import Mathlib.Data.Nat.Bitwise

/-!
# When the timer asks for a context switch

It should at each multiple of the period. The handler masks the count with the
period where it should divide: the first time that the mask is zero is either
before the first multiple or after it, but never at it. So what the timer does
is right only as long as nothing is due and nothing has been asked for. That is
while the count has not come to the period, nor to a power of two that is not
one of the bits of the period.
-/

namespace Iposix.Devices.Timer

open Iposix.Lib

variable {period n : Nat}

/-- One request in each period, and the period between any two. -/
structure OnTime (period : Nat) (t : Timer) : Prop where
  count : t.requests.length = t.interrupts / period
  apart : t.requests.IsChain fun a b => b = a + period

instance (period : Nat) (t : Timer) : Decidable (OnTime period t) :=
  decidable_of_iff
    (t.requests.length = t.interrupts / period ∧
      t.requests.IsChain fun a b => b = a + period)
    ⟨fun ⟨h₁, h₂⟩ => ⟨h₁, h₂⟩, fun ⟨h₁, h₂⟩ => ⟨h₁, h₂⟩⟩

theorem after_interrupts (period n : Nat) :
    (after period n).interrupts = n := by
  induction n with
  | zero => rfl
  | succ n ih => simp only [after, timerInterruptHandler, ih]

theorem after_ticks (period : Nat) :
    ∀ n, n < 18446744073709551616 → (after period n).ticks = n := by
  intro n
  induction n with
  | zero => intro _; rfl
  | succ n ih =>
      intro h
      simp only [after, timerInterruptHandler, ih (by omega)]
      exact u64_of_lt (n := n + 1) h

/-- What one more interrupt asks for. -/
theorem requests_succ (h : n + 1 < 18446744073709551616) :
    (after period (n + 1)).requests =
      if (n + 1) &&& period = 0 then (after period n).requests ++ [n + 1]
      else (after period n).requests := by
  have hticks : (after period (n + 1)).ticks = n + 1 := after_ticks period _ h
  simp only [after, timerInterruptHandler] at hticks ⊢
  rw [hticks, after_interrupts]

/-- Two numbers have a bit in common when one has the highest bit of the
other. -/
theorem and_ne_zero (hn : n ≠ 0) (h : period.testBit n.log2 = true) :
    n &&& period ≠ 0 := by
  intro hzero
  have hbit : (n &&& period).testBit n.log2 = true := by
    rw [Nat.testBit_and, Nat.testBit_log2 hn, h, Bool.and_true]
  rw [hzero, Nat.zero_testBit] at hbit
  cases hbit

theorem two_pow_and {i : Nat} (h : period.testBit i = false) :
    2 ^ i &&& period = 0 := by
  refine Nat.zero_of_testBit_eq_false fun j => ?_
  rw [Nat.testBit_and, Nat.testBit_two_pow]
  by_cases hij : i = j
  · rw [← hij, h, Bool.and_false]
  · rw [decide_eq_false hij, Bool.false_and]

/-- Nothing is asked for as long as the period has all the bits that the count
may have for its highest. -/
theorem no_requests (hperiod : period < 18446744073709551616) :
    ∀ n, n < period → (∀ i, 2 ^ i ≤ n → period.testBit i = true) →
      (after period n).requests = [] := by
  intro n
  induction n with
  | zero => intro _ _; rfl
  | succ n ih =>
      intro hn hbits
      have hmask : (n + 1) &&& period ≠ 0 :=
        and_ne_zero (Nat.succ_ne_zero n)
          (hbits _ (Nat.log2_self_le (Nat.succ_ne_zero n)))
      rw [requests_succ (by omega), if_neg hmask]
      exact ih (by omega) fun i hi => hbits i (by omega)

/-- The timer is on time throughout a run exactly if nothing is due in it and
nothing is asked for. -/
theorem onTime_iff (hpos : 0 < period) (hperiod : period < 18446744073709551616)
    (n : Nat) :
    (∀ m, m ≤ n → OnTime period (after period m)) ↔
      n < period ∧ ∀ i, 2 ^ i ≤ n → period.testBit i = true := by
  constructor
  · intro h
    have hcount : ∀ m, m ≤ n →
        (after period m).requests.length = m / period := fun m hm => by
      have hone := (h m hm).count
      rwa [after_interrupts] at hone
    have hlt : n < period := by
      by_contra hge
      obtain ⟨k, rfl⟩ : ∃ k, period = k + 1 := ⟨period - 1, by omega⟩
      have hdue := hcount (k + 1) (by omega)
      have hbefore := hcount k (by omega)
      -- the count masked with itself
      rw [requests_succ hperiod, Nat.and_self, if_neg (Nat.succ_ne_zero k),
        hbefore, Nat.div_self hpos, Nat.div_eq_of_lt (Nat.lt_succ_self k)] at hdue
      cases hdue
    refine ⟨hlt, fun i hi => ?_⟩
    by_contra hbit
    obtain ⟨k, hk⟩ : ∃ k, 2 ^ i = k + 1 :=
      ⟨2 ^ i - 1, by have := Nat.two_pow_pos i; omega⟩
    have hmask : (k + 1) &&& period = 0 :=
      hk ▸ two_pow_and (Bool.eq_false_iff.2 hbit)
    have hearly := hcount (k + 1) (by omega)
    rw [requests_succ (by omega), if_pos hmask, List.length_append,
      Nat.div_eq_of_lt (by omega)] at hearly
    exact Nat.succ_ne_zero _ hearly
  · intro h m hm
    have hnone := no_requests hperiod m (by omega) fun i hi => h.2 i (by omega)
    refine ⟨?_, by rw [hnone]; exact .nil⟩
    rw [hnone, after_interrupts, Nat.div_eq_of_lt (by omega)]
    rfl

/-- The bits of seven cover all the counts below it. -/
theorem onTime_seven : OnTime 7 (after 7 6) := by
  refine (onTime_iff (by decide : 0 < 7) (by decide) 6).2
    ⟨by decide, fun i hi => ?_⟩ 6 (Nat.le_refl 6)
  have hi' : i < 3 := by
    by_contra hge
    have := Nat.pow_le_pow_right (by decide : 0 < 2) (Nat.le_of_not_lt hge)
    omega
  match i with
  | 0 | 1 | 2 => rfl

/-- The round robin strategy has a switch asked for at the first interrupt. -/
theorem onTime_roundRobin :
    (after Sched.RoundRobin.ticksBetweenReschedulings 1).requests = [1] ∧
      ¬ OnTime Sched.RoundRobin.ticksBetweenReschedulings
        (after Sched.RoundRobin.ticksBetweenReschedulings 1) := by
  decide

end Iposix.Devices.Timer
