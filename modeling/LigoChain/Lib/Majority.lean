/-
# Weighted majorities

A list of weights and lists of bits over it.  Two sets of bits that together weigh more
than everything have a bit in common: the pigeonhole principle behind every quorum of
weighted voters.
-/

import Mathlib.Algebra.Order.BigOperators.Group.List
import Mathlib.Algebra.Order.Ring.Int

namespace Majority

variable {ws : List ℤ}

/-- The weight of the entries whose bit is set. -/
def weight (ws : List ℤ) (bits : List Bool) : ℤ :=
  ((ws.zip bits).map fun p => if p.2 then p.1 else 0).sum

@[simp] theorem weight_nil_left (bits : List Bool) : weight [] bits = 0 := rfl

@[simp] theorem weight_nil_right (ws : List ℤ) : weight ws [] = 0 := by
  simp [weight]

@[simp] theorem weight_cons (w : ℤ) (ws : List ℤ) (b : Bool) (bits : List Bool) :
    weight (w :: ws) (b :: bits) = (if b then w else 0) + weight ws bits := by
  simp [weight]

theorem weight_le_sum (hws : ∀ w ∈ ws, 0 ≤ w) (bits : List Bool) : weight ws bits ≤ ws.sum := by
  induction ws generalizing bits with
  | nil => simp
  | cons w ws ih =>
    obtain ⟨hw, hrest⟩ := List.forall_mem_cons.1 hws
    cases bits with
    | nil =>
      rw [weight_nil_right]
      exact List.sum_nonneg hws
    | cons b bits =>
      have := ih hrest bits
      rw [weight_cons, List.sum_cons]
      split_ifs <;> omega

@[simp] theorem weight_replicate_false (ws : List ℤ) (n : ℕ) :
    weight ws (List.replicate n false) = 0 := by
  induction ws generalizing n with
  | nil => simp
  | cons w ws ih =>
    cases n with
    | zero => simp
    | succ n => rw [List.replicate_succ, weight_cons, ih]; simp

theorem weight_set {bits : List Bool} {i : ℕ} {w : ℤ} (hw : ws[i]? = some w)
    (hbit : bits[i]? = some false) : weight ws (bits.set i true) = weight ws bits + w := by
  induction ws generalizing bits i with
  | nil => simp at hw
  | cons w' ws ih =>
    cases bits with
    | nil => simp at hbit
    | cons b bits =>
      cases i with
      | zero =>
        obtain rfl : w' = w := by simpa using hw
        obtain rfl : b = false := by simpa using hbit
        simp [add_comm]
      | succ i =>
        have := @ih bits i (by simpa using hw) (by simpa using hbit)
        rw [List.set_cons_succ, weight_cons, weight_cons, this]
        omega

theorem weight_add_weight {as bs : List Bool} (has : as.length = ws.length)
    (hbs : bs.length = ws.length) :
    weight ws as + weight ws bs =
      weight ws (List.zipWith and as bs) + weight ws (List.zipWith or as bs) := by
  induction ws generalizing as bs with
  | nil => simp
  | cons w ws ih =>
    obtain ⟨a, as, rfl⟩ := List.exists_cons_of_length_eq_add_one has
    obtain ⟨b, bs, rfl⟩ := List.exists_cons_of_length_eq_add_one hbs
    have := ih (Nat.succ.inj has) (Nat.succ.inj hbs)
    simp only [List.zipWith_cons_cons, weight_cons]
    cases a <;> cases b <;> simp <;> omega

/-- **Two sets of bits that together outweigh everything share a bit.** -/
theorem exists_common (hws : ∀ w ∈ ws, 0 ≤ w) {as bs : List Bool}
    (h : ws.sum < weight ws as + weight ws bs) :
    ∃ i, i < ws.length ∧ as[i]? = some true ∧ bs[i]? = some true := by
  induction ws generalizing as bs with
  | nil => simp at h
  | cons w ws ih =>
    obtain ⟨hw, hrest⟩ := List.forall_mem_cons.1 hws
    cases as with
    | nil =>
      have := weight_le_sum hws bs
      rw [weight_nil_right] at h
      omega
    | cons a as =>
      cases bs with
      | nil =>
        have := weight_le_sum hws (a :: as)
        rw [weight_nil_right] at h
        omega
      | cons b bs =>
        by_cases hboth : a = true ∧ b = true
        · exact ⟨0, by simp, by simp [hboth.1], by simp [hboth.2]⟩
        · -- the head counts at most once, so the tails still outweigh the tail
          have htail : ws.sum < weight ws as + weight ws bs := by
            rw [weight_cons, weight_cons, List.sum_cons] at h
            cases a <;> cases b <;> simp_all <;> omega
          obtain ⟨i, hi, ha, hb⟩ := ih hrest htail
          exact ⟨i + 1, by simpa using hi, by simpa using ha, by simpa using hb⟩

end Majority
