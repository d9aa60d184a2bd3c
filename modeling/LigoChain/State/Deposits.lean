/-
# Deposits for side chains

An account has deposits for side chains beside its amounts, as a list by chain
(`SideChainDepositBalance` in `core/state/state_object.go`).  They are no bookings: a deposit is set
to a value, and a chain that is not in the list is added to it.

What an account has in `Balance`, `ChainBalance` and deposits is its wealth.  A payment out of a
deposit moves wealth from one account to another, so the sum over all accounts stays
(`sameTotal_pay`), and nothing becomes negative if the deposit covers it (`NonnegFunds.pay`).
-/

import LigoChain.State.Booking
import Mathlib.Algebra.BigOperators.Finprod

namespace LigoChain
namespace State

/-! ## Lists of deposits -/

theorem sideChainDeposit_cons (id chainId : String) (v : ℤ) (l : List (String × ℤ)) :
    sideChainDeposit ((id, v) :: l) chainId =
      if id = chainId then v else sideChainDeposit l chainId := by
  unfold sideChainDeposit
  rw [List.find?_cons]
  by_cases h : id = chainId
  · simp [h]
  · rw [if_neg h, beq_eq_false_iff_ne.2 h]

/-- A deposit that is set is read back, and the others stay. -/
theorem sideChainDeposit_set (chainId id : String) (value : ℤ) (l : List (String × ℤ)) :
    sideChainDeposit (setSideChainDeposit chainId value l) id =
      if id = chainId then value else sideChainDeposit l id := by
  induction l with
  | nil =>
    rw [setSideChainDeposit, sideChainDeposit_cons]
    simp only [eq_comm]
  | cons p l ih =>
    obtain ⟨id', v⟩ := p
    rw [setSideChainDeposit]
    by_cases h' : id' = chainId
    · rw [if_pos h', sideChainDeposit_cons, sideChainDeposit_cons]
      subst h'
      by_cases h : id' = id
      · rw [if_pos h, if_pos h.symm]
      · rw [if_neg h, if_neg h, if_neg (Ne.symm h)]
    · rw [if_neg h', sideChainDeposit_cons, sideChainDeposit_cons, ih]
      by_cases h : id' = id
      · rw [if_pos h, if_pos h, if_neg (h ▸ h')]
      · rw [if_neg h, if_neg h]

theorem sum_setSideChainDeposit (chainId : String) (value : ℤ) (l : List (String × ℤ)) :
    ((setSideChainDeposit chainId value l).map Prod.snd).sum =
      (l.map Prod.snd).sum - sideChainDeposit l chainId + value := by
  induction l with
  | nil => simp [setSideChainDeposit, sideChainDeposit]
  | cons p l ih =>
    obtain ⟨id, v⟩ := p
    rw [setSideChainDeposit, sideChainDeposit_cons]
    split_ifs with h
    · simp only [List.map_cons, List.sum_cons]
      ring
    · simp only [List.map_cons, List.sum_cons, ih]
      ring

theorem mem_setSideChainDeposit {chainId : String} {value : ℤ} {l : List (String × ℤ)}
    {p : String × ℤ} (h : p ∈ setSideChainDeposit chainId value l) : p ∈ l ∨ p.2 = value := by
  induction l with
  | nil => exact .inr (List.mem_singleton.1 h ▸ rfl)
  | cons q l ih =>
    obtain ⟨id, v⟩ := q
    rw [setSideChainDeposit] at h
    split_ifs at h
    · rcases List.mem_cons.1 h with rfl | h
      · exact .inr rfl
      · exact .inl (List.mem_cons_of_mem _ h)
    · rcases List.mem_cons.1 h with rfl | h
      · exact .inl List.mem_cons_self
      · exact (ih h).imp (List.mem_cons_of_mem _) fun h => h

namespace World

variable (w : World)

/-- The deposits of an account. -/
def deposits (a : Address) : List (String × ℤ) := (w.acct a).data.sideChainDepositBalance

/-- The deposit of an account for a chain. -/
def deposit (a : Address) (chainId : String) : ℤ := sideChainDeposit (w.deposits a) chainId

/-- `SubSideChainDepositBalance`. -/
def subDeposit (a : Address) (chainId : String) (x : ℤ) : World :=
  if x = 0 then w.ensure a
  else w.write a (.sideChainDepositBalance chainId (w.deposit a chainId - x))

/-- What an account has in its balance, its chain balance and its deposits. -/
def wealth (a : Address) : ℤ :=
  w.amount .balance a + w.amount .chainBalance a + ((w.deposits a).map Prod.snd).sum

/-- A payment out of a deposit, to an amount of an account. -/
def pay (payer : Address) (chainId : String) (x : ℤ) (field : AmountField) (payee : Address) :
    World :=
  (w.subDeposit payer chainId x).addAmount field payee x

/-! ## What changes -/

theorem amount_addAmount (field f : AmountField) (addr a : Address) (x : ℤ) :
    (w.addAmount field addr x).amount f a =
      w.amount f a + if a = addr ∧ f = field then x else 0 := by
  rw [addAmount_eq_book, amount_book]
  simp only [Booking.amountAt, Posting.delta]
  by_cases ha : a = addr
  · simp [ha]
  · simp [ha]

theorem amount_subAmount (field f : AmountField) (addr a : Address) (x : ℤ) :
    (w.subAmount field addr x).amount f a =
      w.amount f a - if a = addr ∧ f = field then x else 0 := by
  rw [subAmount_eq_book, amount_book]
  simp only [Booking.amountAt, Posting.delta]
  by_cases ha : a = addr
  · by_cases hf : f = field
    · simp [ha, hf, sub_eq_add_neg]
    · simp [ha, hf]
  · simp [ha]

theorem deposits_book (b : Booking) (a : Address) : (w.book b).deposits a = w.deposits a := by
  unfold deposits
  rw [data_book]

theorem deposits_addAmount (field : AmountField) (addr a : Address) (x : ℤ) :
    (w.addAmount field addr x).deposits a = w.deposits a := by
  rw [addAmount_eq_book, deposits_book]

theorem deposits_subAmount (field : AmountField) (addr a : Address) (x : ℤ) :
    (w.subAmount field addr x).deposits a = w.deposits a := by
  rw [subAmount_eq_book, deposits_book]

theorem amount_subDeposit (f : AmountField) (payer a : Address) (chainId : String) (x : ℤ) :
    (w.subDeposit payer chainId x).amount f a = w.amount f a := by
  unfold subDeposit ensure write amount
  split_ifs
  · rw [acct_put]
    split_ifs with ha
    · rw [ha]
    · rfl
  · rw [acct_put]
    split_ifs with ha
    · rw [ha]
      rfl
    · rfl

theorem deposits_subDeposit (payer a : Address) (chainId : String) (x : ℤ) :
    (w.subDeposit payer chainId x).deposits a =
      if a = payer ∧ x ≠ 0 then
        setSideChainDeposit chainId (w.deposit payer chainId - x) (w.deposits payer)
      else w.deposits a := by
  unfold subDeposit ensure write deposits
  by_cases hx : x = 0
  · have hnot : ¬ (a = payer ∧ x ≠ 0) := fun h => h.2 hx
    rw [if_pos hx, if_neg hnot, acct_put]
    split_ifs with ha
    · rw [ha]
    · rfl
  · rw [if_neg hx, acct_put]
    by_cases ha : a = payer
    · rw [if_pos ha, if_pos ⟨ha, hx⟩]
      rfl
    · rw [if_neg ha, if_neg fun h => ha h.1]

theorem deposit_pay (payer a payee : Address) (chainId id : String) (x : ℤ) (field : AmountField) :
    (w.pay payer chainId x field payee).deposit a id =
      w.deposit a id - if a = payer ∧ id = chainId then x else 0 := by
  unfold deposit pay
  rw [deposits_addAmount, deposits_subDeposit]
  by_cases h : a = payer ∧ x ≠ 0
  · obtain ⟨rfl, hx⟩ := h
    rw [if_pos ⟨rfl, hx⟩, sideChainDeposit_set]
    by_cases hid : id = chainId
    · rw [if_pos hid, if_pos ⟨rfl, hid⟩, hid]
      rfl
    · rw [if_neg hid, if_neg fun h => hid h.2, sub_zero]
  · rw [if_neg h]
    have hzero : (if a = payer ∧ id = chainId then x else 0) = 0 := by
      split_ifs with h'
      · exact not_not.1 fun hx => h ⟨h'.1, hx⟩
      · rfl
    rw [hzero, sub_zero]

theorem amount_pay (payer a payee : Address) (chainId : String) (x : ℤ) (field f : AmountField) :
    (w.pay payer chainId x field payee).amount f a =
      w.amount f a + if a = payee ∧ f = field then x else 0 := by
  rw [pay, amount_addAmount, amount_subDeposit]

/-- **A payment moves wealth** from the payer to the payee. -/
theorem wealth_pay (payer a payee : Address) (chainId : String) (x : ℤ) {field : AmountField}
    (hfield : field = .balance ∨ field = .chainBalance) :
    (w.pay payer chainId x field payee).wealth a =
      w.wealth a - (if a = payer then x else 0) + if a = payee then x else 0 := by
  have hsum : (((w.pay payer chainId x field payee).deposits a).map Prod.snd).sum =
      ((w.deposits a).map Prod.snd).sum - if a = payer then x else 0 := by
    rw [pay, deposits_addAmount, deposits_subDeposit]
    by_cases h : a = payer ∧ x ≠ 0
    · obtain ⟨rfl, hx⟩ := h
      rw [if_pos ⟨rfl, hx⟩, if_pos rfl, sum_setSideChainDeposit]
      unfold deposit
      ring
    · rw [if_neg h]
      have hzero : (if a = payer then x else 0) = 0 := by
        split_ifs with h'
        · exact not_not.1 fun hx => h ⟨h', hx⟩
        · rfl
      rw [hzero, sub_zero]
  unfold wealth
  rw [hsum, amount_pay, amount_pay]
  rcases hfield with rfl | rfl
  · by_cases ha : a = payee
    · simp only [ha, true_and, if_true, reduceCtorEq, if_false]
      ring
    · simp only [ha, false_and, if_false]
      ring
  · by_cases ha : a = payee
    · simp only [ha, true_and, if_true, reduceCtorEq, if_false]
      ring
    · simp only [ha, false_and, if_false]
      ring

/-! ## Sums over all accounts -/

/-- The wealth of all accounts. -/
noncomputable def totalWealth : ℤ := ∑ᶠ a, w.wealth a

/-- Two states have the same sum, over finitely many accounts. -/
def SameTotal (w w' : World) : Prop :=
  (Function.support w.wealth).Finite →
    (Function.support w'.wealth).Finite ∧ w'.totalWealth = w.totalWealth

variable {w} {w' w'' : World}

theorem SameTotal.refl (w : World) : SameTotal w w := fun h => ⟨h, rfl⟩

theorem SameTotal.trans (h : SameTotal w w') (h' : SameTotal w' w'') : SameTotal w w'' := by
  intro hfinite
  obtain ⟨hfinite', htotal⟩ := h hfinite
  obtain ⟨hfinite'', htotal'⟩ := h' hfinite'
  exact ⟨hfinite'', htotal'.trans htotal⟩

/-- What is taken from one account and given to another does not change the sum. -/
theorem sameTotal_of_moved {payer payee : Address} {x : ℤ}
    (h : ∀ a, w'.wealth a = w.wealth a - (if a = payer then x else 0) +
      if a = payee then x else 0) : SameTotal w w' := by
  intro hfinite
  have hsingle : ∀ b : Address, (Function.support fun a => if a = b then x else 0).Finite :=
    fun b => (Set.finite_singleton b).subset fun a ha => by
      by_contra hne
      exact ha (if_neg hne)
  have hsum : ∀ b : Address, ∑ᶠ a, (if a = b then x else 0) = x := fun b => by
    rw [finsum_eq_single _ b fun a ha => if_neg ha, if_pos rfl]
  have heq : w'.wealth = fun a => w.wealth a - (if a = payer then x else 0) +
      if a = payee then x else 0 := funext h
  constructor
  · rw [heq]
    exact ((hfinite.union (hsingle payer)).subset (Function.support_sub _ _)).union
      (hsingle payee) |>.subset (Function.support_add _ _)
  · rw [totalWealth, heq, finsum_add_distrib ((hfinite.union (hsingle payer)).subset
      (Function.support_sub _ _)) (hsingle payee), finsum_sub_distrib hfinite (hsingle payer),
      hsum, hsum, sub_add_cancel]
    rfl

theorem sameTotal_pay (payer payee : Address) (chainId : String) (x : ℤ) {field : AmountField}
    (hfield : field = .balance ∨ field = .chainBalance) :
    SameTotal w (w.pay payer chainId x field payee) :=
  sameTotal_of_moved fun a => w.wealth_pay payer a payee chainId x hfield

/-! ## Nothing negative -/

/-- No balance, chain balance or deposit is negative. -/
structure NonnegFunds (w : World) : Prop where
  balance : ∀ a, 0 ≤ w.amount .balance a
  chainBalance : ∀ a, 0 ≤ w.amount .chainBalance a
  deposits : ∀ a, ∀ p ∈ w.deposits a, 0 ≤ p.2

/-- A payment that the deposit covers makes nothing negative. -/
theorem NonnegFunds.pay (h : w.NonnegFunds) {payer payee : Address} {chainId : String} {x : ℤ}
    (field : AmountField) (hx : 0 ≤ x) (hcover : x ≤ w.deposit payer chainId) :
    (w.pay payer chainId x field payee).NonnegFunds where
  balance a := by
    have hold := h.balance a
    rw [amount_pay]
    split_ifs <;> omega
  chainBalance a := by
    have hold := h.chainBalance a
    rw [amount_pay]
    split_ifs <;> omega
  deposits a p hp := by
    rw [World.pay, deposits_addAmount, deposits_subDeposit] at hp
    split_ifs at hp
    · rcases mem_setSideChainDeposit hp with hp | hp
      · exact h.deposits _ p hp
      · omega
    · exact h.deposits a p hp

end World

end State
end LigoChain
