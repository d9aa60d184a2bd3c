/-
# The ledger of a state

The amounts of all accounts, the records of what users have delegated and the rewards by
delegate address, as a ledger (`Lib.Ledger`): `World.Books w l` says that `l` is the ledger of
`w`.  A booking adds its posting (`Books.bookAll`), so what is summed up over users or over
accounts changes by what the bookings sum up to.

`ProxiedBalance` and its like repeat the sums of the records, `RewardBalance` the sum of the
rewards, and `DelegateBalance` the sum of what a user has delegated: `Books.total_iff` says when
for the first two.
-/

import LigoChain.Lib.Ledger
import LigoChain.State.Booking

namespace LigoChain
namespace State

/-- The entries of the ledger: what users have delegated, and the rewards. -/
inductive RecordField
  | entry (field : EntryField)
  | reward
  deriving DecidableEq

/-- The amount that repeats the sum of the entries. -/
def RecordField.total : RecordField → AmountField
  | entry field => field.total
  | reward => .rewardBalance

/-- An entry of the state. -/
def World.record (w : World) : RecordField → Address → Address → ℤ
  | .entry field, c, u => (w.entry c u).get field
  | .reward, a, d => w.reward a d

/-- The ledger of a state. -/
structure World.Books (w : World) (l : Ledger AmountField RecordField Address) : Prop where
  amount : ∀ field a, l.1 field a = w.amount field a
  record : ∀ k c u, l.2 k (c, u) = w.record k c u

namespace Posting

/-- What a posting to an account adds to the ledger. -/
noncomputable def posted (addr : Address) : Posting → Ledger AmountField RecordField Address
  | amount field x => .amount field addr x
  | entry field user x => .entry (.entry field) addr user x + .amount field.total addr x
  | reward deleAddress x => .entry .reward addr deleAddress x + .amount .rewardBalance addr x
  | clearCommission => 0

end Posting

namespace Booking

/-- What a booking adds to the ledger. -/
noncomputable def posted : Booking → Ledger AmountField RecordField Address
  | post addr p => p.posted addr
  | mark _ _ => 0

/-- What a booking adds to an entry. -/
def recordAt : RecordField → Address → Address → Booking → ℤ
  | .entry field, c, u, b => b.entryAt field c u
  | .reward, a, d, b => b.rewardAt a d

theorem posted_amount (b : Booking) (field : AmountField) (a : Address) :
    b.posted.1 field a = b.amountAt field a := by
  have hsingle : ∀ (f : AmountField) (addr : Address) (x : ℤ),
      (Ledger.amount f addr x : Ledger AmountField RecordField Address).1 field a =
        if a = addr then (if field = f then x else 0) else 0 := fun f addr x => by
    show (Pi.single f (Finsupp.single addr x) : AmountField → Address →₀ ℤ) field a = _
    rw [Pi.single_apply]
    by_cases hf : field = f
    · by_cases ha : a = addr
      · simp [hf, ha]
      · simp [hf, ha]
    · simp [hf]
  cases b with
  | mark kind addr => rfl
  | post addr p =>
    cases p with
    | amount f x => exact hsingle f addr x
    | entry f user x => exact (zero_add _).trans (hsingle f.total addr x)
    | reward dele x => exact (zero_add _).trans (hsingle .rewardBalance addr x)
    | clearCommission => exact (ite_self _).symm

theorem posted_record (b : Booking) (k : RecordField) (c u : Address) :
    b.posted.2 k (c, u) = b.recordAt k c u := by
  have hsingle : ∀ (k' : RecordField) (addr user : Address) (x : ℤ),
      (Ledger.entry k' addr user x : Ledger AmountField RecordField Address).2 k (c, u) =
        if c = addr ∧ u = user ∧ k = k' then x else 0 := fun k' addr user x => by
    show (Pi.single k' (Finsupp.single (addr, user) x) : RecordField → Address × Address →₀ ℤ) k
      (c, u) = _
    rw [Pi.single_apply]
    by_cases hk : k = k'
    · simp only [hk, if_true, and_true, Finsupp.single_apply, Prod.mk.injEq, @eq_comm _ addr,
        @eq_comm _ user]
    · simp [hk]
  cases b with
  | mark kind addr => cases k <;> rfl
  | post addr p =>
    cases p with
    | amount f x => cases k <;> rfl
    | clearCommission => cases k <;> rfl
    | entry f user x =>
      refine (add_zero _).trans ((hsingle (.entry f) addr user x).trans ?_)
      cases k with
      | entry field => simp only [RecordField.entry.injEq, recordAt, entryAt]
      | reward => simp [recordAt, rewardAt]
    | reward dele x =>
      refine (add_zero _).trans ((hsingle .reward addr dele x).trans ?_)
      cases k with
      | entry field => simp [recordAt, entryAt]
      | reward => simp [recordAt, rewardAt]

end Booking

namespace World

variable {w : World} {l : Ledger AmountField RecordField Address}

theorem record_book (w : World) (b : Booking) (k : RecordField) (c u : Address) :
    (w.book b).record k c u = w.record k c u + b.recordAt k c u := by
  cases k with
  | entry field => exact w.entry_book b field c u
  | reward => exact w.reward_book b c u

theorem Books.book (h : w.Books l) (b : Booking) : (w.book b).Books (l + b.posted) where
  amount field a := by
    rw [amount_book, ← h.amount, ← b.posted_amount]
    rfl
  record k c u := by
    rw [record_book, ← h.record, ← b.posted_record]
    rfl

/-- **Bookings add their postings.** -/
theorem Books.bookAll (h : w.Books l) (bs : List Booking) :
    (w.bookAll bs).Books (l + (bs.map Booking.posted).sum) := by
  induction bs generalizing w l with
  | nil =>
    rw [List.map_nil, List.sum_nil, add_zero]
    exact h
  | cons b bs ih =>
    rw [List.map_cons, List.sum_cons, ← add_assoc]
    exact ih (h.book b)

/-! ## What the sums are -/

theorem Books.under (h : w.Books l) (k : RecordField) (c : Address) :
    Ledger.under k l c = ∑ᶠ u, w.record k c u := by
  rw [Ledger.under_apply]
  exact finsum_congr fun u => h.record k c u

theorem Books.overall (h : w.Books l) (field : AmountField) :
    Ledger.overall field l = ∑ᶠ a, w.amount field a := by
  rw [Ledger.overall_apply]
  exact finsum_congr fun a => h.amount field a

theorem Books.total_iff (h : w.Books l) (k : RecordField) :
    Ledger.amounts k.total l = Ledger.under k l ↔
      ∀ c, w.amount k.total c = ∑ᶠ u, w.record k c u := by
  rw [DFunLike.ext_iff]
  exact forall_congr' fun c => by
    rw [h.under]
    exact Eq.congr_left (h.amount k.total c)

end World

/-! ## The ledger of a state in memory -/

namespace StateDB

variable (s : StateDB)

theorem finite_accounts : {a | s.view.accounts a ≠ none}.Finite := by
  refine ((s.stateObjects.keys ++ s.trie.keys).toFinset.finite_toSet).subset fun a ha => ?_
  rw [List.coe_toFinset, Set.mem_setOf_eq, List.mem_append, Std.ExtTreeMap.mem_keys,
    Std.ExtTreeMap.mem_keys]
  by_contra hnone
  rw [not_or] at hnone
  refine ha ?_
  rw [accounts_view]
  unfold getStateObject
  rw [Std.ExtTreeMap.getElem?_eq_none hnone.1, Std.ExtTreeMap.getElem?_eq_none hnone.2]
  rfl

end StateDB

theorem finite_getElem? {ν : Type} (m : FinMap Address ν) : {k : Address | m[k]? ≠ none}.Finite := by
  refine (m.keys.toFinset.finite_toSet).subset fun k hk => ?_
  rw [List.coe_toFinset, Set.mem_setOf_eq, Std.ExtTreeMap.mem_keys]
  by_contra hnone
  exact hk (Std.ExtTreeMap.getElem?_eq_none hnone)

namespace World

variable {w : World}

theorem acct_of_none {a : Address} (h : w.accounts a = none) : w.acct a = .new := by
  unfold acct
  rw [h]
  rfl

theorem finite_amount (h : {a | w.accounts a ≠ none}.Finite) (field : AmountField) :
    (Function.support (w.amount field)).Finite := by
  refine h.subset fun a ha hnone => ha ?_
  unfold World.amount
  rw [acct_of_none hnone]
  rfl

theorem finite_record (h : {a | w.accounts a ≠ none}.Finite) (k : RecordField) :
    (Function.support fun p : Address × Address => w.record k p.1 p.2).Finite := by
  -- the records of each of the finitely many accounts are finitely many
  refine (h.biUnion fun a _ => (Set.Finite.union
    (finite_getElem? (w.acct a).entries) (finite_getElem? (w.acct a).rewards)).image
      (Prod.mk a)).subset fun p hp => ?_
  obtain ⟨c, u⟩ := p
  refine Set.mem_biUnion (x := c) (fun hnone => hp ?_) ⟨u, ?_, rfl⟩
  · cases k with
    | entry field =>
      show (w.entry c u).get field = 0
      unfold World.entry Acct.entry
      rw [acct_of_none hnone]
      simp [Acct.new]
    | reward =>
      show w.reward c u = 0
      unfold World.reward
      rw [acct_of_none hnone]
      simp [Acct.new]
  · by_contra hnone
    rw [Set.mem_union, not_or] at hnone
    simp only [Set.mem_setOf_eq, not_not] at hnone
    refine hp ?_
    cases k with
    | entry field =>
      show (w.entry c u).get field = 0
      unfold World.entry Acct.entry
      rw [hnone.1]
      exact AccountProxiedBalance.get_new field
    | reward =>
      show w.reward c u = 0
      unfold World.reward
      rw [hnone.2]
      rfl

/-- **Every state in memory has a ledger.** -/
theorem exists_books (h : {a | w.accounts a ≠ none}.Finite) : ∃ l, w.Books l :=
  ⟨(fun field => Finsupp.ofSupportFinite (w.amount field) (finite_amount h field),
    fun k => Finsupp.ofSupportFinite (fun p => w.record k p.1 p.2) (finite_record h k)),
    fun _ _ => rfl, fun _ _ _ => rfl⟩

end World

end State
end LigoChain
