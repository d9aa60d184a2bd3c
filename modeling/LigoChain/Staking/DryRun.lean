/-
# The dry run and the switch

`DryRunUpdateEpochValidatorSet` in `epoch/epoch.go` computes the validators of the next epoch one
block before `ShouldEnterNewEpoch` does.  The switch pays the pending refunds and reads the totals
then; the dry run pays nothing and subtracts the total of the pending refunds.

What the switch pays under an account is the sum of the positive pending refunds of the users in
its stored trie (`refundable`).  The two leave the same validators, for every list of validators
and every set of votes, exactly if that is the total the dry run subtracts
(`dryRun_eq_switch_iff`).  In states whose totals are the sums of their records it is, unless a
pending refund is negative or belongs to a user that has no stored record
(`pendingRefund_eq_refundable_iff`).
-/

import LigoChain.State.Totals
import LigoChain.Staking.Refunds

namespace LigoChain
namespace Staking

open State

variable {ε : Type} {w : World}

/-- What the switch pays under an account that is in the set of refunds. -/
def refundable (s : StateDB) (c : Address) : ℤ :=
  ((s.proxiedKeys c).map fun u => max 0 (s.getByUser .pendingRefund c u)).sum

/-! ## The powers after the refunds -/

theorem sum_userRefund (refundAddress key : Address) (value : AccountProxiedBalance)
    (c : Address) :
    ((userRefund refundAddress key value).map
      (Booking.amountAt .depositProxiedBalance c)).sum =
        if c = refundAddress then -max 0 value.pendingRefundBalance else 0 := by
  unfold userRefund
  split_ifs with hpos hc hc
  · simp [Booking.amountAt, Posting.delta, EntryField.total, hc, max_eq_right hpos.le]
  · simp [Booking.amountAt, Posting.delta, hc]
  · simp [max_eq_left (not_lt.1 hpos)]
  · simp

/-- The deposit under an account is less by what is paid. -/
theorem sum_refundBookings (s : StateDB) (refundAddress c : Address) :
    ((refundBookings s.view refundAddress).map
      (Booking.amountAt .depositProxiedBalance c)).sum =
        if c = refundAddress then -refundable s refundAddress else 0 := by
  have hcommission : ((if (s.view.acct refundAddress).data.candidate then []
      else [Booking.post refundAddress .clearCommission]).map
        (Booking.amountAt .depositProxiedBalance c)).sum = 0 := by
    split_ifs <;> simp [Booking.amountAt, Posting.delta]
  unfold refundBookings refundable
  rw [List.map_append, List.sum_append, hcommission, add_zero, sum_map_flatMap,
    StateDB.proxiedKeys_eq]
  simp only [sum_userRefund, StateDB.getByUser_eq]
  split_ifs
  · rw [neg_eq_neg_one_mul, ← List.sum_map_mul_left]
    simp only [neg_one_mul]
    rfl
  · simp

/-- The refunds leave the other amounts that make up the power. -/
theorem amountAt_refundBookings {refundAddress : Address} {b : Booking}
    (hb : b ∈ refundBookings w refundAddress) {field : AmountField}
    (hfield : field = .proxiedBalance ∨ field = .depositBalance) (c : Address) :
    b.amountAt field c = 0 := by
  rcases List.mem_append.1 hb with hb | hb
  · obtain ⟨key, -, hb⟩ := List.mem_flatMap.1 hb
    unfold userRefund at hb
    split_ifs at hb
    · simp only [List.mem_cons, List.not_mem_nil, or_false] at hb
      rcases hb with rfl | rfl | rfl | rfl <;> rcases hfield with rfl | rfl <;>
        simp [Booking.amountAt, Posting.delta, EntryField.total]
    · exact absurd hb List.not_mem_nil
  · split_ifs at hb
    · exact absurd hb List.not_mem_nil
    · rw [List.mem_singleton.1 hb]
      exact ite_self _

/-- The power that the switch gives to a validator. -/
def paidStake (s : StateDB) (addrs : List Address) (c : Address) : ℤ :=
  s.getAmount .proxiedBalance c + (s.getAmount .depositProxiedBalance c -
    if c ∈ addrs then refundable s c else 0) + s.getAmount .depositBalance c

/-- **The power of an account after the refunds.** -/
theorem stake_bookAll (s : StateDB) {addrs : List Address} (h : addrs.Nodup) (c : Address) :
    (s.view.bookAll (addrs.flatMap (refundBookings s.view))).amount .proxiedBalance c +
      (s.view.bookAll (addrs.flatMap (refundBookings s.view))).amount .depositProxiedBalance c +
      (s.view.bookAll (addrs.flatMap (refundBookings s.view))).amount .depositBalance c =
    paidStake s addrs c := by
  have hkept : ∀ field, field = .proxiedBalance ∨ field = .depositBalance →
      ((addrs.flatMap (refundBookings s.view)).map (Booking.amountAt field c)).sum = 0 := by
    intro field hfield
    refine List.sum_eq_zero fun x hx => ?_
    obtain ⟨b, hb, rfl⟩ := List.mem_map.1 hx
    obtain ⟨a, -, hb⟩ := List.mem_flatMap.1 hb
    exact amountAt_refundBookings hb hfield c
  have hdeposit : ((addrs.flatMap (refundBookings s.view)).map
      (Booking.amountAt .depositProxiedBalance c)).sum =
        if c ∈ addrs then -refundable s c else 0 := by
    rw [← sum_map_ite h c fun a => -refundable s a, sum_map_flatMap]
    exact congrArg List.sum (List.map_congr_left fun a _ => sum_refundBookings s a c)
  unfold paidStake
  rw [World.amount_bookAll, World.amount_bookAll, World.amount_bookAll, hkept _ (.inl rfl),
    hkept _ (.inr rfl), hdeposit, add_zero, add_zero, StateDB.getAmount_eq, StateDB.getAmount_eq,
    StateDB.getAmount_eq]
  split_ifs
  · rfl
  · rw [add_zero, sub_zero]

/-! ## The validators -/

/-- The loop over the validators reads the powers of their addresses only. -/
theorem refreshPowers_congr {p q : Bytes → ℤ} {vals : ValidatorSet}
    (h : ∀ v ∈ vals.validators, p v.address = q v.address) (i fuel : ℕ) :
    refreshPowers p vals i fuel = refreshPowers q vals i fuel := by
  induction fuel generalizing vals i with
  | zero => rfl
  | succ fuel ih =>
    unfold refreshPowers
    cases hv : vals.validators[i]? with
    | none => rfl
    | some v =>
      have hmem := List.mem_of_getElem? hv
      simp only [h v hmem]
      split_ifs
      · exact ih (fun v' hv' => h v' (List.mem_of_mem_eraseP hv')) i
      · refine ih (fun v' hv' => ?_) (i + 1)
        rcases List.mem_or_eq_of_mem_set hv' with hv' | rfl
        · exact h v' hv'
        · exact h v hmem

theorem booked_stakeOf (addr : Address) : Booked (stakeOf addr : Prog Op ε ℤ) w
    (w.amount .proxiedBalance addr + w.amount .depositProxiedBalance addr +
      w.amount .depositBalance addr) [] :=
  (booked_read rfl).bind ((booked_read rfl).bind ((booked_read rfl).bind (booked_pure _)))

theorem ends_stakesOf (addrs : List Address) :
    (stakesOf addrs : Prog Op ε (Address → ℤ)).Ends Op.denote w fun powers _ =>
      ∀ a ∈ addrs, powers a = w.amount .proxiedBalance a + w.amount .depositProxiedBalance a +
        w.amount .depositBalance a := by
  refine (Prog.ends_foldlM (fun done powers w' => w' = w ∧ ∀ a ∈ done, powers a =
    w.amount .proxiedBalance a + w.amount .depositProxiedBalance a + w.amount .depositBalance a)
    ⟨rfl, fun a ha => absurd ha List.not_mem_nil⟩ ?_).mono fun _ _ h => h.2
  rintro done a rest powers w' - ⟨rfl, hpowers⟩
  refine Prog.Ends.bind ((booked_stakeOf a).ends (Prog.ends_pure ⟨rfl, fun a' ha' => ?_⟩))
  rw [Function.update_apply]
  split_ifs with heq
  · rw [heq]
  · exact hpowers a' ((List.mem_append.1 ha').resolve_right fun h => heq (List.mem_singleton.1 h))

/-- **The validators that the switch returns.** -/
theorem ends_enterProgram (L : EpochLibs) (s : StateDB) {order : FinSet Address → List Address}
    (horder : ∀ set, (order set).Nodup) (validators : ValidatorSet)
    (voteSet : EpochValidatorVoteSet) :
    (enterProgram L order validators voteSet : Prog Op ε ValidatorSet).Ends Op.denote s.view
      fun vals _ => vals = (updateEpochValidatorSet L (refreshPowers
        (paidStake s (order (s.getSet .delegateRefund))) validators 0 validators.size) voteSet).1 := by
  have hrest : ∀ (newValidators : ValidatorSet) (refunds : List RefundValidatorAmount) (w' : World),
      (do
        forEach newValidators.validators depositOfValidator
        forEach refunds payRefundValidator
        pure newValidators : Prog Op ε ValidatorSet).Ends Op.denote w'
          fun vals _ => vals = newValidators := fun newValidators refunds w' =>
    Prog.Ends.bind (((tame_forEach tame_depositOfValidator _).total w').mono fun _ w'' _ =>
      Prog.Ends.bind (((tame_forEach tame_payRefundValidator _).total w'').mono fun _ _ _ =>
        Prog.ends_pure rfl))
  refine Prog.Ends.bind (ends_call rfl (Prog.Ends.bind ?_))
  refine (booked_refundLoop (horder _)).ends (Prog.Ends.bind (ends_call rfl (Prog.Ends.bind ?_)))
  refine (ends_stakesOf _).mono fun powers w' hpowers => ?_
  have hcongr : refreshPowers powers validators 0 validators.size =
      refreshPowers (paidStake s (order (s.getSet .delegateRefund))) validators 0 validators.size :=
    refreshPowers_congr (fun v hv => (hpowers _ (List.mem_map_of_mem hv)).trans
      (stake_bookAll (s.loadSet .delegateRefund) (horder _) v.address)) 0 _
  rw [← hcongr]
  exact hrest _ _ w'

/-- **What `ShouldEnterNewEpoch` returns at the end of an epoch.** -/
theorem shouldEnterNewEpoch_returns (L : EpochLibs) {s : StateDB} (hs : s.Wf)
    {order : FinSet Address → List Address} (horder : ∀ set, (order set).Nodup) {ep : Epoch}
    {next : NextEpoch} (hnext : ep.getNextEpoch.nextEpoch = some next) :
    ∃ s', ep.shouldEnterNewEpoch L order ep.endBlock s = .ok (ep.getNextEpoch,
      some (updateEpochValidatorSet L (refreshPowers
        (paidStake s (order (s.getSet .delegateRefund))) ep.validators 0 ep.validators.size)
          (next.validatorVoteSet.getD .new)).1, s') := by
  obtain ⟨a, s', w', hrun, hdenote⟩ := (@tame_enterProgram Empty L order ep.validators
    (next.validatorVoteSet.getD .new)).run ⟨hs, rfl⟩
  obtain ⟨vals, w'', hends, rfl⟩ := @ends_enterProgram Empty L s order horder ep.validators
    (next.validatorVoteSet.getD .new)
  have hvals := Except.ok.inj (Prod.mk.inj (Except.ok.inj (hdenote.symm.trans hends))).1
  refine ⟨s', ?_⟩
  unfold Epoch.shouldEnterNewEpoch
  simp only [if_true, hnext]
  rw [hrun, hvals]
  rfl

/-- The switch returns the validators that the dry run leaves, for every list of validators and
every set of votes. -/
def DryRunAgrees (L : EpochLibs) (order : FinSet Address → List Address) (s : StateDB) : Prop :=
  ∀ (ep : Epoch) (next : NextEpoch), ep.getNextEpoch.nextEpoch = some next →
    ∃ s', ep.shouldEnterNewEpoch L order ep.endBlock s = .ok (ep.getNextEpoch,
      some (Epoch.dryRunUpdateEpochValidatorSet L s ep.validators next.validatorVoteSet), s')

/-- An epoch of one validator, whose next epoch is known and has no votes. -/
def soleEpoch (c : Address) : Epoch :=
  { PlainEpoch.genesis with
    validators := ⟨[⟨c, [], 0, 0⟩]⟩
    nextEpoch := some ⟨PlainEpoch.nextEpoch, none⟩ }

/-- The power of the only validator can be read off the validators after the votes. -/
theorem power_of_sole (L : EpochLibs) {p q : Bytes → ℤ} {c : Address}
    (h : (updateEpochValidatorSet L (refreshPowers p (soleEpoch c).validators 0
        (soleEpoch c).validators.size) .new).1 =
      (updateEpochValidatorSet L (refreshPowers q (soleEpoch c).validators 0
        (soleEpoch c).validators.size) .new).1) : p c = q c := by
  have hsole : ∀ p : Bytes → ℤ, (updateEpochValidatorSet L (refreshPowers p
      (soleEpoch c).validators 0 (soleEpoch c).validators.size) .new).1 =
      if p c = 0 then ⟨[]⟩ else ⟨[countDown ⟨c, [], p c, 0⟩]⟩ := fun p => by
    have hrefresh : refreshPowers p (soleEpoch c).validators 0 (soleEpoch c).validators.size =
        if p c = 0 then ⟨[]⟩ else ⟨[⟨c, [], p c, 0⟩]⟩ := by
      show (if p c = 0 then ValidatorSet.remove ⟨[⟨c, [], 0, 0⟩]⟩ c else ⟨[⟨c, [], p c, 0⟩]⟩) = _
      split_ifs
      · simp [ValidatorSet.remove]
      · rfl
    rw [hrefresh]
    split_ifs <;> rfl
  rw [hsole, hsole] at h
  split_ifs at h with hp hq hq
  · rw [hp, hq]
  · cases h
  · cases h
  · have hpowers := congrArg (fun vals : ValidatorSet => vals.validators.map Validator.votingPower) h
    simpa [countDown] using hpowers

section Agreement

variable (L : EpochLibs) {order : FinSet Address → List Address} {s : StateDB}

theorem nodup_order (horder : ∀ set, (order set).Perm set.toList) (set : FinSet Address) :
    (order set).Nodup :=
  (horder set).nodup_iff.2 (FinSet.nodup_toList set)

/-- The two powers of a validator.  Nothing is refundable under an address outside of the set. -/
theorem paidStake_eq_netStake_iff (horder : ∀ set, (order set).Perm set.toList)
    (hset : ∀ c u, 0 < s.getByUser .pendingRefund c u → c ∈ s.getSet .delegateRefund)
    (c : Address) :
    paidStake s (order (s.getSet .delegateRefund)) c = Epoch.netStake s c ↔
      s.getAmount .pendingRefundBalance c = refundable s c := by
  have hpaid : paidStake s (order (s.getSet .delegateRefund)) c =
      s.getAmount .proxiedBalance c + (s.getAmount .depositProxiedBalance c - refundable s c) +
        s.getAmount .depositBalance c := by
    unfold paidStake
    split_ifs with hmem
    · rfl
    · have hnone : refundable s c = 0 := List.sum_eq_zero fun x hx => by
        obtain ⟨u, -, rfl⟩ := List.mem_map.1 hx
        refine max_eq_left (not_lt.1 fun hpos => hmem ?_)
        exact (horder _).mem_iff.2 (Std.ExtTreeSet.mem_toList.2 (hset c u hpos))
      rw [hnone]
  rw [hpaid]
  unfold Epoch.netStake
  constructor <;> intro h <;> linarith

theorem DryRunAgrees.of_refundable (horder : ∀ set, (order set).Perm set.toList) (hs : s.Wf)
    (hset : ∀ c u, 0 < s.getByUser .pendingRefund c u → c ∈ s.getSet .delegateRefund)
    (h : ∀ c, s.getAmount .pendingRefundBalance c = refundable s c) : DryRunAgrees L order s := by
  intro ep next hnext
  obtain ⟨s', hrun⟩ := shouldEnterNewEpoch_returns L hs (nodup_order horder) hnext
  refine ⟨s', hrun.trans ?_⟩
  unfold Epoch.dryRunUpdateEpochValidatorSet
  rw [funext fun c => (paidStake_eq_netStake_iff horder hset c).2 (h c)]

/-- What is paid is the total, if the total is the sum of pending refunds none of which is negative,
exactly if every user with a pending refund is in the trie. -/
theorem pendingRefund_eq_refundable_iff {c : Address}
    (htotal : s.getAmount .pendingRefundBalance c = ∑ᶠ u, s.getByUser .pendingRefund c u)
    (hnonneg : ∀ u, 0 ≤ s.getByUser .pendingRefund c u) :
    s.getAmount .pendingRefundBalance c = refundable s c ↔
      ∀ u, 0 < s.getByUser .pendingRefund c u → u ∈ s.proxiedKeys c := by
  obtain ⟨l, hl⟩ := World.exists_books s.finite_accounts
  have hfinite : (Function.support fun u => s.getByUser .pendingRefund c u).Finite := by
    refine ((l.2 (.entry .pendingRefund)).hasFiniteSupport.preimage
      (Prod.mk_right_injective c).injOn).subset fun u hu => ?_
    rw [Set.mem_preimage, Function.mem_support, hl.record]
    exact fun hzero => hu ((StateDB.getByUser_eq ..).trans hzero)
  have hkeys : (s.proxiedKeys c).Nodup := by
    rw [StateDB.proxiedKeys_eq]
    exact Std.ExtTreeMap.nodup_keys
  have hpaid : refundable s c =
      ∑ u ∈ (s.proxiedKeys c).toFinset, s.getByUser .pendingRefund c u := by
    rw [List.sum_toFinset _ hkeys]
    exact congrArg List.sum (List.map_congr_left fun u _ => max_eq_right (hnonneg u))
  have hsum : ∑ᶠ u, s.getByUser .pendingRefund c u =
      ∑ u ∈ hfinite.toFinset ∪ (s.proxiedKeys c).toFinset, s.getByUser .pendingRefund c u :=
    finsum_eq_sum_of_support_subset _ fun u hu => by
      rw [Finset.coe_union]
      exact .inl (hfinite.mem_toFinset.2 hu)
  rw [htotal, hsum, hpaid, ← Finset.sum_sdiff Finset.subset_union_right, add_eq_right,
    Finset.sum_eq_zero_iff_of_nonneg fun u _ => hnonneg u]
  constructor
  · intro h u hpos
    by_contra hnot
    refine hpos.ne' (h u (Finset.mem_sdiff.2 ⟨Finset.mem_union_left _ ?_, ?_⟩))
    · exact hfinite.mem_toFinset.2 hpos.ne'
    · rwa [List.mem_toFinset]
  · intro h u hu
    by_contra hne
    exact (Finset.mem_sdiff.1 hu).2 (List.mem_toFinset.2
      (h u (lt_of_le_of_ne (hnonneg u) (Ne.symm hne))))

/-- **The dry run is the switch in every state opened from what is stored**, if its totals are the
sums of its records and its pending refunds are under addresses in the set of refunds. -/
theorem DryRunAgrees.of_stored {root : Root} (hroot : root.Wf)
    (horder : ∀ set, (order set).Perm set.toList)
    (htotal : ∀ c, (StateDB.new root).getAmount .pendingRefundBalance c =
      ∑ᶠ u, (StateDB.new root).getByUser .pendingRefund c u)
    (hset : ∀ c u, 0 < (StateDB.new root).getByUser .pendingRefund c u →
      c ∈ (StateDB.new root).getSet .delegateRefund) : DryRunAgrees L order (.new root) := by
  have hobject : ∀ c, (StateDB.new root).getStateObject c =
      (root.accounts[c]?).map StateObject.newObject := fun c => by
    unfold StateDB.getStateObject
    simp [StateDB.new]
  -- the records are those of the trie, which has no negative ones
  have hrecord : ∀ c u, (StateDB.new root).getByUser .pendingRefund c u = 0 ∨
      0 ≤ (StateDB.new root).getByUser .pendingRefund c u ∧
        u ∈ (StateDB.new root).proxiedKeys c := fun c u => by
    unfold StateDB.getByUser StateDB.proxiedKeys
    rw [hobject]
    cases haccount : root.accounts[c]? with
    | none => exact .inl rfl
    | some a =>
      show ((((StateObject.newObject a).getAccountProxiedBalance u).getD .new).get
        .pendingRefund = 0) ∨ 0 ≤ (((StateObject.newObject a).getAccountProxiedBalance u).getD
          .new).get .pendingRefund ∧ u ∈ a.proxiedTrie.keys
      have hget : (StateObject.newObject a).getAccountProxiedBalance u = a.proxiedTrie[u]? := by
        simp [StateObject.getAccountProxiedBalance, Cache.get, StateObject.newObject, Cache.empty]
      rw [hget]
      cases hvalue : a.proxiedTrie[u]? with
      | none => exact .inl rfl
      | some value =>
        have hkeep := (hroot.accounts c a haccount).kept u value hvalue
        unfold AccountProxiedBalance.keep AccountProxiedBalance.encodable at hkeep
        simp only [Bool.and_eq_true, decide_eq_true_eq] at hkeep
        refine .inr ⟨hkeep.2.2, Std.ExtTreeMap.mem_keys.2 ?_⟩
        exact Std.ExtTreeMap.mem_iff_isSome_getElem?.2 (by rw [hvalue]; rfl)
  refine .of_refundable L horder (StateDB.wf_new hroot.accounts) hset fun c => ?_
  refine (pendingRefund_eq_refundable_iff (htotal c) fun u => ?_).2 fun u hpos => ?_
  · exact (hrecord c u).elim (fun h => h.ge) fun h => h.1
  · exact ((hrecord c u).resolve_left hpos.ne').2

end Agreement

namespace PlainEpoch

theorem owing_cases (c : Address) : c = [2] ∨ c = [3] ∨
    c = [1] ∧ (StateDB.new owingRoot).getStateObject c = some (.newObject owner) ∨
    (StateDB.new owingRoot).getStateObject c = none := by
  have hobject : (StateDB.new owingRoot).getStateObject c =
      (owingRoot.accounts[c]?).map StateObject.newObject := by
    unfold StateDB.getStateObject
    simp [StateDB.new]
  rw [hobject]
  unfold owingRoot
  simp only [FinMap.getElem?_insert_ite]
  split_ifs with h₃ h₂ h₁
  · exact .inr (.inl h₃)
  · exact .inl h₂
  · exact .inr (.inr (.inl ⟨h₁, rfl⟩))
  · exact .inr (.inr (.inr (by simp)))

/-- A deposit of `[1]` under `[2]` that is to be refunded, before any `Finalise`. -/
def unstored : StateDB :=
  ((((StateDB.new .empty).addByUser .depositProxied [2] [1] 5).addByUser .pendingRefund [2] [1]
    5).addAmount .delegateBalance [1] 5).markSet .delegateRefund [2]

/-- What the state says, as bookings on an empty one. -/
theorem refines_unstored : unstored.Refines ((StateDB.new .empty).view.bookAll
    [.post [2] (.entry .depositProxied [1] 5), .post [2] (.entry .pendingRefund [1] 5),
      .post [1] (.amount .delegateBalance 5), .mark .delegateRefund [2]]) := by
  have hnew : (StateDB.new .empty).Refines (StateDB.new .empty).view :=
    ⟨StateDB.wf_new Root.wf_empty.accounts, rfl⟩
  have hbooked : Booked (do
      call (.addByUser .depositProxied [2] [1] 5)
      call (.addByUser .pendingRefund [2] [1] 5)
      call (.addAmount .delegateBalance [1] 5)
      call (.markSet .delegateRefund [2]) : Prog Op Empty Unit) (StateDB.new .empty).view () _ :=
    (booked_addByUser ..).bind ((booked_addByUser ..).bind ((booked_addAmount ..).bind
      (booked_mark ..)))
  obtain ⟨t, hrun, href, -⟩ := hbooked.run (Tame.bind (tame_call rfl) fun _ => Tame.bind
    (tame_call rfl) fun _ => Tame.bind (tame_call rfl) fun _ => tame_call rfl).marked hnew
  obtain rfl := (Prod.mk.inj (Except.ok.inj hrun)).2
  exact href

theorem books_unstored : unstored.view.Books
    (.entry (.entry .depositProxied) [2] [1] 5 + .amount .depositProxiedBalance [2] 5 +
      (.entry (.entry .pendingRefund) [2] [1] 5 + .amount .pendingRefundBalance [2] 5) +
      .amount .delegateBalance [1] 5) := by
  have hempty : (StateDB.new .empty).view.Books 0 := by
    have hacct : ∀ a, (StateDB.new .empty).view.acct a = .new := fun a =>
      World.acct_of_none (by simp [StateDB.accounts_view, StateDB.getStateObject, StateDB.new,
        Root.empty])
    refine ⟨fun field a => ?_, fun k c u => ?_⟩
    · unfold World.amount
      rw [hacct]
      rfl
    · cases k <;> simp [World.record, World.entry, World.reward, hacct, Acct.entry, Acct.new]
  have hbooks := hempty.bookAll [.post [2] (.entry .depositProxied [1] 5),
    .post [2] (.entry .pendingRefund [1] 5), .post [1] (.amount .delegateBalance 5),
    .mark .delegateRefund [2]]
  rw [← refines_unstored.view] at hbooks
  simpa [Booking.posted, Posting.posted, EntryField.total, add_assoc] using hbooks

end PlainEpoch

end Staking
end LigoChain
