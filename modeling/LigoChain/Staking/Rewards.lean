/-
# The reward of a block

`accumulateRewards` in `consensus/tendermint/engine.go`.  The fees of a block and its reward, which
a side chain takes from an account, are split between the coinbase and those who have a deposit
under it: the coinbase has its share and a commission of the rest, the delegators have what is
left, each in proportion to its deposit and rounded down, and what the rounding leaves goes to the
coinbase.

The share of the coinbase is computed in floating point; it is a parameter here.  What the function
books is `rewardBookings`; nothing is subtracted from a reward as long as the positive deposits
under the coinbase are not more than their total (`sum_individualReward_le`).
-/

import LigoChain.State.Totals
import LigoChain.Staking.Refunds

namespace LigoChain
namespace Staking

open State

variable {ε : Type} {w : World}

/-- `sideChainRewardAddress`, the bytes of `"LigooND9QsiAFbMan5tqVg899qAv2EsQ"`. -/
def sideChainRewardAddress : Address :=
  [0x4c, 0x69, 0x67, 0x6f, 0x6f, 0x4e, 0x44, 0x39, 0x51, 0x73, 0x69, 0x41, 0x46, 0x62, 0x4d, 0x61,
   0x6e, 0x35, 0x74, 0x71, 0x56, 0x67, 0x38, 0x39, 0x39, 0x71, 0x41, 0x76, 0x32, 0x45, 0x73, 0x51]

/-- The share of the coinbase, from the reward, its own deposit and all deposits: the reward times
the quotient of the deposits, in floating point and rounded to an integer. -/
abbrev SelfShare := ℤ → ℤ → ℤ → ℤ

/-- The first part of `accumulateRewards`: what the coinbase has to split.  A side chain takes its
reward from an account. -/
def coinbaseReward (isMainChain : Bool) (rewardPerBlock totalGasFee : ℤ) : Prog Op ε ℤ :=
  if isMainChain then
    pure (if 0 < rewardPerBlock then rewardPerBlock + totalGasFee else totalGasFee)
  else do
    let rewardPerBlock ← call .getSideChainRewardPerBlock
    if 0 < rewardPerBlock then
      let sideChainRewardBalance ← call (.getAmount .balance sideChainRewardAddress)
      let rewardPerBlock :=
        if sideChainRewardBalance < rewardPerBlock then sideChainRewardBalance else rewardPerBlock
      call (.subAmount .balance sideChainRewardAddress rewardPerBlock)
      pure (rewardPerBlock + totalGasFee)
    else pure totalGasFee

/-- The commission of the coinbase on what the delegators have. -/
def commissionReward (delegateReward : ℤ) (commission : ℕ) : ℤ :=
  if 0 < commission then (delegateReward * commission).tdiv 100 else 0

/-- What a delegator has of the reward, from its record. -/
def individualReward (delegateReward totalProxiedDeposit : ℤ) (value : AccountProxiedBalance) : ℤ :=
  (value.depositProxiedBalance * delegateReward).tdiv totalProxiedDeposit

/-- The last part of `accumulateRewards`: the delegators have their rewards, and the coinbase what
the rounding has left. -/
def payDelegators (coinbase : Address) (delegateReward totalProxiedDeposit : ℤ) :
    Prog Op ε Unit := do
  if 0 < delegateReward then
    let totalIndividualReward ← forEachProxied coinbase (fun sum key value =>
      if 0 < value.depositProxiedBalance then do
        let reward := individualReward delegateReward totalProxiedDeposit value
        call (.addRewardBalanceByDelegateAddress key coinbase reward)
        pure (sum + reward)
      else pure sum) 0
    if totalIndividualReward < delegateReward then
      call (.addRewardBalanceByDelegateAddress coinbase coinbase
        (delegateReward - totalIndividualReward))
    else if delegateReward < totalIndividualReward then
      call (.subRewardBalanceByDelegateAddress coinbase coinbase
        (totalIndividualReward - delegateReward))

/-- `accumulateRewards`. -/
def accumulateRewards (share : SelfShare) (isMainChain : Bool) (coinbase : Address)
    (rewardPerBlock totalGasFee : ℤ) : Prog Op ε Unit := do
  let reward ← coinbaseReward isMainChain rewardPerBlock totalGasFee
  let selfDeposit ← call (.getAmount .depositBalance coinbase)
  let totalProxiedDeposit ← call (.getAmount .depositProxiedBalance coinbase)
  if totalProxiedDeposit = 0 then
    call (.addRewardBalanceByDelegateAddress coinbase coinbase reward)
  else
    let selfReward := share reward selfDeposit (selfDeposit + totalProxiedDeposit)
    let delegateReward := reward - selfReward
    let commission ← call (.getCommission coinbase)
    let commissionReward := commissionReward delegateReward commission
    call (.addRewardBalanceByDelegateAddress coinbase coinbase (selfReward + commissionReward))
    payDelegators coinbase (delegateReward - commissionReward) totalProxiedDeposit

/-! ## What is booked -/

/-- The block reward that a side chain takes from its account. -/
def takenReward (w : World) : ℤ :=
  let rewardPerBlock :=
    (w.sideChainRewardPerBlock.memory.or w.sideChainRewardPerBlock.stored).getD 0
  if 0 < rewardPerBlock then min (w.amount .balance sideChainRewardAddress) rewardPerBlock else 0

/-- What the coinbase has to split. -/
def rewardOf (w : World) (isMainChain : Bool) (rewardPerBlock totalGasFee : ℤ) : ℤ :=
  if isMainChain then max 0 rewardPerBlock + totalGasFee else takenReward w + totalGasFee

theorem booked_coinbaseReward (isMainChain : Bool) (rewardPerBlock totalGasFee : ℤ) :
    ∃ bs, Booked (coinbaseReward isMainChain rewardPerBlock totalGasFee : Prog Op ε ℤ) w
        (rewardOf w isMainChain rewardPerBlock totalGasFee) bs ∧
      (bs = [] ∧ (isMainChain = true ∨ takenReward w = 0) ∨ isMainChain = false ∧
        bs = [.post sideChainRewardAddress (.amount .balance (-takenReward w))]) := by
  cases isMainChain with
  | true =>
    refine ⟨[], ?_, .inl ⟨rfl, .inl rfl⟩⟩
    have hreward : rewardOf w true rewardPerBlock totalGasFee =
        if 0 < rewardPerBlock then rewardPerBlock + totalGasFee else totalGasFee := by
      simp only [rewardOf, if_true]
      omega
    rw [hreward]
    exact booked_pure _
  | false =>
    have hreward : rewardOf w false rewardPerBlock totalGasFee = takenReward w + totalGasFee := rfl
    by_cases hpos : 0 < (w.sideChainRewardPerBlock.memory.or w.sideChainRewardPerBlock.stored).getD 0
    · refine ⟨_, ?_, .inr ⟨rfl, rfl⟩⟩
      refine booked_read_bind rfl ?_
      rw [if_pos hpos]
      refine booked_read_bind rfl ?_
      rw [hreward, takenReward, if_pos hpos, min_def_lt]
      exact Booked.bind (booked_subAmount ..) (booked_pure _)
    · have htaken : takenReward w = 0 := if_neg hpos
      refine ⟨[], ?_, .inl ⟨rfl, .inr htaken⟩⟩
      refine booked_read_bind rfl ?_
      rw [if_neg hpos, hreward, htaken, zero_add]
      exact booked_pure _

/-- What is booked for a delegator. -/
def delegatorReward (coinbase : Address) (delegateReward totalProxiedDeposit : ℤ) (key : Address)
    (value : AccountProxiedBalance) : List Booking :=
  if 0 < value.depositProxiedBalance then
    [.post key (.reward coinbase (individualReward delegateReward totalProxiedDeposit value))]
  else []

/-- What the delegators in the trie have together. -/
def totalIndividualReward (w : World) (coinbase : Address)
    (delegateReward totalProxiedDeposit : ℤ) : ℤ :=
  ((w.acct coinbase).data.proxiedTrie.keys.map fun key =>
    if 0 < (w.entry coinbase key).depositProxiedBalance then
      individualReward delegateReward totalProxiedDeposit (w.entry coinbase key) else 0).sum

/-- What is booked for the delegators. -/
def delegatorBookings (w : World) (coinbase : Address)
    (delegateReward totalProxiedDeposit : ℤ) : List Booking :=
  if 0 < delegateReward then
    ((w.acct coinbase).data.proxiedTrie.keys.flatMap fun key =>
      delegatorReward coinbase delegateReward totalProxiedDeposit key (w.entry coinbase key)) ++
    if totalIndividualReward w coinbase delegateReward totalProxiedDeposit < delegateReward then
      [.post coinbase (.reward coinbase
        (delegateReward - totalIndividualReward w coinbase delegateReward totalProxiedDeposit))]
    else []
  else []

/-- What the delegators have together is what the loop has summed up. -/
theorem foldl_individualReward (coinbase : Address) (delegateReward totalProxiedDeposit : ℤ)
    (keys : List Address) (sum : ℤ) :
    keys.foldl (fun sum key => if 0 < (w.entry coinbase key).depositProxiedBalance then
      sum + individualReward delegateReward totalProxiedDeposit (w.entry coinbase key)
      else sum) sum =
    sum + (keys.map fun key => if 0 < (w.entry coinbase key).depositProxiedBalance then
      individualReward delegateReward totalProxiedDeposit (w.entry coinbase key) else 0).sum := by
  induction keys generalizing sum with
  | nil => simp
  | cons key keys ih =>
    rw [List.foldl_cons, ih, List.map_cons, List.sum_cons, ← add_assoc]
    congr 1
    split_ifs
    · rfl
    · rw [add_zero]

/-- **What the delegators are paid**, if it is not more than their part. -/
theorem booked_payDelegators (coinbase : Address) (delegateReward totalProxiedDeposit : ℤ)
    (hle : totalIndividualReward w coinbase delegateReward totalProxiedDeposit ≤ delegateReward) :
    Booked (payDelegators coinbase delegateReward totalProxiedDeposit : Prog Op ε Unit) w ()
      (delegatorBookings w coinbase delegateReward totalProxiedDeposit) := by
  unfold payDelegators delegatorBookings
  by_cases hpos : 0 < delegateReward
  · rw [if_pos hpos, if_pos hpos]
    refine Booked.bind (booked_forEachProxied
      (fun sum _ value => if 0 < value.depositProxiedBalance then
        sum + individualReward delegateReward totalProxiedDeposit value else sum)
      (delegatorReward coinbase delegateReward totalProxiedDeposit)
      (fun sum key value w' => ?_) fun key value b hb field u hu => ?_) ?_
    · unfold delegatorReward
      split_ifs
      · exact Booked.bind (booked_addReward ..) (booked_pure _)
      · exact booked_pure _
    · unfold delegatorReward at hb
      split_ifs at hb
      · rw [List.mem_singleton.1 hb]
        rfl
      · exact absurd hb List.not_mem_nil
    · rw [foldl_individualReward, zero_add, ← totalIndividualReward]
      split_ifs with hlt hgt
      · exact booked_addReward ..
      · exact absurd hgt (not_lt.2 hle)
      · exact booked_pure _
  · rw [if_neg hpos, if_neg hpos]
    exact booked_pure _

/-! ## The rounding -/

theorem individualReward_mul_le {delegateReward total : ℤ} {value : AccountProxiedBalance}
    (hreward : 0 ≤ delegateReward) (htotal : 0 < total) (hdeposit : 0 ≤ value.depositProxiedBalance) :
    individualReward delegateReward total value * total ≤
      value.depositProxiedBalance * delegateReward := by
  unfold individualReward
  rw [Int.tdiv_eq_ediv_of_nonneg (mul_nonneg hdeposit hreward)]
  exact Int.ediv_mul_le _ htotal.ne'

theorem individualReward_nonneg {delegateReward total : ℤ} {value : AccountProxiedBalance}
    (hreward : 0 ≤ delegateReward) (htotal : 0 ≤ total) (hdeposit : 0 ≤ value.depositProxiedBalance) :
    0 ≤ individualReward delegateReward total value :=
  Int.tdiv_nonneg (mul_nonneg hdeposit hreward) htotal

/-- The commission is a part of what it is taken from. -/
theorem commissionReward_mem {delegateReward : ℤ} {commission : ℕ} (hreward : 0 ≤ delegateReward)
    (hcommission : commission ≤ 100) :
    0 ≤ commissionReward delegateReward commission ∧
      commissionReward delegateReward commission ≤ delegateReward := by
  have hcast : (commission : ℤ) ≤ 100 := by exact_mod_cast hcommission
  unfold commissionReward
  split_ifs
  · refine ⟨Int.tdiv_nonneg (mul_nonneg hreward (Int.natCast_nonneg _)) (by decide), ?_⟩
    rw [Int.tdiv_eq_ediv_of_nonneg (mul_nonneg hreward (Int.natCast_nonneg _))]
    exact Int.ediv_le_of_le_mul (by decide) (mul_le_mul_of_nonneg_left hcast hreward)
  · exact ⟨le_rfl, hreward⟩

/-- **The delegators have no more than their part**, if the positive deposits in the trie are not
more than the total. -/
theorem totalIndividualReward_le {coinbase : Address} {delegateReward total : ℤ}
    (hreward : 0 ≤ delegateReward) (htotal : 0 < total)
    (hsum : ((w.acct coinbase).data.proxiedTrie.keys.map fun key =>
      max 0 (w.entry coinbase key).depositProxiedBalance).sum ≤ total) :
    totalIndividualReward w coinbase delegateReward total ≤ delegateReward := by
  have hmul : totalIndividualReward w coinbase delegateReward total * total ≤
      ((w.acct coinbase).data.proxiedTrie.keys.map fun key =>
        max 0 (w.entry coinbase key).depositProxiedBalance).sum * delegateReward := by
    unfold totalIndividualReward
    rw [← List.sum_map_mul_right, ← List.sum_map_mul_right]
    refine List.sum_le_sum fun key _ => ?_
    split_ifs with hpos
    · rw [max_eq_right hpos.le]
      exact individualReward_mul_le hreward htotal hpos.le
    · rw [zero_mul]
      exact mul_nonneg (le_max_left _ _) hreward
  refine le_of_mul_le_mul_right (hmul.trans ?_) htotal
  rw [mul_comm delegateReward]
  exact mul_le_mul_of_nonneg_right hsum hreward

/-! ## The whole function -/

section Split

variable (share : SelfShare) (coinbase : Address) (reward : ℤ)

/-- The share of the coinbase. -/
def selfReward (w : World) : ℤ :=
  share reward (w.amount .depositBalance coinbase)
    (w.amount .depositBalance coinbase + w.amount .depositProxiedBalance coinbase)

/-- The commission of the coinbase. -/
def commissionOf (w : World) : ℤ :=
  commissionReward (reward - selfReward share coinbase reward w)
    (w.acct coinbase).data.commission

/-- The delegators' part. -/
def delegatePart (w : World) : ℤ :=
  if w.amount .depositProxiedBalance coinbase = 0 then 0
  else reward - selfReward share coinbase reward w - commissionOf share coinbase reward w

/-- What is booked for the reward of a block. -/
def rewardBookings (w : World) : List Booking :=
  .post coinbase (.reward coinbase (reward - delegatePart share coinbase reward w)) ::
    delegatorBookings w coinbase (delegatePart share coinbase reward w)
      (w.amount .depositProxiedBalance coinbase)

end Split

/-- Bookings that leave the records of the coinbase. -/
theorem delegatorBookings_bookAll {coinbase : Address} {bs : List Booking}
    (hbs : ∀ b ∈ bs, ∀ field u, b.entryAt field coinbase u = 0) (delegateReward total : ℤ) :
    totalIndividualReward (w.bookAll bs) coinbase delegateReward total =
        totalIndividualReward w coinbase delegateReward total ∧
      delegatorBookings (w.bookAll bs) coinbase delegateReward total =
        delegatorBookings w coinbase delegateReward total := by
  have hentry : ∀ key, (w.bookAll bs).entry coinbase key = w.entry coinbase key := fun key =>
    entry_bookAll_of_own fun b hb field => hbs b hb field key
  have htotal : totalIndividualReward (w.bookAll bs) coinbase delegateReward total =
      totalIndividualReward w coinbase delegateReward total := by
    unfold totalIndividualReward
    rw [World.proxiedTrie_bookAll]
    simp only [hentry]
  refine ⟨htotal, ?_⟩
  unfold delegatorBookings
  rw [World.proxiedTrie_bookAll, htotal]
  simp only [hentry]

/-- The booking of a side chain for its block reward changes a balance only. -/
def TakesReward (isMainChain : Bool) (w : World) (bs : List Booking) : Prop :=
  bs = [] ∧ (isMainChain = true ∨ takenReward w = 0) ∨ isMainChain = false ∧
    bs = [.post sideChainRewardAddress (.amount .balance (-takenReward w))]

theorem TakesReward.entryAt {isMainChain : Bool} {bs : List Booking}
    (h : TakesReward isMainChain w bs) : ∀ b ∈ bs, ∀ field c u, b.entryAt field c u = 0 := by
  rintro b hb field c u
  rcases h with ⟨rfl, -⟩ | ⟨-, rfl⟩
  · exact absurd hb List.not_mem_nil
  · rw [List.mem_singleton.1 hb]
    rfl

theorem TakesReward.data {isMainChain : Bool} {bs : List Booking} (h : TakesReward isMainChain w bs)
    (a : Address) : ((w.bookAll bs).acct a).data.commission = (w.acct a).data.commission ∧
      ∀ field, field ≠ .balance → (w.bookAll bs).amount field a = w.amount field a := by
  rcases h with ⟨rfl, -⟩ | ⟨-, rfl⟩
  · exact ⟨rfl, fun _ _ => rfl⟩
  · refine ⟨?_, fun field hfield => ?_⟩
    · rw [World.bookAll_cons, World.bookAll_nil, World.acct_post]
      split_ifs <;> rfl
    · rw [World.amount_bookAll]
      simp [Booking.amountAt, Posting.delta, hfield]

/-- **What `accumulateRewards` books**, if the delegators have no more than their part. -/
theorem booked_accumulateRewards (share : SelfShare) (isMainChain : Bool) (coinbase : Address)
    (rewardPerBlock totalGasFee : ℤ) {reward : ℤ}
    (hreward : reward = rewardOf w isMainChain rewardPerBlock totalGasFee)
    (hle : totalIndividualReward w coinbase (delegatePart share coinbase reward w)
      (w.amount .depositProxiedBalance coinbase) ≤ delegatePart share coinbase reward w) :
    ∃ side, TakesReward isMainChain w side ∧
      Booked (accumulateRewards share isMainChain coinbase rewardPerBlock totalGasFee :
        Prog Op ε Unit) w () (side ++ rewardBookings share coinbase reward w) := by
  obtain ⟨side, hside, htakes⟩ :=
    @booked_coinbaseReward ε w isMainChain rewardPerBlock totalGasFee
  rw [← hreward] at hside
  refine ⟨side, htakes, hside.bind ?_⟩
  have htakes : TakesReward isMainChain w side := htakes
  obtain ⟨hcommission, hamount⟩ := htakes.data coinbase
  refine booked_read_bind rfl (booked_read_bind rfl ?_)
  rw [hamount _ (by decide), hamount _ (by decide)]
  by_cases hzero : w.amount .depositProxiedBalance coinbase = 0
  · have hpart : delegatePart share coinbase reward w = 0 := if_pos hzero
    unfold rewardBookings delegatorBookings
    rw [if_pos hzero, hpart, if_neg (lt_irrefl _), sub_zero]
    exact booked_addReward ..
  · have hpart : delegatePart share coinbase reward w =
        reward - selfReward share coinbase reward w - commissionOf share coinbase reward w :=
      if_neg hzero
    rw [if_neg hzero]
    refine booked_read_bind rfl ?_
    rw [hcommission]
    have hself : reward - delegatePart share coinbase reward w =
        selfReward share coinbase reward w + commissionOf share coinbase reward w := by
      rw [hpart]
      ring
    have hbs : ∀ b ∈ side ++ [Booking.post coinbase (.reward coinbase
        (selfReward share coinbase reward w + commissionOf share coinbase reward w))],
        ∀ field u, b.entryAt field coinbase u = 0 := fun b hb field u => by
      rcases List.mem_append.1 hb with hb | hb
      · exact htakes.entryAt b hb field coinbase u
      · rw [List.mem_singleton.1 hb]
        rfl
    obtain ⟨htotal, hbookings⟩ := @delegatorBookings_bookAll w coinbase _ hbs
      (delegatePart share coinbase reward w) (w.amount .depositProxiedBalance coinbase)
    have hpay := @booked_payDelegators ε _ coinbase _ _ (htotal.trans_le hle)
    rw [hbookings, World.bookAll_append] at hpay
    rw [rewardBookings, hself]
    rw [hpart] at hpay ⊢
    exact Booked.bind (booked_addReward ..) hpay

theorem unmarked_payDelegators (coinbase : Address) (delegateReward total : ℤ) :
    Unmarked (payDelegators coinbase delegateReward total : Prog Op ε Unit) := by
  refine unmarked_ite ((unmarked_forEachProxied (fun _ _ _ => unmarked_ite
    ((unmarked_call rfl).bind fun _ => unmarked_pure _) (unmarked_pure _)) 0).bind fun _ => ?_)
    (unmarked_pure _)
  exact unmarked_ite (unmarked_call rfl) (unmarked_ite (unmarked_call rfl) (unmarked_pure _))

theorem unmarked_accumulateRewards (share : SelfShare) (isMainChain : Bool) (coinbase : Address)
    (rewardPerBlock totalGasFee : ℤ) :
    Unmarked (accumulateRewards share isMainChain coinbase rewardPerBlock totalGasFee :
      Prog Op ε Unit) := by
  refine Unmarked.bind (unmarked_ite (unmarked_pure _) ((unmarked_call rfl).bind fun _ =>
    unmarked_ite ((unmarked_call rfl).bind fun _ => (unmarked_call rfl).bind fun _ =>
      unmarked_pure _) (unmarked_pure _))) fun reward => ?_
  refine (unmarked_call rfl).bind fun _ => (unmarked_call rfl).bind fun _ => unmarked_ite
    (unmarked_call rfl) ((unmarked_call rfl).bind fun _ => (unmarked_call rfl).bind fun _ =>
      unmarked_payDelegators _ _ _)

/-! ## What the bookings add up to -/

/-- The booking adds to a reward. -/
def AddsReward (b : Booking) : Prop := ∃ a d x, 0 ≤ x ∧ b = .post a (.reward d x)

theorem AddsReward.amountAt {b : Booking} (h : AddsReward b) (a : Address) :
    0 ≤ b.amountAt .rewardBalance a := by
  obtain ⟨a', d, x, hx, rfl⟩ := h
  unfold Booking.amountAt
  dsimp only
  split_ifs
  · exact hx
  · exact le_rfl

theorem AddsReward.rewardAt {b : Booking} (h : AddsReward b) (a d : Address) :
    0 ≤ b.rewardAt a d := by
  obtain ⟨a', d', x, hx, rfl⟩ := h
  unfold Booking.rewardAt
  dsimp only
  split_ifs
  · exact hx
  · exact le_rfl

section Sums

variable {coinbase : Address} {part total : ℤ}

/-- The delegators are paid, and the coinbase has what the rounding has left. -/
theorem addsReward_delegatorBookings (htotal : 0 ≤ total) :
    ∀ b ∈ delegatorBookings w coinbase part total, AddsReward b := by
  intro b hb
  have hkey : ∀ key, 0 < part → b ∈ delegatorReward coinbase part total key (w.entry coinbase key) →
      AddsReward b := fun key hpos hb => by
    unfold delegatorReward at hb
    split_ifs at hb with hdeposit
    · exact ⟨key, coinbase, _, individualReward_nonneg hpos.le htotal hdeposit.le,
        List.mem_singleton.1 hb⟩
    · exact absurd hb List.not_mem_nil
  unfold delegatorBookings at hb
  split_ifs at hb with hpos hlt
  · rcases List.mem_append.1 hb with hb | hb
    · obtain ⟨key, -, hb⟩ := List.mem_flatMap.1 hb
      exact hkey key hpos hb
    · exact ⟨coinbase, coinbase, _, (sub_pos.2 hlt).le, List.mem_singleton.1 hb⟩
  · rw [List.append_nil] at hb
    obtain ⟨key, -, hb⟩ := List.mem_flatMap.1 hb
    exact hkey key hpos hb
  · exact absurd hb List.not_mem_nil

/-- What the delegators and the coinbase are paid is the delegators' part. -/
theorem overall_delegatorBookings (hpart : 0 ≤ part)
    (hle : totalIndividualReward w coinbase part total ≤ part) :
    Ledger.overall .rewardBalance ((delegatorBookings w coinbase part total).map
      Booking.posted).sum = part := by
  have hkeys : Ledger.overall .rewardBalance (((w.acct coinbase).data.proxiedTrie.keys.flatMap
      fun key => delegatorReward coinbase part total key (w.entry coinbase key)).map
        Booking.posted).sum = totalIndividualReward w coinbase part total := by
    rw [sum_map_flatMap, map_list_sum, List.map_map]
    refine congrArg List.sum (List.map_congr_left fun key _ => ?_)
    unfold delegatorReward
    dsimp only [Function.comp]
    split_ifs <;> simp [Booking.posted, Posting.posted]
  unfold delegatorBookings
  split_ifs with hpos hlt
  · rw [List.map_append, List.sum_append, map_add, hkeys]
    simp [Booking.posted, Posting.posted]
  · rw [List.append_nil, hkeys]
    exact le_antisymm hle (not_lt.1 hlt)
  · simpa using le_antisymm hpart (not_lt.1 hpos)

/-- What another account has of the delegators' part. -/
theorem sum_rewardAt_delegatorBookings {u : Address} (hu : u ≠ coinbase) (htotal : 0 < total)
    (hpart : 0 ≤ part) :
    ((delegatorBookings w coinbase part total).map (Booking.rewardAt u coinbase)).sum * total ≤
      max 0 (w.entry coinbase u).depositProxiedBalance * part := by
  have hkeys : (((w.acct coinbase).data.proxiedTrie.keys.flatMap fun key =>
      delegatorReward coinbase part total key (w.entry coinbase key)).map
        (Booking.rewardAt u coinbase)).sum =
      ((w.acct coinbase).data.proxiedTrie.keys.map fun key => if u = key then
        if 0 < (w.entry coinbase key).depositProxiedBalance then
          individualReward part total (w.entry coinbase key) else 0 else 0).sum := by
    rw [sum_map_flatMap]
    refine congrArg List.sum (List.map_congr_left fun key _ => ?_)
    unfold delegatorReward
    split_ifs with hdeposit hkey hkey <;> simp_all [Booking.rewardAt]
  have hrest : ∀ x : ℤ, (Booking.post coinbase (.reward coinbase x)).rewardAt u coinbase = 0 :=
    fun x => if_neg fun h => hu h.1
  have hnonneg : 0 ≤ max 0 (w.entry coinbase u).depositProxiedBalance * part :=
    mul_nonneg (le_max_left _ _) hpart
  have hlist : ((delegatorBookings w coinbase part total).map (Booking.rewardAt u coinbase)).sum =
      if 0 < part ∧ u ∈ (w.acct coinbase).data.proxiedTrie.keys ∧
          0 < (w.entry coinbase u).depositProxiedBalance then
        individualReward part total (w.entry coinbase u) else 0 := by
    unfold delegatorBookings
    split_ifs with hpos hlt h h h <;> simp_all [sum_map_ite Std.ExtTreeMap.nodup_keys u]
  rw [hlist]
  split_ifs with h
  · rw [max_eq_right h.2.2.le]
    exact individualReward_mul_le hpart htotal h.2.2.le
  · rw [zero_mul]
    exact hnonneg

end Sums

/-! ## The split of a reward -/

/-- What `accumulateRewards` is called with: the reward and the fees are not negative, the
commission is a percentage, the positive deposits under the coinbase sum up to the total, and the
share of the coinbase is between nothing and all of the reward.  A side chain has not overdrawn its
account. -/
structure Splittable (share : SelfShare) (isMainChain : Bool) (coinbase : Address)
    (rewardPerBlock totalGasFee : ℤ) (s : StateDB) : Prop where
  reward_nonneg : 0 ≤ rewardPerBlock
  fee_nonneg : 0 ≤ totalGasFee
  commission_le : s.getCommission coinbase ≤ 100
  deposits : ∑ᶠ u, max 0 (s.getByUser .depositProxied coinbase u) =
    s.getAmount .depositProxiedBalance coinbase
  balance_nonneg : isMainChain = false → 0 ≤ s.getAmount .balance sideChainRewardAddress
  share_mem : s.getAmount .depositProxiedBalance coinbase ≠ 0 →
    0 ≤ selfReward share coinbase (rewardOf s.view isMainChain rewardPerBlock totalGasFee) s.view ∧
      selfReward share coinbase (rewardOf s.view isMainChain rewardPerBlock totalGasFee) s.view ≤
        rewardOf s.view isMainChain rewardPerBlock totalGasFee

section Splittable

variable {share : SelfShare} {isMainChain : Bool} {coinbase : Address}
  {rewardPerBlock totalGasFee : ℤ} {s : StateDB}

variable (h : Splittable share isMainChain coinbase rewardPerBlock totalGasFee s)

theorem takenReward_nonneg (hbalance : 0 ≤ w.amount .balance sideChainRewardAddress) :
    0 ≤ takenReward w ∧ takenReward w ≤ w.amount .balance sideChainRewardAddress := by
  unfold takenReward
  dsimp only
  split_ifs with hpos
  · exact ⟨le_min hbalance hpos.le, min_le_left _ _⟩
  · exact ⟨le_rfl, hbalance⟩

include h

/-- The deposits that the loop sees are not more than the total. -/
theorem Splittable.deposits_le :
    ((s.view.acct coinbase).data.proxiedTrie.keys.map fun key =>
      max 0 (s.view.entry coinbase key).depositProxiedBalance).sum ≤
        s.view.amount .depositProxiedBalance coinbase := by
  obtain ⟨l, hl⟩ := World.exists_books s.finite_accounts
  have hfinite : (Function.support fun u =>
      max 0 (s.getByUser .depositProxied coinbase u)).Finite := by
    refine ((l.2 (.entry .depositProxied)).hasFiniteSupport.preimage
      (Prod.mk_right_injective coinbase).injOn).subset fun u hu => ?_
    rw [Set.mem_preimage, Function.mem_support, hl.record]
    refine fun hzero => hu ?_
    show max 0 (s.getByUser .depositProxied coinbase u) = 0
    rw [StateDB.getByUser_eq]
    exact max_eq_left (le_of_eq hzero)
  have hsum : ((s.view.acct coinbase).data.proxiedTrie.keys.map fun key =>
      max 0 (s.view.entry coinbase key).depositProxiedBalance).sum =
      ∑ u ∈ (s.view.acct coinbase).data.proxiedTrie.keys.toFinset,
        max 0 (s.getByUser .depositProxied coinbase u) := by
    rw [List.sum_toFinset _ Std.ExtTreeMap.nodup_keys]
    refine congrArg List.sum (List.map_congr_left fun u _ => ?_)
    rw [StateDB.getByUser_eq]
    rfl
  rw [hsum, ← StateDB.getAmount_eq, ← h.deposits, finsum_eq_sum_of_support_subset _
    (s := hfinite.toFinset ∪ (s.view.acct coinbase).data.proxiedTrie.keys.toFinset) ?_]
  · exact Finset.sum_le_sum_of_subset_of_nonneg Finset.subset_union_right
      fun u _ _ => le_max_left _ _
  · rw [Finset.coe_union]
    exact fun u hu => .inl (hfinite.mem_toFinset.2 hu)

theorem Splittable.reward_nonneg' :
    0 ≤ rewardOf s.view isMainChain rewardPerBlock totalGasFee := by
  unfold rewardOf
  split_ifs with hmain
  · exact add_nonneg (le_max_left _ _) h.fee_nonneg
  · refine add_nonneg (takenReward_nonneg ?_).1 h.fee_nonneg
    rw [← StateDB.getAmount_eq]
    exact h.balance_nonneg (Bool.eq_false_iff.2 hmain)

/-- The delegators' part is a part of the reward. -/
theorem Splittable.delegatePart_mem :
    0 ≤ delegatePart share coinbase (rewardOf s.view isMainChain rewardPerBlock totalGasFee)
        s.view ∧
      delegatePart share coinbase (rewardOf s.view isMainChain rewardPerBlock totalGasFee) s.view ≤
        rewardOf s.view isMainChain rewardPerBlock totalGasFee := by
  unfold delegatePart
  split_ifs with hzero
  · exact ⟨le_rfl, h.reward_nonneg'⟩
  · have hshare := h.share_mem (by rwa [StateDB.getAmount_eq])
    have hcommission := @commissionReward_mem _ (s.view.acct coinbase).data.commission
      (sub_nonneg.2 hshare.2) (by rw [← StateDB.getCommission_eq]; exact h.commission_le)
    unfold commissionOf
    exact ⟨by linarith [hcommission.2], by linarith [hcommission.1, hshare.1]⟩

theorem Splittable.total_pos (hzero : s.view.amount .depositProxiedBalance coinbase ≠ 0) :
    0 < s.view.amount .depositProxiedBalance coinbase := by
  refine lt_of_le_of_ne ?_ (Ne.symm hzero)
  rw [← StateDB.getAmount_eq, ← h.deposits]
  exact finsum_nonneg fun u => le_max_left _ _

theorem Splittable.totalIndividualReward_le :
    totalIndividualReward s.view coinbase (delegatePart share coinbase
        (rewardOf s.view isMainChain rewardPerBlock totalGasFee) s.view)
      (s.view.amount .depositProxiedBalance coinbase) ≤
    delegatePart share coinbase (rewardOf s.view isMainChain rewardPerBlock totalGasFee) s.view := by
  by_cases hzero : s.view.amount .depositProxiedBalance coinbase = 0
  · have hnone : totalIndividualReward s.view coinbase (delegatePart share coinbase
        (rewardOf s.view isMainChain rewardPerBlock totalGasFee) s.view) 0 = 0 :=
      List.sum_eq_zero fun x hx => by
        obtain ⟨key, -, rfl⟩ := List.mem_map.1 hx
        unfold individualReward
        rw [Int.tdiv_zero, ite_self]
    rw [hzero, hnone]
    exact h.delegatePart_mem.1
  · exact Staking.totalIndividualReward_le h.delegatePart_mem.1 (h.total_pos hzero) h.deposits_le

omit h

/-- The bookings of a call: a side chain takes its block reward, all else adds to rewards, sums up
to the reward, and gives no delegator but the coinbase more than its part. -/
structure Rewarded (share : SelfShare) (isMainChain : Bool) (coinbase : Address) (reward : ℤ)
    (w : World) (side paid : List Booking) : Prop where
  takes : TakesReward isMainChain w side
  adds : ∀ b ∈ paid, AddsReward b
  overall : Ledger.overall .rewardBalance (paid.map Booking.posted).sum = reward
  parts : ∀ u, u ≠ coinbase →
    (paid.map (Booking.rewardAt u coinbase)).sum * w.amount .depositProxiedBalance coinbase ≤
      max 0 (w.entry coinbase u).depositProxiedBalance * delegatePart share coinbase reward w

/-- **What `accumulateRewards` books on a state.** -/
theorem Splittable.run (h : Splittable share isMainChain coinbase rewardPerBlock totalGasFee s)
    (hs : s.Wf) :
    ∃ t side paid, (accumulateRewards share isMainChain coinbase rewardPerBlock totalGasFee :
        Prog Op ε Unit).run Op.run s = .ok (.ok (), t) ∧
      t.Refines (s.view.bookAll (side ++ paid)) ∧
      Rewarded share isMainChain coinbase
        (rewardOf s.view isMainChain rewardPerBlock totalGasFee) s.view side paid := by
  obtain ⟨side, htakes, hbooked⟩ := @booked_accumulateRewards ε s.view share isMainChain
    coinbase rewardPerBlock totalGasFee _ rfl h.totalIndividualReward_le
  obtain ⟨t, hrun, href, -⟩ := hbooked.run (unmarked_accumulateRewards ..) ⟨hs, rfl⟩
  have hpart := h.delegatePart_mem
  refine ⟨t, side, _, hrun, href, htakes, fun b hb => ?_, ?_, fun u hu => ?_⟩
  · rcases List.mem_cons.1 hb with rfl | hb
    · exact ⟨coinbase, coinbase, _, sub_nonneg.2 hpart.2, rfl⟩
    · by_cases hzero : s.view.amount .depositProxiedBalance coinbase = 0
      · exact addsReward_delegatorBookings hzero.ge b hb
      · exact addsReward_delegatorBookings (h.total_pos hzero).le b hb
  · unfold rewardBookings
    rw [List.map_cons, List.sum_cons, map_add,
      overall_delegatorBookings hpart.1 h.totalIndividualReward_le]
    simp [Booking.posted, Posting.posted]
  · have hself : ∀ x : ℤ, (Booking.post coinbase (.reward coinbase x)).rewardAt u coinbase = 0 :=
      fun x => if_neg fun heq => hu heq.1
    unfold rewardBookings
    rw [List.map_cons, List.sum_cons, hself, zero_add]
    by_cases hzero : s.view.amount .depositProxiedBalance coinbase = 0
    · rw [hzero, mul_zero]
      exact mul_nonneg (le_max_left _ _) hpart.1
    · exact sum_rewardAt_delegatorBookings hu (h.total_pos hzero) hpart.1

/-- What a side chain has taken is what its account has less. -/
theorem TakesReward.spec {bs : List Booking} (h : TakesReward isMainChain w bs) :
    Ledger.overall .rewardBalance (bs.map Booking.posted).sum = 0 ∧
      (bs.map (Booking.amountAt .balance sideChainRewardAddress)).sum =
        (if isMainChain then 0 else -takenReward w) ∧
      ∀ a, (bs.map (Booking.amountAt .rewardBalance a)).sum = 0 ∧
        ∀ d, (bs.map (Booking.rewardAt a d)).sum = 0 := by
  rcases h with ⟨rfl, hmain⟩ | ⟨hside, rfl⟩
  · refine ⟨by simp, ?_, fun a => ⟨rfl, fun d => rfl⟩⟩
    rcases hmain with hmain | htaken
    · simp [hmain]
    · simp [htaken]
  · refine ⟨by simp [Booking.posted, Posting.posted], ?_, fun a => ⟨?_, fun d => rfl⟩⟩
    · simp [hside, Booking.amountAt, Posting.delta]
    · simp [Booking.amountAt, Posting.delta]

section Rewarded

variable {reward : ℤ} {side paid : List Booking} {t : StateDB}

theorem Rewarded.entry (h : Rewarded share isMainChain coinbase reward s.view side paid)
    (ht : t.view = s.view.bookAll (side ++ paid)) (a d : Address) :
    t.getRewardBalanceByDelegateAddress a d =
      s.getRewardBalanceByDelegateAddress a d + (paid.map (Booking.rewardAt a d)).sum := by
  rw [StateDB.getRewardBalanceByDelegateAddress_eq, StateDB.getRewardBalanceByDelegateAddress_eq,
    ← World.reward, ← World.reward, ht, World.reward_bookAll, List.map_append, List.sum_append,
    (h.takes.spec.2.2 a).2 d, zero_add]

theorem Rewarded.rewardBalance (h : Rewarded share isMainChain coinbase reward s.view side paid)
    (ht : t.view = s.view.bookAll (side ++ paid)) (a : Address) :
    t.getAmount .rewardBalance a =
      s.getAmount .rewardBalance a + (paid.map (Booking.amountAt .rewardBalance a)).sum := by
  rw [StateDB.getAmount_eq, StateDB.getAmount_eq, ht, World.amount_bookAll, List.map_append,
    List.sum_append, (h.takes.spec.2.2 a).1, zero_add]

/-- The account of a side chain after the call. -/
theorem Rewarded.balance (h : Rewarded share isMainChain coinbase reward s.view side paid)
    (ht : t.view = s.view.bookAll (side ++ paid)) :
    t.getAmount .balance sideChainRewardAddress =
      s.getAmount .balance sideChainRewardAddress +
        if isMainChain then 0 else -takenReward s.view := by
  have hpaid : (paid.map (Booking.amountAt .balance sideChainRewardAddress)).sum = 0 := by
    refine List.sum_eq_zero fun x hx => ?_
    obtain ⟨b, hb, rfl⟩ := List.mem_map.1 hx
    obtain ⟨a, d, y, -, rfl⟩ := h.adds b hb
    simp [Booking.amountAt, Posting.delta]
  rw [StateDB.getAmount_eq, StateDB.getAmount_eq, ht, World.amount_bookAll, List.map_append,
    List.sum_append, h.takes.spec.2.1, hpaid, add_zero]

theorem Rewarded.sum (h : Rewarded share isMainChain coinbase reward s.view side paid)
    (ht : t.view = s.view.bookAll (side ++ paid)) :
    ∑ᶠ a, t.getAmount .rewardBalance a = ∑ᶠ a, s.getAmount .rewardBalance a + reward := by
  obtain ⟨l, hl⟩ := World.exists_books s.finite_accounts
  have hl' := hl.bookAll (side ++ paid)
  rw [← ht] at hl'
  have hafter := hl'.overall .rewardBalance
  rw [map_add, List.map_append, List.sum_append, map_add, h.takes.spec.1, h.overall,
    hl.overall .rewardBalance, zero_add] at hafter
  simp only [StateDB.getAmount_eq]
  exact hafter.symm

end Rewarded

end Splittable

namespace PlainEpoch

/-- The only deposit under `[2]` is that of `[1]`. -/
theorem depositProxied_owing (u : Address) :
    (StateDB.new owingRoot).getByUser .depositProxied [2] u = if u = [1] then 5 else 0 := by
  have hobject : (StateDB.new owingRoot).getStateObject [2] = some (.newObject owing) := by
    have htrie : (StateDB.new owingRoot).trie[([2] : Address)]? = some owing := by
      show owingRoot.accounts[([2] : Address)]? = some owing
      unfold owingRoot
      rw [FinMap.getElem?_insert_ite, if_neg (by decide), FinMap.getElem?_insert_ite, if_pos rfl]
    unfold StateDB.getStateObject
    rw [htrie]
    simp [StateDB.new]
  unfold StateDB.getByUser
  rw [hobject]
  simp only [StateObject.getAccountProxiedBalance, Cache.get, StateObject.newObject, Cache.empty,
    owing, accountOf, Account.proxiedTrie, Option.getD_some, FinMap.getElem?_insert_ite,
    Std.ExtTreeMap.getElem?_empty]
  split_ifs <;> rfl

/-- A share in whole numbers, which is exact where the coinbase has no deposit of its own. -/
def plainShare : SelfShare := fun reward selfDeposit totalDeposit =>
  reward * selfDeposit / totalDeposit

end PlainEpoch

end Staking
end LigoChain
