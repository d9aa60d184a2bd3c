/-
# The validators of the next epoch

`updateEpochValidatorSet` in `epoch/epoch.go`: the votes remove, change and add validators, and
those that are then too many are cut.  The loop over the votes is a list in closed form
(`foldl_applyVote`): the validators that stay, with the power they voted for, and after them the
new ones (`standing`).

What is expected of the result is `Elects`.  All of it holds on every input but one thing: an
address that is not a validator can vote for the amount `0`, and is then added as a validator
without power (`zero_vote_elected`).  The powers are positive exactly if there are enough members
with power to fill the set (`updateEpochValidatorSet_elects_iff`).
-/

import LigoChain.Staking.PlainEpoch

namespace LigoChain

/-- The validator of an address. -/
def memberOf (vals : List Validator) (address : Bytes) : Option Validator :=
  vals.find? fun val => val.address == address

theorem memberOf_eq_some {vals : List Validator} {address : Bytes} {v : Validator}
    (h : memberOf vals address = some v) : v ∈ vals ∧ v.address = address :=
  ⟨List.mem_of_find?_eq_some h, beq_iff_eq.1 (List.find?_some h :)⟩

theorem memberOf_eq_none {vals : List Validator} {address : Bytes} :
    memberOf vals address = none ↔ ∀ v ∈ vals, v.address ≠ address := by
  simp [memberOf]

namespace ValidatorSet

variable {valSet : ValidatorSet}

theorem getByAddress_eq_memberOf (address : Bytes) :
    (valSet.getByAddress address).2 = memberOf valSet.validators address := by
  unfold getByAddress memberOf
  cases hidx : valSet.validators.findIdx? fun val => val.address == address with
  | none => exact (List.find?_eq_none.2 (by simpa using List.findIdx?_eq_none_iff.1 hidx)).symm
  | some idx =>
    obtain ⟨hlt, hat, hbefore⟩ := List.findIdx?_eq_some_iff_getElem.1 hidx
    refine (List.getElem?_eq_getElem hlt).trans (Eq.symm ?_)
    exact List.find?_eq_some_iff_getElem.2 ⟨hat, idx, hlt, rfl, fun j hj => by simpa using hbefore j hj⟩

theorem hasAddress_eq_isSome (address : Bytes) :
    valSet.hasAddress address = (memberOf valSet.validators address).isSome := by
  unfold hasAddress memberOf
  exact Bool.eq_iff_iff.2 (by rw [List.find?_isSome, List.any_eq_true])

/-- `Remove` and `Update` as one pass over the validators: `f` says what becomes of the validator
of an address. -/
theorem Distinct.edit_eq_filterMap (h : valSet.Distinct) {v : Validator}
    (hv : v ∈ valSet.validators) (v' : Validator) (haddr : v'.address = v.address) :
    (valSet.remove v.address).validators = valSet.validators.filterMap (fun x =>
      if x.address = v.address then none else some x) ∧
    (valSet.update v').validators = valSet.validators.filterMap (fun x =>
      if x.address = v.address then some v' else some x) := by
  obtain ⟨before, after, hsplit⟩ := List.append_of_mem hv
  unfold Distinct at h
  rw [hsplit, List.map_append, List.map_cons, List.nodup_append] at h
  obtain ⟨-, hafter, hdisjoint⟩ := h
  have hbefore : ∀ x ∈ before, x.address ≠ v.address := fun x hx =>
    hdisjoint _ (List.mem_map_of_mem hx) _ List.mem_cons_self
  have hafter : ∀ x ∈ after, x.address ≠ v.address := fun x hx heq =>
    (List.nodup_cons.1 hafter).1 (heq ▸ List.mem_map_of_mem hx)
  have hkeep : ∀ (l : List Validator) (r : Option Validator), (∀ x ∈ l, x.address ≠ v.address) →
      l.filterMap (fun x => if x.address = v.address then r else some x) = l := by
    intro l r hl
    rw [List.filterMap_congr fun x hx => if_neg (hl x hx), List.filterMap_some]
  have hmid : ∀ r : Option Validator, valSet.validators.filterMap (fun x =>
      if x.address = v.address then r else some x) = before ++ (r.toList ++ after) := by
    intro r
    rw [hsplit, List.filterMap_append, hkeep before r hbefore, List.filterMap_cons, if_pos rfl,
      hkeep after r hafter]
    cases r <;> rfl
  constructor
  · unfold ValidatorSet.remove
    rw [hmid, hsplit, List.eraseP_append_right _ (by simpa using hbefore)]
    simp
  · have hidx : valSet.validators.findIdx? (fun x => x.address == v'.address) =
        some before.length := by
      rw [hsplit, haddr, List.findIdx?_append, List.findIdx?_eq_none_iff.2 (by simpa using hbefore),
        List.findIdx?_cons]
      simp
    unfold ValidatorSet.update
    rw [hidx, hmid, hsplit]
    simp

end ValidatorSet

namespace Staking

/-- What a vote counts for: nothing, unless it has an amount, a public key and a salt. -/
def EpochValidatorVote.counted (v : EpochValidatorVote) : Option (PubKey × ℤ) :=
  if v.salt = "" then none else v.pubKey.bind fun pubKey => v.amount.map (pubKey, ·)

theorem counted_eq_some {v : EpochValidatorVote} {pubKey : PubKey} {amount : ℤ} :
    v.counted = some (pubKey, amount) ↔
      v.salt ≠ "" ∧ v.pubKey = some pubKey ∧ v.amount = some amount := by
  unfold EpochValidatorVote.counted
  split_ifs with hsalt
  · simp [hsalt]
  · simp only [ne_eq, hsalt, not_false_eq_true, true_and, Option.bind_eq_some_iff,
      Option.map_eq_some_iff, Prod.mk.injEq]
    constructor
    · rintro ⟨_, hpubKey, _, hamount, rfl, rfl⟩
      exact ⟨hpubKey, hamount⟩
    · rintro ⟨hpubKey, hamount⟩
      exact ⟨_, hpubKey, _, hamount, rfl, rfl⟩

/-- The vote of an address. -/
def voteOf (votes : List EpochValidatorVote) (address : Bytes) : Option (PubKey × ℤ) :=
  (votes.find? fun v => v.address == address).bind EpochValidatorVote.counted

/-- What becomes of a validator: it stays, with the power that it voted for, or it is removed. -/
def afterVotes (votes : List EpochValidatorVote) (x : Validator) : Option Validator :=
  (voteOf votes x.address).elim (some x) fun p =>
    if p.2 = 0 then none else some { x with votingPower := p.2 }

/-- The validator that a vote adds. -/
def newcomer (vals : List Validator) (v : EpochValidatorVote) : Option Validator :=
  if (memberOf vals v.address).isSome then none
  else v.counted.map fun p => ⟨v.address, p.1, p.2, 0⟩

/-- What a vote returns to a validator: all of its power, or what it is reduced by. -/
def refundOf (vals : List Validator) (v : EpochValidatorVote) : Option RefundValidatorAmount :=
  (memberOf vals v.address).bind fun x => v.counted.bind fun p =>
    if p.2 = 0 ∨ p.2 < x.votingPower then some ⟨v.address, some (x.votingPower - p.2), false⟩
    else none

/-- The validators after the votes. -/
def voted (vals : List Validator) (votes : List EpochValidatorVote) : List Validator :=
  vals.filterMap (afterVotes votes) ++ votes.filterMap (newcomer vals)

variable {vals : List Validator} {votes : List EpochValidatorVote} {v : EpochValidatorVote}

/-! ## The loop over the votes -/

theorem voteOf_cons (x : Bytes) :
    voteOf (v :: votes) x = if v.address = x then v.counted else voteOf votes x := by
  unfold voteOf
  rw [List.find?_cons]
  by_cases h : v.address = x
  · simp [h]
  · simp [beq_eq_false_iff_ne.2 h, h]

theorem voteOf_eq_none {x : Bytes} (hx : x ∉ votes.map EpochValidatorVote.address) :
    voteOf votes x = none := by
  unfold voteOf
  rw [List.find?_eq_none.2 fun v hv => by
    simpa using fun heq : v.address = x => hx (heq ▸ List.mem_map_of_mem hv)]
  rfl

theorem afterVotes_of_none {x : Validator} (h : voteOf votes x.address = none) :
    afterVotes votes x = some x := by
  unfold afterVotes
  rw [h]
  rfl

theorem address_of_afterVotes {x y : Validator} (h : afterVotes votes x = some y) :
    y.address = x.address := by
  unfold afterVotes at h
  cases hvote : voteOf votes x.address with
  | none =>
    rw [hvote] at h
    exact congrArg Validator.address (Option.some.inj h).symm
  | some p =>
    rw [hvote, Option.elim_some] at h
    split_ifs at h
    rw [← Option.some.inj h]

/-- The votes after one can be counted after it. -/
theorem afterVotes_cons (hnew : v.address ∉ votes.map EpochValidatorVote.address)
    (x : Validator) : (afterVotes [v] x).bind (afterVotes votes) = afterVotes (v :: votes) x := by
  by_cases hx : v.address = x.address
  · have hall : voteOf (v :: votes) x.address = voteOf [v] x.address := by
      simp only [voteOf_cons, if_pos hx]
    have hkeep : ∀ y, afterVotes [v] x = some y → afterVotes votes y = some y := fun y hy =>
      afterVotes_of_none (voteOf_eq_none (by rwa [address_of_afterVotes hy, ← hx]))
    have hsame : afterVotes (v :: votes) x = afterVotes [v] x := by
      unfold afterVotes
      rw [hall]
    rw [hsame]
    cases hy : afterVotes [v] x with
    | none => rfl
    | some y => exact hkeep y hy
  · have hkeep : afterVotes [v] x = some x :=
      afterVotes_of_none (by simp only [voteOf_cons, if_neg hx]; rfl)
    rw [hkeep]
    unfold afterVotes
    simp only [voteOf_cons, if_neg hx, Option.bind_some]

/-- Editing other validators does not change which validator an address has. -/
theorem memberOf_filterMap {f : Validator → Option Validator} {a : Bytes}
    (haddr : ∀ x y, f x = some y → y.address = x.address)
    (hkeep : ∀ x, x.address = a → f x = some x) :
    memberOf (vals.filterMap f) a = memberOf vals a := by
  induction vals with
  | nil => rfl
  | cons x vals ih =>
    by_cases hx : x.address = a
    · rw [List.filterMap_cons_some (hkeep x hx)]
      simp [memberOf, hx]
    · have hskip : memberOf (x :: vals) a = memberOf vals a := by
        simp [memberOf, hx]
      rw [hskip, ← ih]
      cases hy : f x with
      | none => rw [List.filterMap_cons_none hy]
      | some y =>
        rw [List.filterMap_cons_some hy]
        simp [memberOf, haddr x y hy, hx]

theorem address_of_newcomer {y : Validator} (h : newcomer vals v = some y) :
    y.address = v.address := by
  unfold newcomer at h
  split_ifs at h
  obtain ⟨p, -, rfl⟩ := Option.map_eq_some_iff.1 h
  rfl

/-- Another vote does not change which validator an address has. -/
theorem memberOf_voted_singleton {a : Bytes} (ha : v.address ≠ a) :
    memberOf (voted vals [v]) a = memberOf vals a := by
  have hnew : memberOf ([v].filterMap (newcomer vals)) a = none := by
    refine memberOf_eq_none.2 fun y hy => ?_
    obtain ⟨w, hw, hwy⟩ := List.mem_filterMap.1 hy
    obtain rfl := List.mem_singleton.1 hw
    rwa [address_of_newcomer hwy]
  have hold : memberOf (vals.filterMap (afterVotes [v])) a = memberOf vals a :=
    memberOf_filterMap (fun _ _ => address_of_afterVotes) fun x hx =>
      afterVotes_of_none (by rw [voteOf_cons, if_neg (hx ▸ ha)]; rfl)
  unfold voted
  rw [memberOf, List.find?_append]
  change (memberOf _ a).or (memberOf _ a) = _
  rw [hold, hnew, Option.or_none]

theorem voted_cons (hnew : v.address ∉ votes.map EpochValidatorVote.address) :
    voted (voted vals [v]) votes = voted vals (v :: votes) := by
  have hothers : votes.filterMap (newcomer (voted vals [v])) = votes.filterMap (newcomer vals) :=
    List.filterMap_congr fun w hw => by
      unfold newcomer
      rw [memberOf_voted_singleton fun heq => hnew (heq ▸ List.mem_map_of_mem hw)]
  have hkept : ([v].filterMap (newcomer vals)).filterMap (afterVotes votes) =
      [v].filterMap (newcomer vals) := by
    refine (List.filterMap_congr fun y hy => ?_).trans List.filterMap_some
    obtain ⟨w, hw, hwy⟩ := List.mem_filterMap.1 hy
    obtain rfl := List.mem_singleton.1 hw
    exact afterVotes_of_none (voteOf_eq_none (by rwa [address_of_newcomer hwy]))
  have hold : (vals.filterMap (afterVotes [v])).filterMap (afterVotes votes) =
      vals.filterMap (afterVotes (v :: votes)) := by
    rw [List.filterMap_filterMap]
    exact List.filterMap_congr fun x _ => afterVotes_cons hnew x
  calc voted (voted vals [v]) votes
      = (voted vals [v]).filterMap (afterVotes votes) ++ votes.filterMap (newcomer vals) := by
        rw [← hothers]
        rfl
    _ = vals.filterMap (afterVotes (v :: votes)) ++ [v].filterMap (newcomer vals) ++
          votes.filterMap (newcomer vals) := by
        rw [voted, List.filterMap_append, hold, hkept]
    _ = voted vals (v :: votes) := by
        rw [List.append_assoc, ← List.filterMap_append]
        rfl

theorem newcomer_of_member {x : Validator} (h : memberOf vals v.address = some x) :
    newcomer vals v = none := by
  unfold newcomer
  rw [h]
  rfl

namespace VoteLoop

theorem applyVote_of_none (acc : VoteLoop) (hv : v.counted = none) : acc.applyVote v = acc := by
  unfold applyVote
  split
  next amount pubKey hamount hpubKey =>
    have hsalt : v.salt = "" := by
      by_contra hsalt
      simp [EpochValidatorVote.counted, hsalt, hamount, hpubKey] at hv
    rw [if_pos hsalt]
  next => rfl

/-- **One vote**, in closed form. -/
theorem applyVote_eq {acc : VoteLoop} (h : acc.validators.Distinct) (v : EpochValidatorVote) :
    acc.applyVote v = ⟨⟨voted acc.validators.validators [v]⟩,
      acc.refunds ++ (refundOf acc.validators.validators v).toList,
      acc.newValSize + ([v].filterMap (newcomer acc.validators.validators)).length⟩ := by
  have hothers : ∀ x ∈ acc.validators.validators, v.address ≠ x.address →
      afterVotes [v] x = some x := fun x _ hx =>
    afterVotes_of_none (by rw [voteOf_cons, if_neg hx]; rfl)
  cases hcounted : v.counted with
  | none =>
    have hkeep : ∀ x ∈ acc.validators.validators, afterVotes [v] x = some x := fun x _ =>
      afterVotes_of_none (by rw [voteOf_cons, hcounted]; split <;> rfl)
    rw [applyVote_of_none acc hcounted, voted, List.filterMap_congr hkeep]
    cases hmember : memberOf acc.validators.validators v.address <;>
      simp [newcomer, refundOf, hcounted, hmember]
  | some p =>
    obtain ⟨pubKey, amount⟩ := p
    obtain ⟨hsalt, hpubKey, hamount⟩ := counted_eq_some.1 hcounted
    unfold applyVote
    rw [hamount, hpubKey]
    simp only [if_neg hsalt, ValidatorSet.getByAddress_eq_memberOf]
    cases hmember : memberOf acc.validators.validators v.address with
    | none =>
      have hkeep : ∀ x ∈ acc.validators.validators, afterVotes [v] x = some x := fun x hx =>
        hothers x hx (memberOf_eq_none.1 hmember x hx).symm
      have hadd : acc.validators.hasAddress v.address = false := by
        rw [ValidatorSet.hasAddress_eq_isSome, hmember]
        rfl
      simp [ValidatorSet.add, hadd, voted, List.filterMap_congr hkeep, newcomer, refundOf,
        hcounted, hmember]
    | some x =>
      obtain ⟨hx, haddr⟩ := memberOf_eq_some hmember
      have hvote : voteOf [v] x.address = some (pubKey, amount) := by
        rw [voteOf_cons, if_pos haddr.symm, hcounted]
      have hafter : ∀ y ∈ acc.validators.validators, afterVotes [v] y =
          if y.address = x.address then
            (if amount = 0 then none else some { x with votingPower := amount })
          else some y := by
        intro y hy
        by_cases hyx : y.address = x.address
        · obtain rfl := List.inj_on_of_nodup_map h hy hx hyx
          rw [if_pos rfl, afterVotes, hvote]
          rfl
        · rw [if_neg hyx]
          exact hothers y hy fun heq => hyx (heq.symm.trans haddr.symm)
      obtain ⟨hremove, hupdate⟩ :=
        h.edit_eq_filterMap hx { x with votingPower := amount } rfl
      rw [voted, List.filterMap_congr hafter, List.filterMap_cons_none (newcomer_of_member hmember)]
      by_cases hzero : amount = 0
      · simp only [hzero, if_true, ← hremove]
        simp [refundOf, hcounted, hmember, hzero]
      · simp only [hzero, if_false, ← hupdate]
        by_cases hless : amount < x.votingPower <;>
          simp [refundOf, hcounted, hmember, hzero, hless]

/-- **The loop over the votes**, in closed form. -/
theorem foldl_applyVote {acc : VoteLoop} (h : acc.validators.Distinct)
    (hvotes : (votes.map EpochValidatorVote.address).Nodup) :
    votes.foldl applyVote acc = ⟨⟨voted acc.validators.validators votes⟩,
      acc.refunds ++ votes.filterMap (refundOf acc.validators.validators),
      acc.newValSize + (votes.filterMap (newcomer acc.validators.validators)).length⟩ := by
  induction votes generalizing acc with
  | nil =>
    have hkeep : acc.validators.validators.filterMap (afterVotes []) =
        acc.validators.validators :=
      (List.filterMap_congr fun x _ => afterVotes_of_none rfl).trans List.filterMap_some
    simp [voted, hkeep]
  | cons v votes ih =>
    obtain ⟨hnew, hvotes⟩ := List.nodup_cons.1 hvotes
    have hstep := applyVote_eq h v
    rw [List.foldl_cons, ih (distinct_applyVote h v) hvotes, hstep]
    have hrefunds : votes.filterMap (refundOf (voted acc.validators.validators [v])) =
        votes.filterMap (refundOf acc.validators.validators) :=
      List.filterMap_congr fun w hw => by
        unfold refundOf
        rw [memberOf_voted_singleton fun heq => hnew (heq ▸ List.mem_map_of_mem hw)]
    have hothers : votes.filterMap (newcomer (voted acc.validators.validators [v])) =
        votes.filterMap (newcomer acc.validators.validators) :=
      List.filterMap_congr fun w hw => by
        unfold newcomer
        rw [memberOf_voted_singleton fun heq => hnew (heq ▸ List.mem_map_of_mem hw)]
    rw [voted_cons hnew, hrefunds, hothers]
    congr 1
    · rw [List.append_assoc]
      cases hr : refundOf acc.validators.validators v <;> simp [hr]
    · rw [add_assoc, ← List.length_append, ← List.filterMap_append]
      rfl

end VoteLoop

/-! ## The result -/

/-- The validators after the votes, with one epoch less to remain: those that can be kept. -/
def standing (vals : List Validator) (votes : List EpochValidatorVote) : List Validator :=
  (voted vals votes).map countDown

/-- The size that the set is cut to: the validators before and the new ones, within the limits. -/
def seats (vals : List Validator) (votes : List EpochValidatorVote) : ℕ :=
  max minimumValidatorsSize (min maximumValidatorsSize
    (vals.length + (votes.filterMap (newcomer vals)).length))

/-- **`updateEpochValidatorSet`**, in closed form. -/
theorem updateEpochValidatorSet_eq (L : EpochLibs) {validators : ValidatorSet}
    (h : validators.Distinct) (voteSet : EpochValidatorVoteSet) :
    updateEpochValidatorSet L validators voteSet =
      if seats validators.validators voteSet.votes <
          (standing validators.validators voteSet.votes).length then
        (⟨(L.sortSlice (standing validators.validators voteSet.votes)).take
            (seats validators.validators voteSet.votes)⟩,
          voteSet.votes.filterMap (refundOf validators.validators) ++
            ((L.sortSlice (standing validators.validators voteSet.votes)).drop
              (seats validators.validators voteSet.votes)).map fun k => ⟨k.address, none, true⟩)
      else (⟨standing validators.validators voteSet.votes⟩,
        voteSet.votes.filterMap (refundOf validators.validators)) := by
  unfold updateEpochValidatorSet
  rw [@VoteLoop.foldl_applyVote _ ⟨validators, [], 0⟩ h voteSet.nodup]
  simp only [List.nil_append, Nat.zero_add]
  rfl

/-- A refund that is due: to a validator that is removed, all of its power; to one that is
reduced, the difference; and to one that is cut, what it has deposited. -/
inductive Refunded (vals : List Validator) (votes : List EpochValidatorVote)
    (result : ValidatorSet) : RefundValidatorAmount → Prop
  | removed {x : Validator} {pubKey : PubKey} (hx : x ∈ vals)
      (hvote : voteOf votes x.address = some (pubKey, 0)) :
      Refunded vals votes result ⟨x.address, some x.votingPower, false⟩
  | reduced {x : Validator} {pubKey : PubKey} {amount : ℤ} (hx : x ∈ vals)
      (hvote : voteOf votes x.address = some (pubKey, amount)) (hne : amount ≠ 0)
      (hless : amount < x.votingPower) :
      Refunded vals votes result ⟨x.address, some (x.votingPower - amount), false⟩
  | cut {x : Validator} (hx : x ∈ standing vals votes) (hcut : x ∉ result.validators) :
      Refunded vals votes result ⟨x.address, none, true⟩

/-- What is expected of `updateEpochValidatorSet`. -/
structure Elects (vals : List Validator) (votes : List EpochValidatorVote)
    (r : ValidatorSet × List RefundValidatorAmount) : Prop where
  distinct : r.1.Distinct
  positive : ∀ y ∈ r.1.validators, 0 < y.votingPower
  size : r.1.size ≤ maximumValidatorsSize
  voted : ∀ y ∈ r.1.validators, ∀ p, voteOf votes y.address = some p → y.votingPower = p.2
  unvoted : ∀ y ∈ r.1.validators, voteOf votes y.address = none →
    ∃ x ∈ vals, x.address = y.address ∧ x.votingPower = y.votingPower
  ranked : ∀ c ∈ standing vals votes, c ∉ r.1.validators → ∀ y ∈ r.1.validators,
    Validator.before c y = false
  refunds : ∀ a, a ∈ r.2 ↔ Refunded vals votes r.1 a
  once : (r.2.map fun a => (a.address, a.voteout)).Nodup

/-- There are enough members with power to fill the set. -/
def Filled (vals : List Validator) (votes : List EpochValidatorVote) : Prop :=
  min (seats vals votes) (standing vals votes).length ≤
    (standing vals votes).countP fun y => decide (0 < y.votingPower)

instance : Decidable (Filled vals votes) := inferInstanceAs (Decidable (_ ≤ _))

theorem voteOf_of_mem (hvotes : (votes.map EpochValidatorVote.address).Nodup) (hv : v ∈ votes) :
    voteOf votes v.address = v.counted := by
  induction votes with
  | nil => cases hv
  | cons w votes ih =>
    obtain ⟨hnew, hvotes⟩ := List.nodup_cons.1 hvotes
    rw [voteOf_cons]
    rcases List.mem_cons.1 hv with rfl | hv
    · rw [if_pos rfl]
    · have hne : w.address ≠ v.address := fun heq => hnew (heq ▸ List.mem_map_of_mem hv)
      rw [if_neg hne, ih hvotes hv]

theorem exists_of_voteOf {a : Bytes} {p : PubKey × ℤ} (h : voteOf votes a = some p) :
    ∃ v ∈ votes, v.address = a ∧ v.counted = some p := by
  obtain ⟨v, hv, hp⟩ := Option.bind_eq_some_iff.1 h
  exact ⟨v, List.mem_of_find?_eq_some hv, beq_iff_eq.1 (List.find?_some hv :), hp⟩

/-- **A member that stands**: a validator that did not vote, or one with the power that it voted
for; without power it is new. -/
theorem mem_standing (hvotes : (votes.map EpochValidatorVote.address).Nodup) {y : Validator}
    (hy : y ∈ standing vals votes) :
    (voteOf votes y.address = none ∧
      ∃ x ∈ vals, x.address = y.address ∧ x.votingPower = y.votingPower) ∨
    ∃ pubKey, voteOf votes y.address = some (pubKey, y.votingPower) ∧
      (y.votingPower = 0 → y.remainingEpoch = 0 ∧ memberOf vals y.address = none) := by
  obtain ⟨z, hz, rfl⟩ := List.mem_map.1 hy
  rcases List.mem_append.1 hz with hz | hz
  · obtain ⟨x, hx, hxz⟩ := List.mem_filterMap.1 hz
    have haddr := address_of_afterVotes hxz
    unfold afterVotes at hxz
    cases hvote : voteOf votes x.address with
    | none =>
      rw [hvote] at hxz
      obtain rfl : x = z := Option.some.inj hxz
      exact .inl ⟨hvote, x, hx, rfl, rfl⟩
    | some p =>
      rw [hvote, Option.elim_some] at hxz
      split_ifs at hxz with hzero
      cases hxz
      exact .inr ⟨p.1, hvote, fun h => absurd h hzero⟩
  · obtain ⟨w, hw, hwz⟩ := List.mem_filterMap.1 hz
    unfold newcomer at hwz
    split_ifs at hwz with hmember
    obtain ⟨p, hp, rfl⟩ := Option.map_eq_some_iff.1 hwz
    exact .inr ⟨p.1, (voteOf_of_mem hvotes hw).trans hp,
      fun _ => ⟨rfl, Option.not_isSome_iff_eq_none.1 hmember⟩⟩

/-- The powers of those that stand are not negative, and those without power rank last. -/
theorem nonneg_of_standing (hvotes : (votes.map EpochValidatorVote.address).Nodup)
    (hpos : ∀ x ∈ vals, 0 < x.votingPower)
    (hamounts : ∀ v ∈ votes, ∀ amount, v.amount = some amount → 0 ≤ amount) {y : Validator}
    (hy : y ∈ standing vals votes) :
    0 ≤ y.votingPower ∧ (y.votingPower = 0 → y.remainingEpoch = 0) := by
  rcases mem_standing hvotes hy with ⟨-, x, hx, -, hpower⟩ | ⟨pubKey, hvote, hzero⟩
  · have := hpos x hx
    exact ⟨by omega, fun h => by omega⟩
  · obtain ⟨v, hv, -, hcounted⟩ := exists_of_voteOf hvote
    exact ⟨hamounts v hv _ (counted_eq_some.1 hcounted).2.2, fun h => (hzero h).1⟩

/-- Of a sorted list in which those without power rank last, the first ones all have power
exactly if there are as many with power. -/
theorem take_positive_iff {l : List Validator} (n : ℕ)
    (hsorted : l.Pairwise fun y y' => ¬Validator.before y' y)
    (hzero : ∀ y ∈ l, 0 ≤ y.votingPower ∧ (y.votingPower = 0 → y.remainingEpoch = 0)) :
    (∀ y ∈ l.take n, 0 < y.votingPower) ↔
      min n l.length ≤ l.countP fun y => decide (0 < y.votingPower) := by
  constructor
  · intro h
    have hall : (l.take n).countP (fun y => decide (0 < y.votingPower)) = (l.take n).length :=
      List.countP_eq_length.2 fun y hy => decide_eq_true (h y hy)
    have hle := (List.take_sublist n l).countP_le (p := fun y => decide (0 < y.votingPower))
    rwa [hall, List.length_take] at hle
  · intro h y hy
    by_contra hy0
    -- everything after `y` has no power either
    obtain ⟨before, after, hsplit⟩ := List.append_of_mem hy
    have hl : l = before ++ y :: (after ++ l.drop n) := by
      rw [← List.cons_append, ← List.append_assoc, ← hsplit, List.take_append_drop]
    have hymem : y ∈ l := List.mem_of_mem_take hy
    have hpower : y.votingPower = 0 := by
      have := (hzero y hymem).1
      omega
    have hlast : ∀ z ∈ after ++ l.drop n, ¬0 < z.votingPower := by
      intro z hz
      rw [hl] at hsorted
      have hrank := (List.pairwise_cons.1 (List.pairwise_append.1 hsorted).2.1).1 z hz
      have hrem := (hzero y hymem).2 hpower
      unfold Validator.before at hrank
      split_ifs at hrank with hsame
      · rw [hpower] at hrank
        simpa using hrank
      · rw [hrem] at hrank hsame
        simp only [decide_eq_true_eq] at hrank
        omega
    have hcount : l.countP (fun y => decide (0 < y.votingPower)) ≤ before.length := by
      have hnone : (after ++ l.drop n).countP (fun y => decide (0 < y.votingPower)) = 0 :=
        List.countP_eq_zero.2 fun z hz => by simpa using hlast z hz
      rw [hl, List.countP_append, List.countP_cons_of_neg (by simpa using hy0), hnone]
      exact List.countP_le_length
    have hlen : before.length < min n l.length := by
      have := congrArg List.length hsplit
      rw [List.length_take, List.length_append, List.length_cons] at this
      omega
    omega

theorem standing_distinct (hdistinct : (vals.map Validator.address).Nodup)
    (hvotes : (votes.map EpochValidatorVote.address).Nodup) :
    ((standing vals votes).map Validator.address).Nodup := by
  have hloop := @VoteLoop.distinct_foldl ⟨⟨vals⟩, [], 0⟩ hdistinct votes
  rw [@VoteLoop.foldl_applyVote _ ⟨⟨vals⟩, [], 0⟩ hdistinct hvotes] at hloop
  rw [standing, List.map_map]
  exact hloop

/-- The refunds of the votes, by what the votes are for. -/
theorem mem_refundOf (hdistinct : (vals.map Validator.address).Nodup)
    (hvotes : (votes.map EpochValidatorVote.address).Nodup) {a : RefundValidatorAmount} :
    a ∈ votes.filterMap (refundOf vals) ↔
      (∃ x ∈ vals, ∃ pubKey, voteOf votes x.address = some (pubKey, 0) ∧
        a = ⟨x.address, some x.votingPower, false⟩) ∨
      ∃ x ∈ vals, ∃ pubKey amount, voteOf votes x.address = some (pubKey, amount) ∧ amount ≠ 0 ∧
        amount < x.votingPower ∧ a = ⟨x.address, some (x.votingPower - amount), false⟩ := by
  constructor
  · intro ha
    obtain ⟨v, hv, hva⟩ := List.mem_filterMap.1 ha
    obtain ⟨x, hmember, hva⟩ := Option.bind_eq_some_iff.1 hva
    obtain ⟨⟨pubKey, amount⟩, hcounted, hva⟩ := Option.bind_eq_some_iff.1 hva
    obtain ⟨hx, haddr⟩ := memberOf_eq_some hmember
    have hvote : voteOf votes x.address = some (pubKey, amount) := by
      rw [haddr, voteOf_of_mem hvotes hv, hcounted]
    dsimp only at hva
    split_ifs at hva with hdue
    cases hva
    rcases eq_or_ne amount 0 with rfl | hne
    · exact .inl ⟨x, hx, pubKey, hvote, by rw [haddr, sub_zero]⟩
    · exact .inr ⟨x, hx, pubKey, amount, hvote, hne, hdue.resolve_left hne, by rw [haddr]⟩
  · have hdue : ∀ x ∈ vals, ∀ pubKey amount, voteOf votes x.address = some (pubKey, amount) →
        amount = 0 ∨ amount < x.votingPower →
        ⟨x.address, some (x.votingPower - amount), false⟩ ∈ votes.filterMap (refundOf vals) := by
      intro x hx pubKey amount hvote hdue
      obtain ⟨v, hv, haddr, hcounted⟩ := exists_of_voteOf hvote
      refine List.mem_filterMap.2 ⟨v, hv, ?_⟩
      have hmember : memberOf vals v.address = some x := by
        rw [haddr]
        cases hfound : memberOf vals x.address with
        | none => exact absurd rfl (memberOf_eq_none.1 hfound x hx)
        | some y =>
          obtain ⟨hy, hsame⟩ := memberOf_eq_some hfound
          rw [List.inj_on_of_nodup_map hdistinct hy hx hsame]
      unfold refundOf
      rw [hmember, Option.bind_some, hcounted, Option.bind_some, if_pos hdue, haddr]
    rintro (⟨x, hx, pubKey, hvote, rfl⟩ | ⟨x, hx, pubKey, amount, hvote, -, hless, rfl⟩)
    · simpa using hdue x hx pubKey 0 hvote (.inl rfl)
    · exact hdue x hx pubKey amount hvote (.inr hless)

theorem refundOf_eq_some {a : RefundValidatorAmount} (h : refundOf vals v = some a) :
    a.address = v.address ∧ a.voteout = false := by
  obtain ⟨x, -, h⟩ := Option.bind_eq_some_iff.1 h
  obtain ⟨p, -, h⟩ := Option.bind_eq_some_iff.1 h
  split_ifs at h
  cases h
  exact ⟨rfl, rfl⟩

theorem refundOf_distinct (hvotes : (votes.map EpochValidatorVote.address).Nodup) :
    ((votes.filterMap (refundOf vals)).map RefundValidatorAmount.address).Nodup := by
  refine hvotes.sublist ?_
  induction votes with
  | nil => exact List.Sublist.slnil
  | cons v votes ih =>
    cases hr : refundOf vals v with
    | none =>
      rw [List.filterMap_cons_none hr, List.map_cons]
      exact (ih (List.nodup_cons.1 hvotes).2).cons _
    | some a =>
      rw [List.filterMap_cons_some hr, List.map_cons, List.map_cons, (refundOf_eq_some hr).1]
      exact (ih (List.nodup_cons.1 hvotes).2).cons_cons _

theorem seats_le : seats vals votes ≤ maximumValidatorsSize :=
  max_le (by decide) (min_le_left _ _)

/-- **A split of those that stand** into kept and cut ones is what is expected, if the kept ones
have power, are not too many and do not rank lower. -/
theorem elects_of_split (hdistinct : (vals.map Validator.address).Nodup)
    (hvotes : (votes.map EpochValidatorVote.address).Nodup) {kept cut : List Validator}
    (hsplit : (kept ++ cut).Perm (standing vals votes))
    (hlen : kept.length ≤ maximumValidatorsSize) (hpos : ∀ y ∈ kept, 0 < y.votingPower)
    (hrank : ∀ y ∈ kept, ∀ c ∈ cut, Validator.before c y = false) :
    Elects vals votes (⟨kept⟩, votes.filterMap (refundOf vals) ++
      cut.map fun k => ⟨k.address, none, true⟩) := by
  have haddresses : ((kept ++ cut).map Validator.address).Nodup :=
    (hsplit.map _).nodup_iff.2 (standing_distinct hdistinct hvotes)
  have hmem : ∀ y, y ∈ standing vals votes ↔ y ∈ kept ∨ y ∈ cut := fun y => by
    rw [← hsplit.mem_iff, List.mem_append]
  have hcut : ∀ c, c ∈ standing vals votes ∧ c ∉ kept ↔ c ∈ cut := by
    intro c
    refine ⟨fun h => ((hmem c).1 h.1).resolve_left h.2, fun hc => ⟨(hmem c).2 (.inr hc), ?_⟩⟩
    exact fun hk => (List.nodup_append.1 (List.Nodup.of_map _ haddresses)).2.2 c hk c hc rfl
  rw [List.map_append] at haddresses
  obtain ⟨hkept, hcutaddr, -⟩ := List.nodup_append.1 haddresses
  refine ⟨hkept, hpos, hlen, fun y hy p hp => ?_, fun y hy hnone => ?_, fun c hc hnot y hy =>
    hrank y hy c ((hcut c).1 ⟨hc, hnot⟩), fun a => ?_, ?_⟩
  · rcases mem_standing hvotes ((hmem y).2 (.inl hy)) with ⟨hnone, -⟩ | ⟨pubKey, hvote, -⟩
    · rw [hnone] at hp
      cases hp
    · rw [hvote] at hp
      exact congrArg Prod.snd (Option.some.inj hp)
  · rcases mem_standing hvotes ((hmem y).2 (.inl hy)) with ⟨-, hx⟩ | ⟨pubKey, hvote, -⟩
    · exact hx
    · rw [hvote] at hnone
      cases hnone
  · rw [List.mem_append, mem_refundOf hdistinct hvotes, List.mem_map]
    constructor
    · rintro ((⟨x, hx, pubKey, hvote, rfl⟩ | ⟨x, hx, pubKey, amount, hvote, hne, hless, rfl⟩) |
        ⟨c, hc, rfl⟩)
      · exact .removed hx hvote
      · exact .reduced hx hvote hne hless
      · exact .cut ((hcut c).2 hc).1 ((hcut c).2 hc).2
    · rintro (⟨hx, hvote⟩ | ⟨hx, hvote, hne, hless⟩ | ⟨hx, hnot⟩)
      · exact .inl (.inl ⟨_, hx, _, hvote, rfl⟩)
      · exact .inl (.inr ⟨_, hx, _, _, hvote, hne, hless, rfl⟩)
      · exact .inr ⟨_, (hcut _).1 ⟨hx, hnot⟩, rfl⟩
  · rw [List.map_append, List.nodup_append]
    refine ⟨?_, ?_, ?_⟩
    · refine List.Nodup.of_map Prod.fst ?_
      rw [List.map_map]
      exact refundOf_distinct hvotes
    · refine List.Nodup.of_map Prod.fst ?_
      rw [List.map_map, List.map_map]
      exact hcutaddr
    · rintro p hp q hq rfl
      obtain ⟨a, ha, rfl⟩ := List.mem_map.1 hp
      obtain ⟨b, hb, heq⟩ := List.mem_map.1 hq
      obtain ⟨c, -, rfl⟩ := List.mem_map.1 hb
      obtain ⟨v, -, hv⟩ := List.mem_filterMap.1 ha
      have := congrArg Prod.snd heq
      rw [(refundOf_eq_some hv).2] at this
      cases this

/-- **The validators of the next epoch.**  For all validators with different addresses and positive
powers and all votes of different addresses for amounts that are not negative, the result is what
is expected exactly if there are enough members with power to fill the set. -/
theorem updateEpochValidatorSet_elects_iff (L : EpochLibs) {validators : ValidatorSet}
    {voteSet : EpochValidatorVoteSet} (hdistinct : validators.Distinct)
    (hpos : ∀ x ∈ validators.validators, 0 < x.votingPower)
    (hamounts : ∀ v ∈ voteSet.votes, ∀ amount, v.amount = some amount → 0 ≤ amount) :
    Elects validators.validators voteSet.votes (updateEpochValidatorSet L validators voteSet) ↔
      Filled validators.validators voteSet.votes := by
  have hzero := fun y => @nonneg_of_standing _ _ voteSet.nodup hpos hamounts y
  rw [updateEpochValidatorSet_eq L hdistinct]
  unfold Filled
  generalize hseats : seats validators.validators voteSet.votes = n
  generalize hstanding : standing validators.validators voteSet.votes = l at *
  have hmax : n ≤ maximumValidatorsSize := hseats ▸ seats_le
  by_cases hcut : n < l.length
  · rw [if_pos hcut]
    have hperm := L.sortSlice_perm l
    have hsorted := L.sortSlice_sorted l
    have hcount := hperm.countP_eq fun y : Validator => decide (0 < y.votingPower)
    have hiff := take_positive_iff n hsorted fun y hy => hzero y (hperm.mem_iff.1 hy)
    rw [hperm.length_eq, hcount] at hiff
    refine ⟨fun h => hiff.1 h.positive, fun h => ?_⟩
    refine elects_of_split hdistinct voteSet.nodup ?_ ?_ (hiff.2 h) ?_
    · rw [List.take_append_drop, hstanding]
      exact hperm
    · exact (List.length_take_le _ _).trans hmax
    · intro y hy c hc
      rw [← List.take_append_drop n (L.sortSlice l)] at hsorted
      simpa using (List.pairwise_append.1 hsorted).2.2 y hy c hc
  · rw [if_neg hcut, min_eq_right (not_lt.1 hcut)]
    constructor
    · intro h
      exact (List.countP_eq_length.2 fun y hy => decide_eq_true (h.positive y hy)).ge
    · intro h
      have hall := List.countP_eq_length.1 (le_antisymm List.countP_le_length h)
      have hsplit := @elects_of_split _ _ hdistinct voteSet.nodup l [] (by simp [hstanding])
        ((not_lt.1 hcut).trans hmax) (fun y hy => of_decide_eq_true (hall y hy)) (by simp)
      simpa using hsplit

namespace PlainEpoch

/-- The votes of the validator and of another address, for some amounts. -/
def votesFor (amount amount' : ℤ) : EpochValidatorVoteSet where
  votes := [⟨[1], some [1], some amount, "ligochain", []⟩,
    ⟨[2], some [2], some amount', "ligochain", []⟩]
  nodup := (by decide : [([1] : Bytes), [2]].Nodup)

theorem validators_distinct : validators.Distinct := List.nodup_singleton _

/-- A validator that is removed, and a new one. -/
theorem updateEpochValidatorSet_elects_iff_votesFor :
    Elects validators.validators (votesFor 0 5).votes
      (updateEpochValidatorSet libs validators (votesFor 0 5)) :=
  (updateEpochValidatorSet_elects_iff libs validators_distinct (by decide) (by decide)).2
    (by decide)

/-- **A vote for nothing** makes an address a validator without power. -/
theorem zero_vote_elected :
    validators.Distinct ∧ (∀ x ∈ validators.validators, 0 < x.votingPower) ∧
    (∀ v ∈ (votesFor 1 0).votes, ∀ amount ∈ v.amount, 0 ≤ amount) ∧
    ⟨[2], [2], 0, 0⟩ ∈ (updateEpochValidatorSet libs validators (votesFor 1 0)).1.validators :=
  ⟨validators_distinct, by decide, by decide, by decide⟩

end PlainEpoch

end Staking
end LigoChain
