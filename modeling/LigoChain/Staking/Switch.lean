/-
# The switch to the next epoch

`ShouldEnterNewEpoch` and `updateEpochValidatorSet` in `epoch/epoch.go`.  At the last block
of an epoch the code pays back what is pending, gives every validator the power of its
stake, adds the votes, and returns what a validator has lost.

The code acts on the state through its functions, so it is a program over them.  Go leaves
the order in which a set is walked open; here it is given with the program.
-/

import LigoChain.Staking.Epoch
import LigoChain.State.Api

namespace LigoChain
namespace Staking

open State

/-- `RefundValidatorAmount`. -/
structure RefundValidatorAmount where
  address : Bytes
  amount : Option ℤ
  voteout : Bool
  deriving DecidableEq, Repr

/-- The validators, refunds and number of new validators in the loop over the votes. -/
structure VoteLoop where
  validators : ValidatorSet
  refunds : List RefundValidatorAmount
  newValSize : ℕ

/-- One vote in `updateEpochValidatorSet`. -/
def VoteLoop.applyVote (acc : VoteLoop) (v : EpochValidatorVote) : VoteLoop :=
  match v.amount, v.pubKey with
  | some amount, some pubKey =>
    if v.salt = "" then acc
    else match (acc.validators.getByAddress v.address).2 with
      | none =>
        let (validators, added) := acc.validators.add ⟨v.address, pubKey, amount, 0⟩
        { acc with
          validators := validators
          newValSize := if added then acc.newValSize + 1 else acc.newValSize }
      | some validator =>
        if amount = 0 then
          { acc with
            validators := acc.validators.remove validator.address
            refunds := acc.refunds ++ [⟨v.address, some validator.votingPower, false⟩] }
        else
          { acc with
            validators := acc.validators.update { validator with votingPower := amount }
            refunds :=
              if amount < validator.votingPower then
                acc.refunds ++ [⟨v.address, some (validator.votingPower - amount), false⟩]
              else acc.refunds }
  | _, _ => acc

/-- `MinimumValidatorsSize`. -/
def minimumValidatorsSize : ℕ := 1

/-- `MaximumValidatorsSize`. -/
def maximumValidatorsSize : ℕ := 40

/-- A validator has one epoch less to remain. -/
def countDown (v : Validator) : Validator := { v with remainingEpoch := v.remainingEpoch - 1 }

/-- `updateEpochValidatorSet`.  It has no error. -/
def updateEpochValidatorSet (L : EpochLibs) (validators : ValidatorSet)
    (voteSet : EpochValidatorVoteSet) : ValidatorSet × List RefundValidatorAmount :=
  let acc := voteSet.votes.foldl VoteLoop.applyVote ⟨validators, [], 0⟩
  let valSize := max minimumValidatorsSize (min maximumValidatorsSize
    (validators.size + acc.newValSize))
  let vals := acc.validators.validators.map countDown
  if valSize < vals.length then
    let sorted := L.sortSlice vals
    (⟨sorted.take valSize⟩,
      acc.refunds ++ (sorted.drop valSize).map fun k => ⟨k.address, none, true⟩)
  else (⟨vals⟩, acc.refunds)

/-- The loop that gives the validators their power and removes those with none. -/
def refreshPowers (power : Bytes → ℤ) (vals : ValidatorSet) (i fuel : ℕ) : ValidatorSet :=
  match fuel, vals.validators[i]? with
  | fuel + 1, some v =>
    if power v.address = 0 then refreshPowers power (vals.remove v.address) i fuel
    else refreshPowers power ⟨vals.validators.set i { v with votingPower := power v.address }⟩
      (i + 1) fuel
  | _, _ => vals

/-! ## Addresses stay distinct -/

end Staking

theorem map_address_set {vals : List Validator} {i : ℕ} {v v' : Validator}
    (hv : vals[i]? = some v) (haddr : v'.address = v.address) :
    (vals.set i v').map Validator.address = vals.map Validator.address := by
  rw [List.map_set, haddr]
  refine List.ext_getElem? fun j => ?_
  rw [List.getElem?_set]
  split_ifs with hij hlt
  · subst hij
    rw [List.getElem?_map, hv]
    rfl
  · subst hij
    rw [List.getElem?_eq_none (by omega)]
  · rfl

namespace ValidatorSet

variable {valSet : ValidatorSet}

theorem hasAddress_eq_true {address : Bytes} :
    valSet.hasAddress address = true ↔ address ∈ valSet.validators.map Validator.address := by
  simp only [hasAddress, List.any_eq_true, beq_iff_eq, List.mem_map]

theorem Distinct.add (h : valSet.Distinct) (val : Validator) : (valSet.add val).1.Distinct := by
  unfold ValidatorSet.add
  split_ifs with hhas
  · exact h
  · rw [hasAddress_eq_true] at hhas
    unfold Distinct
    rw [List.map_append]
    refine List.Nodup.append h (List.nodup_singleton _) ?_
    simpa [List.disjoint_singleton] using hhas

theorem Distinct.update (h : valSet.Distinct) (val : Validator) : (valSet.update val).Distinct := by
  unfold ValidatorSet.update
  split
  · next idx hidx =>
    obtain ⟨hlt, hat, -⟩ := List.findIdx?_eq_some_iff_getElem.1 hidx
    unfold Distinct
    rw [map_address_set (List.getElem?_eq_getElem hlt) (beq_iff_eq.1 hat).symm]
    exact h
  · exact h

theorem Distinct.remove (h : valSet.Distinct) (address : Bytes) :
    (valSet.remove address).Distinct :=
  h.sublist ((List.eraseP_sublist ..).map _)

theorem Distinct.getByAddress (h : valSet.Distinct) {v : Validator}
    (hv : v ∈ valSet.validators) : (valSet.getByAddress v.address).2 = some v := by
  unfold ValidatorSet.getByAddress
  cases hidx : valSet.validators.findIdx? fun val => val.address == v.address with
  | none => simpa using List.findIdx?_eq_none_iff.1 hidx v hv
  | some idx =>
    obtain ⟨hlt, hat, -⟩ := List.findIdx?_eq_some_iff_getElem.1 hidx
    have hsame := List.inj_on_of_nodup_map h (List.getElem_mem hlt) hv (beq_iff_eq.1 hat)
    simp only
    rw [List.getElem?_eq_getElem hlt, hsame]

theorem Distinct.equals_self (h : valSet.Distinct) : valSet.equals valSet = true := by
  unfold equals
  simp only [beq_self_eq_true, Bool.true_and, List.all_eq_true]
  intro v hv
  unfold hasEqual
  rw [h.getByAddress hv]
  simp [Validator.equals]

end ValidatorSet

namespace Staking

open State

theorem VoteLoop.distinct_applyVote {acc : VoteLoop} (h : acc.validators.Distinct)
    (v : EpochValidatorVote) : (acc.applyVote v).validators.Distinct := by
  unfold applyVote
  split
  · split
    · exact h
    · split
      · exact h.add _
      · split
        · exact h.remove _
        · exact h.update _
  · exact h

theorem VoteLoop.distinct_foldl {acc : VoteLoop} (h : acc.validators.Distinct)
    (votes : List EpochValidatorVote) :
    (votes.foldl VoteLoop.applyVote acc).validators.Distinct := by
  induction votes generalizing acc with
  | nil => exact h
  | cons v votes ih => exact ih (distinct_applyVote h v)

theorem distinct_updateEpochValidatorSet (L : EpochLibs) {validators : ValidatorSet}
    (h : validators.Distinct) (voteSet : EpochValidatorVoteSet) :
    (updateEpochValidatorSet L validators voteSet).1.Distinct := by
  have hacc := @VoteLoop.distinct_foldl ⟨validators, [], 0⟩ h voteSet.votes
  have hmap : ∀ vals : List Validator, (vals.map countDown).map Validator.address =
      vals.map Validator.address := fun vals => by
    rw [List.map_map]
    rfl
  unfold updateEpochValidatorSet
  simp only
  split_ifs
  · refine List.Nodup.sublist ((List.take_sublist ..).map _) ?_
    refine ((L.sortSlice_perm _).map Validator.address).nodup_iff.2 ?_
    rw [hmap]
    exact hacc
  · unfold ValidatorSet.Distinct
    rw [hmap]
    exact hacc

theorem distinct_refreshPowers (power : Bytes → ℤ) {vals : ValidatorSet} (h : vals.Distinct)
    (i fuel : ℕ) : (refreshPowers power vals i fuel).Distinct := by
  induction fuel generalizing vals i with
  | zero => exact h
  | succ fuel ih =>
    unfold refreshPowers
    split
    · next v hfuel hv =>
      cases hfuel
      split_ifs
      · exact ih (h.remove _) i
      · refine ih ?_ (i + 1)
        have hset := @map_address_set _ i v { v with votingPower := power v.address } hv rfl
        unfold ValidatorSet.Distinct
        rw [hset]
        exact h
    · exact h

/-! ## Programs -/

section Programs

variable {ε : Type}

/-- A function of the state is called. -/
def call {β : Type} (o : Op β) : Prog Op ε β := .perform o

/-- `ForEachProxied`, with what the callback writes to variables outside of it. -/
def forEachProxied {σ : Type} (addr : Address)
    (cb : σ → Address → AccountProxiedBalance → Prog Op ε σ) (init : σ) : Prog Op ε σ := do
  let keys ← call (.proxiedKeys addr)
  keys.foldlM (fun acc key => do
    let value ← call (.proxiedValue addr key)
    cb acc key value) init

/-- The power of a validator in `ShouldEnterNewEpoch`. -/
def stakeOf (addr : Address) : Prog Op ε ℤ := do
  let proxied ← call (.getAmount .proxiedBalance addr)
  let depositProxied ← call (.getAmount .depositProxiedBalance addr)
  let deposit ← call (.getAmount .depositBalance addr)
  pure (proxied + depositProxied + deposit)

/-- What is pending under an account is paid back. -/
def payRefunds (refundAddress : Address) : Prog Op ε Unit := do
  forEachProxied refundAddress (fun _ key value =>
    if 0 < value.pendingRefundBalance then do
      call (.subByUser .depositProxied refundAddress key value.pendingRefundBalance)
      call (.subByUser .pendingRefund refundAddress key value.pendingRefundBalance)
      call (.subAmount .delegateBalance key value.pendingRefundBalance)
      call (.addAmount .balance key value.pendingRefundBalance)
    else pure ()) ()
  let candidate ← call (.isCandidate refundAddress)
  if !candidate then call (.setCommission refundAddress 0)

/-- What is delegated to a validator becomes its deposit. -/
def depositProxied (vAddr : Address) : Prog Op ε Unit :=
  forEachProxied vAddr (fun _ key value =>
    if 0 < value.proxiedBalance then do
      call (.subByUser .proxied vAddr key value.proxiedBalance)
      call (.addByUser .depositProxied vAddr key value.proxiedBalance)
    else pure ()) ()

/-- The loop over the new validators. -/
def depositOfValidator (v : Validator) : Prog Op ε Unit := do
  let candidate ← call (.isCandidate v.address)
  if candidate then
    let total ← call (.getAmount .proxiedBalance v.address)
    if 0 < total then depositProxied v.address

/-- The deposit of a validator that was voted out becomes delegated again. -/
def undepositProxied (addr : Address) : Prog Op ε Unit :=
  forEachProxied addr (fun _ key value =>
    if 0 < value.depositProxiedBalance then do
      call (.subByUser .depositProxied addr key value.depositProxiedBalance)
      call (.addByUser .proxied addr key value.depositProxiedBalance)
    else pure ()) ()

/-- One refund of a validator. -/
def payRefundValidator (r : RefundValidatorAmount) : Prog Op ε Unit := do
  if !r.voteout then
    call (.subAmount .depositBalance r.address (r.amount.getD 0))
    call (.addAmount .balance r.address (r.amount.getD 0))
  else
    let candidate ← call (.isCandidate r.address)
    if candidate then undepositProxied r.address
    let depositBalance ← call (.getAmount .depositBalance r.address)
    call (.subAmount .depositBalance r.address depositBalance)
    call (.addAmount .balance r.address depositBalance)

/-- The program performs another for each element of a list. -/
def forEach {α : Type} (l : List α) (body : α → Prog Op ε Unit) : Prog Op ε Unit :=
  l.foldlM (fun _ a => body a) ()

/-- The powers of some addresses. -/
def stakesOf (addrs : List Address) : Prog Op ε (Address → ℤ) :=
  addrs.foldlM (fun powers addr => do
    let power ← stakeOf addr
    pure (Function.update powers addr power)) fun _ => 0

/-- The part of `ShouldEnterNewEpoch` after the check of the height and of the next epoch.
`order` is the order in which the set of addresses with a refund is walked. -/
def enterProgram (L : EpochLibs) (order : FinSet Address → List Address)
    (validators : ValidatorSet) (voteSet : EpochValidatorVoteSet) : Prog Op ε ValidatorSet := do
  let refundSet ← call (.getSet .delegateRefund)
  forEach (order refundSet) payRefunds
  call .clearDelegateRefundSet
  let powers ← stakesOf (validators.validators.map Validator.address)
  let newValidators := refreshPowers powers validators 0 validators.size
  let (newValidators, refunds) := updateEpochValidatorSet L newValidators voteSet
  forEach newValidators.validators depositOfValidator
  forEach refunds payRefundValidator
  pure newValidators

/-! ## Rules on the abstract state -/

theorem run_proxiedTrie {α : Type} (p : Prog Op ε α) {w : World} {r : Except ε α × World}
    (h : p.run Op.denote w = .ok r) (a : Address) :
    (r.2.acct a).data.proxiedTrie = (w.acct a).data.proxiedTrie := by
  induction p generalizing w with
  | pure _ =>
    cases h
    rfl
  | fail _ =>
    cases h
    rfl
  | op o k ih =>
    obtain ⟨b, hb, hrest⟩ := Steps.bind_eq_ok.1 h
    rw [ih b.1 hrest, Op.denote_proxiedTrie hb]

theorem ends_call {β : Type} {o : Op β} {b : β} {w w' : World} {Q : β → World → Prop}
    (ho : Op.denote o w = .ok (b, w')) (hQ : Q b w') :
    (call o : Prog Op ε β).Ends Op.denote w Q :=
  Prog.ends_perform ho hQ

/-- **The rule of `ForEachProxied`**: the callback is called for each key of the trie, with
what the key's entry is at that time. -/
theorem ends_forEachProxied {σ : Type} {addr : Address}
    {cb : σ → Address → AccountProxiedBalance → Prog Op ε σ} {init : σ} {w : World}
    (I : List Address → σ → World → Prop) (hinit : I [] init w)
    (hstep : ∀ done key rest acc w',
      (w.acct addr).data.proxiedTrie.keys = done ++ key :: rest → I done acc w' →
      (cb acc key (w'.entry addr key)).Ends Op.denote w' (I (done ++ [key]))) :
    (forEachProxied addr cb init).Ends Op.denote w
      (I (w.acct addr).data.proxiedTrie.keys) := by
  refine Prog.Ends.bind (ends_call rfl ?_)
  refine (Prog.ends_foldlM (fun done acc w' =>
    (w'.acct addr).data.proxiedTrie = (w.acct addr).data.proxiedTrie ∧ I done acc w')
    ⟨rfl, hinit⟩ ?_).mono fun _ _ hI => hI.2
  rintro done key rest acc w' hkeys ⟨htrie, hI⟩
  have hmem : key ∈ (w.acct addr).data.proxiedTrie.keys := by
    rw [hkeys]
    simp
  have hcontains : (w'.acct addr).data.proxiedTrie.contains key = true := by
    rw [htrie]
    exact Std.ExtTreeMap.mem_keys.1 hmem
  refine Prog.Ends.bind (ends_call (if_pos hcontains) ?_)
  obtain ⟨acc', w'', hrun, hI'⟩ := hstep done key rest acc w' hkeys hI
  exact ⟨acc', w'', hrun, (run_proxiedTrie _ hrun addr).trans htrie, hI'⟩

theorem total_forEachProxied {σ : Type} {addr : Address}
    {cb : σ → Address → AccountProxiedBalance → Prog Op ε σ}
    (hcb : ∀ acc key value, (cb acc key value).Total Op.denote) (init : σ) :
    (forEachProxied addr cb init).Total Op.denote := fun _ =>
  (ends_forEachProxied (fun _ _ _ => True) trivial fun _ _ _ acc w' _ _ => hcb acc _ _ w').mono
    fun _ _ _ => trivial

/-- A kind of program of this module: it ends in every abstract state, and adds no cross-chain
transaction. -/
structure Tame {α : Type} (p : Prog Op ε α) : Prop where
  total : p.Total Op.denote
  marked : p.Uses fun _ o => ∀ s, o.Marked s

theorem tame_pure {α : Type} (a : α) : Tame (pure a : Prog Op ε α) :=
  ⟨Prog.total_pure a, Prog.uses_pure a⟩

/-- The functions of the state that never panic and add no cross-chain transaction. -/
def plain {β : Type} : Op β → Bool
  | .addTX .. => false
  | .proxiedValue .. => false
  | .subRewardBalanceByDelegateAddress .. => false
  | _ => true

theorem tame_call {β : Type} {o : Op β} (ho : plain o = true) :
    Tame (call o : Prog Op ε β) := by
  cases o with
  | addTX | proxiedValue | subRewardBalanceByDelegateAddress => cases ho
  | _ => exact ⟨Prog.total_perform fun _ => ⟨_, rfl⟩, Prog.uses_perform fun _ => trivial⟩

theorem Tame.bind {α β : Type} {p : Prog Op ε α} {f : α → Prog Op ε β} (hp : Tame p)
    (hf : ∀ a, Tame (f a)) : Tame (p >>= f) :=
  ⟨hp.total.bind fun a => (hf a).total, hp.marked.bind fun a => (hf a).marked⟩

theorem tame_foldlM {α β : Type} {f : α → β → Prog Op ε α} (hf : ∀ acc b, Tame (f acc b))
    (l : List β) (init : α) : Tame (l.foldlM f init) :=
  ⟨Prog.total_foldlM (fun acc b => (hf acc b).total) l init,
    Prog.uses_foldlM (fun acc b => (hf acc b).marked) l init⟩

theorem tame_ite {α : Type} {c : Prop} [Decidable c] {p q : Prog Op ε α} (hp : Tame p)
    (hq : Tame q) : Tame (if c then p else q) := by
  split_ifs
  · exact hp
  · exact hq

theorem tame_forEachProxied {σ : Type} {addr : Address}
    {cb : σ → Address → AccountProxiedBalance → Prog Op ε σ}
    (hcb : ∀ acc key value, Tame (cb acc key value)) (init : σ) :
    Tame (forEachProxied addr cb init) := by
  refine ⟨total_forEachProxied (fun acc key value => (hcb acc key value).total) init, ?_⟩
  refine Prog.Uses.bind (Prog.uses_perform fun _ => trivial) fun keys => ?_
  refine Prog.uses_foldlM (fun acc key => ?_) keys init
  exact Prog.Uses.bind (Prog.uses_perform fun _ => trivial) fun value => (hcb acc key value).marked

theorem tame_forEach {α : Type} {body : α → Prog Op ε Unit} (hbody : ∀ a, Tame (body a))
    (l : List α) : Tame (forEach l body) :=
  tame_foldlM (fun _ a => hbody a) l ()

/-- **A tame program ends on every state that says something**, as it does on what the state
says. -/
theorem Tame.run {α : Type} {p : Prog Op ε α} (hp : Tame p) {s : StateDB} {w : World}
    (h : s.Refines w) :
    ∃ a s' w', p.run Op.run s = .ok (.ok a, s') ∧ p.run Op.denote w = .ok (.ok a, w') := by
  obtain ⟨a, w', hrun, -⟩ := hp.total w
  have hagree := run_refines p h (hp.marked.safe Op.run s)
  rw [hrun] at hagree
  generalize hrun' : p.run Op.run s = r at hagree
  cases hagree with
  | ok => exact ⟨a, _, w', rfl, hrun⟩

theorem tame_payRefunds (refundAddress : Address) :
    Tame (payRefunds refundAddress : Prog Op ε Unit) := by
  refine Tame.bind (tame_forEachProxied (fun _ key value => tame_ite ?_ (tame_pure ())) ())
    fun _ => Tame.bind (tame_call rfl) fun _ => tame_ite (tame_call rfl) (tame_pure _)
  exact Tame.bind (tame_call rfl) fun _ => Tame.bind (tame_call rfl) fun _ =>
    Tame.bind (tame_call rfl) fun _ => tame_call rfl

theorem tame_depositProxied (vAddr : Address) : Tame (depositProxied vAddr : Prog Op ε Unit) :=
  tame_forEachProxied (fun _ _ _ => tame_ite
    (Tame.bind (tame_call rfl) fun _ => tame_call rfl) (tame_pure ())) ()

theorem tame_depositOfValidator (v : Validator) :
    Tame (depositOfValidator v : Prog Op ε Unit) :=
  Tame.bind (tame_call rfl) fun _ => tame_ite
    (Tame.bind (tame_call rfl) fun _ => tame_ite (tame_depositProxied _) (tame_pure _))
    (tame_pure _)

theorem tame_undepositProxied (addr : Address) : Tame (undepositProxied addr : Prog Op ε Unit) :=
  tame_forEachProxied (fun _ _ _ => tame_ite
    (Tame.bind (tame_call rfl) fun _ => tame_call rfl) (tame_pure ())) ()

theorem tame_payRefundValidator (r : RefundValidatorAmount) :
    Tame (payRefundValidator r : Prog Op ε Unit) := by
  refine tame_ite (Tame.bind (tame_call rfl) fun _ => tame_call rfl) ?_
  refine Tame.bind (tame_call rfl) fun _ => ?_
  have hrest : Tame (do
      let depositBalance ← call (.getAmount .depositBalance r.address)
      call (.subAmount .depositBalance r.address depositBalance)
      call (.addAmount .balance r.address depositBalance) : Prog Op ε Unit) :=
    Tame.bind (tame_call rfl) fun _ => Tame.bind (tame_call rfl) fun _ => tame_call rfl
  exact tame_ite (Tame.bind (tame_undepositProxied _) fun _ => hrest) hrest

theorem tame_stakesOf (addrs : List Address) :
    Tame (stakesOf addrs : Prog Op ε (Address → ℤ)) :=
  tame_foldlM (fun _ _ => Tame.bind
    (Tame.bind (tame_call rfl) fun _ => Tame.bind (tame_call rfl) fun _ =>
      Tame.bind (tame_call rfl) fun _ => tame_pure _) fun _ => tame_pure _) addrs _

theorem tame_enterProgram (L : EpochLibs) (order : FinSet Address → List Address)
    (validators : ValidatorSet) (voteSet : EpochValidatorVoteSet) :
    Tame (enterProgram L order validators voteSet : Prog Op ε ValidatorSet) :=
  Tame.bind (tame_call rfl) fun _ => Tame.bind (tame_forEach tame_payRefunds _) fun _ =>
    Tame.bind (tame_call rfl) fun _ => Tame.bind (tame_stakesOf _) fun _ =>
    Tame.bind (tame_forEach tame_depositOfValidator _) fun _ =>
    Tame.bind (tame_forEach tame_payRefundValidator _) fun _ => tame_pure _

/-- The validators of the next epoch are those that `updateEpochValidatorSet` leaves. -/
theorem returns_enterProgram (L : EpochLibs) (order : FinSet Address → List Address)
    (validators : ValidatorSet) (voteSet : EpochValidatorVoteSet) :
    (enterProgram L order validators voteSet : Prog Op ε ValidatorSet).Returns fun vals =>
      ∃ power, vals = (updateEpochValidatorSet L
        (refreshPowers power validators 0 validators.size) voteSet).1 :=
  Prog.Returns.bind fun _ => Prog.Returns.bind fun _ => Prog.Returns.bind fun _ =>
    Prog.Returns.bind fun power => Prog.Returns.bind fun _ => Prog.Returns.bind fun _ =>
      ⟨power, rfl⟩

end Programs

end Staking
end LigoChain
