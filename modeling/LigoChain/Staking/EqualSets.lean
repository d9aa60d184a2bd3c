/-
# Validator sets that are equal and their hashes

`ValidatorSet.Equals` in `chain/consensus/tendermint/types/validator_set.go` looks every validator
of the other set up by its address and compares the address, the key and the power.
`ValidatorSet.Hash` is the Merkle root over the whole validators in their order.  So `Equals` does
not see the order, nor `RemainingEpoch`, nor a validator that the other set has twice in the place
of one it lacks.

`Equals` is transitive on all sets, and reflexive exactly on those that are `Consistent`
(`equals_self_iff`).  **On a collection of validator sets it is an equivalence that determines the
hash exactly if every set is consistent, and sets that are equal list the same addresses and
remaining epochs in the same order** (`equals_sound_iff`).  `reordered_epoch_accepted` has a next
epoch that `ValidateNextEpoch` accepts and whose validators hash to something else.
-/

import LigoChain.Staking.PlainEpoch
import LigoChain.Types.PlainLibs

namespace LigoChain

theorem Validator.equals_iff {v w : Validator} :
    v.equals w = true ↔
      v.address = w.address ∧ v.pubKey = w.pubKey ∧ v.votingPower = w.votingPower := by
  simp [Validator.equals, and_assoc]

theorem Validator.eq_of_equals {v w : Validator} (h : v.equals w = true)
    (hremaining : v.remainingEpoch = w.remainingEpoch) : v = w := by
  obtain ⟨haddress, hpubKey, hpower⟩ := Validator.equals_iff.1 h
  cases v
  cases w
  exact congr (congr (congr (congrArg Validator.mk haddress) hpubKey) hpower) hremaining

namespace ValidatorSet

variable {valSet V W U : ValidatorSet}

/-- What `GetByAddress` finds is in the set, and has the address. -/
theorem getByAddress_eq_some {address : Bytes} {v : Validator}
    (h : (valSet.getByAddress address).2 = some v) :
    v ∈ valSet.validators ∧ v.address = address := by
  unfold getByAddress at h
  split at h
  next idx hidx =>
    obtain ⟨hlt, hat, -⟩ := List.findIdx?_eq_some_iff_getElem.1 hidx
    rw [List.getElem?_eq_getElem hlt] at h
    cases h
    exact ⟨List.getElem_mem hlt, beq_iff_eq.1 hat⟩
  next => cases h

theorem exists_getByAddress {v : Validator} (hv : v ∈ valSet.validators) :
    ∃ w, (valSet.getByAddress v.address).2 = some w := by
  unfold getByAddress
  cases hidx : valSet.validators.findIdx? fun val => val.address == v.address with
  | none => simpa using List.findIdx?_eq_none_iff.1 hidx v hv
  | some idx =>
    obtain ⟨hlt, -, -⟩ := List.findIdx?_eq_some_iff_getElem.1 hidx
    exact ⟨_, List.getElem?_eq_getElem hlt⟩

theorem hasEqual_iff {v : Validator} :
    valSet.hasEqual v = true ↔
      ∃ w, (valSet.getByAddress v.address).2 = some w ∧ w.equals v = true := by
  unfold hasEqual
  exact Option.any_eq_true _ _

theorem equals_iff :
    V.equals W = true ↔ V.validators.length = W.validators.length ∧
      ∀ w ∈ W.validators, ∃ v, (V.getByAddress w.address).2 = some v ∧ v.equals w = true := by
  unfold equals
  simp only [Bool.and_eq_true, beq_iff_eq, List.all_eq_true, hasEqual_iff]

/-- **`Equals` is transitive.** -/
theorem equals_trans (h : U.equals V = true) (h' : V.equals W = true) : U.equals W = true := by
  obtain ⟨hlength, hUV⟩ := equals_iff.1 h
  obtain ⟨hlength', hVW⟩ := equals_iff.1 h'
  refine equals_iff.2 ⟨hlength.trans hlength', fun w hw => ?_⟩
  obtain ⟨v, hv, hvw⟩ := hVW w hw
  obtain ⟨hmem, haddress⟩ := getByAddress_eq_some hv
  obtain ⟨u, hu, huv⟩ := hUV v hmem
  rw [Validator.equals_iff] at huv hvw
  refine ⟨u, haddress ▸ hu, Validator.equals_iff.2 ?_⟩
  exact ⟨huv.1.trans hvw.1, huv.2.1.trans hvw.2.1, huv.2.2.trans hvw.2.2⟩

/-- Validators with one address have one key and one power. -/
def Consistent (valSet : ValidatorSet) : Prop :=
  ∀ v ∈ valSet.validators, ∀ w ∈ valSet.validators, v.address = w.address → v.equals w = true

/-- **Where `Equals` is reflexive.** -/
theorem equals_self_iff : valSet.equals valSet = true ↔ valSet.Consistent := by
  rw [equals_iff]
  constructor
  · rintro ⟨-, h⟩ v hv w hw haddress
    obtain ⟨x, hx, hxv⟩ := h v hv
    obtain ⟨y, hy, hyw⟩ := h w hw
    rw [haddress, hy] at hx
    cases hx
    rw [Validator.equals_iff] at hxv hyw ⊢
    exact ⟨haddress, hxv.2.1.symm.trans hyw.2.1, hxv.2.2.symm.trans hyw.2.2⟩
  · intro h
    refine ⟨rfl, fun v hv => ?_⟩
    obtain ⟨w, hw⟩ := exists_getByAddress hv
    obtain ⟨hmem, haddress⟩ := getByAddress_eq_some hw
    exact ⟨w, hw, h w hmem v hv haddress⟩

/-- What `Equals` does not compare: the order of the addresses, and the remaining epochs. -/
def listing (valSet : ValidatorSet) : List (Bytes × ℕ) :=
  valSet.validators.map fun v => (v.address, v.remainingEpoch)

/-- Equal sets that list the same are the same. -/
theorem eq_of_equals (hV : V.Consistent) (h : V.equals W = true) (hlisting : V.listing = W.listing) :
    V = W := by
  obtain ⟨hlength, hequal⟩ := equals_iff.1 h
  obtain ⟨vs⟩ := V
  obtain ⟨ws⟩ := W
  refine congrArg _ (List.ext_getElem hlength fun i hi hi' => ?_)
  have hat : (vs[i].address, vs[i].remainingEpoch) = (ws[i].address, ws[i].remainingEpoch) := by
    have hmap := congrArg (fun l : List (Bytes × ℕ) => l[i]?) hlisting
    simpa [listing, List.getElem?_eq_getElem hi, List.getElem?_eq_getElem hi'] using hmap
  obtain ⟨haddress, hremaining⟩ := Prod.mk.inj hat
  -- the validator found for the address is both `ws[i]` and, the set being consistent, `vs[i]`
  obtain ⟨v, hv, hvw⟩ := hequal ws[i] (List.getElem_mem hi')
  obtain ⟨hmem, hvaddress⟩ := getByAddress_eq_some hv
  have hsame := hV v hmem vs[i] (List.getElem_mem hi) (hvaddress.trans haddress.symm)
  rw [Validator.equals_iff] at hvw hsame
  refine Validator.eq_of_equals (Validator.equals_iff.2 ?_) hremaining
  exact ⟨haddress, hsame.2.1.symm.trans hvw.2.1, hsame.2.2.symm.trans hvw.2.2⟩

theorem hash_inj {L : Libs} (hinj : Function.Injective L.hashFromValidators)
    (hlength : V.validators.length = W.validators.length) (h : V.hash L = W.hash L) : V = W := by
  obtain ⟨vs⟩ := V
  obtain ⟨ws⟩ := W
  unfold hash at h
  cases vs with
  | nil =>
    obtain rfl := List.length_eq_zero_iff.1 hlength.symm
    rfl
  | cons v vs =>
    obtain ⟨w, ws, rfl⟩ := List.exists_cons_of_length_eq_add_one hlength.symm
    exact congrArg _ (hinj (by simpa using h))

end ValidatorSet

namespace Staking

open ValidatorSet

/-- **`Equals` is sound on a collection of validator sets**: it is an equivalence there, equal
sets have equal hashes, and so have the validators of an epoch and those of a next epoch that
`ValidateNextEpoch` accepts. -/
structure EqualsSound (L : Libs) (E : EpochLibs) (S : Set ValidatorSet) : Prop where
  refl : ∀ V ∈ S, V.equals V = true
  symm : ∀ V ∈ S, ∀ W ∈ S, V.equals W = true → W.equals V = true
  trans : ∀ U ∈ S, ∀ V ∈ S, ∀ W ∈ S, U.equals V = true → V.equals W = true → U.equals W = true
  hash : ∀ V ∈ S, ∀ W ∈ S, V.equals W = true → V.hash L = W.hash L
  accepted : ∀ (ep : Epoch) (next : EpochData) lastHeight lastBlockTime, ep.validators ∈ S →
    next.validators ∈ S → ep.validateNextEpoch E next lastHeight lastBlockTime = .ok true →
    ep.validators.hash L = next.validators.hash L

/-- An accepted next epoch has equal validators. -/
theorem Epoch.equals_of_validateNextEpoch {E : EpochLibs} {ep : Epoch} {next : EpochData}
    {lastHeight : ℕ} {lastBlockTime : ℤ}
    (h : ep.validateNextEpoch E next lastHeight lastBlockTime = .ok true) :
    ep.validators.equals next.validators = true := by
  unfold Epoch.validateNextEpoch at h
  obtain ⟨mine, hmine, h⟩ := Steps.bind_eq_ok.1 h
  have hvalidators : mine.validators = ep.validators := by
    obtain ⟨r, -, hr⟩ := Steps.bind_eq_ok.1 hmine
    exact (congrArg EpochData.validators (Except.ok.inj hr) :).symm
  have hequals : mine.equals next = true := Except.ok.inj h
  rw [← hvalidators]
  unfold EpochData.equals at hequals
  exact (Bool.and_eq_true_iff.1 hequals).2

/-- **Equal sets and equal hashes.** -/
theorem equals_sound_iff {L : Libs} (hinj : Function.Injective L.hashFromValidators)
    (E : EpochLibs) (S : Set ValidatorSet) :
    EqualsSound L E S ↔ (∀ V ∈ S, V.Consistent) ∧
      ∀ V ∈ S, ∀ W ∈ S, V.equals W = true → V.listing = W.listing := by
  constructor
  · intro h
    refine ⟨fun V hV => equals_self_iff.1 (h.refl V hV), fun V hV W hW hequals => ?_⟩
    rw [hash_inj hinj (equals_iff.1 hequals).1 (h.hash V hV W hW hequals)]
  · rintro ⟨hconsistent, hlisting⟩
    have heq : ∀ V ∈ S, ∀ W ∈ S, V.equals W = true → V = W := fun V hV W hW hequals =>
      eq_of_equals (hconsistent V hV) hequals (hlisting V hV W hW hequals)
    refine ⟨fun V hV => equals_self_iff.2 (hconsistent V hV), fun V hV W hW hequals => ?_,
      fun U _ V _ W _ => equals_trans, fun V hV W hW hequals => ?_, fun ep next _ _ hep hnext h => ?_⟩
    · obtain rfl := heq V hV W hW hequals
      exact hequals
    · rw [heq V hV W hW hequals]
    · rw [heq _ hep _ hnext (Epoch.equals_of_validateNextEpoch h)]

/-! ## A reordered epoch -/

/-- The plain-text libraries, with all fields of a validator in the hash. -/
def PlainEpoch.hashLibs : Libs :=
  { plainLibs with
    hashFromValidators := fun vals => PlainLibs.fieldsCode (vals.flatMap fun v =>
      [v.address, v.pubKey,
        PlainLibs.natsCode [if v.votingPower < 0 then 1 else 0, v.votingPower.natAbs,
          v.remainingEpoch]]) }

theorem PlainEpoch.hashLibs_injective :
    Function.Injective PlainEpoch.hashLibs.hashFromValidators := by
  intro vs ws h
  have hfields := PlainLibs.fieldsCode_injective h
  clear h
  induction vs generalizing ws with
  | nil => cases ws with
    | nil => rfl
    | cons w ws => simp at hfields
  | cons v vs ih =>
    cases ws with
    | nil => simp at hfields
    | cons w ws =>
      simp only [List.flatMap_cons, List.cons_append, List.nil_append, List.cons.injEq,
        PlainLibs.natsCode_inj, and_true] at hfields
      obtain ⟨haddress, hpubKey, ⟨hsign, habs, hremaining⟩, hrest⟩ := hfields
      have hpower : v.votingPower = w.votingPower := by split_ifs at hsign <;> omega
      rw [ih hrest, Validator.eq_of_equals
        (Validator.equals_iff.2 ⟨haddress, hpubKey, hpower⟩) hremaining]

/-- Two validators. -/
def PlainEpoch.inOrder : ValidatorSet := ⟨[⟨[1], [1], 1, 0⟩, ⟨[2], [2], 1, 0⟩]⟩

/-- The same validators the other way round. -/
def PlainEpoch.reordered : ValidatorSet := ⟨[⟨[2], [2], 1, 0⟩, ⟨[1], [1], 1, 0⟩]⟩

/-- The first of the two validators, twice. -/
def PlainEpoch.doubled : ValidatorSet := ⟨[⟨[1], [1], 1, 0⟩, ⟨[1], [1], 1, 0⟩]⟩

/-- The equivalence on a set and the same set in another order: it does not hold. -/
theorem equals_sound_iff_reordered :
    ¬ EqualsSound PlainEpoch.hashLibs PlainEpoch.libs {PlainEpoch.inOrder, PlainEpoch.reordered} := by
  rw [equals_sound_iff PlainEpoch.hashLibs_injective]
  rintro ⟨-, hlisting⟩
  exact absurd (hlisting PlainEpoch.inOrder (.inl rfl) PlainEpoch.reordered (.inr rfl) (by decide))
    (by decide)

/-- The first epoch with two validators. -/
def PlainEpoch.twoValidators : Epoch :=
  .initEpoch PlainEpoch.rs { PlainEpoch.doc with validators := PlainEpoch.inOrder } 0

/-- **A next epoch with the validators in another order is accepted**, and they hash to something
else.  And a set equals one that has a validator twice, which does not equal it. -/
theorem reordered_epoch_accepted :
    PlainEpoch.twoValidators.validators = PlainEpoch.inOrder ∧
      PlainEpoch.twoValidators.validateNextEpoch PlainEpoch.libs
        { PlainEpoch.nextEpoch with validators := PlainEpoch.reordered } 2 0 = .ok true ∧
      PlainEpoch.inOrder.equals PlainEpoch.reordered = true ∧
      PlainEpoch.inOrder.hash PlainEpoch.hashLibs ≠ PlainEpoch.reordered.hash PlainEpoch.hashLibs ∧
      PlainEpoch.inOrder.equals PlainEpoch.doubled = true ∧
      PlainEpoch.doubled.equals PlainEpoch.inOrder = false := by
  decide +kernel

end Staking
end LigoChain
