/-
# Proof data of side chains

`ValidateTX3ProofData` and `VerifySideChainProofData` (`ligochain/cross_chain.go`) check, on the main
chain, a header of a side chain; the first, which peers reach with a message of their own
(`TX3ProofDataMsg`), also checks proofs of transactions under that header.  The validators come
from the chain information that the main chain keeps (`GetEpochByBlockNumber` in
`core/chains_info.go`).

The header should be accepted only with a commit of the validators of the epoch that contains its
height, each proof should prove a transaction, and no message should crash the node.  All three
fail (`proof_accepted_unchecked`): a header whose extra data carries an epoch of number `0` is
accepted as it is, the proofs are indexed by the position of the index, and a proof that there is
no such transaction is accepted too.  `proofs_sound_iff` says exactly which proof data is handled
well.

`trie.VerifyProof` answers `none` for an error, and otherwise the value at the key, which is `none`
if the proof shows that there is none.
-/

import LigoChain.Engine.VerifyHeader

namespace LigoChain
namespace CrossChain

open Engine

/-- `MainChain`. -/
def mainChain : String := "ligochain"

/-- `TestnetChain`. -/
def testnetChain : String := "testnet"

/-- `BSKeyValueSet`. -/
abbrev KeyValueSet := List (Bytes × Bytes)

/-- `TX3ProofData`. -/
structure TX3ProofData where
  header : Header
  txIndexs : List ℕ
  txProofs : List KeyValueSet
  deriving DecidableEq

/-- `ChainInfo`, as far as it is read here. -/
structure ChainInfo where
  chainId : String
  epoch : Option Epoch

/-- The helper: the databases it reads and the libraries it calls. -/
structure CrossChainHelper where
  libs : Libs
  nilUncleHash : Bytes
  /-- `epoch.FromBytes` on bytes that are not empty. -/
  readEpoch : Bytes → Option Epoch
  /-- The number of the current epoch in the stored information of a chain. -/
  loadCoreChainInfo : String → Option ℕ
  loadEpoch : ℕ → String → Option Epoch
  /-- The key of an index in the transaction trie. -/
  encodeUint : ℕ → Bytes
  verifyProof : Bytes → Bytes → KeyValueSet → Option (Option Bytes)
  decodeSideChainProofData : Bytes → Option Header

/-- The errors of the checks. -/
inductive ProofError
  | decode
  | invalidExtra
  | invalidSideChainId (chainId : String)
  | invalidNonce
  | invalidMixDigest
  | invalidUncleHash
  | invalidDifficulty
  | chainInfoNotFound (chainId : String)
  | couldNotGetEpoch (height : ℕ)
  | inconsistentValidatorSet
  | invalidCommittedSeals
  | invalidCommit (err : VerifyError)
  | invalidProof
  deriving DecidableEq

/-- The epoch contains the block. -/
def Contains (ep : Epoch) (blockNumber : ℕ) : Prop :=
  ep.startBlock ≤ blockNumber ∧ blockNumber ≤ ep.endBlock

instance (ep : Epoch) (blockNumber : ℕ) : Decidable (Contains ep blockNumber) :=
  inferInstanceAs (Decidable (_ ∧ _))

namespace CrossChainHelper

variable (cch : CrossChainHelper)

/-- `GetChainInfo`. -/
def getChainInfo (chainId : String) : Option ChainInfo :=
  (cch.loadCoreChainInfo chainId).map fun number => ⟨chainId, cch.loadEpoch number chainId⟩

/-- The loop of `GetEpochByBlockNumber` over the epochs below a number. -/
def searchEpoch (chainId : String) (blockNumber : ℕ) : ℕ → Option Epoch
  | 0 => none
  | number + 1 =>
    match cch.loadEpoch number chainId with
    | none => none
    | some ep => if Contains ep blockNumber then some ep else searchEpoch chainId blockNumber number

/-- `ChainInfo.GetEpochByBlockNumber`.  A block after the current epoch is given the next epoch,
whatever its blocks are. -/
def getEpochByBlockNumber (ci : ChainInfo) (blockNumber : ℕ) : Option Epoch :=
  match ci.epoch with
  | none => none
  | some epoch =>
    if Contains epoch blockNumber then some epoch
    else if epoch.endBlock < blockNumber then
      cch.loadEpoch ((epoch.number + 1) % 2 ^ 64) ci.chainId
    else cch.searchEpoch ci.chainId blockNumber epoch.number

/-- The checks of a header that both functions begin with. -/
def checkHeader (header : Header) : Except ProofError TendermintExtra :=
  match extractTendermintExtra cch.libs header with
  | none => .error .invalidExtra
  | some ncExtra =>
    if ncExtra.chainID = "" ∨ ncExtra.chainID = mainChain ∨ ncExtra.chainID = testnetChain then
      .error (.invalidSideChainId ncExtra.chainID)
    else if header.nonce ≠ tendermintEmptyNonce ∧ header.nonce ≠ tendermintNonce then
      .error .invalidNonce
    else if header.mixDigest ≠ tendermintDigest then .error .invalidMixDigest
    else if header.uncleHash ≠ cch.nilUncleHash then .error .invalidUncleHash
    else if header.difficulty ≠ some tendermintDefaultDifficulty then .error .invalidDifficulty
    else .ok ncExtra

/-- The extra data carries an epoch of number `0`. -/
def firstEpoch (ncExtra : TendermintExtra) : Bool :=
  !ncExtra.epochBytes.isEmpty && (cch.readEpoch ncExtra.epochBytes).any fun ep => ep.number == 0

/-- The checks of the commit in the extra data. -/
def checkCommit (ncExtra : TendermintExtra) : Except GoPanic (Except ProofError Unit) :=
  match cch.getChainInfo ncExtra.chainID with
  | none => .ok (.error (.chainInfoNotFound ncExtra.chainID))
  | some ci =>
    match cch.getEpochByBlockNumber ci ncExtra.height with
    | none => .ok (.error (.couldNotGetEpoch ncExtra.height))
    | some epoch =>
      match epoch.validators with
      | none => .error .nilDeref
      | some valSet =>
        if valSet.hash cch.libs ≠ ncExtra.validatorsHash then
          .ok (.error .inconsistentValidatorSet)
        else match ncExtra.seenCommit with
          | none => .error .nilDeref
          | some seenCommit =>
            if ncExtra.seenCommitHash ≠ cch.libs.hashFromCommit seenCommit then
              .ok (.error .invalidCommittedSeals)
            else
              match valSet.verifyCommit cch.libs ncExtra.chainID ncExtra.height seenCommit with
              | .error p => .error p
              | .ok (.error err) => .ok (.error (.invalidCommit err))
              | .ok (.ok ()) => .ok (.ok ())

/-- The loop over the proofs: they are read at the positions of the indices. -/
def checkProofs (header : Header) :
    List ℕ → List KeyValueSet → Except GoPanic (Except ProofError Unit)
  | [], _ => .ok (.ok ())
  | _ :: _, [] => .error .index
  | txIndex :: txIndexs, proof :: txProofs =>
    match cch.verifyProof header.txHash (cch.encodeUint txIndex) proof with
    | none => .ok (.error .invalidProof)
    | some _ => checkProofs header txIndexs txProofs

/-- `ValidateTX3ProofData`. -/
def validateTX3ProofData (p : TX3ProofData) : Except GoPanic (Except ProofError Unit) :=
  match cch.checkHeader p.header with
  | .error err => .ok (.error err)
  | .ok ncExtra =>
    if cch.firstEpoch ncExtra then .ok (.ok ())
    else match cch.checkCommit ncExtra with
      | .error panic => .error panic
      | .ok (.error err) => .ok (.error err)
      | .ok (.ok ()) => cch.checkProofs p.header p.txIndexs p.txProofs

/-- `VerifySideChainProofData`. -/
def verifySideChainProofData (bs : Bytes) : Except GoPanic (Except ProofError Unit) :=
  match cch.decodeSideChainProofData bs with
  | none => .ok (.error .decode)
  | some header =>
    match cch.checkHeader header with
    | .error err => .ok (.error err)
    | .ok ncExtra =>
      if cch.firstEpoch ncExtra then .ok (.ok ())
      else if ncExtra.chainID ≠ "side_0" then cch.checkCommit ncExtra
      else .ok (.ok ())

/-! ## What should hold -/

/-- The epoch that is found for the height of a header of a registered chain. -/
def FindsEpoch (ncExtra : TendermintExtra) (epoch : Epoch) : Prop :=
  ∃ ci, cch.getChainInfo ncExtra.chainID = some ci ∧
    cch.getEpochByBlockNumber ci ncExtra.height = some epoch

/-- The commit in the extra data passes the check of the validators of the registered chain's epoch
that contains the height. -/
def CommitVerified (ncExtra : TendermintExtra) : Prop :=
  ∃ epoch valSet commit, cch.FindsEpoch ncExtra epoch ∧ Contains epoch ncExtra.height ∧
    epoch.validators = some valSet ∧ ncExtra.seenCommit = some commit ∧
    valSet.verifyCommit cch.libs ncExtra.chainID ncExtra.height (some commit) = .ok (.ok ())

/-- The proof at a position is accepted, with the value at its key. -/
def AcceptsAt (p : TX3ProofData) (i : ℕ) (value : Option Bytes) : Prop :=
  ∃ txIndex proof, p.txIndexs[i]? = some txIndex ∧ p.txProofs[i]? = some proof ∧
    cch.verifyProof p.header.txHash (cch.encodeUint txIndex) proof = some value

/-- Every index has a proof, and it proves a transaction. -/
def ProvesAll (p : TX3ProofData) : Prop :=
  ∀ i, i < p.txIndexs.length → ∃ tx, cch.AcceptsAt p i (some tx)

/-- **Proof data is handled well**: the check returns, and what it accepts has a verified commit and
proofs of transactions. -/
def Sound (p : TX3ProofData) : Prop :=
  (∃ r, cch.validateTX3ProofData p = .ok r) ∧
    (cch.validateTX3ProofData p = .ok (.ok ()) →
      ∃ ncExtra, extractTendermintExtra cch.libs p.header = some ncExtra ∧
        cch.CommitVerified ncExtra ∧ cch.ProvesAll p)

/-- What a side chain's proof data is accepted with has a verified commit. -/
def SideSound (bs : Bytes) : Prop :=
  cch.verifySideChainProofData bs = .ok (.ok ()) →
    ∃ header ncExtra, cch.decodeSideChainProofData bs = some header ∧
      extractTendermintExtra cch.libs header = some ncExtra ∧ cch.CommitVerified ncExtra

/-! ## When it does -/

/-- The check of the commit does not panic: the epoch that is found has validators, if their hash
agrees there is a commit, and if its hash agrees too its verification returns. -/
def CommitReturns (ncExtra : TendermintExtra) : Prop :=
  ∀ epoch, cch.FindsEpoch ncExtra epoch → ∃ valSet, epoch.validators = some valSet ∧
    (valSet.hash cch.libs = ncExtra.validatorsHash → ∃ commit, ncExtra.seenCommit = some commit ∧
      (ncExtra.seenCommitHash = cch.libs.hashFromCommit commit →
        ∃ r, valSet.verifyCommit cch.libs ncExtra.chainID ncExtra.height (some commit) = .ok r))

/-- The loop over the proofs does not panic: it comes to no index without a proof. -/
def ProofsReturn (p : TX3ProofData) : Prop :=
  ∀ i, i < p.txIndexs.length → (∀ j, j < i → ∃ value, cch.AcceptsAt p j value) →
    i < p.txProofs.length

/-- The condition on proof data.  If the extra data carries an epoch of number `0`, nothing is
checked, so all has to be right already.  Otherwise the commit and the proofs must not crash the
node, and if they are accepted the epoch that was found has to contain the height and each proof
has to be that of a transaction. -/
def Guarded (p : TX3ProofData) : Prop :=
  ∀ ncExtra, cch.checkHeader p.header = .ok ncExtra →
    if cch.firstEpoch ncExtra = true then cch.CommitVerified ncExtra ∧ cch.ProvesAll p
    else cch.CommitReturns ncExtra ∧ (cch.checkCommit ncExtra = .ok (.ok ()) →
      cch.ProofsReturn p ∧ ((∀ i, i < p.txIndexs.length → ∃ value, cch.AcceptsAt p i value) →
        (∀ epoch, cch.FindsEpoch ncExtra epoch → Contains epoch ncExtra.height) ∧
          cch.ProvesAll p))

/-- The condition on a side chain's proof data, where nothing is checked for the chain `side_0`
either. -/
def SideGuarded (bs : Bytes) : Prop :=
  ∀ header ncExtra, cch.decodeSideChainProofData bs = some header →
    cch.checkHeader header = .ok ncExtra →
    if cch.firstEpoch ncExtra = true ∨ ncExtra.chainID = "side_0" then cch.CommitVerified ncExtra
    else cch.checkCommit ncExtra = .ok (.ok ()) →
      ∀ epoch, cch.FindsEpoch ncExtra epoch → Contains epoch ncExtra.height

variable {cch} {ncExtra : TendermintExtra} {header : Header} {p : TX3ProofData}

theorem extra_of_checkHeader (h : cch.checkHeader header = .ok ncExtra) :
    extractTendermintExtra cch.libs header = some ncExtra := by
  unfold checkHeader at h
  split at h
  · cases h
  next extra hextra =>
  split_ifs at h
  rw [hextra, Except.ok.inj h]

theorem FindsEpoch.unique {epoch epoch' : Epoch} (h : cch.FindsEpoch ncExtra epoch)
    (h' : cch.FindsEpoch ncExtra epoch') : epoch = epoch' := by
  obtain ⟨ci, hci, hepoch⟩ := h
  obtain ⟨ci', hci', hepoch'⟩ := h'
  obtain rfl := Option.some.inj (hci.symm.trans hci')
  exact Option.some.inj (hepoch.symm.trans hepoch')

/-- The check of the commit, once an epoch is found. -/
theorem checkCommit_of_finds {epoch : Epoch} (h : cch.FindsEpoch ncExtra epoch) :
    cch.checkCommit ncExtra =
      match epoch.validators with
      | none => .error .nilDeref
      | some valSet =>
        if valSet.hash cch.libs ≠ ncExtra.validatorsHash then
          .ok (.error .inconsistentValidatorSet)
        else match ncExtra.seenCommit with
          | none => .error .nilDeref
          | some seenCommit =>
            if ncExtra.seenCommitHash ≠ cch.libs.hashFromCommit seenCommit then
              .ok (.error .invalidCommittedSeals)
            else
              match valSet.verifyCommit cch.libs ncExtra.chainID ncExtra.height seenCommit with
              | .error p => .error p
              | .ok (.error err) => .ok (.error (.invalidCommit err))
              | .ok (.ok ()) => .ok (.ok ()) := by
  obtain ⟨ci, hci, hepoch⟩ := h
  simp only [checkCommit, hci, hepoch]

theorem checkCommit_of_not_finds (h : ∀ epoch, ¬ cch.FindsEpoch ncExtra epoch) :
    ∃ err, cch.checkCommit ncExtra = .ok (.error err) := by
  unfold checkCommit
  split
  · exact ⟨_, rfl⟩
  next ci hci =>
  split
  · exact ⟨_, rfl⟩
  · next epoch hepoch => exact absurd ⟨ci, hci, hepoch⟩ (h epoch)

/-- **When the check of the commit returns.** -/
theorem checkCommit_returns_iff :
    (∃ r, cch.checkCommit ncExtra = .ok r) ↔ cch.CommitReturns ncExtra := by
  by_cases hfinds : ∃ epoch, cch.FindsEpoch ncExtra epoch
  · obtain ⟨epoch, hepoch⟩ := hfinds
    rw [checkCommit_of_finds hepoch]
    constructor
    · rintro ⟨r, hr⟩ epoch' hepoch'
      obtain rfl := hepoch.unique hepoch'
      split at hr
      · cases hr
      next valSet hvalSet =>
      refine ⟨valSet, hvalSet, fun hhash => ?_⟩
      rw [if_neg (not_not_intro hhash)] at hr
      split at hr
      · cases hr
      next commit hcommit =>
      refine ⟨commit, hcommit, fun hseal => ?_⟩
      rw [if_neg (not_not_intro hseal)] at hr
      split at hr
      · cases hr
      · next err hverify => exact ⟨_, hverify⟩
      · next hverify => exact ⟨_, hverify⟩
    · intro hreturns
      obtain ⟨valSet, hvalSet, hcommit⟩ := hreturns epoch hepoch
      simp only [hvalSet]
      by_cases hhash : valSet.hash cch.libs = ncExtra.validatorsHash
      · obtain ⟨commit, hsome, hverify⟩ := hcommit hhash
        rw [if_neg (not_not_intro hhash)]
        simp only [hsome]
        by_cases hseal : ncExtra.seenCommitHash = cch.libs.hashFromCommit commit
        · obtain ⟨r, hr⟩ := hverify hseal
          rw [if_neg (not_not_intro hseal), hr]
          rcases r with err | ⟨⟩
          · exact ⟨_, rfl⟩
          · exact ⟨_, rfl⟩
        · exact ⟨_, if_pos hseal⟩
      · exact ⟨_, if_pos hhash⟩
  · obtain ⟨err, herr⟩ := checkCommit_of_not_finds fun epoch h => hfinds ⟨epoch, h⟩
    exact iff_of_true ⟨_, herr⟩ fun epoch h => absurd ⟨epoch, h⟩ hfinds

/-- **What an accepted commit has passed**, except that nothing says the epoch contains the
height. -/
theorem verified_of_checkCommit (h : cch.checkCommit ncExtra = .ok (.ok ())) :
    ∃ epoch valSet commit, cch.FindsEpoch ncExtra epoch ∧ epoch.validators = some valSet ∧
      ncExtra.seenCommit = some commit ∧
      valSet.verifyCommit cch.libs ncExtra.chainID ncExtra.height (some commit) = .ok (.ok ()) := by
  by_cases hfinds : ∃ epoch, cch.FindsEpoch ncExtra epoch
  · obtain ⟨epoch, hepoch⟩ := hfinds
    rw [checkCommit_of_finds hepoch] at h
    split at h
    · cases h
    next valSet hvalSet =>
    split_ifs at h
    · cases h
    split at h
    · cases h
    next commit hcommit =>
    split_ifs at h
    · cases h
    split at h
    · cases h
    · cases h
    · next hverify => exact ⟨epoch, valSet, commit, hepoch, hvalSet, hcommit, hverify⟩
  · obtain ⟨err, herr⟩ := checkCommit_of_not_finds fun epoch h => hfinds ⟨epoch, h⟩
    rw [herr] at h
    cases h

/-- A commit that was accepted is verified exactly if the epoch that was found contains the
height. -/
theorem commitVerified_iff (h : cch.checkCommit ncExtra = .ok (.ok ())) :
    cch.CommitVerified ncExtra ↔
      ∀ epoch, cch.FindsEpoch ncExtra epoch → Contains epoch ncExtra.height := by
  constructor
  · rintro ⟨epoch, valSet, commit, hepoch, hcontains, -⟩ epoch' hepoch'
    exact hepoch.unique hepoch' ▸ hcontains
  · intro hcontains
    obtain ⟨epoch, valSet, commit, hepoch, hrest⟩ := verified_of_checkCommit h
    exact ⟨epoch, valSet, commit, hepoch, hcontains epoch hepoch, hrest⟩

theorem acceptsAt_zero {txIndex : ℕ} {txIndexs : List ℕ} {proof : KeyValueSet}
    {txProofs : List KeyValueSet} {value : Option Bytes} :
    cch.AcceptsAt ⟨header, txIndex :: txIndexs, proof :: txProofs⟩ 0 value ↔
      cch.verifyProof header.txHash (cch.encodeUint txIndex) proof = some value := by
  simp [AcceptsAt]

theorem acceptsAt_succ {txIndex i : ℕ} {txIndexs : List ℕ} {proof : KeyValueSet}
    {txProofs : List KeyValueSet} {value : Option Bytes} :
    cch.AcceptsAt ⟨header, txIndex :: txIndexs, proof :: txProofs⟩ (i + 1) value ↔
      cch.AcceptsAt ⟨header, txIndexs, txProofs⟩ i value := by
  simp [AcceptsAt]

/-- **When the loop over the proofs returns.** -/
theorem checkProofs_returns_iff (txIndexs : List ℕ) (txProofs : List KeyValueSet) :
    (∃ r, cch.checkProofs header txIndexs txProofs = .ok r) ↔
      cch.ProofsReturn ⟨header, txIndexs, txProofs⟩ := by
  induction txIndexs generalizing txProofs with
  | nil => exact iff_of_true ⟨_, rfl⟩ fun i hi => absurd hi (Nat.not_lt_zero i)
  | cons txIndex txIndexs ih =>
    cases txProofs with
    | nil =>
      refine iff_of_false (fun ⟨r, hr⟩ => nomatch hr) fun h => ?_
      exact Nat.lt_irrefl 0 (h 0 (Nat.zero_lt_succ _) fun j hj => absurd hj (Nat.not_lt_zero j))
    | cons proof txProofs =>
      simp only [checkProofs]
      cases hproof : cch.verifyProof header.txHash (cch.encodeUint txIndex) proof with
      | none =>
        refine iff_of_true ⟨_, rfl⟩ fun i _ hbefore => ?_
        cases i with
        | zero => exact Nat.zero_lt_succ _
        | succ i =>
          obtain ⟨value, hvalue⟩ := hbefore 0 (Nat.zero_lt_succ i)
          rw [acceptsAt_zero, hproof] at hvalue
          cases hvalue
      | some value =>
        refine (ih txProofs).trans ⟨fun h i hi hbefore => ?_, fun h i hi hbefore => ?_⟩
        · cases i with
          | zero => exact Nat.zero_lt_succ _
          | succ i =>
            refine Nat.succ_lt_succ (h i (Nat.lt_of_succ_lt_succ hi) fun j hj => ?_)
            obtain ⟨value, hvalue⟩ := hbefore (j + 1) (Nat.succ_lt_succ hj)
            exact ⟨value, acceptsAt_succ.1 hvalue⟩
        · refine Nat.lt_of_succ_lt_succ (h (i + 1) (Nat.succ_lt_succ hi) fun j hj => ?_)
          cases j with
          | zero => exact ⟨value, acceptsAt_zero.2 hproof⟩
          | succ j =>
            obtain ⟨value, hvalue⟩ := hbefore j (Nat.lt_of_succ_lt_succ hj)
            exact ⟨value, acceptsAt_succ.2 hvalue⟩

/-- **When the loop accepts all proofs.** -/
theorem checkProofs_accepts_iff (txIndexs : List ℕ) (txProofs : List KeyValueSet) :
    cch.checkProofs header txIndexs txProofs = .ok (.ok ()) ↔
      ∀ i, i < txIndexs.length → ∃ value, cch.AcceptsAt ⟨header, txIndexs, txProofs⟩ i value := by
  induction txIndexs generalizing txProofs with
  | nil => exact iff_of_true rfl fun i hi => absurd hi (Nat.not_lt_zero i)
  | cons txIndex txIndexs ih =>
    cases txProofs with
    | nil =>
      refine iff_of_false (fun h => nomatch h) fun h => ?_
      obtain ⟨_, _, _, _, hproof, _⟩ := h 0 (Nat.zero_lt_succ _)
      cases hproof
    | cons proof txProofs =>
      simp only [checkProofs]
      cases hproof : cch.verifyProof header.txHash (cch.encodeUint txIndex) proof with
      | none =>
        refine iff_of_false (fun h => nomatch h) fun h => ?_
        obtain ⟨value, hvalue⟩ := h 0 (Nat.zero_lt_succ _)
        rw [acceptsAt_zero, hproof] at hvalue
        cases hvalue
      | some value =>
        refine (ih txProofs).trans ⟨fun h i hi => ?_, fun h i hi => ?_⟩
        · cases i with
          | zero => exact ⟨value, acceptsAt_zero.2 hproof⟩
          | succ i =>
            obtain ⟨value, hvalue⟩ := h i (Nat.lt_of_succ_lt_succ hi)
            exact ⟨value, acceptsAt_succ.2 hvalue⟩
        · obtain ⟨value, hvalue⟩ := h (i + 1) (Nat.succ_lt_succ hi)
          exact ⟨value, acceptsAt_succ.1 hvalue⟩

theorem sound_iff_of_checkHeader (h : cch.checkHeader p.header = .ok ncExtra) :
    cch.Sound p ↔ (∃ r, cch.validateTX3ProofData p = .ok r) ∧
      (cch.validateTX3ProofData p = .ok (.ok ()) →
        cch.CommitVerified ncExtra ∧ cch.ProvesAll p) := by
  have hextra := extra_of_checkHeader h
  refine and_congr_right fun _ => forall_congr' fun _ => ⟨?_, fun hgood => ⟨ncExtra, hextra, hgood⟩⟩
  rintro ⟨ncExtra', hextra', hgood⟩
  obtain rfl := Option.some.inj (hextra.symm.trans hextra')
  exact hgood

/-- **The check of proof data is sound exactly on the proof data that meets the condition.** -/
theorem sound_iff (p : TX3ProofData) : cch.Sound p ↔ cch.Guarded p := by
  cases hheader : cch.checkHeader p.header with
  | error err =>
    have hvalidate : cch.validateTX3ProofData p = .ok (.error err) := by
      simp only [validateTX3ProofData, hheader]
    refine iff_of_true ⟨⟨_, hvalidate⟩, fun h => ?_⟩ fun ncExtra h => ?_
    · rw [hvalidate] at h
      cases h
    · rw [hheader] at h
      cases h
  | ok ncExtra =>
    have hguarded : cch.Guarded p ↔
        if cch.firstEpoch ncExtra = true then cch.CommitVerified ncExtra ∧ cch.ProvesAll p
        else cch.CommitReturns ncExtra ∧ (cch.checkCommit ncExtra = .ok (.ok ()) →
          cch.ProofsReturn p ∧ ((∀ i, i < p.txIndexs.length → ∃ value, cch.AcceptsAt p i value) →
            (∀ epoch, cch.FindsEpoch ncExtra epoch → Contains epoch ncExtra.height) ∧
              cch.ProvesAll p)) := by
      refine ⟨fun h => h ncExtra hheader, fun h ncExtra' hheader' => ?_⟩
      obtain rfl := Except.ok.inj (hheader.symm.trans hheader')
      exact h
    rw [sound_iff_of_checkHeader hheader, hguarded]
    by_cases hfirst : cch.firstEpoch ncExtra = true
    · have hvalidate : cch.validateTX3ProofData p = .ok (.ok ()) := by
        simp only [validateTX3ProofData, hheader, if_pos hfirst]
      rw [if_pos hfirst, hvalidate]
      exact ⟨fun h => h.2 rfl, fun h => ⟨⟨_, rfl⟩, fun _ => h⟩⟩
    · rw [if_neg hfirst, ← checkCommit_returns_iff]
      simp only [validateTX3ProofData, hheader, if_neg hfirst]
      rcases hcommit : cch.checkCommit ncExtra with panic | err | ⟨⟩
      · exact iff_of_false (fun h => nomatch h.1) fun h => nomatch h.1
      · exact iff_of_true ⟨⟨_, rfl⟩, nofun⟩ ⟨⟨_, rfl⟩, nofun⟩
      · dsimp only
        rw [checkProofs_returns_iff, checkProofs_accepts_iff, ← commitVerified_iff hcommit]
        exact ⟨fun h => ⟨⟨_, rfl⟩, fun _ => h⟩, fun h => h.2 rfl⟩

/-- A side chain's proof data is accepted only with a verified commit exactly if it meets the
condition. -/
theorem sideSound_iff (bs : Bytes) : cch.SideSound bs ↔ cch.SideGuarded bs := by
  cases hdecode : cch.decodeSideChainProofData bs with
  | none =>
    have hverify : cch.verifySideChainProofData bs = .ok (.error .decode) := by
      simp only [verifySideChainProofData, hdecode]
    refine iff_of_true (fun h => ?_) fun header ncExtra h => ?_
    · rw [hverify] at h
      cases h
    · rw [hdecode] at h
      cases h
  | some header =>
    cases hheader : cch.checkHeader header with
    | error err =>
      have hverify : cch.verifySideChainProofData bs = .ok (.error err) := by
        simp only [verifySideChainProofData, hdecode, hheader]
      refine iff_of_true (fun h => ?_) fun header' ncExtra h h' => ?_
      · rw [hverify] at h
        cases h
      · obtain rfl := Option.some.inj (hdecode.symm.trans h)
        rw [hheader] at h'
        cases h'
    | ok ncExtra =>
      have hextra := extra_of_checkHeader hheader
      have hsound : cch.SideSound bs ↔
          (cch.verifySideChainProofData bs = .ok (.ok ()) → cch.CommitVerified ncExtra) := by
        refine forall_congr' fun _ => ⟨?_, fun h => ⟨header, ncExtra, hdecode, hextra, h⟩⟩
        rintro ⟨header', ncExtra', hdecode', hextra', h⟩
        obtain rfl := Option.some.inj (hdecode.symm.trans hdecode')
        obtain rfl := Option.some.inj (hextra.symm.trans hextra')
        exact h
      have hguarded : cch.SideGuarded bs ↔
          if cch.firstEpoch ncExtra = true ∨ ncExtra.chainID = "side_0" then
            cch.CommitVerified ncExtra
          else cch.checkCommit ncExtra = .ok (.ok ()) →
            ∀ epoch, cch.FindsEpoch ncExtra epoch → Contains epoch ncExtra.height := by
        refine ⟨fun h => h header ncExtra hdecode hheader, fun h header' ncExtra' h₁ h₂ => ?_⟩
        obtain rfl := Option.some.inj (hdecode.symm.trans h₁)
        obtain rfl := Except.ok.inj (hheader.symm.trans h₂)
        exact h
      rw [hsound, hguarded]
      simp only [verifySideChainProofData, hdecode, hheader]
      by_cases hfirst : cch.firstEpoch ncExtra = true
      · rw [if_pos hfirst, if_pos (.inl hfirst)]
        exact ⟨fun h => h rfl, fun h _ => h⟩
      by_cases hside : ncExtra.chainID = "side_0"
      · rw [if_neg hfirst, if_neg (not_not_intro hside), if_pos (.inr hside)]
        exact ⟨fun h => h rfl, fun h _ => h⟩
      · rw [if_neg hfirst, if_pos hside, if_neg (not_or.2 ⟨hfirst, hside⟩)]
        exact forall_congr' fun h => commitVerified_iff h

/-- **Which proofs of side chains are handled well.**  For every state of the helper's databases:
`ValidateTX3ProofData` returns, and accepts only headers with a verified commit and proofs of
transactions, exactly on the proof data that is `Guarded`; and what `VerifySideChainProofData`
accepts has a verified commit exactly if it is `SideGuarded`. -/
theorem proofs_sound_iff (cch : CrossChainHelper) :
    (∀ p, cch.Sound p ↔ cch.Guarded p) ∧ ∀ bs, cch.SideSound bs ↔ cch.SideGuarded bs :=
  ⟨sound_iff, sideSound_iff⟩

end CrossChainHelper

/-! ## Proofs that are not checked -/

/-- A commit of the sole validator at height `1` of a side chain. -/
def sideCommit : Commit where
  blockID := ⟨[9], ⟨1, [8]⟩⟩
  height := 1
  round := 0
  signAggr := some (PlainLibs.sign [1]
    (plainLibs.signBytes "side_1" ⟨⟨[9], ⟨1, [8]⟩⟩, 1, 0, voteTypePrecommit⟩))
  bitArray := some [true]

/-- The extra data with that commit. -/
def sideExtra : TendermintExtra :=
  { TendermintExtra.zero with
    chainID := "side_1"
    height := 1
    validatorsHash := soleValidator.hash plainLibs
    seenCommit := some sideCommit
    seenCommitHash := plainLibs.hashFromCommit sideCommit }

/-- Extra data for a chain that nobody has registered, without a commit and with an epoch of number
`0`. -/
def forgedExtra : TendermintExtra :=
  { TendermintExtra.zero with chainID := "nowhere", height := 1, epochBytes := [5] }

/-- A main chain where the chain `side_1` is registered, with the sole validator.  Its transaction
tries are empty. -/
def plainHelper : CrossChainHelper where
  libs :=
    { plainLibs with
      readExtra := fun b =>
        if b = [6] then some forgedExtra else if b = [7] then some sideExtra else none }
  nilUncleHash := []
  readEpoch b := if b = [5] then some ⟨0, 0, 100, none⟩ else none
  loadCoreChainInfo chainId := if chainId = "side_1" then some 0 else none
  loadEpoch number chainId :=
    if chainId = "side_1" ∧ number = 0 then some ⟨0, 0, 100, some soleValidator⟩ else none
  encodeUint n := [UInt8.ofNat n]
  verifyProof _ _ _ := some none
  decodeSideChainProofData _ := some { parentHeader with extra := [6] }

/-- Proof data with one index. -/
def proofData (extra : Bytes) (txProofs : List KeyValueSet) : TX3ProofData where
  header := { parentHeader with extra := extra }
  txIndexs := [0]
  txProofs := txProofs

/-- **Proof data is accepted unchecked, and crashes the node.**  A header for a chain that is not
registered is accepted by both functions because it carries an epoch of number `0`.  With a good
commit, an index without a proof panics, and a proof that there is no transaction is accepted. -/
theorem proof_accepted_unchecked :
    (plainHelper.validateTX3ProofData (proofData [6] []) = .ok (.ok ()) ∧
      plainHelper.verifySideChainProofData [] = .ok (.ok ()) ∧
      plainHelper.getChainInfo forgedExtra.chainID = none) ∧
    plainHelper.validateTX3ProofData (proofData [7] []) = .error .index ∧
    (plainHelper.validateTX3ProofData (proofData [7] [[]]) = .ok (.ok ()) ∧
      plainHelper.verifyProof (proofData [7] [[]]).header.txHash (plainHelper.encodeUint 0) [] =
        some none) := by
  decide +kernel

end CrossChain
end LigoChain
