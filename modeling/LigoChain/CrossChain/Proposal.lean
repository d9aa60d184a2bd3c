/-
# Proof data in a proposed block

A proposer puts the proof data of the withdrawals of its block next to the block
(`createProposalBlock` in `consensus/tendermint/consensus/state.go`), from the store of proof data
that it has (`rawdb/tx3_local_database_util.go`); every validator, and the proposer itself, walks
over the withdrawals again and takes the next proof data for each (`ValidateTX4`).  The first walk
leaves out withdrawals whose arguments cannot be unpacked or for which the store has nothing; the
second one leaves out none.

A withdrawal needs no proof data to get into a block: its function has no callback, so
`ApplyTransactionEx` takes any call of it.  **A proposed block passes its own check exactly if every
withdrawal in it has proof data in the store that is accepted with it** (`selfValid_iff`); a block
with another one is refused by everybody (`unproven_withdrawal_refused`).
-/

import LigoChain.Staking.ApplyTransaction
import Mathlib.Data.List.ReduceOption

namespace LigoChain
namespace CrossChain

open Engine

/-- The store of proof data: where a transaction was, by chain and hash, and the proof data of a
block, by chain and number. -/
structure TX3Store where
  lookup : String → Bytes → Option (ℕ × ℕ)
  proofs : String → ℕ → Option TX3ProofData

/-- `GetTX3ProofData`. -/
def TX3Store.getTX3ProofData (store : TX3Store) (chainId : String) (txHash : Bytes) :
    Go (Option TX3ProofData) :=
  match store.lookup chainId txHash with
  | none => .ok none
  | some (blockNumber, txIndex) =>
    match store.proofs chainId blockNumber with
    | none => .ok none
    | some proofData =>
      match proofData.txIndexs.idxOf? txIndex with
      | none => .ok none
      | some i =>
        match proofData.txProofs[i]? with
        | none => .error .index
        | some proof => .ok (some ⟨proofData.header, [txIndex], [proof]⟩)

section Proposal

variable (cch : CrossChainHelper) (T : TxLibs) (store : TX3Store)

/-- The loop of `createProposalBlock` over the transactions of the block. -/
def collectTX3ProofData : List Transaction → Go (List TX3ProofData)
  | [] => .ok []
  | tx :: txs => do
    if isLigoChainContractAddr tx.recipient then
      let (id, input) ← splitData tx.data
      if T.functionTypeFromId id = some .withdrawFromMainChain then
        match T.unpackWithdrawFromMainChain input with
        | none => collectTX3ProofData txs
        | some args =>
          let proof ← store.getTX3ProofData args.chainId args.txHash
          let rest ← collectTX3ProofData txs
          .ok (proof.toList ++ rest)
      else collectTX3ProofData txs
    else collectTX3ProofData txs

/-- **The block that is proposed passes its own check.** -/
def SelfValid (txs : List Transaction) : Prop :=
  ∃ proofs, collectTX3ProofData T store txs = .ok proofs ∧
    validateTX4 cch T txs proofs = .ok (.ok ())

/-! ## The withdrawals of a block -/

/-- The data of a transaction to the chain contract has an identifier. -/
def Sized (tx : Transaction) : Prop :=
  isLigoChainContractAddr tx.recipient = true → 4 ≤ tx.data.length

/-- The transaction is a withdrawal. -/
def isWithdrawal (tx : Transaction) : Bool :=
  isLigoChainContractAddr tx.recipient &&
    decide (T.functionTypeFromId (tx.data.take 4) = some .withdrawFromMainChain)

/-- What the store has for a withdrawal. -/
def ownProof (tx : Transaction) : Go (Option TX3ProofData) :=
  match T.unpackWithdrawFromMainChain (tx.data.drop 4) with
  | none => .ok none
  | some args => store.getTX3ProofData args.chainId args.txHash

/-- The proof data is accepted with the withdrawal. -/
structure Checked (tx : Transaction) (p : TX3ProofData) : Prop where
  proofData : cch.validateTX3ProofData p = .ok (.ok ())
  accepts : Accepts cch T tx p

variable {cch T store} {tx : Transaction} {txs : List Transaction} {proofs : List TX3ProofData}

theorem splitData_of_sized (h : 4 ≤ tx.data.length) :
    splitData tx.data = .ok (tx.data.take 4, tx.data.drop 4) := if_neg (not_lt.2 h)

theorem splitData_of_not_sized (h : ¬4 ≤ tx.data.length) : splitData tx.data = .error .index :=
  if_pos (not_le.1 h)

/-- One transaction of a walk: it is left out, or it is a withdrawal. -/
theorem walk_cases (T : TxLibs) (tx : Transaction) :
    (Sized tx ∧ isWithdrawal T tx = false ∧ (isLigoChainContractAddr tx.recipient = true →
        T.functionTypeFromId (tx.data.take 4) ≠ some .withdrawFromMainChain)) ∨
      (Sized tx ∧ isWithdrawal T tx = true ∧ isLigoChainContractAddr tx.recipient = true ∧
        4 ≤ tx.data.length ∧
        T.functionTypeFromId (tx.data.take 4) = some .withdrawFromMainChain) ∨
      (¬Sized tx ∧ isLigoChainContractAddr tx.recipient = true ∧ ¬4 ≤ tx.data.length) := by
  unfold Sized isWithdrawal
  by_cases hcontract : isLigoChainContractAddr tx.recipient = true
  · by_cases hsized : 4 ≤ tx.data.length
    · by_cases hfunction : T.functionTypeFromId (tx.data.take 4) = some .withdrawFromMainChain
      · exact .inr (.inl ⟨fun _ => hsized, by simp [hcontract, hfunction], hcontract, hsized,
          hfunction⟩)
      · exact .inl ⟨fun _ => hsized, by simp [hfunction], fun _ => hfunction⟩
    · exact .inr (.inr ⟨fun h => hsized (h hcontract), hcontract, hsized⟩)
  · exact .inl ⟨fun h => absurd h hcontract, by simp [hcontract], fun h => absurd h hcontract⟩

theorem collect_cons_other (hsized : Sized tx) (hother : isLigoChainContractAddr tx.recipient = true →
      T.functionTypeFromId (tx.data.take 4) ≠ some .withdrawFromMainChain) :
    collectTX3ProofData T store (tx :: txs) = collectTX3ProofData T store txs := by
  rw [collectTX3ProofData]
  split_ifs with hcontract
  · rw [splitData_of_sized (hsized hcontract)]
    exact if_neg (hother hcontract)
  · rfl

theorem collect_cons_withdrawal (hcontract : isLigoChainContractAddr tx.recipient = true)
    (hsized : 4 ≤ tx.data.length)
    (hfunction : T.functionTypeFromId (tx.data.take 4) = some .withdrawFromMainChain) :
    collectTX3ProofData T store (tx :: txs) = (do
      let proof ← ownProof T store tx
      let rest ← collectTX3ProofData T store txs
      .ok (proof.toList ++ rest)) := by
  rw [collectTX3ProofData, if_pos hcontract, splitData_of_sized hsized]
  show (if T.functionTypeFromId (tx.data.take 4) = some .withdrawFromMainChain then _ else _) = _
  rw [if_pos hfunction]
  unfold ownProof
  cases T.unpackWithdrawFromMainChain (tx.data.drop 4) with
  | none => cases collectTX3ProofData T store txs <;> rfl
  | some args => rfl

theorem collect_cons_short (hcontract : isLigoChainContractAddr tx.recipient = true)
    (hsized : ¬4 ≤ tx.data.length) :
    collectTX3ProofData T store (tx :: txs) = .error .index := by
  rw [collectTX3ProofData, if_pos hcontract, splitData_of_not_sized hsized]
  rfl

/-- **What is collected.** -/
theorem collect_iff : collectTX3ProofData T store txs = .ok proofs ↔
    (∀ tx ∈ txs, Sized tx) ∧ ∃ own, List.Forall₂ (fun tx o => ownProof T store tx = .ok o)
      (txs.filter (isWithdrawal T)) own ∧ proofs = own.reduceOption := by
  induction txs generalizing proofs with
  | nil =>
    simp only [collectTX3ProofData, List.filter_nil, List.forall₂_nil_left_iff, exists_eq_left,
      Except.ok.injEq]
    exact ⟨fun h => ⟨fun _ hmem => absurd hmem List.not_mem_nil, h.symm⟩, fun h => h.2.symm⟩
  | cons tx txs ih =>
    rw [List.forall_mem_cons]
    rcases walk_cases T tx with ⟨hsized, hno, hother⟩ | ⟨hsized, hyes, hcontract, hlen, hfunction⟩ |
      ⟨hsized, hcontract, hlen⟩
    · rw [collect_cons_other hsized hother, ih, List.filter_cons_of_neg (by rw [hno]; simp),
        and_iff_right hsized]
    · rw [collect_cons_withdrawal hcontract hlen hfunction, List.filter_cons_of_pos hyes,
        and_iff_right hsized]
      constructor
      · intro h
        obtain ⟨o, ho, h⟩ := Steps.bind_eq_ok.1 h
        obtain ⟨rest, hrest, h⟩ := Steps.bind_eq_ok.1 h
        obtain ⟨hall, own, hown, rfl⟩ := ih.1 hrest
        cases h
        refine ⟨hall, o :: own, .cons ho hown, ?_⟩
        cases o <;> rfl
      · rintro ⟨hall, own, hown, rfl⟩
        obtain ⟨o, own, ho, hrest, rfl⟩ := List.forall₂_cons_left_iff.1 hown
        have hrest := ih.2 ⟨hall, own, hrest, rfl⟩
        rw [ho, hrest]
        cases o <;> rfl
    · rw [collect_cons_short hcontract hlen]
      exact iff_of_false (fun h => nomatch h) fun h => hsized h.1.1

theorem validateTX4_cons_other (hsized : Sized tx)
    (hother : isLigoChainContractAddr tx.recipient = true →
      T.functionTypeFromId (tx.data.take 4) ≠ some .withdrawFromMainChain) :
    validateTX4 cch T (tx :: txs) proofs = validateTX4 cch T txs proofs := by
  rw [validateTX4.eq_def]
  dsimp only
  split_ifs with hcontract
  · rw [splitData_of_sized (hsized hcontract)]
    exact if_neg (hother hcontract)
  · rfl

theorem validateTX4_cons_withdrawal (hcontract : isLigoChainContractAddr tx.recipient = true)
    (hsized : 4 ≤ tx.data.length)
    (hfunction : T.functionTypeFromId (tx.data.take 4) = some .withdrawFromMainChain) :
    validateTX4 cch T (tx :: txs) proofs = .ok (.ok ()) ↔
      ∃ p rest, proofs = p :: rest ∧ Checked cch T tx p ∧
        validateTX4 cch T txs rest = .ok (.ok ()) := by
  rw [validateTX4.eq_def]
  dsimp only
  rw [if_pos hcontract, splitData_of_sized hsized]
  show (if T.functionTypeFromId (tx.data.take 4) = some .withdrawFromMainChain then _ else _) = _ ↔ _
  rw [if_pos hfunction]
  cases proofs with
  | nil => exact iff_of_false (fun h => nomatch h) fun ⟨_, _, h, _⟩ => nomatch h
  | cons p rest =>
    constructor
    · intro h
      obtain ⟨result, hproof, h⟩ := Steps.bind_eq_ok.1 h
      cases result with
      | error e => cases h
      | ok u =>
        obtain ⟨result, haccepts, h⟩ := Steps.bind_eq_ok.1 h
        cases result with
        | error e => cases h
        | ok u => exact ⟨p, rest, rfl, ⟨hproof, haccepts⟩, h⟩
    · rintro ⟨_, _, heq, ⟨hproof, haccepts⟩, h⟩
      obtain ⟨rfl, rfl⟩ := List.cons.inj heq
      unfold Accepts at haccepts
      dsimp only
      rw [hproof]
      show (validateTX4WithInMemTX3ProofData cch T tx p >>= _) = _
      rw [haccepts]
      exact h

theorem validateTX4_cons_short (hcontract : isLigoChainContractAddr tx.recipient = true)
    (hsized : ¬4 ≤ tx.data.length) :
    validateTX4 cch T (tx :: txs) proofs = .error .index := by
  rw [validateTX4.eq_def]
  dsimp only
  rw [if_pos hcontract, splitData_of_not_sized hsized]
  rfl

/-- **What is checked.** -/
theorem validateTX4_iff : validateTX4 cch T txs proofs = .ok (.ok ()) ↔
    (∀ tx ∈ txs, Sized tx) ∧ ∃ used rest, proofs = used ++ rest ∧
      List.Forall₂ (Checked cch T) (txs.filter (isWithdrawal T)) used := by
  induction txs generalizing proofs with
  | nil =>
    refine iff_of_true rfl ⟨fun _ hmem => absurd hmem List.not_mem_nil, [], proofs, rfl, .nil⟩
  | cons tx txs ih =>
    rw [List.forall_mem_cons]
    rcases walk_cases T tx with ⟨hsized, hno, hother⟩ | ⟨hsized, hyes, hcontract, hlen, hfunction⟩ |
      ⟨hsized, hcontract, hlen⟩
    · rw [validateTX4_cons_other hsized hother, ih, List.filter_cons_of_neg (by rw [hno]; simp),
        and_iff_right hsized]
    · rw [validateTX4_cons_withdrawal hcontract hlen hfunction, List.filter_cons_of_pos hyes,
        and_iff_right hsized]
      constructor
      · rintro ⟨p, rest, rfl, hchecked, h⟩
        obtain ⟨hall, used, left, rfl, hused⟩ := ih.1 h
        exact ⟨hall, p :: used, left, rfl, .cons hchecked hused⟩
      · rintro ⟨hall, used, left, rfl, hused⟩
        obtain ⟨p, used, hchecked, hrest, rfl⟩ := List.forall₂_cons_left_iff.1 hused
        exact ⟨p, used ++ left, rfl, hchecked, ih.2 ⟨hall, used, left, rfl, hrest⟩⟩
    · rw [validateTX4_cons_short hcontract hlen]
      exact iff_of_false (fun h => nomatch h) fun h => hsized h.1.1

theorem forall₂_reduceOption {α β : Type} {R : α → Option β → Prop} {as : List α}
    {os : List (Option β)} (h : List.Forall₂ R as os) (hlength : os.reduceOption.length = as.length) :
    List.Forall₂ (fun a b => R a (some b)) as os.reduceOption := by
  induction h with
  | nil => exact .nil
  | @cons a o as os ha hrest ih =>
    cases o with
    | none =>
      have hle := List.reduceOption_length_le os
      rw [List.reduceOption_cons_of_none, List.length_cons, hrest.length_eq] at hlength
      omega
    | some b =>
      rw [List.reduceOption_cons_of_some] at hlength ⊢
      exact .cons ha (ih (Nat.succ.inj hlength))

theorem exists_of_forall₂ {α β : Type} {R : α → β → Prop} {as : List α} {bs : List β}
    (h : List.Forall₂ R as bs) {a : α} (ha : a ∈ as) : ∃ b, R a b := by
  induction h with
  | nil => exact absurd ha List.not_mem_nil
  | @cons a' b' _ _ hhead _ ih =>
    rcases List.mem_cons.1 ha with rfl | ha
    · exact ⟨b', hhead⟩
    · exact ih ha

theorem exists_forall₂ {α β : Type} {R : α → β → Prop} {as : List α}
    (h : ∀ a ∈ as, ∃ b, R a b) : ∃ bs, List.Forall₂ R as bs := by
  induction as with
  | nil => exact ⟨[], .nil⟩
  | cons a as ih =>
    obtain ⟨b, hb⟩ := h a List.mem_cons_self
    obtain ⟨bs, hbs⟩ := ih fun a' ha' => h a' (List.mem_cons_of_mem a ha')
    exact ⟨b :: bs, .cons hb hbs⟩

variable (cch T store)

/-- **When a proposed block passes its own check**: exactly if every withdrawal in it has proof data
in the store that is accepted with it; the proof data then are those of the withdrawals, one for
each and in order. -/
theorem selfValid_iff (txs : List Transaction) :
    (SelfValid cch T store txs ↔ ∀ tx ∈ txs, Sized tx ∧ (isWithdrawal T tx = true →
      ∃ p, ownProof T store tx = .ok (some p) ∧ Checked cch T tx p)) ∧
    ∀ proofs, collectTX3ProofData T store txs = .ok proofs →
      validateTX4 cch T txs proofs = .ok (.ok ()) →
      List.Forall₂ (fun tx p => ownProof T store tx = .ok (some p) ∧ Checked cch T tx p)
        (txs.filter (isWithdrawal T)) proofs := by
  have haligned : ∀ proofs, collectTX3ProofData T store txs = .ok proofs →
      validateTX4 cch T txs proofs = .ok (.ok ()) →
      List.Forall₂ (fun tx p => ownProof T store tx = .ok (some p) ∧ Checked cch T tx p)
        (txs.filter (isWithdrawal T)) proofs := by
    intro proofs hcollect hvalid
    obtain ⟨-, own, hown, rfl⟩ := collect_iff.1 hcollect
    obtain ⟨-, used, rest, hproofs, hused⟩ := validateTX4_iff.1 hvalid
    -- as many are used as there are withdrawals, and no more were collected
    have hle := List.reduceOption_length_le own
    have hlength : own.reduceOption.length = used.length + rest.length := by
      rw [hproofs, List.length_append]
    have hused_length := hused.length_eq
    have hown_length := hown.length_eq
    have hrest : rest = [] := List.length_eq_zero_iff.1 (by omega)
    rw [hrest, List.append_nil] at hproofs
    exact List.Forall₂.mp (fun _ _ h h' => ⟨h, h'⟩) (forall₂_reduceOption hown (by omega))
      (hproofs ▸ hused)
  refine ⟨⟨?_, fun h => ?_⟩, haligned⟩
  · rintro ⟨proofs, hcollect, hvalid⟩ tx hmem
    refine ⟨(collect_iff.1 hcollect).1 tx hmem, fun hyes => ?_⟩
    exact exists_of_forall₂ (haligned proofs hcollect hvalid) (List.mem_filter.2 ⟨hmem, hyes⟩)
  · have hsized : ∀ tx ∈ txs, Sized tx := fun tx hmem => (h tx hmem).1
    obtain ⟨proofs, hproofs⟩ : ∃ proofs, List.Forall₂ (fun tx p =>
        ownProof T store tx = .ok (some p) ∧ Checked cch T tx p) (txs.filter (isWithdrawal T)) proofs :=
      exists_forall₂ fun tx hmem =>
        (h tx (List.mem_filter.1 hmem).1).2 (List.mem_filter.1 hmem).2
    refine ⟨proofs, collect_iff.2 ⟨hsized, proofs.map some, ?_, ?_⟩,
      validateTX4_iff.2 ⟨hsized, proofs, [], (List.append_nil _).symm, hproofs.imp fun _ _ h => h.2⟩⟩
    · rw [List.forall₂_map_right_iff]
      exact hproofs.imp fun _ _ h => h.1
    · simp [List.reduceOption]

end Proposal

/-! ## A withdrawal without proof data -/

/-- The functions of the chain contract, of which one is known. -/
def plainContract : Staking.ContractLibs where
  functionTypeFromId := plainTxLibs.functionTypeFromId
  unpackRegister _ := none
  unpackDelegate _ := none
  unpackUnDelegate _ := none
  unpackWithdrawReward _ := none
  unpackSetCommission _ := none
  unpackEditValidator _ := none
  checkConsensusPubKey _ _ _ := false

/-- A withdrawal that names the hash `1`, as the miner gets it. -/
def offered : Staking.ContractTx where
  sender := [1]
  data := (withdrawal 1).data
  value := 0
  nonce := 0
  gas := 0
  gasPrice := 0
  hash := []

/-- **A withdrawal that the store has nothing for is applied, and the block is refused.** -/
theorem unproven_withdrawal_refused :
    Steps.holds (Staking.applyTransactionEx plainContract true ⟨none, 1⟩ offered
      ⟨.new .empty, 0, 0, 0, []⟩) (fun r => r.1.toOption.isSome) = true ∧
    collectTX3ProofData plainTxLibs ⟨fun _ _ => none, fun _ _ => none⟩ [withdrawal 1] = .ok [] ∧
    validateTX4 plainHelper plainTxLibs [withdrawal 1] [] = .ok (.error .proofDataMissing) := by
  refine ⟨by decide +kernel, rfl, rfl⟩

end CrossChain
end LigoChain
