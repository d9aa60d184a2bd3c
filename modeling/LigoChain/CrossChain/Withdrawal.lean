/-
# Withdrawals from a side chain

A withdrawal has two transactions: one on the side chain that calls `WithdrawFromSideChain`, and one
on the main chain that calls `WithdrawFromMainChain` and pays out.  The second comes with proof data
of the first, and `ValidateTX4WithInMemTX3ProofData` (`ligochain/cross_chain.go`) compares them;
`ValidateTX4` (`consensus/tendermint/consensus/state.go`) does so for the transactions of a proposed
block.

The two should belong together.  The sender, the amount and the chain id in the arguments are
compared; the contract and the function of the first transaction, its hash and the chain of the
header are not.  So one transaction of the side chain carries withdrawals under any hash
(`one_proof_two_withdrawals`), and it need not even be a withdrawal.  `withdrawal_linked_iff` says
that these four comparisons are exactly what is missing.
-/

import LigoChain.Lib.Steps
import LigoChain.CrossChain.ProofData
import LigoChain.Types.FunctionType

namespace LigoChain
namespace CrossChain

open Engine

/-- A transaction; `payload` is what is not read here, with the signature. -/
structure Transaction where
  recipient : Option Bytes
  data : Bytes
  value : ℤ
  payload : Bytes
  deriving DecidableEq

/-- `WithdrawFromMainChainArgs`. -/
structure WithdrawFromMainChainArgs where
  chainId : String
  amount : ℤ
  txHash : Bytes
  deriving DecidableEq

/-- `WithdrawFromSideChainArgs`. -/
structure WithdrawFromSideChainArgs where
  chainId : String
  deriving DecidableEq

/-- The libraries for transactions. -/
structure TxLibs where
  /-- `Transaction.Hash`. -/
  hash : Transaction → Bytes
  /-- `types.Sender` with the signer of the transaction's own chain id. -/
  sender : Transaction → Option Bytes
  decode : Bytes → Option Transaction
  /-- `FunctionTypeFromId`. -/
  functionTypeFromId : Bytes → Option FunctionType
  unpackWithdrawFromMainChain : Bytes → Option WithdrawFromMainChainArgs
  unpackWithdrawFromSideChain : Bytes → Option WithdrawFromSideChainArgs

/-- The errors of the check. -/
inductive TX4Error
  | invalidSender
  | wrongTo
  | unknownMethod
  | wrongFunction
  | unpack
  | invalidProof
  | decode
  | notConsistent
  | proofDataMissing
  | proofData (err : ProofError)
  deriving DecidableEq

/-- `data[:4]` and `data[4:]`. -/
def splitData (data : Bytes) : Except GoPanic (Bytes × Bytes) :=
  if data.length < 4 then .error .index else .ok (data.take 4, data.drop 4)

section Check

variable (cch : CrossChainHelper) (T : TxLibs)

/-- The value that `VerifyProof` gives for the first index of proof data. -/
def firstProof (p : TX3ProofData) : Except GoPanic (Option (Option Bytes)) :=
  match p.txIndexs, p.txProofs with
  | txIndex :: _, proof :: _ =>
    .ok (cch.verifyProof p.header.txHash (cch.encodeUint txIndex) proof)
  | _, _ => .error .index

/-- The part of `ValidateTX4WithInMemTX3ProofData` about the proven transaction. -/
def checkTX3 (sender : Bytes) (args : WithdrawFromMainChainArgs) (tx3 : Transaction) :
    Except GoPanic (Except TX4Error Unit) := do
  match T.sender tx3 with
  | none => .ok (.error .invalidSender)
  | some tx3From =>
    let (_, input) ← splitData tx3.data
    match T.unpackWithdrawFromSideChain input with
    | none => .ok (.error .unpack)
    | some tx3Args =>
      if sender ≠ tx3From ∨ args.chainId ≠ tx3Args.chainId ∨ args.amount ≠ tx3.value then
        .ok (.error .notConsistent)
      else .ok (.ok ())

/-- `ValidateTX4WithInMemTX3ProofData`. -/
def validateTX4WithInMemTX3ProofData (tx4 : Transaction) (p : TX3ProofData) :
    Except GoPanic (Except TX4Error Unit) := do
  match T.sender tx4 with
  | none => .ok (.error .invalidSender)
  | some sender =>
    if !isLigoChainContractAddr tx4.recipient then .ok (.error .wrongTo)
    else
      let (id, input) ← splitData tx4.data
      match T.functionTypeFromId id with
      | none => .ok (.error .unknownMethod)
      | some function =>
        if function ≠ .withdrawFromMainChain then .ok (.error .wrongFunction)
        else match T.unpackWithdrawFromMainChain input with
          | none => .ok (.error .unpack)
          | some args =>
            match ← firstProof cch p with
            | none => .ok (.error .invalidProof)
            | some none => .ok (.error .decode)
            | some (some val) =>
              match T.decode val with
              | none => .ok (.error .decode)
              | some tx3 => checkTX3 T sender args tx3

/-- The loop of `ValidateTX4` over the transactions of a block: every withdrawal takes the next
proof data. -/
def validateTX4 : List Transaction → List TX3ProofData → Except GoPanic (Except TX4Error Unit)
  | [], _ => .ok (.ok ())
  | tx :: txs, proofs => do
    if isLigoChainContractAddr tx.recipient then
      let (id, _) ← splitData tx.data
      if T.functionTypeFromId id = some .withdrawFromMainChain then
        match proofs with
        | [] => .ok (.error .proofDataMissing)
        | p :: proofs =>
          match ← cch.validateTX3ProofData p with
          | .error err => .ok (.error (.proofData err))
          | .ok () =>
            match ← validateTX4WithInMemTX3ProofData cch T tx p with
            | .error err => .ok (.error err)
            | .ok () => validateTX4 txs proofs
      else validateTX4 txs proofs
    else validateTX4 txs proofs

/-! ## What belongs together -/

/-- The arguments of a withdrawal on the main chain. -/
def ArgsOf (tx4 : Transaction) (args : WithdrawFromMainChainArgs) : Prop :=
  ∃ id input, splitData tx4.data = .ok (id, input) ∧
    T.unpackWithdrawFromMainChain input = some args

/-- The proof data proves the transaction. -/
def Proven (p : TX3ProofData) (tx3 : Transaction) : Prop :=
  ∃ val, firstProof cch p = .ok (some (some val)) ∧ T.decode val = some tx3

/-- The check accepts the withdrawal with the proof data. -/
def Accepts (tx4 : Transaction) (p : TX3ProofData) : Prop :=
  validateTX4WithInMemTX3ProofData cch T tx4 p = .ok (.ok ())

/-- What the check leaves out: the transaction is a call of `WithdrawFromSideChain` to the chain
contract, its hash is that of the arguments, and the header is one of the chain they name. -/
structure Compared (p : TX3ProofData) (args : WithdrawFromMainChainArgs) (tx3 : Transaction) :
    Prop where
  contract : isLigoChainContractAddr tx3.recipient = true
  function : ∃ id input, splitData tx3.data = .ok (id, input) ∧
    T.functionTypeFromId id = some .withdrawFromSideChain
  hash : T.hash tx3 = args.txHash
  chain : ∃ ncExtra, extractTendermintExtra cch.libs p.header = some ncExtra ∧
    ncExtra.chainID = args.chainId

/-- **The withdrawal belongs to the transaction of the side chain**: besides, that transaction was
signed by the sender of the withdrawal and is about the same amount. -/
structure Linked (tx4 : Transaction) (p : TX3ProofData) (args : WithdrawFromMainChainArgs)
    (tx3 : Transaction) : Prop extends Compared cch T p args tx3 where
  sender : ∃ sender, T.sender tx3 = some sender ∧ T.sender tx4 = some sender
  value : tx3.value = args.amount

variable {cch T} {tx4 : Transaction} {p : TX3ProofData} {args : WithdrawFromMainChainArgs}
  {tx3 : Transaction}

theorem ArgsOf.unique {args' : WithdrawFromMainChainArgs} (h : ArgsOf T tx4 args)
    (h' : ArgsOf T tx4 args') : args = args' := by
  obtain ⟨id, input, hsplit, hargs⟩ := h
  obtain ⟨id', input', hsplit', hargs'⟩ := h'
  obtain ⟨-, rfl⟩ := Prod.mk.inj (Except.ok.inj (hsplit.symm.trans hsplit'))
  exact Option.some.inj (hargs.symm.trans hargs')

theorem Proven.unique {tx3' : Transaction} (h : Proven cch T p tx3) (h' : Proven cch T p tx3') :
    tx3 = tx3' := by
  obtain ⟨val, hval, htx⟩ := h
  obtain ⟨val', hval', htx'⟩ := h'
  obtain rfl := Option.some.inj (Option.some.inj (Except.ok.inj (hval.symm.trans hval')))
  exact Option.some.inj (htx.symm.trans htx')

/-- What `checkTX3` compares. -/
theorem of_checkTX3 {sender : Bytes} (h : checkTX3 T sender args tx3 = .ok (.ok ())) :
    T.sender tx3 = some sender ∧ tx3.value = args.amount := by
  unfold checkTX3 at h
  split at h
  · cases h
  next tx3From hsender =>
  obtain ⟨⟨id, input⟩, -, h⟩ := Steps.bind_eq_ok.1 h
  dsimp only at h
  split at h
  · cases h
  split at h
  · cases h
  next hsame =>
  rw [not_or, not_or, not_not, not_not, not_not] at hsame
  obtain ⟨rfl, -, hvalue⟩ := hsame
  exact ⟨hsender, hvalue.symm⟩

/-- **What an accepted withdrawal has been compared with.** -/
theorem Accepts.spec (h : Accepts cch T tx4 p) : ∃ args tx3, ArgsOf T tx4 args ∧
    Proven cch T p tx3 ∧ (∃ sender, T.sender tx3 = some sender ∧ T.sender tx4 = some sender) ∧
    tx3.value = args.amount := by
  unfold Accepts validateTX4WithInMemTX3ProofData at h
  split at h
  · cases h
  next sender hsender =>
  split at h
  · cases h
  obtain ⟨⟨id, input⟩, hsplit, h⟩ := Steps.bind_eq_ok.1 h
  dsimp only at h
  split at h
  · cases h
  split at h
  · cases h
  split at h
  · cases h
  next args hargs =>
  obtain ⟨proof, hproof, h⟩ := Steps.bind_eq_ok.1 h
  split at h
  · cases h
  · cases h
  next val =>
  split at h
  · cases h
  next tx3 htx3 =>
  obtain ⟨hsender₃, hvalue⟩ := of_checkTX3 h
  exact ⟨args, tx3, ⟨id, input, hsplit, hargs⟩, ⟨val, hproof, htx3⟩, ⟨sender, hsender₃, hsender⟩,
    hvalue⟩

variable (cch T)

/-- **What is missing for a withdrawal to belong to its proof.**  For every withdrawal and every
proof data: acceptance gives a linked pair exactly if it comes with the comparisons that the check
leaves out; and two accepted withdrawals that come with them and rest on one transaction of the
side chain name the same hash. -/
theorem withdrawal_linked_iff :
    (∀ tx4 p, (Accepts cch T tx4 p → ∃ args tx3, ArgsOf T tx4 args ∧ Proven cch T p tx3 ∧
        Linked cch T tx4 p args tx3) ↔
      (Accepts cch T tx4 p → ∀ args tx3, ArgsOf T tx4 args → Proven cch T p tx3 →
        Compared cch T p args tx3)) ∧
    ∀ tx4 tx4' p p' args args' tx3, Accepts cch T tx4 p → Accepts cch T tx4' p' →
      ArgsOf T tx4 args → ArgsOf T tx4' args' → Proven cch T p tx3 → Proven cch T p' tx3 →
      Compared cch T p args tx3 → Compared cch T p' args' tx3 → args.txHash = args'.txHash := by
  refine ⟨fun tx4 p => forall_congr' fun haccepts => ⟨?_, fun hcompared => ?_⟩, ?_⟩
  · rintro ⟨args, tx3, hargs, hproven, hlinked⟩ args' tx3' hargs' hproven'
    obtain rfl := hargs.unique hargs'
    obtain rfl := hproven.unique hproven'
    exact hlinked.toCompared
  · obtain ⟨args, tx3, hargs, hproven, hsender, hvalue⟩ := haccepts.spec
    exact ⟨args, tx3, hargs, hproven, ⟨hcompared args tx3 hargs hproven, hsender, hvalue⟩⟩
  · intro tx4 tx4' p p' args args' tx3 _ _ _ _ _ _ hcompared hcompared'
    exact hcompared.hash.symm.trans hcompared'.hash

end Check

/-! ## One proof for two withdrawals -/

/-- Transactions whose data is an identifier of four bytes and one more: the hash that a withdrawal
on the main chain names. -/
def plainTxLibs : TxLibs where
  hash tx := tx.payload
  sender _ := some [1]
  decode val := some ⟨none, [9, 9, 9, 9, 0], 5, val⟩
  functionTypeFromId id := if id = [0, 0, 0, 1] then some .withdrawFromMainChain else none
  unpackWithdrawFromMainChain input := some ⟨"side_1", 5, input⟩
  unpackWithdrawFromSideChain _ := some ⟨"side_1"⟩

/-- A withdrawal that names a hash of one byte. -/
def withdrawal (hash : UInt8) : Transaction :=
  ⟨some chainContractMagicAddr, [0, 0, 0, 1, hash], 0, []⟩

/-- **One transaction pays twice.**  The proof is of a transaction that goes to no contract and
calls no known method, under a header of another chain; withdrawals that name two different hashes
are both accepted with it. -/
theorem one_proof_two_withdrawals :
    let cch := { plainHelper with verifyProof := fun _ _ _ => some (some [7]) }
    let p := proofData [6] [[]]
    Accepts cch plainTxLibs (withdrawal 1) p ∧ Accepts cch plainTxLibs (withdrawal 2) p ∧
      ArgsOf plainTxLibs (withdrawal 1) ⟨"side_1", 5, [1]⟩ ∧
      ArgsOf plainTxLibs (withdrawal 2) ⟨"side_1", 5, [2]⟩ ∧
      Proven cch plainTxLibs p ⟨none, [9, 9, 9, 9, 0], 5, [7]⟩ ∧
      (extractTendermintExtra cch.libs p.header).map TendermintExtra.chainID = some "nowhere" :=
  ⟨rfl, rfl, ⟨_, _, rfl, rfl⟩, ⟨_, _, rfl, rfl⟩, ⟨_, rfl, rfl⟩, by decide +kernel⟩

end CrossChain
end LigoChain
