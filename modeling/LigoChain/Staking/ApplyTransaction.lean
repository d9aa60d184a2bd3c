/-
# Applying a transaction of the chain contract

`ApplyTransactionEx` (`core/ligo_state_processor.go`), for a transaction to the chain contract.  The
gas is bought first, for the limit of the transaction; then the function is called; then what was
not used is given back, the state is finalised and the nonce is increased.  A transaction that ends
with an error leaves what it has done until then: the caller reverts the state, but the gas that was
taken from the pool of the block stays taken.
-/

import LigoChain.CrossChain.Withdrawal
import LigoChain.Staking.Transactions
import LigoChain.State.Revert

namespace LigoChain
namespace Staking

open State

/-- What a transaction is applied to: the state, the gas that is left in the block, the gas that was
used and the fees that were paid so far, and the operations for the end of the block. -/
structure TxEnv where
  state : StateDB
  gasPool : ℕ
  usedGas : ℕ
  totalUsedMoney : ℤ
  ops : List UpdateNextEpochOp

/-- A transaction ends with or without an error, and leaves what it has done. -/
abbrev Applied := Except TxError Unit × TxEnv

/-- `GasPool.AddGas`. -/
def addGas (gasPool amount : ℕ) : Go ℕ :=
  if 2 ^ 64 ≤ gasPool + amount then .error (.sanity "gas pool pushed above uint64")
  else .ok (gasPool + amount)

section Apply

variable (A : ContractLibs) (mainChain : Bool) (bc : ChainContext) (tx : ContractTx)

/-- `GetApplyCb`: the callbacks that `internal/ligoapi/api.go` registers. -/
def applyCb : FunctionType → Option (Callback (List UpdateNextEpochOp))
  | .withdrawReward => some (withdrawRewardApplyCb A tx)
  | .delegate => some (delegateApplyCb A bc tx)
  | .unDelegate => some (unDelegateApplyCb A bc tx)
  | .register => some (registerApplyCb A bc tx)
  | .unRegister => some (unRegisterApplyCb bc tx)
  | .setCommission => some (setCommisstionApplyCb A tx)
  | .unBanned => some (unBannedApplyCb bc tx)
  | _ => none

/-- What `ApplyTransactionEx` calls for a function. -/
def callback (f : FunctionType) : Callback (List UpdateNextEpochOp) :=
  (applyCb A bc tx f).getD (pure [])

/-- What is left to do after the callback has returned. -/
def settleTransaction (gas : ℕ) (ops : List UpdateNextEpochOp) (env : TxEnv) : Go Applied := do
  let state := env.state.addAmount .balance tx.sender ((tx.gas - gas) * tx.gasPrice : ℕ)
  let gasPool ← addGas env.gasPool (tx.gas - gas)
  let state ← state.finalise
  .ok (.ok (),
    { state := state.setNonce tx.sender ((state.getNonce tx.sender + 1) % 2 ^ 64)
      gasPool := gasPool
      usedGas := (env.usedGas + gas) % 2 ^ 64
      totalUsedMoney := env.totalUsedMoney + (gas * tx.gasPrice : ℕ)
      ops := env.ops ++ ops })

/-- The call of the function, after the gas was bought. -/
def callFunction (function : FunctionType) (env : TxEnv) : Go Applied := do
  let r ← (callback A bc tx function).run Op.run env.state
  match r.1 with
  | .error (.panic p) => .error p
  | .error (.error e) => .ok (.error e, { env with state := r.2 })
  | .ok ops => settleTransaction tx function.requiredGas ops { env with state := r.2 }

/-- The function is known and allowed: the nonce is checked and the gas is bought. -/
def buyGas (function : FunctionType) (env : TxEnv) : Go Applied :=
  if env.state.getNonce tx.sender < tx.nonce then .ok (.error .nonceTooHigh, env)
  else if tx.nonce < env.state.getNonce tx.sender then .ok (.error .nonceTooLow, env)
  else if env.state.getAmount .balance tx.sender < (tx.gas * tx.gasPrice : ℕ) then
    .ok (.error .insufficientForGas, env)
  else if env.gasPool < tx.gas then .ok (.error .gasLimitReached, env)
  else
    let env := { env with
      gasPool := env.gasPool - tx.gas
      state := env.state.subAmount .balance tx.sender (tx.gas * tx.gasPrice : ℕ) }
    if tx.gas < function.requiredGas then .ok (.error .outOfGas, env)
    else if env.state.getAmount .balance tx.sender < tx.value then
      .ok (.error .insufficientForValue, env)
    else callFunction A bc tx function env

/-- `ApplyTransactionEx`, for a transaction to the chain contract. -/
def applyTransactionEx (env : TxEnv) : Go Applied := do
  let (id, _) ← CrossChain.splitData tx.data
  match A.functionTypeFromId id with
  | none => .ok (.error .noMethod, env)
  | some function =>
    if mainChain && !function.allowInMainChain then .ok (.error .notAllowedInMainChain, env)
    else if !mainChain && !function.allowInSideChain then
      .ok (.error .notAllowedInSideChain, env)
    else buyGas A bc tx function env

end Apply

end Staking
end LigoChain
