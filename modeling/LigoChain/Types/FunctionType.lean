/-
# Functions of the chain contract

`FunctionType` in `ligoabi/abi/abi.go`.
-/

import LigoChain.Types.Basic

namespace LigoChain

/-- `FunctionType`; a method that has none of these names is `unknown`. -/
inductive FunctionType
  | createSideChain
  | joinSideChain
  | depositInMainChain
  | depositInSideChain
  | withdrawFromSideChain
  | withdrawFromMainChain
  | saveDataToMainChain
  | setBlockReward
  | voteNextEpoch
  | revealVote
  | delegate
  | unDelegate
  | register
  | unRegister
  | editValidator
  | withdrawReward
  | unBanned
  | setCommission
  | unknown
  deriving DecidableEq

namespace FunctionType

/-- `AllowInMainChain`. -/
def allowInMainChain : FunctionType → Bool
  | depositInSideChain | withdrawFromSideChain | setBlockReward | unknown => false
  | _ => true

/-- `AllowInSideChain`. -/
def allowInSideChain : FunctionType → Bool
  | createSideChain | joinSideChain | depositInMainChain | withdrawFromMainChain
  | saveDataToMainChain | unknown => false
  | _ => true

/-- `RequiredGas`. -/
def requiredGas : FunctionType → ℕ
  | createSideChain | depositInMainChain | withdrawFromSideChain => 200000
  | depositInSideChain | withdrawFromMainChain | saveDataToMainChain | unknown => 0
  | _ => 100000

end FunctionType

/-- `ChainContractMagicAddr`, the thirty-two bytes of `"LigoAIMiningSmartContractAddress"`. -/
def chainContractMagicAddr : Bytes :=
  [0x4c, 0x69, 0x67, 0x6f, 0x41, 0x49, 0x4d, 0x69, 0x6e, 0x69, 0x6e, 0x67, 0x53, 0x6d, 0x61, 0x72,
   0x74, 0x43, 0x6f, 0x6e, 0x74, 0x72, 0x61, 0x63, 0x74, 0x41, 0x64, 0x64, 0x72, 0x65, 0x73, 0x73]

/-- `IsLigoChainContractAddr`. -/
def isLigoChainContractAddr (addr : Option Bytes) : Bool := addr == some chainContractMagicAddr

end LigoChain
