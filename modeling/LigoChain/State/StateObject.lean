/-
# Accounts and what is delegated to them

`Account` and `stateObject` (`chain/core/state/state_object.go`, `state_object1.go`,
`state_object_delegate.go`, `state_object_reward.go`).  An account has amounts, flags and
the roots of its tries: what users have delegated to it, what it has earned by delegation,
and the cross-chain transactions it has seen.  An object is an account with what has been
read from and written to its tries since they were opened; `updateProxiedRoot` and its like
write the values back.

The setters of an object (`setBalance` and so on) are one function of the field that is
written (`FieldWrite`); `prev` is the write that the journal keeps, with the value from
before.

A root hash stands for the trie it is the hash of, so an open trie is not a field of its
own.  Code and contract storage are left out: no modelled function writes them.
-/

import LigoChain.Lib.CachedMap
import LigoChain.Types.Basic

namespace LigoChain
namespace State

/-- `common.Address`. -/
abbrev Address := Bytes

/-- `common.Hash` of a transaction. -/
abbrev TxHash := Bytes

/-- `accountProxiedBalance`: what one user has delegated to one account, what of it is
deposited, and what of the deposit is to be paid back. -/
structure AccountProxiedBalance where
  proxiedBalance : ℤ
  depositProxiedBalance : ℤ
  pendingRefundBalance : ℤ
  deriving DecidableEq, Repr

/-- The three amounts of an `accountProxiedBalance`. -/
inductive EntryField
  | proxied
  | depositProxied
  | pendingRefund
  deriving DecidableEq, Repr

/-- The amounts of an account. -/
inductive AmountField
  | balance
  | depositBalance
  | chainBalance
  | delegateBalance
  | proxiedBalance
  | depositProxiedBalance
  | pendingRefundBalance
  | rewardBalance
  | availableRewardBalance
  | blockTime
  | bannedTime
  deriving DecidableEq, Repr

/-- The amount of the account that is the total over its users. -/
def EntryField.total : EntryField → AmountField
  | .proxied => .proxiedBalance
  | .depositProxied => .depositProxiedBalance
  | .pendingRefund => .pendingRefundBalance

namespace AccountProxiedBalance

/-- `NewAccountProxiedBalance`. -/
def new : AccountProxiedBalance := ⟨0, 0, 0⟩

/-- The amount of a field. -/
def get (a : AccountProxiedBalance) : EntryField → ℤ
  | .proxied => a.proxiedBalance
  | .depositProxied => a.depositProxiedBalance
  | .pendingRefund => a.pendingRefundBalance

/-- One amount more by `x`. -/
def add (a : AccountProxiedBalance) (x : ℤ) : EntryField → AccountProxiedBalance
  | .proxied => { a with proxiedBalance := a.proxiedBalance + x }
  | .depositProxied => { a with depositProxiedBalance := a.depositProxiedBalance + x }
  | .pendingRefund => { a with pendingRefundBalance := a.pendingRefundBalance + x }

/-- `IsEmpty`. -/
def isEmpty (a : AccountProxiedBalance) : Bool :=
  a.proxiedBalance == 0 && a.depositProxiedBalance == 0 && a.pendingRefundBalance == 0

/-- `rlp.EncodeToBytes` has no encoding for negative numbers. -/
def encodable (a : AccountProxiedBalance) : Bool :=
  decide (0 ≤ a.proxiedBalance) && decide (0 ≤ a.depositProxiedBalance) &&
    decide (0 ≤ a.pendingRefundBalance)

/-- The trie keeps the value: an empty value is deleted, and so is one without an encoding,
since `TryUpdate` is then called with no bytes. -/
def keep (a : AccountProxiedBalance) : Bool := !a.isEmpty && a.encodable

@[ext] theorem ext_get {a b : AccountProxiedBalance} (h : ∀ f, a.get f = b.get f) : a = b := by
  cases a
  cases b
  rw [mk.injEq]
  exact ⟨h .proxied, h .depositProxied, h .pendingRefund⟩

theorem get_add (a : AccountProxiedBalance) (x : ℤ) (f g : EntryField) :
    (a.add x f).get g = a.get g + if g = f then x else 0 := by
  cases f <;> cases g <;> simp [add, get]

@[simp] theorem get_new (f : EntryField) : new.get f = 0 := by
  cases f <;> rfl

theorem isEmpty_iff {a : AccountProxiedBalance} : a.isEmpty = true ↔ a = new := by
  cases a
  simp [isEmpty, new, and_assoc]

theorem encodable_iff {a : AccountProxiedBalance} : a.encodable = true ↔ ∀ f, 0 ≤ a.get f := by
  simp only [encodable, Bool.and_eq_true, decide_eq_true_eq]
  refine ⟨fun h f => ?_, fun h => ⟨⟨h .proxied, h .depositProxied⟩, h .pendingRefund⟩⟩
  cases f
  · exact h.1.1
  · exact h.1.2
  · exact h.2

end AccountProxiedBalance

/-- The reward trie keeps the value. -/
def keepReward (x : ℤ) : Bool := decide (0 < x)

/-- The two kinds of cross-chain transactions that an account keeps. -/
inductive TxKind
  | tx1
  | tx3
  deriving DecidableEq, Repr

/-- `Account`. -/
structure Account where
  nonce : ℕ
  amounts : AmountField → ℤ
  sideChainDepositBalance : List (String × ℤ)
  hasCode : Bool
  candidate : Bool
  commission : ℕ
  isBanned : Bool
  pubkey : Bytes
  txRoot : TxKind → Option (FinMap TxHash Bytes)
  proxiedRoot : Option (FinMap Address AccountProxiedBalance)
  rewardRoot : Option (FinMap Address ℤ)

namespace Account

/-- `Account{}`, with the amounts that `newObject` sets. -/
def new : Account where
  nonce := 0
  amounts := fun _ => 0
  sideChainDepositBalance := []
  hasCode := false
  candidate := false
  commission := 0
  isBanned := false
  pubkey := []
  txRoot := fun _ => none
  proxiedRoot := none
  rewardRoot := none

/-- `empty`: rewards, flags and tries are not looked at. -/
def empty (a : Account) : Bool :=
  a.nonce == 0 && a.amounts .balance == 0 && !a.hasCode && a.amounts .depositBalance == 0 &&
    a.sideChainDepositBalance.isEmpty && a.amounts .chainBalance == 0 &&
    a.amounts .delegateBalance == 0 && a.amounts .proxiedBalance == 0 &&
    a.amounts .depositProxiedBalance == 0 && a.amounts .pendingRefundBalance == 0 &&
    a.amounts .availableRewardBalance == 0

/-- `rlp.EncodeToBytes` of the account succeeds: no amount is negative. -/
def encodable (a : Account) : Bool :=
  [AmountField.balance, .depositBalance, .chainBalance, .delegateBalance, .proxiedBalance,
    .depositProxiedBalance, .pendingRefundBalance, .rewardBalance, .availableRewardBalance,
    .blockTime, .bannedTime].all (fun f => decide (0 ≤ a.amounts f)) &&
    a.sideChainDepositBalance.all fun p => decide (0 ≤ p.2)

/-- The trie of what users have delegated. -/
def proxiedTrie (a : Account) : FinMap Address AccountProxiedBalance := a.proxiedRoot.getD ∅

/-- The trie of rewards. -/
def rewardTrie (a : Account) : FinMap Address ℤ := a.rewardRoot.getD ∅

/-- The tries of cross-chain transactions. -/
def txTrie (a : Account) (kind : TxKind) : FinMap TxHash Bytes := (a.txRoot kind).getD ∅

/-- `IsEmptyTrie`: the root is the hash of an empty trie. -/
def isEmptyTrie (a : Account) : Bool := a.proxiedRoot.any fun trie => trie.isEmpty

end Account

/-- A setter of an object, with the value it sets. -/
inductive FieldWrite
  | amount (field : AmountField) (value : ℤ)
  | sideChainDepositBalance (chainId : String) (value : ℤ)
  | nonce (value : ℕ)
  | candidate (value : Bool)
  | pubkey (value : Bytes)
  | commission (value : ℕ)
  | banned (value : Bool)
  | accountProxiedBalance (key : Address) (value : Option AccountProxiedBalance)
  | delegateRewardBalance (key : Address) (value : Option ℤ)
  | addTX (kind : TxKind) (txHash : TxHash)
  | removeTX (kind : TxKind) (txHash : TxHash)

/-- The cross-chain setters do not call `onDirty`. -/
def FieldWrite.callsOnDirty : FieldWrite → Bool
  | .addTX _ _ => false
  | .removeTX _ _ => false
  | _ => true

/-- `stateObject`. -/
structure StateObject where
  data : Account
  proxied : Cache Address AccountProxiedBalance
  reward : Cache Address ℤ
  dirtyTX : TxKind → FinSet TxHash
  touched : Bool
  deleted : Bool
  onDirty : Bool

/-- `setSideChainDepositBalance`: a chain that is not in the list is appended. -/
def setSideChainDeposit (chainId : String) (value : ℤ) : List (String × ℤ) → List (String × ℤ)
  | [] => [(chainId, value)]
  | (id, v) :: l =>
    if id = chainId then (id, value) :: l else (id, v) :: setSideChainDeposit chainId value l

/-- `SideChainDepositBalance`. -/
def sideChainDeposit (l : List (String × ℤ)) (chainId : String) : ℤ :=
  ((l.find? fun p => p.1 == chainId).map Prod.snd).getD 0

namespace StateObject

/-- `newObject`. -/
def newObject (data : Account) : StateObject where
  data := data
  proxied := .empty
  reward := .empty
  dirtyTX := fun _ => ∅
  touched := false
  deleted := false
  onDirty := true

variable (o : StateObject)

/-- `empty`. -/
def empty : Bool := o.data.empty

/-- `GetAccountProxiedBalance`. -/
def getAccountProxiedBalance (key : Address) : Option AccountProxiedBalance :=
  o.proxied.get o.data.proxiedTrie key

/-- `GetDelegateRewardBalance`. -/
def getDelegateRewardBalance (key : Address) : Option ℤ := o.reward.get o.data.rewardTrie key

/-- `HasTX1`, `HasTX3`: the trie has the hash without its leading zeros, and what it has is
compared with the whole hash. -/
def hasTX (kind : TxKind) (txHash : TxHash) : Bool :=
  (o.dirtyTX kind).contains txHash || (o.data.txTrie kind)[txHash]? == some txHash

/-- The setters of the fields. -/
def set : FieldWrite → StateObject
  | .amount field value =>
    { o with data := { o.data with amounts := Function.update o.data.amounts field value } }
  | .sideChainDepositBalance chainId value =>
    { o with data := { o.data with
        sideChainDepositBalance :=
          setSideChainDeposit chainId value o.data.sideChainDepositBalance } }
  | .nonce value => { o with data := { o.data with nonce := value } }
  | .candidate value => { o with data := { o.data with candidate := value } }
  | .pubkey value => { o with data := { o.data with pubkey := value } }
  | .commission value => { o with data := { o.data with commission := value } }
  | .banned value => { o with data := { o.data with isBanned := value } }
  | .accountProxiedBalance key value => { o with proxied := o.proxied.set key value }
  | .delegateRewardBalance key value => { o with reward := o.reward.set key value }
  | .addTX kind txHash =>
    { o with dirtyTX := Function.update o.dirtyTX kind ((o.dirtyTX kind).insert txHash) }
  | .removeTX kind txHash =>
    { o with dirtyTX := Function.update o.dirtyTX kind ((o.dirtyTX kind).erase txHash) }

/-- What the journal keeps of a write: the write that sets the value from before. -/
def prev : FieldWrite → FieldWrite
  | .amount field _ => .amount field (o.data.amounts field)
  | .sideChainDepositBalance chainId _ =>
    .sideChainDepositBalance chainId (sideChainDeposit o.data.sideChainDepositBalance chainId)
  | .nonce _ => .nonce o.data.nonce
  | .candidate _ => .candidate o.data.candidate
  | .pubkey _ => .pubkey o.data.pubkey
  | .commission _ => .commission o.data.commission
  | .banned _ => .banned o.data.isBanned
  | .accountProxiedBalance key _ => .accountProxiedBalance key (o.getAccountProxiedBalance key)
  | .delegateRewardBalance key _ => .delegateRewardBalance key (o.getDelegateRewardBalance key)
  | .addTX kind txHash => .removeTX kind txHash
  | .removeTX kind txHash => .addTX kind txHash

/-- The object after the value from before has been read for the journal. -/
def loaded : FieldWrite → StateObject
  | .accountProxiedBalance key _ =>
    { o with proxied := o.proxied.load o.data.proxiedTrie key }
  | .delegateRewardBalance key _ => { o with reward := o.reward.load o.data.rewardTrie key }
  | _ => o

/-- One round of the loop of `updateTX1Trie`: the leading zeros are cut off. -/
def writeTX (trie : FinMap TxHash Bytes) (txHash : TxHash) : FinMap TxHash Bytes :=
  trie.insert txHash (txHash.dropWhile (· == 0))

/-- `updateTX1Root`, `updateTX3Root`, `updateProxiedRoot` and `updateRewardRoot`; `none` is
the dereference of a missing value. -/
def updateRoots : Option StateObject :=
  match o.proxied.flush o.data.proxiedTrie AccountProxiedBalance.keep,
    o.reward.flush o.data.rewardTrie keepReward with
  | some (proxied, proxiedTrie), some (reward, rewardTrie) =>
    some { o with
      data := { o.data with
        txRoot := fun kind => some ((o.dirtyTX kind).toList.foldl writeTX (o.data.txTrie kind))
        proxiedRoot := some proxiedTrie
        rewardRoot := some rewardTrie }
      proxied := proxied
      reward := reward
      dirtyTX := fun _ => ∅ }
  | _, _ => none

end StateObject

end State
end LigoChain
