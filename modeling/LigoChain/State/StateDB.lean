/-
# The state of all accounts

`StateDB` in `chain/core/state`: the account trie, the objects opened from it, the sets of
addresses beside it, and the journal of what to undo (`statedb.go`, `statedb1.go`,
`statedb_delegate.go`, `statedb_reward.go`, `statedb_candidate.go`, `statedb_forbidden.go`,
`journal.go`).

The writes to an account go through the journal (`writeField`, `touch`, `createObject`); the
writes to the sets and to the reward of side chains do not.  `Finalise` writes the dirty
accounts to the trie; it panics on an account with a negative amount, which has no encoding.

Reads fill caches that later reads see and nothing else does, so only those before a write
do so here.  `Finalise` is the one with `deleteEmptyObjects`, as both chain configurations
have it from the first block on.  The order of Go maps is the order of their keys.
-/

import LigoChain.State.StateObject
import LigoChain.Types.Block

namespace LigoChain
namespace State

/-- The sets of addresses that are kept beside the accounts. -/
inductive SetKind
  | delegateRefund
  | reward
  | candidate
  | banned
  deriving DecidableEq, Repr

/-- A set of addresses: what the trie has under the key of the set, the copy in memory, and
whether that has been changed.  An empty set that was written is not the same as none. -/
structure AddressSet where
  entry : Option (FinSet Address)
  memory : FinSet Address
  dirty : Bool

/-- The addresses that the trie has. -/
def AddressSet.stored (set : AddressSet) : FinSet Address := set.entry.getD ∅

/-- The set with its copy in memory, which is loaded when it is empty. -/
def AddressSet.load (set : AddressSet) : AddressSet :=
  if set.memory.isEmpty then { set with memory := set.stored } else set

/-- The reward of a side chain, kept in the same way. -/
structure SideChainReward where
  stored : Option ℤ
  memory : Option ℤ
  dirty : Bool

/-- `journalEntry`. -/
inductive JournalEntry
  | createObject (account : Address)
  | resetObject (account : Address) (prev : StateObject)
  | touch (account : Address) (prev prevDirty : Bool)
  | field (account : Address) (prev : FieldWrite)

/-- What a root hash stands for: the accounts, the sets and the reward of the trie. -/
structure Root where
  accounts : FinMap Address Account
  sets : SetKind → Option (FinSet Address)
  sideChainReward : Option ℤ

/-- `StateDB`; the journal has its newest entry first. -/
structure StateDB where
  trie : FinMap Address Account
  stateObjects : FinMap Address StateObject
  stateObjectsDirty : FinSet Address
  sets : SetKind → AddressSet
  sideChainRewardPerBlock : SideChainReward
  journal : List JournalEntry
  validRevisions : List (ℕ × ℕ)
  nextRevisionId : ℕ

namespace StateDB

/-- `New`. -/
def new (root : Root) : StateDB where
  trie := root.accounts
  stateObjects := ∅
  stateObjectsDirty := ∅
  sets := fun kind => ⟨root.sets kind, ∅, false⟩
  sideChainRewardPerBlock := ⟨root.sideChainReward, none, false⟩
  journal := []
  validRevisions := []
  nextRevisionId := 0

/-! ## Objects -/

/-- `getStateObject`. -/
def getStateObject (s : StateDB) (addr : Address) : Option StateObject :=
  match s.stateObjects[addr]? with
  | some o => if o.deleted then none else some o
  | none => (s.trie[addr]?).map StateObject.newObject

/-- A field of an object is set (`setBalance` and its like); the first write to an object
marks it dirty. -/
def setField (s : StateDB) (addr : Address) (o : StateObject) (w : FieldWrite) :
    StateObject × StateDB :=
  let o' := o.set w
  if w.callsOnDirty && o.onDirty then
    let o' := { o' with onDirty := false }
    (o', { s with
      stateObjects := s.stateObjects.insert addr o'
      stateObjectsDirty := s.stateObjectsDirty.insert addr })
  else (o', { s with stateObjects := s.stateObjects.insert addr o' })

/-- A field of an object is set, after the value from before went to the journal
(`SetBalance` and its like). -/
def writeField (addr : Address) (p : StateObject × StateDB) (w : FieldWrite) :
    StateObject × StateDB :=
  setField { p.2 with journal := .field addr (p.1.prev w) :: p.2.journal } addr (p.1.loaded w) w

/-- `touch`. -/
def touch (addr : Address) (p : StateObject × StateDB) : StateObject × StateDB :=
  let o := { p.1 with touched := true, onDirty := false }
  (o, { p.2 with
    stateObjects := p.2.stateObjects.insert addr o
    stateObjectsDirty :=
      if p.1.onDirty then p.2.stateObjectsDirty.insert addr else p.2.stateObjectsDirty
    journal := .touch addr p.1.touched (!p.1.onDirty) :: p.2.journal })

/-- `createObject`, where there is none: setting the nonce makes the object dirty. -/
def createObject (s : StateDB) (addr : Address) : StateObject × StateDB :=
  let o := { StateObject.newObject .new with onDirty := false }
  (o, { s with
    stateObjects := s.stateObjects.insert addr o
    stateObjectsDirty := s.stateObjectsDirty.insert addr
    journal := .createObject addr :: s.journal })

/-- `GetOrNewStateObject`. -/
def getOrNewStateObject (s : StateDB) (addr : Address) : StateObject × StateDB :=
  match s.getStateObject addr with
  | some o => (o, { s with stateObjects := s.stateObjects.insert addr o })
  | none => s.createObject addr

/-- `CreateAccount`: of an account that exists the balance is carried over, and nothing else. -/
def createAccount (s : StateDB) (addr : Address) : StateDB :=
  match s.getStateObject addr with
  | none => (s.createObject addr).2
  | some prev =>
    let o := { StateObject.newObject .new with onDirty := false }
    let o := o.set (.amount .balance (prev.data.amounts .balance))
    { s with
      stateObjects := s.stateObjects.insert addr o
      stateObjectsDirty := s.stateObjectsDirty.insert addr
      journal := .resetObject addr prev :: s.journal }

/-- `Exist`. -/
def exist (s : StateDB) (addr : Address) : Bool := (s.getStateObject addr).isSome

/-- `Empty`. -/
def empty (s : StateDB) (addr : Address) : Bool := (s.getStateObject addr).all StateObject.empty

/-! ## Amounts -/

/-- `AddBalance` of an object and its like: an amount of zero touches an empty account. -/
def addObjectAmount (field : AmountField) (addr : Address) (p : StateObject × StateDB)
    (amount : ℤ) : StateObject × StateDB :=
  if amount = 0 then
    if p.1.empty then touch addr p else p
  else writeField addr p (.amount field (p.1.data.amounts field + amount))

/-- `SubBalance` of an object and its like. -/
def subObjectAmount (field : AmountField) (addr : Address) (p : StateObject × StateDB)
    (amount : ℤ) : StateObject × StateDB :=
  if amount = 0 then p else writeField addr p (.amount field (p.1.data.amounts field - amount))

/-- `AddBalance` and its like. -/
def addAmount (field : AmountField) (s : StateDB) (addr : Address) (amount : ℤ) : StateDB :=
  (addObjectAmount field addr (s.getOrNewStateObject addr) amount).2

/-- `SubBalance` and its like. -/
def subAmount (field : AmountField) (s : StateDB) (addr : Address) (amount : ℤ) : StateDB :=
  (subObjectAmount field addr (s.getOrNewStateObject addr) amount).2

/-- `SetBalance` and its like. -/
def setAmount (field : AmountField) (s : StateDB) (addr : Address) (amount : ℤ) : StateDB :=
  (writeField addr (s.getOrNewStateObject addr) (.amount field amount)).2

/-- `AddAvailableRewardBalance`: only an account that exists is changed. -/
def addAvailableRewardBalance (s : StateDB) (addr : Address) (amount : ℤ) : StateDB :=
  match s.getStateObject addr with
  | some _ => s.addAmount .availableRewardBalance addr amount
  | none => s

/-- `SubAvailableRewardBalance`. -/
def subAvailableRewardBalance (s : StateDB) (addr : Address) (amount : ℤ) : StateDB :=
  match s.getStateObject addr with
  | some _ => s.subAmount .availableRewardBalance addr amount
  | none => s

/-- `GetBalance` and its like. -/
def getAmount (field : AmountField) (s : StateDB) (addr : Address) : ℤ :=
  match s.getStateObject addr with
  | some o => o.data.amounts field
  | none => 0

/-- `GetSideChainDepositBalance`. -/
def getSideChainDepositBalance (s : StateDB) (chainId : String) (addr : Address) : ℤ :=
  match s.getStateObject addr with
  | some o => sideChainDeposit o.data.sideChainDepositBalance chainId
  | none => 0

/-- `SetSideChainDepositBalance`. -/
def setSideChainDepositBalance (s : StateDB) (addr : Address) (chainId : String) (amount : ℤ) :
    StateDB :=
  (writeField addr (s.getOrNewStateObject addr) (.sideChainDepositBalance chainId amount)).2

/-- `AddSideChainDepositBalance`. -/
def addSideChainDepositBalance (s : StateDB) (addr : Address) (chainId : String) (amount : ℤ) :
    StateDB :=
  let p := s.getOrNewStateObject addr
  if amount = 0 then
    if p.1.empty then (touch addr p).2 else p.2
  else
    (writeField addr p (.sideChainDepositBalance chainId
      (sideChainDeposit p.1.data.sideChainDepositBalance chainId + amount))).2

/-- `SubSideChainDepositBalance`. -/
def subSideChainDepositBalance (s : StateDB) (addr : Address) (chainId : String) (amount : ℤ) :
    StateDB :=
  let p := s.getOrNewStateObject addr
  if amount = 0 then p.2
  else
    (writeField addr p (.sideChainDepositBalance chainId
      (sideChainDeposit p.1.data.sideChainDepositBalance chainId - amount))).2

/-- `GetNonce`. -/
def getNonce (s : StateDB) (addr : Address) : ℕ :=
  match s.getStateObject addr with
  | some o => o.data.nonce
  | none => 0

/-- `SetNonce`. -/
def setNonce (s : StateDB) (addr : Address) (nonce : ℕ) : StateDB :=
  (writeField addr (s.getOrNewStateObject addr) (.nonce nonce)).2

/-! ## Delegation -/

/-- `GetProxiedBalanceByUser` and its like. -/
def getByUser (field : EntryField) (s : StateDB) (addr user : Address) : ℤ :=
  match s.getStateObject addr with
  | some o => ((o.getAccountProxiedBalance user).getD .new).get field
  | none => 0

/-- The entry of a user is changed by an amount. -/
def changeEntry (field : EntryField) (addr user : Address) (p : StateObject × StateDB)
    (amount : ℤ) : StateObject × StateDB :=
  writeField addr p (.accountProxiedBalance user
    (some (((p.1.getAccountProxiedBalance user).getD .new).add amount field)))

/-- `AddProxiedBalanceByUser` and its like: the entry, then the total. -/
def addByUser (field : EntryField) (s : StateDB) (addr user : Address) (amount : ℤ) : StateDB :=
  (addObjectAmount field.total addr
    (changeEntry field addr user (s.getOrNewStateObject addr) amount) amount).2

/-- `SubProxiedBalanceByUser` and its like. -/
def subByUser (field : EntryField) (s : StateDB) (addr user : Address) (amount : ℤ) : StateDB :=
  (subObjectAmount field.total addr
    (changeEntry field addr user (s.getOrNewStateObject addr) (-amount)) amount).2

/-- The users that `ForEachProxied` visits: those in the trie. -/
def proxiedKeys (s : StateDB) (addr : Address) : List Address :=
  match s.getStateObject addr with
  | some o => o.data.proxiedTrie.keys
  | none => []

/-- The value that `ForEachProxied` calls back with, at a user in the trie: a dirty value goes
before the one in the trie. -/
def proxiedValue (s : StateDB) (addr key : Address) : Go AccountProxiedBalance :=
  match (s.getStateObject addr).bind fun o => (o.data.proxiedTrie[key]?).map fun leaf => (o, leaf) with
  | none => .error .index
  | some (o, leaf) =>
    match o.proxied.dirty[key]? with
    | some (some value) => .ok value
    | some none => .error .nilDeref
    | none => .ok leaf

/-! ## Rewards -/

/-- `GetRewardBalanceByDelegateAddress`. -/
def getRewardBalanceByDelegateAddress (s : StateDB) (addr deleAddress : Address) : ℤ :=
  match s.getStateObject addr with
  | some o => (o.getDelegateRewardBalance deleAddress).getD 0
  | none => 0

/-- `AddRewardBalanceByDelegateAddress`. -/
def addRewardBalanceByDelegateAddress (s : StateDB) (addr deleAddress : Address) (amount : ℤ) :
    StateDB :=
  let p := s.getOrNewStateObject addr
  let p := writeField addr p (.delegateRewardBalance deleAddress
    (some ((p.1.getDelegateRewardBalance deleAddress).getD 0 + amount)))
  (addObjectAmount .rewardBalance addr p amount).2

/-- `SubRewardBalanceByDelegateAddress`: there has to be a reward. -/
def subRewardBalanceByDelegateAddress (s : StateDB) (addr deleAddress : Address) (amount : ℤ) :
    Go StateDB :=
  let p := s.getOrNewStateObject addr
  match p.1.getDelegateRewardBalance deleAddress with
  | none => .error (.sanity "you can't subtract the amount from nil balance")
  | some reward =>
    let p := writeField addr p (.delegateRewardBalance deleAddress (some (reward - amount)))
    .ok (subObjectAmount .rewardBalance addr p amount).2

/-! ## Candidates -/

/-- `IsCandidate`. -/
def isCandidate (s : StateDB) (addr : Address) : Bool :=
  match s.getStateObject addr with
  | some o => o.data.candidate
  | none => false

/-- `IsCleanAddress`. -/
def isCleanAddress (s : StateDB) (addr : Address) : Bool :=
  match s.getStateObject addr with
  | some o => !o.data.candidate && o.data.isEmptyTrie
  | none => true

/-- `GetPubkey`. -/
def getPubkey (s : StateDB) (addr : Address) : Bytes :=
  match s.getStateObject addr with
  | some o => o.data.pubkey
  | none => []

/-- `GetCommission`. -/
def getCommission (s : StateDB) (addr : Address) : ℕ :=
  match s.getStateObject addr with
  | some o => o.data.commission
  | none => 0

/-- `GetBanned`, which makes an account where there is none. -/
def getBanned (s : StateDB) (addr : Address) : Bool × StateDB :=
  let p := s.getOrNewStateObject addr
  (p.1.data.isBanned, p.2)

/-- `SetBanned`. -/
def setBanned (s : StateDB) (addr : Address) (banned : Bool) : StateDB :=
  (writeField addr (s.getOrNewStateObject addr) (.banned banned)).2

/-- `SetCommission`. -/
def setCommission (s : StateDB) (addr : Address) (commission : ℕ) : StateDB :=
  (writeField addr (s.getOrNewStateObject addr) (.commission commission)).2

/-- `ApplyForCandidate`. -/
def applyForCandidate (s : StateDB) (addr : Address) (pubkey : Bytes) (commission : ℕ) : StateDB :=
  let p := writeField addr (s.getOrNewStateObject addr) (.candidate true)
  let p := writeField addr p (.commission commission)
  (writeField addr p (.pubkey pubkey)).2

/-- `CancelCandidate`. -/
def cancelCandidate (s : StateDB) (addr : Address) (allRefund : Bool) : StateDB :=
  let p := writeField addr (s.getOrNewStateObject addr) (.candidate false)
  let p := writeField addr p (.pubkey [])
  if allRefund then (writeField addr p (.commission 0)).2 else p.2

/-! ## Cross-chain transactions -/

/-- `HasTX1`, `HasTX3`. -/
def hasTX (kind : TxKind) (s : StateDB) (addr : Address) (txHash : TxHash) : Bool :=
  match s.getStateObject addr with
  | some o => o.hasTX kind txHash
  | none => false

/-- `AddTX1`, `AddTX3`. -/
def addTX (kind : TxKind) (s : StateDB) (addr : Address) (txHash : TxHash) : StateDB :=
  (writeField addr (s.getOrNewStateObject addr) (.addTX kind txHash)).2

/-! ## Sets of addresses -/

/-- `GetDelegateAddressRefundSet` and its like load the set from the trie. -/
def loadSet (s : StateDB) (kind : SetKind) : StateDB :=
  { s with sets := Function.update s.sets kind (s.sets kind).load }

/-- `GetDelegateAddressRefundSet`, `GetRewardSet`, `GetCandidateSet`, `GetBannedSet`. -/
def getSet (s : StateDB) (kind : SetKind) : FinSet Address := (s.sets kind).load.memory

/-- `MarkDelegateAddressRefund`, `MarkAddressReward`, `MarkAddressCandidate`,
`MarkAddressBanned`. -/
def markSet (s : StateDB) (kind : SetKind) (addr : Address) : StateDB :=
  let s := s.loadSet kind
  let set := s.sets kind
  if set.memory.contains addr then s
  else
    let set := { set with memory := set.memory.insert addr, dirty := true }
    { s with sets := Function.update s.sets kind set }

/-- `ClearRewardSetByAddress`, `ClearCandidateSetByAddress`, `ClearBannedSetByAddress`. -/
def clearSetByAddress (s : StateDB) (kind : SetKind) (addr : Address) : StateDB :=
  let set := s.sets kind
  let set := { set with memory := set.memory.erase addr, dirty := true }
  { s with sets := Function.update s.sets kind set }

/-- `ClearDelegateRefundSet`: the set is deleted from the trie at once. -/
def clearDelegateRefundSet (s : StateDB) : StateDB :=
  { s with sets := Function.update s.sets .delegateRefund ⟨none, ∅, false⟩ }

/-- `GetSideChainRewardPerBlock`. -/
def getSideChainRewardPerBlock (s : StateDB) : ℤ :=
  (s.sideChainRewardPerBlock.memory.or s.sideChainRewardPerBlock.stored).getD 0

/-- `SetSideChainRewardPerBlock`. -/
def setSideChainRewardPerBlock (s : StateDB) (rewardPerBlock : ℤ) : StateDB :=
  { s with sideChainRewardPerBlock :=
    { s.sideChainRewardPerBlock with memory := some rewardPerBlock, dirty := true } }

/-! ## Snapshots -/

/-- `ripemd`. -/
def ripemd : Address := List.replicate 31 0 ++ [3]

/-- `undo`. -/
def undo (s : StateDB) : JournalEntry → Go StateDB
  | .createObject addr =>
    .ok { s with
      stateObjects := s.stateObjects.erase addr
      stateObjectsDirty := s.stateObjectsDirty.erase addr }
  | .resetObject addr prev => .ok { s with stateObjects := s.stateObjects.insert addr prev }
  | .touch addr prev prevDirty =>
    if !prev && addr != ripemd then
      match s.getStateObject addr with
      | none => .error .nilDeref
      | some o =>
        .ok { s with
          stateObjects := s.stateObjects.insert addr { o with touched := prev }
          stateObjectsDirty :=
            if prevDirty then s.stateObjectsDirty else s.stateObjectsDirty.erase addr }
    else .ok s
  | .field addr w =>
    match s.getStateObject addr with
    | none => .error .nilDeref
    | some o => .ok (s.setField addr o w).2

/-- `Snapshot`. -/
def snapshot (s : StateDB) : ℕ × StateDB :=
  (s.nextRevisionId, { s with
    validRevisions := s.validRevisions ++ [(s.nextRevisionId, s.journal.length)]
    nextRevisionId := s.nextRevisionId + 1 })

/-- `RevertToSnapshot`: the entries since the snapshot are undone, the newest first. -/
def revertToSnapshot (s : StateDB) (revid : ℕ) : Go StateDB :=
  match s.validRevisions.findIdx? fun r => decide (revid ≤ r.1) with
  | none => .error (.sanity "revision id cannot be reverted")
  | some idx =>
    match s.validRevisions[idx]? with
    | none => .error .index
    | some (id, journalIndex) =>
      if id ≠ revid then .error (.sanity "revision id cannot be reverted")
      else do
        let n := s.journal.length - journalIndex
        let s ← (s.journal.take n).foldlM undo s
        .ok { s with
          journal := s.journal.drop n
          validRevisions := s.validRevisions.take idx }

/-! ## Finalising -/

/-- One round of the loop of `Finalise`. -/
def finaliseObject (s : StateDB) (addr : Address) : Go StateDB :=
  match s.stateObjects[addr]? with
  | none => .error .nilDeref
  | some o =>
    if o.empty then
      .ok { s with
        stateObjects := s.stateObjects.insert addr { o with deleted := true }
        trie := s.trie.erase addr }
    else
      match o.updateRoots with
      | none => .error .nilDeref
      | some o =>
        if o.data.encodable then
          .ok { s with
            stateObjects := s.stateObjects.insert addr o
            trie := s.trie.insert addr o.data }
        else .error (.sanity "can't encode object")

/-- The sets and the reward of side chains are written to the trie if they are dirty. -/
def commitSets (s : StateDB) : Go StateDB :=
  let sets := fun kind =>
    if (s.sets kind).dirty then { s.sets kind with entry := some (s.sets kind).memory }
    else s.sets kind
  let reward := s.sideChainRewardPerBlock
  if reward.dirty then
    if 0 ≤ reward.memory.getD 0 then
      .ok { s with
        sets := sets
        sideChainRewardPerBlock := { reward with stored := some (reward.memory.getD 0) } }
    else .error (.sanity "can't encode side chain reward per block")
  else .ok { s with sets := sets }

/-- `Finalise(true)`. -/
def finalise (s : StateDB) : Go StateDB := do
  let s ← s.stateObjectsDirty.toList.foldlM finaliseObject s
  let s ← s.commitSets
  .ok { s with journal := [], validRevisions := [] }

/-- The root of the trie. -/
def root (s : StateDB) : Root where
  accounts := s.trie
  sets := fun kind => (s.sets kind).entry
  sideChainReward := s.sideChainRewardPerBlock.stored

/-- `IntermediateRoot(true)`. -/
def intermediateRoot (s : StateDB) : Go (Root × StateDB) := do
  let s ← s.finalise
  .ok (s.root, s)

end StateDB

end State
end LigoChain
