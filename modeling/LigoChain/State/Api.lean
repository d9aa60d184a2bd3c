/-
# The functions of the state as operations

The code of a transaction acts on the state through the functions of `StateDB`.  Here they
are the operations of a program: `Op.run` performs one on a `StateDB`, `Op.denote` on the
abstract state.  On a well-formed state the two agree (`Op.run_agree`), so a program can be
followed on the abstract state (`run_refines`).

`AddTX1` and `AddTX3` do not mark the account dirty; they keep a state well-formed only
where the account is dirty already (`Op.Marked`).
-/

import LigoChain.Lib.Program
import LigoChain.State.World

namespace LigoChain
namespace State

/-- The functions of `StateDB` that transactions call. -/
inductive Op : Type → Type
  | exist (addr : Address) : Op Bool
  | empty (addr : Address) : Op Bool
  | getAmount (field : AmountField) (addr : Address) : Op ℤ
  | addAmount (field : AmountField) (addr : Address) (amount : ℤ) : Op Unit
  | subAmount (field : AmountField) (addr : Address) (amount : ℤ) : Op Unit
  | setAmount (field : AmountField) (addr : Address) (amount : ℤ) : Op Unit
  | addAvailableRewardBalance (addr : Address) (amount : ℤ) : Op Unit
  | subAvailableRewardBalance (addr : Address) (amount : ℤ) : Op Unit
  | getSideChainDepositBalance (chainId : String) (addr : Address) : Op ℤ
  | setSideChainDepositBalance (addr : Address) (chainId : String) (amount : ℤ) : Op Unit
  | addSideChainDepositBalance (addr : Address) (chainId : String) (amount : ℤ) : Op Unit
  | subSideChainDepositBalance (addr : Address) (chainId : String) (amount : ℤ) : Op Unit
  | getNonce (addr : Address) : Op ℕ
  | setNonce (addr : Address) (nonce : ℕ) : Op Unit
  | getByUser (field : EntryField) (addr user : Address) : Op ℤ
  | addByUser (field : EntryField) (addr user : Address) (amount : ℤ) : Op Unit
  | subByUser (field : EntryField) (addr user : Address) (amount : ℤ) : Op Unit
  | proxiedKeys (addr : Address) : Op (List Address)
  | proxiedValue (addr key : Address) : Op AccountProxiedBalance
  | getRewardBalanceByDelegateAddress (addr deleAddress : Address) : Op ℤ
  | addRewardBalanceByDelegateAddress (addr deleAddress : Address) (amount : ℤ) : Op Unit
  | subRewardBalanceByDelegateAddress (addr deleAddress : Address) (amount : ℤ) : Op Unit
  | isCandidate (addr : Address) : Op Bool
  | isCleanAddress (addr : Address) : Op Bool
  | getPubkey (addr : Address) : Op Bytes
  | getCommission (addr : Address) : Op ℕ
  | getBanned (addr : Address) : Op Bool
  | setBanned (addr : Address) (banned : Bool) : Op Unit
  | setCommission (addr : Address) (commission : ℕ) : Op Unit
  | applyForCandidate (addr : Address) (pubkey : Bytes) (commission : ℕ) : Op Unit
  | cancelCandidate (addr : Address) (allRefund : Bool) : Op Unit
  | hasTX (kind : TxKind) (addr : Address) (txHash : TxHash) : Op Bool
  | addTX (kind : TxKind) (addr : Address) (txHash : TxHash) : Op Unit
  | getSet (kind : SetKind) : Op (FinSet Address)
  | markSet (kind : SetKind) (addr : Address) : Op Unit
  | clearSetByAddress (kind : SetKind) (addr : Address) : Op Unit
  | clearDelegateRefundSet : Op Unit
  | getSideChainRewardPerBlock : Op ℤ
  | setSideChainRewardPerBlock (rewardPerBlock : ℤ) : Op Unit

/-- An operation is performed on a state. -/
def Op.run : ⦃β : Type⦄ → Op β → StateDB → Go (β × StateDB)
  | _, .exist addr, s => .ok (s.exist addr, s)
  | _, .empty addr, s => .ok (s.empty addr, s)
  | _, .getAmount field addr, s => .ok (s.getAmount field addr, s)
  | _, .addAmount field addr amount, s => .ok ((), s.addAmount field addr amount)
  | _, .subAmount field addr amount, s => .ok ((), s.subAmount field addr amount)
  | _, .setAmount field addr amount, s => .ok ((), s.setAmount field addr amount)
  | _, .addAvailableRewardBalance addr amount, s => .ok ((), s.addAvailableRewardBalance addr amount)
  | _, .subAvailableRewardBalance addr amount, s => .ok ((), s.subAvailableRewardBalance addr amount)
  | _, .getSideChainDepositBalance chainId addr, s =>
    .ok (s.getSideChainDepositBalance chainId addr, s)
  | _, .setSideChainDepositBalance addr chainId amount, s =>
    .ok ((), s.setSideChainDepositBalance addr chainId amount)
  | _, .addSideChainDepositBalance addr chainId amount, s =>
    .ok ((), s.addSideChainDepositBalance addr chainId amount)
  | _, .subSideChainDepositBalance addr chainId amount, s =>
    .ok ((), s.subSideChainDepositBalance addr chainId amount)
  | _, .getNonce addr, s => .ok (s.getNonce addr, s)
  | _, .setNonce addr nonce, s => .ok ((), s.setNonce addr nonce)
  | _, .getByUser field addr user, s => .ok (s.getByUser field addr user, s)
  | _, .addByUser field addr user amount, s => .ok ((), s.addByUser field addr user amount)
  | _, .subByUser field addr user amount, s => .ok ((), s.subByUser field addr user amount)
  | _, .proxiedKeys addr, s => .ok (s.proxiedKeys addr, s)
  | _, .proxiedValue addr key, s => (s.proxiedValue addr key).map fun value => (value, s)
  | _, .getRewardBalanceByDelegateAddress addr deleAddress, s =>
    .ok (s.getRewardBalanceByDelegateAddress addr deleAddress, s)
  | _, .addRewardBalanceByDelegateAddress addr deleAddress amount, s =>
    .ok ((), s.addRewardBalanceByDelegateAddress addr deleAddress amount)
  | _, .subRewardBalanceByDelegateAddress addr deleAddress amount, s =>
    (s.subRewardBalanceByDelegateAddress addr deleAddress amount).map fun s => ((), s)
  | _, .isCandidate addr, s => .ok (s.isCandidate addr, s)
  | _, .isCleanAddress addr, s => .ok (s.isCleanAddress addr, s)
  | _, .getPubkey addr, s => .ok (s.getPubkey addr, s)
  | _, .getCommission addr, s => .ok (s.getCommission addr, s)
  | _, .getBanned addr, s => .ok (s.getBanned addr)
  | _, .setBanned addr banned, s => .ok ((), s.setBanned addr banned)
  | _, .setCommission addr commission, s => .ok ((), s.setCommission addr commission)
  | _, .applyForCandidate addr pubkey commission, s =>
    .ok ((), s.applyForCandidate addr pubkey commission)
  | _, .cancelCandidate addr allRefund, s => .ok ((), s.cancelCandidate addr allRefund)
  | _, .hasTX kind addr txHash, s => .ok (s.hasTX kind addr txHash, s)
  | _, .addTX kind addr txHash, s => .ok ((), s.addTX kind addr txHash)
  | _, .getSet kind, s => .ok (s.getSet kind, s.loadSet kind)
  | _, .markSet kind addr, s => .ok ((), s.markSet kind addr)
  | _, .clearSetByAddress kind addr, s => .ok ((), s.clearSetByAddress kind addr)
  | _, .clearDelegateRefundSet, s => .ok ((), s.clearDelegateRefundSet)
  | _, .getSideChainRewardPerBlock, s => .ok (s.getSideChainRewardPerBlock, s)
  | _, .setSideChainRewardPerBlock rewardPerBlock, s =>
    .ok ((), s.setSideChainRewardPerBlock rewardPerBlock)

/-! ## Operations on the abstract state -/

namespace World

variable (w : World)

/-- An amount of an account. -/
def amount (field : AmountField) (addr : Address) : ℤ := (w.acct addr).data.amounts field

/-- What a user has delegated to an account. -/
def entry (addr user : Address) : AccountProxiedBalance := (w.acct addr).entry user

/-- `AddBalance` and its like. -/
def addAmount (field : AmountField) (addr : Address) (amount : ℤ) : World :=
  if amount = 0 then w.ensure addr
  else w.write addr (.amount field (w.amount field addr + amount))

/-- `SubBalance` and its like. -/
def subAmount (field : AmountField) (addr : Address) (amount : ℤ) : World :=
  if amount = 0 then w.ensure addr
  else w.write addr (.amount field (w.amount field addr - amount))

/-- The change of an account that exists. -/
def whereExists (addr : Address) (f : World → World) : World :=
  match w.accounts addr with
  | some _ => f w
  | none => w

/-- The entry of a user is changed by an amount. -/
def changeEntry (field : EntryField) (addr user : Address) (amount : ℤ) : World :=
  w.write addr (.accountProxiedBalance user (some ((w.entry addr user).add amount field)))

/-- `AddProxiedBalanceByUser` and its like. -/
def addByUser (field : EntryField) (addr user : Address) (amount : ℤ) : World :=
  (w.changeEntry field addr user amount).addAmount field.total addr amount

/-- `SubProxiedBalanceByUser` and its like. -/
def subByUser (field : EntryField) (addr user : Address) (amount : ℤ) : World :=
  (w.changeEntry field addr user (-amount)).subAmount field.total addr amount

/-- The change of a set of addresses. -/
def updateSet (kind : SetKind) (f : AddressSet → AddressSet) : World :=
  { w with sets := Function.update w.sets kind (f (w.sets kind)) }

end World

/-- `MarkDelegateAddressRefund` and its like. -/
def AddressSet.mark (set : AddressSet) (addr : Address) : AddressSet :=
  if set.load.memory.contains addr then set.load
  else { set.load with memory := set.load.memory.insert addr, dirty := true }

/-- `ClearRewardSetByAddress` and its like. -/
def AddressSet.clear (set : AddressSet) (addr : Address) : AddressSet :=
  { set with memory := set.memory.erase addr, dirty := true }

/-- An operation is performed on the abstract state. -/
def Op.denote : ⦃β : Type⦄ → Op β → World → Go (β × World)
  | _, .exist addr, w => .ok ((w.accounts addr).isSome, w)
  | _, .empty addr, w => .ok ((w.accounts addr).all fun a => a.data.empty, w)
  | _, .getAmount field addr, w => .ok (w.amount field addr, w)
  | _, .addAmount field addr amount, w => .ok ((), w.addAmount field addr amount)
  | _, .subAmount field addr amount, w => .ok ((), w.subAmount field addr amount)
  | _, .setAmount field addr amount, w => .ok ((), w.write addr (.amount field amount))
  | _, .addAvailableRewardBalance addr amount, w =>
    .ok ((), w.whereExists addr fun w => w.addAmount .availableRewardBalance addr amount)
  | _, .subAvailableRewardBalance addr amount, w =>
    .ok ((), w.whereExists addr fun w => w.subAmount .availableRewardBalance addr amount)
  | _, .getSideChainDepositBalance chainId addr, w =>
    .ok (sideChainDeposit (w.acct addr).data.sideChainDepositBalance chainId, w)
  | _, .setSideChainDepositBalance addr chainId amount, w =>
    .ok ((), w.write addr (.sideChainDepositBalance chainId amount))
  | _, .addSideChainDepositBalance addr chainId amount, w =>
    .ok ((), if amount = 0 then w.ensure addr
      else w.write addr (.sideChainDepositBalance chainId
        (sideChainDeposit (w.acct addr).data.sideChainDepositBalance chainId + amount)))
  | _, .subSideChainDepositBalance addr chainId amount, w =>
    .ok ((), if amount = 0 then w.ensure addr
      else w.write addr (.sideChainDepositBalance chainId
        (sideChainDeposit (w.acct addr).data.sideChainDepositBalance chainId - amount)))
  | _, .getNonce addr, w => .ok ((w.acct addr).data.nonce, w)
  | _, .setNonce addr nonce, w => .ok ((), w.write addr (.nonce nonce))
  | _, .getByUser field addr user, w => .ok ((w.entry addr user).get field, w)
  | _, .addByUser field addr user amount, w => .ok ((), w.addByUser field addr user amount)
  | _, .subByUser field addr user amount, w => .ok ((), w.subByUser field addr user amount)
  | _, .proxiedKeys addr, w => .ok ((w.acct addr).data.proxiedTrie.keys, w)
  | _, .proxiedValue addr key, w =>
    if (w.acct addr).data.proxiedTrie.contains key then .ok (w.entry addr key, w)
    else .error .index
  | _, .getRewardBalanceByDelegateAddress addr deleAddress, w =>
    .ok (((w.acct addr).rewards[deleAddress]?).getD 0, w)
  | _, .addRewardBalanceByDelegateAddress addr deleAddress amount, w =>
    .ok ((), (w.write addr (.delegateRewardBalance deleAddress
      (some (((w.acct addr).rewards[deleAddress]?).getD 0 + amount)))).addAmount
        .rewardBalance addr amount)
  | _, .subRewardBalanceByDelegateAddress addr deleAddress amount, w =>
    match (w.acct addr).rewards[deleAddress]? with
    | none => .error (.sanity "you can't subtract the amount from nil balance")
    | some reward =>
      .ok ((), (w.write addr (.delegateRewardBalance deleAddress
        (some (reward - amount)))).subAmount .rewardBalance addr amount)
  | _, .isCandidate addr, w => .ok ((w.acct addr).data.candidate, w)
  | _, .isCleanAddress addr, w =>
    .ok ((w.accounts addr).all fun a => !a.data.candidate && a.data.isEmptyTrie, w)
  | _, .getPubkey addr, w => .ok ((w.acct addr).data.pubkey, w)
  | _, .getCommission addr, w => .ok ((w.acct addr).data.commission, w)
  | _, .getBanned addr, w => .ok ((w.acct addr).data.isBanned, w.ensure addr)
  | _, .setBanned addr banned, w => .ok ((), w.write addr (.banned banned))
  | _, .setCommission addr commission, w => .ok ((), w.write addr (.commission commission))
  | _, .applyForCandidate addr pubkey commission, w =>
    .ok ((), ((w.write addr (.candidate true)).write addr (.commission commission)).write addr
      (.pubkey pubkey))
  | _, .cancelCandidate addr allRefund, w =>
    let w := (w.write addr (.candidate false)).write addr (.pubkey [])
    .ok ((), if allRefund then w.write addr (.commission 0) else w)
  | _, .hasTX kind addr txHash, w =>
    .ok (((w.acct addr).dirtyTX kind).contains txHash ||
      ((w.acct addr).data.txTrie kind)[txHash]? == some txHash, w)
  | _, .addTX kind addr txHash, w => .ok ((), w.write addr (.addTX kind txHash))
  | _, .getSet kind, w => .ok ((w.sets kind).load.memory, w.updateSet kind AddressSet.load)
  | _, .markSet kind addr, w => .ok ((), w.updateSet kind fun set => set.mark addr)
  | _, .clearSetByAddress kind addr, w => .ok ((), w.updateSet kind fun set => set.clear addr)
  | _, .clearDelegateRefundSet, w => .ok ((), w.updateSet .delegateRefund fun _ => ⟨none, ∅, false⟩)
  | _, .getSideChainRewardPerBlock, w =>
    .ok ((w.sideChainRewardPerBlock.memory.or w.sideChainRewardPerBlock.stored).getD 0, w)
  | _, .setSideChainRewardPerBlock rewardPerBlock, w =>
    .ok ((), { w with sideChainRewardPerBlock :=
      { w.sideChainRewardPerBlock with memory := some rewardPerBlock, dirty := true } })

/-- Cross-chain transactions are added to accounts that are dirty. -/
def Op.Marked : ⦃β : Type⦄ → Op β → StateDB → Prop
  | _, .addTX _ addr _, s => (s.getOrNewStateObject addr).1.onDirty = false
  | _, _, _ => True

/-! ## Refinement -/

namespace StateDB

variable {s : StateDB} {addr : Address} {p : StateObject × StateDB} {w : World}

theorem Opened.ensure (h : Opened addr p w) : w.ensure addr = w := by
  rw [World.ensure, h.acct]
  exact h.put_view

theorem Opened.amounts (h : Opened addr p w) (field : AmountField) :
    w.amount field addr = p.1.data.amounts field := by
  rw [World.amount, h.acct]
  rfl

theorem Opened.entry (h : Opened addr p w) (user : Address) :
    w.entry addr user = (p.1.getAccountProxiedBalance user).getD .new := by
  rw [World.entry, h.acct, Acct.entry, StateObject.getElem?_entries]

theorem Opened.addObjectAmount (h : Opened addr p w) (field : AmountField) (amount : ℤ) :
    Opened addr (StateDB.addObjectAmount field addr p amount) (w.addAmount field addr amount) := by
  unfold StateDB.addObjectAmount World.addAmount
  split_ifs
  · rw [h.ensure]
    exact h.touch
  · rw [h.ensure]
    exact h
  · rw [h.amounts]
    exact h.writeField trivial (.inl rfl)

theorem Opened.subObjectAmount (h : Opened addr p w) (field : AmountField) (amount : ℤ) :
    Opened addr (StateDB.subObjectAmount field addr p amount) (w.subAmount field addr amount) := by
  unfold StateDB.subObjectAmount World.subAmount
  split_ifs
  · rw [h.ensure]
    exact h
  · rw [h.amounts]
    exact h.writeField trivial (.inl rfl)

theorem Opened.changeEntry (h : Opened addr p w) (field : EntryField) (user : Address) (amount : ℤ) :
    Opened addr (StateDB.changeEntry field addr user p amount)
      (w.changeEntry field addr user amount) := by
  unfold StateDB.changeEntry World.changeEntry
  rw [h.entry]
  exact h.writeField (Option.some_ne_none _) (.inl rfl)

theorem ensure_addAmount (w : World) (field : AmountField) (addr : Address) (amount : ℤ) :
    (w.ensure addr).addAmount field addr amount = w.addAmount field addr amount := by
  unfold World.addAmount World.amount
  rw [World.ensure_write, World.acct_ensure, World.ensure_ensure]

theorem ensure_subAmount (w : World) (field : AmountField) (addr : Address) (amount : ℤ) :
    (w.ensure addr).subAmount field addr amount = w.subAmount field addr amount := by
  unfold World.subAmount World.amount
  rw [World.ensure_write, World.acct_ensure, World.ensure_ensure]

theorem ensure_changeEntry (w : World) (field : EntryField) (addr user : Address) (amount : ℤ) :
    (w.ensure addr).changeEntry field addr user amount = w.changeEntry field addr user amount := by
  unfold World.changeEntry World.entry
  rw [World.ensure_write, World.acct_ensure]

theorem Refines.opened (h : s.Refines w) (addr : Address) :
    Opened addr (s.getOrNewStateObject addr) (w.ensure addr) := by
  obtain ⟨hwf, rfl⟩ := h
  exact hwf.getOrNewStateObject addr

theorem Refines.write (h : s.Refines w) (addr : Address) {f : FieldWrite} (hf : f.Storable)
    (hcalls : f.callsOnDirty = true ∨ (s.getOrNewStateObject addr).1.onDirty = false) :
    Opened addr (writeField addr (s.getOrNewStateObject addr) f) (w.write addr f) := by
  rw [← World.ensure_write]
  exact (h.opened addr).writeField hf hcalls

theorem Refines.acct_data (h : s.Refines w) (addr : Address) :
    (w.acct addr).data = (s.getOrNewStateObject addr).1.data := by
  rw [← World.acct_ensure w addr, (h.opened addr).acct]
  rfl

theorem Refines.acct_rewards (h : s.Refines w) (addr deleAddress : Address) :
    (w.acct addr).rewards[deleAddress]? =
      (s.getOrNewStateObject addr).1.getDelegateRewardBalance deleAddress := by
  rw [← World.acct_ensure w addr, (h.opened addr).acct, StateObject.getElem?_rewards]

theorem Refines.addAmount (h : s.Refines w) (field : AmountField) (addr : Address) (amount : ℤ) :
    (s.addAmount field addr amount).Refines (w.addAmount field addr amount) := by
  rw [← ensure_addAmount]
  exact ((h.opened addr).addObjectAmount field amount).refines

theorem Refines.subAmount (h : s.Refines w) (field : AmountField) (addr : Address) (amount : ℤ) :
    (s.subAmount field addr amount).Refines (w.subAmount field addr amount) := by
  rw [← ensure_subAmount]
  exact ((h.opened addr).subObjectAmount field amount).refines

theorem Refines.addByUser (h : s.Refines w) (field : EntryField) (addr user : Address)
    (amount : ℤ) :
    (s.addByUser field addr user amount).Refines (w.addByUser field addr user amount) := by
  unfold World.addByUser
  rw [← ensure_changeEntry]
  exact (((h.opened addr).changeEntry field user amount).addObjectAmount field.total amount).refines

theorem Refines.subByUser (h : s.Refines w) (field : EntryField) (addr user : Address)
    (amount : ℤ) :
    (s.subByUser field addr user amount).Refines (w.subByUser field addr user amount) := by
  unfold World.subByUser
  rw [← ensure_changeEntry]
  exact (((h.opened addr).changeEntry field user (-amount)).subObjectAmount field.total
    amount).refines

theorem Refines.sets (h : s.Refines w) (sets : SetKind → AddressSet) :
    Refines { s with sets := sets } { w with sets := sets } := by
  obtain ⟨hwf, rfl⟩ := h
  exact ⟨⟨hwf.stored, hwf.objects, hwf.dirty, hwf.clean, hwf.deleted⟩, rfl⟩

theorem Refines.updateSet (h : s.Refines w) (kind : SetKind) (f : AddressSet → AddressSet) :
    Refines { s with sets := Function.update s.sets kind (f (s.sets kind)) }
      (w.updateSet kind f) := by
  have hsets : s.sets = w.sets := by
    rw [← h.view]
    rfl
  unfold World.updateSet
  rw [hsets]
  exact h.sets _

theorem markSet_eq (s : StateDB) (kind : SetKind) (addr : Address) :
    s.markSet kind addr =
      { s with sets := Function.update s.sets kind ((s.sets kind).mark addr) } := by
  unfold markSet loadSet AddressSet.mark
  simp only [Function.update_self, Function.update_idem]
  split <;> rfl

theorem Refines.whereExists (h : s.Refines w) (addr : Address) {s' : StateDB} {g : World → World}
    (hsome : ∀ o, s.getStateObject addr = some o → s'.Refines (g w))
    (hnone : s.getStateObject addr = none → s' = s) : s'.Refines (w.whereExists addr g) := by
  obtain ⟨hwf, rfl⟩ := h
  unfold World.whereExists
  rw [accounts_view]
  cases ho : s.getStateObject addr with
  | some o => exact hsome o ho
  | none =>
    rw [hnone ho]
    exact ⟨hwf, rfl⟩

theorem Wf.proxiedValue (h : s.Wf) (addr key : Address) :
    s.proxiedValue addr key =
      if (s.view.acct addr).data.proxiedTrie.contains key then .ok (s.view.entry addr key)
      else .error .index := by
  unfold World.entry
  rw [acct_view]
  cases ho : s.getStateObject addr with
  | none =>
    simp only [StateDB.proxiedValue, ho, Option.bind_none]
    simp [Acct.new, Account.proxiedTrie, Account.new]
  | some o =>
    obtain ⟨hwf, -⟩ := h.getStateObject ho
    have hcontains : (o.view.data.proxiedTrie.contains key) =
        (o.data.proxiedTrie[key]?).isSome := Std.ExtTreeMap.contains_eq_isSome_getElem?
    show s.proxiedValue addr key = if o.view.data.proxiedTrie.contains key then
      .ok ((o.view.entries[key]?).getD .new) else .error .index
    rw [hcontains]
    cases hleaf : o.data.proxiedTrie[key]? with
    | none => simp [StateDB.proxiedValue, ho, hleaf]
    | some leaf =>
      have hnone := hwf.noMissing key
      have hbase := @Cache.Coherent.getElem?_base _ _ _ _ _ _ _ hwf.proxied key
      rw [hleaf] at hbase
      rw [StateObject.getElem?_entries, StateObject.getAccountProxiedBalance]
      unfold Cache.get at hbase ⊢
      cases hdirty : o.proxied.dirty[key]? with
      | some value =>
        cases value with
        | some value => simp [StateDB.proxiedValue, ho, hleaf, hdirty]
        | none => exact absurd hdirty hnone
      | none =>
        rw [hdirty] at hbase
        have hvalue : s.proxiedValue addr key = .ok leaf := by
          simp [StateDB.proxiedValue, ho, hleaf, hdirty]
        rw [hvalue, (Option.filter_eq_some_iff.1 (hbase rfl).symm).1]
        rfl

end StateDB

namespace StateDB

variable (s : StateDB) (addr : Address)

/-! What the view says is what the functions of the state read. -/

theorem exist_eq : s.exist addr = (s.view.accounts addr).isSome := by
  rw [accounts_view, Option.isSome_map]
  rfl

theorem empty_eq : s.empty addr = (s.view.accounts addr).all fun a => a.data.empty := by
  unfold StateDB.empty
  rw [accounts_view]
  cases s.getStateObject addr <;> rfl

theorem getAmount_eq (field : AmountField) : s.getAmount field addr = s.view.amount field addr := by
  unfold getAmount World.amount
  rw [acct_view]
  cases s.getStateObject addr <;> rfl

theorem getSideChainDepositBalance_eq (chainId : String) :
    s.getSideChainDepositBalance chainId addr =
      sideChainDeposit (s.view.acct addr).data.sideChainDepositBalance chainId := by
  unfold getSideChainDepositBalance
  rw [acct_view]
  cases s.getStateObject addr <;> rfl

theorem getNonce_eq : s.getNonce addr = (s.view.acct addr).data.nonce := by
  unfold getNonce
  rw [acct_view]
  cases s.getStateObject addr <;> rfl

theorem getByUser_eq (field : EntryField) (user : Address) :
    s.getByUser field addr user = (s.view.entry addr user).get field := by
  unfold getByUser World.entry
  rw [acct_view]
  cases s.getStateObject addr with
  | some o => exact congrArg (fun e => (Option.getD e .new).get field) (o.getElem?_entries user).symm
  | none => cases field <;> rfl

theorem proxiedKeys_eq : s.proxiedKeys addr = (s.view.acct addr).data.proxiedTrie.keys := by
  unfold proxiedKeys
  rw [acct_view]
  cases s.getStateObject addr with
  | some o => rfl
  | none => simp [Acct.new, Account.new, Account.proxiedTrie]

theorem getRewardBalanceByDelegateAddress_eq (deleAddress : Address) :
    s.getRewardBalanceByDelegateAddress addr deleAddress =
      ((s.view.acct addr).rewards[deleAddress]?).getD 0 := by
  unfold getRewardBalanceByDelegateAddress
  rw [acct_view]
  cases s.getStateObject addr with
  | some o => exact congrArg (fun e => Option.getD e 0) (o.getElem?_rewards deleAddress).symm
  | none => simp [Acct.new]

theorem isCandidate_eq : s.isCandidate addr = (s.view.acct addr).data.candidate := by
  unfold isCandidate
  rw [acct_view]
  cases s.getStateObject addr <;> rfl

theorem isCleanAddress_eq : s.isCleanAddress addr =
    (s.view.accounts addr).all fun a => !a.data.candidate && a.data.isEmptyTrie := by
  unfold isCleanAddress
  rw [accounts_view]
  cases s.getStateObject addr <;> rfl

theorem getPubkey_eq : s.getPubkey addr = (s.view.acct addr).data.pubkey := by
  unfold getPubkey
  rw [acct_view]
  cases s.getStateObject addr <;> rfl

theorem getCommission_eq : s.getCommission addr = (s.view.acct addr).data.commission := by
  unfold getCommission
  rw [acct_view]
  cases s.getStateObject addr <;> rfl

theorem hasTX_eq (kind : TxKind) (txHash : TxHash) : s.hasTX kind addr txHash =
    (((s.view.acct addr).dirtyTX kind).contains txHash ||
      ((s.view.acct addr).data.txTrie kind)[txHash]? == some txHash) := by
  unfold hasTX
  rw [acct_view]
  cases s.getStateObject addr with
  | some o => rfl
  | none => simp [Acct.new, Account.new, Account.txTrie]

end StateDB

open StateDB in
/-- **The operations agree on a state and on what it says.** -/
theorem Op.run_agree ⦃β : Type⦄ (o : Op β) (s : StateDB) (w : World) (h : s.Refines w)
    (hmarked : o.Marked s) : Prog.Agree Refines (o.run s) (o.denote w) := by
  have query : ∀ {α : Type} {a b : α}, a = b → Prog.Agree Refines
      (.ok (a, s) : Go (α × StateDB)) (.ok (b, w)) := by
    rintro α a _ rfl
    exact .ok a h
  have hwf := h.wf
  obtain rfl := h.view
  cases o with
  | exist addr => exact query (s.exist_eq addr)
  | empty addr => exact query (s.empty_eq addr)
  | getAmount field addr => exact query (s.getAmount_eq addr field)
  | addAmount field addr amount => exact .ok () (h.addAmount field addr amount)
  | subAmount field addr amount => exact .ok () (h.subAmount field addr amount)
  | setAmount field addr amount =>
    exact .ok () (h.write addr (f := .amount field amount) trivial (.inl rfl)).refines
  | addAvailableRewardBalance addr amount =>
    refine .ok () (h.whereExists addr (fun o ho => ?_) fun hnone => ?_)
    · simp only [StateDB.addAvailableRewardBalance, ho]
      exact h.addAmount .availableRewardBalance addr amount
    · simp only [StateDB.addAvailableRewardBalance, hnone]
  | subAvailableRewardBalance addr amount =>
    refine .ok () (h.whereExists addr (fun o ho => ?_) fun hnone => ?_)
    · simp only [StateDB.subAvailableRewardBalance, ho]
      exact h.subAmount .availableRewardBalance addr amount
    · simp only [StateDB.subAvailableRewardBalance, hnone]
  | getSideChainDepositBalance chainId addr =>
    exact query (s.getSideChainDepositBalance_eq addr chainId)
  | setSideChainDepositBalance addr chainId amount =>
    exact .ok () (h.write addr (f := .sideChainDepositBalance chainId amount) trivial
      (.inl rfl)).refines
  | addSideChainDepositBalance addr chainId amount =>
    refine .ok () ?_
    rw [h.acct_data]
    unfold StateDB.addSideChainDepositBalance
    simp only
    split_ifs
    · exact (h.opened addr).touch.refines
    · exact (h.opened addr).refines
    · exact (h.write addr (f := .sideChainDepositBalance chainId _) trivial (.inl rfl)).refines
  | subSideChainDepositBalance addr chainId amount =>
    refine .ok () ?_
    rw [h.acct_data]
    unfold StateDB.subSideChainDepositBalance
    simp only
    split_ifs
    · exact (h.opened addr).refines
    · exact (h.write addr (f := .sideChainDepositBalance chainId _) trivial (.inl rfl)).refines
  | getNonce addr => exact query (s.getNonce_eq addr)
  | setNonce addr nonce =>
    exact .ok () (h.write addr (f := .nonce nonce) trivial (.inl rfl)).refines
  | getByUser field addr user => exact query (s.getByUser_eq addr field user)
  | addByUser field addr user amount => exact .ok () (h.addByUser field addr user amount)
  | subByUser field addr user amount => exact .ok () (h.subByUser field addr user amount)
  | proxiedKeys addr => exact query (s.proxiedKeys_eq addr)
  | proxiedValue addr key =>
    simp only [Op.run, Op.denote]
    rw [hwf.proxiedValue]
    split_ifs
    · exact .ok _ h
    · exact .error _
  | getRewardBalanceByDelegateAddress addr deleAddress =>
    exact query (s.getRewardBalanceByDelegateAddress_eq addr deleAddress)
  | addRewardBalanceByDelegateAddress addr deleAddress amount =>
    refine .ok () ?_
    rw [h.acct_rewards]
    exact ((h.write addr (f := .delegateRewardBalance deleAddress (some _))
      (Option.some_ne_none _) (.inl rfl)).addObjectAmount .rewardBalance amount).refines
  | subRewardBalanceByDelegateAddress addr deleAddress amount =>
    simp only [Op.run, Op.denote]
    rw [h.acct_rewards]
    unfold StateDB.subRewardBalanceByDelegateAddress
    simp only
    cases (s.getOrNewStateObject addr).1.getDelegateRewardBalance deleAddress with
    | none => exact .error _
    | some reward =>
      exact .ok () ((h.write addr (f := .delegateRewardBalance deleAddress (some _))
        (Option.some_ne_none _) (.inl rfl)).subObjectAmount .rewardBalance amount).refines
  | isCandidate addr => exact query (s.isCandidate_eq addr)
  | isCleanAddress addr => exact query (s.isCleanAddress_eq addr)
  | getPubkey addr => exact query (s.getPubkey_eq addr)
  | getCommission addr => exact query (s.getCommission_eq addr)
  | getBanned addr =>
    simp only [Op.run, Op.denote]
    rw [h.acct_data]
    exact .ok _ (h.opened addr).refines
  | setBanned addr banned =>
    exact .ok () (h.write addr (f := .banned banned) trivial (.inl rfl)).refines
  | setCommission addr commission =>
    exact .ok () (h.write addr (f := .commission commission) trivial (.inl rfl)).refines
  | applyForCandidate addr pubkey commission =>
    have hopened := (h.write addr (f := .candidate true) trivial (.inl rfl)).writeField
      (f := .commission commission) trivial (.inl rfl)
    exact .ok () (hopened.writeField (f := .pubkey pubkey) trivial (.inl rfl)).refines
  | cancelCandidate addr allRefund =>
    have hopened := (h.write addr (f := .candidate false) trivial (.inl rfl)).writeField
      (f := .pubkey []) trivial (.inl rfl)
    cases allRefund with
    | true => exact .ok () (hopened.writeField (f := .commission 0) trivial (.inl rfl)).refines
    | false => exact .ok () hopened.refines
  | hasTX kind addr txHash => exact query (s.hasTX_eq addr kind txHash)
  | addTX kind addr txHash =>
    exact .ok () (h.write addr (f := .addTX kind txHash) trivial (.inr hmarked)).refines
  | getSet kind => exact .ok _ (h.updateSet kind AddressSet.load)
  | markSet kind addr =>
    refine .ok () ?_
    rw [markSet_eq]
    exact h.updateSet kind fun set => set.mark addr
  | clearSetByAddress kind addr => exact .ok () (h.updateSet kind fun set => set.clear addr)
  | clearDelegateRefundSet => exact .ok () (h.updateSet .delegateRefund fun _ => ⟨none, ∅, false⟩)
  | getSideChainRewardPerBlock => exact .ok _ h
  | setSideChainRewardPerBlock rewardPerBlock =>
    exact .ok () ⟨⟨hwf.stored, hwf.objects, hwf.dirty, hwf.clean, hwf.deleted⟩, rfl⟩

/-- **Programs agree on a state and on what it says**, if their cross-chain transactions go to
dirty accounts. -/
theorem run_refines {ε α : Type} (p : Prog Op ε α) {s : StateDB} {w : World} (h : s.Refines w)
    (hsafe : p.Safe Op.run Op.Marked s) :
    Prog.Agree StateDB.Refines (p.run Op.run s) (p.run Op.denote w) :=
  Prog.run_agree Op.run_agree p h hsafe

/-! ## The tries of an abstract state

No operation changes the trie of an account: a write goes to the entries, and `Finalise`
takes them to the trie. -/

namespace World

variable (w : World)

@[simp] theorem proxiedTrie_write (addr a : Address) (f : FieldWrite) :
    ((w.write addr f).acct a).data.proxiedTrie = (w.acct a).data.proxiedTrie := by
  rw [write, acct_put]
  split_ifs with ha
  · subst ha
    cases f <;> rfl
  · rfl

@[simp] theorem proxiedTrie_ensure (addr a : Address) :
    ((w.ensure addr).acct a).data.proxiedTrie = (w.acct a).data.proxiedTrie := by
  rw [acct_ensure]

@[simp] theorem proxiedTrie_addAmount (field : AmountField) (addr a : Address) (amount : ℤ) :
    ((w.addAmount field addr amount).acct a).data.proxiedTrie =
      (w.acct a).data.proxiedTrie := by
  unfold addAmount
  split_ifs <;> simp

@[simp] theorem proxiedTrie_subAmount (field : AmountField) (addr a : Address) (amount : ℤ) :
    ((w.subAmount field addr amount).acct a).data.proxiedTrie =
      (w.acct a).data.proxiedTrie := by
  unfold subAmount
  split_ifs <;> simp

@[simp] theorem proxiedTrie_updateSet (kind : SetKind) (f : AddressSet → AddressSet)
    (a : Address) :
    ((w.updateSet kind f).acct a).data.proxiedTrie = (w.acct a).data.proxiedTrie := rfl

end World

/-- **Operations keep the tries.** -/
theorem Op.denote_proxiedTrie {β : Type} {o : Op β} {w : World} {r : β × World}
    (h : Op.denote o w = .ok r) (a : Address) :
    (r.2.acct a).data.proxiedTrie = (w.acct a).data.proxiedTrie := by
  cases o with
  | proxiedValue addr key =>
    simp only [Op.denote] at h
    split_ifs at h
    cases h
    rfl
  | subRewardBalanceByDelegateAddress addr deleAddress amount =>
    simp only [Op.denote] at h
    split at h
    · simp at h
    · cases h
      simp
  | addAvailableRewardBalance addr amount
  | subAvailableRewardBalance addr amount =>
    cases h
    simp only [World.whereExists]
    split <;> simp
  | addSideChainDepositBalance addr chainId amount
  | subSideChainDepositBalance addr chainId amount =>
    cases h
    simp only
    split_ifs <;> simp
  | cancelCandidate addr allRefund =>
    cases h
    simp only
    split_ifs <;> simp
  | addByUser field addr user amount =>
    cases h
    simp [World.addByUser, World.changeEntry]
  | subByUser field addr user amount =>
    cases h
    simp [World.subByUser, World.changeEntry]
  | setSideChainRewardPerBlock rewardPerBlock =>
    cases h
    rfl
  | _ =>
    cases h
    simp

end State
end LigoChain
