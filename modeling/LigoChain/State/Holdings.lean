/-
# What an account has of value

`Finalise(true)`, `Commit(true)` and `CreateAccount` (`chain/core/state/statedb.go`) against the
amounts, deposits, records, rewards and flags of the accounts.  `empty` does not look at
rewards, records or flags, and an account that is empty and marked dirty is deleted with them;
`CreateAccount` carries over the balance and nothing else.

The loops of `Finalise` and `Commit` either delete an object or write its tries, which changes
no read (`Processed`), and leave the others alone.  **Each call keeps what every account has
exactly if no account that it deletes, or makes anew, has something to lose**
(`keepsValue_iff`).
-/

import LigoChain.State.Sessions
import Mathlib.Algebra.BigOperators.Finprod

namespace LigoChain

namespace State

/-- The amounts that are balances, and not times. -/
def AmountField.isBalance : AmountField → Bool
  | .blockTime | .bannedTime => false
  | _ => true

/-- The object has nothing of value, but for some amounts. -/
structure StateObject.HasOnly (fields : AmountField → Prop) (o : StateObject) : Prop where
  amounts : ∀ f, f.isBalance = true → ¬ fields f → o.data.amounts f = 0
  deposits : ∀ chainId, sideChainDeposit o.data.sideChainDepositBalance chainId = 0
  entries : ∀ f user, ((o.getAccountProxiedBalance user).getD .new).get f = 0
  rewards : ∀ deleAddress, (o.getDelegateRewardBalance deleAddress).getD 0 = 0
  candidate : o.data.candidate = false
  commission : o.data.commission = 0
  pubkey : o.data.pubkey = []

namespace StateDB

variable {u : StateDB} {o : StateObject}

/-- The account has in `t` what it has in `s`. -/
structure SameHolding (s t : StateDB) (addr : Address) : Prop where
  amounts : ∀ f : AmountField, f.isBalance = true → t.getAmount f addr = s.getAmount f addr
  deposits : ∀ chainId,
    t.getSideChainDepositBalance chainId addr = s.getSideChainDepositBalance chainId addr
  entries : ∀ f user, t.getByUser f addr user = s.getByUser f addr user
  rewards : ∀ deleAddress, t.getRewardBalanceByDelegateAddress addr deleAddress =
    s.getRewardBalanceByDelegateAddress addr deleAddress
  candidate : t.isCandidate addr = s.isCandidate addr
  commission : t.getCommission addr = s.getCommission addr
  pubkey : t.getPubkey addr = s.getPubkey addr

/-- Every account has in `t` what it has in `s`, and so the sums over all accounts are the same. -/
structure KeepsValue (s t : StateDB) : Prop where
  holding : ∀ addr, SameHolding s t addr
  total : ∀ f : AmountField, f.isBalance = true →
    (∑ᶠ addr, t.getAmount f addr) = ∑ᶠ addr, s.getAmount f addr

variable {s t : StateDB} {addr : Address}

theorem keepsValue_iff_holding : KeepsValue s t ↔ ∀ addr, SameHolding s t addr :=
  ⟨KeepsValue.holding, fun h => ⟨h, fun f hf => finsum_congr fun addr => (h addr).amounts f hf⟩⟩

/-! ## Objects in place of others -/

theorem SameHolding.of_eq (h : t.getStateObject addr = s.getStateObject addr) :
    SameHolding s t addr := by
  constructor <;> intros <;>
    simp only [getAmount, getSideChainDepositBalance, getByUser, getRewardBalanceByDelegateAddress,
      isCandidate, getCommission, getPubkey, h]

theorem sameHolding_gone_iff (ho : s.getStateObject addr = some o)
    (hgone : t.getStateObject addr = none) : SameHolding s t addr ↔ o.HasOnly fun _ => False := by
  constructor
  · rintro ⟨h1, h2, h3, h4, h5, h6, h7⟩
    simp only [getAmount, getSideChainDepositBalance, getByUser, getRewardBalanceByDelegateAddress,
      isCandidate, getCommission, getPubkey, ho, hgone] at h1 h2 h3 h4 h5 h6 h7
    exact ⟨fun f hf _ => (h1 f hf).symm, fun c => (h2 c).symm, fun f u => (h3 f u).symm,
      fun d => (h4 d).symm, h5.symm, h6.symm, h7.symm⟩
  · rintro ⟨h1, h2, h3, h4, h5, h6, h7⟩
    constructor <;> intros <;>
      simp only [getAmount, getSideChainDepositBalance, getByUser,
        getRewardBalanceByDelegateAddress, isCandidate, getCommission, getPubkey, ho, hgone, h2, h3,
        h4, h5, h6, h7]
    next f hf => exact (h1 f hf not_false).symm

/-- A new object, with a balance. -/
structure Fresh (balance : ℤ) (o : StateObject) : Prop where
  amounts : ∀ f, o.data.amounts f = if f = .balance then balance else 0
  deposits : o.data.sideChainDepositBalance = []
  entries : ∀ user, o.getAccountProxiedBalance user = none
  rewards : ∀ deleAddress, o.getDelegateRewardBalance deleAddress = none
  candidate : o.data.candidate = false
  commission : o.data.commission = 0
  pubkey : o.data.pubkey = []
  deleted : o.deleted = false

theorem fresh_newObject : Fresh 0 { StateObject.newObject .new with onDirty := false } where
  amounts := fun f => by simp [StateObject.newObject, Account.new]
  deposits := rfl
  entries := fun user => by
    simp [StateObject.getAccountProxiedBalance, StateObject.newObject, Cache.get, Cache.empty,
      Account.new, Account.proxiedTrie]
  rewards := fun deleAddress => by
    simp [StateObject.getDelegateRewardBalance, StateObject.newObject, Cache.get, Cache.empty,
      Account.new, Account.rewardTrie]
  candidate := rfl
  commission := rfl
  pubkey := rfl
  deleted := rfl

theorem Fresh.setBalance (h : Fresh 0 o) (balance : ℤ) :
    Fresh balance (o.set (.amount .balance balance)) where
  amounts := fun f => by
    refine (Function.update_apply ..).trans ?_
    split_ifs with hf
    · rfl
    · rw [h.amounts, if_neg hf]
  deposits := h.deposits
  entries := h.entries
  rewards := h.rewards
  candidate := h.candidate
  commission := h.commission
  pubkey := h.pubkey
  deleted := h.deleted

/-- The account is new, with the balance that it had. -/
theorem sameHolding_fresh_iff {o' : StateObject} (hnew : t.getStateObject addr = some o')
    (hfresh : Fresh (s.getAmount .balance addr) o') :
    SameHolding s t addr ↔
      ∀ o, s.getStateObject addr = some o → o.HasOnly (· = .balance) := by
  have hzero : ∀ chainId, sideChainDeposit [] chainId = 0 := fun _ => rfl
  have hamounts := hfresh.amounts
  cases ho : s.getStateObject addr with
  | none =>
    refine iff_of_true ?_ fun o h => by cases h
    simp only [getAmount, ho] at hamounts
    constructor <;> intros <;>
      simp only [getAmount, getSideChainDepositBalance, getByUser,
        getRewardBalanceByDelegateAddress, isCandidate, getCommission, getPubkey, ho, hnew, hamounts,
        hfresh.entries, hfresh.rewards, hfresh.deposits, hfresh.candidate, hfresh.commission,
        hfresh.pubkey, hzero, Option.getD_none, AccountProxiedBalance.get_new, ite_self]
  | some o =>
    simp only [getAmount, ho] at hamounts
    have hone : (∀ o', some o = some o' → o'.HasOnly (· = .balance)) ↔ o.HasOnly (· = .balance) :=
      ⟨fun h => h o rfl, fun h o' ho' => Option.some.inj ho' ▸ h⟩
    rw [hone]
    constructor
    · rintro ⟨h1, h2, h3, h4, h5, h6, h7⟩
      simp only [getAmount, getSideChainDepositBalance, getByUser,
        getRewardBalanceByDelegateAddress, isCandidate, getCommission, getPubkey, ho, hnew, hamounts,
        hfresh.entries, hfresh.rewards, hfresh.deposits, hfresh.candidate, hfresh.commission,
        hfresh.pubkey, hzero, Option.getD_none,
        AccountProxiedBalance.get_new] at h1 h2 h3 h4 h5 h6 h7
      refine ⟨fun f hf hne => ?_, fun c => (h2 c).symm, fun f u => (h3 f u).symm,
        fun d => (h4 d).symm, h5.symm, h6.symm, h7.symm⟩
      have hamount := h1 f hf
      rw [if_neg hne] at hamount
      exact hamount.symm
    · rintro ⟨h1, h2, h3, h4, h5, h6, h7⟩
      constructor <;> intros <;>
        simp only [getAmount, getSideChainDepositBalance, getByUser,
          getRewardBalanceByDelegateAddress, isCandidate, getCommission, getPubkey, ho, hnew,
          hamounts, hfresh.entries, hfresh.rewards, hfresh.deposits, hfresh.candidate,
          hfresh.commission, hfresh.pubkey, hzero, Option.getD_none, AccountProxiedBalance.get_new,
          h2, h3, h4, h5, h6, h7]
      next f hf =>
        split_ifs with hbalance
        · rw [hbalance]
        · exact (h1 f hf hbalance).symm

/-- The object reads as another one. -/
structure ReadsAs (o' o : StateObject) : Prop where
  amounts : o'.data.amounts = o.data.amounts
  deposits : o'.data.sideChainDepositBalance = o.data.sideChainDepositBalance
  entries : ∀ user, o'.getAccountProxiedBalance user = o.getAccountProxiedBalance user
  rewards : ∀ d, o'.getDelegateRewardBalance d = o.getDelegateRewardBalance d
  candidate : o'.data.candidate = o.data.candidate
  commission : o'.data.commission = o.data.commission
  pubkey : o'.data.pubkey = o.data.pubkey
  deleted : o'.deleted = o.deleted

theorem readsAs_updateRoots {o o' : StateObject} (h : o.updateRoots = some o') : ReadsAs o' o := by
  unfold StateObject.updateRoots at h
  split at h
  next proxied proxiedTrie reward rewardTrie hproxied hreward =>
    cases h
    exact ⟨rfl, rfl, Cache.get_flush hproxied, Cache.get_flush hreward, rfl, rfl, rfl, rfl⟩
  next => cases h

theorem SameHolding.of_readsAs {o o' : StateObject} (h : ReadsAs o' o)
    (ho : s.getStateObject addr = some o) (ho' : t.getStateObject addr = some o') :
    SameHolding s t addr := by
  constructor <;> intros <;>
    simp only [getAmount, getSideChainDepositBalance, getByUser, getRewardBalanceByDelegateAddress,
      isCandidate, getCommission, getPubkey, ho, ho', h.amounts, h.deposits, h.entries, h.rewards,
      h.candidate, h.commission, h.pubkey]

/-! ## The loops of `Finalise` and `Commit` -/

/-- What the loops do to an object that is marked dirty. -/
inductive Processed (s s' : StateDB) (addr : Address) : Prop
  | deleted {o : StateObject} (ho : s.stateObjects[addr]? = some o) (hempty : o.empty = true)
      (ho' : s'.stateObjects[addr]? = some { o with deleted := true })
  | written {o o' : StateObject} (ho : s.stateObjects[addr]? = some o) (hempty : o.empty = false)
      (hroots : o.updateRoots = some o') (ho' : s'.stateObjects[addr]? = some o')

/-- The account is left alone. -/
structure Untouched (s s' : StateDB) (addr : Address) : Prop where
  object : s'.stateObjects[addr]? = s.stateObjects[addr]?
  trie : s'.trie[addr]? = s.trie[addr]?

theorem Untouched.trans (h : Untouched s t addr) (h' : Untouched t u addr) : Untouched s u addr :=
  ⟨h'.object.trans h.object, h'.trie.trans h.trie⟩

theorem Processed.after (h : Untouched s t addr) (h' : Processed t u addr) : Processed s u addr := by
  cases h' with
  | deleted ho hempty ho' => exact .deleted (h.object ▸ ho) hempty ho'
  | written ho hempty hroots ho' => exact .written (h.object ▸ ho) hempty hroots ho'

theorem Processed.before (h : Processed s t addr) (h' : Untouched t u addr) : Processed s u addr := by
  cases h with
  | deleted ho hempty ho' => exact .deleted ho hempty (h'.object.trans ho')
  | written ho hempty hroots ho' => exact .written ho hempty hroots (h'.object.trans ho')

theorem finaliseObject_processed (h : s.finaliseObject addr = .ok t) :
    Processed s t addr ∧ (∀ a, a ≠ addr → Untouched s t a) ∧
      t.stateObjectsDirty = s.stateObjectsDirty := by
  unfold finaliseObject at h
  split at h
  next => cases h
  next o ho =>
    split at h
    next hempty =>
      cases h
      refine ⟨.deleted ho hempty Std.ExtTreeMap.getElem?_insert_self, fun a ha => ?_, rfl⟩
      exact ⟨by simp only [FinMap.getElem?_insert_ite, if_neg ha],
        by simp only [FinMap.getElem?_erase_ite, if_neg ha]⟩
    next hempty =>
      split at h
      next => cases h
      next o' hroots =>
        split at h
        next =>
          cases h
          refine ⟨.written ho (Bool.eq_false_iff.2 hempty) hroots
            Std.ExtTreeMap.getElem?_insert_self, fun a ha => ?_, rfl⟩
          exact ⟨by simp only [FinMap.getElem?_insert_ite, if_neg ha],
            by simp only [FinMap.getElem?_insert_ite, if_neg ha]⟩
        next => cases h

/-- One round of a loop over accounts, of which it is to process some. -/
structure Round (P : Address → Prop) (s t : StateDB) (addr : Address) : Prop where
  processed : P addr → Processed s t addr
  skipped : ¬ P addr → Untouched s t addr
  others : ∀ a, a ≠ addr → Untouched s t a ∧ (a ∈ t.stateObjectsDirty ↔ a ∈ s.stateObjectsDirty)

/-- **A loop processes each of its accounts once.** -/
theorem foldlM_processed {step : StateDB → Address → Go StateDB} {P : Address → Prop}
    (hstep : ∀ s addr t, step s addr = .ok t → (addr ∈ s.stateObjectsDirty ↔ P addr) →
      Round P s t addr) {l : List Address} (hnodup : l.Nodup)
    (hP : ∀ addr ∈ l, addr ∈ s.stateObjectsDirty ↔ P addr) (hrun : l.foldlM step s = .ok t)
    (addr : Address) :
    (addr ∈ l → P addr → Processed s t addr) ∧ (addr ∉ l ∨ ¬ P addr → Untouched s t addr) := by
  induction l generalizing s with
  | nil =>
    cases hrun
    exact ⟨fun h => absurd h List.not_mem_nil, fun _ => ⟨rfl, rfl⟩⟩
  | cons a l ih =>
    obtain ⟨u, hfirst, hrest⟩ := Steps.foldlM_cons_eq_ok.1 hrun
    obtain ⟨hnew, hnodup⟩ := List.nodup_cons.1 hnodup
    have hround := hstep s a u hfirst (hP a List.mem_cons_self)
    obtain ⟨hlater, huntouched⟩ := ih hnodup (fun b hb => by
      rw [(hround.others b fun heq => hnew (heq ▸ hb)).2]
      exact hP b (List.mem_cons_of_mem _ hb)) hrest
    by_cases haddr : addr = a
    · subst haddr
      have hsame := huntouched (.inl hnew)
      exact ⟨fun _ hPa => (hround.processed hPa).before hsame, fun h =>
        (hround.skipped (h.resolve_left fun h => h List.mem_cons_self)).trans hsame⟩
    · have hother := (hround.others addr haddr).1
      refine ⟨fun h hPa => (hlater ?_ hPa).after hother, fun h => hother.trans (huntouched ?_)⟩
      · exact (List.mem_cons.1 h).resolve_left haddr
      · exact h.imp_left (mt (List.mem_cons_of_mem _))

/-- What `Finalise` and `Commit` do to each account. -/
structure Settling (s t : StateDB) : Prop where
  marked : ∀ addr ∈ s.stateObjectsDirty, ∀ o, s.stateObjects[addr]? = some o → Processed s t addr
  others : ∀ addr : Address, addr ∉ s.stateObjectsDirty ∨ s.stateObjects[addr]? = none →
    Untouched s t addr

theorem settling_of_eq (h : Settling s t) (hobjects : u.stateObjects = t.stateObjects)
    (htrie : u.trie = t.trie) : Settling s u := by
  refine ⟨fun addr haddr o ho => (h.marked addr haddr o ho).before ?_,
    fun addr haddr => (h.others addr haddr).trans ?_⟩ <;>
  exact ⟨by rw [hobjects], by rw [htrie]⟩

theorem commitSets_accounts (h : s.commitSets = .ok t) :
    t.stateObjects = s.stateObjects ∧ t.trie = s.trie := by
  rw [commitSets_eq] at h
  split at h
  · cases h
    exact ⟨rfl, rfl⟩
  · cases h

theorem settling_finalise (h : s.finalise = .ok t) : Settling s t := by
  obtain ⟨u, hloop, hrest⟩ := Steps.bind_eq_ok.1 h
  obtain ⟨v, hsets, hlast⟩ := Steps.bind_eq_ok.1 hrest
  cases hlast
  obtain ⟨hobjects, htrie⟩ := commitSets_accounts hsets
  have hloop' := foldlM_processed (P := fun _ => True) (fun s addr t ht _ => by
    obtain ⟨hprocessed, hothers, hdirty⟩ := finaliseObject_processed ht
    exact ⟨fun _ => hprocessed, fun h => absurd trivial h,
      fun a ha => ⟨hothers a ha, by rw [hdirty]⟩⟩) (FinSet.nodup_toList _)
    (fun addr haddr => iff_of_true (Std.ExtTreeSet.mem_toList.1 haddr) trivial) hloop
  refine settling_of_eq (t := u) ⟨fun addr haddr o _ =>
    (hloop' addr).1 (Std.ExtTreeSet.mem_toList.2 haddr) trivial, fun addr haddr => ?_⟩ hobjects htrie
  by_cases hmem : addr ∈ s.stateObjectsDirty
  · -- a marked account without an object ends the loop with a panic
    have hnone := haddr.resolve_left fun h => h hmem
    cases (hloop' addr).1 (Std.ExtTreeSet.mem_toList.2 hmem) trivial with
    | deleted ho => cases hnone.symm.trans ho
    | written ho => cases hnone.symm.trans ho
  · exact (hloop' addr).2 (.inl (mt Std.ExtTreeSet.mem_toList.1 hmem))

theorem settling_commit {r : Root × StateDB} (h : s.commit = .ok r) : Settling s r.2 := by
  obtain ⟨u, hloop, hrest⟩ := Steps.bind_eq_ok.1 h
  obtain ⟨v, hsets, hlast⟩ := Steps.bind_eq_ok.1 hrest
  cases hlast
  obtain ⟨hobjects, htrie⟩ := commitSets_accounts hsets
  have hloop' := foldlM_processed (P := fun addr => addr ∈ s.stateObjectsDirty)
    (fun s' addr t ht hP => by
      unfold commitObject at ht
      split at ht
      next hdirty =>
        obtain ⟨u, hu, hlast⟩ := Steps.bind_eq_ok.1 ht
        cases hlast
        obtain ⟨hprocessed, hothers, hsame⟩ := finaliseObject_processed hu
        refine ⟨fun _ => hprocessed.before ⟨rfl, rfl⟩, fun h => absurd
          (hP.1 (Std.ExtTreeSet.contains_iff_mem.1 hdirty)) h, fun a ha =>
          ⟨(hothers a ha).trans ⟨rfl, rfl⟩, ?_⟩⟩
        simp only [Std.ExtTreeSet.mem_erase, ne_eq, Std.compare_eq_iff_eq, hsame]
        exact and_iff_right (Ne.symm ha)
      next hclean =>
        cases ht
        exact ⟨fun h => absurd (Std.ExtTreeSet.contains_iff_mem.2 (hP.2 h)) hclean,
          fun _ => ⟨rfl, rfl⟩, fun a ha => ⟨⟨rfl, rfl⟩, Iff.rfl⟩⟩)
    Std.ExtTreeMap.nodup_keys (fun addr _ => Iff.rfl) hloop
  refine settling_of_eq (t := u) ⟨fun addr haddr o ho => (hloop' addr).1 ?_ haddr,
    fun addr haddr => (hloop' addr).2 ?_⟩ hobjects htrie
  · rw [Std.ExtTreeMap.mem_keys, Std.ExtTreeMap.mem_iff_isSome_getElem?, ho]
    rfl
  · refine haddr.symm.imp_left fun hnone hmem => ?_
    rw [Std.ExtTreeMap.mem_keys, Std.ExtTreeMap.mem_iff_isSome_getElem?, hnone] at hmem
    cases hmem

/-- No account that `Finalise` or `Commit` deletes has something of value. -/
def NothingToLose (s : StateDB) : Prop :=
  ∀ addr ∈ s.stateObjectsDirty, ∀ o, s.stateObjects[addr]? = some o → o.deleted = false →
    o.empty = true → o.HasOnly fun _ => False

theorem getStateObject_of_object (ho : s.stateObjects[addr]? = some o) :
    s.getStateObject addr = if o.deleted then none else some o := by
  unfold StateDB.getStateObject
  rw [ho]

/-- **What is deleted is lost, and nothing else.** -/
theorem Settling.keeps_iff (h : Settling s t) : KeepsValue s t ↔ s.NothingToLose := by
  rw [keepsValue_iff_holding]
  constructor
  · intro hkeeps addr haddr o ho hlive hempty
    cases h.marked addr haddr o ho with
    | deleted hp _ hp' =>
      obtain rfl := Option.some.inj (ho.symm.trans hp)
      refine (sameHolding_gone_iff ?_ ?_).1 (hkeeps addr)
      · rw [getStateObject_of_object ho, hlive]
        rfl
      · rw [getStateObject_of_object hp']
        rfl
    | written hp hnot =>
      obtain rfl := Option.some.inj (ho.symm.trans hp)
      rw [hempty] at hnot
      cases hnot
  · intro hnothing addr
    by_cases hmarked : addr ∈ s.stateObjectsDirty ∧ s.stateObjects[addr]? ≠ none
    · obtain ⟨haddr, hobject⟩ := hmarked
      obtain ⟨o, ho⟩ := Option.ne_none_iff_exists'.1 hobject
      cases h.marked addr haddr o ho with
      | deleted hp hempty hp' =>
        obtain rfl := Option.some.inj (ho.symm.trans hp)
        have hgone : t.getStateObject addr = none := by
          rw [getStateObject_of_object hp']
          rfl
        cases hlive : o.deleted with
        | true =>
          refine .of_eq ?_
          rw [hgone, getStateObject_of_object ho, hlive]
          rfl
        | false =>
          refine (sameHolding_gone_iff ?_ hgone).2 (hnothing addr haddr o ho hlive hempty)
          rw [getStateObject_of_object ho, hlive]
          rfl
      | @written p p' hp hempty hroots hp' =>
        obtain rfl := Option.some.inj (ho.symm.trans hp)
        have hreads := readsAs_updateRoots hroots
        have hbefore := getStateObject_of_object ho
        have hafter := getStateObject_of_object hp'
        rw [hreads.deleted] at hafter
        cases hlive : o.deleted with
        | true =>
          rw [hlive] at hbefore hafter
          exact .of_eq (hafter.trans hbefore.symm)
        | false =>
          rw [hlive] at hbefore hafter
          exact .of_readsAs hreads hbefore hafter
    · have hother := h.others addr (by
        by_contra hnot
        exact hmarked (not_or.1 hnot |>.imp_left not_not.1))
      refine .of_eq ?_
      unfold StateDB.getStateObject
      rw [hother.object, hother.trie]

theorem getStateObject_insert (hdeleted : o.deleted = false) (dirty : FinSet Address)
    (journal : List JournalEntry) (a : Address) :
    StateDB.getStateObject { s with
      stateObjects := s.stateObjects.insert addr o
      stateObjectsDirty := dirty
      journal := journal } a = if a = addr then some o else s.getStateObject a := by
  unfold StateDB.getStateObject
  simp only [FinMap.getElem?_insert_ite]
  split_ifs with ha
  · simp [hdeleted]
  · rfl

/-- The objects after `CreateAccount`. -/
theorem getStateObject_createAccount (s : StateDB) (addr : Address) :
    ∃ o, Fresh (s.getAmount .balance addr) o ∧
      ∀ a, (s.createAccount addr).getStateObject a =
        if a = addr then some o else s.getStateObject a := by
  unfold createAccount getAmount
  cases hprev : s.getStateObject addr with
  | none =>
    exact ⟨{ StateObject.newObject .new with onDirty := false }, fresh_newObject,
      getStateObject_insert rfl _ _⟩
  | some prev =>
    have hfresh := fresh_newObject.setBalance (prev.data.amounts .balance)
    exact ⟨_, hfresh, getStateObject_insert hfresh.deleted _ _⟩

/-- **What `CreateAccount` keeps.** -/
theorem createAccount_keepsValue_iff (s : StateDB) (addr : Address) :
    KeepsValue s (s.createAccount addr) ↔
      ∀ o, s.getStateObject addr = some o → o.HasOnly (· = .balance) := by
  obtain ⟨o, hfresh, hget⟩ := getStateObject_createAccount s addr
  have hnew : (s.createAccount addr).getStateObject addr = some o := by
    rw [hget, if_pos rfl]
  rw [keepsValue_iff_holding, ← sameHolding_fresh_iff hnew hfresh]
  refine ⟨fun h => h addr, fun h a => ?_⟩
  by_cases ha : a = addr
  · exact ha ▸ h
  · refine .of_eq ?_
    rw [hget, if_neg ha]

end StateDB

open StateDB in
/-- **When value is kept**: by `Finalise` and `Commit` if no account that is marked dirty and empty
has something of value, by `CreateAccount` if there is no account, or one with a balance only. -/
theorem keepsValue_iff (s : StateDB) :
    (∀ t, s.finalise = .ok t → (KeepsValue s t ↔ s.NothingToLose)) ∧
      (∀ r, s.commit = .ok r → (KeepsValue s r.2 ↔ s.NothingToLose)) ∧
      ∀ addr, KeepsValue s (s.createAccount addr) ↔
        ∀ o, s.getStateObject addr = some o → o.HasOnly (· = .balance) :=
  ⟨fun _ h => (settling_finalise h).keeps_iff, fun _ h => (settling_commit h).keeps_iff,
    s.createAccount_keepsValue_iff⟩

/-- **A reward is lost**: an account that has a reward and nothing else is deleted by `Finalise`
and by `Commit`, and made anew by `CreateAccount`. -/
theorem reward_lost :
    let s := (StateDB.new .empty).addRewardBalanceByDelegateAddress [1] [1] 5
    s.getAmount .rewardBalance [1] = 5 ∧
      Steps.holds s.finalise (fun t => t.getAmount .rewardBalance [1] == 0) = true ∧
      Steps.holds s.commit (fun r => r.2.getAmount .rewardBalance [1] == 0) = true ∧
      (s.createAccount [1]).getAmount .rewardBalance [1] = 0 := by
  decide +kernel

end State

end LigoChain
