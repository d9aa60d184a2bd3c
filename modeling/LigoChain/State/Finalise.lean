/-
# Finalising a state

`Finalise` goes through the dirty accounts of a state: an empty account is deleted, any other
is written to the trie with the roots of its own tries (`Acct.settled`).  It panics if an
account that is kept has a negative amount.

When no account of the trie is empty, an account that is not dirty is as `Finalise` would
leave it, so the outcome depends on what the state says and not on which accounts are marked
dirty (`StoredNonempty.finalise`); the root is then the same for states that say the same
(`intermediateRoot_eq_of_view`).
-/

import LigoChain.State.Api

namespace LigoChain
namespace State

namespace Acct

/-- The account as `Finalise` writes it. -/
def finalised (a : Acct) : Acct where
  data := { a.data with
    txRoot := fun kind =>
      some ((a.dirtyTX kind).toList.foldl StateObject.writeTX (a.data.txTrie kind))
    proxiedRoot := some (a.entries.filter fun _ v => v.keep)
    rewardRoot := some (a.rewards.filter fun _ v => keepReward v) }
  entries := a.entries
  rewards := a.rewards
  dirtyTX := fun _ => ∅

/-- What `Finalise` leaves of an account. -/
def settled (a : Acct) : Option Acct := if a.data.empty then none else some a.finalised

/-- The account is written: it has an encoding, or it is deleted. -/
def Encodable (a : Acct) : Prop := a.data.empty = false → a.data.encodable = true

variable {a : Acct}

@[simp] theorem empty_finalised : a.finalised.data.empty = a.data.empty := rfl

/-- An account whose tries have all that it says. -/
theorem finalised_eq_self (hproxied : a.data.proxiedRoot = some (a.entries.filter fun _ v => v.keep))
    (hreward : a.data.rewardRoot = some (a.rewards.filter fun _ v => keepReward v))
    (htx : ∀ kind, a.data.txRoot kind ≠ none) (hdirty : a.dirtyTX = fun _ => ∅) :
    a.finalised = a := by
  have hroot : (fun kind => some ((a.dirtyTX kind).toList.foldl StateObject.writeTX
      (a.data.txTrie kind))) = a.data.txRoot := funext fun kind => by
    obtain ⟨trie, htrie⟩ := Option.ne_none_iff_exists'.1 (htx kind)
    rw [hdirty, Account.txTrie, htrie]
    rfl
  refine Acct.ext ?_ rfl rfl hdirty.symm
  unfold finalised
  rw [hroot, ← hproxied, ← hreward]

@[simp] theorem finalised_finalised : a.finalised.finalised = a.finalised :=
  finalised_eq_self rfl rfl (fun _ => Option.some_ne_none _) rfl

theorem settled_bind_settled (x : Option Acct) :
    (x.bind settled).bind settled = x.bind settled := by
  cases x with
  | none => rfl
  | some a =>
    show (settled a).bind settled = settled a
    unfold settled
    split_ifs with hempty
    · rfl
    · show (if a.finalised.data.empty then none else some a.finalised.finalised) = _
      rw [empty_finalised, if_neg hempty, finalised_finalised]

theorem wf_finalised (h : a.data.encodable = true) : a.finalised.data.Wf where
  kept := fun k v hk => by
    have hfilter : (a.entries.filter fun _ v => v.keep)[k]? = some v := hk
    rw [Std.ExtTreeMap.getElem?_filter'] at hfilter
    exact (Option.filter_eq_some_iff.1 hfilter).2
  keptReward := fun k v hk => by
    have hfilter : (a.rewards.filter fun _ v => keepReward v)[k]? = some v := hk
    rw [Std.ExtTreeMap.getElem?_filter'] at hfilter
    exact (Option.filter_eq_some_iff.1 hfilter).2
  proxiedRoot := Option.some_ne_none _
  rewardRoot := Option.some_ne_none _
  txRoot := fun _ => Option.some_ne_none _
  encodable := h

end Acct

theorem StateObject.Wf.updateRoots {o : StateObject} (h : o.Wf) :
    ∃ o', o.updateRoots = some o' ∧ o'.Wf ∧ o'.view = o.view.finalised ∧
      o'.deleted = o.deleted ∧ o'.onDirty = o.onDirty := by
  obtain ⟨c, hflush, hcoherent, hdirty, hget⟩ := Cache.flush_eq_some h.proxied h.noMissing
  obtain ⟨c', hflush', hcoherent', hdirty', hget'⟩ := Cache.flush_eq_some h.reward h.noMissingReward
  refine ⟨{ o with data := o.view.finalised.data, proxied := c, reward := c', dirtyTX := fun _ => ∅ },
    ?_, ⟨hcoherent, hcoherent', ?_, ?_⟩, Acct.ext rfl ?_ ?_ rfl, rfl, rfl⟩
  · unfold StateObject.updateRoots
    rw [hflush, hflush']
    rfl
  · intro k
    rw [hdirty]
    simp
  · intro k
    rw [hdirty']
    simp
  · refine Std.ExtTreeMap.ext_getElem? fun k => ?_
    exact (Cache.getElem?_contents _ _ k).trans ((hget k).trans (Cache.getElem?_contents _ _ k).symm)
  · refine Std.ExtTreeMap.ext_getElem? fun k => ?_
    exact (Cache.getElem?_contents _ _ k).trans
      ((hget' k).trans (Cache.getElem?_contents _ _ k).symm)

/-- An object that is as it was opened is as it would be written. -/
theorem StateObject.Clean.finalised_view {o : StateObject} {a : Account}
    (h : o.Clean (some a)) (ho : o.Wf) (ha : a.Wf) : o.view.finalised = o.view := by
  obtain rfl := Option.some.inj h.stored
  have hentries : o.view.entries.filter (fun _ v => v.keep) = o.data.proxiedTrie := by
    refine Std.ExtTreeMap.ext_getElem? fun k => ?_
    rw [Std.ExtTreeMap.getElem?_filter', o.getElem?_entries]
    exact (ho.proxied.getElem?_base (by rw [h.proxied]; simp)).symm
  have hrewards : o.view.rewards.filter (fun _ v => keepReward v) = o.data.rewardTrie := by
    refine Std.ExtTreeMap.ext_getElem? fun k => ?_
    rw [Std.ExtTreeMap.getElem?_filter', o.getElem?_rewards]
    exact (ho.reward.getElem?_base (by rw [h.reward]; simp)).symm
  refine Acct.finalised_eq_self ?_ ?_ ha.txRoot h.dirtyTX
  · obtain ⟨trie, htrie⟩ := Option.ne_none_iff_exists'.1 ha.proxiedRoot
    rw [hentries, Account.proxiedTrie, htrie]
    exact htrie
  · obtain ⟨trie, htrie⟩ := Option.ne_none_iff_exists'.1 ha.rewardRoot
    rw [hrewards, Account.rewardTrie, htrie]
    exact htrie

namespace StateDB

variable {s t u : StateDB} {addr : Address}

/-! ## One account -/

/-- A dirty object and what the trie has for it are replaced. -/
theorem Wf.replace (h : s.Wf) {o : StateObject} {trie : FinMap Address Account}
    (haddr : addr ∈ s.stateObjectsDirty) (ho : o.Wf) (honDirty : o.onDirty = false)
    (hother : ∀ a, a ≠ addr → trie[a]? = s.trie[a]?)
    (hstored : ∀ a, trie[addr]? = some a → a.Wf)
    (hdeleted : o.deleted = true → trie[addr]? = none ∧ o.empty = true) :
    Wf { s with stateObjects := s.stateObjects.insert addr o, trie := trie } where
  stored := fun a acc hacc => by
    by_cases ha : a = addr
    · exact hstored acc (ha ▸ hacc)
    · exact h.stored a acc ((hother a ha).symm.trans hacc)
  objects := fun a o' ho' => by
    simp only [FinMap.getElem?_insert_ite] at ho'
    split_ifs at ho' with ha
    · exact Option.some.inj ho' ▸ ho
    · exact h.objects a o' ho'
  dirty := fun a => by
    simp only [FinMap.getElem?_insert_ite]
    split_ifs with ha
    · exact iff_of_true (ha ▸ haddr) ⟨o, rfl, honDirty⟩
    · exact h.dirty a
  clean := fun a o' ho' hd => by
    simp only [FinMap.getElem?_insert_ite] at ho'
    split_ifs at ho' with ha
    · rw [← Option.some.inj ho', honDirty] at hd
      exact absurd hd Bool.false_ne_true
    · show o'.Clean trie[a]?
      rw [hother a ha]
      exact h.clean a o' ho' hd
  deleted := fun a o' ho' hd => by
    simp only [FinMap.getElem?_insert_ite] at ho'
    split_ifs at ho' with ha
    · cases ho'
      exact ha ▸ hdeleted hd
    · show trie[a]? = none ∧ _
      rw [hother a ha]
      exact h.deleted a o' ho' hd

theorem accounts_replace (s : StateDB) (addr : Address) (o : StateObject)
    {trie : FinMap Address Account} (hother : ∀ a, a ≠ addr → trie[a]? = s.trie[a]?) (a : Address) :
    (view { s with stateObjects := s.stateObjects.insert addr o, trie := trie }).accounts a =
      if a = addr then (if o.deleted then none else some o.view) else s.view.accounts a := by
  unfold view StateDB.getStateObject
  simp only [FinMap.getElem?_insert_ite]
  by_cases ha : a = addr
  · simp only [ha, if_true]
    split_ifs <;> rfl
  · simp only [ha, if_false, hother a ha]

/-- What `Finalise` does when it goes through some of the addresses. -/
structure Settles (l : List Address) (s s' : StateDB) : Prop where
  wf : s'.Wf
  dirty : s'.stateObjectsDirty = s.stateObjectsDirty
  accounts : ∀ addr, s'.view.accounts addr =
    if addr ∈ l then (s.view.accounts addr).bind Acct.settled else s.view.accounts addr
  trie : ∀ addr : Address, s'.trie[addr]? =
    if addr ∈ l then (s'.view.accounts addr).map Acct.data else s.trie[addr]?
  sets : s'.sets = s.sets
  reward : s'.sideChainRewardPerBlock = s.sideChainRewardPerBlock

theorem Settles.trans {l l' : List Address} (h : Settles l s t) (h' : Settles l' t u) :
    Settles (l ++ l') s u where
  wf := h'.wf
  dirty := h'.dirty.trans h.dirty
  accounts := fun addr => by
    rw [h'.accounts, h.accounts]
    by_cases hl : addr ∈ l <;> by_cases hl' : addr ∈ l' <;>
      simp [hl, hl', Acct.settled_bind_settled]
  trie := fun addr => by
    rw [h'.trie, h.trie, h'.accounts]
    by_cases hl : addr ∈ l <;> by_cases hl' : addr ∈ l' <;> simp [hl, hl']
  sets := h'.sets.trans h.sets
  reward := h'.reward.trans h.reward

/-- The account at one address is written. -/
theorem Wf.settles_replace (h : s.Wf) {o : StateObject} {trie : FinMap Address Account}
    (haddr : addr ∈ s.stateObjectsDirty) (ho : o.Wf) (honDirty : o.onDirty = false)
    (hother : ∀ a, a ≠ addr → trie[a]? = s.trie[a]?)
    (hstored : ∀ a, trie[addr]? = some a → a.Wf)
    (hempty : o.deleted = true → o.empty = true)
    (hview : (s.view.accounts addr).bind Acct.settled = if o.deleted then none else some o.view)
    (htrie : trie[addr]? = if o.deleted then none else some o.data) :
    Settles [addr] s { s with stateObjects := s.stateObjects.insert addr o, trie := trie } := by
  have haccounts := s.accounts_replace addr o hother
  refine ⟨h.replace haddr ho honDirty hother hstored fun hd => ⟨?_, hempty hd⟩, rfl,
    fun a => ?_, fun a => ?_, rfl, rfl⟩
  · rw [htrie, if_pos hd]
  · by_cases ha : a = addr
    · simp only [haccounts, ha, if_true, List.mem_singleton, hview]
    · simp only [haccounts, ha, if_false, List.mem_singleton]
  · by_cases ha : a = addr
    · simp only [haccounts, ha, if_true, List.mem_singleton, htrie]
      split_ifs <;> rfl
    · simp only [ha, if_false, List.mem_singleton, hother a ha]

/-- **One round of the loop**: the account is written, or it has no encoding. -/
theorem Wf.finaliseObject (h : s.Wf) (hdirty : addr ∈ s.stateObjectsDirty) :
    (∃ s', s.finaliseObject addr = .ok s' ∧ Settles [addr] s s' ∧
      ∀ a, s.view.accounts addr = some a → a.Encodable) ∨
    (s.finaliseObject addr = .error (.sanity "can't encode object") ∧
      ∃ a, s.view.accounts addr = some a ∧ ¬ a.Encodable) := by
  obtain ⟨o, ho, honDirty⟩ := (h.dirty addr).1 hdirty
  have hwf := h.objects addr o ho
  have haccounts : s.view.accounts addr = if o.deleted then none else some o.view := by
    rw [accounts_view, StateDB.getStateObject, ho]
    simp only
    split_ifs <;> rfl
  unfold StateDB.finaliseObject
  rw [ho]
  simp only
  split_ifs with hempty
  · have herased : (s.trie.erase addr)[addr]? = none := by
      rw [FinMap.getElem?_erase_ite, if_pos rfl]
    refine .inl ⟨_, rfl, h.settles_replace hdirty
      ⟨hwf.proxied, hwf.reward, hwf.noMissing, hwf.noMissingReward⟩ honDirty (fun a ha => ?_)
      (fun a ha => ?_) (fun _ => hempty) ?_ herased, fun a ha hne => ?_⟩
    · rw [FinMap.getElem?_erase_ite, if_neg ha]
    · exact absurd (herased.symm.trans ha) (Option.some_ne_none a).symm
    · show (s.view.accounts addr).bind Acct.settled = none
      rw [haccounts]
      split_ifs
      · rfl
      · exact if_pos hempty
    · rw [haccounts] at ha
      split_ifs at ha
      cases ha
      exact absurd (hne.symm.trans hempty) Bool.false_ne_true
  · have hlive : o.deleted = false := by
      by_contra hdel
      exact hempty (h.deleted addr o ho (by simpa using hdel)).2
    rw [hlive, if_neg Bool.false_ne_true] at haccounts
    obtain ⟨o', hroots, hwf', hview', hdeleted', honDirty'⟩ := hwf.updateRoots
    have hlive' := hdeleted'.trans hlive
    have hdata : o'.data = o.view.finalised.data := congrArg Acct.data hview'
    rw [hroots]
    simp only
    split_ifs with henc
    · have hinserted : (s.trie.insert addr o'.data)[addr]? = some o'.data := by
        rw [FinMap.getElem?_insert_ite, if_pos rfl]
      have henc' : o.view.data.encodable = true := by
        rw [hdata] at henc
        exact henc
      refine .inl ⟨_, rfl, h.settles_replace hdirty hwf' (honDirty'.trans honDirty) (fun a ha => ?_)
        (fun a ha => ?_) (fun hd => ?_) ?_ ?_, fun a ha _ => ?_⟩
      · rw [FinMap.getElem?_insert_ite, if_neg ha]
      · rw [← Option.some.inj (hinserted.symm.trans ha), hdata]
        exact Acct.wf_finalised henc'
      · exact absurd (hlive'.symm.trans hd) Bool.false_ne_true
      · rw [haccounts, hlive', hview']
        exact if_neg hempty
      · rw [hinserted, hlive', if_neg Bool.false_ne_true]
      · rw [← Option.some.inj (haccounts.symm.trans ha)]
        exact henc'
    · refine .inr ⟨rfl, o.view, haccounts, fun h => henc ?_⟩
      rw [hdata]
      exact h (Bool.eq_false_iff.2 hempty)

/-- The loop of `Finalise`. -/
theorem Wf.foldlM_finaliseObject (l : List Address) :
    ∀ {s : StateDB}, s.Wf → (∀ addr ∈ l, addr ∈ s.stateObjectsDirty) →
    (∃ s', l.foldlM StateDB.finaliseObject s = .ok s' ∧ Settles l s s' ∧
      ∀ addr ∈ l, ∀ a, s.view.accounts addr = some a → a.Encodable) ∨
    (l.foldlM StateDB.finaliseObject s = .error (.sanity "can't encode object") ∧
      ∃ addr ∈ l, ∃ a, s.view.accounts addr = some a ∧ ¬ a.Encodable) := by
  induction l with
  | nil =>
    intro s h _
    exact .inl ⟨s, rfl, ⟨h, rfl, fun _ => by simp, fun _ => by simp, rfl, rfl⟩, by simp⟩
  | cons addr l ih =>
    intro s h hl
    rcases h.finaliseObject (hl addr List.mem_cons_self) with ⟨t, ht, hsettles, henc⟩ | ⟨ht, a, ha⟩
    · -- an account with an encoding has one after it was written
      have hback : ∀ a b, s.view.accounts a = some b → b.Encodable ∨ a ≠ addr ∧
          t.view.accounts a = some b := fun a b hb => by
        by_cases haddr : a = addr
        · exact .inl (henc b (haddr ▸ hb))
        · exact .inr ⟨haddr, by
            rw [hsettles.accounts, if_neg (by simpa using haddr), hb]⟩
      rw [List.foldlM_cons, ht]
      rcases ih hsettles.wf (fun a ha => by rw [hsettles.dirty]; exact hl a (.tail _ ha)) with
        ⟨s', hs', hsettles', henc'⟩ | ⟨herr, a, ha, b, hb, hbad⟩
      · refine .inl ⟨s', hs', hsettles.trans hsettles', fun a ha b hb => ?_⟩
        rcases hback a b hb with hgood | ⟨hne, hb'⟩
        · exact hgood
        · exact henc' a ((List.mem_cons.1 ha).resolve_left hne) b hb'
      · refine .inr ⟨herr, a, .tail _ ha, ?_⟩
        rw [hsettles.accounts] at hb
        split_ifs at hb with haddr
        · obtain ⟨c, hc, hcb⟩ := Option.bind_eq_some_iff.1 hb
          unfold Acct.settled at hcb
          split_ifs at hcb with hempty
          cases hcb
          exact ⟨c, hc, hbad⟩
        · exact ⟨b, hb, hbad⟩
    · rw [List.foldlM_cons, ht]
      exact .inr ⟨rfl, addr, List.mem_cons_self, a, ha⟩

/-! ## The whole state -/

end StateDB

namespace AddressSet

/-- The set as `Finalise` leaves it. -/
def committed (set : AddressSet) : AddressSet :=
  if set.dirty then { set with entry := some set.memory } else set

end AddressSet

/-- The reward as `Finalise` leaves it. -/
def SideChainReward.committed (reward : SideChainReward) : SideChainReward :=
  if reward.dirty then { reward with stored := some (reward.memory.getD 0) } else reward

namespace World

/-- The state as `Finalise` leaves it. -/
def finalised (w : World) : World where
  accounts := fun addr => (w.accounts addr).bind Acct.settled
  sets := fun kind => (w.sets kind).committed
  sideChainRewardPerBlock := w.sideChainRewardPerBlock.committed

/-- An account as `Finalise` leaves it. -/
theorem acct_finalised (w : World) (a : Address) :
    w.finalised.acct a = if (w.acct a).data.empty then .new else (w.acct a).finalised := by
  show ((w.accounts a).bind Acct.settled).getD .new = _
  unfold acct
  cases w.accounts a with
  | none => rfl
  | some acct =>
    show (Acct.settled acct).getD .new = _
    unfold Acct.settled
    rw [Option.getD_some]
    split_ifs <;> rfl

/-- Every account has an encoding, or is deleted. -/
def Encodable (w : World) : Prop := ∀ addr a, w.accounts addr = some a → a.Encodable

/-- The reward of side chains has an encoding. -/
def RewardEncodable (w : World) : Prop :=
  w.sideChainRewardPerBlock.dirty = true → 0 ≤ w.sideChainRewardPerBlock.memory.getD 0

end World

namespace StateDB

/-- `Empty` of an account. -/
theorem empty_eq_acct (s : StateDB) (addr : Address) :
    s.empty addr = (s.view.acct addr).data.empty := by
  rw [s.empty_eq]
  unfold World.acct
  cases s.view.accounts addr <;> rfl

/-- No account of the trie is empty. -/
def StoredNonempty (s : StateDB) : Prop :=
  ∀ (addr : Address) a, s.trie[addr]? = some a → a.empty = false

variable {s t : StateDB} {w : World}

theorem StoredNonempty.of_trie (h : s.StoredNonempty) (htrie : t.trie = s.trie) :
    t.StoredNonempty := fun addr a ha => h addr a (htrie ▸ ha)

/-- An account that is not dirty is as `Finalise` would leave it. -/
theorem Wf.settled_of_clean (h : s.Wf) (hne : s.StoredNonempty) {addr : Address}
    (hclean : addr ∉ s.stateObjectsDirty) {a : Acct} (ha : s.view.accounts addr = some a) :
    a.settled = some a ∧ a.Encodable ∧ s.trie[addr]? = some a.data := by
  rw [accounts_view] at ha
  obtain ⟨o, ho, rfl⟩ := Option.map_eq_some_iff.1 ha
  obtain ⟨hwf, -, hdirty, hopened⟩ := h.getStateObject ho
  have hc := hopened (by simpa using mt hdirty.2 hclean)
  have hstored := h.stored addr o.data hc.stored
  rw [hc.stored] at hc
  refine ⟨?_, fun _ => hstored.encodable, (hopened (by simpa using mt hdirty.2 hclean)).stored⟩
  unfold Acct.settled
  rw [hc.finalised_view hwf hstored]
  have hempty : o.view.data.empty = false := hne addr o.data
    (hopened (by simpa using mt hdirty.2 hclean)).stored
  rw [hempty, if_neg Bool.false_ne_true]

/-- The trie has what the state says. -/
def Settled (s : StateDB) : Prop :=
  ∀ addr : Address, s.trie[addr]? = (s.view.accounts addr).map Acct.data

theorem Wf.trie_eq_none (h : s.Wf) {addr : Address} (hnone : s.view.accounts addr = none) :
    s.trie[addr]? = none := by
  rw [accounts_view, Option.map_eq_none_iff] at hnone
  unfold StateDB.getStateObject at hnone
  split at hnone
  next o ho =>
    split_ifs at hnone with hdeleted
    exact (h.deleted addr o ho hdeleted).1
  next => exact Option.map_eq_none_iff.1 hnone

theorem StoredNonempty.finaliseObjects (hne : s.StoredNonempty) (h : s.Wf) :
    (∃ s', s.stateObjectsDirty.toList.foldlM finaliseObject s = .ok s' ∧ s'.Wf ∧ s'.Settled ∧
      (∀ addr, s'.view.accounts addr = (s.view.accounts addr).bind Acct.settled) ∧
      s'.sets = s.sets ∧ s'.sideChainRewardPerBlock = s.sideChainRewardPerBlock ∧
      s.view.Encodable) ∨
    (s.stateObjectsDirty.toList.foldlM finaliseObject s =
      .error (.sanity "can't encode object") ∧ ¬ s.view.Encodable) := by
  have hmem : ∀ addr, addr ∈ s.stateObjectsDirty.toList ↔ addr ∈ s.stateObjectsDirty := fun addr =>
    Std.ExtTreeSet.mem_toList
  rcases h.foldlM_finaliseObject s.stateObjectsDirty.toList fun addr => (hmem addr).1 with
    ⟨s', hs', hsettles, henc⟩ | ⟨herr, addr, -, a, ha, hbad⟩
  · have haccounts : ∀ addr, s'.view.accounts addr = (s.view.accounts addr).bind Acct.settled := by
      intro addr
      rw [hsettles.accounts]
      split_ifs with hd
      · rfl
      · cases ha : s.view.accounts addr with
        | none => rfl
        | some a => exact (h.settled_of_clean hne (mt (hmem addr).2 hd) ha).1.symm
    refine .inl ⟨s', hs', hsettles.wf, fun addr => ?_, haccounts, hsettles.sets, hsettles.reward,
      fun addr a ha => ?_⟩
    · rw [hsettles.trie]
      split_ifs with hd
      · rfl
      · have hclean := mt (hmem addr).2 hd
        rw [hsettles.accounts, if_neg hd]
        cases ha : s.view.accounts addr with
        | none => exact h.trie_eq_none ha
        | some a => exact (h.settled_of_clean hne hclean ha).2.2
    · by_cases hd : addr ∈ s.stateObjectsDirty
      · exact henc addr ((hmem addr).2 hd) a ha
      · exact (h.settled_of_clean hne hd ha).2.1
  · exact .inr ⟨herr, fun h => hbad (h addr a ha)⟩

theorem commitSets_eq (s : StateDB) :
    s.commitSets = if s.sideChainRewardPerBlock.dirty = true →
        0 ≤ s.sideChainRewardPerBlock.memory.getD 0 then
      .ok { s with
        sets := fun kind => (s.sets kind).committed
        sideChainRewardPerBlock := s.sideChainRewardPerBlock.committed }
    else .error (.sanity "can't encode side chain reward per block") := by
  unfold commitSets SideChainReward.committed AddressSet.committed
  by_cases hdirty : s.sideChainRewardPerBlock.dirty = true
  · simp only [hdirty, if_true, forall_const]
  · rw [if_neg hdirty, if_pos (absurd · hdirty), if_neg hdirty]

/-- **The outcome of `Finalise` depends on what the state says.** -/
theorem StoredNonempty.finalise (hne : s.StoredNonempty) (h : s.Refines w) :
    (w.Encodable ∧ w.RewardEncodable ∧
      ∃ s', s.finalise = .ok s' ∧ s'.Refines w.finalised ∧ s'.Settled ∧ s'.StoredNonempty) ∨
    (¬ w.Encodable ∧ s.finalise = .error (.sanity "can't encode object")) ∨
    (w.Encodable ∧ ¬ w.RewardEncodable ∧
      s.finalise = .error (.sanity "can't encode side chain reward per block")) := by
  obtain ⟨hwf, rfl⟩ := h
  unfold StateDB.finalise
  rcases hne.finaliseObjects hwf with
    ⟨s', hs', hwf', hsettled, haccounts, hsets, hreward, henc⟩ | ⟨herr, hbad⟩
  · rw [hs']
    show (_ ∧ _ ∧ ∃ s'', (s'.commitSets >>= _) = _ ∧ _) ∨ _ ∨ (_ ∧ _ ∧ (s'.commitSets >>= _) = _)
    rw [commitSets_eq, hreward, hsets]
    by_cases hpos : s.sideChainRewardPerBlock.dirty = true →
        0 ≤ s.sideChainRewardPerBlock.memory.getD 0
    · rw [if_pos hpos]
      refine .inl ⟨henc, hpos, _, rfl, ?_, hsettled, fun addr a ha => ?_⟩
      · exact ⟨⟨hwf'.stored, hwf'.objects, hwf'.dirty, hwf'.clean, hwf'.deleted⟩,
          World.ext (funext haccounts) rfl rfl⟩
      · obtain ⟨b, hb, rfl⟩ := Option.map_eq_some_iff.1 ((hsettled addr).symm.trans ha)
        rw [haccounts] at hb
        obtain ⟨c, -, hc⟩ := Option.bind_eq_some_iff.1 hb
        unfold Acct.settled at hc
        split_ifs at hc with hempty
        rw [← Option.some.inj hc]
        exact Bool.eq_false_iff.2 hempty
    · exact .inr (.inr ⟨henc, hpos, by rw [if_neg hpos]; rfl⟩)
  · exact .inr (.inl ⟨hbad, by rw [herr]; rfl⟩)

/-- **States that say the same have the same root.** -/
theorem intermediateRoot_eq_of_view (hs : s.Wf) (ht : t.Wf) (hsne : s.StoredNonempty)
    (htne : t.StoredNonempty) (hview : s.view = t.view) :
    Prod.fst <$> s.intermediateRoot = Prod.fst <$> t.intermediateRoot := by
  unfold intermediateRoot
  rcases hsne.finalise ⟨hs, hview⟩ with ⟨henc, hrew, s', hs', hrefs, hsettled, -⟩ | ⟨hbad, herr⟩ |
    ⟨henc, hbad, herr⟩ <;>
  rcases htne.finalise ⟨ht, rfl⟩ with ⟨henc', hrew', t', ht', hreft, hsettled', -⟩ | ⟨hbad', herr'⟩ |
    ⟨henc', hbad', herr'⟩
  · have hviews : s'.view = t'.view := hrefs.view.trans hreft.view.symm
    have hroot : s'.root = t'.root := by
      unfold root
      rw [show s'.trie = t'.trie from Std.ExtTreeMap.ext_getElem? fun addr => by
          rw [hsettled addr, hsettled' addr, hviews],
        show s'.sets = t'.sets from congrArg World.sets hviews,
        show s'.sideChainRewardPerBlock = t'.sideChainRewardPerBlock from
          congrArg World.sideChainRewardPerBlock hviews]
    rw [hs', ht']
    show Except.ok s'.root = Except.ok t'.root
    rw [hroot]
  all_goals first | contradiction | rw [herr, herr']

end StateDB

end State
end LigoChain
