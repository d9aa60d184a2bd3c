/-
# What a state says

The abstract state of all accounts: for each address the account, with what its tries say
through their caches.  `StateDB.view` reads it off a `StateDB`.

A well-formed state (`StateDB.Wf`) has coherent caches, marks as dirty exactly the objects
that may differ from the trie, and has no value missing that is to be written back.  On
well-formed states each function of `StateDB` acts on the view: `Refines` relates a state to
its view, and one lemma per function says what the function does to it.
-/

import LigoChain.State.StateDB

namespace LigoChain
namespace State

/-- An account, and what its tries say. -/
@[ext] structure Acct where
  data : Account
  entries : FinMap Address AccountProxiedBalance
  rewards : FinMap Address ℤ
  dirtyTX : TxKind → FinSet TxHash

namespace Acct

/-- An account with nothing. -/
def new : Acct := ⟨.new, ∅, ∅, fun _ => ∅⟩

/-- A map with one value replaced, or taken away. -/
def update {ν : Type} (m : FinMap Address ν) (key : Address) : Option ν → FinMap Address ν
  | some value => m.insert key value
  | none => m.erase key

theorem getElem?_update {ν : Type} (m : FinMap Address ν) (key k : Address) (value : Option ν) :
    (update m key value)[k]? = if k = key then value else m[k]? := by
  cases value with
  | some value => exact FinMap.getElem?_insert_ite m key k value
  | none => exact FinMap.getElem?_erase_ite m key k

variable (a : Acct)

/-- A field of the account is set. -/
def set : FieldWrite → Acct
  | .amount field value =>
    { a with data := { a.data with amounts := Function.update a.data.amounts field value } }
  | .sideChainDepositBalance chainId value =>
    { a with data := { a.data with
        sideChainDepositBalance :=
          setSideChainDeposit chainId value a.data.sideChainDepositBalance } }
  | .nonce value => { a with data := { a.data with nonce := value } }
  | .candidate value => { a with data := { a.data with candidate := value } }
  | .pubkey value => { a with data := { a.data with pubkey := value } }
  | .commission value => { a with data := { a.data with commission := value } }
  | .banned value => { a with data := { a.data with isBanned := value } }
  | .accountProxiedBalance key value => { a with entries := update a.entries key value }
  | .delegateRewardBalance key value => { a with rewards := update a.rewards key value }
  | .addTX kind txHash =>
    { a with dirtyTX := Function.update a.dirtyTX kind ((a.dirtyTX kind).insert txHash) }
  | .removeTX kind txHash =>
    { a with dirtyTX := Function.update a.dirtyTX kind ((a.dirtyTX kind).erase txHash) }

/-- What a user has delegated to the account. -/
def entry (user : Address) : AccountProxiedBalance := (a.entries[user]?).getD .new

end Acct

/-- The state of all accounts. -/
@[ext] structure World where
  accounts : Address → Option Acct
  sets : SetKind → AddressSet
  sideChainRewardPerBlock : SideChainReward

namespace World

variable (w : World)

/-- The account at an address, or one with nothing. -/
def acct (addr : Address) : Acct := (w.accounts addr).getD .new

/-- An account is put at an address. -/
def put (addr : Address) (a : Acct) : World :=
  { w with accounts := Function.update w.accounts addr (some a) }

/-- There is an account at the address. -/
def ensure (addr : Address) : World := w.put addr (w.acct addr)

/-- A field of the account is set. -/
def write (addr : Address) (f : FieldWrite) : World := w.put addr ((w.acct addr).set f)

@[simp] theorem acct_put (addr addr' : Address) (a : Acct) :
    (w.put addr a).acct addr' = if addr' = addr then a else w.acct addr' := by
  unfold acct put
  by_cases h : addr' = addr
  · subst h
    simp
  · simp [h]

theorem put_of_accounts {addr : Address} {a : Acct} (h : w.accounts addr = some a) :
    w.put addr a = w :=
  World.ext (Function.update_eq_self_iff.2 h.symm) rfl rfl

@[simp] theorem put_put (addr : Address) (a b : Acct) : (w.put addr a).put addr b = w.put addr b := by
  simp [put]

@[simp] theorem acct_ensure (addr addr' : Address) : (w.ensure addr).acct addr' = w.acct addr' := by
  unfold ensure
  rw [acct_put]
  split_ifs with h
  · rw [h]
  · rfl

@[simp] theorem ensure_ensure (addr : Address) : (w.ensure addr).ensure addr = w.ensure addr := by
  rw [ensure, acct_ensure, ensure, put_put]

theorem ensure_write (addr : Address) (f : FieldWrite) :
    (w.ensure addr).write addr f = w.write addr f := by
  unfold write
  rw [acct_ensure, ensure, put_put]

end World

/-! ## The view of an object -/

namespace StateObject

/-- What an object says. -/
def view (o : StateObject) : Acct :=
  ⟨o.data, o.proxied.contents o.data.proxiedTrie, o.reward.contents o.data.rewardTrie, o.dirtyTX⟩

/-- A coherent object with no value missing. -/
structure Wf (o : StateObject) : Prop where
  proxied : o.proxied.Coherent o.data.proxiedTrie AccountProxiedBalance.keep
  reward : o.reward.Coherent o.data.rewardTrie keepReward
  noMissing : o.proxied.NoMissing
  noMissingReward : o.reward.NoMissing

theorem getElem?_entries (o : StateObject) (key : Address) :
    o.view.entries[key]? = o.getAccountProxiedBalance key :=
  Cache.getElem?_contents _ _ key

theorem getElem?_rewards (o : StateObject) (key : Address) :
    o.view.rewards[key]? = o.getDelegateRewardBalance key :=
  Cache.getElem?_contents _ _ key

theorem contents_set {ν : Type} (c : Cache Address ν) (base : FinMap Address ν) (key : Address)
    (value : Option ν) :
    (c.set key value).contents base = Acct.update (c.contents base) key value := by
  refine Std.ExtTreeMap.ext_getElem? fun k => ?_
  rw [Cache.getElem?_contents, Cache.get_set, Acct.getElem?_update, Cache.getElem?_contents]

theorem contents_load {ν : Type} (c : Cache Address ν) (base : FinMap Address ν) (key : Address) :
    (c.load base key).contents base = c.contents base := by
  refine Std.ExtTreeMap.ext_getElem? fun k => ?_
  rw [Cache.getElem?_contents, Cache.get_load, Cache.getElem?_contents]

/-- **Setting a field sets it in the view.** -/
theorem view_set (o : StateObject) (f : FieldWrite) : (o.set f).view = o.view.set f := by
  cases f with
  | accountProxiedBalance key value =>
    exact Acct.ext rfl (contents_set o.proxied _ key value) rfl rfl
  | delegateRewardBalance key value =>
    exact Acct.ext rfl rfl (contents_set o.reward _ key value) rfl
  | _ => rfl

theorem view_loaded (o : StateObject) (f : FieldWrite) : (o.loaded f).view = o.view := by
  cases f with
  | accountProxiedBalance key value => exact Acct.ext rfl (contents_load o.proxied _ key) rfl rfl
  | delegateRewardBalance key value => exact Acct.ext rfl rfl (contents_load o.reward _ key) rfl
  | _ => rfl

end StateObject

/-- The value that is written, if it goes to a trie, is not missing. -/
def FieldWrite.Storable : FieldWrite → Prop
  | .accountProxiedBalance _ value => value ≠ none
  | .delegateRewardBalance _ value => value ≠ none
  | _ => True

namespace StateObject

variable {o : StateObject}

theorem Wf.loaded (h : o.Wf) (f : FieldWrite) : (o.loaded f).Wf := by
  have hmissing : ∀ {ν : Type} (c : Cache Address ν) (base : FinMap Address ν) (key : Address),
      c.NoMissing → (c.load base key).NoMissing := by
    intro ν c base key hc
    unfold Cache.load
    split <;> exact hc
  cases f with
  | accountProxiedBalance key value =>
    exact ⟨h.proxied.load key, h.reward, hmissing _ _ _ h.noMissing, h.noMissingReward⟩
  | delegateRewardBalance key value =>
    exact ⟨h.proxied, h.reward.load key, h.noMissing, hmissing _ _ _ h.noMissingReward⟩
  | _ => exact h

theorem Wf.set (h : o.Wf) {f : FieldWrite} (hf : f.Storable) : (o.set f).Wf := by
  have hmissing : ∀ {ν : Type} (c : Cache Address ν) (key : Address) (value : Option ν),
      c.NoMissing → value ≠ none → (c.set key value).NoMissing := by
    intro ν c key value hc hvalue k
    unfold Cache.set
    rw [FinMap.getElem?_insert_ite]
    split_ifs
    · simpa using hvalue
    · exact hc k
  cases f with
  | accountProxiedBalance key value =>
    exact ⟨h.proxied.set key value, h.reward, hmissing _ key value h.noMissing hf,
      h.noMissingReward⟩
  | delegateRewardBalance key value =>
    exact ⟨h.proxied, h.reward.set key value, h.noMissing,
      hmissing _ key value h.noMissingReward hf⟩
  | _ => exact ⟨h.proxied, h.reward, h.noMissing, h.noMissingReward⟩

end StateObject

/-! ## Well-formed states -/

/-- An account as the trie has it. -/
structure Account.Wf (a : Account) : Prop where
  kept : ∀ (k : Address) (v : AccountProxiedBalance), a.proxiedTrie[k]? = some v → v.keep = true
  keptReward : ∀ (k : Address) (v : ℤ), a.rewardTrie[k]? = some v → keepReward v = true
  proxiedRoot : a.proxiedRoot ≠ none
  rewardRoot : a.rewardRoot ≠ none
  txRoot : ∀ kind, a.txRoot kind ≠ none
  encodable : a.encodable = true

theorem StateObject.wf_newObject {a : Account}
    (h : ∀ (k : Address) (v : AccountProxiedBalance), a.proxiedTrie[k]? = some v → v.keep = true)
    (hreward : ∀ (k : Address) (v : ℤ), a.rewardTrie[k]? = some v → keepReward v = true) :
    (StateObject.newObject a).Wf :=
  ⟨Cache.coherent_empty h, Cache.coherent_empty hreward,
    fun k => by simp [StateObject.newObject, Cache.empty],
    fun k => by simp [StateObject.newObject, Cache.empty]⟩

theorem StateObject.view_newObject (a : Account) :
    (StateObject.newObject a).view = ⟨a, a.proxiedTrie, a.rewardTrie, fun _ => ∅⟩ := by
  have hcontents : ∀ {ν : Type} (base : FinMap Address ν),
      (Cache.empty : Cache Address ν).contents base = base := fun base =>
    Std.ExtTreeMap.ext_getElem? fun k => by
      rw [Cache.getElem?_contents]
      simp [Cache.get, Cache.empty]
  exact Acct.ext rfl (hcontents _) (hcontents _) rfl

/-- The object is as it was opened from what the trie has. -/
structure StateObject.Clean (o : StateObject) (stored : Option Account) : Prop where
  deleted : o.deleted = false
  stored : stored = some o.data
  proxied : o.proxied.dirty = ∅
  reward : o.reward.dirty = ∅
  dirtyTX : o.dirtyTX = fun _ => ∅

namespace StateDB

/-- What a state says. -/
def view (s : StateDB) : World where
  accounts := fun addr => (s.getStateObject addr).map StateObject.view
  sets := s.sets
  sideChainRewardPerBlock := s.sideChainRewardPerBlock

/-- **Well-formed states.** -/
structure Wf (s : StateDB) : Prop where
  stored : ∀ (addr : Address) a, s.trie[addr]? = some a → a.Wf
  objects : ∀ (addr : Address) o, s.stateObjects[addr]? = some o → o.Wf
  dirty : ∀ addr : Address, addr ∈ s.stateObjectsDirty ↔
    ∃ o, s.stateObjects[addr]? = some o ∧ o.onDirty = false
  clean : ∀ (addr : Address) o, s.stateObjects[addr]? = some o → o.onDirty = true →
    o.Clean s.trie[addr]?
  deleted : ∀ (addr : Address) o, s.stateObjects[addr]? = some o → o.deleted = true →
    s.trie[addr]? = none ∧ o.empty = true

/-- The state is well-formed and says this. -/
structure Refines (s : StateDB) (w : World) : Prop where
  wf : s.Wf
  view : s.view = w

theorem wf_new {root : Root} (h : ∀ (addr : Address) a, root.accounts[addr]? = some a → a.Wf) :
    (new root).Wf where
  stored := h
  objects := fun addr o ho => by simp [new] at ho
  dirty := fun addr => by simp [new]
  clean := fun addr o ho => by simp [new] at ho
  deleted := fun addr o ho => by simp [new] at ho

variable {s : StateDB} {addr : Address}

theorem Wf.mem_dirty_iff (h : s.Wf) {o : StateObject} (ho : s.stateObjects[addr]? = some o) :
    addr ∈ s.stateObjectsDirty ↔ o.onDirty = false := by
  rw [h.dirty]
  exact ⟨fun ⟨o', ho', hd⟩ => Option.some.inj (ho.symm.trans ho') ▸ hd, fun hd => ⟨o, ho, hd⟩⟩

/-- The objects of well-formed states are well-formed, also those opened just now. -/
theorem Wf.getStateObject (h : s.Wf) {o : StateObject} (ho : s.getStateObject addr = some o) :
    o.Wf ∧ o.deleted = false ∧ (addr ∈ s.stateObjectsDirty ↔ o.onDirty = false) ∧
      (o.onDirty = true → o.Clean s.trie[addr]?) := by
  unfold StateDB.getStateObject at ho
  split at ho
  next o' hlive =>
    split_ifs at ho with hdeleted
    obtain rfl := Option.some.inj ho
    exact ⟨h.objects addr o' hlive, by simpa using hdeleted, h.mem_dirty_iff hlive,
      h.clean addr o' hlive⟩
  next hnone =>
    obtain ⟨a, ha, rfl⟩ := Option.map_eq_some_iff.1 ho
    have hstored := h.stored addr a ha
    refine ⟨StateObject.wf_newObject hstored.kept hstored.keptReward, rfl, ?_,
      fun _ => ⟨rfl, ha, rfl, rfl, rfl⟩⟩
    rw [h.dirty, hnone]
    simp [StateObject.newObject]

theorem accounts_view (s : StateDB) (addr : Address) :
    s.view.accounts addr = (s.getStateObject addr).map StateObject.view := rfl

theorem acct_view (s : StateDB) (addr : Address) :
    s.view.acct addr = ((s.getStateObject addr).map StateObject.view).getD .new := rfl

/-- An object is put in place of another. -/
theorem Wf.insert (h : s.Wf) {o : StateObject} {dirty : FinSet Address} (journal : List JournalEntry)
    (ho : o.Wf) (hdeleted : o.deleted = false) (haddr : addr ∈ dirty ↔ o.onDirty = false)
    (hother : ∀ a, a ≠ addr → (a ∈ dirty ↔ a ∈ s.stateObjectsDirty))
    (hclean : o.onDirty = true → o.Clean s.trie[addr]?) :
    Wf { s with
      stateObjects := s.stateObjects.insert addr o
      stateObjectsDirty := dirty
      journal := journal } where
  stored := h.stored
  objects := fun a o' ho' => by
    simp only [FinMap.getElem?_insert_ite] at ho'
    split_ifs at ho' with ha
    · exact Option.some.inj ho' ▸ ho
    · exact h.objects a o' ho'
  dirty := fun a => by
    simp only [FinMap.getElem?_insert_ite]
    split_ifs with ha
    · rw [ha, haddr]
      exact ⟨fun hd => ⟨o, rfl, hd⟩, fun ⟨o', ho', hd⟩ => Option.some.inj ho' ▸ hd⟩
    · rw [hother a ha, h.dirty]
  clean := fun a o' ho' hd => by
    simp only [FinMap.getElem?_insert_ite] at ho'
    split_ifs at ho' with ha
    · cases ho'
      exact ha ▸ hclean hd
    · exact h.clean a o' ho' hd
  deleted := fun a o' ho' hd => by
    simp only [FinMap.getElem?_insert_ite] at ho'
    split_ifs at ho' with ha
    · rw [← Option.some.inj ho', hdeleted] at hd
      exact absurd hd Bool.false_ne_true
    · exact h.deleted a o' ho' hd

theorem view_insert (s : StateDB) (addr : Address) {o : StateObject} (hdeleted : o.deleted = false)
    (dirty : FinSet Address) (journal : List JournalEntry) :
    view { s with
      stateObjects := s.stateObjects.insert addr o
      stateObjectsDirty := dirty
      journal := journal } = s.view.put addr o.view := by
  refine World.ext (funext fun a => ?_) rfl rfl
  unfold view World.put StateDB.getStateObject
  simp only [FinMap.getElem?_insert_ite, Function.update_apply]
  split_ifs with ha
  · simp [hdeleted]
  · rfl

/-! ## Opened objects -/

/-- The object of the pair is the one that the state has at the address. -/
structure Opened (addr : Address) (p : StateObject × StateDB) (w : World) : Prop where
  wf : p.2.Wf
  live : p.2.stateObjects[addr]? = some p.1
  deleted : p.1.deleted = false
  view : p.2.view = w

variable {p : StateObject × StateDB} {w : World}

theorem Opened.refines (h : Opened addr p w) : p.2.Refines w := ⟨h.wf, h.view⟩

theorem Opened.getStateObject (h : Opened addr p w) : p.2.getStateObject addr = some p.1 := by
  unfold StateDB.getStateObject
  rw [h.live]
  simp [h.deleted]

theorem Opened.acct (h : Opened addr p w) : w.acct addr = p.1.view := by
  rw [← h.view, acct_view, h.getStateObject]
  rfl

theorem Opened.accounts (h : Opened addr p w) : w.accounts addr = some p.1.view := by
  rw [← h.view, accounts_view, h.getStateObject]
  rfl

theorem mem_insert_iff (dirty : FinSet Address) (a : Address) :
    a ∈ dirty.insert addr ↔ a = addr ∨ a ∈ dirty := by
  rw [Std.ExtTreeSet.mem_insert, Std.compare_eq_iff_eq, eq_comm]

/-- **A field is set**: the object is dirty afterwards, and the view has the field set. -/
theorem setField_opened (hs : s.Wf) {o : StateObject} (ho : o.Wf) (hdeleted : o.deleted = false)
    (hdirty : addr ∈ s.stateObjectsDirty ↔ o.onDirty = false) (hview : s.view.acct addr = o.view)
    {f : FieldWrite} (hf : f.Storable) (hcalls : f.callsOnDirty = true ∨ o.onDirty = false) :
    Opened addr (s.setField addr o f) (s.view.write addr f) := by
  have hset : (o.set f).deleted = false ∧ (o.set f).onDirty = o.onDirty := by
    cases f <;> exact ⟨hdeleted, rfl⟩
  have hwf := ho.set hf
  have hwrite : s.view.write addr f = s.view.put addr (o.set f).view := by
    rw [World.write, hview, StateObject.view_set]
  rw [hwrite]
  unfold setField
  simp only
  split
  next hmark =>
    refine ⟨?_, ?_, hset.1, ?_⟩
    · refine hs.insert s.journal ⟨hwf.proxied, hwf.reward, hwf.noMissing, hwf.noMissingReward⟩
        hset.1 ?_ (fun a ha => ?_) ?_
      · exact iff_of_true ((mem_insert_iff _ _).2 (.inl rfl)) rfl
      · rw [mem_insert_iff, or_iff_right ha]
      · exact fun hd => absurd hd Bool.false_ne_true
    · exact Std.ExtTreeMap.getElem?_insert_self
    · exact @view_insert s addr { o.set f with onDirty := false } hset.1 _ s.journal
  next hmark =>
    have hfalse : o.onDirty = false := by
      rcases hcalls with hcalls | hd
      · simpa [hcalls] using hmark
      · exact hd
    refine ⟨?_, ?_, hset.1, ?_⟩
    · refine hs.insert s.journal hwf hset.1 ?_ (fun a _ => Iff.rfl) ?_
      · rw [hset.2, hdirty]
      · rw [hset.2, hfalse]
        exact fun hd => absurd hd Bool.false_ne_true
    · exact Std.ExtTreeMap.getElem?_insert_self
    · exact view_insert s addr hset.1 _ s.journal

/-- **A journaled write.** -/
theorem Opened.writeField (h : Opened addr p w) {f : FieldWrite} (hf : f.Storable)
    (hcalls : f.callsOnDirty = true ∨ p.1.onDirty = false) :
    Opened addr (StateDB.writeField addr p f) (w.write addr f) := by
  have hloaded : (p.1.loaded f).deleted = false ∧ (p.1.loaded f).onDirty = p.1.onDirty := by
    cases f <;> exact ⟨h.deleted, rfl⟩
  obtain rfl := h.view
  refine @setField_opened { p.2 with journal := .field addr (p.1.prev f) :: p.2.journal } addr
    ⟨h.wf.stored, h.wf.objects, h.wf.dirty, h.wf.clean, h.wf.deleted⟩ _
    ((h.wf.objects addr p.1 h.live).loaded f) hloaded.1 ?_ ?_ f hf ?_
  · rw [hloaded.2]
    exact h.wf.mem_dirty_iff h.live
  · rw [StateObject.view_loaded]
    exact h.acct
  · rw [hloaded.2]
    exact hcalls

theorem Opened.put_view (h : Opened addr p w) : w.put addr p.1.view = w :=
  w.put_of_accounts h.accounts

theorem Opened.touch (h : Opened addr p w) : Opened addr (StateDB.touch addr p) w := by
  have hp := h.wf.objects addr p.1 h.live
  refine ⟨?_, Std.ExtTreeMap.getElem?_insert_self, h.deleted, ?_⟩
  · refine h.wf.insert _ ⟨hp.proxied, hp.reward, hp.noMissing, hp.noMissingReward⟩ h.deleted ?_
      (fun a ha => ?_) ?_
    · split_ifs with hd
      · exact iff_of_true ((mem_insert_iff _ _).2 (.inl rfl)) rfl
      · exact iff_of_true ((h.wf.mem_dirty_iff h.live).2 (by simpa using hd)) rfl
    · split_ifs with hd
      · rw [mem_insert_iff, or_iff_right ha]
      · rfl
    · exact fun hd => absurd hd Bool.false_ne_true
  · refine (@view_insert p.2 addr { p.1 with touched := true, onDirty := false } h.deleted _ _).trans ?_
    rw [h.view]
    exact h.put_view

/-- An account is opened, or made where there is none. -/
theorem Wf.getOrNewStateObject (h : s.Wf) (addr : Address) :
    Opened addr (s.getOrNewStateObject addr) (s.view.ensure addr) := by
  unfold StateDB.getOrNewStateObject
  split
  next o ho =>
    obtain ⟨hwf, hdeleted, hdirty, hclean⟩ := h.getStateObject ho
    have hacct : s.view.acct addr = o.view := by
      rw [acct_view, ho]
      rfl
    refine ⟨h.insert s.journal hwf hdeleted hdirty (fun a _ => Iff.rfl) hclean,
      Std.ExtTreeMap.getElem?_insert_self, hdeleted, ?_⟩
    rw [World.ensure, hacct]
    exact view_insert s addr hdeleted _ s.journal
  next hnone =>
    have hacct : s.view.acct addr = (StateObject.newObject .new).view := by
      rw [acct_view, hnone, StateObject.view_newObject]
      rfl
    have hwf : (StateObject.newObject .new).Wf :=
      StateObject.wf_newObject (fun k v hk => by simp [Account.proxiedTrie, Account.new] at hk)
        fun k v hk => by simp [Account.rewardTrie, Account.new] at hk
    refine ⟨?_, Std.ExtTreeMap.getElem?_insert_self, rfl, ?_⟩
    · refine h.insert _ ⟨hwf.proxied, hwf.reward, hwf.noMissing, hwf.noMissingReward⟩ rfl ?_
        (fun a ha => ?_) ?_
      · exact iff_of_true ((mem_insert_iff _ _).2 (.inl rfl)) rfl
      · rw [mem_insert_iff, or_iff_right ha]
      · exact fun hd => absurd hd Bool.false_ne_true
    · rw [World.ensure, hacct]
      exact @view_insert s addr { StateObject.newObject .new with onDirty := false } rfl _ _

end StateDB

end State
end LigoChain
