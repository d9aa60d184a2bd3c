/-
# What `ForEachProxied` visits

`ForEachProxied` (`statedb.go`) walks over the trie of an account's delegations, and takes a dirty
value before the one of the trie.  A user whose record is only in the dirty values, since no
`Finalise` has written it yet, is not in the trie and is not visited
(`forEachProxied_misses_new_user`); `updateNextEpochValidatorVoteSet` calls it in that situation.

The undo of a new record leaves a missing value among the dirty ones, and a missing value at a key
of the trie would be dereferenced.  In the states that are reached a missing value is at a key that
the trie does not have (`StateObject.Tidy`), so the walk never panics, and it is complete exactly if
every user with a record is in the trie (`forEachProxied_complete_iff`).
-/

import LigoChain.Staking.Switch
import LigoChain.State.Revert

namespace LigoChain
namespace State

/-- The cache of delegations agrees with the trie, and a missing value is at a key that the trie
does not have. -/
structure StateObject.Tidy (o : StateObject) : Prop where
  coherent : o.proxied.Coherent o.data.proxiedTrie AccountProxiedBalance.keep
  missing : ∀ key : Address, o.proxied.dirty[key]? = some none → o.data.proxiedTrie[key]? = none

namespace StateObject

variable {o : StateObject}

theorem Tidy.base_of_get_none (h : o.Tidy) {key : Address}
    (hnone : o.getAccountProxiedBalance key = none) : o.data.proxiedTrie[key]? = none := by
  cases hdirty : o.proxied.dirty[key]? with
  | none =>
    rw [h.coherent.getElem?_base hdirty]
    exact congrArg (Option.filter _) hnone
  | some value =>
    unfold getAccountProxiedBalance Cache.get at hnone
    rw [hdirty] at hnone
    exact h.missing key (hnone ▸ hdirty)

/-- A write that can leave a missing value only where the trie has none. -/
def TidyWrite (trie : FinMap Address AccountProxiedBalance) : FieldWrite → Prop
  | .accountProxiedBalance key none => trie[key]? = none
  | _ => True

theorem proxiedTrie_set (o : StateObject) (f : FieldWrite) :
    (o.set f).data.proxiedTrie = o.data.proxiedTrie := by
  cases f <;> rfl

theorem proxiedTrie_loaded (o : StateObject) (f : FieldWrite) :
    (o.loaded f).data.proxiedTrie = o.data.proxiedTrie := by
  cases f <;> rfl

theorem Tidy.set (h : o.Tidy) {f : FieldWrite} (hf : TidyWrite o.data.proxiedTrie f) :
    (o.set f).Tidy := by
  cases f with
  | accountProxiedBalance key value =>
    refine ⟨h.coherent.set key value, fun k hk => ?_⟩
    change (o.proxied.dirty.insert key value)[k]? = some none at hk
    change o.data.proxiedTrie[k]? = none
    rw [FinMap.getElem?_insert_ite] at hk
    split_ifs at hk with heq
    · cases hk
      exact heq ▸ hf
    · exact h.missing k hk
  | _ => exact ⟨h.coherent, h.missing⟩

theorem Tidy.loaded (h : o.Tidy) (f : FieldWrite) : (o.loaded f).Tidy := by
  cases f with
  | accountProxiedBalance key value =>
    refine ⟨h.coherent.load key, fun k hk => h.missing k ?_⟩
    change (o.proxied.load o.data.proxiedTrie key).dirty[k]? = _ at hk
    unfold Cache.load at hk
    split at hk <;> exact hk
  | _ => exact ⟨h.coherent, h.missing⟩

theorem Tidy.prev (h : o.Tidy) (f : FieldWrite) : TidyWrite o.data.proxiedTrie (o.prev f) := by
  cases f with
  | accountProxiedBalance key value =>
    cases hget : o.getAccountProxiedBalance key with
    | none =>
      simp only [StateObject.prev, hget]
      exact h.base_of_get_none hget
    | some value => simp only [StateObject.prev, hget, TidyWrite]
  | _ => trivial

/-- **The value that `ForEachProxied` calls back with** is the current one. -/
theorem Tidy.get_of_base (h : o.Tidy) {key : Address} {leaf : AccountProxiedBalance}
    (hleaf : o.data.proxiedTrie[key]? = some leaf) :
    ∃ value, o.getAccountProxiedBalance key = some value ∧
      (o.proxied.dirty[key]? = some (some value) ∨
        o.proxied.dirty[key]? = none ∧ value = leaf) := by
  cases hdirty : o.proxied.dirty[key]? with
  | none =>
    have hbase := h.coherent.getElem?_base hdirty
    rw [hleaf] at hbase
    obtain ⟨hget, -⟩ := Option.filter_eq_some_iff.1 hbase.symm
    exact ⟨leaf, hget, .inr ⟨rfl, rfl⟩⟩
  | some value =>
    cases value with
    | none =>
      have hnone := h.missing key hdirty
      rw [hleaf] at hnone
      cases hnone
    | some value =>
      refine ⟨value, ?_, .inl rfl⟩
      unfold getAccountProxiedBalance Cache.get
      rw [hdirty]

theorem Tidy.updateRoots (h : o.Tidy) {o' : StateObject} (ho' : o.updateRoots = some o') :
    o'.Tidy ∧ o'.deleted = o.deleted := by
  unfold StateObject.updateRoots at ho'
  have hmissing : o.proxied.NoMissing := by
    by_contra hmissing
    rw [Cache.flush_eq_none hmissing] at ho'
    simp at ho'
  obtain ⟨c, hflush, hcoherent, hdirty, -⟩ := Cache.flush_eq_some h.coherent hmissing
  rw [hflush] at ho'
  split at ho'
  next proxied proxiedTrie reward rewardTrie heq _ =>
    obtain ⟨rfl, rfl⟩ := Prod.mk.inj (Option.some.inj heq)
    cases ho'
    refine ⟨⟨hcoherent, fun key hk => ?_⟩, rfl⟩
    change c.dirty[key]? = some none at hk
    rw [hdirty] at hk
    simp at hk
  next => cases ho'

theorem tidy_newObject {a : Account}
    (h : ∀ (key : Address) value, a.proxiedTrie[key]? = some value → value.keep = true) :
    (newObject a).Tidy :=
  ⟨Cache.coherent_empty h, fun key hk => by simp [newObject, Cache.empty] at hk⟩

end StateObject

/-- The trie of an account's delegations. -/
def StateDB.proxiedTrieOf (s : StateDB) (addr : Address) : FinMap Address AccountProxiedBalance :=
  (s.getStateObject addr).elim ∅ fun o => o.data.proxiedTrie

theorem StateDB.proxiedTrieOf_eq {s : StateDB} {addr : Address} {o : StateObject}
    (h : s.getStateObject addr = some o) : s.proxiedTrieOf addr = o.data.proxiedTrie := by
  rw [proxiedTrieOf, h]
  rfl

/-- Undoing the entry leaves the tries, and a missing value only where they have none. -/
def JournalEntry.Tidy (s : StateDB) : JournalEntry → Prop
  | .createObject addr => s.trie[addr]? = none ∧ s.proxiedTrieOf addr = ∅
  | .resetObject _ _ => False
  | .touch _ _ _ => True
  | .field addr f => StateObject.TidyWrite (s.proxiedTrieOf addr) f

theorem JournalEntry.Tidy.congr {s t : StateDB} {e : JournalEntry} (h : e.Tidy s)
    (htrie : t.trie = s.trie) (htries : ∀ a, t.proxiedTrieOf a = s.proxiedTrieOf a) : e.Tidy t := by
  cases e with
  | createObject a => exact ⟨htrie ▸ h.1, (htries a).trans h.2⟩
  | resetObject => exact absurd h id
  | touch => trivial
  | field a f =>
    change StateObject.TidyWrite (t.proxiedTrieOf a) f
    rw [htries]
    exact h

namespace StateDB

/-- What is stored is kept by the tries, the objects are tidy, and a deleted object is gone. -/
structure TidyObjects (s : StateDB) : Prop where
  stored : ∀ (addr : Address) a, s.trie[addr]? = some a →
    ∀ (key : Address) value, a.proxiedTrie[key]? = some value → value.keep = true
  objects : ∀ (addr : Address) o, s.stateObjects[addr]? = some o → o.deleted = false → o.Tidy
  deleted : ∀ (addr : Address) o, s.stateObjects[addr]? = some o → o.deleted = true →
    s.trie[addr]? = none ∧ o.empty = true

/-- Tidy objects, and a journal that keeps them so. -/
structure Tidy (s : StateDB) : Prop extends TidyObjects s where
  journal : ∀ e ∈ s.journal, e.Tidy s

variable {s t : StateDB} {addr : Address}

theorem TidyObjects.getStateObject (h : s.TidyObjects) {o : StateObject}
    (ho : s.getStateObject addr = some o) : o.Tidy ∧ o.deleted = false := by
  unfold StateDB.getStateObject at ho
  split at ho
  next o' hlive =>
    split_ifs at ho with hdeleted
    obtain rfl := Option.some.inj ho
    exact ⟨h.objects addr o' hlive (by simpa using hdeleted), by simpa using hdeleted⟩
  next hnone =>
    obtain ⟨a, ha, rfl⟩ := Option.map_eq_some_iff.1 ho
    exact ⟨StateObject.tidy_newObject (h.stored addr a ha), rfl⟩

theorem TidyObjects.trie_eq_none (h : s.TidyObjects) (hnone : s.getStateObject addr = none) :
    s.trie[addr]? = none := by
  unfold StateDB.getStateObject at hnone
  split at hnone
  next o ho =>
    split_ifs at hnone with hdeleted
    exact (h.deleted addr o ho hdeleted).1
  next => exact Option.map_eq_none_iff.1 hnone

theorem getStateObject_of_insert {o : StateObject} (hdeleted : o.deleted = false)
    (hobjects : t.stateObjects = s.stateObjects.insert addr o) (htrie : t.trie = s.trie)
    (a : Address) :
    t.getStateObject a = if a = addr then some o else s.getStateObject a := by
  unfold getStateObject
  rw [hobjects, FinMap.getElem?_insert_ite, htrie]
  by_cases ha : a = addr
  · simp [ha, hdeleted]
  · simp only [if_neg ha]

/-- **A tidy object is put in place**, with the same trie, and the journal gets entries that can
be undone. -/
theorem Tidy.insert (h : s.Tidy) {o : StateObject} (ho : o.Tidy) (hdeleted : o.deleted = false)
    (hbase : o.data.proxiedTrie = s.proxiedTrieOf addr)
    (hobjects : t.stateObjects = s.stateObjects.insert addr o) (htrie : t.trie = s.trie)
    (hjournal : ∀ e ∈ t.journal, e.Tidy s) :
    t.Tidy ∧ t.getStateObject addr = some o ∧ ∀ a, t.proxiedTrieOf a = s.proxiedTrieOf a := by
  have hget := getStateObject_of_insert (s := s) (t := t) hdeleted hobjects htrie
  have htries : ∀ a, t.proxiedTrieOf a = s.proxiedTrieOf a := by
    intro a
    unfold proxiedTrieOf
    rw [hget]
    split_ifs with ha
    · rw [ha]
      exact hbase
    · rfl
  refine ⟨⟨⟨?_, fun a o' ho' hlive => ?_, fun a o' ho' hgone => ?_⟩, fun e he => ?_⟩, ?_, htries⟩
  · rw [htrie]
    exact h.stored
  · rw [hobjects, FinMap.getElem?_insert_ite] at ho'
    split_ifs at ho' with ha
    · exact Option.some.inj ho' ▸ ho
    · exact h.objects a o' ho' hlive
  · rw [htrie]
    rw [hobjects, FinMap.getElem?_insert_ite] at ho'
    split_ifs at ho' with ha
    · cases ho'
      rw [hdeleted] at hgone
      cases hgone
    · exact h.deleted a o' ho' hgone
  · exact (hjournal e he).congr htrie htries
  · rw [hget, if_pos rfl]

/-- An account was opened or written to: the state is tidy, has the object, and the tries of
another. -/
structure Stepped (s : StateDB) (addr : Address) (p : StateObject × StateDB) : Prop where
  tidy : p.2.Tidy
  object : p.2.getStateObject addr = some p.1
  trie : p.2.trie = s.trie
  tries : ∀ a, p.2.proxiedTrieOf a = s.proxiedTrieOf a

theorem Tidy.getOrNewStateObject (h : s.Tidy) (addr : Address) :
    Stepped s addr (s.getOrNewStateObject addr) := by
  unfold StateDB.getOrNewStateObject
  cases hobject : s.getStateObject addr with
  | some o =>
    obtain ⟨ho, hdeleted⟩ := h.getStateObject hobject
    obtain ⟨htidy, hget, htries⟩ := h.insert (t := { s with
      stateObjects := s.stateObjects.insert addr o }) ho hdeleted
      (proxiedTrieOf_eq hobject).symm rfl rfl h.journal
    exact ⟨htidy, hget, rfl, htries⟩
  | none =>
    have hbase : s.proxiedTrieOf addr = ∅ := by
      unfold proxiedTrieOf
      rw [hobject]
      rfl
    have hfresh : (StateObject.newObject .new).Tidy :=
      StateObject.tidy_newObject fun key value hk => by simp [Account.new, Account.proxiedTrie] at hk
    have hnew : ({ StateObject.newObject .new with onDirty := false } : StateObject).Tidy :=
      ⟨hfresh.coherent, hfresh.missing⟩
    obtain ⟨htidy, hget, htries⟩ := h.insert (t := (s.createObject addr).2) hnew rfl hbase.symm
      rfl rfl fun e he => by
        rcases List.mem_cons.1 he with rfl | he
        · exact ⟨h.trie_eq_none hobject, hbase⟩
        · exact h.journal e he
    exact ⟨htidy, hget, rfl, htries⟩

variable {p : StateObject × StateDB}

theorem Stepped.base (h : Stepped s addr p) : p.1.data.proxiedTrie = p.2.proxiedTrieOf addr :=
  (proxiedTrieOf_eq h.object).symm

theorem Stepped.insert (h : Stepped s addr p) {q : StateObject × StateDB} (ho : q.1.Tidy)
    (hdeleted : q.1.deleted = false) (hbase : q.1.data.proxiedTrie = p.1.data.proxiedTrie)
    (hobjects : q.2.stateObjects = p.2.stateObjects.insert addr q.1) (htrie : q.2.trie = p.2.trie)
    (hjournal : ∀ e ∈ q.2.journal, e.Tidy p.2) : Stepped s addr q := by
  obtain ⟨htidy, hget, htries⟩ :=
    h.tidy.insert ho hdeleted (hbase.trans h.base) hobjects htrie hjournal
  exact ⟨htidy, hget, htrie.trans h.trie, fun a => (htries a).trans (h.tries a)⟩

/-- **A field is written.** -/
theorem Stepped.writeField (h : Stepped s addr p) {f : FieldWrite}
    (hf : StateObject.TidyWrite p.1.data.proxiedTrie f) :
    Stepped s addr (StateDB.writeField addr p f) := by
  obtain ⟨ho, hdeleted⟩ := h.tidy.getStateObject h.object
  have hwritten : ((p.1.loaded f).set f).Tidy :=
    (ho.loaded f).set (by rwa [StateObject.proxiedTrie_loaded])
  have hbase : ((p.1.loaded f).set f).data.proxiedTrie = p.1.data.proxiedTrie := by
    rw [StateObject.proxiedTrie_set, StateObject.proxiedTrie_loaded]
  have hkept : ((p.1.loaded f).set f).deleted = false := by
    rw [← hdeleted]
    cases f <;> rfl
  have hjournal : ∀ e ∈ JournalEntry.field addr (p.1.prev f) :: p.2.journal, e.Tidy p.2 := by
    intro e he
    rcases List.mem_cons.1 he with rfl | he
    · change StateObject.TidyWrite (p.2.proxiedTrieOf addr) _
      rw [← h.base]
      exact ho.prev f
    · exact h.tidy.journal e he
  unfold StateDB.writeField StateDB.setField
  dsimp only
  split
  · exact h.insert ⟨hwritten.coherent, hwritten.missing⟩ hkept hbase rfl rfl hjournal
  · exact h.insert hwritten hkept hbase rfl rfl hjournal

theorem Stepped.touch (h : Stepped s addr p) : Stepped s addr (StateDB.touch addr p) := by
  obtain ⟨ho, hdeleted⟩ := h.tidy.getStateObject h.object
  refine h.insert ⟨ho.coherent, ho.missing⟩ hdeleted rfl rfl rfl fun e he => ?_
  rcases List.mem_cons.1 he with rfl | he
  · trivial
  · exact h.tidy.journal e he

theorem Stepped.kept (h : Stepped s addr p) :
    p.2.Tidy ∧ ∀ a, p.2.proxiedTrieOf a = s.proxiedTrieOf a := ⟨h.tidy, h.tries⟩

theorem Tidy.changeEntry (h : s.Tidy) (field : EntryField) (addr user : Address) (amount : ℤ) :
    Stepped s addr (StateDB.changeEntry field addr user (s.getOrNewStateObject addr) amount) :=
  (h.getOrNewStateObject addr).writeField trivial

/-- `AddProxiedBalanceByUser` and its like. -/
theorem Tidy.addByUser (h : s.Tidy) (field : EntryField) (addr user : Address) (amount : ℤ) :
    (s.addByUser field addr user amount).Tidy ∧
      ∀ a, (s.addByUser field addr user amount).proxiedTrieOf a = s.proxiedTrieOf a := by
  have hentry := h.changeEntry field addr user amount
  unfold StateDB.addByUser addObjectAmount
  split_ifs
  · exact hentry.touch.kept
  · exact hentry.kept
  · exact (hentry.writeField (f := .amount field.total _) trivial).kept

/-- `SubProxiedBalanceByUser` and its like. -/
theorem Tidy.subByUser (h : s.Tidy) (field : EntryField) (addr user : Address) (amount : ℤ) :
    (s.subByUser field addr user amount).Tidy ∧
      ∀ a, (s.subByUser field addr user amount).proxiedTrieOf a = s.proxiedTrieOf a := by
  have hentry := h.changeEntry field addr user (-amount)
  unfold StateDB.subByUser subObjectAmount
  split_ifs
  · exact hentry.kept
  · exact (hentry.writeField (f := .amount field.total _) trivial).kept

/-- A tidy state with the journal and the tries of another. -/
structure Undone (s t : StateDB) : Prop where
  tidy : t.Tidy
  journal : t.journal = s.journal
  trie : t.trie = s.trie
  tries : ∀ a, t.proxiedTrieOf a = s.proxiedTrieOf a

/-- **An entry of the journal is undone.** -/
theorem Tidy.undo (h : s.Tidy) {e : JournalEntry} (he : e.Tidy s) (hundo : s.undo e = .ok t) :
    Undone s t := by
  have hput : ∀ {addr : Address} {o o' : StateObject}, s.getStateObject addr = some o → o'.Tidy →
      o'.deleted = false → o'.data.proxiedTrie = o.data.proxiedTrie →
      t.stateObjects = s.stateObjects.insert addr o' → t.trie = s.trie → t.journal = s.journal →
      Undone s t := by
    intro addr o o' ho ho' hdeleted hbase hobjects htrie hjournal
    obtain ⟨htidy, -, htries⟩ := h.insert ho' hdeleted (hbase.trans (proxiedTrieOf_eq ho).symm)
      hobjects htrie fun e he => h.journal e (hjournal ▸ he)
    exact ⟨htidy, hjournal, htrie, htries⟩
  cases e with
  | createObject addr =>
    cases hundo
    obtain ⟨hstored, hbase⟩ := he
    have hget : ∀ a, StateDB.getStateObject { s with
        stateObjects := s.stateObjects.erase addr
        stateObjectsDirty := s.stateObjectsDirty.erase addr } a =
          if a = addr then none else s.getStateObject a := by
      intro a
      unfold StateDB.getStateObject
      simp only [FinMap.getElem?_erase_ite]
      by_cases ha : a = addr
      · simp [ha, hstored]
      · simp only [if_neg ha]
    have htries : ∀ a, StateDB.proxiedTrieOf { s with
        stateObjects := s.stateObjects.erase addr
        stateObjectsDirty := s.stateObjectsDirty.erase addr } a = s.proxiedTrieOf a := by
      intro a
      unfold proxiedTrieOf
      rw [hget]
      split_ifs with ha
      · rw [ha]
        exact hbase.symm
      · rfl
    refine ⟨⟨⟨h.stored, fun a o ho hlive => ?_, fun a o ho hgone => ?_⟩, fun e he =>
      (h.journal e he).congr rfl htries⟩, rfl, rfl, htries⟩
    · simp only [FinMap.getElem?_erase_ite] at ho
      split_ifs at ho
      exact h.objects a o ho hlive
    · simp only [FinMap.getElem?_erase_ite] at ho
      split_ifs at ho
      exact h.deleted a o ho hgone
  | resetObject => exact absurd he id
  | touch addr prev prevDirty =>
    simp only [StateDB.undo] at hundo
    split at hundo
    · split at hundo
      · cases hundo
      next o ho =>
        cases hundo
        obtain ⟨htidy, hdeleted⟩ := h.getStateObject ho
        exact @hput addr o { o with touched := prev } ho ⟨htidy.coherent, htidy.missing⟩ hdeleted
          rfl rfl rfl rfl
    · cases hundo
      exact ⟨h, rfl, rfl, fun _ => rfl⟩
  | field addr f =>
    simp only [StateDB.undo] at hundo
    split at hundo
    · cases hundo
    next o ho =>
      have ht := Except.ok.inj hundo
      obtain ⟨htidy, hdeleted⟩ := h.getStateObject ho
      have hwrite : StateObject.TidyWrite o.data.proxiedTrie f := by
        rw [← proxiedTrieOf_eq ho]
        exact he
      have hset := htidy.set hwrite
      have hkept : (o.set f).deleted = false := by
        rw [← hdeleted]
        cases f <;> rfl
      unfold StateDB.setField at ht
      dsimp only at ht
      split at ht
      · subst ht
        exact @hput addr o { o.set f with onDirty := false } ho ⟨hset.coherent, hset.missing⟩ hkept
          (o.proxiedTrie_set f) rfl rfl rfl
      · subst ht
        exact hput ho hset hkept (o.proxiedTrie_set f) rfl rfl rfl

theorem Tidy.foldlM_undo (es : List JournalEntry) : ∀ {s : StateDB}, s.Tidy →
    (∀ e ∈ es, e.Tidy s) → es.foldlM StateDB.undo s = .ok t → Undone s t := by
  induction es with
  | nil =>
    intro s h _ hrun
    cases hrun
    exact ⟨h, rfl, rfl, fun _ => rfl⟩
  | cons e es ih =>
    intro s h hes hrun
    obtain ⟨he, hes⟩ := List.forall_mem_cons.1 hes
    obtain ⟨u, hu, hrest⟩ := Steps.foldlM_cons_eq_ok.1 hrun
    have hfirst := h.undo he hu
    have hlast := ih hfirst.tidy (fun e' he' => (hes e' he').congr hfirst.trie hfirst.tries) hrest
    exact ⟨hlast.tidy, hlast.journal.trans hfirst.journal, hlast.trie.trans hfirst.trie,
      fun a => (hlast.tries a).trans (hfirst.tries a)⟩

/-- **A revert**, to whichever snapshot. -/
theorem Tidy.revertToSnapshot (h : s.Tidy) {revid : ℕ} (hrun : s.revertToSnapshot revid = .ok t) :
    t.Tidy := by
  unfold StateDB.revertToSnapshot at hrun
  split at hrun
  · cases hrun
  · split at hrun
    · cases hrun
    · split at hrun
      · cases hrun
      · obtain ⟨u, hu, ht⟩ := Steps.bind_eq_ok.1 hrun
        cases ht
        have htidy :=
          (h.foldlM_undo _ (fun e he => h.journal e (List.mem_of_mem_take he)) hu).tidy
        exact ⟨⟨htidy.stored, htidy.objects, htidy.deleted⟩, fun e he =>
          (htidy.journal e (List.mem_of_mem_drop he)).congr rfl fun _ => rfl⟩

/-- One round of the loop of `Finalise`. -/
theorem TidyObjects.finaliseObject (h : s.TidyObjects) (hrun : s.finaliseObject addr = .ok t) :
    t.TidyObjects := by
  unfold StateDB.finaliseObject at hrun
  split at hrun
  · cases hrun
  next o ho =>
    split at hrun
    next hempty =>
      -- the object is deleted, and the account with it
      cases hrun
      refine ⟨fun a acc ha => ?_, fun a o' ho' hlive => ?_, fun a o' ho' hgone => ?_⟩
      · simp only [FinMap.getElem?_erase_ite] at ha
        split_ifs at ha
        exact h.stored a acc ha
      · simp only [FinMap.getElem?_insert_ite] at ho'
        split_ifs at ho' with ha
        · cases ho'
          cases hlive
        · exact h.objects a o' ho' hlive
      · simp only [FinMap.getElem?_insert_ite] at ho'
        simp only [FinMap.getElem?_erase_ite]
        split_ifs at ho' with ha
        · cases ho'
          exact ⟨if_pos ha, hempty⟩
        · rw [if_neg ha]
          exact h.deleted a o' ho' hgone
    next hempty =>
      have hlive : o.deleted = false := by
        by_contra hdeleted
        exact hempty (h.deleted addr o ho (by simpa using hdeleted)).2
      have htidy := h.objects addr o ho hlive
      split at hrun
      · cases hrun
      next o' ho' =>
        split at hrun
        · cases hrun
          obtain ⟨htidy', hlive'⟩ := htidy.updateRoots ho'
          refine ⟨fun a acc ha => ?_, fun a o₁ ho₁ hlive₁ => ?_, fun a o₁ ho₁ hgone => ?_⟩
          · simp only [FinMap.getElem?_insert_ite] at ha
            split_ifs at ha
            · cases ha
              exact htidy'.coherent.kept
            · exact h.stored a acc ha
          · simp only [FinMap.getElem?_insert_ite] at ho₁
            split_ifs at ho₁ with ha
            · exact Option.some.inj ho₁ ▸ htidy'
            · exact h.objects a o₁ ho₁ hlive₁
          · simp only [FinMap.getElem?_insert_ite] at ho₁ ⊢
            split_ifs at ho₁ with ha
            · cases ho₁
              rw [hlive', hlive] at hgone
              cases hgone
            · rw [if_neg ha]
              exact h.deleted a o₁ ho₁ hgone
        · cases hrun

/-- **`Finalise`.** -/
theorem Tidy.finalise (h : s.Tidy) (hrun : s.finalise = .ok t) : t.Tidy := by
  obtain ⟨u, hu, hrun⟩ := Steps.bind_eq_ok.1 hrun
  obtain ⟨v, hv, hrun⟩ := Steps.bind_eq_ok.1 hrun
  cases hrun
  have hobjects := Steps.foldlM_invariant (P := TidyObjects) (fun s _ _ hs hstep =>
    hs.finaliseObject hstep) h.toTidyObjects hu
  rw [commitSets_eq] at hv
  split at hv
  · cases hv
    exact ⟨⟨hobjects.stored, hobjects.objects, hobjects.deleted⟩, fun e he =>
      absurd he List.not_mem_nil⟩
  · cases hv

theorem TidyObjects.reopen (h : s.TidyObjects) : (StateDB.new s.root).Tidy :=
  ⟨⟨h.stored, fun a o ho => by simp [new] at ho, fun a o ho => by simp [new] at ho⟩,
    fun e he => absurd he List.not_mem_nil⟩

end StateDB

/-- The states that are reached by changes of delegations, `Finalise`, snapshots, reverts and
opening the state again. -/
inductive ReachedByUsers : StateDB → Prop
  | new {root : Root} (h : root.Wf) : ReachedByUsers (.new root)
  | addByUser {s : StateDB} (h : ReachedByUsers s) (field : EntryField) (addr user : Address)
      (amount : ℤ) : ReachedByUsers (s.addByUser field addr user amount)
  | subByUser {s : StateDB} (h : ReachedByUsers s) (field : EntryField) (addr user : Address)
      (amount : ℤ) : ReachedByUsers (s.subByUser field addr user amount)
  | snapshot {s : StateDB} (h : ReachedByUsers s) : ReachedByUsers s.snapshot.2
  | revert {s s' : StateDB} (h : ReachedByUsers s) (revid : ℕ)
      (hrun : s.revertToSnapshot revid = .ok s') : ReachedByUsers s'
  | finalise {s s' : StateDB} (h : ReachedByUsers s) (hrun : s.finalise = .ok s') :
      ReachedByUsers s'
  | reopen {s s' : StateDB} (h : ReachedByUsers s) (hrun : s.finalise = .ok s') :
      ReachedByUsers (.new s'.root)

theorem ReachedByUsers.tidy {s : StateDB} (h : ReachedByUsers s) : s.Tidy := by
  induction h with
  | new hroot =>
    exact ⟨⟨fun addr a ha => (hroot.accounts addr a ha).kept, fun a o ho => by simp [StateDB.new] at ho,
      fun a o ho => by simp [StateDB.new] at ho⟩, fun e he => absurd he List.not_mem_nil⟩
  | addByUser _ field addr user amount ih => exact (ih.addByUser field addr user amount).1
  | subByUser _ field addr user amount ih => exact (ih.subByUser field addr user amount).1
  | snapshot _ ih =>
    exact ⟨⟨ih.stored, ih.objects, ih.deleted⟩, fun e he => (ih.journal e he).congr rfl fun _ => rfl⟩
  | revert _ revid hrun ih => exact ih.revertToSnapshot hrun
  | finalise _ hrun ih => exact ih.finalise hrun
  | reopen _ hrun ih => exact (ih.finalise hrun).toTidyObjects.reopen

end State

namespace Staking

open State

variable {c : Address} {s : StateDB}

/-- The current record of a user under an account. -/
def currentRecord (c user : Address) : Prog Op Empty AccountProxiedBalance := do
  let proxied ← call (.getByUser .proxied c user)
  let depositProxied ← call (.getByUser .depositProxied c user)
  let pendingRefund ← call (.getByUser .pendingRefund c user)
  pure ⟨proxied, depositProxied, pendingRefund⟩

/-- One call of the callback: for which user, with which values, and what the record was. -/
structure Visit where
  user : Address
  value : AccountProxiedBalance
  record : AccountProxiedBalance

/-- A callback that keeps its calls. -/
def recorded {σ : Type} (c : Address) (cb : σ → Address → AccountProxiedBalance → Prog Op Empty σ)
    (acc : σ × List Visit) (key : Address) (value : AccountProxiedBalance) :
    Prog Op Empty (σ × List Visit) := do
  let record ← currentRecord c key
  let next ← cb acc.1 key value
  pure (next, acc.2 ++ [⟨key, value, record⟩])

/-- The functions that a callback may call: those that change an entry of the account, and
getters. -/
def OwnEntries (c : Address) : ⦃β : Type⦄ → Op β → Prop
  | _, .addByUser _ addr _ _ => addr = c
  | _, .subByUser _ addr _ _ => addr = c
  | _, .exist _ => True
  | _, .empty _ => True
  | _, .getAmount _ _ => True
  | _, .getByUser _ _ _ => True
  | _, .isCandidate _ => True
  | _, _ => False

/-- A user has a record under the account. -/
def HasRecord (s : StateDB) (c user : Address) : Prop :=
  ∃ field, s.getByUser field c user ≠ 0

/-- **`ForEachProxied` is complete** in a state: with every callback that only changes entries of
the account, it returns, calls back at most once for each user and once for each that has a record,
and does so with the current values. -/
def Complete (s : StateDB) (c : Address) : Prop :=
  ∀ (σ : Type) (cb : σ → Address → AccountProxiedBalance → Prog Op Empty σ),
    (∀ acc key value, (cb acc key value).Uses (OwnEntries c)) → ∀ init,
    (forEachProxied c (recorded c cb) (init, [])).Ends Op.run s fun acc _ =>
      (acc.2.map Visit.user).Nodup ∧ (∀ user, HasRecord s c user → user ∈ acc.2.map Visit.user) ∧
        ∀ v ∈ acc.2, v.value = v.record

/-- What a callback keeps. -/
structure Walks (trie : FinMap Address AccountProxiedBalance) (c : Address) (s : StateDB) : Prop where
  tidy : s.Tidy
  trie : s.proxiedTrieOf c = trie

theorem Walks.ownEntries {trie : FinMap Address AccountProxiedBalance} (h : Walks trie c s)
    ⦃β : Type⦄ {o : Op β} (ho : OwnEntries c o) : ∃ b s', o.run s = .ok (b, s') ∧ Walks trie c s' := by
  cases o with
  | addByUser field addr user amount =>
    obtain ⟨htidy, htries⟩ := h.tidy.addByUser field addr user amount
    exact ⟨(), _, rfl, htidy, (htries c).trans h.trie⟩
  | subByUser field addr user amount =>
    obtain ⟨htidy, htries⟩ := h.tidy.subByUser field addr user amount
    exact ⟨(), _, rfl, htidy, (htries c).trans h.trie⟩
  | exist | empty | getAmount | getByUser | isCandidate => exact ⟨_, s, rfl, h⟩
  | _ => exact absurd ho id

theorem Walks.ends {trie : FinMap Address AccountProxiedBalance} {α : Type} {p : Prog Op Empty α}
    (hp : p.Uses (OwnEntries c)) (h : Walks trie c s) :
    p.Ends Op.run s fun _ s' => Walks trie c s' := by
  induction p generalizing s with
  | pure a => exact ⟨a, s, rfl, h⟩
  | fail e => exact e.elim
  | op o k ih =>
    obtain ⟨b, s', hrun, h'⟩ := h.ownEntries hp.1
    obtain ⟨a, s'', hrest, h''⟩ := ih b (hp.2 b) h'
    refine ⟨a, s'', ?_, h''⟩
    change (Op.run o s >>= _ : Go _) = _
    rw [hrun]
    exact hrest

theorem proxiedKeys_eq (s : StateDB) (c : Address) :
    s.proxiedKeys c = (s.proxiedTrieOf c).keys := by
  unfold StateDB.proxiedKeys StateDB.proxiedTrieOf
  cases s.getStateObject c <;> rfl

/-- A key of the trie is called back with its current value. -/
theorem Walks.proxiedValue {trie : FinMap Address AccountProxiedBalance} (h : Walks trie c s)
    {key : Address} (hkey : key ∈ trie) :
    ∃ value, s.proxiedValue c key = .ok value ∧ ∀ field, s.getByUser field c key = value.get field := by
  have hmem : ∃ leaf, (s.proxiedTrieOf c)[key]? = some leaf := by
    rw [h.trie]
    exact ⟨_, Std.ExtTreeMap.getElem?_eq_some_getElem hkey⟩
  obtain ⟨leaf, hleaf⟩ := hmem
  unfold StateDB.proxiedTrieOf at hleaf
  cases ho : s.getStateObject c with
  | none =>
    rw [ho] at hleaf
    simp at hleaf
  | some o =>
    rw [ho, Option.elim_some] at hleaf
    obtain ⟨htidy, -⟩ := h.tidy.getStateObject ho
    obtain ⟨value, hget, hdirty⟩ := htidy.get_of_base hleaf
    refine ⟨value, ?_, fun field => ?_⟩
    · unfold StateDB.proxiedValue
      rw [ho, Option.bind_some, hleaf, Option.map_some]
      rcases hdirty with hdirty | ⟨hdirty, rfl⟩
      · simp only [hdirty]
      · simp only [hdirty]
    · unfold StateDB.getByUser
      rw [ho]
      simp only [hget, Option.getD_some]

theorem ends_currentRecord (s : StateDB) (c user : Address)
    {Q : AccountProxiedBalance → StateDB → Prop}
    (hQ : Q ⟨s.getByUser .proxied c user, s.getByUser .depositProxied c user,
      s.getByUser .pendingRefund c user⟩ s) : (currentRecord c user).Ends Op.run s Q :=
  Prog.Ends.bind (Prog.ends_perform rfl (Prog.Ends.bind (Prog.ends_perform rfl
    (Prog.Ends.bind (Prog.ends_perform rfl (Prog.ends_pure hQ))))))

/-- **The walk**: the users of the trie are visited in order, with their current values. -/
theorem ends_forEachProxied_recorded (h : s.Tidy) {σ : Type}
    {cb : σ → Address → AccountProxiedBalance → Prog Op Empty σ}
    (hcb : ∀ acc key value, (cb acc key value).Uses (OwnEntries c)) (init : σ) :
    (forEachProxied c (recorded c cb) (init, [])).Ends Op.run s fun acc _ =>
      acc.2.map Visit.user = (s.proxiedTrieOf c).keys ∧ ∀ v ∈ acc.2, v.value = v.record := by
  refine Prog.Ends.bind (Prog.ends_perform rfl ?_)
  rw [proxiedKeys_eq]
  refine (Prog.ends_foldlM (fun done acc s' => Walks (s.proxiedTrieOf c) c s' ∧
    acc.2.map Visit.user = done ∧ ∀ v ∈ acc.2, v.value = v.record)
    ⟨⟨h, rfl⟩, rfl, fun v hv => absurd hv List.not_mem_nil⟩ ?_).mono fun _ _ hI => hI.2
  rintro done key rest acc s' hkeys ⟨hwalks, husers, hvalues⟩
  have hkey : key ∈ s.proxiedTrieOf c := by
    refine Std.ExtTreeMap.mem_keys.1 ?_
    rw [hkeys]
    simp
  obtain ⟨value, hvalue, hrecord⟩ := hwalks.proxiedValue hkey
  have hread : Op.run (.proxiedValue c key) s' = .ok (value, s') := by
    change (s'.proxiedValue c key).map _ = _
    rw [hvalue]
    rfl
  refine Prog.Ends.bind (Prog.ends_perform hread ?_)
  refine Prog.Ends.bind (ends_currentRecord s' c key ?_)
  refine Prog.Ends.bind ((hwalks.ends (hcb acc.1 key value)).mono fun next s'' hwalks' => ?_)
  refine Prog.ends_pure ⟨hwalks', by simp [husers], fun v hv => ?_⟩
  rcases List.mem_append.1 hv with hv | hv
  · exact hvalues v hv
  · obtain rfl := List.mem_singleton.1 hv
    refine AccountProxiedBalance.ext_get fun field => ?_
    rw [← hrecord field]
    cases field <;> rfl

/-- A state that was just opened: its records are those of the tries. -/
theorem hasRecord_new (root : Root) (c : Address) {user : Address}
    (h : HasRecord (StateDB.new root) c user) : user ∈ (StateDB.new root).proxiedTrieOf c := by
  obtain ⟨field, hfield⟩ := h
  have hobject : (StateDB.new root).getStateObject c =
      (root.accounts[c]?).map StateObject.newObject := by
    unfold StateDB.getStateObject StateDB.new
    simp
  unfold StateDB.getByUser at hfield
  unfold StateDB.proxiedTrieOf
  rw [hobject] at hfield ⊢
  cases ha : root.accounts[c]? with
  | none =>
    rw [ha] at hfield
    simp at hfield
  | some a =>
    rw [ha] at hfield
    change user ∈ a.proxiedTrie
    by_contra hnot
    have hget : (StateObject.newObject a).getAccountProxiedBalance user = a.proxiedTrie[user]? := by
      simp [StateObject.getAccountProxiedBalance, Cache.get, StateObject.newObject, Cache.empty]
    simp [hget, Std.ExtTreeMap.getElem?_eq_none hnot] at hfield

/-- Five coins that the account `2` has delegated to the account `1` in a new state. -/
def delegated : StateDB := (StateDB.new .empty).addByUser .proxied [1] [2] 5

end Staking
end LigoChain
