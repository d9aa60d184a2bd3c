/-
# The sets of addresses as sets

The candidate, refund, reward and banned sets of `statedb_candidate.go`, `statedb_delegate.go`,
`statedb_reward.go` and `statedb_forbidden.go`.  Each is a map in memory, loaded from the trie by
the getter if it is empty, and written to the trie by `Finalise` if it is dirty.

An empty map is taken for one that was not loaded.  So clearing the last member of a stored set
brings the stored set back, and clearing an address before the set is loaded leaves an empty dirty
map, which `Finalise` then stores (`sets_lose_and_keep`).  `sets_are_sets_iff` says exactly which
runs are unharmed.
-/

import LigoChain.State.Revert

namespace LigoChain
namespace State

namespace AddressSet

variable {set : AddressSet} {addr : Address}

/-- What the getter of the set returns. -/
def current (set : AddressSet) : FinSet Address := set.load.memory

theorem current_eq (set : AddressSet) :
    set.current = if set.memory = ∅ then set.stored else set.memory := by
  unfold current load
  by_cases h : set.memory = ∅
  · rw [if_pos h, if_pos (Std.ExtTreeSet.isEmpty_iff.2 h)]
  · rw [if_neg h, if_neg (mt Std.ExtTreeSet.isEmpty_iff.1 h)]

/-- A map in memory that is not dirty was not loaded, or is what is stored. -/
def Clean (set : AddressSet) : Prop := set.dirty = false → set.memory = ∅ ∨ set.memory = set.stored

theorem current_load (set : AddressSet) : set.load.current = set.current := by
  unfold current load
  split
  · split <;> rfl
  · rfl

theorem clean_load (h : set.Clean) : set.load.Clean := by
  unfold load
  split
  · exact fun _ => .inr rfl
  · exact h

theorem insert_ne_empty (members : FinSet Address) (addr : Address) :
    members.insert addr ≠ ∅ := fun h =>
  Std.ExtTreeSet.eq_empty_iff_forall_not_mem.1 h addr Std.ExtTreeSet.mem_insert_self

theorem current_mark (set : AddressSet) (addr : Address) :
    (set.mark addr).current = set.current.insert addr := by
  unfold mark
  split_ifs with hmem
  · rw [current_load]
    refine Std.ExtTreeSet.ext_mem fun b => ⟨fun h => Std.ExtTreeSet.mem_insert.2 (.inr h), ?_⟩
    intro h
    rcases Std.ExtTreeSet.mem_insert.1 h with heq | h
    · exact Std.LawfulEqCmp.eq_of_compare heq ▸ Std.ExtTreeSet.contains_iff_mem.1 hmem
    · exact h
  · rw [current_eq]
    exact if_neg (insert_ne_empty _ _)

theorem clean_mark (h : set.Clean) : (set.mark addr).Clean := by
  unfold mark
  split_ifs
  · exact clean_load h
  · exact fun hdirty => by cases hdirty

/-- The set can be cleared of an address: another address is in memory, or the set is not loaded
and the address is not stored, or nothing is stored. -/
def CanClear (set : AddressSet) (addr : Address) : Prop :=
  set.memory.erase addr = ∅ → if set.memory = ∅ then addr ∉ set.stored else set.stored = ∅

theorem erase_of_not_mem {members : FinSet Address} (h : addr ∉ members) :
    members.erase addr = members := by
  refine Std.ExtTreeSet.ext_mem fun b => ?_
  rw [Std.ExtTreeSet.mem_erase]
  exact ⟨fun hb => hb.2, fun hb => ⟨fun heq => h (Std.LawfulEqCmp.eq_of_compare heq ▸ hb), hb⟩⟩

/-- Clearing removes the address exactly if the set can be cleared of it. -/
theorem current_clear_iff (set : AddressSet) (addr : Address) :
    (set.clear addr).current = set.current.erase addr ↔ set.CanClear addr := by
  have hcleared : (set.clear addr).current =
      if set.memory.erase addr = ∅ then set.stored else set.memory.erase addr := current_eq _
  rw [hcleared, current_eq, CanClear]
  by_cases herase : set.memory.erase addr = ∅
  · rw [if_pos herase]
    simp only [herase, forall_const]
    by_cases hmemory : set.memory = ∅
    · rw [if_pos hmemory, if_pos hmemory]
      refine ⟨fun h hmem => ?_, fun h => (erase_of_not_mem h).symm⟩
      rw [h, Std.ExtTreeSet.mem_erase] at hmem
      exact hmem.1 Std.ReflCmp.compare_self
    · rw [if_neg hmemory, if_neg hmemory, herase]
  · rw [if_neg herase]
    have hmemory : set.memory ≠ ∅ := by
      intro h
      rw [h] at herase
      exact herase (erase_of_not_mem Std.ExtTreeSet.not_mem_empty)
    rw [if_neg hmemory]
    exact iff_of_true rfl fun h => absurd h herase

theorem clean_clear : (set.clear addr).Clean := fun hdirty => by cases hdirty

/-- The set can be written to the trie: an empty map that is dirty has nothing stored. -/
def CanCommit (set : AddressSet) : Prop := set.dirty = true → set.memory = ∅ → set.stored = ∅

theorem current_committed_iff (set : AddressSet) :
    set.committed.current = set.current ↔ set.CanCommit := by
  unfold committed CanCommit
  cases hdirty : set.dirty with
  | false => simp
  | true =>
    have hentry : ∀ entry : FinSet Address,
        AddressSet.stored ⟨some entry, set.memory, true⟩ = entry := fun _ => rfl
    rw [if_pos rfl, current_eq, current_eq]
    by_cases hmemory : set.memory = ∅
    · rw [if_pos hmemory, if_pos hmemory]
      simp only [hentry, hmemory, forall_const, hdirty]
      exact eq_comm
    · simp [hmemory]

theorem clean_committed (h : set.Clean) : set.committed.Clean := by
  unfold committed
  split_ifs with hdirty
  · exact fun hclean => absurd hdirty (by simpa using hclean)
  · exact h

/-- The set as it is opened again. -/
def reopened (set : AddressSet) : AddressSet := ⟨set.committed.entry, ∅, false⟩

theorem current_reopened_iff (h : set.Clean) :
    set.reopened.current = set.current ↔ set.CanCommit := by
  have hstored : set.reopened.current = set.committed.stored := by
    rw [current_eq]
    exact if_pos rfl
  rw [hstored, current_eq]
  unfold committed CanCommit
  cases hdirty : set.dirty with
  | false =>
    have hkept : set.stored = if set.memory = ∅ then set.stored else set.memory := by
      split_ifs with hmemory
      · rfl
      · exact ((h hdirty).resolve_left hmemory).symm
    simpa using hkept
  | true =>
    rw [if_pos rfl]
    show set.memory = _ ↔ _
    by_cases hmemory : set.memory = ∅
    · rw [if_pos hmemory]
      simp only [hmemory, forall_const]
      exact eq_comm
    · simp [hmemory]

end AddressSet

/-! ## Runs -/

/-- An operation on the sets.  The refund set is cleared as a whole, the others by address. -/
inductive SetAction
  | mark (kind : SetKind) (addr : Address)
  | clear (kind : SetKind) (h : kind ≠ .delegateRefund) (addr : Address)
  | clearDelegateRefundSet
  | get (kind : SetKind)
  | finalise
  | reopen

namespace SetAction

/-- An operation on a state; a state is opened again at the root that `Finalise` has left. -/
def run (s : StateDB) : SetAction → Go StateDB
  | mark kind addr => .ok (s.markSet kind addr)
  | clear kind _ addr => .ok (s.clearSetByAddress kind addr)
  | clearDelegateRefundSet => .ok s.clearDelegateRefundSet
  | get kind => .ok (s.loadSet kind)
  | finalise => s.finalise
  | reopen => s.finalise.map fun s => StateDB.new s.root

/-- The same operation on sets: the addresses whose last operation is `mark`. -/
def members (m : SetKind → FinSet Address) : SetAction → SetKind → FinSet Address
  | mark kind addr => Function.update m kind ((m kind).insert addr)
  | clear kind _ addr => Function.update m kind ((m kind).erase addr)
  | clearDelegateRefundSet => Function.update m .delegateRefund ∅
  | get _ => m
  | finalise => m
  | reopen => m

/-- A state with the members that its sets should have. -/
def track (s : StateDB × (SetKind → FinSet Address)) (a : SetAction) :
    Go (StateDB × (SetKind → FinSet Address)) :=
  (a.run s.1).map fun s' => (s', a.members s.2)

/-- **When an operation does what it should**: an address is cleared from a set that can be cleared
of it, and every set can be written when they are written. -/
def Harmless (s : StateDB) : SetAction → Prop
  | clear kind _ addr => (s.sets kind).CanClear addr
  | finalise => ∀ kind, (s.sets kind).CanCommit
  | reopen => ∀ kind, (s.sets kind).CanCommit
  | _ => True

end SetAction

/-- No account and no reward is waiting to be written, and the sets that are not dirty are as they
are stored. -/
structure StateDB.SetsOnly (s : StateDB) : Prop where
  clean : ∀ kind, (s.sets kind).Clean
  objects : s.stateObjectsDirty = ∅
  reward : s.sideChainRewardPerBlock.dirty = false

namespace StateDB

variable {s t : StateDB}

theorem setsOnly_new (root : Root) : (StateDB.new root).SetsOnly :=
  ⟨fun _ _ => .inl rfl, rfl, rfl⟩

/-- `Finalise` writes the sets and nothing else. -/
theorem SetsOnly.finalise (h : s.SetsOnly) : ∃ s', s.finalise = .ok s' ∧
    (∀ kind, s'.sets kind = (s.sets kind).committed) ∧ s'.SetsOnly := by
  have hobjects : s.stateObjectsDirty.toList = [] := by
    rw [h.objects]
    rfl
  unfold StateDB.finalise
  rw [hobjects, List.foldlM_nil]
  change ∃ s', (s.commitSets >>= _ : Go StateDB) = .ok s' ∧ _
  rw [commitSets_eq, if_pos (by rw [h.reward]; exact fun h => by cases h)]
  refine ⟨_, rfl, fun _ => rfl, fun kind => AddressSet.clean_committed (h.clean kind), h.objects, ?_⟩
  have hkept : s.sideChainRewardPerBlock.committed = s.sideChainRewardPerBlock := by
    unfold SideChainReward.committed
    rw [h.reward]
    rfl
  exact (congrArg SideChainReward.dirty hkept).trans h.reward

end StateDB

theorem forall_update_iff {sets sets' : SetKind → AddressSet} {m : SetKind → FinSet Address}
    (hm : ∀ kind, (sets kind).current = m kind) (kind : SetKind) (set : AddressSet)
    (members : FinSet Address) (hsets : sets' = Function.update sets kind set) :
    (∀ k, (sets' k).current = Function.update m kind members k) ↔ set.current = members := by
  subst hsets
  constructor
  · intro h
    simpa using h kind
  · intro h k
    rcases eq_or_ne k kind with rfl | hk
    · simpa using h
    · simpa [hk] using hm k

theorem StateDB.SetsOnly.update {s : StateDB} (h : s.SetsOnly) (kind : SetKind) {set : AddressSet}
    (hset : set.Clean) :
    StateDB.SetsOnly { s with sets := Function.update s.sets kind set } := by
  refine ⟨fun k => ?_, h.objects, h.reward⟩
  rcases eq_or_ne k kind with rfl | hk
  · simpa using hset
  · simpa [hk] using h.clean k

/-- **One operation** returns, and does what it should exactly if it is harmless. -/
theorem StateDB.SetsOnly.run {s : StateDB} (h : s.SetsOnly) (a : SetAction) :
    ∃ s', a.run s = .ok s' ∧ s'.SetsOnly ∧ ∀ m : SetKind → FinSet Address,
      (∀ kind, s.getSet kind = m kind) →
      ((∀ kind, s'.getSet kind = a.members m kind) ↔ a.Harmless s) := by
  cases a with
  | mark kind addr =>
    refine ⟨_, congrArg Except.ok (s.markSet_eq kind addr),
      h.update kind (AddressSet.clean_mark (h.clean kind)), fun m hm => ?_⟩
    refine (forall_update_iff hm kind _ _ rfl).trans (iff_of_true ?_ trivial)
    rw [AddressSet.current_mark]
    exact congrArg (fun set : FinSet Address => set.insert addr) (hm kind)
  | clear kind hkind addr =>
    refine ⟨_, rfl, h.update kind AddressSet.clean_clear, fun m hm => ?_⟩
    refine (forall_update_iff hm kind _ _ rfl).trans ?_
    rw [← hm kind]
    exact AddressSet.current_clear_iff _ _
  | clearDelegateRefundSet =>
    refine ⟨_, rfl, h.update _ fun _ => .inl rfl, fun m hm => ?_⟩
    refine (forall_update_iff hm _ _ _ rfl).trans (iff_of_true ?_ trivial)
    rw [AddressSet.current_eq]
    exact if_pos rfl
  | get kind =>
    refine ⟨_, rfl, h.update kind (AddressSet.clean_load (h.clean kind)), fun m hm => ?_⟩
    refine iff_of_true (fun k => ?_) trivial
    have hkept := (forall_update_iff hm kind (s.sets kind).load (m kind) rfl).2
      ((AddressSet.current_load _).trans (hm kind)) k
    rwa [Function.update_eq_self] at hkept
  | finalise =>
    obtain ⟨s', hs', hsets, honly⟩ := h.finalise
    refine ⟨s', hs', honly, fun m hm => forall_congr' fun kind => ?_⟩
    change (s'.sets kind).current = m kind ↔ _
    rw [hsets, ← hm kind]
    exact AddressSet.current_committed_iff _
  | reopen =>
    obtain ⟨s', hs', hsets, -⟩ := h.finalise
    refine ⟨_, by rw [SetAction.run, hs']; rfl, setsOnly_new _, fun m hm =>
      forall_congr' fun kind => ?_⟩
    have hopened : (StateDB.new s'.root).sets kind = (s.sets kind).reopened :=
      congrArg (fun set : AddressSet => (⟨set.entry, ∅, false⟩ : AddressSet)) (hsets kind)
    change ((StateDB.new s'.root).sets kind).current = m kind ↔ _
    rw [hopened, ← hm kind]
    exact AddressSet.current_reopened_iff (h.clean kind)

/-- **The sets of addresses are sets, in the runs that do not harm them.**  From every root and
for every sequence of operations, all of them return and every getter returns the addresses whose
last operation was `mark` in every state of the run, exactly if each operation of the run is
harmless. -/
theorem sets_are_sets_iff (root : Root) (as : List SetAction) :
    Steps.Survives SetAction.track (fun p => ∀ kind, p.1.getSet kind = p.2 kind)
        (StateDB.new root, fun kind => (root.sets kind).getD ∅) as ↔
      Steps.RunMeets SetAction.track (fun p a => a.Harmless p.1)
        (StateDB.new root, fun kind => (root.sets kind).getD ∅) as := by
  refine Steps.survives_iff_runMeets_of (J := fun p => p.1.SetsOnly) ?_ ?_ as
    (StateDB.setsOnly_new root) fun kind => ?_
  · intro p a q hp hq
    obtain ⟨s', hs', honly, -⟩ := hp.run a
    obtain ⟨t, ht, rfl⟩ := Steps.map_eq_ok.1 hq
    rw [hs'] at ht
    cases ht
    exact honly
  · intro p a hp hm
    obtain ⟨s', hs', -, hiff⟩ := hp.run a
    rw [← hiff p.2 hm]
    unfold SetAction.track
    rw [hs']
    constructor
    · rintro ⟨q, hq, hI⟩
      cases hq
      exact hI
    · exact fun hI => ⟨_, rfl, hI⟩
  · exact (AddressSet.current_eq _).trans (if_pos rfl)

/-- A run from the empty state, and then the getter of a set. -/
def getAfter (as : List SetAction) (kind : SetKind) : Go (List Address) :=
  (as.foldlM SetAction.run (StateDB.new Root.empty)).map fun s => (s.getSet kind).toList

/-- **A cleared member that comes back, and a member that is lost.**  The only candidate is cleared
after it was stored, and the getter returns it.  A candidate is cleared before the set is loaded,
and the other one is gone when the state is opened again. -/
theorem sets_lose_and_keep :
    getAfter [.mark .candidate [1], .finalise, .clear .candidate (by decide) [1]] .candidate =
      .ok [[1]] ∧
    getAfter [.mark .candidate [1], .mark .candidate [2], .reopen,
      .clear .candidate (by decide) [1], .reopen] .candidate = .ok [] := by
  decide +kernel

end State
end LigoChain
