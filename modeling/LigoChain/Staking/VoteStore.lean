/-
# A vote set as it lies in memory

An `EpochValidatorVoteSet` (`epoch/epoch_vote.go`) keeps its votes twice: in the list `Votes`, and
by address in `votesByAddress`.  Both hold pointers, and `UpdateNextEpoch`
(`ligochain/cross_chain.go`) writes through the pointer that it gets by address.  `StoreVote` looks
for the pointer of an older vote of the address in `Votes`, and cuts the list there; it would cut
at `-1` if it were not found.

The list and the index agree in every set that these functions make (`Coherent`), so `StoreVote`
finds what it looks for (`Coherent.storeVote`), and **an update of the set in memory is the update
of the list of votes** (`Coherent.updateVote`).
-/

import LigoChain.Staking.LocalEpoch

namespace LigoChain
namespace Staking

open State

/-- The votes that were allocated, `Votes` and `votesByAddress`: a pointer is a place in the first. -/
structure VoteStore where
  heap : List EpochValidatorVote
  votes : List ℕ
  votesByAddress : FinMap Address ℕ

namespace VoteStore

/-- `NewEpochValidatorVoteSet`. -/
def new : VoteStore := ⟨[], [], ∅⟩

variable (s : VoteStore)

/-- `GetVoteByAddress`. -/
def getVoteByAddress (address : Address) : Option ℕ := s.votesByAddress[address]?

/-- `StoreVote`, of a vote that was allocated just now. -/
def storeVote (vote : EpochValidatorVote) : Go VoteStore := do
  let votes ← match s.votesByAddress[vote.address]? with
    | none => .ok s.votes
    | some oldVote =>
      match s.votes.idxOf? oldVote with
      | none => .error .index
      | some index => .ok (s.votes.eraseIdx index)
  .ok
    { heap := s.heap ++ [vote]
      votes := votes ++ [s.heap.length]
      votesByAddress := s.votesByAddress.insert vote.address s.heap.length }

/-- What `UpdateNextEpoch` does to the set. -/
def updateVote (op : UpdateNextEpochOp) : Go VoteStore :=
  match s.getVoteByAddress op.from_ with
  | some vote =>
    .ok { s with heap := s.heap.modify vote fun v =>
      { v with amount := some op.amount, txHash := op.txHash } }
  | none => s.storeVote ⟨op.from_, some op.pubKey, some op.amount, "ligochain", op.txHash⟩

/-- The votes that `Votes` points to, which are what is encoded. -/
def contents : List EpochValidatorVote := s.votes.filterMap (s.heap[·]?)

/-- `LoadEpochVoteSet`, of these votes. -/
def load (votes : List EpochValidatorVote) : VoteStore where
  heap := votes
  votes := List.range votes.length
  votesByAddress := votes.zipIdx.foldl (fun m p => m.insert p.1.address p.2) ∅

/-- **The list and the index agree.** -/
structure Coherent : Prop where
  nodup : s.votes.Nodup
  bound : ∀ r ∈ s.votes, r < s.heap.length
  index : ∀ address r, s.votesByAddress[address]? = some r ↔
    r ∈ s.votes ∧ (s.heap[r]?).map EpochValidatorVote.address = some address

variable {s}

theorem coherent_new : new.Coherent where
  nodup := List.nodup_nil
  bound := fun r hr => absurd hr List.not_mem_nil
  index := fun address r => by simp [new]

/-- A pointer that the index has is in the list, where the loop of `StoreVote` finds it. -/
theorem Coherent.idxOf (h : s.Coherent) {address : Address} {r : ℕ}
    (hr : s.votesByAddress[address]? = some r) :
    ∃ i, s.votes.idxOf? r = some i ∧ s.votes.eraseIdx i = s.votes.erase r := by
  have hmem := ((h.index address r).1 hr).1
  obtain ⟨i, hi⟩ := Option.isSome_iff_exists.1 (List.isSome_idxOf?.2 hmem)
  refine ⟨i, hi, ?_⟩
  rw [List.erase_eq_eraseIdx, hi]

/-- The pointers to votes of other addresses. -/
def others (s : VoteStore) (address : Address) : List ℕ :=
  (s.votesByAddress[address]?).elim s.votes s.votes.erase

/-- The set after `StoreVote`. -/
def stored (s : VoteStore) (vote : EpochValidatorVote) : VoteStore where
  heap := s.heap ++ [vote]
  votes := s.others vote.address ++ [s.heap.length]
  votesByAddress := s.votesByAddress.insert vote.address s.heap.length

/-- **`StoreVote` does not cut the list out of range.** -/
theorem Coherent.storeVote (h : s.Coherent) (vote : EpochValidatorVote) :
    s.storeVote vote = .ok (s.stored vote) := by
  unfold VoteStore.storeVote VoteStore.stored others
  cases hold : s.votesByAddress[vote.address]? with
  | none => rfl
  | some old =>
    obtain ⟨i, hi, herase⟩ := h.idxOf hold
    simp only [hi, herase]
    rfl

theorem getElem?_heap_append {r : ℕ} (vote : EpochValidatorVote) (hr : r < s.heap.length) :
    (s.heap ++ [vote])[r]? = s.heap[r]? := List.getElem?_append_left hr

theorem Coherent.mem_others (h : s.Coherent) (address : Address) (r : ℕ) :
    r ∈ s.others address ↔
      r ∈ s.votes ∧ (s.heap[r]?).map EpochValidatorVote.address ≠ some address := by
  unfold others
  cases hold : s.votesByAddress[address]? with
  | none =>
    refine (and_iff_left_of_imp fun hr haddr => ?_).symm
    have hsome := (h.index address r).2 ⟨hr, haddr⟩
    rw [hold] at hsome
    cases hsome
  | some old =>
    rw [Option.elim_some, h.nodup.mem_erase_iff, and_comm]
    refine and_congr_right fun hr => not_congr ⟨fun heq => ?_, fun haddr => ?_⟩
    · exact heq ▸ ((h.index address old).1 hold).2
    · exact Option.some.inj (((h.index address r).2 ⟨hr, haddr⟩).symm.trans hold)

theorem Coherent.nodup_others (h : s.Coherent) (address : Address) : (s.others address).Nodup := by
  unfold others
  cases s.votesByAddress[address]? with
  | none => exact h.nodup
  | some old => exact h.nodup.erase old

theorem Coherent.stored (h : s.Coherent) (vote : EpochValidatorVote) : (s.stored vote).Coherent := by
  have hbound : ∀ r ∈ s.others vote.address, r < s.heap.length :=
    fun r hr => h.bound r ((h.mem_others _ r).1 hr).1
  refine ⟨?_, fun r hr => ?_, fun address r => ?_⟩
  · refine List.Nodup.append (h.nodup_others _) (List.nodup_singleton _) ?_
    rw [List.disjoint_singleton]
    exact fun hmem => (hbound _ hmem).false
  · show r < (s.heap ++ [vote]).length
    rw [List.length_append, List.length_singleton]
    rcases List.mem_append.1 hr with hr | hr
    · exact Nat.lt_succ_of_lt (hbound r hr)
    · rw [List.mem_singleton.1 hr]
      exact Nat.lt_succ_self _
  · show (s.votesByAddress.insert vote.address s.heap.length)[address]? = some r ↔
      r ∈ s.others vote.address ++ [s.heap.length] ∧
        ((s.heap ++ [vote])[r]?).map EpochValidatorVote.address = some address
    rw [FinMap.getElem?_insert_ite, List.mem_append, List.mem_singleton, h.mem_others]
    by_cases hr : r = s.heap.length
    · -- the pointer of the new vote
      subst hr
      have hold : s.heap.length ∉ s.votes := fun hmem => (h.bound _ hmem).false
      have hindex : s.votesByAddress[address]? ≠ some s.heap.length :=
        fun hsome => hold ((h.index _ _).1 hsome).1
      rw [List.getElem?_concat_length, Option.map_some, Option.some.injEq]
      split_ifs with haddr
      · exact iff_of_true rfl ⟨.inr rfl, haddr.symm⟩
      · exact iff_of_false hindex fun hboth => haddr hboth.2.symm
    · rw [or_iff_left hr]
      by_cases hmem : r ∈ s.votes
      · rw [getElem?_heap_append vote (h.bound r hmem)]
        split_ifs with haddr
        · subst haddr
          exact iff_of_false (fun heq => hr (Option.some.inj heq).symm) fun hboth => hboth.1.2 hboth.2
        · rw [h.index]
          refine ⟨fun ⟨_, heq⟩ => ⟨⟨hmem, fun hne => haddr ?_⟩, heq⟩, fun ⟨_, heq⟩ => ⟨hmem, heq⟩⟩
          exact Option.some.inj (heq.symm.trans hne)
      · refine iff_of_false (fun heq => ?_) fun hboth => hmem hboth.1.1
        split_ifs at heq with haddr
        · exact hr (Option.some.inj heq).symm
        · exact hmem ((h.index _ _).1 heq).1

/-! ## Updates -/

/-- The index has an address exactly if a vote has it. -/
theorem Coherent.any_contents (h : s.Coherent) (address : Address) :
    (s.contents.any fun v => v.address == address) = (s.votesByAddress[address]?).isSome := by
  rw [Bool.eq_iff_iff, List.any_eq_true, Option.isSome_iff_exists]
  unfold contents
  constructor
  · rintro ⟨v, hv, haddr⟩
    obtain ⟨r, hr, hget⟩ := List.mem_filterMap.1 hv
    refine ⟨r, (h.index address r).2 ⟨hr, ?_⟩⟩
    rw [hget, Option.map_some, eq_of_beq haddr]
  · rintro ⟨r, hr⟩
    obtain ⟨hmem, hmap⟩ := (h.index address r).1 hr
    obtain ⟨v, hget, haddr⟩ := Option.map_eq_some_iff.1 hmap
    exact ⟨v, List.mem_filterMap.2 ⟨r, hmem, hget⟩, beq_iff_eq.2 haddr⟩

/-- Votes are written through pointers: addresses are not changed. -/
theorem Coherent.modify (h : s.Coherent) (r : ℕ) {f : EpochValidatorVote → EpochValidatorVote}
    (hf : ∀ v, (f v).address = v.address) :
    Coherent { s with heap := s.heap.modify r f } where
  nodup := h.nodup
  bound := fun r' hr' => by
    rw [List.length_modify]
    exact h.bound r' hr'
  index := fun address r' => by
    have hsame : ((s.heap.modify r f)[r']?).map EpochValidatorVote.address =
        (s.heap[r']?).map EpochValidatorVote.address := by
      rw [List.getElem?_modify]
      show ((s.heap[r']?).map _).map _ = _
      rw [Option.map_map]
      refine Option.map_congr fun v _ => ?_
      simp only [Function.comp]
      split_ifs
      · exact hf v
      · rfl
    show _ ↔ r' ∈ s.votes ∧ ((s.heap.modify r f)[r']?).map _ = _
    rw [hsame]
    exact h.index address r'

/-- What is written through the pointer of an address is written to its vote. -/
theorem Coherent.contents_modify (h : s.Coherent) {address : Address} {r : ℕ}
    (hr : s.votesByAddress[address]? = some r) (f : EpochValidatorVote → EpochValidatorVote) :
    contents { s with heap := s.heap.modify r f } =
      s.contents.map fun v => if v.address = address then f v else v := by
  unfold contents
  rw [List.map_filterMap]
  refine List.filterMap_congr fun r' hr' => ?_
  rw [List.getElem?_modify]
  refine Option.map_congr fun v hv => ?_
  have hiff : r = r' ↔ v.address = address := by
    constructor
    · rintro rfl
      have haddr := ((h.index address r).1 hr).2
      rw [Option.mem_def.1 hv] at haddr
      exact Option.some.inj haddr
    · intro haddr
      have hr'' := (h.index address r').2 ⟨hr', by rw [Option.mem_def.1 hv, Option.map_some, haddr]⟩
      exact Option.some.inj (hr.symm.trans hr'')
  simp only [hiff]

theorem Coherent.contents_stored (h : s.Coherent) {vote : EpochValidatorVote}
    (hnew : s.votesByAddress[vote.address]? = none) :
    (s.stored vote).contents = s.contents ++ [vote] := by
  unfold contents VoteStore.stored others
  rw [hnew, Option.elim_none, List.filterMap_append]
  congr 1
  · exact List.filterMap_congr fun r hr => getElem?_heap_append vote (h.bound r hr)
  · simp

/-- **An update of the set in memory is the update of the list of votes.** -/
theorem Coherent.updateVote (h : s.Coherent) (op : UpdateNextEpochOp) :
    ∃ s', s.updateVote op = .ok s' ∧ s'.Coherent ∧
      s'.contents = EpochValidatorVoteSet.recordVotes op s.contents := by
  unfold VoteStore.updateVote EpochValidatorVoteSet.recordVotes getVoteByAddress
  rw [h.any_contents]
  cases hvote : s.votesByAddress[op.from_]? with
  | some r => exact ⟨_, rfl, h.modify r fun _ => rfl, h.contents_modify hvote _⟩
  | none => exact ⟨_, h.storeVote _, h.stored _, h.contents_stored hvote⟩

/-! ## Loading -/

theorem getElem?_indexed {votes : List EpochValidatorVote}
    (hnodup : (votes.map EpochValidatorVote.address).Nodup) (k : ℕ) (m : FinMap Address ℕ)
    (address : Address) (r : ℕ) :
    ((votes.zipIdx k).foldl (fun m p => m.insert p.1.address p.2) m)[address]? = some r ↔
      (∃ v, (v, r) ∈ votes.zipIdx k ∧ v.address = address) ∨
        (∀ v ∈ votes, v.address ≠ address) ∧ m[address]? = some r := by
  induction votes generalizing k m with
  | nil => simp
  | cons v votes ih =>
    obtain ⟨hv, hnodup⟩ := List.nodup_cons.1 hnodup
    rw [List.zipIdx_cons, List.foldl_cons, ih hnodup, FinMap.getElem?_insert_ite]
    simp only [List.mem_cons, Prod.mk.injEq]
    by_cases haddr : v.address = address
    · subst haddr
      have hrest : ∀ w ∈ votes, w.address ≠ v.address := fun w hw heq =>
        hv (List.mem_map.2 ⟨w, hw, heq⟩)
      have hnone : ¬∃ w, (w, r) ∈ votes.zipIdx (k + 1) ∧ w.address = v.address :=
        fun ⟨w, hw, heq⟩ => hrest w (List.fst_mem_of_mem_zipIdx hw) heq
      rw [if_pos rfl, or_iff_right hnone, and_iff_right hrest, Option.some.injEq]
      constructor
      · rintro rfl
        exact .inl ⟨v, .inl ⟨rfl, rfl⟩, rfl⟩
      · rintro (⟨w, ⟨-, heq⟩ | hw, haddr⟩ | ⟨hne, -⟩)
        · exact heq.symm
        · exact absurd ⟨w, hw, haddr⟩ hnone
        · exact absurd rfl (hne v (.inl rfl))
    · rw [if_neg (Ne.symm haddr)]
      refine or_congr ⟨fun ⟨w, hw, heq⟩ => ⟨w, .inr hw, heq⟩, ?_⟩ (by simp [haddr])
      rintro ⟨w, ⟨rfl, -⟩ | hw, heq⟩
      · exact absurd heq haddr
      · exact ⟨w, hw, heq⟩

theorem contents_load (votes : List EpochValidatorVote) : (load votes).contents = votes := by
  unfold contents load
  simp only
  induction votes using List.reverseRecOn with
  | nil => rfl
  | append_singleton votes v ih =>
    rw [List.length_append, List.length_singleton, List.range_succ, List.filterMap_append]
    congr 1
    · refine (List.filterMap_congr fun r hr => ?_).trans ih
      exact List.getElem?_append_left (List.mem_range.1 hr)
    · simp

theorem coherent_load (voteSet : EpochValidatorVoteSet) : (load voteSet.votes).Coherent where
  nodup := List.nodup_range
  bound := fun r hr => List.mem_range.1 hr
  index := fun address r => by
    unfold load
    simp only
    rw [getElem?_indexed voteSet.nodup]
    simp only [List.mem_zipIdx_iff_getElem?, List.mem_range, Option.map_eq_some_iff]
    refine (or_iff_left fun hnone => ?_).trans
      ⟨fun ⟨v, hget, haddr⟩ => ⟨?_, v, hget, haddr⟩, fun ⟨_, v, hget, haddr⟩ => ⟨v, hget, haddr⟩⟩
    · simp at hnone
    · exact (List.getElem?_eq_some_iff.1 hget).1

end VoteStore

end Staking
end LigoChain
