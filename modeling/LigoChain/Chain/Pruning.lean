/-
# Pruning old states

`PruneProcessor` (`core/datareduction/prune_processor.go`) deletes trie nodes of old states from
the chain database while the chain grows.  It counts the nodes of the states up to a block, marks
those of the state of the current head, deletes the counted nodes that are not marked, and keeps
the marked ones for the next time.

The states of the last `max_remain_trie` blocks should stay.  Only the head is marked: a node
that is in an old state and still in the state of the block before the head, but not in that of
the head, is deleted (`shared_node_deleted`).  `pruning_keeps_iff` says that this is the only way to
lose one: a run deletes no node of a recent state exactly if, at each deletion, every counted node
of a recent state is also reached in the state of the head.

A state is the forest of its trie nodes: the account trie with, below each account, its storage,
TX1, TX3, proxied and reward tries.  A node is known by its hash; sharing is equality of hashes.
The traversals open the tries of an account only if its key has 20 bytes, which no address of this
chain has.
-/

import LigoChain.Lib.Steps
import LigoChain.Types.Basic
import Mathlib.Logic.Function.Basic

namespace LigoChain
namespace Chain

/-- `max_count_trie`. -/
def maxCountTrie : ℕ := 1000

/-- `max_remain_trie`. -/
def maxRemainTrie : ℕ := 1000

/-- The nodes of a trie in the order of `NodeIterator`: a node with what is below it, and what comes
after both.  Values carry no hash; nodes that are embedded in others have no key in the database
and are left out. -/
inductive TrieNodes (H : Type)
  | nil
  | node (hash : H) (content rest : TrieNodes H)
  deriving DecidableEq

/-- The nodes of an account trie: an account leaf has the key that it was stored under, and the tries
of the account whose roots are not the empty one (storage, TX1, TX3, proxied and reward). -/
inductive StateNodes (H : Type)
  | nil
  | node (hash : H) (content rest : StateNodes H)
  | account (addr : Bytes) (tries : List (TrieNodes H)) (rest : StateNodes H)

/-- `NodeCount`. -/
abbrev NodeCount (H : Type) := H → Option ℕ

section Traversal

variable {H : Type} [DecidableEq H]

/-- The node is reachable in the trie. -/
def TrieNodes.mem (n : H) : TrieNodes H → Bool
  | .nil => false
  | .node hash content rest => n == hash || content.mem n || rest.mem n

/-- The node is reachable from the state root. -/
def StateNodes.mem (n : H) : StateNodes H → Bool
  | .nil => false
  | .node hash content rest => n == hash || content.mem n || rest.mem n
  | .account _ tries rest => tries.any (·.mem n) || rest.mem n

/-- The tries that the leaf of an account opens: `len(addr) == 20` is asked for. -/
def opened (addr : Bytes) (tries : List (TrieNodes H)) : List (TrieNodes H) :=
  if addr.length = 20 then tries else []

/-- The node is one that a traversal of the state comes to. -/
def StateNodes.reached (n : H) : StateNodes H → Bool
  | .nil => false
  | .node hash content rest => n == hash || content.reached n || rest.reached n
  | .account addr tries rest => (opened addr tries).any (·.mem n) || rest.reached n

variable (present : H → Bool) (markNoPrune : Bool)

/-- One turn of the loop of `countTrie`: the map after it, and whether to go below the node. -/
def visit (hash : H) (nodeCount : NodeCount H) : NodeCount H × Bool :=
  if markNoPrune then (Function.update nodeCount hash (some 1), true)
  else if (nodeCount hash).isSome then (nodeCount, false)
  else (Function.update nodeCount hash (some 0), true)

/-- `countTrie` of a trie without accounts, and whether the iterator came to its end: it stops at a
node that is missing. -/
def countTrie : TrieNodes H → NodeCount H → NodeCount H × Bool
  | .nil, nodeCount => (nodeCount, true)
  | .node hash content rest, nodeCount =>
    if !present hash then (nodeCount, false)
    else if !(visit markNoPrune hash nodeCount).2 then
      countTrie rest (visit markNoPrune hash nodeCount).1
    else
      let below := countTrie content (visit markNoPrune hash nodeCount).1
      if below.2 then countTrie rest below.1 else below

/-- The tries of an account are opened and counted one by one, each as far as it goes. -/
def countTries (tries : List (TrieNodes H)) (nodeCount : NodeCount H) : NodeCount H :=
  tries.foldl (fun nodeCount t => (countTrie present markNoPrune t nodeCount).1) nodeCount

/-- `countBlockChainTrie`. -/
def countBlockChainTrie : StateNodes H → NodeCount H → NodeCount H × Bool
  | .nil, nodeCount => (nodeCount, true)
  | .node hash content rest, nodeCount =>
    if !present hash then (nodeCount, false)
    else if !(visit markNoPrune hash nodeCount).2 then
      countBlockChainTrie rest (visit markNoPrune hash nodeCount).1
    else
      let below := countBlockChainTrie content (visit markNoPrune hash nodeCount).1
      if below.2 then countBlockChainTrie rest below.1 else below
  | .account addr tries rest, nodeCount =>
    countBlockChainTrie rest (countTries present markNoPrune (opened addr tries) nodeCount)

end Traversal

/-! ## What a traversal leaves in the map -/

section Marks

variable {H : Type} [DecidableEq H] {present : H → Bool}

/-- No node is marked. -/
def Unmarked (nodeCount : NodeCount H) : Prop :=
  ∀ n v, nodeCount n = some v → v = 0

/-- The map after marking the nodes of `mem`. -/
def marked (mem : H → Bool) (nodeCount : NodeCount H) : NodeCount H :=
  fun n => if mem n then some 1 else nodeCount n

omit [DecidableEq H] in
theorem marked_marked (mem mem' : H → Bool) (nodeCount : NodeCount H) :
    marked mem' (marked mem nodeCount) = marked (fun n => mem n || mem' n) nodeCount := by
  funext n
  simp only [marked, Bool.or_eq_true]
  split_ifs <;> simp_all

theorem update_eq_marked (hash : H) (nodeCount : NodeCount H) :
    Function.update nodeCount hash (some 1) = marked (· == hash) nodeCount := by
  funext n
  simp only [Function.update_apply, marked, beq_iff_eq]

theorem Unmarked.visit {nodeCount : NodeCount H} (h : Unmarked nodeCount) (hash : H) :
    Unmarked (visit false hash nodeCount).1 := by
  simp only [Chain.visit, Bool.false_eq_true, if_false]
  split
  · exact h
  · intro n v hn
    simp only [Function.update_apply] at hn
    split at hn
    · exact (Option.some.inj hn).symm
    · exact h n v hn

theorem Unmarked.countTrie (t : TrieNodes H) {nodeCount : NodeCount H} (h : Unmarked nodeCount) :
    Unmarked (countTrie present false t nodeCount).1 := by
  induction t generalizing nodeCount with
  | nil => exact h
  | node hash content rest ihContent ihRest =>
    simp only [Chain.countTrie]
    split
    · exact h
    split
    · exact ihRest (h.visit hash)
    split
    · exact ihRest (ihContent (h.visit hash))
    · exact ihContent (h.visit hash)

theorem Unmarked.countTries (tries : List (TrieNodes H)) {nodeCount : NodeCount H}
    (h : Unmarked nodeCount) : Unmarked (countTries present false tries nodeCount) := by
  induction tries generalizing nodeCount with
  | nil => exact h
  | cons t tries ih => exact ih (h.countTrie t)

theorem Unmarked.countBlockChainTrie (t : StateNodes H) {nodeCount : NodeCount H}
    (h : Unmarked nodeCount) : Unmarked (countBlockChainTrie present false t nodeCount).1 := by
  induction t generalizing nodeCount with
  | nil => exact h
  | node hash content rest ihContent ihRest =>
    simp only [Chain.countBlockChainTrie]
    split
    · exact h
    split
    · exact ihRest (h.visit hash)
    split
    · exact ihRest (ihContent (h.visit hash))
    · exact ihContent (h.visit hash)
  | account addr tries rest ihRest => exact ihRest (h.countTries (opened addr tries))

/-- Marking a trie that is complete in the database marks exactly its nodes. -/
theorem countTrie_complete (t : TrieNodes H) (nodeCount : NodeCount H)
    (hpresent : ∀ n, t.mem n = true → present n = true) :
    countTrie present true t nodeCount = (marked t.mem nodeCount, true) := by
  induction t generalizing nodeCount with
  | nil => rfl
  | node hash content rest ihContent ihRest =>
    have hmem : ∀ n, TrieNodes.mem n (.node hash content rest) =
      (n == hash || content.mem n || rest.mem n) := fun n => rfl
    have hhash : present hash = true := hpresent hash (by simp [hmem])
    have hcontent := fun nc => ihContent nc fun n hn => hpresent n (by simp [hmem, hn])
    have hrest := fun nc => ihRest nc fun n hn => hpresent n (by simp [hmem, hn])
    simp only [countTrie, visit, hhash, hcontent, hrest, update_eq_marked, marked_marked,
      Bool.not_true, Bool.false_eq_true, if_true, if_false]
    rfl

/-- Marking the tries of an account that are complete marks exactly their nodes. -/
theorem countTries_complete (tries : List (TrieNodes H)) (nodeCount : NodeCount H)
    (hpresent : ∀ n, tries.any (·.mem n) = true → present n = true) :
    countTries present true tries nodeCount = marked (fun n => tries.any (·.mem n)) nodeCount := by
  induction tries generalizing nodeCount with
  | nil => rfl
  | cons t tries ih =>
    have ht := countTrie_complete t nodeCount fun n hn => hpresent n (by simp [hn])
    have htries := ih (marked t.mem nodeCount) fun n hn => hpresent n (by
      rw [List.any_cons, hn, Bool.or_true])
    calc countTries present true (t :: tries) nodeCount
        = countTries present true tries (marked t.mem nodeCount) := by
          simp only [countTries, List.foldl_cons, ht]
      _ = marked (fun n => (t :: tries).any (·.mem n)) nodeCount := by
          rw [htries, marked_marked]
          rfl

theorem StateNodes.mem_of_reached (t : StateNodes H) {n : H} (h : t.reached n = true) :
    t.mem n = true := by
  induction t with
  | nil => exact h
  | node hash content rest ihContent ihRest =>
    simp only [StateNodes.reached, StateNodes.mem, Bool.or_eq_true] at h ⊢
    exact h.imp (Or.imp_right ihContent) ihRest
  | account addr tries rest ihRest =>
    simp only [StateNodes.reached, StateNodes.mem, Bool.or_eq_true] at h ⊢
    refine h.imp (fun htries => ?_) ihRest
    unfold opened at htries
    split_ifs at htries
    · exact htries
    · exact absurd htries (by simp)

/-- **Marking a state that is complete in the database marks exactly the nodes that are reached.** -/
theorem countBlockChainTrie_complete (t : StateNodes H) (nodeCount : NodeCount H)
    (hpresent : ∀ n, t.reached n = true → present n = true) :
    countBlockChainTrie present true t nodeCount = (marked t.reached nodeCount, true) := by
  induction t generalizing nodeCount with
  | nil => rfl
  | node hash content rest ihContent ihRest =>
    have hmem : ∀ n, StateNodes.reached n (.node hash content rest) =
      (n == hash || content.reached n || rest.reached n) := fun n => rfl
    have hhash : present hash = true := hpresent hash (by simp [hmem])
    have hcontent := fun nc => ihContent nc fun n hn => hpresent n (by simp [hmem, hn])
    have hrest := fun nc => ihRest nc fun n hn => hpresent n (by simp [hmem, hn])
    simp only [countBlockChainTrie, visit, hhash, hcontent, hrest, update_eq_marked, marked_marked,
      Bool.not_true, Bool.false_eq_true, if_true, if_false]
    rfl
  | account addr tries rest ihRest =>
    have hmem : ∀ n, StateNodes.reached n (.account addr tries rest) =
      ((opened addr tries).any (·.mem n) || rest.reached n) := fun n => rfl
    have htries := countTries_complete (opened addr tries) nodeCount fun n hn =>
      hpresent n (by simp [hmem, hn])
    have hrest := fun nc => ihRest nc fun n hn => hpresent n (by simp [hmem, hn])
    simp only [countBlockChainTrie, htries, hrest, marked_marked]
    rfl

end Marks

/-! ## The processor -/

/-- `calculateScan`: whether to scan, and from which block to which. -/
def calculateScan (scan latestBlockHeight : ℕ) : Bool × ℕ × ℕ :=
  let unscanHeight := (latestBlockHeight + 2 ^ 64 - scan) % 2 ^ 64
  let scanTo :=
    if maxRemainTrie < unscanHeight then (latestBlockHeight + 2 ^ 64 - maxRemainTrie) % 2 ^ 64
    else 0
  (scanTo != 0, scan, scanTo)

/-- Where `Process` is. -/
inductive Phase
  /-- At the head of the outer loop. -/
  | top
  /-- Before turn `i` of the loop that adds the previous state roots. -/
  | previous (i : ℕ)
  /-- Before turn `i` of the scan. -/
  | scan (i : ℕ)
  /-- Before the deletion in turn `i` of the scan. -/
  | prune (i : ℕ)
  /-- The dereference of a header that is not there has ended it. -/
  | stopped
  deriving DecidableEq

/-- A node that prunes: the head, the trie nodes in the database and those that wait in memory to be
written or dropped, and the variables of `Process`. -/
structure PruneProcessor (H : Type) where
  head : ℕ
  db : H → Bool
  memory : H → Bool
  nodeCount : NodeCount H
  blockNumber : ℕ
  scanNumber : ℕ
  pruneNumber : ℕ
  scanEnd : ℕ
  phase : Phase

/-- What can happen. -/
inductive PruneAction (H : Type)
  /-- A block is added to the chain: the nodes of `written` go to the database, those of `kept`
  stay in memory. -/
  | advance (written kept : H → Bool)
  /-- `Process` goes on; the caches can serve the nodes of `cached` too. -/
  | step (cached : H → Bool)

namespace PruneProcessor

variable {H : Type} [DecidableEq H]

/-- `NewPruneProcessor` and the call of `Process`. -/
def start (head : ℕ) (db memory : H → Bool) (blockNumber scanNumber pruneNumber : ℕ) :
    PruneProcessor H :=
  { head, db, memory, nodeCount := fun _ => none, blockNumber, scanNumber, pruneNumber
    scanEnd := 0, phase := .top }

variable (stateAt : ℕ → StateNodes H)

/-- The next block: its new nodes come to memory, and whatever is written or dropped, no node of
its state that was in memory is lost. -/
def advance (written kept : H → Bool) (p : PruneProcessor H) : PruneProcessor H :=
  { p with
    head := p.head + 1
    db := fun n => p.db n || written n
    memory := fun n => kept n || !written n && (stateAt (p.head + 1)).mem n &&
      (p.memory n || !(stateAt p.head).mem n) }

/-- What a traversal can read. -/
def present (p : PruneProcessor H) (cached : H → Bool) (n : H) : Bool :=
  p.db n || p.memory n || cached n

/-- Counting the state of block `i`; its header is there if the chain has come to it. -/
def countBlock (cached : H → Bool) (i : ℕ) (next : Phase) (p : PruneProcessor H) :
    PruneProcessor H :=
  if p.head < i then { p with phase := .stopped }
  else
    { p with
      nodeCount := (countBlockChainTrie (p.present cached) false (stateAt i) p.nodeCount).1
      phase := next }

/-- `pruneData`: the nodes without a mark leave the database and the map, the marks are reset. -/
def pruneData (p : PruneProcessor H) : PruneProcessor H :=
  { p with
    db := fun n => p.db n && p.nodeCount n != some 0
    nodeCount := fun n => match p.nodeCount n with
      | some 0 => none
      | some _ => some 0
      | none => none }

/-- The deletion, under the lock of the chain: the state of the current block is marked first. -/
def pruneBelow (cached : H → Bool) (i : ℕ) (p : PruneProcessor H) : PruneProcessor H :=
  let nodeCount :=
    (countBlockChainTrie (p.present cached) true (stateAt p.head) p.nodeCount).1
  { pruneData { p with nodeCount } with phase := .scan ((i + 1) % 2 ^ 64) }

/-- `Process`, from one read of the chain or of the database to the next. -/
def step (cached : H → Bool) (p : PruneProcessor H) : PruneProcessor H :=
  match p.phase with
  | .stopped => p
  | .top =>
    let scan := calculateScan p.scanNumber p.blockNumber
    if scan.1 then
      { p with
        scanEnd := scan.2.2
        phase := if 0 < p.pruneNumber then .previous ((p.pruneNumber + 1) % 2 ^ 64)
          else .scan scan.2.1 }
    else { p with scanEnd := scan.2.2, blockNumber := p.head }
  | .previous i =>
    if i ≤ p.scanNumber then p.countBlock stateAt cached i (.previous ((i + 1) % 2 ^ 64))
    else { p with phase := .scan p.scanNumber }
  | .scan i =>
    if i ≤ (p.scanEnd + 1) % 2 ^ 64 then
      p.countBlock stateAt cached i
        (if i % maxCountTrie = maxCountTrie - 1 ∨ i = p.scanEnd then .prune i
          else .scan ((i + 1) % 2 ^ 64))
    else
      { p with
        blockNumber := p.head
        scanNumber := (p.scanEnd + 1) % 2 ^ 64
        pruneNumber := p.scanEnd
        phase := .top }
  | .prune i => p.pruneBelow stateAt cached i

/-- One action. -/
def act (p : PruneProcessor H) : PruneAction H → PruneProcessor H
  | .advance written kept => p.advance stateAt written kept
  | .step cached => p.step stateAt cached

/-- The block is one of the last `max_remain_trie` ones. -/
def Recent (p : PruneProcessor H) (k : ℕ) : Prop :=
  k ≤ p.head ∧ p.head < k + maxRemainTrie

/-- The action deletes no trie node of a recent state from the database. -/
def Keeps (p : PruneProcessor H) (a : PruneAction H) : Prop :=
  ∀ k, p.Recent k → ∀ n, (stateAt k).mem n = true → p.db n = true →
    (p.act stateAt a).db n = true

/-- A deletion spares the recent states: what was counted and is in one of them is also reached in
the state of the head. -/
def Spares (p : PruneProcessor H) : PruneAction H → Prop
  | .advance _ _ => True
  | .step _ => ∀ i, p.phase = .prune i → ∀ k, p.Recent k → ∀ n, (stateAt k).mem n = true →
      p.db n = true → (p.nodeCount n).isSome = true → (stateAt p.head).reached n = true

/-- Between two steps no node is marked, and the state of the head can be read. -/
structure Sound (p : PruneProcessor H) : Prop where
  unmarked : Unmarked p.nodeCount
  readable : ∀ n, (stateAt p.head).mem n = true → p.db n = true ∨ p.memory n = true

/-! ## Runs -/

variable {stateAt}

theorem countBlock_frame (p : PruneProcessor H) (cached : H → Bool) (i : ℕ) (next : Phase) :
    (p.countBlock stateAt cached i next).head = p.head ∧
      (p.countBlock stateAt cached i next).db = p.db ∧
      (p.countBlock stateAt cached i next).memory = p.memory := by
  simp only [countBlock]
  split <;> exact ⟨rfl, rfl, rfl⟩

theorem unmarked_countBlock {p : PruneProcessor H} (hp : Unmarked p.nodeCount) (cached : H → Bool)
    (i : ℕ) (next : Phase) : Unmarked (p.countBlock stateAt cached i next).nodeCount := by
  simp only [countBlock]
  split
  · exact hp
  · exact hp.countBlockChainTrie _

omit [DecidableEq H] in
theorem unmarked_pruneData (p : PruneProcessor H) : Unmarked p.pruneData.nodeCount := by
  intro n v hn
  simp only [pruneData] at hn
  split at hn
  · cases hn
  · exact (Option.some.inj hn).symm
  · cases hn

theorem unmarked_step {p : PruneProcessor H} (hp : Unmarked p.nodeCount) (cached : H → Bool) :
    Unmarked (p.step stateAt cached).nodeCount := by
  simp only [step]
  split
  · exact hp
  · split
    · exact hp
    · exact hp
  · split
    · exact unmarked_countBlock hp _ _ _
    · exact hp
  · split
    · exact unmarked_countBlock hp _ _ _
    · exact hp
  · exact unmarked_pruneData _

theorem step_frame {p : PruneProcessor H} (hp : ∀ i, p.phase ≠ .prune i) (cached : H → Bool) :
    (p.step stateAt cached).head = p.head ∧ (p.step stateAt cached).db = p.db ∧
      (p.step stateAt cached).memory = p.memory := by
  simp only [step]
  split
  · exact ⟨rfl, rfl, rfl⟩
  · split <;> exact ⟨rfl, rfl, rfl⟩
  · split
    · exact countBlock_frame p cached _ _
    · exact ⟨rfl, rfl, rfl⟩
  · split
    · exact countBlock_frame p cached _ _
    · exact ⟨rfl, rfl, rfl⟩
  · next i hi => exact absurd hi (hp i)

/-- **What a deletion leaves**: the nodes that were not counted, and those reached in the head. -/
theorem Sound.pruneBelow_db {p : PruneProcessor H} (hp : p.Sound stateAt) (cached : H → Bool)
    (i : ℕ) (n : H) :
    (p.pruneBelow stateAt cached i).db n = true ↔
      p.db n = true ∧ ((p.nodeCount n).isSome = true → (stateAt p.head).reached n = true) := by
  have hmark : countBlockChainTrie (p.present cached) true (stateAt p.head) p.nodeCount =
      (marked (stateAt p.head).reached p.nodeCount, true) := by
    refine countBlockChainTrie_complete (stateAt p.head) p.nodeCount fun n hn => ?_
    rcases hp.readable n ((stateAt p.head).mem_of_reached hn) with h | h <;> simp [present, h]
  simp only [pruneBelow, pruneData, hmark, marked, Bool.and_eq_true, bne_iff_ne]
  refine and_congr_right fun _ => ?_
  split
  · next hhead => exact iff_of_true (by decide) fun _ => hhead
  · next hhead =>
    cases hcount : p.nodeCount n with
    | none => exact iff_of_true (by simp) fun h => absurd h (by decide)
    | some v => simp [hp.unmarked n v hcount, hhead]

omit [DecidableEq H] in
theorem recent_head (p : PruneProcessor H) : p.Recent p.head :=
  ⟨le_rfl, Nat.lt_add_of_pos_right (by decide)⟩

theorem step_head_memory (p : PruneProcessor H) (cached : H → Bool) :
    (p.step stateAt cached).head = p.head ∧ (p.step stateAt cached).memory = p.memory := by
  by_cases hphase : ∃ i, p.phase = .prune i
  · obtain ⟨i, hi⟩ := hphase
    simp only [step, hi, pruneBelow, pruneData, and_self]
  · obtain ⟨hhead, -, hmemory⟩ := @step_frame H _ stateAt p (fun i hi => hphase ⟨i, hi⟩) cached
    exact ⟨hhead, hmemory⟩

/-- Every action that deletes no node of a recent state keeps the processor sound. -/
theorem Sound.act {p : PruneProcessor H} (hp : p.Sound stateAt) {a : PruneAction H}
    (hkeeps : p.Keeps stateAt a) : (p.act stateAt a).Sound stateAt := by
  cases a with
  | advance written kept =>
    refine ⟨hp.unmarked, fun n hn => ?_⟩
    simp only [PruneProcessor.act, PruneProcessor.advance] at hn ⊢
    by_cases hhead : (stateAt p.head).mem n = true
    · rcases hp.readable n hhead with h | h
      · exact .inl (by simp [h])
      · cases hw : written n <;> simp [hn, h]
    · cases hw : written n <;> simp [hn, hhead]
  | step cached =>
    refine ⟨unmarked_step hp.unmarked cached, fun n hn => ?_⟩
    obtain ⟨hhead, hmemory⟩ := @step_head_memory H _ stateAt p cached
    simp only [PruneProcessor.act, hhead, hmemory] at hn ⊢
    exact (hp.readable n hn).imp_left fun h => hkeeps p.head p.recent_head n hn h

/-- **An action deletes no node of a recent state exactly if it spares them.** -/
theorem Sound.keeps_iff {p : PruneProcessor H} (hp : p.Sound stateAt) (a : PruneAction H) :
    p.Keeps stateAt a ↔ p.Spares stateAt a := by
  cases a with
  | advance written kept =>
    refine iff_of_true (fun k hk n hn hin => ?_) trivial
    simp only [PruneProcessor.act, advance, hin, Bool.true_or]
  | step cached =>
    by_cases hphase : ∃ i, p.phase = .prune i
    · obtain ⟨i, hi⟩ := hphase
      have hstep : p.act stateAt (.step cached) = p.pruneBelow stateAt cached i := by
        simp only [PruneProcessor.act, step, hi]
      simp only [Keeps, hstep, hp.pruneBelow_db]
      constructor
      · intro hkept _ _ k hk n hn hin
        exact (hkept k hk n hn hin).2
      · intro hspares k hk n hn hin
        exact ⟨hin, hspares i hi k hk n hn hin⟩
    · have hne : ∀ i, p.phase ≠ .prune i := fun i hi => hphase ⟨i, hi⟩
      refine iff_of_true (fun k hk n hn hin => ?_) fun i hi => absurd hi (hne i)
      obtain ⟨-, hdb, -⟩ := @step_frame H _ stateAt p hne cached
      simp only [PruneProcessor.act, hdb, hin]

/-- **Pruning deletes no node of a recent state exactly if every deletion spares them.**  For every
chain and every run of `Process` while the head advances, from any point where the state of the
head can be read: no action of the run deletes a node of one of the last `max_remain_trie` states,
exactly if at each deletion every counted node of one of them is reached in the state of the
head. -/
theorem pruning_keeps_iff (stateAt : ℕ → StateNodes H) (head : ℕ) (db memory : H → Bool)
    (blockNumber scanNumber pruneNumber : ℕ) (actions : List (PruneAction H))
    (hhead : ∀ n, (stateAt head).mem n = true → db n = true ∨ memory n = true) :
    Steps.RunMeets (ε := GoPanic) (fun p a => .ok (act stateAt p a)) (Keeps stateAt)
        (start head db memory blockNumber scanNumber pruneNumber) actions ↔
      Steps.RunMeets (ε := GoPanic) (fun p a => .ok (act stateAt p a)) (Spares stateAt)
        (start head db memory blockNumber scanNumber pruneNumber) actions := by
  refine Steps.runMeets_congr (J := Sound stateAt) ?_ (fun p a hp => hp.keeps_iff a) actions ?_
  · intro p a q hp hkeeps hq
    rw [← Except.ok.inj hq]
    exact hp.act hkeeps
  · exact { unmarked := fun n v hn => (nomatch hn), readable := hhead }

/-- On a chain whose state never changes nothing is lost. -/
theorem pruning_keeps_iff_still :
    Steps.RunMeets (ε := GoPanic)
      (fun p a => .ok (act (fun _ => StateNodes.node 0 .nil .nil) p a))
      (Keeps fun _ => StateNodes.node 0 .nil .nil)
      (start 1001 (fun _ => true) (fun _ => false) 1001 0 0)
      [.step fun _ => false, .step fun _ => false, .advance (fun _ => false) fun _ => false,
        .step fun _ => false, .step fun _ => false] :=
  (pruning_keeps_iff (fun _ => .node 0 .nil .nil) 1001 (fun _ => true) (fun _ => false) 1001 0 0 _
    fun _ _ => .inl rfl).2 (Steps.RunMeets.of_forall (fun p a => by
      cases a with
      | advance written kept => trivial
      | step cached => exact fun _ _ _ _ _ hn _ _ => hn) _ _)

/-- A chain whose blocks have roots of their own and share one node until block 1001 drops it. -/
def droppedNode (i : ℕ) : StateNodes ℕ :=
  .node i (if i < 1001 then .node 5000 .nil .nil else .nil) .nil

/-- **A node of a recent state is deleted.**  With the head at block 1001 and every node in the
database, the states of blocks 0 and 1 are scanned; the shared node is counted there and not marked
at the head, and block 1000 still needs it. -/
theorem shared_node_deleted :
    let p := [PruneAction.step fun _ => false, .step fun _ => false, .step fun _ => false].foldl
      (act droppedNode) (start 1001 (fun _ => true) (fun _ => false) 1001 0 0)
    p.Recent 1000 ∧ (droppedNode 1000).mem 5000 = true ∧ p.db 5000 = true ∧
      (p.act droppedNode (.step fun _ => false)).db 5000 = false :=
  ⟨⟨by decide +kernel, by decide +kernel⟩, by decide +kernel, by decide +kernel,
    by decide +kernel⟩

end PruneProcessor

end Chain
end LigoChain
