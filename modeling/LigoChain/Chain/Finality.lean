/-
# Finality

A block that has been written to the chain should stay: the canonical hash of a height never
changes, and the height of the current block never goes down.  With the Tendermint engine
`writeBlockWithState` makes every block canonical that it is given, through a `reorg` if it has to,
so this would have to come from the seals that `verifyHeader` checks.

The seals do not bind a header (`Engine.verifyHeader_not_authentic`): a second block of the same
height, with the seals of the first, is accepted and takes its place (`reorg_replaces_block`).
`finality_iff` says exactly when a sequence of calls keeps what was written: when every block
written is the current one, or is above it and, unless it was known before, descends from it.
-/

import LigoChain.Chain.BlockChain

namespace LigoChain

namespace Chain

open Engine

namespace BlockChain

variable {sb : Backend} {bc bc' : BlockChain sb} {block : Block} {a : Answers}
variable {number : ℕ} {chain : List Block} {hash : Bytes}

/-- What was written stays: the canonical hashes, and the height that was reached. -/
structure Keeps (bc bc' : BlockChain sb) : Prop where
  canonical : ∀ number hash, bc.canonical number = some hash → bc'.canonical number = some hash
  head : bc.currentBlock.numberU64 ≤ bc'.currentBlock.numberU64

/-- The current block is canonical, and nothing above it is. -/
structure Settled (bc : BlockChain sb) : Prop where
  head : bc.canonical bc.currentBlock.numberU64 = some (bc.currentBlock.hash sb)
  above : ∀ number, bc.currentBlock.numberU64 < number → bc.canonical number = none

/-- The block is the current one. -/
def IsHead (bc : BlockChain sb) (block : Block) : Prop :=
  block.numberU64 = bc.currentBlock.numberU64 ∧ block.hash sb = bc.currentBlock.hash sb

/-- The ancestor of the block at the height of the current block is the current block. -/
def Descends (bc : BlockChain sb) (block : Block) : Prop :=
  block.header.parentHash = bc.currentBlock.hash sb ∨
    ∃ low passed, bc.lower (block.numberU64 - bc.currentBlock.numberU64) block [] =
      some (low, passed) ∧ low.hash sb = bc.currentBlock.hash sb

/-- That ancestor is found by the loop of `reorg`. -/
def Reaches (bc : BlockChain sb) (block : Block) : Prop :=
  ∃ low passed, bc.lower (block.numberU64 - bc.currentBlock.numberU64) block [] =
    some (low, passed) ∧ low.hash sb = bc.currentBlock.hash sb

/-- A block that is written follows the current block: it is that block, or it is above it and was
known before or descends from it. -/
def Follows (a : Answers) (bc : BlockChain sb) (block : Block) : Prop :=
  (bc.writeBlockWithState a block).1 = none →
    bc.IsHead block ∨ bc.currentBlock.numberU64 < block.numberU64 ∧
      (bc.hasBlockAndState (block.hash sb) block.numberU64 = true ∨ bc.Descends block)

/-! ## Inserting a chain -/

theorem canonical_foldl_of_ne (h : ∀ b ∈ chain, b.numberU64 ≠ number) :
    (chain.foldl insert bc).canonical number = bc.canonical number := by
  induction chain generalizing bc with
  | nil => rfl
  | cons b chain ih =>
    rw [List.foldl_cons, ih fun b' hb' => h b' (List.mem_cons_of_mem b hb')]
    exact if_neg (h b List.mem_cons_self).symm

theorem canonical_foldl_of_eq (hbc : bc.canonical number = some hash)
    (h : ∀ b ∈ chain, b.numberU64 = number → b.hash sb = hash) :
    (chain.foldl insert bc).canonical number = some hash := by
  induction chain generalizing bc with
  | nil => exact hbc
  | cons b chain ih =>
    rw [List.foldl_cons]
    refine ih ?_ fun b' hb' => h b' (List.mem_cons_of_mem b hb')
    simp only [insert]
    split
    · next hb => rw [h b List.mem_cons_self hb.symm]
    · exact hbc

/-- A canonical hash goes if a block is inserted at its number and none of those has it. -/
theorem canonical_foldl_ne
    (hbc : bc.canonical number ≠ some hash ∨ ∃ b ∈ chain, b.numberU64 = number)
    (h : ∀ b ∈ chain, b.numberU64 = number → b.hash sb ≠ hash) :
    (chain.foldl insert bc).canonical number ≠ some hash := by
  induction chain generalizing bc with
  | nil => exact hbc.resolve_right fun ⟨_, hb, _⟩ => absurd hb List.not_mem_nil
  | cons b chain ih =>
    rw [List.foldl_cons]
    refine ih ?_ fun b' hb' => h b' (List.mem_cons_of_mem b hb')
    simp only [insert]
    by_cases hb : number = b.numberU64
    · rw [if_pos hb]
      exact .inl fun heq => h b List.mem_cons_self hb.symm (Option.some.inj heq)
    · rw [if_neg hb]
      refine hbc.imp_right fun ⟨b', hb', hnumber⟩ => ⟨b', ?_, hnumber⟩
      exact (List.mem_cons.1 hb').resolve_left fun heq => hb (heq ▸ hnumber.symm)

theorem insert_foldl (chain : List Block) :
    (chain.foldl insert bc).insert block = (chain ++ [block]).foldl insert bc := by
  rw [List.foldl_append]
  rfl

/-- Inserting blocks above the current one, or the current one itself, keeps what was written. -/
theorem Settled.keeps_foldl (h : bc.Settled)
    (hchain : ∀ b ∈ chain ++ [block], bc.currentBlock.numberU64 < b.numberU64 ∨ bc.IsHead b) :
    bc.Keeps ((chain.foldl insert bc).insert block) := by
  constructor
  · intro number hash hnumber
    rw [insert_foldl]
    refine canonical_foldl_of_eq hnumber fun b hb heq => ?_
    have hle : ¬ bc.currentBlock.numberU64 < number := fun hlt => by
      rw [h.above number hlt] at hnumber
      cases hnumber
    subst heq
    obtain ⟨hsame, hhash⟩ := (hchain b hb).resolve_left hle
    rw [hsame, h.head] at hnumber
    rw [hhash]
    exact Option.some.inj hnumber
  · exact (hchain block (by simp)).elim le_of_lt fun hhead => hhead.1.ge

theorem Settled.foldl (h : bc.Settled) (hle : bc.currentBlock.numberU64 ≤ block.numberU64)
    (hchain : ∀ b ∈ chain, b.numberU64 ≤ block.numberU64) :
    ((chain.foldl insert bc).insert block).Settled := by
  constructor
  · exact if_pos rfl
  · intro number hnumber
    have hlt : block.numberU64 < number := hnumber
    rw [insert_foldl, canonical_foldl_of_ne]
    · exact h.above number (hle.trans_lt hlt)
    · intro b hb
      rcases List.mem_append.1 hb with hb | hb
      · exact ((hchain b hb).trans_lt hlt).ne
      · rw [List.mem_singleton.1 hb]
        exact hlt.ne

/-! ## The new chain of a reorganisation -/

theorem numberU64_lt (b : Block) : b.numberU64 < 2 ^ 64 := Nat.mod_lt _ (by decide)

theorem parentNumber_of_pos (hpos : 0 < number) (hlt : number < 2 ^ 64) :
    parentNumber number = number - 1 := by
  have hsum : number + (2 ^ 64 - 1) = number - 1 + 2 ^ 64 := by omega
  rw [parentNumber, hsum, Nat.add_mod_right, Nat.mod_eq_of_lt (by omega)]

theorem number_of_getBlock (h : bc.getBlock hash number = some block) : block.numberU64 = number := by
  obtain ⟨found, hfound, rfl⟩ := Option.map_eq_some_iff.1 h
  exact (bc.store.keyed hfound).2

/-- The chain when the state of a block has been committed. -/
def committed (a : Answers) (bc : BlockChain sb) (block : Block) (td : ℤ) : BlockChain sb :=
  (bc.writeBlockWithoutState block td).commitState a block

theorem keeps_committed {td : ℤ} : (bc.committed a block td).Keeps bc' ↔ bc.Keeps bc' :=
  ⟨fun h => ⟨h.canonical, h.head⟩, fun h => ⟨h.canonical, h.head⟩⟩

theorem getBlock_committed {td : ℤ} (hne : block.numberU64 ≠ number) :
    (bc.committed a block td).getBlock hash number = bc.getBlock hash number := by
  have hkey : ¬ (block.hash sb = hash ∧ block.numberU64 = number) := fun hkey => hne hkey.2
  simp only [getBlock, committed, commitState, writeBlockWithoutState, BlockStore.write,
    if_neg hkey]

/-- **What the first loop finds**: a block so many steps below, and the blocks above it. -/
theorem lower_spec {steps : ℕ} {start low : Block} {passed passed' : List Block}
    (hsteps : steps ≤ start.numberU64) (h : bc.lower steps start passed = some (low, passed')) :
    low.numberU64 = start.numberU64 - steps ∧
      ∀ b ∈ passed', b ∈ passed ∨ low.numberU64 < b.numberU64 ∧ b.numberU64 ≤ start.numberU64 := by
  induction steps generalizing start passed with
  | zero =>
    obtain ⟨rfl, rfl⟩ := Prod.mk.inj (Option.some.inj h)
    exact ⟨rfl, fun b hb => .inl hb⟩
  | succ steps ih =>
    simp only [lower] at h
    split at h
    · cases h
    next parent hparent =>
    have hnumber := number_of_getBlock hparent
    rw [parentNumber_of_pos (by omega) (numberU64_lt start)] at hnumber
    obtain ⟨hlow, hpassed⟩ := ih (by omega) h
    refine ⟨by omega, fun b hb => ?_⟩
    rcases hpassed b hb with hb | hb
    · rcases List.mem_cons.1 hb with rfl | hb
      · exact .inr ⟨by omega, le_rfl⟩
      · exact .inl hb
    · exact .inr ⟨hb.1, by omega⟩

theorem lower_committed {td : ℤ} {steps : ℕ} {start : Block} {passed : List Block}
    (hsteps : steps ≤ start.numberU64) (hstart : start.numberU64 ≤ block.numberU64) :
    (bc.committed a block td).lower steps start passed = bc.lower steps start passed := by
  induction steps generalizing start passed with
  | zero => rfl
  | succ steps ih =>
    have hparent := parentNumber_of_pos (by omega) (numberU64_lt start)
    simp only [lower, hparent]
    rw [getBlock_committed (by omega)]
    split
    · rfl
    next parent hfound =>
    have hnumber := number_of_getBlock hfound
    exact ih (by omega) (by omega)

/-- **What the second loop finds**: nothing new if the blocks agree, else the new block and blocks
below it. -/
theorem commonBlock_spec {oldBlock newBlock : Block} {chain chain' : List Block}
    (h : bc.commonBlock number oldBlock newBlock chain = some chain') :
    chain ⊆ chain' ∧ (newBlock.hash sb = oldBlock.hash sb ∧ chain' = chain ∨
      newBlock.hash sb ≠ oldBlock.hash sb ∧ newBlock ∈ chain' ∧
        ∀ b ∈ chain', b ∈ chain ∨ b = newBlock ∨ b.numberU64 < number) := by
  induction number generalizing oldBlock newBlock chain with
  | zero =>
    unfold commonBlock at h
    split at h <;> cases h
    next heq => exact ⟨fun _ hb => hb, .inl ⟨heq.symm, rfl⟩⟩
  | succ number ih =>
    unfold commonBlock at h
    split at h
    · next heq =>
      cases h
      exact ⟨fun _ hb => hb, .inl ⟨heq.symm, rfl⟩⟩
    next hne =>
    dsimp only at h
    split at h
    · next oldParent newParent _ hnewParent =>
      have hnumber := number_of_getBlock hnewParent
      obtain ⟨hsubset, hspec⟩ := ih h
      obtain ⟨hnew, hold⟩ := List.cons_subset.1 hsubset
      refine ⟨hold, .inr ⟨Ne.symm hne, hnew, fun b hb => ?_⟩⟩
      have hcons : b ∈ newBlock :: chain → b ∈ chain ∨ b = newBlock ∨ b.numberU64 < number + 1 :=
        fun hb => (List.mem_cons.1 hb).elim (fun hb => .inr (.inl hb)) .inl
      rcases hspec with ⟨-, rfl⟩ | ⟨-, -, hall⟩
      · exact hcons hb
      · rcases hall b hb with hb | rfl | hb
        · exact hcons hb
        · exact .inr (.inr (by omega))
        · exact .inr (.inr (by omega))
    · cases h

/-- **The new chain of a block above the old one.**  If the old block is an ancestor, the new blocks
are above it; if not, one of them has its number, and no such block has its hash. -/
theorem newChain_spec {oldBlock newBlock : Block} (hle : oldBlock.numberU64 ≤ newBlock.numberU64)
    (h : bc.newChain oldBlock newBlock = some chain) :
    ∃ low passed,
      bc.lower (newBlock.numberU64 - oldBlock.numberU64) newBlock [] = some (low, passed) ∧
      (∀ b ∈ chain, b.numberU64 ≤ newBlock.numberU64) ∧
      (low.hash sb = oldBlock.hash sb ∧ (∀ b ∈ chain, oldBlock.numberU64 < b.numberU64) ∨
        low.hash sb ≠ oldBlock.hash sb ∧ (∃ b ∈ chain, b.numberU64 = oldBlock.numberU64) ∧
          ∀ b ∈ chain, b.numberU64 = oldBlock.numberU64 → b.hash sb ≠ oldBlock.hash sb) := by
  unfold newChain at h
  rw [if_neg (by omega)] at h
  split at h
  · cases h
  next low passed hlower =>
  obtain ⟨hlow, hpassed⟩ := lower_spec (by omega) hlower
  have hnumber : low.numberU64 = oldBlock.numberU64 := by omega
  have hall : ∀ b ∈ passed, oldBlock.numberU64 < b.numberU64 ∧
      b.numberU64 ≤ newBlock.numberU64 := by
    intro b hb
    have := (hpassed b hb).resolve_left List.not_mem_nil
    omega
  refine ⟨low, passed, hlower, ?_⟩
  rcases (commonBlock_spec h).2 with ⟨hhash, rfl⟩ | ⟨hhash, hmem, hchain⟩
  · exact ⟨fun b hb => (hall b hb).2, .inl ⟨hhash, fun b hb => (hall b hb).1⟩⟩
  · refine ⟨fun b hb => ?_, .inr ⟨hhash, ⟨low, hmem, hnumber⟩, fun b hb heq => ?_⟩⟩
    · rcases hchain b hb with hb | rfl | hb
      · exact (hall b hb).2
      · omega
      · omega
    · rcases hchain b hb with hb | rfl | hb
      · have := (hall b hb).1
        omega
      · exact hhash
      · omega

/-! ## One write -/

/-- Inserting one block keeps what was written exactly if it is the current block or above it. -/
theorem Settled.insert_keeps_iff (h : bc.Settled) :
    bc.Keeps (bc.insert block) ↔ bc.IsHead block ∨ bc.currentBlock.numberU64 < block.numberU64 := by
  constructor
  · intro hkeeps
    have hle : bc.currentBlock.numberU64 ≤ block.numberU64 := hkeeps.head
    rcases hle.lt_or_eq with hlt | heq
    · exact .inr hlt
    · have hhash := hkeeps.canonical _ _ h.head
      simp only [insert, if_pos heq] at hhash
      exact .inl ⟨heq.symm, Option.some.inj hhash⟩
  · intro hor
    have hone : ∀ b ∈ [] ++ [block], bc.currentBlock.numberU64 < b.numberU64 ∨ bc.IsHead b := by
      intro b hb
      rw [List.mem_singleton.1 hb]
      exact hor.symm
    exact h.keeps_foldl hone

/-- A reorganisation keeps what was written exactly if the current block is the new one or an
ancestor of it. -/
theorem Settled.reorg_keeps_iff (h : bc.Settled)
    (hbc' : bc.reorg bc.currentBlock block = some bc') :
    bc.Keeps (bc'.insert block) ↔
      bc.currentBlock.numberU64 ≤ block.numberU64 ∧ bc.Reaches block := by
  obtain ⟨chain, hchain, rfl⟩ := Option.map_eq_some_iff.1 hbc'
  constructor
  · intro hkeeps
    have hle : bc.currentBlock.numberU64 ≤ block.numberU64 := hkeeps.head
    obtain ⟨low, passed, hlower, -, hspec⟩ := newChain_spec hle hchain
    refine ⟨hle, low, passed, hlower, ?_⟩
    rcases hspec with ⟨hhash, -⟩ | ⟨hhash, ⟨b, hb, hnumber⟩, hne⟩
    · exact hhash
    · refine absurd (hkeeps.canonical _ _ h.head) ?_
      rw [insert_foldl]
      refine canonical_foldl_ne (.inr ⟨b, List.mem_append_left _ hb, hnumber⟩) fun b hb heq => ?_
      rcases List.mem_append.1 hb with hb | hb
      · exact hne b hb heq
      · obtain rfl := List.mem_singleton.1 hb
        -- Zero steps below the new block is the new block.
        rw [heq, Nat.sub_self] at hlower
        obtain ⟨rfl, -⟩ := Prod.mk.inj (Option.some.inj hlower)
        exact hhash
  · rintro ⟨hle, low, passed, hlower, hhash⟩
    obtain ⟨low', passed', hlower', -, hspec⟩ := newChain_spec hle hchain
    rw [hlower] at hlower'
    obtain ⟨rfl, -⟩ := Prod.mk.inj (Option.some.inj hlower')
    have habove := (hspec.resolve_right fun hne => hne.1 hhash).2
    refine h.keeps_foldl fun b hb => ?_
    rcases List.mem_append.1 hb with hb | hb
    · exact .inl (habove b hb)
    · obtain rfl := List.mem_singleton.1 hb
      rcases hle.lt_or_eq with hlt | heq
      · exact .inl hlt
      · rw [heq, Nat.sub_self] at hlower
        obtain ⟨rfl, -⟩ := Prod.mk.inj (Option.some.inj hlower)
        exact .inr ⟨heq.symm, hhash⟩

/-- A write keeps what was written exactly if its block follows the current one, and if so the
current block is again the highest. -/
def Decided (a : Answers) (bc : BlockChain sb) (block : Block) : Prop :=
  (bc.Keeps (bc.writeBlockWithState a block).2 ↔ bc.Follows a block) ∧
    (bc.Keeps (bc.writeBlockWithState a block).2 → (bc.writeBlockWithState a block).2.Settled)

theorem Settled.decided_of_error (h : bc.Settled) {err : ChainError}
    (hwrite : bc.writeBlockWithState a block = (some err, bc'))
    (hcanonical : bc'.canonical = bc.canonical) (hcurrent : bc'.currentBlock = bc.currentBlock) :
    bc.Decided a block := by
  have hkeeps : bc.Keeps bc' :=
    ⟨fun _ _ => by rw [hcanonical]; exact id, by rw [hcurrent]⟩
  have hsettled : bc'.Settled := by
    constructor
    · rw [hcanonical, hcurrent, h.head]
    · rw [hcanonical, hcurrent]
      exact h.above
  have hfollows : bc.Follows a block := fun hnone => by
    rw [hwrite] at hnone
    cases hnone
  rw [Decided, hwrite]
  exact ⟨iff_of_true hkeeps hfollows, fun _ => hsettled⟩

theorem Settled.decided_of_known (h : bc.Settled)
    (hknown : bc.hasBlockAndState (block.hash sb) block.numberU64 = true) :
    bc.Decided a block := by
  have hwrite : bc.writeBlockWithState a block = (none, bc.insert block) := if_pos hknown
  have hfollows : bc.Follows a block ↔
      bc.IsHead block ∨ bc.currentBlock.numberU64 < block.numberU64 := by
    simp only [Follows, hwrite, forall_const, hknown, true_or, and_true]
  rw [Decided, hfollows, hwrite]
  refine ⟨h.insert_keeps_iff, fun hkeeps => ?_⟩
  have hnone : ∀ b ∈ ([] : List Block), b.numberU64 ≤ block.numberU64 := by simp
  exact h.foldl hkeeps.head hnone

/-- A new block whose parent is the current block. -/
theorem Settled.decided_of_parent (h : bc.Settled) {td : ℤ}
    (hparent : block.header.parentHash = bc.currentBlock.hash sb)
    (hwrite : bc.writeBlockWithState a block = (none, (bc.committed a block td).insert block)) :
    bc.Decided a block := by
  have hsettled : (bc.committed a block td).Settled := ⟨h.head, h.above⟩
  have hfollows : bc.Follows a block ↔
      bc.IsHead block ∨ bc.currentBlock.numberU64 < block.numberU64 := by
    simp only [Follows, hwrite, forall_const, Descends, hparent, true_or, or_true, and_true]
  rw [Decided, hfollows, hwrite]
  refine ⟨keeps_committed.symm.trans hsettled.insert_keeps_iff, fun hkeeps => ?_⟩
  have hnone : ∀ b ∈ ([] : List Block), b.numberU64 ≤ block.numberU64 := by simp
  exact hsettled.foldl hkeeps.head hnone

/-- A new block of another parent, by a reorganisation. -/
theorem Settled.decided_of_reorg (h : bc.Settled) {td : ℤ}
    (hknown : ¬ bc.hasBlockAndState (block.hash sb) block.numberU64 = true)
    (hparent : block.header.parentHash ≠ bc.currentBlock.hash sb)
    (hreorg : (bc.committed a block td).reorg bc.currentBlock block = some bc')
    (hwrite : bc.writeBlockWithState a block = (none, bc'.insert block)) :
    bc.Decided a block := by
  have hsettled : (bc.committed a block td).Settled := ⟨h.head, h.above⟩
  have hiff := hsettled.reorg_keeps_iff hreorg
  rw [Reaches, lower_committed (by omega) le_rfl] at hiff
  have hfollows : bc.Follows a block ↔
      bc.currentBlock.numberU64 ≤ block.numberU64 ∧ bc.Reaches block := by
    simp only [Follows, hwrite, forall_const, hknown, Descends, hparent, false_or]
    constructor
    · rintro (⟨hnumber, hhash⟩ | ⟨hlt, hknown' | hlow⟩)
      · refine ⟨hnumber.ge, block, [], ?_, hhash⟩
        rw [hnumber, Nat.sub_self]
        rfl
      · cases hknown'
      · exact ⟨hlt.le, hlow⟩
    · rintro ⟨hle, low, passed, hlower, hhash⟩
      rcases hle.lt_or_eq with hlt | heq
      · exact .inr ⟨hlt, .inr ⟨low, passed, hlower, hhash⟩⟩
      · rw [heq, Nat.sub_self] at hlower
        obtain ⟨rfl, -⟩ := Prod.mk.inj (Option.some.inj hlower)
        exact .inl ⟨heq.symm, hhash⟩
  rw [Decided, hfollows, hwrite]
  refine ⟨keeps_committed.symm.trans hiff, fun hkeeps => ?_⟩
  obtain ⟨chain, hchain, rfl⟩ := Option.map_eq_some_iff.1 hreorg
  obtain ⟨-, -, -, hall, -⟩ := newChain_spec hkeeps.head hchain
  exact hsettled.foldl hkeeps.head hall

/-- **Every write is decided by whether its block follows the current one.** -/
theorem Settled.decided (h : bc.Settled) (a : Answers) (block : Block) : bc.Decided a block := by
  by_cases hknown : bc.hasBlockAndState (block.hash sb) block.numberU64 = true
  · exact h.decided_of_known hknown
  cases htd : bc.getTd block.header.parentHash (parentNumber block.numberU64) with
  | none =>
    have hwrite : bc.writeBlockWithState a block = (some .errUnknownAncestor, bc) := by
      simp only [writeBlockWithState, if_neg hknown, htd]
    exact h.decided_of_error hwrite rfl rfl
  | some ptd =>
    let bc₁ := bc.committed a block (block.header.difficulty.getD 0 + ptd)
    cases hcommits : a.commits block with
    | false =>
      have hwrite : bc.writeBlockWithState a block = (some .commit,
          bc.writeBlockWithoutState block (block.header.difficulty.getD 0 + ptd)) := by
        simp only [writeBlockWithState, if_neg hknown, htd, hcommits]
        rfl
      exact h.decided_of_error hwrite rfl rfl
    | true =>
      by_cases hparent : block.header.parentHash = bc.currentBlock.hash sb
      · have hwrite : bc.writeBlockWithState a block = (none, bc₁.insert block) := by
          simp only [writeBlockWithState, if_neg hknown, htd, hcommits, Bool.not_true,
            Bool.false_eq_true, if_false]
          exact if_neg (not_not_intro hparent)
        exact h.decided_of_parent hparent hwrite
      · cases hreorg : bc₁.reorg bc.currentBlock block with
        | none =>
          have hwrite : bc.writeBlockWithState a block = (some .invalidChain, bc₁) := by
            simp only [writeBlockWithState, if_neg hknown, htd, hcommits, Bool.not_true,
              Bool.false_eq_true, if_false]
            refine (if_pos hparent).trans ?_
            split
            · rfl
            · next _ hfound => cases hfound.symm.trans hreorg
          exact h.decided_of_error hwrite rfl rfl
        | some bc' =>
          have hwrite : bc.writeBlockWithState a block = (none, bc'.insert block) := by
            simp only [writeBlockWithState, if_neg hknown, htd, hcommits, Bool.not_true,
              Bool.false_eq_true, if_false]
            refine (if_pos hparent).trans ?_
            split
            · next hnone => cases hnone.symm.trans hreorg
            · next _ hfound => rw [Option.some.inj (hfound.symm.trans hreorg)]
          exact h.decided_of_reorg hknown hparent hreorg hwrite

/-! ## Sequences of calls -/

/-- The operation keeps what was written. -/
def OpKeeps (a : Answers) ⦃β : Type⦄ (o : ChainOp β) (bc : BlockChain sb) : Prop :=
  ∀ r, bc.perform a o = .ok r → bc.Keeps r.2

/-- If the operation writes a block with its state, the block follows the current one. -/
def OpFollows (a : Answers) ⦃β : Type⦄ (o : ChainOp β) (bc : BlockChain sb) : Prop :=
  match o with
  | .writeBlockWithState block => bc.Follows a block
  | _ => True

/-- An operation is decided as a write is. -/
theorem Settled.perform (h : bc.Settled) (a : Answers) ⦃β : Type⦄ (o : ChainOp β) :
    (OpKeeps a o bc ↔ OpFollows a o bc) ∧
      (OpKeeps a o bc → ∀ r, bc.perform a o = .ok r → r.2.Settled) := by
  have hread : ∀ {β : Type} {o : ChainOp β} {b : β}, bc.perform a o = .ok (b, bc) →
      OpKeeps a o bc ∧ ∀ r, bc.perform a o = .ok r → r.2.Settled := by
    intro β o b ho
    constructor <;> intro r hr <;> rw [ho] at hr <;> cases hr
    · exact ⟨fun _ _ => id, le_rfl⟩
    · exact h
  cases o with
  | writeBlockWithState block =>
    obtain ⟨hiff, hsettled⟩ := h.decided a block
    refine ⟨⟨fun hkeeps => hiff.1 (hkeeps _ rfl), fun hfollows r hr => ?_⟩, fun hkeeps r hr => ?_⟩
    · rw [← Except.ok.inj hr]
      exact hiff.2 hfollows
    · rw [← Except.ok.inj hr]
      exact hsettled (hkeeps _ rfl)
  | writeBlockWithoutState block td =>
    refine ⟨iff_of_true (fun r hr => ?_) trivial, fun _ r hr => ?_⟩
    · rw [← Except.ok.inj hr]
      exact ⟨fun _ _ => id, le_rfl⟩
    · rw [← Except.ok.inj hr]
      exact ⟨h.head, h.above⟩
  | currentBlock | verifyHeader | hasState | getBlock | getTd | readCanonicalHash =>
    exact ⟨iff_of_true (hread rfl).1 trivial, fun _ => (hread rfl).2⟩

end BlockChain

/-- A call on the chain. -/
inductive Call
  | insertChain (depth : ℕ) (chain : List Block)
  | writeBlockWithState (block : Block)

/-- The program of a call. -/
def Call.program (N : Node) (a : Answers) : Call → ChainProg Unit
  | .insertChain depth chain => Chain.insertChain N a depth chain
  | .writeBlockWithState block => do
    match ← Prog.perform (.writeBlockWithState block) with
    | some err => Prog.throw err
    | none => pure ()

/-- A call, with what the other components answer during it; an error leaves the chain as it is. -/
def BlockChain.call (N : Node) (bc : BlockChain N.backend) (c : Answers × Call) :
    Except GoPanic (BlockChain N.backend) := do
  let r ← (c.2.program N c.1).run (BlockChain.perform c.1) bc
  pure r.2

/-- **Finality, exactly.**  In every sequence of calls of `insertChain` and `writeBlockWithState` on
the chain of a genesis block, every operation keeps the canonical hashes and the height that were
reached, exactly if every block that is written follows the current block. -/
theorem finality_iff (N : Node) (genesis : Block) (calls : List (Answers × Call)) :
    Steps.RunMeets (BlockChain.call N)
        (fun bc c => (c.2.program N c.1).Safe (BlockChain.perform c.1)
          (BlockChain.OpKeeps c.1) bc)
        (BlockChain.genesis N.backend genesis) calls ↔
      Steps.RunMeets (BlockChain.call N)
        (fun bc c => (c.2.program N c.1).Safe (BlockChain.perform c.1)
          (BlockChain.OpFollows c.1) bc)
        (BlockChain.genesis N.backend genesis) calls := by
  refine Steps.runMeets_congr (J := BlockChain.Settled) ?_ ?_ calls ?_
  · intro bc c bc' hbc hsafe hcall
    obtain ⟨r, hrun, hr⟩ := Steps.bind_eq_ok.1 hcall
    rw [← Except.ok.inj hr]
    exact Prog.run_invariant (fun _ o s r hs hkeeps hr => (hs.perform c.1 o).2 hkeeps r hr) _ hbc
      hsafe hrun
  · intro bc c hbc
    exact Prog.safe_congr (fun _ o s r hs hkeeps hr => (hs.perform c.1 o).2 hkeeps r hr)
      (fun _ o s hs => (hs.perform c.1 o).1) _ hbc
  · refine ⟨if_pos rfl, fun number hlt => if_neg ?_⟩
    exact (Nat.ne_of_lt hlt).symm

/-! ## Two blocks with the same seals -/

/-- A commit of the sole validator to a block at height `1`. -/
def sealCommit : Commit where
  blockID := ⟨[9], ⟨1, [8]⟩⟩
  height := 1
  round := 0
  signAggr := some (PlainLibs.sign [1]
    (plainLibs.signBytes "ligo" ⟨⟨[9], ⟨1, [8]⟩⟩, 1, 0, voteTypePrecommit⟩))
  bitArray := some [true]

/-- The extra data with that commit. -/
def sealExtra : TendermintExtra :=
  { TendermintExtra.zero with
    chainID := "ligo"
    height := 1
    validatorsHash := soleValidator.hash plainLibs
    seenCommit := some sealCommit
    seenCommitHash := plainLibs.hashFromCommit sealCommit }

/-- A node of the chain of the sole validator. -/
def soleNode : Node where
  backend :=
    { soleBackend with
      libs := { plainLibs with readExtra := fun b => if b = [7] then some sealExtra else none } }
  calcUncleHash _ := []
  deriveSha _ := []
  badHashes _ := false
  size _ := 0

/-- Answers with which everything executes and is committed. -/
def soleAnswers : Answers where
  epoch := soleBackend.epoch
  epochPolls := soleBackend.epochPolls
  loadOneEpoch _ := none
  mainChainHeights _ := 0
  executes _ _ := true
  commits _ := true
  keeps _ := true
  stopped := false
  stops _ := false

/-- The genesis block. -/
def soleGenesis : Block := ⟨{ parentHeader with number := some 0 }, [], []⟩

/-- A block of height `1` with the seals, at some time. -/
def sealedBlock (time : ℤ) : Block :=
  ⟨{ parentHeader with
      number := some 1
      parentHash := soleGenesis.hash soleNode.backend
      root := [1]
      time := time
      extra := [7] }, [], []⟩

/-- A block of height `2` on top of it. -/
def nextBlock : Block :=
  ⟨{ (sealedBlock 0).header with
      number := some 2
      parentHash := (sealedBlock 0).hash soleNode.backend
      root := [2] }, [], []⟩

/-- **A block that was written is replaced, and the head goes back.**  Two blocks of height `1` with
the same seals, given to `insertChain` one after the other, are both written, and the canonical hash
of height `1` becomes that of the second.  And when consensus hands over the block of height `1`
after the node has imported height `2`, `writeBlockWithState` makes it the current block again. -/
theorem reorg_replaces_block :
    let inserted := fun block => (soleAnswers, Call.insertChain 1 [block])
    let after := fun calls => calls.foldlM (BlockChain.call soleNode)
      (BlockChain.genesis soleNode.backend soleGenesis)
    (sealedBlock 1).hash soleNode.backend ≠ (sealedBlock 0).hash soleNode.backend ∧
    Steps.holds (after [inserted (sealedBlock 0)]) (fun bc =>
      bc.canonical 1 = some ((sealedBlock 0).hash soleNode.backend)) = true ∧
    Steps.holds (after [inserted (sealedBlock 0), inserted (sealedBlock 1)]) (fun bc =>
      bc.canonical 1 = some ((sealedBlock 1).hash soleNode.backend)) = true ∧
    Steps.holds (after [inserted (sealedBlock 0), inserted nextBlock]) (fun bc =>
      bc.currentBlock.numberU64 = 2) = true ∧
    Steps.holds (after [inserted (sealedBlock 0), inserted nextBlock,
      (soleAnswers, .writeBlockWithState (sealedBlock 0))]) (fun bc =>
        bc.currentBlock.numberU64 = 1) = true := by
  decide +kernel

end Chain

end LigoChain
