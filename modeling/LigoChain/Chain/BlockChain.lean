/-
# Writing blocks to the chain

`writeBlockWithState`, `reorg` and `insert`, and over them `insertChain` and `insertSidechain`, in
`core/blockchain.go`; the iterator of `core/blockchain_insert.go` and `ValidateBody` in
`core/block_validator.go`.

A call of `insertChain` is a program over the operations of the chain.  What the other components
answer during the call is in `Answers`: the epochs that the engine reads, whether the transactions
of a block execute to what its header says, whether its state is committed, and which states are
kept in memory.  The headers are checked by `Engine.verifyHeader`.

`verifyHeader` never answers that a block is from the future, so no block is ever queued; the
branches of `insertChain` for queued blocks are left out.
-/

import LigoChain.Lib.Program
import LigoChain.Engine.VerifyHeader

namespace LigoChain
namespace Chain

open Engine

/-- A block. -/
structure Block where
  header : Header
  uncles : List Header
  transactions : List Bytes
  deriving DecidableEq

/-- `Block.Hash`. -/
def Block.hash (sb : Backend) (b : Block) : Bytes := b.header.hash sb

/-- `NumberU64` of a header. -/
def numberU64 (h : Header) : ℕ := uint64OfBig (h.number.getD 0)

/-- `Block.NumberU64`. -/
def Block.numberU64 (b : Block) : ℕ := Chain.numberU64 b.header

/-- `number - 1` for `uint64` numbers. -/
def parentNumber (number : ℕ) : ℕ := (number + (2 ^ 64 - 1)) % 2 ^ 64

/-- The parts of a node that do not change. -/
structure Node where
  backend : Backend
  calcUncleHash : List Header → Bytes
  deriveSha : List Bytes → Bytes
  badHashes : Bytes → Bool
  size : Block → ℕ

/-- What the other components answer during a call. -/
structure Answers where
  epoch : Option Epoch
  epochPolls : List Epoch
  loadOneEpoch : ℕ → Option Epoch
  mainChainHeights : ℕ → ℤ
  /-- `state.New` on the parent, `Process` and `ValidateState` succeed. -/
  executes : Header → Block → Bool
  /-- The state is committed. -/
  commits : Block → Bool
  /-- The states that are kept when a state is committed. -/
  keeps : Bytes → Bool
  /-- The node is shut down. -/
  stopped : Bool
  /-- The node is shut down when the call comes to the block. -/
  stops : Block → Bool

/-- The errors of a call. -/
inductive ChainError
  | header (err : HeaderError)
  | errKnownBlock
  | uncleRootHashMismatch
  | transactionRootHashMismatch
  | errUnknownAncestor
  | errPrunedAncestor
  | errBlacklistedHash
  | missingState
  | execution
  | commit
  | invalidChain
  | ghostState
  | missingParent
  | panics (p : GoPanic)
  | waits
  | tooDeep
  deriving DecidableEq

/-- The blocks in the database with their total difficulties, each under its own hash and
number. -/
structure BlockStore (sb : Backend) where
  find : Bytes → ℕ → Option (Block × ℤ)
  keyed : ∀ {hash number found}, find hash number = some found →
    found.1.hash sb = hash ∧ found.1.numberU64 = number

/-- `WriteTd` and `WriteBlock`. -/
def BlockStore.write {sb : Backend} (s : BlockStore sb) (block : Block) (td : ℤ) :
    BlockStore sb where
  find hash number :=
    if block.hash sb = hash ∧ block.numberU64 = number then some (block, td)
    else s.find hash number
  keyed {hash number found} h := by
    split at h
    · next hkey =>
      cases h
      exact hkey
    · exact s.keyed h

/-- The chain: the stored blocks, the canonical hashes, the current block and the states that can
be opened. -/
structure BlockChain (sb : Backend) where
  store : BlockStore sb
  canonical : ℕ → Option Bytes
  currentBlock : Block
  states : Bytes → Bool

namespace BlockChain

variable {sb : Backend}

/-- The chain of a genesis block. -/
def genesis (sb : Backend) (block : Block) : BlockChain sb where
  store :=
    { find := fun hash number =>
        if block.hash sb = hash ∧ block.numberU64 = number then
          some (block, block.header.difficulty.getD 0)
        else none
      keyed := fun h => by
        split at h
        · next hkey =>
          cases h
          exact hkey
        · cases h }
  canonical number := if number = block.numberU64 then some (block.hash sb) else none
  currentBlock := block
  states root := root = block.header.root

/-- `GetBlock`. -/
def getBlock (bc : BlockChain sb) (hash : Bytes) (number : ℕ) : Option Block :=
  (bc.store.find hash number).map Prod.fst

/-- `GetTd`. -/
def getTd (bc : BlockChain sb) (hash : Bytes) (number : ℕ) : Option ℤ :=
  (bc.store.find hash number).map Prod.snd

/-- `HasBlockAndState`. -/
def hasBlockAndState (bc : BlockChain sb) (hash : Bytes) (number : ℕ) : Bool :=
  (bc.getBlock hash number).any fun block => bc.states block.header.root

/-- `insert`. -/
def insert (bc : BlockChain sb) (block : Block) : BlockChain sb :=
  { bc with
    canonical := fun number =>
      if number = block.numberU64 then some (block.hash sb) else bc.canonical number
    currentBlock := block }

/-- The first loop of `reorg`: the block `steps` below, and the blocks passed, the lowest first. -/
def lower (bc : BlockChain sb) : ℕ → Block → List Block → Option (Block × List Block)
  | 0, block, passed => some (block, passed)
  | steps + 1, block, passed =>
    match bc.getBlock block.header.parentHash (parentNumber block.numberU64) with
    | none => none
    | some parent => lower bc steps parent (block :: passed)

/-- The second loop of `reorg`, from two blocks of one number down to the common block: the new
blocks above it, the lowest first.  There is no block below block `0`. -/
def commonBlock (bc : BlockChain sb) : ℕ → Block → Block → List Block → Option (List Block)
  | number, oldBlock, newBlock, newChain =>
    if oldBlock.hash sb = newBlock.hash sb then some newChain
    else match number with
      | 0 => none
      | number + 1 =>
        match bc.getBlock oldBlock.header.parentHash number,
          bc.getBlock newBlock.header.parentHash number with
        | some oldParent, some newParent =>
          commonBlock bc number oldParent newParent (newBlock :: newChain)
        | _, _ => none

/-- `reorg` up to the insertion: the new chain from the common block on. -/
def newChain (bc : BlockChain sb) (oldBlock newBlock : Block) : Option (List Block) :=
  if newBlock.numberU64 < oldBlock.numberU64 then
    match bc.lower (oldBlock.numberU64 - newBlock.numberU64) oldBlock [] with
    | none => none
    | some (oldBlock, _) => bc.commonBlock newBlock.numberU64 oldBlock newBlock []
  else
    match bc.lower (newBlock.numberU64 - oldBlock.numberU64) newBlock [] with
    | none => none
    | some (newBlock, newChain) =>
      bc.commonBlock oldBlock.numberU64 oldBlock newBlock newChain

/-- `reorg`. -/
def reorg (bc : BlockChain sb) (oldBlock newBlock : Block) : Option (BlockChain sb) :=
  (bc.newChain oldBlock newBlock).map fun newChain => newChain.foldl insert bc

/-- `WriteBlockWithoutState`. -/
def writeBlockWithoutState (bc : BlockChain sb) (block : Block) (td : ℤ) : BlockChain sb :=
  { bc with store := bc.store.write block td }

/-- The commit of the state of a block. -/
def commitState (a : Answers) (bc : BlockChain sb) (block : Block) : BlockChain sb :=
  { bc with states := fun root => root = block.header.root || (bc.states root && a.keeps root) }

/-- `writeBlockWithState` with the Tendermint engine, where `reorg` is always true. -/
def writeBlockWithState (a : Answers) (bc : BlockChain sb) (block : Block) :
    Option ChainError × BlockChain sb :=
  if bc.hasBlockAndState (block.hash sb) block.numberU64 then (none, bc.insert block)
  else
    match bc.getTd block.header.parentHash (parentNumber block.numberU64) with
    | none => (some .errUnknownAncestor, bc)
    | some ptd =>
      let bc := bc.writeBlockWithoutState block (block.header.difficulty.getD 0 + ptd)
      if !a.commits block then (some .commit, bc)
      else
        let bc := bc.commitState a block
        if block.header.parentHash ≠ bc.currentBlock.hash sb then
          match bc.reorg bc.currentBlock block with
          | none => (some .invalidChain, bc)
          | some bc => (none, bc.insert block)
        else (none, bc.insert block)

end BlockChain

/-! ## Calls -/

/-- The operations of the chain. -/
inductive ChainOp : Type → Type
  | currentBlock : ChainOp Block
  | verifyHeader (header : Header) (parents : List Header) : ChainOp Verdict
  | hasState (root : Bytes) : ChainOp Bool
  | getBlock (hash : Bytes) (number : ℕ) : ChainOp (Option Block)
  | getTd (hash : Bytes) (number : ℕ) : ChainOp (Option ℤ)
  | readCanonicalHash (number : ℕ) : ChainOp (Option Bytes)
  | writeBlockWithoutState (block : Block) (td : ℤ) : ChainOp Unit
  | writeBlockWithState (block : Block) : ChainOp (Option ChainError)

/-- The engine, with the chain and the answers it reads. -/
def Answers.backend {sb : Backend} (a : Answers) (bc : BlockChain sb) : Backend :=
  { sb with
    getHeader := fun hash number => (bc.getBlock hash number).map Block.header
    epoch := a.epoch
    epochPolls := a.epochPolls
    loadOneEpoch := a.loadOneEpoch
    mainChainHeights := a.mainChainHeights }

/-- What an operation does. -/
def BlockChain.perform {sb : Backend} (a : Answers) :
    ⦃β : Type⦄ → ChainOp β → BlockChain sb → Except GoPanic (β × BlockChain sb)
  | _, .currentBlock, bc => .ok (bc.currentBlock, bc)
  | _, .verifyHeader header parents, bc =>
    .ok (Engine.verifyHeader (a.backend bc) header parents, bc)
  | _, .hasState root, bc => .ok (bc.states root, bc)
  | _, .getBlock hash number, bc => .ok (bc.getBlock hash number, bc)
  | _, .getTd hash number, bc => .ok (bc.getTd hash number, bc)
  | _, .readCanonicalHash number, bc => .ok (bc.canonical number, bc)
  | _, .writeBlockWithoutState block td, bc => .ok ((), bc.writeBlockWithoutState block td)
  | _, .writeBlockWithState block, bc => .ok (bc.writeBlockWithState a block)

/-- A program over the chain. -/
abbrev ChainProg := Prog ChainOp ChainError

section Calls

open Prog (perform throw)

variable (N : Node) (a : Answers)

/-- `HasBlockAndState`, as a call. -/
def hasBlockAndState (hash : Bytes) (number : ℕ) : ChainProg Bool := do
  match ← perform (.getBlock hash number) with
  | none => pure false
  | some block => perform (.hasState block.header.root)

/-- `ValidateBody`. -/
def validateBody (block : Block) : ChainProg (Option ChainError) := do
  if ← hasBlockAndState (block.hash N.backend) block.numberU64 then
    pure (some .errKnownBlock)
  else if !block.uncles.isEmpty then pure (some (.header .errInvalidUncleHash))
  else if N.calcUncleHash block.uncles ≠ block.header.uncleHash then
    pure (some .uncleRootHashMismatch)
  else if N.deriveSha block.transactions ≠ block.header.txHash then
    pure (some .transactionRootHashMismatch)
  else if !(← hasBlockAndState block.header.parentHash (parentNumber block.numberU64)) then
    match ← perform (.getBlock block.header.parentHash (parentNumber block.numberU64)) with
    | none => pure (some .errUnknownAncestor)
    | some _ => pure (some .errPrunedAncestor)
  else pure none

/-- The result of `next` for a block, with the headers before it. -/
def validate (parents : List Header) (block : Block) : ChainProg (Option ChainError) := do
  match ← perform (.verifyHeader block.header parents) with
  | .returns (some err) => pure (some (.header err))
  | .panics p => throw (.panics p)
  | .waits => throw .waits
  | .returns none => validateBody N block

/-- The loop over the known blocks at the front: the headers passed, the blocks left and the result
of the first of them. -/
def skipKnown (current : ℕ) :
    List Header → List Block → ChainProg (List Header × List Block × Option ChainError)
  | parents, [] => pure (parents, [], none)
  | parents, block :: rest => do
    let err ← validate N parents block
    if err = some .errKnownBlock then
      if block.numberU64 ≤ current then skipKnown current (parents ++ [block.header]) rest
      else pure (parents, block :: rest, none)
    else pure (parents, block :: rest, err)

/-- The loop that executes and writes the blocks; the first of them is validated. -/
def insertBlocks : List Header → List Block → ChainProg Unit
  | _, [] => pure ()
  | parents, block :: rest => do
    if a.stops block then pure ()
    else if N.badHashes (block.hash N.backend) then throw .errBlacklistedHash
    else
      let parent ← match parents.getLast? with
        | some parent => pure (some parent)
        | none => do
          let found ← perform (.getBlock block.header.parentHash (parentNumber block.numberU64))
          pure (found.map Block.header)
      match parent with
      | none => throw (.panics .nilDeref)
      | some parent =>
        if !(← perform (.hasState parent.root)) then throw .missingState
        else if !a.executes parent block then throw .execution
        else
          match ← perform (.writeBlockWithState block) with
          | some err => throw err
          | none =>
            match rest with
            | [] => pure ()
            | next :: _ =>
              match ← validate N (parents ++ [block.header]) next with
              | some err => throw err
              | none => insertBlocks (parents ++ [block.header]) rest

/-- The loop of `insertSidechain` that stores blocks without their states: the headers passed, the
total difficulty and the result of the block that ends it. -/
def storeSidechain (current : Block) : List Header → List Block → Option ℤ →
    ChainProg (List Header × Option ℤ × Option ChainError)
  | parents, [], externTd => pure (parents, externTd, none)
  | parents, block :: rest, externTd => do
    let canonical ←
      if block.numberU64 ≤ current.numberU64 then do
        match ← perform (.readCanonicalHash block.numberU64) with
        | none => pure none
        | some hash => perform (.getBlock hash block.numberU64)
      else pure none
    let passed := parents ++ [block.header]
    -- The result of the next block, and on with it while its ancestor is pruned.
    let next := fun externTd => do
      match rest with
      | [] => pure (passed, externTd, none)
      | block' :: _ =>
        let err ← validate N passed block'
        if err = some .errPrunedAncestor then storeSidechain current passed rest externTd
        else pure (passed, externTd, err)
    if canonical.any fun c => c.hash N.backend = block.hash N.backend then next externTd
    else if canonical.any fun c => c.header.root = block.header.root then throw .ghostState
    else
      let ptd ← match externTd with
        | some td => pure (some td)
        | none => perform (.getTd block.header.parentHash (parentNumber block.numberU64))
      match ptd with
      | none => throw (.panics .nilDeref)
      | some ptd =>
        let td := ptd + block.header.difficulty.getD 0
        match ← perform (.getBlock (block.hash N.backend) block.numberU64) with
        | some _ => next (some td)
        | none =>
          perform (.writeBlockWithoutState block td)
          next (some td)

/-- The ancestors without a state, the lowest first, down to one that has a state. -/
def stateless : ℕ → Header → List (Bytes × ℕ) → ChainProg (Option (List (Bytes × ℕ)))
  | number, parent, above => do
    if ← perform (.hasState parent.root) then pure (some above)
    else match number with
      | 0 => pure none
      | number + 1 =>
        match ← perform (.getBlock parent.parentHash number) with
        | none => pure none
        | some block =>
          stateless number block.header ((parent.hash N.backend, number + 1) :: above)

/-- The loop of `insertSidechain` that imports the stored blocks in segments. -/
def importSegments (insertChain : List Block → ChainProg Unit) :
    List (Bytes × ℕ) → List Block → ℕ → ChainProg Unit
  | [], blocks, _ => if blocks.isEmpty then pure () else insertChain blocks
  | (hash, number) :: rest, blocks, memory => do
    match ← perform (.getBlock hash number) with
    | none => throw (.panics .nilDeref)
    | some block =>
      let blocks := blocks ++ [block]
      let memory := memory + N.size block
      if 2048 ≤ blocks.length ∨ 64 * 1024 * 1024 < memory then
        insertChain blocks
        if a.stops block then pure () else importSegments insertChain rest [] 0
      else importSegments insertChain rest blocks memory

/-- `insertSidechain`. -/
def insertSidechain (insertChain : List Block → ChainProg Unit) (parents : List Header)
    (blocks : List Block) : ChainProg Unit := do
  let current ← perform .currentBlock
  let (passed, externTd, err) ← storeSidechain N current parents blocks none
  match ← perform (.getTd (current.hash N.backend) current.numberU64), externTd with
  | some localTd, some externTd =>
    if externTd < localTd then
      match err with
      | some err => throw err
      | none => pure ()
    else
      match passed.getLast? with
      | none => throw .missingParent
      | some parent =>
        match ← stateless N (numberU64 parent) parent [] with
        | none => throw .missingParent
        | some ancestors => importSegments N a insertChain ancestors [] 0
  | _, _ => throw (.panics .nilDeref)

/-- `insertChain`.  It calls itself through `insertSidechain`, to a depth that is given. -/
def insertChain : ℕ → List Block → ChainProg Unit
  | 0, _ => throw .tooDeep
  | depth + 1, chain => do
    if a.stopped then pure ()
    else
      let current ← perform .currentBlock
      let (parents, blocks, err) ← skipKnown N current.numberU64 [] chain
      match err with
      | some .errPrunedAncestor => insertSidechain N a (insertChain depth) parents blocks
      | some err => throw err
      | none => insertBlocks N a parents blocks

end Calls

end Chain
end LigoChain
