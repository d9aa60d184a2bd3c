/-
# Blocks and their parts

`Part` and `PartSet` (`part_set.go`), `NCBlock` (`block.go`) and `Proposal`
(`proposal.go`) of `chain/consensus/tendermint/types`.  A proposed block travels
as parts: a validator starts an empty part set from the header in the proposal
and decodes the block when the last part is in.

A pointer that can be `nil` is an `Option`.  `NCBlock.Hash` reads
`NTCExtra.SeenCommit` without a check, so a decoded block without extra data makes
it panic; hashing is a partial function.
-/

import LigoChain.Types.Basic
import LigoChain.Lib.Steps

namespace LigoChain

open GoInt

/-- Go code that returns or panics. -/
abbrev Go := Except GoPanic

/-- `Part`, without its hash cache. -/
structure Part where
  index : ℤ
  bytes : Bytes
  proof : List Bytes
  deriving DecidableEq, Repr

/-- `PartSet`. -/
structure PartSet where
  total : ℤ
  hash : Bytes
  parts : List (Option Part)
  partsBitArray : BitArray
  count : ℤ
  deriving DecidableEq, Repr

/-- The largest slice of pointers that `make` can allocate. -/
def maxSliceLen : ℕ := 2 ^ 45

/-- `NewPartSetFromHeader`: `make` panics on a length it cannot allocate. -/
def newPartSetFromHeader (header : PartSetHeader) : Go PartSet :=
  if header.total > maxSliceLen then .error .makeslice
  else .ok
    { total := ofUint64 header.total
      hash := header.hash
      parts := List.replicate header.total none
      partsBitArray := List.replicate header.total false
      count := 0 }

namespace PartSet

/-- `Header`, which a `nil` part set answers too. -/
def header : Option PartSet → PartSetHeader
  | none => ⟨0, []⟩
  | some ps => ⟨toUint64 ps.total, ps.hash⟩

/-- `HasHeader`. -/
def hasHeader (ps : Option PartSet) (h : PartSetHeader) : Bool :=
  ps.isSome && header ps == h

/-- `IsComplete`. -/
def isComplete (ps : PartSet) : Bool := ps.count == ps.total

/-- The errors of `AddPart`. -/
inductive AddPartError
  | unexpectedIndex
  | invalidProof
  deriving DecidableEq, Repr

/-- `AddPart`: whether the part was added, and the error. -/
def addPart (L : Libs) (ps : PartSet) (part : Part) (verify : Bool) :
    Go (PartSet × Bool × Option AddPartError) :=
  if part.index ≥ ps.total then .ok (ps, false, some .unexpectedIndex)
  else if part.index < 0 then .error .index
  else match ps.parts[part.index.toNat]? with
    | none => .error .index
    | some (some _) => .ok (ps, false, none)
    | some none =>
      if verify && !L.proofVerify part.proof part.index ps.total (L.partHash part.bytes) ps.hash
      then .ok (ps, false, some .invalidProof)
      else .ok
        ({ ps with
            parts := ps.parts.set part.index.toNat (some part)
            partsBitArray := ps.partsBitArray.set part.index.toNat true
            count := ps.count + 1 }, true, none)

/-- The bytes a reader over the parts delivers. -/
def bytes (ps : PartSet) : Bytes := ps.parts.flatMap fun part => (part.map Part.bytes).getD []

theorem addPart_eq_ok {L : Libs} {ps ps' : PartSet} {part : Part} {verify added : Bool}
    {err : Option AddPartError} (h : addPart L ps part verify = .ok (ps', added, err)) :
    (added = false ∧ ps' = ps) ∨
      (added = true ∧ err = none ∧ ps'.count = ps.count + 1 ∧ ps'.total = ps.total ∧
        ps'.hash = ps.hash) := by
  unfold addPart at h
  split at h
  · simp_all
  split at h
  · simp at h
  split at h
  · simp at h
  · simp_all
  split at h
  · simp_all
  · simp only [Except.ok.injEq, Prod.mk.injEq] at h
    obtain ⟨rfl, rfl, rfl⟩ := h
    exact Or.inr ⟨rfl, rfl, rfl, rfl, rfl⟩

end PartSet

/-- `core/types.Block`, by its number and its encoding. -/
structure LigoBlock where
  number : ℕ
  body : Bytes
  deriving DecidableEq, Repr

/-- `NCBlock`, without the result of its execution. -/
structure NCBlock where
  block : LigoBlock
  ntcExtra : Option TendermintExtra
  tx3ProofData : Bytes
  deriving DecidableEq, Repr

namespace NCBlock

/-- `Hash`, for a `nil` block too.  Filling `SeenCommitHash` on the way does not change
the hash, which does not cover it. -/
def hash (L : Libs) : Option NCBlock → Go Bytes
  | none => .ok []
  | some b =>
    match b.ntcExtra with
    | none => .error .nilDeref
    | some extra => .ok (if extra.seenCommit.isNone then [] else extra.hash L)

/-- `HashesTo`. -/
def hashesTo (L : Libs) (b : Option NCBlock) (h : Bytes) : Go Bool :=
  if h.isEmpty then .ok false
  else if b.isNone then .ok false
  else (fun h' => h' == h) <$> hash L b

/-- `ValidateBasic`: the block is for this chain and for the next height. -/
def validateBasic (b : NCBlock) (ncExtra : TendermintExtra) : Go Bool :=
  match b.ntcExtra with
  | none => .error .nilDeref
  | some extra =>
    .ok (extra.chainID == ncExtra.chainID && extra.height == (ncExtra.height + 1) % 2 ^ 64)

/-- **What `HashesTo` has checked** when it holds: there is a block, it hashes, and the
hash is not empty. -/
theorem hashesTo_eq_true {L : Libs} {b : Option NCBlock} {h : Bytes}
    (heq : hashesTo L b h = .ok true) : h ≠ [] ∧ b.isSome ∧ hash L b = .ok h := by
  unfold hashesTo at heq
  split_ifs at heq with hempty hnone
  · simp at heq
  · simp at heq
  obtain ⟨h', hh', hbeq⟩ := Steps.map_eq_ok.1 heq
  obtain rfl := beq_iff_eq.1 hbeq
  exact ⟨by simpa using hempty, by simpa [Option.isSome_iff_ne_none] using hnone, hh'⟩

/-- A block with hash `h` does not hash to anything else. -/
theorem hashesTo_eq_false {L : Libs} {b : Option NCBlock} {h h' : Bytes}
    (heq : hashesTo L b h' = .ok false) (hh : hash L b = .ok h) (hne : h ≠ [])
    (hb : b.isSome) : h ≠ h' := by
  rintro rfl
  unfold hashesTo at heq
  rw [if_neg (by simpa using hne), if_neg (by simpa [Option.isSome_iff_ne_none] using hb), hh] at heq
  simp [Functor.map, Except.map] at heq

end NCBlock

/-- `Proposal`, without the proposer's network address, which nothing reads. -/
structure Proposal where
  height : ℕ
  round : ℤ
  hash : Bytes
  blockPartsHeader : PartSetHeader
  polRound : ℤ
  polBlockID : BlockID
  proposerPeerKey : String
  signature : Signature
  deriving DecidableEq, Repr

/-- `CanonicalProposal`: the field for the hash exists, and is not filled. -/
def canonicalProposal (p : Proposal) : CanonicalJSONProposal where
  blockPartsHeader := p.blockPartsHeader
  height := p.height
  polBlockID := p.polBlockID
  polRound := p.polRound
  round := p.round
  hash := []

/-- `PrivValidator`: an address and a key that signs.  It keeps no record of what it signed. -/
structure PrivValidator where
  address : Bytes
  sign : Bytes → Signature

/-- `SignVote`. -/
def PrivValidator.signVote (L : Libs) (pv : PrivValidator) (chainID : String) (vote : Vote) :
    Vote :=
  { vote with signature := pv.sign (L.signBytes chainID (canonicalVote vote)) }

/-- `SignProposal`. -/
def PrivValidator.signProposal (L : Libs) (pv : PrivValidator) (chainID : String)
    (proposal : Proposal) : Proposal :=
  { proposal with signature := pv.sign (L.proposalJSON chainID (canonicalProposal proposal)) }

end LigoChain
