/-
# The trie

The Merkle Patricia trie of `trie/trie.go`: `tryGet`, `insert` and `delete` on the nodes of
`trie/node.go`.  A node that is not loaded is a hash, with the node that the database has under it;
it is loaded on the way to a key.  The cached hash and the dirty flag of a node are left out: the
three functions only write them, and the hasher alone reads them.
-/

import LigoChain.Types.Block

namespace LigoChain

namespace Trie

/-- An entry of a hex key: a nibble, or the terminator 16. -/
abbrev Nibble := Fin 17

/-- The two nibbles of a byte. -/
def nibblesOf (b : UInt8) : List Nibble :=
  [Fin.ofNat 17 (b / 16).toNat, Fin.ofNat 17 (b % 16).toNat]

/-- `keybytesToHex`. -/
def keybytesToHex (str : Bytes) : List Nibble := str.flatMap nibblesOf ++ [16]

/-- `prefixLen`. -/
def prefixLen : List Nibble → List Nibble → ℕ
  | x :: a, y :: b => if x = y then prefixLen a b + 1 else 0
  | _, _ => 0

/-- `node`: nil, `valueNode`, `shortNode`, `fullNode`, and `hashNode` with what `db.node` returns
for the hash, which is nil if the node is missing. -/
inductive Node
  | nil
  | value (v : Bytes)
  | short (key : List Nibble) (val : Node)
  | full (children : Nibble → Node)
  | hash (h : Bytes) (stored : Node)

/-- `MissingNodeError`, and the panics of an invalid node and of an index out of range. -/
inductive TrieError
  | missingNode (nodeHash : Bytes) (path : List Nibble)
  | invalidNode
  | index
  deriving DecidableEq, Repr

namespace Node

def isNil : Node → Bool
  | nil => true
  | _ => false

/-- `resolve` and `resolveHash`. -/
def resolve (path : List Nibble) : Node → Except TrieError Node
  | hash h stored => if stored.isNil then .error (.missingNode h path) else .ok stored
  | n => .ok n

/-- `tryGet`: the value, the node with what was loaded, and whether anything was.  The key is split
at the position: `path` has been read and `key` is left. -/
def tryGet : Node → (path key : List Nibble) → Except TrieError (Option Bytes × Node × Bool)
  | nil, _, _ => .ok (none, nil, false)
  | value v, _, _ => .ok (some v, value v, false)
  | short k n, path, key =>
    if k <+: key then do
      let (v, newnode, didResolve) ← n.tryGet (path ++ k) (key.drop k.length)
      .ok (v, if didResolve then short k newnode else short k n, didResolve)
    else .ok (none, short k n, false)
  | full _, _, [] => .error .index
  | full c, path, x :: key => do
    let (v, newnode, didResolve) ← (c x).tryGet (path ++ [x]) key
    .ok (v, if didResolve then full (Function.update c x newnode) else full c, didResolve)
  | hash h stored, path, key =>
    if stored.isNil then .error (.missingNode h path)
    else do
      let (v, newnode, _) ← stored.tryGet path key
      .ok (v, newnode, true)

/-- What `insert` and `delete` return for a node: a new one if the one below it has changed. -/
def replace (dirty : Bool) (new old : Node) : Bool × Node :=
  if dirty then (true, new) else (false, old)

/-- `insert` of a node into nil. -/
def place (key : List Nibble) (n : Node) : Node := if key = [] then n else short key n

/-- The two branches at the place where two keys part. -/
def branches (x y : Nibble) (n m : Node) : Nibble → Node :=
  Function.update (Function.update (fun _ => nil) x n) y m

/-- `insert`: whether anything changed, and the node.  Where the key ends, the value is put in place
of any node. -/
def insert (v : Bytes) : Node → (path key : List Nibble) → Except TrieError (Bool × Node)
  | nil, _, key => .ok (true, place key (value v))
  | value w, _, [] => .ok (w ≠ v, value v)
  | value _, _, _ :: _ => .error .invalidNode
  | short k n, path, key =>
    let matchlen := prefixLen key k
    if key = [] then .ok (true, value v)
    else if matchlen = k.length then do
      let (dirty, nn) ← n.insert v (path ++ key.take matchlen) (key.drop matchlen)
      .ok (replace dirty (short k nn) (short k n))
    else
      match k.drop matchlen, key.drop matchlen with
      | x :: k', y :: key' =>
        let branch := full (branches x y (place k' n) (place key' (value v)))
        .ok (true, place (key.take matchlen) branch)
      | _, _ => .error .index
  | full _, _, [] => .ok (true, value v)
  | full c, path, x :: key => do
    let (dirty, nn) ← (c x).insert v (path ++ [x]) key
    .ok (replace dirty (full (Function.update c x nn)) (full c))
  | hash h stored, path, key =>
    if key = [] then .ok (true, value v)
    else if stored.isNil then .error (.missingNode h path)
    else do
      let (dirty, nn) ← stored.insert v path key
      .ok (replace dirty nn stored)

/-- The short node that `delete` makes of the one child that is left. -/
def graft (path : List Nibble) (pos : Nibble) (child : Node) : Except TrieError Node := do
  match ← child.resolve path with
  | short k n => .ok (short (pos :: k) n)
  | _ => .ok (short [pos] child)

/-- What `delete` makes of a full node that has lost a child. -/
def collapse (path : List Nibble) (c : Nibble → Node) : Except TrieError Node :=
  match (List.finRange 17).filter fun x => !(c x).isNil with
  | [pos] => if pos ≠ 16 then graft path pos (c pos) else .ok (short [pos] (c pos))
  | _ => .ok (full c)

/-- What `delete` makes of a short node over one that has changed. -/
def extend (k : List Nibble) : Node → Node
  | short k' n => short (k ++ k') n
  | side => short k side

/-- `delete`: whether anything changed, and the node. -/
def delete : Node → (path key : List Nibble) → Except TrieError (Bool × Node)
  | short k n, path, key =>
    let matchlen := prefixLen key k
    if matchlen < k.length then .ok (false, short k n)
    else if matchlen = key.length then .ok (true, nil)
    else do
      let (dirty, side) ← n.delete (path ++ key.take k.length) (key.drop k.length)
      .ok (replace dirty (extend k side) (short k n))
  | full _, _, [] => .error .index
  | full c, path, x :: key => do
    let (dirty, nn) ← (c x).delete (path ++ [x]) key
    if dirty then do
      let n ← collapse path (Function.update c x nn)
      .ok (true, n)
    else .ok (false, full c)
  | value _, _, _ => .ok (true, nil)
  | nil, _, _ => .ok (false, nil)
  | hash h stored, path, key =>
    if stored.isNil then .error (.missingNode h path)
    else do
      let (dirty, nn) ← stored.delete path key
      .ok (replace dirty nn stored)

end Node

/-! ## Calls -/

/-- `TryGet`: the value, and the root. -/
def tryGet (root : Node) (key : Bytes) : Except TrieError (Option Bytes × Node) := do
  let (v, newroot, didResolve) ← root.tryGet [] (keybytesToHex key)
  .ok (v, if didResolve then newroot else root)

/-- `TryDelete`. -/
def tryDelete (root : Node) (key : Bytes) : Except TrieError Node := do
  let (_, n) ← root.delete [] (keybytesToHex key)
  .ok n

/-- `TryUpdate`: an empty value deletes. -/
def tryUpdate (root : Node) (key value : Bytes) : Except TrieError Node :=
  if value ≠ [] then do
    let (_, n) ← root.insert value [] (keybytesToHex key)
    .ok n
  else tryDelete root key

end Trie

end LigoChain
