import Mathlib
import Hemvm.Store.SortedMap
import Hemvm.Jellyfish.NibbleRange
import Hemvm.Jellyfish.NodeHash

/-! Writing a value set into the tree (`storage/jellyfish-merkle/src/lib.rs`:
`JellyfishMerkleTree::batch_put_value_set`). The batch is sorted by key and split at each depth
into the ranges of keys that share the next nibble. Under a position where nothing is stored,
`batch_update_subtree` builds the subtree afresh; under an existing leaf,
`batch_update_subtree_with_existing_leaf` merges the leaf in; under an existing internal node,
`batch_insert_at` recurses into the children the batch reaches and keeps the others. The new
nodes go into a `TreeUpdateBatch` under node keys of the new version, and the nodes they replace
are recorded there as stale. -/
namespace Hemvm.Jellyfish
open Codec

/-! ### Key hashes -/

/-- `HashValue` is ordered as its bytes, as `#[derive(Ord)]` orders its byte array. -/
instance {n : Nat} : LT (FixedBytes n) := ⟨fun a b => a.bytes < b.bytes⟩

instance {n : Nat} : DecidableRel (α := FixedBytes n) (· < ·) :=
  fun a b => inferInstanceAs (Decidable (a.bytes < b.bytes))

instance {n : Nat} : IsStrictTotalOrder (FixedBytes n) (· < ·) where
  trichotomous _ _ hab hba :=
    FixedBytes.ext (List.le_antisymm (List.not_lt.mp hba) (List.not_lt.mp hab))
  irrefl a := List.lt_irrefl a.bytes
  trans _ _ _ := List.lt_trans

/-- `NibbleExt::get_nibble` on a `HashValue`: the high half of byte `index / 2` for an even
`index`, the low half for an odd one. -/
def NibbleExt.getNibble (h : H256) (index : Nat) : Except Failure Nibble := do
  let byte ← NibblePath.byteAt h.bytes (index / 2)
  Nibble.from (if index % 2 = 0 then byte >>> 4 else byte &&& 0x0F)

/-- `kvs[index]`, which panics past the end. -/
def sliceAt {α : Type} (kvs : List α) (index : Nat) : Except Failure α :=
  match kvs[index]? with
  | some kv => .ok kv
  | none => .error (.panic (indexOutOfBounds kvs.length index))

/-- `&kvs[left..=right]`, which panics unless the range lies in the slice. -/
def sliceInclusive {α : Type} (kvs : List α) (left right : Nat) : Except Failure (List α) :=
  if right < kvs.length then
    if left ≤ right + 1 then .ok ((kvs.take (right + 1)).drop left)
    else .error (.panic ("slice index starts at " ++ toString left ++ " but ends at " ++
      toString (right + 1)))
  else .error (.panic ("range end index " ++ toString (right + 1) ++
    " out of range for slice of length " ++ toString kvs.length))

theorem NibbleRangeIterator.lt_of_new_eq_ok {K : Type} {kvs : List (H256 × K)} {depth : Nat}
    {it : NibbleRangeIterator K} (h : NibbleRangeIterator.new kvs depth = .ok it) :
    depth < rootNibbleHeight := by
  unfold NibbleRangeIterator.new at h
  split at h
  · assumption
  · cases h

/-! ### Update batches -/

/-- `StaleNodeIndex`: a node key that is no longer in the tree from a version on. -/
structure StaleNodeIndex where
  staleSinceVersion : UInt64
  nodeKey : NodeKey
deriving DecidableEq

/-- `TreeUpdateBatch`: the new nodes and the stale node indices, as the lists of sub-batches that
`combine` concatenates, and the numbers of new and stale leaves. The first sub-batch, which
`put_node` and `put_stale_node` push to, exists in every batch. -/
structure TreeUpdateBatch (K : Type) where
  nodeBatch : List (List (NodeKey × Node K))
  staleNodeIndexBatch : List (List StaleNodeIndex)
  numNewLeaves : Nat
  numStaleLeaves : Nat
  nodeBatch_ne_nil : nodeBatch ≠ []
  staleNodeIndexBatch_ne_nil : staleNodeIndexBatch ≠ []

namespace TreeUpdateBatch

variable {K : Type}

/-- `TreeUpdateBatch::new`. -/
def new : TreeUpdateBatch K := ⟨[[]], [[]], 0, 0, List.cons_ne_nil _ _, List.cons_ne_nil _ _⟩

/-- `TreeUpdateBatch::combine`. -/
def combine (batch other : TreeUpdateBatch K) : TreeUpdateBatch K :=
  ⟨batch.nodeBatch ++ other.nodeBatch, batch.staleNodeIndexBatch ++ other.staleNodeIndexBatch,
    batch.numNewLeaves + other.numNewLeaves, batch.numStaleLeaves + other.numStaleLeaves,
    List.append_ne_nil_of_left_ne_nil batch.nodeBatch_ne_nil _,
    List.append_ne_nil_of_left_ne_nil batch.staleNodeIndexBatch_ne_nil _⟩

/-- `TreeUpdateBatch::put_node`. -/
def putNode (batch : TreeUpdateBatch K) (nodeKey : NodeKey) (node : Node K) : TreeUpdateBatch K :=
  ⟨batch.nodeBatch.modifyHead (· ++ [(nodeKey, node)]), batch.staleNodeIndexBatch,
    if node.isLeaf then batch.numNewLeaves + 1 else batch.numNewLeaves, batch.numStaleLeaves,
    fun h => batch.nodeBatch_ne_nil (List.modifyHead_eq_nil_iff.mp h),
    batch.staleNodeIndexBatch_ne_nil⟩

/-- `TreeUpdateBatch::put_stale_node`. -/
def putStaleNode (batch : TreeUpdateBatch K) (nodeKey : NodeKey) (staleSinceVersion : UInt64)
    (node : Node K) : TreeUpdateBatch K :=
  ⟨batch.nodeBatch,
    batch.staleNodeIndexBatch.modifyHead (· ++ [⟨staleSinceVersion, nodeKey⟩]),
    batch.numNewLeaves, if node.isLeaf then batch.numStaleLeaves + 1 else batch.numStaleLeaves,
    batch.nodeBatch_ne_nil,
    fun h => batch.staleNodeIndexBatch_ne_nil (List.modifyHead_eq_nil_iff.mp h)⟩

/-- The nodes the batch writes, sub-batch after sub-batch. -/
def nodes (batch : TreeUpdateBatch K) : List (NodeKey × Node K) := batch.nodeBatch.flatten

end TreeUpdateBatch

/-! ### Building subtrees -/

section Build

variable {K : Type} (hashInternal : H256 → H256 → H256) (placeholder : H256)
  (hashLeaf : SparseMerkleLeafNode → H256)

/-- The `Children` map a sequence of nibbles and children makes, over `children`: `insert` of
each pair in turn, or `collect` over the empty map. -/
def insertChildren (children : Nibble → Option Child) (entries : List (Nibble × Child)) :
    Nibble → Option Child :=
  fun n => (entries.reverse.lookup n).or (children n)

/-- `get_hash`: the hash in the cache at the node's path, which must be there, or else the
node's own. -/
def getHash (nodeKey : NodeKey) (node : Node K) (hashCache : Option (NibblePath → Option H256)) :
    Except Failure H256 :=
  match hashCache with
  | some cache =>
    match cache nodeKey.nibblePath with
    | some hash => .ok hash
    | none => .error (.panic "internal error: entered unreachable code: can not be found in hash cache")
  | none => node.hash hashInternal placeholder hashLeaf

/-- The children of a new internal node as the code builds them: each new child node is put in
the batch under its node key of the new version, and recorded by its hash, the version and its
type. -/
def putChildren (nodeKey : NodeKey) (version : UInt64)
    (hashCache : Option (NibblePath → Option H256)) :
    List (Nibble × Node K) → TreeUpdateBatch K →
      Except Failure (List (Nibble × Child) × TreeUpdateBatch K)
  | [], batch => .ok ([], batch)
  | (childIndex, newChildNode) :: rest, batch => do
    let newChildNodeKey ← nodeKey.genChildNodeKey version childIndex
    let hash ← getHash hashInternal placeholder hashLeaf newChildNodeKey newChildNode hashCache
    let (entries, batch) ← putChildren nodeKey version hashCache rest
      (batch.putNode newChildNodeKey newChildNode)
    pure ((childIndex, ⟨hash, version, newChildNode.nodeType⟩) :: entries, batch)

/-- The end of `batch_update_subtree` and of `batch_update_subtree_with_existing_leaf`: no node
without children, a lone leaf child moved up, or else a new internal node over the children. -/
def finishSubtree (nodeKey : NodeKey) (version : UInt64)
    (hashCache : Option (NibblePath → Option H256)) (children : List (Nibble × Node K))
    (batch : TreeUpdateBatch K) : Except Failure (Option (Node K) × TreeUpdateBatch K) :=
  let newInternalNode : Except Failure (Option (Node K) × TreeUpdateBatch K) := do
    let (entries, batch) ← putChildren hashInternal placeholder hashLeaf nodeKey version hashCache
      children batch
    let node ← InternalNode.new (insertChildren (fun _ => none) entries)
    pure (some (.internal node), batch)
  match children with
  | [] => .ok (none, batch)
  | [(_, child)] => if child.isLeaf then .ok (some child, batch) else newInternalNode
  | _ => newInternalNode

/-- `children.push((child_index, new_child_node))` for a child that has a node. -/
def pushChild (children : List (Nibble × Node K)) (childIndex : Nibble) :
    Option (Node K) → List (Nibble × Node K)
  | some node => children ++ [(childIndex, node)]
  | none => children

/-- `batch_update_subtree`: the subtree of the sorted batch `kvs` under `nodeKey` at `depth`,
where nothing was stored. A single pair is a leaf, or nothing when it deletes; otherwise each
range of the next nibble makes a child. -/
def batchUpdateSubtree (nodeKey : NodeKey) (version : UInt64)
    (kvs : List (H256 × Option (H256 × K))) (depth : Nat)
    (hashCache : Option (NibblePath → Option H256)) (batch : TreeUpdateBatch K) :
    Except Failure (Option (Node K) × TreeUpdateBatch K) :=
  if kvs.length = 1 then
    -- `kvs[0]` is the head of a slice of one pair
    match kvs.head? with
    | some (key, some (valueHash, stateKey)) =>
      .ok (some (.leaf ⟨key, valueHash, (stateKey, version)⟩), batch)
    | _ => .ok (none, batch)
  else
    match hit : NibbleRangeIterator.new kvs depth with
    | .error msg => .error (.panic msg)
    | .ok it => do
      let ranges ← it.ranges.mapError Failure.panic
      let (children, batch) ← ranges.foldlM (fun acc range => do
          let (key, _) ← sliceAt kvs range.1
          let childIndex ← NibbleExt.getNibble key depth
          let childNodeKey ← nodeKey.genChildNodeKey version childIndex
          let slice ← sliceInclusive kvs range.1 range.2
          let (newChildNode, batch) ← batchUpdateSubtree childNodeKey version slice (depth + 1)
            hashCache acc.2
          pure (pushChild acc.1 childIndex newChildNode, batch))
        ([], batch)
      finishSubtree hashInternal placeholder hashLeaf nodeKey version hashCache children batch
termination_by rootNibbleHeight - depth
decreasing_by
  have := NibbleRangeIterator.lt_of_new_eq_ok hit
  omega

/-- `batch_update_subtree_with_existing_leaf`: the subtree under `nodeKey` at `depth` where the
leaf `existingLeafNode` was stored. A single pair of the leaf's key replaces or deletes it;
otherwise each range makes a child, the range of the leaf's nibble merging the leaf in, and the
leaf stays a child of its own when no range has its nibble. -/
def batchUpdateSubtreeWithExistingLeaf (nodeKey : NodeKey) (version : UInt64)
    (existingLeafNode : LeafNode K) (kvs : List (H256 × Option (H256 × K))) (depth : Nat)
    (hashCache : Option (NibblePath → Option H256)) (batch : TreeUpdateBatch K) :
    Except Failure (Option (Node K) × TreeUpdateBatch K) :=
  if kvs.length = 1 ∧ kvs.head?.map Prod.fst = some existingLeafNode.accountKey then
    match kvs.head? with
    | some (key, some (valueHash, stateKey)) =>
      .ok (some (.leaf ⟨key, valueHash, (stateKey, version)⟩), batch)
    | _ => .ok (none, batch)
  else
    match NibbleExt.getNibble existingLeafNode.accountKey depth with
    | .error e => .error e
    | .ok existingLeafBucket =>
      match hit : NibbleRangeIterator.new kvs depth with
      | .error msg => .error (.panic msg)
      | .ok it => do
        let ranges ← it.ranges.mapError Failure.panic
        let (children, isolatedExistingLeaf, batch) ← ranges.foldlM (fun acc range => do
            let (key, _) ← sliceAt kvs range.1
            let childIndex ← NibbleExt.getNibble key depth
            let childNodeKey ← nodeKey.genChildNodeKey version childIndex
            let slice ← sliceInclusive kvs range.1 range.2
            if existingLeafBucket = childIndex then do
              let (newChildNode, batch) ← batchUpdateSubtreeWithExistingLeaf childNodeKey version
                existingLeafNode slice (depth + 1) hashCache acc.2.2
              pure (pushChild acc.1 childIndex newChildNode, false, batch)
            else do
              let (newChildNode, batch) ← batchUpdateSubtree hashInternal placeholder hashLeaf
                childNodeKey version slice (depth + 1) hashCache acc.2.2
              pure (pushChild acc.1 childIndex newChildNode, acc.2.1, batch))
          ([], true, batch)
        let children := if isolatedExistingLeaf then
          children ++ [(existingLeafBucket, .leaf existingLeafNode)] else children
        finishSubtree hashInternal placeholder hashLeaf nodeKey version hashCache children batch
termination_by rootNibbleHeight - depth
decreasing_by
  have := NibbleRangeIterator.lt_of_new_eq_ok hit
  omega

end Build

/-! ### Inserting into the stored tree -/

section Insert

variable {K : Type} (hashInternal : H256 → H256 → H256) (placeholder : H256)
  (hashLeaf : SparseMerkleLeafNode → H256) (reader : NodeKey → Except Failure (Node K))

/-- `MAX_PARALLELIZABLE_DEPTH`: up to this depth the children are updated in parallel, each into
a batch of its own. -/
def maxParallelizableDepth : Nat := 2

/-- `children.remove(&child_nibble)`. -/
def removeChild (children : Nibble → Option Child) (n : Nibble) : Nibble → Option Child :=
  fun m => if m = n then none else children m

/-- The children of a map with their nibbles, in the order of the nibbles. -/
def childEntries (children : Nibble → Option Child) : List (Nibble × Child) :=
  Nibble.all.filterMap fun n => (children n).map fun c => (n, c)

mutual

/-- `batch_insert_at`: the subtree under the stored node at `nodeKey`, at `depth`, with the sorted
batch `kvs` written into it. The node read is stale from the new version on. -/
def batchInsertAt (nodeKey : NodeKey) (version : UInt64) (kvs : List (H256 × Option (H256 × K)))
    (depth : Nat) (hashCache : Option (NibblePath → Option H256)) (batch : TreeUpdateBatch K) :
    Except Failure (Option (Node K) × TreeUpdateBatch K) := do
  let node ← reader nodeKey
  let batch := batch.putStaleNode nodeKey version node
  match node with
  | .internal internalNode =>
    match hit : NibbleRangeIterator.new kvs depth with
    | .error msg => .error (.panic msg)
    | .ok it => do
      let ranges ← it.ranges.mapError Failure.panic
      let (newChildren, batch) ← if depth ≤ maxParallelizableDepth then do
          -- each child into a batch of its own, combined in order afterwards
          let results ← ranges.mapM fun range =>
            insertAtChild nodeKey internalNode version kvs range.1 range.2 depth
              (NibbleRangeIterator.lt_of_new_eq_ok hit) hashCache TreeUpdateBatch.new
          pure (results.map Prod.fst, results.foldl (fun batch result => batch.combine result.2) batch)
        else
          ranges.foldlM (fun acc range => do
              let (ret, batch) ← insertAtChild nodeKey internalNode version kvs range.1 range.2
                depth (NibbleRangeIterator.lt_of_new_eq_ok hit) hashCache acc.2
              pure (acc.1 ++ [ret], batch))
            ([], batch)
      -- `old_children` loses the children the batch deleted; the new ones, in the order of their
      -- ranges, are `new_created_children`
      let oldChildren := newChildren.foldl (fun children ret =>
        match ret.2 with
        | some _ => children
        | none => removeChild children ret.1) internalNode.children
      let newCreatedChildren := newChildren.filterMap fun ret => ret.2.map fun node => (ret.1, node)
      let newInternalNode : Except Failure (Option (Node K) × TreeUpdateBatch K) := do
        let (entries, batch) ← putChildren hashInternal placeholder hashLeaf nodeKey version
          hashCache newCreatedChildren batch
        let node ← InternalNode.new (insertChildren oldChildren entries)
        pure (some (.internal node), batch)
      if childEntries oldChildren = [] ∧ newCreatedChildren = [] then .ok (none, batch)
      else if (childEntries oldChildren).length ≤ 1 ∧ newCreatedChildren.length ≤ 1 then
        match newCreatedChildren.head? with
        | some (newNibble, newChild) =>
          match (childEntries oldChildren).head? with
          | some (oldNibble, _) =>
            if oldNibble = newNibble ∧ newChild.isLeaf then .ok (some newChild, batch)
            else newInternalNode
          | none => if newChild.isLeaf then .ok (some newChild, batch) else newInternalNode
        | none =>
          match (childEntries oldChildren).head? with
          | some (oldChildNibble, oldChild) =>
            if oldChild.isLeaf then do
              -- the lone old leaf moves up, and its old node key is stale
              let oldChildNodeKey ← nodeKey.genChildNodeKey oldChild.version oldChildNibble
              let oldChildNode ← reader oldChildNodeKey
              pure (some oldChildNode, batch.putStaleNode oldChildNodeKey version oldChildNode)
            else newInternalNode
          | none => .error (.panic "must exist")
      else newInternalNode
  | .leaf leafNode =>
    batchUpdateSubtreeWithExistingLeaf hashInternal placeholder hashLeaf nodeKey version leafNode kvs
      depth hashCache batch
  | .null => do
    ensure (depth = 0) "Null node can only exist at depth 0"
    batchUpdateSubtree hashInternal placeholder hashLeaf nodeKey version kvs 0 hashCache batch
termination_by (rootNibbleHeight - depth, 1)

/-- `insert_at_child`: the child of the range `[left, right]`, written into the stored child at
its nibble, or built afresh where there is none. -/
def insertAtChild (nodeKey : NodeKey) (internalNode : InternalNode) (version : UInt64)
    (kvs : List (H256 × Option (H256 × K))) (left right depth : Nat)
    (hd : depth < rootNibbleHeight) (hashCache : Option (NibblePath → Option H256))
    (batch : TreeUpdateBatch K) :
    Except Failure ((Nibble × Option (Node K)) × TreeUpdateBatch K) := do
  let (key, _) ← sliceAt kvs left
  let childIndex ← NibbleExt.getNibble key depth
  match internalNode.children childIndex with
  | some child => do
    let childNodeKey ← nodeKey.genChildNodeKey child.version childIndex
    let slice ← sliceInclusive kvs left right
    let (newChildNodeOption, batch) ← batchInsertAt childNodeKey version slice (depth + 1)
      hashCache batch
    pure ((childIndex, newChildNodeOption), batch)
  | none => do
    let childNodeKey ← nodeKey.genChildNodeKey version childIndex
    let slice ← sliceInclusive kvs left right
    let (newChildNodeOption, batch) ← batchUpdateSubtree hashInternal placeholder hashLeaf
      childNodeKey version slice (depth + 1) hashCache batch
    pure ((childIndex, newChildNodeOption), batch)
termination_by (rootNibbleHeight - depth, 0)
decreasing_by
  exact Prod.Lex.left _ _ (by omega)

end

/-- `batch_put_value_set`: the value set, deduplicated and sorted by `collect` into a `BTreeMap`
(a later pair of a key wins), written into the tree of `persisted_version`, or into an empty tree
when there is none. The new root is put under the empty path at `version`, a `Null` node when
nothing is left. -/
def batchPutValueSet (valueSet : List (H256 × Option (H256 × K)))
    (nodeHashes : Option (NibblePath → Option H256)) (persistedVersion : Option UInt64)
    (version : UInt64) : Except Failure (H256 × TreeUpdateBatch K) := do
  let dedupedAndSortedKvs := SortedMap.ofList valueSet
  let emptyPath ← NibblePath.newEven []
  let (rootNodeOpt, batch) ← match persistedVersion with
    | some persistedVersion =>
      batchInsertAt hashInternal placeholder hashLeaf reader ⟨persistedVersion, emptyPath⟩ version
        dedupedAndSortedKvs 0 nodeHashes TreeUpdateBatch.new
    | none =>
      batchUpdateSubtree hashInternal placeholder hashLeaf ⟨version, emptyPath⟩ version
        dedupedAndSortedKvs 0 nodeHashes TreeUpdateBatch.new
  match rootNodeOpt with
  | some rootNode => do
    let hash ← rootNode.hash hashInternal placeholder hashLeaf
    pure (hash, batch.putNode ⟨version, emptyPath⟩ rootNode)
  | none => pure (placeholder, batch.putNode ⟨version, emptyPath⟩ .null)

end Insert

end Hemvm.Jellyfish
