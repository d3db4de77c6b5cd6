import Mathlib
import Hemvm.Jellyfish.SparseProof

/-! Reading a key with its proof (`storage/jellyfish-merkle/src/lib.rs`:
`JellyfishMerkleTree::get_with_proof_ext`). The walk starts at the root of a version and follows
the key's nibbles down through internal nodes, appending at each the siblings
`get_child_with_siblings` returns, until it reaches a leaf or a position with no child. Over a
store that holds a tree, whose internal nodes record the hashes of the children stored at their
child keys, the walk returns the value the tree holds for the key, and the proof it returns
verifies against the root hash. -/
namespace Hemvm.Jellyfish
open SparseMerkle

/-! ### The model -/

section Model

variable {K : Type} (hashInternal : H256 → H256 → H256) (placeholder : H256)

/-- `TreeReader::get_node` in the walk at `nibble_depth`: a root that cannot be read is reported
as `MissingRootError`. -/
def readNode (reader : NodeKey → Except Failure (Node K)) (version : UInt64) (nibbleDepth : Nat)
    (nodeKey : NodeKey) : Except Failure (Node K) :=
  match reader nodeKey with
  | .ok node => .ok node
  | .error err => .error (if nibbleDepth = 0 then
      .error ("Missing state root node at version " ++ toString version ++ ", probably pruned.")
    else err)

/-- `NibbleIterator::next` at position `pos` of a path. -/
def nextNibble (nibblePath : NibblePath) (pos : Nat) : Except Failure (Option Nibble) :=
  if pos < nibblePath.numNibbles then some <$> nibblePath.getNibble pos else .ok none

/-- `.ok_or_else(|| format_err!("ran out of nibbles"))`. -/
def queriedNibble : Option Nibble → Except Failure Nibble
  | some nibble => .ok nibble
  | none => .error (.error "ran out of nibbles")

/-- The loop of `get_with_proof_ext` over the depths left, with the node key it reads next, the
position of the nibble iterator, and the siblings collected so far, from the top. -/
def getWithProofExtLoop (reader : NodeKey → Except Failure (Node K)) (key : H256)
    (version : UInt64) (nibblePath : NibblePath) :
    List Nat → NodeKey → Nat → List NodeInProof →
      Except Failure (Option (H256 × (K × UInt64)) × SparseMerkleProofExt)
  | [], _, _, _ => .error (.error "Jellyfish Merkle tree has cyclic graph inside.")
  | nibbleDepth :: depths, nextNodeKey, pos, siblings => do
    let nextNode ← readNode reader version nibbleDepth nextNodeKey
    match nextNode with
    | .internal internalNode =>
      let queriedChildIndex ← queriedNibble (← nextNibble nibblePath pos)
      let (childNodeKey, siblingsInInternal) ← getChildWithSiblings hashInternal placeholder
        internalNode nextNodeKey queriedChildIndex (some reader)
      let siblings := siblings ++ siblingsInInternal
      match childNodeKey with
      | some nodeKey =>
        getWithProofExtLoop reader key version nibblePath depths nodeKey (pos + 1) siblings
      | none => pure (none, ⟨none, siblings.reverse⟩)
    | .leaf leafNode =>
      pure (if leafNode.accountKey = key then some (leafNode.valueHash, leafNode.valueIndex)
        else none, ⟨some ⟨leafNode.accountKey, leafNode.valueHash⟩, siblings.reverse⟩)
    | .null => pure (none, ⟨none, []⟩)

/-- `JellyfishMerkleTree::get_with_proof_ext`: at most `ROOT_NIBBLE_HEIGHT + 1` nodes are read. -/
def getWithProofExt (reader : NodeKey → Except Failure (Node K)) (key : H256) (version : UInt64) :
    Except Failure (Option (H256 × (K × UInt64)) × SparseMerkleProofExt) := do
  let emptyPath ← NibblePath.newEven []
  let nibblePath ← NibblePath.newEven key.bytes
  getWithProofExtLoop hashInternal placeholder reader key version nibblePath
    (List.range (rootNibbleHeight + 1)) ⟨version, emptyPath⟩ 0 []

end Model

/-! ### Trees in a store -/

section Stored

variable {K : Type} (hashInternal : H256 → H256 → H256) (placeholder : H256)
  (hashLeaf : SparseMerkleLeafNode → H256) (reader : NodeKey → Except Failure (Node K))

/-- A subtree stored under `nodeKey`, with the hash of its root and the values of the keys in it.
A leaf is stored at a path its account key starts with. An internal node is one `new_impl`
builds, at a well-formed path of fewer than 64 nibbles: each child is stored at its child key
with the hash the node records, a leaf child as a leaf, and a key's value is the one under the
child at the key's next nibble. -/
inductive Stored : NodeKey → H256 → (H256 → Option (H256 × (K × UInt64))) → Prop
  | leaf {nodeKey : NodeKey} {leafNode : LeafNode K} :
      reader nodeKey = .ok (.leaf leafNode) →
      nodeKey.nibblePath.toNibbles <+: keyNibbles leafNode.accountKey →
      Stored nodeKey (hashLeaf ⟨leafNode.accountKey, leafNode.valueHash⟩) fun k =>
        if k = leafNode.accountKey then some (leafNode.valueHash, leafNode.valueIndex) else none
  | internal {nodeKey : NodeKey} {node : InternalNode} {h : H256} (childKey : Nibble → NodeKey)
      (values : Nibble → H256 → Option (H256 × (K × UInt64))) :
      reader nodeKey = .ok (.internal node) →
      InternalNode.newImpl node.children = .ok node →
      nodeKey.nibblePath.WellFormed →
      nodeKey.nibblePath.numNibbles < rootNibbleHeight →
      node.hash hashInternal placeholder = .ok h →
      (∀ m c, node.children m = some c → nodeKey.genChildNodeKey c.version m = .ok (childKey m)) →
      (∀ m c, node.children m = some c → Stored (childKey m) c.hash (values m)) →
      (∀ m c, node.children m = some c → c.nodeType = .leaf →
        ∃ leafNode, reader (childKey m) = .ok (.leaf leafNode)) →
      (∀ m, node.children m = none → ∀ k, values m k = none) →
      Stored nodeKey h fun k => values ((keyNibbles k).getD nodeKey.nibblePath.numNibbles default) k

/-- The tree of a version: a `Null` root holding no value, or a subtree stored at the root. -/
def TreeAt (version : UInt64) (rootHash : H256)
    (values : H256 → Option (H256 × (K × UInt64))) : Prop :=
  (reader ⟨version, ⟨0, []⟩⟩ = .ok .null ∧ rootHash = placeholder ∧ ∀ k, values k = none) ∨
    Stored hashInternal placeholder hashLeaf reader ⟨version, ⟨0, []⟩⟩ rootHash values

/-- What the walk returns for `key` under a node at depth `d` with hash `h`, past the siblings
collected above it: the key's value, and a proof whose siblings under the node, from the top,
fold with the key's bits after the first `4 d` over the proof's leaf to `h`, with at most 256
siblings in all and a leaf that answers the query. -/
def WalkResult (key : H256) (d : Nat) (h : H256) (value : Option (H256 × (K × UInt64)))
    (siblings : List NodeInProof)
    (result : Option (H256 × (K × UInt64)) × SparseMerkleProofExt) : Prop :=
  ∃ rest, result = (value, ⟨result.2.leaf, (siblings ++ rest).reverse⟩) ∧
    4 * d + rest.length ≤ 256 ∧
    climb hashInternal (((iterBits key).drop (4 * d)).zip (rest.map (NodeInProof.hash hashLeaf)))
      (result.2.leaf.elim placeholder hashLeaf) = h ∧
    LeafAnswers key (value.map Prod.fst) (4 * d + rest.length) result.2.leaf

end Stored

/-! ### The walk -/

section Walk

variable {K : Type} {hashInternal : H256 → H256 → H256} {placeholder : H256}
  {hashLeaf : SparseMerkleLeafNode → H256} {reader : NodeKey → Except Failure (Node K)}
  {key : H256} {version : UInt64} {nibblePath : NibblePath}

theorem getWithProofExtLoop_of_leaf {leafNode : LeafNode K} {nodeKey : NodeKey}
    (hread : reader nodeKey = .ok (.leaf leafNode)) (nibbleDepth : Nat) (depths : List Nat)
    (pos : Nat) (siblings : List NodeInProof) :
    getWithProofExtLoop hashInternal placeholder reader key version nibblePath
        (nibbleDepth :: depths) nodeKey pos siblings =
      .ok (if leafNode.accountKey = key then some (leafNode.valueHash, leafNode.valueIndex)
        else none, ⟨some ⟨leafNode.accountKey, leafNode.valueHash⟩, siblings.reverse⟩) := by
  simp only [getWithProofExtLoop, readNode, hread]
  rfl

theorem getWithProofExtLoop_of_null {nodeKey : NodeKey} (hread : reader nodeKey = .ok .null)
    (nibbleDepth : Nat) (depths : List Nat) (pos : Nat) (siblings : List NodeInProof) :
    getWithProofExtLoop hashInternal placeholder reader key version nibblePath
        (nibbleDepth :: depths) nodeKey pos siblings = .ok (none, ⟨none, []⟩) := by
  simp only [getWithProofExtLoop, readNode, hread]
  rfl

theorem getWithProofExtLoop_of_internal_none {node : InternalNode} {nodeKey : NodeKey} {pos : Nat}
    {n : Nibble} {sibs : List NodeInProof}
    (hread : reader nodeKey = .ok (.internal node))
    (hnext : nextNibble nibblePath pos = .ok (some n))
    (hok : getChildWithSiblings hashInternal placeholder node nodeKey n (some reader) =
      .ok (none, sibs))
    (nibbleDepth : Nat) (depths : List Nat) (siblings : List NodeInProof) :
    getWithProofExtLoop hashInternal placeholder reader key version nibblePath
        (nibbleDepth :: depths) nodeKey pos siblings =
      .ok (none, ⟨none, (siblings ++ sibs).reverse⟩) := by
  simp only [getWithProofExtLoop, readNode, hread, hnext, queriedNibble, hok, Control.ok_bind]
  rfl

theorem getWithProofExtLoop_of_internal_some {node : InternalNode} {nodeKey childNodeKey : NodeKey}
    {pos : Nat} {n : Nibble} {sibs : List NodeInProof}
    (hread : reader nodeKey = .ok (.internal node))
    (hnext : nextNibble nibblePath pos = .ok (some n))
    (hok : getChildWithSiblings hashInternal placeholder node nodeKey n (some reader) =
      .ok (some childNodeKey, sibs))
    (nibbleDepth : Nat) (depths : List Nat) (siblings : List NodeInProof) :
    getWithProofExtLoop hashInternal placeholder reader key version nibblePath
        (nibbleDepth :: depths) nodeKey pos siblings =
      getWithProofExtLoop hashInternal placeholder reader key version nibblePath depths
        childNodeKey (pos + 1) (siblings ++ sibs) := by
  simp only [getWithProofExtLoop, readNode, hread, hnext, queriedNibble, hok, Control.ok_bind]

/-- The iterator over the key's path yields its nibbles. -/
theorem nextNibble_of_newEven (hpath : NibblePath.newEven key.bytes = .ok nibblePath) {d : Nat}
    (hd : d < 64) : nextNibble nibblePath d = .ok (some ((keyNibbles key).getD d default)) := by
  obtain ⟨hwf, hnib⟩ := NibblePath.newEven_spec hpath
  obtain ⟨-, rfl⟩ := NibblePath.newEven_eq_ok_iff.mp hpath
  have hnum : d < (⟨key.bytes.length * 2, key.bytes⟩ : NibblePath).numNibbles := by
    simp only [key.length_eq]
    omega
  rw [nextNibble, if_pos hnum, NibblePath.getNibble_spec hwf hnum, hnib]
  rfl

theorem childPath_of_genChildNodeKey {nodeKey childKey : NodeKey} {version : UInt64} {m : Nibble}
    (hwf : nodeKey.nibblePath.WellFormed) (hlt : nodeKey.nibblePath.numNibbles < rootNibbleHeight)
    (hkey : nodeKey.genChildNodeKey version m = .ok childKey) :
    childKey.nibblePath.toNibbles = nodeKey.nibblePath.toNibbles ++ [m] ∧
      childKey.nibblePath.numNibbles = nodeKey.nibblePath.numNibbles + 1 := by
  obtain ⟨q, hpush, hqwf, hq⟩ := NibblePath.push_spec hwf hlt m
  rw [NodeKey.nibblePath_of_genChildNodeKey hkey, Except.ok.injEq] at hpush
  subst hpush
  refine ⟨hq, ?_⟩
  rw [← hqwf.length_toNibbles, hq, List.length_append, hwf.length_toNibbles, List.length_singleton]

/-- A subtree whose root reads as a leaf is that leaf. -/
theorem Stored.of_leaf {nodeKey : NodeKey} {h : H256}
    {values : H256 → Option (H256 × (K × UInt64))} {leafNode : LeafNode K}
    (hs : Stored hashInternal placeholder hashLeaf reader nodeKey h values)
    (hread : reader nodeKey = .ok (.leaf leafNode)) :
    h = hashLeaf ⟨leafNode.accountKey, leafNode.valueHash⟩ ∧
      values = (fun k => if k = leafNode.accountKey then
        some (leafNode.valueHash, leafNode.valueIndex) else none) ∧
      nodeKey.nibblePath.toNibbles <+: keyNibbles leafNode.accountKey := by
  cases hs with
  | leaf hread' hprefix =>
    have heq := hread.symm.trans hread'
    cases heq
    exact ⟨rfl, rfl, hprefix⟩
  | internal _ _ hread' =>
    have heq := hread.symm.trans hread'
    cases heq

theorem storesLeaves_of_children {nodeKey : NodeKey} {node : InternalNode}
    {childKey : Nibble → NodeKey} {values : Nibble → H256 → Option (H256 × (K × UInt64))}
    (hkeys : ∀ m c, node.children m = some c →
      nodeKey.genChildNodeKey c.version m = .ok (childKey m))
    (hchildren : ∀ m c, node.children m = some c →
      Stored hashInternal placeholder hashLeaf reader (childKey m) c.hash (values m)) :
    StoresLeaves hashLeaf node.children nodeKey reader := by
  intro m c key leaf hc _ hkey hread
  rw [hkeys m c hc, Except.ok.injEq] at hkey
  subst hkey
  exact ((hchildren m c hc).of_leaf hread).1.symm

theorem readsLeaves_of_children {nodeKey : NodeKey} {node : InternalNode}
    {childKey : Nibble → NodeKey}
    (hkeys : ∀ m c, node.children m = some c →
      nodeKey.genChildNodeKey c.version m = .ok (childKey m))
    (hleafs : ∀ m c, node.children m = some c → c.nodeType = .leaf →
      ∃ leafNode, reader (childKey m) = .ok (.leaf leafNode)) :
    ReadsLeaves node.children nodeKey reader := by
  intro m c key hc hleaf hkey
  rw [hkeys m c hc, Except.ok.injEq] at hkey
  subst hkey
  exact hleafs m c hc hleaf

theorem zip_take_length {α β : Type} :
    ∀ (xs : List α) (ys : List β), (xs.take ys.length).zip ys = xs.zip ys
  | [], _ => by simp
  | _ :: _, [] => by simp
  | x :: xs, y :: ys => by simp [zip_take_length xs ys]

theorem take_getD_of_concat_prefix {α : Type} [Inhabited α] {l₁ l₂ : List α} {a : α}
    (h : l₁ ++ [a] <+: l₂) : l₂.take l₁.length = l₁ ∧ l₂.getD l₁.length default = a := by
  obtain ⟨t, rfl⟩ := h
  simp

/-- The siblings a node at depth `d` adds fold with the key's bits as `proofRoot` folds them with
the bits of the key's nibble at `d`. -/
theorem climb_drop_iterBits {d : Nat} (hd : d < 64) {sibs : List NodeInProof}
    (hlen : sibs.length ≤ 4) (cur : H256) :
    climb hashInternal (((iterBits key).drop (4 * d)).zip (sibs.map (NodeInProof.hash hashLeaf)))
        cur = proofRoot hashInternal hashLeaf ((keyNibbles key).getD d default) sibs cur := by
  rw [proofRoot, ← zip_take_length, List.length_map, take_drop_iterBits key hd hlen]

/-- Below a node whose four bits are all taken, the rest of the fold is the child's. -/
theorem climb_drop_iterBits_append {d : Nat} (hd : d < 64) {sibs rest : List NodeInProof}
    (hlen : sibs.length = 4) (cur : H256) :
    climb hashInternal (((iterBits key).drop (4 * d)).zip
        ((sibs ++ rest).map (NodeInProof.hash hashLeaf))) cur =
      proofRoot hashInternal hashLeaf ((keyNibbles key).getD d default) sibs
        (climb hashInternal (((iterBits key).drop (4 * (d + 1))).zip
          (rest.map (NodeInProof.hash hashLeaf))) cur) := by
  have htake : (((iterBits key).drop (4 * d)).take 4).length = 4 := by simp; omega
  rw [← List.take_append_drop 4 ((iterBits key).drop (4 * d)), List.map_append,
    List.zip_append (by rw [htake, List.length_map, hlen]), climb_append, List.drop_drop,
    show 4 * d + 4 = 4 * (d + 1) by omega, proofRoot, hlen, ← take_drop_iterBits key hd le_rfl]

/-- The walk ends at a leaf, with the siblings `sibs` under the node at depth `d`. -/
theorem walkResult_of_leaf {d : Nat} {h : H256} {value : Option (H256 × (K × UInt64))}
    {siblings : List NodeInProof} (sibs : List NodeInProof) {leafNode : LeafNode K}
    (hbound : 4 * d + sibs.length ≤ 256)
    (hclimb : climb hashInternal (((iterBits key).drop (4 * d)).zip
      (sibs.map (NodeInProof.hash hashLeaf))) (hashLeaf ⟨leafNode.accountKey, leafNode.valueHash⟩) = h)
    (hvalue : value = if key = leafNode.accountKey then
      some (leafNode.valueHash, leafNode.valueIndex) else none)
    (hbits : leafNode.accountKey ≠ key → (iterBits key).take (4 * d + sibs.length) =
      (iterBits leafNode.accountKey).take (4 * d + sibs.length)) :
    WalkResult hashInternal placeholder hashLeaf key d h value siblings
      (if leafNode.accountKey = key then some (leafNode.valueHash, leafNode.valueIndex) else none,
        ⟨some ⟨leafNode.accountKey, leafNode.valueHash⟩, (siblings ++ sibs).reverse⟩) := by
  refine ⟨sibs, ?_, hbound, hclimb, ?_⟩
  · by_cases heq : leafNode.accountKey = key
    · rw [hvalue, if_pos heq, if_pos heq.symm]
    · rw [hvalue, if_neg heq, if_neg (Ne.symm heq)]
  · by_cases heq : leafNode.accountKey = key
    · rw [hvalue, if_pos heq.symm]
      exact .inl ⟨rfl, heq.symm⟩
    · rw [hvalue, if_neg (Ne.symm heq)]
      exact .inr ⟨rfl, Ne.symm heq, hbits heq⟩

/-- The walk goes on under the child at the key's nibble once all four of its bits are taken. -/
theorem WalkResult.of_child {d : Nat} (hd : d < 64) {h h' : H256}
    {value : Option (H256 × (K × UInt64))} {siblings sibs : List NodeInProof}
    {result : Option (H256 × (K × UInt64)) × SparseMerkleProofExt} (hlen : sibs.length = 4)
    (hroot : h = proofRoot hashInternal hashLeaf ((keyNibbles key).getD d default) sibs h')
    (hw : WalkResult hashInternal placeholder hashLeaf key (d + 1) h' value (siblings ++ sibs)
      result) :
    WalkResult hashInternal placeholder hashLeaf key d h value siblings result := by
  obtain ⟨rest, hres, hbound, hclimb, hanswers⟩ := hw
  have hdepth : 4 * (d + 1) + rest.length = 4 * d + (sibs ++ rest).length := by
    rw [List.length_append, hlen]
    omega
  refine ⟨sibs ++ rest, hres.trans (by rw [List.append_assoc]), by omega, ?_, hdepth ▸ hanswers⟩
  rw [climb_drop_iterBits_append hd hlen, hclimb, hroot]

/-- The walk ends where the node has no child, with the siblings `sibs` under it. -/
theorem walkResult_of_absent {d : Nat} {h : H256} {siblings sibs : List NodeInProof}
    (hbound : 4 * d + sibs.length ≤ 256)
    (hclimb : climb hashInternal (((iterBits key).drop (4 * d)).zip
      (sibs.map (NodeInProof.hash hashLeaf))) placeholder = h) :
    WalkResult hashInternal placeholder hashLeaf key d h (none : Option (H256 × (K × UInt64)))
      siblings (none, ⟨none, (siblings ++ sibs).reverse⟩) :=
  ⟨sibs, rfl, hbound, hclimb, rfl⟩

theorem take_add_one_getD {α : Type} [Inhabited α] {l : List α} {d : Nat} (h : d < l.length) :
    l.take (d + 1) = l.take d ++ [l.getD d default] := by
  rw [List.take_add_one, List.getElem?_eq_getElem h, Option.toList_some, List.getD_eq_getElem _ _ h]

theorem Child.nodeType_eq_leaf {c : Child} (h : c.isLeaf = true) : c.nodeType = .leaf := by
  unfold Child.isLeaf at h
  split at h
  · assumption
  · cases h

/-- The walk from a subtree stored at a node key on the key's path, with the iterator at the
node's depth, returns what the subtree holds for the key and a proof of it. The induction is on
the subtree: a leaf ends the walk, and an internal node ends it or hands it to a child. -/
theorem getWithProofExtLoop_spec (version : UInt64)
    (hpath : NibblePath.newEven key.bytes = .ok nibblePath)
    {nodeKey : NodeKey} {h : H256} {values : H256 → Option (H256 × (K × UInt64))}
    (hs : Stored hashInternal placeholder hashLeaf reader nodeKey h values)
    (siblings : List NodeInProof) (hnum : nodeKey.nibblePath.numNibbles ≤ 64)
    (htake : nodeKey.nibblePath.toNibbles = (keyNibbles key).take nodeKey.nibblePath.numNibbles) :
    ∃ result, getWithProofExtLoop hashInternal placeholder reader key version nibblePath
        (List.range' nodeKey.nibblePath.numNibbles (65 - nodeKey.nibblePath.numNibbles)) nodeKey
        nodeKey.nibblePath.numNibbles siblings = .ok result ∧
      WalkResult hashInternal placeholder hashLeaf key nodeKey.nibblePath.numNibbles h
        (values key) siblings result := by
  induction hs generalizing siblings with
  | @leaf nodeKey leafNode hread hprefix =>
    have hkeys : (keyNibbles key).take nodeKey.nibblePath.numNibbles =
        (keyNibbles leafNode.accountKey).take nodeKey.nibblePath.numNibbles := by
      have hlen : nodeKey.nibblePath.toNibbles.length = nodeKey.nibblePath.numNibbles := by
        rw [htake, List.length_take, length_keyNibbles]
        omega
      have hpre := List.prefix_iff_eq_take.mp hprefix
      rw [hlen] at hpre
      rw [← htake, ← hpre]
    rw [show 65 - nodeKey.nibblePath.numNibbles = (64 - nodeKey.nibblePath.numNibbles) + 1 by omega,
      List.range'_succ]
    refine ⟨_, getWithProofExtLoop_of_leaf hread _ _ _ _, ?_⟩
    rw [show siblings.reverse = (siblings ++ []).reverse by rw [List.append_nil]]
    refine walkResult_of_leaf [] (by simp; omega) (by simp) rfl fun _ => ?_
    rw [List.length_nil, Nat.add_zero]
    exact take_iterBits_of_take_keyNibbles hkeys
  | @internal nodeKey node h childKey values hread hnew hwf hlt hhash hkeys hchildren hleafs hnone
      ih =>
    beta_reduce
    have hd : nodeKey.nibblePath.numNibbles < 64 := hlt
    have hnext := nextNibble_of_newEven hpath hd
    obtain ⟨⟨res, sibs⟩, hok⟩ : ∃ r, getChildWithSiblings hashInternal placeholder node nodeKey
        ((keyNibbles key).getD nodeKey.nibblePath.numNibbles default) (some reader) = .ok r :=
      getChildWithSiblings_some_ok hwf hlt (readsLeaves_of_children hkeys hleafs) _
    obtain ⟨hslen, hproves⟩ :=
      getChildWithSiblings_some hnew (storesLeaves_of_children hkeys hchildren) hok
    rw [show 65 - nodeKey.nibblePath.numNibbles = (64 - nodeKey.nibblePath.numNibbles) + 1 by omega,
      List.range'_succ]
    rcases hproves with ⟨rfl, hn, hroot⟩ | ⟨m, c, childNodeKey, rfl, hc, hchild, hcase, hroot⟩
    · -- no child at the key's nibble: the proof ends at the placeholder
      refine ⟨_, getWithProofExtLoop_of_internal_none hread hnext hok _ _ _, ?_⟩
      rw [hnone _ hn key]
      refine walkResult_of_absent (by omega) ?_
      rw [climb_drop_iterBits hd hslen]
      exact (Except.ok.inj (hhash.symm.trans hroot)).symm
    · have hroot' : h = proofRoot hashInternal hashLeaf
          ((keyNibbles key).getD nodeKey.nibblePath.numNibbles default) sibs c.hash :=
        Except.ok.inj (hhash.symm.trans hroot)
      have hckey : childNodeKey = childKey m := by
        have hk := hkeys m c hc
        rw [hchild, Except.ok.injEq] at hk
        exact hk
      subst hckey
      rw [getWithProofExtLoop_of_internal_some hread hnext hok]
      obtain ⟨hpath', hnum'⟩ := childPath_of_genChildNodeKey hwf hlt (hkeys m c hc)
      have hlenNibbles : nodeKey.nibblePath.numNibbles < (keyNibbles key).length := by
        rw [length_keyNibbles]
        exact hd
      rcases hcase with ⟨rfl, hlen4⟩ | ⟨hleaf, hmn, hdiv⟩
      · -- the child at the key's nibble, below all four bits: the walk goes on there
        obtain ⟨result, hloop, hw⟩ := ih _ c hc (siblings ++ sibs) (by omega)
          (by rw [hpath', hnum', htake, take_add_one_getD hlenNibbles])
        rw [hnum', show 65 - (nodeKey.nibblePath.numNibbles + 1) =
          64 - nodeKey.nibblePath.numNibbles by omega] at hloop
        rw [hnum'] at hw
        exact ⟨result, hloop, hw.of_child hd hlen4 hroot'⟩
      · -- a leaf child where the proof stops: the walk ends at that leaf
        obtain ⟨leafNode, hread'⟩ := hleafs m c hc (Child.nodeType_eq_leaf hleaf)
        obtain ⟨hchash, hvals, hprefix⟩ := (hchildren m c hc).of_leaf hread'
        rw [hpath'] at hprefix
        obtain ⟨htake', hnib⟩ := take_getD_of_concat_prefix hprefix
        rw [hwf.length_toNibbles] at htake' hnib
        have hkeys' : (keyNibbles key).take nodeKey.nibblePath.numNibbles =
            (keyNibbles leafNode.accountKey).take nodeKey.nibblePath.numNibbles := by
          rw [← htake, htake']
        have hvalue : values ((keyNibbles key).getD nodeKey.nibblePath.numNibbles default) key =
            if key = leafNode.accountKey then some (leafNode.valueHash, leafNode.valueIndex)
            else none := by
          rcases hmn with rfl | hn
          · rw [hvals]
          · have hne : key ≠ leafNode.accountKey := by
              rintro rfl
              rw [hnib, hc] at hn
              cases hn
            rw [hnone _ hn key, if_neg hne]
        rw [show 64 - nodeKey.nibblePath.numNibbles = (63 - nodeKey.nibblePath.numNibbles) + 1 by
          omega, List.range'_succ, getWithProofExtLoop_of_leaf hread']
        refine ⟨_, rfl, walkResult_of_leaf sibs (by omega) ?_ hvalue fun _ => ?_⟩
        · rw [climb_drop_iterBits hd hslen, ← hchash, hroot']
        · refine take_iterBits_of_nibble_div hd hslen hkeys' ?_
          rw [hnib]
          exact hdiv.symm

/-- A walk result from the root, with no siblings above it, is the value and a proof that
`verify_by_hash` accepts against the root's hash. -/
theorem verifyByHash_of_walkResult {h : H256} {value : Option (H256 × (K × UInt64))}
    {result : Option (H256 × (K × UInt64)) × SparseMerkleProofExt}
    (hw : WalkResult hashInternal placeholder hashLeaf key 0 h value [] result) :
    result.1 = value ∧
      result.2.verifyByHash hashInternal placeholder hashLeaf h key (value.map Prod.fst) = .ok () := by
  obtain ⟨value', ⟨leaf, siblings⟩⟩ := result
  obtain ⟨rest, hres, hbound, hclimb, hanswers⟩ := hw
  simp only [Prod.mk.injEq, SparseMerkleProofExt.mk.injEq, List.nil_append, true_and] at hres
  obtain ⟨rfl, rfl⟩ := hres
  rw [Nat.mul_zero, Nat.zero_add] at hbound hanswers
  rw [List.drop_zero] at hclimb
  -- the proof's siblings are those of the walk, from the bottom up
  have hsiblings : (SparseMerkleProofExt.toProof hashLeaf ⟨leaf, rest.reverse⟩).siblings =
      (rest.map (NodeInProof.hash hashLeaf)).reverse := List.map_reverse
  have hlength : (SparseMerkleProofExt.toProof hashLeaf ⟨leaf, rest.reverse⟩).siblings.length =
      (rest.map (NodeInProof.hash hashLeaf)).length := by
    rw [hsiblings, List.length_reverse]
  refine ⟨rfl, verifyByHash_of_climb hashInternal placeholder hashLeaf ?_ ?_ ?_⟩
  · rw [hlength, List.length_map]
    exact hbound
  · rw [hlength, List.length_map]
    exact hanswers
  · rw [hsiblings, List.reverse_reverse, List.length_reverse, zip_take_length]
    exact hclimb

end Walk

/-! ### Reading a key with its proof -/

section GetWithProof

variable {K : Type} {hashInternal : H256 → H256 → H256} {placeholder : H256}
  {hashLeaf : SparseMerkleLeafNode → H256} {reader : NodeKey → Except Failure (Node K)}

theorem newEven_key_bytes (key : H256) :
    NibblePath.newEven key.bytes = .ok ⟨key.bytes.length * 2, key.bytes⟩ :=
  NibblePath.newEven_eq_ok_iff.mpr ⟨by rw [key.length_eq]; decide, rfl⟩

/-- Over a store that holds the tree of a version, `get_with_proof_ext` returns for every key the
value the tree holds for it, with a proof that `verify_by_hash` accepts against the root hash. -/
theorem getWithProofExt_verifies {version : UInt64} {rootHash : H256}
    {values : H256 → Option (H256 × (K × UInt64))}
    (htree : TreeAt hashInternal placeholder hashLeaf reader version rootHash values) (key : H256) :
    ∃ proof, getWithProofExt hashInternal placeholder reader key version = .ok (values key, proof) ∧
      proof.verifyByHash hashInternal placeholder hashLeaf rootHash key ((values key).map Prod.fst) =
        .ok () := by
  have hempty : NibblePath.newEven [] = .ok ⟨0, []⟩ := NibblePath.newEven_eq_ok_iff.mpr ⟨by decide, rfl⟩
  have hrange : List.range (rootNibbleHeight + 1) = List.range' 0 (64 + 1) := List.range_eq_range'
  rw [getWithProofExt, hempty, Control.ok_bind, newEven_key_bytes, Control.ok_bind, hrange,
    List.range'_succ]
  rcases htree with ⟨hread, hroot, hnone⟩ | hs
  · -- a `Null` root: the proof of no leaf and no siblings
    refine ⟨⟨none, []⟩, ?_, ?_⟩
    · rw [getWithProofExtLoop_of_null hread, hnone key]
    · rw [hnone key, hroot]
      exact verifyByHash_of_climb hashInternal placeholder hashLeaf (Nat.zero_le _) rfl rfl
  · -- a stored root: the walk from depth 0 with no siblings above it
    rw [← List.range'_succ]
    obtain ⟨⟨value, proof⟩, hloop, hw⟩ := getWithProofExtLoop_spec version
      (newEven_key_bytes key) hs [] (Nat.zero_le _) (by rw [List.take_zero]; rfl)
    obtain ⟨rfl, hverify⟩ := verifyByHash_of_walkResult hw
    exact ⟨proof, hloop, hverify⟩

end GetWithProof

/-! ### A sample tree -/

section Sample

/-- The leaf with account key `b, 0, …, 0`, value hash `b, …, b` and value index `b`. -/
def sampleLeaf (b : UInt8) : LeafNode Unit :=
  ⟨⟨b :: List.replicate 31 0, by simp⟩, ⟨List.replicate 32 b, by simp⟩, ((), b.toUInt64)⟩

/-- Leaf children at nibbles 0 and 1, for the keys `0x01…` and `0x10…`. -/
def sampleChildren (m : Nibble) : Option Child :=
  if m = Nibble.ofFin 0 then some ⟨(sampleLeaf 1).accountKey, 0, .leaf⟩
  else if m = Nibble.ofFin 1 then some ⟨(sampleLeaf 16).accountKey, 0, .leaf⟩ else none

/-- A store with the root of version 0 and its two leaves. -/
def sampleReader (nodeKey : NodeKey) : Except Failure (Node Unit) :=
  if nodeKey.nibblePath.bytes = [] then .ok (.internal ⟨sampleChildren, 2⟩)
  else if nodeKey.nibblePath.bytes = [0] then .ok (.leaf (sampleLeaf 1))
  else if nodeKey.nibblePath.bytes = [16] then .ok (.leaf (sampleLeaf 16))
  else .error (.error "missing node")

/-- The values under each child of the sample root. -/
def sampleValues (m : Nibble) (k : H256) : Option (H256 × (Unit × UInt64)) :=
  if m = Nibble.ofFin 0 then
    if k = (sampleLeaf 1).accountKey then
      some ((sampleLeaf 1).valueHash, (sampleLeaf 1).valueIndex) else none
  else if m = Nibble.ofFin 1 then
    if k = (sampleLeaf 16).accountKey then
      some ((sampleLeaf 16).valueHash, (sampleLeaf 16).valueIndex) else none
  else none

theorem getWithProofExt_verifies_sample :
    TreeAt (fun a _ => a) ⟨List.replicate 32 0, by simp⟩ SparseMerkleLeafNode.key sampleReader 0
        (sampleLeaf 1).accountKey (fun k => sampleValues ((keyNibbles k).getD 0 default) k) ∧
      ∃ proof, getWithProofExt (fun a _ => a) ⟨List.replicate 32 0, by simp⟩ sampleReader
          (sampleLeaf 16).accountKey 0 =
          .ok ((fun k => sampleValues ((keyNibbles k).getD 0 default) k) (sampleLeaf 16).accountKey,
            proof) ∧
        proof.verifyByHash (fun a _ => a) ⟨List.replicate 32 0, by simp⟩ SparseMerkleLeafNode.key
            (sampleLeaf 1).accountKey (sampleLeaf 16).accountKey
            (((fun k => sampleValues ((keyNibbles k).getD 0 default) k)
              (sampleLeaf 16).accountKey).map Prod.fst) = .ok () := by
  have hhash : InternalNode.hash (fun a _ => a) ⟨List.replicate 32 0, by simp⟩ ⟨sampleChildren, 2⟩ =
      .ok (sampleLeaf 1).accountKey :=
    (InternalNode.hash_eq_subtree _).trans (congrArg Except.ok (by decide))
  have hkeys : ∀ m c, sampleChildren m = some c →
      (⟨0, ⟨0, []⟩⟩ : NodeKey).genChildNodeKey c.version m = .ok ⟨0, ⟨1, [m.val <<< 4]⟩⟩ := by
    intro m c hc
    unfold sampleChildren at hc
    split_ifs at hc with h0 h1
    · subst h0
      cases hc
      decide
    · subst h1
      cases hc
      decide
  have hchildren : ∀ m c, sampleChildren m = some c →
      Stored (fun a _ => a) ⟨List.replicate 32 0, by simp⟩ SparseMerkleLeafNode.key sampleReader
        ⟨0, ⟨1, [m.val <<< 4]⟩⟩ c.hash (sampleValues m) := by
    intro m c hc
    unfold sampleChildren at hc
    split_ifs at hc with h0 h1
    · subst h0
      cases hc
      exact .leaf rfl (by decide)
    · subst h1
      cases hc
      exact .leaf rfl (by decide)
  have hleafs : ∀ m c, sampleChildren m = some c → c.nodeType = .leaf →
      ∃ leafNode, sampleReader ⟨0, ⟨1, [m.val <<< 4]⟩⟩ = .ok (.leaf leafNode) := by
    intro m c hc _
    unfold sampleChildren at hc
    split_ifs at hc with h0 h1
    · subst h0
      exact ⟨_, rfl⟩
    · subst h1
      exact ⟨_, rfl⟩
  have hnone : ∀ m, sampleChildren m = none → ∀ k, sampleValues m k = none := by
    intro m hm k
    unfold sampleChildren at hm
    split_ifs at hm with h0 h1
    rw [sampleValues, if_neg h0, if_neg h1]
  have htree : TreeAt (fun a _ => a) ⟨List.replicate 32 0, by simp⟩ SparseMerkleLeafNode.key
      sampleReader 0 (sampleLeaf 1).accountKey
      (fun k => sampleValues ((keyNibbles k).getD 0 default) k) :=
    .inr (.internal _ sampleValues rfl (by decide) (by decide) (by decide) hhash hkeys hchildren
      hleafs hnone)
  exact ⟨htree, getWithProofExt_verifies htree _⟩

end Sample

end Hemvm.Jellyfish
