import Mathlib
import Hemvm.Jellyfish.Update
import Hemvm.Jellyfish.Tree

/-! A value set written into an empty tree (`batch_put_value_set` without a persisted version,
which is `batch_update_subtree` from the root). Over a sorted batch whose keys share the path of
the node key, each range of the next nibble makes one child; the subtree the code returns, with
the nodes it puts in the batch, is a subtree stored at the node key that holds the values of the
batch, and the batch never puts two nodes under one node key. -/
namespace Hemvm.Jellyfish
open Codec SparseMerkle

/-! ### Nibbles of key hashes -/

section Nibbles

theorem getNibble_eq_getD_keyNibbles (h : H256) {d : Nat} (hd : d < 64) :
    NibbleExt.getNibble h d = .ok ((keyNibbles h).getD d default) := by
  have hbyte : d / 2 < h.bytes.length := by rw [h.length_eq]; omega
  have hget := getElem?_flatMap_splitByte h.bytes d
  rw [List.getElem?_eq_getElem hbyte, Option.map_some] at hget
  rw [keyNibbles, List.getD_eq_getElem?_getD, hget, Option.getD_some, NibbleExt.getNibble,
    NibblePath.byteAt, List.getElem?_eq_getElem hbyte]
  simp only [Control.ok_bind]
  split
  · rw [if_neg (by omega)]
    exact Nibble.from_high _
  · rw [if_pos (by omega)]
    exact Nibble.from_low _

/-- `HashValue::nibble`, which `NibbleRangeIterator` reads, is the value of the nibble. -/
theorem nibble_eq_val_getD_keyNibbles (h : H256) {d : Nat} (hd : d < 64) :
    nibble h d = ((keyNibbles h).getD d default).val := by
  have hbyte : d / 2 < h.bytes.length := by rw [h.length_eq]; omega
  have hget := getElem?_flatMap_splitByte h.bytes d
  rw [List.getElem?_eq_getElem hbyte, Option.map_some] at hget
  rw [keyNibbles, List.getD_eq_getElem?_getD, hget, Option.getD_some, nibble,
    List.getD_eq_getElem _ _ hbyte]
  split
  · rw [if_neg (by omega)]
    exact shiftRight_four_and _
  · rw [if_pos (by omega)]
    rfl

/-- Keys with the same 64 nibbles are equal. -/
theorem eq_of_keyNibbles_eq {a b : H256} (h : keyNibbles a = keyNibbles b) : a = b := by
  apply FixedBytes.ext
  apply List.ext_getElem (by rw [a.length_eq, b.length_eq])
  intro i ha hb
  have hhi := congrArg (·[2 * i]?) h
  have hlo := congrArg (·[2 * i + 1]?) h
  simp only [keyNibbles, getElem?_flatMap_splitByte, show 2 * i / 2 = i by omega,
    show (2 * i + 1) / 2 = i by omega, show (2 * i + 1) % 2 = 1 by omega,
    show 2 * i % 2 = 0 by omega, List.getElem?_eq_getElem ha, List.getElem?_eq_getElem hb,
    Option.map_some, Option.some.injEq] at hhi hlo
  simp only [Nat.zero_ne_one, ↓reduceIte] at hhi
  simp only [↓reduceIte] at hlo
  have h1 := congrArg (·.val.toNat) hhi
  have h2 := congrArg (·.val.toNat) hlo
  simp only [Nibble.toNat_high, Nibble.toNat_low] at h1 h2
  exact UInt8.toNat_inj.mp (by omega)

theorem Nibble.nodup_all : Nibble.all.Nodup :=
  (List.nodup_finRange 16).map fun _ _ h => Nibble.equivFin.symm.injective h

end Nibbles

/-! ### Batches -/

section Batches

variable {K : Type}

/-- The batch with the nodes put in order. -/
def TreeUpdateBatch.putNodes (batch : TreeUpdateBatch K) (nodes : List (NodeKey × Node K)) :
    TreeUpdateBatch K :=
  nodes.foldl (fun batch p => batch.putNode p.1 p.2) batch

@[simp] theorem TreeUpdateBatch.putNodes_nil (batch : TreeUpdateBatch K) : batch.putNodes [] = batch :=
  rfl

theorem TreeUpdateBatch.putNodes_append (batch : TreeUpdateBatch K) (a b : List (NodeKey × Node K)) :
    batch.putNodes (a ++ b) = (batch.putNodes a).putNodes b :=
  List.foldl_append

theorem TreeUpdateBatch.putNodes_cons (batch : TreeUpdateBatch K) (p : NodeKey × Node K)
    (rest : List (NodeKey × Node K)) :
    batch.putNodes (p :: rest) = (batch.putNode p.1 p.2).putNodes rest :=
  rfl

theorem TreeUpdateBatch.nodeBatch_putNodes (batch : TreeUpdateBatch K)
    (nodes : List (NodeKey × Node K)) :
    (batch.putNodes nodes).nodeBatch = batch.nodeBatch.modifyHead (· ++ nodes) := by
  induction nodes generalizing batch with
  | nil =>
    rw [putNodes_nil]
    simp only [List.append_nil]
    exact (congrFun List.modifyHead_id batch.nodeBatch).symm
  | cons p rest ih =>
    rw [putNodes_cons, ih, putNode, List.modifyHead_modifyHead]
    congr 1
    funext l
    simp

/-- Into a new batch, the nodes put are all the batch writes. -/
theorem TreeUpdateBatch.nodes_new_putNodes (nodes : List (NodeKey × Node K)) :
    (TreeUpdateBatch.new.putNodes nodes).nodes = nodes := by
  rw [TreeUpdateBatch.nodes, nodeBatch_putNodes]
  simp [TreeUpdateBatch.new]

theorem TreeUpdateBatch.nodes_putNode_new (nodes : List (NodeKey × Node K)) (key : NodeKey)
    (node : Node K) :
    ((TreeUpdateBatch.new.putNodes nodes).putNode key node).nodes = nodes ++ [(key, node)] := by
  rw [← nodes_new_putNodes (nodes ++ [(key, node)]), putNodes_append]
  rfl

end Batches

/-! ### The ranges of a batch -/

section Ranges

variable {V : Type}

/-- The slice `&kvs[left..=right]` of a range inside the batch. -/
def rangeSlice (kvs : List V) (range : Nat × Nat) : List V := (kvs.take (range.2 + 1)).drop range.1

theorem sliceAt_of_lt {kvs : List V} {i : Nat} (h : i < kvs.length) :
    sliceAt kvs i = .ok kvs[i] := by
  rw [sliceAt, List.getElem?_eq_getElem h]

theorem sliceInclusive_of_le {kvs : List V} {range : Nat × Nat} (h : range.1 ≤ range.2)
    (h' : range.2 < kvs.length) : sliceInclusive kvs range.1 range.2 = .ok (rangeSlice kvs range) := by
  rw [sliceInclusive, if_pos h', if_pos (by omega)]
  rfl

/-- The nibble at `depth` of each key of the batch. -/
def keyNibblesAt (kvs : List (H256 × V)) (depth : Nat) : List Nibble :=
  kvs.map fun kv => (keyNibbles kv.1).getD depth default

theorem map_val_keyNibblesAt {kvs : List (H256 × V)} {d : Nat} (hd : d < 64) :
    (keyNibblesAt kvs d).map Nibble.val = NibbleRangeIterator.nibbles kvs d := by
  rw [keyNibblesAt, NibbleRangeIterator.nibbles, List.map_map]
  exact List.map_congr_left fun kv _ => (nibble_eq_val_getD_keyNibbles kv.1 hd).symm

theorem getD_keyNibblesAt {kvs : List (H256 × V)} {d i : Nat} (hi : i < kvs.length) :
    (keyNibblesAt kvs d).getD i default = (keyNibbles kvs[i].1).getD d default := by
  rw [keyNibblesAt, List.getD_eq_getElem _ _ (by simpa using hi), List.getElem_map]

theorem mem_rangeSlice {kvs : List V} {range : Nat × Nat} {kv : V}
    (h : kv ∈ rangeSlice kvs range) :
    ∃ i, ∃ hi : i < kvs.length, range.1 ≤ i ∧ i ≤ range.2 ∧ kvs[i] = kv := by
  obtain ⟨j, hj, rfl⟩ := List.mem_iff_getElem.mp h
  have hlen : j < ((kvs.take (range.2 + 1)).drop range.1).length := hj
  simp only [List.length_drop, List.length_take] at hlen
  refine ⟨range.1 + j, by omega, by omega, by omega, ?_⟩
  simp only [rangeSlice, List.getElem_drop, List.getElem_take]

/-- Ranges from `p` that follow each other to the end of the batch cover what is left of it. -/
theorem flatMap_rangeSlice (kvs : List V) :
    ∀ (rs : List (Nat × Nat)) (p : Nat), (rs = [] ↔ p = kvs.length) →
      (∀ r ∈ rs.head?, r.1 = p) → (∀ r ∈ rs.getLast?, r.2 = kvs.length - 1) →
      rs.IsChain (fun r r' => r'.1 = r.2 + 1) → (∀ r ∈ rs, r.1 ≤ r.2 ∧ r.2 < kvs.length) →
      rs.flatMap (rangeSlice kvs) = kvs.drop p
  | [], p, hnil, _, _, _, _ => by
    rw [hnil.mp rfl, List.drop_length]
    rfl
  | [r], p, _, hhead, hlast, _, hmem => by
    have h1 : r.1 = p := hhead r rfl
    have h2 : r.2 = kvs.length - 1 := hlast r rfl
    have hr := hmem r List.mem_cons_self
    rw [List.flatMap_singleton, rangeSlice, h1, List.take_of_length_le (by omega)]
  | r :: r' :: rest, p, _, hhead, hlast, hchain, hmem => by
    have h1 : r.1 = p := hhead r rfl
    obtain ⟨hnext, hchain'⟩ := List.isChain_cons_cons.mp hchain
    have hr := hmem r List.mem_cons_self
    have hr' := hmem r' (List.mem_cons_of_mem _ List.mem_cons_self)
    have ih := flatMap_rangeSlice kvs (r' :: rest) (r.2 + 1) (by simp; omega)
      (fun x hx => by rw [List.head?_cons, Option.mem_def, Option.some.injEq] at hx; rw [← hx]; exact hnext)
      (fun x hx => hlast x (by rwa [List.getLast?_cons_cons]))
      hchain' (fun x hx => hmem x (List.mem_cons_of_mem _ hx))
    rw [List.flatMap_cons, ih, rangeSlice, h1, ← List.drop_append_of_le_length (by simp; omega),
      List.take_append_drop]

theorem getD_take_of_lt {α : Type} (l : List α) (x : α) {t d : Nat} (h : t < d) :
    (l.take d).getD t x = l.getD t x := by
  rw [List.getD_eq_getElem?_getD, List.getD_eq_getElem?_getD, List.getElem?_take, if_pos h]

/-- Over a sorted batch whose keys share their first `d < 64` nibbles, the ranges of the iterator
cut the batch into runs of keys with one nibble at `d`, a different nibble for each run. -/
theorem ranges_blocks {kvs : List (H256 × V)} {d : Nat} (hd : d < 64)
    (hsorted : SortedMap.Sorted kvs)
    (hshared : ∀ a ∈ kvs, ∀ b ∈ kvs, (keyNibbles a.1).take d = (keyNibbles b.1).take d) :
    ∃ rs, (⟨kvs, d, 0⟩ : NibbleRangeIterator V).ranges = .ok rs ∧
      rs.flatMap (rangeSlice kvs) = kvs ∧
      (∀ r ∈ rs, r.1 ≤ r.2 ∧ r.2 < kvs.length ∧ ∀ kv ∈ rangeSlice kvs r,
        (keyNibbles kv.1).getD d default = (keyNibblesAt kvs d).getD r.1 default) ∧
      (rs.map fun r => (keyNibblesAt kvs d).getD r.1 default).Nodup := by
  have hnib : ∀ a ∈ kvs, ∀ b ∈ kvs, ∀ t < d, nibble a.1 t = nibble b.1 t := by
    intro a ha b hb t ht
    have hab := congrArg (·.getD t default) (hshared a ha b hb)
    simp only [getD_take_of_lt _ _ ht] at hab
    rw [nibble_eq_val_getD_keyNibbles a.1 (by omega), nibble_eq_val_getD_keyNibbles b.1 (by omega),
      hab]
  -- the iterator's nibbles are the values of the key nibbles
  have hval : ∀ i, (NibbleRangeIterator.nibbles kvs d).getD i 0 =
      ((keyNibblesAt kvs d).getD i default).val := fun i => by
    rw [← map_val_keyNibblesAt hd]
    exact List.getD_map _ default Nibble.val
  obtain ⟨rs, hrs, hnil, hhead, hlast, hchain, hruns, hinc⟩ :=
    NibbleRangeIterator.ranges_spec (NibbleRangeIterator.nibbles_sorted hd hsorted hnib)
      kvs.length 0 (Nat.zero_le _) rfl
  refine ⟨rs, hrs, ?_, fun r hr => ?_, ?_⟩
  · rw [flatMap_rangeSlice kvs rs 0 hnil hhead hlast hchain
      (fun r hr => ⟨(hruns r hr).2.1, (hruns r hr).2.2.1⟩), List.drop_zero]
  · obtain ⟨-, h12, h2, hconst⟩ := hruns r hr
    refine ⟨h12, h2, fun kv hkv => ?_⟩
    obtain ⟨i, hi, hi1, hi2, rfl⟩ := mem_rangeSlice hkv
    have h := hconst i hi1 hi2
    rw [hval, hval] at h
    rw [← getD_keyNibblesAt hi]
    exact Nibble.ext h
  · apply List.Nodup.of_map Nibble.val
    rw [List.map_map]
    have hnodup := hinc.nodup
    rwa [show (fun r : Nat × Nat => (NibbleRangeIterator.nibbles kvs d).getD r.1 0) =
      Nibble.val ∘ fun r => (keyNibblesAt kvs d).getD r.1 default from funext fun r => hval r.1]
      at hnodup

end Ranges

/-! ### The values of a batch -/

section Values

variable {K : Type}

/-- The values a batch gives its keys at `version`: a key's value hash and state key with the
version, and nothing for a key it deletes or does not have. -/
def batchValues (kvs : List (H256 × Option (H256 × K))) (version : UInt64) (k : H256) :
    Option (H256 × (K × UInt64)) :=
  ((kvs.lookup k).bind id).map fun v => (v.1, (v.2, version))

theorem batchValues_of_lookup_eq {kvs kvs' : List (H256 × Option (H256 × K))} {k : H256}
    (h : kvs.lookup k = kvs'.lookup k) (version : UInt64) :
    batchValues kvs version k = batchValues kvs' version k := by
  rw [batchValues, batchValues, h]

theorem batchValues_of_lookup_eq_none {kvs : List (H256 × Option (H256 × K))} {k : H256}
    (h : kvs.lookup k = none) (version : UInt64) : batchValues kvs version k = none := by
  rw [batchValues, h]
  rfl

end Values

/-! ### New nodes -/

section NewNodes

variable {K : Type} (hashInternal : H256 → H256 → H256) (placeholder : H256)
  (hashLeaf : SparseMerkleLeafNode → H256)

/-- The hash of a node, which `Node::hash` returns without a panic: for an internal node the
root of the sparse Merkle tree of its children. -/
def Node.hashValue : Node K → H256
  | .internal node => subtree hashInternal placeholder (childLeaves node.children) 4 0
  | .leaf leafNode => hashLeaf ⟨leafNode.accountKey, leafNode.valueHash⟩
  | .null => placeholder

/-- The record `put_children` makes of a new child: its hash, the version and its type. -/
def Node.toChild (version : UInt64) (node : Node K) : Child :=
  ⟨node.hashValue hashInternal placeholder hashLeaf, version, node.nodeType⟩

/-- The key `gen_child_node_key` gives the child at `m` at `version`, or the parent's own key
where it panics. -/
def childKeyAt (nodeKey : NodeKey) (version : UInt64) (m : Nibble) : NodeKey :=
  match nodeKey.genChildNodeKey version m with
  | .ok key => key
  | .error _ => nodeKey

/-- The values a leaf holds: its own for its account key, and nothing for the other keys. -/
def LeafNode.values (leafNode : LeafNode K) (k : H256) : Option (H256 × (K × UInt64)) :=
  if k = leafNode.accountKey then some (leafNode.valueHash, leafNode.valueIndex) else none

/-- The count `Child::leaf_count` returns for a child that is not `Null`. -/
def NodeType.leafCountOf : NodeType → UInt64
  | .leaf => 1
  | .internal leafCount => leafCount
  | .null => 0

/-- What `batch_update_subtree` returns under `nodeKey` for a batch with the values `values` and
`count` pairs, with the nodes it puts: nothing where no key has a value; the leaf of the one key
with a value, under the node key's path, which the caller puts; or an internal node of at most
`count` leaves over new nodes at the new version, each under a longer path than the node key's
and no path twice, which a reader holding them reads as a subtree stored at the node key. -/
def Builds (nodeKey : NodeKey) (version : UInt64) (values : H256 → Option (H256 × (K × UInt64)))
    (count : Nat) : Option (Node K) → List (NodeKey × Node K) → Prop
  | none, nodes => nodes = [] ∧ ∀ k, values k = none
  | some (.leaf leafNode), nodes => nodes = [] ∧ values = leafNode.values ∧
      nodeKey.nibblePath.toNibbles <+: keyNibbles leafNode.accountKey
  | some (.internal node), nodes => node.leafCount.toNat ≤ count ∧
      (∀ p ∈ nodes, p.1.version = version ∧
        ∃ m rest, p.1.nibblePath.toNibbles = nodeKey.nibblePath.toNibbles ++ m :: rest) ∧
      (nodes.map fun p => p.1.nibblePath.toNibbles).Nodup ∧
      ∀ reader : NodeKey → Except Failure (Node K), (∀ p ∈ nodes, reader p.1 = .ok p.2) →
        reader nodeKey = .ok (.internal node) →
        Stored hashInternal placeholder hashLeaf reader nodeKey
          ((Node.internal node : Node K).hashValue hashInternal placeholder hashLeaf) values
  | some .null, _ => False

/-- What one range of the loop of `batch_update_subtree` makes: the nibble of its child, the
child's node if there is one, the nodes put under it, and the number of pairs in the range. -/
structure ChildResult (K : Type) where
  nibble : Nibble
  node : Option (Node K)
  nodes : List (NodeKey × Node K)
  count : Nat

/-- The entry `children.push` adds for a child with a node. -/
def ChildResult.child (d : ChildResult K) : Option (Nibble × Node K) := d.node.map (d.nibble, ·)

variable {hashInternal placeholder hashLeaf}

theorem Node.hash_eq_hashValue (node : Node K) :
    node.hash hashInternal placeholder hashLeaf =
      .ok (node.hashValue hashInternal placeholder hashLeaf) := by
  cases node with
  | internal node => exact InternalNode.hash_eq_subtree node
  | leaf leafNode => rfl
  | null => rfl

@[simp] theorem Node.hash_toChild (version : UInt64) (node : Node K) :
    (node.toChild hashInternal placeholder hashLeaf version).hash =
      node.hashValue hashInternal placeholder hashLeaf := rfl

@[simp] theorem Node.isLeaf_toChild (version : UInt64) (node : Node K) :
    (node.toChild hashInternal placeholder hashLeaf version).isLeaf = node.isLeaf := by
  cases node <;> rfl

theorem Child.leafCount_of_ne_null {c : Child} (h : c.nodeType ≠ .null) :
    c.leafCount = .ok c.nodeType.leafCountOf := by
  unfold Child.leafCount
  split
  · next heq => rw [heq]; rfl
  · next leafCount heq => rw [heq]; rfl
  · next heq => exact absurd heq h

/-- The nodes put for a subtree are new ones: at the new version, under longer paths than the
node key's, and no path twice. -/
theorem Builds.newNodes {nodeKey : NodeKey} {version : UInt64}
    {values : H256 → Option (H256 × (K × UInt64))} {count : Nat} {result : Option (Node K)}
    {nodes : List (NodeKey × Node K)}
    (hb : Builds hashInternal placeholder hashLeaf nodeKey version values count result nodes) :
    (∀ p ∈ nodes, p.1.version = version ∧
      ∃ m rest, p.1.nibblePath.toNibbles = nodeKey.nibblePath.toNibbles ++ m :: rest) ∧
      (nodes.map fun p => p.1.nibblePath.toNibbles).Nodup := by
  rcases result with _ | (node | leafNode | _)
  · simp only [Builds] at hb
    rw [hb.1]
    exact ⟨fun p hp => absurd hp List.not_mem_nil, List.nodup_nil⟩
  · simp only [Builds] at hb
    exact ⟨hb.2.1, hb.2.2.1⟩
  · simp only [Builds] at hb
    rw [hb.1]
    exact ⟨fun p hp => absurd hp List.not_mem_nil, List.nodup_nil⟩
  · simp only [Builds] at hb

/-- Under a well-formed path with room for a nibble, `gen_child_node_key` returns the child key:
at the version given, with the nibble appended to the path. -/
theorem childKeyAt_spec {nodeKey : NodeKey} (hwf : nodeKey.nibblePath.WellFormed)
    (hlt : nodeKey.nibblePath.numNibbles < rootNibbleHeight) (version : UInt64) (m : Nibble) :
    nodeKey.genChildNodeKey version m = .ok (childKeyAt nodeKey version m) ∧
      (childKeyAt nodeKey version m).version = version ∧
      (childKeyAt nodeKey version m).nibblePath.WellFormed ∧
      (childKeyAt nodeKey version m).nibblePath.toNibbles = nodeKey.nibblePath.toNibbles ++ [m] ∧
      (childKeyAt nodeKey version m).nibblePath.numNibbles = nodeKey.nibblePath.numNibbles + 1 := by
  obtain ⟨q, hpush, hqwf, -⟩ := NibblePath.push_spec hwf hlt m
  have hgen : nodeKey.genChildNodeKey version m = .ok ⟨version, q⟩ := by
    rw [NodeKey.genChildNodeKey, hpush, Control.ok_bind]
    rfl
  have hkey : childKeyAt nodeKey version m = ⟨version, q⟩ := by
    rw [childKeyAt, hgen]
  obtain ⟨hq, hnum⟩ := childPath_of_genChildNodeKey hwf hlt hgen
  rw [hkey]
  exact ⟨hgen, rfl, hqwf, hq, hnum⟩

/-- Without a hash cache, `put_children` puts each child under its child key and records it by
its hash. -/
theorem putChildren_eq {nodeKey : NodeKey} {version : UInt64}
    (hkey : ∀ m, nodeKey.genChildNodeKey version m = .ok (childKeyAt nodeKey version m)) :
    ∀ (children : List (Nibble × Node K)) (batch : TreeUpdateBatch K),
      putChildren hashInternal placeholder hashLeaf nodeKey version none children batch =
        .ok (children.map (fun c => (c.1, c.2.toChild hashInternal placeholder hashLeaf version)),
          batch.putNodes (children.map fun c => (childKeyAt nodeKey version c.1, c.2)))
  | [], batch => rfl
  | (m, node) :: rest, batch => by
    rw [putChildren, hkey m, Control.ok_bind, getHash, Node.hash_eq_hashValue, Control.ok_bind,
      putChildren_eq hkey rest, Control.ok_bind]
    rfl

theorem insertChildren_none (entries : List (Nibble × Child)) (m : Nibble) :
    insertChildren (fun _ => none) entries m = entries.reverse.lookup m :=
  Option.or_none

/-- The leaf counts summed with `usize` additions, none of which overflows. -/
theorem foldlM_addUsize : ∀ (counts : List UInt64) (acc : UInt64),
    acc.toNat + (counts.map UInt64.toNat).sum < 2 ^ 64 →
      ∃ total, counts.foldlM addUsize acc = .ok total ∧
        total.toNat = acc.toNat + (counts.map UInt64.toNat).sum
  | [], acc, _ => ⟨acc, rfl, by simp⟩
  | x :: xs, acc, h => by
    rw [List.map_cons, List.sum_cons] at h
    have hx : acc.toNat + x.toNat < 2 ^ 64 := by omega
    have hval : (acc + x).toNat = acc.toNat + x.toNat := by
      rw [UInt64.toNat_add, Nat.mod_eq_of_lt hx]
    obtain ⟨total, hfold, htotal⟩ := foldlM_addUsize xs (acc + x) (by omega)
    refine ⟨total, ?_, ?_⟩
    · rw [List.foldlM_cons, addUsize, if_pos hx, Control.ok_bind, hfold]
    · rw [htotal, hval, List.map_cons, List.sum_cons]
      omega

variable (hashInternal placeholder hashLeaf) in
/-- `InternalNode::new` over the records of children with distinct nibbles, none of them `Null`,
not a lone leaf and fewer than `2 ^ 64` leaves in all: a node over them whose leaf count is the
sum of theirs. -/
theorem new_insertChildren_toChild (version : UInt64) {children : List (Nibble × Node K)}
    (hnodup : (children.map Prod.fst).Nodup) (hne : children ≠ [])
    (hnull : ∀ c ∈ children, c.2.nodeType ≠ .null)
    (honly : ∀ c, children = [c] → c.2.isLeaf = false)
    (hfit : (children.map fun c => c.2.nodeType.leafCountOf.toNat).sum < 2 ^ 64) :
    ∃ node, InternalNode.new (insertChildren (fun _ => none)
        (children.map fun c => (c.1, c.2.toChild hashInternal placeholder hashLeaf version))) =
          .ok node ∧
      InternalNode.newImpl node.children = .ok node ∧
      node.children = insertChildren (fun _ => none)
        (children.map fun c => (c.1, c.2.toChild hashInternal placeholder hashLeaf version)) ∧
      node.leafCount.toNat = (children.map fun c => c.2.nodeType.leafCountOf.toNat).sum := by
  set entries := children.map fun c => (c.1, c.2.toChild hashInternal placeholder hashLeaf version)
    with hentries
  -- in the order of their nibbles, the children are the records, in some order
  have hkeys : (entries.reverse.map Prod.fst).Nodup := by
    rw [List.map_reverse, List.nodup_reverse, hentries, List.map_map]
    exact hnodup
  have hperm : (childValues (insertChildren (fun _ => none) entries)).Perm (entries.map Prod.snd) := by
    have h := SortedMap.perm_filterMap_lookup Nibble.nodup_all hkeys fun p _ => Nibble.mem_all p.1
    rw [List.map_reverse] at h
    rw [childValues, funext (insertChildren_none entries)]
    exact h.trans (List.reverse_perm _)
  have hsnd : entries.map Prod.snd =
      children.map fun c => c.2.toChild hashInternal placeholder hashLeaf version := by
    rw [hentries, List.map_map]
    rfl
  have hvalues : childValues (insertChildren (fun _ => none) entries) ≠ [] := fun h => by
    rw [h, List.nil_perm, hsnd, List.map_eq_nil_iff] at hperm
    exact hne hperm
  have hcheck : checkOnlyChild (childValues (insertChildren (fun _ => none) entries)) = .ok () := by
    cases hv : childValues (insertChildren (fun _ => none) entries) with
    | nil => rfl
    | cons only rest =>
      cases rest with
      | cons _ _ => rfl
      | nil =>
        -- a lone record is the record of a lone child, which is not a leaf
        rw [hv, List.perm_comm, List.perm_singleton, hsnd, List.map_eq_singleton_iff] at hperm
        obtain ⟨c, rfl, hc⟩ := hperm
        rw [checkOnlyChild, ← hc, Node.isLeaf_toChild, honly c rfl]
        rfl
  -- every record has the leaf count of its node
  have hcounts : (childValues (insertChildren (fun _ => none) entries)).mapM Child.leafCount =
      .ok ((childValues (insertChildren (fun _ => none) entries)).map fun c =>
        c.nodeType.leafCountOf) := by
    apply Control.mapM_eq_ok_of_forall
    intro c hc
    rw [hperm.mem_iff, hsnd, List.mem_map] at hc
    obtain ⟨c', hc', rfl⟩ := hc
    exact Child.leafCount_of_ne_null (hnull c' hc')
  have hsum : (((childValues (insertChildren (fun _ => none) entries)).map fun c =>
      c.nodeType.leafCountOf).map UInt64.toNat).sum =
        (children.map fun c => c.2.nodeType.leafCountOf.toNat).sum := by
    rw [List.map_map, (hperm.map _).sum_eq, hsnd, List.map_map]
    rfl
  obtain ⟨total, hfold, htotal⟩ := foldlM_addUsize _ 0 (by rw [hsum]; simpa using hfit)
  have himpl : InternalNode.newImpl (insertChildren (fun _ => none) entries) =
      .ok ⟨insertChildren (fun _ => none) entries, total⟩ := by
    simp only [InternalNode.newImpl, ensure_of_pos hvalues, hcheck, hcounts, hfold,
      Control.ok_bind]
    rfl
  refine ⟨⟨insertChildren (fun _ => none) entries, total⟩, ?_, himpl, rfl, ?_⟩
  · rw [InternalNode.new, himpl]
  · rw [htotal, hsum]
    simp

/-- `finish_subtree` past its two short cases: a new internal node over the children. -/
theorem finishSubtree_of_newInternal {nodeKey : NodeKey} {version : UInt64}
    {hashCache : Option (NibblePath → Option H256)} {batch : TreeUpdateBatch K} :
    ∀ {children : List (Nibble × Node K)}, children ≠ [] →
      (∀ c, children = [c] → c.2.isLeaf = false) →
      finishSubtree hashInternal placeholder hashLeaf nodeKey version hashCache children batch = (do
        let (entries, batch) ← putChildren hashInternal placeholder hashLeaf nodeKey version
          hashCache children batch
        let node ← InternalNode.new (insertChildren (fun _ => none) entries)
        pure (some (.internal node), batch))
  | [], hne, _ => absurd rfl hne
  | [(m, child)], _, honly => by
    simp only [finishSubtree, honly (m, child) rfl, Bool.false_eq_true, if_false]
  | (_, _) :: (_, _) :: _, _, _ => rfl

/-- Without a hash cache, `finish_subtree` over children with distinct nibbles, none `Null`, not
a lone leaf and fewer than `2 ^ 64` leaves in all, puts each child under its child key and
returns an internal node over their records. -/
theorem finishSubtree_internal {nodeKey : NodeKey} (hwf : nodeKey.nibblePath.WellFormed)
    (hlt : nodeKey.nibblePath.numNibbles < rootNibbleHeight) (version : UInt64)
    (batch : TreeUpdateBatch K) {children : List (Nibble × Node K)}
    (hnodup : (children.map Prod.fst).Nodup) (hne : children ≠ [])
    (hnull : ∀ c ∈ children, c.2.nodeType ≠ .null)
    (honly : ∀ c, children = [c] → c.2.isLeaf = false)
    (hfit : (children.map fun c => c.2.nodeType.leafCountOf.toNat).sum < 2 ^ 64) :
    ∃ node, finishSubtree hashInternal placeholder hashLeaf nodeKey version none children batch =
        .ok (some (.internal node),
          batch.putNodes (children.map fun c => (childKeyAt nodeKey version c.1, c.2))) ∧
      InternalNode.newImpl node.children = .ok node ∧
      node.children = insertChildren (fun _ => none)
        (children.map fun c => (c.1, c.2.toChild hashInternal placeholder hashLeaf version)) ∧
      node.leafCount.toNat = (children.map fun c => c.2.nodeType.leafCountOf.toNat).sum := by
  obtain ⟨node, hnew, himpl, hchildren, hcount⟩ :=
    new_insertChildren_toChild hashInternal placeholder hashLeaf version hnodup hne hnull honly hfit
  refine ⟨node, ?_, himpl, hchildren, hcount⟩
  rw [finishSubtree_of_newInternal hne honly,
    putChildren_eq (fun m => (childKeyAt_spec hwf hlt version m).1), Control.ok_bind]
  simp only [hnew, Control.ok_bind]
  rfl

end NewNodes


/-! ### The children of a new internal node -/

section Children

variable {K : Type} {hashInternal : H256 → H256 → H256} {placeholder : H256}
  {hashLeaf : SparseMerkleLeafNode → H256} {nodeKey : NodeKey} {version : UInt64}
  {values : Nibble → H256 → Option (H256 × (K × UInt64))} {ds : List (ChildResult K)}

theorem ChildResult.mem_children {m : Nibble} {n : Node K} :
    (m, n) ∈ ds.filterMap ChildResult.child ↔ ∃ d ∈ ds, d.nibble = m ∧ d.node = some n := by
  simp only [List.mem_filterMap, ChildResult.child, Option.map_eq_some_iff, Prod.mk.injEq]
  constructor
  · rintro ⟨d, hd, n', hn', rfl, rfl⟩
    exact ⟨d, hd, rfl, hn'⟩
  · rintro ⟨d, hd, rfl, hn⟩
    exact ⟨d, hd, n, hn, rfl, rfl⟩

/-- The children collected are some of the ranges' children, in order. -/
theorem ChildResult.children_sublist : ∀ ds : List (ChildResult K),
    ((ds.filterMap ChildResult.child).map Prod.fst).Sublist (ds.map (·.nibble))
  | [] => List.Sublist.slnil
  | d :: ds => by
    cases hd : d.node with
    | none =>
      rw [List.filterMap_cons_none (by simp [ChildResult.child, hd]), List.map_cons]
      exact (children_sublist ds).cons _
    | some n =>
      rw [List.filterMap_cons_some (show d.child = some (d.nibble, n) by simp [ChildResult.child, hd]),
        List.map_cons, List.map_cons]
      exact (children_sublist ds).cons_cons _

/-- A sum over the elements kept by a filter-map is at most a sum over all of them that bounds
each kept term. -/
theorem sum_map_filterMap_le {α β : Type} (f : α → Option β) (g : β → Nat) (c : α → Nat) :
    ∀ l : List α, (∀ a ∈ l, ∀ b, f a = some b → g b ≤ c a) →
      ((l.filterMap f).map g).sum ≤ (l.map c).sum
  | [], _ => le_rfl
  | a :: l, h => by
    have ih := sum_map_filterMap_le f g c l fun a' ha' => h a' (List.mem_cons_of_mem a ha')
    rw [List.map_cons, List.sum_cons]
    cases hfa : f a with
    | none =>
      rw [List.filterMap_cons_none hfa]
      omega
    | some b =>
      rw [List.filterMap_cons_some hfa, List.map_cons, List.sum_cons]
      have := h a List.mem_cons_self b hfa
      omega

section Built

variable (hbuilds : ∀ d ∈ ds, Builds hashInternal placeholder hashLeaf
    (childKeyAt nodeKey version d.nibble) version (values d.nibble) d.count d.node d.nodes)
  (habsent : ∀ m, m ∉ ds.map (·.nibble) → ∀ k, values m k = none)

include hbuilds habsent in
/-- Under a nibble without a child, no key has a value. -/
theorem values_eq_none_of_not_child {m : Nibble}
    (hm : ∀ n, (m, n) ∉ ds.filterMap ChildResult.child) (k : H256) : values m k = none := by
  by_cases hmem : m ∈ ds.map (·.nibble)
  · obtain ⟨d, hd, rfl⟩ := List.mem_map.mp hmem
    have hb := hbuilds d hd
    cases hnode : d.node with
    | none =>
      simp only [hnode, Builds] at hb
      exact hb.2 k
    | some n => exact absurd (ChildResult.mem_children.mpr ⟨d, hd, rfl, hnode⟩) (hm n)
  · exact habsent m hmem k

include hbuilds in
/-- Only an internal child puts nodes. -/
theorem ChildResult.nodes_eq_nil {d : ChildResult K} (hd : d ∈ ds)
    (h : ∀ node, d.node ≠ some (.internal node)) : d.nodes = [] := by
  have hb := hbuilds d hd
  rcases hnode : d.node with _ | (node | leafNode | _)
  · simp only [hnode, Builds] at hb
    exact hb.1
  · exact absurd hnode (h node)
  · simp only [hnode, Builds] at hb
    exact hb.1
  · simp only [hnode, Builds] at hb

include hbuilds in
theorem ChildResult.flatMap_nodes_eq_nil
    (h : ∀ c ∈ ds.filterMap ChildResult.child, c.2.isLeaf = true) : ds.flatMap (·.nodes) = [] := by
  rw [List.flatMap_eq_nil_iff]
  intro d hd
  apply ChildResult.nodes_eq_nil hbuilds hd
  intro node hnode
  have hleaf := h (d.nibble, .internal node) (ChildResult.mem_children.mpr ⟨d, hd, rfl, hnode⟩)
  cases hleaf

include hbuilds in
/-- A node put under a child is at the new version, under a longer path than the child key's. -/
theorem ChildResult.mem_nodes (hwf : nodeKey.nibblePath.WellFormed)
    (hlt : nodeKey.nibblePath.numNibbles < rootNibbleHeight) {d : ChildResult K} (hd : d ∈ ds)
    {p : NodeKey × Node K} (hp : p ∈ d.nodes) :
    p.1.version = version ∧ ∃ m rest,
      p.1.nibblePath.toNibbles = nodeKey.nibblePath.toNibbles ++ d.nibble :: m :: rest := by
  obtain ⟨hv, m, rest, hp'⟩ := (hbuilds d hd).newNodes.1 p hp
  refine ⟨hv, m, rest, ?_⟩
  rw [hp', (childKeyAt_spec hwf hlt version d.nibble).2.2.2.1, List.append_assoc]
  rfl

include hbuilds in
/-- The children's leaves are at most the pairs of their ranges. -/
theorem ChildResult.sum_leafCount_le (hpos : ∀ d ∈ ds, 1 ≤ d.count) :
    ((ds.filterMap ChildResult.child).map fun c => c.2.nodeType.leafCountOf.toNat).sum ≤
      (ds.map (·.count)).sum := by
  apply sum_map_filterMap_le
  intro d hd c hc
  obtain ⟨n, hn, rfl⟩ := Option.map_eq_some_iff.mp hc
  have hb := hbuilds d hd
  rw [hn] at hb
  cases n with
  | internal node =>
    simp only [Builds] at hb
    exact hb.1
  | leaf leafNode => exact hpos d hd
  | null => simp only [Builds] at hb

include hbuilds in
/-- No path is put twice: the nodes of distinct children are under distinct nibbles, and below
the children's own keys. -/
theorem ChildResult.nodup_nodes (hwf : nodeKey.nibblePath.WellFormed)
    (hlt : nodeKey.nibblePath.numNibbles < rootNibbleHeight) (hnodup : (ds.map (·.nibble)).Nodup) :
    ((ds.flatMap (·.nodes) ++ (ds.filterMap ChildResult.child).map fun c =>
      (childKeyAt nodeKey version c.1, c.2)).map fun p => p.1.nibblePath.toNibbles).Nodup := by
  have hkeys : ∀ c ∈ ds.filterMap ChildResult.child,
      (childKeyAt nodeKey version c.1).nibblePath.toNibbles = nodeKey.nibblePath.toNibbles ++ [c.1] :=
    fun c _ => (childKeyAt_spec hwf hlt version c.1).2.2.2.1
  rw [List.map_append, List.nodup_append]
  refine ⟨?_, ?_, ?_⟩
  · rw [List.map_flatMap, List.nodup_flatMap]
    refine ⟨fun d hd => (hbuilds d hd).newNodes.2, ?_⟩
    · -- two children's nodes differ at the children's nibbles
      refine (List.pairwise_map.mp hnodup).imp_of_mem fun {d d'} hd hd' hne x hx hx' => ?_
      obtain ⟨p, hp, rfl⟩ := List.mem_map.mp hx
      obtain ⟨q, hq, hpq⟩ := List.mem_map.mp hx'
      obtain ⟨-, m, rest, hp'⟩ := ChildResult.mem_nodes hbuilds hwf hlt hd hp
      obtain ⟨-, m', rest', hq'⟩ := ChildResult.mem_nodes hbuilds hwf hlt hd' hq
      rw [hp', hq'] at hpq
      exact hne (List.cons.inj (List.append_cancel_left hpq)).1.symm
  · have hmap : ((ds.filterMap ChildResult.child).map fun c =>
        (childKeyAt nodeKey version c.1, c.2)).map (fun p => p.1.nibblePath.toNibbles) =
          ((ds.filterMap ChildResult.child).map Prod.fst).map
            fun m => nodeKey.nibblePath.toNibbles ++ [m] := by
      rw [List.map_map, List.map_map]
      exact List.map_congr_left fun c hc => hkeys c hc
    have hinj : Function.Injective fun m : Nibble => nodeKey.nibblePath.toNibbles ++ [m] :=
      fun a b h => List.singleton_inj.mp (List.append_cancel_left h)
    rw [hmap]
    exact ((ChildResult.children_sublist ds).nodup hnodup).map hinj
  · -- the children's keys are one nibble longer than the node key, their nodes more
    intro a ha b hb hab
    obtain ⟨p, hp, rfl⟩ := List.mem_map.mp ha
    obtain ⟨d, hd, hpd⟩ := List.mem_flatMap.mp hp
    obtain ⟨-, m, rest, hp'⟩ := ChildResult.mem_nodes hbuilds hwf hlt hd hpd
    obtain ⟨q, hq, rfl⟩ := List.mem_map.mp hb
    obtain ⟨c, hc, rfl⟩ := List.mem_map.mp hq
    have hlen := congrArg List.length hab
    rw [hp', hkeys c hc] at hlen
    simp at hlen

include hbuilds habsent in
/-- An internal node over the records of the children, read with the nodes put for them and the
children themselves, is a subtree stored at the node key holding under each nibble the values
there. -/
theorem stored_of_children (hwf : nodeKey.nibblePath.WellFormed)
    (hlt : nodeKey.nibblePath.numNibbles < rootNibbleHeight) {node : InternalNode}
    (himpl : InternalNode.newImpl node.children = .ok node)
    (hchildren : node.children = insertChildren (fun _ => none)
      ((ds.filterMap ChildResult.child).map fun c =>
        (c.1, c.2.toChild hashInternal placeholder hashLeaf version)))
    {reader : NodeKey → Except Failure (Node K)}
    (hnodes : ∀ d ∈ ds, ∀ p ∈ d.nodes, reader p.1 = .ok p.2)
    (hchild : ∀ c ∈ ds.filterMap ChildResult.child, reader (childKeyAt nodeKey version c.1) = .ok c.2)
    (hread : reader nodeKey = .ok (.internal node)) :
    Stored hashInternal placeholder hashLeaf reader nodeKey
      ((Node.internal node : Node K).hashValue hashInternal placeholder hashLeaf)
      fun k => values ((keyNibbles k).getD nodeKey.nibblePath.numNibbles default) k := by
  -- a record of the node is the record of a child
  have hrecord : ∀ m c, node.children m = some c → ∃ n, (m, n) ∈ ds.filterMap ChildResult.child ∧
      c = n.toChild hashInternal placeholder hashLeaf version := by
    intro m c hc
    rw [hchildren, insertChildren_none] at hc
    obtain ⟨⟨m', n⟩, hn, heq⟩ := List.mem_map.mp (List.mem_reverse.mp (SortedMap.mem_of_lookup_eq_some hc))
    obtain ⟨rfl, rfl⟩ := Prod.mk.inj heq
    exact ⟨n, hn, rfl⟩
  refine Stored.internal (childKeyAt nodeKey version) values hread himpl hwf hlt
    (InternalNode.hash_eq_subtree node) (fun m c hc => ?_) (fun m c hc => ?_)
    (fun m c hc hleaf => ?_) (fun m hm k => ?_)
  · obtain ⟨n, -, rfl⟩ := hrecord m c hc
    exact (childKeyAt_spec hwf hlt version m).1
  · obtain ⟨n, hn, rfl⟩ := hrecord m c hc
    obtain ⟨d, hd, rfl, hnode⟩ := ChildResult.mem_children.mp hn
    have hb := hbuilds d hd
    rw [hnode] at hb
    cases n with
    | internal child =>
      simp only [Builds] at hb
      rw [Node.hash_toChild]
      exact hb.2.2.2 reader (hnodes d hd) (hchild (d.nibble, .internal child) hn)
    | leaf leafNode =>
      simp only [Builds] at hb
      rw [Node.hash_toChild, hb.2.1]
      exact Stored.leaf (hchild (d.nibble, .leaf leafNode) hn) hb.2.2
    | null => simp only [Builds] at hb
  · obtain ⟨n, hn, rfl⟩ := hrecord m c hc
    cases n with
    | leaf leafNode => exact ⟨leafNode, hchild (m, .leaf leafNode) hn⟩
    | internal _ => cases hleaf
    | null => cases hleaf
  · apply values_eq_none_of_not_child hbuilds habsent
    intro n hn
    rw [hchildren, insertChildren_none] at hm
    exact SortedMap.not_mem_of_lookup_eq_none hm (n.toChild hashInternal placeholder hashLeaf version)
      (List.mem_reverse.mpr (List.mem_map_of_mem (f := fun c => (c.1, c.2.toChild hashInternal
        placeholder hashLeaf version)) hn))

include hbuilds habsent in
/-- `finish_subtree` past its short cases: an internal node over the children, put under their
child keys, which is a subtree built under the node key. -/
theorem finishSubtree_builds_internal (hwf : nodeKey.nibblePath.WellFormed)
    (hlt : nodeKey.nibblePath.numNibbles < rootNibbleHeight) (hnodup : (ds.map (·.nibble)).Nodup)
    (hpos : ∀ d ∈ ds, 1 ≤ d.count) (hfit : (ds.map (·.count)).sum < 2 ^ 64)
    (batch : TreeUpdateBatch K) (hne : ds.filterMap ChildResult.child ≠ [])
    (honly : ∀ c, ds.filterMap ChildResult.child = [c] → c.2.isLeaf = false) :
    ∃ node, finishSubtree hashInternal placeholder hashLeaf nodeKey version none
        (ds.filterMap ChildResult.child) (batch.putNodes (ds.flatMap (·.nodes))) =
          .ok (some (.internal node), batch.putNodes (ds.flatMap (·.nodes) ++
            (ds.filterMap ChildResult.child).map fun c => (childKeyAt nodeKey version c.1, c.2))) ∧
      Builds hashInternal placeholder hashLeaf nodeKey version
        (fun k => values ((keyNibbles k).getD nodeKey.nibblePath.numNibbles default) k)
        (ds.map (·.count)).sum (some (.internal node)) (ds.flatMap (·.nodes) ++
          (ds.filterMap ChildResult.child).map fun c => (childKeyAt nodeKey version c.1, c.2)) := by
  have hnull : ∀ c ∈ ds.filterMap ChildResult.child, c.2.nodeType ≠ .null := by
    rintro ⟨m, n⟩ hc hnullc
    obtain ⟨d, hd, -, hnode⟩ := ChildResult.mem_children.mp hc
    have hb := hbuilds d hd
    rw [hnode] at hb
    cases n with
    | null => simp only [Builds] at hb
    | leaf _ => cases hnullc
    | internal _ => cases hnullc
  have hsum := ChildResult.sum_leafCount_le hbuilds hpos
  obtain ⟨node, hfin, himpl, hchildren, hcount⟩ := finishSubtree_internal hwf hlt version
    (batch.putNodes (ds.flatMap (·.nodes)))
    ((ChildResult.children_sublist ds).nodup hnodup) hne hnull honly (by omega)
  refine ⟨node, by rw [hfin, TreeUpdateBatch.putNodes_append], ?_⟩
  simp only [Builds]
  refine ⟨by omega, fun p hp => ?_, ChildResult.nodup_nodes hbuilds hwf hlt hnodup,
    fun reader hreader hread => ?_⟩
  · rcases List.mem_append.mp hp with hp | hp
    · -- a node put under a child
      obtain ⟨d, hd, hpd⟩ := List.mem_flatMap.mp hp
      obtain ⟨hv, m, rest, h⟩ := ChildResult.mem_nodes hbuilds hwf hlt hd hpd
      exact ⟨hv, d.nibble, m :: rest, h⟩
    · -- a child under its child key
      obtain ⟨c, -, rfl⟩ := List.mem_map.mp hp
      obtain ⟨-, hv, -, htn, -⟩ := childKeyAt_spec hwf hlt version c.1
      exact ⟨hv, c.1, [], htn⟩
  · exact stored_of_children hbuilds habsent hwf hlt himpl hchildren
      (fun d hd p hp => hreader p (List.mem_append_left _ (List.mem_flatMap.mpr ⟨d, hd, hp⟩)))
      (fun c hc => hreader (childKeyAt nodeKey version c.1, c.2)
        (List.mem_append_right _ (List.mem_map_of_mem hc))) hread

include hbuilds habsent in
/-- `finish_subtree` over the children of the ranges: what it returns, with the nodes put for the
children and by it, is a subtree built under the node key with the values under each nibble. -/
theorem finishSubtree_builds (hwf : nodeKey.nibblePath.WellFormed)
    (hlt : nodeKey.nibblePath.numNibbles < rootNibbleHeight) (hnodup : (ds.map (·.nibble)).Nodup)
    (hpos : ∀ d ∈ ds, 1 ≤ d.count) (hfit : (ds.map (·.count)).sum < 2 ^ 64)
    (batch : TreeUpdateBatch K) :
    ∃ result nodes, finishSubtree hashInternal placeholder hashLeaf nodeKey version none
        (ds.filterMap ChildResult.child) (batch.putNodes (ds.flatMap (·.nodes))) =
          .ok (result, batch.putNodes nodes) ∧
      Builds hashInternal placeholder hashLeaf nodeKey version
        (fun k => values ((keyNibbles k).getD nodeKey.nibblePath.numNibbles default) k)
        (ds.map (·.count)).sum result nodes := by
  have hinternal := finishSubtree_builds_internal hbuilds habsent hwf hlt hnodup hpos hfit batch
  -- the ends of `finish_subtree`: no child, a lone leaf child, or an internal node
  rcases hch : ds.filterMap ChildResult.child with _ | ⟨⟨m, n⟩, _ | ⟨c, rest⟩⟩
  · -- no child: nothing is put and no key has a value
    have hnil := ChildResult.flatMap_nodes_eq_nil hbuilds (by rw [hch]; exact fun c hc => absurd hc List.not_mem_nil)
    refine ⟨none, [], by rw [hnil]; rfl, ?_⟩
    simp only [Builds, true_and]
    exact fun k => values_eq_none_of_not_child hbuilds habsent (fun n hn => by rw [hch] at hn; cases hn) k
  · by_cases hleaf : n.isLeaf = true
    · -- a lone leaf child moves up, with the values of the one key under it
      have hmem : (m, n) ∈ ds.filterMap ChildResult.child := by
        rw [hch]
        exact List.mem_singleton_self _
      obtain ⟨d, hd, rfl, hnode⟩ := ChildResult.mem_children.mp hmem
      cases n with
      | leaf leafNode =>
        have hb := hbuilds d hd
        rw [hnode] at hb
        simp only [Builds] at hb
        obtain ⟨-, hvalues, hpath⟩ := hb
        have hnil := ChildResult.flatMap_nodes_eq_nil hbuilds (by
          rw [hch]
          intro c hc
          rw [List.mem_singleton.mp hc]
          rfl)
        have htn := (childKeyAt_spec hwf hlt version d.nibble).2.2.2.1
        rw [htn] at hpath
        -- the leaf's key has the child's nibble at the node's depth
        obtain ⟨-, hself⟩ := take_getD_of_concat_prefix hpath
        rw [hwf.length_toNibbles] at hself
        refine ⟨some (.leaf leafNode), [], by rw [hnil]; rfl, ?_⟩
        simp only [Builds, true_and]
        refine ⟨funext fun k => ?_, (List.prefix_append _ _).trans hpath⟩
        by_cases hk : (keyNibbles k).getD nodeKey.nibblePath.numNibbles default = d.nibble
        · rw [hk, hvalues]
        · have hne : k ≠ leafNode.accountKey := fun h => hk (h ▸ hself)
          rw [LeafNode.values, if_neg hne]
          apply values_eq_none_of_not_child hbuilds habsent
          intro n' hn'
          rw [hch, List.mem_singleton] at hn'
          exact hk (Prod.mk.inj hn').1
      | internal _ => cases hleaf
      | null => cases hleaf
    · obtain ⟨node, hfin, hb⟩ := hinternal (by rw [hch]; exact List.cons_ne_nil _ _)
        (by rw [hch]; intro c hc; rw [← (List.singleton_inj.mp hc)]; exact Bool.eq_false_iff.mpr hleaf)
      rw [hch] at hfin hb
      exact ⟨_, _, hfin, hb⟩
  · obtain ⟨node, hfin, hb⟩ := hinternal (by rw [hch]; exact List.cons_ne_nil _ _)
      (by rw [hch]; intro c' hc'; cases hc')
    rw [hch] at hfin hb
    exact ⟨_, _, hfin, hb⟩

end Built

end Children

/-! ### The loop over the ranges -/

section Loop

variable {K : Type} (hashInternal : H256 → H256 → H256) (placeholder : H256)
  (hashLeaf : SparseMerkleLeafNode → H256)

/-- One round of the loop of `batch_update_subtree` over the ranges, with `sub` for the recursive
call on the child's node key, its slice and the batch. -/
def subtreeRound (sub : NodeKey → List (H256 × Option (H256 × K)) → TreeUpdateBatch K →
      Except Failure (Option (Node K) × TreeUpdateBatch K))
    (nodeKey : NodeKey) (version : UInt64) (kvs : List (H256 × Option (H256 × K))) (depth : Nat)
    (acc : List (Nibble × Node K) × TreeUpdateBatch K) (range : Nat × Nat) :
    Except Failure (List (Nibble × Node K) × TreeUpdateBatch K) := do
  let (key, _) ← sliceAt kvs range.1
  let childIndex ← NibbleExt.getNibble key depth
  let childNodeKey ← nodeKey.genChildNodeKey version childIndex
  let slice ← sliceInclusive kvs range.1 range.2
  let (newChildNode, batch) ← sub childNodeKey slice acc.2
  pure (pushChild acc.1 childIndex newChildNode, batch)

/-- The nibble of the child of a range: the nibble at `depth` of its first key. -/
def rangeNibble {V : Type} (kvs : List (H256 × V)) (depth : Nat) (range : Nat × Nat) : Nibble :=
  (keyNibblesAt kvs depth).getD range.1 default

/-- The values of a batch under the child at nibble `m` of a node at depth `depth`: the batch's
values for the keys with that nibble, and nothing for the others. -/
def batchValuesAt (kvs : List (H256 × Option (H256 × K))) (version : UInt64) (depth : Nat)
    (m : Nibble) (k : H256) : Option (H256 × (K × UInt64)) :=
  if (keyNibbles k).getD depth default = m then batchValues kvs version k else none

/-- The loop of `batch_update_subtree` after the ranges `done`: one result for each of them, its
child under the range's nibble built from the range's slice, with the children that have a node
collected in order and the batch holding the nodes put for them. -/
def RoundsDone (nodeKey : NodeKey) (version : UInt64) (kvs : List (H256 × Option (H256 × K)))
    (depth : Nat) (batch : TreeUpdateBatch K) (done : List (Nat × Nat))
    (acc : List (Nibble × Node K) × TreeUpdateBatch K) : Prop :=
  ∃ ds : List (ChildResult K), ds.map (·.nibble) = done.map (rangeNibble kvs depth) ∧
    ds.map (·.count) = done.map (fun r => (rangeSlice kvs r).length) ∧
    (∀ d ∈ ds, Builds hashInternal placeholder hashLeaf (childKeyAt nodeKey version d.nibble)
      version (batchValuesAt kvs version depth d.nibble) d.count d.node d.nodes) ∧
    acc = (ds.filterMap ChildResult.child, batch.putNodes (ds.flatMap (·.nodes)))

variable {hashInternal placeholder hashLeaf}

theorem pushChild_eq (children : List (Nibble × Node K)) (d : ChildResult K) :
    pushChild children d.nibble d.node = children ++ [d].filterMap ChildResult.child := by
  cases hnode : d.node <;> simp [pushChild, ChildResult.child, hnode]

theorem length_rangeSlice {V : Type} {kvs : List V} {range : Nat × Nat} (h : range.1 ≤ range.2)
    (h' : range.2 < kvs.length) : (rangeSlice kvs range).length = range.2 + 1 - range.1 := by
  simp only [rangeSlice, List.length_drop, List.length_take]
  omega

/-- A key whose nibbles extend a path, with `m` next, extends the path with `m`. -/
theorem concat_prefix_of_getD {l k : List Nibble} {m : Nibble} (h : l <+: k)
    (hlt : l.length < k.length) (hm : k.getD l.length default = m) : l ++ [m] <+: k := by
  rw [List.prefix_iff_eq_take.mp h, ← hm, ← take_add_one_getD hlt]
  exact List.take_prefix _ _

theorem batchUpdateSubtree_of_single (nodeKey : NodeKey) (version : UInt64)
    (kv : H256 × Option (H256 × K)) (depth : Nat) (hashCache : Option (NibblePath → Option H256))
    (batch : TreeUpdateBatch K) :
    batchUpdateSubtree hashInternal placeholder hashLeaf nodeKey version [kv] depth hashCache batch =
      .ok (kv.2.map fun v => .leaf ⟨kv.1, v.1, (v.2, version)⟩, batch) := by
  rw [batchUpdateSubtree, if_pos (show [kv].length = 1 from rfl)]
  obtain ⟨key, _ | ⟨valueHash, stateKey⟩⟩ := kv <;> rfl

theorem batchUpdateSubtree_of_iterator {nodeKey : NodeKey} {version : UInt64}
    {kvs : List (H256 × Option (H256 × K))} {depth : Nat}
    {hashCache : Option (NibblePath → Option H256)} {batch : TreeUpdateBatch K}
    {it : NibbleRangeIterator (Option (H256 × K))} (hlen : kvs.length ≠ 1)
    (hit : NibbleRangeIterator.new kvs depth = .ok it) :
    batchUpdateSubtree hashInternal placeholder hashLeaf nodeKey version kvs depth hashCache batch =
      (do
        let ranges ← it.ranges.mapError Failure.panic
        let (children, batch) ← ranges.foldlM (subtreeRound (fun childNodeKey slice batch =>
            batchUpdateSubtree hashInternal placeholder hashLeaf childNodeKey version slice
              (depth + 1) hashCache batch) nodeKey version kvs depth) ([], batch)
        finishSubtree hashInternal placeholder hashLeaf nodeKey version hashCache children batch) := by
  rw [batchUpdateSubtree, if_neg hlen]
  split
  · next msg heq =>
    rw [hit] at heq
    cases heq
  · next it' heq =>
    rw [hit] at heq
    cases heq
    rfl

/-- A round over a range in the batch, with its child key and the recursive call's result. -/
theorem subtreeRound_eq {sub : NodeKey → List (H256 × Option (H256 × K)) → TreeUpdateBatch K →
      Except Failure (Option (Node K) × TreeUpdateBatch K)}
    {nodeKey : NodeKey} {version : UInt64} {kvs : List (H256 × Option (H256 × K))} {depth : Nat}
    {acc : List (Nibble × Node K) × TreeUpdateBatch K} {r : Nat × Nat} (hd : depth < 64)
    (hr : r.1 ≤ r.2) (hr' : r.2 < kvs.length) {childKey : NodeKey}
    (hkey : nodeKey.genChildNodeKey version (rangeNibble kvs depth r) = .ok childKey)
    {result : Option (Node K)} {batch : TreeUpdateBatch K}
    (hsub : sub childKey (rangeSlice kvs r) acc.2 = .ok (result, batch)) :
    subtreeRound sub nodeKey version kvs depth acc r =
      .ok (pushChild acc.1 (rangeNibble kvs depth r) result, batch) := by
  have hi : r.1 < kvs.length := by omega
  have hnib : NibbleExt.getNibble kvs[r.1].1 depth = .ok (rangeNibble kvs depth r) := by
    rw [getNibble_eq_getD_keyNibbles _ hd, rangeNibble, getD_keyNibblesAt hi]
  rw [subtreeRound, sliceAt_of_lt hi, Control.ok_bind]
  generalize kvs[r.1] = kv at hnib
  obtain ⟨key, value⟩ := kv
  simp only [hnib, hkey, sliceInclusive_of_le hr hr', hsub, Control.ok_bind]
  rfl

end Loop

/-! ### A subtree built afresh -/

section Fresh

variable {K : Type} {hashInternal : H256 → H256 → H256} {placeholder : H256}
  {hashLeaf : SparseMerkleLeafNode → H256}

section Ranges

variable {kvs : List (H256 × Option (H256 × K))} {rs : List (Nat × Nat)} {depth : Nat}
  (hflat : rs.flatMap (rangeSlice kvs) = kvs)
  (hconst : ∀ r ∈ rs, ∀ kv ∈ rangeSlice kvs r,
    (keyNibbles kv.1).getD depth default = rangeNibble kvs depth r)

include hflat hconst in
/-- The values of a range's slice are the batch's values under the range's nibble. -/
theorem batchValues_rangeSlice (hnodup : (rs.map (rangeNibble kvs depth)).Nodup) {r : Nat × Nat}
    (hr : r ∈ rs) (version : UInt64) :
    batchValues (rangeSlice kvs r) version = batchValuesAt kvs version depth (rangeNibble kvs depth r) := by
  funext k
  have h := SortedMap.lookup_part (fun k => (keyNibbles k).getD depth default)
    (rangeNibble kvs depth) (rangeSlice kvs) hconst hnodup hr k
  rw [hflat] at h
  rw [batchValuesAt]
  split_ifs with hk
  · exact batchValues_of_lookup_eq (h.trans (if_pos hk)) version
  · exact batchValues_of_lookup_eq_none (h.trans (if_neg hk)) version

include hflat hconst in
/-- Under a nibble no range has, the batch has no value. -/
theorem batchValuesAt_eq_none {m : Nibble} (hm : m ∉ rs.map (rangeNibble kvs depth))
    (version : UInt64) (k : H256) : batchValuesAt kvs version depth m k = none := by
  rw [batchValuesAt]
  split_ifs with hk
  · apply batchValues_of_lookup_eq_none
    rw [← hflat]
    exact SortedMap.lookup_flatMap_eq_none (fun k => (keyNibbles k).getD depth default)
      (rangeNibble kvs depth) (rangeSlice kvs) hconst
      fun r hr heq => hm (List.mem_map.mpr ⟨r, hr, heq.trans hk⟩)
  · rfl

end Ranges

/-- A batch of one pair builds its leaf, or nothing when the pair deletes. -/
theorem builds_single {nodeKey : NodeKey} {version : UInt64} {kv : H256 × Option (H256 × K)}
    (hpath : nodeKey.nibblePath.toNibbles <+: keyNibbles kv.1) :
    Builds hashInternal placeholder hashLeaf nodeKey version (batchValues [kv] version) 1
      (kv.2.map fun v => .leaf ⟨kv.1, v.1, (v.2, version)⟩) [] := by
  obtain ⟨key, _ | ⟨valueHash, stateKey⟩⟩ := kv
  · simp only [Option.map_none, Builds, true_and]
    intro k
    rw [batchValues, SortedMap.lookup_cons]
    split_ifs <;> rfl
  · simp only [Option.map_some, Builds, true_and]
    refine ⟨funext fun k => ?_, hpath⟩
    rw [batchValues, SortedMap.lookup_cons, LeafNode.values]
    split_ifs <;> rfl

/-- A sorted batch of other than one pair whose keys extend a path of `depth` nibbles, nonempty
when `depth` is not below the root height, leaves room for a nibble: two distinct keys differ
within their 64 nibbles. -/
theorem depth_lt_of_sorted {V : Type} {P : List Nibble} {kvs : List (H256 × V)} {depth : Nat}
    (hlen : P.length = depth) (hsorted : SortedMap.Sorted kvs)
    (hpath : ∀ kv ∈ kvs, P <+: keyNibbles kv.1) (hone : kvs.length ≠ 1)
    (hne : kvs ≠ [] ∨ depth < rootNibbleHeight) : depth < rootNibbleHeight := by
  by_contra hge
  rcases kvs with _ | ⟨a, _ | ⟨b, rest⟩⟩
  · exact hge (hne.resolve_left fun h => h rfl)
  · exact hone rfl
  · -- both first keys would be the whole path
    have hfull : ∀ kv ∈ a :: b :: rest, P = keyNibbles kv.1 := fun kv hkv =>
      (hpath kv hkv).eq_of_length (by
        have := (hpath kv hkv).length_le
        rw [length_keyNibbles] at this ⊢
        unfold rootNibbleHeight at hge
        omega)
    have hab : a.1 = b.1 := eq_of_keyNibbles_eq
      ((hfull a List.mem_cons_self).symm.trans (hfull b (List.mem_cons_of_mem _ List.mem_cons_self)))
    have hlt : a.1 < b.1 := (List.pairwise_cons.mp hsorted).1 b List.mem_cons_self
    rw [hab] at hlt
    exact List.lt_irrefl _ hlt

variable (hashInternal placeholder hashLeaf) in
/-- `batch_update_subtree` from a node key over a sorted batch whose keys extend the node key's
path, nonempty below the root height and of fewer than `2 ^ 64` pairs: without a hash cache it
returns without a panic, and what it returns, with the nodes it puts, is a subtree built under
the node key with the batch's values. The induction is the recursion's own, on the depth left. -/
theorem batchUpdateSubtree_builds (version : UInt64) (nodeKey : NodeKey)
    (kvs : List (H256 × Option (H256 × K))) (depth : Nat) (batch : TreeUpdateBatch K)
    (hwf : nodeKey.nibblePath.WellFormed) (hdepth : nodeKey.nibblePath.numNibbles = depth)
    (hsorted : SortedMap.Sorted kvs)
    (hpath : ∀ kv ∈ kvs, nodeKey.nibblePath.toNibbles <+: keyNibbles kv.1)
    (hne : kvs ≠ [] ∨ depth < rootNibbleHeight) (hfit : kvs.length < 2 ^ 64) :
    ∃ result nodes, batchUpdateSubtree hashInternal placeholder hashLeaf nodeKey version kvs depth
        none batch = .ok (result, batch.putNodes nodes) ∧
      Builds hashInternal placeholder hashLeaf nodeKey version (batchValues kvs version)
        kvs.length result nodes := by
  have hlen : nodeKey.nibblePath.toNibbles.length = depth := hwf.length_toNibbles.trans hdepth
  by_cases hone : kvs.length = 1
  · -- one pair: its leaf, or nothing when it deletes
    obtain ⟨kv, rfl⟩ := List.length_eq_one_iff.mp hone
    exact ⟨_, [], batchUpdateSubtree_of_single nodeKey version kv depth none batch,
      builds_single (hpath kv (List.mem_singleton_self kv))⟩
  have hlt := depth_lt_of_sorted hlen hsorted hpath hone hne
  have hlt' : nodeKey.nibblePath.numNibbles < rootNibbleHeight := hdepth ▸ hlt
  -- the ranges of the next nibble cut the batch into the slices of the children
  obtain ⟨rs, hranges, hflat, hrs, hnodup⟩ := ranges_blocks hlt hsorted fun a ha b hb => by
    have ha' := (List.prefix_iff_eq_take.mp (hpath a ha)).symm
    have hb' := (List.prefix_iff_eq_take.mp (hpath b hb)).symm
    rw [hlen] at ha' hb'
    rw [ha', hb']
  have hconst : ∀ r ∈ rs, ∀ kv ∈ rangeSlice kvs r,
      (keyNibbles kv.1).getD depth default = rangeNibble kvs depth r := fun r hr => (hrs r hr).2.2
  -- each round builds the child of its range, by the recursion one nibble down
  have hstep : ∀ done r rest acc, done ++ r :: rest = rs →
      RoundsDone hashInternal placeholder hashLeaf nodeKey version kvs depth batch done acc →
      ∃ acc', subtreeRound (fun childNodeKey slice batch =>
          batchUpdateSubtree hashInternal placeholder hashLeaf childNodeKey version slice
            (depth + 1) none batch) nodeKey version kvs depth acc r = .ok acc' ∧
        RoundsDone hashInternal placeholder hashLeaf nodeKey version kvs depth batch
          (done ++ [r]) acc' := by
    rintro done r rest acc hsplit ⟨ds, hnib, hcount, hbuilds, rfl⟩
    have hr : r ∈ rs := hsplit ▸ List.mem_append_right _ List.mem_cons_self
    obtain ⟨hr1, hr2, -⟩ := hrs r hr
    obtain ⟨hkey, -, hcwf, hctn, hcnum⟩ := childKeyAt_spec hwf hlt' version (rangeNibble kvs depth r)
    have hsl : (rangeSlice kvs r).Sublist kvs := (List.drop_sublist _ _).trans (List.take_sublist _ _)
    have hslen := length_rangeSlice hr1 hr2
    obtain ⟨result, nodes, hcall, hb⟩ := batchUpdateSubtree_builds version
      (childKeyAt nodeKey version (rangeNibble kvs depth r)) (rangeSlice kvs r) (depth + 1)
      (batch.putNodes (ds.flatMap (·.nodes))) hcwf (by rw [hcnum, hdepth])
      (List.Pairwise.sublist hsl hsorted)
      (fun kv hkv => by
        rw [hctn]
        exact concat_prefix_of_getD (hpath kv (hsl.subset hkv))
          (by rw [hlen, length_keyNibbles]; exact hlt) (by rw [hlen]; exact hconst r hr kv hkv))
      (.inl (List.ne_nil_of_length_pos (by omega))) (lt_of_le_of_lt hsl.length_le hfit)
    rw [batchValues_rangeSlice hflat hconst hnodup hr] at hb
    refine ⟨_, subtreeRound_eq hlt hr1 hr2 hkey hcall,
      ds ++ [⟨rangeNibble kvs depth r, result, nodes, (rangeSlice kvs r).length⟩],
      by simp [hnib], by simp [hcount], fun d hd => ?_, ?_⟩
    · rcases List.mem_append.mp hd with hd | hd
      · exact hbuilds d hd
      · rw [List.mem_singleton.mp hd]
        exact hb
    · rw [pushChild_eq _ ⟨rangeNibble kvs depth r, result, nodes, (rangeSlice kvs r).length⟩,
        List.filterMap_append, List.flatMap_append, TreeUpdateBatch.putNodes_append]
      simp
  obtain ⟨acc, hfold, ds, hnib, hcount, hbuilds, rfl⟩ :=
    Control.foldlM_eq_ok_of_step _ hstep (b := ([], batch))
      ⟨[], rfl, rfl, fun d hd => absurd hd List.not_mem_nil, rfl⟩
  rw [batchUpdateSubtree_of_iterator hone (if_pos hlt), hranges]
  simp only [Except.mapError, Control.ok_bind]
  rw [hfold, Control.ok_bind]
  -- the children's nibbles are the ranges', and their counts the slices' lengths
  have hsum : (ds.map (·.count)).sum = kvs.length := by
    rw [hcount, ← List.length_flatMap, hflat]
  have hpos : ∀ d ∈ ds, 1 ≤ d.count := by
    intro d hd
    have hmem : d.count ∈ rs.map fun r => (rangeSlice kvs r).length :=
      hcount ▸ List.mem_map_of_mem hd
    obtain ⟨r, hr, hcr⟩ := List.mem_map.mp hmem
    obtain ⟨hr1, hr2, -⟩ := hrs r hr
    rw [← hcr, length_rangeSlice hr1 hr2]
    omega
  obtain ⟨result, nodes, hfin, hb⟩ := finishSubtree_builds hbuilds
    (fun m hm => batchValuesAt_eq_none hflat hconst (hnib ▸ hm) version) hwf hlt'
    (hnib ▸ hnodup) hpos (hsum ▸ hfit) batch
  have hvals : (fun k => batchValuesAt kvs version depth
      ((keyNibbles k).getD nodeKey.nibblePath.numNibbles default) k) = batchValues kvs version :=
    funext fun k => by
      rw [hdepth]
      exact if_pos rfl
  rw [hvals, hsum] at hb
  exact ⟨result, nodes, hfin, hb⟩
termination_by rootNibbleHeight - depth

/-- A value set written into an empty tree: `batch_put_value_set` with no persisted version and
no hash cache, over fewer than `2 ^ 64` pairs, returns without a panic a root hash and a batch
whose nodes are at the new version, no node key twice. Read with those nodes, the tree of the
new version has that root hash and holds for each key the value of its last pair in the set, and
nothing for a key that the set deletes or does not have. -/
theorem batchPutValueSet_fresh (reader : NodeKey → Except Failure (Node K))
    (valueSet : List (H256 × Option (H256 × K))) (version : UInt64)
    (hfit : valueSet.length < 2 ^ 64) :
    ∃ rootHash batch, batchPutValueSet hashInternal placeholder hashLeaf reader valueSet none none
        version = .ok (rootHash, batch) ∧
      (∀ p ∈ batch.nodes, p.1.version = version) ∧ (batch.nodes.map Prod.fst).Nodup ∧
      ∀ treeReader : NodeKey → Except Failure (Node K),
        (∀ p ∈ batch.nodes, treeReader p.1 = .ok p.2) →
        TreeAt hashInternal placeholder hashLeaf treeReader version rootHash
          (batchValues valueSet.reverse version) := by
  have hroot : (⟨0, []⟩ : NibblePath).WellFormed := by decide
  obtain ⟨result, nodes, hcall, hb⟩ := batchUpdateSubtree_builds hashInternal placeholder hashLeaf
    version ⟨version, ⟨0, []⟩⟩
    (SortedMap.ofList valueSet) 0 TreeUpdateBatch.new hroot rfl (SortedMap.sorted_ofList valueSet)
    (fun _ _ => List.nil_prefix) (.inr (by decide))
    (lt_of_le_of_lt (SortedMap.length_ofList_le valueSet) hfit)
  -- `collect` keeps the last pair of each key
  have hvals : batchValues (SortedMap.ofList valueSet) version = batchValues valueSet.reverse version :=
    funext fun k => batchValues_of_lookup_eq (SortedMap.lookup_ofList valueSet k) version
  rw [hvals] at hb
  obtain ⟨hnew, hnodup⟩ := hb.newNodes
  -- the root is put last under the empty path, a `Null` node when nothing is left
  have hrun : batchPutValueSet hashInternal placeholder hashLeaf reader valueSet none none version =
      .ok ((result.getD .null).hashValue hashInternal placeholder hashLeaf,
        (TreeUpdateBatch.new.putNodes nodes).putNode ⟨version, ⟨0, []⟩⟩ (result.getD .null)) := by
    have hempty : NibblePath.newEven [] = .ok ⟨0, []⟩ := rfl
    rcases result with _ | node
    · simp only [batchPutValueSet, hempty, hcall, Control.ok_bind]
      rfl
    · simp only [batchPutValueSet, hempty, hcall, Control.ok_bind, Node.hash_eq_hashValue]
      rfl
  refine ⟨_, _, hrun, fun p hp => ?_, ?_, fun treeReader hreader => ?_⟩
  · rw [TreeUpdateBatch.nodes_putNode_new] at hp
    rcases List.mem_append.mp hp with hp | hp
    · exact (hnew p hp).1
    · rw [List.mem_singleton.mp hp]
  · -- the nodes are under nonempty paths, the root under the empty one
    rw [TreeUpdateBatch.nodes_putNode_new, List.map_append, List.nodup_append]
    refine ⟨List.Nodup.of_map (fun key : NodeKey => key.nibblePath.toNibbles)
      (by rwa [List.map_map]), List.nodup_singleton _, fun a ha b hb hab => ?_⟩
    obtain ⟨p, hp, rfl⟩ := List.mem_map.mp ha
    obtain ⟨-, m, rest, htn⟩ := hnew p hp
    rw [List.mem_singleton.mp hb] at hab
    rw [hab] at htn
    cases htn
  · have hroot : (⟨⟨version, ⟨0, []⟩⟩, result.getD .null⟩ : NodeKey × Node K) ∈
        ((TreeUpdateBatch.new.putNodes nodes).putNode ⟨version, ⟨0, []⟩⟩ (result.getD .null)).nodes := by
      rw [TreeUpdateBatch.nodes_putNode_new]
      exact List.mem_append_right _ (List.mem_singleton_self _)
    have hread : treeReader ⟨version, ⟨0, []⟩⟩ = .ok (result.getD .null) := hreader _ hroot
    have hnodes : ∀ p ∈ nodes, treeReader p.1 = .ok p.2 := fun p hp =>
      hreader p (by rw [TreeUpdateBatch.nodes_putNode_new]; exact List.mem_append_left _ hp)
    rcases result with _ | (node | leafNode | _)
    · simp only [Builds] at hb
      exact .inl ⟨hread, rfl, hb.2⟩
    · simp only [Builds] at hb
      exact .inr (hb.2.2.2 treeReader hnodes hread)
    · simp only [Builds] at hb
      rw [hb.2.1]
      exact .inr (Stored.leaf hread List.nil_prefix)
    · simp only [Builds] at hb

/-- Two keys, `0x12…` and `0x13…`, with the value hashes `0x01…` and `0x02…`. -/
def sampleValueSet : List (H256 × Option (H256 × Unit)) :=
  [(⟨0x12 :: List.replicate 31 0, rfl⟩, some (⟨List.replicate 32 1, rfl⟩, ())),
    (⟨0x13 :: List.replicate 31 0, rfl⟩, some (⟨List.replicate 32 2, rfl⟩, ()))]

theorem batchPutValueSet_fresh_sample :
    sampleValueSet.length < 2 ^ 64 ∧
      ∃ rootHash batch, batchPutValueSet (fun a _ => a) ⟨List.replicate 32 0, by simp⟩
          SparseMerkleLeafNode.key sampleReader sampleValueSet none none 1 = .ok (rootHash, batch) ∧
        (∀ p ∈ batch.nodes, p.1.version = 1) ∧ (batch.nodes.map Prod.fst).Nodup ∧
        ∀ treeReader : NodeKey → Except Failure (Node Unit),
          (∀ p ∈ batch.nodes, treeReader p.1 = .ok p.2) →
          TreeAt (fun a _ => a) ⟨List.replicate 32 0, by simp⟩ SparseMerkleLeafNode.key treeReader 1
            rootHash (batchValues sampleValueSet.reverse 1) :=
  ⟨by decide, batchPutValueSet_fresh sampleReader sampleValueSet 1 (by decide)⟩

end Fresh

end Hemvm.Jellyfish
