import Mathlib
import Hemvm.Merkle.Sparse
import Hemvm.Jellyfish.Node

/-! The hash of an internal node of `jellyfish-merkle` and the proofs for its children
(`storage/jellyfish-merkle/src/node_type/mod.rs`: `InternalNode::merkle_hash`,
`gen_node_in_proof` and `get_child_with_siblings`). The sixteen children are the positions of a
sparse Merkle tree of height four, whose leaf children are hoisted when they are alone in a
range; the code walks that tree through the bits of the existence and leaf bitmaps. The hash of
a node is the root of the tree, and the siblings of the proof for a nibble fold back to it over
the child where the proof stops, which is the nibble's own child when it has one. -/
namespace Hemvm.Jellyfish
open SparseMerkle

/-! ### The model -/

section Model

variable {K : Type} (hashInternal : H256 → H256 → H256) (placeholder : H256)

/-- `(((1u32 << width) - 1) << start) as u16`. -/
def rangeMask (start width : UInt8) : UInt16 :=
  ((((1 : UInt32) <<< width.toUInt32) - 1) <<< start.toUInt32).toUInt16

/-- `InternalNode::range_bitmaps`: the bits of both bitmaps in `[start, start + width)`. -/
def rangeBitmaps (start width : UInt8) (bitmaps : UInt16 × UInt16) :
    Except Failure (UInt16 × UInt16) := do
  assertion (start < 16 ∧ Bits.countOnes 8 width.toNat = 1 ∧ start % width = 0)
    "assertion failed: start < 16 && width.count_ones() == 1 && start % width == 0"
  assertion (width ≤ 16 ∧ start + width ≤ 16)
    "assertion failed: width <= 16 && (start + width) <= 16"
  let mask := rangeMask start width
  pure (bitmaps.1 &&& mask, bitmaps.2 &&& mask)

/-- How `merkle_hash`, `gen_node_in_proof` and `get_child_with_siblings` treat a range: it has
no child; or it is one position, or its only child is a leaf, and the child at its lowest
existence bit is taken as it is; or its two halves are hashed. -/
inductive RangeShape where
  | empty
  | only (index : UInt8)
  | split
deriving DecidableEq

/-- The tests the three functions make on a range's bitmaps. -/
def rangeShape (width : UInt8) (rangeExistenceBitmap rangeLeafBitmap : UInt16) : RangeShape :=
  if rangeExistenceBitmap = 0 then .empty
  else if width = 1 ∨ (Bits.countOnes 16 rangeExistenceBitmap.toNat = 1 ∧ rangeLeafBitmap ≠ 0) then
    .only (Bits.ctz 16 rangeExistenceBitmap.toNat).toUInt8
  else .split

/-- `self.child(index).with_context(..).unwrap()`, where a bitmap says the child exists. -/
def childNamed (children : Nibble → Option Child) (bitmap : String) (index : Nibble) :
    Except Failure Child :=
  match children index with
  | some child => .ok child
  | none => .error (.panic ("called `Result::unwrap()` on an `Err` value: " ++
      "Corrupted internal node: " ++ bitmap ++
      " indicates the existence of a non-exist child at index " ++
      (Nat.digitChar index.val.toNat).toString))

theorem div_two_lt_of_rangeBitmaps {start width : UInt8} {bitmaps r : UInt16 × UInt16}
    (h : rangeBitmaps start width bitmaps = .ok r) : (width / 2).toNat < width.toNat := by
  obtain ⟨⟨⟩, hcheck, -⟩ := Control.bind_eq_ok_iff.mp h
  unfold assertion at hcheck
  split at hcheck
  · next hc =>
    have hpos : 0 < width.toNat := by
      rcases Nat.eq_zero_or_pos width.toNat with h0 | h0
      · rw [h0] at hc
        simp [Bits.countOnes] at hc
      · exact h0
    rw [UInt8.toNat_div]
    exact Nat.div_lt_self hpos (by decide)
  · cases hcheck

/-- `InternalNode::merkle_hash`. -/
def merkleHash (children : Nibble → Option Child) (start width : UInt8)
    (bitmaps : UInt16 × UInt16) : Except Failure H256 :=
  match hrange : rangeBitmaps start width bitmaps with
  | .error e => .error e
  | .ok (rangeExistenceBitmap, rangeLeafBitmap) =>
    match rangeShape width rangeExistenceBitmap rangeLeafBitmap with
    | .empty => .ok placeholder
    | .only index => do
      let onlyChildIndex ← Nibble.from index
      let child ← childNamed children "existence_bitmap" onlyChildIndex
      pure child.hash
    | .split => do
      let leftChild ← merkleHash children start (width / 2)
        (rangeExistenceBitmap, rangeLeafBitmap)
      let rightChild ← merkleHash children (start + width / 2) (width / 2)
        (rangeExistenceBitmap, rangeLeafBitmap)
      pure (hashInternal leftChild rightChild)
termination_by width.toNat
decreasing_by all_goals exact div_two_lt_of_rangeBitmaps hrange

/-- `InternalNode::hash`: the hash of the whole range of sixteen children. -/
def InternalNode.hash (node : InternalNode) : Except Failure H256 := do
  let bitmaps ← node.generateBitmaps
  merkleHash hashInternal placeholder node.children 0 16 bitmaps

/-- `SparseMerkleLeafNode`. -/
structure SparseMerkleLeafNode where
  key : H256
  valueHash : H256
deriving DecidableEq

/-- `Node::hash`, with the hash of a `SparseMerkleLeafNode` for a leaf. -/
def Node.hash (hashLeaf : SparseMerkleLeafNode → H256) : Node K → Except Failure H256
  | .internal node => node.hash hashInternal placeholder
  | .leaf leafNode => .ok (hashLeaf ⟨leafNode.accountKey, leafNode.valueHash⟩)
  | .null => .ok placeholder

/-- `NodeInProof`. -/
inductive NodeInProof where
  | leaf (leafNode : SparseMerkleLeafNode)
  | other (hashValue : H256)
deriving DecidableEq

/-- `NodeInProof::hash`, given the hash of a `SparseMerkleLeafNode`. -/
def NodeInProof.hash (hashLeaf : SparseMerkleLeafNode → H256) : NodeInProof → H256
  | .leaf leafNode => hashLeaf leafNode
  | .other hashValue => hashValue

/-- `InternalNode::gen_node_in_proof`: as `merkle_hash`, but a lone leaf child is read from the
tree and put in the proof whole. -/
def genNodeInProof (children : Nibble → Option Child) (start width : UInt8)
    (bitmaps : UInt16 × UInt16) (reader : NodeKey → Except Failure (Node K))
    (nodeKey : NodeKey) : Except Failure NodeInProof := do
  let (rangeExistenceBitmap, rangeLeafBitmap) ← rangeBitmaps start width bitmaps
  match rangeShape width rangeExistenceBitmap rangeLeafBitmap with
  | .empty => pure (.other placeholder)
  | .only index => do
    let onlyChildIndex ← Nibble.from index
    let onlyChild ← childNamed children "existence_bitmap" onlyChildIndex
    if onlyChild.nodeType = .leaf then do
      let onlyChildNodeKey ← nodeKey.genChildNodeKey onlyChild.version onlyChildIndex
      match ← reader onlyChildNodeKey with
      | .internal _ => .error (.panic ("internal error: entered unreachable code: " ++
          "Corrupted internal node: in-memory leaf child is internal node on disk"))
      | .leaf leafNode => pure (.leaf ⟨leafNode.accountKey, leafNode.valueHash⟩)
      | .null => .error (.panic "internal error: entered unreachable code: Child cannot be Null")
    else pure (.other onlyChild.hash)
  | .split => do
    let leftChild ← merkleHash hashInternal placeholder children start (width / 2)
      (rangeExistenceBitmap, rangeLeafBitmap)
    let rightChild ← merkleHash hashInternal placeholder children (start + width / 2) (width / 2)
      (rangeExistenceBitmap, rangeLeafBitmap)
    pure (.other (hashInternal leftChild rightChild))

/-- `get_child_and_sibling_half_start`: the starts of the range of width `2 ^ height` holding
nibble `n` and of its sibling. -/
def getChildAndSiblingHalfStart (n : Nibble) (height : UInt8) : UInt8 × UInt8 :=
  let childHalfStart := ((0xFF : UInt8) <<< height) &&& n.val
  let siblingHalfStart := childHalfStart ^^^ ((1 : UInt8) <<< height)
  (childHalfStart, siblingHalfStart)

/-- The sibling `get_child_with_siblings` pushes for a range: read through the tree when there
is a reader, and only hashed otherwise. -/
def siblingInProof (children : Nibble → Option Child) (start width : UInt8)
    (bitmaps : UInt16 × UInt16) (reader : Option (NodeKey → Except Failure (Node K)))
    (nodeKey : NodeKey) : Except Failure NodeInProof :=
  match reader with
  | some reader => genNodeInProof hashInternal placeholder children start width bitmaps reader nodeKey
  | none => NodeInProof.other <$> merkleHash hashInternal placeholder children start width bitmaps

/-- The loop of `get_child_with_siblings` over the heights left, with the siblings pushed so
far. -/
def getChildWithSiblingsLoop (node : InternalNode) (nodeKey : NodeKey) (n : Nibble)
    (reader : Option (NodeKey → Except Failure (Node K))) (bitmaps : UInt16 × UInt16) :
    List UInt8 → List NodeInProof → Except Failure (Option NodeKey × List NodeInProof)
  | [], _ => .error (.panic ("internal error: entered unreachable code: " ++
      "Impossible to get here without returning even at the lowest level."))
  | h :: heights, siblings => do
    let width : UInt8 := 1 <<< h
    let (childHalfStart, siblingHalfStart) := getChildAndSiblingHalfStart n h
    let sibling ← siblingInProof hashInternal placeholder node.children siblingHalfStart width
      bitmaps reader nodeKey
    let siblings := siblings ++ [sibling]
    let (rangeExistenceBitmap, rangeLeafBitmap) ← rangeBitmaps childHalfStart width bitmaps
    match rangeShape width rangeExistenceBitmap rangeLeafBitmap with
    | .empty => pure (none, siblings)
    | .only index => do
      let onlyChildIndex ← Nibble.from index
      let onlyChild ← childNamed node.children "child_bitmap" onlyChildIndex
      let childNodeKey ← nodeKey.genChildNodeKey onlyChild.version onlyChildIndex
      pure (some childNodeKey, siblings)
    | .split => getChildWithSiblingsLoop node nodeKey n reader bitmaps heights siblings

/-- `InternalNode::get_child_with_siblings`, for the heights 3 down to 0. -/
def getChildWithSiblings (node : InternalNode) (nodeKey : NodeKey) (n : Nibble)
    (reader : Option (NodeKey → Except Failure (Node K))) :
    Except Failure (Option NodeKey × List NodeInProof) := do
  let bitmaps ← node.generateBitmaps
  getChildWithSiblingsLoop hashInternal placeholder node nodeKey n reader bitmaps [3, 2, 1, 0] []

end Model

/-! ### The tree of a node's children -/

section Ranges

/-- The children of an internal node as the positions of a sparse Merkle tree: the hash of each
child, and whether it is a leaf, which may be hoisted. -/
def childLeaves (children : Nibble → Option Child) (i : Nat) : Option (H256 × Bool) :=
  if h : i < 16 then (children (Nibble.ofFin ⟨i, h⟩)).map fun c => (c.hash, c.isLeaf) else none

/-- Bitmaps whose bits in `[start, start + 2 ^ h)` are those of the existing children and of the
leaf children. -/
def Describes (children : Nibble → Option Child) (h start : Nat) (bitmaps : UInt16 × UInt16) :
    Prop :=
  ∀ i, start ≤ i → i < start + 2 ^ h →
    bitmaps.1.toNat.testBit i = (childLeaves children i).isSome ∧
      bitmaps.2.toNat.testBit i = (childLeaves children i).any Prod.snd

variable {children : Nibble → Option Child} {h : Nat} {start width : UInt8}
  {bitmaps : UInt16 × UInt16}

theorem testBit_rangeMask (hw : width.toNat ≤ 16) (hsw : start.toNat + width.toNat ≤ 16) (i : Nat) :
    (rangeMask start width).toNat.testBit i = decide (start.toNat ≤ i ∧ i < start.toNat + width.toNat) := by
  have hw32 : 2 ^ width.toNat < 2 ^ 32 := Nat.pow_lt_pow_right (by decide) (by omega)
  have hpow : ((1 : UInt32) <<< width.toUInt32).toNat = 2 ^ width.toNat := by
    rw [UInt32.toNat_shiftLeft, UInt8.toNat_toUInt32,
      Nat.mod_eq_of_lt (show width.toNat < 32 by omega), show (1 : UInt32).toNat = 1 from rfl,
      Nat.one_shiftLeft, Nat.mod_eq_of_lt hw32]
  have hlow : ((1 : UInt32) <<< width.toUInt32 - 1).toNat = 2 ^ width.toNat - 1 := by
    rw [UInt32.toNat_sub_of_le _ _
      (by rw [UInt32.le_iff_toNat_le, hpow]; exact Nat.one_le_two_pow), hpow]
    rfl
  -- the mask is `width` ones moved up by `start`, and fits in sixteen bits
  have hfit : (2 ^ width.toNat - 1) * 2 ^ start.toNat < 2 ^ 16 := by
    have hlt : (2 ^ width.toNat - 1) * 2 ^ start.toNat < 2 ^ width.toNat * 2 ^ start.toNat :=
      Nat.mul_lt_mul_of_pos_right (by have := Nat.one_le_two_pow (n := width.toNat); omega)
        (Nat.two_pow_pos _)
    rw [← Nat.pow_add] at hlt
    exact Nat.lt_of_lt_of_le hlt (Nat.pow_le_pow_right (by decide) (by omega))
  have hmask : (rangeMask start width).toNat = (2 ^ width.toNat - 1) * 2 ^ start.toNat := by
    rw [rangeMask, UInt32.toNat_toUInt16, UInt32.toNat_shiftLeft, hlow, UInt8.toNat_toUInt32,
      Nat.mod_eq_of_lt (show start.toNat < 32 by omega), Nat.shiftLeft_eq,
      Nat.mod_eq_of_lt (show (2 ^ width.toNat - 1) * 2 ^ start.toNat < 2 ^ 32 by omega),
      Nat.mod_eq_of_lt hfit]
  rw [hmask, Nat.testBit_mul_two_pow, Nat.testBit_two_pow_sub_one]
  by_cases hs : start.toNat ≤ i
  · simp only [hs, decide_true, Bool.true_and, true_and, decide_eq_decide]
    omega
  · simp [hs]

/-- The assertions of `range_bitmaps` hold for an aligned range of a power-of-two width. -/
theorem rangeBitmaps_of_aligned (bitmaps : UInt16 × UInt16) (hw : width.toNat = 2 ^ h) (hh : h ≤ 4)
    (halign : start.toNat % 2 ^ h = 0) (hfit : start.toNat + 2 ^ h ≤ 16) :
    rangeBitmaps start width bitmaps =
      .ok (bitmaps.1 &&& rangeMask start width, bitmaps.2 &&& rangeMask start width) := by
  have hpow : 2 ^ h ≤ 2 ^ 4 := Nat.pow_le_pow_right (by decide) hh
  have hfirst : start < 16 ∧ Bits.countOnes 8 width.toNat = 1 ∧ start % width = 0 := by
    refine ⟨UInt8.lt_iff_toNat_lt.mpr (by have := Nat.two_pow_pos h; simp; omega), ?_, ?_⟩
    · rw [hw]
      exact Bits.countOnes_two_pow (by omega)
    · rw [← UInt8.toNat_inj, UInt8.toNat_mod, hw, halign]
      rfl
  have hsecond : width ≤ 16 ∧ start + width ≤ 16 := by
    refine ⟨UInt8.le_iff_toNat_le.mpr (by simp; omega), UInt8.le_iff_toNat_le.mpr ?_⟩
    rw [UInt8.toNat_add, Nat.mod_eq_of_lt (by omega)]
    simp
    omega
  simp only [rangeBitmaps, assertion_of_pos hfirst, assertion_of_pos hsecond, Control.ok_bind]
  rfl

/-- Masked to the range, the existence bitmap marks the range's children. -/
theorem Describes.marks (hd : Describes children h start.toNat bitmaps) (hw : width.toNat = 2 ^ h)
    (hfit : start.toNat + 2 ^ h ≤ 16) :
    Marks (childLeaves children) h start.toNat (bitmaps.1 &&& rangeMask start width).toNat := by
  intro i
  rw [UInt16.toNat_and, Nat.testBit_and,
    testBit_rangeMask (show width.toNat ≤ 16 by omega) (show start.toNat + width.toNat ≤ 16 by omega),
    hw]
  by_cases hi : start.toNat ≤ i ∧ i < start.toNat + 2 ^ h
  · rw [(hd i hi.1 hi.2).1]
    simp [hi]
  · have hnot : ¬ (start.toNat ≤ i ∧ i < start.toNat + 2 ^ h ∧ (childLeaves children i).isSome) :=
      fun hin => hi ⟨hin.1, hin.2.1⟩
    rw [decide_eq_false hi, Bool.and_false, decide_eq_false hnot]

/-- Masked to the range, both bitmaps still describe every part of it. -/
theorem Describes.mask (hd : Describes children h start.toNat bitmaps) (hw : width.toNat = 2 ^ h)
    (hfit : start.toNat + 2 ^ h ≤ 16) {h' s : Nat} (hlo : start.toNat ≤ s)
    (hhi : s + 2 ^ h' ≤ start.toNat + 2 ^ h) :
    Describes children h' s
      (bitmaps.1 &&& rangeMask start width, bitmaps.2 &&& rangeMask start width) := by
  intro i hilo hihi
  have hin : decide (start.toNat ≤ i ∧ i < start.toNat + width.toNat) = true := by
    simp only [hw, decide_eq_true_eq]
    omega
  obtain ⟨he, hl⟩ := hd i (by omega) (by omega)
  simp only [UInt16.toNat_and, Nat.testBit_and,
    testBit_rangeMask (show width.toNat ≤ 16 by omega) (show start.toNat + width.toNat ≤ 16 by omega),
    hin, Bool.and_true]
  exact ⟨he, hl⟩

theorem childLeaves_isSome_lt {i : Nat} (hi : (childLeaves children i).isSome) : i < 16 := by
  unfold childLeaves at hi
  split at hi
  · assumption
  · simp at hi

/-- In a range holding one child, the masked leaf bitmap is set exactly when that child is a
leaf. -/
theorem rangeLeaf_ne_zero_iff (hd : Describes children h start.toNat bitmaps)
    (hw : width.toNat = 2 ^ h) (hfit : start.toNat + 2 ^ h ≤ 16) {t : Nat} {x : H256 × Bool}
    (he : entries (childLeaves children) h start.toNat = [(t, x)]) :
    bitmaps.2 &&& rangeMask start width ≠ 0 ↔ x.2 = true := by
  have hbit : ∀ i, (bitmaps.2 &&& rangeMask start width).toNat.testBit i =
      (decide (start.toNat ≤ i ∧ i < start.toNat + 2 ^ h) &&
        (childLeaves children i).any Prod.snd) := fun i => by
    rw [UInt16.toNat_and, Nat.testBit_and,
      testBit_rangeMask (show width.toNat ≤ 16 by omega)
        (show start.toNat + width.toNat ≤ 16 by omega), hw]
    by_cases hi : start.toNat ≤ i ∧ i < start.toNat + 2 ^ h
    · rw [(hd i hi.1 hi.2).2]
      simp [hi]
    · simp only [decide_eq_false hi, Bool.and_false, Bool.false_and]
  obtain ⟨hlo, hhi, hx⟩ := mem_entries.mp (he ▸ List.mem_singleton_self (t, x))
  rw [ne_eq, ← UInt16.toNat_inj, show (0 : UInt16).toNat = 0 from rfl]
  constructor
  · intro hne
    obtain ⟨i, hi⟩ := Nat.exists_testBit_of_ne_zero hne
    rw [hbit i, Bool.and_eq_true, decide_eq_true_eq] at hi
    obtain ⟨⟨hilo, hihi⟩, hany⟩ := hi
    cases hy : childLeaves children i with
    | none => simp [hy] at hany
    | some y =>
      rw [hy, Option.any_some] at hany
      obtain ⟨rfl, rfl⟩ := eq_of_entries_eq_singleton he hilo hihi hy
      exact hany
  · intro hleaf h0
    have := hbit t
    rw [h0, Nat.zero_testBit, hx] at this
    simp [hlo, hhi, hleaf] at this

/-- The code's tests on a range that holds a child: the range is one position, or its only child
is a leaf, exactly when the abstract proof would stop there; the lowest existence bit is the
first child. -/
theorem rangeShape_of_cons (hd : Describes children h start.toNat bitmaps)
    (hw : width.toNat = 2 ^ h) (hfit : start.toNat + 2 ^ h ≤ 16) {t : Nat} {x : H256 × Bool}
    {rest : List (Nat × (H256 × Bool))}
    (he : entries (childLeaves children) h start.toNat = (t, x) :: rest) :
    rangeShape width (bitmaps.1 &&& rangeMask start width) (bitmaps.2 &&& rangeMask start width) =
      if h = 0 ∨ (rest = [] ∧ x.2 = true) then .only t.toUInt8 else .split := by
  have hm := hd.marks hw hfit
  have hlt := (bitmaps.1 &&& rangeMask start width).toNat_lt
  have hne : bitmaps.1 &&& rangeMask start width ≠ 0 := fun h0 => by
    have := (hm.eq_zero_iff).mp (by rw [h0]; rfl)
    rw [he] at this
    cases this
  have hwidth : width = 1 ↔ h = 0 := by
    rw [← UInt8.toNat_inj, hw, show (1 : UInt8).toNat = 1 from rfl]
    constructor
    · intro h1
      by_contra hne
      have := Nat.one_lt_two_pow hne
      omega
    · rintro rfl
      rfl
  have hcount : Bits.countOnes 16 (bitmaps.1 &&& rangeMask start width).toNat = 1 ↔ rest = [] := by
    rw [hm.countOnes_eq hlt, he, List.length_cons]
    constructor
    · intro h1
      exact List.eq_nil_of_length_eq_zero (by omega)
    · rintro rfl
      rfl
  have hcond : (width = 1 ∨ (Bits.countOnes 16 (bitmaps.1 &&& rangeMask start width).toNat = 1 ∧
      bitmaps.2 &&& rangeMask start width ≠ 0)) ↔ (h = 0 ∨ (rest = [] ∧ x.2 = true)) := by
    rw [hwidth, hcount]
    constructor
    · rintro (h0 | ⟨rfl, hleaf⟩)
      · exact .inl h0
      · exact .inr ⟨rfl, (rangeLeaf_ne_zero_iff hd hw hfit he).mp hleaf⟩
    · rintro (h0 | ⟨rfl, hleaf⟩)
      · exact .inl h0
      · exact .inr ⟨rfl, (rangeLeaf_ne_zero_iff hd hw hfit he).mpr hleaf⟩
  rw [rangeShape, if_neg hne, hm.ctz_eq hlt he]
  exact if_congr hcond rfl rfl

theorem rangeShape_of_nil (hd : Describes children h start.toNat bitmaps)
    (hw : width.toNat = 2 ^ h) (hfit : start.toNat + 2 ^ h ≤ 16)
    (he : entries (childLeaves children) h start.toNat = []) :
    rangeShape width (bitmaps.1 &&& rangeMask start width) (bitmaps.2 &&& rangeMask start width) =
      .empty := by
  have h0 : bitmaps.1 &&& rangeMask start width = 0 :=
    UInt16.toNat_inj.mp ((hd.marks hw hfit).eq_zero_iff.mpr he)
  rw [rangeShape, if_pos h0]

theorem childLeaves_eq_some {i : Nat} {x : H256 × Bool} (hx : childLeaves children i = some x) :
    ∃ (hi : i < 16) (c : Child), children (Nibble.ofFin ⟨i, hi⟩) = some c ∧ x = (c.hash, c.isLeaf) := by
  unfold childLeaves at hx
  split at hx
  · next hi =>
    obtain ⟨c, hc, rfl⟩ := Option.map_eq_some_iff.mp hx
    exact ⟨hi, c, hc, rfl⟩
  · cases hx

theorem Nibble.from_toUInt8 {t : Nat} (ht : t < 16) :
    Nibble.from t.toUInt8 = .ok (Nibble.ofFin ⟨t, ht⟩) := by
  rw [Nibble.from_of_lt (by simp; omega)]
  rfl

end Ranges

/-! ### The hash of a node -/

section Hash

variable {hashInternal : H256 → H256 → H256} {placeholder : H256}
  {children : Nibble → Option Child} {start width : UInt8} {bitmaps : UInt16 × UInt16}
  {re rl : UInt16}

theorem merkleHash_of_empty (hr : rangeBitmaps start width bitmaps = .ok (re, rl))
    (hs : rangeShape width re rl = .empty) :
    merkleHash hashInternal placeholder children start width bitmaps = .ok placeholder := by
  rw [merkleHash]
  split
  · next e he => rw [hr] at he; cases he
  · next re' rl' hr' =>
    rw [hr] at hr'
    cases hr'
    simp only [hs]

theorem merkleHash_of_only {index : UInt8} (hr : rangeBitmaps start width bitmaps = .ok (re, rl))
    (hs : rangeShape width re rl = .only index) :
    merkleHash hashInternal placeholder children start width bitmaps = (do
      let onlyChildIndex ← Nibble.from index
      let child ← childNamed children "existence_bitmap" onlyChildIndex
      pure child.hash) := by
  rw [merkleHash]
  split
  · next e he => rw [hr] at he; cases he
  · next re' rl' hr' =>
    rw [hr] at hr'
    cases hr'
    simp only [hs]

theorem merkleHash_of_split (hr : rangeBitmaps start width bitmaps = .ok (re, rl))
    (hs : rangeShape width re rl = .split) :
    merkleHash hashInternal placeholder children start width bitmaps = (do
      let leftChild ← merkleHash hashInternal placeholder children start (width / 2) (re, rl)
      let rightChild ← merkleHash hashInternal placeholder children (start + width / 2)
        (width / 2) (re, rl)
      pure (hashInternal leftChild rightChild)) := by
  rw [merkleHash]
  split
  · next e he => rw [hr] at he; cases he
  · next re' rl' hr' =>
    rw [hr] at hr'
    cases hr'
    simp only [hs]

/-- The halves of an aligned range of width `2 ^ (h + 1)`, as `merkle_hash` computes them in
`u8`. -/
theorem toNat_halves {h : Nat} (hw : width.toNat = 2 ^ (h + 1)) (hfit : start.toNat + 2 ^ (h + 1) ≤ 16) :
    (width / 2).toNat = 2 ^ h ∧ (start + width / 2).toNat = start.toNat + 2 ^ h := by
  have hhalf : (width / 2).toNat = 2 ^ h := by
    rw [UInt8.toNat_div, hw, Nat.pow_succ, show (2 : UInt8).toNat = 2 from rfl, Nat.mul_div_cancel _ (by decide)]
  refine ⟨hhalf, ?_⟩
  rw [UInt8.toNat_add, hhalf, Nat.mod_eq_of_lt (by rw [Nat.pow_succ] at hfit; omega)]

/-- `merkle_hash` of an aligned range, with bitmaps describing it, is the hash of the range in the
tree of the node's children. -/
theorem merkleHash_eq_subtree :
    ∀ h, h ≤ 4 → ∀ (start width : UInt8) (bitmaps : UInt16 × UInt16), width.toNat = 2 ^ h →
      start.toNat % 2 ^ h = 0 → start.toNat + 2 ^ h ≤ 16 →
      Describes children h start.toNat bitmaps →
      merkleHash hashInternal placeholder children start width bitmaps =
        .ok (subtree hashInternal placeholder (childLeaves children) h start.toNat) := by
  intro h
  induction h using Nat.strong_induction_on with
  | _ h ih =>
    intro hh start width bitmaps hw halign hfit hd
    have hr := rangeBitmaps_of_aligned bitmaps hw hh halign hfit
    cases he : entries (childLeaves children) h start.toNat with
    | nil =>
      rw [merkleHash_of_empty hr (rangeShape_of_nil hd hw hfit he), subtree_of_entries_eq_nil he]
    | cons entry rest =>
      obtain ⟨t, x⟩ := entry
      have hshape := rangeShape_of_cons hd hw hfit he
      by_cases hstop : h = 0 ∨ (rest = [] ∧ x.2 = true)
      · -- the range is one position or holds a lone leaf: its first child's hash
        rw [if_pos hstop] at hshape
        obtain ⟨-, -, htx⟩ := mem_entries.mp (he ▸ List.mem_cons_self)
        obtain ⟨ht, c, hc, rfl⟩ := childLeaves_eq_some htx
        rw [merkleHash_of_only hr hshape, subtree_of_stops ((stops_iff_of_cons he).mpr hstop) he]
        simp only [Nibble.from_toUInt8 ht, Control.ok_bind, childNamed, hc]
        rfl
      · -- the two halves are hashed, each described by the masked bitmaps
        rw [if_neg hstop] at hshape
        obtain ⟨h', rfl⟩ := Nat.exists_eq_add_one_of_ne_zero (fun h0 => hstop (.inl h0))
        obtain ⟨hhalf, hmid⟩ := toNat_halves hw hfit
        have hpow : 2 ^ (h' + 1) = 2 ^ h' + 2 ^ h' := by rw [Nat.pow_succ]; omega
        have hdvd : start.toNat % 2 ^ h' = 0 :=
          Nat.mod_eq_zero_of_dvd (Nat.dvd_trans (Nat.pow_dvd_pow 2 (Nat.le_succ h'))
            (Nat.dvd_of_mod_eq_zero halign))
        have hleft := ih h' (by omega) (by omega) start (width / 2) _ hhalf hdvd (by omega)
          (hd.mask hw hfit le_rfl (by omega))
        have hright := ih h' (by omega) (by omega) (start + width / 2) (width / 2) _ hhalf
          (by rw [hmid, Nat.add_mod_right, hdvd]) (by omega)
          (hd.mask hw hfit (by omega) (by omega))
        rw [hmid] at hright
        have hnone : collapse placeholder (entries (childLeaves children) (h' + 1) start.toNat) =
            none :=
          collapse_eq_none_of_not_stops (Bool.eq_false_iff.mpr fun hs =>
            hstop ((stops_iff_of_cons he).mp hs))
        rw [merkleHash_of_split hr hshape, hleft, hright, subtree_of_collapse_eq_none hnone]
        rfl

theorem Describes.sub {h s h' s' : Nat} (hd : Describes children h s bitmaps) (hlo : s ≤ s')
    (hhi : s' + 2 ^ h' ≤ s + 2 ^ h) : Describes children h' s' bitmaps :=
  fun i hilo hihi => hd i (by omega) (by omega)

/-- `generate_bitmaps` describes all sixteen children. -/
theorem describes_generateBitmaps {node : InternalNode} (hgen : node.generateBitmaps = .ok bitmaps) :
    Describes node.children 4 0 bitmaps := by
  obtain ⟨e, l, hgen', he, hl⟩ := generateBitmaps_spec node
  rw [hgen] at hgen'
  cases hgen'
  intro i _ hi
  have hnib : (Nibble.ofFin ⟨i, hi⟩).val.toNat = i := Nibble.toNat_ofFin ⟨i, hi⟩
  have hchild : childLeaves node.children i =
      (node.children (Nibble.ofFin ⟨i, hi⟩)).map fun c => (c.hash, c.isLeaf) := dif_pos hi
  have he' := he (Nibble.ofFin ⟨i, hi⟩)
  have hl' := hl (Nibble.ofFin ⟨i, hi⟩)
  rw [hnib] at he' hl'
  refine ⟨?_, ?_⟩
  · rw [hchild, Option.isSome_map]
    exact he'
  · rw [hchild, hl']
    cases node.children (Nibble.ofFin ⟨i, hi⟩) <;> rfl

/-- The hash of an internal node is the root of the sparse Merkle tree of its children. -/
theorem InternalNode.hash_eq_subtree (node : InternalNode) :
    node.hash hashInternal placeholder =
      .ok (subtree hashInternal placeholder (childLeaves node.children) 4 0) := by
  obtain ⟨e, l, hgen, -, -⟩ := generateBitmaps_spec node
  rw [InternalNode.hash, hgen, Control.ok_bind]
  exact merkleHash_eq_subtree 4 le_rfl 0 16 (e, l) rfl rfl le_rfl (describes_generateBitmaps hgen)

end Hash

/-! ### Proofs for a child -/

section Siblings

variable {K : Type} {hashInternal : H256 → H256 → H256} {placeholder : H256}
  {hashLeaf : SparseMerkleLeafNode → H256} {children : Nibble → Option Child} {nodeKey : NodeKey}
  {bitmaps : UInt16 × UInt16}

/-- What the sibling step returns for an aligned range of height at most 3 hashes as the range
does in the tree of the node's children. -/
def SiblingsSound (hashInternal : H256 → H256 → H256) (placeholder : H256)
    (hashLeaf : SparseMerkleLeafNode → H256) (children : Nibble → Option Child)
    (reader : Option (NodeKey → Except Failure (Node K))) (nodeKey : NodeKey)
    (bitmaps : UInt16 × UInt16) : Prop :=
  ∀ h, h ≤ 3 → ∀ start width : UInt8, width.toNat = 2 ^ h → start.toNat % 2 ^ h = 0 →
    start.toNat + 2 ^ h ≤ 16 → ∀ sibling, siblingInProof hashInternal placeholder children start
      width bitmaps reader nodeKey = .ok sibling →
      sibling.hash hashLeaf = subtree hashInternal placeholder (childLeaves children) h start.toNat

/-- A tree reader that returns, at the node key of each leaf child, a leaf that hashes to the
hash the child records. -/
def StoresLeaves (hashLeaf : SparseMerkleLeafNode → H256) (children : Nibble → Option Child)
    (nodeKey : NodeKey) (reader : NodeKey → Except Failure (Node K)) : Prop :=
  ∀ m c key leaf, children m = some c → c.nodeType = .leaf →
    nodeKey.genChildNodeKey c.version m = .ok key → reader key = .ok (.leaf leaf) →
      hashLeaf ⟨leaf.accountKey, leaf.valueHash⟩ = c.hash

/-- A tree reader that returns a leaf at the node key of each leaf child. -/
def ReadsLeaves (children : Nibble → Option Child) (nodeKey : NodeKey)
    (reader : NodeKey → Except Failure (Node K)) : Prop :=
  ∀ m c key, children m = some c → c.nodeType = .leaf →
    nodeKey.genChildNodeKey c.version m = .ok key → ∃ leaf, reader key = .ok (.leaf leaf)

/-- Without a reader the siblings are the hashes `merkle_hash` computes. -/
theorem siblingsSound_none (hd : Describes children 4 0 bitmaps) :
    SiblingsSound hashInternal placeholder hashLeaf children (none : Option (NodeKey → Except Failure (Node K)))
      nodeKey bitmaps := by
  intro h hh start width hw halign hfit sibling hsib
  rw [siblingInProof, merkleHash_eq_subtree h (by omega) start width bitmaps hw halign hfit
    (hd.sub (Nat.zero_le _) (by have := Nat.pow_le_pow_right (show 0 < 2 by decide) (show h ≤ 4 by omega); omega)),
    Control.map_ok] at hsib
  cases hsib
  rfl

/-- With a reader that stores the leaves the node records, `gen_node_in_proof` agrees with
`merkle_hash`: a lone leaf read from the tree hashes to the child's hash. -/
theorem siblingsSound_some {reader : NodeKey → Except Failure (Node K)}
    (hd : Describes children 4 0 bitmaps) (hstore : StoresLeaves hashLeaf children nodeKey reader) :
    SiblingsSound hashInternal placeholder hashLeaf children (some reader) nodeKey bitmaps := by
  intro h hh start width hw halign hfit sibling hsib
  have hsub : start.toNat + 2 ^ h ≤ 0 + 2 ^ 4 := by omega
  have hm : merkleHash hashInternal placeholder children start width bitmaps =
      .ok (subtree hashInternal placeholder (childLeaves children) h start.toNat) :=
    merkleHash_eq_subtree h (by omega) start width bitmaps hw halign hfit
      (hd.sub (Nat.zero_le _) hsub)
  have hr := rangeBitmaps_of_aligned bitmaps hw (by omega) halign hfit
  simp only [siblingInProof, genNodeInProof, hr, Control.ok_bind] at hsib
  cases hs : rangeShape width (bitmaps.1 &&& rangeMask start width) (bitmaps.2 &&& rangeMask start width) with
  | empty =>
    rw [hs] at hsib
    rw [merkleHash_of_empty hr hs] at hm
    cases hsib
    exact Except.ok.inj hm
  | only index =>
    rw [hs] at hsib
    rw [merkleHash_of_only hr hs] at hm
    obtain ⟨m, hfrom, hsib⟩ := Control.bind_eq_ok_iff.mp hsib
    obtain ⟨c, hc, hsib⟩ := Control.bind_eq_ok_iff.mp hsib
    rw [hfrom, Control.ok_bind, hc, Control.ok_bind] at hm
    have hhash : c.hash = subtree hashInternal placeholder (childLeaves children) h start.toNat :=
      Except.ok.inj hm
    split at hsib
    · -- a lone leaf child, read from the tree
      next hleaf =>
      obtain ⟨key, hkey, hsib⟩ := Control.bind_eq_ok_iff.mp hsib
      obtain ⟨stored, hread, hsib⟩ := Control.bind_eq_ok_iff.mp hsib
      have hchild : children m = some c := by
        unfold childNamed at hc
        split at hc
        · next child hchild => cases hc; exact hchild
        · cases hc
      cases stored with
      | internal _ => cases hsib
      | null => cases hsib
      | leaf leaf =>
        cases hsib
        exact (hstore m c key leaf hchild hleaf hkey hread).trans hhash
    · cases hsib
      exact hhash
  | split =>
    rw [hs] at hsib
    rw [merkleHash_of_split hr hs] at hm
    obtain ⟨left, hleft, hsib⟩ := Control.bind_eq_ok_iff.mp hsib
    obtain ⟨right, hright, hsib⟩ := Control.bind_eq_ok_iff.mp hsib
    rw [hleft, Control.ok_bind, hright, Control.ok_bind] at hm
    cases hsib
    exact Except.ok.inj hm

/-- `gen_node_in_proof` returns for an aligned range, under a node key that takes one more
nibble and with a reader that has the node's leaves: a lone leaf child is read as a leaf, and
a range that splits is hashed as `merkle_hash` does. -/
theorem genNodeInProof_ok {reader : NodeKey → Except Failure (Node K)}
    (hd : Describes children 4 0 bitmaps) (hkey : nodeKey.nibblePath.WellFormed)
    (hlen : nodeKey.nibblePath.numNibbles < rootNibbleHeight)
    (hreads : ReadsLeaves children nodeKey reader) {h : Nat} (hh : h ≤ 3) {start width : UInt8}
    (hw : width.toNat = 2 ^ h) (halign : start.toNat % 2 ^ h = 0)
    (hfit : start.toNat + 2 ^ h ≤ 16) :
    ∃ sibling, genNodeInProof hashInternal placeholder children start width bitmaps reader
      nodeKey = .ok sibling := by
  have hsub : Describes children h start.toNat bitmaps := hd.sub (Nat.zero_le _) (by omega)
  have hm : merkleHash hashInternal placeholder children start width bitmaps =
      .ok (subtree hashInternal placeholder (childLeaves children) h start.toNat) :=
    merkleHash_eq_subtree h (by omega) start width bitmaps hw halign hfit hsub
  have hr := rangeBitmaps_of_aligned bitmaps hw (by omega) halign hfit
  simp only [genNodeInProof, hr, Control.ok_bind]
  cases he : entries (childLeaves children) h start.toNat with
  | nil =>
    rw [rangeShape_of_nil hsub hw hfit he]
    exact ⟨_, rfl⟩
  | cons entry rest =>
    obtain ⟨t, x⟩ := entry
    have hshape := rangeShape_of_cons hsub hw hfit he
    by_cases hstop : h = 0 ∨ (rest = [] ∧ x.2 = true)
    · rw [if_pos hstop] at hshape
      obtain ⟨-, -, htx⟩ := mem_entries.mp (he ▸ List.mem_cons_self)
      obtain ⟨ht, c, hc, -⟩ := childLeaves_eq_some htx
      simp only [hshape, Nibble.from_toUInt8 ht, Control.ok_bind, childNamed, hc]
      split
      · -- a lone leaf, read from the tree
        next hleaf =>
        obtain ⟨q, hpush, -⟩ := NibblePath.push_spec hkey hlen (Nibble.ofFin ⟨t, ht⟩)
        have hchild : nodeKey.genChildNodeKey c.version (Nibble.ofFin ⟨t, ht⟩) =
            .ok ⟨c.version, q⟩ := by
          simp [NodeKey.genChildNodeKey, hpush]
        obtain ⟨leaf, hread⟩ := hreads _ c _ hc hleaf hchild
        rw [hchild, Control.ok_bind, hread]
        exact ⟨_, rfl⟩
      · exact ⟨_, rfl⟩
    · -- the halves are hashed as `merkle_hash` hashes them
      rw [if_neg hstop] at hshape
      rw [merkleHash_of_split hr hshape] at hm
      obtain ⟨left, hleft, hm⟩ := Control.bind_eq_ok_iff.mp hm
      obtain ⟨right, hright, -⟩ := Control.bind_eq_ok_iff.mp hm
      simp only [hshape, hleft, hright, Control.ok_bind]
      exact ⟨_, rfl⟩

end Siblings

section Loop

variable {K : Type} {hashInternal : H256 → H256 → H256} {placeholder : H256}
  {hashLeaf : SparseMerkleLeafNode → H256} {node : InternalNode} {nodeKey : NodeKey} {n : Nibble}
  {bitmaps : UInt16 × UInt16} {reader : Option (NodeKey → Except Failure (Node K))}

/-- `get_child_and_sibling_half_start` at each nibble and each height the loop takes, checked
over the sixteen nibbles and four heights: the child's half is the aligned range of width
`2 ^ height` around the nibble, and the sibling's is the other half of the range above. -/
theorem getChildAndSiblingHalfStart_table :
    ∀ (i : Fin 16) (h : Fin 4),
      (getChildAndSiblingHalfStart (Nibble.ofFin i) h.val.toUInt8).1.toNat =
          i.val / 2 ^ h.val * 2 ^ h.val ∧
        (getChildAndSiblingHalfStart (Nibble.ofFin i) h.val.toUInt8).2.toNat =
          half (!i.val.testBit h.val) h.val (i.val / 2 ^ (h.val + 1) * 2 ^ (h.val + 1)) := by
  decide +kernel

theorem getChildAndSiblingHalfStart_spec (n : Nibble) {h : Nat} (hh : h < 4) :
    (getChildAndSiblingHalfStart n h.toUInt8).1.toNat = n.val.toNat / 2 ^ h * 2 ^ h ∧
      (getChildAndSiblingHalfStart n h.toUInt8).2.toNat =
        half (!n.val.toNat.testBit h) h (n.val.toNat / 2 ^ (h + 1) * 2 ^ (h + 1)) := by
  have htable := getChildAndSiblingHalfStart_table n.toFin ⟨h, hh⟩
  rwa [show Nibble.ofFin n.toFin = n from Nibble.equivFin.left_inv n] at htable

theorem toNat_one_shiftLeft_u8 {h : Nat} (hh : h < 8) : ((1 : UInt8) <<< h.toUInt8).toNat = 2 ^ h := by
  have ht : h.toUInt8.toNat = h := by simp; omega
  rw [UInt8.toNat_shiftLeft, ht, Nat.mod_eq_of_lt hh, show (1 : UInt8).toNat = 1 from rfl,
    Nat.one_shiftLeft, Nat.mod_eq_of_lt (Nat.pow_lt_pow_right (by decide) hh)]

/-- How a proof for a child ends in the code: with no child when the range it stops at is empty,
and otherwise with the node key of the range's first child. -/
def EndsAt (children : Nibble → Option Child) (nodeKey : NodeKey) (h start : Nat)
    (res : Option NodeKey) : Prop :=
  (res = none ∧ entries (childLeaves children) h start = []) ∨
    ∃ t x rest, ∃ (ht : t < 16), ∃ c key, entries (childLeaves children) h start = (t, x) :: rest ∧
      children (Nibble.ofFin ⟨t, ht⟩) = some c ∧
      nodeKey.genChildNodeKey c.version (Nibble.ofFin ⟨t, ht⟩) = .ok key ∧ res = some key

/-- The rest of a round of the loop at height `h`, once its sibling is pushed, read off the
children in the half of `n`: no child ends the loop, a half that is one position or holds a lone
leaf ends it at its first child, and any other half goes on to the next height. -/
def roundEnd (hashInternal : H256 → H256 → H256) (placeholder : H256) (node : InternalNode)
    (nodeKey : NodeKey) (n : Nibble) (reader : Option (NodeKey → Except Failure (Node K)))
    (bitmaps : UInt16 × UInt16) (h : Nat) (heights : List UInt8) (siblings : List NodeInProof) :
    Except Failure (Option NodeKey × List NodeInProof) :=
  match entries (childLeaves node.children) h (n.val.toNat / 2 ^ h * 2 ^ h) with
  | [] => .ok (none, siblings)
  | (t, x) :: rest =>
    if h = 0 ∨ (rest = [] ∧ x.2 = true) then do
      let onlyChildIndex ← Nibble.from t.toUInt8
      let onlyChild ← childNamed node.children "child_bitmap" onlyChildIndex
      let childNodeKey ← nodeKey.genChildNodeKey onlyChild.version onlyChildIndex
      pure (some childNodeKey, siblings)
    else getChildWithSiblingsLoop hashInternal placeholder node nodeKey n reader bitmaps heights
      siblings

/-- One round of the loop of `get_child_with_siblings`, at height `h`: it pushes the sibling of
the half of the range around `n` that `n` is in, then reads that half off the children. -/
theorem getChildWithSiblingsLoop_cons (hd : Describes node.children 4 0 bitmaps) {h : Nat}
    (hh : h ≤ 3) (heights : List UInt8) (siblings : List NodeInProof) :
    getChildWithSiblingsLoop hashInternal placeholder node nodeKey n reader bitmaps
        (h.toUInt8 :: heights) siblings =
      siblingInProof hashInternal placeholder node.children
          (getChildAndSiblingHalfStart n h.toUInt8).2 ((1 : UInt8) <<< h.toUInt8) bitmaps reader
          nodeKey >>= fun sibling =>
        roundEnd hashInternal placeholder node nodeKey n reader bitmaps h heights
          (siblings ++ [sibling]) := by
  have hn : n.val.toNat < 2 ^ 4 := n.toNat_lt
  obtain ⟨hchs, -⟩ := getChildAndSiblingHalfStart_spec n (show h < 4 by omega)
  have hw := toNat_one_shiftLeft_u8 (show h < 8 by omega)
  simp only [getChildWithSiblingsLoop]
  generalize getChildAndSiblingHalfStart n h.toUInt8 = pair at hchs ⊢
  obtain ⟨childHalfStart, siblingHalfStart⟩ := pair
  simp only at hchs ⊢
  -- the child's half is an aligned range of width `2 ^ h` inside the sixteen children
  have hcalign : childHalfStart.toNat % 2 ^ h = 0 := by rw [hchs]; exact Nat.mul_mod_left _ _
  have hcfit : childHalfStart.toNat + 2 ^ h ≤ 16 := by
    rw [hchs]; exact aligned_add_le hn (show h ≤ 4 by omega)
  have hcd : Describes node.children h childHalfStart.toNat bitmaps :=
    hd.sub (Nat.zero_le _) (by omega)
  congr 1
  funext sibling
  rw [rangeBitmaps_of_aligned bitmaps hw (by omega) hcalign hcfit, Control.ok_bind, roundEnd, ← hchs]
  cases he : entries (childLeaves node.children) h childHalfStart.toNat with
  | nil =>
    rw [rangeShape_of_nil hcd hw hcfit he]
    rfl
  | cons entry rest =>
    obtain ⟨t, x⟩ := entry
    rw [rangeShape_of_cons hcd hw hcfit he]
    by_cases hstop : h = 0 ∨ (rest = [] ∧ x.2 = true)
    · simp only [if_pos hstop]
    · simp only [if_neg hstop]

/-- The half of `n` where a round ends stops the abstract proof; where it goes on, it does not. -/
theorem roundEnd_eq_ok {h : Nat} {heights : List UInt8} {siblings out : List NodeInProof}
    {res : Option NodeKey}
    (hok : roundEnd hashInternal placeholder node nodeKey n reader bitmaps h heights siblings =
      .ok (res, out)) :
    (stops placeholder (childLeaves node.children) h (n.val.toNat / 2 ^ h * 2 ^ h) = true ∧
        out = siblings ∧ EndsAt node.children nodeKey h (n.val.toNat / 2 ^ h * 2 ^ h) res) ∨
      (stops placeholder (childLeaves node.children) h (n.val.toNat / 2 ^ h * 2 ^ h) = false ∧
        getChildWithSiblingsLoop hashInternal placeholder node nodeKey n reader bitmaps heights
          siblings = .ok (res, out)) := by
  unfold roundEnd at hok
  cases he : entries (childLeaves node.children) h (n.val.toNat / 2 ^ h * 2 ^ h) with
  | nil =>
    rw [he] at hok
    cases hok
    refine .inl ⟨?_, rfl, .inl ⟨rfl, he⟩⟩
    simp [stops, he, collapse]
  | cons entry rest =>
    obtain ⟨t, x⟩ := entry
    rw [he] at hok
    by_cases hstop : h = 0 ∨ (rest = [] ∧ x.2 = true)
    · -- the proof ends at the half's first child
      simp only [if_pos hstop] at hok
      obtain ⟨-, -, htx⟩ := mem_entries.mp (he ▸ List.mem_cons_self)
      obtain ⟨ht, c, hc, rfl⟩ := childLeaves_eq_some htx
      simp only [Nibble.from_toUInt8 ht, Control.ok_bind, childNamed, hc] at hok
      obtain ⟨key, hkey, hok⟩ := Control.bind_eq_ok_iff.mp hok
      cases hok
      exact .inl ⟨(stops_iff_of_cons he).mpr hstop, rfl,
        .inr ⟨t, _, rest, ht, c, key, he, hc, hkey, rfl⟩⟩
    · simp only [if_neg hstop] at hok
      exact .inr ⟨Bool.eq_false_iff.mpr fun hs => hstop ((stops_iff_of_cons he).mp hs), hok⟩

/-- The sibling's half of a round at height `h ≤ 3` is an aligned range of width `2 ^ h` inside
the sixteen children. -/
theorem siblingHalf_mem (n : Nibble) {h : Nat} (hh : h ≤ 3) :
    (getChildAndSiblingHalfStart n h.toUInt8).2.toNat % 2 ^ h = 0 ∧
      (getChildAndSiblingHalfStart n h.toUInt8).2.toNat + 2 ^ h ≤ 16 := by
  have hn : n.val.toNat < 2 ^ 4 := n.toNat_lt
  obtain ⟨-, hshs⟩ := getChildAndSiblingHalfStart_spec n (show h < 4 by omega)
  obtain ⟨hsalign, -, hsfit⟩ := half_mem (!n.val.toNat.testBit h)
    (Nat.mul_mod_left (n.val.toNat / 2 ^ (h + 1)) (2 ^ (h + 1)))
  have hparent := aligned_add_le hn (show h + 1 ≤ 4 by omega)
  rw [hshs]
  exact ⟨hsalign, by omega⟩

/-- The sibling a round pushes stands for the hash of the other half of the range around `n`. -/
theorem siblingInProof_hash (hsound : SiblingsSound hashInternal placeholder hashLeaf node.children
      reader nodeKey bitmaps) {h : Nat} (hh : h ≤ 3) {sibling : NodeInProof}
    (hsib : siblingInProof hashInternal placeholder node.children
      (getChildAndSiblingHalfStart n h.toUInt8).2 ((1 : UInt8) <<< h.toUInt8) bitmaps reader
      nodeKey = .ok sibling) :
    sibling.hash hashLeaf = subtree hashInternal placeholder (childLeaves node.children) h
      (half (!n.val.toNat.testBit h) h (n.val.toNat / 2 ^ (h + 1) * 2 ^ (h + 1))) := by
  obtain ⟨-, hshs⟩ := getChildAndSiblingHalfStart_spec n (show h < 4 by omega)
  obtain ⟨halign, hfit⟩ := siblingHalf_mem n hh
  rw [← hshs]
  exact hsound h hh _ _ (toNat_one_shiftLeft_u8 (by omega)) halign hfit sibling hsib

/-- The heights the loop has left, from `h` down to 0. -/
def heightsFrom (h : Nat) : List UInt8 := (List.range (h + 1)).reverse.map Nat.toUInt8

theorem heightsFrom_succ (h : Nat) : heightsFrom (h + 1) = (h + 1).toUInt8 :: heightsFrom h := by
  simp [heightsFrom, List.range_succ]

/-- The abstract proof for nibble `n` from the aligned range of height `h + 1` around it. -/
def nibbleCut (hashInternal : H256 → H256 → H256) (placeholder : H256)
    (children : Nibble → Option Child) (n : Nibble) (h : Nat) : Cut H256 :=
  descend hashInternal placeholder (childLeaves children) n.val.toNat (h + 1)
    (n.val.toNat / 2 ^ (h + 1) * 2 ^ (h + 1))

theorem nibbleCut_of_stops {h : Nat}
    (hs : stops placeholder (childLeaves node.children) h (n.val.toNat / 2 ^ h * 2 ^ h) = true) :
    nibbleCut hashInternal placeholder node.children n h =
      ⟨[(n.val.toNat.testBit h, subtree hashInternal placeholder (childLeaves node.children) h
          (half (!n.val.toNat.testBit h) h (n.val.toNat / 2 ^ (h + 1) * 2 ^ (h + 1))))],
        h, n.val.toNat / 2 ^ h * 2 ^ h⟩ := by
  have hhalf := half_testBit_div n.val.toNat h
  rw [← hhalf] at hs
  rw [nibbleCut, descend_of_stops hs, hhalf]

theorem nibbleCut_succ_of_not_stops {h : Nat}
    (hs : stops placeholder (childLeaves node.children) (h + 1)
      (n.val.toNat / 2 ^ (h + 1) * 2 ^ (h + 1)) = false) :
    nibbleCut hashInternal placeholder node.children n (h + 1) =
      ⟨(n.val.toNat.testBit (h + 1), subtree hashInternal placeholder (childLeaves node.children)
          (h + 1) (half (!n.val.toNat.testBit (h + 1)) (h + 1)
            (n.val.toNat / 2 ^ (h + 2) * 2 ^ (h + 2)))) ::
          (nibbleCut hashInternal placeholder node.children n h).path,
        (nibbleCut hashInternal placeholder node.children n h).height,
        (nibbleCut hashInternal placeholder node.children n h).start⟩ := by
  have hhalf := half_testBit_div n.val.toNat (h + 1)
  rw [← hhalf] at hs
  rw [nibbleCut, descend_of_not_stops hs, hhalf]
  rfl

/-- The loop from height `h` pushes the siblings of the abstract proof from height `h + 1`, and
ends where that proof stops. -/
theorem getChildWithSiblingsLoop_spec (hd : Describes node.children 4 0 bitmaps)
    (hsound : SiblingsSound hashInternal placeholder hashLeaf node.children reader nodeKey bitmaps) :
    ∀ h, h ≤ 3 → ∀ siblings res out,
      getChildWithSiblingsLoop hashInternal placeholder node nodeKey n reader bitmaps
          (heightsFrom h) siblings = .ok (res, out) →
        out.map (NodeInProof.hash hashLeaf) = siblings.map (NodeInProof.hash hashLeaf) ++
            (nibbleCut hashInternal placeholder node.children n h).path.map Prod.snd ∧
          EndsAt node.children nodeKey (nibbleCut hashInternal placeholder node.children n h).height
            (nibbleCut hashInternal placeholder node.children n h).start res := by
  intro h
  induction h with
  | zero =>
    intro _ siblings res out hok
    rw [show heightsFrom 0 = (0 : Nat).toUInt8 :: [] from rfl,
      getChildWithSiblingsLoop_cons hd (by omega)] at hok
    obtain ⟨sibling, hsib, hok⟩ := Control.bind_eq_ok_iff.mp hok
    have hhash := siblingInProof_hash hsound (by omega) hsib
    obtain ⟨hs, rfl, hends⟩ | ⟨hs, -⟩ := roundEnd_eq_ok hok
    · rw [nibbleCut_of_stops hs]
      exact ⟨by simp [hhash], hends⟩
    · -- a range of one position always stops the proof
      simp [stops] at hs
  | succ h ih =>
    intro hh siblings res out hok
    rw [heightsFrom_succ, getChildWithSiblingsLoop_cons hd hh] at hok
    obtain ⟨sibling, hsib, hok⟩ := Control.bind_eq_ok_iff.mp hok
    have hhash := siblingInProof_hash hsound hh hsib
    obtain ⟨hs, rfl, hends⟩ | ⟨hs, hok⟩ := roundEnd_eq_ok hok
    · rw [nibbleCut_of_stops hs]
      exact ⟨by simp [hhash], hends⟩
    · obtain ⟨hout, hends⟩ := ih (by omega) _ res out hok
      rw [nibbleCut_succ_of_not_stops hs]
      refine ⟨?_, hends⟩
      rw [hout]
      simp [hhash]

/-- The siblings a round pushes without a reader are found. -/
theorem siblingInProof_none_ok {h : Nat} (hd : Describes node.children 4 0 bitmaps) (hh : h ≤ 3) :
    ∃ sibling, siblingInProof hashInternal placeholder node.children
      (getChildAndSiblingHalfStart n h.toUInt8).2 ((1 : UInt8) <<< h.toUInt8) bitmaps
      (none : Option (NodeKey → Except Failure (Node K))) nodeKey = .ok sibling := by
  obtain ⟨halign, hfit⟩ := siblingHalf_mem n hh
  rw [siblingInProof, merkleHash_eq_subtree h (by omega) _ _ bitmaps
    (toNat_one_shiftLeft_u8 (by omega)) halign hfit (hd.sub (Nat.zero_le _) (by omega))]
  exact ⟨_, rfl⟩

/-- The siblings a round pushes with a reader that has the node's leaves are found. -/
theorem siblingInProof_some_ok {reader : NodeKey → Except Failure (Node K)} {h : Nat}
    (hd : Describes node.children 4 0 bitmaps) (hkey : nodeKey.nibblePath.WellFormed)
    (hlen : nodeKey.nibblePath.numNibbles < rootNibbleHeight)
    (hreads : ReadsLeaves node.children nodeKey reader) (hh : h ≤ 3) :
    ∃ sibling, siblingInProof hashInternal placeholder node.children
      (getChildAndSiblingHalfStart n h.toUInt8).2 ((1 : UInt8) <<< h.toUInt8) bitmaps
      (some reader) nodeKey = .ok sibling := by
  obtain ⟨halign, hfit⟩ := siblingHalf_mem n hh
  exact genNodeInProof_ok hd hkey hlen hreads hh (toNat_one_shiftLeft_u8 (by omega)) halign hfit

/-- A round ends without a failure when its child can be keyed, and otherwise goes on to a loop
that returns. -/
theorem roundEnd_ok {h : Nat} {heights : List UInt8} {siblings : List NodeInProof}
    (hkey : nodeKey.nibblePath.WellFormed) (hlen : nodeKey.nibblePath.numNibbles < rootNibbleHeight)
    (hgo : h ≠ 0 → ∃ r, getChildWithSiblingsLoop hashInternal placeholder node nodeKey n reader
      bitmaps heights siblings = .ok r) :
    ∃ r, roundEnd hashInternal placeholder node nodeKey n reader bitmaps h heights siblings =
      .ok r := by
  unfold roundEnd
  cases he : entries (childLeaves node.children) h (n.val.toNat / 2 ^ h * 2 ^ h) with
  | nil => exact ⟨_, rfl⟩
  | cons entry rest =>
    obtain ⟨t, x⟩ := entry
    by_cases hstop : h = 0 ∨ (rest = [] ∧ x.2 = true)
    · simp only [if_pos hstop]
      obtain ⟨-, -, htx⟩ := mem_entries.mp (he ▸ List.mem_cons_self)
      obtain ⟨ht, c, hc, -⟩ := childLeaves_eq_some htx
      obtain ⟨q, hpush, -⟩ := NibblePath.push_spec hkey hlen (Nibble.ofFin ⟨t, ht⟩)
      simp only [Nibble.from_toUInt8 ht, Control.ok_bind, childNamed, hc, NodeKey.genChildNodeKey,
        hpush]
      exact ⟨_, rfl⟩
    · simp only [if_neg hstop]
      exact hgo fun h0 => hstop (.inl h0)

/-- For a node key that takes one more nibble, the loop returns from every height once every
sibling it pushes is found. -/
theorem getChildWithSiblingsLoop_ok (hd : Describes node.children 4 0 bitmaps)
    (hkey : nodeKey.nibblePath.WellFormed) (hlen : nodeKey.nibblePath.numNibbles < rootNibbleHeight)
    (hsib : ∀ h, h ≤ 3 → ∃ sibling, siblingInProof hashInternal placeholder node.children
      (getChildAndSiblingHalfStart n h.toUInt8).2 ((1 : UInt8) <<< h.toUInt8) bitmaps reader
      nodeKey = .ok sibling) :
    ∀ h, h ≤ 3 → ∀ siblings, ∃ r, getChildWithSiblingsLoop hashInternal placeholder node nodeKey n
      reader bitmaps (heightsFrom h) siblings = .ok r := by
  intro h
  induction h with
  | zero =>
    intro _ siblings
    rw [show heightsFrom 0 = (0 : Nat).toUInt8 :: [] from rfl,
      getChildWithSiblingsLoop_cons hd (by omega)]
    -- a round at height 0 always ends
    exact Control.exists_bind_eq_ok (hsib 0 (by omega))
      fun _ => roundEnd_ok hkey hlen fun h0 => absurd rfl h0
  | succ h ih =>
    intro hh siblings
    rw [heightsFrom_succ, getChildWithSiblingsLoop_cons hd hh]
    exact Control.exists_bind_eq_ok (hsib (h + 1) hh)
      fun _ => roundEnd_ok hkey hlen fun _ => ih (by omega) _

end Loop

/-! ### The proof for a nibble -/

section Proofs

variable {K : Type} {hashInternal : H256 → H256 → H256} {placeholder : H256}
  {hashLeaf : SparseMerkleLeafNode → H256} {children : Nibble → Option Child} {node : InternalNode}
  {nodeKey : NodeKey} {n : Nibble} {reader : Option (NodeKey → Except Failure (Node K))}

/-- The hash a verifier folds from the siblings of a proof for nibble `n`, top first, each on the
side the next bit of `n` does not name, over the hash `cur` where the proof stops. -/
def proofRoot (hashInternal : H256 → H256 → H256) (hashLeaf : SparseMerkleLeafNode → H256)
    (n : Nibble) (siblings : List NodeInProof) (cur : H256) : H256 :=
  climb hashInternal ((bitsDown n.val.toNat 4 siblings.length).zip
    (siblings.map (NodeInProof.hash hashLeaf))) cur

/-- What a proof for nibble `n` shows of an internal node: it has at most four siblings, and they
fold back to the node's hash over the placeholder, when no child is returned and `n` has none, or
over the child at `m` whose node key is returned. That child is the child of `n` at the end of
all four bits, or a lone leaf in the range of `n` where the proof stops, which is the child of
`n` or a range where `n` has none. -/
def ProvesChild (hashInternal : H256 → H256 → H256) (placeholder : H256)
    (hashLeaf : SparseMerkleLeafNode → H256) (node : InternalNode) (nodeKey : NodeKey) (n : Nibble)
    (res : Option NodeKey) (siblings : List NodeInProof) : Prop :=
  siblings.length ≤ 4 ∧
    ((res = none ∧ node.children n = none ∧
        node.hash hashInternal placeholder = .ok (proofRoot hashInternal hashLeaf n siblings placeholder)) ∨
      ∃ m c key, res = some key ∧ node.children m = some c ∧
        nodeKey.genChildNodeKey c.version m = .ok key ∧
        ((m = n ∧ siblings.length = 4) ∨
          (c.isLeaf = true ∧ (m = n ∨ node.children n = none) ∧
            m.val.toNat / 2 ^ (4 - siblings.length) = n.val.toNat / 2 ^ (4 - siblings.length))) ∧
        node.hash hashInternal placeholder = .ok (proofRoot hashInternal hashLeaf n siblings c.hash))

theorem childLeaves_nibble (m : Nibble) :
    childLeaves children m.val.toNat = (children m).map fun c => (c.hash, c.isLeaf) := by
  rw [childLeaves, dif_pos m.toNat_lt,
    show Nibble.ofFin ⟨m.val.toNat, m.toNat_lt⟩ = m from Nibble.equivFin.left_inv m]

/-- The values at the sixteen positions, in order, are those of the node's children. -/
theorem map_snd_entries_childLeaves :
    (entries (childLeaves children) 4 0).map Prod.snd =
      (childValues children).map fun c => (c.hash, c.isLeaf) := by
  rw [entries, List.map_filterMap, childValues, Nibble.all, List.filterMap_map, List.map_filterMap,
    ← List.map_coe_finRange_eq_range, List.filterMap_map]
  refine List.filterMap_congr fun i _ => ?_
  simp [childLeaves]

/-- The children of a node that `new_impl` built do not collapse: there is one, and a lone child
is not a leaf. -/
theorem collapse_childLeaves_of_newImpl (hnew : InternalNode.newImpl children = .ok node)
    (empty : H256) : collapse empty (entries (childLeaves children) 4 0) = none := by
  obtain ⟨⟨⟩, hne, hnew⟩ := Control.bind_eq_ok_iff.mp hnew
  obtain ⟨⟨⟩, honly, -⟩ := Control.bind_eq_ok_iff.mp hnew
  have hvals : (entries (childLeaves children) 4 0).map Prod.snd =
      (childValues children).map fun c => (c.hash, c.isLeaf) := map_snd_entries_childLeaves
  rcases he : entries (childLeaves children) 4 0 with _ | ⟨⟨t, a, b⟩, _ | ⟨y, rest⟩⟩
  · rw [he, List.map_nil, eq_comm, List.map_eq_nil_iff] at hvals
    exact absurd hvals (of_ensure_eq_ok hne)
  · cases b with
    | false => rfl
    | true =>
      rw [he, List.map_singleton, eq_comm, List.map_eq_singleton_iff] at hvals
      obtain ⟨c, hc, hx⟩ := hvals
      rw [hc] at honly
      simp only [Prod.mk.injEq] at hx
      simp [checkOnlyChild, ensure, hx.2] at honly
  · simp [collapse]

/-- The proof `get_child_with_siblings` returns for a node that `new_impl` built, from siblings
that hash as their ranges do, proves the child it ends at. -/
theorem provesChild_of_getChildWithSiblings (hnew : InternalNode.newImpl children = .ok node)
    (hsound : ∀ bitmaps, node.generateBitmaps = .ok bitmaps →
      SiblingsSound hashInternal placeholder hashLeaf node.children reader nodeKey bitmaps)
    {res : Option NodeKey} {siblings : List NodeInProof}
    (hok : getChildWithSiblings hashInternal placeholder node nodeKey n reader = .ok (res, siblings)) :
    ProvesChild hashInternal placeholder hashLeaf node nodeKey n res siblings := by
  obtain ⟨rfl, -, -⟩ := newImpl_spec hnew
  obtain ⟨bitmaps, hgen, hok⟩ := Control.bind_eq_ok_iff.mp hok
  have hn := n.toNat_lt
  obtain ⟨hout, hends⟩ := getChildWithSiblingsLoop_spec (describes_generateBitmaps hgen)
    (hsound bitmaps hgen) 3 le_rfl [] res siblings hok
  -- the loop starts at the root: the range of all sixteen children
  simp only [nibbleCut, Nat.reduceAdd, Nat.reducePow, Nat.div_eq_of_lt hn, Nat.zero_mul, List.map_nil,
    List.nil_append] at hout hends
  have hreach : Reaches n.val.toNat 4
      (descend hashInternal placeholder (childLeaves node.children) n.val.toNat 4 0) :=
    reaches_descend n.val.toNat 3 0 rfl (Nat.zero_le _) hn
  have hclimb : climb hashInternal
      (descend hashInternal placeholder (childLeaves node.children) n.val.toNat 4 0).path
      (subtree hashInternal placeholder (childLeaves node.children)
        (descend hashInternal placeholder (childLeaves node.children) n.val.toNat 4 0).height
        (descend hashInternal placeholder (childLeaves node.children) n.val.toNat 4 0).start) =
      subtree hashInternal placeholder (childLeaves node.children) 4 0 :=
    climb_descend n.val.toNat 3 0 (collapse_childLeaves_of_newImpl hnew placeholder)
  have hstops : stops placeholder (childLeaves node.children)
      (descend hashInternal placeholder (childLeaves node.children) n.val.toNat 4 0).height
      (descend hashInternal placeholder (childLeaves node.children) n.val.toNat 4 0).start = true :=
    stops_descend n.val.toNat 3 0
  have hroot : node.hash hashInternal placeholder =
      .ok (subtree hashInternal placeholder (childLeaves node.children) 4 0) :=
    InternalNode.hash_eq_subtree node
  rw [← hclimb] at hroot
  generalize descend hashInternal placeholder (childLeaves node.children) n.val.toNat 4 0 = cut
    at hout hends hreach hroot hstops
  -- the siblings are the path of the abstract proof, on the sides the bits of `n` name
  have hlen : siblings.length = cut.path.length := by simpa using congrArg List.length hout
  have hpath : (bitsDown n.val.toNat 4 siblings.length).zip
      (siblings.map (NodeInProof.hash hashLeaf)) = cut.path := by
    rw [hout, hlen, ← hreach.bits]
    exact (List.zip_of_prod rfl rfl).symm
  have hlen4 : siblings.length ≤ 4 := by have := hreach.length_add; omega
  have hchild : childLeaves node.children n.val.toNat =
      (node.children n).map fun c => (c.hash, c.isLeaf) := childLeaves_nibble n
  refine ⟨hlen4, ?_⟩
  rcases hends with ⟨rfl, hnil⟩ | ⟨t, x, rest, ht, c, key, he, hc, hkey, rfl⟩
  · -- the range where the proof stops is empty, and holds `n`
    have hnone := entries_eq_nil_iff.mp hnil _ hreach.start_le hreach.lt_end
    rw [hchild, Option.map_eq_none_iff] at hnone
    rw [subtree_of_entries_eq_nil hnil] at hroot
    exact .inl ⟨rfl, hnone, by rw [proofRoot, hpath]; exact hroot⟩
  · -- the proof stops at the first child of its range
    obtain ⟨htlo, hthi, htx⟩ := mem_entries.mp (he ▸ List.mem_cons_self)
    obtain ⟨_, c', hc', rfl⟩ := childLeaves_eq_some htx
    rw [hc] at hc'
    cases hc'
    rw [subtree_of_stops hstops he] at hroot
    refine .inr ⟨Nibble.ofFin ⟨t, ht⟩, c, key, rfl, hc, hkey, ?_, by rw [proofRoot, hpath]; exact hroot⟩
    have htn : t = n.val.toNat → Nibble.ofFin ⟨t, ht⟩ = n := fun heq =>
      Nibble.eq_of_toNat (by rw [Nibble.toNat_ofFin]; exact heq)
    have hheight : 4 - siblings.length = cut.height := by have := hreach.length_add; omega
    rcases (stops_iff_of_cons he).mp hstops with h0 | ⟨rfl, hleaf⟩
    · -- a range of one position is the position of `n`, below all four bits
      have hlo := hreach.start_le
      have hhi := hreach.lt_end
      rw [h0, Nat.pow_zero] at hhi hthi
      exact .inl ⟨htn (by omega), by omega⟩
    · -- a lone leaf in the range of `n`: the child of `n` when `n` has one
      have hside : (Nibble.ofFin ⟨t, ht⟩).val.toNat / 2 ^ (4 - siblings.length) =
          n.val.toNat / 2 ^ (4 - siblings.length) := by
        rw [Nibble.toNat_ofFin, hheight, div_eq_of_mem_aligned hreach.aligned htlo hthi,
          div_eq_of_mem_aligned hreach.aligned hreach.start_le hreach.lt_end]
      refine .inr ⟨hleaf, ?_, hside⟩
      cases hcn : node.children n with
      | none => exact .inr rfl
      | some cn =>
        rw [hcn] at hchild
        exact .inl (htn (eq_of_entries_eq_singleton he hreach.start_le hreach.lt_end hchild).1.symm)

/-- Without a reader, `get_child_with_siblings` returns a proof for every nibble of an internal
node that `new_impl` built, under a node key that takes one more nibble, and the proof proves the
child it returns. -/
theorem getChildWithSiblings_none (hnew : InternalNode.newImpl children = .ok node)
    (hkey : nodeKey.nibblePath.WellFormed)
    (hlen : nodeKey.nibblePath.numNibbles < rootNibbleHeight) (n : Nibble) :
    ∃ res siblings, getChildWithSiblings hashInternal placeholder node nodeKey n
        (none : Option (NodeKey → Except Failure (Node K))) = .ok (res, siblings) ∧
      ProvesChild hashInternal placeholder hashLeaf node nodeKey n res siblings := by
  obtain ⟨e, l, hgen, -, -⟩ := generateBitmaps_spec node
  have hd := describes_generateBitmaps hgen
  obtain ⟨⟨res, siblings⟩, hloop⟩ : ∃ r, getChildWithSiblingsLoop hashInternal placeholder node
      nodeKey n (none : Option (NodeKey → Except Failure (Node K))) (e, l) (heightsFrom 3) [] = .ok r :=
    getChildWithSiblingsLoop_ok hd hkey hlen (fun _ hh => siblingInProof_none_ok hd hh) 3 le_rfl []
  have hok : getChildWithSiblings hashInternal placeholder node nodeKey n
      (none : Option (NodeKey → Except Failure (Node K))) = .ok (res, siblings) := by
    rw [getChildWithSiblings, hgen, Control.ok_bind]
    exact hloop
  exact ⟨res, siblings, hok, provesChild_of_getChildWithSiblings hnew
    (fun _ hgen' => siblingsSound_none (describes_generateBitmaps hgen')) hok⟩

theorem getChildWithSiblings_none_two_leaves :
    ∃ node, InternalNode.newImpl (fun m => if m.val < 2 then
          some ⟨⟨List.replicate 32 m.val, by simp⟩, 0, .leaf⟩ else none) = .ok node ∧
      (⟨0, ⟨0, []⟩⟩ : NodeKey).nibblePath.WellFormed ∧
      (⟨0, ⟨0, []⟩⟩ : NodeKey).nibblePath.numNibbles < rootNibbleHeight ∧
      ∃ res siblings, getChildWithSiblings (fun a _ => a) ⟨List.replicate 32 0, by simp⟩ node
          ⟨0, ⟨0, []⟩⟩ (Nibble.ofFin 1) (none : Option (NodeKey → Except Failure (Node Unit))) =
          .ok (res, siblings) ∧
        ProvesChild (fun a _ => a) ⟨List.replicate 32 0, by simp⟩ SparseMerkleLeafNode.key node
          ⟨0, ⟨0, []⟩⟩ (Nibble.ofFin 1) res siblings :=
  have hnew : InternalNode.newImpl (fun m => if m.val < 2 then
      some ⟨⟨List.replicate 32 m.val, by simp⟩, 0, .leaf⟩ else none) =
      .ok ⟨fun m => if m.val < 2 then some ⟨⟨List.replicate 32 m.val, by simp⟩, 0, .leaf⟩ else none,
        2⟩ := by decide
  have hkey : (⟨0, ⟨0, []⟩⟩ : NodeKey).nibblePath.WellFormed := by decide
  have hlen : (⟨0, ⟨0, []⟩⟩ : NodeKey).nibblePath.numNibbles < rootNibbleHeight := by decide
  ⟨_, hnew, hkey, hlen, getChildWithSiblings_none hnew hkey hlen (Nibble.ofFin 1)⟩

/-- With a tree reader that has the node's leaves, `get_child_with_siblings` returns for every
nibble of an internal node, under a node key that takes one more nibble. -/
theorem getChildWithSiblings_some_ok {reader : NodeKey → Except Failure (Node K)}
    (hkey : nodeKey.nibblePath.WellFormed) (hlen : nodeKey.nibblePath.numNibbles < rootNibbleHeight)
    (hreads : ReadsLeaves node.children nodeKey reader) (n : Nibble) :
    ∃ r, getChildWithSiblings hashInternal placeholder node nodeKey n (some reader) = .ok r := by
  obtain ⟨e, l, hgen, -, -⟩ := generateBitmaps_spec node
  have hd := describes_generateBitmaps hgen
  rw [getChildWithSiblings, hgen, Control.ok_bind]
  exact getChildWithSiblingsLoop_ok hd hkey hlen
    (fun _ hh => siblingInProof_some_ok hd hkey hlen hreads hh) 3 le_rfl []

/-- With a tree reader that stores the leaves the node records, what `get_child_with_siblings`
returns for a node that `new_impl` built proves the child it returns: the leaves read into the
proof hash as the node says. -/
theorem getChildWithSiblings_some {reader : NodeKey → Except Failure (Node K)}
    (hnew : InternalNode.newImpl children = .ok node)
    (hstore : StoresLeaves hashLeaf node.children nodeKey reader) {res : Option NodeKey}
    {siblings : List NodeInProof}
    (hok : getChildWithSiblings hashInternal placeholder node nodeKey n (some reader) =
      .ok (res, siblings)) :
    ProvesChild hashInternal placeholder hashLeaf node nodeKey n res siblings :=
  provesChild_of_getChildWithSiblings hnew
    (fun _ hgen => siblingsSound_some (describes_generateBitmaps hgen) hstore) hok

end Proofs

end Hemvm.Jellyfish
