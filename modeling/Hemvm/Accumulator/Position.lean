import Hemvm.Merkle.Perfect
import Hemvm.Control.Except

/-! `Position` (`types/src/proof/position/mod.rs`): a node of the accumulator's binary tree,
named by its in-order index in a `u64`, and the bit manipulations that move from a node to its
parent, children and sibling. The release profile of the workspace keeps `overflow-checks`, so
`+`, `-` and the shifts by a variable amount panic where they would leave the `u64` range;
`isolate_rightmost_zero_bit` alone adds with `overflowing_add`, and a shift by less than the width
drops the bits it pushes out. `parent`, `child`, `is_left_child` and `sibling` assert that the
index is below `u64::MAX - 1`, which every node but the last leaf of the tree of `2 ^ 63` leaves
is. On the index `MerkleTree.inorder level pos` of a node whose leaves lie among the first
`2 ^ 63`, each manipulation returns what its name says (`Position.ofNode`). -/
namespace Hemvm.Accumulator
open MerkleTree Control

/-- How a call ends when it does not return `Ok`: with the error of a read (`?`) or of an
`ensure!`, or in a panic (a failed `assert!`, `assert_eq!` or `expect`, or arithmetic that
overflows, with the text it reports). -/
inductive Failure where
  | error (msg : String)
  | panic (msg : String)
deriving DecidableEq, Repr

/-- `assert!(cond)`. -/
def assertion (cond : Prop) [Decidable cond] (text : String) : Except Failure Unit :=
  if cond then .ok () else .error (.panic ("assertion failed: " ++ text))

/-- `a + b` on `u64`, which panics past `u64::MAX`. -/
def addChecked (a b : UInt64) : Except Failure UInt64 :=
  if a.toNat + b.toNat < 2 ^ 64 then .ok (a + b)
  else .error (.panic "attempt to add with overflow")

/-- `a - b` on `u64`, which panics below zero. -/
def subChecked (a b : UInt64) : Except Failure UInt64 :=
  if b ≤ a then .ok (a - b) else .error (.panic "attempt to subtract with overflow")

/-- `v << n` on `u64`, which panics for a shift by the width or more. -/
def shlChecked (v : UInt64) (n : Nat) : Except Failure UInt64 :=
  if n < 64 then .ok (v <<< n.toUInt64) else .error (.panic "attempt to shift left with overflow")

/-- `v >> n` on `u64`, which panics for a shift by the width or more. -/
def shrChecked (v : UInt64) (n : Nat) : Except Failure UInt64 :=
  if n < 64 then .ok (v >>> n.toUInt64) else .error (.panic "attempt to shift right with overflow")

/-- `u64::trailing_zeros`. -/
def trailingZeros (v : UInt64) : Nat := Bits.ctz 64 v.toNat

/-- `u64::count_ones`. -/
def countOnes (v : UInt64) : Nat := Bits.countOnes 64 v.toNat

/-- `turn_off_right_most_n_bits`; its `debug_assert!(n < 64)` is off in a release build, and the
shifts check the amount instead. -/
def turnOffRightMostNBits (v : UInt64) (n : Nat) : Except Failure UInt64 := do
  let shifted ← shrChecked v n
  shlChecked shifted n

/-- `isolate_rightmost_zero_bit`, with the wrapping `overflowing_add`. -/
def isolateRightmostZeroBit (v : UInt64) : UInt64 := ~~~v &&& (v + 1)

/-- `children_of_node`. -/
def childrenOfNode (node : UInt64) : Except Failure UInt64 :=
  subChecked (isolateRightmostZeroBit node <<< 1) 2

/-- `nodes_to_left_of`. -/
def nodesToLeftOf (node : UInt64) : Except Failure UInt64 := do
  let onesUpToLevel ← subChecked (isolateRightmostZeroBit node) 1
  let unsetLevelZeros := node ^^^ onesUpToLevel
  subChecked unsetLevelZeros (countOnes unsetLevelZeros).toUInt64

/-- `inorder_to_postorder`. -/
def inorderToPostorder (node : UInt64) : Except Failure UInt64 := do
  let children ← childrenOfNode node
  let leftNodes ← nodesToLeftOf node
  addChecked children leftNodes

/-- `Position(u64)`. -/
structure Position where
  val : UInt64
deriving DecidableEq, Repr

/-- `NodeDirection`. -/
inductive NodeDirection where
  | left
  | right
deriving DecidableEq, Repr

namespace Position

/-- `Position::level`. -/
def level (p : Position) : Nat := trailingZeros (~~~p.val)

/-- `Position::is_leaf`. -/
def isLeaf (p : Position) : Bool := p.val &&& 1 == 0

/-- `Position::from_level_and_pos`; once `level < 64` holds, no shift in it reaches the width. -/
def fromLevelAndPos (level : Nat) (pos : UInt64) : Except Failure Position := do
  assertion (level < 64) "level < 64"
  assertion (0 < (1 : UInt64) <<< level.toUInt64) "1u64 << level > 0"
  let levelOneBits ← subChecked ((1 : UInt64) <<< level.toUInt64) 1
  let shiftedPos := if level = 63 then 0 else pos <<< (level + 1).toUInt64
  pure ⟨shiftedPos ||| levelOneBits⟩

/-- `Position::to_inorder_index`. -/
def toInorderIndex (p : Position) : UInt64 := p.val

/-- `Position::to_postorder_index`. -/
def toPostorderIndex (p : Position) : Except Failure UInt64 := inorderToPostorder p.toInorderIndex

/-- The `assert!(self.0 < u64::max_value() - 1)` of the moves, the invariant of `Position`. -/
def assertInvariant (p : Position) : Except Failure Unit :=
  assertion (p.val.toNat < 2 ^ 64 - 2) "self.0 < u64::max_value() - 1"

/-- `Position::parent`. -/
def parent (p : Position) : Except Failure Position := do
  p.assertInvariant
  pure ⟨(p.val ||| isolateRightmostZeroBit p.val) &&& ~~~(isolateRightmostZeroBit p.val <<< 1)⟩

/-- `Position::child`. -/
def child (p : Position) (dir : NodeDirection) : Except Failure Position := do
  assertion (p.isLeaf = false) "!self.is_leaf()"
  p.assertInvariant
  let directionBit := match dir with
    | .left => 0
    | .right => isolateRightmostZeroBit p.val
  pure ⟨(p.val ||| directionBit) &&& ~~~(isolateRightmostZeroBit p.val >>> 1)⟩

/-- `Position::left_child`. -/
def leftChild (p : Position) : Except Failure Position := do
  assertion (p.isLeaf = false) "!self.is_leaf()"
  p.child .left

/-- `Position::right_child`. -/
def rightChild (p : Position) : Except Failure Position := do
  assertion (p.isLeaf = false) "!self.is_leaf()"
  p.child .right

/-- `Position::is_left_child`. -/
def isLeftChild (p : Position) : Except Failure Bool := do
  p.assertInvariant
  pure (p.val &&& (isolateRightmostZeroBit p.val <<< 1) == 0)

/-- `Position::is_right_child`. -/
def isRightChild (p : Position) : Except Failure Bool := do
  let isLeft ← p.isLeftChild
  pure !isLeft

/-- `Position::from_leaf_index`. -/
def fromLeafIndex (leafIndex : UInt64) : Except Failure Position := fromLevelAndPos 0 leafIndex

/-- `Position::sibling`. -/
def sibling (p : Position) : Except Failure Position := do
  p.assertInvariant
  pure ⟨p.val ^^^ (isolateRightmostZeroBit p.val <<< 1)⟩

/-- `Position::right_most_child`. -/
def rightMostChild (p : Position) : Except Failure Position := do
  let shifted ← shlChecked 1 p.level
  let sum ← addChecked p.val shifted
  let rightMost ← subChecked sum 1
  pure ⟨rightMost⟩

/-- `Position::left_most_child`. -/
def leftMostChild (p : Position) : Except Failure Position := do
  let leftMost ← turnOffRightMostNBits p.val p.level
  pure ⟨leftMost⟩

/-- `Position::is_freezable`. -/
def isFreezable (p : Position) (leafIndex : UInt64) : Except Failure Bool := do
  let leaf ← fromLeafIndex leafIndex
  let rightMostChild ← p.rightMostChild
  pure (decide (rightMostChild.val ≤ leaf.val))

/-- `Position::is_placeholder`. -/
def isPlaceholder (p : Position) (leafIndex : UInt64) : Except Failure Bool := do
  let leaf ← fromLeafIndex leafIndex
  if p.val ≤ leaf.val then pure false
  else do
    let leftMostChild ← p.leftMostChild
    if leftMostChild.val ≤ leaf.val then pure false else pure true

/-- The node at `level` with `pos` nodes to its left on that level. -/
def ofNode (level pos : Nat) : Position := ⟨UInt64.ofNat (inorder level pos)⟩

end Position

/-- The loop of `postorder_to_inorder` with `i` passes left, the next for bit `i - 1`: when the
perfect tree of `fullBinarySize` nodes fits in `node`, it is subtracted and the bit recorded. The
subtraction is guarded and the shifts are below the width, so the loop cannot panic. -/
def postorderToInorderLoop : Nat → UInt64 → UInt64 → UInt64 → UInt64 × UInt64
  | 0, node, _, bitmap => (node, bitmap)
  | i + 1, node, fullBinarySize, bitmap =>
    if node ≥ fullBinarySize then
      postorderToInorderLoop i (node - fullBinarySize) (fullBinarySize >>> 1)
        (bitmap ||| (1 : UInt64) <<< i.toUInt64)
    else postorderToInorderLoop i node (fullBinarySize >>> 1) bitmap

/-- `postorder_to_inorder`; `node as u32` keeps the low 32 bits. -/
def postorderToInorder (node : UInt64) : Except Failure UInt64 := do
  let (node, bitmap) := postorderToInorderLoop 64 node (~~~0) 0
  let level := node.toUInt32.toNat
  let pos ← shrChecked bitmap level
  let p ← Position.fromLevelAndPos level pos
  pure p.toInorderIndex

/-- `Position::from_postorder_index`. -/
def Position.fromPostorderIndex (index : UInt64) : Except Failure Position :=
  if index < ~~~0 then do
    let inorder ← postorderToInorder index
    pure ⟨inorder⟩
  else .error (.error ("node index " ++ toString index ++ " is invalid (equal to 2^64 - 1)"))

section Checked

variable {a b v : UInt64} {n : Nat}

theorem assertion_of_pos {cond : Prop} [Decidable cond] (h : cond) (text : String) :
    assertion cond text = .ok () := if_pos h

theorem assertion_eq_ok_iff {cond : Prop} [Decidable cond] {text : String} {u : Unit} :
    assertion cond text = .ok u ↔ cond := by
  unfold assertion
  split <;> simp_all

theorem addChecked_of_lt (h : a.toNat + b.toNat < 2 ^ 64) : addChecked a b = .ok (a + b) := if_pos h

theorem subChecked_of_le (h : b ≤ a) : subChecked a b = .ok (a - b) := if_pos h

theorem subChecked_of_lt (h : a < b) :
    subChecked a b = .error (.panic "attempt to subtract with overflow") :=
  if_neg (UInt64.not_le.mpr h)

theorem shrChecked_of_lt (v : UInt64) (h : n < 64) : shrChecked v n = .ok (v >>> n.toUInt64) :=
  if_pos h

theorem eq_ofNat_of_toNat {x : UInt64} {m : Nat} (h : x.toNat = m) : x = UInt64.ofNat m := by
  rw [← h, UInt64.ofNat_toNat]

theorem toNat_ofNat_length {n : Nat} (h : n < 2 ^ 64) : (UInt64.ofNat n).toNat = n := by
  rw [UInt64.toNat_ofNat', Nat.mod_eq_of_lt h]

theorem toNat_sub_one {n : UInt64} (h1 : 1 ≤ n.toNat) : (n - 1).toNat = n.toNat - 1 := by
  rw [UInt64.toNat_sub_of_le _ _ (UInt64.le_iff_toNat_le.mpr (by rw [UInt64.toNat_one]; exact h1)),
    UInt64.toNat_one]

theorem subChecked_one {n : UInt64} (h1 : 1 ≤ n.toNat) : subChecked n 1 = .ok (n - 1) :=
  subChecked_of_le (UInt64.le_iff_toNat_le.mpr (by rw [UInt64.toNat_one]; exact h1))

end Checked

section Word

variable {v : UInt64} {s : Nat}

theorem toNat_not (v : UInt64) : (~~~v).toNat = 2 ^ 64 - 1 - v.toNat := UInt64.toNat_not v

theorem complement_lt_two_pow (x : Nat) : 2 ^ 64 - 1 - x < 2 ^ 64 := by
  have := Nat.two_pow_pos 64
  omega

theorem two_pow_succ_div_two (l : Nat) : 2 ^ (l + 1) / 2 = 2 ^ l := by
  rw [Nat.pow_succ, Nat.mul_div_cancel _ Nat.two_pos]

theorem toNat_toUInt64 (hs : s < 2 ^ 64) : s.toUInt64.toNat = s := by
  rw [Nat.toUInt64_eq, UInt64.toNat_ofNat', Nat.mod_eq_of_lt hs]

theorem toNat_shiftLeft_toUInt64 (hs : s < 64) :
    (v <<< s.toUInt64).toNat = v.toNat * 2 ^ s % 2 ^ 64 := by
  rw [UInt64.toNat_shiftLeft, toNat_toUInt64 (by omega), Nat.mod_eq_of_lt hs, Nat.shiftLeft_eq]

theorem toNat_shiftRight_toUInt64 (hs : s < 64) : (v >>> s.toUInt64).toNat = v.toNat / 2 ^ s := by
  rw [UInt64.toNat_shiftRight, toNat_toUInt64 (by omega), Nat.mod_eq_of_lt hs,
    Nat.shiftRight_eq_div_pow]

theorem toNat_shiftLeft_one : (v <<< 1).toNat = v.toNat * 2 % 2 ^ 64 := by
  simp [UInt64.toNat_shiftLeft, Nat.shiftLeft_eq]

theorem toNat_shiftRight_one : (v >>> 1).toNat = v.toNat / 2 := by
  simp [UInt64.toNat_shiftRight, Nat.shiftRight_eq_div_pow]

theorem toNat_one_shiftLeft (hs : s < 64) : ((1 : UInt64) <<< s.toUInt64).toNat = 2 ^ s := by
  rw [toNat_shiftLeft_toUInt64 hs, UInt64.toNat_one, Nat.one_mul,
    Nat.mod_eq_of_lt (Nat.pow_lt_pow_right Nat.one_lt_two hs)]

end Word

namespace Position

/-- The leaves of the node at `level` and `pos` lie among the first `2 ^ 63`. -/
def Fits (level pos : Nat) : Prop := (pos + 1) * 2 ^ level ≤ 2 ^ 63

/-- The node at `level` and `pos` is not the last leaf `2 ^ 63 - 1`, whose index `u64::MAX - 1`
the moves refuse. -/
def NotLast (level pos : Nat) : Prop := 0 < level ∨ pos + 1 < 2 ^ 63

section Fits

variable {level pos : Nat}

theorem fits_iff : Fits level pos ↔ level ≤ 63 ∧ pos + 1 ≤ 2 ^ (63 - level) := by
  constructor
  · intro h
    have hl : level ≤ 63 := by
      by_contra hl
      have : 2 ^ 64 ≤ 2 ^ level := Nat.pow_le_pow_right Nat.two_pos (by omega)
      have : 2 ^ level ≤ (pos + 1) * 2 ^ level := Nat.le_mul_of_pos_left _ (by omega)
      unfold Fits at h
      omega
    refine ⟨hl, Nat.le_of_mul_le_mul_right ?_ (Nat.two_pow_pos level)⟩
    rwa [← Nat.pow_add, Nat.sub_add_cancel hl]
  · rintro ⟨hl, hp⟩
    unfold Fits
    calc (pos + 1) * 2 ^ level ≤ 2 ^ (63 - level) * 2 ^ level := Nat.mul_le_mul_right _ hp
      _ = 2 ^ 63 := by rw [← Nat.pow_add, Nat.sub_add_cancel hl]

theorem Fits.inorder_lt (h : Fits level pos) : inorder level pos < 2 ^ 64 - 1 :=
  (inorder_lt_iff (w := 64) (by have := (fits_iff.mp h).1; omega)).mpr h

/-- The parent of a node below the top level fits as well. -/
theorem Fits.parent (h : Fits level pos) (hl : level < 63) : Fits (level + 1) (pos / 2) := by
  obtain ⟨-, hp⟩ := fits_iff.mp h
  have hsplit : 2 ^ (63 - level) = 2 * 2 ^ (63 - (level + 1)) := by
    rw [← Nat.pow_succ']
    congr 1
    omega
  exact fits_iff.mpr ⟨by omega, by omega⟩

end Fits

section OfNode

variable {level pos : Nat}

theorem val_toNat_ofNode (h : Fits level pos) : (ofNode level pos).val.toNat = inorder level pos := by
  have := h.inorder_lt
  rw [ofNode, UInt64.toNat_ofNat', Nat.mod_eq_of_lt (by omega)]

theorem toNat_isolateRightmostZeroBit_ofNode (h : Fits level pos) :
    (isolateRightmostZeroBit (ofNode level pos).val).toNat = 2 ^ level := by
  have hx := h.inorder_lt
  have hl := (fits_iff.mp h).1
  unfold isolateRightmostZeroBit
  rw [UInt64.toNat_and, toNat_not, UInt64.toNat_add, val_toNat_ofNode h, UInt64.toNat_one,
    Nat.mod_eq_of_lt (by omega)]
  apply Nat.eq_of_testBit_eq
  intro i
  rw [Nat.testBit_and, Bits.testBit_two_pow_sub_one_sub (by omega), testBit_inorder,
    testBit_inorder_add_one, Nat.testBit_two_pow]
  rcases Nat.lt_trichotomy i level with hi | rfl | hi
  · simp [hi, Nat.ne_of_gt hi, Nat.not_lt.mpr (Nat.le_of_lt hi)]
  · simp [show i < 64 by omega]
  · cases pos.testBit (i - (level + 1)) <;> simp [hi, Nat.ne_of_lt hi, Nat.ne_of_gt hi]

theorem level_ofNode (h : Fits level pos) : (ofNode level pos).level = level := by
  have hx := h.inorder_lt
  have hl := (fits_iff.mp h).1
  unfold Position.level trailingZeros
  rw [toNat_not, val_toNat_ofNode h]
  apply Bits.ctz_eq_of_testBit (by omega)
  · intro i hi
    rw [Bits.testBit_two_pow_sub_one_sub (by omega), testBit_inorder]
    simp [hi]
  · rw [Bits.testBit_two_pow_sub_one_sub (by omega), testBit_inorder]
    simp [show level < 64 by omega]

theorem eq_of_val_toNat {p q : Position} (h : p.val.toNat = q.val.toNat) : p = q := by
  cases p
  cases q
  exact congrArg Position.mk (UInt64.ext h)

theorem Fits.lt_two_pow (h : Fits level pos) : inorder level pos < 2 ^ 64 := by
  have := h.inorder_lt
  omega

theorem inorder_zero (i : Nat) : inorder 0 i = 2 * i := by
  unfold inorder
  simp only [Nat.zero_add, Nat.pow_one, Nat.pow_zero]
  omega

/-- In numbers: `inorder level pos = 2 * (pos * 2 ^ level) + 2 ^ level - 1`. -/
theorem inorder_eq_two_mul (level pos : Nat) :
    inorder level pos = 2 * (pos * 2 ^ level) + 2 ^ level - 1 := by
  unfold inorder
  rw [Nat.pow_succ, show pos * (2 ^ level * 2) = 2 * (pos * 2 ^ level) by ac_rfl]

/-- Every node but the last leaf lies below `u64::MAX - 1`. -/
theorem val_toNat_ofNode_lt (h : Fits level pos) (hn : NotLast level pos) :
    (ofNode level pos).val.toNat < 2 ^ 64 - 2 := by
  have hpow := Nat.two_pow_pos level
  have hfit : pos * 2 ^ level + 2 ^ level ≤ 2 ^ 63 := by
    unfold Fits at h
    rwa [Nat.succ_mul] at h
  rw [val_toNat_ofNode h, inorder_eq_two_mul]
  rcases Nat.eq_zero_or_pos level with rfl | hl
  · -- a leaf keeps off `u64::MAX - 1` only by not being the last one
    have hp : pos + 1 < 2 ^ 63 := hn.resolve_left (Nat.lt_irrefl 0)
    simp only [Nat.pow_zero, Nat.mul_one]
    omega
  · have : 2 ≤ 2 ^ level := Nat.le_self_pow (by omega) 2
    omega

theorem notLast_of_val_toNat_lt (h : Fits level pos)
    (hv : (ofNode level pos).val.toNat < 2 ^ 64 - 2) : NotLast level pos := by
  rcases Nat.eq_zero_or_pos level with rfl | hl
  · rw [val_toNat_ofNode h, inorder_zero] at hv
    exact .inr (by omega)
  · exact .inl hl

theorem assertInvariant_eq_ok_iff {p : Position} {u : Unit} :
    p.assertInvariant = .ok u ↔ p.val.toNat < 2 ^ 64 - 2 := assertion_eq_ok_iff

theorem assertInvariant_ofNode (h : Fits level pos) (hn : NotLast level pos) :
    (ofNode level pos).assertInvariant = .ok () :=
  assertion_of_pos (val_toNat_ofNode_lt h hn) _

/-- `parent` sets the bit of the level and clears the one above it. -/
theorem parent_ofNode (h : Fits level pos) (hl : level < 63) (hn : NotLast level pos) :
    (ofNode level pos).parent = .ok (ofNode (level + 1) (pos / 2)) := by
  have hp := h.parent hl
  have h2 : 2 ^ level * 2 % 2 ^ 64 = 2 ^ (level + 1) := by
    rw [← Nat.pow_succ, Nat.mod_eq_of_lt (Nat.pow_lt_pow_right Nat.one_lt_two (by omega))]
  rw [parent, assertInvariant_ofNode h hn, ok_bind]
  refine congrArg Except.ok (eq_of_val_toNat ?_)
  rw [UInt64.toNat_and, UInt64.toNat_or, toNat_not, toNat_shiftLeft_one,
    toNat_isolateRightmostZeroBit_ofNode h, val_toNat_ofNode h, val_toNat_ofNode hp, h2]
  apply Bits.eq_of_testBit_lt (w := 64) (Nat.lt_of_le_of_lt Nat.and_le_right (by omega))
    hp.lt_two_pow
  intro i hi
  rw [Nat.testBit_and, Nat.testBit_or, Bits.testBit_two_pow_sub_one_sub
    (Nat.pow_lt_pow_right Nat.one_lt_two (by omega)), testBit_inorder, testBit_inorder,
    Nat.testBit_two_pow, Nat.testBit_two_pow, Nat.testBit_div_two]
  rcases Nat.lt_trichotomy i level with hi' | rfl | hi'
  · simp [hi', show i < level + 1 by omega, hi, show level + 1 ≠ i by omega]
  · simp [hi]
  · by_cases he : i = level + 1
    · subst he
      simp
    · simp [hi, hi', show ¬ i < level by omega, show ¬ i < level + 1 by omega,
        show level + 1 < i by omega, show level ≠ i by omega, Ne.symm he,
        show i - (level + 1 + 1) + 1 = i - (level + 1) by omega]

theorem testBit_two_mul_add {m b : Nat} (hb : b < 2) (j : Nat) :
    (2 * m + b).testBit j = if j = 0 then decide (b = 1) else m.testBit (j - 1) := by
  have := Nat.testBit_two_pow_mul_add m (i := 1) (b := b) (by omega) j
  rw [Nat.pow_one] at this
  rw [this]
  rcases Nat.eq_zero_or_pos j with rfl | hj
  · rcases (by omega : b = 0 ∨ b = 1) with rfl | rfl <;> simp
  · simp [show ¬ j < 1 by omega, show j ≠ 0 by omega]

/-- A node is a left child exactly when it has an even number of nodes to its left. -/
theorem isLeftChild_ofNode (h : Fits level pos) (hl : level < 63) (hn : NotLast level pos) :
    (ofNode level pos).isLeftChild = .ok (decide (pos % 2 = 0)) := by
  have h2 : 2 ^ level * 2 % 2 ^ 64 = 2 ^ (level + 1) := by
    rw [← Nat.pow_succ, Nat.mod_eq_of_lt (Nat.pow_lt_pow_right Nat.one_lt_two (by omega))]
  -- the bit above the level is the lowest bit of `pos`
  have hand : inorder level pos &&& 2 ^ (level + 1) = if pos % 2 = 1 then 2 ^ (level + 1) else 0 := by
    apply Nat.eq_of_testBit_eq
    intro i
    rw [Nat.testBit_and, Nat.testBit_two_pow, testBit_inorder]
    by_cases hi : i = level + 1
    · subst hi
      split <;> simp_all [Nat.testBit_zero]
    · split <;> simp [Ne.symm hi]
  rw [isLeftChild, assertInvariant_ofNode h hn, ok_bind]
  refine congrArg Except.ok ?_
  rw [Bool.eq_iff_iff, beq_iff_eq, decide_eq_true_iff, ← UInt64.toNat_inj, UInt64.toNat_and,
    toNat_shiftLeft_one, toNat_isolateRightmostZeroBit_ofNode h, val_toNat_ofNode h, h2, hand,
    UInt64.toNat_zero]
  have := Nat.two_pow_pos (level + 1)
  split <;> omega

/-- A node is a right child exactly when it has an odd number of nodes to its left. -/
theorem isRightChild_ofNode (h : Fits level pos) (hn : NotLast level pos) :
    (ofNode level pos).isRightChild = .ok (decide (pos % 2 = 1)) := by
  rcases Nat.lt_or_ge level 63 with hl | hl
  · rw [isRightChild, isLeftChild_ofNode h hl hn, ok_bind]
    refine congrArg Except.ok ?_
    rcases Nat.mod_two_eq_zero_or_one pos with h0 | h1
    · simp [h0]
    · simp [h1]
  · -- the top node is the only one of its level
    obtain ⟨hl', hp⟩ := fits_iff.mp h
    obtain rfl : level = 63 := by omega
    obtain rfl : pos = 0 := by simp at hp; omega
    decide

theorem Fits.child (h : Fits (level + 1) pos) {b : Nat} (hb : b < 2) :
    Fits level (2 * pos + b) := by
  unfold Fits at h ⊢
  calc (2 * pos + b + 1) * 2 ^ level ≤ (2 * pos + 1 + 1) * 2 ^ level :=
        Nat.mul_le_mul_right _ (by omega)
    _ = (pos + 1) * 2 ^ (level + 1) := succ_mul_two_pow_succ
    _ ≤ 2 ^ 63 := h

/-- Setting the bit of the level to `b` and clearing the bit below it moves to a child. -/
theorem inorder_child_bits {b : Nat} (h : Fits (level + 1) pos) (hb : b < 2) :
    (inorder (level + 1) pos ||| b * 2 ^ (level + 1)) &&& (2 ^ 64 - 1 - 2 ^ level) =
      inorder level (2 * pos + b) := by
  have hl := (fits_iff.mp h).1
  apply Bits.eq_of_testBit_lt (w := 64)
    (Nat.lt_of_le_of_lt Nat.and_le_right (complement_lt_two_pow _)) (h.child hb).lt_two_pow
  intro i hi
  rw [Nat.testBit_and, Nat.testBit_or, Bits.testBit_two_pow_sub_one_sub
    (Nat.pow_lt_pow_right Nat.one_lt_two (by omega)), testBit_inorder, testBit_inorder,
    Nat.testBit_mul_two_pow, Nat.testBit_two_pow, testBit_two_mul_add hb]
  rcases Nat.lt_trichotomy i level with hi' | rfl | hi'
  · simp [hi', show i < level + 1 by omega, hi, show level ≠ i by omega,
      show ¬ level + 1 ≤ i by omega]
  · simp
  · by_cases he : i = level + 1
    · subst he
      rcases (by omega : b = 0 ∨ b = 1) with rfl | rfl <;> simp [hi]
    · have h2 : 2 ≤ 2 ^ (i - (level + 1)) :=
        Nat.pow_le_pow_right Nat.two_pos (show 1 ≤ i - (level + 1) by omega)
      have hbit : b.testBit (i - (level + 1)) = false :=
        Nat.testBit_lt_two_pow (Nat.lt_of_lt_of_le hb h2)
      simp [hi, hi', hbit, show ¬ i < level by omega, show ¬ i < level + 1 by omega,
        show level + 1 < i by omega, show level ≠ i by omega, show level + 1 ≤ i by omega,
        show i - (level + 1) ≠ 0 by omega, show i - (level + 1) - 1 = i - (level + 1 + 1) by omega]

/-- Only leaves have a clear lowest bit. -/
theorem isLeaf_ofNode (h : Fits level pos) : (ofNode level pos).isLeaf = decide (level = 0) := by
  have hbit := @testBit_inorder level pos 0
  rw [Nat.testBit_zero] at hbit
  unfold isLeaf
  rw [Bool.eq_iff_iff, beq_iff_eq, decide_eq_true_iff, ← UInt64.toNat_inj, UInt64.toNat_and,
    val_toNat_ofNode h, UInt64.toNat_one, UInt64.toNat_zero, Nat.and_one_is_mod]
  rcases Nat.eq_zero_or_pos level with hl | hl
  · simp [hl] at hbit ⊢
    omega
  · simp [hl, Nat.ne_of_gt hl] at hbit ⊢
    omega

theorem isLeaf_ofNode_succ (h : Fits (level + 1) pos) : (ofNode (level + 1) pos).isLeaf = false := by
  rw [isLeaf_ofNode h]
  simp

theorem child_left_ofNode (h : Fits (level + 1) pos) :
    (ofNode (level + 1) pos).child .left = .ok (ofNode level (2 * pos)) := by
  have hc : Fits level (2 * pos) := h.child (b := 0) (by omega)
  rw [child, assertion_of_pos (isLeaf_ofNode_succ h), ok_bind,
    assertInvariant_ofNode h (.inl (Nat.succ_pos level)), ok_bind]
  refine congrArg Except.ok (eq_of_val_toNat ?_)
  rw [UInt64.toNat_and, UInt64.toNat_or, toNat_not, toNat_shiftRight_one,
    toNat_isolateRightmostZeroBit_ofNode h, val_toNat_ofNode h, val_toNat_ofNode hc,
    two_pow_succ_div_two, UInt64.toNat_zero]
  have := inorder_child_bits (b := 0) h (by omega)
  rwa [Nat.zero_mul, Nat.add_zero] at this

theorem child_right_ofNode (h : Fits (level + 1) pos) :
    (ofNode (level + 1) pos).child .right = .ok (ofNode level (2 * pos + 1)) := by
  rw [child, assertion_of_pos (isLeaf_ofNode_succ h), ok_bind,
    assertInvariant_ofNode h (.inl (Nat.succ_pos level)), ok_bind]
  refine congrArg Except.ok (eq_of_val_toNat ?_)
  rw [UInt64.toNat_and, UInt64.toNat_or, toNat_not, toNat_shiftRight_one,
    toNat_isolateRightmostZeroBit_ofNode h, val_toNat_ofNode h, val_toNat_ofNode (h.child
    (b := 1) (by omega)), two_pow_succ_div_two]
  have := inorder_child_bits (b := 1) h (by omega)
  rwa [Nat.one_mul] at this

/-- Below level 64 the assertions of `from_level_and_pos` hold and it returns the bits. -/
theorem fromLevelAndPos_of_lt {level : Nat} (hl : level < 64) (pos : UInt64) :
    fromLevelAndPos level pos = .ok ⟨(if level = 63 then 0 else pos <<< (level + 1).toUInt64) |||
      ((1 : UInt64) <<< level.toUInt64 - 1)⟩ := by
  have hone : ((1 : UInt64) <<< level.toUInt64).toNat = 2 ^ level := toNat_one_shiftLeft hl
  have hpos : 0 < (1 : UInt64) <<< level.toUInt64 := by
    rw [UInt64.lt_iff_toNat_lt, hone, UInt64.toNat_zero]
    exact Nat.two_pow_pos level
  rw [fromLevelAndPos, assertion_of_pos hl, ok_bind, assertion_of_pos hpos, ok_bind,
    subChecked_one (by rw [hone]; exact Nat.one_le_two_pow), ok_bind]
  rfl

/-- Below the top level, a node has `2 ^ (level + 1) - 2` nodes in its subtree besides itself. -/
theorem childrenOfNode_ofNode (h : Fits level pos) (hl : level < 63) :
    childrenOfNode (ofNode level pos).val = .ok (UInt64.ofNat (2 ^ (level + 1) - 2)) := by
  have hshift : (isolateRightmostZeroBit (ofNode level pos).val <<< 1).toNat = 2 ^ (level + 1) := by
    rw [toNat_shiftLeft_one, toNat_isolateRightmostZeroBit_ofNode h, ← Nat.pow_succ,
      Nat.mod_eq_of_lt (Nat.pow_lt_pow_right Nat.one_lt_two (by omega))]
  have hle : (2 : UInt64) ≤ isolateRightmostZeroBit (ofNode level pos).val <<< 1 :=
    UInt64.le_iff_toNat_le.mpr (by rw [hshift]; exact Nat.le_self_pow (by omega) 2)
  rw [childrenOfNode, subChecked_of_le hle]
  refine congrArg Except.ok (eq_ofNat_of_toNat ?_)
  rw [UInt64.toNat_sub_of_le _ _ hle, hshift]
  rfl

/-- The bits of `pos` shifted above the level: the index with the level's ones cleared. -/
theorem inorder_xor_ones (level pos : Nat) :
    inorder level pos ^^^ (2 ^ level - 1) = pos * 2 ^ (level + 1) := by
  apply Nat.eq_of_testBit_eq
  intro i
  rw [Nat.testBit_xor, testBit_inorder, Nat.testBit_two_pow_sub_one, Nat.testBit_mul_two_pow]
  by_cases hi : i < level
  · simp [hi, show ¬ level + 1 ≤ i by omega]
  · by_cases he : i = level
    · subst he
      simp
    · simp [hi, show level < i by omega, show level + 1 ≤ i by omega]

/-- `nodes_to_left_of`: one node fewer than the `pos * 2 ^ (level + 1)` indices to the left for
every right turn on the way down. -/
theorem nodesToLeftOf_ofNode (h : Fits level pos) :
    nodesToLeftOf (ofNode level pos).val =
      .ok (UInt64.ofNat (pos * 2 ^ (level + 1) - Bits.countOnes 64 pos)) := by
  obtain ⟨hl, hp⟩ := fits_iff.mp h
  have hpow1 := Nat.two_pow_pos (level + 1)
  have h64 : 2 ^ 64 = 2 ^ (level + 1) * 2 ^ (63 - level) := by
    rw [← Nat.pow_add]
    congr 1
    omega
  have hpc : Bits.countOnes 64 (pos * 2 ^ (level + 1)) = Bits.countOnes 64 pos := by
    -- the low `level + 1` bits are clear and `pos` has no bit from `63 - level` up
    have hsplit := Bits.countOnes_add (level + 1) (63 - level) (pos * 2 ^ (level + 1))
    rw [show level + 1 + (63 - level) = 64 by omega, Nat.mul_div_cancel _ hpow1,
      ← Bits.countOnes_mod_two_pow (level + 1), Nat.mul_mod_left, Bits.countOnes_zero_right,
      Nat.zero_add] at hsplit
    rw [hsplit, Bits.countOnes_of_lt_two_pow (k := 63 - level) (w := 64) (by omega) (by omega)]
  have hfit : (pos + 1) * 2 ^ (level + 1) ≤ 2 ^ 64 := by
    rw [h64, Nat.mul_comm]
    exact Nat.mul_le_mul_left _ hp
  have hpos64 : pos < 2 ^ 64 := by
    rw [Nat.succ_mul] at hfit
    exact Nat.lt_of_le_of_lt (Nat.le_mul_of_pos_right pos hpow1) (by omega)
  have hcle := Bits.countOnes_le 64 pos
  have hpcle : Bits.countOnes 64 pos ≤ pos * 2 ^ (level + 1) :=
    Nat.le_trans hcle (Nat.le_mul_of_pos_right pos hpow1)
  have hiso := toNat_isolateRightmostZeroBit_ofNode h
  have hones : (isolateRightmostZeroBit (ofNode level pos).val - 1).toNat = 2 ^ level - 1 := by
    rw [toNat_sub_one (by rw [hiso]; exact Nat.one_le_two_pow), hiso]
  have hxor : ((ofNode level pos).val ^^^ (isolateRightmostZeroBit (ofNode level pos).val - 1)).toNat
      = pos * 2 ^ (level + 1) := by
    rw [UInt64.toNat_xor, hones, val_toNat_ofNode h, inorder_xor_ones]
  have hcount : (countOnes ((ofNode level pos).val ^^^
      (isolateRightmostZeroBit (ofNode level pos).val - 1))).toUInt64.toNat =
      Bits.countOnes 64 pos := by
    rw [countOnes, hxor, hpc, toNat_toUInt64 (by omega)]
  have hle : (countOnes ((ofNode level pos).val ^^^
      (isolateRightmostZeroBit (ofNode level pos).val - 1))).toUInt64 ≤
      (ofNode level pos).val ^^^ (isolateRightmostZeroBit (ofNode level pos).val - 1) :=
    UInt64.le_iff_toNat_le.mpr (by rw [hcount, hxor]; exact hpcle)
  rw [nodesToLeftOf, subChecked_one (by rw [hiso]; exact Nat.one_le_two_pow), ok_bind]
  dsimp only
  rw [subChecked_of_le hle]
  refine congrArg Except.ok (eq_ofNat_of_toNat ?_)
  rw [UInt64.toNat_sub_of_le _ _ hle, hcount, hxor]

/-- `inorder_to_postorder`: a node below the top level follows its own subtree and every subtree
complete to its left. -/
theorem toPostorderIndex_ofNode (h : Fits level pos) (hl : level < 63) :
    (ofNode level pos).toPostorderIndex =
      .ok (UInt64.ofNat ((pos + 1) * 2 ^ (level + 1) - 2 - Bits.countOnes 64 pos)) := by
  obtain ⟨-, hp⟩ := fits_iff.mp h
  have hpow1 := Nat.two_pow_pos (level + 1)
  have h2 : 2 ≤ 2 ^ (level + 1) := Nat.le_self_pow (by omega) 2
  have hfit : (pos + 1) * 2 ^ (level + 1) ≤ 2 ^ 64 := by
    have h64 : 2 ^ 64 = 2 ^ (level + 1) * 2 ^ (63 - level) := by
      rw [← Nat.pow_add]
      congr 1
      omega
    rw [h64, Nat.mul_comm]
    exact Nat.mul_le_mul_left _ hp
  have hpcle : Bits.countOnes 64 pos ≤ pos * 2 ^ (level + 1) :=
    Nat.le_trans (Bits.countOnes_le 64 pos) (Nat.le_mul_of_pos_right pos hpow1)
  have h64 : 2 ^ (level + 1) < 2 ^ 64 := Nat.pow_lt_pow_right Nat.one_lt_two (by omega)
  have hc : (UInt64.ofNat (2 ^ (level + 1) - 2)).toNat = 2 ^ (level + 1) - 2 :=
    toNat_ofNat_length (by omega)
  have hn : (UInt64.ofNat (pos * 2 ^ (level + 1) - Bits.countOnes 64 pos)).toNat =
      pos * 2 ^ (level + 1) - Bits.countOnes 64 pos := by
    rw [Nat.succ_mul] at hfit
    exact toNat_ofNat_length (by omega)
  rw [Nat.succ_mul] at hfit ⊢
  rw [toPostorderIndex, toInorderIndex, inorderToPostorder, childrenOfNode_ofNode h hl, ok_bind,
    nodesToLeftOf_ofNode h, ok_bind, addChecked_of_lt (by rw [hc, hn]; omega)]
  refine congrArg Except.ok (eq_ofNat_of_toNat ?_)
  rw [UInt64.toNat_add, hc, hn, Nat.mod_eq_of_lt (by omega)]
  omega

/-- The top node has no level above it to shift into: `children_of_node` subtracts `2` from `0`. -/
theorem toPostorderIndex_root :
    (ofNode 63 0).toPostorderIndex = .error (.panic "attempt to subtract with overflow") := by
  decide

/-- Every index but `u64::MAX` is a node, at the level of its trailing ones. -/
theorem exists_ofNode {p : Position} (hp : p.val.toNat ≠ 2 ^ 64 - 1) :
    ∃ level pos, Fits level pos ∧ p = ofNode level pos := by
  have hx : p.val.toNat < 2 ^ 64 - 1 := by have := p.val.toNat_lt; omega
  obtain ⟨ht, hlow⟩ := Bits.ctz_complement hx
  obtain ⟨t, ht_def⟩ : ∃ t, t = Bits.ctz 64 (2 ^ 64 - 1 - p.val.toNat) := ⟨_, rfl⟩
  rw [← ht_def] at ht hlow
  have hsplit : p.val.toNat = inorder t (p.val.toNat / 2 ^ (t + 1)) := by
    have := Nat.div_add_mod p.val.toNat (2 ^ (t + 1))
    unfold inorder
    rw [hlow, Nat.mul_comm] at this
    have := Nat.two_pow_pos t
    omega
  have hfits : Fits t (p.val.toNat / 2 ^ (t + 1)) :=
    (inorder_lt_iff (w := 64) ht).mp (hsplit ▸ hx)
  refine ⟨t, _, hfits, eq_of_val_toNat ?_⟩
  rw [val_toNat_ofNode hfits, ← hsplit]

/-- An index the moves accept is a node other than the last leaf. -/
theorem exists_ofNode_of_val_lt {p : Position} (hv : p.val.toNat < 2 ^ 64 - 2) :
    ∃ level pos, Fits level pos ∧ NotLast level pos ∧ p = ofNode level pos := by
  obtain ⟨level, pos, h, rfl⟩ := exists_ofNode (p := p) (by omega)
  exact ⟨level, pos, h, notLast_of_val_toNat_lt h hv, rfl⟩

theorem val_toNat_lt_of_isLeftChild {p : Position} {b : Bool} (h : p.isLeftChild = .ok b) :
    p.val.toNat < 2 ^ 64 - 2 := by
  unfold isLeftChild at h
  obtain ⟨u, hu, -⟩ := bind_eq_ok_iff.mp h
  exact assertInvariant_eq_ok_iff.mp hu

theorem val_toNat_lt_of_isRightChild {p : Position} {b : Bool} (h : p.isRightChild = .ok b) :
    p.val.toNat < 2 ^ 64 - 2 := by
  unfold isRightChild at h
  obtain ⟨b', hb', -⟩ := bind_eq_ok_iff.mp h
  exact val_toNat_lt_of_isLeftChild hb'

/-- A right child is a node with an odd number of nodes to its left, below the top level. -/
theorem exists_ofNode_of_isRightChild {p : Position} (hr : p.isRightChild = .ok true) :
    ∃ level pos, Fits level pos ∧ level < 63 ∧ NotLast level pos ∧ pos % 2 = 1 ∧
      p = ofNode level pos := by
  obtain ⟨level, pos, h, hn, rfl⟩ := exists_ofNode_of_val_lt (val_toNat_lt_of_isRightChild hr)
  rw [isRightChild_ofNode h hn, Except.ok.injEq, decide_eq_true_iff] at hr
  have hl : level < 63 := by
    by_contra hl
    obtain ⟨hl', hp⟩ := fits_iff.mp h
    obtain rfl : level = 63 := by omega
    have : pos = 0 := by simp at hp; omega
    omega
  exact ⟨level, pos, h, hl, hn, hr, rfl⟩

/-- Climbing from a right child raises the level. -/
theorem level_lt_parent_of_isRightChild {p q : Position} (hr : p.isRightChild = .ok true)
    (hp : p.parent = .ok q) : p.level < q.level ∧ q.level ≤ 64 := by
  obtain ⟨level, pos, h, hl, hn, -, rfl⟩ := exists_ofNode_of_isRightChild hr
  rw [parent_ofNode h hl hn, Except.ok.injEq] at hp
  subst hp
  rw [level_ofNode h, level_ofNode (h.parent hl)]
  have := (fits_iff.mp (h.parent hl)).1
  omega

/-- `child` accepts exactly the nodes above the leaves. -/
theorem exists_ofNode_of_child {p c : Position} {dir : NodeDirection} (hc : p.child dir = .ok c) :
    ∃ level pos, Fits (level + 1) pos ∧ p = ofNode (level + 1) pos := by
  unfold child at hc
  obtain ⟨u, hleaf, hrest⟩ := bind_eq_ok_iff.mp hc
  obtain ⟨u', hinv, -⟩ := bind_eq_ok_iff.mp hrest
  have hleaf := assertion_eq_ok_iff.mp hleaf
  obtain ⟨level, pos, h, -, rfl⟩ := exists_ofNode_of_val_lt (assertInvariant_eq_ok_iff.mp hinv)
  rw [isLeaf_ofNode h, decide_eq_false_iff_not] at hleaf
  obtain ⟨level, rfl⟩ : ∃ l, level = l + 1 := ⟨level - 1, by omega⟩
  exact ⟨level, pos, h, rfl⟩

/-- Both children of a node are a level lower. -/
theorem level_lt_of_leftChild {p c : Position} (hc : p.leftChild = .ok c) : c.level < p.level := by
  unfold leftChild at hc
  obtain ⟨u, -, hchild⟩ := bind_eq_ok_iff.mp hc
  obtain ⟨level, pos, h, rfl⟩ := exists_ofNode_of_child hchild
  rw [child_left_ofNode h, Except.ok.injEq] at hchild
  subst hchild
  have hc : Fits level (2 * pos) := h.child (b := 0) (by omega)
  rw [level_ofNode h, level_ofNode hc]
  omega

theorem level_lt_of_rightChild {p c : Position} (hc : p.rightChild = .ok c) : c.level < p.level := by
  unfold rightChild at hc
  obtain ⟨u, -, hchild⟩ := bind_eq_ok_iff.mp hc
  obtain ⟨level, pos, h, rfl⟩ := exists_ofNode_of_child hchild
  rw [child_right_ofNode h, Except.ok.injEq] at hchild
  subst hchild
  rw [level_ofNode h, level_ofNode (h.child (b := 1) (by omega))]
  omega

end OfNode

end Position

end Hemvm.Accumulator
