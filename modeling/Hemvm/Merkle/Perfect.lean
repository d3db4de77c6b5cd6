import Mathlib
import Hemvm.Bits.Word

/-! Perfect binary Merkle trees over a list of leaves, padded on the right: a subtree none of
whose leaves is in the list is the `empty` hash and is not hashed further. A node is named by its
level (a leaf is at level 0) and the number `pos` of nodes to its left on that level, so that its
leaves are `pos * 2 ^ level, …, (pos + 1) * 2 ^ level - 1`. The first `n` leaves split into one
perfect subtree for each set bit of `n` (the `peaks`), and a subtree whose leaves are all present
never changes when leaves are appended. Nothing here is specific to one program. -/
namespace MerkleTree

section InOrder

/-- The in-order index of the node at `level` with `pos` nodes to its left: a leaf `i` is `2 * i`
and an inner node is halfway between its leftmost and rightmost leaves. -/
def inorder (level pos : Nat) : Nat := pos * 2 ^ (level + 1) + 2 ^ level - 1

variable {level pos : Nat}

/-- The index of a node at `level` ends in `level` ones, then a zero, then `pos`. -/
theorem testBit_inorder (i : Nat) : (inorder level pos).testBit i =
    (decide (i < level) || (decide (level < i) && pos.testBit (i - (level + 1)))) := by
  have hlow : 2 ^ level - 1 < 2 ^ (level + 1) := by
    have := Nat.two_pow_pos level
    rw [Nat.pow_succ]
    omega
  have hsplit : inorder level pos = 2 ^ (level + 1) * pos + (2 ^ level - 1) := by
    have := Nat.two_pow_pos level
    unfold inorder
    rw [Nat.mul_comm]
    omega
  rw [hsplit, Nat.testBit_two_pow_mul_add pos hlow, Nat.testBit_two_pow_sub_one]
  by_cases hi : i < level + 1
  · by_cases hl : i < level
    · simp [hi, hl]
    · simp [hi, hl, show ¬ level < i by omega]
  · simp [hi, show ¬ i < level by omega, show level < i by omega]

/-- The index after a node's: a one at `level`, zeros below it, and `pos` above it. -/
theorem testBit_inorder_add_one (i : Nat) : (inorder level pos + 1).testBit i =
    (decide (i = level) || (decide (level < i) && pos.testBit (i - (level + 1)))) := by
  have hlow : 2 ^ level < 2 ^ (level + 1) := Nat.pow_lt_pow_right Nat.one_lt_two (Nat.lt_succ_self _)
  have hsplit : inorder level pos + 1 = 2 ^ (level + 1) * pos + 2 ^ level := by
    have := Nat.two_pow_pos level
    unfold inorder
    rw [Nat.mul_comm]
    omega
  rw [hsplit, Nat.testBit_two_pow_mul_add pos hlow, Nat.testBit_two_pow]
  by_cases hi : i < level + 1
  · by_cases hl : i = level
    · simp [hl]
    · simp [hi, hl, show ¬ level < i by omega, Ne.symm hl]
  · simp [hi, show i ≠ level by omega, show level < i by omega]

theorem inorder_add_one : inorder level pos + 1 = 2 ^ level * (2 * pos + 1) := by
  have := Nat.two_pow_pos level
  have hmul : pos * 2 ^ (level + 1) = 2 ^ level * (2 * pos) := by
    rw [Nat.pow_succ]
    ac_rfl
  unfold inorder
  rw [hmul, Nat.mul_add, Nat.mul_one]
  omega

theorem inorder_lt_iff {w : Nat} (hl : level < w) :
    inorder level pos < 2 ^ w - 1 ↔ (pos + 1) * 2 ^ level ≤ 2 ^ (w - 1) := by
  have hw : 2 ^ w = 2 * 2 ^ (w - 1) := by rw [← Nat.pow_succ']; congr 1; omega
  have hlw : 2 ^ (w - 1) = 2 ^ level * 2 ^ (w - 1 - level) := by
    rw [← Nat.pow_add]; congr 1; omega
  have h1 := @inorder_add_one level pos
  -- both sides compare `2 * pos + 1` with the number of level-`level` nodes below `2 ^ w`
  have hpos := Nat.two_pow_pos level
  constructor
  · intro h
    have hlt : 2 ^ level * (2 * pos + 1) < 2 ^ level * (2 * 2 ^ (w - 1 - level)) := by
      rw [← Nat.mul_assoc, Nat.mul_comm (2 ^ level) 2, Nat.mul_assoc, ← hlw, ← hw]
      omega
    have := Nat.lt_of_mul_lt_mul_left hlt
    rw [hlw, Nat.mul_comm (pos + 1)]
    exact Nat.mul_le_mul_left _ (by omega)
  · intro h
    rw [hlw, Nat.mul_comm (pos + 1)] at h
    have := Nat.le_of_mul_le_mul_left h hpos
    have hle : 2 ^ level * (2 * pos + 1) < 2 ^ w := by
      rw [hw, hlw, ← Nat.mul_assoc, Nat.mul_comm 2 (2 ^ level), Nat.mul_assoc]
      exact Nat.mul_lt_mul_of_pos_left (by omega) hpos
    omega

end InOrder

section Subtree

variable {α : Type} (node : α → α → α) (empty : α)

/-- The hash of the subtree of the node at `level` and `pos` over the leaves `L`: `empty` when
none of its leaves is in `L`. -/
def subtree (L : List α) : Nat → Nat → α
  | 0, pos => L[pos]?.getD empty
  | level + 1, pos =>
    if L.length ≤ pos * 2 ^ (level + 1) then empty
    else node (subtree L level (2 * pos)) (subtree L level (2 * pos + 1))

/-- The root of the perfect binary tree of least height over `L`, padded on the right with
`empty` subtrees. -/
def root (L : List α) : α := subtree node empty L (Nat.clog 2 L.length) 0

variable {node empty} {L : List α} {level pos : Nat}

theorem subtree_succ (h : pos * 2 ^ (level + 1) < L.length) :
    subtree node empty L (level + 1) pos =
      node (subtree node empty L level (2 * pos)) (subtree node empty L level (2 * pos + 1)) := by
  simp [subtree, Nat.not_le.mpr h]

/-- The two children of the node at `level + 1` and `pos` cover its leaves. -/
theorem succ_mul_two_pow_succ : (2 * pos + 1 + 1) * 2 ^ level = (pos + 1) * 2 ^ (level + 1) := by
  rw [Nat.pow_succ, show 2 * pos + 1 + 1 = (pos + 1) * 2 by omega, Nat.mul_assoc,
    Nat.mul_comm 2 (2 ^ level)]

/-- A subtree whose leaves are all in `L` is the same over any extension of `L`. -/
theorem subtree_append (M : List α) (h : (pos + 1) * 2 ^ level ≤ L.length) :
    subtree node empty (L ++ M) level pos = subtree node empty L level pos := by
  induction level generalizing pos with
  | zero =>
    have hlt : pos < L.length := by
      rw [Nat.pow_zero, Nat.mul_one] at h
      omega
    simp [subtree, List.getElem?_append_left hlt]
  | succ level ih =>
    have hlt : pos * 2 ^ (level + 1) < L.length := by
      have := Nat.two_pow_pos (level + 1)
      rw [Nat.succ_mul] at h
      omega
    have hlt' : pos * 2 ^ (level + 1) < (L ++ M).length := by
      rw [List.length_append]
      omega
    have hleft : (2 * pos + 1) * 2 ^ level ≤ L.length := by
      have := Nat.two_pow_pos level
      rw [← succ_mul_two_pow_succ] at h
      rw [Nat.succ_mul] at h
      omega
    have hright : (2 * pos + 1 + 1) * 2 ^ level ≤ L.length := by
      rwa [succ_mul_two_pow_succ]
    rw [subtree_succ hlt, subtree_succ hlt', ih hleft, ih hright]

/-- A subtree whose leaves are all among the first `n` is the same over those leaves alone. -/
theorem subtree_take {n : Nat} (h : (pos + 1) * 2 ^ level ≤ n) :
    subtree node empty (L.take n) level pos = subtree node empty L level pos := by
  by_cases hn : n ≤ L.length
  · have hlen : (L.take n).length = n := List.length_take_of_le hn
    have key := @subtree_append α node empty (L.take n) level pos (L.drop n)
      (by rw [hlen]; exact h)
    rw [List.take_append_drop] at key
    exact key.symm
  · rw [List.take_of_length_le (by omega)]

end Subtree

section Height

end Height

section Peaks

/-- The perfect subtrees that the first `n` leaves split into, one for each set bit of `n` from
bit `k` to bit `k + j - 1`, lowest first, as (level, pos): bit `l` stands for the level-`l`
subtree whose rightmost leaf is leaf `n / 2 ^ l * 2 ^ l - 1`. -/
def peaks (n k : Nat) : Nat → List (Nat × Nat)
  | 0 => []
  | j + 1 => (if n.testBit k then [(k, n / 2 ^ k - 1)] else []) ++ peaks n (k + 1) j

variable {n n' k j : Nat}

end Peaks

section Completed

/-- The nodes whose last leaf is leaf `c`, lowest first: leaf `c` and its ancestors up to the
level of the trailing ones of `c`. -/
def completedBy (c : Nat) : List (Nat × Nat) :=
  (List.range (Bits.ctz 64 (2 ^ 64 - 1 - c) + 1)).map fun l => (l, c / 2 ^ l)

variable {c : Nat}

theorem length_completedBy (c : Nat) : (completedBy c).length = Bits.ctz 64 (2 ^ 64 - 1 - c) + 1 := by
  rw [completedBy, List.length_map, List.length_range]

end Completed

end MerkleTree
