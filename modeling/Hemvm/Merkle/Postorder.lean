import Hemvm.Bits.Word

/-! The post-order numbering of a perfect binary tree, for the node at `level` with `pos` nodes
to its left on that level, its leaves counted in a word of width `w`. A node comes after its own
subtree and after every perfect subtree whose leaves all lie to the left of its own; so its
index is read off the set bits of `pos` (`postIndex`), and decoded from the top down by
subtracting the size `2 ^ (i + 1) - 1` of a perfect tree of height `i` whenever it fits
(`decodeLoop`). Nothing here is specific to one program. -/
namespace MerkleTree

/-- The nodes of the perfect subtrees that the first `m` leaves complete: one tree of height `j`
for each set bit `j` of `m`, so `2 m - popcount m`. -/
def forestSize (w m : Nat) : Nat := 2 * m - Bits.countOnes w m

/-- The post-order index of the node at `level` with `pos` nodes to its left on that level: the
subtrees complete to the left of its first leaf, then its own subtree without itself. -/
def postIndex (w level pos : Nat) : Nat := (pos + 1) * 2 ^ (level + 1) - 2 - Bits.countOnes w pos

/-- Greedy decoding of a post-order index over the heights `i - 1, …, 0`: subtract the size of a
perfect tree of each height that fits in what is left, and record its height as a bit. -/
def decodeLoop : Nat → Nat → Nat → Nat × Nat
  | 0, node, bitmap => (node, bitmap)
  | i + 1, node, bitmap =>
    if 2 ^ (i + 1) - 1 ≤ node then decodeLoop i (node - (2 ^ (i + 1) - 1)) (bitmap + 2 ^ i)
    else decodeLoop i node bitmap

section ForestSize

variable {w n M t m : Nat}

/-- A word of width `n + 1` is its top bit `t` above a word `m` of width `n`. -/
theorem exists_two_pow_mul_add (hM : M < 2 ^ (n + 1)) :
    ∃ t m, t < 2 ∧ m < 2 ^ n ∧ M = 2 ^ n * t + m := by
  refine ⟨M / 2 ^ n, M % 2 ^ n, Nat.div_lt_of_lt_mul (by rwa [← Nat.pow_succ]),
    Nat.mod_lt M (Nat.two_pow_pos n), (Nat.div_add_mod M (2 ^ n)).symm⟩

/-- The top bit of a word of width `n + 1` stands for a perfect tree of height `n`. -/
theorem forestSize_two_pow_mul_add (ht : t < 2) (hm : m < 2 ^ n) :
    forestSize (n + 1) (2 ^ n * t + m) = t * (2 ^ (n + 1) - 1) + forestSize n m := by
  have hcount := Bits.countOnes_add n 1 (2 ^ n * t + m)
  rw [← Bits.countOnes_mod_two_pow n, Nat.mul_add_mod, Nat.mod_eq_of_lt hm,
    Nat.mul_add_div (Nat.two_pow_pos n), Nat.div_eq_of_lt hm, Nat.add_zero] at hcount
  have hlow := Bits.countOnes_le n m
  have hpow : 2 ^ (n + 1) = 2 * 2 ^ n := Nat.pow_succ'
  unfold forestSize
  rw [hcount, hpow]
  -- the top bit is a single bit, counted once
  interval_cases t
  · rw [show Bits.countOnes 1 0 = 0 from rfl]
    omega
  · rw [show Bits.countOnes 1 1 = 1 from rfl]
    omega

/-- The forest of a word of width `n` leaves room for `n` more before a tree of height `n`. -/
theorem forestSize_add_le (hM : M < 2 ^ n) : forestSize n M + n ≤ 2 ^ (n + 1) - 2 := by
  induction n generalizing M with
  | zero =>
    obtain rfl : M = 0 := by omega
    rfl
  | succ n ih =>
    obtain ⟨t, m, ht, hm, rfl⟩ := exists_two_pow_mul_add hM
    have hlow := ih hm
    have hpow : 2 ^ (n + 1 + 1) = 2 * 2 ^ (n + 1) := Nat.pow_succ'
    have hpow' : 2 ^ (n + 1) = 2 * 2 ^ n := Nat.pow_succ'
    rw [forestSize_two_pow_mul_add ht hm]
    interval_cases t <;> omega

end ForestSize

section Decode

/-- The greedy loop decodes the forest of a word `M` of width `n` plus a remainder `r` that is
at most every height whose bit `M` leaves clear: it records `M` and leaves `r`. -/
theorem decodeLoop_forestSize_add {n M r : Nat} (hM : M < 2 ^ n)
    (hr : ∀ i < n, M.testBit i = false → r ≤ i) (b : Nat) :
    decodeLoop n (forestSize n M + r) b = (r, b + M) := by
  induction n generalizing M b with
  | zero =>
    obtain rfl : M = 0 := by omega
    rw [show forestSize 0 0 = 0 from rfl, Nat.zero_add]
    rfl
  | succ n ih =>
    obtain ⟨t, m, ht, hm, rfl⟩ := exists_two_pow_mul_add hM
    have hbit : ∀ i, (2 ^ n * t + m).testBit i = if i < n then m.testBit i else t.testBit (i - n) :=
      Nat.testBit_two_pow_mul_add t hm
    have hbits : ∀ i < n, m.testBit i = false → r ≤ i := fun i hi hclear =>
      hr i (by omega) (by rw [hbit, if_pos hi, hclear])
    have hpow : 2 ^ (n + 1) = 2 * 2 ^ n := Nat.pow_succ'
    rw [forestSize_two_pow_mul_add ht hm, decodeLoop]
    interval_cases t
    · -- bit `n` is clear: what is left is too small for a tree of height `n`
      have hrn : r ≤ n := hr n (by omega) (by rw [hbit, if_neg (Nat.lt_irrefl n), Nat.zero_testBit])
      have hroom := forestSize_add_le hm
      rw [Nat.zero_mul, Nat.zero_add, if_neg (by omega), ih hm hbits, Nat.mul_zero, Nat.zero_add]
    · -- bit `n` is set: its tree is subtracted and recorded
      rw [Nat.one_mul, if_pos (by omega),
        show 2 ^ (n + 1) - 1 + forestSize n m + r - (2 ^ (n + 1) - 1) = forestSize n m + r by omega,
        ih hm hbits, Nat.mul_one, Nat.add_assoc]

end Decode

section PostIndex

variable {w level pos : Nat}

/-- The same index as the forest of the bitmap with the level's low bits set, plus the level:
the form in which the greedy loop finds it. -/
theorem postIndex_eq_forestSize_add (h : (pos + 1) * 2 ^ level ≤ 2 ^ w) :
    postIndex w level pos = forestSize w (pos * 2 ^ level + 2 ^ level - 1) + level := by
  have hone := Nat.two_pow_pos level
  have hlw : level ≤ w := by
    by_contra hlw
    have : 2 ^ w < 2 ^ level := Nat.pow_lt_pow_right Nat.one_lt_two (by omega)
    have : 2 ^ level ≤ (pos + 1) * 2 ^ level := Nat.le_mul_of_pos_left _ (by omega)
    omega
  have hpos : pos < 2 ^ (w - level) := by
    have : (pos + 1) * 2 ^ level ≤ 2 ^ (w - level) * 2 ^ level := by
      rwa [← Nat.pow_add, Nat.sub_add_cancel hlw]
    have := Nat.le_of_mul_le_mul_right this hone
    omega
  have hlow : (pos * 2 ^ level + 2 ^ level - 1) % 2 ^ level = 2 ^ level - 1 := by
    rw [Nat.add_sub_assoc hone, Nat.mul_comm, Nat.mul_add_mod, Nat.mod_eq_of_lt (by omega)]
  have hhigh : (pos * 2 ^ level + 2 ^ level - 1) / 2 ^ level = pos := by
    rw [Nat.add_sub_assoc hone, Nat.mul_comm, Nat.mul_add_div hone, Nat.div_eq_of_lt (by omega),
      Nat.add_zero]
  have hcount := Bits.countOnes_of_low_ones hlw hlow
  rw [hhigh, ← Bits.countOnes_of_lt_two_pow (Nat.sub_le w level) hpos] at hcount
  have hle := Bits.countOnes_le w pos
  have hpow : 2 ^ (level + 1) = 2 * 2 ^ level := Nat.pow_succ'
  have hposle : pos ≤ pos * 2 ^ level := Nat.le_mul_of_pos_right pos hone
  have hlevel : level < 2 ^ level := Nat.lt_two_pow_self
  unfold postIndex forestSize
  rw [hcount, Nat.succ_mul, hpow, Nat.mul_left_comm pos 2]
  omega

/-- Decoding a node's post-order index gives its level and the bitmap with `pos` above the
level's low ones. -/
theorem decodeLoop_postIndex (h : (pos + 1) * 2 ^ level ≤ 2 ^ w) :
    decodeLoop w (postIndex w level pos) 0 = (level, pos * 2 ^ level + 2 ^ level - 1) := by
  have hone := Nat.two_pow_pos level
  have hM : pos * 2 ^ level + 2 ^ level - 1 < 2 ^ w := by
    rw [Nat.succ_mul] at h
    omega
  have hclear : ∀ i < w, (pos * 2 ^ level + 2 ^ level - 1).testBit i = false → level ≤ i := by
    intro i _ hi
    by_contra hlt
    rw [Nat.add_sub_assoc hone, Nat.mul_comm, Nat.testBit_two_pow_mul_add _ (by omega),
      if_pos (by omega), Nat.testBit_two_pow_sub_one, decide_eq_false_iff_not] at hi
    exact hi (by omega)
  rw [postIndex_eq_forestSize_add h, decodeLoop_forestSize_add hM hclear, Nat.zero_add]

/-- The post-order indices of a tree of `2 ^ (w - 1)` leaves stay below its `2 ^ w - 1` nodes. -/
theorem postIndex_le (h : (pos + 1) * 2 ^ (level + 1) ≤ 2 ^ w) : postIndex w level pos ≤ 2 ^ w - 2 := by
  unfold postIndex
  omega

end PostIndex

section Order

variable {w level pos q b : Nat}

/-- A left child comes before its sibling. -/
theorem postIndex_two_mul_lt (w level pos : Nat) :
    postIndex w level (2 * pos) < postIndex w level (2 * pos + 1) := by
  have hsucc := Bits.countOnes_succ_le w (2 * pos)
  have hle := Bits.countOnes_le w (2 * pos)
  have htwo : 2 ≤ 2 ^ (level + 1) := Nat.le_self_pow (Nat.succ_ne_zero level) 2
  have hmul : 2 * (2 * pos + 1) ≤ (2 * pos + 1) * 2 ^ (level + 1) := by
    rw [Nat.mul_comm 2]
    exact Nat.mul_le_mul_left _ htwo
  unfold postIndex
  rw [Nat.succ_mul (2 * pos + 1)]
  omega

/-- A right child comes right before its parent. -/
theorem postIndex_two_mul_add_one (hq : q < 2 ^ w) :
    postIndex (w + 1) level (2 * q + 1) + 1 = postIndex (w + 1) (level + 1) q := by
  have hbit := Bits.countOnes_two_mul_add (show 1 < 2 by decide) w q
  have hwidth := Bits.countOnes_of_lt_two_pow (Nat.le_succ w) hq
  have hle := Bits.countOnes_le w q
  -- both sides count twice the leaves of the parent's subtree
  have hchild : (2 * q + 1 + 1) * 2 ^ (level + 1) = 2 * ((q + 1) * 2 ^ (level + 1)) := by
    rw [show 2 * q + 1 + 1 = 2 * (q + 1) by omega, Nat.mul_assoc]
  have hparent : (q + 1) * 2 ^ (level + 1 + 1) = 2 * ((q + 1) * 2 ^ (level + 1)) := by
    rw [Nat.pow_succ, ← Nat.mul_assoc, Nat.mul_comm _ 2]
  have hlow : 2 * (q + 1) ≤ (q + 1) * 2 ^ (level + 1) := by
    rw [Nat.mul_comm 2]
    exact Nat.mul_le_mul_left _ (Nat.le_self_pow (Nat.succ_ne_zero level) 2)
  unfold postIndex
  rw [hbit, hwidth, hchild, hparent]
  omega

/-- Either child comes before its parent. -/
theorem postIndex_child_lt (hb : b < 2) (hq : q < 2 ^ w) :
    postIndex (w + 1) level (2 * q + b) < postIndex (w + 1) (level + 1) q := by
  have hright : postIndex (w + 1) level (2 * q + 1) + 1 = postIndex (w + 1) (level + 1) q :=
    postIndex_two_mul_add_one hq
  obtain rfl | rfl : b = 0 ∨ b = 1 := by omega
  · have hleft := postIndex_two_mul_lt (w + 1) level q
    show postIndex (w + 1) level (2 * q) < _
    omega
  · omega

/-- Every proper descendant comes before the node: `d + 1` levels below, along the bits of `p`
above `d`. -/
theorem postIndex_lt_of_descends {p : Nat} (hp : p < 2 ^ (w + 1)) (d : Nat) :
    postIndex (w + 1) level p < postIndex (w + 1) (level + d + 1) (p / 2 ^ (d + 1)) := by
  have hhalf : ∀ j, p / 2 ^ (j + 1) < 2 ^ w := fun j => by
    rw [Nat.div_lt_iff_lt_mul (Nat.two_pow_pos _)]
    calc p < 2 ^ (w + 1) := hp
      _ ≤ 2 ^ w * 2 ^ (j + 1) := by
        rw [← Nat.pow_add]
        exact Nat.pow_le_pow_right Nat.two_pos (by omega)
  -- the node `j + 1` levels up is a child of the one `j + 2` levels up
  have hclimb : ∀ j, 2 * (p / 2 ^ (j + 1 + 1)) + p / 2 ^ (j + 1) % 2 = p / 2 ^ (j + 1) := by
    intro j
    rw [Nat.pow_succ 2 (j + 1), ← Nat.div_div_eq_div_mul]
    exact Nat.div_add_mod _ 2
  induction d with
  | zero =>
    have hstep := @postIndex_child_lt w level _ _ (Nat.mod_lt p Nat.two_pos) (hhalf 0)
    simpa only [Nat.zero_add, Nat.add_zero, Nat.pow_one, Nat.div_add_mod] using hstep
  | succ d ih =>
    have hstep := @postIndex_child_lt w (level + d + 1) _ _
      (Nat.mod_lt (p / 2 ^ (d + 1)) Nat.two_pos) (hhalf (d + 1))
    rw [hclimb d] at hstep
    exact Nat.lt_trans ih hstep

end Order

end MerkleTree
