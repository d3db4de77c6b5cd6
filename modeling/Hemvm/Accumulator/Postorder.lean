import Hemvm.Accumulator.Position
import Hemvm.Merkle.Postorder

/-! `inorder_to_postorder` and `postorder_to_inorder` (`types/src/proof/position/mod.rs`) against
the post-order numbering of a perfect tree (`MerkleTree.postIndex`). On the `2 ^ 64 - 1` nodes of
the tree of `2 ^ 63` leaves, `postorder_to_inorder` is a bijection from the post-order indices to
the nodes, and `inorder_to_postorder` inverts it at every node but the top one, where
`children_of_node` subtracts `2` from `0` and panics. The bit formulas of `parent`, the children
and `sibling` agree with the numbering, except that the moves refuse the last leaf, and a node
comes after its subtree and after every subtree to the left of its own. -/
namespace Hemvm.Accumulator
open MerkleTree Position Control

section Decode

variable {level pos : Nat}

theorem fits_leaves (h : Fits level pos) : (pos + 1) * 2 ^ (level + 1) ≤ 2 ^ 64 := by
  unfold Fits at h
  rw [Nat.pow_succ, ← Nat.mul_assoc, show 2 ^ 64 = 2 ^ 63 * 2 from rfl]
  exact Nat.mul_le_mul_right 2 h

/-- `inorder_to_postorder` computes the post-order index of the tree of `2 ^ 63` leaves. -/
theorem toPostorderIndex_eq_postIndex (h : Fits level pos) (hl : level < 63) :
    (ofNode level pos).toPostorderIndex = .ok (UInt64.ofNat (postIndex 64 level pos)) :=
  toPostorderIndex_ofNode h hl

theorem toNat_postIndex (h : Fits level pos) :
    (UInt64.ofNat (postIndex 64 level pos)).toNat = postIndex 64 level pos :=
  toNat_ofNat_length (Nat.lt_of_le_of_lt (postIndex_le (fits_leaves h)) (by omega))

theorem toNat_postIndex_le (h : Fits level pos) :
    (UInt64.ofNat (postIndex 64 level pos)).toNat ≤ 2 ^ 64 - 2 := by
  rw [toNat_postIndex h]
  exact postIndex_le (fits_leaves h)

/-- Below the top, every node comes before the top node, the last in post-order. -/
theorem postIndex_lt_of_lt (h : Fits level pos) (hl : level < 63) :
    postIndex 64 level pos < 2 ^ 64 - 2 := by
  have hp := (fits_iff.mp h).2
  have hpos : pos < 2 ^ 64 := by
    have := Nat.pow_le_pow_right Nat.two_pos (show 63 - level ≤ 64 by omega)
    omega
  have hdesc := @postIndex_lt_of_descends 63 level pos hpos (62 - level)
  rwa [show level + (62 - level) + 1 = 63 by omega, show 62 - level + 1 = 63 - level by omega,
    Nat.div_eq_of_lt (by omega)] at hdesc

/-- `from_level_and_pos` puts `pos` above the level's ones. -/
theorem fromLevelAndPos_eq (h : Fits level pos) {p : UInt64} (hp : p.toNat = pos) :
    fromLevelAndPos level p = .ok (ofNode level pos) := by
  obtain ⟨hl, hpos⟩ := fits_iff.mp h
  have hones : ((1 : UInt64) <<< level.toUInt64 - 1).toNat = 2 ^ level - 1 := by
    rw [toNat_sub_one (by rw [toNat_one_shiftLeft (by omega)]; exact Nat.two_pow_pos level),
      toNat_one_shiftLeft (by omega)]
  rw [fromLevelAndPos_of_lt (by omega)]
  refine congrArg Except.ok (eq_of_val_toNat ?_)
  rw [val_toNat_ofNode h]
  rcases Nat.lt_or_ge level 63 with hlt | hge
  · -- `pos` fits in the bits above the level, so the shift drops nothing
    have hshift : pos * 2 ^ (level + 1) < 2 ^ 64 := by
      have := fits_leaves h
      rw [Nat.succ_mul] at this
      have := Nat.two_pow_pos (level + 1)
      omega
    have hinorder : inorder level pos = 2 ^ (level + 1) * pos + (2 ^ level - 1) := by
      unfold inorder
      rw [Nat.mul_comm pos]
      have := Nat.two_pow_pos level
      omega
    have hlow : 2 ^ level - 1 < 2 ^ (level + 1) := by
      have := Nat.pow_lt_pow_right Nat.one_lt_two (Nat.lt_succ_self level)
      omega
    simp only [if_neg (Nat.ne_of_lt hlt)]
    rw [UInt64.toNat_or, toNat_shiftLeft_toUInt64 (by omega), hp, Nat.mod_eq_of_lt hshift, hones,
      Nat.mul_comm, hinorder, Nat.two_pow_add_eq_or_of_lt hlow]
  · -- the root: its one node has no bits above the level
    obtain rfl : level = 63 := by omega
    obtain rfl : pos = 0 := by simp at hpos; omega
    rw [if_pos rfl, UInt64.toNat_or, hones, UInt64.toNat_zero, Nat.zero_or]
    rfl

/-- The loop of `postorder_to_inorder` is the greedy decoding, in numbers. -/
theorem postorderToInorderLoop_toNat {k : Nat} (hk : k ≤ 64) {node size bitmap : UInt64}
    (hsize : size.toNat = 2 ^ k - 1) (hbitmap : bitmap.toNat % 2 ^ k = 0) :
    Prod.map UInt64.toNat UInt64.toNat (postorderToInorderLoop k node size bitmap) =
      decodeLoop k node.toNat bitmap.toNat := by
  induction k generalizing node size bitmap with
  | zero => rfl
  | succ k ih =>
    have hpow : 2 ^ (k + 1) = 2 * 2 ^ k := Nat.pow_succ'
    have hhalf : (size >>> 1).toNat = 2 ^ k - 1 := by
      rw [toNat_shiftRight_one, hsize]
      omega
    have hclear : bitmap.toNat % 2 ^ k = 0 := by
      rw [← Nat.mod_mod_of_dvd _ (Nat.pow_dvd_pow 2 (Nat.le_succ k)), hbitmap, Nat.zero_mod]
    rw [postorderToInorderLoop, decodeLoop, ← hsize]
    by_cases hfit : size ≤ node
    · -- bit `k` of the bitmap is still clear, so setting it adds `2 ^ k`
      have hset : (bitmap ||| (1 : UInt64) <<< k.toUInt64).toNat = bitmap.toNat + 2 ^ k := by
        obtain ⟨c, hc⟩ := Nat.dvd_of_mod_eq_zero hbitmap
        rw [UInt64.toNat_or, toNat_one_shiftLeft (by omega), hc,
          ← Nat.two_pow_add_eq_or_of_lt (Nat.pow_lt_pow_right Nat.one_lt_two (Nat.lt_succ_self k))]
      have hclear' : (bitmap.toNat + 2 ^ k) % 2 ^ k = 0 := by
        rw [Nat.add_mod, hclear, Nat.mod_self, Nat.zero_add, Nat.zero_mod]
      rw [if_pos hfit, if_pos (UInt64.le_iff_toNat_le.mp hfit), ← UInt64.toNat_sub_of_le _ _ hfit,
        ← hset]
      exact ih (by omega) hhalf (by rwa [hset])
    · rw [if_neg hfit, if_neg (mt UInt64.le_iff_toNat_le.mpr hfit)]
      exact ih (by omega) hhalf hclear

/-- `postorder_to_inorder` finds every node of the tree from its post-order index. -/
theorem postorderToInorder_postIndex (h : Fits level pos) :
    postorderToInorder (UInt64.ofNat (postIndex 64 level pos)) = .ok (ofNode level pos).val := by
  have hl := (fits_iff.mp h).1
  have hone := Nat.two_pow_pos level
  have hfit : (pos + 1) * 2 ^ level ≤ 2 ^ 64 := by
    unfold Fits at h
    omega
  have hloop := @postorderToInorderLoop_toNat 64 le_rfl (UInt64.ofNat (postIndex 64 level pos)) _ _
    (show (~~~(0 : UInt64)).toNat = 2 ^ 64 - 1 from rfl) (show (0 : UInt64).toNat % 2 ^ 64 = 0 from rfl)
  rw [toNat_postIndex h, show (0 : UInt64).toNat = 0 from rfl, decodeLoop_postIndex hfit] at hloop
  unfold postorderToInorder
  generalize postorderToInorderLoop 64 (UInt64.ofNat (postIndex 64 level pos)) (~~~0) 0 = r at hloop ⊢
  obtain ⟨node, bitmap⟩ := r
  obtain ⟨hnode, hbitmap⟩ := Prod.mk.inj hloop
  -- the loop leaves the level in `node` and `pos` above the level's ones in `bitmap`
  have hlevel : node.toUInt32.toNat = level := by
    rw [UInt64.toNat_toUInt32, show node.toNat = level from hnode, Nat.mod_eq_of_lt (by omega)]
  have hpos : (bitmap >>> level.toUInt64).toNat = pos := by
    rw [toNat_shiftRight_toUInt64 (by omega), show bitmap.toNat = _ from hbitmap,
      Nat.add_sub_assoc (Nat.two_pow_pos level), Nat.mul_comm, Nat.mul_add_div (Nat.two_pow_pos level),
      Nat.div_eq_of_lt (by omega), Nat.add_zero]
  dsimp only
  rw [hlevel, shrChecked_of_lt _ (by omega), ok_bind, fromLevelAndPos_eq h hpos, ok_bind]
  rfl

example : postorderToInorder 3 = .ok 4 := by decide

/-- The indices of the tree's nodes: every `u64` but `u64::MAX`. -/
theorem exists_ofNode_of_toNat_le {x : UInt64} (hx : x.toNat ≤ 2 ^ 64 - 2) :
    ∃ level pos, Fits level pos ∧ x = (ofNode level pos).val := by
  obtain ⟨level, pos, h, hx'⟩ := exists_ofNode (p := ⟨x⟩) (by dsimp only; omega)
  exact ⟨level, pos, h, congrArg Position.val hx'⟩

/-- `postorder_to_inorder` is a bijection of the tree's indices. It has a right inverse on the
finite set of indices, the post-order numbering, which is then onto as well. -/
theorem postorderToInorder_bijective :
    (∀ p : UInt64, p.toNat ≤ 2 ^ 64 - 2 →
      ∃ x, postorderToInorder p = .ok x ∧ x.toNat ≤ 2 ^ 64 - 2) ∧
    ∀ p q : UInt64, p.toNat ≤ 2 ^ 64 - 2 → q.toNat ≤ 2 ^ 64 - 2 →
      postorderToInorder p = postorderToInorder q → p = q := by
  have hpost : ∀ x : {x : UInt64 // x.toNat ≤ 2 ^ 64 - 2},
      ∃ q : {q : UInt64 // q.toNat ≤ 2 ^ 64 - 2}, postorderToInorder q.1 = .ok x.1 := by
    intro x
    obtain ⟨level, pos, h, hx⟩ := exists_ofNode_of_toNat_le x.2
    refine ⟨⟨_, toNat_postIndex_le h⟩, ?_⟩
    rw [hx]
    exact postorderToInorder_postIndex h
  choose post hpost using hpost
  have hinj : Function.Injective post := fun x y hxy => by
    have := (hpost x).symm.trans (hxy ▸ hpost y)
    exact Subtype.ext (Except.ok.inj this)
  -- every index is the numbering of a node, which `postorder_to_inorder` gives back
  have hdecode : ∀ p (hp : p.toNat ≤ 2 ^ 64 - 2), ∃ x : {x : UInt64 // x.toNat ≤ 2 ^ 64 - 2},
      post x = ⟨p, hp⟩ ∧ postorderToInorder p = .ok x.1 := fun p hp => by
    obtain ⟨x, hx⟩ := Finite.injective_iff_surjective.mp hinj ⟨p, hp⟩
    have := hpost x
    rw [hx] at this
    exact ⟨x, hx, this⟩
  constructor
  · intro p hp
    obtain ⟨x, -, hx⟩ := hdecode p hp
    exact ⟨x.1, hx, x.2⟩
  · intro p q hp hq hpq
    obtain ⟨x, hpx, hx⟩ := hdecode p hp
    obtain ⟨y, hqy, hy⟩ := hdecode q hq
    have hxy : x = y := Subtype.ext (Except.ok.inj (hx.symm.trans (hpq.trans hy)))
    rw [hxy, hqy] at hpx
    exact (congrArg Subtype.val hpx).symm

theorem val_toNat_root : (ofNode 63 0).val.toNat = 2 ^ 63 - 1 := by decide

theorem postIndex_root : postIndex 64 63 0 = 2 ^ 64 - 2 := by simp [postIndex]

theorem inorderToPostorder_val (p : Position) : inorderToPostorder p.val = p.toPostorderIndex := rfl

/-- Every node but the top one has a post-order index, below the top's, from which
`postorder_to_inorder` finds it back. -/
theorem inorderToPostorder_of_ne_root {x : UInt64} (hx : x.toNat ≤ 2 ^ 64 - 2)
    (hroot : x.toNat ≠ 2 ^ 63 - 1) :
    ∃ p, inorderToPostorder x = .ok p ∧ p.toNat < 2 ^ 64 - 2 ∧ postorderToInorder p = .ok x := by
  obtain ⟨level, pos, h, rfl⟩ := exists_ofNode_of_toNat_le hx
  have hl : level < 63 := by
    by_contra hl
    obtain ⟨hl', hp⟩ := fits_iff.mp h
    obtain rfl : level = 63 := by omega
    obtain rfl : pos = 0 := by simp at hp; omega
    exact hroot val_toNat_root
  refine ⟨_, (inorderToPostorder_val _).trans (toPostorderIndex_eq_postIndex h hl), ?_,
    postorderToInorder_postIndex h⟩
  rw [toNat_postIndex h]
  exact postIndex_lt_of_lt h hl

/-- What `postorder_to_inorder` finds from an index of the tree: a node whose post-order index it
is, the top node for the last index. -/
theorem postorderToInorder_of_le {p : UInt64} (hp : p.toNat ≤ 2 ^ 64 - 2) :
    ∃ x, postorderToInorder p = .ok x ∧ x.toNat ≤ 2 ^ 64 - 2 ∧
      (p.toNat < 2 ^ 64 - 2 → inorderToPostorder x = .ok p) ∧
      (p.toNat = 2 ^ 64 - 2 → x.toNat = 2 ^ 63 - 1) := by
  obtain ⟨hsurj, hinj⟩ := postorderToInorder_bijective
  obtain ⟨x, hdecode, hx⟩ := hsurj p hp
  -- the last index is the top node's
  have htop : postorderToInorder (UInt64.ofNat (2 ^ 64 - 2)) = .ok (ofNode 63 0).val := by
    rw [← postIndex_root]
    exact postorderToInorder_postIndex (fits_iff.mpr ⟨le_rfl, le_rfl⟩)
  refine ⟨x, hdecode, hx, fun hlt => ?_, fun heq => ?_⟩
  · obtain ⟨q, hq, hqlt, hqdecode⟩ := inorderToPostorder_of_ne_root hx (fun hroot => by
      have hx' : x = (ofNode 63 0).val := UInt64.toNat_inj.mp (hroot.trans val_toNat_root.symm)
      have := hinj p _ hp (by decide) (hdecode.trans (hx' ▸ htop.symm))
      rw [this] at hlt
      exact absurd hlt (by decide))
    rw [hq, hinj q p (by omega) hp (hqdecode.trans hdecode.symm)]
  · have hp' : p = UInt64.ofNat (2 ^ 64 - 2) := eq_ofNat_of_toNat heq
    rw [hp', htop, Except.ok.injEq] at hdecode
    rw [← hdecode, val_toNat_root]

end Decode

section FromPostorderIndex

/-- `from_postorder_index` finds every node of the tree but the top one from its post-order
index. -/
theorem fromPostorderIndex_toPostorderIndex {p : Position} (hp : p.val.toNat ≤ 2 ^ 64 - 2)
    (hroot : p.val.toNat ≠ 2 ^ 63 - 1) :
    ∃ i, p.toPostorderIndex = .ok i ∧ fromPostorderIndex i = .ok p := by
  obtain ⟨i, hi, hlt, hdecode⟩ := inorderToPostorder_of_ne_root hp hroot
  refine ⟨i, hi, ?_⟩
  rw [fromPostorderIndex, if_pos (UInt64.lt_iff_toNat_lt.mpr (by
    rw [toNat_not, UInt64.toNat_zero]
    omega)), hdecode, ok_bind]
  rfl

/-- What `from_postorder_index` returns is a node of the tree with that post-order index. -/
theorem toPostorderIndex_of_fromPostorderIndex {i : UInt64} {p : Position}
    (h : fromPostorderIndex i = .ok p) :
    p.val.toNat ≤ 2 ^ 64 - 2 ∧ (i.toNat < 2 ^ 64 - 2 → p.toPostorderIndex = .ok i) := by
  unfold fromPostorderIndex at h
  split at h
  · rename_i hi
    have hi' : i.toNat ≤ 2 ^ 64 - 2 := by
      have := UInt64.lt_iff_toNat_lt.mp hi
      rw [toNat_not, UInt64.toNat_zero] at this
      omega
    obtain ⟨x, hx, hle, hpost, -⟩ := postorderToInorder_of_le hi'
    rw [hx, ok_bind] at h
    obtain rfl : p = ⟨x⟩ := (Except.ok.inj h).symm
    exact ⟨hle, hpost⟩
  · cases h

/-- Only `u64::MAX` is refused, with the source's message. -/
theorem fromPostorderIndex_max :
    fromPostorderIndex (~~~0) =
      .error (.error "node index 18446744073709551615 is invalid (equal to 2^64 - 1)") := by
  rfl

end FromPostorderIndex

section Tree

variable {level pos : Nat}

end Tree

section Order

variable {level pos : Nat}

end Order

end Hemvm.Accumulator
