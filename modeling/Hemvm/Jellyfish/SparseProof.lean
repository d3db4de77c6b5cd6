import Mathlib
import Hemvm.Jellyfish.NodeHash

/-! The proofs of a sparse Merkle tree (`types/src/proof/definition.rs`: `SparseMerkleProofExt`,
`SparseMerkleProof::verify_by_hash`) and the bits of a `HashValue` they follow
(`crates/aptos-crypto/src/hash.rs`: `iter_bits`, `common_prefix_bits_len`). A proof lists its
siblings from the bottom up, and the verifier folds them over the leaf with the key's bits, the
last bit the proof covers first: that is `climb` over the path from the top. -/
namespace Hemvm.Jellyfish
open SparseMerkle

/-! ### The bits of a hash -/

section Bits

/-- `HashValueBitIterator::get_bit`: bit `index` of the hash, from the top of its first byte. -/
def getBit (h : H256) (index : Nat) : Bool :=
  (h.bytes.getD (index / 8) 0 >>> (7 - index % 8).toUInt8) &&& 1 != 0

/-- `HashValue::iter_bits`, collected: its 256 bits from the top. -/
def iterBits (h : H256) : List Bool := (List.range 256).map (getBit h)

/-- `HashValue::common_prefix_bits_len`. -/
def commonPrefixBitsLen (a b : H256) : Nat :=
  (((iterBits a).zip (iterBits b)).takeWhile fun bits => bits.1 == bits.2).length

/-- `{:x}` of a `HashValue`: each byte as two lower-case hex digits. -/
def toHex (h : H256) : String :=
  String.join (h.bytes.map fun b =>
    String.ofList [Nat.digitChar (b.toNat / 16), Nat.digitChar (b.toNat % 16)])

/-- The nibbles of a hash, two to a byte: the path a key takes down the tree. -/
def keyNibbles (h : H256) : List Nibble := h.bytes.flatMap splitByte

/-- The four bits of a nibble, from the top. -/
def nibbleBits (n : Nibble) : List Bool := bitsDown n.val.toNat 4 4

@[simp] theorem length_nibbleBits (n : Nibble) : (nibbleBits n).length = 4 := by
  simp [nibbleBits, bitsDown]

@[simp] theorem length_iterBits (h : H256) : (iterBits h).length = 256 := by
  simp [iterBits]

theorem length_keyNibbles (h : H256) : (keyNibbles h).length = 64 := by
  rw [keyNibbles, length_flatMap_splitByte, h.length_eq]

/-- A bit of a byte, as `get_bit` reads it. -/
theorem shiftRight_and_one_ne_zero (b : UInt8) {k : Nat} (hk : k < 8) :
    ((b >>> k.toUInt8) &&& 1 != 0) = b.toNat.testBit k := by
  have hk8 : k.toUInt8.toNat = k := by simp; omega
  have hv : ((b >>> k.toUInt8) &&& 1).toNat = b.toNat / 2 ^ k % 2 := by
    rw [UInt8.toNat_and, UInt8.toNat_shiftRight, hk8, Nat.mod_eq_of_lt hk,
      show (1 : UInt8).toNat = 1 from rfl, Nat.and_one_is_mod, Nat.shiftRight_eq_div_pow]
  rw [Nat.testBit_eq_decide_div_mod_eq, ← hv]
  -- the masked byte is 0 or 1
  have hlt : ((b >>> k.toUInt8) &&& 1).toNat < 2 := hv ▸ Nat.mod_lt _ (by decide)
  generalize (b >>> k.toUInt8) &&& 1 = v at hlt ⊢
  rcases (show v.toNat = 0 ∨ v.toNat = 1 by omega) with h | h
  · rw [show v = 0 from UInt8.toNat_inj.mp h]
    rfl
  · rw [show v = 1 from UInt8.toNat_inj.mp h]
    rfl

/-- The bits of a byte from the top are those of its high nibble, then of its low one. -/
theorem nibbleBits_high_append_low (b : UInt8) :
    nibbleBits (Nibble.high b) ++ nibbleBits (Nibble.low b) =
      (List.range 8).map fun i => b.toNat.testBit (7 - i) := by
  have hhigh : ∀ j, (b.toNat / 16).testBit j = b.toNat.testBit (j + 4) :=
    Nat.testBit_div_two_pow (n := 4) b.toNat
  have hlow : ∀ j, j < 4 → (b.toNat % 16).testBit j = b.toNat.testBit j := fun j hj => by
    rw [show (16 : Nat) = 2 ^ 4 from rfl, Nat.testBit_mod_two_pow, decide_eq_true hj,
      Bool.true_and]
  simp [nibbleBits, bitsDown, List.range_succ, hhigh, hlow]

theorem map_range_bits (bs : List UInt8) :
    (List.range (8 * bs.length)).map (fun index =>
        (bs.getD (index / 8) 0 >>> (7 - index % 8).toUInt8) &&& 1 != 0) =
      (bs.flatMap splitByte).flatMap nibbleBits := by
  induction bs with
  | nil => rfl
  | cons b bs ih =>
    rw [List.length_cons, Nat.mul_succ, Nat.add_comm, List.range_add, List.map_append,
      List.map_map, List.flatMap_cons, List.flatMap_append, ← ih]
    congr 1
    · -- the first byte
      rw [show splitByte b = [Nibble.high b, Nibble.low b] from rfl, List.flatMap_cons,
        List.flatMap_cons, List.flatMap_nil, List.append_nil, nibbleBits_high_append_low]
      refine List.map_congr_left fun i hi => ?_
      have hi8 : i < 8 := List.mem_range.mp hi
      rw [Nat.div_eq_of_lt hi8, Nat.mod_eq_of_lt hi8, List.getD_cons_zero,
        shiftRight_and_one_ne_zero b (by omega)]
    · refine List.map_congr_left fun i _ => ?_
      simp only [Function.comp_apply]
      rw [show (8 + i) / 8 = i / 8 + 1 by omega, show (8 + i) % 8 = i % 8 by omega,
        List.getD_cons_succ]

/-- The bits of a hash are the bits of its nibbles. -/
theorem iterBits_eq_flatMap (h : H256) : iterBits h = (keyNibbles h).flatMap nibbleBits := by
  rw [keyNibbles, ← map_range_bits, h.length_eq]
  rfl

theorem take_flatMap_of_length {α β : Type} {f : α → List β} {k : Nat}
    (hf : ∀ a, (f a).length = k) :
    ∀ (xs : List α) (d : Nat), (xs.flatMap f).take (k * d) = (xs.take d).flatMap f
  | xs, 0 => by simp
  | [], d + 1 => by simp
  | x :: xs, d + 1 => by
    rw [List.flatMap_cons, Nat.mul_succ, Nat.add_comm, ← hf x, List.take_length_add_append, hf x,
      take_flatMap_of_length hf xs d]
    rfl

theorem drop_flatMap_of_length {α β : Type} {f : α → List β} {k : Nat}
    (hf : ∀ a, (f a).length = k) :
    ∀ (xs : List α) (d : Nat), (xs.flatMap f).drop (k * d) = (xs.drop d).flatMap f
  | xs, 0 => by simp
  | [], d + 1 => by simp
  | x :: xs, d + 1 => by
    rw [List.flatMap_cons, Nat.mul_succ, Nat.add_comm, ← hf x, List.drop_length_add_append, hf x,
      drop_flatMap_of_length hf xs d]
    rfl

/-- Below its first `d` nibbles, the next `L ≤ 4` bits of a key are the top bits of its nibble at
`d`. -/
theorem take_drop_iterBits (h : H256) {d L : Nat} (hd : d < 64) (hL : L ≤ 4) :
    ((iterBits h).drop (4 * d)).take L =
      bitsDown ((keyNibbles h).getD d default).val.toNat 4 L := by
  have hlen : d < (keyNibbles h).length := by rw [length_keyNibbles]; exact hd
  rw [iterBits_eq_flatMap, drop_flatMap_of_length length_nibbleBits, List.drop_eq_getElem_cons hlen,
    List.flatMap_cons, List.take_append_of_le_length (by simpa using hL), nibbleBits,
    take_bitsDown, Nat.min_eq_left hL, List.getD_eq_getElem _ _ hlen]

/-- Keys that agree on their first `d` nibbles agree on their first `4 d` bits. -/
theorem take_iterBits_of_take_keyNibbles {a b : H256} {d : Nat}
    (h : (keyNibbles a).take d = (keyNibbles b).take d) :
    (iterBits a).take (4 * d) = (iterBits b).take (4 * d) := by
  rw [iterBits_eq_flatMap, iterBits_eq_flatMap, take_flatMap_of_length length_nibbleBits,
    take_flatMap_of_length length_nibbleBits, h]

/-- Keys that agree on their first `d` nibbles, and whose nibbles at `d` agree on their top `L`
bits, agree on their first `4 d + L` bits. -/
theorem take_iterBits_of_nibble_div {a b : H256} {d L : Nat} (hd : d < 64) (hL : L ≤ 4)
    (htake : (keyNibbles a).take d = (keyNibbles b).take d)
    (hdiv : ((keyNibbles a).getD d default).val.toNat / 2 ^ (4 - L) =
      ((keyNibbles b).getD d default).val.toNat / 2 ^ (4 - L)) :
    (iterBits a).take (4 * d + L) = (iterBits b).take (4 * d + L) := by
  rw [List.take_add, List.take_add, take_iterBits_of_take_keyNibbles htake,
    take_drop_iterBits a hd hL, take_drop_iterBits b hd hL, bitsDown_eq_of_div_eq hL hdiv]

theorem le_length_takeWhile_zip {α : Type} [BEq α] [LawfulBEq α] :
    ∀ {xs ys : List α} {L : Nat}, L ≤ xs.length → L ≤ ys.length → xs.take L = ys.take L →
      L ≤ ((xs.zip ys).takeWhile fun p => p.1 == p.2).length
  | _, _, 0, _, _, _ => Nat.zero_le _
  | [], _, _ + 1, hx, _, _ => absurd hx (by simp)
  | _ :: _, [], _ + 1, _, hy, _ => absurd hy (by simp)
  | x :: xs, y :: ys, L + 1, hx, hy, h => by
    rw [List.take_succ_cons, List.take_succ_cons, List.cons.injEq] at h
    obtain ⟨rfl, h⟩ := h
    rw [List.zip_cons_cons, List.takeWhile_cons_of_pos (by simp), List.length_cons]
    exact Nat.succ_le_succ
      (le_length_takeWhile_zip (by simpa using hx) (by simpa using hy) h)

/-- Keys that agree on their first `L` bits share at least `L` bits of prefix. -/
theorem le_commonPrefixBitsLen {a b : H256} {L : Nat} (hL : L ≤ 256)
    (h : (iterBits a).take L = (iterBits b).take L) : L ≤ commonPrefixBitsLen a b :=
  le_length_takeWhile_zip (by simpa using hL) (by simpa using hL) h

end Bits

/-! ### Proofs and their verification -/

section Verify

variable (hashInternal : H256 → H256 → H256) (placeholder : H256)
  (hashLeaf : SparseMerkleLeafNode → H256)

/-- `SparseMerkleProofExt`: the leaf a proof ends at, and its siblings from the bottom up. -/
structure SparseMerkleProofExt where
  leaf : Option SparseMerkleLeafNode
  siblings : List NodeInProof
deriving DecidableEq

/-- `SparseMerkleProof`: the siblings as hashes. -/
structure SparseMerkleProof where
  leaf : Option SparseMerkleLeafNode
  siblings : List H256
deriving DecidableEq

/-- `From<SparseMerkleProofExt> for SparseMerkleProof`. -/
def SparseMerkleProofExt.toProof (proof : SparseMerkleProofExt) : SparseMerkleProof :=
  ⟨proof.leaf, proof.siblings.map (NodeInProof.hash hashLeaf)⟩

/-- `SparseMerkleProof::verify_by_hash`. -/
def SparseMerkleProof.verifyByHash (proof : SparseMerkleProof)
    (expectedRootHash elementKey : H256) (elementHash : Option H256) : Except Failure Unit := do
  ensure (proof.siblings.length ≤ 256)
    ("Sparse Merkle Tree proof has more than 256 (" ++ toString proof.siblings.length ++
      ") siblings.")
  match elementHash, proof.leaf with
  | some hash, some leaf =>
    ensure (elementKey = leaf.key)
      ("Keys do not match. Key in proof: " ++ toHex leaf.key ++ ". Expected key: " ++
        toHex elementKey ++ ". Element hash: " ++ toHex hash ++ ". Value hash in proof " ++
        toHex leaf.valueHash)
    ensure (hash = leaf.valueHash)
      ("Value hashes do not match for key " ++ toHex elementKey ++ ". Value hash in proof: " ++
        toHex leaf.valueHash ++ ". Expected value hash: " ++ toHex hash ++ ". ")
  | some hash, none =>
    .error (.error ("Expected inclusion proof, value hash: " ++ toHex hash ++
      ". Found non-inclusion proof."))
  | none, some leaf =>
    ensure (elementKey ≠ leaf.key)
      ("Expected non-inclusion proof, but key exists in proof. Key: " ++ toHex elementKey ++
        ". Key in proof: " ++ toHex leaf.key ++ ".")
    ensure (commonPrefixBitsLen elementKey leaf.key ≥ proof.siblings.length)
      ("Key would not have ended up in the subtree where the provided key in proof is the only " ++
        "existing key, if it existed. So this is not a valid non-inclusion proof. Key: " ++
        toHex elementKey ++ ". Key in proof: " ++ toHex leaf.key ++ ".")
  | none, none => pure ()
  let currentHash := proof.leaf.elim placeholder hashLeaf
  let actualRootHash := (proof.siblings.zip ((iterBits elementKey).reverse.drop
      (256 - proof.siblings.length))).foldl
    (fun hash step => if step.2 then hashInternal step.1 hash else hashInternal hash step.1)
    currentHash
  ensure (actualRootHash = expectedRootHash)
    ("aptos_types::proof::definition::SparseMerkleProof: Root hashes do not match. " ++
      "Actual root hash: " ++ toHex actualRootHash ++ ". Expected root hash: " ++
      toHex expectedRootHash ++ ".")

/-- `SparseMerkleProofExt::verify_by_hash`: the proof with its siblings hashed. -/
def SparseMerkleProofExt.verifyByHash (proof : SparseMerkleProofExt)
    (expectedRootHash elementKey : H256) (elementHash : Option H256) : Except Failure Unit :=
  (proof.toProof hashLeaf).verifyByHash hashInternal placeholder hashLeaf expectedRootHash
    elementKey elementHash

/-- What the leaf of a proof with `depth` siblings says of `elementKey`: an inclusion proof
carries the element's own leaf, with its value hash; a non-inclusion proof carries no leaf, or
the leaf of another key that agrees with `elementKey` on the first `depth` bits. -/
def LeafAnswers (elementKey : H256) (elementHash : Option H256) (depth : Nat) :
    Option SparseMerkleLeafNode → Prop
  | some leaf => (elementHash = some leaf.valueHash ∧ elementKey = leaf.key) ∨
      (elementHash = none ∧ elementKey ≠ leaf.key ∧
        (iterBits elementKey).take depth = (iterBits leaf.key).take depth)
  | none => elementHash = none

/-- `verify_by_hash` accepts a proof of at most 256 siblings whose leaf answers the query and
whose siblings, from the top, fold with the key's bits over the leaf to the root. -/
theorem verifyByHash_of_climb {proof : SparseMerkleProof} {root elementKey : H256}
    {elementHash : Option H256} (hlen : proof.siblings.length ≤ 256)
    (hleaf : LeafAnswers elementKey elementHash proof.siblings.length proof.leaf)
    (hclimb : climb hashInternal (((iterBits elementKey).take proof.siblings.length).zip
      proof.siblings.reverse) (proof.leaf.elim placeholder hashLeaf) = root) :
    proof.verifyByHash hashInternal placeholder hashLeaf root elementKey elementHash = .ok () := by
  obtain ⟨leaf, siblings⟩ := proof
  dsimp only at hlen hleaf hclimb
  -- the fold of the code is `climb` over the siblings from the top
  have hfold : ((siblings.reverse.reverse).zip ((iterBits elementKey).take siblings.length).reverse).foldl
      (fun acc step => combine hashInternal step.2 step.1 acc) (leaf.elim placeholder hashLeaf) =
      climb hashInternal (((iterBits elementKey).take siblings.length).zip siblings.reverse)
        (leaf.elim placeholder hashLeaf) :=
    foldl_reverse_zip_eq_climb _ _ (by simp; omega) _
  rw [List.reverse_reverse] at hfold
  have hroot : (siblings.zip ((iterBits elementKey).reverse.drop (256 - siblings.length))).foldl
      (fun hash step => if step.2 then hashInternal step.1 hash else hashInternal hash step.1)
      (leaf.elim placeholder hashLeaf) = root := by
    rw [List.drop_reverse, length_iterBits, show 256 - (256 - siblings.length) = siblings.length by
      omega]
    exact hfold.trans hclimb
  simp only [SparseMerkleProof.verifyByHash, ensure_of_pos hlen, Control.ok_bind]
  cases leaf with
  | none =>
    rw [show elementHash = none from hleaf]
    simp only [ensure_of_pos hroot]
  | some leaf =>
    rcases hleaf with ⟨rfl, hkey⟩ | ⟨rfl, hne, hprefix⟩
    · -- an inclusion proof: the element's own leaf and value hash
      simp only [ensure_of_pos hkey, ensure_of_pos trivial,
        Control.ok_bind, ensure_of_pos hroot]
    · -- a non-inclusion proof: another key on the same path
      have hcommon : commonPrefixBitsLen elementKey leaf.key ≥ siblings.length :=
        le_commonPrefixBitsLen hlen hprefix
      simp only [ensure_of_pos hne, ensure_of_pos hcommon, Control.ok_bind, ensure_of_pos hroot]

end Verify

end Hemvm.Jellyfish
