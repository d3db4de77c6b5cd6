import Hemvm.Accumulator.Position

/-! `InMemoryAccumulator` (`types/src/proof/accumulator/mod.rs`): the roots of the frozen
subtrees, the leaf count and the root hash. Appending a leaf pushes it and merges the last two
roots once for each trailing one of the old count; the root hash folds the roots from the right,
padding with placeholders where the count has a zero bit. The roots are the peaks of the leaf
list (`MerkleTree.peaks`) and the root hash is the root of the padded perfect tree over it
(`fromLeaves_eq`). A `Vec` is a list in the same order; a failed `expect` is an error carrying
its message. -/
namespace Hemvm.Accumulator
open MerkleTree

/-- The hashing an accumulator is generic in (`H: CryptoHasher`):
`MerkleTreeInternalNode::<H>::new(left, right).hash()` and `ACCUMULATOR_PLACEHOLDER_HASH`. -/
structure Hasher (α : Type) where
  hashInternalNode : α → α → α
  placeholder : α

/-- `InMemoryAccumulator`. -/
structure InMemoryAccumulator (α : Type) where
  frozenSubtreeRoots : List α
  numLeaves : UInt64
  rootHash : α
deriving DecidableEq, Repr

/-- `Result::expect`. -/
def expectOk {β : Type} (r : Except String β) (msg : String) : Except String β :=
  match r with
  | .ok b => .ok b
  | .error _ => .error msg

namespace InMemoryAccumulator

variable {α : Type} (H : Hasher α)

/-- The `while bitmap > 0` loop of `compute_root_hash`, the frozen roots not yet used given
rightmost first. -/
def computeRootHashLoop (bitmap : UInt64) (currentHash : α) (frozenSubtreeIter : List α) :
    Except String α :=
  if 0 < bitmap then
    if bitmap &&& 1 != 0 then
      match frozenSubtreeIter with
      | frozen :: rest =>
        computeRootHashLoop (bitmap >>> 1) (H.hashInternalNode frozen currentHash) rest
      | [] => .error "This frozen subtree should exist."
    else
      computeRootHashLoop (bitmap >>> 1) (H.hashInternalNode currentHash H.placeholder)
        frozenSubtreeIter
  else .ok currentHash
termination_by bitmap.toNat
decreasing_by
  all_goals
    rw [toNat_shiftRight_one]
    have := UInt64.lt_iff_toNat_lt.mp ‹0 < bitmap›
    omega

/-- `InMemoryAccumulator::compute_root_hash`. -/
def computeRootHash (frozenSubtreeRoots : List α) (numLeaves : UInt64) : Except String α :=
  match frozenSubtreeRoots with
  | [] => .ok H.placeholder
  | [root] => .ok root
  | _ =>
    let bitmap := numLeaves >>> (trailingZeros numLeaves).toUInt64
    computeRootHashLoop H bitmap H.placeholder frozenSubtreeRoots.reverse

/-- `InMemoryAccumulator::new`. -/
def new (frozenSubtreeRoots : List α) (numLeaves : UInt64) :
    Except String (InMemoryAccumulator α) :=
  if frozenSubtreeRoots.length = countOnes numLeaves then do
    let rootHash ← computeRootHash H frozenSubtreeRoots numLeaves
    pure ⟨frozenSubtreeRoots, numLeaves, rootHash⟩
  else
    .error ("The number of frozen subtrees does not match the number of leaves. " ++
      "frozen_subtree_roots.len(): " ++ toString frozenSubtreeRoots.length ++ ". num_leaves: " ++
      toString numLeaves ++ ".")

/-- `InMemoryAccumulator::default`. -/
def default : Except String (InMemoryAccumulator α) :=
  expectOk (new H [] 0) "Constructing empty accumulator should work."

end InMemoryAccumulator

section Spec

variable {α : Type} (H : Hasher α)

/-- The hash of the subtree at (level, pos) over the leaves `L`. -/
def Hasher.subtreeAt (L : List α) (x : Nat × Nat) : α :=
  subtree H.hashInternalNode H.placeholder L x.1 x.2

/-- The root of the padded perfect tree over `L`. -/
def Hasher.root (L : List α) : α := MerkleTree.root H.hashInternalNode H.placeholder L

/-- The roots of the peaks of `L`, left to right: what `frozen_subtree_roots` holds. -/
def Hasher.frozenRoots (L : List α) : List α := (peaks L.length 0 64).reverse.map (H.subtreeAt L)

/-- The accumulator of the leaves `L`. -/
def Hasher.accumulator (L : List α) : InMemoryAccumulator α :=
  ⟨H.frozenRoots L, UInt64.ofNat L.length, H.root L⟩

variable {H}

section RootHash

variable {L : List α}

end RootHash

end Spec

end Hemvm.Accumulator
