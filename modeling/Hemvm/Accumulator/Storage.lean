import Hemvm.Accumulator.InMemory
import Hemvm.Merkle.Postorder

/-! `MerkleAccumulator` (`storage/accumulator/src/lib.rs`): the accumulator whose frozen nodes
are in storage. `append` freezes each new leaf and, while the node just frozen is a right child,
its parent, pairing it with a left sibling created in the same call (`left_siblings`) or read
back through the `HashReader`; then it walks up to the root level, padding with placeholders.
`get_hash` builds a node that is not frozen from its children. The `left_siblings` vector is a
list with its last element first; `to_freeze` is a list in push order. The additions of leaf
counts and the moves of `Position` keep the release build's overflow checks. -/
namespace Hemvm.Accumulator
open MerkleTree Control

namespace MerkleAccumulatorView

variable {α : Type} (H : Hasher α) (reader : Position → Except String α)

/-- `self.reader.get(position)?`. -/
def read (position : Position) : Except Failure α :=
  match reader position with
  | .ok hash => .ok hash
  | .error msg => .error (.error msg)

/-- The left sibling a right child is paired with: the last of `left_siblings`, which must be
`sibling`, or the stored node when `left_siblings` is empty. -/
def popLeftSibling (leftSiblings : List (Position × α)) (sibling : Position) :
    Except Failure (List (Position × α) × α) :=
  match leftSiblings with
  | (x, leftHash) :: leftSiblings => do
    assertion (x = sibling) "x == sibling"
    pure (leftSiblings, leftHash)
  | [] => do
    let leftHash ← read reader sibling
    pure ([], leftHash)

/-- The `while pos.is_right_child()` loop of `append`. -/
def climb (leftSiblings toFreeze : List (Position × α)) (pos : Position) (hash : α) :
    Except Failure (List (Position × α) × List (Position × α) × Position × α) :=
  match hr : pos.isRightChild with
  | .error e => .error e
  | .ok false => .ok (leftSiblings, toFreeze, pos, hash)
  | .ok true => do
    let sibling ← pos.sibling
    let (leftSiblings, leftHash) ← popLeftSibling reader leftSiblings sibling
    let hash := H.hashInternalNode leftHash hash
    match hp : pos.parent with
    | .error e => .error e
    | .ok parent =>
      have := Position.level_lt_parent_of_isRightChild hr hp
      climb leftSiblings (toFreeze ++ [(parent, hash)]) parent hash
termination_by 64 - pos.level
decreasing_by omega

/-- `rightmost_leaf_index`. -/
def rightmostLeafIndex (numLeaves : UInt64) : Except Failure UInt64 := subChecked numLeaves 1

/-- `get_hash`. A leaf is always a placeholder or freezable, so the recursion stops there; the
`assert!(!self.is_leaf())` of `left_child` would refuse to go below it. -/
def getHash (numLeaves : UInt64) (position : Position) : Except Failure α := do
  let idx ← rightmostLeafIndex numLeaves
  let placeholder ← position.isPlaceholder idx
  if placeholder then pure H.placeholder
  else do
    let freezable ← position.isFreezable idx
    if freezable then read reader position
    else
      match hl : position.leftChild with
      | .error e => .error e
      | .ok leftChild => do
        have := Position.level_lt_of_leftChild hl
        let left ← getHash numLeaves leftChild
        match hr : position.rightChild with
        | .error e => .error e
        | .ok rightChild => do
          have := Position.level_lt_of_rightChild hr
          let right ← getHash numLeaves rightChild
          pure (H.hashInternalNode left right)
termination_by position.level

end MerkleAccumulatorView

namespace MerkleAccumulator

variable {α : Type} (H : Hasher α)

end MerkleAccumulator

section Equations

variable {α : Type} {H : Hasher α} {reader : Position → Except String α}
variable {ls ls' toFreeze : List (Position × α)} {pos q s : Position} {hash leftHash : α}

open MerkleAccumulatorView

variable {numLeaves idx : UInt64}

end Equations

section Spec

variable {α : Type} (H : Hasher α)

/-- The node at (level, pos) over the leaves `L`, as storage keeps it. -/
def Hasher.node (L : List α) (x : Nat × Nat) : Position × α :=
  (Position.ofNode x.1 x.2, H.subtreeAt L x)

/-- `reader` serves every node of `L` that the first `m` leaves complete. -/
def Serves (reader : Position → Except String α) (L : List α) (m : Nat) : Prop :=
  ∀ k q, (q + 1) * 2 ^ k ≤ m → reader (Position.ofNode k q) = .ok (H.subtreeAt L (k, q))

variable {H} {reader : Position → Except String α} {L : List α} {m c : Nat}

open MerkleAccumulatorView Position

section GetHash

variable (hL1 : 1 ≤ L.length) (hL : L.length ≤ 2 ^ 63)
include hL1 hL

end GetHash

section Frozen

end Frozen

section Runs

variable (H)

/-- What the calls of `appendBatches` return over the leaves `L` from `m` leaves on: the root of
the leaves so far, and the nodes that the batch completes. -/
def Hasher.batchResults (L : List α) : Nat → List (List α) → List (α × List (Position × α))
  | _, [] => []
  | m, B :: bs =>
    (H.root (L.take (m + B.length)), ((List.range' m B.length).flatMap completedBy).map (H.node L)) ::
      Hasher.batchResults L (m + B.length) bs

variable {H}

theorem Serves.take {n : Nat} (hserve : Serves H reader L m) (hmn : m ≤ n) :
    Serves H reader (L.take n) m := fun k q hkq => by
  rw [hserve k q hkq]
  exact congrArg _ (subtree_take (show (q + 1) * 2 ^ k ≤ n by omega)).symm

theorem Serves.mono {n : Nat} (hserve : Serves H reader L n) (hmn : m ≤ n) : Serves H reader L m :=
  fun k q hkq => hserve k q (by omega)

theorem batchResults_take : ∀ (m j : Nat) (bs : List (List α)),
    H.batchResults L m (bs.take j) = (H.batchResults L m bs).take j
  | _, 0, _ => by rw [List.take_zero, List.take_zero]; rfl
  | _, _ + 1, [] => rfl
  | m, j + 1, B :: bs => by
    rw [List.take_succ_cons, Hasher.batchResults, Hasher.batchResults, List.take_succ_cons,
      batchResults_take _ j bs]

end Runs

end Spec

end Hemvm.Accumulator
