import Hemvm.Aggregator.Delta
import Hemvm.Store.Overlay
import Hemvm.Codec.Bytes

/-! `MVHashMap` of `aptos-move/mvhashmap`: for each key, the entries that the transactions of a
block left there, by transaction index, each a write of a value or an aggregator delta, and each
possibly marked as the estimate of a future incarnation. `read` walks the entries below the
reading transaction from the highest down, merging the deltas it passes until it reaches a write
or an estimate. `readSpec` says what a read returns in terms of the entries alone: the deltas
between the write and the reader applied to the written value one after the other. The BCS
decoder of a written aggregator value, `bcs::from_bytes::<u128>`, enters as a parameter. -/
namespace Hemvm.MvHashMap
open Aggregator Codec

/-- `TransactionWrite`. -/
class TransactionWrite (V : Type) where
  extractRawBytes : V → Option (List UInt8)

/-- `impl TransactionWrite for WriteOp`. -/
instance : TransactionWrite (Store.WriteOp (List UInt8)) := ⟨Store.WriteOp.newValue⟩

section Aggregator

variable (fromBytes : List UInt8 → Option Nat)

/-- The aggregator's `deserialize`, over `bcs::from_bytes::<u128>`: its `expect` makes a failure
a panic, whose message is given without the error that `expect` appends. -/
def deserialize (valueBytes : List UInt8) : Except String Nat :=
  match fromBytes valueBytes with
  | some value => .ok value
  | none => .error "unexpected deserialization error in aggregator"

/-- `AggregatorValue::from_write`: `none` for a deletion, an error for a panic. -/
def AggregatorValue.fromWrite [TransactionWrite V] (write : V) : Except String (Option Nat) :=
  match TransactionWrite.extractRawBytes write with
  | none => .ok none
  | some bytes => (deserialize fromBytes bytes).map some

end Aggregator

/-- `FLAG_DONE` and `FLAG_ESTIMATE`. -/
inductive Flag where
  | done
  | estimate
deriving DecidableEq, Repr

/-- `EntryCell<V>`. -/
inductive EntryCell (V : Type) where
  | write (incarnation : Nat) (data : V)
  | delta (data : DeltaOp)

/-- `Entry<V>`. -/
structure Entry (V : Type) where
  flag : Flag
  cell : EntryCell V

/-- The `BTreeMap<TxnIndex, Entry<V>>` of one key: its entries by increasing transaction index. -/
structure Tree (V : Type) where
  entries : List (Nat × Entry V)
  sorted : entries.Pairwise fun a b => a.1 < b.1

/-- The entries `tree.range(0..txn_idx)` yields to `next_back`: those below `txnIdx`, from the
highest down. -/
def Tree.below (tree : Tree V) (txnIdx : Nat) : List (Nat × Entry V) :=
  (tree.entries.filter fun e => e.1 < txnIdx).reverse

/-- `MVHashMap<K, V>`: the tree of each key that has one. -/
structure MVHashMap (K V : Type) where
  data : K → Option (Tree V)

/-- `MVHashMapError`. -/
inductive MVHashMapError where
  | notFound
  | unresolved (delta : DeltaOp)
  | dependency (txnIdx : Nat)
  | deltaApplicationFailure
deriving DecidableEq, Repr

/-- `MVHashMapOutput<V>`. -/
inductive MVHashMapOutput (V : Type) where
  | resolved (value : Nat)
  | version (version : Nat × Nat) (data : V)
deriving DecidableEq, Repr

/-- `Result<V>`. -/
abbrev Result (V : Type) := Except MVHashMapError (MVHashMapOutput V)

variable {K V : Type}

/-- `accumulator.apply_to(value)` of `read`, its error mapped to `DeltaApplicationFailure`. -/
def resolve (applied : Except PartialVMError Nat) : Result V :=
  match applied with
  | .ok result => .ok (.resolved result)
  | .error _ => .error .deltaApplicationFailure

section Read

variable [TransactionWrite V] (fromBytes : List UInt8 → Option Nat)

/-- The `while let Some((idx, entry)) = iter.next_back()` loop of `read`, over the entries below
the reader from the highest down, with the deltas merged so far in `accumulator`. A panic is an
error of the outer `Except`. -/
def readLoop : List (Nat × Entry V) → Option DeltaOp → Except String (Result V)
  | [], accumulator =>
    .ok (match accumulator with
      | some accumulator => .error (.unresolved accumulator)
      | none => .error .notFound)
  | (idx, entry) :: rest, accumulator =>
    if entry.flag = .estimate then .ok (.error (.dependency idx))
    else
      match entry.cell, accumulator with
      | .write incarnation data, none => .ok (.ok (.version (idx, incarnation) data))
      | .write incarnation data, some accumulator => do
        match ← AggregatorValue.fromWrite fromBytes data with
        | none => pure (.ok (.version (idx, incarnation) data))
        | some value => pure (resolve (accumulator.applyTo value))
      | .delta delta, some accumulator =>
        match accumulator.mergeOnto delta with
        | .ok merged => readLoop rest (some merged)
        | .error _ => .ok (.error .deltaApplicationFailure)
      | .delta delta, none => readLoop rest (some delta)

/-- `MVHashMap::read`. -/
def MVHashMap.read (map : MVHashMap K V) (key : K) (txnIdx : Nat) : Except String (Result V) :=
  match map.data key with
  | some tree => readLoop fromBytes (tree.below txnIdx) none
  | none => .ok (.error .notFound)

end Read

section Spec

/-- Where the walk down from the reader stops: at an estimate, at a finished write, or below the
lowest entry. -/
inductive Stop (V : Type) where
  | estimate (txnIdx : Nat)
  | write (txnIdx incarnation : Nat) (data : V)
  | bottom

/-- The finished deltas from the top down to the first entry that is an estimate or a finished
write, and where that entry is. -/
def scan : List (Nat × Entry V) → List DeltaOp × Stop V
  | [] => ([], .bottom)
  | (idx, ⟨.estimate, _⟩) :: _ => ([], .estimate idx)
  | (idx, ⟨.done, .write incarnation data⟩) :: _ => ([], .write idx incarnation data)
  | (_, ⟨.done, .delta d⟩) :: rest => (d :: (scan rest).1, (scan rest).2)

/-- The deltas `d_m, …, d_1`, from the top down, merged as `read` merges them, each onto the one
below it; `none` when there are none. -/
def mergeDown : List DeltaOp → Option (Except PartialVMError DeltaOp)
  | [] => none
  | d :: ds => some (ds.foldlM (fun acc delta => acc.mergeOnto delta) d)

/-- `d_1, …, d_m` applied to `base` one after the other. -/
def applySequentially (ds : List DeltaOp) (base : Nat) : Except PartialVMError Nat :=
  ds.foldlM (fun value d => d.applyTo value) base

variable [TransactionWrite V] (fromBytes : List UInt8 → Option Nat)

/-- How a read ends, given the merged deltas it passed, where it stopped, and how the merged
delta resolves against a written value. -/
def finish (apply : DeltaOp → Nat → Except PartialVMError Nat) :
    Option (Except PartialVMError DeltaOp) → Stop V → Except String (Result V)
  | some (.error _), _ => .ok (.error .deltaApplicationFailure)
  | _, .estimate idx => .ok (.error (.dependency idx))
  | none, .bottom => .ok (.error .notFound)
  | some (.ok merged), .bottom => .ok (.error (.unresolved merged))
  | none, .write idx incarnation data => .ok (.ok (.version (idx, incarnation) data))
  | some (.ok merged), .write idx incarnation data => do
    match ← AggregatorValue.fromWrite fromBytes data with
    | none => pure (.ok (.version (idx, incarnation) data))
    | some value => pure (resolve (apply merged value))

/-- What a read returns, in terms of the entries below the reader alone: a failure when the
deltas above the stop do not merge; then the estimate, the write or nothing where the walk
stops, and for a written value the deltas above it applied to it in turn, lowest first. -/
def readSpec (below : List (Nat × Entry V)) : Except String (Result V) :=
  finish fromBytes (fun _ value => applySequentially (scan below).1.reverse value)
    (mergeDown (scan below).1) (scan below).2

end Spec

section Proofs

/-- The deltas merged onto an accumulator, or from the first of them when there is none. -/
def mergeFrom : Option DeltaOp → List DeltaOp → Option (Except PartialVMError DeltaOp)
  | none, ds => mergeDown ds
  | some acc, ds => some (ds.foldlM (fun acc delta => acc.mergeOnto delta) acc)

theorem mem_scan_deltas {l : List (Nat × Entry V)} {d : DeltaOp} (h : d ∈ (scan l).1) :
    ∃ x ∈ l, x.2.cell = .delta d := by
  induction l with
  | nil => cases h
  | cons x rest ih =>
    obtain ⟨idx, flag, cell⟩ := x
    cases flag with
    | estimate => cases h
    | done =>
      cases cell with
      | write incarnation data => cases h
      | delta d' =>
        rcases List.mem_cons.mp h with rfl | h
        · exact ⟨_, List.mem_cons_self, rfl⟩
        · obtain ⟨y, hy, hcell⟩ := ih h
          exact ⟨y, List.mem_cons_of_mem _ hy, hcell⟩

/-- A merge of deltas under one limit stands for the composition of their excursions, lowest
first. -/
theorem mergeDown_represents {ds : List DeltaOp} {r : Except PartialVMError DeltaOp} {L : Nat}
    (hl : ∀ d ∈ ds, d.limit = L) (h : mergeDown ds = some r) :
    DeltaOp.Represents r L (Excursion.compAll (ds.map DeltaOp.toExcursion).reverse) := by
  cases ds with
  | nil => cases h
  | cons d ds =>
    cases h
    have hrep := (DeltaOp.represents_ok d).bind_foldlM_mergeOnto ds
    rw [hl d List.mem_cons_self] at hrep
    rw [List.map_cons, List.reverse_cons, Excursion.compAll_append, Excursion.compAll_singleton]
    exact hrep

/-- Deltas under one limit applied in turn run the composition of their excursions. -/
theorem applySequentially_eq_ok_iff {ds : List DeltaOp} {L : Nat} (hne : ds ≠ [])
    (hl : ∀ d ∈ ds, d.limit = L) (b r : Nat) :
    applySequentially ds b = .ok r ↔
      (Excursion.compAll (ds.map DeltaOp.toExcursion)).run L b = some (r : ℤ) := by
  obtain ⟨d, ds, rfl⟩ := List.exists_cons_of_ne_nil hne
  exact DeltaOp.foldlM_applyTo_eq_ok_iff d ds hl b r

/-- When the deltas above a write fail to merge, applying them in turn fails from every base. -/
theorem applySequentially_ne_ok_of_mergeDown {ds : List DeltaOp} {L : Nat} {e : PartialVMError}
    (hl : ∀ d ∈ ds, d.limit = L) (h : mergeDown ds = some (.error e)) (b r : Nat) :
    applySequentially ds.reverse b ≠ .ok r := by
  have hne : ds.reverse ≠ [] := by
    cases ds with
    | nil => cases h
    | cons d ds => simp
  intro hseq
  rw [applySequentially_eq_ok_iff hne (fun d hd => hl d (List.mem_reverse.mp hd)), List.map_reverse,
    (mergeDown_represents hl h).2 e rfl b] at hseq
  cases hseq

theorem resolve_congr {x y : Except PartialVMError Nat} (h : ∀ r, x = .ok r ↔ y = .ok r) :
    (resolve x : Result V) = resolve y := by
  cases x with
  | ok r => rw [(h r).mp rfl]
  | error e =>
    cases y with
    | ok r => cases (h r).mpr rfl
    | error e' => rfl

variable [TransactionWrite V] {fromBytes : List UInt8 → Option Nat}

/-- `finish` depends on how a merged delta resolves only through the values it resolves to. -/
theorem finish_congr {apply apply' : DeltaOp → Nat → Except PartialVMError Nat}
    {merged : Option (Except PartialVMError DeltaOp)} (stop : Stop V)
    (h : ∀ m, merged = some (.ok m) → ∀ value r, apply m value = .ok r ↔ apply' m value = .ok r) :
    finish fromBytes apply merged stop = finish fromBytes apply' merged stop := by
  rcases merged with _ | _ | m
  · cases stop <;> rfl
  · cases stop <;> rfl
  · cases stop with
    | estimate idx => rfl
    | bottom => rfl
    | write idx incarnation data =>
      simp only [finish]
      cases AggregatorValue.fromWrite fromBytes data with
      | error msg => rfl
      | ok value =>
        cases value with
        | none => rfl
        | some value =>
          simp only [Control.ok_bind]
          rw [resolve_congr (h m rfl value)]

/-- The walk of `read` is the scan of the entries followed by `finish`. -/
theorem readLoop_eq_finish (l : List (Nat × Entry V)) (acc : Option DeltaOp) :
    readLoop fromBytes l acc =
      finish fromBytes (fun merged value => merged.applyTo value) (mergeFrom acc (scan l).1)
        (scan l).2 := by
  induction l generalizing acc with
  | nil => cases acc <;> rfl
  | cons x rest ih =>
    obtain ⟨idx, flag, cell⟩ := x
    cases flag with
    | estimate => cases acc <;> rfl
    | done =>
      cases cell with
      | write incarnation data => cases acc <;> rfl
      | delta d =>
        cases acc with
        | none =>
          -- the first delta starts the accumulator
          show readLoop fromBytes rest (some d) = _
          rw [ih]
          rfl
        | some a =>
          show (match a.mergeOnto d with
            | .ok merged => readLoop fromBytes rest (some merged)
            | .error _ => .ok (.error .deltaApplicationFailure)) = _
          cases hm : a.mergeOnto d with
          | ok merged =>
            show readLoop fromBytes rest (some merged) = _
            rw [ih]
            simp only [scan, mergeFrom, List.foldlM_cons, hm, Control.ok_bind]
          | error e =>
            simp only [scan, mergeFrom, List.foldlM_cons, hm, Control.error_bind]
            rfl

/-- A read returns what `readSpec` says of the entries below the reader, when the deltas at the
key share one limit, whatever `bcs::from_bytes::<u128>` makes of a written value; and a merge of
the deltas above a write fails only where applying them to the written value in turn fails too,
whatever that value. -/
theorem read_eq_readSpec (fromBytes : List UInt8 → Option Nat) (map : MVHashMap K V) (key : K)
    (txnIdx L : Nat) (hlimit : ∀ tree, map.data key = some tree →
      ∀ x ∈ tree.entries, ∀ d, x.2.cell = .delta d → d.limit = L) :
    map.read fromBytes key txnIdx = (match map.data key with
      | some tree => readSpec fromBytes (tree.below txnIdx)
      | none => .ok (.error .notFound)) ∧
    ∀ tree, map.data key = some tree → ∀ e,
      mergeDown (scan (tree.below txnIdx)).1 = some (.error e) →
      ∀ b r, applySequentially (scan (tree.below txnIdx)).1.reverse b ≠ .ok r := by
  have hscan : ∀ tree, map.data key = some tree → ∀ d ∈ (scan (tree.below txnIdx)).1, d.limit = L :=
    fun tree htree d hd => by
      obtain ⟨x, hx, hcell⟩ := mem_scan_deltas hd
      have hx' : x ∈ tree.entries := (List.mem_filter.mp (List.mem_reverse.mp hx)).1
      exact hlimit tree htree x hx' d hcell
  refine ⟨?_, fun tree htree e he b r => applySequentially_ne_ok_of_mergeDown (hscan tree htree) he b r⟩
  unfold MVHashMap.read
  cases htree : map.data key with
  | none => rfl
  | some tree =>
    simp only
    rw [readLoop_eq_finish, readSpec]
    refine finish_congr _ fun m hm value r => ?_
    -- the merged delta resolves as the deltas applied in turn
    have hne : (scan (tree.below txnIdx)).1 ≠ [] := by
      intro hnil
      simp only [mergeFrom, hnil, mergeDown, reduceCtorEq] at hm
    obtain ⟨hE, hL⟩ := (mergeDown_represents (hscan tree htree) hm).1 m rfl
    rw [DeltaOp.applyTo_eq_ok_iff, hE, hL,
      applySequentially_eq_ok_iff (List.reverse_ne_nil_iff.mpr hne)
        (fun d hd => hscan tree htree d (List.mem_reverse.mp hd)), List.map_reverse]

/-- The aggregator value `10` written at transaction `0`, and the delta `+5` at transaction `1`. -/
def sampleResolved : MVHashMap Unit (Store.WriteOp (List UInt8)) where
  data _ := some {
    entries := [(0, ⟨.done, .write 0 (.modification (leBytes 16 10))⟩),
      (1, ⟨.done, .delta ⟨5, 0, 100, .plus 5⟩⟩)]
    sorted := by decide }

/-- A BCS `u128`: sixteen little-endian bytes. -/
def u128FromBytes (bytes : List UInt8) : Option Nat :=
  if bytes.length = 16 then some (ofLeBytes bytes) else none

theorem read_eq_readSpec_sample :
    sampleResolved.read u128FromBytes () 2 = .ok (.ok (.resolved 15)) := by
  have hlimit : ∀ tree, sampleResolved.data () = some tree →
      ∀ x ∈ tree.entries, ∀ d, x.2.cell = .delta d → d.limit = 100 := by
    intro tree htree x hx d hd
    cases htree
    rcases List.mem_cons.mp hx with rfl | hx
    · cases hd
    · rw [List.mem_singleton] at hx
      subst hx
      cases hd
      rfl
  rw [(read_eq_readSpec u128FromBytes sampleResolved () 2 100 hlimit).1]
  rfl

/-- Transaction `0` is an estimate, and transactions `1` and `2` add `60` and `50` to an
aggregator limited to `100`. -/
def sampleEstimate : MVHashMap Unit (Store.WriteOp (List UInt8)) where
  data _ := some {
    entries := [(0, ⟨.estimate, .write 0 (.modification (leBytes 16 10))⟩),
      (1, ⟨.done, .delta ⟨60, 0, 100, .plus 60⟩⟩), (2, ⟨.done, .delta ⟨50, 0, 100, .plus 50⟩⟩)]
    sorted := by decide }

/-- A read by transaction `3` reports no dependency on the estimate at `0`: merging `+50` onto
`+60` overflows the limit first, before any written value is read. -/
theorem read_deltaApplicationFailure_above_estimate :
    sampleEstimate.read u128FromBytes () 3 = .ok (.error .deltaApplicationFailure) := rfl

end Proofs

end Hemvm.MvHashMap
