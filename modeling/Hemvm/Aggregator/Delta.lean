import Hemvm.Arith.Excursion
import Hemvm.Control.Except

/-! `DeltaOp` of `aptos-aggregator`: a transaction's update of an aggregator by a signed amount,
recorded with the largest increase and decrease that the value went through while the
transaction ran, so that it can be applied to a base later or merged onto the delta of an earlier
transaction. A delta denotes an `Excursion`; `apply_to` runs it, and `merge_onto` computes the
composition of two of them exactly, failing only when the composition leaves the limit.
`u128` is `Nat`: `addition` and `subtraction` check before they compute, so no result exceeds
the limit or the base. -/
namespace Hemvm.Aggregator
open Control

/-- `EADD_OVERFLOW`. -/
def eaddOverflow : UInt64 := 0x020001

/-- `ESUB_UNDERFLOW`. -/
def esubUnderflow : UInt64 := 0x020002

/-- The `PartialVMError` of `abort_error`: status `ABORTED`, with a message and a sub status. -/
structure PartialVMError where
  message : String
  subStatus : UInt64
deriving DecidableEq, Repr

/-- `abort_error`. -/
def abortError (message : String) (code : UInt64) : PartialVMError := ⟨message, code⟩

/-- `addition`. -/
def addition (base value limit : Nat) : Except PartialVMError Nat :=
  if limit < base ∨ value > limit - base then
    .error (abortError ("overflow when adding " ++ toString value ++ " to " ++ toString base)
      eaddOverflow)
  else .ok (base + value)

/-- `subtraction`. -/
def subtraction (base value : Nat) : Except PartialVMError Nat :=
  if value > base then
    .error (abortError
      ("underflow when subtracting " ++ toString value ++ " from " ++ toString base) esubUnderflow)
  else .ok (base - value)

/-- `DeltaUpdate`. -/
inductive DeltaUpdate where
  | plus (value : Nat)
  | minus (value : Nat)
deriving DecidableEq, Repr

/-- `DeltaOp`. -/
structure DeltaOp where
  maxPositive : Nat
  minNegative : Nat
  limit : Nat
  update : DeltaUpdate
deriving DecidableEq, Repr

/-- The signed amount of an update. -/
def DeltaUpdate.net : DeltaUpdate → ℤ
  | .plus value => value
  | .minus value => -value

namespace DeltaOp

/-- `DeltaOp::new`. -/
def new (update : DeltaUpdate) (limit maxPositive minNegative : Nat) : DeltaOp :=
  ⟨maxPositive, minNegative, limit, update⟩

/-- `apply_to`: the history is checked against `base` before the update is applied. -/
def applyTo (d : DeltaOp) (base : Nat) : Except PartialVMError Nat := do
  let _ ← addition base d.maxPositive d.limit
  let _ ← subtraction base d.minNegative
  match d.update with
  | .plus value => addition base value d.limit
  | .minus value => subtraction base value

/-- `shifted_max_positive_by`. -/
def shiftedMaxPositiveBy (self delta : DeltaOp) : Except PartialVMError Nat :=
  match delta.update with
  | .plus value => addition value self.maxPositive self.limit
  | .minus value => .ok ((subtraction self.maxPositive value).toOption.getD 0)

/-- `shifted_min_negative_by`. -/
def shiftedMinNegativeBy (self delta : DeltaOp) : Except PartialVMError Nat :=
  match delta.update with
  | .plus value => .ok ((subtraction self.minNegative value).toOption.getD 0)
  | .minus value => addition value self.minNegative self.limit

/-- `update_same_sign!`. -/
def updateSameSign (sign : Nat → DeltaUpdate) (a b limit : Nat) :
    Except PartialVMError DeltaUpdate := do
  pure (sign (← addition a b limit))

/-- `update_different_sign!`. -/
def updateDifferentSign (a b : Nat) : Except PartialVMError DeltaUpdate :=
  if a ≥ b then do pure (.plus (← subtraction a b))
  else do pure (.minus (← subtraction b a))

/-- The `match previous_delta.update` of `merge_onto`: the update of the merged delta. -/
def mergeUpdate (self previousDelta : DeltaOp) : Except PartialVMError DeltaUpdate :=
  match previousDelta.update, self.update with
  | .plus prevValue, .plus selfValue => updateSameSign .plus prevValue selfValue self.limit
  | .plus prevValue, .minus selfValue => updateDifferentSign prevValue selfValue
  | .minus prevValue, .plus selfValue => updateDifferentSign selfValue prevValue
  | .minus prevValue, .minus selfValue => updateSameSign .minus prevValue selfValue self.limit

/-- `merge_onto`: `self` on top of the earlier `previousDelta`. On success, what `self` becomes;
on failure `self` is left as it was. -/
def mergeOnto (self previousDelta : DeltaOp) : Except PartialVMError DeltaOp := do
  let shiftedMaxPositive ← self.shiftedMaxPositiveBy previousDelta
  let shiftedMinNegative ← self.shiftedMinNegativeBy previousDelta
  let update ← self.mergeUpdate previousDelta
  pure { self with
    update := update
    maxPositive := max previousDelta.maxPositive shiftedMaxPositive
    minNegative := max previousDelta.minNegative shiftedMinNegative }

/-- The deltas that aggregators record: the history bounds the update on its own side, and the
limit bounds the history. -/
structure WellFormed (d : DeltaOp) : Prop where
  maxPositive_le : d.maxPositive ≤ d.limit
  minNegative_le : d.minNegative ≤ d.limit
  neg_minNegative_le : -(d.minNegative : ℤ) ≤ d.update.net
  net_le_maxPositive : d.update.net ≤ d.maxPositive

instance (d : DeltaOp) : Decidable d.WellFormed :=
  decidable_of_iff (d.maxPositive ≤ d.limit ∧ d.minNegative ≤ d.limit ∧
      -(d.minNegative : ℤ) ≤ d.update.net ∧ d.update.net ≤ d.maxPositive)
    ⟨fun ⟨h1, h2, h3, h4⟩ => ⟨h1, h2, h3, h4⟩, fun ⟨h1, h2, h3, h4⟩ => ⟨h1, h2, h3, h4⟩⟩

/-- What a delta does to the value, as an excursion: its update, with the history widened to
take in the start and the end. -/
def toExcursion (d : DeltaOp) : Excursion where
  low := min (-(d.minNegative : ℤ)) d.update.net
  high := max (d.maxPositive : ℤ) d.update.net
  net := d.update.net
  low_le_zero := by omega
  low_le_net := by omega
  zero_le_high := by omega
  net_le_high := by omega

end DeltaOp

section Arithmetic

variable {base value limit r : Nat}

theorem addition_eq_ok_iff :
    addition base value limit = .ok r ↔ base + value ≤ limit ∧ r = base + value := by
  unfold addition
  split
  · simp only [reduceCtorEq, false_iff]
    omega
  · simp only [Except.ok.injEq]
    omega

theorem addition_eq_error (e : PartialVMError) (h : addition base value limit = .error e) :
    limit < base + value := by
  unfold addition at h
  split at h
  · omega
  · cases h

theorem subtraction_eq_ok_iff :
    subtraction base value = .ok r ↔ value ≤ base ∧ r = base - value := by
  unfold subtraction
  split
  · simp only [reduceCtorEq, false_iff]
    omega
  · simp only [Except.ok.injEq]
    omega

/-- `unwrap_or(0)` of a subtraction is the subtraction of `Nat`. -/
theorem getD_subtraction : (subtraction base value).toOption.getD 0 = base - value := by
  unfold subtraction
  split
  · simp only [Except.toOption, Option.getD_none]
    omega
  · rfl

end Arithmetic

namespace DeltaOp

section Merge

variable {self prev m : DeltaOp} {s : Nat} {u : DeltaUpdate} {e : PartialVMError}

/-- `apply_to` runs the delta's excursion under its limit. -/
theorem applyTo_eq_ok_iff (d : DeltaOp) (b r : Nat) :
    d.applyTo b = .ok r ↔ d.toExcursion.run d.limit b = some (r : ℤ) := by
  obtain ⟨M, N, L, u⟩ := d
  rw [Excursion.run_eq_some_iff]
  cases u with
  | plus v =>
    simp [applyTo, bind_eq_ok_iff, addition_eq_ok_iff, subtraction_eq_ok_iff, toExcursion,
      DeltaUpdate.net]
    omega
  | minus v =>
    simp [applyTo, bind_eq_ok_iff, addition_eq_ok_iff, subtraction_eq_ok_iff, toExcursion,
      DeltaUpdate.net]
    omega

theorem shiftedMaxPositiveBy_spec (h : self.shiftedMaxPositiveBy prev = .ok s) :
    (s : ℤ) = max 0 (prev.update.net + self.maxPositive) ∧ s ≤ max self.limit self.maxPositive := by
  unfold shiftedMaxPositiveBy at h
  split at h
  · rename_i v hv
    obtain ⟨hle, rfl⟩ := addition_eq_ok_iff.mp h
    rw [hv, DeltaUpdate.net]
    omega
  · rename_i v hv
    rw [Except.ok.injEq, getD_subtraction] at h
    rw [hv, DeltaUpdate.net, ← h]
    omega

theorem shiftedMinNegativeBy_spec (h : self.shiftedMinNegativeBy prev = .ok s) :
    (s : ℤ) = max 0 (self.minNegative - prev.update.net) ∧ s ≤ max self.limit self.minNegative := by
  unfold shiftedMinNegativeBy at h
  split at h
  · rename_i v hv
    rw [Except.ok.injEq, getD_subtraction] at h
    rw [hv, DeltaUpdate.net, ← h]
    omega
  · rename_i v hv
    obtain ⟨hle, rfl⟩ := addition_eq_ok_iff.mp h
    rw [hv, DeltaUpdate.net]
    omega


theorem shiftedMaxPositiveBy_eq_error (h : self.shiftedMaxPositiveBy prev = .error e) :
    (self.limit : ℤ) < prev.update.net + self.maxPositive := by
  unfold shiftedMaxPositiveBy at h
  split at h
  · rename_i v hv
    have := addition_eq_error e h
    rw [hv, DeltaUpdate.net]
    omega
  · cases h

theorem shiftedMinNegativeBy_eq_error (h : self.shiftedMinNegativeBy prev = .error e) :
    (self.limit : ℤ) < self.minNegative - prev.update.net := by
  unfold shiftedMinNegativeBy at h
  split at h
  · cases h
  · rename_i v hv
    have := addition_eq_error e h
    rw [hv, DeltaUpdate.net]
    omega

theorem updateSameSign_eq_ok_iff {sign : Nat → DeltaUpdate} {a b limit : Nat} :
    updateSameSign sign a b limit = .ok u ↔ a + b ≤ limit ∧ u = sign (a + b) := by
  simp only [updateSameSign, bind_eq_ok_iff, addition_eq_ok_iff, pure, Except.pure,
    Except.ok.injEq]
  constructor
  · rintro ⟨x, ⟨hle, rfl⟩, rfl⟩
    exact ⟨hle, rfl⟩
  · rintro ⟨hle, rfl⟩
    exact ⟨_, ⟨hle, rfl⟩, rfl⟩

theorem updateSameSign_eq_error {sign : Nat → DeltaUpdate} {a b limit : Nat}
    (h : updateSameSign sign a b limit = .error e) : limit < a + b := by
  cases hadd : addition a b limit with
  | error e' => exact addition_eq_error e' hadd
  | ok x => simp only [updateSameSign, hadd, ok_bind, pure, Except.pure, reduceCtorEq] at h

theorem updateDifferentSign_net {a b : Nat} :
    ∃ u, updateDifferentSign a b = .ok u ∧ u.net = (a : ℤ) - b := by
  unfold updateDifferentSign
  split
  · rename_i hba
    refine ⟨.plus (a - b), ?_, ?_⟩
    · simp only [bind_eq_ok_iff, subtraction_eq_ok_iff, pure, Except.pure, Except.ok.injEq]
      exact ⟨a - b, ⟨hba, rfl⟩, rfl⟩
    · simp only [DeltaUpdate.net]
      omega
  · rename_i hab
    refine ⟨.minus (b - a), ?_, ?_⟩
    · simp only [bind_eq_ok_iff, subtraction_eq_ok_iff, pure, Except.pure, Except.ok.injEq]
      exact ⟨b - a, ⟨by omega, rfl⟩, rfl⟩
    · simp only [DeltaUpdate.net]
      omega

/-- The merged update adds the two amounts. -/
theorem mergeUpdate_net (h : self.mergeUpdate prev = .ok u) :
    u.net = prev.update.net + self.update.net := by
  unfold mergeUpdate at h
  split at h
  · rename_i v1 v2 h1 h2
    obtain ⟨-, rfl⟩ := updateSameSign_eq_ok_iff.mp h
    simp only [h1, h2, DeltaUpdate.net]
    omega
  · rename_i v1 v2 h1 h2
    obtain ⟨u', hu', hnet⟩ := @updateDifferentSign_net v1 v2
    rw [hu', Except.ok.injEq] at h
    rw [← h, hnet, h1, h2, DeltaUpdate.net, DeltaUpdate.net]
    omega
  · rename_i v1 v2 h1 h2
    obtain ⟨u', hu', hnet⟩ := @updateDifferentSign_net v2 v1
    rw [hu', Except.ok.injEq] at h
    rw [← h, hnet, h1, h2, DeltaUpdate.net, DeltaUpdate.net]
    omega
  · rename_i v1 v2 h1 h2
    obtain ⟨-, rfl⟩ := updateSameSign_eq_ok_iff.mp h
    simp only [h1, h2, DeltaUpdate.net]
    omega

/-- Only the two same-sign cases can fail, when the sum leaves the limit. -/
theorem mergeUpdate_eq_error (h : self.mergeUpdate prev = .error e) :
    (self.limit : ℤ) < prev.update.net + self.update.net ∨
      prev.update.net + self.update.net < -(self.limit : ℤ) := by
  unfold mergeUpdate at h
  split at h
  · rename_i v1 v2 h1 h2
    have := updateSameSign_eq_error h
    simp only [h1, h2, DeltaUpdate.net]
    omega
  · rename_i v1 v2 h1 h2
    obtain ⟨u', hu', -⟩ := @updateDifferentSign_net v1 v2
    rw [hu'] at h
    cases h
  · rename_i v1 v2 h1 h2
    obtain ⟨u', hu', -⟩ := @updateDifferentSign_net v2 v1
    rw [hu'] at h
    cases h
  · rename_i v1 v2 h1 h2
    have := updateSameSign_eq_error h
    simp only [h1, h2, DeltaUpdate.net]
    omega

theorem mergeOnto_eq_ok_iff : self.mergeOnto prev = .ok m ↔ ∃ sMax sMin u,
    self.shiftedMaxPositiveBy prev = .ok sMax ∧ self.shiftedMinNegativeBy prev = .ok sMin ∧
      self.mergeUpdate prev = .ok u ∧
      m = { self with
        update := u
        maxPositive := max prev.maxPositive sMax
        minNegative := max prev.minNegative sMin } := by
  simp only [mergeOnto, bind_eq_ok_iff, pure, Except.pure, Except.ok.injEq]
  constructor
  · rintro ⟨sMax, hmax, sMin, hmin, u, hu, rfl⟩
    exact ⟨sMax, sMin, u, hmax, hmin, hu, rfl⟩
  · rintro ⟨sMax, sMin, u, hmax, hmin, hu, rfl⟩
    exact ⟨sMax, hmax, sMin, hmin, u, hu, rfl⟩

/-- A successful merge is the composition of the two excursions, first the earlier delta's. -/
theorem toExcursion_mergeOnto (h : self.mergeOnto prev = .ok m) :
    m.toExcursion = prev.toExcursion.comp self.toExcursion ∧ m.limit = self.limit := by
  obtain ⟨sMax, sMin, u, hmax, hmin, hu, rfl⟩ := mergeOnto_eq_ok_iff.mp h
  have hsMax := (shiftedMaxPositiveBy_spec hmax).1
  have hsMin := (shiftedMinNegativeBy_spec hmin).1
  have hnet := mergeUpdate_net hu
  refine ⟨?_, rfl⟩
  ext <;> simp only [toExcursion, Excursion.low_comp, Excursion.high_comp, Excursion.net_comp] <;>
    omega

/-- A failed merge means the composition goes beyond the limit. -/
theorem not_within_of_mergeOnto_eq_error (h : self.mergeOnto prev = .error e) :
    ¬(prev.toExcursion.comp self.toExcursion).Within self.limit := by
  intro ⟨hhigh, hlow⟩
  simp only [toExcursion, Excursion.low_comp, Excursion.high_comp] at hhigh hlow
  cases hmax : self.shiftedMaxPositiveBy prev with
  | error e' =>
    have := shiftedMaxPositiveBy_eq_error hmax
    omega
  | ok sMax =>
    cases hmin : self.shiftedMinNegativeBy prev with
    | error e' =>
      have := shiftedMinNegativeBy_eq_error hmin
      omega
    | ok sMin =>
      cases hu : self.mergeUpdate prev with
      | error e' =>
        have := mergeUpdate_eq_error hu
        omega
      | ok u =>
        simp only [mergeOnto, hmax, hmin, hu, ok_bind, pure, Except.pure, reduceCtorEq] at h

/-- Merging well-formed deltas under one limit gives a well-formed delta. -/
theorem wellFormed_mergeOnto (hprev : prev.WellFormed) (hself : self.WellFormed)
    (hlimit : prev.limit = self.limit) (h : self.mergeOnto prev = .ok m) : m.WellFormed := by
  obtain ⟨sMax, sMin, u, hmax, hmin, hu, rfl⟩ := mergeOnto_eq_ok_iff.mp h
  have hsMax := shiftedMaxPositiveBy_spec hmax
  have hsMin := shiftedMinNegativeBy_spec hmin
  have hnet := mergeUpdate_net hu
  have := hprev.maxPositive_le
  have := hprev.minNegative_le
  have := hself.maxPositive_le
  have := hself.minNegative_le
  have := hself.neg_minNegative_le
  have := hself.net_le_maxPositive
  constructor <;> simp only [hnet] <;> omega


end Merge

section Represents

variable {self prev : DeltaOp} {e : PartialVMError} {r : Except PartialVMError DeltaOp}
  {L : Nat} {E : Excursion}
  {L : Nat} {E : Excursion}

/-- Applying two deltas under one limit in turn runs the composition of their excursions. -/
theorem applyTo_bind_applyTo_eq_ok_iff (d1 d2 : DeltaOp) (hl1 : d1.limit = L) (hl2 : d2.limit = L)
    (b x : Nat) :
    (d1.applyTo b >>= d2.applyTo) = .ok x ↔
      (d1.toExcursion.comp d2.toExcursion).run L b = some (x : ℤ) := by
  rw [bind_eq_ok_iff, Excursion.run_comp_eq_some_iff]
  simp only [applyTo_eq_ok_iff, hl1, hl2]

/-- Applying deltas under one limit one after the other runs the composition of their
excursions. -/
theorem foldlM_applyTo_eq_ok_iff (d : DeltaOp) (ds : List DeltaOp) (hl : ∀ x ∈ d :: ds, x.limit = L)
    (b r : Nat) :
    (d :: ds).foldlM (fun value d => d.applyTo value) b = .ok r ↔
      (Excursion.compAll ((d :: ds).map toExcursion)).run L b = some (r : ℤ) := by
  induction ds generalizing d b with
  | nil =>
    have hone : [d].foldlM (fun value d => d.applyTo value) b = d.applyTo b := by
      simp only [List.foldlM_cons, List.foldlM_nil, bind_pure]
    rw [hone, applyTo_eq_ok_iff, hl d List.mem_cons_self, List.map_cons, List.map_nil,
      Excursion.compAll_singleton]
  | cons d' ds ih =>
    have htail : ∀ x ∈ d' :: ds, x.limit = L := fun x hx => hl x (List.mem_cons_of_mem d hx)
    rw [List.foldlM_cons, bind_eq_ok_iff, List.map_cons, Excursion.compAll_cons,
      Excursion.run_comp_eq_some_iff]
    simp only [applyTo_eq_ok_iff, hl d List.mem_cons_self, ih d' htail]

/-- A merge result stands for the excursion `E` under the limit `L`: a merged delta has that
excursion and limit, and a failure means that `E` runs from no base. -/
def Represents (r : Except PartialVMError DeltaOp) (L : Nat) (E : Excursion) : Prop :=
  (∀ m, r = .ok m → m.toExcursion = E ∧ m.limit = L) ∧
    ∀ e, r = .error e → ∀ b : Nat, E.run L b = none

theorem represents_ok (d : DeltaOp) : Represents (.ok d) d.limit d.toExcursion :=
  ⟨fun m hm => by cases hm; exact ⟨rfl, rfl⟩, fun e he => by cases he⟩

/-- A represented result, applied to a base, runs its excursion. -/
theorem Represents.bind_applyTo_eq_ok_iff (h : Represents r L E) (b x : Nat) :
    (r >>= fun m => m.applyTo b) = .ok x ↔ E.run L b = some (x : ℤ) := by
  cases r with
  | error e =>
    rw [error_bind, h.2 e rfl b]
    simp only [reduceCtorEq]
  | ok m =>
    obtain ⟨hE, hL⟩ := h.1 m rfl
    rw [ok_bind, applyTo_eq_ok_iff, hE, hL]

theorem represents_mergeOnto (hself : self.limit = L) :
    Represents (self.mergeOnto prev) L (prev.toExcursion.comp self.toExcursion) := by
  refine ⟨fun m hm => ?_, fun e he b => ?_⟩
  · obtain ⟨hE, hL⟩ := toExcursion_mergeOnto hm
    exact ⟨hE, hL.trans hself⟩
  · have hout := not_within_of_mergeOnto_eq_error he
    rw [hself] at hout
    exact Excursion.run_eq_none_of_not_within (Int.natCast_nonneg b) hout

/-- Merging a later delta onto a represented result. -/
theorem Represents.bind_mergeOnto (h : Represents r L E) (hself : self.limit = L) :
    Represents (r >>= self.mergeOnto) L (E.comp self.toExcursion) := by
  cases r with
  | error e =>
    refine ⟨fun m hm => ?_, ?_⟩
    · cases hm
    · intro e' he' b
      exact Excursion.run_comp_eq_none_of_left (h.2 e rfl b)
  | ok m =>
    obtain ⟨hE, hL⟩ := h.1 m rfl
    rw [ok_bind, ← hE]
    exact represents_mergeOnto hself

/-- Merging a represented result onto an earlier delta. -/
theorem Represents.bind_mergeOnto_left (h : Represents r L E) :
    Represents (r >>= fun m => m.mergeOnto prev) L (prev.toExcursion.comp E) := by
  cases r with
  | error e =>
    refine ⟨fun m hm => ?_, ?_⟩
    · cases hm
    · intro e' he' b
      exact Excursion.run_comp_eq_none_of_right (h.2 e rfl) b
  | ok m =>
    obtain ⟨hE, hL⟩ := h.1 m rfl
    rw [ok_bind, ← hE]
    exact represents_mergeOnto hL

/-- Merging a represented result onto the deltas `ds`, one after the other from the first, as a
read merges the deltas below it: the deltas' excursions come first, the last one lowest. -/
theorem Represents.bind_foldlM_mergeOnto (ds : List DeltaOp) (h : Represents r L E) :
    Represents (r >>= fun a => ds.foldlM (fun acc d => acc.mergeOnto d) a) L
      ((Excursion.compAll (ds.map toExcursion).reverse).comp E) := by
  induction ds generalizing r E with
  | nil =>
    have hpure : (r >>= fun a => ([] : List DeltaOp).foldlM (fun acc d => acc.mergeOnto d) a) = r := by
      cases r <;> rfl
    rw [hpure, List.map_nil, List.reverse_nil, Excursion.compAll_nil, Excursion.zero_comp]
    exact h
  | cons d ds ih =>
    have hstep := ih (@Represents.bind_mergeOnto_left d r L E h)
    have hbind : (r >>= fun a => (d :: ds).foldlM (fun acc d => acc.mergeOnto d) a) =
        ((r >>= fun m => m.mergeOnto d) >>= fun a =>
          ds.foldlM (fun acc d => acc.mergeOnto d) a) := by
      cases r <;> rfl
    rw [hbind, List.map_cons, List.reverse_cons, Excursion.compAll_append,
      Excursion.compAll_singleton, Excursion.comp_assoc]
    exact hstep

theorem mergeOnto_sequential (L : Nat) (d1 d2 : DeltaOp) (h1 : d1.WellFormed) (h2 : d2.WellFormed)
    (hl1 : d1.limit = L) (hl2 : d2.limit = L) :
    (∀ m, d2.mergeOnto d1 = .ok m →
      (∀ b x, m.applyTo b = .ok x ↔ (d1.applyTo b >>= d2.applyTo) = .ok x) ∧
        m.WellFormed ∧ m.limit = L) ∧
    (∀ e, d2.mergeOnto d1 = .error e → ∀ b x, (d1.applyTo b >>= d2.applyTo) ≠ .ok x) ∧
    ∀ d3 : DeltaOp, d3.limit = L → ∀ b x,
      (d2.mergeOnto d1 >>= d3.mergeOnto >>= fun m => m.applyTo b) = .ok x ↔
        (d3.mergeOnto d2 >>= (fun m => m.mergeOnto d1) >>= fun m => m.applyTo b) = .ok x := by
  have h12 := @represents_mergeOnto d2 d1 L hl2
  refine ⟨fun m hm => ⟨fun b x => ?_, ?_, ?_⟩, fun e he b x hseq => ?_, fun d3 hl3 b x => ?_⟩
  · -- the merged delta applies as the two in turn
    rw [applyTo_bind_applyTo_eq_ok_iff d1 d2 hl1 hl2, ← h12.bind_applyTo_eq_ok_iff, hm, ok_bind]
  · exact wellFormed_mergeOnto h1 h2 (hl1.trans hl2.symm) hm
  · exact (h12.1 m hm).2
  · -- a failed merge: the composition runs from no base
    rw [applyTo_bind_applyTo_eq_ok_iff d1 d2 hl1 hl2, h12.2 e he b] at hseq
    cases hseq
  · -- both groupings stand for the composition of the three excursions
    have hleft := h12.bind_mergeOnto hl3
    have hright := @Represents.bind_mergeOnto_left d1 _ L _ (@represents_mergeOnto d3 d2 L hl3)
    rw [hleft.bind_applyTo_eq_ok_iff, hright.bind_applyTo_eq_ok_iff, Excursion.comp_assoc]

/-- Case 2 of `test_delta_merge_plus`: `+3` with history `[-4, 4]` onto `+2` with history
`[-3, 4]` is `+5` with history `[-3, 6]`, which applies as the two in turn. -/
theorem mergeOnto_sequential_plus :
    (⟨4, 3, 100, .plus 2⟩ : DeltaOp).WellFormed ∧ (⟨4, 4, 100, .plus 3⟩ : DeltaOp).WellFormed ∧
      (⟨4, 4, 100, .plus 3⟩ : DeltaOp).mergeOnto ⟨4, 3, 100, .plus 2⟩ = .ok ⟨6, 3, 100, .plus 5⟩ ∧
      ∀ b x, (⟨6, 3, 100, .plus 5⟩ : DeltaOp).applyTo b = .ok x ↔
        ((⟨4, 3, 100, .plus 2⟩ : DeltaOp).applyTo b >>= (⟨4, 4, 100, .plus 3⟩ : DeltaOp).applyTo) =
          .ok x := by
  have hmerge : (⟨4, 4, 100, .plus 3⟩ : DeltaOp).mergeOnto ⟨4, 3, 100, .plus 2⟩ =
      .ok ⟨6, 3, 100, .plus 5⟩ := rfl
  have h1 : (⟨4, 3, 100, .plus 2⟩ : DeltaOp).WellFormed := by decide
  have h2 : (⟨4, 4, 100, .plus 3⟩ : DeltaOp).WellFormed := by decide
  exact ⟨h1, h2, hmerge, (mergeOnto_sequential 100 _ _ h1 h2 rfl rfl).1 _ hmerge |>.1⟩


end Represents

end DeltaOp

end Hemvm.Aggregator
