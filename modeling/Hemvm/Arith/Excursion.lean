import Mathlib

/-! Excursions: what a run of additions and subtractions does to a value, as its net change
together with the lowest and the highest offset the value reached on the way, the start and the
end among them. Running an excursion from a start succeeds when the value never leaves
`[0, bound]`; running two one after the other is running their composition, which is associative
with `zero` as its unit. Nothing here is specific to one program. -/

/-- The net change of a run, and the lowest and highest offsets from its start that it passes
through. -/
@[ext] structure Excursion where
  low : ℤ
  high : ℤ
  net : ℤ
  low_le_zero : low ≤ 0
  low_le_net : low ≤ net
  zero_le_high : 0 ≤ high
  net_le_high : net ≤ high

namespace Excursion

variable {bound b c : ℤ} {e f : Excursion}

/-- The run that does nothing. -/
def zero : Excursion := ⟨0, 0, 0, le_rfl, le_rfl, le_rfl, le_rfl⟩

/-- `e` and then `f`: the offsets of `f` count from where `e` ends. -/
def comp (e f : Excursion) : Excursion where
  low := min e.low (e.net + f.low)
  high := max e.high (e.net + f.high)
  net := e.net + f.net
  low_le_zero := by have := e.low_le_zero; omega
  low_le_net := by have := f.low_le_net; omega
  zero_le_high := by have := e.zero_le_high; omega
  net_le_high := by have := f.net_le_high; omega

@[simp] theorem low_comp : (e.comp f).low = min e.low (e.net + f.low) := rfl

@[simp] theorem high_comp : (e.comp f).high = max e.high (e.net + f.high) := rfl

@[simp] theorem net_comp : (e.comp f).net = e.net + f.net := rfl

theorem comp_assoc (e f g : Excursion) : (e.comp f).comp g = e.comp (f.comp g) := by
  ext <;> simp only [low_comp, high_comp, net_comp] <;> omega

theorem zero_comp (e : Excursion) : zero.comp e = e := by
  have := e.low_le_zero
  have := e.zero_le_high
  ext <;> simp only [low_comp, high_comp, net_comp, zero] <;> omega

theorem comp_zero (e : Excursion) : e.comp zero = e := by
  have := e.low_le_net
  have := e.net_le_high
  ext <;> simp only [low_comp, high_comp, net_comp, zero] <;> omega

/-- The value at the end of `e` run from `b`, when the value stays in `[0, bound]` all along. -/
def run (bound : ℤ) (e : Excursion) (b : ℤ) : Option ℤ :=
  if 0 ≤ b + e.low ∧ b + e.high ≤ bound then some (b + e.net) else none

theorem run_eq_some_iff : e.run bound b = some c ↔ 0 ≤ b + e.low ∧ b + e.high ≤ bound ∧
    c = b + e.net := by
  unfold run
  split
  · rename_i h
    simp only [Option.some.injEq]
    exact ⟨fun hc => ⟨h.1, h.2, hc.symm⟩, fun hc => hc.2.2.symm⟩
  · rename_i h
    simp only [reduceCtorEq, false_iff]
    exact fun hc => h ⟨hc.1, hc.2.1⟩

/-- A run ends inside `[0, bound]`. -/
theorem bounds_of_run_eq_some (h : e.run bound b = some c) : 0 ≤ c ∧ c ≤ bound := by
  obtain ⟨hlow, hhigh, rfl⟩ := run_eq_some_iff.mp h
  have := e.low_le_net
  have := e.net_le_high
  omega

/-- Running a composition is running its parts in turn: `f` starts where `e` ended. -/
theorem run_comp (bound : ℤ) (e f : Excursion) (b : ℤ) :
    (e.comp f).run bound b = (e.run bound b).bind (f.run bound) := by
  refine Option.ext fun c => ?_
  cases he : e.run bound b with
  | none =>
    -- `e` leaves the interval, and `e.comp f` passes through the same offsets
    have hout : ∀ x, ¬(0 ≤ b + e.low ∧ b + e.high ≤ bound ∧ x = b + e.net) := fun x hx => by
      rw [run_eq_some_iff.mpr hx] at he
      cases he
    simp only [Option.bind_none, reduceCtorEq, iff_false, run_eq_some_iff, low_comp, high_comp]
    exact fun hc => hout _ ⟨by omega, by omega, rfl⟩
  | some x =>
    obtain ⟨hlow, hhigh, rfl⟩ := run_eq_some_iff.mp he
    simp only [Option.bind_some, run_eq_some_iff, low_comp, high_comp, net_comp]
    constructor
    · intro hc
      exact ⟨by omega, by omega, by omega⟩
    · intro hc
      exact ⟨by omega, by omega, by omega⟩

/-- A composition run from a natural start passes a natural value between its parts. -/
theorem run_comp_eq_some_iff (b : ℕ) : (e.comp f).run bound b = some c ↔
    ∃ x : ℕ, e.run bound b = some (x : ℤ) ∧ f.run bound x = some c := by
  rw [run_comp]
  constructor
  · intro h
    obtain ⟨y, hy, hfy⟩ := Option.bind_eq_some_iff.mp h
    have hy0 := (bounds_of_run_eq_some hy).1
    refine ⟨y.toNat, ?_, ?_⟩
    · rw [Int.toNat_of_nonneg hy0]
      exact hy
    · rw [Int.toNat_of_nonneg hy0]
      exact hfy
  · rintro ⟨x, hx, hfx⟩
    rw [hx]
    exact hfx

/-- A composition runs from no natural start when its second part runs from none. -/
theorem run_comp_eq_none_of_right (h : ∀ x : ℕ, f.run bound x = none) (b : ℕ) :
    (e.comp f).run bound b = none := by
  cases hc : (e.comp f).run bound b with
  | none => rfl
  | some c =>
    obtain ⟨x, -, hfx⟩ := (run_comp_eq_some_iff b).mp hc
    rw [h x] at hfx
    cases hfx

/-- A composition runs from no start when its first part runs from none. -/
theorem run_comp_eq_none_of_left (h : e.run bound b = none) : (e.comp f).run bound b = none := by
  rw [run_comp, h, Option.bind_none]

/-- The offsets stay within what a start in `[0, bound]` can absorb. -/
def Within (bound : ℤ) (e : Excursion) : Prop := e.high ≤ bound ∧ -bound ≤ e.low

instance (bound : ℤ) (e : Excursion) : Decidable (e.Within bound) :=
  inferInstanceAs (Decidable (_ ∧ _))

/-- An excursion that goes further than `bound` up, or further than `bound` down, runs from no
start in `[0, ∞)`. -/
theorem run_eq_none_of_not_within (hb : 0 ≤ b) (h : ¬e.Within bound) : e.run bound b = none := by
  have := e.zero_le_high
  unfold run
  exact if_neg fun hin => h ⟨by omega, by omega⟩

/-- The composition of a list of excursions, first to last. -/
def compAll (es : List Excursion) : Excursion := es.foldr comp zero

@[simp] theorem compAll_nil : compAll [] = zero := rfl

@[simp] theorem compAll_cons (e : Excursion) (es : List Excursion) :
    compAll (e :: es) = e.comp (compAll es) := rfl

theorem compAll_append (es fs : List Excursion) :
    compAll (es ++ fs) = (compAll es).comp (compAll fs) := by
  induction es with
  | nil => rw [List.nil_append, compAll_nil, zero_comp]
  | cons e es ih => rw [List.cons_append, compAll_cons, compAll_cons, ih, comp_assoc]

@[simp] theorem compAll_singleton (e : Excursion) : compAll [e] = e := comp_zero e

end Excursion
