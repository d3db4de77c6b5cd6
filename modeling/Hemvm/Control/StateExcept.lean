import Mathlib

/-! Specifications of `EStateM` actions in both directions: a triple of `Std.Do`, which `mvcgen`
proves, and the fact it states about `run`, which a proof about a sequence of actions uses.
Nothing here is specific to one program. -/
namespace Control
open Std.Do

variable {ε σ α : Type}

/-- What a postcondition of `EStateM`, split into its success and its failure part, says of one
result. -/
def Holds (Q : α → σ → Prop) (E : ε → σ → Prop) : EStateM.Result ε σ α → Prop
  | .ok a s => Q a s
  | .error e s => E e s

/-- The weakest precondition of an `EStateM` action is its postcondition at the result of the
run. -/
theorem wp_iff_holds {x : EStateM ε σ α} {Q : α → σ → Prop} {E : ε → σ → Prop} {s : σ} :
    (wp⟦x⟧ post⟨fun a s => ⌜Q a s⌝, fun e s => ⌜E e s⌝⟩ s).down ↔ Holds Q E (x.run s) := by
  simp only [wp, PredTrans.apply]
  cases x.run s <;> rfl

theorem triple_of_run {x : EStateM ε σ α} {P : σ → Prop} {Q : α → σ → Prop}
    {E : ε → σ → Prop} (h : ∀ s, P s → Holds Q E (x.run s)) :
    ⦃fun s => ⌜P s⌝⦄ x ⦃post⟨fun a s => ⌜Q a s⌝, fun e s => ⌜E e s⌝⟩⦄ :=
  fun s hs => wp_iff_holds.mpr (h s hs)

theorem run_of_triple {x : EStateM ε σ α} {P : σ → Prop} {Q : α → σ → Prop}
    {E : ε → σ → Prop} (h : ⦃fun s => ⌜P s⌝⦄ x ⦃post⟨fun a s => ⌜Q a s⌝, fun e s => ⌜E e s⌝⟩⦄)
    {s : σ} (hs : P s) : Holds Q E (x.run s) :=
  wp_iff_holds.mp (h s hs)

/-- An action that keeps each member of a family of invariants keeps their union over any set of
indices. -/
theorem triple_exists_of_forall {γ : Type} {x : EStateM ε σ α} (R : γ → Prop) {I : γ → σ → Prop}
    (h : ∀ g, ⦃fun s => ⌜I g s⌝⦄ x ⦃post⟨fun _ s => ⌜I g s⌝, fun _ s => ⌜I g s⌝⟩⦄) :
    ⦃fun s => ⌜∃ g, R g ∧ I g s⌝⦄ x
    ⦃post⟨fun _ s => ⌜∃ g, R g ∧ I g s⌝, fun _ s => ⌜∃ g, R g ∧ I g s⌝⟩⦄ := by
  apply triple_of_run
  rintro s ⟨g, hg, hs⟩
  have hrun := run_of_triple (h g) hs
  revert hrun
  cases x.run s with
  | ok a s' => exact fun hi => ⟨g, hg, hi⟩
  | error e s' => exact fun hi => ⟨g, hg, hi⟩

end Control
