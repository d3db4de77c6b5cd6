import Mathlib

/-! Runs given as the list of their steps, each step starting where the one before it ended.
What every step does carries from one point of a run to a later one, and a property that holds at
some point but not at the start was brought about by a step before that point. Nothing here is
specific to one program. -/
namespace Control

variable {σ β : Type} {before after : β → σ} {tr : List β}

/-- Each step of `tr` starts in the state the one before it ended in. -/
def Linked (before after : β → σ) (tr : List β) : Prop :=
  ∀ k a b, tr[k]? = some a → tr[k + 1]? = some b → before b = after a

theorem exists_getElem?_of_succ {k : Nat} {b : β} (hb : tr[k + 1]? = some b) :
    ∃ c, tr[k]? = some c := by
  have hlen : k < tr.length := by
    have := (List.getElem?_eq_some_iff.mp hb).1
    omega
  exact ⟨tr[k], List.getElem?_eq_getElem hlen⟩

/-- A relation that every step makes between its start and its end holds, closed under
reflexivity and transitivity, from the start of a step to the start of any later one. -/
theorem Linked.reflTransGen_before {R : σ → σ → Prop} (hl : Linked before after tr)
    (hstep : ∀ x ∈ tr, R (before x) (after x)) {i j : Nat} {a b : β} (hij : i ≤ j)
    (ha : tr[i]? = some a) (hb : tr[j]? = some b) :
    Relation.ReflTransGen R (before a) (before b) := by
  induction j generalizing b with
  | zero =>
    obtain rfl : i = 0 := by omega
    obtain rfl : a = b := Option.some.inj (ha.symm.trans hb)
    exact .refl
  | succ j ih =>
    rcases Nat.lt_or_ge i (j + 1) with hlt | hge
    · -- the run reaches the start of `b` through the step just before it
      obtain ⟨c, hc⟩ := exists_getElem?_of_succ hb
      rw [hl j c b hc hb]
      exact (ih (by omega) hc).tail (hstep _ (List.mem_of_getElem? hc))
    · obtain rfl : i = j + 1 := by omega
      obtain rfl : a = b := Option.some.inj (ha.symm.trans hb)
      exact .refl

/-- The same relation from the end of a step to the start of any later one. -/
theorem Linked.reflTransGen_after_before {R : σ → σ → Prop} (hl : Linked before after tr)
    (hstep : ∀ x ∈ tr, R (before x) (after x)) {i j : Nat} {a b : β} (hij : i < j)
    (ha : tr[i]? = some a) (hb : tr[j]? = some b) :
    Relation.ReflTransGen R (after a) (before b) := by
  have hlen : i + 1 < tr.length := by
    have := (List.getElem?_eq_some_iff.mp hb).1
    omega
  have hc : tr[i + 1]? = some tr[i + 1] := List.getElem?_eq_getElem hlen
  rw [← hl i a _ ha hc]
  exact hl.reflTransGen_before hstep hij hc hb

/-- A property of the start of a step that the start of the run lacks, and that the end of a
step has only if its start has it or the step is an event, was brought about by an event before
that step. -/
theorem Linked.exists_event_of_before {Q : σ → Prop} {E : β → Prop} (hl : Linked before after tr)
    (hstep : ∀ x ∈ tr, Q (after x) → Q (before x) ∨ E x)
    (hfirst : ∀ a, tr[0]? = some a → ¬ Q (before a)) {j : Nat} {b : β} (hb : tr[j]? = some b)
    (hq : Q (before b)) : ∃ k < j, ∃ x, tr[k]? = some x ∧ E x := by
  induction j generalizing b with
  | zero => exact absurd hq (hfirst b hb)
  | succ j ih =>
    obtain ⟨c, hc⟩ := exists_getElem?_of_succ hb
    rw [hl j c b hc hb] at hq
    rcases hstep c (List.mem_of_getElem? hc) hq with hq | he
    · obtain ⟨k, hk, x, hx, he⟩ := ih hc hq
      exact ⟨k, by omega, x, hx, he⟩
    · exact ⟨j, by omega, c, hc, he⟩

end Control
