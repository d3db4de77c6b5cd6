import Mathlib

/-! An undo journal with nested checkpoints. The journal is a stack of partial maps, newest
first, each holding the first pre-image of every key changed while it was the newest. Reverting
the newest checkpoint puts its pre-images back; discarding it merges it into the one below, whose
own pre-images win, being older.

What a journal means is the stack of snapshots it can restore (`snapshots`): the view after
undoing every checkpoint down to a given one. The lemmas say how each operation moves that
stack: recording a first pre-image and then changing the key leaves it, opening a checkpoint
pushes the current view, and a merge or a revert pops it.

The journal's maps are read through lookup functions `K → Option R`, and a record `r` restores the
view `restore k r`, so the same lemmas serve any map type and any kind of pre-image. The first
section proves how a fold of keyed updates over a list of distinct keys reads back, which is how
the maps' contents are iterated. -/
namespace Store

section Fold

variable {M K R X : Type} (get : M → K → X) (upd : M → K × R → M)

/-- A fold of keyed updates leaves the keys it does not update. -/
theorem get_foldl_of_not_mem (hframe : ∀ m k r j, k ≠ j → get (upd m (k, r)) j = get m j) :
    ∀ (entries : List (K × R)) (m : M) {j : K}, j ∉ entries.map Prod.fst →
      get (entries.foldl upd m) j = get m j
  | [], _, _, _ => rfl
  | (k, r) :: entries, m, j, h => by
    simp only [List.map_cons, List.mem_cons, not_or] at h
    rw [List.foldl_cons, get_foldl_of_not_mem hframe entries _ h.2, hframe m k r j (Ne.symm h.1)]

/-- Over distinct keys, a fold of keyed updates gives each key its own update. -/
theorem get_foldl_of_mem (g : K → R → X → X)
    (hframe : ∀ m k r j, k ≠ j → get (upd m (k, r)) j = get m j)
    (hself : ∀ m k r, get (upd m (k, r)) k = g k r (get m k)) :
    ∀ (entries : List (K × R)) (m : M) {j : K} {r : R}, (entries.map Prod.fst).Nodup →
      (j, r) ∈ entries → get (entries.foldl upd m) j = g j r (get m j)
  | [], _, _, _, _, h => absurd h List.not_mem_nil
  | (k, r') :: entries, m, j, r, hnodup, h => by
    simp only [List.map_cons, List.nodup_cons] at hnodup
    rw [List.foldl_cons]
    rcases List.mem_cons.mp h with heq | hmem
    · -- the key's own update comes first, and no later one touches it
      obtain ⟨rfl, rfl⟩ := Prod.mk.inj heq
      rw [get_foldl_of_not_mem get upd hframe entries _ hnodup.1, hself]
    · have hne : k ≠ j := fun hkj => hnodup.1 (hkj ▸ List.mem_map_of_mem hmem)
      rw [get_foldl_of_mem g hframe hself entries _ hnodup.2 hmem, hframe m k r' j hne]

/-- A fold of keyed updates over the entries of a hash map gives each key the update of its
entry, and leaves the keys the map does not hold. -/
theorem get_foldl_toList [BEq K] [LawfulBEq K] [Hashable K] (g : K → R → X → X)
    (hframe : ∀ m k r j, k ≠ j → get (upd m (k, r)) j = get m j)
    (hself : ∀ m k r, get (upd m (k, r)) k = g k r (get m k)) (t : Std.HashMap K R) (m : M)
    (j : K) :
    get (t.toList.foldl upd m) j =
      match t[j]? with
      | some r => g j r (get m j)
      | none => get m j := by
  cases hc : t[j]? with
  | some r =>
    have hnodup : (t.toList.map Prod.fst).Nodup := by
      rw [Std.HashMap.map_fst_toList_eq_keys]
      exact Std.HashMap.nodup_keys
    exact get_foldl_of_mem get upd g hframe hself t.toList m hnodup
      (Std.HashMap.mem_toList_iff_getElem?_eq_some.mpr hc)
  | none =>
    apply get_foldl_of_not_mem get upd hframe
    intro hmem
    obtain ⟨⟨k, r⟩, hkr, hk⟩ := List.mem_map.mp hmem
    have hsome := Std.HashMap.mem_toList_iff_getElem?_eq_some.mp hkr
    simp only at hk
    rw [hk, hc] at hsome
    cases hsome

end Fold

section Journal

variable {K V R : Type} (restore : K → R → V)

/-- The view after undoing one checkpoint: a key it records takes its pre-image back. -/
def undo (c : K → Option R) (cur : K → V) : K → V :=
  fun k =>
    match c k with
    | some r => restore k r
    | none => cur k

/-- The snapshots a stack of checkpoints can restore, newest first: each is the view after
undoing every checkpoint down to its own. -/
def snapshots : List (K → Option R) → (K → V) → List (K → V)
  | [], _ => []
  | c :: cs, cur => undo restore c cur :: snapshots cs (undo restore c cur)

@[simp] theorem snapshots_nil (cur : K → V) : snapshots restore [] cur = [] := rfl

theorem snapshots_cons (c : K → Option R) (cs : List (K → Option R)) (cur : K → V) :
    snapshots restore (c :: cs) cur = undo restore c cur :: snapshots restore cs (undo restore c cur) :=
  rfl

/-- There is one snapshot for each checkpoint. -/
@[simp] theorem length_snapshots :
    ∀ (cs : List (K → Option R)) (cur : K → V), (snapshots restore cs cur).length = cs.length
  | [], _ => rfl
  | c :: cs, cur => by rw [snapshots_cons, List.length_cons, length_snapshots cs, List.length_cons]

/-- An empty checkpoint undoes nothing. -/
@[simp] theorem undo_none (cur : K → V) : undo restore (fun _ => none) cur = cur := rfl

/-- Opening a checkpoint pushes the current view. -/
theorem snapshots_push (cs : List (K → Option R)) (cur : K → V) :
    snapshots restore ((fun _ => none) :: cs) cur = cur :: snapshots restore cs cur := rfl

section Record

variable [DecidableEq K]

/-- Recording `r` as the pre-image of `k`, unless the checkpoint already holds one. -/
def record (c : K → Option R) (k : K) (r : R) : K → Option R :=
  fun j => if j = k then (c k).or (some r) else c j

/-- Recording the current pre-image of a key and then changing the key leaves the undone view:
the pre-image the checkpoint keeps for the key is the one it restores. -/
theorem undo_record {c : K → Option R} {cur cur' : K → V} {k : K} {r : R}
    (hr : c k = none → restore k r = cur k) (hcur : ∀ j, j ≠ k → cur' j = cur j) :
    undo restore (record c k r) cur' = undo restore c cur := by
  funext j
  by_cases hj : j = k
  · subst hj
    unfold undo record
    cases hc : c j with
    | some r₀ => simp
    | none => simp [hr hc]
  · unfold undo record
    rw [if_neg hj, hcur j hj]

theorem snapshots_record {c : K → Option R} {cs : List (K → Option R)} {cur cur' : K → V} {k : K}
    {r : R} (hr : c k = none → restore k r = cur k) (hcur : ∀ j, j ≠ k → cur' j = cur j) :
    snapshots restore (record c k r :: cs) cur' = snapshots restore (c :: cs) cur := by
  rw [snapshots_cons, snapshots_cons, undo_record restore hr hcur]

end Record

/-- Merging a checkpoint into the one below, whose pre-images win: `c₁` is the older one. -/
def merge (c₀ c₁ : K → Option R) : K → Option R := fun k => (c₁ k).or (c₀ k)

/-- Undoing the merged checkpoint is undoing the newer one, then the older. -/
theorem undo_merge (c₀ c₁ : K → Option R) (cur : K → V) :
    undo restore (merge c₀ c₁) cur = undo restore c₁ (undo restore c₀ cur) := by
  funext k
  unfold undo merge
  cases c₁ k <;> cases c₀ k <;> rfl

/-- A merge pops the newest snapshot and keeps the rest. -/
theorem snapshots_merge (c₀ c₁ : K → Option R) (cs : List (K → Option R)) (cur : K → V) :
    snapshots restore (merge c₀ c₁ :: cs) cur = (snapshots restore (c₀ :: c₁ :: cs) cur).tail := by
  rw [snapshots_cons, undo_merge, snapshots_cons, snapshots_cons, List.tail_cons]

end Journal

end Store
