import Mathlib

/-! Association lists kept in increasing order of a strict total order on their keys, with one
entry for each key: a `BTreeMap` as the list its iterator yields. `collect` inserts the pairs in
turn, so a later pair replaces an earlier one with the same key. -/
namespace SortedMap

variable {κ ν : Type} [DecidableEq κ]

@[simp] theorem lookup_cons (k k' : κ) (v : ν) (m : List (κ × ν)) :
    ((k, v) :: m).lookup k' = if k' = k then some v else m.lookup k' := by
  simp only [List.lookup_cons]
  split <;> simp_all

theorem lookup_eq_none_of_forall_ne {l : List (κ × ν)} {k : κ} (h : ∀ kv ∈ l, kv.1 ≠ k) :
    l.lookup k = none :=
  List.lookup_eq_none_iff.mpr fun kv hkv => bne_iff_ne.mpr (Ne.symm (h kv hkv))

theorem lookup_eq_none_of_not_mem {l : List (κ × ν)} {k : κ} (h : k ∉ l.map Prod.fst) :
    l.lookup k = none :=
  lookup_eq_none_of_forall_ne fun _ hkv hk => h (hk ▸ List.mem_map_of_mem hkv)

theorem mem_of_lookup_eq_some {l : List (κ × ν)} {k : κ} {v : ν} (h : l.lookup k = some v) :
    (k, v) ∈ l := by
  obtain ⟨l₁, l₂, rfl, -⟩ := List.lookup_eq_some_iff.mp h
  exact List.mem_append_right _ List.mem_cons_self

theorem not_mem_of_lookup_eq_none {l : List (κ × ν)} {k : κ} (h : l.lookup k = none) (v : ν) :
    (k, v) ∉ l := fun hmem => by
  have hne := List.lookup_eq_none_iff.mp h (k, v) hmem
  simp at hne

/-- Looked up along a list that holds each key once, a map with one entry for each key yields
its values, in some order. -/
theorem perm_filterMap_lookup {univ : List κ} (huniv : univ.Nodup) :
    ∀ {l : List (κ × ν)}, (l.map Prod.fst).Nodup → (∀ p ∈ l, p.1 ∈ univ) →
      (univ.filterMap fun k => l.lookup k).Perm (l.map Prod.snd)
  | [], _, _ => by simp
  | (a, b) :: l, hl, hmem => by
    rw [List.map_cons, List.nodup_cons] at hl
    have hau : a ∈ univ := hmem (a, b) List.mem_cons_self
    obtain ⟨s, t, rfl⟩ := List.append_of_mem hau
    have ha : a ∉ s ∧ a ∉ t := by
      have h := (List.nodup_middle.mp huniv)
      rw [List.nodup_cons, List.mem_append] at h
      exact not_or.mp h.1
    have ih := perm_filterMap_lookup huniv hl.2 fun p hp => hmem p (List.mem_cons_of_mem _ hp)
    -- away from `a`, the map looks up as its tail
    have hrest : ∀ u : List κ, a ∉ u →
        (u.filterMap fun k => ((a, b) :: l).lookup k) = u.filterMap fun k => l.lookup k :=
      fun u hu => List.filterMap_congr fun k hk => by
        rw [lookup_cons, if_neg fun h : k = a => hu (h ▸ hk)]
    rw [List.filterMap_append,
      List.filterMap_cons_none (f := fun k => l.lookup k) (lookup_eq_none_of_not_mem hl.1)] at ih
    rw [List.filterMap_append, List.filterMap_cons_some (f := fun k => ((a, b) :: l).lookup k)
        (by rw [lookup_cons, if_pos rfl]),
      hrest s ha.1, hrest t ha.2, List.map_cons]
    exact List.perm_middle.trans (ih.cons b)

section Parts

variable {ι β : Type} [DecidableEq β] (g : κ → β) (label : ι → β) (part : ι → List (κ × ν))

/-- A list cut into parts whose keys carry the label of their part, with one part to a label:
each part holds for a key with its label what the whole list does, and nothing for the others. -/
theorem lookup_part : ∀ {rs : List ι}, (∀ r ∈ rs, ∀ kv ∈ part r, g kv.1 = label r) →
    (rs.map label).Nodup → ∀ {r}, r ∈ rs → ∀ k,
      (part r).lookup k = if g k = label r then (rs.flatMap part).lookup k else none
  | [], _, _, _, hr, _ => absurd hr List.not_mem_nil
  | r₀ :: rs, hg, hnodup, r, hr, k => by
    rw [List.map_cons, List.nodup_cons] at hnodup
    have hrest : ∀ r ∈ rs, label r ≠ label r₀ := fun r hr h =>
      hnodup.1 (h ▸ List.mem_map_of_mem hr)
    rw [List.flatMap_cons, List.lookup_append]
    rcases List.mem_cons.mp hr with rfl | hr
    · by_cases hk : g k = label r
      · -- the other parts have other labels, so nothing of `k`
        have hnone : (rs.flatMap part).lookup k = none := lookup_eq_none_of_forall_ne fun kv hkv hkk => by
          obtain ⟨r', hr', hkv'⟩ := List.mem_flatMap.mp hkv
          exact hrest r' hr' (by rw [← hg r' (List.mem_cons_of_mem _ hr') kv hkv', hkk, hk])
        rw [if_pos hk, hnone, Option.or_none]
      · rw [if_neg hk]
        exact lookup_eq_none_of_forall_ne fun kv hkv hkk =>
          hk (hkk ▸ hg r List.mem_cons_self kv hkv)
    · have ih := lookup_part (fun r hr => hg r (List.mem_cons_of_mem _ hr)) hnodup.2 hr k
      rw [ih]
      by_cases hk : g k = label r
      · have hnone : (part r₀).lookup k = none := lookup_eq_none_of_forall_ne fun kv hkv hkk =>
          hrest r hr (by rw [← hk, ← hkk, hg r₀ List.mem_cons_self kv hkv])
        rw [if_pos hk, if_pos hk, hnone, Option.none_or]
      · rw [if_neg hk, if_neg hk]

omit [DecidableEq β] in
/-- A key whose label no part has is not in the list. -/
theorem lookup_flatMap_eq_none {rs : List ι} (hg : ∀ r ∈ rs, ∀ kv ∈ part r, g kv.1 = label r)
    {k : κ} (hk : ∀ r ∈ rs, label r ≠ g k) : (rs.flatMap part).lookup k = none :=
  lookup_eq_none_of_forall_ne fun kv hkv hkk => by
    obtain ⟨r, hr, hkv⟩ := List.mem_flatMap.mp hkv
    exact hk r hr (by rw [← hg r hr kv hkv, hkk])

end Parts

variable [LT κ] [DecidableRel (α := κ) (· < ·)]

/-- `BTreeMap::insert`, on the map as its sorted list of entries. -/
def insert (k : κ) (v : ν) : List (κ × ν) → List (κ × ν)
  | [] => [(k, v)]
  | (k', v') :: rest =>
    if k < k' then (k, v) :: (k', v') :: rest
    else if k = k' then (k, v) :: rest
    else (k', v') :: insert k v rest

/-- `collect::<BTreeMap<_, _>>()`: the pairs inserted in order. -/
def ofList (l : List (κ × ν)) : List (κ × ν) := l.foldl (fun m p => insert p.1 p.2 m) []

/-- The entries are in strictly increasing order of their keys. -/
def Sorted (m : List (κ × ν)) : Prop := m.Pairwise fun a b => a.1 < b.1

theorem mem_insert {k : κ} {v : ν} {m : List (κ × ν)} {p : κ × ν} (h : p ∈ insert k v m) :
    p = (k, v) ∨ p ∈ m := by
  induction m with
  | nil =>
    rw [insert, List.mem_singleton] at h
    exact .inl h
  | cons q rest ih =>
    obtain ⟨k', v'⟩ := q
    rw [insert] at h
    split_ifs at h with hlt heq
    · rcases List.mem_cons.mp h with rfl | h
      · exact .inl rfl
      · exact .inr h
    · rcases List.mem_cons.mp h with rfl | h
      · exact .inl rfl
      · exact .inr (List.mem_cons_of_mem _ h)
    · rcases List.mem_cons.mp h with rfl | h
      · exact .inr List.mem_cons_self
      · rcases ih h with rfl | h
        · exact .inl rfl
        · exact .inr (List.mem_cons_of_mem _ h)

/-- Inserting sets the value of its key and keeps the others. -/
theorem lookup_insert (k k' : κ) (v : ν) (m : List (κ × ν)) :
    (insert k v m).lookup k' = if k' = k then some v else m.lookup k' := by
  induction m with
  | nil => simp [insert]
  | cons q rest ih =>
    obtain ⟨k₁, v₁⟩ := q
    rw [insert]
    by_cases hlt : k < k₁
    · rw [if_pos hlt, lookup_cons]
    · by_cases heq : k = k₁
      · -- the old entry of the key is replaced
        subst heq
        rw [if_neg hlt, if_pos rfl, lookup_cons, lookup_cons]
        split_ifs <;> rfl
      · -- the key goes further down, past the entry of another key
        rw [if_neg hlt, if_neg heq, lookup_cons, ih, lookup_cons]
        by_cases h₁ : k' = k₁
        · have hne : k' ≠ k := fun h => heq (h ▸ h₁)
          rw [if_pos h₁, if_neg hne, if_pos h₁]
        · simp only [if_neg h₁]

theorem lookup_foldl_insert (l m : List (κ × ν)) (k : κ) :
    (l.foldl (fun m p => insert p.1 p.2 m) m).lookup k = (l.reverse.lookup k).or (m.lookup k) := by
  induction l generalizing m with
  | nil => rfl
  | cons p l ih =>
    obtain ⟨k₀, v₀⟩ := p
    rw [List.foldl_cons, ih, lookup_insert, List.reverse_cons, List.lookup_append, Option.or_assoc,
      lookup_cons, List.lookup_nil]
    split_ifs <;> rfl

/-- The map holds for each key the value of its last pair. -/
theorem lookup_ofList (l : List (κ × ν)) (k : κ) : (ofList l).lookup k = l.reverse.lookup k := by
  rw [ofList, lookup_foldl_insert]
  exact Option.or_none

theorem length_insert_le (k : κ) (v : ν) : ∀ m : List (κ × ν), (insert k v m).length ≤ m.length + 1
  | [] => le_rfl
  | (k', v') :: rest => by
    rw [insert]
    split_ifs
    · exact le_rfl
    · simp
    · simpa using length_insert_le k v rest

/-- `collect` into a map keeps at most one entry for each pair. -/
theorem length_ofList_le (l : List (κ × ν)) : (ofList l).length ≤ l.length := by
  suffices h : ∀ m : List (κ × ν), (l.foldl (fun m p => insert p.1 p.2 m) m).length ≤ m.length + l.length from
    by simpa [ofList] using h []
  induction l with
  | nil => intro m; simp
  | cons p l ih =>
    intro m
    rw [List.foldl_cons, List.length_cons]
    have := ih (insert p.1 p.2 m)
    have := length_insert_le p.1 p.2 m
    omega

variable [IsStrictTotalOrder κ (· < ·)]

theorem Sorted.insert {m : List (κ × ν)} (hm : Sorted m) (k : κ) (v : ν) :
    Sorted (insert k v m) := by
  induction m with
  | nil => exact List.pairwise_singleton _ _
  | cons q rest ih =>
    obtain ⟨k', v'⟩ := q
    have hrest : Sorted rest := (List.pairwise_cons.mp hm).2
    have habove : ∀ p ∈ rest, k' < p.1 := (List.pairwise_cons.mp hm).1
    unfold SortedMap.insert
    split_ifs with hlt heq
    · -- the new entry comes first, below the old first one and so below all
      refine List.Pairwise.cons (fun p hp => ?_) hm
      rcases List.mem_cons.mp hp with rfl | hp
      · exact hlt
      · exact IsTrans.trans _ _ _ hlt (habove p hp)
    · subst heq
      exact List.Pairwise.cons habove hrest
    · have hgt : k' < k := by
        rcases trichotomous (r := (· < ·)) k k' with h | h | h
        · exact absurd h hlt
        · exact absurd h heq
        · exact h
      refine List.Pairwise.cons (fun p hp => ?_) (ih hrest)
      rcases mem_insert hp with rfl | hp
      · exact hgt
      · exact habove p hp

theorem sorted_foldl_insert (l : List (κ × ν)) {m : List (κ × ν)} (hm : Sorted m) :
    Sorted (l.foldl (fun m p => insert p.1 p.2 m) m) := by
  induction l generalizing m with
  | nil => exact hm
  | cons p l ih => exact ih (hm.insert p.1 p.2)

/-- `collect` yields its entries in strictly increasing order of their keys. -/
theorem sorted_ofList (l : List (κ × ν)) : Sorted (ofList l) :=
  sorted_foldl_insert l List.Pairwise.nil

end SortedMap
