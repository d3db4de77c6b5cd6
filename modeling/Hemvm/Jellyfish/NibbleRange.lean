import Hemvm.Types

/-! `NibbleRangeIterator` of `jellyfish-merkle`: over a sorted batch of key hashes that agree on
their first `nibble_idx` nibbles, the index ranges of the keys that share each value of the next
nibble. `batch_update_subtree` and `batch_insert_at` recurse into one child per range. Each range
end is found by a binary search with an upper midpoint; it terminates because the window shrinks
on every step, and it stays in bounds because the window stays inside the slice. -/
namespace Hemvm.Jellyfish
open Codec

/-- `ROOT_NIBBLE_HEIGHT`: a `HashValue` has 64 nibbles. -/
def rootNibbleHeight : Nat := 64

/-- `HashValue::nibble`: the high half of byte `index / 2` for an even `index`, the low half for
an odd one. `index < 64` is its precondition, so the byte exists. -/
def nibble (h : H256) (index : Nat) : UInt8 :=
  (h.bytes.getD (index / 2) 0 >>> (if index % 2 = 0 then 4 else 0)) &&& 0x0F

theorem toNat_nibble (h : H256) (index : Nat) :
    (nibble h index).toNat = if index % 2 = 0 then (h.bytes.getD (index / 2) 0).toNat / 16
      else (h.bytes.getD (index / 2) 0).toNat % 16 := by
  have hlt := (h.bytes.getD (index / 2) 0).toNat_lt
  unfold nibble
  rw [UInt8.toNat_and, UInt8.toNat_shiftRight, show (0x0F : UInt8).toNat = 2 ^ 4 - 1 from rfl,
    Nat.and_two_pow_sub_one_eq_mod]
  split
  · -- the high half
    rw [show (4 : UInt8).toNat % 8 = 4 from rfl, Nat.shiftRight_eq_div_pow]
    omega
  · rw [show (0 : UInt8).toNat % 8 = 0 from rfl, Nat.shiftRight_zero]

/-- Of two byte strings in lexicographic order that agree below `p`, the first has the smaller
byte at `p`. -/
theorem getD_le_of_lt {l₁ l₂ : List UInt8} (h : l₁ < l₂) {p : Nat}
    (hagree : ∀ t < p, l₁.getD t 0 = l₂.getD t 0) (h1 : p < l₁.length) (h2 : p < l₂.length) :
    (l₁.getD p 0).toNat ≤ (l₂.getD p 0).toNat := by
  induction p generalizing l₁ l₂ with
  | zero =>
    obtain ⟨a, as, rfl⟩ := List.exists_cons_of_length_pos h1
    obtain ⟨b, bs, rfl⟩ := List.exists_cons_of_length_pos h2
    rcases List.cons_lt_cons_iff.mp h with hab | ⟨rfl, -⟩
    · exact Nat.le_of_lt (UInt8.lt_iff_toNat_lt.mp hab)
    · exact Nat.le_refl _
  | succ p ih =>
    obtain ⟨a, as, rfl⟩ := List.exists_cons_of_length_pos (show 0 < l₁.length by omega)
    obtain ⟨b, bs, rfl⟩ := List.exists_cons_of_length_pos (show 0 < l₂.length by omega)
    have hab : a = b := hagree 0 (Nat.succ_pos p)
    subst hab
    rcases List.cons_lt_cons_iff.mp h with hab | ⟨-, hlt⟩
    · exact absurd (UInt8.lt_iff_toNat_lt.mp hab) (Nat.lt_irrefl _)
    · rw [List.getD_cons_succ, List.getD_cons_succ]
      refine ih hlt (fun t ht => ?_) (by simpa using h1) (by simpa using h2)
      have := hagree (t + 1) (by omega)
      rwa [List.getD_cons_succ, List.getD_cons_succ] at this

/-- Keys in increasing order that agree on their first `d` nibbles have increasing nibbles at
`d`: the bytes below `d / 2` agree, so the byte at `d / 2` decides, and for an odd `d` its high
half agrees too. -/
theorem nibble_le_nibble {a b : H256} (hab : a.bytes < b.bytes) {d : Nat} (hd : d < 64)
    (hshared : ∀ t < d, nibble a t = nibble b t) : nibble a d ≤ nibble b d := by
  have hbyte : ∀ t < d / 2, a.bytes.getD t 0 = b.bytes.getD t 0 := fun t ht => by
    have hhi := congrArg UInt8.toNat (hshared (2 * t) (by omega))
    have hlo := congrArg UInt8.toNat (hshared (2 * t + 1) (by omega))
    simp only [toNat_nibble, show 2 * t % 2 = 0 by omega, show 2 * t / 2 = t by omega,
      show (2 * t + 1) % 2 = 1 by omega, show (2 * t + 1) / 2 = t by omega, ↓reduceIte,
      Nat.one_ne_zero] at hhi hlo
    exact UInt8.toNat_inj.mp (by omega)
  have hle := getD_le_of_lt hab hbyte (by rw [a.length_eq]; omega) (by rw [b.length_eq]; omega)
  apply UInt8.le_iff_toNat_le.mpr
  rw [toNat_nibble, toNat_nibble]
  split
  · exact Nat.div_le_div_right hle
  · -- the high halves are the nibble before `d`, which the keys share
    have hhi := congrArg UInt8.toNat (hshared (d - 1) (by omega))
    simp only [toNat_nibble, show (d - 1) % 2 = 0 by omega, show (d - 1) / 2 = d / 2 by omega,
      ↓reduceIte] at hhi
    omega

/-- `NibbleRangeIterator`. -/
structure NibbleRangeIterator (K : Type) where
  sortedKvs : List (H256 × K)
  nibbleIdx : Nat
  pos : Nat

namespace NibbleRangeIterator

variable {K : Type}

/-- `NibbleRangeIterator::new`, with its assertion. -/
def new (sortedKvs : List (H256 × K)) (nibbleIdx : Nat) : Except String (NibbleRangeIterator K) :=
  if nibbleIdx < rootNibbleHeight then .ok ⟨sortedKvs, nibbleIdx, 0⟩
  else .error "assertion failed: nibble_idx < ROOT_NIBBLE_HEIGHT"

/-- `sorted_kvs[index].0.nibble(nibble_idx)`, which panics past the end of the slice. -/
def nibbleAt (sortedKvs : List (H256 × K)) (nibbleIdx index : Nat) : Except String UInt8 :=
  match sortedKvs[index]? with
  | some (key, _) => .ok (nibble key nibbleIdx)
  | none => .error "index out of bounds"

/-- The `while i < j` loop of `next`, which finds the last index of `curNibble`. -/
def findLast (sortedKvs : List (H256 × K)) (nibbleIdx : Nat) (curNibble : UInt8) (i j : Nat) :
    Except String Nat :=
  if i < j then
    match nibbleAt sortedKvs nibbleIdx (j - (j - i) / 2) with
    | .ok midNibble =>
      if midNibble > curNibble then
        findLast sortedKvs nibbleIdx curNibble i (j - (j - i) / 2 - 1)
      else findLast sortedKvs nibbleIdx curNibble (j - (j - i) / 2) j
    | .error e => .error e
  else .ok i
termination_by j - i
decreasing_by all_goals omega

/-- `Iterator::next`. -/
def next (it : NibbleRangeIterator K) :
    Except String (Option ((Nat × Nat) × NibbleRangeIterator K)) :=
  if it.pos < it.sortedKvs.length then do
    let curNibble ← nibbleAt it.sortedKvs it.nibbleIdx it.pos
    let i ← findLast it.sortedKvs it.nibbleIdx curNibble it.pos (it.sortedKvs.length - 1)
    pure (some ((it.pos, i), { it with pos := i + 1 }))
  else pure none

/-- The search ends inside its window, or where it started. -/
theorem findLast_bounds {kvs : List (H256 × K)} {d : Nat} {cur : UInt8} {i j r : Nat}
    (h : findLast kvs d cur i j = .ok r) : i ≤ r ∧ (i ≤ j → r ≤ j) := by
  induction i, j using findLast.induct kvs d cur with
  | case1 i j hij n hn hgt ih =>
    rw [findLast, if_pos hij, hn] at h
    simp only [if_pos hgt] at h
    have := ih h
    omega
  | case2 i j hij n hn hgt ih =>
    rw [findLast, if_pos hij, hn] at h
    simp only [if_neg hgt] at h
    have := ih h
    omega
  | case3 i j hij e he =>
    rw [findLast, if_pos hij, he] at h
    cases h
  | case4 i j hij =>
    rw [findLast, if_neg hij] at h
    cases h
    omega

/-- Each step of the iterator moves past the range it yields. -/
theorem pos_lt_of_next {it it' : NibbleRangeIterator K} {range : Nat × Nat}
    (h : it.next = .ok (some (range, it'))) :
    it'.sortedKvs = it.sortedKvs ∧ it.pos < it'.pos ∧ it'.pos ≤ it.sortedKvs.length := by
  unfold next at h
  split at h
  · rename_i hpos
    cases hcur : nibbleAt it.sortedKvs it.nibbleIdx it.pos with
    | error e => simp only [hcur, Control.error_bind, reduceCtorEq] at h
    | ok cur =>
      cases hi : findLast it.sortedKvs it.nibbleIdx cur it.pos (it.sortedKvs.length - 1) with
      | error e => simp only [hcur, hi, Control.ok_bind, Control.error_bind, reduceCtorEq] at h
      | ok i =>
        simp only [hcur, hi, Control.ok_bind, pure, Except.pure, Except.ok.injEq, Option.some.injEq,
          Prod.mk.injEq] at h
        obtain ⟨-, rfl⟩ := h
        have := findLast_bounds hi
        refine ⟨rfl, ?_, ?_⟩ <;> dsimp only <;> omega
  · cases h

/-- The ranges that `for (left, right) in NibbleRangeIterator::new(..)` takes, in order. -/
def ranges (it : NibbleRangeIterator K) : Except String (List (Nat × Nat)) :=
  match h : it.next with
  | .ok (some (range, it')) => do
    have := pos_lt_of_next h
    let rest ← ranges it'
    pure (range :: rest)
  | .ok none => .ok []
  | .error e => .error e
termination_by it.sortedKvs.length - it.pos
decreasing_by
  rw [this.1]
  omega

theorem ranges_of_next_some {it it' : NibbleRangeIterator K} {range : Nat × Nat}
    (h : it.next = .ok (some (range, it'))) :
    it.ranges = (it'.ranges >>= fun rest => pure (range :: rest)) := by
  rw [ranges.eq_def]
  split
  · rename_i range'' it'' h''
    rw [h] at h''
    cases h''
    rfl
  · rename_i h''
    rw [h] at h''
    cases h''
  · rename_i e h''
    rw [h] at h''
    cases h''

theorem ranges_of_next_none {it : NibbleRangeIterator K} (h : it.next = .ok none) :
    it.ranges = .ok [] := by
  rw [ranges.eq_def]
  split
  · rename_i range'' it'' h''
    rw [h] at h''
    cases h''
  · rfl
  · rename_i e h''
    rw [h] at h''
    cases h''

section Spec

variable {kvs : List (H256 × K)} {d : Nat}

/-- The nibble at `nibbleIdx` of each key, in order. -/
def nibbles (sortedKvs : List (H256 × K)) (nibbleIdx : Nat) : List UInt8 :=
  sortedKvs.map fun kv => nibble kv.1 nibbleIdx

theorem getD_nibbles {k : Nat} (hk : k < kvs.length) :
    (nibbles kvs d).getD k 0 = nibble kvs[k].1 d := by
  rw [nibbles, List.getD_eq_getElem _ _ (by simpa using hk), List.getElem_map]

theorem nibbleAt_of_lt {k : Nat} (hk : k < kvs.length) :
    nibbleAt kvs d k = .ok ((nibbles kvs d).getD k 0) := by
  rw [getD_nibbles hk, nibbleAt, List.getElem?_eq_getElem hk]

theorem getD_le_getD (hmono : (nibbles kvs d).Pairwise (· ≤ ·)) {a b : Nat} (hab : a ≤ b)
    (hb : b < kvs.length) : (nibbles kvs d).getD a 0 ≤ (nibbles kvs d).getD b 0 := by
  rcases Nat.lt_or_eq_of_le hab with hlt | rfl
  · have hlen : (nibbles kvs d).length = kvs.length := List.length_map _
    rw [List.getD_eq_getElem _ _ (by omega), List.getD_eq_getElem _ _ (by omega)]
    exact List.pairwise_iff_getElem.mp hmono a b (by omega) (by omega) hlt
  · exact UInt8.le_iff_toNat_le.mpr (Nat.le_refl _)

/-- The search, started inside the slice at a key with nibble `cur` and with every key above its
window past `cur`, finds the last key with nibble `cur`. The window `[i, j]` keeps the key at `i`
at `cur` and everything above `j` past it. -/
theorem findLast_spec (hmono : (nibbles kvs d).Pairwise (· ≤ ·)) {cur : UInt8} {i j : Nat}
    (hij : i ≤ j) (hj : j < kvs.length) (hcur : (nibbles kvs d).getD i 0 = cur)
    (habove : ∀ k, j < k → k < kvs.length → cur < (nibbles kvs d).getD k 0) :
    ∃ r, findLast kvs d cur i j = .ok r ∧ i ≤ r ∧ r ≤ j ∧ (nibbles kvs d).getD r 0 = cur ∧
      ∀ k, r < k → k < kvs.length → cur < (nibbles kvs d).getD k 0 := by
  induction i, j using findLast.induct kvs d cur with
  | case1 i j hij' n hn hgt ih =>
    -- the middle key is past `cur`, so the range ends below it
    rw [nibbleAt_of_lt (by omega), Except.ok.injEq] at hn
    have hpast : ∀ k, j - (j - i) / 2 - 1 < k → k < kvs.length →
        cur < (nibbles kvs d).getD k 0 := fun k hk hkl => by
      have := getD_le_getD hmono (show j - (j - i) / 2 ≤ k by omega) hkl
      rw [hn] at this
      exact UInt8.lt_iff_toNat_lt.mpr (Nat.lt_of_lt_of_le (UInt8.lt_iff_toNat_lt.mp hgt)
        (UInt8.le_iff_toNat_le.mp this))
    obtain ⟨r, hr, h1, h2, h3, h4⟩ := ih (by omega) (by omega) hcur hpast
    refine ⟨r, ?_, h1, by omega, h3, h4⟩
    rw [findLast, if_pos hij', nibbleAt_of_lt (by omega), hn]
    simp only [if_pos hgt]
    exact hr
  | case2 i j hij' n hn hgt ih =>
    -- the middle key is not past `cur`, and not below the key at `i`: it is at `cur`
    rw [nibbleAt_of_lt (by omega), Except.ok.injEq] at hn
    have hmid : (nibbles kvs d).getD (j - (j - i) / 2) 0 = cur := by
      have hle := getD_le_getD hmono (show i ≤ j - (j - i) / 2 by omega) (by omega)
      rw [hcur] at hle
      rw [hn] at hle ⊢
      have hnot := UInt8.lt_iff_toNat_lt.not.mp hgt
      have hle' := UInt8.le_iff_toNat_le.mp hle
      exact UInt8.toNat_inj.mp (by omega)
    obtain ⟨r, hr, h1, h2, h3, h4⟩ := ih (by omega) hj hmid habove
    refine ⟨r, ?_, by omega, h2, h3, h4⟩
    rw [findLast, if_pos hij', nibbleAt_of_lt (by omega), hn]
    simp only [if_neg hgt]
    exact hr
  | case3 i j hij' e he =>
    rw [nibbleAt_of_lt (by omega)] at he
    cases he
  | case4 i j hij' =>
    refine ⟨i, ?_, Nat.le_refl i, hij, hcur, fun k hk hkl => habove k (by omega) hkl⟩
    rw [findLast, if_neg hij']

/-- One step from a position inside the slice yields the run of keys that share the nibble of
the key there, and moves past it. -/
theorem next_spec (hmono : (nibbles kvs d).Pairwise (· ≤ ·)) (p : Nat) (hp : p < kvs.length) :
    ∃ r, (⟨kvs, d, p⟩ : NibbleRangeIterator K).next = .ok (some ((p, r), ⟨kvs, d, r + 1⟩)) ∧
      p ≤ r ∧ r < kvs.length ∧ (nibbles kvs d).getD r 0 = (nibbles kvs d).getD p 0 ∧
      ∀ k, r < k → k < kvs.length → (nibbles kvs d).getD p 0 < (nibbles kvs d).getD k 0 := by
  obtain ⟨r, hr, h1, h2, h3, h4⟩ := findLast_spec hmono (show p ≤ kvs.length - 1 by omega)
    (by omega) rfl fun k hk hkl => absurd hkl (by omega)
  refine ⟨r, ?_, h1, by omega, h3, h4⟩
  simp only [next, if_pos hp, nibbleAt_of_lt hp, Control.ok_bind, hr]
  rfl

/-- The runs are all the iterator yields from `p` on: the first starts at `p`, each starts right
after the one before, the last ends at the end of the slice, each holds one nibble, and the
nibbles increase. The induction is on what is left of the slice. -/
theorem ranges_spec (hmono : (nibbles kvs d).Pairwise (· ≤ ·)) :
    ∀ n p, p ≤ kvs.length → kvs.length - p = n →
      ∃ rs, (⟨kvs, d, p⟩ : NibbleRangeIterator K).ranges = .ok rs ∧
        (rs = [] ↔ p = kvs.length) ∧ (∀ r ∈ rs.head?, r.1 = p) ∧
        (∀ r ∈ rs.getLast?, r.2 = kvs.length - 1) ∧ rs.IsChain (fun r r' => r'.1 = r.2 + 1) ∧
        (∀ r ∈ rs, p ≤ r.1 ∧ r.1 ≤ r.2 ∧ r.2 < kvs.length ∧
          ∀ k, r.1 ≤ k → k ≤ r.2 → (nibbles kvs d).getD k 0 = (nibbles kvs d).getD r.1 0) ∧
        (rs.map fun r => (nibbles kvs d).getD r.1 0).Pairwise (· < ·) := by
  intro n
  induction n using Nat.strong_induction_on with
  | _ n ih =>
    intro p hp hn
    rcases Nat.lt_or_eq_of_le hp with hlt | rfl
    · obtain ⟨r, hnext, h1, h2, h3, h4⟩ := next_spec hmono p hlt
      obtain ⟨rs, hrs, hnil, hhead, hlast, hchain, hruns, hinc⟩ :=
        ih (kvs.length - (r + 1)) (by omega) (r + 1) (by omega) rfl
      refine ⟨(p, r) :: rs, ?_, ?_, fun x hx => ?_, fun x hx => ?_, ?_, ?_, ?_⟩
      · rw [ranges_of_next_some hnext, hrs]
        rfl
      · simp only [reduceCtorEq, false_iff]
        omega
      · rw [List.head?_cons, Option.mem_def, Option.some.injEq] at hx
        rw [← hx]
      · -- the last run is the last of the rest, or this one when the rest is empty
        cases rs with
        | nil =>
          rw [List.getLast?_singleton, Option.mem_def, Option.some.injEq] at hx
          rw [← hx]
          have := hnil.mp rfl
          dsimp only
          omega
        | cons y ys =>
          rw [List.getLast?_cons_cons] at hx
          exact hlast x hx
      · rw [List.isChain_cons]
        exact ⟨fun y hy => (hhead y hy).symm ▸ rfl, hchain⟩
      · intro x hx
        rcases List.mem_cons.mp hx with rfl | hx
        · dsimp only
          refine ⟨Nat.le_refl _, h1, h2, fun k hk hkr => ?_⟩
          have hlo := UInt8.le_iff_toNat_le.mp (getD_le_getD hmono hk (by omega))
          have hhi := UInt8.le_iff_toNat_le.mp (getD_le_getD hmono hkr h2)
          rw [h3] at hhi
          exact UInt8.toNat_inj.mp (by omega)
        · obtain ⟨hx1, hx2⟩ := hruns x hx
          exact ⟨by omega, hx2⟩
      · rw [List.map_cons, List.pairwise_cons]
        refine ⟨fun a ha => ?_, hinc⟩
        obtain ⟨x, hx, rfl⟩ := List.mem_map.mp ha
        obtain ⟨hx1, hx2, hx3, -⟩ := hruns x hx
        exact h4 x.1 (by omega) (by omega)
    · refine ⟨[], ?_, by simp, fun x hx => by simp at hx, fun x hx => by simp at hx,
        List.isChain_nil, fun x hx => absurd hx List.not_mem_nil, List.Pairwise.nil⟩
      apply ranges_of_next_none
      simp only [next, if_neg (Nat.lt_irrefl _)]
      rfl

/-- Sorted keys that share their first `d` nibbles have their nibbles at `d` in order. -/
theorem nibbles_sorted (hd : d < 64) (hsorted : kvs.Pairwise fun a b => a.1.bytes < b.1.bytes)
    (hshared : ∀ a ∈ kvs, ∀ b ∈ kvs, ∀ t < d, nibble a.1 t = nibble b.1 t) :
    (nibbles kvs d).Pairwise (· ≤ ·) := by
  rw [nibbles, List.pairwise_map]
  exact hsorted.imp_of_mem fun ha hb hab => nibble_le_nibble hab hd (hshared _ ha _ hb)

end Spec

/-- The iterator over a sorted batch whose keys share their first `d` nibbles, `d < 64`, yields
the runs of equal nibbles at `d`, in order: none for an empty batch, the first from `0`, each
from right after the one before, the last to the end, and with increasing nibbles; no index of
its binary search is out of bounds. -/
theorem ranges_partition (kvs : List (H256 × K)) (d : Nat) (hd : d < 64)
    (hsorted : kvs.Pairwise fun a b => a.1.bytes < b.1.bytes)
    (hshared : ∀ a ∈ kvs, ∀ b ∈ kvs, ∀ t < d, nibble a.1 t = nibble b.1 t) :
    ∃ it rs, NibbleRangeIterator.new kvs d = .ok it ∧ it.ranges = .ok rs ∧
      (rs = [] ↔ kvs = []) ∧ (∀ r ∈ rs.head?, r.1 = 0) ∧
      (∀ r ∈ rs.getLast?, r.2 = kvs.length - 1) ∧ rs.IsChain (fun r r' => r'.1 = r.2 + 1) ∧
      (∀ r ∈ rs, r.1 ≤ r.2 ∧ r.2 < kvs.length ∧
        ∀ k, r.1 ≤ k → k ≤ r.2 → (nibbles kvs d).getD k 0 = (nibbles kvs d).getD r.1 0) ∧
      (rs.map fun r => (nibbles kvs d).getD r.1 0).Pairwise (· < ·) := by
  obtain ⟨rs, hrs, hnil, hhead, hlast, hchain, hruns, hinc⟩ :=
    ranges_spec (nibbles_sorted hd hsorted hshared) kvs.length 0 (Nat.zero_le _) rfl
  refine ⟨⟨kvs, d, 0⟩, rs, if_pos hd, hrs, ?_, hhead, hlast, hchain,
    fun r hr => (hruns r hr).2, hinc⟩
  rw [hnil, eq_comm, List.length_eq_zero_iff]

/-- Three keys whose first nibbles are `1`, `1` and `2`. -/
def sampleKvs : List (H256 × Unit) :=
  [(⟨0x10 :: List.replicate 31 0, rfl⟩, ()), (⟨0x11 :: List.replicate 31 0, rfl⟩, ()),
    (⟨0x20 :: List.replicate 31 0, rfl⟩, ())]

theorem ranges_partition_sample :
    (sampleKvs.Pairwise fun a b => a.1.bytes < b.1.bytes) ∧
      ∃ it rs, NibbleRangeIterator.new sampleKvs 0 = .ok it ∧ it.ranges = .ok rs ∧ rs ≠ [] ∧
        ∀ r ∈ rs.head?, r.1 = 0 := by
  have hsorted : sampleKvs.Pairwise fun a b => a.1.bytes < b.1.bytes := by decide
  obtain ⟨it, rs, hit, hrs, hnil, hhead, -⟩ := ranges_partition sampleKvs 0 (by decide) hsorted
    (fun _ _ _ _ t ht => absurd ht (Nat.not_lt_zero t))
  exact ⟨hsorted, it, rs, hit, hrs, fun h => by simp [sampleKvs] at hnil; exact hnil h, hhead⟩

end NibbleRangeIterator

end Hemvm.Jellyfish
