import Mathlib

/-! A write-back cache over a base store. Reads see the cache first; writes and deletions go to
the cache only; flushing turns the cache into one write operation per key whose value changes,
classified against the base as a creation, a modification or a deletion. The cache may be keyed
differently from the base, through an injective map of keys. Nothing here is specific to one
program. -/
namespace Store

/-- A write to one key of a store. -/
inductive WriteOp (V : Type) where
  | creation (v : V)
  | modification (v : V)
  | deletion
deriving DecidableEq

variable {K K' V : Type}

namespace WriteOp

/-- The value a key holds after the write. -/
def newValue : WriteOp V → Option V
  | .creation v => some v
  | .modification v => some v
  | .deletion => none

@[simp] theorem newValue_creation (v : V) : (creation v).newValue = some v := rfl

@[simp] theorem newValue_modification (v : V) : (modification v).newValue = some v := rfl

@[simp] theorem newValue_deletion : (deletion : WriteOp V).newValue = none := rfl

/-- A creation is only ever made for an absent key, and a modification or a deletion only for a
present one. -/
def FitsBase (old : Option V) : WriteOp V → Prop
  | .creation _ => old = none
  | .modification _ | .deletion => old ≠ none

end WriteOp

/-- The write that takes a key from `old` to `new`; none when both are absent. -/
def writeOp : Option V → Option V → Option (WriteOp V)
  | some _, some v => some (.modification v)
  | some _, none => some .deletion
  | none, some v => some (.creation v)
  | none, none => none

/-- A read through the cache: `cache k = some v` records that `k` was last written with `v`
(`none` for a deletion). -/
def cachedRead (base : K → Option V) (cache : K → Option (Option V)) (k : K) : Option V :=
  (cache k).getD (base k)

/-- Applying writes in order to a store; a later write of a key replaces an earlier one. -/
def applyWrites [DecidableEq K'] (s : K' → Option V) : List (K' × WriteOp V) → K' → Option V
  | [] => s
  | (k, op) :: ws => applyWrites (Function.update s k op.newValue) ws

/-- Flushing a cache, given as its list of entries, against the base it is keyed into by `f`. -/
def flush (base : K' → Option V) (f : K → K') (entries : List (K × Option V)) :
    List (K' × WriteOp V) :=
  entries.filterMap fun (k, new) => (writeOp (base (f k)) new).map (f k, ·)

theorem newValue_of_writeOp {old new : Option V} {op : WriteOp V} (h : writeOp old new = some op) :
    op.newValue = new := by
  cases old <;> cases new <;> cases h <;> rfl

theorem fitsBase_of_writeOp {old new : Option V} {op : WriteOp V} (h : writeOp old new = some op) :
    op.FitsBase old := by
  cases old <;> cases new <;> cases h <;> simp [WriteOp.FitsBase]

theorem writeOp_eq_none_iff {old new : Option V} : writeOp old new = none ↔ old = none ∧ new = none := by
  cases old <;> cases new <;> simp [writeOp]

theorem mem_flush {base : K' → Option V} {f : K → K'} {entries : List (K × Option V)}
    {k' : K'} {op : WriteOp V} :
    (k', op) ∈ flush base f entries ↔
      ∃ k new, (k, new) ∈ entries ∧ f k = k' ∧ writeOp (base k') new = some op := by
  simp only [flush, List.mem_filterMap, Option.map_eq_some_iff, Prod.mk.injEq, Prod.exists]
  constructor
  · rintro ⟨k, new, hmem, op', hop, rfl, rfl⟩
    exact ⟨k, new, hmem, rfl, hop⟩
  · rintro ⟨k, new, hmem, rfl, hop⟩
    exact ⟨k, new, hmem, op, hop, rfl, rfl⟩

/-- Every flushed write fits the base: no creation over a present key, no modification or
deletion of an absent one. -/
theorem fitsBase_of_mem_flush {base : K' → Option V} {f : K → K'} {entries : List (K × Option V)}
    {k' : K'} {op : WriteOp V} (h : (k', op) ∈ flush base f entries) : op.FitsBase (base k') := by
  obtain ⟨_, _, _, _, hop⟩ := mem_flush.mp h
  exact fitsBase_of_writeOp hop

/-- The keys of a flush are the images of cache keys. -/
theorem map_fst_flush_sublist (base : K' → Option V) (f : K → K') (entries : List (K × Option V)) :
    List.Sublist ((flush base f entries).map Prod.fst) ((entries.map Prod.fst).map f) := by
  induction entries with
  | nil => simp [flush]
  | cons e entries ih =>
    obtain ⟨k, new⟩ := e
    cases hop : writeOp (base (f k)) new with
    | none =>
      have hnil : flush base f ((k, new) :: entries) = flush base f entries := by
        simp [flush, hop]
      rw [hnil, List.map_cons, List.map_cons]
      exact ih.cons _
    | some op =>
      have hcons : flush base f ((k, new) :: entries) = (f k, op) :: flush base f entries := by
        simp [flush, hop]
      rw [hcons, List.map_cons, List.map_cons, List.map_cons]
      exact ih.cons_cons _

/-- Distinct cache keys under an injective map flush to distinct keys. -/
theorem nodup_flush {f : K → K'} (hf : Function.Injective f) (base : K' → Option V)
    {entries : List (K × Option V)} (hnodup : (entries.map Prod.fst).Nodup) :
    ((flush base f entries).map Prod.fst).Nodup :=
  (map_fst_flush_sublist base f entries).nodup (hnodup.map hf)

section Apply

variable [DecidableEq K']

theorem applyWrites_of_not_mem {s : K' → Option V} {ws : List (K' × WriteOp V)} {k : K'}
    (h : k ∉ ws.map Prod.fst) : applyWrites s ws k = s k := by
  induction ws generalizing s with
  | nil => rfl
  | cons w ws ih =>
    obtain ⟨k₀, op⟩ := w
    simp only [List.map_cons, List.mem_cons, not_or] at h
    rw [applyWrites, ih h.2, Function.update_of_ne h.1]

theorem applyWrites_of_mem {s : K' → Option V} {ws : List (K' × WriteOp V)} {k : K'}
    {op : WriteOp V} (hnodup : (ws.map Prod.fst).Nodup) (h : (k, op) ∈ ws) :
    applyWrites s ws k = op.newValue := by
  induction ws generalizing s with
  | nil => exact absurd h List.not_mem_nil
  | cons w ws ih =>
    obtain ⟨k₀, op₀⟩ := w
    simp only [List.map_cons, List.nodup_cons] at hnodup
    rcases List.mem_cons.mp h with heq | hmem
    · -- the key's own write comes first, and no later write touches it
      obtain ⟨rfl, rfl⟩ := Prod.mk.inj heq
      rw [applyWrites, applyWrites_of_not_mem hnodup.1, Function.update_self]
    · exact ih hnodup.2 hmem

end Apply

section Flush

variable [DecidableEq K'] {base : K' → Option V} {f : K → K'} {entries : List (K × Option V)}
  {cache : K → Option (Option V)}

/-- After a flush the base holds what a read through the cache saw, at every cache key, when
`entries` lists `cache` without repetition and `f` is injective. -/
theorem applyWrites_flush (hf : Function.Injective f) (hnodup : (entries.map Prod.fst).Nodup)
    (hcache : ∀ k new, (k, new) ∈ entries ↔ cache k = some new) (k : K) :
    applyWrites base (flush base f entries) (f k) = cachedRead (base ∘ f) cache k := by
  have hws := nodup_flush hf base hnodup
  cases hc : cache k with
  | none =>
    -- an uncached key is written by no entry
    have hnot : f k ∉ (flush base f entries).map Prod.fst := by
      simp only [List.mem_map, Prod.exists, exists_and_right, exists_eq_right, not_exists]
      intro op hop
      obtain ⟨k₀, new, hmem, hk, -⟩ := mem_flush.mp hop
      have hcached := (hcache k₀ new).mp hmem
      rw [hf hk, hc] at hcached
      cases hcached
    rw [applyWrites_of_not_mem hnot, cachedRead, hc, Option.getD_none, Function.comp_apply]
  | some new =>
    have hmem : (k, new) ∈ entries := (hcache k new).mpr hc
    cases hop : writeOp (base (f k)) new with
    | none =>
      -- absent before and deleted: nothing to write, and both sides are absent
      obtain ⟨hold, rfl⟩ := writeOp_eq_none_iff.mp hop
      have hnot : f k ∉ (flush base f entries).map Prod.fst := by
        simp only [List.mem_map, Prod.exists, exists_and_right, exists_eq_right, not_exists]
        intro op hop'
        obtain ⟨k₀, new₀, hmem₀, hk, hop₀⟩ := mem_flush.mp hop'
        rw [hf hk] at hmem₀
        have hnew : new₀ = none := by
          have := (hcache k new₀).mp hmem₀
          rw [hc] at this
          exact (Option.some.inj this).symm
        rw [hnew, hold] at hop₀
        cases hop₀
      rw [applyWrites_of_not_mem hnot, hold, cachedRead, hc, Option.getD_some]
    | some op =>
      have hflush : (f k, op) ∈ flush base f entries := mem_flush.mpr ⟨k, new, hmem, rfl, hop⟩
      rw [applyWrites_of_mem hws hflush, newValue_of_writeOp hop, cachedRead, hc, Option.getD_some]

/-- Keys outside the image of the cache keep their base value. -/
theorem applyWrites_flush_of_not_mem {k' : K'} (h : ∀ k new, (k, new) ∈ entries → f k ≠ k') :
    applyWrites base (flush base f entries) k' = base k' := by
  apply applyWrites_of_not_mem
  simp only [List.mem_map, Prod.exists, exists_and_right, exists_eq_right, not_exists]
  intro op hop
  obtain ⟨k, new, hmem, hk, -⟩ := mem_flush.mp hop
  exact h k new hmem hk

omit [DecidableEq K'] in
/-- A key cached as absent over an absent base value gets no write. -/
theorem not_mem_flush_of_absent (hf : Function.Injective f)
    (hcache : ∀ k new, (k, new) ∈ entries ↔ cache k = some new) {k : K}
    (hk : cache k = some none) (hbase : base (f k) = none) (op : WriteOp V) :
    (f k, op) ∉ flush base f entries := by
  intro hmem
  obtain ⟨k₀, new, hmem₀, hk₀, hop⟩ := mem_flush.mp hmem
  rw [hf hk₀] at hmem₀
  have hnew : cache k = some new := (hcache k new).mp hmem₀
  rw [hk, Option.some.injEq] at hnew
  rw [← hnew, hbase] at hop
  cases hop

end Flush

end Store
