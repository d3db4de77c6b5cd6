import Hemvm.EthereumVm.StorageKey

/-! The storage the EVM side runs on (`aptos-move/ethereum-vm/src/state.rs`): a `ViewWrapper`
caches the EVM's writes over an Aptos state view, and `drain` turns the cache into the write
set of the transaction. The wrapper refines a write-back cache (`Store.cachedRead`,
`Store.flush`) whose base is the view's map, keyed by the injective key conversion; the
write set's faithfulness is proved once for that cache and read back here. -/
namespace Hemvm.EthereumVm
open Aptos Store Control Bcs

/-- `StorageTrait`, as the record of its two methods that the event code calls; a method's
error is a database error or a panic. -/
structure Storage (σ : Type) where
  get : σ → StorageKey → Except String (Option (List UInt8))
  set : σ → StorageKey → List UInt8 → Except String σ

/-- `ViewWrapper`. -/
structure ViewWrapper where
  inner : StateView
  cache : Std.HashMap StorageKey (Option (List UInt8))

/-- `Result::unwrap`: an error panics. -/
def unwrapResult {α : Type} : Except String α → Except String α
  | .ok a => .ok a
  | .error e => .error ("called `Result::unwrap()` on an `Err` value: " ++ e)

namespace ViewWrapper

/-- A wrapper with an empty cache, as `execute_eth_transaction` builds it. -/
def new (inner : StateView) : ViewWrapper := ⟨inner, ∅⟩

variable (bcs : Serializer)

/-- `get`: a cache hit answers at once; a miss converts the key and asks the view. -/
def get (w : ViewWrapper) (key : StorageKey) : Except String (Option (List UInt8)) :=
  match w.cache[key]? with
  | some cachedValue => .ok cachedValue
  | none => key.toStateKey bcs >>= fun stateKey => unwrapResult (w.inner.getStateValue stateKey)

/-- `set`. -/
def set (w : ViewWrapper) (accessKey : StorageKey) (value : List UInt8) : ViewWrapper :=
  { w with cache := w.cache.insert accessKey (some value) }

/-- `delete`. -/
def delete (w : ViewWrapper) (accessKey : StorageKey) : ViewWrapper :=
  { w with cache := w.cache.insert accessKey none }

/-- `impl StorageTrait for &mut ViewWrapper`. -/
def storage : Storage ViewWrapper := ⟨get bcs, fun w key value => .ok (w.set key value)⟩

/-- The match of `drain` on whether the view held the key and what the cache holds. -/
def drainOp (hasOldValue : Bool) (value : Option (List UInt8)) : Option WriteOp :=
  match hasOldValue, value with
  | true, some v => some (.modification v)
  | true, none => some .deletion
  | false, some v => some (.creation v)
  | false, none => none

/-- `drain`: every cached key, converted, with the write its cached value makes against the
view; a view error counts as an absent value (`unwrap_or(None)`). -/
def drain (w : ViewWrapper) : Except String (List (StateKey × WriteOp)) :=
  w.cache.toList.filterMapM fun (key, value) =>
    key.toStateKey bcs >>= fun stateKey =>
      let hasOldValue := ((w.inner.getStateValue stateKey).toOption.getD none).isSome
      .ok ((drainOp hasOldValue value).map (stateKey, ·))

variable {bcs}

@[simp] theorem inner_set (w : ViewWrapper) (key : StorageKey) (value : List UInt8) :
    (w.set key value).inner = w.inner := rfl

@[simp] theorem inner_delete (w : ViewWrapper) (key : StorageKey) : (w.delete key).inner = w.inner :=
  rfl

theorem getElem?_cache_set (w : ViewWrapper) (key k : StorageKey) (value : List UInt8) :
    (w.set key value).cache[k]? = if key = k then some (some value) else w.cache[k]? := by
  simp [set, Std.HashMap.getElem?_insert]

theorem getElem?_cache_delete (w : ViewWrapper) (key k : StorageKey) :
    (w.delete key).cache[k]? = if key = k then some none else w.cache[k]? := by
  simp [delete, Std.HashMap.getElem?_insert]

theorem drainOp_isSome (old value : Option (List UInt8)) :
    drainOp old.isSome value = writeOp old value := by
  cases old <;> cases value <;> rfl

/-! The refinement: over a view that answers from a map, `get` is a read through the cache and
`drain` is its flush. -/

section Refinement

variable {S : StateKey → Option (List UInt8)} {w : ViewWrapper}

theorem get_eq_cachedRead (hinner : w.inner = .ofMap S) {key : StorageKey}
    (hkey : key.Serializable) :
    w.get bcs key = .ok (cachedRead (S ∘ StorageKey.stateKey bcs) (w.cache[·]?) key) := by
  unfold get cachedRead
  cases hc : w.cache[key]? with
  | some cachedValue => simp only [hc, Option.getD_some]
  | none =>
    rw [StorageKey.toStateKey_of_serializable hkey, ok_bind, hinner]
    simp only [hc, Option.getD_none, Function.comp_apply, StateView.ofMap]
    rfl

theorem drain_eq_flush (hinner : w.inner = .ofMap S)
    (hkeys : ∀ key value, (key, value) ∈ w.cache.toList → key.Serializable) :
    w.drain bcs = .ok (flush S (StorageKey.stateKey bcs) w.cache.toList) := by
  apply filterMapM_eq_ok_of_forall
  rintro ⟨key, value⟩ hmem
  dsimp only
  rw [StorageKey.toStateKey_of_serializable (hkeys key value hmem), ok_bind, hinner]
  simp only [StateView.ofMap, Except.toOption, Option.getD_some, drainOp_isSome]

theorem nodup_keys_toList :
    (w.cache.toList.map Prod.fst).Nodup := by
  rw [Std.HashMap.map_fst_toList_eq_keys]
  exact Std.HashMap.nodup_keys

theorem mem_toList_iff (key : StorageKey) (value : Option (List UInt8)) :
    (key, value) ∈ w.cache.toList ↔ w.cache[key]? = some value :=
  Std.HashMap.mem_toList_iff_getElem?_eq_some

/-- A drain that does not panic converts every cached key. -/
theorem serializable_of_drain {W : List (StateKey × WriteOp)} (h : w.drain bcs = .ok W) :
    ∀ key value, (key, value) ∈ w.cache.toList → key.Serializable := by
  intro key value hmem
  obtain ⟨_, hstep⟩ := ok_of_filterMapM_eq_ok h (key, value) hmem
  obtain ⟨sk, hsk, -⟩ := bind_eq_ok_iff.mp hstep
  exact (StorageKey.toStateKey_eq_ok_iff.mp hsk).1

end Refinement

end ViewWrapper

/-- One call on the wrapper. -/
inductive StorageOp where
  | get (key : StorageKey)
  | set (key : StorageKey) (value : List UInt8)
  | delete (key : StorageKey)

namespace StorageOp

/-- The key a call writes. -/
def writtenKey : StorageOp → Option StorageKey
  | .get _ => none
  | .set key _ => some key
  | .delete key => some key

/-- Running one call; a `get` leaves the wrapper as it is, unless it panics. -/
def apply (bcs : Serializer) (w : ViewWrapper) : StorageOp → Except String ViewWrapper
  | .get key => (w.get bcs key).map fun _ => w
  | .set key value => .ok (w.set key value)
  | .delete key => .ok (w.delete key)

end StorageOp

namespace ViewWrapper

variable (bcs : Serializer)

/-- A sequence of calls on the wrapper. -/
def run (w : ViewWrapper) (ops : List StorageOp) : Except String ViewWrapper :=
  ops.foldlM (StorageOp.apply bcs) w

variable {bcs}

theorem run_nil (w : ViewWrapper) : w.run bcs [] = .ok w := rfl

theorem run_cons (w : ViewWrapper) (op : StorageOp) (ops : List StorageOp) :
    w.run bcs (op :: ops) = (op.apply bcs w >>= fun w' => w'.run bcs ops) := by
  simp [run, List.foldlM_cons]

theorem run_append (w : ViewWrapper) (ops ops' : List StorageOp) :
    w.run bcs (ops ++ ops') = (w.run bcs ops >>= fun w' => w'.run bcs ops') := by
  simp [run, List.foldlM_append]

@[simp] theorem inner_foldl_set (writes : List (StorageKey × List UInt8)) (w : ViewWrapper) :
    (writes.foldl (fun w write => w.set write.1 write.2) w).inner = w.inner := by
  induction writes generalizing w with
  | nil => rfl
  | cons write writes ih => exact ih (w.set write.1 write.2)

/-- A sequence of `set`s leaves the keys it does not write. -/
theorem getElem?_foldl_set_of_not_mem {k : StorageKey} :
    ∀ {writes : List (StorageKey × List UInt8)} {w : ViewWrapper}, (∀ write ∈ writes, write.1 ≠ k) →
      (writes.foldl (fun w write => w.set write.1 write.2) w).cache[k]? = w.cache[k]?
  | [], _, _ => rfl
  | write :: writes, w, h => by
    rw [List.foldl_cons, getElem?_foldl_set_of_not_mem fun write' hw => h write' (List.mem_cons_of_mem _ hw),
      getElem?_cache_set, if_neg (h write List.mem_cons_self)]

/-- After a sequence of `set`s of distinct keys, each key holds its value. -/
theorem getElem?_foldl_set_of_mem {k : StorageKey} {v : List UInt8} :
    ∀ {writes : List (StorageKey × List UInt8)} (w : ViewWrapper), (writes.map Prod.fst).Nodup →
      (k, v) ∈ writes → (writes.foldl (fun w write => w.set write.1 write.2) w).cache[k]? = some (some v)
  | [], _, _, hmem => absurd hmem List.not_mem_nil
  | (k', v') :: writes, w, hnodup, hmem => by
    obtain ⟨hfresh, hnodup'⟩ := List.nodup_cons.mp hnodup
    rw [List.foldl_cons]
    rcases List.mem_cons.mp hmem with heq | hmem'
    · obtain ⟨rfl, rfl⟩ := Prod.mk.inj heq
      have hnot : ∀ write ∈ writes, write.1 ≠ k := fun write hw heq' =>
        hfresh (List.mem_map.mpr ⟨write, hw, heq'⟩)
      rw [getElem?_foldl_set_of_not_mem hnot, getElem?_cache_set, if_pos rfl]
    · exact getElem?_foldl_set_of_mem _ hnodup' hmem'

/-- A run of `set`s computes the plain updates. -/
theorem run_sets (w : ViewWrapper) (writes : List (StorageKey × List UInt8)) :
    w.run bcs (writes.map fun write => .set write.1 write.2) =
      .ok (writes.foldl (fun w write => w.set write.1 write.2) w) := by
  induction writes generalizing w with
  | nil => rfl
  | cons write writes ih =>
    rw [List.map_cons, run_cons]
    exact ih (w.set write.1 write.2)

/-- What one call does to the cache: it writes its own key and no other, and keeps the view. -/
theorem apply_spec {w w' : ViewWrapper} {op : StorageOp} (h : op.apply bcs w = .ok w') :
    w'.inner = w.inner ∧ ∀ k, op.writtenKey ≠ some k → w'.cache[k]? = w.cache[k]? := by
  cases op with
  | get key =>
    simp only [StorageOp.apply] at h
    cases hget : w.get bcs key with
    | error e => rw [hget] at h; cases h
    | ok v =>
      rw [hget] at h
      cases h
      exact ⟨rfl, fun _ _ => rfl⟩
  | set key value =>
    cases h
    refine ⟨rfl, fun k hk => ?_⟩
    have hne : key ≠ k := fun heq => hk (by rw [heq]; rfl)
    rw [getElem?_cache_set, if_neg hne]
  | delete key =>
    cases h
    refine ⟨rfl, fun k hk => ?_⟩
    have hne : key ≠ k := fun heq => hk (by rw [heq]; rfl)
    rw [getElem?_cache_delete, if_neg hne]

/-- A call caches its written key. -/
theorem apply_cache_written {w w' : ViewWrapper} {op : StorageOp} {k : StorageKey}
    (h : op.apply bcs w = .ok w') (hk : op.writtenKey = some k) : w'.cache[k]? ≠ none := by
  cases op with
  | get key => cases hk
  | set key value =>
    cases hk
    cases h
    simp [getElem?_cache_set]
  | delete key =>
    cases hk
    cases h
    simp [getElem?_cache_delete]

/-- Over a run, the view is kept, and a key is cached exactly when it was cached before or some
call wrote it. The induction is on the calls. -/
theorem run_spec : ∀ {w w' : ViewWrapper} {ops : List StorageOp}, w.run bcs ops = .ok w' →
    w'.inner = w.inner ∧
      ∀ k, (w'.cache[k]? = none ↔ w.cache[k]? = none ∧ ∀ op ∈ ops, op.writtenKey ≠ some k)
  | w, w', [], h => by
    cases h
    exact ⟨rfl, fun k => by simp⟩
  | w, w', op :: ops, h => by
    rw [run_cons] at h
    obtain ⟨w₁, h₁, hrest⟩ := bind_eq_ok_iff.mp h
    obtain ⟨hinner₁, hcache₁⟩ := apply_spec h₁
    obtain ⟨hinner, hcache⟩ := run_spec hrest
    refine ⟨hinner.trans hinner₁, fun k => ?_⟩
    rw [hcache k, List.forall_mem_cons]
    by_cases hk : op.writtenKey = some k
    · have hne := apply_cache_written h₁ hk
      simp [hne, hk]
    · rw [hcache₁ k hk]
      simp only [hk, ne_eq, not_false_eq_true, true_and]

/-- A run of calls that write serializable keys leaves only serializable keys in the cache. -/
theorem serializable_of_run {w w' : ViewWrapper} {ops : List StorageOp} (h : w.run bcs ops = .ok w')
    (hcache : ∀ key value, (key, value) ∈ w.cache.toList → key.Serializable)
    (hkeys : ∀ op ∈ ops, ∀ k, op.writtenKey = some k → k.Serializable) :
    ∀ key value, (key, value) ∈ w'.cache.toList → key.Serializable := by
  intro key value hmem
  rw [mem_toList_iff] at hmem
  by_cases hwritten : ∃ op ∈ ops, op.writtenKey = some key
  · obtain ⟨op, hop, hk⟩ := hwritten
    exact hkeys op hop key hk
  · simp only [not_exists, not_and] at hwritten
    have hcached : w.cache[key]? ≠ none := by
      intro hnone
      have := ((run_spec h).2 key).mpr ⟨hnone, hwritten⟩
      rw [hmem] at this
      cases this
    obtain ⟨v, hv⟩ := Option.ne_none_iff_exists'.mp hcached
    exact hcache key v ((mem_toList_iff key v).mpr hv)

/-! A transaction's wrapper: a run of calls on a fresh wrapper over a view that answers from a
map, each call writing a serializable key. -/

section Drain

variable {S : StateKey → Option (List UInt8)} {ops : List StorageOp} {w : ViewWrapper}

/-- A key the fresh wrapper holds after the run was written by one of the calls. -/
theorem written_of_cached (hrun : (new (.ofMap S)).run bcs ops = .ok w) {k : StorageKey}
    (hk : w.cache[k]? ≠ none) : ∃ op ∈ ops, op.writtenKey = some k := by
  by_contra hnone
  simp only [not_exists, not_and] at hnone
  exact hk (((run_spec hrun).2 k).mpr ⟨Std.HashMap.getElem?_empty, hnone⟩)

theorem drain_of_run (hrun : (new (.ofMap S)).run bcs ops = .ok w)
    (hkeys : ∀ op ∈ ops, ∀ k, op.writtenKey = some k → k.Serializable) :
    w.drain bcs = .ok (flush S (StorageKey.stateKey bcs) w.cache.toList) := by
  have hempty : ∀ key value, (key, value) ∈ (new (.ofMap S)).cache.toList → key.Serializable :=
    fun key value hmem => by simp [new] at hmem
  exact drain_eq_flush (run_spec hrun).1 (serializable_of_run hrun hempty hkeys)

/-- The base after the write set holds, at every serializable key, what `get` answers. -/
theorem get_eq_applyWrites_flush (hbcs : bcs.Lawful) (hrun : (new (.ofMap S)).run bcs ops = .ok w)
    {k : StorageKey} (hk : k.Serializable) :
    w.get bcs k =
      .ok (applyWrites S (flush S (StorageKey.stateKey bcs) w.cache.toList) (k.stateKey bcs)) := by
  rw [get_eq_cachedRead (run_spec hrun).1 hk,
    applyWrites_flush (StorageKey.stateKey_injective hbcs) nodup_keys_toList mem_toList_iff]

/-- A state key that no call's key converts to keeps its base value. -/
theorem applyWrites_flush_of_unwritten (hrun : (new (.ofMap S)).run bcs ops = .ok w)
    (hkeys : ∀ op ∈ ops, ∀ k, op.writtenKey = some k → k.Serializable) {sk : StateKey}
    (hsk : ∀ op ∈ ops, ∀ k, op.writtenKey = some k → k.toStateKey bcs ≠ .ok sk) :
    applyWrites S (flush S (StorageKey.stateKey bcs) w.cache.toList) sk = S sk := by
  apply applyWrites_flush_of_not_mem
  intro k value hmem heq
  have hcached : w.cache[k]? ≠ none := by
    rw [(mem_toList_iff k value).mp hmem]
    exact Option.some_ne_none value
  obtain ⟨op, hop, hwritten⟩ := written_of_cached hrun hcached
  exact hsk op hop k hwritten (heq ▸ StorageKey.toStateKey_of_serializable (hkeys op hop k hwritten))

end Drain

end ViewWrapper

/-- What a write set `W` drained from a wrapper `w` must satisfy, for the calls `ops` that built
`w` over the map `S`, with keys converted by `bcs`. -/
structure WriteSetFaithful (bcs : Serializer) (S : StateKey → Option (List UInt8))
    (ops : List StorageOp) (w : ViewWrapper) (W : List (StateKey × WriteOp)) : Prop where
  /-- Applied to the map, the writes give at each key what `get` answers. -/
  get_eq : ∀ (k : StorageKey) sk, k.toStateKey bcs = .ok sk → w.get bcs k = .ok (applyWrites S W sk)
  /-- A key that no call wrote keeps its value. -/
  unwritten : ∀ sk,
    (∀ op ∈ ops, ∀ k : StorageKey, op.writtenKey = some k → k.toStateKey bcs ≠ .ok sk) →
      applyWrites S W sk = S sk
  /-- Creations are only of absent keys, modifications and deletions only of present ones. -/
  fitsBase : ∀ sk op, (sk, op) ∈ W → op.FitsBase (S sk)
  /-- A key deleted while absent gets no write. -/
  deleted_absent : ∀ (k : StorageKey) sk, k.toStateKey bcs = .ok sk → w.cache[k]? = some none →
    S sk = none → ∀ op, (sk, op) ∉ W
  /-- No state key is written twice. -/
  nodup : (W.map Prod.fst).Nodup

/-- `drain` is faithful to the wrapper, for a lawful serializer: for a run of calls on a fresh
wrapper over a view that answers from a map, each call writing a key the conversion accepts, the
write set exists and satisfies `WriteSetFaithful`. -/
theorem ViewWrapper.drain_faithful (bcs : Serializer) (hbcs : bcs.Lawful)
    (S : StateKey → Option (List UInt8)) (ops : List StorageOp) (w : ViewWrapper)
    (hrun : (ViewWrapper.new (.ofMap S)).run bcs ops = .ok w)
    (hkeys : ∀ op ∈ ops, ∀ k, op.writtenKey = some k → k.Serializable) :
    ∃ W, w.drain bcs = .ok W ∧ WriteSetFaithful bcs S ops w W := by
  refine ⟨_, ViewWrapper.drain_of_run hrun hkeys, ?_, ?_, ?_, ?_, ?_⟩
  · intro k sk hsk
    obtain ⟨hser, rfl⟩ := StorageKey.toStateKey_eq_ok_iff.mp hsk
    exact ViewWrapper.get_eq_applyWrites_flush hbcs hrun hser
  · exact fun sk hsk => ViewWrapper.applyWrites_flush_of_unwritten hrun hkeys hsk
  · exact fun sk op hmem => fitsBase_of_mem_flush hmem
  · intro k sk hsk hdeleted habsent op
    obtain ⟨-, rfl⟩ := StorageKey.toStateKey_eq_ok_iff.mp hsk
    exact not_mem_flush_of_absent (StorageKey.stateKey_injective hbcs) ViewWrapper.mem_toList_iff
      hdeleted habsent op
  · exact nodup_flush (StorageKey.stateKey_injective hbcs) S ViewWrapper.nodup_keys_toList

/-- The zero address. -/
def zeroAddress : Address := ⟨List.replicate 20 0, rfl⟩

/-- One event nonce written over an empty store, with the crate's serializer. -/
theorem drain_faithful_eventNonce :
    uleb128Serializer.Lawful ∧
      (ViewWrapper.new (.ofMap fun _ => none)).run uleb128Serializer
          [.set (.eventNonceKey zeroAddress) [1]] =
        .ok ((ViewWrapper.new (.ofMap fun _ => none)).set (.eventNonceKey zeroAddress) [1]) ∧
      (∀ op ∈ [StorageOp.set (.eventNonceKey zeroAddress) [1]], ∀ k, op.writtenKey = some k →
        k.Serializable) ∧
      ∃ W, ((ViewWrapper.new (.ofMap fun _ => none)).set (.eventNonceKey zeroAddress) [1]).drain
          uleb128Serializer = .ok W ∧
        WriteSetFaithful uleb128Serializer (fun _ => none) [.set (.eventNonceKey zeroAddress) [1]]
          ((ViewWrapper.new (.ofMap fun _ => none)).set (.eventNonceKey zeroAddress) [1]) W := by
  have hrun : (ViewWrapper.new (.ofMap fun _ => none)).run uleb128Serializer
      [.set (.eventNonceKey zeroAddress) [1]] =
      .ok ((ViewWrapper.new (.ofMap fun _ => none)).set (.eventNonceKey zeroAddress) [1]) := rfl
  have hkeys : ∀ op ∈ [StorageOp.set (.eventNonceKey zeroAddress) [1]], ∀ k, op.writtenKey = some k →
      k.Serializable := by
    simp only [List.mem_singleton, forall_eq, StorageOp.writtenKey, Option.some.injEq]
    rintro k rfl
    trivial
  exact ⟨uleb128Serializer_lawful, hrun, hkeys,
    ViewWrapper.drain_faithful _ uleb128Serializer_lawful _ _ _ hrun hkeys⟩

end Hemvm.EthereumVm
