import Hemvm.CfxEvm.State
import Hemvm.Store.Journal
import Hemvm.Control.Except

/-! Checkpoints of the EVM state restore what every observation answers. The state's checkpoints
are an undo journal (`Store.snapshots`): what an observation reads of an address is its `view`,
the cached account or else the database's, and a checkpoint's record of an address restores the
recorded account, or the database's for an address that was not cached.

Every operation but the three on checkpoints keeps the stack of snapshots (`Keeps`); `checkpoint`
pushes the current view, `discard_checkpoint` merges the newest checkpoint into the one below and
so pops its snapshot, and `revert_to_checkpoint` makes the newest snapshot the view. Two facts
carry this: a clean (not dirty) entry, cached or recorded, holds what the database holds
(`WellFormed`), and every change of an account first records its pre-image. -/
namespace Hemvm.CfxEvm
open Store Control

section Views

variable (db : StateDb)

/-- What the database answers for an address the cache does not hold. -/
def dbView (address : Address) : Except String (Option OverlayAccount) :=
  (db.getAccount address).map (·.map OverlayAccount.fromLoaded)

/-- The account an entry holds, or the database's when there is no entry. A cache slot and a
checkpoint's record are both read this way. -/
def entryAccount (address : Address) : Option AccountEntry → Except String (Option OverlayAccount)
  | some entry => .ok entry.account
  | none => dbView db address

/-- What the observations read of an address. -/
def view (cache : Std.HashMap Address AccountEntry) (address : Address) :
    Except String (Option OverlayAccount) :=
  entryAccount db address cache[address]?

/-- The state's checkpoints, read through their lookups. -/
def journal (s : State) : List (Address → Option (Option AccountEntry)) :=
  s.checkpoints.map fun top address => top[address]?

/-- The views the state's checkpoints can restore, newest first. -/
def snapshotsOf (s : State) : List (Address → Except String (Option OverlayAccount)) :=
  snapshots (entryAccount db) (journal s) (view db s.cache)

/-- Every clean entry of a cache holds the database's account. -/
def CleanCache (cache : Std.HashMap Address AccountEntry) : Prop :=
  ∀ address entry, cache[address]? = some entry → entry.isDirty = false →
    .ok entry.account = dbView db address

/-- Every clean pre-image a checkpoint records holds the database's account. -/
def CleanRecords (top : Std.HashMap Address (Option AccountEntry)) : Prop :=
  ∀ address entry, top[address]? = some (some entry) → entry.isDirty = false →
    .ok entry.account = dbView db address

structure WellFormed (s : State) : Prop where
  clean : CleanCache db s.cache
  recordsClean : ∀ top ∈ s.checkpoints, CleanRecords db top
  /-- A saved world statistic for each checkpoint. -/
  lengths : s.worldStatisticsCheckpoints.length = s.checkpoints.length

/-- `s'` is well formed and has the snapshots and the saved world statistics of `s`. -/
structure Keeps (s s' : State) : Prop where
  wellFormed : WellFormed db s'
  snapshots_eq : snapshotsOf db s' = snapshotsOf db s
  worldStatistics_eq : s'.worldStatistics = s.worldStatistics
  worldStatisticsCheckpoints_eq : s'.worldStatisticsCheckpoints = s.worldStatisticsCheckpoints

end Views

variable {db : StateDb}

theorem Keeps.refl {s : State} (h : WellFormed db s) : Keeps db s s := ⟨h, rfl, rfl, rfl⟩

theorem Keeps.trans {s₁ s₂ s₃ : State} (h₁ : Keeps db s₁ s₂) (h₂ : Keeps db s₂ s₃) :
    Keeps db s₁ s₃ :=
  ⟨h₂.wellFormed, h₂.snapshots_eq.trans h₁.snapshots_eq,
    h₂.worldStatistics_eq.trans h₁.worldStatistics_eq,
    h₂.worldStatisticsCheckpoints_eq.trans h₁.worldStatisticsCheckpoints_eq⟩

theorem wellFormed_new {s : State} (h : State.new db = .ok s) : WellFormed db s := by
  obtain ⟨_, -, rfl⟩ := map_eq_ok_iff.mp h
  refine ⟨fun address entry hentry => ?_, fun top htop => absurd htop List.not_mem_nil, rfl⟩
  simp at hentry

theorem length_snapshotsOf (s : State) : (snapshotsOf db s).length = s.checkpoints.length := by
  rw [snapshotsOf, length_snapshots, journal, List.length_map]

/-! The view of a cache. -/

theorem view_of_getElem? {cache : Std.HashMap Address AccountEntry} {address : Address}
    {entry : AccountEntry} (h : cache[address]? = some entry) :
    view db cache address = .ok entry.account := by
  rw [view, h, entryAccount]

@[simp] theorem view_insert_self (cache : Std.HashMap Address AccountEntry) (address : Address)
    (entry : AccountEntry) : view db (cache.insert address entry) address = .ok entry.account :=
  view_of_getElem? Std.HashMap.getElem?_insert_self

theorem view_insert_of_ne {cache : Std.HashMap Address AccountEntry} {address j : Address}
    (entry : AccountEntry) (h : j ≠ address) :
    view db (cache.insert address entry) j = view db cache j := by
  rw [view, view, Std.HashMap.getElem?_insert, if_neg (by simpa using Ne.symm h)]

theorem cleanCache_insert_of_isDirty {cache : Std.HashMap Address AccountEntry} {address : Address}
    {entry : AccountEntry} (hclean : CleanCache db cache) (hdirty : entry.isDirty = true) :
    CleanCache db (cache.insert address entry) := by
  intro a e h he
  rw [Std.HashMap.getElem?_insert] at h
  split at h
  · obtain rfl := Option.some.inj h
    rw [hdirty] at he
    cases he
  · exact hclean a e h he

/-! Loading an account changes no view. -/

theorem loadedCache_cases {s : State} {address : Address} {cache : Std.HashMap Address AccountEntry}
    (h : State.loadedCache db s address = .ok cache) :
    (s.cache.contains address = true ∧ cache = s.cache) ∨
      ∃ account, s.cache[address]? = none ∧ db.getAccount address = .ok account ∧
        cache = s.cache.insert address (.newClean (account.map OverlayAccount.fromLoaded)) := by
  unfold State.loadedCache at h
  split at h
  case isTrue hc => exact .inl ⟨hc, (Except.ok.inj h).symm⟩
  case isFalse hc =>
    obtain ⟨account, hget, rfl⟩ := map_eq_ok_iff.mp h
    have hnone : s.cache[address]? = none :=
      Std.HashMap.getElem?_eq_none_of_contains_eq_false (Bool.eq_false_iff.mpr hc)
    exact .inr ⟨account, hnone, hget, by simp [State.insertCacheIfFreshAccount, hc]⟩

theorem view_loadedCache {s : State} {address : Address} {cache : Std.HashMap Address AccountEntry}
    (h : State.loadedCache db s address = .ok cache) : view db cache = view db s.cache := by
  rcases loadedCache_cases h with ⟨-, rfl⟩ | ⟨account, hnone, hget, rfl⟩
  · rfl
  · funext j
    by_cases hj : j = address
    · subst hj
      rw [view_insert_self, view, hnone, entryAccount, dbView, hget]
      rfl
    · exact view_insert_of_ne _ hj

theorem cleanCache_loadedCache {s : State} {address : Address}
    {cache : Std.HashMap Address AccountEntry} (hclean : CleanCache db s.cache)
    (h : State.loadedCache db s address = .ok cache) : CleanCache db cache := by
  rcases loadedCache_cases h with ⟨-, rfl⟩ | ⟨account, -, hget, rfl⟩
  · exact hclean
  · intro a entry hentry hdirty
    rw [Std.HashMap.getElem?_insert] at hentry
    split at hentry
    case isTrue heq =>
      -- the loaded entry holds the database's account
      obtain rfl := beq_iff_eq.mp heq
      obtain rfl := Option.some.inj hentry
      rw [dbView, hget]
      rfl
    case isFalse => exact hclean a entry hentry hdirty

theorem exists_getElem?_loadedCache {s : State} {address : Address}
    {cache : Std.HashMap Address AccountEntry} (h : State.loadedCache db s address = .ok cache) :
    ∃ entry, cache[address]? = some entry := by
  rcases loadedCache_cases h with ⟨hc, rfl⟩ | ⟨account, -, -, rfl⟩
  · exact Option.isSome_iff_exists.mp (Std.HashMap.contains_eq_isSome_getElem?.symm.trans hc)
  · exact ⟨_, Std.HashMap.getElem?_insert_self⟩

/-- The observations read the view: loading an account first answers what the view does. -/
theorem loadedAccount_eq_view (s : State) (address : Address) :
    s.loadedAccount db address = view db s.cache address := by
  unfold State.loadedAccount State.ensureAccountLoaded
  cases hcache : State.loadedCache db s address with
  | error e =>
    -- loading fails only when the database does, which is what the view reads
    rcases Bool.eq_false_or_eq_true (s.cache.contains address) with hc | hc
    · simp [State.loadedCache, hc] at hcache
    · have hnone : s.cache[address]? = none :=
        Std.HashMap.getElem?_eq_none_of_contains_eq_false hc
      simp only [State.loadedCache, hc] at hcache
      rw [view, hnone, entryAccount, dbView]
      cases hget : db.getAccount address with
      | error e' =>
        rw [hget] at hcache
        cases hcache
        rfl
      | ok account =>
        rw [hget] at hcache
        cases hcache
  | ok cache =>
    obtain ⟨entry, hentry⟩ := exists_getElem?_loadedCache hcache
    rw [← view_loadedCache hcache, view_of_getElem? hentry]
    simp [State.account?, hentry]

/-! Recording a pre-image in the newest checkpoint. -/

theorem getElem?_recordTop (top : Std.HashMap Address (Option AccountEntry)) (address : Address)
    (value : Option AccountEntry) (a : Address) :
    (if top.contains address then top else top.insert address value)[a]? =
      record (fun k => top[k]?) address value a := by
  unfold record
  by_cases ha : a = address
  · subst ha
    by_cases hc : top.contains a
    · obtain ⟨v, hv⟩ := Option.isSome_iff_exists.mp
        (Std.HashMap.contains_eq_isSome_getElem?.symm.trans hc)
      simp [hc, hv]
    · have hnone : top[a]? = none := Std.HashMap.getElem?_eq_none_of_contains_eq_false
        (Bool.eq_false_iff.mpr hc)
      simp [hc, hnone]
  · split
    · rfl
    · rw [Std.HashMap.getElem?_insert, if_neg (by simpa using Ne.symm ha)]

theorem journal_recordCheckpoint (checkpoints : List (Std.HashMap Address (Option AccountEntry)))
    (address : Address) (value : Option AccountEntry) :
    (State.recordCheckpoint checkpoints address value).map (fun top a => top[a]?) =
      match checkpoints.map (fun top a => top[a]?) with
      | [] => []
      | top :: rest => record top address value :: rest := by
  cases checkpoints with
  | nil => rfl
  | cons top rest =>
    simp only [State.recordCheckpoint, List.map_cons]
    congr 1
    funext a
    exact getElem?_recordTop top address value a

theorem cleanRecords_recordTop {top : Std.HashMap Address (Option AccountEntry)}
    {address : Address} {pre : Option AccountEntry} (htop : CleanRecords db top)
    (hpre : ∀ entry, pre = some entry → entry.isDirty = false →
      .ok entry.account = dbView db address) :
    CleanRecords db (if top.contains address then top else top.insert address pre) := by
  split
  · exact htop
  · intro a entry h hdirty
    rw [Std.HashMap.getElem?_insert] at h
    split at h
    case isTrue heq =>
      obtain rfl := beq_iff_eq.mp heq
      exact hpre entry (Option.some.inj h) hdirty
    case isFalse => exact htop a entry h hdirty

theorem cleanRecords_recordCheckpoint {checkpoints : List (Std.HashMap Address (Option AccountEntry))}
    {address : Address} {pre : Option AccountEntry}
    (hcheckpoints : ∀ top ∈ checkpoints, CleanRecords db top)
    (hpre : ∀ entry, pre = some entry → entry.isDirty = false →
      .ok entry.account = dbView db address) :
    ∀ top ∈ State.recordCheckpoint checkpoints address pre, CleanRecords db top := by
  cases checkpoints with
  | nil => exact fun top h => absurd h List.not_mem_nil
  | cons first rest =>
    intro top htop
    rcases List.mem_cons.mp htop with rfl | hrest
    · exact cleanRecords_recordTop (hcheckpoints first List.mem_cons_self) hpre
    · exact hcheckpoints top (List.mem_cons_of_mem _ hrest)

theorem length_recordCheckpoint (checkpoints : List (Std.HashMap Address (Option AccountEntry)))
    (address : Address) (value : Option AccountEntry) :
    (State.recordCheckpoint checkpoints address value).length = checkpoints.length := by
  cases checkpoints <;> rfl

/-- Marking an account dirty after recording its pre-image keeps the snapshots: the newest
checkpoint now restores the recorded pre-image, which is what the address showed before. -/
theorem keeps_insertDirty {s : State} (hwf : WellFormed db s)
    {cache : Std.HashMap Address AccountEntry} (hview : view db cache = view db s.cache)
    (hclean : CleanCache db cache) {address : Address} {pre : Option AccountEntry}
    (hpre : entryAccount db address pre = view db cache address)
    (hpreClean : ∀ entry, pre = some entry → entry.isDirty = false →
      .ok entry.account = dbView db address)
    {entry : AccountEntry} (hdirty : entry.isDirty = true) :
    Keeps db s { s with cache := cache.insert address entry
                        checkpoints := State.recordCheckpoint s.checkpoints address pre } where
  wellFormed :=
    ⟨cleanCache_insert_of_isDirty hclean hdirty,
      cleanRecords_recordCheckpoint hwf.recordsClean hpreClean,
      (length_recordCheckpoint _ _ _).symm ▸ hwf.lengths⟩
  snapshots_eq := by
    simp only [snapshotsOf, journal]
    rw [journal_recordCheckpoint]
    cases s.checkpoints.map
        (fun (top : Std.HashMap Address (Option AccountEntry)) (a : Address) => top[a]?) with
    | nil => rfl
    | cons top rest =>
      apply snapshots_record (entryAccount db)
      · intro _
        rw [hpre, hview]
      · intro j hj
        rw [view_insert_of_ne _ hj, hview]
  worldStatistics_eq := rfl
  worldStatisticsCheckpoints_eq := rfl

/-! The steps that change accounts. -/

theorem keeps_ensureAccountLoaded {s s' : State} {address : Address} (hwf : WellFormed db s)
    (h : State.ensureAccountLoaded db s address = .ok s') : Keeps db s s' := by
  obtain ⟨cache, hcache, rfl⟩ := map_eq_ok_iff.mp h
  refine ⟨⟨cleanCache_loadedCache hwf.clean hcache, hwf.recordsClean, hwf.lengths⟩, ?_, rfl, rfl⟩
  simp only [snapshotsOf, journal, view_loadedCache hcache]

theorem requireOrSet_eq_ok {s s' : State} {address : Address}
    {default : Except String OverlayAccount}
    {change : OverlayAccount → Except String OverlayAccount}
    (h : State.requireOrSet db s address default change = .ok s') :
    ∃ cache entry account, State.loadedCache db s address = .ok cache ∧
      cache[address]? = some entry ∧
      s' = { s with cache := cache.insert address ⟨some account, .dirty⟩
                    checkpoints :=
                      State.recordCheckpoint s.checkpoints address (some entry.cloneDirty) } := by
  unfold State.requireOrSet at h
  obtain ⟨cache, hcache, h⟩ := bind_eq_ok_iff.mp h
  split at h
  · cases h
  · next entry hentry =>
    obtain ⟨_, -, h⟩ := bind_eq_ok_iff.mp h
    obtain ⟨account, -, h⟩ := bind_eq_ok_iff.mp h
    exact ⟨cache, entry, account, hcache, hentry, (Except.ok.inj h).symm⟩

theorem loadedCache_isOk {s : State} {address : Address}
    (hload : ∃ account, db.getAccount address = .ok account) :
    ∃ cache, State.loadedCache db s address = .ok cache := by
  unfold State.loadedCache
  split
  · exact ⟨_, rfl⟩
  · obtain ⟨account, hget⟩ := hload
    rw [hget]
    exact ⟨_, rfl⟩

/-- `require_or_set` fails only where the database, the default account or the change does. -/
theorem requireOrSet_isOk {s : State} {address : Address} {default : Except String OverlayAccount}
    {change : OverlayAccount → Except String OverlayAccount}
    (hload : ∃ account, db.getAccount address = .ok account)
    (hdefault : ∃ account, default = .ok account)
    (hchange : ∀ account, ∃ account', change account = .ok account') :
    ∃ s', State.requireOrSet db s address default change = .ok s' := by
  obtain ⟨cache, hcache⟩ := loadedCache_isOk (s := s) hload
  obtain ⟨entry, hentry⟩ := exists_getElem?_loadedCache hcache
  unfold State.requireOrSet
  simp only [hcache, ok_bind, hentry]
  cases entry.account with
  | some account =>
    obtain ⟨account', hchanged⟩ := hchange account
    simp [hchanged]
  | none =>
    obtain ⟨account, haccount⟩ := hdefault
    obtain ⟨account', hchanged⟩ := hchange account
    simp [haccount, hchanged]

theorem keeps_requireOrSet {s s' : State} {address : Address}
    {default : Except String OverlayAccount}
    {change : OverlayAccount → Except String OverlayAccount} (hwf : WellFormed db s)
    (h : State.requireOrSet db s address default change = .ok s') : Keeps db s s' := by
  obtain ⟨cache, entry, account, hcache, hentry, rfl⟩ := requireOrSet_eq_ok h
  have hclean := cleanCache_loadedCache hwf.clean hcache
  rw [AccountEntry.cloneDirty_eq]
  -- the pre-image `require_or_set` records is the loaded entry itself
  have hpre : entryAccount db address (some entry) = view db cache address :=
    (view_of_getElem? hentry).symm
  refine keeps_insertDirty hwf (view_loadedCache hcache) hclean hpre ?_ rfl
  intro e he hdirty
  obtain rfl := Option.some.inj he
  exact hclean address _ hentry hdirty

theorem keeps_updateCache {s : State} {address : Address} {account : AccountEntry}
    (hwf : WellFormed db s) (hdirty : account.isDirty = true) :
    Keeps db s (s.updateCache address account) := by
  have heq : s.updateCache address account =
      { s with cache := s.cache.insert address account
               checkpoints := State.recordCheckpoint s.checkpoints address s.cache[address]? } := by
    simp [State.updateCache, hdirty]
  rw [heq]
  -- `update_cache` records the old entry, or `None`, which both read as the view
  exact keeps_insertDirty hwf rfl hwf.clean rfl (fun e he => hwf.clean address e he) hdirty

theorem keeps_addBalance {s s' : State} {address : Address} {by_ : U256}
    {cleanupMode : State.CleanupMode} {accountStartNonce : U256} (hwf : WellFormed db s)
    (h : State.addBalance db s address by_ cleanupMode accountStartNonce = .ok s') :
    Keeps db s s' := by
  obtain ⟨s₁, h₁, h⟩ := bind_eq_ok_iff.mp h
  have hk₁ := keeps_ensureAccountLoaded hwf h₁
  dsimp only at h
  split at h
  · exact hk₁.trans (keeps_requireOrSet hk₁.wellFormed h)
  · obtain rfl := Except.ok.inj h
    exact hk₁

theorem keeps_subBalance {s s' : State} {address : Address} {by_ : U256}
    {cleanupMode : State.CleanupMode} (hwf : WellFormed db s)
    (h : State.subBalance db s address by_ cleanupMode = .ok s') : Keeps db s s' := by
  obtain ⟨s₁, h₁, h⟩ := bind_eq_ok_iff.mp h
  have hk₁ : Keeps db s s₁ := by
    split at h₁
    · exact keeps_requireOrSet hwf h₁
    · obtain rfl := Except.ok.inj h₁
      exact .refl hwf
  split at h
  · exact hk₁.trans (keeps_ensureAccountLoaded hk₁.wellFormed h)
  · obtain rfl := Except.ok.inj h
    exact hk₁

theorem keeps_transferBalance {s s' : State} {from_ to_ : Address} {by_ : U256}
    {cleanupMode : State.CleanupMode} {accountStartNonce : U256} (hwf : WellFormed db s)
    (h : State.transferBalance db s from_ to_ by_ cleanupMode accountStartNonce = .ok s') :
    Keeps db s s' := by
  obtain ⟨s₁, h₁, h⟩ := bind_eq_ok_iff.mp h
  have hk₁ := keeps_subBalance hwf h₁
  exact hk₁.trans (keeps_addBalance hk₁.wellFormed h)

theorem keeps_setStorage {s s' : State} {address : Address} {key : List UInt8} {value : U256}
    (hwf : WellFormed db s) (h : State.setStorage db s address key value = .ok s') :
    Keeps db s s' := by
  obtain ⟨s₁, h₁, h⟩ := bind_eq_ok_iff.mp h
  have hk₁ := keeps_ensureAccountLoaded hwf h₁
  obtain ⟨current, -, h⟩ := bind_eq_ok_iff.mp h
  split at h
  · exact hk₁.trans (keeps_requireOrSet hk₁.wellFormed h)
  · obtain rfl := Except.ok.inj h
    exact hk₁

theorem keeps_newContract {s s' : State} {contract : Address} {balance nonce : U256}
    (hwf : WellFormed db s) (h : State.newContract db s contract balance nonce = .ok s') :
    Keeps db s s' := by
  obtain ⟨s₁, h₁, h⟩ := bind_eq_ok_iff.mp h
  have hk₁ := keeps_ensureAccountLoaded hwf h₁
  obtain rfl := Except.ok.inj h
  exact hk₁.trans (keeps_updateCache hk₁.wellFormed rfl)

/-- The operations that change accounts; the other three act on the checkpoints. -/
def StateOp.isModify : StateOp → Bool
  | .checkpoint | .discardCheckpoint | .revertToCheckpoint => false
  | _ => true

theorem keeps_apply {keccak : List UInt8 → H256} {s s' : State} {op : StateOp}
    (hwf : WellFormed db s) (hop : op.isModify = true) (h : op.apply keccak db s = .ok s') :
    Keeps db s s' := by
  cases op with
  | addBalance => exact keeps_addBalance hwf h
  | subBalance => exact keeps_subBalance hwf h
  | transferBalance => exact keeps_transferBalance hwf h
  | incNonce => exact keeps_requireOrSet hwf h
  | setNonce => exact keeps_requireOrSet hwf h
  | setStorage => exact keeps_setStorage hwf h
  | newContract => exact keeps_newContract hwf h
  | initCode => exact keeps_requireOrSet hwf h
  | removeContract =>
    obtain rfl := Except.ok.inj h
    exact keeps_updateCache hwf rfl
  | cleanAccount => exact keeps_requireOrSet hwf h
  | checkpoint => cases hop
  | discardCheckpoint => cases hop
  | revertToCheckpoint => cases hop

/-! Opening, discarding and reverting a checkpoint. -/

theorem snapshotsOf_checkpoint (s : State) :
    snapshotsOf db s.checkpoint = view db s.cache :: snapshotsOf db s := by
  have hempty : (fun (a : Address) => (∅ : Std.HashMap Address (Option AccountEntry))[a]?) =
      fun _ => none := by
    funext a
    exact Std.HashMap.getElem?_empty
  simp only [snapshotsOf, journal, State.checkpoint, List.map_cons, hempty]
  exact snapshots_push _ _ _

theorem wellFormed_checkpoint {s : State} (hwf : WellFormed db s) : WellFormed db s.checkpoint where
  clean := hwf.clean
  recordsClean := by
    intro top htop
    rcases List.mem_cons.mp htop with rfl | hrest
    · intro a entry h
      simp at h
    · exact hwf.recordsClean top hrest
  lengths := by simp [State.checkpoint, hwf.lengths]

/-- The loop of `discard_checkpoint` keeps what the previous checkpoint records, and adds what only
the newest one does. -/
theorem getElem?_orInsertAll (prev top : Std.HashMap Address (Option AccountEntry)) (a : Address) :
    (State.orInsertAll prev top.toList)[a]? = (prev[a]?).or (top[a]?) := by
  have hframe : ∀ (m : Std.HashMap Address (Option AccountEntry)) k r j, k ≠ j →
      (if m.contains k then m else m.insert k r)[j]? = m[j]? := by
    intro m k r j hkj
    rw [getElem?_recordTop, record, if_neg (Ne.symm hkj)]
  have hself : ∀ (m : Std.HashMap Address (Option AccountEntry)) k r,
      (if m.contains k then m else m.insert k r)[k]? = (m[k]?).or (some r) := by
    intro m k r
    rw [getElem?_recordTop, record, if_pos rfl]
  have key := get_foldl_toList (fun m j => m[j]?)
    (fun m entry => if m.contains entry.1 then m else m.insert entry.1 entry.2)
    (fun _ r old => old.or (some r)) hframe hself top prev a
  rw [State.orInsertAll, key]
  cases top[a]? <;> simp

theorem getElem?_mergedTop (prev top : Std.HashMap Address (Option AccountEntry)) (a : Address) :
    (if prev.isEmpty then top else State.orInsertAll prev top.toList)[a]? =
      merge (fun k => top[k]?) (fun k => prev[k]?) a := by
  simp only [merge]
  split
  case isTrue hempty => rw [Std.HashMap.getElem?_of_isEmpty hempty, Option.none_or]
  case isFalse => exact getElem?_orInsertAll prev top a

theorem cleanRecords_mergedTop {prev top : Std.HashMap Address (Option AccountEntry)}
    (hprev : CleanRecords db prev) (htop : CleanRecords db top) :
    CleanRecords db (if prev.isEmpty then top else State.orInsertAll prev top.toList) := by
  intro a entry h hdirty
  rw [getElem?_mergedTop, merge] at h
  cases hp : prev[a]? with
  | some r =>
    rw [hp, Option.some_or] at h
    exact hprev a entry (hp.trans h) hdirty
  | none =>
    rw [hp, Option.none_or] at h
    exact htop a entry h hdirty

theorem snapshotsOf_discardCheckpoint {s : State} {top : Std.HashMap Address (Option AccountEntry)}
    {rest : List (Std.HashMap Address (Option AccountEntry))} (htop : s.checkpoints = top :: rest) :
    snapshotsOf db s.discardCheckpoint = (snapshotsOf db s).tail := by
  cases rest with
  | nil => simp [snapshotsOf, journal, State.discardCheckpoint, htop, snapshots_cons]
  | cons prev rest =>
    have hmerged : (fun a => (if prev.isEmpty then top else State.orInsertAll prev top.toList)[a]?) =
        merge (fun k => top[k]?) (fun k => prev[k]?) := funext (getElem?_mergedTop prev top)
    simp only [snapshotsOf, journal, State.discardCheckpoint, htop, List.map_cons, hmerged]
    exact snapshots_merge _ _ _ _ _

theorem wellFormed_discardCheckpoint {s : State} (hwf : WellFormed db s) :
    WellFormed db s.discardCheckpoint := by
  obtain ⟨clean, recordsClean, lengths⟩ := hwf
  unfold State.discardCheckpoint
  split
  · exact ⟨clean, recordsClean, lengths⟩
  · next top rest htop =>
    rw [htop] at recordsClean lengths
    cases rest with
    | nil => exact ⟨clean, fun _ h => absurd h List.not_mem_nil, by simp [lengths]⟩
    | cons prev rest =>
      refine ⟨clean, ?_, by simp [lengths]⟩
      intro t ht
      rcases List.mem_cons.mp ht with rfl | hrest
      · exact cleanRecords_mergedTop (recordsClean prev (by simp)) (recordsClean top (by simp))
      · exact recordsClean t (by simp [hrest])

theorem discardCheckpoint_worldStatistics (s : State) :
    s.discardCheckpoint.worldStatistics = s.worldStatistics := by
  unfold State.discardCheckpoint
  split <;> rfl

theorem discardCheckpoint_worldStatisticsCheckpoints {s : State}
    {top : Std.HashMap Address (Option AccountEntry)}
    {rest : List (Std.HashMap Address (Option AccountEntry))} (htop : s.checkpoints = top :: rest) :
    s.discardCheckpoint.worldStatisticsCheckpoints = s.worldStatisticsCheckpoints.tail := by
  simp [State.discardCheckpoint, htop]

/-- What the loop of `revert_to_checkpoint` leaves at one address, from its recorded pre-image and
its cache entry. -/
def revertAt : Option AccountEntry → Option AccountEntry → Option AccountEntry
  | some v, some e => some (e.overwriteWith v)
  | some v, none => some v
  | none, some e => if e.isDirty then none else some e
  | none, none => none

theorem getElem?_revertEntry_self (cache : Std.HashMap Address AccountEntry) (k : Address)
    (r : Option AccountEntry) : (State.revertEntry cache (k, r))[k]? = revertAt r cache[k]? := by
  cases r with
  | some v => cases hk : cache[k]? <;> simp [State.revertEntry, revertAt, hk]
  | none =>
    cases hk : cache[k]? with
    | none => simp [State.revertEntry, revertAt, hk]
    | some e => by_cases hd : e.isDirty <;> simp [State.revertEntry, revertAt, hk, hd]

theorem getElem?_revertEntry_of_ne (cache : Std.HashMap Address AccountEntry) {k j : Address}
    (r : Option AccountEntry) (hkj : k ≠ j) : (State.revertEntry cache (k, r))[j]? = cache[j]? := by
  have hbeq : (k == j) = false := beq_eq_false_iff_ne.mpr hkj
  cases r with
  | some v => cases hk : cache[k]? <;> simp [State.revertEntry, hk, Std.HashMap.getElem?_insert, hbeq]
  | none =>
    cases hk : cache[k]? with
    | none => simp [State.revertEntry, hk]
    | some e =>
      by_cases hd : e.isDirty <;>
        simp [State.revertEntry, hk, hd, Std.HashMap.getElem?_erase, hbeq]

theorem getElem?_revertCache (cache : Std.HashMap Address AccountEntry)
    (top : Std.HashMap Address (Option AccountEntry)) (a : Address) :
    (top.toList.foldl State.revertEntry cache)[a]? =
      match top[a]? with
      | some r => revertAt r cache[a]?
      | none => cache[a]? := by
  have key := get_foldl_toList (fun m j => m[j]?) State.revertEntry (fun _ r old => revertAt r old)
    (fun m _ r _ hkj => getElem?_revertEntry_of_ne m r hkj)
    (fun m k r => getElem?_revertEntry_self m k r) top cache a
  rw [key]
  cases top[a]? <;> rfl

/-- Reverting one address shows its recorded pre-image; an entry dropped or kept for an address
recorded as not cached shows the database's account, a kept one being clean. -/
theorem entryAccount_revertAt {address : Address} {old : Option AccountEntry}
    (hclean : ∀ e, old = some e → e.isDirty = false → .ok e.account = dbView db address)
    (r : Option AccountEntry) : entryAccount db address (revertAt r old) = entryAccount db address r := by
  cases r with
  | some v => cases old <;> simp [revertAt, entryAccount]
  | none =>
    cases old with
    | none => rfl
    | some e =>
      by_cases hd : e.isDirty
      · simp [revertAt, hd, entryAccount]
      · simp only [revertAt, hd, entryAccount]
        exact hclean e rfl (Bool.eq_false_iff.mpr hd)

theorem revertAt_eq_some {r old : Option AccountEntry} {entry : AccountEntry}
    (h : revertAt r old = some entry) : r = some entry ∨ (r = none ∧ old = some entry) := by
  cases r with
  | some v =>
    left
    cases old <;> simpa [revertAt] using h
  | none =>
    right
    cases old with
    | none => cases h
    | some e =>
      by_cases hd : e.isDirty
      · simp [revertAt, hd] at h
      · simpa [revertAt, hd] using h

theorem view_revertCache {cache : Std.HashMap Address AccountEntry} (hclean : CleanCache db cache)
    (top : Std.HashMap Address (Option AccountEntry)) :
    view db (top.toList.foldl State.revertEntry cache) =
      undo (entryAccount db) (fun a => top[a]?) (view db cache) := by
  funext a
  simp only [view, undo, getElem?_revertCache]
  cases top[a]? with
  | none => rfl
  | some r => exact entryAccount_revertAt (hclean a) r

theorem cleanCache_revertCache {cache : Std.HashMap Address AccountEntry}
    {top : Std.HashMap Address (Option AccountEntry)} (hclean : CleanCache db cache)
    (hrecords : CleanRecords db top) : CleanCache db (top.toList.foldl State.revertEntry cache) := by
  intro a entry h hdirty
  rw [getElem?_revertCache] at h
  cases htop : top[a]? with
  | none =>
    simp only [htop] at h
    exact hclean a entry h hdirty
  | some r =>
    simp only [htop] at h
    -- a clean entry after the revert is the recorded pre-image, or a clean one that was cached
    rcases revertAt_eq_some h with rfl | ⟨-, hold⟩
    · exact hrecords a entry htop hdirty
    · exact hclean a entry hold hdirty

theorem revertToCheckpoint_eq_ok {s s' : State} {top : Std.HashMap Address (Option AccountEntry)}
    {rest : List (Std.HashMap Address (Option AccountEntry))} (htop : s.checkpoints = top :: rest)
    (h : s.revertToCheckpoint = .ok s') :
    s'.cache = top.toList.foldl State.revertEntry s.cache ∧ s'.checkpoints = rest ∧
      s.worldStatisticsCheckpoints = s'.worldStatistics :: s'.worldStatisticsCheckpoints := by
  unfold State.revertToCheckpoint at h
  rw [htop] at h
  dsimp only at h
  split at h
  · cases h
  · next hws =>
    obtain rfl := Except.ok.inj h
    exact ⟨rfl, rfl, hws⟩

/-- On a well-formed state `revert_to_checkpoint` never reaches its `expect`: there is a saved
world statistic for every checkpoint. -/
theorem revertToCheckpoint_isOk {s : State} (hwf : WellFormed db s) :
    ∃ s', s.revertToCheckpoint = .ok s' := by
  unfold State.revertToCheckpoint
  split
  · exact ⟨_, rfl⟩
  · next top rest htop =>
    have hlen := hwf.lengths
    rw [htop] at hlen
    split
    · next hws =>
      rw [hws] at hlen
      simp at hlen
    · exact ⟨_, rfl⟩

theorem wellFormed_revertToCheckpoint {s s' : State} (hwf : WellFormed db s)
    (h : s.revertToCheckpoint = .ok s') : WellFormed db s' := by
  cases htop : s.checkpoints with
  | nil =>
    unfold State.revertToCheckpoint at h
    rw [htop] at h
    obtain rfl := Except.ok.inj h
    exact hwf
  | cons top rest =>
    obtain ⟨hcache, hrest, hws⟩ := revertToCheckpoint_eq_ok htop h
    have hrecords := hwf.recordsClean
    have hlen := hwf.lengths
    rw [htop] at hrecords hlen
    rw [hws] at hlen
    refine ⟨?_, ?_, ?_⟩
    · rw [hcache]
      exact cleanCache_revertCache hwf.clean (hrecords top List.mem_cons_self)
    · rw [hrest]
      exact fun t ht => hrecords t (List.mem_cons_of_mem _ ht)
    · rw [hrest]
      simpa using hlen

/-- Reverting makes the newest snapshot the view, and leaves the others. -/
theorem snapshotsOf_revertToCheckpoint {s s' : State} (hwf : WellFormed db s)
    {top : Std.HashMap Address (Option AccountEntry)}
    {rest : List (Std.HashMap Address (Option AccountEntry))} (htop : s.checkpoints = top :: rest)
    (h : s.revertToCheckpoint = .ok s') : snapshotsOf db s = view db s'.cache :: snapshotsOf db s' := by
  obtain ⟨hcache, hrest, -⟩ := revertToCheckpoint_eq_ok htop h
  simp only [snapshotsOf, journal, htop, hrest, hcache, List.map_cons, snapshots_cons,
    view_revertCache hwf.clean]

theorem exists_cons_of_snapshotsOf_eq_cons {s : State}
    {v : Address → Except String (Option OverlayAccount)}
    {rest : List (Address → Except String (Option OverlayAccount))}
    (h : snapshotsOf db s = v :: rest) : ∃ top cps, s.checkpoints = top :: cps := by
  cases hcs : s.checkpoints with
  | nil =>
    have hlen := @length_snapshotsOf db s
    rw [h, hcs] at hlen
    cases hlen
  | cons top cps => exact ⟨top, cps, rfl⟩

/-! A checkpoint closed again. -/

/-- A checkpoint, a run that keeps its snapshots, and a discard keep the snapshots below. -/
theorem keeps_discard_after_checkpoint {s s₂ : State} (hinner : Keeps db s.checkpoint s₂) :
    Keeps db s s₂.discardCheckpoint := by
  have hsnap : snapshotsOf db s₂ = view db s.cache :: snapshotsOf db s :=
    hinner.snapshots_eq.trans (snapshotsOf_checkpoint s)
  obtain ⟨top, rest, htop⟩ := exists_cons_of_snapshotsOf_eq_cons hsnap
  refine ⟨wellFormed_discardCheckpoint hinner.wellFormed, ?_, ?_, ?_⟩
  · rw [snapshotsOf_discardCheckpoint htop, hsnap, List.tail_cons]
  · rw [discardCheckpoint_worldStatistics, hinner.worldStatistics_eq]
    rfl
  · rw [discardCheckpoint_worldStatisticsCheckpoints htop, hinner.worldStatisticsCheckpoints_eq]
    rfl

/-- A checkpoint, a run that keeps its snapshots, and a revert give back the view and the world
statistics the checkpoint saved. -/
theorem keeps_revert_after_checkpoint {s s₂ s₃ : State} (hinner : Keeps db s.checkpoint s₂)
    (h : s₂.revertToCheckpoint = .ok s₃) :
    Keeps db s s₃ ∧ view db s₃.cache = view db s.cache := by
  have hsnap : snapshotsOf db s₂ = view db s.cache :: snapshotsOf db s :=
    hinner.snapshots_eq.trans (snapshotsOf_checkpoint s)
  obtain ⟨top, rest, htop⟩ := exists_cons_of_snapshotsOf_eq_cons hsnap
  have hrevert := snapshotsOf_revertToCheckpoint hinner.wellFormed htop h
  rw [hsnap] at hrevert
  obtain ⟨hview, hsnap₃⟩ := List.cons.inj hrevert
  have hws : s.worldStatistics :: s.worldStatisticsCheckpoints =
      s₃.worldStatistics :: s₃.worldStatisticsCheckpoints :=
    calc s.worldStatistics :: s.worldStatisticsCheckpoints
        = s.checkpoint.worldStatisticsCheckpoints := rfl
      _ = s₂.worldStatisticsCheckpoints := hinner.worldStatisticsCheckpoints_eq.symm
      _ = s₃.worldStatistics :: s₃.worldStatisticsCheckpoints :=
        (revertToCheckpoint_eq_ok htop h).2.2
  obtain ⟨hw, hwsc⟩ := List.cons.inj hws
  exact ⟨⟨wellFormed_revertToCheckpoint hinner.wellFormed h, hsnap₃.symm, hw.symm, hwsc.symm⟩,
    hview.symm⟩

/-- Sequences of operations in which every checkpoint opened is closed again, by a discard or a
revert. -/
inductive Balanced : List StateOp → Prop
  | nil : Balanced []
  | modify {op : StateOp} {ops : List StateOp} :
      op.isModify = true → Balanced ops → Balanced (op :: ops)
  | discard {inner ops : List StateOp} : Balanced inner → Balanced ops →
      Balanced (.checkpoint :: inner ++ .discardCheckpoint :: ops)
  | revert {inner ops : List StateOp} : Balanced inner → Balanced ops →
      Balanced (.checkpoint :: inner ++ .revertToCheckpoint :: ops)

section Runs

variable {keccak : List UInt8 → H256}

/-- A balanced run keeps the snapshots and the world statistics, saved and current. -/
theorem keeps_run_of_balanced {ops : List StateOp} (hops : Balanced ops) :
    ∀ {s s' : State}, WellFormed db s → run keccak db s ops = .ok s' → Keeps db s s' := by
  induction hops with
  | nil =>
    intro s s' hwf h
    obtain rfl := Except.ok.inj h
    exact .refl hwf
  | modify hop _ ih =>
    intro s s' hwf h
    rw [run_cons] at h
    obtain ⟨s₁, h₁, h⟩ := bind_eq_ok_iff.mp h
    have hk₁ := keeps_apply hwf hop h₁
    exact hk₁.trans (ih hk₁.wellFormed h)
  | @discard inner ops _ _ ihInner ihOps =>
    intro s s' hwf h
    rw [List.cons_append, run_cons] at h
    obtain ⟨s₁, h₁, h⟩ := bind_eq_ok_iff.mp h
    obtain rfl : s.checkpoint = s₁ := Except.ok.inj h₁
    rw [run_append] at h
    obtain ⟨s₂, h₂, h⟩ := bind_eq_ok_iff.mp h
    rw [run_cons] at h
    obtain ⟨s₃, h₃, h⟩ := bind_eq_ok_iff.mp h
    obtain rfl : s₂.discardCheckpoint = s₃ := Except.ok.inj h₃
    have hk₃ := keeps_discard_after_checkpoint (ihInner (wellFormed_checkpoint hwf) h₂)
    exact hk₃.trans (ihOps hk₃.wellFormed h)
  | @revert inner ops _ _ ihInner ihOps =>
    intro s s' hwf h
    rw [List.cons_append, run_cons] at h
    obtain ⟨s₁, h₁, h⟩ := bind_eq_ok_iff.mp h
    obtain rfl : s.checkpoint = s₁ := Except.ok.inj h₁
    rw [run_append] at h
    obtain ⟨s₂, h₂, h⟩ := bind_eq_ok_iff.mp h
    rw [run_cons] at h
    obtain ⟨s₃, h₃, h⟩ := bind_eq_ok_iff.mp h
    have hk₃ := (keeps_revert_after_checkpoint (ihInner (wellFormed_checkpoint hwf) h₂) h₃).1
    exact hk₃.trans (ihOps hk₃.wellFormed h)

theorem wellFormed_apply {s s' : State} {op : StateOp} (hwf : WellFormed db s)
    (h : op.apply keccak db s = .ok s') : WellFormed db s' := by
  cases hop : op.isModify
  · cases op with
    | checkpoint =>
      obtain rfl := Except.ok.inj h
      exact wellFormed_checkpoint hwf
    | discardCheckpoint =>
      obtain rfl := Except.ok.inj h
      exact wellFormed_discardCheckpoint hwf
    | revertToCheckpoint => exact wellFormed_revertToCheckpoint hwf h
    | _ => cases hop
  · exact (keeps_apply hwf hop h).wellFormed

/-- Every state a run reaches is well formed. -/
theorem wellFormed_run {s s' : State} {ops : List StateOp} (hwf : WellFormed db s)
    (h : run keccak db s ops = .ok s') : WellFormed db s' := by
  induction ops generalizing s with
  | nil =>
    obtain rfl := Except.ok.inj h
    exact hwf
  | cons op ops ih =>
    rw [run_cons] at h
    obtain ⟨s₁, h₁, h⟩ := bind_eq_ok_iff.mp h
    exact ih (wellFormed_apply hwf h₁) h

/-- Every state reached from `State::new` by operations, checkpointed, changed by a balanced
sequence of operations and reverted, answers every observation as it did at the checkpoint. -/
theorem observations_revertToCheckpoint {s₀ s s' : State} {pre ops : List StateOp}
    (hnew : State.new db = .ok s₀) (hpre : run keccak db s₀ pre = .ok s) (hops : Balanced ops)
    (h : run keccak db s (.checkpoint :: ops ++ [.revertToCheckpoint]) = .ok s') :
    ∀ address key,
      State.balance db s' address = State.balance db s address ∧
      State.nonce db s' address = State.nonce db s address ∧
      State.exists_ db s' address = State.exists_ db s address ∧
      State.existsAndNotNull db s' address = State.existsAndNotNull db s address ∧
      State.storageAt db s' address key = State.storageAt db s address key ∧
      State.codeHash db s' address = State.codeHash db s address ∧
      State.code db s' address = State.code db s address ∧
      State.totalIssuedTokens s' = State.totalIssuedTokens s := by
  have hwf : WellFormed db s := wellFormed_run (wellFormed_new hnew) hpre
  rw [List.cons_append, run_cons] at h
  obtain ⟨s₁, h₁, h⟩ := bind_eq_ok_iff.mp h
  obtain rfl : s.checkpoint = s₁ := Except.ok.inj h₁
  rw [run_append] at h
  obtain ⟨s₂, h₂, h⟩ := bind_eq_ok_iff.mp h
  rw [run_singleton] at h
  obtain ⟨hkeeps, hview⟩ :=
    keeps_revert_after_checkpoint (keeps_run_of_balanced hops (wellFormed_checkpoint hwf) h₂) h
  intro address key
  -- every observation reads the loaded account, which is the view
  have hacc : s'.loadedAccount db address = s.loadedAccount db address := by
    rw [loadedAccount_eq_view, loadedAccount_eq_view, hview]
  refine ⟨?_, ?_, ?_, ?_, ?_, ?_, ?_, hkeeps.worldStatistics_eq⟩ <;>
    simp only [State.balance, State.nonce, State.exists_, State.existsAndNotNull, State.storageAt,
      State.codeHash, State.code, hacc]

/-- A database with no accounts, no storage, no code and no issued tokens. -/
def emptyDb : StateDb := ⟨fun _ => .ok none, fun _ _ => .ok none, fun _ _ => .ok none, .ok 0⟩

/-- Setting a nonce after a checkpoint and reverting gives back the nonce of before. -/
theorem nonce_setNonce_reverted :
    ∃ s', run (fun _ => ⟨List.replicate 32 0, rfl⟩) emptyDb ⟨∅, 0, [], []⟩
        (.checkpoint :: [.setNonce ⟨List.replicate 20 0, rfl⟩ 5] ++ [.revertToCheckpoint]) = .ok s' ∧
      State.nonce emptyDb s' ⟨List.replicate 20 0, rfl⟩ =
        State.nonce emptyDb ⟨∅, 0, [], []⟩ ⟨List.replicate 20 0, rfl⟩ := by
  have hwf : WellFormed emptyDb (State.checkpoint ⟨∅, 0, [], []⟩) :=
    wellFormed_checkpoint (wellFormed_new rfl)
  obtain ⟨s₂, h₂⟩ := @requireOrSet_isOk emptyDb (State.checkpoint ⟨∅, 0, [], []⟩)
    ⟨List.replicate 20 0, rfl⟩ (.ok (.newBasic 0 5)) (fun a => .ok (a.setNonce 5))
    ⟨none, rfl⟩ ⟨_, rfl⟩ (fun _ => ⟨_, rfl⟩)
  obtain ⟨s₃, h₃⟩ := revertToCheckpoint_isOk (keeps_requireOrSet hwf h₂).wellFormed
  have h : run (fun _ => ⟨List.replicate 32 0, rfl⟩) emptyDb ⟨∅, 0, [], []⟩
      (.checkpoint :: [.setNonce ⟨List.replicate 20 0, rfl⟩ 5] ++ [.revertToCheckpoint]) =
        .ok s₃ := by
    simp only [List.cons_append, List.nil_append, run_cons, StateOp.apply, ok_bind,
      State.setNonce, State.requireOrNewBasicAccount]
    rw [h₂, ok_bind, h₃, ok_bind, run_nil]
  exact ⟨s₃, h, (@observations_revertToCheckpoint emptyDb (fun _ => ⟨List.replicate 32 0, rfl⟩)
    _ _ _ [] _ rfl rfl (.modify rfl .nil) h _ []).2.1⟩

end Runs

end Hemvm.CfxEvm
