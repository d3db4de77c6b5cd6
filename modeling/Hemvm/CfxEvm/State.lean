import Hemvm.Types

/-! The EVM's world state (`cfx-evm/src/state/mod.rs` and `account_entry.rs`). A `State` caches
the accounts it has read or changed over a `StateDb`, and keeps a stack of checkpoints: for each
open checkpoint, the first pre-image of every account changed while it was the newest
(`None` when the account was not cached). `revert_to_checkpoint` puts the pre-images back,
`discard_checkpoint` merges the newest into the one below.

Vectors used as stacks (`checkpoints`, `world_statistics_checkpoints`) are lists with the newest
element first. An `OverlayAccount` lives in the cache under its own address, so its `address`
field is the key it is read under and is not stored. The read cache of storage values memoizes
the database (it is filled only from it, and a fresh-storage account never fills it), and loading
code memoizes `get_code`; both are left out, and a read goes to the database each time. -/
namespace Hemvm.CfxEvm

/-- `U256 + U256`, which panics on overflow. -/
def checkedAdd (a b : U256) : Except String U256 :=
  if h : a.val + b.val < 2 ^ 256 then .ok ⟨a.val + b.val, h⟩ else .error "arithmetic operation overflow"

/-- `KECCAK_EMPTY`, the Keccak-256 hash of no bytes. -/
def keccakEmpty : H256 :=
  ⟨[0xc5, 0xd2, 0x46, 0x01, 0x86, 0xf7, 0x23, 0x3c, 0x92, 0x7e, 0x7d, 0xb2, 0xdc, 0xc7, 0x03, 0xc0,
    0xe5, 0x00, 0xb6, 0x53, 0xca, 0x82, 0x27, 0x3b, 0x7b, 0xfa, 0xd8, 0x04, 0x5d, 0x85, 0xa4, 0x70],
    rfl⟩

/-- `AddressUtil::is_builtin_address`: type bits `0x00` in the first byte, and not the null
address. -/
def isBuiltinAddress (address : Address) : Bool :=
  (address.bytes.headD 0 &&& 0xF0) == 0x00 && !address.bytes.all (· == 0)

/-- `primitives::Account`, by what the state reads of it. -/
structure Account where
  balance : U256
  nonce : U256
  codeHash : H256

/-- `Account::new_empty`. -/
def Account.newEmpty : Account := ⟨0, 0, keccakEmpty⟩

/-- The reads of `StateDb` the state makes; each may fail. -/
structure StateDb where
  getAccount : Address → Except String (Option Account)
  getStorage : Address → List UInt8 → Except String (Option U256)
  getCode : Address → H256 → Except String (Option (List UInt8))
  getTotalIssuedTokens : Except String U256

/-- `DbErrorKind::IncompleteDatabase`. -/
def incompleteDatabase : String := "incomplete database"

/-- `OverlayAccount`. -/
structure OverlayAccount where
  balance : U256
  nonce : U256
  storageValueWriteCache : Std.HashMap (List UInt8) U256
  codeHash : H256
  code : Option (List UInt8)
  isNewlyCreatedContract : Bool
  invalidatedStorage : Bool

namespace OverlayAccount

/-- `OverlayAccount::from_loaded`. -/
def fromLoaded (account : Account) : OverlayAccount :=
  { balance := account.balance, nonce := account.nonce, storageValueWriteCache := ∅,
    codeHash := account.codeHash, code := none, isNewlyCreatedContract := false,
    invalidatedStorage := false }

/-- `OverlayAccount::new_basic`. -/
def newBasic (balance nonce : U256) : OverlayAccount :=
  { balance, nonce, storageValueWriteCache := ∅, codeHash := keccakEmpty, code := none,
    isNewlyCreatedContract := false, invalidatedStorage := false }

/-- `OverlayAccount::new_removed`. -/
def newRemoved : OverlayAccount :=
  { balance := 0, nonce := 0, storageValueWriteCache := ∅, codeHash := keccakEmpty, code := none,
    isNewlyCreatedContract := false, invalidatedStorage := true }

/-- `OverlayAccount::new_contract`; the storage layout is not modelled. -/
def newContract (balance nonce : U256) (invalidatedStorage : Bool) : OverlayAccount :=
  { balance, nonce, storageValueWriteCache := ∅, codeHash := keccakEmpty, code := none,
    isNewlyCreatedContract := true, invalidatedStorage }

/-- `OverlayAccount::is_null`. -/
def isNull (a : OverlayAccount) : Bool :=
  a.balance == 0 && a.nonce == 0 && a.codeHash == keccakEmpty

/-- `OverlayAccount::fresh_storage`, for the account at `address`. -/
def freshStorage (a : OverlayAccount) (address : Address) : Bool :=
  (a.isNewlyCreatedContract && !isBuiltinAddress address) || a.invalidatedStorage

/-- `OverlayAccount::is_code_loaded`. -/
def isCodeLoaded (a : OverlayAccount) : Bool := a.code.isSome || a.codeHash == keccakEmpty

def setNonce (a : OverlayAccount) (nonce : U256) : OverlayAccount := { a with nonce }

/-- `inc_nonce`: `nonce + 1`, which panics on overflow. -/
def incNonce (a : OverlayAccount) : Except String OverlayAccount :=
  (checkedAdd a.nonce 1).map fun nonce => { a with nonce }

def addBalance (a : OverlayAccount) (by_ : U256) : Except String OverlayAccount :=
  (checkedAdd a.balance by_).map fun balance => { a with balance }

/-- `sub_balance`, which asserts that the balance covers the amount. -/
def subBalance (a : OverlayAccount) (by_ : U256) : Except String OverlayAccount :=
  if by_ ≤ a.balance then .ok { a with balance := a.balance - by_ }
  else .error "assertion failed: self.balance >= *by"

def setStorage (a : OverlayAccount) (key : List UInt8) (value : U256) : OverlayAccount :=
  { a with storageValueWriteCache := a.storageValueWriteCache.insert key value }

/-- `init_code`, with the hash function the state is built with. -/
def initCode (keccak : List UInt8 → H256) (a : OverlayAccount) (code : List UInt8) :
    OverlayAccount :=
  { a with codeHash := keccak code, code := some code }

/-- `storage_at`: the written value, else `0` for fresh storage, else the database's. -/
def storageAt (a : OverlayAccount) (db : StateDb) (address : Address) (key : List UInt8) :
    Except String U256 :=
  match a.storageValueWriteCache[key]? with
  | some value => .ok value
  | none =>
    if a.freshStorage address then .ok 0 else (db.getStorage address key).map (·.getD 0)

/-- The code `code()` answers after `cache_code`: the loaded code, or the database's by the code
hash, which must be there. -/
def loadCode (a : OverlayAccount) (db : StateDb) (address : Address) :
    Except String (Option (List UInt8)) :=
  if a.isCodeLoaded then .ok a.code
  else
    db.getCode address a.codeHash >>= fun code =>
      match code with
      | some code => .ok (some code)
      | none => .error incompleteDatabase

/-- `OverlayAccount::overwrite_with`: every field the account holds is taken from `other`. -/
def overwriteWith (_ours other : OverlayAccount) : OverlayAccount :=
  { balance := other.balance, nonce := other.nonce,
    storageValueWriteCache := other.storageValueWriteCache, codeHash := other.codeHash,
    code := other.code, isNewlyCreatedContract := other.isNewlyCreatedContract,
    invalidatedStorage := other.invalidatedStorage }

/-- `OverlayAccount::clone_dirty`: the basic fields and the write cache. -/
def cloneDirty (a : OverlayAccount) : OverlayAccount :=
  { balance := a.balance, nonce := a.nonce, storageValueWriteCache := a.storageValueWriteCache,
    codeHash := a.codeHash, code := a.code, isNewlyCreatedContract := a.isNewlyCreatedContract,
    invalidatedStorage := a.invalidatedStorage }

@[simp] theorem overwriteWith_eq (ours other : OverlayAccount) : ours.overwriteWith other = other :=
  rfl

@[simp] theorem cloneDirty_eq (a : OverlayAccount) : a.cloneDirty = a := rfl

end OverlayAccount

/-- `AccountState`. -/
inductive AccountState where
  | cleanFresh
  | cleanCached
  | dirty
  | committed
deriving DecidableEq

/-- `AccountEntry`; `old_balance` is never read by the modelled operations and is left out. -/
structure AccountEntry where
  account : Option OverlayAccount
  state : AccountState

namespace AccountEntry

def isDirty (e : AccountEntry) : Bool := e.state == .dirty

def newDirty (account : Option OverlayAccount) : AccountEntry := ⟨account, .dirty⟩

def newClean (account : Option OverlayAccount) : AccountEntry := ⟨account, .cleanFresh⟩

/-- `AccountEntry::overwrite_with`. -/
def overwriteWith (ours other : AccountEntry) : AccountEntry :=
  { state := other.state,
    account :=
      match other.account with
      | some acc =>
        match ours.account with
        | some mine => some (mine.overwriteWith acc)
        | none => some acc
      | none => none }

/-- `AccountEntry::clone_dirty`. -/
def cloneDirty (e : AccountEntry) : AccountEntry :=
  { account := e.account.map OverlayAccount.cloneDirty, state := e.state }

/-- Writing a recorded entry back over the cached one gives the recorded entry. -/
@[simp] theorem overwriteWith_eq (ours other : AccountEntry) : ours.overwriteWith other = other := by
  obtain ⟨account, state⟩ := other
  obtain ⟨mine, _⟩ := ours
  cases account <;> cases mine <;> rfl

@[simp] theorem cloneDirty_eq (e : AccountEntry) : e.cloneDirty = e := by
  obtain ⟨account, state⟩ := e
  cases account <;> rfl

end AccountEntry

/-- `State`, without the database it reads and the Move handler it carries. -/
structure State where
  cache : Std.HashMap Address AccountEntry
  /-- `world_statistics.total_issued_tokens`. -/
  worldStatistics : U256
  worldStatisticsCheckpoints : List U256
  checkpoints : List (Std.HashMap Address (Option AccountEntry))

namespace State

/-- `State::new`. -/
def new (db : StateDb) : Except String State :=
  db.getTotalIssuedTokens.map fun totalIssuedTokens => ⟨∅, totalIssuedTokens, [], []⟩

/-- The account the cache holds for an address. -/
def account? (s : State) (address : Address) : Option OverlayAccount :=
  (s.cache[address]?).bind (·.account)

/-- `State::insert_cache_if_fresh_account`. -/
def insertCacheIfFreshAccount (cache : Std.HashMap Address AccountEntry) (address : Address)
    (maybeAccount : Option OverlayAccount) : Std.HashMap Address AccountEntry :=
  if cache.contains address then cache else cache.insert address (.newClean maybeAccount)

/-- The `entry(address).or_insert(value)` on the newest checkpoint, if there is one. -/
def recordCheckpoint (checkpoints : List (Std.HashMap Address (Option AccountEntry)))
    (address : Address) (value : Option AccountEntry) :
    List (Std.HashMap Address (Option AccountEntry)) :=
  match checkpoints with
  | [] => []
  | top :: rest => (if top.contains address then top else top.insert address value) :: rest

/-- The cache after `db.get_account`, when the address is not cached. -/
def loadedCache (db : StateDb) (s : State) (address : Address) :
    Except String (Std.HashMap Address AccountEntry) :=
  if s.cache.contains address then .ok s.cache
  else
    (db.getAccount address).map fun account =>
      insertCacheIfFreshAccount s.cache address (account.map OverlayAccount.fromLoaded)

/-- `ensure_account_loaded(address, RequireCache::None, _)`, by the state it leaves. -/
def ensureAccountLoaded (db : StateDb) (s : State) (address : Address) : Except String State :=
  (loadedCache db s address).map fun cache => { s with cache }

/-- `require_or_set`, with the caller's change to the account: the account is loaded, its
pre-image recorded in the newest checkpoint, the entry marked dirty, a missing account replaced
by `default`, and the change applied. -/
def requireOrSet (db : StateDb) (s : State) (address : Address)
    (default : Except String OverlayAccount) (change : OverlayAccount → Except String OverlayAccount) :
    Except String State :=
  loadedCache db s address >>= fun cache =>
    match cache[address]? with
    | none => .error "entry known to exist in the cache"
    | some entry =>
      (match entry.account with
        | some account => .ok account
        | none => default) >>= fun account =>
        change account >>= fun account =>
          .ok { s with
                cache := cache.insert address ⟨some account, .dirty⟩
                checkpoints := recordCheckpoint s.checkpoints address (some entry.cloneDirty) }

/-- `require_exists`: a missing account is an error. -/
def requireExists (db : StateDb) (s : State) (address : Address)
    (change : OverlayAccount → Except String OverlayAccount) : Except String State :=
  requireOrSet db s address (.error incompleteDatabase) change

/-- `require_or_new_basic_account`: a missing account is a new basic one. -/
def requireOrNewBasicAccount (db : StateDb) (s : State) (address : Address)
    (accountStartNonce : U256) (change : OverlayAccount → Except String OverlayAccount) :
    Except String State :=
  requireOrSet db s address (.ok (.newBasic 0 accountStartNonce)) change

/-- `State::update_cache`: a dirty entry's pre-image, the old entry if any, is recorded. -/
def updateCache (s : State) (address : Address) (account : AccountEntry) : State :=
  { s with
    cache := s.cache.insert address account
    checkpoints :=
      if account.isDirty then recordCheckpoint s.checkpoints address s.cache[address]?
      else s.checkpoints }

/-! The observations; each loads the account first, which changes no observation. -/

/-- The account an observation reads, after loading it. -/
def loadedAccount (db : StateDb) (s : State) (address : Address) :
    Except String (Option OverlayAccount) :=
  (ensureAccountLoaded db s address).map (·.account? address)

def balance (db : StateDb) (s : State) (address : Address) : Except String U256 :=
  (loadedAccount db s address).map fun account => (account.map (·.balance)).getD 0

def nonce (db : StateDb) (s : State) (address : Address) : Except String U256 :=
  (loadedAccount db s address).map fun account => (account.map (·.nonce)).getD 0

def exists_ (db : StateDb) (s : State) (address : Address) : Except String Bool :=
  (loadedAccount db s address).map Option.isSome

def existsAndNotNull (db : StateDb) (s : State) (address : Address) : Except String Bool :=
  (loadedAccount db s address).map fun account => (account.map fun a => !a.isNull).getD false

def storageAt (db : StateDb) (s : State) (address : Address) (key : List UInt8) :
    Except String U256 :=
  loadedAccount db s address >>= fun account =>
    match account with
    | none => .ok 0
    | some a => a.storageAt db address key

def codeHash (db : StateDb) (s : State) (address : Address) : Except String (Option H256) :=
  (loadedAccount db s address).map (·.map (·.codeHash))

/-- `code`, which loads the code (`RequireCache::Code`). -/
def code (db : StateDb) (s : State) (address : Address) : Except String (Option (List UInt8)) :=
  loadedAccount db s address >>= fun account =>
    match account with
    | none => .ok none
    | some a => a.loadCode db address

def totalIssuedTokens (s : State) : U256 := s.worldStatistics

/-! The operations. -/

/-- `CleanupMode`; the set of touched accounts `TrackTouched` carries is not modelled. -/
inductive CleanupMode where
  | forceCreate
  | noEmpty
  | trackTouched
deriving DecidableEq

def newContract (db : StateDb) (s : State) (contract : Address) (balance nonce : U256) :
    Except String State :=
  ensureAccountLoaded db s contract >>= fun s =>
    let invalidatedStorage := ((s.account? contract).map (·.invalidatedStorage)).getD false
    .ok (s.updateCache contract (.newDirty (some (.newContract balance nonce invalidatedStorage))))

def initCode (keccak : List UInt8 → H256) (db : StateDb) (s : State) (address : Address)
    (code : List UInt8) : Except String State :=
  requireExists db s address fun a => .ok (a.initCode keccak code)

def cleanAccount (db : StateDb) (s : State) (address : Address) : Except String State :=
  requireOrNewBasicAccount db s address 0 fun _ => .ok (.fromLoaded .newEmpty)

def incNonce (db : StateDb) (s : State) (address : Address) (accountStartNonce : U256) :
    Except String State :=
  requireOrNewBasicAccount db s address accountStartNonce OverlayAccount.incNonce

def setNonce (db : StateDb) (s : State) (address : Address) (nonce : U256) : Except String State :=
  requireOrNewBasicAccount db s address nonce fun a => .ok (a.setNonce nonce)

/-- `sub_balance`; with `TrackTouched`, `exists` loads the account. -/
def subBalance (db : StateDb) (s : State) (address : Address) (by_ : U256)
    (cleanupMode : CleanupMode) : Except String State :=
  (if by_ ≠ 0 then requireExists db s address fun a => a.subBalance by_ else .ok s) >>= fun s =>
    match cleanupMode with
    | .trackTouched => ensureAccountLoaded db s address
    | _ => .ok s

/-- `add_balance`: an account is created for a nonzero amount, or by `ForceCreate`. -/
def addBalance (db : StateDb) (s : State) (address : Address) (by_ : U256)
    (cleanupMode : CleanupMode) (accountStartNonce : U256) : Except String State :=
  ensureAccountLoaded db s address >>= fun s =>
    let exists_ := (s.account? address).isSome
    if by_ ≠ 0 ∨ (cleanupMode = .forceCreate ∧ exists_ = false) then
      requireOrNewBasicAccount db s address accountStartNonce fun a => a.addBalance by_
    else .ok s

def transferBalance (db : StateDb) (s : State) (from_ to_ : Address) (by_ : U256)
    (cleanupMode : CleanupMode) (accountStartNonce : U256) : Except String State :=
  subBalance db s from_ by_ cleanupMode >>= fun s => addBalance db s to_ by_ cleanupMode accountStartNonce

def removeContract (s : State) (address : Address) : State :=
  s.updateCache address (.newDirty (some .newRemoved))

/-- `set_storage`: a write only when the value changes. -/
def setStorage (db : StateDb) (s : State) (address : Address) (key : List UInt8) (value : U256) :
    Except String State :=
  ensureAccountLoaded db s address >>= fun s =>
    (match s.account? address with
      | none => .ok 0
      | some a => a.storageAt db address key) >>= fun current =>
      if current ≠ value then requireExists db s address fun a => .ok (a.setStorage key value)
      else .ok s

/-! Checkpoints. -/

/-- `checkpoint`. -/
def checkpoint (s : State) : State :=
  { s with
    worldStatisticsCheckpoints := s.worldStatistics :: s.worldStatisticsCheckpoints
    checkpoints := ∅ :: s.checkpoints }

/-- The loop of `discard_checkpoint` over the newest checkpoint's entries. -/
def orInsertAll (prev : Std.HashMap Address (Option AccountEntry))
    (entries : List (Address × Option AccountEntry)) : Std.HashMap Address (Option AccountEntry) :=
  entries.foldl (fun prev entry => if prev.contains entry.1 then prev else prev.insert entry.1 entry.2)
    prev

/-- `discard_checkpoint`: the newest checkpoint is merged into the previous one, whose entries
win. -/
def discardCheckpoint (s : State) : State :=
  match s.checkpoints with
  | [] => s
  | checkpoint :: rest =>
    { s with
      worldStatisticsCheckpoints := s.worldStatisticsCheckpoints.tail
      checkpoints :=
        match rest with
        | [] => []
        | prev :: rest =>
          (if prev.isEmpty then checkpoint else orInsertAll prev checkpoint.toList) :: rest }

/-- One entry of the loop of `revert_to_checkpoint`: a recorded account is written back over the
cached one, and an account that was not cached is removed if it is dirty. -/
def revertEntry (cache : Std.HashMap Address AccountEntry) (entry : Address × Option AccountEntry) :
    Std.HashMap Address AccountEntry :=
  match entry.2 with
  | some v =>
    match cache[entry.1]? with
    | some e => cache.insert entry.1 (e.overwriteWith v)
    | none => cache.insert entry.1 v
  | none =>
    match cache[entry.1]? with
    | some e => if e.isDirty then cache.erase entry.1 else cache
    | none => cache

/-- `revert_to_checkpoint`. -/
def revertToCheckpoint (s : State) : Except String State :=
  match s.checkpoints with
  | [] => .ok s
  | checkpoint :: rest =>
    match s.worldStatisticsCheckpoints with
    | [] => .error "staking_state_checkpoint should exist"
    | worldStatistics :: wsRest =>
      .ok { s with
            worldStatistics
            worldStatisticsCheckpoints := wsRest
            checkpoints := rest
            cache := checkpoint.toList.foldl revertEntry s.cache }

end State

/-- The operations of the state that a run of the EVM performs. -/
inductive StateOp where
  | addBalance (address : Address) (by_ : U256) (cleanupMode : State.CleanupMode)
      (accountStartNonce : U256)
  | subBalance (address : Address) (by_ : U256) (cleanupMode : State.CleanupMode)
  | transferBalance (from_ to_ : Address) (by_ : U256) (cleanupMode : State.CleanupMode)
      (accountStartNonce : U256)
  | incNonce (address : Address) (accountStartNonce : U256)
  | setNonce (address : Address) (nonce : U256)
  | setStorage (address : Address) (key : List UInt8) (value : U256)
  | newContract (address : Address) (balance nonce : U256)
  | initCode (address : Address) (code : List UInt8)
  | removeContract (address : Address)
  | cleanAccount (address : Address)
  | checkpoint
  | discardCheckpoint
  | revertToCheckpoint

namespace StateOp

/-- Performing one operation. -/
def apply (keccak : List UInt8 → H256) (db : StateDb) (s : State) : StateOp → Except String State
  | .addBalance address by_ cleanupMode accountStartNonce =>
    State.addBalance db s address by_ cleanupMode accountStartNonce
  | .subBalance address by_ cleanupMode => State.subBalance db s address by_ cleanupMode
  | .transferBalance from_ to_ by_ cleanupMode accountStartNonce =>
    State.transferBalance db s from_ to_ by_ cleanupMode accountStartNonce
  | .incNonce address accountStartNonce => State.incNonce db s address accountStartNonce
  | .setNonce address nonce => State.setNonce db s address nonce
  | .setStorage address key value => State.setStorage db s address key value
  | .newContract address balance nonce => State.newContract db s address balance nonce
  | .initCode address code => State.initCode keccak db s address code
  | .removeContract address => .ok (s.removeContract address)
  | .cleanAccount address => State.cleanAccount db s address
  | .checkpoint => .ok s.checkpoint
  | .discardCheckpoint => .ok s.discardCheckpoint
  | .revertToCheckpoint => s.revertToCheckpoint

end StateOp

/-- A sequence of operations. -/
def run (keccak : List UInt8 → H256) (db : StateDb) (s : State) (ops : List StateOp) :
    Except String State :=
  ops.foldlM (StateOp.apply keccak db) s

section Run

variable (keccak : List UInt8 → H256) (db : StateDb)

@[simp] theorem run_nil (s : State) : run keccak db s [] = .ok s := rfl

theorem run_cons (s : State) (op : StateOp) (ops : List StateOp) :
    run keccak db s (op :: ops) = op.apply keccak db s >>= fun s => run keccak db s ops := rfl

theorem run_append (s : State) (ops ops' : List StateOp) :
    run keccak db s (ops ++ ops') = run keccak db s ops >>= fun s => run keccak db s ops' :=
  List.foldlM_append

theorem run_singleton (s : State) (op : StateOp) : run keccak db s [op] = op.apply keccak db s := by
  rw [run_cons]
  exact bind_pure _

end Run

end Hemvm.CfxEvm
