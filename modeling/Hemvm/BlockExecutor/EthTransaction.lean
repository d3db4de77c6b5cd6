import Hemvm.EthereumVm.Events

/-! `AptosEVM::execute_eth_transaction` (`aptos-move/block-executor/src/aptos_vm.rs`). An
Ethereum transaction runs in the EVM over a `ViewWrapper` of the Aptos state, with a
`CrossSpaceHandler` that serves the EVM's calls into Move from one Move session. The EVM's state is
committed into the wrapper; the logs of a successful run become events, with their nonces written
into the wrapper too; the session is finalized into a change set; and the write set is the drained
wrapper with the session's change set inserted after it.

The EVM machine and the Move session enter as parameters (`EvmExecutor`), so that what is proved
holds for every run of the EVM and every session. So does the BCS serializer that converts the
wrapper's keys; the results that rest on distinct keys converting to distinct state keys, the
nonce keys apart from the commit's, take it lawful. -/
namespace Hemvm.BlockExecutor
open Aptos Bcs Codec EthereumVm Store Control

/-- `Executed`, by the part the executor reads: the logs. -/
structure Executed where
  logs : List LogEntry

/-- `ExecutionOutcome`; the reasons of the errors only decide the status, which is not modelled. -/
inductive ExecutionOutcome where
  | notExecutedDrop
  | notExecutedToReconsiderPacking
  | executionErrorBumpNonce (executed : Executed)
  | finished (executed : Executed)

/-- `ExecutionOutcome::successfully_executed`. -/
def ExecutionOutcome.successfullyExecuted : ExecutionOutcome → Option Executed
  | .finished executed => some executed
  | _ => none

/-- What `executor.transact` and `state.commit` hand back to the executor: the outcome, the writes
the commit makes through the wrapper (a value to set, or `none` to delete), and the handler after
the run's calls into Move. -/
structure EvmRun (Handler : Type) where
  outcome : ExecutionOutcome
  commitWrites : List (OwnedStateKey × Option (List UInt8))
  handler : Handler

/-- The EVM and the Move session as the executor uses them. `transact` is `executor.transact` of
the transaction over the view, with the handler serving its calls into Move, followed by the
state's commit; `finalize` is `CrossSpaceHandler::finalize`. -/
structure EvmExecutor (Handler : Type) where
  transact : StateView → Handler → Except String (EvmRun Handler)
  finalize : Handler → Except String (List (StateKey × WriteOp))

/-- A write of `state.commit`, through `StorageKeyWrapper`'s key conversion into the wrapper. -/
def commitOp : OwnedStateKey × Option (List UInt8) → StorageOp
  | (key, some value) => .set (.ofOwnedStateKey key) value
  | (key, none) => .delete (.ofOwnedStateKey key)

/-- `expect(msg)`: an error panics with `msg` and the error. -/
def expectOk {α : Type} (r : Except String α) (msg : String) : Except String α :=
  match r with
  | .ok a => .ok a
  | .error e => .error (msg ++ ": " ++ e)

/-- The events of the run: the logs of a successful run made into events through the wrapper,
and none otherwise. -/
def transactionEvents (bcs : Serializer) (outcome : ExecutionOutcome) (viewWrapper : ViewWrapper) :
    Except String (List ContractEvent × ViewWrapper) :=
  match outcome.successfullyExecuted with
  | some executed =>
    expectOk (evmEventsToAptosEvents (ViewWrapper.storage bcs) viewWrapper executed.logs)
      "no db error"
  | none => .ok ([], viewWrapper)

/-- `TransactionOutput`, by its write set and events. -/
structure TransactionOutput where
  writeSet : WriteSetMut
  events : List ContractEvent

/-- `AptosEVM::execute_eth_transaction`. -/
def executeEthTransaction {Handler : Type} (bcs : Serializer) (evm : EvmExecutor Handler)
    (storage : StateView) (callMoveHandler : Handler) : Except String TransactionOutput :=
  expectOk (evm.transact storage callMoveHandler) "no db error" >>= fun output =>
    (ViewWrapper.new storage).run bcs (output.commitWrites.map commitOp) >>= fun viewWrapper =>
      transactionEvents bcs output.outcome viewWrapper >>= fun (events, viewWrapper) =>
        unwrapResult (evm.finalize output.handler) >>= fun moveChangeSet =>
          viewWrapper.drain bcs >>= fun drained =>
            .ok { writeSet := moveChangeSet.foldl WriteSetMut.insert (WriteSetMut.new drained),
                  events }

variable {bcs : Serializer}

theorem expectOk_eq_ok_iff {α : Type} {r : Except String α} {msg : String} {a : α} :
    expectOk r msg = .ok a ↔ r = .ok a := by
  cases r <;> simp [expectOk]

theorem unwrapResult_eq_ok_iff {α : Type} {r : Except String α} {a : α} :
    unwrapResult r = .ok a ↔ r = .ok a := by
  cases r <;> simp [unwrapResult]

/-- A successful execution, taken apart: the run, the wrapper after the commit, the events with the
wrapper after them, the session's change set and the drain. -/
theorem executeEthTransaction_eq_ok {Handler : Type} {evm : EvmExecutor Handler}
    {storage : StateView} {handler : Handler} {out : TransactionOutput}
    (h : executeEthTransaction bcs evm storage handler = .ok out) :
    ∃ output w₁ w₂ moveChangeSet drained, evm.transact storage handler = .ok output ∧
      (ViewWrapper.new storage).run bcs (output.commitWrites.map commitOp) = .ok w₁ ∧
      transactionEvents bcs output.outcome w₁ = .ok (out.events, w₂) ∧
      evm.finalize output.handler = .ok moveChangeSet ∧ w₂.drain bcs = .ok drained ∧
      out.writeSet = moveChangeSet.foldl WriteSetMut.insert (WriteSetMut.new drained) := by
  obtain ⟨output, houtput, h⟩ := bind_eq_ok_iff.mp h
  obtain ⟨w₁, hw₁, h⟩ := bind_eq_ok_iff.mp h
  obtain ⟨⟨events, w₂⟩, hevents, h⟩ := bind_eq_ok_iff.mp h
  obtain ⟨moveChangeSet, hfinal, h⟩ := bind_eq_ok_iff.mp h
  obtain ⟨drained, hdrain, h⟩ := bind_eq_ok_iff.mp h
  cases h
  exact ⟨output, w₁, w₂, moveChangeSet, drained, expectOk_eq_ok_iff.mp houtput, hw₁, hevents,
    unwrapResult_eq_ok_iff.mp hfinal, hdrain, rfl⟩

/-- A commit write writes the converted key. -/
theorem writtenKey_commitOp (write : OwnedStateKey × Option (List UInt8)) :
    (commitOp write).writtenKey = some (StorageKey.ofOwnedStateKey write.1) := by
  obtain ⟨key, value⟩ := write
  cases value <;> rfl

/-- The commit's writes through the wrapper never fail. -/
theorem run_commitOps (w : ViewWrapper) (writes : List (OwnedStateKey × Option (List UInt8))) :
    ∃ w', w.run bcs (writes.map commitOp) = .ok w' := by
  induction writes generalizing w with
  | nil => exact ⟨w, rfl⟩
  | cons write writes ih =>
    obtain ⟨key, value⟩ := write
    rw [List.map_cons, ViewWrapper.run_cons]
    cases value with
    | some value => exact ih (w.set (.ofOwnedStateKey key) value)
    | none => exact ih (w.delete (.ofOwnedStateKey key))

/-! The Move side of the write set. -/

/-- Every write of the Move session's change set is in the transaction's write set, whatever the
EVM's outcome: the change set is inserted after the drain, unconditionally. -/
theorem get_writeSet_of_mem_moveChangeSet {Handler : Type} {evm : EvmExecutor Handler}
    {storage : StateView} {handler : Handler} {out : TransactionOutput} {output : EvmRun Handler}
    {moveChangeSet : List (StateKey × WriteOp)}
    (h : executeEthTransaction bcs evm storage handler = .ok out)
    (houtput : evm.transact storage handler = .ok output)
    (hfinal : evm.finalize output.handler = .ok moveChangeSet)
    (hnodup : (moveChangeSet.map Prod.fst).Nodup) {key : StateKey} {op : WriteOp}
    (hmem : (key, op) ∈ moveChangeSet) : out.writeSet.get key = some op := by
  obtain ⟨output', -, -, moveChangeSet', drained, houtput', -, -, hfinal', -, hws⟩ :=
    executeEthTransaction_eq_ok h
  rw [houtput] at houtput'
  cases houtput'
  rw [hfinal] at hfinal'
  cases hfinal'
  rw [hws]
  exact WriteSetMut.get_foldl_insert_of_mem _ hnodup hmem

/-! The EVM side of the write set: at every key the session does not write, the state after the
transaction holds what the final wrapper answers. -/

section Wrapper

variable {Handler : Type} {evm : EvmExecutor Handler} {S : StateKey → Option (List UInt8)}
  {handler : Handler} {out : TransactionOutput}

/-- The commit writes account, storage and code keys, never an event nonce key. -/
theorem writtenKey_commitOp_ne_eventNonceKey (write : OwnedStateKey × Option (List UInt8))
    {k : StorageKey} (h : (commitOp write).writtenKey = some k) (a : Address) :
    StorageKey.eventNonceKey a ≠ k := by
  rw [writtenKey_commitOp] at h
  cases h
  exact (StorageKey.ofOwnedStateKey_ne_eventNonceKey write.1 a).symm

/-- The number of logs of `address` that a run's events are made from. -/
def loggedCount (address : Address) (outcome : ExecutionOutcome) : Nat :=
  match outcome.successfullyExecuted with
  | some executed => (executed.logs.filter fun log => log.address = address).length
  | none => 0

/-- The events of a run touch only nonce keys of the wrapper and keep its view. -/
theorem transactionEvents_frame {outcome : ExecutionOutcome} {w w' : ViewWrapper}
    {events : List ContractEvent} (h : transactionEvents bcs outcome w = .ok (events, w')) :
    w'.inner = w.inner ∧ ∀ k, (∀ a, StorageKey.eventNonceKey a ≠ k) → w'.cache[k]? = w.cache[k]? := by
  unfold transactionEvents at h
  split at h
  · exact evmEventsToAptosEvents_viewWrapper_frame (expectOk_eq_ok_iff.mp h)
  · cases h
    exact ⟨rfl, fun _ _ => rfl⟩

/-- The events of a run on the wrapper: those of `address` are numbered consecutively from its
stored nonce, and the wrapper ends with the next nonce under its key when `address` logged. A run
that did not finish has no events and leaves the wrapper. -/
theorem transactionEvents_viewWrapper (address : Address) {outcome : ExecutionOutcome}
    {w w' : ViewWrapper} {events : List ContractEvent} {r : UInt64}
    (hread : readNonce (ViewWrapper.storage bcs) w address = .ok r)
    (h : transactionEvents bcs outcome w = .ok (events, w')) :
    sequenceNumbers address events = List.range' r.toNat (loggedCount address outcome) ∧
      w'.cache[StorageKey.eventNonceKey address]? =
        if loggedCount address outcome = 0 then w.cache[StorageKey.eventNonceKey address]?
        else some (some (beBytes 8 (r.toNat + loggedCount address outcome))) := by
  unfold transactionEvents at h
  unfold loggedCount
  split
  case h_1 executed hexecuted =>
    rw [hexecuted] at h
    exact evmEventsToAptosEvents_viewWrapper address hread (expectOk_eq_ok_iff.mp h)
  case h_2 hnone =>
    rw [hnone] at h
    cases h
    exact ⟨rfl, by rw [if_pos rfl]⟩

/-- At a key the session does not write, the state after the transaction holds what the final
wrapper reads: its cached value, or else the state's. -/
theorem applyTo_writeSet_of_not_mem (hbcs : bcs.Lawful) {w₂ : ViewWrapper}
    {moveChangeSet : List (StateKey × WriteOp)} {drained : List (StateKey × WriteOp)}
    (hinner : w₂.inner = .ofMap S) (hdrain : w₂.drain bcs = .ok drained)
    (hws : out.writeSet = moveChangeSet.foldl WriteSetMut.insert (WriteSetMut.new drained))
    {k : StorageKey} (hk : k.stateKey bcs ∉ moveChangeSet.map Prod.fst) :
    out.writeSet.applyTo S (k.stateKey bcs) =
      cachedRead (S ∘ StorageKey.stateKey bcs) (w₂.cache[·]?) k := by
  have hflush : drained = flush S (StorageKey.stateKey bcs) w₂.cache.toList := by
    rw [ViewWrapper.drain_eq_flush hinner (ViewWrapper.serializable_of_drain hdrain)] at hdrain
    exact (Except.ok.inj hdrain).symm
  rw [hws, WriteSetMut.applyTo_foldl_insert, applyWrites_of_not_mem hk, WriteSetMut.applyTo_new,
    hflush, applyWrites_flush (StorageKey.stateKey_injective hbcs) ViewWrapper.nodup_keys_toList
      ViewWrapper.mem_toList_iff]

end Wrapper

/-- A transaction over a state executes when the EVM run, its events and the session do and the
commit's keys convert; its write set is the session's change set over the flushed wrapper. -/
theorem executeEthTransaction_isOk {Handler : Type} {evm : EvmExecutor Handler}
    {S : StateKey → Option (List UInt8)} {handler : Handler} {output : EvmRun Handler}
    {w₁ w₂ : ViewWrapper} {events : List ContractEvent} {moveChangeSet : List (StateKey × WriteOp)}
    (houtput : evm.transact (.ofMap S) handler = .ok output)
    (hkeys : ∀ write ∈ output.commitWrites, (StorageKey.ofOwnedStateKey write.1).Serializable)
    (hw₁ : (ViewWrapper.new (.ofMap S)).run bcs (output.commitWrites.map commitOp) = .ok w₁)
    (hevents : transactionEvents bcs output.outcome w₁ = .ok (events, w₂))
    (hfinal : evm.finalize output.handler = .ok moveChangeSet) :
    executeEthTransaction bcs evm (.ofMap S) handler =
      .ok { writeSet := moveChangeSet.foldl WriteSetMut.insert
              (WriteSetMut.new (flush S (StorageKey.stateKey bcs) w₂.cache.toList)),
            events } := by
  obtain ⟨hinner₁, hcache₁⟩ := ViewWrapper.run_spec hw₁
  obtain ⟨hinner₂, hframe₂⟩ := transactionEvents_frame hevents
  -- a cached key is a nonce key, or was cached by the commit, whose keys convert
  have hcached : ∀ key value, (key, value) ∈ w₂.cache.toList → key.Serializable := by
    intro key value hmem
    by_cases hnonce : ∃ a, StorageKey.eventNonceKey a = key
    · obtain ⟨a, rfl⟩ := hnonce
      trivial
    · simp only [not_exists] at hnonce
      have hmem₁ : (key, value) ∈ w₁.cache.toList := by
        rw [ViewWrapper.mem_toList_iff, ← hframe₂ key hnonce]
        exact (ViewWrapper.mem_toList_iff key value).mp hmem
      refine ViewWrapper.serializable_of_run hw₁ (fun _ _ hempty => by simp [ViewWrapper.new] at hempty)
        ?_ key value hmem₁
      intro op hop k hk
      obtain ⟨write, hwrite, rfl⟩ := List.mem_map.mp hop
      rw [writtenKey_commitOp] at hk
      cases hk
      exact hkeys write hwrite
  rw [executeEthTransaction, houtput]
  simp only [expectOk, ok_bind]
  rw [hw₁, ok_bind, hevents, ok_bind]
  dsimp only
  rw [hfinal]
  simp only [unwrapResult, ok_bind]
  rw [ViewWrapper.drain_eq_flush (hinner₂.trans hinner₁) hcached, ok_bind]

/-! Event nonces across a transaction. -/

/-- One transaction over a state: the events of `address` are numbered consecutively from the
nonce stored for it, and when it logged, the state after holds the next nonce under its key,
big-endian, unless the Move session writes that key. -/
theorem executeEthTransaction_eventNonce {Handler : Type} {evm : EvmExecutor Handler}
    {S : StateKey → Option (List UInt8)} {handler : Handler} {out : TransactionOutput}
    {output : EvmRun Handler} (hbcs : bcs.Lawful) (address : Address) {r : UInt64}
    (hr : nonceOfBytes (S ((StorageKey.eventNonceKey address).stateKey bcs)) = .ok r)
    (h : executeEthTransaction bcs evm (.ofMap S) handler = .ok out)
    (houtput : evm.transact (.ofMap S) handler = .ok output)
    (hmove : ∀ W, evm.finalize output.handler = .ok W →
      (StorageKey.eventNonceKey address).stateKey bcs ∉ W.map Prod.fst) :
    sequenceNumbers address out.events = List.range' r.toNat (loggedCount address output.outcome) ∧
      out.writeSet.applyTo S ((StorageKey.eventNonceKey address).stateKey bcs) =
        if loggedCount address output.outcome = 0 then
          S ((StorageKey.eventNonceKey address).stateKey bcs)
        else some (beBytes 8 (r.toNat + loggedCount address output.outcome)) := by
  obtain ⟨output', w₁, w₂, moveChangeSet, drained, houtput', hw₁, hevents, hfinal, hdrain, hws⟩ :=
    executeEthTransaction_eq_ok h
  rw [houtput] at houtput'
  cases houtput'
  -- the commit keeps the view and never touches the nonce key
  obtain ⟨hinner₁, hcache₁⟩ := ViewWrapper.run_spec hw₁
  have hnone₁ : w₁.cache[StorageKey.eventNonceKey address]? = none := by
    refine (hcache₁ _).mpr ⟨Std.HashMap.getElem?_empty, fun op hop hk => ?_⟩
    obtain ⟨write, -, rfl⟩ := List.mem_map.mp hop
    exact writtenKey_commitOp_ne_eventNonceKey write hk address rfl
  have hread : readNonce (ViewWrapper.storage bcs) w₁ address = .ok r := by
    rw [readNonce_viewWrapper hinner₁, cachedRead, hnone₁]
    exact hr
  obtain ⟨hseq, hcache₂⟩ := transactionEvents_viewWrapper address hread hevents
  refine ⟨hseq, ?_⟩
  rw [applyTo_writeSet_of_not_mem hbcs ((transactionEvents_frame hevents).1.trans hinner₁) hdrain
      hws (hmove _ hfinal), cachedRead, hcache₂]
  split
  · rw [hnone₁]
    rfl
  · rfl

/-- The nonce `read_nonce` finds after `write_nonce` of `n`: the eight big-endian bytes of `n`
read little-endian, a value below `2 ^ 64`. -/
theorem toNat_nonceOfBytes_beBytes (n : Nat) {r : UInt64}
    (h : nonceOfBytes (some (beBytes 8 n)) = .ok r) : r.toNat = ofLeBytes (beBytes 8 n) := by
  rw [nonceOfBytes_beBytes] at h
  cases h
  have hlt : ofLeBytes (beBytes 8 n) < 2 ^ 64 := by
    have := ofLeBytes_lt (beBytes 8 n)
    rwa [length_beBytes] at this
  exact UInt64.toNat_ofNat_of_lt' hlt

/-- Two transactions, the second over the state the first leaves, from a state with no nonce for
`address`: the first numbers the events of `address` from `0`, but the second continues from the
byte-swapped count, `from_le_bytes` of the `to_be_bytes` that `write_nonce` stored. -/
theorem sequenceNumbers_next_transaction {Handler : Type} (hbcs : bcs.Lawful) (address : Address)
    (S₀ : StateKey → Option (List UInt8))
    (h₀ : S₀ ((StorageKey.eventNonceKey address).stateKey bcs) = none)
    (evm₁ evm₂ : EvmExecutor Handler) (handler₁ handler₂ : Handler) (out₁ out₂ : TransactionOutput)
    (output₁ output₂ : EvmRun Handler)
    (h₁ : executeEthTransaction bcs evm₁ (.ofMap S₀) handler₁ = .ok out₁)
    (houtput₁ : evm₁.transact (.ofMap S₀) handler₁ = .ok output₁)
    (hmove₁ : ∀ W, evm₁.finalize output₁.handler = .ok W →
      (StorageKey.eventNonceKey address).stateKey bcs ∉ W.map Prod.fst)
    (hlogged : 0 < loggedCount address output₁.outcome)
    (h₂ : executeEthTransaction bcs evm₂ (.ofMap (out₁.writeSet.applyTo S₀)) handler₂ = .ok out₂)
    (houtput₂ : evm₂.transact (.ofMap (out₁.writeSet.applyTo S₀)) handler₂ = .ok output₂)
    (hmove₂ : ∀ W, evm₂.finalize output₂.handler = .ok W →
      (StorageKey.eventNonceKey address).stateKey bcs ∉ W.map Prod.fst) :
    sequenceNumbers address out₁.events = List.range (loggedCount address output₁.outcome) ∧
      sequenceNumbers address out₂.events =
        List.range' (ofLeBytes (beBytes 8 (loggedCount address output₁.outcome)))
          (loggedCount address output₂.outcome) := by
  have hr₁ : nonceOfBytes (S₀ ((StorageKey.eventNonceKey address).stateKey bcs)) = .ok 0 := by
    rw [h₀]
    rfl
  obtain ⟨hseq₁, hstate₁⟩ :=
    executeEthTransaction_eventNonce hbcs address hr₁ h₁ houtput₁ hmove₁
  rw [if_neg (Nat.pos_iff_ne_zero.mp hlogged), UInt64.toNat_zero, Nat.zero_add] at hstate₁
  -- the second transaction reads back the bytes the first one stored
  obtain ⟨r₂, hr₂⟩ : ∃ r₂, nonceOfBytes
      (out₁.writeSet.applyTo S₀ ((StorageKey.eventNonceKey address).stateKey bcs)) = .ok r₂ :=
    ⟨_, by rw [hstate₁, nonceOfBytes_beBytes]⟩
  obtain ⟨hseq₂, -⟩ := executeEthTransaction_eventNonce hbcs address hr₂ h₂ houtput₂ hmove₂
  rw [hstate₁] at hr₂
  refine ⟨?_, ?_⟩
  · rw [hseq₁, UInt64.toNat_zero, List.range_eq_range']
  · rw [hseq₂, toNat_nonceOfBytes_beBytes _ hr₂]

/-- A finished run with one log, on a fresh wrapper: its events are made when the log's stored
nonce is readable and has a successor. -/
theorem transactionEvents_singleLog {S : StateKey → Option (List UInt8)} (log : LogEntry) {r : UInt64}
    (hr : nonceOfBytes (S ((StorageKey.eventNonceKey log.address).stateKey bcs)) = .ok r)
    (hfit : r.toNat + 1 < 2 ^ 64) :
    ∃ events w₂, transactionEvents bcs (.finished ⟨[log]⟩) (ViewWrapper.new (.ofMap S)) =
      .ok (events, w₂) := by
  have hread :
      readNonce (ViewWrapper.storage bcs) (ViewWrapper.new (.ofMap S)) log.address = .ok r := by
    rw [readNonce_viewWrapper rfl, cachedRead]
    simpa [ViewWrapper.new, Std.HashMap.getElem?_empty] using hr
  obtain ⟨answer, nonceMap, hassign⟩ : ∃ answer nonceMap,
      assignNonces (ViewWrapper.storage bcs) (ViewWrapper.new (.ofMap S)) [log] [] =
        .ok (answer, nonceMap) := by
    apply assignNonces_isOk
    intro log' hlog'
    rw [List.mem_singleton] at hlog'
    subst hlog'
    exact ⟨r, hread, by simpa using hfit⟩
  have hevents := evmEventsToAptosEvents_viewWrapper_iff.mpr ⟨answer, nonceMap, hassign, rfl, rfl⟩
  exact ⟨_, _, expectOk_eq_ok_iff.mpr hevents⟩

/-- An EVM run that finishes with one log of the zero address and commits nothing, and a Move
session that writes nothing. -/
def oneLogExecutor : EvmExecutor Unit :=
  ⟨fun _ _ => .ok ⟨.finished ⟨[sampleLog]⟩, [], ()⟩, fun _ => .ok []⟩

theorem sequenceNumbers_oneLog_twice :
    ∃ out₁ out₂,
      executeEthTransaction uleb128Serializer oneLogExecutor (.ofMap fun _ => none) () = .ok out₁ ∧
      executeEthTransaction uleb128Serializer oneLogExecutor
          (.ofMap (out₁.writeSet.applyTo fun _ => none)) () = .ok out₂ ∧
      sequenceNumbers zeroAddress out₁.events = [0] ∧
      sequenceNumbers zeroAddress out₂.events = [72057594037927936] := by
  have hcount : loggedCount zeroAddress (.finished ⟨[sampleLog]⟩) = 1 := by decide
  have hmove : ∀ W, oneLogExecutor.finalize () = .ok W →
      (StorageKey.eventNonceKey zeroAddress).stateKey uleb128Serializer ∉ W.map Prod.fst := by
    intro W hW
    cases hW
    exact List.not_mem_nil
  have houtput : ∀ S,
      oneLogExecutor.transact (.ofMap S) () = .ok ⟨.finished ⟨[sampleLog]⟩, [], ()⟩ := fun _ => rfl
  have hkeys : ∀ write ∈ ([] : List (OwnedStateKey × Option (List UInt8))),
      (StorageKey.ofOwnedStateKey write.1).Serializable := fun _ h => absurd h List.not_mem_nil
  -- the first transaction, over the empty state
  have hr₁ : nonceOfBytes ((fun _ => none : StateKey → Option (List UInt8))
      ((StorageKey.eventNonceKey zeroAddress).stateKey uleb128Serializer)) = .ok 0 := rfl
  obtain ⟨events₁, w₁, hevents₁⟩ :=
    @transactionEvents_singleLog uleb128Serializer (fun _ => none) sampleLog 0 hr₁ (by decide)
  obtain ⟨out₁, h₁⟩ : ∃ out,
      executeEthTransaction uleb128Serializer oneLogExecutor (.ofMap fun _ => none) () = .ok out :=
    ⟨_, executeEthTransaction_isOk (houtput _) hkeys rfl hevents₁ rfl⟩
  have hstate₁ := (executeEthTransaction_eventNonce uleb128Serializer_lawful zeroAddress hr₁ h₁
    (houtput _) hmove).2
  rw [hcount, if_neg Nat.one_ne_zero, UInt64.toNat_zero, Nat.zero_add] at hstate₁
  -- the second, over the state the first leaves
  have hr₂ : nonceOfBytes (out₁.writeSet.applyTo (fun _ => none)
      ((StorageKey.eventNonceKey zeroAddress).stateKey uleb128Serializer)) =
      .ok (UInt64.ofNat (ofLeBytes (beBytes 8 1))) := by
    rw [hstate₁, nonceOfBytes_beBytes]
  obtain ⟨events₂, w₂, hevents₂⟩ := transactionEvents_singleLog sampleLog hr₂ (by decide)
  obtain ⟨out₂, h₂⟩ : ∃ out, executeEthTransaction uleb128Serializer oneLogExecutor
      (.ofMap (out₁.writeSet.applyTo fun _ => none)) () = .ok out :=
    ⟨_, executeEthTransaction_isOk (houtput _) hkeys rfl hevents₂ rfl⟩
  obtain ⟨hseq₁, hseq₂⟩ := sequenceNumbers_next_transaction uleb128Serializer_lawful zeroAddress
    (fun _ => none) rfl oneLogExecutor oneLogExecutor () () _ _ _ _ h₁ (houtput _) hmove
    (by rw [hcount]; decide) h₂ (houtput _) hmove
  refine ⟨_, _, h₁, h₂, ?_, ?_⟩
  · rw [hseq₁, hcount]
    rfl
  · rw [hseq₂, hcount, show ofLeBytes (beBytes 8 1) = 72057594037927936 by decide]
    rfl

/-- A Move resource path, at the zero address's Aptos account. -/
def coinStoreKey : StateKey := .accessPath ⟨ethAddressToAptosAddress zeroAddress, [1]⟩

/-- An EVM run that calls into Move, whose session writes a resource, and then reverts: the
outcome is `ExecutionErrorBumpNonce` and the commit writes nothing. The handler is the session's
list of writes. -/
def revertedCallMove : EvmExecutor (List (StateKey × WriteOp)) :=
  ⟨fun _ session =>
      .ok ⟨.executionErrorBumpNonce ⟨[]⟩, [], session ++ [(coinStoreKey, .creation [1])]⟩,
    fun session => .ok session⟩

/-- The reverted run's Move write is in the write set. -/
theorem get_writeSet_revertedCallMove :
    ∃ out, executeEthTransaction uleb128Serializer revertedCallMove (.ofMap fun _ => none) [] =
        .ok out ∧
      ((revertedCallMove.transact (.ofMap fun _ => none) []).map
          fun output => output.outcome.successfullyExecuted) = .ok none ∧
      out.writeSet.get coinStoreKey = some (.creation [1]) := by
  have houtput : revertedCallMove.transact (.ofMap fun _ => none) [] =
      .ok ⟨.executionErrorBumpNonce ⟨[]⟩, [], [(coinStoreKey, .creation [1])]⟩ := rfl
  have hkeys : ∀ write ∈ ([] : List (OwnedStateKey × Option (List UInt8))),
      (StorageKey.ofOwnedStateKey write.1).Serializable := fun _ h => absurd h List.not_mem_nil
  obtain ⟨out, h⟩ : ∃ out,
      executeEthTransaction uleb128Serializer revertedCallMove (.ofMap fun _ => none) [] = .ok out :=
    ⟨_, executeEthTransaction_isOk houtput hkeys rfl rfl rfl⟩
  refine ⟨out, h, rfl, ?_⟩
  exact get_writeSet_of_mem_moveChangeSet h houtput rfl (List.nodup_singleton _)
    List.mem_cons_self

end Hemvm.BlockExecutor
