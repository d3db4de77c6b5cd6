import Hemvm.EthereumVm.State
import Hemvm.SolidityAbi.RoundTrip

/-! EVM logs as Aptos events and back (`aptos-move/ethereum-vm/src/events.rs`, with the event
types of `types/src/event.rs` and `contract_event.rs`). A log becomes an event under the key of
its contract's Aptos address, with a per-contract sequence number kept in storage and the log's
topics and data ABI-encoded as a `LogEntryPayload`. -/
namespace Hemvm

namespace Aptos

/-- `EventKey`. -/
structure EventKey where
  creationNumber : UInt64
  accountAddress : AccountAddress
deriving DecidableEq

/-- `EventKey::new`. -/
def EventKey.new (creationNumber : UInt64) (accountAddress : AccountAddress) : EventKey :=
  ⟨creationNumber, accountAddress⟩

/-- `EventKey::get_creator_address`. -/
def EventKey.getCreatorAddress (key : EventKey) : AccountAddress := key.accountAddress

/-- The Move type tags the EVM events carry: `Vector(Box::new(U8))`. -/
inductive TypeTag where
  | u8
  | vector (t : TypeTag)
deriving DecidableEq

/-- `ContractEvent`, through its only version `V0`. -/
structure ContractEvent where
  key : EventKey
  sequenceNumber : UInt64
  typeTag : TypeTag
  eventData : List UInt8
deriving DecidableEq

end Aptos

namespace EthereumVm
open Aptos Codec Control SolidityAbi Store

/-- `cfx_types::Space`. -/
inductive Space where
  | ethereum
deriving DecidableEq

/-- `cfx_primitives::LogEntry`. -/
structure LogEntry where
  address : Address
  topics : List H256
  data : List UInt8
  space : Space
deriving DecidableEq

structure LogEntryWithNonce where
  log : LogEntry
  nonce : UInt64
deriving DecidableEq

/-- `LogEntryPayload`, with `#[derive(ABIVariable)]`. -/
structure LogEntryPayload where
  topics : List H256
  data : List UInt8
deriving DecidableEq

namespace LogEntryPayload

/-- The ABI type of the derived impl: a struct of a `Vec<H256>` and a `Vec<u8>`. -/
def abiType : AbiType := .struct [.vec .h256, .bytes]

/-- The payload as a value of its ABI type. -/
def toAbiValue (p : LogEntryPayload) : AbiValue := .struct [.vec (p.topics.map .h256), .bytes p.data]

/-- The topic an ABI value stands for. -/
def topicOf : AbiValue → Option H256
  | .h256 h => some h
  | _ => none

/-- The payload a value of its ABI type stands for. -/
def ofAbiValue : AbiValue → Option LogEntryPayload
  | .struct [.vec topics, .bytes data] => (topics.mapM topicOf).map fun topics => ⟨topics, data⟩
  | _ => none

/-- `abi_encode`. -/
def abiEncode (p : LogEntryPayload) : List UInt8 := SolidityAbi.abiEncode [abiType] [p.toAbiValue]

/-- `abi_decode`. The derived `from_abi` builds the struct itself; here the decoded value is read
back as a payload, which fails only on values that decoding at this type does not produce. -/
def abiDecode (data : List UInt8) : Except ABIDecodeError LogEntryPayload :=
  SolidityAbi.abiDecode [abiType] data >>= fun values =>
    match values with
    | [value] =>
      match ofAbiValue value with
      | some p => .ok p
      | none => .error ⟨"not a LogEntryPayload"⟩
    | _ => .error ⟨"not a LogEntryPayload"⟩

theorem ofAbiValue_toAbiValue (p : LogEntryPayload) : ofAbiValue p.toAbiValue = some p := by
  have htopics : ∀ hs : List H256, (hs.map AbiValue.h256).mapM topicOf = some hs := by
    intro hs
    induction hs with
    | nil => rfl
    | cons h hs ih => simp [List.mapM_cons, ih, topicOf]
  simp [ofAbiValue, toAbiValue, htopics]

/-- The payload of topics and data that each fit a `Vec` is a value of its ABI type. -/
theorem hasType_toAbiValue {p : LogEntryPayload} (htopics : p.topics.length < 2 ^ 64)
    (hdata : p.data.length < 2 ^ 64) : HasType p.toAbiValue abiType := by
  refine .struct (.cons (.vec (by simpa using htopics) fun item hitem => ?_) (.cons (.bytes hdata) .nil))
  obtain ⟨h, -, rfl⟩ := List.mem_map.mp hitem
  exact .h256 h

/-- A payload whose parts and encoding fit a `Vec` decodes from its encoding. -/
theorem decode_encode {p : LogEntryPayload} (htopics : p.topics.length < 2 ^ 64)
    (hdata : p.data.length < 2 ^ 64) (hlen : p.abiEncode.length < 2 ^ 64) :
    abiDecode p.abiEncode = .ok p := by
  have hlen' : p.abiEncode.length < 2 ^ 256 := lt_trans hlen (by norm_num)
  have hd := forall₂_decodes_of_hasType (by decide) (.cons (hasType_toAbiValue htopics hdata) .nil)
    hlen'
  rw [abiDecode, abiEncode, abiDecode_abiEncode_of_forall₂ hd hlen', ok_bind]
  simp only [ofAbiValue_toAbiValue]

end LogEntryPayload

/-- The bounds of a log that every Rust `Vec` obeys: its topics, its data and the encoding of
its payload each have fewer than `2 ^ 64` elements. -/
def LogEntry.FitsVec (log : LogEntry) : Prop :=
  log.topics.length < 2 ^ 64 ∧ log.data.length < 2 ^ 64 ∧
    (LogEntryPayload.abiEncode ⟨log.topics, log.data⟩).length < 2 ^ 64

instance (log : LogEntry) : Decidable log.FitsVec := inferInstanceAs (Decidable (_ ∧ _ ∧ _))

namespace LogEntryWithNonce

/-- `From<LogEntryWithNonce> for ContractEvent`: all events of one contract share the key of
creation number `0` at the contract's Aptos address. -/
def toContractEvent (value : LogEntryWithNonce) : ContractEvent :=
  let accountAddress := ethAddressToAptosAddress value.log.address
  let eventKey := EventKey.new 0 accountAddress
  let payload : LogEntryPayload := ⟨value.log.topics, value.log.data⟩
  { key := eventKey, sequenceNumber := value.nonce, typeTag := .vector .u8,
    eventData := payload.abiEncode }

/-- `TryFrom<ContractEvent> for LogEntryWithNonce`; an ABI error becomes the error's message. -/
def tryFrom (value : ContractEvent) : Except String LogEntryWithNonce :=
  match LogEntryPayload.abiDecode value.eventData with
  | .error e => .error e.msg
  | .ok ⟨topics, data⟩ =>
    let address := aptosAddressToEthAddress value.key.getCreatorAddress
    .ok { log := { address, topics, data, space := .ethereum }, nonce := value.sequenceNumber }

/-- An event made from a log converts back to that log and its nonce. -/
theorem tryFrom_toContractEvent {value : LogEntryWithNonce} (hfits : value.log.FitsVec) :
    tryFrom value.toContractEvent = .ok value := by
  obtain ⟨⟨address, topics, data, space⟩, nonce⟩ := value
  obtain ⟨htopics, hdata, hlen⟩ := hfits
  cases space
  simp only [tryFrom, toContractEvent, LogEntryPayload.decode_encode htopics hdata hlen,
    EventKey.getCreatorAddress, EventKey.new, aptosAddressToEthAddress_ethAddressToAptosAddress]

end LogEntryWithNonce

/-! Event nonces in storage: eight bytes under `StorageKey::event_nonce_key`. -/

/-- The `map_or` of `read_nonce`: no bytes are nonce `0`; otherwise exactly eight bytes are
copied and read little-endian. -/
def nonceOfBytes : Option (List UInt8) → Except String UInt64
  | none => .ok 0
  | some x =>
    if x.length = 8 then .ok (UInt64.ofNat (ofLeBytes x))
    else .error ("source slice length (" ++ toString x.length ++
      ") does not match destination slice length (8)")

section Nonce

variable {σ : Type} (st : Storage σ)

/-- `read_nonce`: `u64::from_le_bytes` of the stored bytes, `0` when there are none;
`copy_from_slice` panics unless there are exactly eight. -/
def readNonce (storage : σ) (address : Address) : Except String UInt64 :=
  st.get storage (StorageKey.eventNonceKey address) >>= nonceOfBytes

/-- `write_nonce`: `nonce.to_be_bytes()` under the nonce key. -/
def writeNonce (storage : σ) (address : Address) (nonce : UInt64) : Except String σ :=
  st.set storage (StorageKey.eventNonceKey address) (beBytes 8 nonce.toNat)

/-- `x + 1` on `u64`, which panics on overflow (`overflow-checks` is on in release builds). -/
def addOne (x : UInt64) : Except String UInt64 :=
  if x.toNat + 1 < 2 ^ 64 then .ok (x + 1) else .error "attempt to add with overflow"

/-- `nonce_map.insert` of a key the map does not hold, and `*nonce_mut += 1` of one it holds:
the `BTreeMap` as its list of entries. -/
def setNonce (nonceMap : List (Address × UInt64)) (address : Address) (nonce : UInt64) :
    List (Address × UInt64) :=
  match nonceMap.lookup address with
  | none => nonceMap ++ [(address, nonce)]
  | some _ => nonceMap.map fun entry => if entry.1 = address then (address, nonce) else entry

/-- The loop of `assign_event_nonce` over the logs: a contract's first log takes the stored
nonce, each later one the next; the map holds each contract's next nonce. -/
def assignNonces (storage : σ) :
    List LogEntry → List (Address × UInt64) →
      Except String (List LogEntryWithNonce × List (Address × UInt64))
  | [], nonceMap => .ok ([], nonceMap)
  | log :: logs, nonceMap =>
    match nonceMap.lookup log.address with
    | none =>
      readNonce st storage log.address >>= fun currentNonce =>
        addOne currentNonce >>= fun next =>
          (assignNonces storage logs (setNonce nonceMap log.address next)).map fun (rest, nonceMap) =>
            (⟨log, currentNonce⟩ :: rest, nonceMap)
    | some nonce =>
      addOne nonce >>= fun next =>
        (assignNonces storage logs (setNonce nonceMap log.address next)).map fun (rest, nonceMap) =>
          (⟨log, nonce⟩ :: rest, nonceMap)

/-- The `BTreeMap`'s iteration order: ascending addresses. -/
def sortNonces (nonceMap : List (Address × UInt64)) : List (Address × UInt64) :=
  nonceMap.mergeSort fun a b => decide (a.1.bytes ≤ b.1.bytes)

/-- `for (address, nonce) in nonce_map { write_nonce(..)?; }`. -/
def writeNonces (storage : σ) (nonceMap : List (Address × UInt64)) : Except String σ :=
  (sortNonces nonceMap).foldlM (fun storage entry => writeNonce st storage entry.1 entry.2) storage

/-- `assign_event_nonce`, returning the storage it wrote to. -/
def assignEventNonce (storage : σ) (logs : List LogEntry) :
    Except String (List LogEntryWithNonce × σ) :=
  assignNonces st storage logs [] >>= fun (answer, nonceMap) =>
    (writeNonces st storage nonceMap).map fun storage => (answer, storage)

/-- `evm_events_to_aptos_events`. -/
def evmEventsToAptosEvents (storage : σ) (events : List LogEntry) :
    Except String (List ContractEvent × σ) :=
  (assignEventNonce st storage events).map fun (answer, storage) =>
    (answer.map LogEntryWithNonce.toContractEvent, storage)

end Nonce

/-- `aptos_events_to_evm_events`. -/
def aptosEventsToEvmEvents (events : List ContractEvent) : Except String (List LogEntry) :=
  events.mapM fun e => (LogEntryWithNonce.tryFrom e).map (·.log)

/-! One step of the numbering loop, read back from its success. -/

section Step

variable {σ : Type} {st : Storage σ} {storage : σ}

/-- The nonce the next log of `address` takes: the map's entry, or else the stored nonce. -/
def NextNonce (st : Storage σ) (storage : σ) (nonceMap : List (Address × UInt64)) (address : Address)
    (x : UInt64) : Prop :=
  match nonceMap.lookup address with
  | some nonce => x = nonce
  | none => readNonce st storage address = .ok x

theorem toNat_of_addOne {x y : UInt64} (h : addOne x = .ok y) : y.toNat = x.toNat + 1 := by
  unfold addOne at h
  split at h
  · cases h
    rw [UInt64.toNat_add, UInt64.toNat_one, Nat.mod_eq_of_lt (by assumption)]
  · cases h

/-- A log takes its contract's next nonce and leaves the next one in the map. -/
theorem assignNonces_cons_eq_ok {log : LogEntry} {logs : List LogEntry}
    {nonceMap nonceMap' : List (Address × UInt64)} {answer : List LogEntryWithNonce}
    (h : assignNonces st storage (log :: logs) nonceMap = .ok (answer, nonceMap')) :
    ∃ x next rest, NextNonce st storage nonceMap log.address x ∧ addOne x = .ok next ∧
      assignNonces st storage logs (setNonce nonceMap log.address next) = .ok (rest, nonceMap') ∧
      answer = ⟨log, x⟩ :: rest := by
  unfold assignNonces at h
  split at h
  case h_1 hnone =>
    obtain ⟨x, hread, h⟩ := bind_eq_ok_iff.mp h
    obtain ⟨next, hnext, h⟩ := bind_eq_ok_iff.mp h
    obtain ⟨⟨rest, nm⟩, hrest, heq⟩ := map_eq_ok_iff.mp h
    cases heq
    refine ⟨x, next, rest, ?_, hnext, hrest, rfl⟩
    simp only [NextNonce, hnone, hread]
  case h_2 nonce hsome =>
    obtain ⟨next, hnext, h⟩ := bind_eq_ok_iff.mp h
    obtain ⟨⟨rest, nm⟩, hrest, heq⟩ := map_eq_ok_iff.mp h
    cases heq
    refine ⟨nonce, next, rest, ?_, hnext, hrest, rfl⟩
    simp only [NextNonce, hsome]

end Step

/-! The numbering keeps the logs, in order. -/

section Logs

variable {σ : Type} {st : Storage σ}

theorem map_log_assignNonces {storage : σ} :
    ∀ {logs : List LogEntry} {nonceMap : List (Address × UInt64)}
      {answer : List LogEntryWithNonce} {nonceMap' : List (Address × UInt64)},
      assignNonces st storage logs nonceMap = .ok (answer, nonceMap') → answer.map (·.log) = logs
  | [], _, _, _, h => by
    cases h
    rfl
  | log :: logs, nonceMap, answer, nonceMap', h => by
    obtain ⟨x, next, rest, -, -, hrest, rfl⟩ := assignNonces_cons_eq_ok h
    rw [List.map_cons, map_log_assignNonces hrest]

theorem map_log_assignEventNonce {storage storage' : σ} {logs : List LogEntry}
    {answer : List LogEntryWithNonce} (h : assignEventNonce st storage logs = .ok (answer, storage')) :
    answer.map (·.log) = logs := by
  obtain ⟨⟨answer₀, nonceMap⟩, hassign, hwrite⟩ := bind_eq_ok_iff.mp h
  obtain ⟨_, -, hanswer⟩ := map_eq_ok_iff.mp hwrite
  cases hanswer
  exact map_log_assignNonces hassign

end Logs

/-! The map of next nonces, and the numbers one contract's logs receive. -/

theorem lookup_cons_eq_ite (c a : Address) (v : UInt64) (l : List (Address × UInt64)) :
    ((c, v) :: l).lookup a = if a = c then some v else l.lookup a := by
  rw [List.lookup_cons]
  by_cases h : a = c
  · subst h
    simp
  · have hbeq : (a == c) = false := beq_eq_false_iff_ne.mpr h
    simp only [hbeq, h, if_false]

theorem lookup_map_setEntry (nonceMap : List (Address × UInt64)) (address a : Address)
    (nonce : UInt64) :
    (nonceMap.map fun entry => if entry.1 = address then (address, nonce) else entry).lookup a =
      if a = address then (nonceMap.lookup address).map fun _ => nonce else nonceMap.lookup a := by
  induction nonceMap with
  | nil => split <;> rfl
  | cons entry nonceMap ih =>
    obtain ⟨b, n⟩ := entry
    rw [List.map_cons]
    by_cases hb : b = address
    · subst hb
      simp only [if_true, lookup_cons_eq_ite, ih]
      by_cases ha : a = b <;> simp [ha]
    · simp only [hb, if_false, lookup_cons_eq_ite, ih]
      by_cases ha : a = b
      · subst ha
        simp [hb]
      · simp [ha, Ne.symm hb]

/-- After `setNonce`, the map holds the new nonce for its address and nothing else changes. -/
theorem lookup_setNonce (nonceMap : List (Address × UInt64)) (address a : Address)
    (nonce : UInt64) :
    (setNonce nonceMap address nonce).lookup a =
      if a = address then some nonce else nonceMap.lookup a := by
  unfold setNonce
  split
  case h_1 hnone =>
    rw [List.lookup_append]
    by_cases ha : a = address
    · subst ha
      simp [hnone]
    · simp [ha, lookup_cons_eq_ite]
  case h_2 n hsome =>
    rw [lookup_map_setEntry, hsome]
    rfl

section Numbering

variable {σ : Type} {st : Storage σ} {storage : σ} (A : Address)

/-- The nonce a log of `A` takes is the map's entry for `A`, or else the stored nonce. -/
theorem eq_getD_of_nextNonce {nonceMap : List (Address × UInt64)} {x r : UInt64}
    (hread : readNonce st storage A = .ok r) (hx : NextNonce st storage nonceMap A x) :
    x = (nonceMap.lookup A).getD r := by
  unfold NextNonce at hx
  split at hx
  case h_1 nonce hsome => rw [hsome, hx]; rfl
  case h_2 hnone =>
    rw [hnone, Option.getD_none]
    rw [hread] at hx
    exact (Except.ok.inj hx).symm

/-- Within one call, the logs of `A` are numbered consecutively from the map's entry for `A` (or
the stored nonce), and the map ends with the number after the last. The induction follows the
loop over the logs. -/
theorem assignNonces_numbers {r : UInt64} (hread : readNonce st storage A = .ok r) :
    ∀ {logs : List LogEntry} {nonceMap nonceMap' : List (Address × UInt64)}
      {answer : List LogEntryWithNonce},
      assignNonces st storage logs nonceMap = .ok (answer, nonceMap') →
      (answer.filter fun e => e.log.address = A).map (·.nonce.toNat) =
          List.range' ((nonceMap.lookup A).getD r).toNat (logs.filter fun log => log.address = A).length ∧
        (nonceMap'.lookup A).map UInt64.toNat =
          if (logs.filter fun log => log.address = A).length = 0 then (nonceMap.lookup A).map UInt64.toNat
          else some (((nonceMap.lookup A).getD r).toNat + (logs.filter fun log => log.address = A).length)
  | [], _, _, _, h => by
    cases h
    simp
  | log :: logs, nonceMap, nonceMap', answer, h => by
    obtain ⟨x, next, rest, hx, hnext, hrest, rfl⟩ := assignNonces_cons_eq_ok h
    obtain ⟨ihnum, ihmap⟩ := assignNonces_numbers hread hrest
    rw [lookup_setNonce] at ihnum ihmap
    by_cases hA : log.address = A
    · -- `A`'s log takes the start; the map's entry becomes the start plus one
      subst hA
      have hstart := eq_getD_of_nextNonce log.address hread hx
      have hnext' := toNat_of_addOne hnext
      simp only [if_true, Option.getD_some, Option.map_some] at ihnum ihmap
      rw [hnext'] at ihnum ihmap
      rw [← hstart]
      refine ⟨?_, ?_⟩
      · simp only [List.filter_cons, decide_true, if_true, List.map_cons, List.length_cons,
          List.range'_succ, ihnum]
      · rw [ihmap]
        simp only [List.filter_cons, decide_true, if_true, List.length_cons,
          if_neg (Nat.succ_ne_zero _)]
        split
        · congr 1
          omega
        · congr 1
          omega
    · have hne : A ≠ log.address := Ne.symm hA
      simp only [hne, if_false] at ihnum ihmap
      simp only [List.filter_cons, hA, decide_false, Bool.false_eq_true, if_false]
      exact ⟨ihnum, ihmap⟩

/-- The numbering succeeds when every contract's stored nonce is readable and its logs do not
overflow it: a log's contract must start below `2 ^ 64` minus the number of its logs. The
induction follows the loop; the map's entry for a contract moves along its count. -/
theorem assignNonces_isOk :
    ∀ {logs : List LogEntry} {nonceMap : List (Address × UInt64)},
      (∀ log ∈ logs, ∃ r, readNonce st storage log.address = .ok r ∧
        ((nonceMap.lookup log.address).getD r).toNat +
          (logs.filter fun log' => log'.address = log.address).length < 2 ^ 64) →
      ∃ answer nonceMap', assignNonces st storage logs nonceMap = .ok (answer, nonceMap')
  | [], nonceMap, _ => ⟨[], nonceMap, rfl⟩
  | log :: logs, nonceMap, hfit => by
    obtain ⟨r, hread, hlt⟩ := hfit log List.mem_cons_self
    simp only [List.filter_cons, decide_true, if_true, List.length_cons] at hlt
    -- the log's nonce, and the next one, which fits
    have hstep : ∀ x, x = (nonceMap.lookup log.address).getD r →
        ∃ answer nonceMap', assignNonces st storage logs (setNonce nonceMap log.address (x + 1)) =
          .ok (answer, nonceMap') := by
      intro x hx
      apply assignNonces_isOk
      intro log' hlog'
      obtain ⟨r', hread', hlt'⟩ := hfit log' (List.mem_cons_of_mem _ hlog')
      refine ⟨r', hread', ?_⟩
      rw [lookup_setNonce]
      by_cases ha : log'.address = log.address
      · have hr : r' = r := by
          rw [ha, hread] at hread'
          exact (Except.ok.inj hread').symm
        have hsucc : (x + 1).toNat = x.toNat + 1 := by
          rw [UInt64.toNat_add, UInt64.toNat_one, Nat.mod_eq_of_lt (by rw [hx]; omega)]
        rw [if_pos ha, Option.getD_some, hsucc, ha, hx]
        omega
      · have hne : ¬ log.address = log'.address := fun h => ha h.symm
        rw [if_neg ha]
        simp only [List.filter_cons, hne, decide_false, Bool.false_eq_true, if_false] at hlt'
        exact hlt'
    have haddOne : ∀ x, x = (nonceMap.lookup log.address).getD r → addOne x = .ok (x + 1) := by
      intro x hx
      rw [addOne, if_pos (by rw [hx]; omega)]
    unfold assignNonces
    split
    case h_1 hnone =>
      rw [hnone, Option.getD_none] at hstep haddOne
      obtain ⟨answer, nonceMap', hrest⟩ := hstep r rfl
      refine ⟨⟨log, r⟩ :: answer, nonceMap', ?_⟩
      rw [hread, ok_bind, haddOne r rfl, ok_bind, hrest]
      rfl
    case h_2 nonce hsome =>
      rw [hsome, Option.getD_some] at hstep haddOne
      obtain ⟨answer, nonceMap', hrest⟩ := hstep nonce rfl
      refine ⟨⟨log, nonce⟩ :: answer, nonceMap', ?_⟩
      rw [haddOne nonce rfl, ok_bind, hrest]
      rfl

end Numbering

theorem nodup_setNonce {nonceMap : List (Address × UInt64)} (h : (nonceMap.map Prod.fst).Nodup)
    (address : Address) (nonce : UInt64) : ((setNonce nonceMap address nonce).map Prod.fst).Nodup := by
  unfold setNonce
  split
  case h_1 hnone =>
    rw [List.map_append, List.nodup_append]
    refine ⟨h, List.nodup_singleton _, ?_⟩
    intro a ha b hb hab
    obtain ⟨p, hp, rfl⟩ := List.mem_map.mp ha
    have hb' : b = address := by simpa using hb
    have hne := List.lookup_eq_none_iff.mp hnone p hp
    simp [hab, hb'] at hne
  case h_2 =>
    have hfst : (Prod.fst ∘ fun entry : Address × UInt64 =>
        if entry.1 = address then (address, nonce) else entry) = Prod.fst := by
      funext entry
      by_cases he : entry.1 = address <;> simp [he]
    rw [List.map_map, hfst]
    exact h

/-- The map of next nonces never holds an address twice. -/
theorem nodup_assignNonces {σ : Type} {st : Storage σ} {storage : σ} :
    ∀ {logs : List LogEntry} {nonceMap nonceMap' : List (Address × UInt64)}
      {answer : List LogEntryWithNonce},
      assignNonces st storage logs nonceMap = .ok (answer, nonceMap') →
      (nonceMap.map Prod.fst).Nodup → (nonceMap'.map Prod.fst).Nodup
  | [], _, _, _, h, hnodup => by
    cases h
    exact hnodup
  | _ :: _, _, _, _, h, hnodup => by
    obtain ⟨_, next, _, -, -, hrest, -⟩ := assignNonces_cons_eq_ok h
    exact nodup_assignNonces hrest (nodup_setNonce hnodup _ next)

/-- The key all events of the contract at `address` carry. -/
def eventKeyOf (address : Address) : EventKey := EventKey.new 0 (ethAddressToAptosAddress address)

/-- The sequence numbers of the events of the contract at `address`, in order. -/
def sequenceNumbers (address : Address) (events : List ContractEvent) : List Nat :=
  (events.filter fun e => e.key = eventKeyOf address).map (·.sequenceNumber.toNat)

theorem sequenceNumbers_map_toContractEvent (address : Address) (answer : List LogEntryWithNonce) :
    sequenceNumbers address (answer.map LogEntryWithNonce.toContractEvent) =
      (answer.filter fun e => e.log.address = address).map (·.nonce.toNat) := by
  have hkey : ∀ value : LogEntryWithNonce,
      decide (value.toContractEvent.key = eventKeyOf address) = decide (value.log.address = address) := by
    intro value
    have hiff : value.toContractEvent.key = eventKeyOf address ↔ value.log.address = address := by
      simp only [LogEntryWithNonce.toContractEvent, eventKeyOf, EventKey.new, EventKey.mk.injEq,
        true_and]
      exact ethAddressToAptosAddress_injective.eq_iff
    exact decide_eq_decide.mpr hiff
  rw [sequenceNumbers, List.filter_map, List.map_map]
  simp only [Function.comp_def, hkey]
  rfl

/-! On the `ViewWrapper`, writing the nonces never fails and leaves each contract's next nonce
under its key. -/

section Wrapper

open ViewWrapper

variable {bcs : Bcs.Serializer}

theorem eventNonceKey_injective : Function.Injective StorageKey.eventNonceKey :=
  fun _ _ h => (StorageKey.mk.inj h).1

/-- The writes of the final loop of `assign_event_nonce`, in the map's order. -/
def nonceWrites (nonceMap : List (Address × UInt64)) : List (StorageKey × List UInt8) :=
  (sortNonces nonceMap).map fun entry => (StorageKey.eventNonceKey entry.1, beBytes 8 entry.2.toNat)

theorem writeNonces_viewWrapper (w : ViewWrapper) (nonceMap : List (Address × UInt64)) :
    writeNonces (ViewWrapper.storage bcs) w nonceMap =
      .ok ((nonceWrites nonceMap).foldl (fun w write => w.set write.1 write.2) w) := by
  rw [writeNonces, nonceWrites, List.foldl_map]
  exact foldlM_eq_ok_of_forall (fun _ _ => rfl) _ _

theorem nodup_nonceWrites {nonceMap : List (Address × UInt64)} (h : (nonceMap.map Prod.fst).Nodup) :
    ((nonceWrites nonceMap).map Prod.fst).Nodup := by
  have hsorted : ((sortNonces nonceMap).map Prod.fst).Nodup :=
    ((List.mergeSort_perm _ _).map Prod.fst).nodup_iff.mpr h
  have hfst : (Prod.fst ∘ fun entry : Address × UInt64 =>
      (StorageKey.eventNonceKey entry.1, beBytes 8 entry.2.toNat)) =
      StorageKey.eventNonceKey ∘ Prod.fst := rfl
  rw [nonceWrites, List.map_map, hfst, ← List.map_map]
  exact List.Nodup.map eventNonceKey_injective hsorted

/-- Every nonce write is of a nonce key. -/
theorem exists_of_mem_nonceWrites {nonceMap : List (Address × UInt64)}
    {write : StorageKey × List UInt8} (h : write ∈ nonceWrites nonceMap) :
    ∃ entry ∈ nonceMap, write = (StorageKey.eventNonceKey entry.1, beBytes 8 entry.2.toNat) := by
  obtain ⟨entry, hentry, rfl⟩ := List.mem_map.mp h
  exact ⟨entry, List.mem_mergeSort.mp hentry, rfl⟩

/-- After the writes, a contract the map holds has its next nonce under its key, big-endian. -/
theorem getElem?_nonceWrites_of_lookup {nonceMap : List (Address × UInt64)} {address : Address}
    {nonce : UInt64} (hnodup : (nonceMap.map Prod.fst).Nodup) (h : nonceMap.lookup address = some nonce)
    (w : ViewWrapper) :
    ((nonceWrites nonceMap).foldl (fun w write => w.set write.1 write.2) w).cache[
        StorageKey.eventNonceKey address]? = some (some (beBytes 8 nonce.toNat)) := by
  apply getElem?_foldl_set_of_mem w (nodup_nonceWrites hnodup)
  obtain ⟨l₁, l₂, hsplit, -⟩ := List.lookup_eq_some_iff.mp h
  have hmem : (address, nonce) ∈ sortNonces nonceMap := by
    rw [sortNonces, List.mem_mergeSort, hsplit]
    simp
  exact List.mem_map.mpr ⟨_, hmem, rfl⟩

/-- The writes touch no key but the nonce keys of the contracts the map holds. -/
theorem getElem?_nonceWrites_of_not_mem {nonceMap : List (Address × UInt64)} {k : StorageKey}
    (h : ∀ entry ∈ nonceMap, StorageKey.eventNonceKey entry.1 ≠ k) (w : ViewWrapper) :
    ((nonceWrites nonceMap).foldl (fun w write => w.set write.1 write.2) w).cache[k]? =
      w.cache[k]? := by
  apply getElem?_foldl_set_of_not_mem
  intro write hwrite
  obtain ⟨entry, hentry, rfl⟩ := exists_of_mem_nonceWrites hwrite
  exact h entry hentry

/-- `read_nonce` on the wrapper, over a view that answers from a map: the cached bytes, or else
the map's. -/
theorem readNonce_viewWrapper {S : StateKey → Option (List UInt8)} {w : ViewWrapper}
    (hinner : w.inner = .ofMap S) (address : Address) :
    readNonce (ViewWrapper.storage bcs) w address =
      nonceOfBytes (cachedRead (S ∘ StorageKey.stateKey bcs) (w.cache[·]?)
        (StorageKey.eventNonceKey address)) := by
  have hkey : (StorageKey.eventNonceKey address).Serializable := trivial
  rw [readNonce, show (ViewWrapper.storage bcs).get = ViewWrapper.get bcs from rfl,
    get_eq_cachedRead hinner hkey, ok_bind]

/-- The bytes `write_nonce` stores are read back little-endian. -/
theorem nonceOfBytes_beBytes (nonce : Nat) :
    nonceOfBytes (some (beBytes 8 nonce)) = .ok (UInt64.ofNat (ofLeBytes (beBytes 8 nonce))) := by
  rw [nonceOfBytes, if_pos (length_beBytes 8 nonce)]

/-- `evm_events_to_aptos_events` on the wrapper: the numbering, then the nonce writes, which never
fail. -/
theorem evmEventsToAptosEvents_viewWrapper_iff {w w' : ViewWrapper} {logs : List LogEntry}
    {events : List ContractEvent} :
    evmEventsToAptosEvents (ViewWrapper.storage bcs) w logs = .ok (events, w') ↔
      ∃ answer nonceMap, assignNonces (ViewWrapper.storage bcs) w logs [] = .ok (answer, nonceMap) ∧
        events = answer.map LogEntryWithNonce.toContractEvent ∧
        w' = (nonceWrites nonceMap).foldl (fun w write => w.set write.1 write.2) w := by
  constructor
  · intro h
    obtain ⟨⟨answer, w₁⟩, hassign, hevents⟩ := map_eq_ok_iff.mp h
    obtain ⟨⟨answer₀, nonceMap⟩, hnumbers, hwrite⟩ := bind_eq_ok_iff.mp hassign
    obtain ⟨w₂, hw₂, hanswer⟩ := map_eq_ok_iff.mp hwrite
    simp only [Prod.mk.injEq] at hevents hanswer
    obtain ⟨rfl, rfl⟩ := hanswer
    obtain ⟨rfl, rfl⟩ := hevents
    rw [writeNonces_viewWrapper] at hw₂
    exact ⟨answer₀, nonceMap, hnumbers, rfl, (Except.ok.inj hw₂).symm⟩
  · rintro ⟨answer, nonceMap, hnumbers, rfl, rfl⟩
    rw [evmEventsToAptosEvents, assignEventNonce, hnumbers, ok_bind]
    dsimp only
    rw [writeNonces_viewWrapper]
    rfl

/-- The events on the wrapper touch only nonce keys and keep the view. -/
theorem evmEventsToAptosEvents_viewWrapper_frame {w w' : ViewWrapper} {logs : List LogEntry}
    {events : List ContractEvent}
    (h : evmEventsToAptosEvents (ViewWrapper.storage bcs) w logs = .ok (events, w')) :
    w'.inner = w.inner ∧ ∀ k, (∀ a, StorageKey.eventNonceKey a ≠ k) → w'.cache[k]? = w.cache[k]? := by
  obtain ⟨answer, nonceMap, -, -, rfl⟩ := evmEventsToAptosEvents_viewWrapper_iff.mp h
  exact ⟨inner_foldl_set _ _, fun k hk => getElem?_nonceWrites_of_not_mem (fun entry _ => hk entry.1) w⟩

/-- Logs made into events on the wrapper: the events of `address` are numbered consecutively from
its stored nonce, and the wrapper ends with the next nonce under its key, big-endian, when
`address` logged at all. -/
theorem evmEventsToAptosEvents_viewWrapper (address : Address) {w w' : ViewWrapper}
    {logs : List LogEntry} {events : List ContractEvent} {r : UInt64}
    (hread : readNonce (ViewWrapper.storage bcs) w address = .ok r)
    (h : evmEventsToAptosEvents (ViewWrapper.storage bcs) w logs = .ok (events, w')) :
    sequenceNumbers address events =
        List.range' r.toNat (logs.filter fun log => log.address = address).length ∧
      w'.cache[StorageKey.eventNonceKey address]? =
        if (logs.filter fun log => log.address = address).length = 0 then
          w.cache[StorageKey.eventNonceKey address]?
        else some (some (beBytes 8 (r.toNat + (logs.filter fun log => log.address = address).length))) := by
  obtain ⟨answer, nonceMap, hnumbers, rfl, rfl⟩ := evmEventsToAptosEvents_viewWrapper_iff.mp h
  have hnodup : (nonceMap.map Prod.fst).Nodup := nodup_assignNonces hnumbers List.nodup_nil
  obtain ⟨hseq, hlookup⟩ := assignNonces_numbers address hread hnumbers
  simp only [List.lookup_nil, Option.getD_none, Option.map_none] at hseq hlookup
  refine ⟨?_, ?_⟩
  · rw [sequenceNumbers_map_toContractEvent, hseq]
  · split
    case isTrue hzero =>
      rw [if_pos hzero, Option.map_eq_none_iff] at hlookup
      apply getElem?_nonceWrites_of_not_mem
      intro entry hentry heq
      have hne := List.lookup_eq_none_iff.mp hlookup entry hentry
      simp [eventNonceKey_injective heq] at hne
    case isFalse hpos =>
      rw [if_neg hpos, Option.map_eq_some_iff] at hlookup
      obtain ⟨nonce, hsome, hnonce⟩ := hlookup
      rw [getElem?_nonceWrites_of_lookup hnodup hsome, hnonce]

end Wrapper

/-- Logs made into events come back unchanged and in order: whatever the storage, when
`evm_events_to_aptos_events` succeeds on logs that fit Rust's `Vec`s,
`aptos_events_to_evm_events` returns the logs. -/
theorem aptosEventsToEvmEvents_evmEventsToAptosEvents {σ : Type} (st : Storage σ) (storage : σ)
    (logs : List LogEntry) (hfits : ∀ log ∈ logs, log.FitsVec) (events : List ContractEvent)
    (storage' : σ) (h : evmEventsToAptosEvents st storage logs = .ok (events, storage')) :
    aptosEventsToEvmEvents events = .ok logs := by
  obtain ⟨⟨answer, s⟩, hassign, hmap⟩ := map_eq_ok_iff.mp h
  simp only [Prod.mk.injEq] at hmap
  obtain ⟨rfl, -⟩ := hmap
  have hlogs : answer.map (·.log) = logs := map_log_assignEventNonce hassign
  rw [aptosEventsToEvmEvents, List.mapM_map, ← hlogs]
  refine mapM_eq_ok_of_forall answer fun value hvalue => ?_
  have hmem : value.log ∈ logs := by
    rw [← hlogs]
    exact List.mem_map_of_mem hvalue
  rw [Function.comp_apply, LogEntryWithNonce.tryFrom_toContractEvent (hfits value.log hmem)]
  rfl

/-- A log of the zero address with one topic and three bytes of data. -/
def sampleLog : LogEntry := ⟨zeroAddress, [⟨List.replicate 32 7, rfl⟩], [1, 2, 3], .ethereum⟩

/-- The sample log, made into an event over an empty store with the crate's serializer, comes
back. -/
theorem aptosEventsToEvmEvents_sampleLog :
    (∀ log ∈ [sampleLog], log.FitsVec) ∧
      ∃ events storage', evmEventsToAptosEvents (ViewWrapper.storage Bcs.uleb128Serializer)
          (ViewWrapper.new (.ofMap fun _ => none)) [sampleLog] = .ok (events, storage') ∧
        aptosEventsToEvmEvents events = .ok [sampleLog] := by
  have hfits : ∀ log ∈ [sampleLog], log.FitsVec := by decide +kernel
  have hread : readNonce (ViewWrapper.storage Bcs.uleb128Serializer)
      (ViewWrapper.new (.ofMap fun _ => none)) sampleLog.address = .ok 0 := by
    rw [readNonce_viewWrapper rfl, cachedRead]
    simp [ViewWrapper.new]
    rfl
  obtain ⟨answer, nonceMap, hassign⟩ : ∃ answer nonceMap,
      assignNonces (ViewWrapper.storage Bcs.uleb128Serializer)
        (ViewWrapper.new (.ofMap fun _ => none)) [sampleLog] [] = .ok (answer, nonceMap) := by
    apply assignNonces_isOk
    intro log hlog
    rw [List.mem_singleton] at hlog
    subst hlog
    exact ⟨0, hread, by decide⟩
  have h := evmEventsToAptosEvents_viewWrapper_iff.mpr ⟨answer, nonceMap, hassign, rfl, rfl⟩
  exact ⟨hfits, _, _, h, aptosEventsToEvmEvents_evmEventsToAptosEvents
    (ViewWrapper.storage Bcs.uleb128Serializer) _ [sampleLog] hfits _ _ h⟩

end EthereumVm

end Hemvm
