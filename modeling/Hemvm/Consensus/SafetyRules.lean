import Hemvm.Types

/-! The consensus safety rules of a validator (`consensus/safety-rules`): what it keeps in its
persistent storage, and the five calls of `TSafetyRules` that sign on its behalf.

A call is an action of `EStateM Error SafetyRules`, so that, as with `&mut self` in the source, a
call that fails still leaves the state it reached (a cleared cache, a dropped signer). The checks
the safety rules delegate to the consensus types and to cryptography (signatures, quorum
certificates, epoch-change proofs, the accumulator extension) are the fields of `Checks`: any
function of what they read, so that every result about the calls holds whatever they answer.
Whether the internal store takes a write is given with each write (`WriteOutcome`), so that every
write may fail; a failed write leaves the store as it was. -/
namespace Hemvm.Consensus
open Codec

/-- `bls12381` keys and signatures, by their bytes. -/
abbrev PublicKey := List UInt8
abbrev PrivateKey := List UInt8
abbrev Signature := List UInt8

/-- `Round`. -/
abbrev Round := UInt64

/-- `ACCUMULATOR_PLACEHOLDER_HASH`: the bytes of `ACCUMULATOR_PLACEHOLDER_HASH`, padded with zeros
(`create_literal_hash`). -/
def accumulatorPlaceholderHash : H256 :=
  ⟨[0x41, 0x43, 0x43, 0x55, 0x4d, 0x55, 0x4c, 0x41, 0x54, 0x4f, 0x52, 0x5f, 0x50, 0x4c, 0x41, 0x43,
    0x45, 0x48, 0x4f, 0x4c, 0x44, 0x45, 0x52, 0x5f, 0x48, 0x41, 0x53, 0x48, 0, 0, 0, 0], rfl⟩

/-- `HashValue::zero()`. -/
def zeroHash : H256 := ⟨List.replicate 32 0, rfl⟩

/-- `ValidatorVerifier`, by the public key of each validator. -/
structure ValidatorVerifier where
  validators : List (AccountAddress × PublicKey)

def ValidatorVerifier.getPublicKey (verifier : ValidatorVerifier) (author : AccountAddress) :
    Option PublicKey :=
  verifier.validators.lookup author

structure EpochState where
  epoch : UInt64
  verifier : ValidatorVerifier

structure BlockInfo where
  epoch : UInt64
  round : Round
  id : H256
  executedStateId : H256
  version : UInt64
  timestampUsecs : UInt64
  nextEpochState : Option EpochState

/-- `BlockInfo::empty()`. -/
def BlockInfo.empty : BlockInfo := ⟨0, 0, zeroHash, zeroHash, 0, 0, none⟩

/-- `BlockInfo::is_ordered_only`: not empty, and with the dummy execution results. The comparison
with `BlockInfo::empty()` reads the fields that can differ from it when the others are dummies. -/
def BlockInfo.isOrderedOnly (info : BlockInfo) : Bool :=
  !(info.epoch == 0 && info.round == 0 && info.id == zeroHash &&
      info.executedStateId == zeroHash && info.version == 0 && info.timestampUsecs == 0 &&
      info.nextEpochState.isNone) &&
    info.nextEpochState.isNone && info.executedStateId == accumulatorPlaceholderHash &&
    info.version == 0

/-- `BlockInfo::has_reconfiguration`. -/
def BlockInfo.hasReconfiguration (info : BlockInfo) : Bool := info.nextEpochState.isSome

/-- `BlockInfo::match_ordered_only`. -/
def BlockInfo.matchOrderedOnly (info executed : BlockInfo) : Bool :=
  info.epoch == executed.epoch && info.round == executed.round && info.id == executed.id &&
    (info.timestampUsecs == executed.timestampUsecs ||
      (info.timestampUsecs > executed.timestampUsecs && executed.hasReconfiguration))

structure VoteData where
  proposed : BlockInfo
  parent : BlockInfo

structure LedgerInfo where
  commitInfo : BlockInfo
  consensusDataHash : H256

structure LedgerInfoWithSignatures where
  ledgerInfo : LedgerInfo
  signatures : Signature

structure QuorumCert where
  voteData : VoteData
  signedLedgerInfo : LedgerInfoWithSignatures

def QuorumCert.certifiedBlock (qc : QuorumCert) : BlockInfo := qc.voteData.proposed

def QuorumCert.parentBlock (qc : QuorumCert) : BlockInfo := qc.voteData.parent

/-- `BlockType`; a payload is its transactions' bytes. -/
inductive BlockType where
  | proposal (payload : List (List UInt8)) (author : AccountAddress)
      (failedAuthors : List (Round × AccountAddress))
  | nilBlock (failedAuthors : List (Round × AccountAddress))
  | genesis

structure BlockData where
  epoch : UInt64
  round : Round
  timestampUsecs : UInt64
  quorumCert : QuorumCert
  blockType : BlockType

/-- `BlockData::author`: the author of a proposal. -/
def BlockData.author (data : BlockData) : Option AccountAddress :=
  match data.blockType with
  | .proposal _ author _ => some author
  | _ => none

structure Block where
  id : H256
  blockData : BlockData
  signature : Option Signature

def Block.epoch (block : Block) : UInt64 := block.blockData.epoch

def Block.round (block : Block) : Round := block.blockData.round

def Block.quorumCert (block : Block) : QuorumCert := block.blockData.quorumCert

/-- `Block::gen_block_info`. -/
def Block.genBlockInfo (block : Block) (executedStateId : H256) (version : UInt64)
    (nextEpochState : Option EpochState) : BlockInfo :=
  ⟨block.epoch, block.round, block.id, executedStateId, version,
    block.blockData.timestampUsecs, nextEpochState⟩

structure TwoChainTimeout where
  epoch : UInt64
  round : Round
  quorumCert : QuorumCert

def TwoChainTimeout.hqcRound (timeout : TwoChainTimeout) : Round :=
  timeout.quorumCert.certifiedBlock.round

/-- `TimeoutSigningRepr`, what a timeout signature signs. -/
structure TimeoutSigningRepr where
  epoch : UInt64
  round : Round
  hqcRound : Round

def TwoChainTimeout.signingFormat (timeout : TwoChainTimeout) : TimeoutSigningRepr :=
  ⟨timeout.epoch, timeout.round, timeout.hqcRound⟩

/-- `TwoChainTimeoutCertificate`: the timeout with the highest quorum certificate, and the
aggregated signatures with the round each signer reported. -/
structure TwoChainTimeoutCertificate where
  timeout : TwoChainTimeout
  signers : List (AccountAddress × Round)
  signature : Signature

def TwoChainTimeoutCertificate.round (tc : TwoChainTimeoutCertificate) : Round := tc.timeout.round

def TwoChainTimeoutCertificate.highestHqcRound (tc : TwoChainTimeoutCertificate) : Round :=
  tc.timeout.hqcRound

structure Vote where
  voteData : VoteData
  author : AccountAddress
  ledgerInfo : LedgerInfo
  signature : Signature
  twoChainTimeout : Option (TwoChainTimeout × Signature)

/-- `Vote::new_with_signature`. -/
def Vote.newWithSignature (voteData : VoteData) (author : AccountAddress) (ledgerInfo : LedgerInfo)
    (signature : Signature) : Vote :=
  ⟨voteData, author, ledgerInfo, signature, none⟩

/-- The round of the block a vote is for. -/
def Vote.round (vote : Vote) : Round := vote.voteData.proposed.round

/-- `AccumulatorExtensionProof`, by its fields. -/
structure AccumulatorExtensionProof where
  frozenSubtreeRoots : List H256
  numLeaves : UInt64
  leaves : List H256

structure VoteProposal where
  accumulatorExtensionProof : AccumulatorExtensionProof
  block : Block
  nextEpochState : Option EpochState
  decoupledExecution : Bool

/-- `EpochChangeProof`, by its fields. -/
structure EpochChangeProof where
  ledgerInfoWithSigs : List LedgerInfoWithSignatures
  more : Bool

structure Waypoint where
  version : UInt64
  value : H256

/-- What a validator signs. -/
inductive SigningMessage where
  | blockData (data : BlockData)
  | ledgerInfo (info : LedgerInfo)
  | timeout (repr : TimeoutSigningRepr)

/-- The checks and computations the safety rules take from the consensus types and from
cryptography; the texts of their errors are the `to_string` of the source's errors. -/
structure Checks where
  /-- `QuorumCert::verify`. -/
  verifyQc : ValidatorVerifier → QuorumCert → Except String Unit
  /-- `Block::validate_signature`, then `Block::verify_well_formed`. -/
  validateBlock : ValidatorVerifier → Block → Except String Unit
  /-- The signature part of `TwoChainTimeoutCertificate::verify`, after the timeout's own. -/
  verifyTcSignatures : ValidatorVerifier → TwoChainTimeoutCertificate → Except String Unit
  /-- `AccumulatorExtensionProof::verify`: the root hash and version of the extended tree. -/
  extendAccumulator : AccumulatorExtensionProof → H256 → Except String (H256 × UInt64)
  /-- `CryptoHash::hash` of vote data. -/
  hashVoteData : VoteData → H256
  /-- `EpochChangeProof::verify`. -/
  verifyEpochChangeProof : EpochChangeProof → Waypoint → Except String LedgerInfoWithSignatures
  /-- `Waypoint::new_epoch_boundary`. -/
  newEpochBoundary : LedgerInfo → Except String Waypoint
  /-- `LedgerInfoWithSignatures::verify_signatures`. -/
  verifySignatures : ValidatorVerifier → LedgerInfoWithSignatures → Except String Unit
  /-- `PrivateKey::public_key`. -/
  publicKey : PrivateKey → PublicKey
  /-- `ValidatorSigner::sign`. -/
  sign : PrivateKey → SigningMessage → Except String Signature
  /-- The `Display` of `AccountAddress`. -/
  addressToString : AccountAddress → String
  /-- The `Display` of `LedgerInfo`. -/
  ledgerInfoToString : LedgerInfo → String
  /-- The `Display` of `BlockInfo`. -/
  blockInfoToString : BlockInfo → String
  /-- The `Debug` of a public key. -/
  publicKeyDebug : PublicKey → String

/-- `Error`, the reasons the safety rules give for refusing. -/
inductive Error where
  | incorrectEpoch (given expected : UInt64)
  | incorrectRound (round : Round)
  | incorrectLastVotedRound (round lastVotedRound : Round)
  | incorrectPreferredRound (round preferredRound : Round)
  | invalidAccumulatorExtension (message : String)
  | invalidEpochChangeProof (message : String)
  | internalError (message : String)
  | invalidLedgerInfo
  | invalidProposal (message : String)
  | invalidQuorumCertificate (message : String)
  | notInitialized (field : String)
  | secureStorageMissingDataError (message : String)
  | secureStorageUnexpectedError (message : String)
  | serializationError (message : String)
  | validatorKeyNotFound (message : String)
  | validatorNotInSet (author : String)
  | notSafeToVote (round qcRound tcRound hqcRound : Round)
  | notSafeToTimeout (round qcRound tcRound oneChainRound : Round)
  | invalidTimeoutCertificate (message : String)
  | inconsistentExecutionResult (ordered executed : String)
  | invalidOrderedLedgerInfo (message : String)
  | waypointOutOfDate (previousVersion updatedVersion currentEpoch providedEpoch : UInt64)
  | invalidTimeout (message : String)

/-- `SafetyData`, what the safety rules persist. -/
structure SafetyData where
  epoch : UInt64
  lastVotedRound : Round
  /-- The highest 2-chain round. -/
  preferredRound : Round
  /-- The highest 1-chain round. -/
  oneChainRound : Round
  lastVote : Option Vote

/-- The internal store, by the four keys the safety rules use. -/
structure Storage where
  safetyData : Option SafetyData
  waypoint : Option Waypoint
  consensusKey : Option PrivateKey
  ownerAccount : Option AccountAddress

/-- Whether the internal store takes a write: `none` if it does, `some e` if it fails with `e`. -/
abbrev WriteOutcome := Option String

/-- `Storage::get` of a key that holds nothing. -/
def keyNotSet (key : String) : Error := .secureStorageMissingDataError ("Key not set: " ++ key)

structure PersistentSafetyStorage where
  enableCachedSafetyData : Bool
  cachedSafetyData : Option SafetyData
  internalStore : Storage

namespace PersistentSafetyStorage

/-- `PersistentSafetyStorage::new`, over a store that already holds the safety rules' data. -/
def new (internalStore : Storage) (enableCachedSafetyData : Bool) : PersistentSafetyStorage :=
  ⟨enableCachedSafetyData, none, internalStore⟩

def author : EStateM Error PersistentSafetyStorage AccountAddress := do
  match (← get).internalStore.ownerAccount with
  | some author => pure author
  | none => throw (keyNotSet "owner_account")

/-- `consensus_key_for_version`: the stored key, if it is the one for `version`. -/
def consensusKeyForVersion (checks : Checks) (version : PublicKey) :
    EStateM Error PersistentSafetyStorage PrivateKey := do
  match (← get).internalStore.consensusKey with
  | none => throw (keyNotSet "consensus")
  | some key =>
    if checks.publicKey key ≠ version then
      throw (.secureStorageMissingDataError
        ("PrivateKey for " ++ checks.publicKeyDebug version ++ " not found"))
    else pure key

/-- `safety_data`: the cached copy if caching is on and there is one, else the stored data, which
then fills the cache. -/
def safetyData : EStateM Error PersistentSafetyStorage SafetyData := do
  let storage ← get
  if !storage.enableCachedSafetyData then
    match storage.internalStore.safetyData with
    | some data => pure data
    | none => throw (keyNotSet "safety_data")
  else
    match storage.cachedSafetyData with
    | some data => pure data
    | none =>
      match storage.internalStore.safetyData with
      | some data =>
        set { storage with cachedSafetyData := some data }
        pure data
      | none => throw (keyNotSet "safety_data")

/-- `set_safety_data`: a write that the store takes also fills the cache; one that fails clears
it. -/
def setSafetyData (outcome : WriteOutcome) (data : SafetyData) :
    EStateM Error PersistentSafetyStorage Unit := do
  let storage ← get
  match outcome with
  | none =>
    set { storage with cachedSafetyData := some data
                       internalStore := { storage.internalStore with safetyData := some data } }
  | some error =>
    set { storage with cachedSafetyData := none }
    throw (.secureStorageUnexpectedError error)

def waypoint : EStateM Error PersistentSafetyStorage Waypoint := do
  match (← get).internalStore.waypoint with
  | some waypoint => pure waypoint
  | none => throw (keyNotSet "waypoint")

def setWaypoint (outcome : WriteOutcome) (waypoint : Waypoint) :
    EStateM Error PersistentSafetyStorage Unit := do
  let storage ← get
  match outcome with
  | none => set { storage with internalStore := { storage.internalStore with waypoint := some waypoint } }
  | some error => throw (.secureStorageUnexpectedError error)

/-- `PersistentSafetyStorage::initialize` over a store: the key and the owner, unless the store
holds a key already, then the safety data of epoch 1 and the waypoint; the writes it `expect`s to succeed are
errors when they fail. -/
def fresh (internalStore : Storage) (author : AccountAddress) (consensusPrivateKey : PrivateKey)
    (waypoint : Waypoint) (enableCachedSafetyData : Bool)
    (safetyDataOutcome waypointOutcome : WriteOutcome) : Except Error PersistentSafetyStorage :=
  let internalStore := match internalStore.consensusKey with
    | some _ => internalStore
    | none => { internalStore with consensusKey := some consensusPrivateKey, ownerAccount := some author }
  let storage : PersistentSafetyStorage :=
    ⟨enableCachedSafetyData, some ⟨1, 0, 0, 0, none⟩, internalStore⟩
  match (setSafetyData safetyDataOutcome ⟨1, 0, 0, 0, none⟩ *>
      setWaypoint waypointOutcome waypoint).run storage with
  | .ok _ storage => .ok storage
  | .error e _ => .error e

end PersistentSafetyStorage

structure ValidatorSigner where
  author : AccountAddress
  privateKey : PrivateKey

structure SafetyRules where
  persistentStorage : PersistentSafetyStorage
  validatorSigner : Option ValidatorSigner
  epochState : Option EpochState

/-- `SafetyRules::new`. -/
def SafetyRules.new (persistentStorage : PersistentSafetyStorage) : SafetyRules :=
  ⟨persistentStorage, none, none⟩

/-- The actions of the safety rules. -/
abbrev SafetyM := EStateM Error SafetyRules

/-- An action of the persistent storage, inside the safety rules. -/
def withStorage {α : Type} (action : EStateM Error PersistentSafetyStorage α) : SafetyM α :=
  fun rules =>
    match action.run rules.persistentStorage with
    | .ok a storage => .ok a { rules with persistentStorage := storage }
    | .error e storage => .error e { rules with persistentStorage := storage }

/-- `u64::checked_add(round, 1)`, failing with `IncorrectRound`. -/
def nextRound (round : Round) : Except Error Round :=
  if round.toNat + 1 < 2 ^ 64 then .ok (round + 1) else .error (.incorrectRound round)

/-- An `Except` inside the safety rules. -/
def liftExcept {α : Type} : Except Error α → SafetyM α
  | .ok a => pure a
  | .error e => throw e

/-- A check of the consensus types, its error wrapped as the safety rules report it. -/
def check {α : Type} (wrap : String → Error) : Except String α → SafetyM α
  | .ok a => pure a
  | .error e => throw (wrap e)

section Rules

variable (checks : Checks)

def signer : SafetyM ValidatorSigner := do
  match (← get).validatorSigner with
  | some signer => pure signer
  | none => throw (.notInitialized "validator_signer")

def epochState : SafetyM EpochState := do
  match (← get).epochState with
  | some epochState => pure epochState
  | none => throw (.notInitialized "epoch_state")

def sign (message : SigningMessage) : SafetyM Signature := do
  let signer ← signer
  check .serializationError (checks.sign signer.privateKey message)

/-- `verify_epoch`. -/
def verifyEpoch (epoch : UInt64) (safetyData : SafetyData) : Except Error Unit :=
  if epoch ≠ safetyData.epoch then .error (.incorrectEpoch epoch safetyData.epoch) else .ok ()

def verifyQc (qc : QuorumCert) : SafetyM Unit := do
  let epochState ← epochState
  check .invalidQuorumCertificate (checks.verifyQc epochState.verifier qc)

/-- `TwoChainTimeout::verify`. -/
def verifyTimeout (verifier : ValidatorVerifier) (timeout : TwoChainTimeout) : Except String Unit :=
  if timeout.hqcRound < timeout.round then checks.verifyQc verifier timeout.quorumCert
  else .error "Timeout round should be larger than the QC round"

/-- `TwoChainTimeoutCertificate::verify`. -/
def verifyTimeoutCertificate (verifier : ValidatorVerifier) (tc : TwoChainTimeoutCertificate) :
    Except String Unit :=
  verifyTimeout checks verifier tc.timeout >>= fun _ => checks.verifyTcSignatures verifier tc

def verifyTc (tc : TwoChainTimeoutCertificate) : SafetyM Unit := do
  let epochState ← epochState
  check .invalidTimeoutCertificate (verifyTimeoutCertificate checks epochState.verifier tc)

/-- `VoteProposal::gen_vote_data`. -/
def genVoteData (proposal : VoteProposal) : Except String VoteData :=
  if proposal.decoupledExecution then
    .ok ⟨proposal.block.genBlockInfo accumulatorPlaceholderHash 0 proposal.nextEpochState,
      proposal.block.quorumCert.certifiedBlock⟩
  else
    checks.extendAccumulator proposal.accumulatorExtensionProof
        proposal.block.quorumCert.certifiedBlock.executedStateId >>= fun (root, version) =>
      .ok ⟨proposal.block.genBlockInfo root version proposal.nextEpochState,
        proposal.block.quorumCert.certifiedBlock⟩

/-- `verify_proposal`: the block's epoch, quorum certificate and own checks, then the vote data. -/
def verifyProposal (proposal : VoteProposal) : SafetyM VoteData := do
  let safetyData ← withStorage PersistentSafetyStorage.safetyData
  liftExcept (verifyEpoch proposal.block.epoch safetyData)
  verifyQc checks proposal.block.quorumCert
  let epochState ← epochState
  check .invalidProposal (checks.validateBlock epochState.verifier proposal.block)
  check .invalidAccumulatorExtension (genVoteData checks proposal)

/-- `observe_qc`: the one-chain and preferred rounds rise to those the certificate shows. -/
def observeQc (qc : QuorumCert) (safetyData : SafetyData) : Bool × SafetyData :=
  let oneChain := qc.certifiedBlock.round
  let twoChain := qc.parentBlock.round
  let data₁ := if oneChain > safetyData.oneChainRound then
    { safetyData with oneChainRound := oneChain } else safetyData
  let data₂ := if twoChain > data₁.preferredRound then
    { data₁ with preferredRound := twoChain } else data₁
  (oneChain > safetyData.oneChainRound || twoChain > data₁.preferredRound, data₂)

/-- `verify_and_update_preferred_round`, the second voting rule. -/
def verifyAndUpdatePreferredRound (qc : QuorumCert) (safetyData : SafetyData) :
    Except Error (Bool × SafetyData) :=
  if qc.certifiedBlock.round < safetyData.preferredRound then
    .error (.incorrectPreferredRound qc.certifiedBlock.round safetyData.preferredRound)
  else .ok (observeQc qc safetyData)

/-- `verify_author`. -/
def verifyAuthor (author : Option AccountAddress) : SafetyM Unit := do
  let signer ← signer
  match author with
  | none => throw (.invalidProposal "No author found in the proposal")
  | some author =>
    if signer.author ≠ author then throw (.invalidProposal "Proposal author is not validator signer!")
    else pure ()

/-- `verify_and_update_last_vote_round`, the first voting rule. -/
def verifyAndUpdateLastVoteRound (round : Round) (safetyData : SafetyData) :
    Except Error SafetyData :=
  if round ≤ safetyData.lastVotedRound then
    .error (.incorrectLastVotedRound round safetyData.lastVotedRound)
  else .ok { safetyData with lastVotedRound := round }

/-- `safe_to_timeout`: the timeout's round follows its quorum certificate's or the timeout
certificate's, and the certificate is not older than the one-chain round. -/
def safeToTimeout (timeout : TwoChainTimeout) (maybeTc : Option TwoChainTimeoutCertificate)
    (safetyData : SafetyData) : Except Error Unit := do
  let round := timeout.round
  let qcRound := timeout.hqcRound
  let tcRound := (maybeTc.map (·.round)).getD 0
  let afterQc ← nextRound qcRound
  -- `||` computes `next_round(tc_round)?` only for a round that does not follow the certificate
  let follows ← if round = afterQc then pure true else (round == ·) <$> nextRound tcRound
  if follows = true ∧ qcRound ≥ safetyData.oneChainRound then pure ()
  else throw (.notSafeToTimeout round qcRound tcRound safetyData.oneChainRound)

/-- `safe_to_vote`: the block follows its quorum certificate, or follows the timeout certificate
with a certificate not older than the certificate's highest. -/
def safeToVote (block : Block) (maybeTc : Option TwoChainTimeoutCertificate) : Except Error Unit := do
  let round := block.round
  let qcRound := block.quorumCert.certifiedBlock.round
  let tcRound := (maybeTc.map (·.round)).getD 0
  let hqcRound := (maybeTc.map (·.highestHqcRound)).getD 0
  let afterQc ← nextRound qcRound
  if round = afterQc then pure ()
  else
    let afterTc ← nextRound tcRound
    if round = afterTc ∧ qcRound ≥ hqcRound then pure ()
    else throw (.notSafeToVote round qcRound tcRound hqcRound)

/-- `construct_ledger_info_2chain`: the certified block is committed when the proposal is its
direct child. -/
def constructLedgerInfo2chain (proposedBlock : Block) (consensusDataHash : H256) :
    Except Error LedgerInfo := do
  let block1 := proposedBlock.round
  let block0 := proposedBlock.quorumCert.certifiedBlock.round
  let afterBlock0 ← nextRound block0
  let commitInfo := if afterBlock0 = block1 then proposedBlock.quorumCert.certifiedBlock
    else BlockInfo.empty
  pure ⟨commitInfo, consensusDataHash⟩

/-- `guarded_sign_timeout_with_qc`. -/
def guardedSignTimeoutWithQc (outcome : WriteOutcome) (timeout : TwoChainTimeout)
    (timeoutCert : Option TwoChainTimeoutCertificate) : SafetyM Signature := do
  let _ ← signer
  let safetyData ← withStorage PersistentSafetyStorage.safetyData
  liftExcept (verifyEpoch timeout.epoch safetyData)
  let epochState ← epochState
  check .invalidTimeout (verifyTimeout checks epochState.verifier timeout)
  match timeoutCert with
  | some tc => verifyTc checks tc
  | none => pure ()
  liftExcept (safeToTimeout timeout timeoutCert safetyData)
  if timeout.round < safetyData.lastVotedRound then
    throw (.incorrectLastVotedRound timeout.round safetyData.lastVotedRound)
  if timeout.round > safetyData.lastVotedRound then
    let safetyData ← liftExcept (verifyAndUpdateLastVoteRound timeout.round safetyData)
    withStorage (PersistentSafetyStorage.setSafetyData outcome safetyData)
  sign checks (.timeout timeout.signingFormat)

/-- `guarded_construct_and_sign_vote_two_chain`. -/
def guardedConstructAndSignVoteTwoChain (outcome : WriteOutcome) (voteProposal : VoteProposal)
    (timeoutCert : Option TwoChainTimeoutCertificate) : SafetyM Vote := do
  let _ ← signer
  let voteData ← verifyProposal checks voteProposal
  match timeoutCert with
  | some tc => verifyTc checks tc
  | none => pure ()
  let proposedBlock := voteProposal.block
  let safetyData ← withStorage PersistentSafetyStorage.safetyData
  -- a second proposal of a round already voted on gets the stored vote back
  match safetyData.lastVote with
  | some vote =>
    if vote.round = proposedBlock.round then return vote
  | none => pure ()
  let safetyData ← liftExcept (verifyAndUpdateLastVoteRound proposedBlock.round safetyData)
  liftExcept (safeToVote proposedBlock timeoutCert)
  let safetyData := (observeQc proposedBlock.quorumCert safetyData).2
  let author := (← signer).author
  let ledgerInfo ← liftExcept
    (constructLedgerInfo2chain proposedBlock (checks.hashVoteData voteData))
  let signature ← sign checks (.ledgerInfo ledgerInfo)
  let vote := Vote.newWithSignature voteData author ledgerInfo signature
  withStorage (PersistentSafetyStorage.setSafetyData outcome { safetyData with lastVote := some vote })
  pure vote

/-- `guarded_sign_proposal`; the preferred round it updates is not persisted. -/
def guardedSignProposal (blockData : BlockData) : SafetyM Signature := do
  let _ ← signer
  verifyAuthor blockData.author
  let safetyData ← withStorage PersistentSafetyStorage.safetyData
  liftExcept (verifyEpoch blockData.epoch safetyData)
  if blockData.round ≤ safetyData.lastVotedRound then
    throw (.invalidProposal ("Proposed round " ++ toString blockData.round ++
      " is not higher than last voted round " ++ toString safetyData.lastVotedRound))
  verifyQc checks blockData.quorumCert
  let _ ← liftExcept (verifyAndUpdatePreferredRound blockData.quorumCert safetyData)
  sign checks (.blockData blockData)

/-- `guarded_sign_commit_vote`. -/
def guardedSignCommitVote (ledgerInfo : LedgerInfoWithSignatures) (newLedgerInfo : LedgerInfo) :
    SafetyM Signature := do
  let _ ← signer
  let oldLedgerInfo := ledgerInfo.ledgerInfo
  if !oldLedgerInfo.commitInfo.isOrderedOnly then
    throw (.invalidOrderedLedgerInfo (checks.ledgerInfoToString oldLedgerInfo))
  if !oldLedgerInfo.commitInfo.matchOrderedOnly newLedgerInfo.commitInfo then
    throw (.inconsistentExecutionResult (checks.blockInfoToString oldLedgerInfo.commitInfo)
      (checks.blockInfoToString newLedgerInfo.commitInfo))
  let epochState ← epochState
  check .invalidQuorumCertificate (checks.verifySignatures epochState.verifier ledgerInfo)
  sign checks (.ledgerInfo newLedgerInfo)

/-- The key reconciliation of `guarded_initialize`: the signer keeps its key if it is the
validator set's, else the stored key for it is exported. -/
def reconcileKey (author : AccountAddress) (epochState : EpochState) : SafetyM Unit := do
  match epochState.verifier.getPublicKey author with
  | none => throw (.validatorNotInSet (checks.addressToString author))
  | some expectedKey =>
    let currentKey := (← get).validatorSigner.map fun signer => checks.publicKey signer.privateKey
    if currentKey = some expectedKey then pure ()
    else
      let consensusKey ←
        tryCatch (withStorage (PersistentSafetyStorage.consensusKeyForVersion checks expectedKey))
          fun error =>
            match error with
            | .secureStorageMissingDataError message => throw (.validatorKeyNotFound message)
            | error => throw error
      modify fun rules => { rules with validatorSigner := some ⟨author, consensusKey⟩ }

/-- `guarded_initialize`: the epoch-change proof moves the waypoint forward and starts a newer
epoch with fresh safety data; a failed key reconciliation drops the signer. -/
def guardedInitialize (waypointOutcome safetyDataOutcome : WriteOutcome) (proof : EpochChangeProof) :
    SafetyM Unit := do
  let waypoint ← withStorage PersistentSafetyStorage.waypoint
  let lastLi ← check .invalidEpochChangeProof (checks.verifyEpochChangeProof proof waypoint)
  let ledgerInfo := lastLi.ledgerInfo
  let epochState ← match ledgerInfo.commitInfo.nextEpochState with
    | some epochState => pure epochState
    | none => throw .invalidLedgerInfo
  let newWaypoint ← check .internalError (checks.newEpochBoundary ledgerInfo)
  if newWaypoint.version > waypoint.version then
    withStorage (PersistentSafetyStorage.setWaypoint waypointOutcome newWaypoint)
  let currentEpoch := (← withStorage PersistentSafetyStorage.safetyData).epoch
  if currentEpoch > epochState.epoch then
    throw (.waypointOutOfDate waypoint.version newWaypoint.version currentEpoch epochState.epoch)
  if currentEpoch < epochState.epoch then
    withStorage (PersistentSafetyStorage.setSafetyData safetyDataOutcome ⟨epochState.epoch, 0, 0, 0, none⟩)
  modify fun rules => { rules with epochState := some epochState }
  let author ← withStorage PersistentSafetyStorage.author
  tryCatch (reconcileKey checks author epochState) fun error => do
    modify fun rules => { rules with validatorSigner := none }
    throw error

end Rules

/-- A call of `TSafetyRules` (`init` is `initialize`), with what the store answers to its writes, or the safety rules
rebuilt over the same store (`SafetyRules::new(PersistentSafetyStorage::new(..))`). -/
inductive Call where
  | init (proof : EpochChangeProof) (waypointOutcome safetyDataOutcome : WriteOutcome)
  | signProposal (blockData : BlockData)
  | signTimeoutWithQc (timeout : TwoChainTimeout) (timeoutCert : Option TwoChainTimeoutCertificate)
      (outcome : WriteOutcome)
  | constructAndSignVoteTwoChain (voteProposal : VoteProposal)
      (timeoutCert : Option TwoChainTimeoutCertificate) (outcome : WriteOutcome)
  | signCommitVote (ledgerInfo : LedgerInfoWithSignatures) (newLedgerInfo : LedgerInfo)
  | rebuild (enableCachedSafetyData : Bool)

/-- What a call answers. -/
inductive Answer where
  | done
  | signature (signature : Signature)
  | vote (vote : Vote)

/-- Performing a call. -/
def Call.perform (checks : Checks) : Call → SafetyM Answer
  | .init proof waypointOutcome safetyDataOutcome =>
    (fun _ => .done) <$> guardedInitialize checks waypointOutcome safetyDataOutcome proof
  | .signProposal blockData => .signature <$> guardedSignProposal checks blockData
  | .signTimeoutWithQc timeout timeoutCert outcome =>
    .signature <$> guardedSignTimeoutWithQc checks outcome timeout timeoutCert
  | .constructAndSignVoteTwoChain voteProposal timeoutCert outcome =>
    .vote <$> guardedConstructAndSignVoteTwoChain checks outcome voteProposal timeoutCert
  | .signCommitVote ledgerInfo newLedgerInfo =>
    .signature <$> guardedSignCommitVote checks ledgerInfo newLedgerInfo
  | .rebuild enableCachedSafetyData => fun rules =>
    .ok .done (.new (.new rules.persistentStorage.internalStore enableCachedSafetyData))

/-- One call of a run: the state before it, its answer and the state after it. -/
structure Step where
  call : Call
  before : SafetyRules
  answer : Except Error Answer
  after : SafetyRules

/-- The steps of a sequence of calls from `rules`. -/
def steps (checks : Checks) : SafetyRules → List Call → List Step
  | _, [] => []
  | rules, call :: calls =>
    match (call.perform checks).run rules with
    | .ok answer after => ⟨call, rules, .ok answer, after⟩ :: steps checks after calls
    | .error e after => ⟨call, rules, .error e, after⟩ :: steps checks after calls

end Hemvm.Consensus
