import Mathlib
import Hemvm.Control.StateExcept
import Hemvm.Control.Trace
import Hemvm.Consensus.Voting

/-! What each call of the safety rules does to the persisted safety data, and from that, what a
validator signs over any sequence of calls.

Each call reads the safety data through the cache and writes it at most once. The specs below
say, for a store that holds `d` with a cache that agrees with it (`Holding d`), where the store
is after the call, on success and on failure: a timeout raises the last voted round before it
signs, a vote is signed first and persisted last, and `initialize` starts a later epoch. So
every call moves the data by `Advance`, and a vote is handed out only from the stored data or
right after it is stored. -/
namespace Hemvm.Consensus
open Std.Do Control

set_option mvcgen.warning false

/-- The safety data in the internal store. -/
def SafetyRules.stored (rules : SafetyRules) : Option SafetyData :=
  rules.persistentStorage.internalStore.safetyData

namespace PersistentSafetyStorage

/-- The store holds `d`, and the cached copy, if there is one, is `d` too. -/
def Holding (d : SafetyData) (storage : PersistentSafetyStorage) : Prop :=
  (∀ c, storage.cachedSafetyData = some c → c = d) ∧ storage.internalStore.safetyData = some d

theorem safetyData_spec (d : SafetyData) :
    ⦃fun st => ⌜Holding d st⌝⦄ safetyData
    ⦃post⟨fun r st => ⌜r = d ∧ Holding d st⌝, fun _ _ => ⌜False⌝⟩⦄ := by
  mvcgen [safetyData]
  all_goals grind [Holding]

/-- A write that the store takes stores the data; one that fails leaves the store as it was. -/
theorem setSafetyData_spec (d : SafetyData) (outcome : WriteOutcome) (data : SafetyData) :
    ⦃fun st => ⌜Holding d st⌝⦄ setSafetyData outcome data
    ⦃post⟨fun _ st => ⌜Holding data st⌝, fun _ st => ⌜Holding d st⌝⟩⦄ := by
  mvcgen [setSafetyData]
  all_goals grind [Holding]

theorem waypoint_spec (d : SafetyData) :
    ⦃fun st => ⌜Holding d st⌝⦄ waypoint
    ⦃post⟨fun _ st => ⌜Holding d st⌝, fun _ st => ⌜Holding d st⌝⟩⦄ := by
  mvcgen [waypoint]

theorem setWaypoint_spec (d : SafetyData) (outcome : WriteOutcome) (waypoint : Waypoint) :
    ⦃fun st => ⌜Holding d st⌝⦄ setWaypoint outcome waypoint
    ⦃post⟨fun _ st => ⌜Holding d st⌝, fun _ st => ⌜Holding d st⌝⟩⦄ := by
  mvcgen [setWaypoint]

theorem author_spec (d : SafetyData) :
    ⦃fun st => ⌜Holding d st⌝⦄ author
    ⦃post⟨fun _ st => ⌜Holding d st⌝, fun _ st => ⌜Holding d st⌝⟩⦄ := by
  mvcgen [author]

theorem consensusKeyForVersion_spec (d : SafetyData) (checks : Checks) (version : PublicKey) :
    ⦃fun st => ⌜Holding d st⌝⦄ consensusKeyForVersion checks version
    ⦃post⟨fun _ st => ⌜Holding d st⌝, fun _ st => ⌜Holding d st⌝⟩⦄ := by
  mvcgen [consensusKeyForVersion]

end PersistentSafetyStorage

/-- The safety rules' store holds `d`, with a cache that agrees. -/
def SafetyRules.Holding (d : SafetyData) (rules : SafetyRules) : Prop :=
  rules.persistentStorage.Holding d

/-- Safety rules rebuilt over the same store start with an empty cache. -/
theorem SafetyRules.Holding.rebuild {d : SafetyData} {rules : SafetyRules} (h : rules.Holding d)
    (enableCachedSafetyData : Bool) :
    (SafetyRules.new (.new rules.persistentStorage.internalStore enableCachedSafetyData)).Holding d := by
  refine And.intro ?_ h.2
  intro c hc
  cases hc

/-- A spec of a storage action is one of the same action run inside the safety rules. -/
theorem withStorage_spec {α : Type} {action : EStateM Error PersistentSafetyStorage α}
    {P : PersistentSafetyStorage → Prop} {Q : α → PersistentSafetyStorage → Prop}
    {E : Error → PersistentSafetyStorage → Prop}
    (h : ⦃fun st => ⌜P st⌝⦄ action ⦃post⟨fun a st => ⌜Q a st⌝, fun e st => ⌜E e st⌝⟩⦄) :
    ⦃fun rules => ⌜P rules.persistentStorage⌝⦄ withStorage action
    ⦃post⟨fun a rules => ⌜Q a rules.persistentStorage⌝,
      fun e rules => ⌜E e rules.persistentStorage⌝⟩⦄ := by
  apply triple_of_run
  intro rules hp
  have hrun := run_of_triple h hp
  unfold withStorage
  simp only [EStateM.run] at hrun ⊢
  split <;> simp_all [Holds]

@[simp] theorem verifyEpoch_eq_ok_iff {epoch : UInt64} {d : SafetyData} {u : Unit} :
    verifyEpoch epoch d = .ok u ↔ epoch = d.epoch := by
  unfold verifyEpoch
  split <;> simp_all

@[simp] theorem verifyAndUpdateLastVoteRound_eq_ok_iff {round : Round} {d d' : SafetyData} :
    verifyAndUpdateLastVoteRound round d = .ok d' ↔
      d.lastVotedRound < round ∧ d' = { d with lastVotedRound := round } := by
  unfold verifyAndUpdateLastVoteRound
  split
  case isTrue h => simp only [reduceCtorEq, false_iff]; grind
  case isFalse h => simp only [Except.ok.injEq]; grind

/-- The vote data of a proposal is for the proposal's block. -/
theorem genVoteData_proposed {checks : Checks} {proposal : VoteProposal} {voteData : VoteData}
    (h : genVoteData checks proposal = .ok voteData) :
    voteData.proposed.round = proposal.block.round := by
  unfold genVoteData at h
  split at h
  · cases h
    rfl
  · obtain ⟨⟨root, version⟩, -, h⟩ := bind_eq_ok_iff.mp h
    cases h
    rfl

section Storage

variable (d : SafetyData)

theorem readSafetyData_spec :
    ⦃fun rules => ⌜rules.Holding d⌝⦄ withStorage PersistentSafetyStorage.safetyData
    ⦃post⟨fun r rules => ⌜r = d ∧ rules.Holding d⌝, fun _ _ => ⌜False⌝⟩⦄ :=
  withStorage_spec (PersistentSafetyStorage.safetyData_spec d)

theorem writeSafetyData_spec (outcome : WriteOutcome) (data : SafetyData) :
    ⦃fun rules => ⌜rules.Holding d⌝⦄ withStorage (PersistentSafetyStorage.setSafetyData outcome data)
    ⦃post⟨fun _ rules => ⌜rules.Holding data⌝, fun _ rules => ⌜rules.Holding d⌝⟩⦄ :=
  withStorage_spec (PersistentSafetyStorage.setSafetyData_spec d outcome data)

theorem readAuthor_spec :
    ⦃fun rules => ⌜rules.Holding d⌝⦄ withStorage PersistentSafetyStorage.author
    ⦃post⟨fun _ rules => ⌜rules.Holding d⌝, fun _ rules => ⌜rules.Holding d⌝⟩⦄ :=
  withStorage_spec (PersistentSafetyStorage.author_spec d)

end Storage

section Calls

variable (checks : Checks) (d : SafetyData)

theorem guardedSignTimeoutWithQc_spec (outcome : WriteOutcome) (timeout : TwoChainTimeout)
    (timeoutCert : Option TwoChainTimeoutCertificate) :
    ⦃fun rules => ⌜rules.Holding d⌝⦄ guardedSignTimeoutWithQc checks outcome timeout timeoutCert
    ⦃post⟨fun _ rules => ⌜timeout.epoch = d.epoch ∧ safeToTimeout timeout timeoutCert d = .ok () ∧
        d.lastVotedRound ≤ timeout.round ∧
        rules.Holding (if d.lastVotedRound < timeout.round then
          { d with lastVotedRound := timeout.round } else d)⌝,
      fun _ rules => ⌜rules.Holding d ∨ d.lastVotedRound < timeout.round ∧
        rules.Holding { d with lastVotedRound := timeout.round }⌝⟩⦄ := by
  have hread := readSafetyData_spec d
  have hwrite := writeSafetyData_spec d
  mvcgen [guardedSignTimeoutWithQc, signer, epochState, check, liftExcept, verifyTc, sign,
    hread, hwrite]
  all_goals (try simp_all)
  -- a timeout at the last voted round is signed with the data unchanged
  all_goals grind

theorem verifyProposal_spec (proposal : VoteProposal) :
    ⦃fun rules => ⌜rules.Holding d⌝⦄ verifyProposal checks proposal
    ⦃post⟨fun voteData rules => ⌜proposal.block.epoch = d.epoch ∧
        voteData.proposed.round = proposal.block.round ∧ rules.Holding d⌝,
      fun _ rules => ⌜rules.Holding d⌝⟩⦄ := by
  have hread := readSafetyData_spec d
  mvcgen [verifyProposal, verifyQc, epochState, check, liftExcept, hread]
  all_goals (try simp_all)
  exact genVoteData_proposed ‹_›

/-- A vote is handed out either from the stored data, or signed for a block above the last
voted round that is safe to vote for, and then only once it is stored. -/
theorem guardedConstructAndSignVoteTwoChain_spec (outcome : WriteOutcome)
    (voteProposal : VoteProposal) (timeoutCert : Option TwoChainTimeoutCertificate) :
    ⦃fun rules => ⌜rules.Holding d⌝⦄
      guardedConstructAndSignVoteTwoChain checks outcome voteProposal timeoutCert
    ⦃post⟨fun vote rules => ⌜voteProposal.block.epoch = d.epoch ∧
        vote.round = voteProposal.block.round ∧
        (d.lastVote = some vote ∧ rules.Holding d ∨
          d.lastVotedRound < voteProposal.block.round ∧
          safeToVote voteProposal.block timeoutCert = .ok () ∧
          rules.Holding (d.voted voteProposal.block.quorumCert voteProposal.block.round vote))⌝,
      fun _ rules => ⌜rules.Holding d⌝⟩⦄ := by
  have hread := readSafetyData_spec d
  have hwrite := writeSafetyData_spec d
  have hproposal := verifyProposal_spec checks d voteProposal
  mvcgen [guardedConstructAndSignVoteTwoChain, signer, check, liftExcept, verifyTc, epochState,
    sign, hread, hwrite, hproposal]
  all_goals simp_all +zetaDelta [SafetyData.voted, Vote.round, Vote.newWithSignature]

theorem guardedSignProposal_spec (blockData : BlockData) :
    ⦃fun rules => ⌜rules.Holding d⌝⦄ guardedSignProposal checks blockData
    ⦃post⟨fun _ rules => ⌜rules.Holding d⌝, fun _ rules => ⌜rules.Holding d⌝⟩⦄ := by
  have hread := readSafetyData_spec d
  mvcgen [guardedSignProposal, signer, verifyAuthor, check, liftExcept, verifyQc, epochState,
    sign, hread]
  all_goals simp_all

theorem guardedSignCommitVote_spec (ledgerInfo : LedgerInfoWithSignatures)
    (newLedgerInfo : LedgerInfo) :
    ⦃fun rules => ⌜rules.Holding d⌝⦄ guardedSignCommitVote checks ledgerInfo newLedgerInfo
    ⦃post⟨fun _ rules => ⌜rules.Holding d⌝, fun _ rules => ⌜rules.Holding d⌝⟩⦄ := by
  mvcgen [guardedSignCommitVote, signer, check, epochState, sign]

theorem reconcileKey_spec (author : AccountAddress) (epochState : EpochState) :
    ⦃fun rules => ⌜rules.Holding d⌝⦄ reconcileKey checks author epochState
    ⦃post⟨fun _ rules => ⌜rules.Holding d⌝, fun _ rules => ⌜rules.Holding d⌝⟩⦄ := by
  have hkey := fun version =>
    withStorage_spec (PersistentSafetyStorage.consensusKeyForVersion_spec d checks version)
  mvcgen [reconcileKey, hkey]

/-- `initialize` leaves the safety data as it was or starts a later epoch. -/
theorem guardedInitialize_spec (waypointOutcome safetyDataOutcome : WriteOutcome)
    (proof : EpochChangeProof) :
    ⦃fun rules => ⌜rules.Holding d⌝⦄
      guardedInitialize checks waypointOutcome safetyDataOutcome proof
    ⦃post⟨fun _ rules => ⌜∃ d', Bump d d' ∧ rules.Holding d'⌝,
      fun _ rules => ⌜∃ d', Bump d d' ∧ rules.Holding d'⌝⟩⦄ := by
  have hread := readSafetyData_spec d
  have hwrite := writeSafetyData_spec d
  have hwaypoint := withStorage_spec (PersistentSafetyStorage.waypoint_spec d)
  have hsetWaypoint := fun outcome waypoint =>
    withStorage_spec (PersistentSafetyStorage.setWaypoint_spec d outcome waypoint)
  -- after the write of a new epoch the store holds other data than `d`: the last two steps are
  -- specified for every data a bump can reach
  have hauthor := triple_exists_of_forall (Bump d) readAuthor_spec
  have hreconcile := fun author epochState =>
    triple_exists_of_forall (Bump d) fun d' => reconcileKey_spec checks d' author epochState
  mvcgen [guardedInitialize, check, hread, hwrite, hwaypoint, hsetWaypoint, hauthor, hreconcile]
  all_goals (try simp_all +zetaDelta [SafetyRules.Holding])
  -- the store holds `d` unless the new epoch was written
  all_goals grind [Bump.stay, Bump.newEpoch]

/-- What the answer of a call says about the safety data before it (`d`) and after it (`d'`): a
signed timeout is of the data's epoch, safe, and raises the last voted round to its own; a vote
is for a proposal of the data's epoch, and is either the stored vote or one just recorded; any
other call bumps the data at most. -/
def Answered : Call → SafetyData → SafetyData → Answer → Prop
  | .signTimeoutWithQc timeout timeoutCert _, d, d', _ =>
    timeout.epoch = d.epoch ∧ safeToTimeout timeout timeoutCert d = .ok () ∧
      d.lastVotedRound ≤ timeout.round ∧
      d' = if d.lastVotedRound < timeout.round then
        { d with lastVotedRound := timeout.round } else d
  | .constructAndSignVoteTwoChain proposal timeoutCert _, d, d', .vote vote =>
    proposal.block.epoch = d.epoch ∧ vote.round = proposal.block.round ∧
      (d.lastVote = some vote ∧ d' = d ∨
        d.lastVotedRound < proposal.block.round ∧ safeToVote proposal.block timeoutCert = .ok () ∧
        d' = d.voted proposal.block.quorumCert proposal.block.round vote)
  | _, d, d', _ => Bump d d'

/-- Every call, from a store that holds `d`: a success is as its answer says, and a failure bumps
the data at most. -/
theorem perform_spec (call : Call) :
    ⦃fun rules => ⌜rules.Holding d⌝⦄ call.perform checks
    ⦃post⟨fun answer rules => ⌜∃ d', rules.Holding d' ∧ Answered call d d' answer⌝,
      fun _ rules => ⌜∃ d', rules.Holding d' ∧ Bump d d'⌝⟩⦄ := by
  cases call with
  | init proof waypointOutcome safetyDataOutcome =>
    have h := guardedInitialize_spec checks d waypointOutcome safetyDataOutcome proof
    mvcgen [Call.perform, h]
    all_goals simp_all [Answered, SafetyRules.Holding]
    all_goals grind [Bump.stay, Bump.raise]
  | signProposal blockData =>
    have h := guardedSignProposal_spec checks d blockData
    mvcgen [Call.perform, h]
    all_goals simp_all [Answered, SafetyRules.Holding]
    all_goals grind [Bump.stay, Bump.raise]
  | signTimeoutWithQc timeout timeoutCert outcome =>
    have h := guardedSignTimeoutWithQc_spec checks d outcome timeout timeoutCert
    mvcgen [Call.perform, h]
    all_goals simp_all [Answered, SafetyRules.Holding]
    all_goals grind [Bump.stay, Bump.raise]
  | constructAndSignVoteTwoChain voteProposal timeoutCert outcome =>
    have h := guardedConstructAndSignVoteTwoChain_spec checks d outcome voteProposal timeoutCert
    mvcgen [Call.perform, h]
    all_goals simp_all [Answered, SafetyRules.Holding]
    all_goals grind [Bump.stay, Bump.raise]
  | signCommitVote ledgerInfo newLedgerInfo =>
    have h := guardedSignCommitVote_spec checks d ledgerInfo newLedgerInfo
    mvcgen [Call.perform, h]
    all_goals simp_all [Answered, SafetyRules.Holding]
    all_goals grind [Bump.stay, Bump.raise]
  | rebuild enableCachedSafetyData =>
    apply triple_of_run
    intro rules h
    dsimp only [Call.perform, EStateM.run]
    exact ⟨d, h.rebuild enableCachedSafetyData, .stay d⟩

end Calls

theorem Answered.advance {call : Call} {d d' : SafetyData} {answer : Answer}
    (h : Answered call d d' answer) : Advance d d' := by
  cases call with
  | signTimeoutWithQc timeout timeoutCert outcome =>
    obtain ⟨-, -, -, rfl⟩ := h
    split
    case isTrue hlt => exact .bump (.raise d _ hlt)
    case isFalse => exact .bump (.stay d)
  | constructAndSignVoteTwoChain proposal timeoutCert outcome =>
    cases answer with
    | vote vote =>
      obtain ⟨-, hround, ⟨-, rfl⟩ | ⟨hlt, -, rfl⟩⟩ := h
      · exact .bump (.stay _)
      · exact .vote _ _ _ vote hlt hround
    | done => exact .bump h
    | signature _ => exact .bump h
  | init => exact .bump h
  | signProposal => exact .bump h
  | signCommitVote => exact .bump h
  | rebuild => exact .bump h

end Hemvm.Consensus
