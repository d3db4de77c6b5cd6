import Mathlib.Logic.Relation
import Hemvm.Consensus.SafetyRules

/-! The persisted safety data as a state machine of its own. Every call of the safety rules
leaves the data as it was, raises the last voted round (a timeout), starts a later epoch with
fresh data (`initialize`), or records a new vote above the last voted round. Which of these a call
does is the subject of `Hemvm.Consensus.Safety`. Here are the facts every such move keeps: the
epoch and, within an epoch, the three rounds never decrease (`Mono`), a stored vote is not above
the last voted round (`Sane`), and once a vote is handed out for a round no other vote can be
stored for that round in its epoch (`Locked`). -/
namespace Hemvm.Consensus

/-- The safety data `guarded_construct_and_sign_vote_two_chain` persists after voting `v` at
`round` for a block whose certificate is `qc`. -/
def SafetyData.voted (d : SafetyData) (qc : QuorumCert) (round : Round) (v : Vote) :
    SafetyData :=
  { (observeQc qc { d with lastVotedRound := round }).2 with lastVote := some v }

/-- How a call that records no new vote may move the persisted data. -/
inductive Bump : SafetyData → SafetyData → Prop
  | stay (d : SafetyData) : Bump d d
  | raise (d : SafetyData) (round : Round) (h : d.lastVotedRound < round) :
      Bump d { d with lastVotedRound := round }
  | newEpoch (d : SafetyData) (epoch : UInt64) (h : d.epoch < epoch) :
      Bump d ⟨epoch, 0, 0, 0, none⟩

/-- Every move of the persisted data: a bump, or a vote above the last voted round. -/
inductive Advance : SafetyData → SafetyData → Prop
  | bump {d d' : SafetyData} (h : Bump d d') : Advance d d'
  | vote (d : SafetyData) (qc : QuorumCert) (round : Round) (v : Vote)
      (h : d.lastVotedRound < round) (hv : v.round = round) : Advance d (d.voted qc round v)

/-- The epoch does not decrease, and within one epoch neither do the three rounds. -/
structure Mono (d d' : SafetyData) : Prop where
  epoch_le : d.epoch ≤ d'.epoch
  rounds_le : d.epoch = d'.epoch → d.lastVotedRound ≤ d'.lastVotedRound ∧
    d.preferredRound ≤ d'.preferredRound ∧ d.oneChainRound ≤ d'.oneChainRound

/-- A stored vote is not above the last voted round. -/
def SafetyData.Sane (d : SafetyData) : Prop :=
  ∀ v, d.lastVote = some v → v.round ≤ d.lastVotedRound

/-- After `v` is handed out in epoch `e`: the epoch is `e` or later, and while it is `e` the last
voted round is at least `v`'s and the only vote that can be stored for `v`'s round is `v`. -/
structure Locked (e : UInt64) (v : Vote) (d : SafetyData) : Prop where
  epoch_ge : e ≤ d.epoch
  locked : d.epoch = e → v.round ≤ d.lastVotedRound ∧
    ∀ w, d.lastVote = some w → w.round = v.round → w = v

section ObserveQc

variable (qc : QuorumCert) (d : SafetyData)

@[simp] theorem observeQc_epoch : (observeQc qc d).2.epoch = d.epoch := by
  simp only [observeQc]
  split_ifs <;> rfl

@[simp] theorem observeQc_lastVotedRound :
    (observeQc qc d).2.lastVotedRound = d.lastVotedRound := by
  simp only [observeQc]
  split_ifs <;> rfl

theorem le_observeQc_preferredRound : d.preferredRound ≤ (observeQc qc d).2.preferredRound := by
  simp only [observeQc]
  split_ifs <;> grind

theorem le_observeQc_oneChainRound : d.oneChainRound ≤ (observeQc qc d).2.oneChainRound := by
  simp only [observeQc]
  split_ifs <;> grind

end ObserveQc

section Voted

variable (d : SafetyData) (qc : QuorumCert) (round : Round) (v : Vote)

@[simp] theorem voted_epoch : (d.voted qc round v).epoch = d.epoch :=
  observeQc_epoch qc _

@[simp] theorem voted_lastVotedRound : (d.voted qc round v).lastVotedRound = round :=
  observeQc_lastVotedRound qc _

@[simp] theorem voted_lastVote : (d.voted qc round v).lastVote = some v := rfl

theorem mono_voted (h : d.lastVotedRound < round) : Mono d (d.voted qc round v) := by
  refine ⟨by simp, fun _ => ⟨?_, ?_, ?_⟩⟩
  · simp only [voted_lastVotedRound]
    grind
  · exact le_observeQc_preferredRound qc { d with lastVotedRound := round }
  · exact le_observeQc_oneChainRound qc { d with lastVotedRound := round }

end Voted

namespace Mono

theorem refl (d : SafetyData) : Mono d d := ⟨by grind, fun _ => by grind⟩

theorem trans {d₁ d₂ d₃ : SafetyData} (h₁ : Mono d₁ d₂) (h₂ : Mono d₂ d₃) : Mono d₁ d₃ := by
  refine ⟨by grind [h₁.epoch_le, h₂.epoch_le], fun he => ?_⟩
  -- an epoch that is the same at both ends is the same in between
  have he₁ : d₁.epoch = d₂.epoch := by grind [h₁.epoch_le, h₂.epoch_le]
  have he₂ : d₂.epoch = d₃.epoch := he₁ ▸ he
  obtain ⟨l₁, p₁, o₁⟩ := h₁.rounds_le he₁
  obtain ⟨l₂, p₂, o₂⟩ := h₂.rounds_le he₂
  exact ⟨by grind, by grind, by grind⟩

end Mono

theorem Bump.mono {d d' : SafetyData} (h : Bump d d') : Mono d d' := by
  cases h with
  | stay => exact Mono.refl d
  | raise round h => exact ⟨by grind, fun _ => ⟨by grind, by grind, by grind⟩⟩
  | newEpoch epoch h => exact ⟨by grind, fun he => absurd he (by grind)⟩

theorem Advance.mono {d d' : SafetyData} (h : Advance d d') : Mono d d' := by
  cases h with
  | bump h => exact h.mono
  | vote qc round v h => exact mono_voted d qc round v h

theorem Bump.sane {d d' : SafetyData} (h : Bump d d') (hd : d.Sane) : d'.Sane := by
  cases h with
  | stay => exact hd
  | raise round h =>
    intro v hv
    have := hd v hv
    show v.round ≤ round
    grind
  | newEpoch epoch h => exact fun v hv => by cases hv

theorem Advance.sane {d d' : SafetyData} (h : Advance d d') (hd : d.Sane) : d'.Sane := by
  cases h with
  | bump h => exact h.sane hd
  | vote qc round v h hv =>
    intro w hw
    cases hw
    simp [hv]

/-- A bump never stores a vote that was not stored, nor keeps one into another epoch. -/
theorem Bump.lastVote {d d' : SafetyData} (h : Bump d d') {v : Vote}
    (hv : d'.lastVote = some v) : d'.epoch = d.epoch ∧ d.lastVote = some v := by
  cases h with
  | stay => exact ⟨rfl, hv⟩
  | raise => exact ⟨rfl, hv⟩
  | newEpoch => cases hv

theorem Bump.locked {d d' : SafetyData} (h : Bump d d') {e : UInt64} {v : Vote}
    (hl : Locked e v d) : Locked e v d' := by
  cases h with
  | stay => exact hl
  | raise round h =>
    refine ⟨hl.epoch_ge, fun he => ?_⟩
    obtain ⟨hr, hw⟩ := hl.locked he
    exact ⟨show v.round ≤ round by grind, hw⟩
  | newEpoch epoch h =>
    -- the new epoch is above `e`, so nothing is locked in it
    have := hl.epoch_ge
    exact ⟨show e ≤ epoch by grind, fun he => absurd he (show epoch ≠ e by grind)⟩

/-- A vote recorded while `v` is locked is for a higher round, so `v` stays the only vote of its
round. -/
theorem Advance.locked {d d' : SafetyData} (h : Advance d d') {e : UInt64} {v : Vote}
    (hl : Locked e v d) : Locked e v d' := by
  cases h with
  | bump h => exact h.locked hl
  | vote qc round w h hw =>
    refine ⟨by simpa using hl.epoch_ge, fun he => ?_⟩
    obtain ⟨hr, -⟩ := hl.locked (by simpa using he)
    refine ⟨by simp only [voted_lastVotedRound]; grind, fun w' hw' hround => ?_⟩
    cases hw'
    exact absurd hround (by grind)

/-- A vote handed out from the stored data is locked in it. -/
theorem locked_of_lastVote {d : SafetyData} (hd : d.Sane) {v : Vote}
    (hv : d.lastVote = some v) : Locked d.epoch v d :=
  ⟨by grind, fun _ => ⟨hd v hv, fun w hw _ => Option.some.inj (hw.symm.trans hv)⟩⟩

/-- A vote just recorded is locked in the data it is recorded in. -/
theorem locked_voted (d : SafetyData) (qc : QuorumCert) (v : Vote) :
    Locked d.epoch v (d.voted qc v.round v) :=
  ⟨by simp, fun _ => ⟨by simp, fun w hw _ => by cases hw; rfl⟩⟩

section Runs

open Relation

variable {d d' : SafetyData}

theorem mono_of_reflTransGen (h : ReflTransGen Advance d d') : Mono d d' := by
  induction h with
  | refl => exact Mono.refl d
  | tail _ hstep ih => exact ih.trans hstep.mono

theorem sane_of_reflTransGen (h : ReflTransGen Advance d d') (hd : d.Sane) : d'.Sane := by
  induction h with
  | refl => exact hd
  | tail _ hstep ih => exact hstep.sane ih

theorem locked_of_reflTransGen (h : ReflTransGen Advance d d') {e : UInt64} {v : Vote}
    (hl : Locked e v d) : Locked e v d' := by
  induction h with
  | refl => exact hl
  | tail _ hstep ih => exact hstep.locked ih

end Runs

end Hemvm.Consensus
