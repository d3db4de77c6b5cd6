import Hemvm.Consensus.Safety

/-! What a validator signs over any sequence of calls of its safety rules, with any write of the
store failing or not, the cache on or off, and the safety rules rebuilt over the same store
between calls.

A run is the list of its steps (`steps`), each starting where the one before it ended. By the
call specs every step moves the stored safety data by `Advance`; so from one point of a run to a
later one the data is `Advance`d any number of times, and what `Advance` keeps (`Mono`, `Sane`,
`Locked`) holds from point to point. A vote stored at some point was handed out, fresh, by an
earlier step: the first step that hands out a vote signs it for a block that is safe to vote
for, above every round the data had voted or timed out in. -/
namespace Hemvm.Consensus
open Control Relation

variable {checks : Checks}

/-- What a step does to the safety data, by its answer. -/
def Step.Moves (st : Step) (d d' : SafetyData) : Prop :=
  match st.answer with
  | .ok answer => Answered st.call d d' answer
  | .error _ => Bump d d'

/-- The step hands out `vote` for a proposal of epoch `epoch` at `round`. -/
def Step.VotesFor (st : Step) (epoch : UInt64) (round : Round) (vote : Vote) : Prop :=
  ∃ proposal timeoutCert outcome,
    st.call = .constructAndSignVoteTwoChain proposal timeoutCert outcome ∧
      proposal.block.epoch = epoch ∧ proposal.block.round = round ∧ st.answer = .ok (.vote vote)

/-- The step signs a timeout of epoch `epoch` at `round`. -/
def Step.SignsTimeout (st : Step) (epoch : UInt64) (round : Round) : Prop :=
  ∃ timeout timeoutCert outcome signature,
    st.call = .signTimeoutWithQc timeout timeoutCert outcome ∧ timeout.epoch = epoch ∧
      timeout.round = round ∧ st.answer = .ok (.signature signature)

/-- From a state whose store holds `d`, the store holds data that `Advance` reaches from `d`. -/
def Reaches (rules rules' : SafetyRules) : Prop :=
  ∀ d, rules.Holding d → ∃ d', rules'.Holding d' ∧ ReflTransGen Advance d d'

theorem SafetyRules.Holding.inj {rules : SafetyRules} {d d' : SafetyData} (h : rules.Holding d)
    (h' : rules.Holding d') : d = d' :=
  Option.some.inj (h.2.symm.trans h'.2)

section Steps

/-- A run of calls starts with the step of its first call, from the run's initial state. -/
theorem steps_cons (rules : SafetyRules) (call : Call) (calls : List Call) :
    ∃ st, steps checks rules (call :: calls) = st :: steps checks st.after calls ∧
      st.call = call ∧ st.before = rules ∧
      Holds (fun a s => st.answer = .ok a ∧ st.after = s)
        (fun e s => st.answer = .error e ∧ st.after = s) ((call.perform checks).run rules) := by
  cases h : (call.perform checks).run rules with
  | ok answer after =>
    exact ⟨⟨call, rules, .ok answer, after⟩, by simp only [steps, h], rfl, rfl, ⟨rfl, rfl⟩⟩
  | error e after =>
    exact ⟨⟨call, rules, .error e, after⟩, by simp only [steps, h], rfl, rfl, ⟨rfl, rfl⟩⟩

theorem before_of_getElem?_zero {rules : SafetyRules} {calls : List Call} {st : Step}
    (h : (steps checks rules calls)[0]? = some st) : st.before = rules := by
  cases calls with
  | nil => cases h
  | cons call calls =>
    obtain ⟨st₀, hsteps, -, hbefore, -⟩ := @steps_cons checks rules call calls
    rw [hsteps] at h
    cases h
    exact hbefore

theorem linked_steps (rules : SafetyRules) (calls : List Call) :
    Linked Step.before Step.after (steps checks rules calls) := by
  induction calls generalizing rules with
  | nil => intro k a b ha; cases ha
  | cons call calls ih =>
    obtain ⟨st₀, hsteps, -, -, -⟩ := @steps_cons checks rules call calls
    rw [hsteps]
    intro k a b ha hb
    cases k with
    | zero =>
      -- the second step starts where the first ends
      cases ha
      exact before_of_getElem?_zero hb
    | succ k => exact ih st₀.after k a b ha hb

/-- Every step of a run is a performance of its call. -/
theorem holds_of_mem_steps {rules : SafetyRules} {calls : List Call} {st : Step}
    (h : st ∈ steps checks rules calls) :
    Holds (fun a s => st.answer = .ok a ∧ st.after = s)
      (fun e s => st.answer = .error e ∧ st.after = s) ((st.call.perform checks).run st.before) := by
  induction calls generalizing rules with
  | nil => cases h
  | cons call calls ih =>
    obtain ⟨st₀, hsteps, hcall, hbefore, hholds⟩ := @steps_cons checks rules call calls
    rw [hsteps] at h
    rcases List.mem_cons.mp h with rfl | h
    · rw [hcall, hbefore]
      exact hholds
    · exact ih h

/-- The step lemma: from a store that holds `d`, a step of a run moves it as its answer says. -/
theorem Step.exists_moves {rules : SafetyRules} {calls : List Call} {st : Step}
    (h : st ∈ steps checks rules calls) {d : SafetyData} (hd : st.before.Holding d) :
    ∃ d', st.after.Holding d' ∧ st.Moves d d' := by
  have hspec := run_of_triple (perform_spec checks d st.call) hd
  have hstep := holds_of_mem_steps h
  revert hspec hstep
  cases (st.call.perform checks).run st.before with
  | ok answer after =>
    rintro ⟨d', hd', hanswer⟩ ⟨hok, rfl⟩
    refine ⟨d', hd', ?_⟩
    rw [Step.Moves, hok]
    exact hanswer
  | error e after =>
    rintro ⟨d', hd', hbump⟩ ⟨herror, rfl⟩
    refine ⟨d', hd', ?_⟩
    rw [Step.Moves, herror]
    exact hbump

theorem Step.Moves.advance {st : Step} {d d' : SafetyData} (h : st.Moves d d') : Advance d d' := by
  unfold Step.Moves at h
  split at h
  case h_1 => exact h.advance
  case h_2 => exact .bump h

end Steps

section Reaching

theorem Reaches.refl (rules : SafetyRules) : Reaches rules rules :=
  fun d hd => ⟨d, hd, .refl⟩

theorem Reaches.trans {r₁ r₂ r₃ : SafetyRules} (h₁ : Reaches r₁ r₂) (h₂ : Reaches r₂ r₃) :
    Reaches r₁ r₃ := by
  intro d hd
  obtain ⟨d₂, hd₂, hadv₂⟩ := h₁ d hd
  obtain ⟨d₃, hd₃, hadv₃⟩ := h₂ d₂ hd₂
  exact ⟨d₃, hd₃, hadv₂.trans hadv₃⟩

theorem reaches_of_reflTransGen {r r' : SafetyRules} (h : ReflTransGen Reaches r r') :
    Reaches r r' := by
  induction h with
  | refl => exact Reaches.refl _
  | tail _ hstep ih => exact ih.trans hstep

theorem reaches_of_mem_steps {rules : SafetyRules} {calls : List Call} {st : Step}
    (h : st ∈ steps checks rules calls) : Reaches st.before st.after := by
  intro d hd
  obtain ⟨d', hd', hmoves⟩ := Step.exists_moves h hd
  exact ⟨d', hd', .single hmoves.advance⟩

variable {rules : SafetyRules} {calls : List Call} {i j : Nat} {a b : Step}

/-- From the start of a step of a run to the start of a later one. -/
theorem reaches_before (hij : i ≤ j) (ha : (steps checks rules calls)[i]? = some a)
    (hb : (steps checks rules calls)[j]? = some b) : Reaches a.before b.before :=
  reaches_of_reflTransGen <|
    (linked_steps rules calls).reflTransGen_before (fun _ hx => reaches_of_mem_steps hx) hij ha hb

/-- From the end of a step of a run to the start of a later one. -/
theorem reaches_after_before (hij : i < j) (ha : (steps checks rules calls)[i]? = some a)
    (hb : (steps checks rules calls)[j]? = some b) : Reaches a.after b.before :=
  reaches_of_reflTransGen <|
    (linked_steps rules calls).reflTransGen_after_before (fun _ hx => reaches_of_mem_steps hx)
      hij ha hb

/-- Every step of a run starts from data that `Advance` reaches from the initial data. -/
theorem exists_holding_before {d₀ : SafetyData} (h₀ : rules.Holding d₀)
    (hj : (steps checks rules calls)[j]? = some b) :
    ∃ d, b.before.Holding d ∧ ReflTransGen Advance d₀ d := by
  obtain ⟨a, ha⟩ : ∃ a, (steps checks rules calls)[0]? = some a := by
    have hlen : 0 < (steps checks rules calls).length := by
      have := (List.getElem?_eq_some_iff.mp hj).1
      omega
    exact ⟨_, List.getElem?_eq_getElem hlen⟩
  have hreach := reaches_before (Nat.zero_le j) ha hj
  rw [before_of_getElem?_zero ha] at hreach
  exact hreach d₀ h₀

end Reaching

section StepFacts

variable {st : Step} {d d' : SafetyData}

/-- A vote call that hands out `vote`: its proposal is of the data's epoch, and the vote is the
stored one, or one just recorded for a block above the last voted round that is safe to vote
for. -/
theorem Step.Moves.of_vote {proposal : VoteProposal} {timeoutCert : Option TwoChainTimeoutCertificate}
    {outcome : WriteOutcome} {vote : Vote}
    (hcall : st.call = .constructAndSignVoteTwoChain proposal timeoutCert outcome)
    (hanswer : st.answer = .ok (.vote vote)) (hm : st.Moves d d') :
    proposal.block.epoch = d.epoch ∧ vote.round = proposal.block.round ∧
      (d.lastVote = some vote ∧ d' = d ∨
        d.lastVotedRound < proposal.block.round ∧ safeToVote proposal.block timeoutCert = .ok () ∧
        d' = d.voted proposal.block.quorumCert proposal.block.round vote) := by
  rw [Step.Moves, hanswer, hcall] at hm
  exact hm

/-- A timeout call that signs: it is of the data's epoch, safe, and not below the last voted
round, which it raises to its own. -/
theorem Step.Moves.of_timeout {timeout : TwoChainTimeout}
    {timeoutCert : Option TwoChainTimeoutCertificate} {outcome : WriteOutcome} {answer : Answer}
    (hcall : st.call = .signTimeoutWithQc timeout timeoutCert outcome)
    (hanswer : st.answer = .ok answer) (hm : st.Moves d d') :
    timeout.epoch = d.epoch ∧ safeToTimeout timeout timeoutCert d = .ok () ∧
      d.lastVotedRound ≤ timeout.round ∧
      d' = if d.lastVotedRound < timeout.round then
        { d with lastVotedRound := timeout.round } else d := by
  rw [Step.Moves, hanswer, hcall] at hm
  exact hm

theorem Step.SignsTimeout.after {epoch : UInt64} {round : Round} (ht : st.SignsTimeout epoch round)
    (hm : st.Moves d d') : d.epoch = epoch ∧ d'.epoch = epoch ∧ round ≤ d'.lastVotedRound := by
  obtain ⟨timeout, timeoutCert, outcome, signature, hcall, rfl, rfl, hanswer⟩ := ht
  obtain ⟨hepoch, -, hle, rfl⟩ := hm.of_timeout hcall hanswer
  split
  case isTrue => exact ⟨hepoch.symm, hepoch.symm, by grind⟩
  case isFalse => exact ⟨hepoch.symm, hepoch.symm, by grind⟩

/-- After a vote is handed out it is locked in its epoch. -/
theorem Step.VotesFor.locked {epoch : UInt64} {round : Round} {vote : Vote}
    (hv : st.VotesFor epoch round vote) (hm : st.Moves d d') (hd : d.Sane) :
    vote.round = round ∧ Locked epoch vote d' := by
  obtain ⟨proposal, timeoutCert, outcome, hcall, rfl, rfl, hanswer⟩ := hv
  obtain ⟨hepoch, hround, ⟨hstored, rfl⟩ | ⟨-, -, rfl⟩⟩ := hm.of_vote hcall hanswer
  · exact ⟨hround, hepoch ▸ locked_of_lastVote hd hstored⟩
  · rw [hepoch, ← hround]
    exact ⟨rfl, locked_voted d _ vote⟩

/-- While a vote is locked, a vote handed out for its round and epoch is that vote. -/
theorem Step.VotesFor.eq_of_locked {epoch : UInt64} {vote vote' : Vote} (hl : Locked epoch vote d)
    (hv : st.VotesFor epoch vote.round vote') (hm : st.Moves d d') : vote' = vote := by
  obtain ⟨proposal, timeoutCert, outcome, hcall, hepoch, hround, hanswer⟩ := hv
  obtain ⟨hepoch', hround', ⟨hstored, -⟩ | ⟨hlt, -⟩⟩ := hm.of_vote hcall hanswer
  · exact (hl.locked (hepoch'.symm.trans hepoch)).2 vote' hstored (hround'.trans hround)
  · -- a fresh vote would be above the locked round, which the last voted round has reached
    have hle := (hl.locked (hepoch'.symm.trans hepoch)).1
    exact absurd hlt (by grind)

/-- A stored vote after a step was stored before it, or the step handed it out fresh. -/
theorem Step.Moves.lastVote {vote : Vote} (hm : st.Moves d d') (hv : d'.lastVote = some vote) :
    d'.epoch = d.epoch ∧
      (d.lastVote = some vote ∨ st.VotesFor d.epoch vote.round vote ∧ d.lastVotedRound < vote.round) := by
  unfold Step.Moves at hm
  split at hm
  case h_2 =>
    obtain ⟨hepoch, hstored⟩ := hm.lastVote hv
    exact ⟨hepoch, .inl hstored⟩
  case h_1 answer hanswer =>
    -- only a vote call stores a vote that was not stored
    cases hcall : st.call with
    | signTimeoutWithQc timeout timeoutCert outcome =>
      rw [hcall] at hm
      obtain ⟨-, -, -, rfl⟩ := hm
      refine ⟨by split <;> rfl, .inl ?_⟩
      split at hv <;> exact hv
    | constructAndSignVoteTwoChain proposal timeoutCert outcome =>
      rw [hcall] at hm
      cases answer with
      | vote vote' =>
        obtain ⟨hepoch, hround, ⟨-, rfl⟩ | ⟨hlt, -, rfl⟩⟩ := hm
        · exact ⟨rfl, .inl hv⟩
        · obtain rfl : vote' = vote := Option.some.inj hv
          refine ⟨voted_epoch _ _ _ _, .inr ⟨?_, ?_⟩⟩
          · exact ⟨proposal, timeoutCert, outcome, hcall, hepoch, hround.symm, hanswer⟩
          · rw [hround]
            exact hlt
      | done =>
        obtain ⟨hepoch, hstored⟩ := Bump.lastVote hm hv
        exact ⟨hepoch, .inl hstored⟩
      | signature _ =>
        obtain ⟨hepoch, hstored⟩ := Bump.lastVote hm hv
        exact ⟨hepoch, .inl hstored⟩
    | _ =>
      rw [hcall] at hm
      obtain ⟨hepoch, hstored⟩ := hm.lastVote hv
      exact ⟨hepoch, .inl hstored⟩

end StepFacts

/-- The store holds `vote` as the last vote, in epoch `epoch`. -/
def StoresVote (epoch : UInt64) (vote : Vote) (rules : SafetyRules) : Prop :=
  ∃ d, rules.Holding d ∧ d.lastVote = some vote ∧ d.epoch = epoch

/-- The step hands out `vote` fresh: for a proposal of epoch `epoch`, above the last voted round
of the data it starts from. -/
def Step.VotesFresh (st : Step) (epoch : UInt64) (vote : Vote) : Prop :=
  st.VotesFor epoch vote.round vote ∧
    ∃ d, st.before.Holding d ∧ d.epoch = epoch ∧ d.lastVotedRound < vote.round

section Trace

variable {rules : SafetyRules} {calls : List Call} {d₀ : SafetyData}

/-- A step that ends with a stored vote started with it, or handed it out fresh. -/
theorem storesVote_before_or_fresh (h₀ : rules.Holding d₀) {x : Step}
    (hx : x ∈ steps checks rules calls) {epoch : UInt64} {vote : Vote}
    (hs : StoresVote epoch vote x.after) :
    StoresVote epoch vote x.before ∨ x.VotesFresh epoch vote := by
  obtain ⟨i, hi⟩ := List.mem_iff_getElem?.mp hx
  obtain ⟨dx, hdx, -⟩ := exists_holding_before h₀ hi
  obtain ⟨dx', hdx', hm⟩ := Step.exists_moves hx hdx
  obtain ⟨d, hd, hvote, rfl⟩ := hs
  obtain rfl := hd.inj hdx'
  obtain ⟨hepoch, hstored | ⟨hfor, hlt⟩⟩ := hm.lastVote hvote
  · exact .inl ⟨dx, hdx, hstored, hepoch.symm⟩
  · exact .inr ⟨hepoch ▸ hfor, dx, hdx, hepoch.symm, hlt⟩

/-- The history lemma: a vote stored at the start of a step, in a run from data with no vote,
was handed out fresh by an earlier step. -/
theorem exists_votesFresh_of_storesVote (h₀ : rules.Holding d₀) (hnone : d₀.lastVote = none)
    {j : Nat} {b : Step} (hb : (steps checks rules calls)[j]? = some b) {epoch : UInt64}
    {vote : Vote} (hs : StoresVote epoch vote b.before) :
    ∃ k < j, ∃ x, (steps checks rules calls)[k]? = some x ∧ x.VotesFresh epoch vote := by
  refine (linked_steps rules calls).exists_event_of_before
    (fun x hx => storesVote_before_or_fresh h₀ hx) (fun a ha => ?_) hb hs
  -- the run starts with no stored vote
  rintro ⟨d, hd, hvote, -⟩
  rw [before_of_getElem?_zero ha] at hd
  rw [hd.inj h₀, hnone] at hvote
  cases hvote

variable {i j : Nat} {a b : Step}

/-- Two votes handed out for one epoch and round, one after the other, are the same vote. -/
theorem eq_of_votesFor_of_lt (h₀ : rules.Holding d₀) (hs₀ : d₀.Sane) (hij : i < j)
    (ha : (steps checks rules calls)[i]? = some a) (hb : (steps checks rules calls)[j]? = some b)
    {epoch : UInt64} {round : Round} {vote vote' : Vote} (hv : a.VotesFor epoch round vote)
    (hv' : b.VotesFor epoch round vote') : vote' = vote := by
  obtain ⟨da, hda, hreach⟩ := exists_holding_before h₀ ha
  obtain ⟨da', hda', hma⟩ := Step.exists_moves (List.mem_of_getElem? ha) hda
  obtain ⟨hround, hlocked⟩ := hv.locked hma (sane_of_reflTransGen hreach hs₀)
  obtain ⟨db, hdb, hadv⟩ := reaches_after_before hij ha hb da' hda'
  obtain ⟨_, -, hmb⟩ := Step.exists_moves (List.mem_of_getElem? hb) hdb
  rw [← hround] at hv'
  exact hv'.eq_of_locked (locked_of_reflTransGen hadv hlocked) hmb

/-- After a timeout is signed, every step of its epoch starts at or above the timeout's round. -/
theorem le_lastVotedRound_of_signsTimeout (h₀ : rules.Holding d₀) (hij : i < j)
    (ha : (steps checks rules calls)[i]? = some a) (hb : (steps checks rules calls)[j]? = some b)
    {epoch : UInt64} {round : Round} (ht : a.SignsTimeout epoch round) {d : SafetyData}
    (hd : b.before.Holding d) (hepoch : d.epoch = epoch) : round ≤ d.lastVotedRound := by
  obtain ⟨da, hda, -⟩ := exists_holding_before h₀ ha
  obtain ⟨da', hda', hma⟩ := Step.exists_moves (List.mem_of_getElem? ha) hda
  obtain ⟨-, hepoch', hraised⟩ := ht.after hma
  obtain ⟨d', hd', hadv⟩ := reaches_after_before hij ha hb da' hda'
  obtain rfl := hd.inj hd'
  have hle := ((mono_of_reflTransGen hadv).rounds_le (hepoch'.trans hepoch.symm)).1
  grind

/-- A vote handed out after a timeout of its epoch at its round or above was handed out before
the timeout. -/
theorem exists_votesFor_before_signsTimeout (h₀ : rules.Holding d₀) (hnone : d₀.lastVote = none)
    (hij : i < j) (ha : (steps checks rules calls)[i]? = some a)
    (hb : (steps checks rules calls)[j]? = some b) {epoch : UInt64} {timeoutRound round : Round}
    {vote : Vote} (ht : a.SignsTimeout epoch timeoutRound) (hv : b.VotesFor epoch round vote)
    (hle : round ≤ timeoutRound) :
    ∃ k < i, ∃ x, (steps checks rules calls)[k]? = some x ∧ x.VotesFor epoch round vote := by
  obtain ⟨db, hdb, -⟩ := exists_holding_before h₀ hb
  obtain ⟨db', -, hmb⟩ := Step.exists_moves (List.mem_of_getElem? hb) hdb
  obtain ⟨proposal, timeoutCert, outcome, hcall, hpe, hpr, hanswer⟩ := hv
  obtain ⟨hepoch, hround, ⟨hstored, -⟩ | ⟨hlt, -⟩⟩ := hmb.of_vote hcall hanswer
  case inr =>
    -- a fresh vote now would be above the last voted round, which the timeout raised
    have := le_lastVotedRound_of_signsTimeout h₀ hij ha hb ht hdb (hepoch.symm.trans hpe)
    grind
  case inl =>
    -- the stored vote was handed out fresh by an earlier step
    obtain ⟨k, -, x, hx, hfor, dx, hdx, hdxe, hdxlt⟩ :=
      exists_votesFresh_of_storesVote h₀ hnone hb ⟨db, hdb, hstored, hepoch.symm.trans hpe⟩
    refine ⟨k, ?_, x, hx, by rw [← hpr, ← hround]; exact hfor⟩
    rcases Nat.lt_trichotomy k i with hki | rfl | hik
    · exact hki
    · -- the timeout step hands out a signature, not a vote
      obtain rfl : x = a := Option.some.inj (hx.symm.trans ha)
      obtain ⟨_, _, _, _, -, -, -, hsig⟩ := ht
      obtain ⟨_, _, _, -, -, -, hvote⟩ := hfor
      rw [hsig] at hvote
      cases hvote
    · -- after the timeout a fresh vote of its epoch is above its round
      have := le_lastVotedRound_of_signsTimeout h₀ hik ha hx ht hdx hdxe
      grind

/-- From the start of a step to the end of any later one, the persisted data is `Mono`. -/
theorem mono_of_le (h₀ : rules.Holding d₀) (hij : i ≤ j)
    (ha : (steps checks rules calls)[i]? = some a) (hb : (steps checks rules calls)[j]? = some b) :
    ∃ d d', a.before.Holding d ∧ b.after.Holding d' ∧ Mono d d' := by
  obtain ⟨da, hda, -⟩ := exists_holding_before h₀ ha
  obtain ⟨db, hdb, hadv⟩ := reaches_before hij ha hb da hda
  obtain ⟨db', hdb', hmb⟩ := Step.exists_moves (List.mem_of_getElem? hb) hdb
  exact ⟨da, db', hda, hdb', mono_of_reflTransGen (hadv.tail hmb.advance)⟩

/-- The first step that hands out a vote signs it for a block that is safe to vote for. -/
theorem exists_first_votesFor_safe (h₀ : rules.Holding d₀) (hnone : d₀.lastVote = none)
    (hb : (steps checks rules calls)[j]? = some b) {epoch : UInt64} {round : Round} {vote : Vote}
    (hv : b.VotesFor epoch round vote) :
    ∃ k ≤ j, ∃ x proposal timeoutCert outcome, (steps checks rules calls)[k]? = some x ∧
      x.call = .constructAndSignVoteTwoChain proposal timeoutCert outcome ∧
      x.answer = .ok (.vote vote) ∧ safeToVote proposal.block timeoutCert = .ok () ∧
      ∀ l < k, ∀ y, (steps checks rules calls)[l]? = some y →
        ∀ epoch' round', ¬ y.VotesFor epoch' round' vote := by
  classical
  have hex : ∃ k, ∃ (x : Step) (epoch' : UInt64) (round' : Round),
      (steps checks rules calls)[k]? = some x ∧ x.VotesFor epoch' round' vote :=
    ⟨j, b, epoch, round, hb, hv⟩
  have hmin : ∀ l < Nat.find hex, ∀ y, (steps checks rules calls)[l]? = some y →
      ∀ epoch' round', ¬ y.VotesFor epoch' round' vote :=
    fun l hl y hy epoch' round' hy' => Nat.find_min hex hl ⟨y, epoch', round', hy, hy'⟩
  refine ⟨Nat.find hex, Nat.find_min' hex ⟨b, epoch, round, hb, hv⟩, ?_⟩
  obtain ⟨x, epoch', round', hx, proposal, timeoutCert, outcome, hcall, -, -, hanswer⟩ :=
    Nat.find_spec hex
  obtain ⟨dx, hdx, -⟩ := exists_holding_before h₀ hx
  obtain ⟨_, -, hm⟩ := Step.exists_moves (List.mem_of_getElem? hx) hdx
  obtain ⟨-, -, ⟨hstored, -⟩ | ⟨-, hsafe, -⟩⟩ := hm.of_vote hcall hanswer
  · -- a vote handed out from the store was handed out before, against the choice of the first
    obtain ⟨k, hk, y, hy, hfresh⟩ :=
      exists_votesFresh_of_storesVote h₀ hnone hx ⟨dx, hdx, hstored, rfl⟩
    exact absurd hfresh.1 (hmin k hk y hy _ _)
  · exact ⟨x, proposal, timeoutCert, outcome, hx, hcall, hanswer, hsafe, hmin⟩

/-- A signed timeout is safe for the data of its call. -/
theorem safeToTimeout_of_signs (h₀ : rules.Holding d₀)
    (hb : (steps checks rules calls)[j]? = some b) {timeout : TwoChainTimeout}
    {timeoutCert : Option TwoChainTimeoutCertificate} {outcome : WriteOutcome} {answer : Answer}
    (hcall : b.call = .signTimeoutWithQc timeout timeoutCert outcome)
    (hanswer : b.answer = .ok answer) :
    ∃ d, b.before.Holding d ∧ safeToTimeout timeout timeoutCert d = .ok () := by
  obtain ⟨d, hd, -⟩ := exists_holding_before h₀ hb
  obtain ⟨_, -, hm⟩ := Step.exists_moves (List.mem_of_getElem? hb) hd
  exact ⟨d, hd, (hm.of_timeout hcall hanswer).2.1⟩

end Trace

/-- Initialized safety rules hold the safety data of epoch 1, cached or not. -/
theorem holding_fresh {internalStore : Storage} {author : AccountAddress}
    {consensusPrivateKey : PrivateKey} {waypoint : Waypoint} {enableCachedSafetyData : Bool}
    {safetyDataOutcome waypointOutcome : WriteOutcome} {storage : PersistentSafetyStorage}
    (h : PersistentSafetyStorage.fresh internalStore author consensusPrivateKey waypoint
      enableCachedSafetyData safetyDataOutcome waypointOutcome = .ok storage) :
    (SafetyRules.new storage).Holding ⟨1, 0, 0, 0, none⟩ := by
  unfold PersistentSafetyStorage.fresh at h
  -- both writes must succeed for `initialize` to return
  cases safetyDataOutcome <;> cases waypointOutcome <;>
    simp [PersistentSafetyStorage.setSafetyData, PersistentSafetyStorage.setWaypoint,
      EStateM.run, SeqRight.seqRight, EStateM.seqRight, bind, EStateM.bind, get, getThe,
      MonadStateOf.get, EStateM.get, set, EStateM.set, throw, throwThe, MonadExceptOf.throw,
      EStateM.throw] at h
  subst h
  refine And.intro ?_ rfl
  intro c hc
  exact (Option.some.inj hc).symm

/-- What a validator signs over a run of its safety rules. -/
structure NoEquivocation (tr : List Step) : Prop where
  /-- Two votes handed out for proposals of one epoch at one round are the same vote. -/
  vote_eq : ∀ {i j : Nat} {a b : Step} {epoch : UInt64} {round : Round} {vote vote' : Vote},
    tr[i]? = some a → tr[j]? = some b → a.VotesFor epoch round vote →
      b.VotesFor epoch round vote' → vote = vote'
  /-- A vote handed out after a timeout of its epoch at its round or above was handed out
  before the timeout. -/
  voted_before_timeout : ∀ {i j : Nat} {a b : Step} {epoch : UInt64} {timeoutRound round : Round}
    {vote : Vote}, i < j → tr[i]? = some a → tr[j]? = some b →
      a.SignsTimeout epoch timeoutRound → b.VotesFor epoch round vote → round ≤ timeoutRound →
      ∃ k < i, ∃ x, tr[k]? = some x ∧ x.VotesFor epoch round vote
  /-- The persisted epoch never decreases, nor within an epoch the three rounds. -/
  mono : ∀ {i j : Nat} {a b : Step}, i ≤ j → tr[i]? = some a → tr[j]? = some b →
    ∃ d d', a.before.stored = some d ∧ b.after.stored = some d' ∧ Mono d d'
  /-- The first step that hands out a vote signs it for a block that is safe to vote for with
  the timeout certificate of that call. -/
  first_vote_safe : ∀ {j : Nat} {b : Step} {epoch : UInt64} {round : Round} {vote : Vote},
    tr[j]? = some b → b.VotesFor epoch round vote →
      ∃ k ≤ j, ∃ x proposal timeoutCert outcome, tr[k]? = some x ∧
        x.call = .constructAndSignVoteTwoChain proposal timeoutCert outcome ∧
        x.answer = .ok (.vote vote) ∧ safeToVote proposal.block timeoutCert = .ok () ∧
        ∀ l < k, ∀ y, tr[l]? = some y → ∀ epoch' round', ¬ y.VotesFor epoch' round' vote
  /-- A signed timeout is safe for the persisted data of its call. -/
  timeout_safe : ∀ {j : Nat} {b : Step} {timeout : TwoChainTimeout}
    {timeoutCert : Option TwoChainTimeoutCertificate} {outcome : WriteOutcome} {answer : Answer},
    tr[j]? = some b → b.call = .signTimeoutWithQc timeout timeoutCert outcome →
      b.answer = .ok answer →
      ∃ d, b.before.stored = some d ∧ safeToTimeout timeout timeoutCert d = .ok ()

/-- A validator's safety rules, initialized and then called in any sequence, never equivocate. -/
theorem safetyRules_noEquivocation {internalStore : Storage} {author : AccountAddress}
    {consensusPrivateKey : PrivateKey} {waypoint : Waypoint} {enableCachedSafetyData : Bool}
    {safetyDataOutcome waypointOutcome : WriteOutcome} {storage : PersistentSafetyStorage}
    (hfresh : PersistentSafetyStorage.fresh internalStore author consensusPrivateKey waypoint
      enableCachedSafetyData safetyDataOutcome waypointOutcome = .ok storage)
    (calls : List Call) :
    NoEquivocation (steps checks (SafetyRules.new storage) calls) := by
  have h₀ := holding_fresh hfresh
  have hs₀ : SafetyData.Sane ⟨1, 0, 0, 0, none⟩ := fun v hv => by cases hv
  constructor
  case vote_eq =>
    intro i j a b epoch round vote vote' ha hb hv hv'
    rcases Nat.lt_trichotomy i j with hij | rfl | hji
    · exact (eq_of_votesFor_of_lt h₀ hs₀ hij ha hb hv hv').symm
    · -- one step hands out one answer
      obtain rfl : a = b := Option.some.inj (ha.symm.trans hb)
      obtain ⟨_, _, _, -, -, -, hanswer⟩ := hv
      obtain ⟨_, _, _, -, -, -, hanswer'⟩ := hv'
      rw [hanswer] at hanswer'
      cases hanswer'
      rfl
    · exact eq_of_votesFor_of_lt h₀ hs₀ hji hb ha hv' hv
  case voted_before_timeout =>
    intro i j a b epoch timeoutRound round vote hij ha hb ht hv hle
    exact exists_votesFor_before_signsTimeout h₀ rfl hij ha hb ht hv hle
  case mono =>
    intro i j a b hij ha hb
    obtain ⟨d, d', hd, hd', hmono⟩ := mono_of_le h₀ hij ha hb
    exact ⟨d, d', hd.2, hd'.2, hmono⟩
  case first_vote_safe =>
    intro j b epoch round vote hb hv
    exact exists_first_votesFor_safe h₀ rfl hb hv
  case timeout_safe =>
    intro j b timeout timeoutCert outcome answer hb hcall hanswer
    obtain ⟨d, hd, hsafe⟩ := safeToTimeout_of_signs h₀ hb hcall hanswer
    exact ⟨d, hd.2, hsafe⟩

/-- Checks that accept every certificate and proposal, and sign with no bytes. -/
def acceptingChecks : Checks where
  verifyQc _ _ := .ok ()
  validateBlock _ _ := .ok ()
  verifyTcSignatures _ _ := .ok ()
  extendAccumulator _ root := .ok (root, 0)
  hashVoteData _ := zeroHash
  verifyEpochChangeProof _ _ := .error "no epoch change"
  newEpochBoundary _ := .error "no epoch change"
  verifySignatures _ _ := .ok ()
  publicKey key := key
  sign _ _ := .ok []
  addressToString _ := ""
  ledgerInfoToString _ := ""
  blockInfoToString _ := ""
  publicKeyDebug _ := ""

/-- An empty store initialized, with the cache on, and rebuilt with the cache off. -/
theorem noEquivocation_rebuilt :
    PersistentSafetyStorage.fresh ⟨none, none, none, none⟩ zeroHash [] ⟨0, zeroHash⟩ true none none =
        .ok ⟨true, some ⟨1, 0, 0, 0, none⟩,
          ⟨some ⟨1, 0, 0, 0, none⟩, some ⟨0, zeroHash⟩, some [], some zeroHash⟩⟩ ∧
      NoEquivocation (steps acceptingChecks (SafetyRules.new ⟨true, some ⟨1, 0, 0, 0, none⟩,
        ⟨some ⟨1, 0, 0, 0, none⟩, some ⟨0, zeroHash⟩, some [], some zeroHash⟩⟩) [.rebuild false]) := by
  have hfresh : PersistentSafetyStorage.fresh ⟨none, none, none, none⟩ zeroHash [] ⟨0, zeroHash⟩
      true none none = .ok ⟨true, some ⟨1, 0, 0, 0, none⟩,
        ⟨some ⟨1, 0, 0, 0, none⟩, some ⟨0, zeroHash⟩, some [], some zeroHash⟩⟩ := rfl
  exact ⟨hfresh, safetyRules_noEquivocation hfresh _⟩

end Hemvm.Consensus
