import Diem.BufferManager
import Diem.BufferSpec
import Diem.SymbolicCrypto

namespace Diem

open Fallible ValidatorVerifier OrderedMap List BufferItem
open Crypto (symbolic)

/-!
# The proofs that the pipeline commits with

A batch is persisted together with a ledger info and the signatures of a quorum.  The
signatures are those of a commit decision, which is verified as a whole, or they are
gathered from commit votes, each of which is verified on its own, for the ledger info
of the vote.

A batch that is not executed yet keeps the signatures of votes aside and checks them
when its ledger info is known.  An executed or signed batch adds the signature of a vote
whose commit info is its own.  A ledger info has a second part, the consensus data hash,
which is not compared.  The proofs are valid in every run in which the counted votes
agree on it, and a single validator that signs another one can make a proof invalid.
-/

variable (crypto : Crypto) (validator : ValidatorVerifier)

/-- Every signature verifies over the ledger info. -/
def LedgerInfoWithSignatures.SignaturesValid (proof : LedgerInfoWithSignatures) : Prop :=
  ∀ author signature, proof.signatures.get? author = some signature →
    validator.SignedBy crypto author (.ledgerInfo proof.ledgerInfo) signature

/-- The proof that an executed batch gathers signatures for. -/
def BufferItem.openProof : BufferItem → Option LedgerInfoWithSignatures
  | .executed item => some item.commitProof
  | .signed item => some item.commitProof
  | _ => none

/-- What the signatures that a batch holds are worth. -/
def BufferItem.ProofSound :
    BufferItem → Prop
  | .ordered _ => True
  | .executed item =>
    item.commitProof.commitInfo = item.commitInfo ∧
      item.commitProof.SignaturesValid crypto validator
  | .signed item => item.commitProof.SignaturesValid crypto validator
  | .aggregated item => item.commitProof.verifySignatures crypto validator = .ok ()

variable {crypto validator} {vote : CommitVote}
  {author : AccountAddress} {signature : Signature} {manager : BufferManager}
  {key : HashValue}

section Items

variable {proof : LedgerInfoWithSignatures}

theorem eq_ok_of_isOk {ε : Type} {result : Except ε Unit} (isOk : result.isOk = true) :
    result = .ok () := by
  cases result with
  | error failure => cases isOk
  | ok value => rfl

/-- A quorum of signers that are all known is not too large. -/
theorem ValidatorVerifier.checkNumOfSignatures_of_power
    {aggregated : OrderedMap AccountAddress Signature}
    (power : validator.checkVotingPower aggregated.keys = .ok ()) :
    validator.checkNumOfSignatures aggregated = .ok () := by
  have known := (checkVotingPower_ok_iff.mp power).1
  have short : aggregated.size ≤ validator.len := by
    rw [← length_keys, len, ← length_keys]
    exact (subperm_of_subset aggregated.keys_nodup known).length_le
  rw [checkNumOfSignatures, if_neg (by omega)]

namespace LedgerInfoWithSignatures

/-- Valid signatures with the power of a quorum verify. -/
theorem SignaturesValid.verifySignatures (valid : proof.SignaturesValid crypto validator)
    (power : (proof.checkVotingPower validator).isOk = true) :
    proof.verifySignatures crypto validator = .ok () := by
  have passed : validator.checkVotingPower proof.signatures.keys = .ok () := eq_ok_of_isOk power
  exact batchVerifyAggregatedSignatures_of_signed
    (checkNumOfSignatures_of_power passed) passed valid

/-- Adding a signature over the same ledger info. -/
theorem SignaturesValid.addSignature (valid : proof.SignaturesValid crypto validator)
    (signed : validator.SignedBy crypto author (.ledgerInfo proof.ledgerInfo) signature) :
    (proof.addSignature author signature).SignaturesValid crypto validator := by
  intro other found lookup
  rcases get?_orInsert_cases lookup with before | ⟨rfl, rfl⟩
  · exact valid other found before
  · exact signed

end LedgerInfoWithSignatures

/-- The signatures that were kept aside are valid once they are filtered. -/
theorem aggregateLedgerInfo_signaturesValid {info : LedgerInfo}
    {signatures : OrderedMap AccountAddress Signature} :
    (aggregateLedgerInfo crypto info signatures validator).SignaturesValid
      crypto validator := by
  intro author signature lookup
  obtain ⟨-, kept⟩ := get?_filter_eq_some_iff.mp lookup
  exact verify_ok_iff.mp (eq_ok_of_isOk kept)

namespace BufferItem

/-- What a vote must agree with to be counted rightly. -/
def VoteFits (vote : CommitVote) (item : BufferItem) : Prop :=
  ∀ proof, item.openProof = some proof → proof.commitInfo = vote.commitInfo →
    proof.ledgerInfo.consensusDataHash = vote.ledgerInfo.consensusDataHash

variable {item advanced : BufferItem}

theorem advanceToExecutedOrAggregated_proofSound {executedBlocks : List ExecutedBlock}
    (returned : item.advanceToExecutedOrAggregated crypto executedBlocks validator = .ok advanced) :
    advanced.ProofSound crypto validator := by
  cases item with
  | ordered item =>
    simp only [advanceToExecutedOrAggregated, bind_eq_ok_iff] at returned
    obtain ⟨-, -, commitInfo, -, same⟩ := returned
    cases same
    split
    · rename_i power
      exact aggregateLedgerInfo_signaturesValid.verifySignatures power
    · exact ⟨rfl, aggregateLedgerInfo_signaturesValid⟩
  | executed item | signed item | aggregated item => cases returned

theorem advanceToSigned_proofSound (sound : item.ProofSound crypto validator)
    (returned : item.advanceToSigned author signature = .ok advanced) :
    advanced.ProofSound crypto validator := by
  cases item with
  | executed item =>
    cases returned
    exact sound.2
  | ordered item | signed item | aggregated item => cases returned

theorem tryAdvanceToAggregatedWithLedgerInfo_proofSound
    (verified : proof.verifySignatures crypto validator = .ok ())
    (returned : item.tryAdvanceToAggregatedWithLedgerInfo proof = .ok advanced) :
    advanced.ProofSound crypto validator := by
  cases item with
  | ordered item | executed item | signed item =>
    simp only [tryAdvanceToAggregatedWithLedgerInfo, check_eq_ok_iff] at returned
    obtain ⟨-, same⟩ := returned
    cases same
    first | exact trivial | exact verified
  | aggregated item => cases returned

theorem tryAdvanceToAggregated_proofSound (sound : item.ProofSound crypto validator) :
    (item.tryAdvanceToAggregated validator).ProofSound crypto validator := by
  cases item with
  | ordered item | aggregated item => exact sound
  | executed item =>
    unfold tryAdvanceToAggregated
    dsimp only
    split
    · rename_i power
      exact sound.2.verifySignatures power
    · exact sound
  | signed item =>
    unfold tryAdvanceToAggregated
    dsimp only
    split
    · rename_i power
      exact LedgerInfoWithSignatures.SignaturesValid.verifySignatures sound power
    · exact sound

/-- A counted vote is over the ledger info of the batch. -/
theorem VoteFits.signedBy (verified : vote.verify crypto validator = .ok ())
    (sameInfo : proof.commitInfo = vote.commitInfo)
    (sameHash : proof.ledgerInfo.consensusDataHash = vote.ledgerInfo.consensusDataHash) :
    validator.SignedBy crypto vote.author (.ledgerInfo proof.ledgerInfo)
      vote.signature := by
  have sameLedgerInfo : proof.ledgerInfo = vote.ledgerInfo := by
    cases isProof : proof.ledgerInfo with
    | mk commitInfo hash =>
      cases isVote : vote.ledgerInfo with
      | mk votedInfo votedHash =>
        simp_all [CommitVote.commitInfo, LedgerInfoWithSignatures.commitInfo]
  rw [sameLedgerInfo]
  rw [CommitVote.verify, context_eq_ok_iff, VerifyError.report_eq_ok_iff] at verified
  exact verify_ok_iff.mp verified

theorem addSignatureIfMatched_proofSound {updated : BufferItem}
    (sound : item.ProofSound crypto validator) (verified : vote.verify crypto validator = .ok ())
    (fits : item.VoteFits vote) (returned : item.addSignatureIfMatched vote = .ok updated) :
    updated.ProofSound crypto validator := by
  unfold addSignatureIfMatched at returned
  cases item <;> dsimp only at returned <;> split at returned <;> cases returned
  case ordered.isTrue => trivial
  case executed.isTrue item matched =>
    have sameInfo := sound.1.trans matched
    exact ⟨sound.1, sound.2.addSignature
      (VoteFits.signedBy verified sameInfo (fits _ rfl sameInfo))⟩
  case signed.isTrue item matched =>
    exact .addSignature sound
      (VoteFits.signedBy verified matched (fits _ rfl matched))
  case aggregated.isTrue => exact sound

end BufferItem

end Items

namespace BufferManager

variable (crypto validator manager) in
/-- The proofs in the buffer are sound, and those that were sent verify. -/
structure ProofsSound : Prop where
  verifier : manager.verifier = validator
  items : Buffer.AllElems (ProofSound crypto validator) manager.buffer.map
  sent : ∀ request ∈ manager.outbox.persistingRequests,
    request.commitLedgerInfo.verifySignatures crypto validator = .ok ()

section Handlers

open Stateful
open Observes (readsState ret)

/-- A handler keeps the proofs sound, whether it fails or not. -/
abbrev KeepsProofs
    {α : Type}
    (crypto : Crypto)
    (validator : ValidatorVerifier)
    (handler : Handler α) : Prop :=
  handler.Observes (ProofsSound crypto validator) fun _ => True

theorem putBuffer_observes {buffer : Buffer BufferItem}
    (items : Buffer.AllElems (ProofSound crypto validator) buffer.map) :
    KeepsProofs crypto validator (putBuffer buffer) :=
  Observes.modify fun _ sound => ⟨sound.verifier, items, sound.sent⟩

theorem send_observes {change : Outbox → Outbox}
    (same : ∀ outbox, (change outbox).persistingRequests = outbox.persistingRequests) :
    KeepsProofs crypto validator (send change) :=
  Observes.modify fun manager sound =>
    ⟨sound.verifier, sound.items, by
      rw [same]
      exact sound.sent⟩

theorem processOrderedBlocks_observes (ordered : OrderedBlocks) :
    KeepsProofs crypto validator (processOrderedBlocks crypto ordered) := by
  refine readsState.andThen fun manager sound => ?_
  refine .check fun buffer pushed => ?_
  have newSound : (newOrdered ordered.orderedBlocks ordered.orderedProof
        ordered.callback).ProofSound crypto validator := trivial
  exact putBuffer_observes (sound.items.pushBack newSound pushed)

theorem advanceExecutionRoot_observes : KeepsProofs crypto validator advanceExecutionRoot := by
  refine readsState.andThen fun manager sound => ?_
  refine .check fun root found => ?_
  refine (Observes.modify fun _ sound => { sound with }).andThen fun _ _ => ?_
  split
  · refine .check fun item isItem => ?_
    exact send_observes fun _ => rfl
  · exact ret trivial

theorem advanceSigningRoot_observes : KeepsProofs crypto validator advanceSigningRoot := by
  refine readsState.andThen fun manager sound => ?_
  refine .check fun root found => ?_
  refine (Observes.modify fun _ sound => { sound with }).andThen fun _ _ => ?_
  split
  · refine .check fun item isItem => ?_
    refine .check fun executedItem isExecuted => ?_
    exact send_observes fun _ => rfl
  · exact ret trivial

/-- What is sent to be persisted carries the proof of an aggregated batch. -/
theorem sendPersisting_observes {blocks : List ExecutedBlock} {item : AggregatedItem}
    (verified : item.commitProof.verifySignatures crypto validator = .ok ()) :
    KeepsProofs crypto validator (sendPersisting blocks item) := by
  refine (send_observes fun outbox => ?_).andThen fun _ _ => ?_
  · split <;> rfl
  · refine Observes.modify fun manager sound => ⟨sound.verifier, sound.items, ?_⟩
    intro request member
    rcases mem_append.mp member with before | isNew
    · exact sound.sent request before
    · rw [mem_singleton.mp isNew]
      exact verified

theorem advanceHeadLoop_observes (target : HashValue) (fuel : Nat) (blocks : List ExecutedBlock) :
    KeepsProofs crypto validator (advanceHeadLoop crypto target fuel blocks) := by
  induction fuel generalizing blocks with
  | zero => exact .fail
  | succ fuel ih =>
    refine readsState.andThen fun manager sound => ?_
    refine .check fun popped isPopped => ?_
    obtain ⟨first, rest⟩ := sound.items.popFront isPopped
    refine (putBuffer_observes rest).andThen fun _ _ => ?_
    split
    · exact Observes.fail
    · rename_i item isFirst
      refine .check fun blockId isId => ?_
      refine (Observes.modify fun _ sound => { sound with }).andThen fun _ _ => ?_
      split
      · refine .check fun aggregated isAggregated => ?_
        apply sendPersisting_observes
        have itemSound := first item isFirst
        cases item with
        | aggregated item =>
          cases isAggregated
          exact itemSound
        | ordered item | executed item | signed item => cases isAggregated
      · exact ih _

theorem advanceHead_observes (target : HashValue) :
    KeepsProofs crypto validator (advanceHead crypto target) := by
  refine readsState.andThen fun manager sound => ?_
  exact advanceHeadLoop_observes target _ []

theorem processResetRequest_observes (request : ResetRequest) :
    KeepsProofs crypto validator (processResetRequest request) := by
  refine (Observes.modify fun _ sound =>
    ⟨sound.verifier, Buffer.new_allElems, sound.sent⟩).andThen fun _ _ => ?_
  exact (Observes.lift _).weaken fun _ _ => trivial

theorem executeItem_observes (key : HashValue) (executedBlocks : List ExecutedBlock) :
    KeepsProofs crypto validator (executeItem crypto key executedBlocks) := by
  refine readsState.andThen fun manager sound => ?_
  refine .check fun taken isTaken => ?_
  obtain ⟨-, rest⟩ := sound.items.take isTaken
  refine (putBuffer_observes rest).andThen fun _ _ => ?_
  refine .check fun newItem advanced => ?_
  refine .check fun buffer isSet => ?_
  rw [sound.verifier] at advanced
  refine (putBuffer_observes (rest.set
    (advanceToExecutedOrAggregated_proofSound advanced)
    isSet)).andThen fun _ _ => ?_
  exact ret trivial

theorem processExecutionResponse_observes (response : ExecutionResponse) :
    KeepsProofs crypto validator (processExecutionResponse crypto response) := by
  refine readsState.andThen fun manager sound => ?_
  refine .check fun cursor found => ?_
  split
  · exact ret trivial
  · exact ret trivial
  · refine .check fun first isFirst => ?_
    split
    · exact ret trivial
    · refine (executeItem_observes _ _).andThen fun newItem _ => ?_
      split
      · exact advanceHead_observes _
      · exact ret trivial

theorem signItem_observes (key : HashValue) (signature : Signature) :
    KeepsProofs crypto validator (signItem key signature) := by
  refine readsState.andThen fun manager sound => ?_
  refine .check fun taken isTaken => ?_
  obtain ⟨itemSound, rest⟩ := sound.items.take isTaken
  refine (putBuffer_observes rest).andThen fun _ _ => ?_
  split
  · refine .check fun signedItem advanced => ?_
    refine .check fun signedRef isSigned => ?_
    refine .check fun buffer isSet => ?_
    refine (putBuffer_observes (rest.set (advanceToSigned_proofSound itemSound advanced)
      isSet)).andThen fun _ _ => ?_
    exact send_observes fun _ => rfl
  · refine .check fun buffer isSet => ?_
    exact putBuffer_observes (rest.set itemSound isSet)

theorem processSigningResponse_observes (response : SigningResponse) :
    KeepsProofs crypto validator (processSigningResponse response) := by
  unfold processSigningResponse
  split
  · exact ret trivial
  · refine readsState.andThen fun manager sound => ?_
    refine .check fun cursor found => ?_
    split
    · exact ret trivial
    · exact signItem_observes _ _

/-- A search by key finds that key. -/
theorem findElemByKey_eq_some {T : Type} {buffer : Buffer T} {cursor : Cursor} {found : HashValue}
    (returned : buffer.findElemByKey cursor key = .ok (some found)) : found = key := by
  unfold Buffer.findElemByKey at returned
  split at returned
  · cases returned
  · simp only [bind_eq_ok_iff] at returned
    obtain ⟨start, -, returned⟩ := returned
    split at returned
    · cases returned
    · split at returned <;> cases returned
      rfl

/-- What is taken out of a place is what was stored there. -/
theorem stored_of_take {taken : BufferItem × Buffer BufferItem}
    (returned : manager.buffer.take (some key) = .ok taken) :
    manager.stored key = some taken.1 := by
  simp only [Buffer.take, Buffer.entry, bind_eq_ok_iff, expect_eq_ok_iff] at returned
  obtain ⟨found, ⟨isKey, sameKey, entry, lookup, same⟩, elem, isElem, isTaken⟩ := returned
  cases sameKey
  cases same
  cases isTaken
  rw [stored, lookup]
  exact isElem

/-- Changing a batch, where the change keeps the proof of the batch sound. -/
theorem changeItem_satisfies {target : HashValue} {change : BufferItem → Fallible BufferItem} :
    (changeItem target change).Satisfies
      (fun manager =>
        ProofsSound crypto validator manager ∧
        ∀ item changed, manager.stored target = some item → item.ProofSound crypto validator →
          change item = .ok changed → changed.ProofSound crypto validator)
      (fun _ => ProofsSound crypto validator)
      (fun _ => ProofsSound crypto validator) := by
  refine readsState.bind (fun _ _ held => held.1) fun manager held => ?_
  obtain ⟨sound, keeps⟩ := held
  refine Observes.keeps ?_ fun _ held => held.1
  refine .check fun cursor found => ?_
  split
  · exact ret trivial
  · obtain rfl := findElemByKey_eq_some found
    refine .check fun taken isTaken => ?_
    obtain ⟨itemSound, rest⟩ := sound.items.take isTaken
    refine (putBuffer_observes rest).andThen fun _ _ => ?_
    refine .check fun newItem changed => ?_
    refine .check fun buffer isSet => ?_
    refine (putBuffer_observes (rest.set (keeps _ _ (stored_of_take isTaken) itemSound changed)
      isSet)).andThen fun _ _ => ?_
    exact ret trivial

theorem countVote_proofSound {item : BufferItem} (sound : item.ProofSound crypto validator)
    (verified : vote.verify crypto validator = .ok ()) (fits : item.VoteFits vote) :
    (countVote validator vote item).ProofSound crypto validator := by
  unfold countVote
  split
  · rename_i updated returned
    exact tryAdvanceToAggregated_proofSound
      (addSignatureIfMatched_proofSound sound verified fits returned)
  · exact sound

variable (crypto validator manager) in
/-- Votes and decisions are verified, and votes fit the batch they are about. -/
def ProofsFit :
    LoopEvent → Prop
  | .commitMessage (.commitVote vote) =>
    vote.verify crypto validator = .ok () ∧
      ∀ item, manager.stored vote.commitInfo.id = some item → item.VoteFits vote
  | .commitMessage (.commitDecision decision) => decision.verify crypto validator = .ok ()
  | _ => True

theorem processCommitMessage_satisfies (message : VerifiedEvent) :
    (processCommitMessage message).Satisfies
      (fun manager =>
        ProofsSound crypto validator manager ∧
          ProofsFit crypto validator manager (.commitMessage message))
      (fun _ => ProofsSound crypto validator)
      (fun _ => ProofsSound crypto validator) := by
  cases message with
  | commitVote vote =>
    refine readsState.bind (fun _ _ held => held.1) fun manager held => ?_
    refine changeItem_satisfies.consequence ?_ (fun _ _ held => held) (fun _ _ held => held)
    rintro state ⟨sound, verified, fits⟩
    refine ⟨sound, ?_⟩
    rintro item changed stored itemSound ⟨⟩
    rw [held.1.verifier]
    exact countVote_proofSound itemSound verified (fits item stored)
  | commitDecision decision =>
    refine changeItem_satisfies.consequence ?_ (fun _ _ held => held) (fun _ _ held => held)
    rintro state ⟨sound, verified⟩
    refine ⟨sound, ?_⟩
    intro item changed stored itemSound returned
    simp only [ProofsFit, CommitDecision.verify, context_eq_ok_iff,
      VerifyError.report_eq_ok_iff] at verified
    exact tryAdvanceToAggregatedWithLedgerInfo_proofSound verified returned
  | other => exact Observes.keeps Observes.fail fun _ held => held.1

theorem retryLoop_observes (fuel : Nat) (cursor : Cursor) :
    KeepsProofs crypto validator (retryLoop fuel cursor) := by
  induction fuel generalizing cursor with
  | zero =>
    cases cursor with
    | none => exact ret trivial
    | some key => exact .fail
  | succ fuel ih =>
    cases cursor with
    | none => exact ret trivial
    | some key =>
      refine readsState.andThen fun manager sound => ?_
      refine .check fun item isItem => ?_
      split
      · exact ret trivial
      · refine .check fun signedItem isSigned => ?_
        refine Observes.andThen (send_observes fun _ => rfl) fun _ _ => ?_
        refine .check fun next isNext => ?_
        exact ih next

theorem unlessSet_observes {root : BufferManager → Cursor} {advance : Handler Unit}
    (observed : KeepsProofs crypto validator advance) :
    KeepsProofs crypto validator (unlessSet root advance) := by
  refine (Observes.inspects root).andThen fun cursor _ => ?_
  split
  · exact observed
  · exact ret trivial

/-- One iteration of the main loop. -/
theorem process_satisfies (event : LoopEvent) :
    (process crypto event).Satisfies
      (fun manager =>
        ProofsSound crypto validator manager ∧ ProofsFit crypto validator manager event)
      (fun _ => ProofsSound crypto validator)
      (fun _ => ProofsSound crypto validator) := by
  cases event with
  | orderedBlocks ordered =>
    refine Observes.keeps ?_ fun _ held => held.1
    exact (processOrderedBlocks_observes ordered).andThen fun _ _ =>
      unlessSet_observes advanceExecutionRoot_observes
  | reset request => exact (processResetRequest_observes request).keeps fun _ held => held.1
  | executionResponse response =>
    refine Observes.keeps ?_ fun _ held => held.1
    exact (processExecutionResponse_observes response).andThen fun _ _ =>
      advanceExecutionRoot_observes.andThen fun _ _ =>
        unlessSet_observes advanceSigningRoot_observes
  | signingResponse response =>
    refine Observes.keeps ?_ fun _ held => held.1
    exact (processSigningResponse_observes response).andThen fun _ _ => advanceSigningRoot_observes
  | commitMessage message =>
    refine (processCommitMessage_satisfies message).bind fun aggregated => ?_
    refine Observes.keeps ?_ fun _ held => held
    split
    · exact ret trivial
    · exact (advanceHead_observes _).andThen fun _ _ =>
        (unlessSet_observes advanceExecutionRoot_observes).andThen
          fun _ _ => unlessSet_observes advanceSigningRoot_observes
  | tick =>
    refine Observes.keeps ?_ fun _ held => held.1
    exact readsState.andThen fun _ _ => retryLoop_observes _ _

end Handlers

namespace Trace

variable (crypto validator) in
/-- Every proof that was sent with a batch to be persisted verifies. -/
structure PersistedSound (trace : Trace) : Prop where
  manager : ProofsSound crypto validator trace.manager
  persisted :
    ∀ request ∈ trace.persisted, request.commitLedgerInfo.verifySignatures crypto validator = .ok ()

variable {trace : Trace}

theorem PersistedSound.receive (sound : trace.PersistedSound crypto validator) (event : LoopEvent) :
    (trace.receive event).PersistedSound crypto validator := by
  cases event with
  | reset request => exact ⟨sound.manager, by simp [Trace.receive]⟩
  | _ => exact ⟨sound.manager, sound.persisted⟩

/-- One iteration of the main loop. -/
theorem PersistedSound.step {event : LoopEvent} (sound : trace.PersistedSound crypto validator)
    (fits : ProofsFit crypto validator trace.manager event) :
    ((trace.receive event).record
      (process crypto event
        { trace.manager with outbox := .empty })).PersistedSound crypto
        validator := by
  have idle : ProofsSound crypto validator { trace.manager with outbox := .empty } :=
    ⟨sound.manager.verifier, sound.manager.items, by simp [Outbox.empty]⟩
  have sameFits : ProofsFit crypto validator
        { trace.manager with outbox := .empty } event := fits
  have after := (process_satisfies event).final ⟨idle, sameFits⟩
  refine ⟨after, ?_⟩
  intro request member
  rcases mem_append.mp member with before | isNew
  · exact (sound.receive event).persisted request before
  · exact after.sent request isNew

/--
In every run in which the votes and decisions are verified, and in which every vote
counted for an executed batch has the consensus data hash of the batch, the proofs that
go with the persisted batches verify, at every moment of the run.
-/
theorem persisted_proofs_verify
    (crypto : Crypto)
    (author : AccountAddress)
    (validator : ValidatorVerifier)
    (events : List LoopEvent)
    (fits : Meets (fun trace event => ProofsFit crypto validator trace.manager event)
      crypto (start author validator) events) :
    ∀ past, past <+: events → ∀ request ∈ (run crypto (start author validator) past).persisted,
      request.commitLedgerInfo.verifySignatures crypto validator = .ok () := by
  rintro past ⟨future, rfl⟩
  have sound : (run crypto (start author validator) past).PersistedSound crypto validator := by
    refine run_keeps ?_ ⟨⟨rfl, Buffer.new_allElems, ?_⟩, ?_⟩ fits.initial
    rotate_left
    · simp [start, new, Outbox.empty]
    · simp [start]
    intro trace event sound _ fits
    exact sound.step fits
  exact sound.persisted

/-!
## A batch among four validators

One block is ordered, executed and voted for by three validators of four.
-/

/-- A block with the given execution result. -/
def sampleBlock (rootHash : HashValue)
    (computeStatus : List TransactionStatus) : ExecutedBlock where
  block :=
    { blockData :=
        { epoch := 1
          round := 1
          timestampUsecs := 0
          quorumCert := .ofGenesis symbolic { BlockInfo.empty with epoch := 1 }
          blockType := .nilBlock }
      signature := none }
  stateComputeResult := { rootHash, numLeaves := 0, epochState := none, computeStatus }

def sampleOrdered : ExecutedBlock :=
  sampleBlock HashValue.accumulatorPlaceholderHash []

def sampleExecuted : ExecutedBlock :=
  sampleBlock (.atom 2) [.keep]

/-- The ledger info for the block, with the consensus data hash given. -/
def sampleLedgerInfo (block : ExecutedBlock) (hash : Nat) : LedgerInfo where
  commitInfo := block.blockInfo symbolic
  consensusDataHash := .atom hash

/-- A ledger info signed by three validators. -/
def sampleSigned (info : LedgerInfo) : LedgerInfoWithSignatures where
  ledgerInfo := info
  signatures := [0, 1, 2].foldl
    (fun signatures author =>
      signatures.insert author (Crypto.symbolic.sign ⟨author⟩ (.ledgerInfo info)))
    empty

/-- A validator's vote for the executed block. -/
def sampleVote (author : AccountAddress) (hash : Nat) : CommitVote where
  author
  ledgerInfo := sampleLedgerInfo sampleExecuted hash
  signature := Crypto.symbolic.sign ⟨author⟩ (.ledgerInfo (sampleLedgerInfo sampleExecuted hash))

def sampleExecution : List LoopEvent :=
  [.orderedBlocks
    { orderedBlocks := [sampleOrdered]
      orderedProof := sampleSigned (sampleLedgerInfo sampleOrdered 5)
      callback := ⟨0⟩ },
   .executionResponse
    { blockId := sampleOrdered.id symbolic, inner := .ok [sampleExecuted] }]

/-- Votes for the executed block arrive, with their consensus data hashes. -/
def sampleVotes (hashes : List (AccountAddress × Nat)) : List LoopEvent :=
  hashes.map fun entry => .commitMessage (.commitVote (sampleVote entry.1 entry.2))

/-- The run in which the votes arrive after the block is executed. -/
def sampleRun (hashes : List (AccountAddress × Nat)) : Trace :=
  run symbolic (start 0 fourValidators) (sampleExecution ++ sampleVotes hashes)

/-- A vote with the consensus data hash of the stored batch fits. -/
theorem voteFits_of_stored
    (same : ((manager.stored key).bind openProof).map
        (fun proof => proof.ledgerInfo.consensusDataHash) =
      some vote.ledgerInfo.consensusDataHash) :
    ∀ item, manager.stored key = some item → item.VoteFits vote := by
  intro item isStored proof isProof _
  rw [isStored, Option.bind_some, isProof, Option.map_some] at same
  exact Option.some.inj same

theorem persisted_proofs_verify_threeVotes :
    (sampleRun [(0, 5), (1, 5), (2, 5)]).persisted.length = 1 ∧
    ∀ request ∈ (sampleRun [(0, 5), (1, 5), (2, 5)]).persisted,
      request.commitLedgerInfo.verifySignatures symbolic fourValidators = .ok () := by
  refine ⟨rfl, persisted_proofs_verify symbolic 0 fourValidators
    (sampleExecution ++ sampleVotes [(0, 5), (1, 5), (2, 5)]) ?_ _ prefix_rfl⟩
  refine ⟨fun _ => trivial, fun _ => trivial, ?_, ?_, ?_, trivial⟩
  · exact fun _ => ⟨rfl, voteFits_of_stored rfl⟩
  · exact fun _ => ⟨rfl, voteFits_of_stored rfl⟩
  · exact fun _ => ⟨rfl, voteFits_of_stored rfl⟩

/--
One vote over another consensus data hash makes a proof that does not verify, although
every vote was verified and at most one of the four validators misbehaves.
-/
theorem strayVote_spoils_proof :
    ValidatorVerifier.new fourInfos = some fourValidators ∧
    (∀ entry ∈ [(0, 5), (1, 5), (3, 6)],
      (sampleVote entry.1 entry.2).verify symbolic fourValidators = .ok ()) ∧
    (sampleRun [(0, 5), (1, 5), (3, 6)]).failure = none ∧
    ((sampleRun [(0, 5), (1, 5), (3, 6)]).persisted.map fun request =>
      request.commitLedgerInfo.verifySignatures symbolic
        fourValidators) = [.error .invalidSignature] := by
  refine ⟨rfl, ?_, rfl, rfl⟩
  simp only [forall_mem_cons, not_mem_nil, false_imp_iff, implies_true, and_true]
  exact ⟨rfl, rfl, rfl⟩

end Trace

end BufferManager

end Diem
