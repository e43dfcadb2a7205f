import Diem.ConsensusTypes

namespace Diem

open HashValue

/-!
# Hashes and signatures as terms

A hash function that keeps its whole argument has no collisions, and a signature that
holds the key and the message cannot stand for another message.  With it the
assumptions about `Crypto` are satisfied and every function of the model can be run.
-/

/-- An encoding of values as hash terms that keeps different values apart. -/
class HashTerm (α : Type) where
  term : α → HashValue
  injective : Function.Injective term

namespace HashTerm

variable {α β : Type}

/-- Encode values by what determines them, for a record some or all of its fields. -/
@[reducible] def along [HashTerm β] (view : α → β)
    (injective : Function.Injective view := by rintro ⟨⟩ ⟨⟩ same; simp_all) : HashTerm α where
  term value := term (view value)
  injective := HashTerm.injective.comp injective

/-- A hash is its own term. -/
instance : HashTerm HashValue where
  term value := value
  injective := Function.injective_id

instance : HashTerm Nat where
  term := .atom
  injective _ _ := atom.inj

instance : HashTerm Bool :=
  along Bool.toNat fun first second same => by
    cases first <;> cases second <;> simp_all

/-- A pair of values is a pair of terms. -/
instance [HashTerm α] [HashTerm β] : HashTerm (α × β) where
  term value := .pair (term value.1) (term value.2)
  injective first second same := by
    obtain ⟨sameLeft, sameRight⟩ := pair.inj same
    exact Prod.ext (HashTerm.injective sameLeft) (HashTerm.injective sameRight)

/-- A list as nested pairs that end in an atom. -/
def listTerm [HashTerm α] : List α → HashValue
  | [] => .atom 0
  | head :: tail => .pair (term head) (listTerm tail)

/-- Lists with the same term agree head by head. -/
theorem listTerm_injective [HashTerm α] : Function.Injective (listTerm : List α → HashValue) := by
  intro first
  induction first with
  | nil =>
    intro second same
    cases second with
    | nil => rfl
    | cons head tail => cases same
  | cons head tail ih =>
    intro second same
    cases second with
    | nil => cases same
    | cons head' tail' =>
      obtain ⟨sameHead, sameTail⟩ := pair.inj same
      rw [HashTerm.injective sameHead, ih sameTail]

instance [HashTerm α] : HashTerm (List α) where
  term := listTerm
  injective := listTerm_injective

instance [HashTerm α] : HashTerm (Option α) :=
  along Option.toList fun first second same => by
    cases first <;> cases second <;> simp_all

/-- A tag says which alternative a value is of. -/
instance [HashTerm α] [HashTerm β] : HashTerm (α ⊕ β) where
  term
    | .inl value => .pair (.atom 0) (term value)
    | .inr value => .pair (.atom 1) (term value)
  injective first second same := by
    cases first <;> cases second <;>
      simp only [pair.injEq, atom.injEq, true_and, zero_ne_one, one_ne_zero, false_and] at same
    · rw [HashTerm.injective same]
    · rw [HashTerm.injective same]

instance {Key Value : Type} [LinearOrder Key] [HashTerm Key] [HashTerm Value] :
    HashTerm (OrderedMap Key Value) :=
  along OrderedMap.entries

instance : HashTerm PublicKey :=
  along PublicKey.bytes

instance : HashTerm Signature :=
  along Signature.term

instance : HashTerm ValidatorConsensusInfo :=
  along (fun info => (info.publicKey, info.votingPower))

/-- A verifier is determined by its validators and its two sums of power. -/
instance : HashTerm ValidatorVerifier :=
  along
    (fun verifier =>
      (verifier.addressToValidatorInfo, verifier.quorumVotingPower, verifier.totalVotingPower))

instance : HashTerm EpochState :=
  along (fun state => (state.epoch, state.verifier))

/-- A block info is determined by all its fields. -/
instance : HashTerm BlockInfo :=
  along
    (fun info =>
      (info.epoch, info.round, info.id, info.executedStateId, info.version,
        info.timestampUsecs, info.nextEpochState))

instance : HashTerm LedgerInfo :=
  along (fun info => (info.commitInfo, info.consensusDataHash))

/-- The signatures are part of what is hashed. -/
instance : HashTerm LedgerInfoWithSignatures :=
  along (fun signed => (signed.ledgerInfo, signed.signatures))

instance : HashTerm VoteData :=
  along (fun data => (data.proposed, data.parent))

instance : HashTerm QuorumCert :=
  along (fun cert => (cert.voteData, cert.signedLedgerInfo))

instance : HashTerm SignedTransaction :=
  along SignedTransaction.bytes

/-- What determines how a block came about. -/
def blockTypeView : BlockType → (Payload × AccountAddress) ⊕ Nat
  | .proposal payload author => .inl (payload, author)
  | .nilBlock => .inr 0
  | .genesis => .inr 1

instance : HashTerm BlockType :=
  along blockTypeView fun first second same => by
    cases first <;> cases second <;> simp_all [blockTypeView]

instance : HashTerm BlockData :=
  along (fun data => (data.epoch, data.round, data.timestampUsecs, data.quorumCert, data.blockType))

instance : HashTerm Block :=
  along (fun block => (block.blockData, block.signature))

instance : HashTerm Timeout :=
  along (fun timeout => (timeout.epoch, timeout.round))

instance : HashTerm TimeoutSigningRepr :=
  along (fun timeout => (timeout.epoch, timeout.round, timeout.hqcRound))

instance : HashTerm Ledger2WaypointConverter :=
  along
    (fun fields =>
      (fields.epoch, fields.rootHash, fields.version, fields.timestampUsecs, fields.nextEpochState))

instance : HashTerm AccumulatorExtensionProof :=
  along (fun proof => (proof.frozenSubtreeRoots, proof.numLeaves, proof.leaves))

instance : HashTerm VoteProposal :=
  along
    (fun proposal =>
      (proposal.accumulatorExtensionProof, proposal.block,
        proposal.nextEpochState, proposal.decoupledExecution))

/-- What determines a message. -/
def messageView :
    Message → LedgerInfo ⊕ BlockData ⊕ Timeout ⊕ TimeoutSigningRepr ⊕ VoteProposal
  | .ledgerInfo info => .inl info
  | .blockData data => .inr (.inl data)
  | .timeout timeout => .inr (.inr (.inl timeout))
  | .timeoutSigningRepr timeout => .inr (.inr (.inr (.inl timeout)))
  | .voteProposal proposal => .inr (.inr (.inr (.inr proposal)))

/-- Messages of different kinds have different terms. -/
instance : HashTerm Message :=
  along messageView fun first second same => by
    cases first <;> cases second <;> simp_all [messageView]

end HashTerm

namespace Crypto

open HashTerm

/-- Hashes and signatures that hold what they were made from. -/
def symbolic : Crypto where
  hashBlockData := term
  hashVoteData := term
  hashWaypoint := term
  transactionAccumulator := { internal := .pair, placeholder := accumulatorPlaceholderHash }
  sign publicKey message := ⟨term (publicKey, message)⟩
  verify publicKey message signature := signature.term = term (publicKey, message)
  batchVerify message pairs := pairs.all fun pair => pair.2.term = term (pair.1, message)

/-- Different vote data have different hashes. -/
theorem symbolic_collisionFree : symbolic.CollisionFree := HashTerm.injective

/-- A batch that verifies has only signatures that verify. -/
theorem symbolic_batchSound : symbolic.BatchSound := by
  intro message pairs accepted pair member
  exact List.all_eq_true.mp accepted pair member

end Crypto

/-- Four validators of the same power. -/
def fourInfos : ValidatorInfos :=
  [0, 1, 2, 3].foldl (fun infos address => infos.insert address ⟨⟨address⟩, 1⟩) .empty

/-- The verifier of the four validators; three make a quorum. -/
def fourValidators : ValidatorVerifier where
  addressToValidatorInfo := fourInfos
  quorumVotingPower := 3
  totalVotingPower := 4

end Diem
