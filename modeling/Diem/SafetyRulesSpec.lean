import Diem.SafetyRules

namespace Diem

open Stateful PersistentSafetyStorage Fallible Observes SecureStorage

/-!
# What the methods of the safety rules do

One specification a method, in terms of the persisted safety data before the call.
Reads may fill the copy of the safety data in memory and use up answers of the
backend; `Unchanged` says that nothing else changes, and that the copy agrees with
what is persisted.
-/

variable {α : Type} {crypto : Crypto} {version : PublicKey} {message : Message}

namespace SecureStorage

/-- A program that uses up one answer and fails only if the key cannot be used. -/
def UsesKey {α : Type} (version : PublicKey)
    (program : Stateful SecureStorage StorageError α) : Prop :=
  ∀ store, program.Satisfies (fun current => current = store)
    (fun _ final =>
      version ∈ store.consensusKeys ∧ final = { store with keyFaults := store.keyFaults.tail })
    (fun _ final =>
      ¬ (store.keyFaults = [] ∧ version ∈ store.consensusKeys) ∧
        final = { store with keyFaults := store.keyFaults.tail })

theorem exportPrivateKeyForVersion_usesKey {version : PublicKey} :
    UsesKey version (exportPrivateKeyForVersion version) := by
  intro store current isStore
  subst current
  unfold exportPrivateKeyForVersion
  cases answer : store.keyFaults.head?.join with
  | some failure =>
    refine ⟨by simp, ?_⟩
    intro _ _
    refine ⟨?_, rfl⟩
    rintro ⟨none, -⟩
    simp [none] at answer
  | none =>
    by_cases held : version ∈ store.consensusKeys
    · simp [held]
    · simp [held]

theorem signUsingVersion_usesKey {message : Message} :
    UsesKey version (signUsingVersion crypto version message) := by
  intro store
  refine .bind (exportPrivateKeyForVersion_usesKey store) ?_
  intro privateKey
  exact .ret fun _ used => used

end SecureStorage

namespace PersistentSafetyStorage

variable (storage : PersistentSafetyStorage)

/-- The copy of the safety data in memory is the persisted one. -/
def CacheAgrees : Prop :=
  ∀ data, storage.cachedSafetyData = some data → data = storage.internalStore.safetyData

/-- Two storages that differ at most in the copy and the pending answers. -/
structure Unchanged (before after : PersistentSafetyStorage) : Prop where
  safetyData : after.internalStore.safetyData = before.internalStore.safetyData
  waypoint : after.internalStore.waypoint = before.internalStore.waypoint
  ownerAccount : after.internalStore.ownerAccount = before.internalStore.ownerAccount
  consensusKeys : after.internalStore.consensusKeys = before.internalStore.consensusKeys
  executionKey : after.internalStore.executionKey = before.internalStore.executionKey
  keyFaults : before.internalStore.keyFaults = [] → after.internalStore.keyFaults = []
  cacheAgrees : after.CacheAgrees

/-- The storage with other safety data persisted. -/
def withSafetyData (data : SafetyData) : PersistentSafetyStorage :=
  { storage with
    cachedSafetyData := some data
    internalStore := { storage.internalStore with safetyData := data } }

/-- The storage with another waypoint persisted. -/
def withWaypoint (waypoint : Waypoint) : PersistentSafetyStorage :=
  { storage with
    internalStore := { storage.internalStore with waypoint } }

variable {before : PersistentSafetyStorage} {value : SecureStorage → α}

/-- A read or write of the backend has its effect or none. -/
theorem callStore_call {report : StorageError → Abort} {effect : SecureStorage → SecureStorage}
    {pre : PersistentSafetyStorage → Prop} {post : α → PersistentSafetyStorage → Prop}
    {err : Abort → PersistentSafetyStorage → Prop}
    (succeeds : ∀ storage faults, pre storage → post (value storage.internalStore)
      { storage with
        internalStore := effect { storage.internalStore with faults } })
    (fails : ∀ storage faults failure, pre storage → err (report failure)
      { storage with
        internalStore := { storage.internalStore with faults } }) :
    (callStore report (call value effect)).Satisfies pre post err := by
  apply Satisfies.mapError
  apply Satisfies.zoom
  rintro storage required store rfl
  unfold call
  cases pending : storage.internalStore.faults with
  | nil =>
    refine ⟨?_, by simp⟩
    rintro returned same
    cases same
    have done := succeeds storage [] required
    rw [← pending] at done
    exact done
  | cons answer rest =>
    cases answer with
    | none =>
      refine ⟨?_, by simp⟩
      rintro returned same
      cases same
      exact succeeds storage rest required
    | some failure =>
      refine ⟨by simp, ?_⟩
      rintro failed same
      cases same
      exact fails storage rest failure required

variable {storage : PersistentSafetyStorage}

theorem Unchanged.withFaults (same : Unchanged before storage)
    (faults : List (Option StorageError)) :
    Unchanged before
      { storage with
        internalStore := { storage.internalStore with faults } } :=
  { same with }

/-- A value read from the backend. -/
theorem get_observes {found : α}
    (reads : ∀ storage, Unchanged before storage → value storage.internalStore = found) :
    (callStore Abort.ofStorage (get value)).Observes
      (Unchanged before) (fun returned => returned = found) :=
  callStore_call (fun storage faults same => ⟨reads storage same, same.withFaults faults⟩)
    (fun _ faults _ same => same.withFaults faults)

/-- The safety data read is what is persisted, whether it was cached or not. -/
theorem safetyData_observes :
    safetyData.Observes (Unchanged before)
      (fun found => found = before.internalStore.safetyData) := by
  have readBack : readSafetyData.Observes (Unchanged before)
        (fun found => found = before.internalStore.safetyData) :=
    get_observes fun _ same => same.safetyData
  refine readsState.andThen fun storage same => ?_
  split
  · exact readBack
  · split
    · rename_i cached cache
      exact ret ((same.cacheAgrees cached cache).trans same.safetyData)
    · refine readBack.andThen ?_
      rintro data rfl
      refine (modify fun _ same => { same with cacheAgrees := ?_ }).andThen
        fun _ _ => ret rfl
      rintro cached ⟨⟩
      exact same.safetyData.symm

theorem Unchanged.rewritten {after : PersistentSafetyStorage} (same : Unchanged before after) :
    Unchanged (before.withSafetyData before.internalStore.safetyData) after :=
  { same with }

/-- Written safety data is persisted; a failed write changes nothing. -/
theorem setSafetyData_satisfies (data : SafetyData) :
    (setSafetyData data).Satisfies (Unchanged before)
      (fun _ => Unchanged (before.withSafetyData data))
      (fun _ => Unchanged before) := by
  have written : (Stateful.onError
        (fun storage : PersistentSafetyStorage => { storage with cachedSafetyData := none })
        (callStore (fun failure => .error (.secureStorageUnexpectedError failure.toString))
          (set fun store => { store with safetyData := data }))).Satisfies
        (Unchanged before)
        (fun _ storage =>
          Unchanged (before.withSafetyData data)
            { storage with cachedSafetyData := some data })
        (fun _ => Unchanged before) := by
    apply Satisfies.onError
    apply callStore_call
    · intro storage faults same
      refine { same with safetyData := rfl, cacheAgrees := ?_ }
      rintro cached ⟨⟩
      rfl
    · intro storage faults failure same
      refine { same with cacheAgrees := ?_ }
      rintro cached ⟨⟩
  exact .bind written fun _ => .modify _ fun _ same => same

/-- A written waypoint is persisted; a failed write changes nothing. -/
theorem setWaypoint_satisfies (waypoint : Waypoint) :
    (setWaypoint waypoint).Satisfies (Unchanged before)
      (fun _ => Unchanged (before.withWaypoint waypoint))
      (fun _ => Unchanged before) := by
  apply callStore_call
  · intro storage faults same
    exact { same with waypoint := rfl }
  · intro storage faults failure same
    exact same.withFaults faults

theorem Unchanged.withKeyFaultsTail (same : Unchanged before storage) :
    Unchanged before
      { storage with
        internalStore :=
          { storage.internalStore with
            keyFaults := storage.internalStore.keyFaults.tail } } :=
  { same with keyFaults := fun none => by simp [same.keyFaults none] }

/-- A use of a key, seen from the storage. -/
theorem callStore_useKey {program : Stateful SecureStorage StorageError α}
    (usesKey : SecureStorage.UsesKey version program) :
    (callStore Abort.ofStorage program).Satisfies (Unchanged before)
      (fun _ storage => version ∈ before.internalStore.consensusKeys ∧ Unchanged before storage)
      (fun _ storage =>
        ¬ (before.internalStore.keyFaults = [] ∧ version ∈ before.internalStore.consensusKeys) ∧
          Unchanged before storage) := by
  apply Satisfies.mapError
  apply Satisfies.zoom
  intro storage same
  refine .consequence (usesKey storage.internalStore) (fun _ isStore => isStore) ?_ ?_
  · rintro _ _ ⟨held, rfl⟩
    exact ⟨same.consensusKeys ▸ held, same.withKeyFaultsTail⟩
  · rintro _ _ ⟨cannot, rfl⟩
    refine ⟨?_, same.withKeyFaultsTail⟩
    rintro ⟨none, listed⟩
    exact cannot ⟨same.keyFaults none, same.consensusKeys.symm ▸ listed⟩

theorem consensusKeyForVersion_observes {version : PublicKey} :
    (consensusKeyForVersion version).Observes (Unchanged before) (fun _ => True) :=
  (callStore_useKey exportPrivateKeyForVersion_usesKey).weaken
    (fun _ _ both => ⟨trivial, both.2⟩) (fun _ _ both => both.2)

end PersistentSafetyStorage

namespace ConfigurableValidatorSigner

/-- The storage holds the key of a signer that does not hold it itself. -/
def KeyHeld (signer : ConfigurableValidatorSigner) (storage : PersistentSafetyStorage) : Prop :=
  match signer with
  | .signer _ _ => True
  | .handle _ keyVersion => keyVersion ∈ storage.internalStore.consensusKeys

/-- Signing shows that the key is held, and fails only if it cannot be used. -/
theorem sign_satisfies {signer : ConfigurableValidatorSigner} {before : PersistentSafetyStorage} :
    (signer.sign crypto message).Satisfies (PersistentSafetyStorage.Unchanged before)
      (fun _ storage => signer.KeyHeld before ∧ PersistentSafetyStorage.Unchanged before storage)
      (fun _ storage =>
        ¬ (before.internalStore.keyFaults = [] ∧ signer.KeyHeld before) ∧
          PersistentSafetyStorage.Unchanged before storage) := by
  cases signer with
  | signer author consensusKey => exact .ret fun _ same => ⟨trivial, same⟩
  | handle author keyVersion => exact callStore_useKey signUsingVersion_usesKey

end ConfigurableValidatorSigner

namespace EpochChangeProof

/-- The epoch change that the proof ends with installs the given validators. -/
def LeadsTo (proof : EpochChangeProof) (epochState : EpochState) : Prop :=
  ∃ last,
    proof.ledgerInfoWithSigs.getLast? = some last ∧ last.ledgerInfo.nextEpochState = some epochState

end EpochChangeProof

namespace SafetyRules

variable (rules : SafetyRules)

def persisted : SafetyData :=
  rules.persistentStorage.internalStore.safetyData

/-- Two instances that differ at most in the copy and the pending answers. -/
structure Unchanged (before after : SafetyRules) : Prop where
  storage : PersistentSafetyStorage.Unchanged before.persistentStorage after.persistentStorage
  executionPublicKey : after.executionPublicKey = before.executionPublicKey
  exportConsensusKey : after.exportConsensusKey = before.exportConsensusKey
  validatorSigner : after.validatorSigner = before.validatorSigner
  epochState : after.epochState = before.epochState

/-- The instance with other safety data persisted. -/
def withSafetyData (data : SafetyData) : SafetyRules :=
  { rules with
    persistentStorage := rules.persistentStorage.withSafetyData data }

variable {before : SafetyRules}

variable {after : SafetyRules}

theorem Unchanged.persisted (same : Unchanged before after) : after.persisted = before.persisted :=
  same.storage.safetyData

variable {target : PersistentSafetyStorage}

variable {program : Stateful PersistentSafetyStorage Abort α} {fact : α → Prop}

/-- A step on the storage, seen from the instance. -/
theorem onStorage_satisfies {failed : Prop}
    (valid : program.Satisfies (PersistentSafetyStorage.Unchanged before.persistentStorage)
      (fun value storage => fact value ∧ PersistentSafetyStorage.Unchanged target storage)
      (fun _ storage =>
        failed ∧ PersistentSafetyStorage.Unchanged before.persistentStorage storage)) :
    (onStorage program).Satisfies (Unchanged before)
      (fun value after => fact value ∧ Unchanged { before with persistentStorage := target } after)
      (fun _ after => failed ∧ Unchanged before after) := by
  apply Satisfies.zoom
  intro rules same
  refine Satisfies.consequence valid ?_ ?_ ?_
  · rintro storage rfl
    exact same.storage
  · rintro value storage ⟨holds, written⟩
    exact ⟨holds, { same with storage := written }⟩
  · rintro failure storage ⟨holds, kept⟩
    exact ⟨holds, { same with storage := kept }⟩

/-- What is observed on the storage is observed on the instance. -/
theorem onStorage_observes
    (observed :
      program.Observes (PersistentSafetyStorage.Unchanged before.persistentStorage) fact) :
    (onStorage program).Observes (Unchanged before) fact :=
  Satisfies.weaken
    (onStorage_satisfies
      (.weaken observed (fun _ _ both => both) (fun _ _ same => ⟨trivial, same⟩)))
    (fun _ _ both => both) (fun _ _ both => both.2)

/-- A write to the storage, seen from the instance. -/
theorem onStorage_writes {program : Stateful PersistentSafetyStorage Abort Unit}
    (valid : program.Satisfies (PersistentSafetyStorage.Unchanged before.persistentStorage)
      (fun _ => PersistentSafetyStorage.Unchanged target)
      (fun _ => PersistentSafetyStorage.Unchanged before.persistentStorage)) :
    (onStorage program).Satisfies (Unchanged before)
      (fun _ => Unchanged { before with persistentStorage := target })
      (fun _ => Unchanged before) :=
  Satisfies.weaken
    (onStorage_satisfies
      (valid.weaken (fun _ _ written => ⟨trivial, written⟩) (fun _ _ same => ⟨trivial, same⟩)))
    (fun _ _ both => both.2) (fun _ _ both => both.2)

theorem safetyData_observes :
    (onStorage safetyData).Observes (Unchanged before) (fun data => data = before.persisted) :=
  onStorage_observes PersistentSafetyStorage.safetyData_observes

theorem setSafetyData_satisfies (data : SafetyData) :
    (onStorage (setSafetyData data)).Satisfies (Unchanged before)
      (fun _ => Unchanged (before.withSafetyData data))
      (fun _ => Unchanged before) :=
  onStorage_writes (PersistentSafetyStorage.setSafetyData_satisfies data)

theorem signer_observes :
    signer.Observes (Unchanged before) (fun found => before.validatorSigner = some found) := by
  refine .andThen (.reads fun _ same => same.validatorSigner) ?_
  rintro _ rfl
  exact (Observes.lift _).weaken fun _ found => by simpa using found

theorem epochState_observes :
    epochStateOrFail.Observes (Unchanged before) (fun found => before.epochState = some found) := by
  refine .andThen (.reads fun _ same => same.epochState) ?_
  rintro _ rfl
  exact (Observes.lift _).weaken fun _ found => by simpa using found

/-- The key of the signer, if there is one, is held. -/
def SignerHeld : Prop :=
  ∀ signer, rules.validatorSigner = some signer → signer.KeyHeld rules.persistentStorage

/-- A call cannot fail to sign with a key that is held. -/
def CanSign : Prop :=
  rules.persistentStorage.internalStore.keyFaults = [] ∧ rules.SignerHeld

/-- Signing fails only without a signer or for an instance that cannot sign. -/
theorem sign_satisfies {message : Message} :
    (sign crypto message).Satisfies (Unchanged before)
      (fun _ after => before.SignerHeld ∧ Unchanged before after)
      (fun _ after =>
        (before.validatorSigner = none ∨ ¬ before.CanSign) ∧ Unchanged before after) := by
  intro rules same
  have shape : sign crypto message rules = (lift (Abort.okOr before.validatorSigner
    (.notInitialized "validator_signer")) >>= fun validatorSigner =>
      onStorage (validatorSigner.sign crypto message)) rules := by
    rw [← same.validatorSigner]
    rfl
  rw [shape]
  cases lookup : before.validatorSigner with
  | none => exact ⟨nofun, fun _ _ => ⟨.inl rfl, same⟩⟩
  | some validatorSigner =>
    have signed := onStorage_satisfies
      (ConfigurableValidatorSigner.sign_satisfies :
        (validatorSigner.sign crypto message).Satisfies _ _ _) rules same
    refine ⟨?_, ?_⟩
    · intro value returned
      obtain ⟨held, kept⟩ := signed.1 value returned
      refine ⟨?_, kept⟩
      intro found isFound
      rw [lookup] at isFound
      cases isFound
      exact held
    · intro failure failed
      obtain ⟨cannot, kept⟩ := signed.2 failure failed
      exact ⟨.inr fun can => cannot ⟨can.1, can.2 _ lookup⟩, kept⟩

variable {round : Nat}

theorem nextRound_ok {next : Nat} (returned : nextRound round = .ok next) : next = round + 1 := by
  unfold nextRound at returned
  split at returned
  · cases returned
    rfl
  · cases returned

variable {safetyData : SafetyData}

theorem verifyAndUpdateLastVoteRound_ok {updated : SafetyData}
    (returned : verifyAndUpdateLastVoteRound round safetyData = .ok updated) :
    safetyData.lastVotedRound < round ∧ updated = { safetyData with lastVotedRound := round } := by
  rw [verifyAndUpdateLastVoteRound, check_eq_ok_iff, Abort.ensure_eq_ok_iff] at returned
  obtain ⟨later, same⟩ := returned
  cases same
  exact ⟨later, rfl⟩

theorem verifyAndUpdatePreferredRound_ok {quorumCert : QuorumCert} {observed : Bool × SafetyData}
    (returned : verifyAndUpdatePreferredRound quorumCert safetyData = .ok observed) :
    safetyData.preferredRound ≤ quorumCert.certifiedBlock.round ∧
      observed = observeQc quorumCert safetyData := by
  rw [verifyAndUpdatePreferredRound, check_eq_ok_iff, Abort.ensure_eq_ok_iff] at returned
  obtain ⟨preferred, same⟩ := returned
  cases same
  exact ⟨preferred, rfl⟩

/-- Observing a certificate raises the two rounds to those it shows. -/
theorem observeQc_eq (qc : QuorumCert) (safetyData : SafetyData) :
    (observeQc qc safetyData).2 =
      { safetyData with
        oneChainRound := max safetyData.oneChainRound qc.certifiedBlock.round
        preferredRound := max safetyData.preferredRound qc.parentBlock.round } := by
  simp only [observeQc, SafetyData.mk.injEq, true_and, and_true]
  constructor <;> split <;> omega

theorem isThreeChain_ok {block0 block1 block2 : Nat}
    (returned : isThreeChain block0 block1 block2 = .ok true) :
    block1 = block0 + 1 ∧ block2 = block1 + 1 := by
  rw [isThreeChain, bind_eq_ok_iff] at returned
  obtain ⟨next0, isNext0, returned⟩ := returned
  have next0Shape := nextRound_ok isNext0
  split at returned
  · obtain ⟨next1, isNext1, returned⟩ := bind_eq_ok_iff.mp returned
    have next1Shape := nextRound_ok isNext1
    have sameRound : next1 = block2 := by simpa using Except.ok.inj returned
    omega
  · cases returned

theorem followsQcOrTc_ok {qcRound tcRound : Nat} {condition : Bool}
    (returned : followsQcOrTc round qcRound tcRound condition = .ok true) :
    round = qcRound + 1 ∨ (round = tcRound + 1 ∧ condition = true) := by
  rw [followsQcOrTc, bind_eq_ok_iff] at returned
  obtain ⟨nextQc, isNextQc, returned⟩ := returned
  split at returned
  · rename_i follows
    exact .inl (follows.trans (nextRound_ok isNextQc))
  · obtain ⟨nextTc, isNextTc, returned⟩ := bind_eq_ok_iff.mp returned
    have decided := Except.ok.inj returned
    simp only [Bool.and_eq_true, beq_iff_eq] at decided
    exact .inr ⟨decided.1.trans (nextRound_ok isNextTc), decided.2⟩

variable {block : Block}

variable {hash : HashValue} {info : LedgerInfo}

/-- The 3-chain commit rule commits the parent of the certified block. -/
theorem constructLedgerInfo_ok (returned : constructLedgerInfo block hash = .ok info) :
    info.consensusDataHash = hash ∧
    (info.commitInfo = BlockInfo.empty ∨
      (info.commitInfo = block.quorumCert.parentBlock ∧
        block.quorumCert.certifiedBlock.round = block.quorumCert.parentBlock.round + 1 ∧
        block.round = block.quorumCert.certifiedBlock.round + 1)) := by
  rw [constructLedgerInfo, bind_eq_ok_iff] at returned
  obtain ⟨commit, isCommit, returned⟩ := returned
  cases returned
  refine ⟨rfl, ?_⟩
  cases commit with
  | false => exact .inl rfl
  | true => exact .inr ⟨rfl, isThreeChain_ok isCommit⟩

/-- The 2-chain commit rule commits the certified block. -/
theorem constructLedgerInfo2chain_ok (returned : constructLedgerInfo2chain block hash = .ok info) :
    info.consensusDataHash = hash ∧
    (info.commitInfo = BlockInfo.empty ∨
      (info.commitInfo = block.quorumCert.certifiedBlock ∧
        block.round = block.quorumCert.certifiedBlock.round + 1)) := by
  rw [constructLedgerInfo2chain, bind_eq_ok_iff] at returned
  obtain ⟨next, isNext, returned⟩ := returned
  cases returned
  refine ⟨rfl, ?_⟩
  by_cases follows : next = block.round
  · have nextShape := nextRound_ok isNext
    exact .inr ⟨if_pos follows, by omega⟩
  · exact .inl (if_neg follows)

variable {maybeTc : Option TwoChainTimeoutCertificate}

/-- The 2-chain voting rule: the block follows its parent or a timeout. -/
theorem safeToVote_ok (returned : safeToVote block maybeTc = .ok ()) :
    block.round = block.quorumCert.certifiedBlock.round + 1 ∨ (maybeTc = none ∧ block.round = 1) ∨
      ∃ tc, maybeTc = some tc ∧ block.round = tc.round + 1 ∧
        tc.highestHqcRound ≤ block.quorumCert.certifiedBlock.round := by
  rw [safeToVote, bind_eq_ok_iff] at returned
  obtain ⟨safe, isSafe, returned⟩ := returned
  have holds : safe = true := by simpa using returned
  subst safe
  rcases followsQcOrTc_ok isSafe with followsQc | ⟨followsTc, highest⟩
  · exact .inl followsQc
  · cases maybeTc with
    | none => exact .inr (.inl ⟨rfl, followsTc⟩)
    | some tc => exact Or.inr (Or.inr ⟨tc, rfl, followsTc, by simpa using highest⟩)

variable {timeout : TwoChainTimeout}

theorem safeToTimeout_ok (returned : safeToTimeout timeout maybeTc safetyData = .ok ()) :
    safetyData.oneChainRound ≤ timeout.hqcRound := by
  rw [safeToTimeout, bind_eq_ok_iff] at returned
  obtain ⟨follows, -, returned⟩ := returned
  exact (Abort.ensure_eq_ok_iff.mp returned).2

variable {proposal : MaybeSignedVoteProposal} {voteData : VoteData}

variable (crypto proposal voteData) in
/-- What holds for a proposal that passed the checks before the voting rules. -/
structure VerifiedProposal : Prop where
  epoch : proposal.voteProposal.block.epoch = rules.persisted.epoch
  certificate : ∃ epochState, rules.epochState = some epochState ∧
    proposal.voteProposal.block.quorumCert.verify crypto epochState.verifier = .ok ()
  increasing :
    proposal.voteProposal.block.quorumCert.certifiedBlock.round < proposal.voteProposal.block.round
  voteData : ∃ executedStateId version,
    voteData = proposal.voteProposal.voteDataWith crypto executedStateId version

theorem VerifiedProposal.entered {rules : SafetyRules}
    (verified : VerifiedProposal crypto rules proposal voteData) : rules.epochState.isSome := by
  obtain ⟨epochState, known, -⟩ := verified.certificate
  simp [known]

variable (crypto maybeTc) in
/-- The timeout certificate, if there is one, is valid in this epoch. -/
def VerifiedTc : Prop :=
  ∀ tc, maybeTc = some tc →
    ∃ epochState, rules.epochState = some epochState ∧ tc.verify crypto epochState.verifier = .ok ()

theorem verifyQc_observes {qc : QuorumCert} :
    (verifyQc crypto qc).Observes (Unchanged before)
      (fun _ =>
        ∃ epochState,
          before.epochState = some epochState ∧ qc.verify crypto epochState.verifier = .ok ()) := by
  refine epochState_observes.andThen ?_
  intro epochState known
  exact (Observes.lift _).weaken fun _ verified => ⟨epochState, known, by simpa using verified⟩

theorem verifyTc_observes :
    (verifyTc crypto maybeTc).Observes (Unchanged before)
      (fun _ => VerifiedTc crypto before maybeTc) := by
  cases maybeTc with
  | none => exact .ret (by simp [VerifiedTc])
  | some tc =>
    refine epochState_observes.andThen ?_
    intro epochState known
    refine (Observes.lift _).weaken ?_
    rintro _ verified found ⟨⟩
    exact ⟨epochState, known, by simpa using verified⟩

variable {now : Nat}

theorem verifyProposal_observes :
    (verifyProposal crypto now proposal).Observes (Unchanged before)
      (VerifiedProposal crypto before proposal) := by
  refine .andThen (.reads fun _ same => same.executionPublicKey) ?_
  intro _ _
  refine .check ?_
  intro _ _
  refine safetyData_observes.andThen ?_
  rintro _ rfl
  refine .check ?_
  rintro ⟨⟩ sameEpoch
  refine verifyQc_observes.andThen ?_
  intro _ certificate
  refine epochState_observes.andThen ?_
  intro _ _
  refine .check ?_
  intro _ _
  refine .check ?_
  rintro ⟨⟩ wellFormed
  refine (Observes.lift _).weaken ?_
  intro voteData generated
  simp only [Block.verifyWellFormed, check_eq_ok_iff, ensure_eq_ok_iff,
    Abort.wrap_eq_ok_iff] at wellFormed
  exact ⟨by simpa [verifyEpoch] using sameEpoch, certificate, wellFormed.2.1,
    VoteProposal.genVoteData_ok (by simpa using generated)⟩

/-- The safety data after a vote for a block with the given certificate. -/
def votedData (safetyData : SafetyData) (block : Block) (vote : Vote) : SafetyData where
  epoch := safetyData.epoch
  lastVotedRound := block.round
  preferredRound := max safetyData.preferredRound block.quorumCert.parentBlock.round
  oneChainRound := max safetyData.oneChainRound block.quorumCert.certifiedBlock.round
  lastVote := some vote

/-- The safety data after a timeout. -/
def timedOutData (safetyData : SafetyData) (round : Nat) : SafetyData :=
  { safetyData with lastVotedRound := round }

variable (crypto proposal) in
/-- A vote that was not cast before, with the ledger info its rule yields. -/
structure CastVote (construct : Block → HashValue → Except Abort LedgerInfo)
    (vote : Vote) : Prop where
  verified : VerifiedProposal crypto rules proposal vote.voteData
  later : rules.persisted.lastVotedRound < proposal.voteProposal.block.round
  ledgerInfo :
    construct proposal.voteProposal.block (crypto.hashVoteData vote.voteData) = .ok vote.ledgerInfo

variable (crypto before proposal) in
/-- A returned vote is the last one again, or a new one that is persisted. -/
def VoteOutcome (construct : Block → HashValue → Except Abort LedgerInfo) (rule : Prop)
    (vote : Vote)
    (after : SafetyRules) : Prop :=
  (before.persisted.lastVote = some vote ∧ vote.round = proposal.voteProposal.block.round ∧
      before.epochState.isSome ∧
      Unchanged before after) ∨
  (CastVote crypto before proposal construct vote ∧ rule ∧ Unchanged
    (before.withSafetyData (votedData before.persisted proposal.voteProposal.block vote))
    after)

theorem previousVote_eq_some_iff {vote : Vote} :
    previousVote safetyData round = some vote ↔
      safetyData.lastVote = some vote ∧ vote.round = round := by
  simp [previousVote, Option.filter_eq_some_iff, Vote.round]

/-- A signed vote is persisted before it is returned. -/
theorem signVote_satisfies {ledgerInfo : Except Abort LedgerInfo} :
    (signVote crypto voteData ledgerInfo safetyData).Satisfies (Unchanged before)
      (fun vote after =>
        vote.voteData = voteData ∧ ledgerInfo = .ok vote.ledgerInfo ∧
          Unchanged (before.withSafetyData { safetyData with lastVote := some vote }) after)
      (fun _ => Unchanged before) := by
  refine signer_observes.andThen ?_
  intro validatorSigner _
  refine .check ?_
  intro info isInfo
  refine .bind
    (.weaken sign_satisfies (fun _ _ both => both.2) (fun _ _ both => both.2)) ?_
  intro signature
  refine .bind (setSafetyData_satisfies _) ?_
  intro _
  exact .ret fun _ written => ⟨rfl, isInfo, written⟩

/-- What a vote under the 3-chain rules does. -/
theorem guardedConstructAndSignVote_satisfies :
    (guardedConstructAndSignVote crypto now proposal).Satisfies (Unchanged before)
      (VoteOutcome crypto before proposal constructLedgerInfo
        (before.persisted.preferredRound ≤
          proposal.voteProposal.block.quorumCert.certifiedBlock.round))
      (fun _ => Unchanged before) := by
  refine signer_observes.andThen ?_
  intro _ _
  refine verifyProposal_observes.andThen ?_
  intro voteData verified
  refine safetyData_observes.andThen ?_
  rintro _ rfl
  cases previous : previousVote before.persisted proposal.voteProposal.block.round with
  | some vote =>
    simp only [previous]
    obtain ⟨isLast, sameRound⟩ := previousVote_eq_some_iff.mp previous
    exact .ret fun _ same => .inl ⟨isLast, sameRound, verified.entered, same⟩
  | none =>
    simp only [previous]
    refine .check ?_
    intro observed isObserved
    obtain ⟨preferred, observedShape⟩ := verifyAndUpdatePreferredRound_ok isObserved
    refine .check ?_
    intro updated isUpdated
    obtain ⟨later, updatedShape⟩ := verifyAndUpdateLastVoteRound_ok isUpdated
    rw [observedShape, observeQc_eq] at later updatedShape
    refine .weaken signVote_satisfies ?_ (fun _ _ same => same)
    rintro vote after ⟨rfl, isInfo, written⟩
    rw [updatedShape] at written
    exact .inr ⟨⟨verified, later, isInfo⟩, preferred, written⟩

/-- What a vote under the 2-chain rules does. -/
theorem guardedConstructAndSignVoteTwoChain_satisfies
    {timeoutCert : Option TwoChainTimeoutCertificate} :
    (guardedConstructAndSignVoteTwoChain crypto now proposal timeoutCert).Satisfies
      (Unchanged before)
      (fun vote after =>
        VerifiedTc crypto before timeoutCert ∧
        VoteOutcome crypto before proposal constructLedgerInfo2chain
          (safeToVote proposal.voteProposal.block timeoutCert = .ok ())
          vote after)
      (fun _ => Unchanged before) := by
  refine signer_observes.andThen ?_
  intro _ _
  refine verifyProposal_observes.andThen ?_
  intro voteData verified
  refine verifyTc_observes.andThen ?_
  intro _ verifiedTc
  refine safetyData_observes.andThen ?_
  rintro _ rfl
  cases previous : previousVote before.persisted proposal.voteProposal.block.round with
  | some vote =>
    obtain ⟨isLast, sameRound⟩ := previousVote_eq_some_iff.mp previous
    exact .ret fun _ same =>
      ⟨verifiedTc, .inl ⟨isLast, sameRound, verified.entered, same⟩⟩
  | none =>
    refine .check ?_
    intro updated isUpdated
    obtain ⟨later, updatedShape⟩ := verifyAndUpdateLastVoteRound_ok isUpdated
    refine .check ?_
    rintro ⟨⟩ safe
    refine .weaken signVote_satisfies ?_ (fun _ _ same => same)
    rintro vote after ⟨rfl, isInfo, written⟩
    rw [observeQc_eq, updatedShape] at written
    exact ⟨verifiedTc, .inr ⟨⟨verified, later, isInfo⟩, safe, written⟩⟩

/-- A timeout raised the last voted round to its round. -/
structure TimedOut (before : SafetyRules) (round : Nat) (after : SafetyRules) : Prop where
  notEarlier : before.persisted.lastVotedRound ≤ round
  recorded : Unchanged (before.withSafetyData (timedOutData before.persisted round)) after

theorem recordTimeout_satisfies :
    (recordTimeout round before.persisted).Satisfies (Unchanged before)
      (fun _ => TimedOut before round) (fun _ => Unchanged before) := by
  refine .check ?_
  rintro ⟨⟩ notEarlier
  rw [Abort.ensure_eq_ok_iff] at notEarlier
  by_cases later : round > before.persisted.lastVotedRound
  · rw [if_pos later]
    refine .check ?_
    intro updated isUpdated
    obtain ⟨-, updatedShape⟩ := verifyAndUpdateLastVoteRound_ok isUpdated
    subst updatedShape
    exact (setSafetyData_satisfies _).weaken
      (fun _ _ written => ⟨notEarlier, written⟩) (fun _ _ same => same)
  · rw [if_neg later]
    have sameRound : before.persisted.lastVotedRound = round := by omega
    have sameData : timedOutData before.persisted round = before.persisted := by
      rw [timedOutData, ← sameRound]
    refine .ret fun _ same => ⟨notEarlier, ?_⟩
    rw [sameData]
    exact { same with storage := same.storage.rewritten }

/--
A failed timeout changed nothing, or the signature was missing after the round had
been recorded.
-/
def TimeoutFailed (before : SafetyRules) (round : Nat) (after : SafetyRules) : Prop :=
  Unchanged before after ∨
  (¬ before.CanSign ∧ before.persisted.lastVotedRound ≤ round ∧
    Unchanged (before.withSafetyData (timedOutData before.persisted round)) after)

theorem recordAndSign_satisfies {validatorSigner : ConfigurableValidatorSigner}
    (known : before.validatorSigner = some validatorSigner) :
    (do
      recordTimeout round before.persisted
      sign crypto message).Satisfies
      (Unchanged before)
      (fun _ => TimedOut before round) (fun _ => TimeoutFailed before round) := by
  refine .andThen recordTimeout_satisfies (fun _ _ => .inl) ?_
  rintro ⟨⟩ rules ⟨notEarlier, recorded⟩
  obtain ⟨signed, failed⟩ := sign_satisfies rules recorded
  refine ⟨fun value returned => ⟨notEarlier, (signed value returned).2⟩, ?_⟩
  intro failure returned
  obtain ⟨cannot, kept⟩ := failed failure returned
  refine .inr ⟨?_, notEarlier, kept⟩
  rcases cannot with noSigner | cannotSign
  · have isNone : before.validatorSigner = none := noSigner
    rw [known] at isNone
    cases isNone
  · exact cannotSign

/-- What a timeout of the 3-chain protocol does. -/
theorem guardedSignTimeout_satisfies {timeout : Timeout} :
    (guardedSignTimeout crypto timeout).Satisfies (Unchanged before)
      (fun _ => TimedOut before timeout.round)
      (fun _ => TimeoutFailed before timeout.round) := by
  refine signer_observes.bind (fun _ _ => .inl) ?_
  intro validatorSigner known
  refine safetyData_observes.bind (fun _ _ => Or.inl) ?_
  rintro _ rfl
  refine (Observes.lift _).bind (fun _ _ => Or.inl) ?_
  intro _ _
  refine (Observes.lift _).bind (fun _ _ => Or.inl) ?_
  intro _ _
  exact recordAndSign_satisfies known

variable (crypto timeout) in
/-- What holds for a timeout of the 2-chain protocol that was signed. -/
structure SignedTimeout (timeoutCert : Option TwoChainTimeoutCertificate) : Prop where
  entered : rules.epochState.isSome
  epoch : timeout.epoch = rules.persisted.epoch
  verifiedTc : VerifiedTc crypto rules timeoutCert
  safe : rules.persisted.oneChainRound ≤ timeout.hqcRound
  later : rules.persisted.lastVotedRound ≤ timeout.round

/-- What a timeout of the 2-chain protocol does. -/
theorem guardedSignTimeoutWithQc_satisfies {timeoutCert : Option TwoChainTimeoutCertificate} :
    (guardedSignTimeoutWithQc crypto timeout timeoutCert).Satisfies (Unchanged before)
      (fun _ after =>
        SignedTimeout crypto before timeout timeoutCert ∧
          Unchanged (before.withSafetyData (timedOutData before.persisted timeout.round)) after)
      (fun _ => TimeoutFailed before timeout.round) := by
  refine signer_observes.bind (fun _ _ => .inl) ?_
  intro validatorSigner known
  refine safetyData_observes.bind (fun _ _ => Or.inl) ?_
  rintro _ rfl
  refine (Observes.lift _).bind (fun _ _ => Or.inl) ?_
  rintro ⟨⟩ sameEpoch
  refine epochState_observes.bind (fun _ _ => Or.inl) ?_
  intro epochState entered
  refine (Observes.lift _).bind (fun _ _ => Or.inl) ?_
  intro _ _
  refine verifyTc_observes.bind (fun _ _ => Or.inl) ?_
  intro _ verifiedTc
  refine (Observes.lift _).bind (fun _ _ => Or.inl) ?_
  rintro ⟨⟩ safe
  refine (recordAndSign_satisfies known).weaken ?_ (fun _ _ failed => failed)
  rintro _ after ⟨later, recorded⟩
  exact ⟨⟨by simp [entered], by simpa [verifyEpoch] using sameEpoch,
    verifiedTc, safeToTimeout_ok safe, later⟩, recorded⟩

theorem verifyAuthor_observes {author : Option AccountAddress} :
    (verifyAuthor author).Observes (Unchanged before) (fun _ => True) := by
  refine signer_observes.andThen ?_
  intro _ _
  refine .check ?_
  intro _ _
  exact (Observes.lift _).weaken fun _ _ => trivial

/-- Signing a proposal changes nothing. -/
theorem guardedSignProposal_observes {blockData : BlockData} :
    (guardedSignProposal crypto blockData).Observes (Unchanged before) (fun _ => True) := by
  refine signer_observes.andThen ?_
  intro _ _
  refine verifyAuthor_observes.andThen ?_
  intro _ _
  refine safetyData_observes.andThen ?_
  intro _ _
  refine .check ?_
  intro _ _
  refine .check ?_
  intro _ _
  refine verifyQc_observes.andThen ?_
  intro _ _
  refine .check ?_
  intro _ _
  exact .weaken sign_satisfies (fun _ _ both => ⟨trivial, both.2⟩) (fun _ _ both => both.2)

/-- The instance with another waypoint persisted. -/
def withWaypoint (waypoint : Waypoint) : SafetyRules :=
  { rules with
    persistentStorage := rules.persistentStorage.withWaypoint waypoint }

variable (validatorSigner : Option ConfigurableValidatorSigner)

/-- The instance with another signer. -/
def withSigner : SafetyRules := { rules with validatorSigner }

/-- The instance with the validators of another epoch. -/
def withEpochState (epochState : EpochState) : SafetyRules :=
  { rules with epochState := some epochState }

/-- The safety data with which an epoch is entered. -/
def epochData (safetyData : SafetyData) (epoch : Nat) : SafetyData :=
  if safetyData.epoch < epoch then freshSafetyData epoch else safetyData

theorem Unchanged.withSigner (same : Unchanged before after)
    (validatorSigner : Option ConfigurableValidatorSigner) :
    Unchanged (before.withSigner validatorSigner) (after.withSigner validatorSigner) :=
  { same with validatorSigner := rfl }

variable {epochState : EpochState}

/-- An epoch is entered unless the safety data is of a later one. -/
theorem startEpoch_satisfies {waypoint newWaypoint : Waypoint} :
    (startEpoch waypoint newWaypoint epochState).Satisfies (Unchanged before)
      (fun _ after =>
        before.persisted.epoch ≤ epochState.epoch ∧
          Unchanged (before.withSafetyData (epochData before.persisted epochState.epoch)) after)
      (fun _ => Unchanged before) := by
  refine safetyData_observes.andThen ?_
  rintro _ rfl
  by_cases tooLate : before.persisted.epoch > epochState.epoch
  · rw [if_pos tooLate]
    exact .lift (fun _ impossible => by cases impossible) (fun _ _ _ same => same)
  · rw [if_neg tooLate]
    by_cases newer : before.persisted.epoch < epochState.epoch
    · rw [if_pos newer, epochData, if_pos newer]
      exact (setSafetyData_satisfies _).weaken
        (fun _ _ written => ⟨newer.le, written⟩) (fun _ _ same => same)
    · rw [if_neg newer, epochData, if_neg newer]
      exact .ret fun _ same =>
        ⟨not_lt.mp tooLate, { same with storage := same.storage.rewritten }⟩

/-- The signer is kept, or replaced by one whose key is held. -/
theorem reconcileKey_satisfies {author : AccountAddress} :
    (reconcileKey crypto author epochState).Satisfies (Unchanged before)
      (fun _ after =>
        ∃ validatorSigner, (validatorSigner = before.validatorSigner ∨
          (before.withSigner validatorSigner).SignerHeld) ∧
          Unchanged (before.withSigner validatorSigner) after)
      (fun _ after => Unchanged (before.withSigner none) (after.withSigner none)) := by
  have aborted : ∀ (failure : Abort) rules, Unchanged before rules →
        Unchanged (before.withSigner none) (rules.withSigner none) :=
    fun _ _ same => same.withSigner none
  unfold reconcileKey
  cases epochState.verifier.getPublicKey author with
  | none =>
    exact .lift (fun _ impossible => by cases impossible)
      (fun failure _ rules same => aborted failure rules same)
  | some expectedKey =>
    refine bind (reads fun _ same => same.validatorSigner) aborted ?_
    rintro _ rfl
    refine bind (reads fun _ same => same.exportConsensusKey) aborted ?_
    rintro _ rfl
    split
    · exact .ret fun _ same => ⟨before.validatorSigner, .inl rfl, same⟩
    · split
      · refine .bind
          (.mapError
            (.weaken (onStorage_observes consensusKeyForVersion_observes)
              (fun _ _ both => both)
              (fun failure rules same => aborted failure rules same))) ?_
        intro consensusKey
        refine .modify _ fun rules both =>
          ⟨some (.signer author consensusKey), .inr ?_, both.2.withSigner _⟩
        rintro found ⟨⟩
        trivial
      · refine .bind
          (.modify
            (fun _ => Unchanged (before.withSigner (some (.handle author expectedKey))))
            fun _ same => same.withSigner _) ?_
        intro _
        refine .bind
          (.mapError
            (.weaken sign_satisfies (fun _ _ both => both)
              (fun _ rules both => both.2.withSigner none))) ?_
        intro signature
        exact .ret fun rules both => ⟨_, .inr both.1, both.2⟩

/-- What a call that moves to another epoch makes of an instance. -/
structure EpochMove (before : SafetyRules) (proof : EpochChangeProof)
    (after : SafetyRules) : Prop where
  epoch : (after.persisted = before.persisted ∧ after.epochState = before.epochState) ∨
    ∃ epochState, proof.LeadsTo epochState ∧ after.epochState = some epochState ∧
      before.persisted.epoch ≤ epochState.epoch ∧
      after.persisted = epochData before.persisted epochState.epoch
  waypoint : before.persistentStorage.internalStore.waypoint.version ≤
    after.persistentStorage.internalStore.waypoint.version
  consensusKeys : after.persistentStorage.internalStore.consensusKeys =
    before.persistentStorage.internalStore.consensusKeys
  signerHeld : before.SignerHeld → after.SignerHeld

/-- An instance after a call that moves to another epoch. -/
def Moved (before : SafetyRules) (proof : EpochChangeProof) (after : SafetyRules) : Prop :=
  ∃ target, EpochMove before proof target ∧ Unchanged target after

variable {proof : EpochChangeProof}

theorem EpochMove.refl : EpochMove before proof before where
  epoch := .inl ⟨rfl, rfl⟩
  waypoint := le_rfl
  consensusKeys := rfl
  signerHeld := fun held => held

/-- The waypoint is replaced by a newer one only. -/
theorem raiseWaypoint_satisfies (before : SafetyRules) (proof : EpochChangeProof)
    (newWaypoint : Waypoint) :
    ∃ base, EpochMove before proof base ∧ base.persisted = before.persisted ∧
      (raiseWaypoint before.persistentStorage.internalStore.waypoint
        newWaypoint).Satisfies (Unchanged before) (fun _ => Unchanged base)
        (fun _ => Unchanged before) := by
  unfold raiseWaypoint
  split
  · rename_i newer
    refine ⟨before.withWaypoint newWaypoint,
      ⟨.inl ⟨rfl, rfl⟩, newer.le, rfl, fun held => held⟩, rfl, ?_⟩
    exact onStorage_writes (setWaypoint_satisfies newWaypoint)
  · exact ⟨before, .refl, rfl, .ret fun _ same => same⟩

theorem EpochMove.enter {base : SafetyRules} {validatorSigner : Option ConfigurableValidatorSigner}
    (move : EpochMove before proof base) (samePersisted : base.persisted = before.persisted)
    (leads : proof.LeadsTo epochState) (notLater : base.persisted.epoch ≤ epochState.epoch)
    (held : validatorSigner = base.validatorSigner ∨ (base.withSigner validatorSigner).SignerHeld) :
    EpochMove before proof
      (((base.withSafetyData
          (epochData base.persisted epochState.epoch)).withEpochState
            epochState).withSigner validatorSigner) where
  epoch := .inr ⟨epochState, leads, rfl, samePersisted ▸ notLater, samePersisted ▸ rfl⟩
  waypoint := move.waypoint
  consensusKeys := move.consensusKeys
  signerHeld := by
    intro heldBefore signer isSigner
    rcases held with kept | replaced
    · exact move.signerHeld heldBefore signer (kept ▸ isSigner)
    · exact replaced signer isSigner

/-- What moving to another epoch does. -/
theorem guardedInitialize_satisfies :
    (guardedInitialize crypto proof).Satisfies (Unchanged before) (fun _ => Moved before proof)
      (fun _ => Moved before proof) := by
  have nothing : ∀ (failure : Abort) rules, Unchanged before rules → Moved before proof rules :=
    fun _ _ same => ⟨before, .refl, same⟩
  refine (onStorage_observes (get_observes fun _ same => same.waypoint)).bind nothing ?_
  rintro _ rfl
  refine (Observes.lift _).bind nothing ?_
  intro last verified
  refine (Observes.lift _).bind nothing ?_
  intro epochState isNext
  refine (Observes.lift _).bind nothing ?_
  intro newWaypoint _
  have leads : proof.LeadsTo epochState :=
    ⟨last, EpochChangeProof.verify_ok (Abort.wrap_eq_ok_iff.mp verified),
      Abort.okOr_eq_ok_iff.mp isNext⟩
  obtain ⟨base, move, samePersisted, raised⟩ := raiseWaypoint_satisfies before proof newWaypoint
  have onlyBase : ∀ (failure : Abort) rules, Unchanged base rules → Moved before proof rules :=
    fun _ _ same => ⟨base, move, same⟩
  refine .andThen raised nothing ?_
  intro _
  refine .andThen startEpoch_satisfies onlyBase ?_
  rintro ⟨⟩ entered ⟨notLater, sameEntered⟩
  let target :=
    (base.withSafetyData (epochData base.persisted epochState.epoch) ).withEpochState epochState
  have inEpoch : ∀ validatorSigner,
        (validatorSigner = base.validatorSigner ∨ (base.withSigner validatorSigner).SignerHeld) →
        EpochMove before proof (target.withSigner validatorSigner) :=
    fun _ held => move.enter samePersisted leads notLater held
  have rest : (do
        let author ← onStorage author
        Stateful.onError (fun rules => { rules with validatorSigner := none })
          (reconcileKey crypto author epochState)).Satisfies
        (Unchanged target) (fun _ => Moved before proof)
        (fun _ => Moved before proof) := by
    refine (onStorage_observes (get_observes fun _ same => same.ownerAccount)).bind
      (fun _ _ same => ⟨target, inEpoch _ (.inl rfl), same⟩) ?_
    rintro _ rfl
    refine .onError (.weaken reconcileKey_satisfies ?_ ?_)
    · rintro _ rules ⟨validatorSigner, held, same⟩
      exact ⟨_, inEpoch validatorSigner held, same⟩
    · intro _ rules same
      exact ⟨_, inEpoch none (.inr fun _ impossible => by cases impossible), same⟩
  exact rest { entered with epochState := some epochState }
    { sameEntered with epochState := rfl }

end SafetyRules

end Diem
