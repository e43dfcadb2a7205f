import Diem.EventProofs
import Diem.StateCommits

namespace Diem

open Fallible StateCommit TreeReader LedgerHashing

/-!
# Certified account states

A client that trusts a ledger info gets an account with a proof in two steps
(`types/src/proof/definition.rs`): the transaction info is in the ledger, and the account
is in the state tree with the root hash that the info carries.
-/

structure AccountStateProof where
  transactionInfoWithProof : TransactionInfoWithProof
  transactionInfoToAccountProof : SparseMerkleProof

variable {Transaction ContractEvent Value : Type}
  {hashing : LedgerHashing Transaction ContractEvent}
  {hasher : StateHasher Value} {ledgerInfo : LedgerInfo}
  {ledger : List TransactionInfo} {counts : Bool} {calls : List (StateCommit Value)}
  {store : StateStore Value}

variable (hashing hasher ledgerInfo) in
/-- The account has the blob, or does not exist, at the version. -/
def AccountStateProof.verify (proof : AccountStateProof) (stateVersion : Nat)
    (accountAddressHash : AccountKey)
    (accountStateBlob : Option Value) : Fallible Unit := do
  let info := proof.transactionInfoWithProof
  proof.transactionInfoToAccountProof.verify hasher info.transactionInfo.stateChangeHash
    accountAddressHash accountStateBlob
  verifyTransactionInfo hashing ledgerInfo stateVersion
    info.transactionInfo info.ledgerInfoToTransactionInfoProof

/--
Storage commits states from an empty tree on, and the ledger records the root hashes that
it returns.  A client then accepts for an account and a version only the last write up to
the version, and accepts what storage returns with any valid proof of the transaction info.
-/
theorem account_states_certified
    (free : hashing.CollisionFree)
    (stateFree : hasher.CollisionFree)
    (commits : hashing.Commits ledgerInfo ledger)
    (committed : StateStore.commitAll hasher counts 0 calls .empty =
      .ok (ledger.map (·.stateChangeHash), store))
    {version : Nat}
    {info : TransactionInfo}
    (found : ledger[version]? = some info)
    (key : AccountKey) :
    (∀ proof blob, AccountStateProof.verify hashing hasher ledgerInfo proof version key blob =
      .ok () → blob = stateAt (allValueSets calls) version key) ∧
    ∃ blob stateProof, store.nodes.getWithProof hasher key version = .ok (blob, stateProof) ∧
      ∀ proof, verifyTransactionInfo hashing ledgerInfo version info proof = .ok () →
        AccountStateProof.verify hashing hasher ledgerInfo ⟨⟨proof, info⟩, stateProof⟩
          version key blob = .ok () := by
  have outcome := StateStore.commitAll_outcome (Committed.empty hasher counts) calls
  rw [List.length_nil, committed] at outcome
  obtain ⟨-, _, ⟨⟩, tries, held, roots⟩ | ⟨-, ⟨⟩⟩ := outcome
  rw [List.nil_append, List.nil_append] at held
  -- the root hash in the info is that of the tree of its version
  have recorded := congrArg (·[version]?) roots
  simp only [rootHashesOf, List.getElem?_map, found, Option.map_some] at recorded
  obtain ⟨trie, isTrie, isRoot⟩ := Option.map_eq_some_iff.mp recorded.symm
  rw [toNode_hash counts (held.represents isTrie) (held.evolves.created isTrie).1] at isRoot
  constructor
  · intro proof blob accepted
    obtain ⟨inState, inLedger⟩ := check_eq_ok_iff.mp accepted
    rw [verifyTransactionInfo_sound free commits found inLedger, ← isRoot] at inState
    exact (SparseMerkleProof.verify_sound stateFree inState).symm
  · have bound := (List.getElem?_eq_some_iff.mp isTrie).1
    rw [held.length] at bound
    refine ⟨_, _, getWithProof_eq (held.holds (Nat.zero_le version) bound) key, ?_⟩
    intro proof accepted
    have inState := SparseMerkleProof.ofState_verify hasher
      (stateAt (allValueSets calls) version) key
    rw [isRoot] at inState
    exact check_eq_ok_iff.mpr ⟨inState, accepted⟩

/-- The info of a transaction that leaves some accounts. -/
def accountInfo (stateChangeHash : HashValue) : TransactionInfo :=
  { plainInfo 0 with stateChangeHash }

/-- Two transactions write two accounts; the first account is proved at the second version. -/
theorem account_states_certified_second :
    let first := symbolicHasher.leaf (repeatedKey 5) (.atom 7)
    let second := symbolicHasher.internal first (symbolicHasher.leaf (repeatedKey 9) (.atom 8))
    let leaf root := symbolic.hashTransactionInfo (accountInfo root)
    let ledgerInfo := plainLedgerInfo 1
      (symbolic.transactionAccumulator.internal (leaf first) (leaf second))
    let accepts blob := ∃ proof : AccountStateProof,
      proof.verify symbolic symbolicHasher ledgerInfo 1 (repeatedKey 5) blob = .ok ()
    accepts (some 7) ∧ ¬ accepts none := by
  intro first second leaf ledgerInfo accepts
  obtain ⟨sound, blob, stateProof, -, complete⟩ :=
    account_states_certified symbolic_collisionFree symbolicHasher_collisionFree
      (⟨rfl, by decide, _, rfl, rfl⟩ :
        symbolic.Commits ledgerInfo [accountInfo first, accountInfo second])
      (rfl : StateStore.commitAll symbolicHasher false 0
        [.putValueSets [[(repeatedKey 5, 7)], [(repeatedKey 9, 8)]]] .empty = .ok ([_, _], _))
      (rfl : _[1]? = some (accountInfo second)) (repeatedKey 5)
  have accepted := complete ⟨[leaf first]⟩ rfl
  have value : stateAt [[(repeatedKey 5, 7)], [(repeatedKey 9, 8)]] 1 (repeatedKey 5) = some 7 := by
    decide +kernel
  obtain rfl : blob = some 7 := (sound _ _ accepted).trans value
  exact ⟨⟨_, accepted⟩, fun ⟨proof, refused⟩ => nomatch (sound proof none refused).trans value⟩

end Diem
