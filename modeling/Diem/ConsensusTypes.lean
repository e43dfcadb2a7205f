import Diem.InMemoryAccumulator
import Diem.LedgerInfo

namespace Diem

open MerkleForest

/-!
# Blocks, votes and certificates

The data that validators exchange and sign (`consensus/consensus-types`,
`types/src/waypoint.rs`, `types/src/epoch_change.rs`).  A validator signs the hash of
a typed message, so the messages are the constructors of `Message`: a signature on
one kind of message is never one on another kind.  `Crypto` collects the hash
functions and the signature scheme that the code takes from `diem-crypto`.
-/

structure Signature where
  term : HashValue
  deriving DecidableEq, Repr

/-- A ledger info with the signatures gathered for it. -/
structure LedgerInfoWithSignatures where
  ledgerInfo : LedgerInfo
  signatures : OrderedMap AccountAddress Signature
  deriving DecidableEq

namespace LedgerInfoWithSignatures

def commitInfo (signed : LedgerInfoWithSignatures) : BlockInfo :=
  signed.ledgerInfo.commitInfo

/-- Record the signature of a validator that has none yet. -/
def addSignature (signed : LedgerInfoWithSignatures) (validator : AccountAddress)
    (signature : Signature) : LedgerInfoWithSignatures :=
  { signed with signatures := signed.signatures.orInsert validator signature }

end LedgerInfoWithSignatures

/-- What a vote is about: the proposed block and the block it extends. -/
structure VoteData where
  proposed : BlockInfo
  parent : BlockInfo
  deriving DecidableEq

/-- A quorum's votes for a block. -/
structure QuorumCert where
  voteData : VoteData
  signedLedgerInfo : LedgerInfoWithSignatures
  deriving DecidableEq

namespace QuorumCert

variable (cert : QuorumCert)

/-- The block the certificate is about. -/
def certifiedBlock : BlockInfo := cert.voteData.proposed

def parentBlock : BlockInfo := cert.voteData.parent

def ledgerInfo : LedgerInfoWithSignatures :=
  cert.signedLedgerInfo

def commitInfo : BlockInfo :=
  cert.ledgerInfo.ledgerInfo.commitInfo

/-- Whether the certificate commits a block that ends its epoch. -/
def endsEpoch : Bool :=
  cert.signedLedgerInfo.ledgerInfo.endsEpoch

end QuorumCert

/-- A user transaction; consensus never looks inside. -/
structure SignedTransaction where
  bytes : Nat
  deriving DecidableEq, Repr

/-- The transactions of a block. -/
abbrev Payload := List SignedTransaction

/-- How a block came about. -/
inductive BlockType where
  | proposal (payload : Payload) (author : AccountAddress)
  | nilBlock
  | genesis
  deriving DecidableEq

/-- The signed part of a block. -/
structure BlockData where
  epoch : Nat
  round : Nat
  timestampUsecs : Nat
  quorumCert : QuorumCert
  blockType : BlockType
  deriving DecidableEq

namespace BlockData

variable (data : BlockData)

def author : Option AccountAddress :=
  match data.blockType with
  | .proposal _ author => some author
  | .nilBlock => none
  | .genesis => none

def payload : Option Payload :=
  match data.blockType with
  | .proposal payload _ => some payload
  | .nilBlock => none
  | .genesis => none

/-- Whether the block starts an epoch. -/
def isGenesisBlock : Bool := data.blockType = .genesis

/-- Whether the block only fills a round. -/
def isNilBlock : Bool := data.blockType = .nilBlock

end BlockData

/--
A block.  The source also stores the block's id, which every constructor and the
deserialiser set to the hash of the block data; here it is `Block.id`.
-/
structure Block where
  blockData : BlockData
  signature : Option Signature
  deriving DecidableEq

namespace Block

variable (block : Block)

def epoch : Nat := block.blockData.epoch

def round : Nat := block.blockData.round

/-- The certificate of the block's parent. -/
def quorumCert : QuorumCert := block.blockData.quorumCert

def parentId : HashValue := block.quorumCert.certifiedBlock.id

end Block

/-- A timeout of the 3-chain protocol. -/
structure Timeout where
  epoch : Nat
  round : Nat
  deriving DecidableEq, Repr

/-- A timeout of the 2-chain protocol, with the signer's highest certificate. -/
structure TwoChainTimeout where
  epoch : Nat
  round : Nat
  quorumCert : QuorumCert
  deriving DecidableEq

/-- The part of a 2-chain timeout that is signed. -/
structure TimeoutSigningRepr where
  epoch : Nat
  round : Nat
  hqcRound : Nat
  deriving DecidableEq, Repr

namespace TwoChainTimeout

/-- The round of the signer's highest certificate. -/
def hqcRound (timeout : TwoChainTimeout) : Nat :=
  timeout.quorumCert.certifiedBlock.round

/-- What the signer of a timeout signs. -/
def signingFormat (timeout : TwoChainTimeout) : TimeoutSigningRepr where
  epoch := timeout.epoch
  round := timeout.round
  hqcRound := timeout.hqcRound

end TwoChainTimeout

/-- A quorum's timeouts of one round in the 3-chain protocol. -/
structure TimeoutCertificate where
  timeout : Timeout
  signatures : OrderedMap AccountAddress Signature
  deriving DecidableEq

/--
A quorum's timeouts of one round in the 2-chain protocol; every signer signs the
round of its own highest certificate.
-/
structure TwoChainTimeoutCertificate where
  timeout : TwoChainTimeout
  signatures : OrderedMap AccountAddress (Nat × Signature)
  deriving DecidableEq

namespace TwoChainTimeoutCertificate

variable (cert : TwoChainTimeoutCertificate)

def epoch : Nat := cert.timeout.epoch

def round : Nat := cert.timeout.round

/-- The highest certified round any signer knew of. -/
def highestHqcRound : Nat := cert.timeout.hqcRound

end TwoChainTimeoutCertificate

/-- A validator's vote for a block. -/
structure Vote where
  voteData : VoteData
  author : AccountAddress
  ledgerInfo : LedgerInfo
  signature : Signature
  timeoutSignature : Option Signature
  twoChainTimeout : Option (TwoChainTimeout × Signature)
  deriving DecidableEq

namespace Vote

def newWithSignature (voteData : VoteData) (author : AccountAddress) (ledgerInfo : LedgerInfo)
    (signature : Signature) : Vote where
  voteData
  author
  ledgerInfo
  signature
  timeoutSignature := none
  twoChainTimeout := none

def epoch (vote : Vote) : Nat := vote.voteData.proposed.epoch

def round (vote : Vote) : Nat := vote.voteData.proposed.round

end Vote

/-- What a validator has to remember to vote safely. -/
structure SafetyData where
  epoch : Nat
  lastVotedRound : Nat
  preferredRound : Nat
  oneChainRound : Nat
  lastVote : Option Vote
  deriving DecidableEq

/-- A proof that leaves turn one accumulator into another. -/
structure AccumulatorExtensionProof where
  frozenSubtreeRoots : List HashValue
  numLeaves : Nat
  leaves : List HashValue
  deriving DecidableEq

/-- A block with the proof of its execution result. -/
structure VoteProposal where
  accumulatorExtensionProof : AccumulatorExtensionProof
  block : Block
  nextEpochState : Option EpochState
  decoupledExecution : Bool
  deriving DecidableEq

/-- A vote proposal the execution service may have signed. -/
structure MaybeSignedVoteProposal where
  voteProposal : VoteProposal
  signature : Option Signature
  deriving DecidableEq

/-- The certificates with which a peer is brought up to date. -/
structure SyncInfo where
  highestQuorumCert : QuorumCert
  highestOrderedCert? : Option QuorumCert
  highestLedgerInfo? : Option LedgerInfoWithSignatures
  highestTimeoutCert : Option TimeoutCertificate
  highestTwoChainTimeoutCert : Option TwoChainTimeoutCertificate
  deriving DecidableEq

/-- A trusted version of the ledger. -/
structure Waypoint where
  version : Nat
  value : HashValue
  deriving DecidableEq, Repr

/-- The fields of a ledger info that a waypoint commits to. -/
structure Ledger2WaypointConverter where
  epoch : Nat
  rootHash : HashValue
  version : Nat
  timestampUsecs : Nat
  nextEpochState : Option EpochState
  deriving DecidableEq

/-- The ledger infos that lead from one epoch to another. -/
structure EpochChangeProof where
  ledgerInfoWithSigs : List LedgerInfoWithSignatures
  more : Bool
  deriving DecidableEq

/-- What can be signed. -/
inductive Message where
  | ledgerInfo (info : LedgerInfo)
  | blockData (data : BlockData)
  | timeout (timeout : Timeout)
  | timeoutSigningRepr (timeout : TimeoutSigningRepr)
  | voteProposal (proposal : VoteProposal)
  deriving DecidableEq

/--
The hash functions and the signature scheme.  A private key is named by its public
key, so `sign` takes the public key of the pair that signs.
-/
structure Crypto where
  hashBlockData : BlockData → HashValue
  hashVoteData : VoteData → HashValue
  hashWaypoint : Ledger2WaypointConverter → HashValue
  transactionAccumulator : Hasher HashValue
  sign : PublicKey → Message → Signature
  verify : PublicKey → Message → Signature → Bool
  batchVerify : Message → List (PublicKey × Signature) → Bool

namespace Crypto

/-- Every signature of an accepted batch verifies on its own. -/
def BatchSound (crypto : Crypto) : Prop :=
  ∀ message pairs, crypto.batchVerify message pairs = true →
    ∀ pair ∈ pairs, crypto.verify pair.1 message pair.2 = true

/-- Different vote data have different hashes. -/
def CollisionFree (crypto : Crypto) : Prop :=
  Function.Injective crypto.hashVoteData

end Crypto

namespace Block

variable (crypto : Crypto) (block : Block)

/-- The id of a block is the hash of its data. -/
def id : HashValue := crypto.hashBlockData block.blockData

/-- The block info of a block with the given execution result. -/
def genBlockInfo (executedStateId : HashValue) (version : Nat)
    (nextEpochState : Option EpochState) : BlockInfo where
  epoch := block.epoch
  round := block.round
  id := block.id crypto
  executedStateId
  version
  timestampUsecs := block.blockData.timestampUsecs
  nextEpochState

end Block

end Diem
