import Diem.MultiEd25519Codec
import Mathlib.Data.Finset.Card

namespace Diem

open MultiEd25519 MultiEd25519Signature Fallible MultiKey CryptoMaterialError

/-!
# Transaction authenticators

What a transaction carries to show that its signers agree
(`types/src/transaction/authenticator.rs`), how it arrives from the network and from
the JSON interface (`api/types/src/transaction.rs`), and when it is accepted.
-/

/-- The largest number of single signatures of a transaction. -/
def maxNumOfSigs : Nat := 32

/-- The bytes that the signers of a transaction sign. -/
structure SigningMessages (RawTransaction Address Message : Type) where
  rawTransaction : RawTransaction → Message
  multiAgent : RawTransaction → List Address → Message

section Authenticators

variable {Message : Type} (scheme : Ed25519 Message)

/-- How one account shows that it agrees; a single key is validated late. -/
inductive AccountAuthenticator where
  | ed25519 (publicKey : Vector UInt8 ed25519PublicKeyLength) (signature : scheme.Signature)
  | multiEd25519 (publicKey : MultiEd25519PublicKey scheme)
      (signature : MultiEd25519Signature scheme)

/-- How all accounts of a transaction show that they agree. -/
inductive TransactionAuthenticator (Address : Type) where
  | ed25519 (publicKey : Vector UInt8 ed25519PublicKeyLength) (signature : scheme.Signature)
  | multiEd25519 (publicKey : MultiEd25519PublicKey scheme)
      (signature : MultiEd25519Signature scheme)
  | multiAgent (sender : AccountAuthenticator scheme) (secondarySignerAddresses : List Address)
      (secondarySigners : List (AccountAuthenticator scheme))

variable {scheme}

/-- Refused material as a failure. -/
def CryptoMaterialError.orFail {α : Type} : Except CryptoMaterialError α → Fallible α
  | .ok value => .ok value
  | .error error => .error (.error error.display)

/-- Validate a single key and check a signature with it. -/
def Ed25519.verifyUnvalidated (scheme : Ed25519 Message) (message : Message)
    (publicKey : Vector UInt8 ed25519PublicKeyLength) (signature : scheme.Signature) :
    Fallible Unit := do
  let validated ← orFail (scheme.publicKeys.tryFrom publicKey.toList)
  scheme.verify signature message validated

variable {RawTransaction Address : Type}

namespace AccountAuthenticator

/-- Check the signature of one account. -/
def verify (authenticator : AccountAuthenticator scheme) (message : Message) : Fallible Unit :=
  match authenticator with
  | .ed25519 publicKey signature => scheme.verifyUnvalidated message publicKey signature
  | .multiEd25519 publicKey signature => signature.verifyArbitraryMsg message publicKey

/-- The number of single signatures. -/
def numberOfSignatures : AccountAuthenticator scheme → Nat
  | .ed25519 _ _ => 1
  | .multiEd25519 _ signature => signature.signatures.length

end AccountAuthenticator

namespace TransactionAuthenticator

/-- The part of the sender. -/
def sender : TransactionAuthenticator scheme Address → AccountAuthenticator scheme
  | .ed25519 publicKey signature => .ed25519 publicKey signature
  | .multiEd25519 publicKey signature => .multiEd25519 publicKey signature
  | .multiAgent sender _ _ => sender

/-- The parts of the other signers. -/
def secondarySigners :
    TransactionAuthenticator scheme Address →
    List (AccountAuthenticator scheme)
  | .ed25519 _ _ => []
  | .multiEd25519 _ _ => []
  | .multiAgent _ _ secondarySigners => secondarySigners

variable (messages : SigningMessages RawTransaction Address Message)
  (authenticator : TransactionAuthenticator scheme Address) (rawTxn : RawTransaction)

/-- Check all signatures of a transaction. -/
def verify : Fallible Unit := do
  let numSigs := authenticator.sender.numberOfSignatures +
    (authenticator.secondarySigners.map AccountAuthenticator.numberOfSignatures).sum
  ensure (numSigs ≤ maxNumOfSigs) "MaxSignaturesExceeded"
  match authenticator with
  | .ed25519 publicKey signature =>
    scheme.verifyUnvalidated (messages.rawTransaction rawTxn) publicKey signature
  | .multiEd25519 publicKey signature =>
    signature.verifyArbitraryMsg (messages.rawTransaction rawTxn) publicKey
  | .multiAgent sender secondarySignerAddresses secondarySigners => do
      let message := messages.multiAgent rawTxn secondarySignerAddresses
      sender.verify message
      secondarySigners.forM fun signer => signer.verify message

/-- All parts, that of the sender first. -/
def accounts : List (AccountAuthenticator scheme) :=
  authenticator.sender :: authenticator.secondarySigners

/-- What the accounts of a transaction sign. -/
def signedMessage : Message :=
  match authenticator with
  | .ed25519 _ _ => messages.rawTransaction rawTxn
  | .multiEd25519 _ _ => messages.rawTransaction rawTxn
  | .multiAgent _ addresses _ => messages.multiAgent rawTxn addresses

theorem forM_singleton {α : Type} (item : α) (body : α → Fallible Unit) :
    [item].forM body = body item := by
  change (do body item; .ok ()) = body item
  cases body item <;> rfl

/-- The check of a transaction in terms of the checks of its accounts. -/
theorem verify_eq :
    authenticator.verify messages rawTxn = (do
      ensure
        ((authenticator.accounts.map AccountAuthenticator.numberOfSignatures).sum ≤ maxNumOfSigs)
        "MaxSignaturesExceeded"
      authenticator.accounts.forM fun account =>
        account.verify (authenticator.signedMessage messages rawTxn)) := by
  rw [accounts, List.map_cons, List.sum_cons]
  cases authenticator with
  | ed25519 publicKey signature =>
    rw [sender, secondarySigners, forM_singleton]
    rfl
  | multiEd25519 publicKey signature =>
    rw [sender, secondarySigners, forM_singleton]
    rfl
  | multiAgent sender addresses secondarySigners => rfl

end TransactionAuthenticator

/-!
## The two ways in

From the network come the byte forms of keys and signatures, from the JSON interface
lists of single keys and single signatures with a bitmap.
-/

def exactBytes (length : Nat) (bytes : List UInt8) : Fallible (Vector UInt8 length) :=
  if sized : bytes.toArray.size = length then
    .ok ⟨bytes.toArray, sized⟩
  else
    .error (.error "could not convert slice to array")

namespace Network

/-- The serialized form of the part of one account. -/
inductive AccountAuthenticator where
  | ed25519 (publicKey signature : List UInt8)
  | multiEd25519 (publicKey signature : List UInt8)

/-- The serialized form of all parts. -/
inductive TransactionAuthenticator (Address : Type) where
  | ed25519 (publicKey signature : List UInt8)
  | multiEd25519 (publicKey signature : List UInt8)
  | multiAgent (sender : AccountAuthenticator) (secondarySignerAddresses : List Address)
      (secondarySigners : List AccountAuthenticator)

variable (scheme)

/-- Deserialize a single key, without validation, and a single signature. -/
def ed25519 (publicKey signature : List UInt8) :
    Fallible (Vector UInt8 ed25519PublicKeyLength × scheme.Signature) := do
  let publicKey ← exactBytes ed25519PublicKeyLength publicKey
  let signature ← orFail (scheme.signatures.tryFrom signature)
  return (publicKey, signature)

/-- Deserialize a key with a threshold and its signature. -/
def multiEd25519 (publicKey signature : List UInt8) :
    Fallible (MultiEd25519PublicKey scheme × MultiEd25519Signature scheme) := do
  let publicKey ← orFail (tryFrom scheme.publicKeys publicKey)
  let signature ← orFail (MultiEd25519Signature.tryFrom signature)
  return (publicKey, signature)

/-- Deserialize the part of one account. -/
def AccountAuthenticator.deserialize :
    AccountAuthenticator → Fallible (Diem.AccountAuthenticator scheme)
  | .ed25519 publicKey signature => do
      let (publicKey, signature) ← Network.ed25519 scheme publicKey signature
      return .ed25519 publicKey signature
  | .multiEd25519 publicKey signature => do
      let (publicKey, signature) ← Network.multiEd25519 scheme publicKey signature
      return .multiEd25519 publicKey signature

/-- Deserialize all parts. -/
def TransactionAuthenticator.deserialize {Address : Type} (scheme : Ed25519 Message) :
    TransactionAuthenticator Address →
    Fallible (Diem.TransactionAuthenticator scheme Address)
  | .ed25519 publicKey signature => do
      let (publicKey, signature) ← Network.ed25519 scheme publicKey signature
      return .ed25519 publicKey signature
  | .multiEd25519 publicKey signature => do
      let (publicKey, signature) ← Network.multiEd25519 scheme publicKey signature
      return .multiEd25519 publicKey signature
  | .multiAgent sender addresses secondarySigners => do
      let sender ← sender.deserialize scheme
      let secondarySigners ← secondarySigners.mapM fun signer => signer.deserialize scheme
      return .multiAgent sender addresses secondarySigners

end Network

namespace Api

/-- The JSON form of a single key with its signature. -/
structure Ed25519Signature where
  publicKey : List UInt8
  signature : List UInt8

/-- The JSON form of keys with a threshold and their signatures. -/
structure MultiEd25519Signature where
  publicKeys : List (List UInt8)
  signatures : List (List UInt8)
  threshold : UInt8
  bitmap : List UInt8

/-- The JSON form of the part of one account. -/
inductive AccountSignature where
  | ed25519Signature (signature : Ed25519Signature)
  | multiEd25519Signature (signature : MultiEd25519Signature)

/-- The JSON form of all parts. -/
inductive TransactionSignature (Address : Type) where
  | ed25519Signature (signature : Ed25519Signature)
  | multiEd25519Signature (signature : MultiEd25519Signature)
  | multiAgentSignature (sender : AccountSignature) (secondarySignerAddresses : List Address)
      (secondarySigners : List AccountSignature)

variable (scheme)

/-- Read a single key, which is validated, and a single signature. -/
def Ed25519Signature.tryFrom (value : Ed25519Signature) :
    Fallible (Vector UInt8 ed25519PublicKeyLength × scheme.Signature) := do
  let publicKey ← orFail (scheme.publicKeys.tryFrom value.publicKey)
  let signature ← orFail (scheme.signatures.tryFrom value.signature)
  let unvalidated ← exactBytes ed25519PublicKeyLength (scheme.publicKeys.toBytes publicKey)
  return (unvalidated, signature)

/-- Read keys with a threshold, and a signature that is not checked. -/
def MultiEd25519Signature.tryFrom (value : MultiEd25519Signature) :
    Fallible (MultiEd25519PublicKey scheme × MultiEd25519.MultiEd25519Signature scheme) := do
  let publicKeys ← orFail (value.publicKeys.mapM scheme.publicKeys.tryFrom)
  let signatures ← orFail (value.signatures.mapM scheme.signatures.tryFrom)
  let publicKey ← orFail (new publicKeys value.threshold)
  let bitmap ←
    okOr (MultiEd25519.MultiEd25519Signature.bitmapFromBytes value.bitmap)
      "could not convert slice to array"
  return (publicKey, .newWithSignaturesAndBitmap signatures bitmap)

/-- Read the part of one account. -/
def AccountSignature.tryInto :
    AccountSignature → Fallible (AccountAuthenticator scheme)
  | .ed25519Signature value => do
      let (publicKey, signature) ← value.tryFrom scheme
      return .ed25519 publicKey signature
  | .multiEd25519Signature value => do
      let (publicKey, signature) ← value.tryFrom scheme
      return .multiEd25519 publicKey signature

/-- Read all parts. -/
def TransactionSignature.tryInto {Address : Type} (scheme : Ed25519 Message) :
    TransactionSignature Address →
    Fallible (TransactionAuthenticator scheme Address)
  | .ed25519Signature value => do
      let (publicKey, signature) ← value.tryFrom scheme
      return .ed25519 publicKey signature
  | .multiEd25519Signature value => do
      let (publicKey, signature) ← value.tryFrom scheme
      return .multiEd25519 publicKey signature
  | .multiAgentSignature sender addresses secondarySigners => do
      let sender ← sender.tryInto scheme
      let secondarySigners ← secondarySigners.mapM fun signer => signer.tryInto scheme
      return .multiAgent sender addresses secondarySigners

variable {scheme} (publicKey : MultiEd25519PublicKey scheme)
  (signature : MultiEd25519.MultiEd25519Signature scheme)

/-- The JSON form of a key and a signature. -/
def MultiEd25519Signature.of : MultiEd25519Signature where
  publicKeys := publicKey.keys.map scheme.publicKeys.toBytes
  signatures := signature.signatures.map scheme.signatures.toBytes
  threshold := publicKey.threshold
  bitmap := signature.bitmap.toList.map UInt8.ofBitVec

/-- Any key with any signature is read back, aligned or not. -/
theorem MultiEd25519Signature.tryFrom_of :
    (of publicKey signature).tryFrom scheme = .ok (publicKey, signature) := by
  have bitmap := (MultiEd25519.MultiEd25519Signature.bitmapFromBytes_eq_some_iff).mpr
    (rfl : signature.bitmap.toList.map UInt8.ofBitVec = _)
  rw [MultiEd25519Signature.tryFrom, of, mapM_tryFrom_toBytes, mapM_tryFrom_toBytes]
  dsimp only [orFail]
  rw [ok_bind, ok_bind, publicKey.new_eq, bitmap]
  rfl

end Api

/-- What comes from the network. -/
def TransactionAuthenticator.FromNetwork
    (authenticator : TransactionAuthenticator scheme Address) : Prop :=
  ∃ serialized : Network.TransactionAuthenticator Address,
    serialized.deserialize scheme = .ok authenticator

/-- What comes from the JSON interface. -/
def TransactionAuthenticator.FromApi
    (authenticator : TransactionAuthenticator scheme Address) : Prop :=
  ∃ value : Api.TransactionSignature Address, value.tryInto scheme = .ok authenticator

theorem CryptoMaterialError.orFail_eq_ok_iff {α : Type} {parsed : Except CryptoMaterialError α}
    {value : α} : orFail parsed = .ok value ↔ parsed = .ok value := by
  cases parsed <;> simp [orFail]

variable {publicKey : MultiEd25519PublicKey scheme}
  {signature : MultiEd25519Signature scheme}

theorem Network.multiEd25519_complete {publicKeyBytes signatureBytes : List UInt8}
    (parsed : multiEd25519 scheme publicKeyBytes signatureBytes = .ok (publicKey, signature)) :
    signature.signatures.length = (setBits signature.bitmap).length := by
  obtain ⟨key, -, rest⟩ := bind_eq_ok_iff.mp parsed
  obtain ⟨read, accepted, same⟩ := bind_eq_ok_iff.mp rest
  cases same
  rw [orFail_eq_ok_iff] at accepted
  have bytes := toBytes_tryFrom accepted
  rw [← bytes] at accepted
  exact (signature.tryFrom_toBytes_iff.mp accepted).2

theorem Network.AccountAuthenticator.deserialize_complete {serialized : AccountAuthenticator}
    (parsed : serialized.deserialize scheme = .ok (.multiEd25519 publicKey signature)) :
    signature.signatures.length = (setBits signature.bitmap).length := by
  cases serialized with
  | ed25519 publicKeyBytes signatureBytes =>
    obtain ⟨read, -, same⟩ := bind_eq_ok_iff.mp parsed
    cases same
  | multiEd25519 publicKeyBytes signatureBytes =>
    obtain ⟨read, accepted, same⟩ := bind_eq_ok_iff.mp parsed
    cases same
    exact multiEd25519_complete accepted

theorem TransactionAuthenticator.FromNetwork.complete
    {authenticator : TransactionAuthenticator scheme Address}
    (fromNetwork : authenticator.FromNetwork)
    (member : .multiEd25519 publicKey signature ∈ authenticator.accounts) :
    signature.signatures.length = (setBits signature.bitmap).length := by
  obtain ⟨serialized, parsed⟩ := fromNetwork
  cases serialized with
  | ed25519 publicKeyBytes signatureBytes =>
    obtain ⟨read, -, same⟩ := bind_eq_ok_iff.mp parsed
    cases same
    cases List.mem_singleton.mp member
  | multiEd25519 publicKeyBytes signatureBytes =>
    obtain ⟨read, accepted, same⟩ := bind_eq_ok_iff.mp parsed
    cases same
    cases List.mem_singleton.mp member
    exact Network.multiEd25519_complete accepted
  | multiAgent sender addresses secondarySigners =>
    obtain ⟨first, senderRead, rest⟩ := bind_eq_ok_iff.mp parsed
    obtain ⟨others, othersRead, same⟩ := bind_eq_ok_iff.mp rest
    cases same
    rcases List.mem_cons.mp member with same | other
    · cases same
      exact Network.AccountAuthenticator.deserialize_complete senderRead
    · obtain ⟨signer, -, read⟩ := exists_of_mem_mapM othersRead other
      exact Network.AccountAuthenticator.deserialize_complete read

theorem TransactionAuthenticator.fromApi_multiEd25519 (Address : Type)
    (publicKey : MultiEd25519PublicKey scheme) (signature : MultiEd25519Signature scheme) :
    (.multiEd25519 publicKey signature :
      TransactionAuthenticator scheme Address).FromApi := by
  refine ⟨.multiEd25519Signature (.of publicKey signature), ?_⟩
  rw [Api.TransactionSignature.tryInto, Api.MultiEd25519Signature.tryFrom_of]
  rfl

/-!
## Acceptance
-/

noncomputable def signerPositions
    (Signed : scheme.PublicKey → Message → Prop)
    (publicKey : MultiEd25519PublicKey scheme)
    (message : Message) : Finset Nat :=
  open Classical in
  (Finset.range publicKey.keys.length).filter fun position =>
    ∃ key, publicKey.keys[position]? = some key ∧ Signed key message

/-- Where single signatures are not forged, at least the threshold of keys signed. -/
theorem MultiEd25519.MultiEd25519Signature.Proper.threshold_le_signers
    {Signed : scheme.PublicKey → Message → Prop}
    (unforgeable : ∀ signature message publicKey,
      scheme.valid signature message publicKey = true → Signed publicKey message)
    {message : Message}
    (proper : signature.Proper message publicKey) :
    publicKey.threshold.toNat ≤ (signerPositions Signed publicKey message).card := by
  classical
  have distinct : (setBits signature.bitmap).Nodup :=
    (pairwise_setBits signature.bitmap).imp Nat.ne_of_lt
  have signed : (setBits signature.bitmap).toFinset ⊆
        signerPositions Signed publicKey message := by
    intro position member
    rw [List.mem_toFinset] at member
    obtain ⟨index, atIndex⟩ := List.mem_iff_getElem?.mp member
    obtain ⟨bound, -⟩ := List.getElem?_eq_some_iff.mp atIndex
    rw [← proper.complete] at bound
    obtain ⟨key, found, valid⟩ :=
      proper.valid index position _ atIndex (List.getElem?_eq_getElem bound)
    rw [signerPositions, Finset.mem_filter, Finset.mem_range]
    exact ⟨proper.inRange position member, key, found, unforgeable _ _ _ valid⟩
  calc publicKey.threshold.toNat ≤ (setBits signature.bitmap).length := proper.enough
    _ = (setBits signature.bitmap).toFinset.card := (List.toFinset_card_of_nodup distinct).symm
    _ ≤ (signerPositions Signed publicKey message).card := Finset.card_le_card signed

/-- What acceptance of transactions with multi-key signatures rests on. -/
structure ThresholdSignatures {RawTransaction Address : Type} (scheme : Ed25519 Message)
    (messages : SigningMessages RawTransaction Address Message) : Prop where
  /-- For each key of a transaction the check is exact under one condition. -/
  exact : ∀ authenticator : TransactionAuthenticator scheme Address,
    authenticator.FromNetwork ∨ authenticator.FromApi →
    ∀ publicKey signature, .multiEd25519 publicKey signature ∈ authenticator.accounts →
      ∀ message, signature.Exact message publicKey ↔ signature.ExactWhen message publicKey
  /-- The network parser makes the numbers of signatures and set bits agree. -/
  network : ∀ authenticator : TransactionAuthenticator scheme Address, authenticator.FromNetwork →
    ∀ publicKey signature, .multiEd25519 publicKey signature ∈ authenticator.accounts →
      signature.signatures.length = (setBits signature.bitmap).length
  /-- The JSON interface lets any signature pass. -/
  api : ∀ publicKey signature, (.multiEd25519 publicKey signature :
    TransactionAuthenticator scheme Address).FromApi
  /-- A transaction is accepted if few enough signatures are all accepted. -/
  accepts : ∀ (authenticator : TransactionAuthenticator scheme Address) rawTxn,
    authenticator.verify messages rawTxn = .ok () ↔
      (authenticator.accounts.map AccountAuthenticator.numberOfSignatures).sum ≤ maxNumOfSigs ∧
        ∀ account ∈ authenticator.accounts,
          account.verify (authenticator.signedMessage messages rawTxn) = .ok ()
  /-- Where the check is exact for all keys, the check of the transaction returns. -/
  returns : ∀ (authenticator : TransactionAuthenticator scheme Address) rawTxn,
    (∀ publicKey signature, .multiEd25519 publicKey signature ∈ authenticator.accounts →
      signature.ExactWhen (authenticator.signedMessage messages rawTxn) publicKey) →
    (authenticator.verify messages rawTxn).NoPanic
  /-- Where single signatures are not forged, the threshold of keys signed. -/
  signers : ∀ Signed : scheme.PublicKey → Message → Prop, (∀ signature message publicKey,
    scheme.valid signature message publicKey = true → Signed publicKey message) →
    ∀ (signature : MultiEd25519Signature scheme) message publicKey,
      signature.Proper message publicKey →
        publicKey.threshold.toNat ≤ (signerPositions Signed publicKey message).card
  /-- Parsing and the byte form of private keys are inverse. -/
  privateKeys : ∀ bytes (key : MultiEd25519PrivateKey scheme),
    tryFrom scheme.privateKeys bytes = .ok key ↔ bytes = key.toBytes scheme.privateKeys
  /-- Parsing and the byte form of public keys are inverse. -/
  publicKeys : ∀ bytes (key : MultiEd25519PublicKey scheme),
    tryFrom scheme.publicKeys bytes = .ok key ↔ bytes = key.toBytes scheme.publicKeys
  /-- Parsing and the byte form of signatures are inverse where the numbers agree. -/
  signatures : ∀ bytes (signature : MultiEd25519Signature scheme),
    MultiEd25519Signature.tryFrom bytes = .ok signature ↔
      bytes = signature.toBytes ∧ signature.signatures ≠ [] ∧
        signature.signatures.length = (setBits signature.bitmap).length
  /-- The order of the single signatures does not matter. -/
  order : ∀ signatures signatures' : List (scheme.Signature × UInt8), signatures.Perm signatures' →
    MultiEd25519Signature.new signatures = MultiEd25519Signature.new signatures'
  /-- A signature that was built has parsable bytes. -/
  built : ∀ (signatures : List (scheme.Signature × UInt8)) signature,
    MultiEd25519Signature.new signatures = .ok (.ok signature) →
      MultiEd25519Signature.tryFrom signature.toBytes = .ok signature
  /-- What the private keys sign is accepted. -/
  signed : ∀ (privateKey : MultiEd25519PrivateKey scheme) message, ∃ signature,
    privateKey.sign message = .ok signature ∧
      signature.verifyArbitraryMsg message privateKey.publicKey = .ok ()

theorem AccountAuthenticator.verify_noPanic {account : AccountAuthenticator scheme}
    {message : Message}
    (exact : ∀ publicKey signature,
      account = .multiEd25519 publicKey signature → signature.ExactWhen message publicKey) :
    (account.verify message).NoPanic := by
  cases account with
  | ed25519 publicKey signature =>
    refine .bind ?_ fun validated _ => noPanic_ensure _ _
    cases scheme.publicKeys.tryFrom publicKey.toList with
    | ok validated => exact noPanic_ok validated
    | error error => exact noPanic_error error.display
  | multiEd25519 publicKey signature =>
    exact ((signature.exact_iff message publicKey).mpr (exact publicKey signature rfl)).2

theorem MultiEd25519.MultiKey.tryFrom_eq_ok_iff {Key : Type} {size : Nat}
    (material : ValidCryptoMaterial Key size) (large : 1 < size) (bytes : List UInt8)
    (key : MultiKey Key) : tryFrom material bytes = .ok key ↔ bytes = key.toBytes material := by
  constructor
  · intro parsed
    exact (toBytes_tryFrom material (by omega) parsed).symm
  · rintro rfl
    exact tryFrom_toBytes material large key

/-- Acceptance for every single scheme and every form of the signed messages. -/
theorem thresholdSignatures
    {RawTransaction Address : Type}
    (scheme : Ed25519 Message)
    (messages : SigningMessages RawTransaction Address Message) :
    ThresholdSignatures scheme messages where
  exact := by
    intro authenticator _ publicKey signature _ message
    exact signature.exact_iff message publicKey
  network := by
    intro authenticator fromNetwork publicKey signature member
    exact fromNetwork.complete member
  api := TransactionAuthenticator.fromApi_multiEd25519 Address
  accepts := by
    intro authenticator rawTxn
    rw [TransactionAuthenticator.verify_eq, check_eq_ok_iff, ensure_eq_ok_iff]
    exact and_congr_right fun _ => forM_eq_ok_iff
  returns := by
    intro authenticator rawTxn exact
    rw [TransactionAuthenticator.verify_eq]
    refine NoPanic.bind (noPanic_ensure _ _) fun _ _ => ?_
    refine noPanic_forM fun account member => ?_
    refine AccountAuthenticator.verify_noPanic ?_
    rintro publicKey signature rfl
    exact exact publicKey signature member
  signers := by
    intro Signed unforgeable signature message publicKey proper
    exact proper.threshold_le_signers unforgeable
  privateKeys := tryFrom_eq_ok_iff scheme.privateKeys (by decide)
  publicKeys := tryFrom_eq_ok_iff scheme.publicKeys (by decide)
  signatures := by
    intro bytes signature
    rw [← signature.tryFrom_toBytes_iff]
    constructor
    · intro parsed
      have bytesRead := toBytes_tryFrom parsed
      rw [bytesRead]
      exact ⟨rfl, parsed⟩
    · rintro ⟨rfl, parsed⟩
      exact parsed
  order := fun _ _ => new_perm
  built := by
    intro signatures signature built
    exact signature.tryFrom_toBytes_iff.mpr (new_complete built)
  signed := sign_verifies

end Authenticators

/-!
## Signatures that are not aligned

In the scheme below a signature is the key with the message, so nothing is hidden; it
shows what the checks let pass.
-/

/-- Byte strings of one length as key material. -/
def plainMaterial (length : Nat) : ValidCryptoMaterial (Vector UInt8 length) length where
  toBytes := Vector.toList
  tryFrom bytes :=
    if sized : bytes.toArray.size = length then
      .ok ⟨bytes.toArray, sized⟩
    else
      .error .wrongLengthError
  length_toBytes := fun _ => Vector.length_toList
  tryFrom_toBytes := by
    intro material
    rw [dif_pos (by simp)]
    congr
  toBytes_tryFrom := by
    intro bytes material parsed
    split at parsed
    · cases parsed
      rfl
    · cases parsed

/-- A scheme whose signatures show the key and the message. -/
def plainScheme : Ed25519 (Vector UInt8 32) where
  PrivateKey := Vector UInt8 32
  PublicKey := Vector UInt8 32
  Signature := Vector UInt8 64
  privateKeys := plainMaterial 32
  publicKeys := plainMaterial 32
  signatures := plainMaterial 64
  publicKey := id
  sign privateKey message := privateKey ++ message
  valid signature message publicKey := signature = publicKey ++ message
  valid_sign := by
    intro privateKey message
    exact decide_eq_true rfl

/-- Transactions that are their own messages. -/
def plainMessages : SigningMessages (Vector UInt8 32) Nat (Vector UInt8 32) where
  rawTransaction := id
  multiAgent rawTxn _ := rawTxn

/-- One key that has to sign. -/
def oneKey : MultiEd25519PublicKey plainScheme where
  keys := [Vector.replicate 32 0]
  threshold := 1
  positive := by decide
  reachable := by decide
  bounded := by decide

/-- No signature, with the bit of the key set. -/
def unsigned : MultiEd25519Signature plainScheme :=
  ⟨[], #v[0b10000000#8, 0, 0, 0]⟩

/-- A signature with a bit that belongs to no key. -/
def misplaced : MultiEd25519Signature plainScheme :=
  ⟨[Vector.replicate 64 0], #v[0, 0, 0, 1#8]⟩

/--
From the JSON interface a transaction that nobody signed is accepted; from the network
a signature with a bit beyond the keys makes the check panic.
-/
theorem unsigned_accepted_and_misplaced_panics :
    (∃ authenticator : TransactionAuthenticator plainScheme Nat,
      authenticator.FromApi ∧ .multiEd25519 oneKey unsigned ∈ authenticator.accounts ∧
        authenticator.verify plainMessages (.replicate 32 0) = .ok () ∧
        ¬ unsigned.Proper (.replicate 32 0) oneKey) ∧
    (∃ authenticator : TransactionAuthenticator plainScheme Nat,
      authenticator.FromNetwork ∧ .multiEd25519 oneKey misplaced ∈ authenticator.accounts ∧
        authenticator.verify plainMessages (.replicate 32 0) =
          .error (.panic "index out of bounds: the len is 1 but the index is 31")) := by
  refine ⟨⟨.multiEd25519 oneKey unsigned, ?_, List.mem_cons_self, ?_, ?_⟩,
    ⟨.multiEd25519 oneKey misplaced, ?_, List.mem_cons_self, ?_⟩⟩
  · exact TransactionAuthenticator.fromApi_multiEd25519 Nat oneKey unsigned
  · decide +kernel
  · intro proper
    have complete := proper.complete
    revert complete
    decide +kernel
  · refine ⟨.multiEd25519 (oneKey.toBytes plainScheme.publicKeys) misplaced.toBytes, ?_⟩
    have key := tryFrom_toBytes plainScheme.publicKeys (by decide) oneKey
    have signature := misplaced.tryFrom_toBytes_iff.mpr ⟨by decide, by decide +kernel⟩
    rw [Network.TransactionAuthenticator.deserialize, Network.multiEd25519, key, signature]
    rfl
  · decide +kernel

end Diem
