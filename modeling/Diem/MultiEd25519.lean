import Diem.Fallible
import Mathlib.Algebra.GroupWithZero.Nat

namespace Diem

open List (length_map range)

/-!
# Multi-key signatures

A key is a list of single keys with a threshold, a signature is a list of single
signatures with a bitmap of the keys that made them
(`crates/diem-crypto/src/multi_ed25519.rs`).  Bits are numbered from the left across
four bytes.  The single scheme is a parameter.
-/

/-- Why key or signature material is refused. -/
inductive CryptoMaterialError where
  | serializationError
  | deserializationError
  | validationError
  | wrongLengthError
  | canonicalRepresentationError
  | smallSubgroupError
  | pointNotOnCurveError
  | bitVecError (message : String)
  deriving DecidableEq

def CryptoMaterialError.display : CryptoMaterialError → String
  | .serializationError => "SerializationError"
  | .deserializationError => "DeserializationError"
  | .validationError => "ValidationError"
  | .wrongLengthError => "WrongLengthError"
  | .canonicalRepresentationError => "CanonicalRepresentationError"
  | .smallSubgroupError => "SmallSubgroupError"
  | .pointNotOnCurveError => "PointNotOnCurveError"
  | .bitVecError message => "BitVecError(\"" ++ message ++ "\")"

/-- Material with a byte form of one length that parsing reads back. -/
structure ValidCryptoMaterial (Material : Type) (length : Nat) where
  toBytes : Material → List UInt8
  tryFrom : List UInt8 → Except CryptoMaterialError Material
  length_toBytes : ∀ material, (toBytes material).length = length
  tryFrom_toBytes : ∀ material, tryFrom (toBytes material) = .ok material
  toBytes_tryFrom : ∀ {bytes material}, tryFrom bytes = .ok material → toBytes material = bytes

def ed25519PrivateKeyLength : Nat := 32

def ed25519PublicKeyLength : Nat := 32

def ed25519SignatureLength : Nat := 64

/-- The single signature scheme; what a private key signs verifies. -/
structure Ed25519 (Message : Type) where
  PrivateKey : Type
  PublicKey : Type
  Signature : Type
  privateKeys : ValidCryptoMaterial PrivateKey ed25519PrivateKeyLength
  publicKeys : ValidCryptoMaterial PublicKey ed25519PublicKeyLength
  signatures : ValidCryptoMaterial Signature ed25519SignatureLength
  publicKey : PrivateKey → PublicKey
  sign : PrivateKey → Message → Signature
  valid : Signature → Message → PublicKey → Bool
  valid_sign :
    ∀ privateKey message, valid (sign privateKey message) message (publicKey privateKey) = true

namespace Ed25519

variable {Message : Type} (scheme : Ed25519 Message)

/-- Check a single signature. -/
def verify (signature : scheme.Signature) (message : Message)
    (publicKey : scheme.PublicKey) : Fallible Unit :=
  Fallible.ensure (scheme.valid signature message publicKey = true) "signature error"

end Ed25519

namespace MultiEd25519

/-- The largest number of keys. -/
def maxNumOfKeys : Nat := 32

def bitmapNumOfBytes : Nat := 4

/-- Which keys signed. -/
abbrev KeyBitmap := Vector (BitVec 8) bitmapNumOfBytes

/-- The bit for a position inside a byte, from the left. -/
def bitMask (bucketPos : Nat) : BitVec 8 := 128#8 >>> bucketPos

/-- The access to a byte that is not there. -/
def outOfBounds (bucket : Nat) : Failure :=
  .panic s!"index out of bounds: the len is 4 but the index is {bucket}"

variable (input : KeyBitmap)

def bitmapSetBit (index : Nat) : Fallible KeyBitmap :=
  let bucket := index / 8
  let bucketPos := index - bucket * 8
  if inside : bucket < bitmapNumOfBytes then
    .ok (input.set bucket (input[bucket] ||| bitMask bucketPos))
  else
    .error (outOfBounds bucket)

def bitmapGetBit (index : Nat) : Fallible Bool :=
  let bucket := index / 8
  let bucketPos := index - bucket * 8
  if inside : bucket < bitmapNumOfBytes then
    .ok (input[bucket] &&& bitMask bucketPos != 0)
  else
    .error (outOfBounds bucket)

/-- The number of ones of a byte. -/
def countOnes (byte : BitVec 8) : Nat :=
  (range 8).countP fun index => byte.getLsbD index

/-- The number of zeros at the right end of a byte. -/
def trailingZeros (byte : BitVec 8) : Nat :=
  ((range 8).takeWhile fun index => !byte.getLsbD index).length

/-- The number of set bits. -/
def bitmapCountOnes : Nat := (input.toList.map countOnes).sum

def bitmapLastSetBit : Option Nat :=
  (input.toList.reverse.zipIdx.find? fun entry => entry.1 != 0).map
    fun entry => 8 * (bitmapNumOfBytes - entry.2) - trailingZeros entry.1 - 1

/-- Single keys with a threshold that they can reach. -/
structure MultiKey (Key : Type) where
  keys : List Key
  threshold : UInt8
  positive : threshold ≠ 0
  reachable : threshold.toNat ≤ keys.length
  bounded : keys.length ≤ maxNumOfKeys

namespace MultiKey

variable {Key : Type} {length : Nat}

def new (keys : List Key) (threshold : UInt8) : Except CryptoMaterialError (MultiKey Key) :=
  if valid : threshold ≠ 0 ∧ threshold.toNat ≤ keys.length then
    if bounded : keys.length ≤ maxNumOfKeys then
      .ok ⟨keys, threshold, valid.1, valid.2, bounded⟩
    else
      .error .wrongLengthError
  else
    .error .validationError

/-- The byte form: all keys and then the threshold. -/
def toBytes (material : ValidCryptoMaterial Key length) (key : MultiKey Key) : List UInt8 :=
  key.keys.flatMap material.toBytes ++ [key.threshold]

def byteLength (keySize : Nat) (key : MultiKey Key) : Nat :=
  key.keys.length * keySize + 1

end MultiKey

/-- The parts of a list that have the full length. -/
def chunksExact {α : Type} (size : Nat) (items : List α) : List (List α) :=
  (range (items.length / size)).map fun index => (items.drop (index * size)).take size

/-- The threshold at the end of the byte form of a key. -/
def checkAndGetThreshold (bytes : List UInt8) (keySize : Nat) : Except CryptoMaterialError UInt8 :=
  match bytes.getLast? with
  | none => .error .wrongLengthError
  | some thresholdByte =>
    let payloadLength := bytes.length
    let thresholdNumOfBytes := payloadLength % keySize
    let numOfKeys := payloadLength / keySize
    if numOfKeys = 0 ∨ maxNumOfKeys < numOfKeys ∨ thresholdNumOfBytes ≠ 1 then
      .error .wrongLengthError
    else if thresholdByte = 0 ∨ UInt8.ofNat numOfKeys < thresholdByte then
      .error .validationError
    else
      .ok thresholdByte

/-- Parse a key; the checks on the bytes make the number of keys fit. -/
def MultiKey.tryFrom {Key : Type} {length : Nat} (material : ValidCryptoMaterial Key length)
    (bytes : List UInt8) : Except CryptoMaterialError (MultiKey Key) := do
  let threshold ← checkAndGetThreshold bytes length
  let keys ← (chunksExact length bytes).mapM material.tryFrom
  MultiKey.new keys threshold

section Scheme

variable {Message : Type} (scheme : Ed25519 Message)

/-- Private keys with a threshold. -/
abbrev MultiEd25519PrivateKey := MultiKey scheme.PrivateKey

/-- Public keys with a threshold. -/
abbrev MultiEd25519PublicKey := MultiKey scheme.PublicKey

/-- Single signatures, and which keys made them. -/
structure MultiEd25519Signature where
  signatures : List scheme.Signature
  bitmap : KeyBitmap

variable {scheme} (privateKey : MultiEd25519PrivateKey scheme)

def MultiKey.publicKey : MultiEd25519PublicKey scheme where
  keys := privateKey.keys.map scheme.publicKey
  threshold := privateKey.threshold
  positive := privateKey.positive
  reachable := by
    rw [length_map]
    exact privateKey.reachable
  bounded := by
    rw [length_map]
    exact privateKey.bounded

/-- Sign with the first keys, as many as the threshold. -/
def MultiKey.sign (message : Message) : Fallible (MultiEd25519Signature scheme) := do
  let signers := privateKey.keys.take privateKey.threshold.toNat
  let bitmap ← (range signers.length).foldlM bitmapSetBit (.replicate _ 0)
  return ⟨signers.map fun key => scheme.sign key message, bitmap⟩

namespace MultiEd25519Signature

/-- Set the bit of an index that is in range and not set yet. -/
def addIndex (bitmap : KeyBitmap) (index : UInt8) :
    Fallible (Except CryptoMaterialError KeyBitmap) := do
  if index.toNat < maxNumOfKeys then
    if ← bitmapGetBit bitmap index.toNat then
      return .error (.bitVecError "Duplicate signature index")
    else
      return .ok (← bitmapSetBit bitmap index.toNat)
  else
    return .error (.bitVecError "Signature index is out of range")

def addIndices :
    List UInt8 → KeyBitmap →
    Fallible (Except CryptoMaterialError KeyBitmap)
  | [], bitmap => .ok (.ok bitmap)
  | index :: indices, bitmap => do
      match ← addIndex bitmap index with
      | .error error => return .error error
      | .ok bitmap => addIndices indices bitmap

variable (signatures : List (scheme.Signature × UInt8))

/-- Sort by the indices of the keys. -/
def sortByIndex : List (scheme.Signature × UInt8) :=
  signatures.mergeSort fun a b => a.2 ≤ b.2

/-- A signature from single ones with the indices of their keys. -/
def new : Fallible (Except CryptoMaterialError (MultiEd25519Signature scheme)) := do
  let numOfSigs := signatures.length
  if numOfSigs = 0 ∨ maxNumOfKeys < numOfSigs then
    return .error .validationError
  else
    let sortedSignatures := sortByIndex signatures
    match ← addIndices (sortedSignatures.map Prod.snd) (.replicate _ 0) with
    | .error error => return .error error
    | .ok bitmap => return .ok ⟨sortedSignatures.map Prod.fst, bitmap⟩

/-- A signature from its parts, without any check. -/
def newWithSignaturesAndBitmap (signatures : List scheme.Signature) (bitmap : KeyBitmap) :
    MultiEd25519Signature scheme :=
  ⟨signatures, bitmap⟩

/-- The byte form: all signatures and then the bitmap. -/
def toBytes (signature : MultiEd25519Signature scheme) : List UInt8 :=
  signature.signatures.flatMap scheme.signatures.toBytes ++
    signature.bitmap.toList.map UInt8.ofBitVec

/-- Four bytes as a bitmap. -/
def bitmapFromBytes (bytes : List UInt8) : Option KeyBitmap :=
  if sized : (bytes.map UInt8.toBitVec).length = bitmapNumOfBytes then
    some ⟨(bytes.map UInt8.toBitVec).toArray, by simpa using sized⟩
  else
    none

def tryFrom (bytes : List UInt8) : Except CryptoMaterialError (MultiEd25519Signature scheme) :=
  let length := bytes.length
  let numOfBitmapBytes := length % ed25519SignatureLength
  let numOfSigs := length / ed25519SignatureLength
  if numOfSigs = 0 ∨ maxNumOfKeys < numOfSigs ∨ numOfBitmapBytes ≠ bitmapNumOfBytes then
    .error .wrongLengthError
  else
    match bitmapFromBytes (bytes.drop (length - bitmapNumOfBytes)) with
    | none => .error .deserializationError
    | some bitmap =>
      if bitmapCountOnes bitmap ≠ numOfSigs then
        .error .deserializationError
      else
        ((chunksExact ed25519SignatureLength bytes).mapM
          scheme.signatures.tryFrom).map fun signatures => ⟨signatures, bitmap⟩

/--
Go on to the next set bit.  The access beyond the last byte panics, so a search that
starts inside the bitmap needs at most 33 steps.
-/
def nextSetBit (bitmap : KeyBitmap) : (steps index : Nat) → Fallible Nat
  | 0, index => .error (outOfBounds (index / 8))
  | steps + 1, index => do
      if ← bitmapGetBit bitmap index then
        return index
      else
        nextSetBit bitmap steps (index + 1)

/-- Check the signatures one by one, each with the key of the next set bit. -/
def verifyFrom (bitmap : KeyBitmap) (message : Message) (publicKeys : List scheme.PublicKey) :
    (bitmapIndex : Nat) → List scheme.Signature → Fallible Unit
  | _, [] => .ok ()
  | bitmapIndex, signature :: signatures => do
      let bitmapIndex ← nextSetBit bitmap 33 bitmapIndex
      let publicKey ←
        Fallible.expect publicKeys[bitmapIndex]?
          (s!"index out of bounds: the len is {publicKeys.length} but the " ++
            s!"index is {bitmapIndex}")
      scheme.verify signature message publicKey
      verifyFrom bitmap message publicKeys (bitmapIndex + 1) signatures

def verifyArbitraryMsg (signature : MultiEd25519Signature scheme) (message : Message)
    (publicKey : MultiEd25519PublicKey scheme) : Fallible Unit := do
  match bitmapLastSetBit signature.bitmap with
  | some lastBit =>
    Fallible.ensure (lastBit ≤ publicKey.byteLength ed25519PublicKeyLength)
      (CryptoMaterialError.bitVecError "Signature index is out of range").display
  | none =>
    .error (.error (CryptoMaterialError.bitVecError "Signature index is out of range").display)
  Fallible.ensure (publicKey.threshold.toNat ≤ bitmapCountOnes signature.bitmap)
    (CryptoMaterialError.bitVecError "Not enough signatures to meet the threshold").display
  verifyFrom signature.bitmap message publicKey.keys 0 signature.signatures

end MultiEd25519Signature

end Scheme

end MultiEd25519

end Diem
