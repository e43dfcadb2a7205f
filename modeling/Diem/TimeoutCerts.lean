import Diem.ConsensusTypes

namespace Diem

/-!
# The highest timeout certificates

`BlockStore` keeps the highest timeout certificate of each protocol
(`consensus/src/block_storage/block_store.rs`).  Both insertions compare the new round
with that of the 2-chain certificate, so the 3-chain certificate is the highest one only
as long as the two rounds decide alike.
-/

/-- The timeout certificates of the block tree. -/
structure TimeoutCerts where
  highestTimeoutCert : Option TimeoutCertificate
  highest2chainTimeoutCert : Option TwoChainTimeoutCertificate

namespace TimeoutCerts

variable (certs : TimeoutCerts)

/-- The round of the 3-chain certificate. -/
def timeoutRound : Nat :=
  (certs.highestTimeoutCert.map fun tc => tc.timeout.round).getD 0

def timeout2chainRound : Nat :=
  (certs.highest2chainTimeoutCert.map TwoChainTimeoutCertificate.round).getD 0

/-- Both insertions: a certificate of a later round is saved and then replaces its kind. -/
def insertLater (round : Nat) (saved : Fallible Unit)
    (replaced : TimeoutCerts) : Fallible TimeoutCerts :=
  if round ≤ certs.timeout2chainRound then
    return certs
  else do
    Fallible.context saved "Timeout certificate insert failed when persisting to DB"
    return replaced

/-- Insert a 3-chain certificate. -/
def insertTimeoutCertificate (tc : TimeoutCertificate)
    (saved : Fallible Unit) : Fallible TimeoutCerts :=
  certs.insertLater tc.timeout.round saved
    { certs with highestTimeoutCert := some tc }

def insert2chainTimeoutCertificate (tc : TwoChainTimeoutCertificate)
    (saved : Fallible Unit) : Fallible TimeoutCerts :=
  certs.insertLater tc.round saved { certs with highest2chainTimeoutCert := some tc }

/-- What an insertion can do. -/
theorem insertLater_cases (round : Nat) (saved : Fallible Unit) (replaced : TimeoutCerts) :
    (round ≤ certs.timeout2chainRound ∧ certs.insertLater round saved replaced = .ok certs) ∨
      (certs.timeout2chainRound < round ∧ saved = .ok () ∧
        certs.insertLater round saved replaced = .ok replaced) ∨
      (certs.timeout2chainRound < round ∧ saved ≠ .ok () ∧
        ∃ failure, certs.insertLater round saved replaced = .error failure) := by
  rcases Nat.lt_or_ge certs.timeout2chainRound round with later | earlier
  · rw [insertLater, if_neg (Nat.not_le.mpr later)]
    rcases saved with (_ | _) | _
    · exact .inr (.inr ⟨later, nofun, _, rfl⟩)
    · exact .inr (.inr ⟨later, nofun, _, rfl⟩)
    · exact .inr (.inl ⟨later, rfl, rfl⟩)
  · exact .inl ⟨earlier, if_pos earlier⟩

end TimeoutCerts

/-- An insertion, with what the storage answers. -/
inductive TimeoutInsertion where
  | timeout (tc : TimeoutCertificate) (saved : Fallible Unit)
  | timeout2chain (tc : TwoChainTimeoutCertificate) (saved : Fallible Unit)

/-- The certificates, with the rounds of those that were inserted. -/
structure TimeoutTrace where
  certs : TimeoutCerts
  rounds : List Nat
  rounds2chain : List Nat

namespace TimeoutTrace

open TimeoutCerts

/-- The initial certificates count as inserted. -/
def start (certs : TimeoutCerts) : TimeoutTrace :=
  ⟨certs, [certs.timeoutRound], [certs.timeout2chainRound]⟩

/-- One insertion; one that fails changes nothing. -/
def advance (trace : TimeoutTrace) : TimeoutInsertion → TimeoutTrace
  | .timeout tc saved =>
    match trace.certs.insertTimeoutCertificate tc saved with
    | .ok certs => ⟨certs, tc.timeout.round :: trace.rounds, trace.rounds2chain⟩
    | .error _ => trace
  | .timeout2chain tc saved =>
    match trace.certs.insert2chainTimeoutCertificate tc saved with
    | .ok certs => ⟨certs, trace.rounds, tc.round :: trace.rounds2chain⟩
    | .error _ => trace

/-- A round is the maximum of those inserted so far. -/
def IsMax (round : Nat) (rounds : List Nat) : Prop :=
  round ∈ rounds ∧ ∀ other ∈ rounds, other ≤ round

/-- Both stored rounds are the maxima of those inserted. -/
structure Highest (trace : TimeoutTrace) : Prop where
  timeout : IsMax trace.certs.timeoutRound trace.rounds
  timeout2chain : IsMax trace.certs.timeout2chainRound trace.rounds2chain

/-- An insertion keeps both rounds maximal and lowers neither of them. -/
structure Forward (trace : TimeoutTrace) (insertion : TimeoutInsertion) : Prop where
  timeout : trace.certs.timeoutRound ≤ (trace.advance insertion).certs.timeoutRound
  timeout2chain :
    trace.certs.timeout2chainRound ≤ (trace.advance insertion).certs.timeout2chainRound
  highest : (trace.advance insertion).Highest

/-- The round of the 2-chain certificate decides as that of the 3-chain certificate. -/
def GuardsAgree (trace : TimeoutTrace) : TimeoutInsertion → Prop
  | .timeout tc saved =>
    (tc.timeout.round ≤ trace.certs.timeout2chainRound →
      tc.timeout.round ≤ trace.certs.timeoutRound) ∧
    (trace.certs.timeout2chainRound < tc.timeout.round → saved = .ok () →
      trace.certs.timeoutRound ≤ tc.timeout.round)
  | .timeout2chain _ _ => True

/-- A property of every step of a run. -/
def Throughout (property : TimeoutTrace → TimeoutInsertion → Prop) :
    TimeoutTrace → List TimeoutInsertion → Prop
  | _, [] => True
  | trace, insertion :: rest =>
    property trace insertion ∧ Throughout property (trace.advance insertion) rest

variable {trace : TimeoutTrace} {round new : Nat} {rounds : List Nat}

/-- A new round is the maximum exactly if it is not below the old maximum. -/
theorem isMax_cons_self (isMax : IsMax round rounds) : IsMax new (new :: rounds) ↔ round ≤ new := by
  constructor
  · intro newMax
    exact newMax.2 round (List.mem_cons_of_mem _ isMax.1)
  · intro higher
    refine ⟨List.mem_cons_self, List.forall_mem_cons.mpr ⟨le_rfl, ?_⟩⟩
    intro other member
    exact (isMax.2 other member).trans higher

theorem isMax_cons (isMax : IsMax round rounds) : IsMax round (new :: rounds) ↔ new ≤ round := by
  simp only [IsMax, List.forall_mem_cons, List.mem_cons_of_mem _ isMax.1, true_and]
  exact and_iff_left isMax.2

/-- From maximal rounds, a step keeps them exactly if the two guards agree. -/
theorem forward_iff (highest : trace.Highest) (insertion : TimeoutInsertion) :
    Forward trace insertion ↔ GuardsAgree trace insertion := by
  cases insertion with
  | timeout tc saved =>
    rcases trace.certs.insertLater_cases tc.timeout.round saved
        { trace.certs with highestTimeoutCert := some tc } with
      ⟨earlier, result⟩ | ⟨later, ok, result⟩ | ⟨later, failed, _, result⟩
    · have agree : GuardsAgree trace (.timeout tc saved) ↔
          tc.timeout.round ≤ trace.certs.timeoutRound := by
        simp [GuardsAgree, earlier, Nat.not_lt.mpr earlier]
      have after : trace.advance (.timeout tc saved) =
            ⟨trace.certs, tc.timeout.round :: trace.rounds, trace.rounds2chain⟩ := by
        rw [advance, insertTimeoutCertificate, result]
      rw [agree, ← isMax_cons highest.timeout]
      constructor
      · rintro ⟨-, -, highest⟩
        rw [after] at highest
        exact highest.timeout
      · intro stays
        constructor <;> rw [after]
        exact ⟨stays, highest.timeout2chain⟩
    · have agree : GuardsAgree trace (.timeout tc saved) ↔
          trace.certs.timeoutRound ≤ tc.timeout.round := by
        simp [GuardsAgree, later, ok, Nat.not_le.mpr later]
      have after : trace.advance (.timeout tc saved) =
            ⟨{ trace.certs with highestTimeoutCert := some tc },
              tc.timeout.round :: trace.rounds, trace.rounds2chain⟩ := by
        rw [advance, insertTimeoutCertificate, result]
      rw [agree]
      constructor
      · rintro ⟨rises, -, -⟩
        rw [after] at rises
        exact rises
      · intro rises
        constructor <;> rw [after]
        · exact rises
        · exact le_rfl
        · exact ⟨(isMax_cons_self highest.timeout).mpr rises, highest.timeout2chain⟩
    · have agree : GuardsAgree trace (.timeout tc saved) := by
        simp [GuardsAgree, failed, Nat.not_le.mpr later]
      refine iff_of_true ?_ agree
      constructor <;> rw [advance, insertTimeoutCertificate, result]
      exact highest
  | timeout2chain tc saved =>
    -- the comparison is with the round that is replaced
    refine iff_of_true ?_ trivial
    rcases trace.certs.insertLater_cases tc.round saved
        { trace.certs with highest2chainTimeoutCert := some tc } with
      ⟨earlier, result⟩ | ⟨later, ok, result⟩ | ⟨later, failed, _, result⟩
    · constructor <;> rw [advance, insert2chainTimeoutCertificate, result]
      exact ⟨highest.timeout, (isMax_cons highest.timeout2chain).mpr earlier⟩
    · constructor <;> rw [advance, insert2chainTimeoutCertificate, result]
      · exact le_rfl
      · exact later.le
      · exact ⟨highest.timeout, (isMax_cons_self highest.timeout2chain).mpr later.le⟩
    · constructor <;> rw [advance, insert2chainTimeoutCertificate, result]
      exact highest

/-- Whatever is inserted after any initial certificates, both stored rounds are the maxima
of the rounds inserted so far and never go back exactly if, at each insertion of a 3-chain
certificate, comparing its round with that of the 2-chain certificate decides as comparing
it with that of the 3-chain certificate would. -/
theorem timeout_certs_forward_iff (initial : TimeoutCerts) (insertions : List TimeoutInsertion) :
    Throughout Forward (start initial) insertions ↔
      Throughout GuardsAgree (start initial) insertions := by
  have highest : (start initial).Highest := by
    constructor <;> simp [start, IsMax]
  generalize start initial = trace at highest ⊢
  -- a forward step leaves maximal rounds, from which the rest of the run is compared
  induction insertions generalizing trace with
  | nil => exact .rfl
  | cons insertion rest ih =>
    simp only [Throughout, ← forward_iff highest insertion]
    refine and_congr_right fun forward => ?_
    exact ih _ forward.highest

/-- Without a 2-chain certificate, one of round 5 is replaced by one of round 3. -/
theorem timeout_certs_go_back :
    let higher := .timeout ⟨⟨1, 5⟩, .empty⟩ (.ok ())
    let lower := .timeout ⟨⟨1, 3⟩, .empty⟩ (.ok ())
    ((start ⟨none, none⟩).advance higher).certs.timeoutRound = 5 ∧
      (((start ⟨none, none⟩).advance higher).advance lower).certs.timeoutRound = 3 ∧
      ¬ Throughout Forward (start ⟨none, none⟩) [higher, lower] := by
  refine ⟨by decide, by decide, ?_⟩
  rintro ⟨-, forward, -⟩
  exact absurd forward.timeout (by decide)

end TimeoutTrace

end Diem
