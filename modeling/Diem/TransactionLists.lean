import Diem.Fallible
import Mathlib.Algebra.Group.Nat.Defs
import Mathlib.Data.List.Chain

namespace Diem.TransactionLists

open Fallible List

/-!
# Lists of transactions

`api/src/transactions.rs` with `context.rs`, `page.rs` and `transaction_store/mod.rs`: a list
renders each transaction with the timestamp of the one before it, while the query of one
version searches for its block.  The two agree as long as each listed transaction is in the
block of the one before it.  The last page ends before the latest version.
-/

/-- The kinds of transactions. -/
inductive Transaction where
  | userTransaction (sender sequenceNumber : Nat)
  | genesisTransaction
  | blockMetadata (timestamp : Nat)
  | stateCheckpoint
  deriving DecidableEq

/-- A transaction, with all that is rendered of it apart from its timestamp. -/
structure TransactionOnChainData (Contents : Type) where
  version : Nat
  transaction : Transaction
  contents : Contents

/-- A rendered transaction, where a genesis transaction has no timestamp. -/
structure RenderedTransaction (Contents : Type) where
  data : TransactionOnChainData Contents
  timestamp? : Option Nat

/-- The database, which stores all versions up to that of the latest ledger info. -/
structure Ledger (Contents : Type) where
  version : Nat
  transaction : Nat → Transaction
  contents : Nat → Contents

/-- A page a client asks for. -/
structure Page where
  start : Option Nat
  limit : Option Nat
  nonZero : ∀ size ∈ limit, 0 < size

namespace Page

variable (page : Page)

/-- Where the page starts, if not after `max`. -/
def getStart (default max : Nat) : Fallible Nat := do
  let version := page.start.getD default
  ensure (version ≤ max) s!"transaction not found by version({version})"
  return version

/-- The limit of the request, or the default page size. -/
def size : Nat := page.limit.getD 25

/-- The size of the page, if at most 1000. -/
def getLimit : Fallible Nat := do
  ensure (page.size ≤ 1000) s!"invalid parameter limit: {page.size}, exceed limit 1000"
  return page.size

end Page

variable {Contents : Type}

def RenderedTransaction.timestamp (transaction : RenderedTransaction Contents) : Nat :=
  transaction.timestamp?.getD 0

/-- Render a transaction with its `contents`; the source fails where these cannot be resolved. -/
def tryIntoOnchainTransaction (timestamp : Nat) (data : TransactionOnChainData Contents) :
    RenderedTransaction Contents :=
  ⟨data,
    match data.transaction with
    | .userTransaction .. | .stateCheckpoint => some timestamp
    | .blockMetadata own => some own
    | .genesisTransaction => none⟩

/-- Render transactions, each with the timestamp of the one before it. -/
def renderAll :
    Nat → List (TransactionOnChainData Contents) → List (RenderedTransaction Contents)
  | _, [] => []
  | timestamp, data :: rest =>
    let transaction := tryIntoOnchainTransaction timestamp data
    transaction :: renderAll transaction.timestamp rest

namespace Ledger

variable (ledger : Ledger Contents) (address version : Nat)

/-- A transaction with its version. -/
def getTransactionByVersion : TransactionOnChainData Contents :=
  ⟨version, ledger.transaction version, ledger.contents version⟩

/-- The timestamp, if this is a block's metadata. -/
def blockMetadata? : Option Nat :=
  match ledger.transaction version with
  | .blockMetadata timestamp => some timestamp
  | _ => none

/-- Search backwards from a version, through a number of versions. -/
def getBlockMetadata : Nat → Nat → Fallible (Option Nat)
  | 0, version => .error (.error s!"BlockMetadata preceding version {version}")
  | versionsToSearch + 1, version =>
    match ledger.blockMetadata? version, version with
    | some timestamp, _ => .ok (some timestamp)
    | none, 0 => .ok none
    | none, version + 1 => getBlockMetadata versionsToSearch version

/-- The timestamp of the block a transaction is in. -/
def getBlockTimestamp : Fallible Nat := do
  return (← ledger.getBlockMetadata 100000 version).getD 0

/-- Some transactions from a version on. -/
def getTransactions (startVersion limit : Nat) :
    Fallible (List (TransactionOnChainData Contents)) := do
  ensure (startVersion ≤ ledger.version ∧ limit ≠ 0) "no start version from database"
  return (range' startVersion (min limit (ledger.version - startVersion + 1))).map
    ledger.getTransactionByVersion

/-- The version that the index of account transactions has for a sequence number. -/
def transactionByAccount (sequenceNumber : Nat) : Option Nat :=
  (range (ledger.version + 1)).reverse.find? fun version =>
    ledger.transaction version = .userTransaction address sequenceNumber

/-- The index has an entry of the account after a sequence number. -/
def hasLater (sequenceNumber : Nat) : Bool :=
  (range (ledger.version + 1)).any fun version =>
    match ledger.transaction version with
    | .userTransaction sender number => sender = address ∧ sequenceNumber < number
    | _ => false

/-- Iterate over the index, from an expected sequence number on. -/
def accountTransactionVersions : Nat → Nat → Option Nat → Fallible (List Nat)
  | 0, _, _ => .ok []
  | limit + 1, expected, previous =>
    match ledger.transactionByAccount address expected with
    | none => do
      ensure (¬ ledger.hasLater address expected)
        "DB corruption: account transactions sequence numbers are not contiguous"
      return []
    | some version => do
      ensure (∀ earlier ∈ previous, earlier < version)
        "DB corruption: account transaction versions are not strictly increasing"
      if ledger.version < version then
        return []
      return version :: (← accountTransactionVersions limit (expected + 1) version)

/-- Some transactions of an account. -/
def getAccountTransactions (start limit : Nat) :
    Fallible (List (TransactionOnChainData Contents)) := do
  ensure (start + limit < 2 ^ 64) "too many transactions requested"
  let versions ← ledger.accountTransactionVersions address limit start none
  return versions.map ledger.getTransactionByVersion

/-- Render one transaction after the other. -/
def renderTransactions :
    List (TransactionOnChainData Contents) → Fallible (List (RenderedTransaction Contents))
  | [] => .ok []
  | data :: rest => do
    return renderAll (← ledger.getBlockTimestamp data.version) (data :: rest)

/-- The answer for one version. -/
def getTransaction : Fallible (RenderedTransaction Contents) := do
  ensure (version ≤ ledger.version) s!"transaction not found by version({version})"
  return tryIntoOnchainTransaction (← ledger.getBlockTimestamp version)
    (ledger.getTransactionByVersion version)

/-- The answer for a page. -/
def list (page : Page) : Fallible (List (RenderedTransaction Contents)) := do
  let limit ← page.getLimit
  let lastPageStart := if limit < ledger.version then ledger.version - limit else 0
  let startVersion ← page.getStart lastPageStart ledger.version
  ledger.renderTransactions (← ledger.getTransactions startVersion limit)

/-- The answer for a page of one account. -/
def listByAccount (page : Page) : Fallible (List (RenderedTransaction Contents)) := do
  let start ← page.getStart 0 (2 ^ 64 - 1)
  let limit ← page.getLimit
  ledger.renderTransactions (← ledger.getAccountTransactions address start limit)

/-- The timestamp of the last block that starts at or before a version. -/
def blockTimestamp : Nat → Nat
  | 0 => (ledger.blockMetadata? 0).getD 0
  | version + 1 => (ledger.blockMetadata? (version + 1)).getD (blockTimestamp version)

/-- The versions of an account's transactions with consecutive sequence numbers. -/
def consecutive : Nat → Nat → List Nat
  | 0, _ => []
  | limit + 1, start =>
    match ledger.transactionByAccount address start with
    | none => []
    | some version => version :: consecutive limit (start + 1)

/-- A transaction rendered with the timestamp of its block. -/
def shown : RenderedTransaction Contents :=
  tryIntoOnchainTransaction (ledger.blockTimestamp version) (ledger.getTransactionByVersion version)

/-- The timestamp that a list goes on with after a version. -/
def carried : Nat :=
  if ledger.transaction version = .genesisTransaction then 0 else ledger.blockTimestamp version

/-- The transaction is not rendered with a timestamp that is not the one of its block. -/
def Shows (timestamp version : Nat) : Prop :=
  match ledger.transaction version with
  | .userTransaction .. | .stateCheckpoint => timestamp = ledger.blockTimestamp version
  | _ => True

/-- Each version is near the start of its block, or near the first version. -/
def ShortBlocks : Prop :=
  ∀ version ≤ ledger.version, ∃ first ≤ version, version < first + 100000 ∧
    (first = 0 ∨ (ledger.blockMetadata? first).isSome)

/-- The response is the list of the answers to the queries of the versions. -/
def Answers (versions : List Nat) (response : Fallible (List (RenderedTransaction Contents))) :
    Prop :=
  ∃ transactions, response = .ok transactions ∧
    versions.map ledger.getTransaction = transactions.map .ok

/-- The versions of a page, or of the last page. -/
def pageVersions (page : Page) : List Nat :=
  let start := page.start.getD (ledger.version + 1 - page.size)
  range' start (min page.size (ledger.version + 1 - start))

variable {ledger}

theorem getBlockMetadata_eq {versionsToSearch version : Nat}
    (near : ∃ first ≤ version, version < first + versionsToSearch ∧
      (first = 0 ∨ (ledger.blockMetadata? first).isSome)) :
    ∃ found, ledger.getBlockMetadata versionsToSearch version = .ok found ∧
      found.getD 0 = ledger.blockTimestamp version := by
  induction versionsToSearch generalizing version with
  | zero => omega
  | succ versionsToSearch ih =>
    obtain ⟨first, before, bound, starts⟩ := near
    cases found : ledger.blockMetadata? version with
    | some timestamp =>
      refine ⟨some timestamp, by simp [getBlockMetadata, found], ?_⟩
      cases version <;> simp [blockTimestamp, found]
    | none =>
      cases version with
      | zero => exact ⟨none, by simp [getBlockMetadata, found], by simp [blockTimestamp, found]⟩
      | succ version =>
        have earlier : first ≤ version := by
          refine Nat.le_of_lt_succ (lt_of_le_of_ne before ?_)
          rintro rfl
          simp [found] at starts
        obtain ⟨metadata, returned, same⟩ := ih ⟨first, earlier, by omega, starts⟩
        exact ⟨metadata, by simp [getBlockMetadata, found, returned],
          by simp [blockTimestamp, found, same]⟩

/-- A list shows what the queries show if each timestamp carries over. -/
theorem renderAll_eq_iff (versions : List Nat) :
    ∀ timestamp, renderAll timestamp (versions.map ledger.getTransactionByVersion) =
        versions.map ledger.shown ↔
      (∀ version ∈ versions.head?, ledger.Shows timestamp version) ∧
        versions.IsChain (ledger.Shows ∘ ledger.carried) := by
  induction versions with
  | nil => simp [renderAll]
  | cons version versions ih =>
    intro timestamp
    have shown : tryIntoOnchainTransaction timestamp (ledger.getTransactionByVersion version) =
        ledger.shown version ↔ ledger.Shows timestamp version := by
      simp only [Ledger.shown, tryIntoOnchainTransaction, Shows, getTransactionByVersion]
      cases ledger.transaction version <;> simp
    have next : (ledger.shown version).timestamp = ledger.carried version := by
      simp only [Ledger.shown, tryIntoOnchainTransaction, getTransactionByVersion, carried]
      cases found : ledger.transaction version with
      | blockMetadata own =>
        cases version <;>
          simp [RenderedTransaction.timestamp, blockTimestamp, blockMetadata?, found]
      | _ => simp [RenderedTransaction.timestamp]
    rw [map_cons, map_cons, renderAll, cons.injEq, shown, isChain_cons, head?_cons]
    simp only [Option.mem_some_iff, forall_eq', Function.comp_apply]
    refine and_congr_right fun shows => ?_
    rw [shown.mpr shows, next, ih]

theorem map_version_renderAll (versions : List Nat) :
    ∀ timestamp,
      (renderAll timestamp (versions.map ledger.getTransactionByVersion)).map (·.data.version) =
        versions := by
  induction versions with
  | nil => simp [renderAll]
  | cons version versions ih =>
    simp [renderAll, ih, tryIntoOnchainTransaction, getTransactionByVersion]

section Short

variable (short : ledger.ShortBlocks) {versions expected : List Nat}
  (stored : ∀ version ∈ versions, version ≤ ledger.version)
include short stored

omit stored in
theorem getBlockTimestamp_eq {version : Nat} (reached : version ≤ ledger.version) :
    ledger.getBlockTimestamp version = .ok (ledger.blockTimestamp version) := by
  obtain ⟨metadata, returned, same⟩ := getBlockMetadata_eq (short version reached)
  simp [getBlockTimestamp, returned, same]

theorem answers_iff {response : Fallible (List (RenderedTransaction Contents))} :
    ledger.Answers versions response ↔ response = .ok (versions.map ledger.shown) := by
  have queries : versions.map ledger.getTransaction = (versions.map ledger.shown).map .ok := by
    rw [map_map]
    refine map_congr_left fun version member => ?_
    have reached := stored version member
    simp [getTransaction, ensure, reached, getBlockTimestamp_eq short reached, shown]
  rw [Answers, queries]
  constructor
  · rintro ⟨transactions, same, answers⟩
    rw [same, map_injective_iff.mpr (fun _ _ => Except.ok.inj) answers]
  · exact fun same => ⟨_, same, rfl⟩

theorem renderTransactions_eq_iff :
    ledger.renderTransactions (versions.map ledger.getTransactionByVersion) =
        .ok (expected.map ledger.shown) ↔
      versions = expected ∧ expected.IsChain (ledger.Shows ∘ ledger.carried) := by
  obtain ⟨timestamp, rendered, shows⟩ : ∃ timestamp,
      ledger.renderTransactions (versions.map ledger.getTransactionByVersion) =
          .ok (renderAll timestamp (versions.map ledger.getTransactionByVersion)) ∧
        ∀ version ∈ versions.head?, ledger.Shows timestamp version := by
    cases versions with
    | nil => exact ⟨0, rfl, by simp⟩
    | cons version versions =>
      refine ⟨ledger.blockTimestamp version, ?_, ?_⟩
      · simp [renderTransactions, getTransactionByVersion,
          getBlockTimestamp_eq short (stored version (by simp))]
      · simp only [head?_cons, Option.mem_some_iff, forall_eq', Shows]
        split <;> simp
  rw [rendered, Except.ok.injEq]
  constructor
  · intro same
    obtain rfl : versions = expected := by
      have := congrArg (map (·.data.version)) same
      rw [map_version_renderAll] at this
      simpa [shown, tryIntoOnchainTransaction, getTransactionByVersion, Function.comp_def]
        using this
    exact ⟨rfl, ((renderAll_eq_iff versions timestamp).mp same).2⟩
  · rintro ⟨rfl, chain⟩
    exact (renderAll_eq_iff versions timestamp).mpr ⟨shows, chain⟩

end Short

variable {address : Nat}

theorem le_of_transactionByAccount {sequenceNumber version : Nat}
    (indexed : ledger.transactionByAccount address sequenceNumber = some version) :
    version ≤ ledger.version := by
  have member := mem_of_find?_eq_some indexed
  rw [mem_reverse, mem_range] at member
  exact Nat.le_of_lt_succ member

theorem le_of_mem_consecutive {limit start version : Nat}
    (member : version ∈ ledger.consecutive address limit start) : version ≤ ledger.version := by
  fun_induction consecutive ledger address limit start with
  | case1 => cases member
  | case2 => cases member
  | case3 limit start first indexed ih =>
    rcases mem_cons.mp member with rfl | later
    · exact le_of_transactionByAccount indexed
    · exact ih later

theorem accountTransactionVersions_eq_ok_iff {limit start : Nat} {versions : List Nat} :
    ∀ previous : Option Nat,
      ledger.accountTransactionVersions address limit start previous = .ok versions ↔
        versions = ledger.consecutive address limit start ∧
          (∀ earlier ∈ previous, ∀ first ∈ versions.head?, earlier < first) ∧
          versions.IsChain (· < ·) ∧
          (versions.length < limit → ¬ ledger.hasLater address (start + versions.length)) := by
  induction limit generalizing start versions with
  | zero =>
    intro previous
    rw [accountTransactionVersions, consecutive, Except.ok.injEq]
    grind
  | succ limit ih =>
    intro previous
    rw [accountTransactionVersions, consecutive]
    cases indexed : ledger.transactionByAccount address start with
    | none =>
      rw [check_eq_ok_iff, ensure_eq_ok_iff]
      simp only [pure, Except.pure, Except.ok.injEq]
      grind
    | some version =>
      have stored := le_of_transactionByAccount indexed
      rw [check_eq_ok_iff, ensure_eq_ok_iff, if_neg (not_lt.mpr stored), bind_eq_ok_iff]
      simp only [ih, pure, Except.pure, Except.ok.injEq]
      constructor
      · rintro ⟨before, rest, ⟨rfl, next, chain, last⟩, rfl⟩
        refine ⟨rfl, by simpa using before, isChain_cons.mpr ⟨next version rfl, chain⟩, ?_⟩
        intro fewer
        simpa [Nat.add_assoc, Nat.add_comm 1] using last (by simpa using fewer)
      · rintro ⟨rfl, before, chain, last⟩
        obtain ⟨next, chain⟩ := isChain_cons.mp chain
        refine ⟨by simpa using before, _, ⟨rfl, by simpa using next, chain, ?_⟩, rfl⟩
        intro fewer
        simpa [Nat.add_assoc, Nat.add_comm 1] using last (by simpa using fewer)

end Ledger

theorem Page.size_pos (page : Page) : 0 < page.size := by
  cases limit : page.limit with
  | none => simp [size, limit]
  | some size => simpa [Page.size, limit] using page.nonZero size limit

namespace Ledger

variable (ledger : Ledger Contents) {page : Page}

theorem range'_eq_pageVersions_iff {start : Nat}
    (startVersion : page.start.getD
      (if page.size < ledger.version then ledger.version - page.size else 0) = start)
    (reached : start ≤ ledger.version) :
    range' start (min page.size (ledger.version - start + 1)) = ledger.pageVersions page ↔
      (page.start = none → ledger.version < page.size) := by
  have positive := page.size_pos
  cases given : page.start with
  | some first =>
    obtain rfl : first = start := by simpa [given] using startVersion
    simp [pageVersions, given, Nat.sub_add_comm reached]
  | none =>
    simp only [given, Option.getD_none, pageVersions] at startVersion ⊢
    constructor
    · intro same
      have heads := congrArg head? same
      rw [head?_range', head?_range'] at heads
      split at heads <;> split at heads <;> simp at heads <;> split at startVersion <;> omega
    · intro only
      have few := only trivial
      obtain rfl : start = 0 := by rw [← startVersion, if_neg (by omega)]
      simp [Nat.sub_eq_zero_of_le (Nat.succ_le_of_lt few)]

variable (small : page.size ≤ 1000)
include small

theorem list_eq (valid : ∀ start ∈ page.start, start ≤ ledger.version) :
    ∃ start ≤ ledger.version, page.start.getD
      (if page.size < ledger.version then ledger.version - page.size else 0) = start ∧
      ledger.list page = ledger.renderTransactions
        ((range' start (min page.size (ledger.version - start + 1))).map
          ledger.getTransactionByVersion) := by
  generalize startVersion : page.start.getD _ = start
  have reached : start ≤ ledger.version := by
    cases given : page.start with
    | none =>
      rw [← startVersion, given, Option.getD_none]
      split <;> omega
    | some first => simpa [← startVersion, given] using valid first given
  refine ⟨start, reached, rfl, ?_⟩
  simp [list, Page.getLimit, Page.getStart, ensure, small, getTransactions, startVersion, reached,
    page.size_pos.ne', pure, Except.pure]

theorem listByAccount_eq (valid : ∀ start ∈ page.start, start < 2 ^ 64) (address : Nat) :
    ledger.listByAccount address page = (do
      ensure (page.start.getD 0 + page.size < 2 ^ 64) "too many transactions requested"
      let versions ← ledger.accountTransactionVersions address page.size (page.start.getD 0) none
      ledger.renderTransactions (versions.map ledger.getTransactionByVersion)) := by
  have first : page.start.getD 0 ≤ 2 ^ 64 - 1 := by
    cases given : page.start with
    | none => simp
    | some start => exact Nat.le_pred_of_lt (valid start given)
  simp only [listByAccount, Page.getLimit, Page.getStart, getAccountTransactions, ensure, small,
    first]
  simp

end Ledger

/-- Pages with a start are exact, and the last page is if it is the only one.  A list by account
is if its transactions are of one block time and its index has no gap. -/
theorem lists_answer_queries_iff
    (ledger : Ledger Contents)
    (short : ledger.ShortBlocks)
    (page : Page)
    (small : page.size ≤ 1000) :
    ((∀ start ∈ page.start, start ≤ ledger.version) →
      (ledger.Answers (ledger.pageVersions page) (ledger.list page) ↔
        (page.start = none → ledger.version < page.size) ∧
          (ledger.pageVersions page).IsChain (ledger.Shows ∘ ledger.carried))) ∧
    (∀ version, ledger.transaction version ≠ .genesisTransaction →
      ledger.Shows (ledger.carried version) (version + 1)) ∧
    ((∀ start ∈ page.start, start < 2 ^ 64) → ∀ address versions,
      versions = ledger.consecutive address page.size (page.start.getD 0) →
        (ledger.Answers versions (ledger.listByAccount address page) ↔
          page.start.getD 0 + page.size < 2 ^ 64 ∧ versions.IsChain (· < ·) ∧
            (versions.length < page.size →
              ¬ ledger.hasLater address (page.start.getD 0 + versions.length)) ∧
            versions.IsChain (ledger.Shows ∘ ledger.carried))) := by
  refine ⟨fun valid => ?_, ?_, fun valid address versions same => ?_⟩
  · obtain ⟨start, reached, startVersion, run⟩ := ledger.list_eq small valid
    rw [Ledger.answers_iff short, run, Ledger.renderTransactions_eq_iff short,
      ledger.range'_eq_pageVersions_iff startVersion reached]
    · intro version member
      simp at member
      omega
    · intro version member
      simp [Ledger.pageVersions] at member
      omega
  · intro version ordinary
    simp only [Ledger.Shows, Ledger.carried, if_neg ordinary, Ledger.blockTimestamp,
      Ledger.blockMetadata?]
    cases ledger.transaction (version + 1) <;> simp
  · subst same
    have stored {version} := @Ledger.le_of_mem_consecutive _ ledger address page.size
      (page.start.getD 0) version
    rw [Ledger.answers_iff short fun _ => stored, ledger.listByAccount_eq small valid,
      check_eq_ok_iff, ensure_eq_ok_iff, bind_eq_ok_iff]
    refine and_congr_right fun _ => ?_
    constructor
    · rintro ⟨versions, read, rendered⟩
      obtain ⟨rfl, -, chain, last⟩ := (Ledger.accountTransactionVersions_eq_ok_iff none).mp read
      exact ⟨chain, last, ((Ledger.renderTransactions_eq_iff short fun _ => stored).mp rendered).2⟩
    · rintro ⟨chain, last, shown⟩
      refine ⟨_, (Ledger.accountTransactionVersions_eq_ok_iff none).mpr
        ⟨rfl, by simp, chain, last⟩, ?_⟩
      exact (Ledger.renderTransactions_eq_iff short fun _ => stored).mpr ⟨rfl, shown⟩

/-- Two blocks, each with a transaction of the same account. -/
def sampleLedger : Ledger Unit where
  version := 4
  transaction
    | 1 => .blockMetadata 10
    | 2 => .userTransaction 7 0
    | 3 => .blockMetadata 20
    | 4 => .userTransaction 7 1
    | _ => .genesisTransaction
  contents _ := ()

/-- A page with the first transaction of the account, and a list with its second one. -/
theorem lists_answer_queries_sample :
    let page : Page := ⟨some 1, some 2, by decide⟩
    sampleLedger.Answers [1, 2] (sampleLedger.list page) ∧
      sampleLedger.Answers [4] (sampleLedger.listByAccount 7 page) := by
  intro page
  have short : sampleLedger.ShortBlocks := by
    intro version reached
    exact ⟨0, by simp, by simp [sampleLedger] at reached; omega, .inl rfl⟩
  obtain ⟨pages, next, lists⟩ := lists_answer_queries_iff sampleLedger short page (by decide)
  exact ⟨(pages (by decide)).mpr ⟨nofun, .cons_cons (next 1 nofun) (.singleton _)⟩,
    (lists (by decide) 7 [4] rfl).mpr ⟨by decide, .singleton _, by decide, .singleton _⟩⟩

/-- The last page lacks the latest version, and a list by account shows the time of one block in
another one. -/
theorem lists_not_answer_queries :
    ¬ sampleLedger.Answers (sampleLedger.pageVersions ⟨none, some 2, by decide⟩)
        (sampleLedger.list ⟨none, some 2, by decide⟩) ∧
      ¬ sampleLedger.Answers (sampleLedger.consecutive 7 2 0)
        (sampleLedger.listByAccount 7 ⟨none, some 2, by decide⟩) := by
  constructor
  · rintro ⟨transactions, same, answers⟩
    cases same
    cases answers
  · rintro ⟨transactions, same, answers⟩
    cases same
    cases answers

end Diem.TransactionLists
