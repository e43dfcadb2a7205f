import Mathlib.Data.Fintype.Basic
import Mathlib.Data.Finset.Union

/-!
# Peers from several discovery sources

Every source has a bucket of addresses and one of keys for each peer.  The trusted peers are
replaced if an update has changed keys.  Maps are functions from peer ids, a finite type; the
loops of an update only touch the entry of the peer they are at, so each peer is followed alone.
-/

namespace Diem.ConnectivityManager

/-- Where peers are discovered. -/
inductive DiscoverySource where
  | onChainValidatorSet
  | file
  | config
  deriving DecidableEq

instance sources : Fintype DiscoverySource :=
  ⟨{.onChainValidatorSet, .file, .config}, fun src => by cases src <;> decide⟩

inductive PeerRole where
  | validator | preferredUpstream | upstream | validatorFullNode | downstream | known | unknown
  deriving DecidableEq

/-- A part of a network address; only the key of the noise protocol is read here. -/
inductive Protocol (Key : Type) where
  | noiseIK (pubkey : Key)
  | other (text : String)
  deriving DecidableEq

/-- What a source contributes about a peer: its addresses and its keys. -/
abbrev Offer (Key : Type) := List (List (Protocol Key)) × Finset Key

/-- A peer in an update; one that is not mentioned counts as one without addresses and keys. -/
structure Peer (Key : Type) where
  addresses : List (List (Protocol Key)) := []
  keys : Finset Key := ∅
  role : PeerRole := .unknown

/-- A source says what it knows about all peers. -/
abbrev Request (PeerId Key : Type) := DiscoverySource × (PeerId → Option (Peer Key))

/-- A peer with a bucket for each source. -/
structure DiscoveredPeer (Key : Type) where
  role : PeerRole
  addrs : DiscoverySource → List (List (Protocol Key)) := fun _ => []
  keys : DiscoverySource → Finset Key := fun _ => ∅

/-- The discovered peers, and the peers that are trusted. -/
structure Manager (PeerId Key : Type) where
  discoveredPeers : PeerId → Option (DiscoveredPeer Key)
  eligible : PeerId → Option (Peer Key)

section

variable {Content : Type} [DecidableEq Content] (buckets : DiscoverySource → Content)

/-- No source has anything. -/
def isEmpty [EmptyCollection Content] : Bool := ∀ src, buckets src = ∅

variable (src : DiscoverySource) (content : Content)

/-- Replace a bucket, and tell whether it has changed. -/
def update : Bool × (DiscoverySource → Content) :=
  if buckets src ≠ content then (true, Function.update buckets src content) else (false, buckets)

@[simp] theorem update_snd :
    (update buckets src content).2 = Function.update buckets src content := by
  unfold update
  split_ifs with changed
  · rfl
  · rw [← not_not.mp changed, Function.update_eq_self]

@[simp] theorem update_fst : (update buckets src content).1 = false ↔ buckets src = content := by
  unfold update
  split_ifs with changed <;> simp_all

end

section

variable {PeerId Key : Type}

/-- The key in an address. -/
def findNoiseProto (address : List (Protocol Key)) : Option Key :=
  address.findSome? fun
    | .noiseIK pubkey => some pubkey
    | .other _ => none

/-- What each source has contributed to an entry. -/
def contribution (peer? : Option (DiscoveredPeer Key)) (src : DiscoverySource) : Offer Key :=
  (peer?.map fun peer => (peer.addrs src, peer.keys src)).getD ([], ∅)

/-- What an update says about a peer. -/
def Request.offer (request : Request PeerId Key) (id : PeerId) : Offer Key :=
  let newPeer := (request.2 id).getD {}
  (newPeer.addresses, newPeer.keys)

/-- What the latest update of each source says about a peer. -/
def latest (requests : List (Request PeerId Key)) (id : PeerId) (src : DiscoverySource) :
    Offer Key :=
  match requests.reverse.find? (·.1 = src) with
  | none => ([], ∅)
  | some request => request.offer id

/-- A peer is trusted if a source lists a key; under a condition with the keys of all sources. -/
def Trusts (condition : Prop) (trusted : Option (Peer Key)) (offers : DiscoverySource → Offer Key) :
    Prop :=
  (trusted.isSome ↔ ∃ src, (offers src).2 ≠ ∅) ∧
    (condition → ∀ peer ∈ trusted, ∀ key, key ∈ peer.keys ↔ ∃ src, key ∈ (offers src).2)

/-- The keys in addresses are among the keys. -/
def KeysListed (offer : Offer Key) : Prop :=
  ∀ address ∈ offer.1, ∀ key ∈ findNoiseProto address, key ∈ offer.2

/-- Every update lists the keys in a peer's addresses among its keys. -/
def AllListed (requests : List (Request PeerId Key)) : Prop :=
  ∀ request ∈ requests, ∀ id, KeysListed (request.offer id)

theorem latest_append (requests : List (Request PeerId Key)) (request : Request PeerId Key)
    (id : PeerId) :
    latest (requests ++ [request]) id =
      Function.update (latest requests id) request.1 (request.offer id) := by
  funext src
  by_cases same : request.1 = src
  · simp [latest, ← same]
  · simp [latest, same, Ne.symm same]

theorem latest_keysListed {requests : List (Request PeerId Key)} (listed : AllListed requests)
    (id : PeerId) (src : DiscoverySource) : KeysListed (latest requests id src) := by
  unfold latest
  split
  · simp [KeysListed]
  · rename_i found
    exact listed _ (List.mem_reverse.mp (List.mem_of_find?_eq_some found)) id

end

variable {PeerId Key : Type} [DecidableEq Key]

/-- The keys in the addresses are added to those given. -/
def Peer.new (addresses : List (List (Protocol Key))) (keys : Finset Key) (role : PeerRole) :
    Peer Key :=
  { addresses, keys := keys ∪ (addresses.filterMap findNoiseProto).toFinset, role }

namespace DiscoveredPeer

variable (src : DiscoverySource) (newPeer : Peer Key) (peer : DiscoveredPeer Key)

/-- The trusted peer made of a discovered one. -/
def toPeer : Peer Key :=
  let addrs := [.onChainValidatorSet, .file, .config].flatMap peer.addrs
  .new addrs.dedup (Finset.univ.biUnion peer.keys) peer.role

def isEligible : Bool := !isEmpty peer.keys

def isEligibleToBeDialed : Bool := peer.isEligible && !isEmpty peer.addrs

/-- The first loop: forget what the source no longer says. -/
def clearStale : Bool × DiscoveredPeer Key :=
  let (keysUpdated, keys) :=
    if newPeer.keys = ∅ then update peer.keys src ∅ else (false, peer.keys)
  let addrs := if newPeer.addresses = [] then (update peer.addrs src []).2 else peer.addrs
  (keysUpdated, { peer with addrs, keys })

/-- The third loop: enter what the source says. -/
def enter : Bool × DiscoveredPeer Key :=
  let (keysUpdated, keys) := update peer.keys src newPeer.keys
  (keysUpdated, { peer with addrs := (update peer.addrs src newPeer.addresses).2, keys })

end DiscoveredPeer

/-- The loops at one peer: whether its keys have changed, and its entry.  The second loop removes
peers without state; the role is set when a peer is first discovered. -/
def updatePeer (isSelf : Bool) (src : DiscoverySource) (newPeer? : Option (Peer Key))
    (peer? : Option (DiscoveredPeer Key)) : Bool × Option (DiscoveredPeer Key) :=
  let newPeer := newPeer?.getD {}
  let (cleared, peer?) :=
    match peer? with
    | none => (false, none)
    | some peer =>
      let (cleared, peer) := peer.clearStale src newPeer
      if (newPeer.addresses = [] ∧ newPeer.keys = ∅) ∧ isEmpty peer.addrs ∧ isEmpty peer.keys then
        (cleared, none)
      else (cleared, some peer)
  if newPeer?.isNone || isSelf then (cleared, peer?)
  else
    let (entered, peer) := (peer?.getD { role := newPeer.role }).enter src newPeer
    (cleared || entered, some peer)

/-- An update replaces what its source contributed, and one that changes no keys tells so. -/
theorem updatePeer_spec (request : Request PeerId Key) (id : PeerId)
    (peer? : Option (DiscoveredPeer Key)) :
    let updated := updatePeer false request.1 (request.2 id) peer?
    contribution updated.2 = Function.update (contribution peer?) request.1 (request.offer id) ∧
      (updated.1 = false → (contribution peer? request.1).2 = (request.offer id).2) := by
  intro updated
  obtain ⟨src, newPeers⟩ := request
  constructor
  · funext other
    by_cases same : other = src <;> cases mentioned : newPeers id <;> cases peer? <;>
      simp only [updated, mentioned, updatePeer, DiscoveredPeer.clearStale,
        DiscoveredPeer.enter] <;>
      split_ifs <;> simp_all [contribution, isEmpty, Request.offer]
    -- A removed peer had nothing from the other sources.
    all_goals
      rename_i nothing
      have addrs := nothing.1 other
      have keys := nothing.2 other
      simp_all
  · cases mentioned : newPeers id <;> cases peer? <;>
      simp only [updated, mentioned, updatePeer, DiscoveredPeer.clearStale,
        DiscoveredPeer.enter] <;>
      split_ifs <;> simp_all [contribution, isEmpty, Request.offer]

/-- A refreshed peer is trusted with the keys of all sources. -/
theorem trusts_refreshed {peer? : Option (DiscoveredPeer Key)} {condition : Prop}
    (keysListed : condition → ∀ src, KeysListed (contribution peer? src)) :
    Trusts condition ((peer?.filter (·.isEligible)).map (·.toPeer)) (contribution peer?) := by
  rcases peer? with _ | peer
  · simp [Trusts, contribution]
  · have keys : condition → ∀ key, key ∈ peer.toPeer.keys ↔ ∃ src, key ∈ peer.keys src := by
      intro holds key
      simp only [DiscoveredPeer.toPeer, Peer.new, Finset.mem_union, Finset.mem_biUnion,
        Finset.mem_univ, true_and, List.mem_toFinset, List.mem_filterMap, List.mem_dedup,
        List.mem_flatMap]
      refine or_iff_left_of_imp fun ⟨address, ⟨src, _, member⟩, found⟩ => ?_
      exact ⟨src, keysListed holds src address member key found⟩
    cases eligible : peer.isEligible <;>
      simp_all [Trusts, contribution, Option.filter_some, DiscoveredPeer.isEligible, isEmpty]

variable [Fintype PeerId] [DecidableEq PeerId]

namespace Manager

variable (selfPeerId : PeerId) (manager : Manager PeerId Key)

/-- A source sends an update. -/
def handleUpdateDiscoveredPeers (request : Request PeerId Key) : Manager PeerId Key :=
  let updated id :=
    updatePeer (id = selfPeerId) request.1 (request.2 id) (manager.discoveredPeers id)
  { discoveredPeers id := (updated id).2
    eligible :=
      if ∃ id, (updated id).1 then
        fun id => ((updated id).2.filter (·.isEligible)).map (·.toPeer)
      else manager.eligible }

/-- The updates one after the other, the seeds of the configuration among them. -/
def run (requests : List (Request PeerId Key)) : Manager PeerId Key :=
  requests.foldl (handleUpdateDiscoveredPeers selfPeerId) ⟨fun _ => none, fun _ => none⟩

/-- A peer that may be chosen for a dial. -/
def isDialCandidate (connected dialQueue : List PeerId) (rolesToDial : List PeerRole)
    (id : PeerId) : Bool :=
  (manager.discoveredPeers id).any fun peer =>
    peer.isEligibleToBeDialed && id ∉ connected && id ∉ dialQueue && peer.role ∈ rolesToDial

end Manager

section

variable {selfPeerId id : PeerId} {requests : List (Request PeerId Key)}
  {manager : Manager PeerId Key} {request : Request PeerId Key}

theorem handle_contribution (different : id ≠ selfPeerId) :
    contribution ((manager.handleUpdateDiscoveredPeers selfPeerId request).discoveredPeers id) =
      Function.update (contribution (manager.discoveredPeers id)) request.1 (request.offer id) := by
  simpa [Manager.handleUpdateDiscoveredPeers, different] using
    (updatePeer_spec request id (manager.discoveredPeers id)).1

theorem handle_own (own : manager.discoveredPeers selfPeerId = none) :
    (manager.handleUpdateDiscoveredPeers selfPeerId request).discoveredPeers selfPeerId = none := by
  simp [Manager.handleUpdateDiscoveredPeers, own, updatePeer]

variable (selfPeerId requests manager) in
/-- The buckets hold the latest updates, and the trusted peers follow the buckets. -/
structure Exact : Prop where
  own : manager.discoveredPeers selfPeerId = none
  offers : ∀ id ≠ selfPeerId, contribution (manager.discoveredPeers id) = latest requests id
  trusts : ∀ id, Trusts (AllListed requests) (manager.eligible id)
    (contribution (manager.discoveredPeers id))

theorem Exact.handle (before : Exact selfPeerId requests manager) :
    Exact selfPeerId (requests ++ [request])
      (manager.handleUpdateDiscoveredPeers selfPeerId request) := by
  set after := manager.handleUpdateDiscoveredPeers selfPeerId request with handled
  have own : after.discoveredPeers selfPeerId = none := handle_own before.own
  have offers : ∀ id ≠ selfPeerId,
      contribution (after.discoveredPeers id) = latest (requests ++ [request]) id := by
    intro id different
    rw [latest_append, ← before.offers id different, handled, handle_contribution different]
  refine ⟨own, offers, fun id => ?_⟩
  by_cases changed : ∃ id, (updatePeer (id = selfPeerId) request.1 (request.2 id)
      (manager.discoveredPeers id)).1 = true
  · have refreshed : after.eligible id =
        ((after.discoveredPeers id).filter (·.isEligible)).map (·.toPeer) := by
      simp only [handled, Manager.handleUpdateDiscoveredPeers, if_pos changed]
    rw [refreshed]
    refine trusts_refreshed fun listed src => ?_
    by_cases same : id = selfPeerId
    · simp [same, own, contribution, KeysListed]
    · rw [offers id same]
      exact latest_keysListed listed id src
  · have kept : after.eligible id = manager.eligible id := by
      simp only [handled, Manager.handleUpdateDiscoveredPeers, if_neg changed]
    have sameKeys : ∀ src, (contribution (after.discoveredPeers id) src).2 =
        (contribution (manager.discoveredPeers id) src).2 := by
      intro src
      by_cases same : id = selfPeerId
      · rw [same, own, before.own]
      · have quiet := not_exists.mp changed id
        simp only [same, decide_false, Bool.not_eq_true] at quiet
        have keys := (updatePeer_spec request id _).2 quiet
        rw [handled, handle_contribution same]
        by_cases changes : src = request.1 <;> simp [changes, keys]
    have trusts := before.trusts id
    simp only [Trusts, kept, sameKeys] at trusts ⊢
    exact trusts.imp_right fun keys listed => keys fun earlier member =>
      listed earlier (List.mem_append_left _ member)

theorem exact_run : Exact selfPeerId requests (Manager.run selfPeerId requests) := by
  induction requests using List.reverseRecOn with
  | nil => exact ⟨rfl, fun _ _ => rfl, fun _ => by simp [Manager.run, Trusts, contribution]⟩
  | append_singleton requests request ih =>
    rw [Manager.run, List.foldl_append]
    exact ih.handle

end

/-- The trusted peers are those the latest updates list keys for, and their keys are exactly those
listed if every update lists the keys in a peer's addresses among its keys. -/
theorem trusted_keys_exact (selfPeerId : PeerId) (requests : List (Request PeerId Key)) :
    let manager := Manager.run selfPeerId requests
    (∀ id ≠ selfPeerId, Trusts (AllListed requests) (manager.eligible id) (latest requests id)) ∧
      manager.eligible selfPeerId = none ∧
      (∀ request id src, src ≠ request.1 →
        contribution ((manager.handleUpdateDiscoveredPeers selfPeerId request).discoveredPeers id)
          src = contribution (manager.discoveredPeers id) src) ∧
      ∀ connected dialQueue rolesToDial id,
        manager.isDialCandidate connected dialQueue rolesToDial id = true →
        ∃ src, (contribution (manager.discoveredPeers id) src).1 ≠ [] := by
  intro manager
  have holds : Exact selfPeerId requests manager := exact_run
  refine ⟨fun id different => holds.offers id different ▸ holds.trusts id, ?_, ?_, ?_⟩
  · simpa [Trusts, holds.own, contribution] using (holds.trusts selfPeerId).1
  · intro request id src other
    by_cases same : id = selfPeerId
    · rw [same, handle_own holds.own, holds.own]
    · rw [handle_contribution same, Function.update_of_ne other]
  · intro connected dialQueue rolesToDial id candidate
    cases found : manager.discoveredPeers id <;>
      simp_all [Manager.isDialCandidate, DiscoveredPeer.isEligibleToBeDialed, isEmpty, contribution]

/-- A key that only stands in an address becomes trusted. -/
theorem trusted_keys_not_exact :
    ¬Trusts True ((Manager.run false
        [(.file, fun _ => some { addresses := [[.noiseIK 2]], keys := {1} })]).eligible true)
      (latest [(.file, fun _ => some { addresses := [[.noiseIK 2]], keys := {1} })] true) := by
  rintro ⟨-, keys⟩
  obtain ⟨src, member⟩ := (keys trivial _ rfl 2).mp (by decide)
  cases src <;> simp [latest, Request.offer] at member

end Diem.ConnectivityManager
