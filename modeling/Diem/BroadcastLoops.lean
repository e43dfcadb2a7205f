import Mathlib.Data.List.Induction
import Mathlib.Logic.Function.Basic

namespace Diem.SharedMempool

open List Function

/-!
# The broadcast loops of the coordinator

An upstream peer that connects starts a loop: each broadcast schedules the next one.  The
loop of a lost peer ends only when its scheduled broadcast fires, so that a peer that
reconnects before this has two.  Whether a batch is found and sent is left open.
-/

inductive NetworkId
  | validator | vfn | publicNetwork
  deriving DecidableEq

/-- Who has opened a connection. -/
inductive ConnectionOrigin
  | inbound | outbound
  deriving DecidableEq

structure PeerNetworkId where
  networkId : NetworkId
  peerId : Nat
  deriving DecidableEq

/-- The broadcast information of a connected upstream peer. -/
structure PeerSyncState where
  backoffMode : Bool
  deriving DecidableEq

/-- A broadcast that fires at its deadline. -/
structure ScheduledBroadcast where
  deadline : Nat
  peer : PeerNetworkId
  backoff : Bool
  deriving DecidableEq

/-- The intervals between the broadcasts to a peer. -/
structure MempoolConfig where
  sharedMempoolTickIntervalMs : Nat
  sharedMempoolBackoffIntervalMs : Nat

/-- The state of the coordinator, with the batches that it has sent. -/
structure Coordinator where
  syncStates : PeerNetworkId → Option PeerSyncState
  scheduledBroadcasts : List ScheduledBroadcast
  sent : List (Nat × PeerNetworkId)

/-- What the coordinator handles; a batch is found and sent if `sends`, and an
acknowledged batch was `pending` or not. -/
inductive Event
  | newPeer (peer : PeerNetworkId) (origin : ConnectionOrigin) (sends : Bool)
  | lostPeer (peer : PeerNetworkId)
  | ack (peer : PeerNetworkId) (pending backoff : Bool)
  | fire (broadcast : ScheduledBroadcast) (sends : Bool)

/-- Everyone is upstream on the validator network, and on the others who was dialed. -/
def isUpstreamPeer (peer : PeerNetworkId) (origin : ConnectionOrigin) : Bool :=
  peer.networkId = .validator || origin = .outbound

namespace Coordinator

/-- No peer is connected. -/
def new : Coordinator := ⟨fun _ => none, [], []⟩

variable (smp : Coordinator) (config : MempoolConfig) (now : Nat) (peer : PeerNetworkId)

def write (state : Option PeerSyncState) : Coordinator :=
  { smp with syncStates := update smp.syncStates peer state }

/-- A new upstream peer gets a sync state; it is returned whether there was none. -/
def addPeer (origin : ConnectionOrigin) : Bool × Coordinator :=
  let isNewPeer := (smp.syncStates peer).isNone
  (isNewPeer,
    if isUpstreamPeer peer origin && isNewPeer then smp.write peer (some ⟨false⟩) else smp)

def isBackoffMode : Bool :=
  match smp.syncStates peer with
  | some state => state.backoffMode
  | none => false

/-- An acknowledged batch that was pending may turn the backoff mode on. -/
def processBroadcastAck (pending backoff : Bool) : Coordinator :=
  match smp.syncStates peer with
  | some _ => if pending && backoff then smp.write peer (some ⟨true⟩) else smp
  | none => smp

/-- In backoff mode only a broadcast scheduled as backoff is sent, which ends the mode. -/
def sendBatch (scheduledBackoff sends : Bool) : Coordinator :=
  if smp.isBackoffMode peer && !scheduledBackoff then smp
  else if sends then
    { smp.write peer (some ⟨false⟩) with sent := (now, peer) :: smp.sent }
  else smp

/-- The interval before the next broadcast to a peer. -/
def interval : Nat :=
  if smp.isBackoffMode peer then config.sharedMempoolBackoffIntervalMs
  else config.sharedMempoolTickIntervalMs

def schedule : Coordinator :=
  { smp with scheduledBroadcasts :=
      ⟨now + smp.interval config peer, peer, smp.isBackoffMode peer⟩ :: smp.scheduledBroadcasts }

/-- A broadcast is attempted and the next one scheduled, unless the peer is lost. -/
def executeBroadcast (backoff sends : Bool) : Coordinator :=
  match smp.syncStates peer with
  | some _ => (smp.sendBatch now peer backoff sends).schedule config now peer
  | none => smp

/-- The coordinator handles an event at a time. -/
def handle (config : MempoolConfig) (smp : Coordinator) : Nat × Event → Coordinator
  | (now, .newPeer peer origin sends) =>
    let (isNewPeer, added) := smp.addPeer peer origin
    if isNewPeer && isUpstreamPeer peer origin then
      added.executeBroadcast config now peer false sends
    else added
  | (_, .lostPeer peer) => smp.write peer none
  | (_, .ack peer pending backoff) => smp.processBroadcastAck peer pending backoff
  | (now, .fire broadcast sends) =>
    if broadcast ∈ smp.scheduledBroadcasts ∧ broadcast.deadline ≤ now then
      { smp with scheduledBroadcasts := smp.scheduledBroadcasts.erase broadcast }
        |>.executeBroadcast config now broadcast.peer broadcast.backoff sends
    else smp

def run (config : MempoolConfig) (events : List (Nat × Event)) : Coordinator :=
  events.foldl (handle config) new

def loops : List ScheduledBroadcast :=
  smp.scheduledBroadcasts.filter (·.peer = peer)

variable {smp config now peer} {other : PeerNetworkId}
  {broadcast : ScheduledBroadcast} {backoff sends : Bool}

end Coordinator

end Diem.SharedMempool
