import Diem.Fallible

namespace Diem

open Fallible List

/-!
# Terminating data streams

`data-streaming-service/src/streaming_service.rs` and `data_stream.rs`: a client terminates
the stream that sent it a notification.  The service finds that stream, but then removes
the one whose id is the id of the notification.  The live streams are therefore those
created and not terminated exactly as long as the two ids agree.
-/

/-- What a client says about a notification. -/
inductive NotificationFeedback where
  | emptyPayloadData
  | endOfStream
  | invalidPayloadData
  | payloadProofFailed
  | payloadTypeIsIncorrect
  deriving DecidableEq

/-- The notifications that a stream remembers to have sent. -/
structure DataStream where
  notificationsToResponses : List Nat
  streamEndNotificationId : Option Nat

/-- The live streams and the generators of their ids and of those of notifications. -/
structure DataStreamingService where
  dataStreams : List (Nat × DataStream)
  streamIdGenerator : Nat
  notificationIdGenerator : Nat

namespace DataStream

variable (stream : DataStream) (notificationId : Nat)

/-- Whether the stream sent a notification. -/
def sentNotification : Bool :=
  stream.streamEndNotificationId = some notificationId ∨
    notificationId ∈ stream.notificationsToResponses

/-- The feedback is one that can be passed on to the data client. -/
def extractResponseError : NotificationFeedback → Fallible Unit
  | .invalidPayloadData | .payloadTypeIsIncorrect | .payloadProofFailed => .ok ()
  | _ => .error (.panic "Invalid notification feedback given")

/-- Check the feedback on a notification. -/
def handleNotificationFeedback (feedback : NotificationFeedback) : Fallible Unit := do
  if stream.streamEndNotificationId = some notificationId then
    ensure (feedback = .endOfStream) "Invalid feedback given for stream end"
  else
    ensure (notificationId ∈ stream.notificationsToResponses)
      "Response context missing for notification ID"
    extractResponseError feedback

/-- Remember a notification and forget the oldest ones beyond the limit. -/
def insertNotificationResponseMapping (maxNotificationIdMappings : Nat) : DataStream :=
  let ids := stream.notificationsToResponses ++ [notificationId]
  { stream with notificationsToResponses := ids.drop (ids.length - maxNotificationIdMappings) }

/-- Remember the notification that ends the stream. -/
def sendEndOfStreamNotification : DataStream :=
  { stream with streamEndNotificationId := some notificationId }

end DataStream

namespace DataStreamingService

variable (service : DataStreamingService)

def new : DataStreamingService := ⟨[], 0, 0⟩

def dataStreamIds : List Nat := service.dataStreams.map Prod.fst

/-- Terminate the stream that sent a notification, with the ids in the order of the map. -/
def processTerminateStreamRequest (notificationId : Nat)
    (feedback : NotificationFeedback) : List Nat → Fallible DataStreamingService
  | [] => .error (.panic "Unable to find the stream that sent notification ID")
  | dataStreamId :: dataStreamIds => do
    let stream ← expect (service.dataStreams.lookup dataStreamId)
      "Expected a data stream with ID, but found None!"
    if stream.sentNotification notificationId then
      stream.handleNotificationFeedback notificationId feedback
      return { service with
        dataStreams := service.dataStreams.filter fun entry => entry.1 ≠ notificationId }
    else
      processTerminateStreamRequest notificationId feedback dataStreamIds

/-- Create a stream, if the requested data is available. -/
def processNewStreamRequest (available : Bool) : DataStreamingService × Fallible Unit :=
  let streamId := service.streamIdGenerator
  let service := { service with streamIdGenerator := streamId + 1 }
  if available = false then
    (service, .error (.error "The data is unavailable"))
  else if streamId ∈ service.dataStreamIds then
    (service, .error (.panic "Duplicate data stream found! This should not occur!"))
  else
    ({ service with dataStreams := service.dataStreams ++ [(streamId, ⟨[], none⟩)] }, .ok ())

/-- A stream that has not ended sends a notification with a new id. -/
def notify (dataStreamId : Nat) (send : DataStream → Nat → DataStream) : DataStreamingService :=
  if (service.dataStreams.lookup dataStreamId).any (·.streamEndNotificationId.isNone) then
    { service with
      dataStreams := service.dataStreams.map fun entry =>
        if entry.1 = dataStreamId then
          (entry.1, send entry.2 service.notificationIdGenerator)
        else
          entry
      notificationIdGenerator := service.notificationIdGenerator + 1 }
  else
    service

/-- A request, or a notification that a stream sends in a progress check. -/
inductive Event where
  | newStream (available : Bool)
  | dataNotification (dataStreamId : Nat)
  | endOfStream (dataStreamId : Nat)
  | terminateStream (notificationId : Nat) (feedback : NotificationFeedback)
      (dataStreamIds : List Nat)

/-- A service with the ids of the streams created and not yet terminated. -/
structure Trace where
  service : DataStreamingService
  live : List Nat

/-- The stream that the search for the sender of a notification ends at. -/
def sender? (notificationId : Nat) (dataStreamIds : List Nat) : Option Nat :=
  dataStreamIds.find? fun dataStreamId =>
    (service.dataStreams.lookup dataStreamId).any (·.sentNotification notificationId)

variable (maxNotificationIdMappings : Nat)

def Trace.advance (trace : Trace) : Event → Trace
  | .newStream available =>
    match trace.service.processNewStreamRequest available with
    | (service, .ok ()) => ⟨service, trace.live ++ [trace.service.streamIdGenerator]⟩
    | (service, .error _) => { trace with service }
  | .dataNotification dataStreamId =>
    { trace with
      service := trace.service.notify dataStreamId fun stream id =>
        stream.insertNotificationResponseMapping id maxNotificationIdMappings }
  | .endOfStream dataStreamId =>
    { trace with
      service := trace.service.notify dataStreamId .sendEndOfStreamNotification }
  | .terminateStream notificationId feedback dataStreamIds =>
    match trace.service.processTerminateStreamRequest notificationId feedback
      dataStreamIds with
    | .ok service =>
      ⟨service, trace.live.filter fun id =>
        trace.service.sender? notificationId dataStreamIds ≠ some id⟩
    | .error _ => trace

/-- The live streams are those created and not yet terminated. -/
def Trace.Exact (trace : Trace) : Prop :=
  trace.service.dataStreamIds = trace.live

/-- A request that succeeds names a notification with the id of the stream that sent it. -/
def Trace.Agrees (trace : Trace) : Event → Prop
  | .terminateStream notificationId feedback dataStreamIds =>
    ∀ service, trace.service.processTerminateStreamRequest notificationId feedback
      dataStreamIds = .ok service →
      trace.service.sender? notificationId dataStreamIds = some notificationId
  | _ => True

/-- The live streams are exact now and after each event. -/
def Trace.ExactThroughout : Trace → List Event → Prop
  | trace, [] => trace.Exact
  | trace, event :: events =>
    trace.Exact ∧ (trace.advance maxNotificationIdMappings event).ExactThroughout events

/-- Every event agrees when it happens. -/
def Trace.AgreesThroughout : Trace → List Event → Prop
  | _, [] => True
  | trace, event :: events =>
    trace.Agrees event ∧ (trace.advance maxNotificationIdMappings event).AgreesThroughout events

variable {service : DataStreamingService} {trace : Trace}

theorem dataStreamIds_notify (dataStreamId : Nat) (send : DataStream → Nat → DataStream) :
    (service.notify dataStreamId send).dataStreamIds = service.dataStreamIds := by
  rw [notify]
  split
  · simp only [dataStreamIds, map_map]
    refine map_congr_left fun entry _ => ?_
    simp only [Function.comp]
    split <;> rfl
  · rfl

theorem processTerminateStreamRequest_ok {after : DataStreamingService} {notificationId : Nat}
    {feedback : NotificationFeedback} {ids : List Nat}
    (terminated : service.processTerminateStreamRequest notificationId feedback ids = .ok after) :
    (∃ sender ∈ service.dataStreamIds, service.sender? notificationId ids = some sender) ∧
      after.dataStreamIds = service.dataStreamIds.filter (· ≠ notificationId) := by
  induction ids with
  | nil => cases terminated
  | cons dataStreamId ids ih =>
      obtain ⟨stream, found, rest⟩ := bind_eq_ok_iff.mp terminated
      have isStream : service.dataStreams.lookup dataStreamId = some stream := by simpa using found
      by_cases sent : stream.sentNotification notificationId = true
      · rw [if_pos sent] at rest
        obtain ⟨-, removed⟩ := check_eq_ok_iff.mp rest
        cases removed
        refine ⟨⟨dataStreamId, ?_, by simp [sender?, isStream, sent]⟩, ?_⟩
        · obtain ⟨_, _, split, -⟩ := lookup_eq_some_iff.mp isStream
          simp [dataStreamIds, split]
        · simp [dataStreamIds, filter_map, Function.comp_def]
      · rw [if_neg sent] at rest
        simpa [sender?, isStream, sent] using ih rest

/-- One event keeps the live streams exact exactly if it agrees. -/
theorem Trace.Exact.advance_iff (exact : trace.Exact) (event : Event) :
    (trace.advance maxNotificationIdMappings event).Exact ↔ trace.Agrees event := by
  cases event with
  | newStream available =>
      refine iff_of_true ?_ trivial
      simp only [Trace.advance, processNewStreamRequest]
      split_ifs
      · exact exact
      · exact exact
      · simpa [Exact, dataStreamIds] using exact
  | dataNotification dataStreamId =>
      exact iff_of_true ((dataStreamIds_notify _ _).trans exact) trivial
  | endOfStream dataStreamId => exact iff_of_true ((dataStreamIds_notify _ _).trans exact) trivial
  | terminateStream notificationId feedback ids =>
      rw [Trace.advance]
      split
      · rename_i after terminated
        obtain ⟨⟨sender, isLive, isSender⟩, remaining⟩ :=
          processTerminateStreamRequest_ok terminated
        have agrees : trace.Agrees (.terminateStream notificationId feedback ids) ↔
              sender = notificationId := by
          simp [Agrees, terminated, isSender]
        rw [agrees, Exact, remaining, ← show _ = trace.live from exact, isSender]
        constructor
        · intro same
          by_contra differs
          have kept : sender ∈ trace.service.dataStreamIds.filter (· ≠ notificationId) :=
            mem_filter.mpr ⟨isLive, by simpa using differs⟩
          rw [same] at kept
          simp at kept
        · rintro rfl
          refine filter_congr fun id _ => ?_
          simp [eq_comm]
      · rename_i failed
        refine iff_of_true exact fun service terminated => ?_
        simp [terminated] at failed

theorem Trace.ExactThroughout.now {maxNotificationIdMappings : Nat} {events : List Event}
    (throughout : trace.ExactThroughout maxNotificationIdMappings events) : trace.Exact := by
  cases events with
  | nil => exact throughout
  | cons event events => exact throughout.1

/-- The live streams are those created and not yet terminated at all times exactly if every
request that succeeds names a notification with the id of the stream that sent it. -/
theorem liveStreams_exact_iff (events : List Event) :
    Trace.ExactThroughout maxNotificationIdMappings ⟨new, []⟩ events ↔
      Trace.AgreesThroughout maxNotificationIdMappings ⟨new, []⟩ events := by
  have exact : Trace.Exact ⟨new, []⟩ := rfl
  generalize (⟨new, []⟩ : Trace) = trace at exact ⊢
  induction events generalizing trace with
  | nil => exact iff_of_true exact trivial
  | cons event events ih =>
      rw [Trace.ExactThroughout, Trace.AgreesThroughout,
        ← exact.advance_iff maxNotificationIdMappings event]
      constructor
      · rintro ⟨-, later⟩
        have next := later.now
        exact ⟨next, (ih _ next).mp later⟩
      · rintro ⟨next, later⟩
        exact ⟨exact, (ih _ next).mpr later⟩

/-- The second notification of the first stream terminates the second stream instead. -/
theorem liveStreams_confused :
    ¬ Trace.ExactThroughout 10 ⟨new, []⟩
      [.newStream true, .newStream true, .dataNotification 0, .dataNotification 0,
        .terminateStream 1 .invalidPayloadData [0, 1]] := by
  simp only [Trace.ExactThroughout, Trace.Exact]
  decide

end DataStreamingService

end Diem
