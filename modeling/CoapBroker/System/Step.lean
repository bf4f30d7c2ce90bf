import CoapBroker.Lib.Run
import CoapBroker.Broker.Discovery
import CoapBroker.Broker.Monitor
import CoapBroker.Broker.Post
import CoapBroker.Broker.Put

/-!
# The C broker as a transition system

The events the broker reacts to, one after the other: requests that libcoap hands to the
handler of a registered resource, observers that libcoap adds and removes, messages from
the MQTT bridge, and the expiry sweeps of the main loop. Requests name the resource they
have been dispatched to; which one that is for the segments of a path is the subject of
`CoapBroker.System.Dispatch`.

An event that does not apply (no such resource, no such handler) leaves the broker as it is.
Runs start from `boot`, with the built-in resources only. With the resource directory, they are
the runs in which nothing is registered with it: a request to register is not a step
(`Fault.registration`).
-/

namespace CoapBroker

/-- An event. -/
inductive Event
  /-- A request to the resource with the URI, at the time `now`. -/
  | request (uri : CStr) (method : Method) (req : Request) (peer : CoapAddress)
      (token : List Byte) (now : ℤ)
  /-- A request for discovery. -/
  | discover (req : Request) (block2 : Option CoapBlock) (room : ℕ) (junk : CStr → ℕ → Byte)
  /-- An observer is added to an observable resource. -/
  | observe (uri : CStr) (peer : CoapAddress) (token : List Byte)
  /-- An observer is removed. -/
  | unobserve (uri : CStr) (peer : CoapAddress) (token : List Byte)
  /-- A message from the bridge. -/
  | arrival (topicName : CStr) (payload : List Byte) (now : ℤ)
  /-- `topicDataMAMonitor`, with the readings of the clock. -/
  | dataSweep (time : ℕ → ℤ)
  /-- `topicMAMonitor`, with the readings of the clock. -/
  | topicSweep (time : ℕ → ℤ)

/-- `hnd_get_rd`. -/
def hndGetRd : Pdu :=
  ((({} : Pdu).setCode 205).addOption coapOptionContentType
    (coapEncodeVarBytes coapMediatypeApplicationLinkFormat)).addOption coapOptionMaxage
      (coapEncodeVarBytes 0x2ffff)

/-- Calling a handler on a resource. Discovery has an event of its own; `hnd_delete_broker`
    only sets `quit`, which ends the main loop. -/
def callHandler (b : Broker) (r : CoapResource) (req : Request) (peer : CoapAddress)
    (token : List Byte) (now : ℤ) : Handler → Except Fault (Broker × Output)
  | .hndPostBroker => (hndPostBroker b r req now).map Prod.fst
  | .hndPostTopic => (hndPostTopic b r req now).map Prod.fst
  | .hndGetTopic =>
    (hndGetTopic b r peer token (some req) now).map fun response => (b, { response })
  | .hndPutTopic => hndPutTopic b r req now
  | .hndDeleteTopic => .ok (hndDeleteTopic b r)
  | .hndGetBroker | .hndDeleteBroker => .ok (b, {})
  | .hndGetRd => .ok (b, { response := some hndGetRd })
  | .hndPostRd => .error .registration

/-- A step of the broker. -/
def step (b : Broker) : Event → Except Fault (Broker × Output)
  | .request uri method req peer token now =>
    match b.find uri with
    | none => .ok (b, { response := some (({} : Pdu).respond 404) })
    | some r =>
      match r.handler.of method with
      | none => .ok (b, { response := some (({} : Pdu).respond 405) })
      | some h => callHandler b r req peer token now h
  | .discover req block2 room junk =>
    (hndGetBroker b req block2 room junk).map fun response => (b, { response })
  | .observe uri peer token =>
    .ok ({ b with resources := b.resources.changeObservers uri (·.addObserver peer token) }, {})
  | .unobserve uri peer token =>
    .ok ({ b with resources := b.resources.changeObservers uri (·.deleteObserver peer token) }, {})
  | .arrival topicName payload now =>
    (msgarrvd b topicName payload now).map fun (b, out, _) => (b, out)
  | .dataSweep time => .ok (topicDataMAMonitor b time, {})
  | .topicSweep time => .ok (topicMAMonitor b time)

/-! ## The initial state -/

/-- The resource of the resource directory (`init_rd_resources`). -/
def rdResource : CoapResource :=
  let r := coapResourceInit (CStr.lit "rd") 0
  let r := { r with handler := { get := some .hndGetRd, post := some .hndPostRd } }
  let r := r.addAttr (CStr.lit "ct") (CStr.lit "40") 0
  let r := r.addAttr (CStr.lit "rt") (CStr.read (ascii "\"core.rd\"")) 0
  -- the length that is given for the name `ins` is 2
  r.addAttr (CStr.lit "in") (CStr.read (ascii "\"default\"")) 0

/-- The resource of the broker. -/
def brokerResource : CoapResource :=
  let r := coapResourceInit brokerPath 0
  let r := { r with handler := {
    get := some .hndGetBroker, post := some .hndPostBroker, delete := some .hndDeleteBroker } }
  let r := r.addAttr (CStr.lit "ct") (CStr.lit "40") 0
  r.addAttr (CStr.lit "rt") (CStr.lit "core.ps") 0

/-- The broker when the main loop begins, with or without the MQTT bridge and the resource
    directory. -/
def boot (mqttBridge rdServer : Bool) : Broker where
  resources := (if rdServer then [rdResource] else []) ++ [brokerResource]
  mqttBridge := mqttBridge

/-! ## Requests, written out -/

/-- A request with a payload in link format. -/
def linkFormatRequest (payload : String) : Request where
  options := [⟨coapOptionContentType, coapEncodeVarBytes coapMediatypeApplicationLinkFormat⟩]
  payload := some (ascii payload)

/-- A request to create a topic: the payload in link format, with `Max-Age` if it is given. -/
def Event.create (parent payload : String) (maxAge : Option ℕ) (now : ℤ) : Event :=
  .request (CStr.lit parent) .post
    { options := ⟨coapOptionContentType, coapEncodeVarBytes coapMediatypeApplicationLinkFormat⟩ ::
        (maxAge.map fun v => ⟨coapOptionMaxage, coapEncodeVarBytes v⟩).toList
      payload := some (ascii payload) } [] [] now

/-- A request to publish to a topic of content format `ct`. -/
def Event.publish (topic : String) (ct : ℕ) (payload : String) (maxAge : Option ℕ) (now : ℤ) :
    Event :=
  .request (CStr.lit topic) .put
    { options := ⟨coapOptionContentType, coapEncodeVarBytes ct⟩ ::
        (maxAge.map fun v => ⟨coapOptionMaxage, coapEncodeVarBytes v⟩).toList
      payload := some (ascii payload) } [] [] now

/-- A request to read a topic of content format 0. -/
def Event.read (topic : String) (now : ℤ) : Event :=
  .request (CStr.lit topic) .get
    { options := [⟨coapOptionContentType, coapEncodeVarBytes 0⟩], payload := none } [] [] now

/-- A request to delete a topic. -/
def Event.remove (topic : String) (now : ℤ) : Event :=
  .request (CStr.lit topic) .delete { options := [], payload := none } [] [] now

end CoapBroker
