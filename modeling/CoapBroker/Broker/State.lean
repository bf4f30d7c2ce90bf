import CoapBroker.Libcoap.Notify
import CoapBroker.Parser.LinkFormat
import CoapBroker.Store.TopicDB

/-!
# The state of the C broker

The global variables of the broker (`coap-broker.c`) and the table of resources
of its CoAP context, with what a request has to say about them: the response it
builds, the notifications it makes libcoap send, and the calls to the MQTT client.

Times are the seconds of `time(NULL)`; they are integers here, `LONG_MAX` being
the one of a 64-bit `time_t`.
-/

namespace CoapBroker

/-- The state of the broker. -/
structure Broker where
  topicDB : TopicDB := []
  resources : ResourceTable
  earliestTopicMaxAge : ℤ := longMax
  earliestDataMaxAge : ℤ := longMax
  mqttBridge : Bool
  /-- The number of the next notification (`ctx->observe`). -/
  observe : ℕ := 0
  deriving DecidableEq

/-- A call to the MQTT client. -/
inductive MqttCall
  | subscribe (topic : CStr)
  | publish (topic : CStr) (payload : List Byte)
  | unsubscribe (topic : CStr)
  deriving DecidableEq

/-- What the broker sends: the response to a request, if there is one, the
    notifications and the calls to the MQTT client. -/
structure Output where
  response : Option Pdu := none
  notifications : List Notification := []
  mqtt : List MqttCall := []
  deriving DecidableEq

/-- The code of the response. -/
def Output.code (out : Output) : Option ℕ := out.response.map Pdu.code

/-- The name of the attribute with the content format of a topic. -/
def ctName : CStr := CStr.lit "ct"

/-- `broker_path`. -/
def brokerPath : CStr := CStr.lit "ps"

/-- The handlers of a topic. -/
def topicHandlers : Handlers where
  get := some .hndGetTopic
  post := some .hndPostTopic
  put := some .hndPutTopic
  delete := some .hndDeleteTopic

/-- A new resource as it is registered. -/
def asTopic (r : CoapResource) : CoapResource :=
  { r with handler := topicHandlers, observable := true }

/-- A call made only when the MQTT bridge is on. -/
def whenBridged (mqttBridge : Bool) (call : MqttCall) : List MqttCall :=
  if mqttBridge then [call] else []

/-- Conversion to a 32-bit `unsigned int`. -/
def toUnsigned (n : ℤ) : ℕ := (n % 2 ^ 32).toNat

theorem toUnsigned_of_lt {n : ℤ} (h0 : 0 ≤ n) (h : n < 2 ^ 32) : toUnsigned n = n.toNat := by
  rw [toUnsigned, Int.emod_eq_of_lt h0 h]

/-- `atoi((coap_find_attr(resource, "ct", 2))->value.s)`. -/
def ctAttrValue (resource : CoapResource) : Except Fault ℤ :=
  match resource.findAttr ctName with
  | some attr => .ok (atoi attr.value)
  | none => .error .nullDeref

/-- Lowering an earliest expiry to `abs`, unless this is `0`. -/
def lowerEarliest (earliest abs : ℤ) : ℤ := if abs < earliest ∧ abs ≠ 0 then abs else earliest

theorem lowerEarliest_le (earliest abs : ℤ) : lowerEarliest earliest abs ≤ earliest := by
  rw [lowerEarliest]
  split_ifs with h
  · exact h.1.le
  · exact le_rfl

theorem lowerEarliest_le_of_ne {earliest abs : ℤ} (h : abs ≠ 0) :
    lowerEarliest earliest abs ≤ abs := by
  rw [lowerEarliest]
  split_ifs with h'
  · exact le_rfl
  · exact not_lt.1 fun hlt => h' ⟨hlt, h⟩

namespace Broker

/-- The URIs of the registered resources. -/
def uris (b : Broker) : List CStr := b.resources.map CoapResource.uri

/-- The registered resource with a URI. -/
def find (b : Broker) (uri : CStr) : Option CoapResource :=
  Keyed.find CoapResource.uri b.resources uri

end Broker

end CoapBroker
