import CoapBroker.Broker.State
import CoapBroker.Cpp.LinkFormat
import CoapBroker.Cpp.TopicDB

/-!
# The handlers of the C++ broker

The handlers of `BrokerResource` for topics. They go through the same cases as those of
the C broker, on the classes of this one: a payload is checked as a whole before anything
is built from it, and numbers are read by `std::stoi`, which throws an exception on a text
that is none.

Option values are decoded to an `int`, so that numbers from 2^31 on are negative.
-/

namespace CoapBroker.Cpp

/-! ## The state -/

/-- The state of the broker: the static members of `BrokerResource` and the table of its
    context. -/
structure Broker where
  topicDB : TopicDB := {}
  resources : ResourceTable
  earliestTopicMaxAge : ℤ := longMax
  earliestDataMaxAge : ℤ := longMax
  /-- The number of the next notification (`ctx->observe`). -/
  observe : ℕ := 0
  deriving DecidableEq

namespace Broker

/-- The registered resource with a URI. -/
def find (b : Broker) (uri : CStr) : Option CoapResource :=
  Keyed.find CoapResource.uri b.resources uri

end Broker

/-! ## Numbers -/

/-- Conversion to a 32-bit `int`. -/
def toInt (n : ℕ) : ℤ := (n : ℤ).bmod (2 ^ 32)

/-- A number can be read: after white space and a sign, there is a digit. -/
def hasNumber (s : List Byte) : Bool :=
  let s := s.dropWhile isspace
  let s := if s.head? = some ('-' : Byte) ∨ s.head? = some ('+' : Byte) then s.tail else s
  s.head?.any isdigit

/-- `std::stoi`: throwing when there is no number or it is out of the range of `int`. -/
def stoi (s : CStr) : Except Fault ℤ :=
  if ¬hasNumber s.bytes then .error .uncaughtException
  else
    let n := strtol s.bytes
    if n < -2 ^ 31 ∨ 2 ^ 31 ≤ n then .error .uncaughtException else .ok n

/-- `find_attribute(..).get_value()`: empty when there is no such attribute. -/
def findAttributeValue (r : CoapResource) (name : CStr) : CStr :=
  match r.findAttr name with
  | some attr => attr.value
  | none => CStr.empty

/-! ## Reading a topic -/

/-- `hnd_get_topic`. The last test of the handler never fails: what does not pass it has
    been answered before. -/
def hndGetTopic (b : Broker) (resource : CoapResource) (peer : CoapAddress) (token : List Byte)
    (request : Option Request) (now : ℤ) : Except Fault Pdu := do
  let ctAttrValue ← stoi (findAttributeValue resource ctName)
  let ctOpt := request.bind fun req => req.firstOption coapOptionContentType
  let observer := (resource.findObserver peer token).isSome
  let isObserveNotifyResponse := observer && request.isNone
  let isCtValid := ctOpt.any fun n => toInt n = ctAttrValue
  if ctOpt.isSome ∧ ¬isObserveNotifyResponse ∧ ¬isCtValid then .ok (({} : Pdu).respond 415)
  else if ctOpt.isNone ∧ ¬isObserveNotifyResponse then .ok (({} : Pdu).respond 400)
  else
    match ← b.topicDB.copyTopic resource.uri with
    | none => .ok (({} : Pdu).respond 404)
    | some temp =>
      if isCtValid ∨ isObserveNotifyResponse then
        let response : Pdu :=
          if observer then
            ({} : Pdu).addOption coapOptionObserve (coapEncodeVarBytes b.observe)
          else {}
        let ct := coapEncodeVarBytes (toUnsigned ctAttrValue)
        let remainingMaxageTime := temp.dataMa - now
        if remainingMaxageTime < 0 ∧ temp.dataMa ≠ 0 then
          .ok (((response.addOption coapOptionContentType ct).setCode 204).addData
            (ascii "No Content"))
        else
          let response :=
            if temp.dataMa ≠ 0 then
              response.addOption coapOptionMaxage
                (coapEncodeVarBytes (toUnsigned remainingMaxageTime))
            else response
          .ok (((response.addOption coapOptionContentType ct).setCode 205).addData temp.data.bytes)
      else .ok {}

/-- The handler as it is called for a notification. -/
def notifyTopic (b : Broker) (now : ℤ) : NotifyHandler := fun observe r s =>
  hndGetTopic { b with observe } r s.subscriber s.token none now

/-! ## Publishing to a topic -/

/-- `put::abs_ma_value`. -/
def absMaValue (request : Request) (now : ℤ) : ℤ :=
  match request.firstOption coapOptionMaxage with
  | some n => toInt n + now
  | none => 0

/-- `hnd_put_topic`. -/
def hndPutTopic (b : Broker) (resource : CoapResource) (request : Request) (now : ℤ) :
    Except Fault (Broker × Output) :=
  match request.firstOption coapOptionContentType with
  | none => .ok (b, { response := some (({} : Pdu).respond 400) })
  | some requestCtValue => do
    let resourceCtValue ← stoi (findAttributeValue resource ctName)
    if resourceCtValue ≠ toInt requestCtValue then
      .ok (b, { response := some (({} : Pdu).respond 415) })
    else
      match ← b.topicDB.copyTopic resource.uri with
      | none => .ok (b, { response := some (({} : Pdu).respond 404) })
      | some _ => do
        let maOptVal := absMaValue request now
        let topicDB ← b.topicDB.updateTopic resource.uri fun t =>
          { t with data := CStr.read request.data, dataMa := maOptVal }
        let b := { b with
          topicDB, earliestDataMaxAge := lowerEarliest b.earliestDataMaxAge maOptVal }
        let (resources, observe, notifications) ←
          markAndNotify (notifyTopic b now) b.observe b.resources resource
        .ok ({ b with resources, observe },
          { response := some (({} : Pdu).respond 204), notifications })

/-! ## Creating a topic -/

/-- `post::abs_ma`. -/
def absMa (request : Request) (now : ℤ) : ℤ :=
  match request.firstOption coapOptionMaxage with
  | some n =>
    let optTopicMa := toInt n
    if optTopicMa < 1 then 0 else now + optTopicMa
  | none => 0

/-- `is_ct_valid`. -/
def isCtValid (request : Request) (type : ℕ) : Bool :=
  match request.firstOption coapOptionContentType with
  | some n => toInt n = type
  | none => false

/-- `post::is_mr`: the request is malformed. -/
def isMr (request : Request) (lfData : LinkFormat) : Bool :=
  ¬(isCtValid request coapMediatypeApplicationLinkFormat ∧ lfData.isAttributeExist ctName)

/-- `post::is_uscf`: the content format of the topic is not supported. -/
def isUscf (lfData : LinkFormat) : Except Fault Bool :=
  let contentType := lfData.getAttribute ctName
  if contentType.value.bytes.all isdigit then do
    let ctValue ← stoi contentType.value
    .ok ¬(ctValue ≥ 0 ∧ ctValue ≤ 65535)
  else .ok true

/-- `is_resource_exist`. -/
def isResourceExist (t : ResourceTable) (uri : CStr) : Bool := uri ∈ t.uris

/-- The resource made of a link format that is valid. -/
def ofLinkFormat (lfData : LinkFormat) (flags : ℕ) : CoapResource :=
  lfData.attributeList.foldl (fun r data => r.addAttr data.name data.value data.flags)
    (coapResourceInit lfData.path flags)

/-- `post::s_handler`: the resource and the node are added. -/
def sHandler (b : Broker) (lfData : LinkFormat) (absTopicMa : ℤ) : Broker × Output :=
  ({ b with
      resources := b.resources.add (asTopic (ofLinkFormat lfData coapResourceFlagsReleaseUri))
      topicDB := (b.topicDB.addTopic lfData.path absTopicMa).1 },
    { response := some
        ((({} : Pdu).addOption coapOptionLocationPath lfData.path.bytes).respond 201) })

/-- `hnd_post_broker`, from the link format of the payload on. -/
def postLinkFormat (b : Broker) (request : Request) (lfData : LinkFormat) (now : ℤ) :
    Except Fault (Broker × Output) := do
  let absTopicMa := absMa request now
  if isMr request lfData then .ok (b, { response := some (({} : Pdu).respond 400) })
  else if ← isUscf lfData then .ok (b, { response := some (({} : Pdu).respond 406) })
  else
    let earliestTopicMaxAge := lowerEarliest b.earliestTopicMaxAge absTopicMa
    if isResourceExist b.resources lfData.path then do
      let topicDB ← b.topicDB.updateTopic lfData.path fun t => { t with topicMa := absTopicMa }
      .ok ({ b with topicDB, earliestTopicMaxAge },
        { response := some (({} : Pdu).respond 403) })
    else .ok (sHandler { b with earliestTopicMaxAge } lfData absTopicMa)

/-- `hnd_post_broker`. -/
def hndPostBroker (b : Broker) (resource : CoapResource) (request : Request) (now : ℤ) :
    Except Fault (Broker × Output) := do
  let lfData ← LinkFormat.parse (CStr.read request.data)
    (coapAttrFlagsReleaseName ||| coapAttrFlagsReleaseValue)
  let path := CStr.read (resource.uri.bytes ++ ('/' : Byte) :: lfData.path.bytes)
  postLinkFormat b request (lfData.setPath path) now

/-- `hnd_post_topic`. -/
def hndPostTopic := hndPostBroker

/-! ## Deleting a topic -/

/-- `delete_resource` with the comparator of `hnd_delete_topic`: the resources whose name has
    `subtopic` in it are deleted when there is a node for them. -/
def deleteSubtopics (subtopic : List Byte) :
    List CoapResource → TopicDB × ResourceTable → TopicDB × ResourceTable
  | [], s => s
  | r :: rs, (topicDB, t) =>
    if subtopic <:+: r.uri.bytes then
      match topicDB.deleteTopic r.uri with
      | (topicDB, true) => deleteSubtopics subtopic rs (topicDB, t.delete r)
      | (_, false) => deleteSubtopics subtopic rs (topicDB, t)
    else deleteSubtopics subtopic rs (topicDB, t)

/-- `hnd_delete_topic`. -/
def hndDeleteTopic (b : Broker) (resource : CoapResource) : Broker × Output :=
  match b.topicDB.deleteTopic resource.uri with
  | (topicDB, true) =>
    let (topicDB, t) := deleteSubtopics (resource.uri.bytes ++ [('/' : Byte)]) b.resources
      (topicDB, b.resources)
    ({ b with topicDB, resources := t.delete resource },
      { response := some (({} : Pdu).respond 202) })
  | (_, false) => (b, { response := some (({} : Pdu).respond 404) })

end CoapBroker.Cpp
