import CoapBroker.Libcoap.Resource

/-!
# The link-format parser

The hand-written parser of the C broker (`LinkFormatParser.c`, with
`RESTRICT_CHAR` defined) and the freeing of resources (`LibcoapMod.c`). A payload
`<path>;name=value;...` is parsed in one loop over its semicolons, driven by the
offset of the current one and that of the one before; the resource is created
by the first element and gets an attribute from each of the others.

A resource under construction belongs to the parser or to its caller, and is
freed by hand on errors: `NewResource` keeps track of whether it is live,
registered or freed, and freeing anything but a live resource is a `Fault`.

The functions work on the bytes of strings. Two accesses of the source outside
of its buffers have no effect on what they compute: reading the byte before the
segment `<` (`calPathSize`), and writing the byte before the value when the
value is a lone double quote (`unquote`).
-/

namespace CoapBroker

/-! ## Resources under construction -/

/-- A pointer to the resource being created: `NULL`, or a resource that is live,
    registered or freed. -/
inductive NewResource
  | null
  | live (r : CoapResource)
  | registered (r : CoapResource)
  | freed (r : CoapResource)
  deriving DecidableEq

/-- `coapFreeResource`: the pointer it is given keeps pointing to the freed resource. -/
def coapFreeResource : NewResource → Except Fault NewResource
  | .null => .error .assertion
  | .live r => .ok (.freed r)
  | .registered _ => .error .freeRegistered
  | .freed _ => .error .doubleFree

/-- `coap_add_attr`, which does nothing on `NULL`. -/
def coapAddAttr (name value : CStr) (flags : ℕ) : NewResource → Except Fault NewResource
  | .null => .ok .null
  | .live r => .ok (.live (r.addAttr name value flags))
  | .registered r => .ok (.registered (r.addAttr name value flags))
  | .freed _ => .error .useAfterFree

/-! ## Segments -/

/-- The characters allowed in names and values. -/
def nameChar (b : Byte) : Bool := isalnum b || b = ('-' : Byte)

/-- The characters allowed in paths. -/
def pathChar (b : Byte) : Bool := isalnum b || b = ('/' : Byte) || b = ('-' : Byte)

/-- `optionValidation`: the number of `=`, or `0` when the segment is too short or
    starts or ends with one. -/
def optionValidation (source : List Byte) : ℕ :=
  let counter := source.count ('=' : Byte)
  if source.length < 3 ∨ source.head? = some ('=' : Byte) ∨ source.getLast? = some ('=' : Byte)
  then 0 else counter

/-- The text before the first `=`. -/
def beforeEq (source : List Byte) : List Byte := source.takeWhile (· ≠ ('=' : Byte))

/-- The text after the first `=`. -/
def afterEq (source : List Byte) : List Byte := (source.dropWhile (· ≠ ('=' : Byte))).tail

/-- `calOptionSize`: the lengths of the name and of the value. -/
def calOptionSize (source : List Byte) : Option (ℕ × ℕ) :=
  if optionValidation source = 1 then some ((beforeEq source).length, (afterEq source).length)
  else none

/-- Removing a leading double quote and a closing one. On a lone double quote, the
    source writes its `NUL` before the (empty) copy of the value. -/
def unquote (text : List Byte) : List Byte :=
  let data := if text.head? = some ('"' : Byte) then text.tail else text
  if text.getLast? = some ('"' : Byte) then data.dropLast else data

/-- `parseOption`: the name and the value of a segment `name=value`. -/
def parseOption (source : List Byte) : Option (List Byte × List Byte) :=
  if optionValidation source = 1 then
    let type := beforeEq source
    if type.all nameChar then
      let data := unquote (afterEq source)
      if data.all nameChar then some (type, data) else none
    else none
  else none

/-- `calPathSize`: the length of the path in a segment `<path>`, or `0`. The third
    test reads the byte before the segment when this is `<` alone; the fourth one
    then fails whatever it is. -/
def calPathSize (source : List Byte) : ℕ :=
  if source[0]? = some ('<' : Byte) ∧ source[1]? ≠ some ('/' : Byte) ∧
      source[source.length - 2]? ≠ some ('/' : Byte) ∧
      source[source.length - 1]? = some ('>' : Byte)
  then source.length - 2 else 0

/-- `parsePath`: the path in a segment `<path>`. -/
def parsePath (source : List Byte) : Option (List Byte) :=
  if calPathSize source ≠ 0 then
    let path := (source.drop 1).take (source.length - 2)
    if path.all pathChar then some path else none
  else none

/-! ## The parser -/

/-- `optionRegister`: adding the attribute a segment gives. -/
def optionRegister (resource : NewResource) (tempStr : List Byte) :
    Except Fault (NewResource × Bool) :=
  match calOptionSize tempStr with
  | some (typeSize, dataSize) =>
    if 0 < typeSize ∧ 0 < dataSize then
      match parseOption tempStr with
      | some (optType, optData) =>
        (coapAddAttr (CStr.read optType) (CStr.read optData)
          (coapAttrFlagsReleaseName ||| coapAttrFlagsReleaseValue) resource).map (·, true)
      | none => .ok (resource, false)
    else .ok (resource, false)
  | none => .ok (resource, false)

/-- `pathRegister`: creating the resource below `old`, at the path a segment gives. -/
def pathRegister (old : CoapResource) (resource : NewResource) (tempStr : List Byte) :
    NewResource × Bool :=
  if 0 < calPathSize tempStr then
    match parsePath tempStr with
    | some relPath =>
      let absPath := CStr.read (old.uri.bytes ++ ('/' : Byte) :: relPath)
      (.live (coapResourceInit absPath coapResourceFlagsReleaseUri), true)
    | none => (resource, false)
  else (resource, false)

/-- Adding an attribute, the resource being freed if this fails. -/
def optionOrFree (resource : NewResource) (tempStr : List Byte) :
    Except Fault (NewResource × Bool) :=
  match optionRegister resource tempStr with
  | .ok (resource, true) => .ok (resource, true)
  | .ok (resource, false) => (coapFreeResource resource).map (·, false)
  | .error f => .error f

/-- The offsets of the character `c`, as `strchr` finds them one after the other. -/
def offsets (c : Byte) : List Byte → List ℕ
  | [] => []
  | b :: s => if b = c then 0 :: (offsets c s).map (· + 1) else (offsets c s).map (· + 1)

/-- The loop of the parser, at the last semicolon it has been at (at first, the
    beginning of the string) and the ones ahead. A round parses the element
    between the last semicolon and the current one, the first element being the
    path; the round of the last semicolon also parses the element after it. -/
def parseLoop (str : List Byte) (old : CoapResource) (lastCounter : ℕ) :
    List ℕ → NewResource → Bool → Except Fault (NewResource × Bool)
  | [], resource, masterStatus => .ok (resource, masterStatus)
  | counter :: pch, resource, _ =>
    let size := counter - lastCounter
    let element :=
      if str[lastCounter]? ≠ some (';' : Byte) then
        .ok (pathRegister old resource ((str.drop lastCounter).take size))
      else optionOrFree resource ((str.drop (lastCounter + 1)).take (size - 1))
    match element with
    | .ok (resource, true) =>
      match pch with
      | [] => optionOrFree resource (str.drop (counter + 1))
      | _ :: _ => parseLoop str old counter pch resource true
    | .ok (resource, false) => .ok (resource, false)
    | .error f => .error f

/-- `parseLinkFormat`, called with a pointer that is `NULL`: the resource and the
    status. -/
def parseLinkFormat (str : CStr) (old : CoapResource) : Except Fault (NewResource × Bool) :=
  if (',' : Byte) ∈ str.bytes then .ok (.null, false)
  else if str.bytes.head? = some (';' : Byte) then .ok (.null, false)
  else parseLoop str.bytes old 0 (offsets ';' str.bytes) .null false

/-! ## Queries -/

/-- `parseOptionURIQuery`: the name and the value of a query. -/
def parseOptionURIQuery (optionValue : List Byte) : Option (CStr × CStr) :=
  let tempUriQuery := (CStr.read optionValue).bytes
  match calOptionSize tempUriQuery with
  | some (nameSize, valueSize) =>
    if 0 < nameSize ∧ 0 < valueSize then
      (parseOption tempUriQuery).map fun (name, value) => (CStr.read name, CStr.read value)
    else none
  | none => none

/-- `dynamicConcatenate`, with a second string that is not `NULL`. -/
def dynamicConcatenate (str : Option CStr) (str2 : CStr) : Option CStr :=
  match str with
  | none => some str2
  | some s => some (CStr.read (s.bytes ++ str2.bytes))

/-- `calculateResourceLF`: the length of the description of a resource. -/
def calculateResourceLF (resource : CoapResource) : ℕ :=
  let lfSize := resource.uri.length + 3
  let lfSize := resource.linkAttr.foldl
    (fun n attr => n + (attr.name.length + attr.value.length + 2)) lfSize
  if resource.observable then lfSize + 4 else lfSize

end CoapBroker
