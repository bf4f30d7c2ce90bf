import CoapBroker.Lib.Keyed
import CoapBroker.Libcoap.Pdu

/-!
# Resources

The resources of libcoap: what a resource holds, the hash key computed from its
URI, its attributes and observers, its description in the link format, and the
table of the registered resources, in the order of their registration.

The key of a URI (`coapHashPath`) is a rolling hash fed with the segments of the
path, one after the other: the separators are not hashed, so the key only
depends on the other characters (`coapHashPath_eq`). A request is dispatched by
the key of its `Uri-Path` options (`coapHashRequestUri`).
-/

namespace CoapBroker

/-- What makes a program fail, or leave what is modelled of it. -/
inductive Fault
  /-- A failed `assert`. -/
  | assertion
  /-- Accessing a field through `NULL`. -/
  | nullDeref
  /-- Accessing a freed resource. -/
  | useAfterFree
  /-- Freeing a resource again. -/
  | doubleFree
  /-- Freeing a resource that stays in the table. -/
  | freeRegistered
  /-- Accessing an element a vector does not have. -/
  | outOfBounds
  /-- An exception of the C++ library that nothing catches. -/
  | uncaughtException
  /-- A registration with the resource directory: what the table of resources is from then on is
      not described. -/
  | registration
  deriving DecidableEq

/-- A computation that fails with one fault only. -/
def OnlyFails {α : Type} (f : Fault) (x : Except Fault α) : Prop := ∀ f', x = .error f' → f' = f

section

variable {α β : Type} {f : Fault}

theorem onlyFails_ok (a : α) : OnlyFails f (.ok a) := fun _ h => by cases h

theorem onlyFails_error : OnlyFails f (.error f : Except Fault α) := fun _ h => by
  cases h
  rfl

theorem OnlyFails.bind {x : Except Fault α} {k : α → Except Fault β} (hx : OnlyFails f x)
    (hk : ∀ a, OnlyFails f (k a)) : OnlyFails f (x >>= k) := by
  rcases x with f' | a
  · intro f'' h
    cases h
    exact hx f' rfl
  · exact hk a

theorem OnlyFails.ite {x y : Except Fault α} {p : Prop} [Decidable p] (hx : OnlyFails f x)
    (hy : OnlyFails f y) : OnlyFails f (if p then x else y) := by
  split_ifs
  · exact hx
  · exact hy

theorem OnlyFails.mapM {k : α → Except Fault β} (hk : ∀ a, OnlyFails f (k a)) (l : List α) :
    OnlyFails f (l.mapM k) := by
  induction l with
  | nil => exact onlyFails_ok []
  | cons a l ih =>
    rw [List.mapM_cons]
    exact (hk a).bind fun b => ih.bind fun bs => onlyFails_ok (b :: bs)

end

/-! ## Hash keys -/

/-- `coap_key_t`: four bytes. -/
structure CoapKey where
  h0 : Byte := 0
  h1 : Byte := 0
  h2 : Byte := 0
  h3 : Byte := 0
  deriving DecidableEq

/-- Feeding one character into the key. The loop of the source goes from the last
    byte down, so that every byte is updated from the old value of the one below. -/
def CoapKey.feed (h : CoapKey) (c : Byte) : CoapKey where
  h3 := ((h.h3 <<< 7) ||| (h.h2 >>> 1)) + h.h3
  h2 := ((h.h2 <<< 7) ||| (h.h1 >>> 1)) + h.h2
  h1 := ((h.h1 <<< 7) ||| (h.h0 >>> 1)) + h.h1
  h0 := (h.h0 <<< 7) + h.h0 + c

/-- `coap_hash`: feeding a string into the key. -/
def coapHashImpl (s : List Byte) (h : CoapKey) : CoapKey := s.foldl CoapKey.feed h

/-- A path segment of one or two dots. -/
def dots (s : List Byte) : Bool := s = [('.' : Byte)] || s = [('.' : Byte), ('.' : Byte)]

/-- The segments from the current one, `seg` so far, on: up to `?` or `#`, leaving
    out the segments made of dots. -/
def splitPathFrom (seg : List Byte) : List Byte → List (List Byte)
  | [] => if dots seg then [] else [seg]
  | q :: s =>
    if q = ('?' : Byte) ∨ q = ('#' : Byte) then if dots seg then [] else [seg]
    else if q = ('/' : Byte) then
      if dots seg then splitPathFrom [] s else seg :: splitPathFrom [] s
    else splitPathFrom (seg ++ [q]) s

/-- `coap_split_path_impl`: the segments handed to the handler, in order. -/
def coapSplitPathImpl (s : List Byte) : List (List Byte) := splitPathFrom [] s

/-- The key after hashing some segments, one after the other. -/
def hashSegments (segs : List (List Byte)) : CoapKey :=
  segs.foldl (fun h s => coapHashImpl s h) {}

/-- The key of a path. -/
def coapHashPath (path : CStr) : CoapKey := hashSegments (coapSplitPathImpl path.bytes)

/-- The key a request is dispatched by: that of its `Uri-Path` options. -/
def coapHashRequestUri (req : Request) : CoapKey := hashSegments req.uriPath

theorem foldl_coapHashImpl (segs : List (List Byte)) (h : CoapKey) :
    segs.foldl (fun h s => coapHashImpl s h) h = coapHashImpl segs.flatten h := by
  induction segs generalizing h with
  | nil => rfl
  | cons s segs ih => rw [List.foldl_cons, ih, List.flatten_cons, coapHashImpl, coapHashImpl,
      coapHashImpl, List.foldl_append]

theorem hashSegments_eq (segs : List (List Byte)) :
    hashSegments segs = coapHashImpl segs.flatten {} := foldl_coapHashImpl segs {}

/-- The characters of a path that end or drop no segment. -/
def PlainPath (s : List Byte) : Prop :=
  ∀ b ∈ s, b ≠ ('?' : Byte) ∧ b ≠ ('#' : Byte) ∧ b ≠ ('.' : Byte)

theorem not_dots {s : List Byte} (h : PlainPath s) : dots s = false := by
  have hd : ∀ t : List Byte, s = ('.' : Byte) :: t → False := fun t ht =>
    (h _ (ht ▸ List.mem_cons_self)).2.2 rfl
  simp only [dots, Bool.or_eq_false_iff, decide_eq_false_iff_not]
  exact ⟨fun he => hd _ he, fun he => hd _ he⟩

/-- The segments of a plain path, put together, are the path without its separators. -/
theorem flatten_splitPathFrom {s seg : List Byte} (hs : PlainPath s) (hseg : PlainPath seg) :
    (splitPathFrom seg s).flatten = seg ++ s.filter (· ≠ ('/' : Byte)) := by
  induction s generalizing seg with
  | nil => simp [splitPathFrom, not_dots hseg]
  | cons q s ih =>
    obtain ⟨hq, hh, hd⟩ := hs q List.mem_cons_self
    have hs' : PlainPath s := fun b hb => hs b (List.mem_cons_of_mem _ hb)
    rw [splitPathFrom, if_neg (not_or.2 ⟨hq, hh⟩)]
    by_cases hslash : q = ('/' : Byte)
    · rw [if_pos hslash, not_dots hseg, if_neg Bool.false_ne_true, List.flatten_cons,
        ih hs' (fun b hb => absurd hb List.not_mem_nil)]
      simp [hslash]
    · have hseg' : PlainPath (seg ++ [q]) := fun b hb => by
        rcases List.mem_append.1 hb with hb | hb
        · exact hseg b hb
        · exact List.mem_singleton.1 hb ▸ ⟨hq, hh, hd⟩
      rw [if_neg hslash, ih hs' hseg']
      simp [hslash]

/-- The key of a plain path only depends on its characters other than `/`. -/
theorem coapHashPath_eq {path : CStr} (h : PlainPath path.bytes) :
    coapHashPath path = coapHashImpl (path.bytes.filter (· ≠ ('/' : Byte))) {} := by
  rw [coapHashPath, hashSegments_eq, coapSplitPathImpl,
    flatten_splitPathFrom h (fun b hb => absurd hb List.not_mem_nil), List.nil_append]

/-! ## Resources -/

/-- An attribute of a resource. -/
structure CoapAttr where
  name : CStr
  value : CStr
  flags : ℕ
  deriving DecidableEq

def coapAttrFlagsReleaseName : ℕ := 1
def coapAttrFlagsReleaseValue : ℕ := 2
def coapResourceFlagsReleaseUri : ℕ := 1

/-- The request handlers of the two brokers and of the resource directory. -/
inductive Handler
  | hndGetBroker
  | hndPostBroker
  | hndDeleteBroker
  | hndGetTopic
  | hndPostTopic
  | hndPutTopic
  | hndDeleteTopic
  | hndGetRd
  | hndPostRd
  deriving DecidableEq

/-- The handler of each request method, if there is one. -/
structure Handlers where
  get : Option Handler := none
  post : Option Handler := none
  put : Option Handler := none
  delete : Option Handler := none
  deriving DecidableEq

/-- The method of a request. -/
inductive Method
  | get
  | post
  | put
  | delete
  deriving DecidableEq

/-- The handler for a method. -/
def Handlers.of (handlers : Handlers) : Method → Option Handler
  | .get => handlers.get
  | .post => handlers.post
  | .put => handlers.put
  | .delete => handlers.delete

/-- The address of a peer. -/
abbrev CoapAddress := List Byte

/-- An observer of a resource: its address and the token of its request. -/
structure CoapSubscription where
  subscriber : CoapAddress
  token : List Byte
  deriving DecidableEq

/-- A resource. -/
structure CoapResource where
  uri : CStr
  key : CoapKey
  flags : ℕ
  observable : Bool := false
  dirty : Bool := false
  handler : Handlers := {}
  /-- The attributes, the last one added first. -/
  linkAttr : List CoapAttr := []
  /-- The observers, the last one added first. -/
  subscribers : List CoapSubscription := []
  deriving DecidableEq

/-- A new resource, with the key of its URI. -/
def coapResourceInit (uri : CStr) (flags : ℕ) : CoapResource where
  uri := uri
  key := coapHashPath uri
  flags := flags

namespace CoapResource

variable (r : CoapResource)

/-- `coap_add_attr`, prepending the attribute. -/
def addAttr (name value : CStr) (flags : ℕ) : CoapResource :=
  { r with linkAttr := ⟨name, value, flags⟩ :: r.linkAttr }

/-- `coap_find_attr`: the first attribute of that name, i.e., the last one added. -/
def findAttr (name : CStr) : Option CoapAttr := r.linkAttr.find? fun a => a.name = name

/-- `coap_find_observer`. -/
def findObserver (peer : CoapAddress) (token : List Byte) : Option CoapSubscription :=
  r.subscribers.find? fun s => s.subscriber = peer ∧ s.token = token

/-- `coap_add_observer`: an observer is subscribed once. -/
def addObserver (peer : CoapAddress) (token : List Byte) : CoapResource :=
  if (r.findObserver peer token).isSome then r
  else { r with subscribers := ⟨peer, token⟩ :: r.subscribers }

/-- `coap_delete_observer`. -/
def deleteObserver (peer : CoapAddress) (token : List Byte) : CoapResource :=
  match r.findObserver peer token with
  | some s => { r with subscribers := r.subscribers.erase s }
  | none => r

/-- Adding an observer changes nothing else. -/
theorem addObserver_eq (peer : CoapAddress) (token : List Byte) :
    ∃ subscribers, r.addObserver peer token = { r with subscribers } := by
  rw [addObserver]
  split_ifs
  · exact ⟨r.subscribers, rfl⟩
  · exact ⟨_, rfl⟩

/-- Deleting an observer changes nothing else. -/
theorem deleteObserver_eq (peer : CoapAddress) (token : List Byte) :
    ∃ subscribers, r.deleteObserver peer token = { r with subscribers } := by
  rw [deleteObserver]
  split
  · exact ⟨_, rfl⟩
  · exact ⟨r.subscribers, rfl⟩

end CoapResource

/-! ## The link format -/

/-- The output of a description: the bytes written to the buffer (of size `cap`),
    the bytes still to skip, and the length counted so far. -/
structure PrintState where
  buf : List Byte := []
  cap : ℕ
  offset : ℕ
  len : ℕ := 0

/-- `PRINT_COND_WITH_OFFSET`: writing a character if there is room for it and none
    is to be skipped, and counting it in any case. -/
def PrintState.print (p : PrintState) (c : Byte) : PrintState :=
  let p := if p.buf.length < p.cap then
      if p.offset = 0 then { p with buf := p.buf ++ [c] } else { p with offset := p.offset - 1 }
    else p
  { p with len := p.len + 1 }

/-- `COPY_COND_WITH_OFFSET`. -/
def PrintState.copy (p : PrintState) (s : List Byte) : PrintState := s.foldl PrintState.print p

/-- `coap_print_link`: the description of a resource, written to a buffer of size
    `len` from the byte `offset` of the description on. -/
def coapPrintLink (r : CoapResource) (len offset : ℕ) : PrintState :=
  let p : PrintState := { cap := len, offset := offset }
  let p := ((p.print '<').print '/').copy r.uri.bytes
  let p := p.print '>'
  let p := r.linkAttr.foldl (fun p a =>
    (((p.print ';').copy a.name.bytes).print '=').copy a.value.bytes) p
  if r.observable then p.copy (ascii ";obs") else p

/-! ## The table -/

/-- The registered resources, in the order of their registration. -/
abbrev ResourceTable := List CoapResource

namespace ResourceTable

/-- `RESOURCES_ADD`. -/
def add (t : ResourceTable) (r : CoapResource) : ResourceTable := t ++ [r]

/-- `RESOURCES_DELETE`: taking that very resource out. -/
def delete (t : ResourceTable) (r : CoapResource) : ResourceTable := t.erase r

/-- Changing a registered resource in place. -/
def update (t : ResourceTable) (r : CoapResource) (f : CoapResource → CoapResource) :
    ResourceTable :=
  t.map fun x => if x = r then f x else x

/-- The URIs of the resources. -/
def uris (t : ResourceTable) : List CStr := t.map CoapResource.uri

/-- Changing the observers of a resource that is observable. -/
def changeObservers (t : ResourceTable) (uri : CStr) (f : CoapResource → CoapResource) :
    ResourceTable :=
  Keyed.modify CoapResource.uri uri (fun r => if r.observable then f r else r) t

end ResourceTable

end CoapBroker
