import CoapBroker.Libcoap.Resource

/-!
# Dispatching requests

libcoap hands a request to a registered resource that has the key of its `Uri-Path` options.
Which one that is when several have it depends on the history of the hash table, so looking
up is a parameter (`Lookup`).

The key of a request for the segments of a URI is the key of the URI (`Request.hash_eq`). The
resource is therefore the one found, however it is looked up, if and only if no other one has
its key (`Lookup.dispatch_iff`).
-/

namespace CoapBroker

/-! ## Looking up -/

/-- `RESOURCES_FIND`: looking up a resource of the table by its key. -/
structure Lookup where
  find : ResourceTable → CoapKey → Option CoapResource
  /-- What is found is in the table, and has the key. -/
  sound : ∀ {t k r}, find t k = some r → r ∈ t ∧ r.key = k
  /-- A resource is found if there is one with the key. -/
  complete : ∀ {t k}, find t k = none → ∀ r ∈ t, r.key ≠ k

namespace Lookup

/-- The resource a request is handed to. -/
def dispatch (l : Lookup) (t : ResourceTable) (req : Request) : Option CoapResource :=
  l.find t (coapHashRequestUri req)

/-- The resource registered last is found. -/
def latest : Lookup where
  find t k := t.reverse.find? fun r => r.key = k
  sound h := ⟨List.mem_reverse.1 (List.mem_of_find?_eq_some h), by simpa using List.find?_some h⟩
  complete h r hr := by simpa using List.find?_eq_none.1 h r (List.mem_reverse.2 hr)

/-- One resource is found before all others. -/
def favouring (x : CoapResource) : Lookup where
  find t k := if x ∈ t ∧ x.key = k then some x else latest.find t k
  sound {t k r} h := by
    split_ifs at h with hx
    · cases h
      exact hx
    · exact latest.sound h
  complete {t k} h := by
    split_ifs at h
    exact latest.complete h

theorem find_favouring {x : CoapResource} {t : ResourceTable} (hx : x ∈ t) :
    (favouring x).find t x.key = some x :=
  if_pos ⟨hx, rfl⟩

/-- Something is found when there is a resource with the key. -/
theorem exists_find (l : Lookup) {t : ResourceTable} {r : CoapResource} (hr : r ∈ t) :
    ∃ x ∈ t, x.key = r.key ∧ l.find t r.key = some x := by
  rcases hfind : l.find t r.key with _ | x
  · exact absurd rfl (l.complete hfind r hr)
  · obtain ⟨hx, hkey⟩ := l.sound hfind
    exact ⟨x, hx, hkey, rfl⟩

end Lookup

/-! ## Requests for a URI -/

/-- The segments of a URI. -/
def CStr.segments (uri : CStr) : List (List Byte) := uri.bytes.splitOn ('/' : Byte)

/-- A request for a path. -/
def Request.ofPath (segs : List (List Byte)) : Request where
  options := segs.map fun s => ⟨coapOptionUriPath, s⟩
  payload := none

theorem Request.uriPath_ofPath (segs : List (List Byte)) :
    (Request.ofPath segs).uriPath = segs := by
  rw [Request.uriPath, Request.ofPath, List.filter_eq_self.2, List.map_map]
  · exact List.map_id segs
  · intro o ho
    obtain ⟨s, -, rfl⟩ := List.mem_map.1 ho
    exact decide_eq_true rfl

/-- The segments, put together, are the URI without its separators. -/
theorem flatten_splitOn (s : List Byte) :
    (s.splitOn ('/' : Byte)).flatten = s.filter (· ≠ ('/' : Byte)) := by
  induction s with
  | nil => rfl
  | cons c s ih =>
    rw [List.splitOn] at ih ⊢
    rw [List.splitOnP_cons_eq_if_modifyHead, List.filter_cons]
    by_cases hc : c = ('/' : Byte)
    · simp [hc, ih]
    · rcases hs : s.splitOnP (· == ('/' : Byte)) with _ | ⟨seg, segs⟩
      · exact absurd hs (List.splitOnP_ne_nil _ _)
      · rw [hs] at ih
        simpa [hc] using ih

/-- The key of a request for the segments of a URI is the key of the URI. -/
theorem Request.hash_eq {req : Request} {uri : CStr} (hplain : PlainPath uri.bytes)
    (hreq : req.uriPath = uri.segments) : coapHashRequestUri req = coapHashPath uri := by
  rw [coapHashRequestUri, hreq, hashSegments_eq, CStr.segments, flatten_splitOn,
    coapHashPath_eq hplain]

/-- The requests for the URI of a resource are handed to it. -/
def Lookup.Addresses (l : Lookup) (t : ResourceTable) (r : CoapResource) : Prop :=
  ∀ req : Request, req.uriPath = r.uri.segments → l.dispatch t req = some r

/-- A resource is addressed, however resources are looked up, if and only if it is the only
    one with its key. -/
theorem Lookup.addresses_iff {t : ResourceTable} {r : CoapResource} (hr : r ∈ t)
    (hkey : r.key = coapHashPath r.uri) (hplain : PlainPath r.uri.bytes) :
    (∀ l : Lookup, l.Addresses t r) ↔ ∀ x ∈ t, x.key = r.key → x = r := by
  constructor
  · intro h x hx hxr
    have hreq := Request.uriPath_ofPath r.uri.segments
    have hfound := h (favouring x) _ hreq
    rw [dispatch, Request.hash_eq hplain hreq, ← hkey, ← hxr, find_favouring hx] at hfound
    exact Option.some.inj hfound
  · intro h l req hreq
    rw [dispatch, Request.hash_eq hplain hreq, ← hkey]
    obtain ⟨x, hx, hxr, hfind⟩ := l.exists_find hr
    rw [hfind, h x hx hxr]

end CoapBroker
