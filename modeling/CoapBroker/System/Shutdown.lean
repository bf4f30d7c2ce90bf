import CoapBroker.Directory.Location
import CoapBroker.System.Agreement

/-!
# Shutting down

The loops that clean up at the end of `main` and in `handleSIGINT`. They go over the table, skip
the resource of the broker, and are to skip every resource that is none of its topics; the
others are deleted from the store and from the table, and freed with `coapFreeResource`, which
frees the names and values of all attributes.

A URI is skipped when it is short or when it has none of the characters of `ps/` in their
places. So a URI with one of them only passes for that of a topic (`Lookalike`), as that of every
location of the resource directory does (`lookalike_location`): the loops touch exactly the
topics when there is no such URI (`cleanUp_exact_iff`).
-/

namespace CoapBroker.Shutdown

/-! ## The loops -/

/-- Freeing a string that has not been allocated. -/
inductive StaticFree
  | name (attr : CoapAttr)
  | value (attr : CoapAttr)
  deriving DecidableEq

/-- `coapDeleteAttr`. The flags of an attribute tell which of its strings have been allocated,
    but they are not looked at. -/
def coapDeleteAttr (attr : CoapAttr) : Except StaticFree Unit :=
  if attr.flags &&& coapAttrFlagsReleaseName = 0 then .error (.name attr)
  else if attr.flags &&& coapAttrFlagsReleaseValue = 0 then .error (.value attr)
  else .ok ()

/-- `coapFreeResource`, as far as the attributes go. -/
def coapFreeResource (resource : CoapResource) : Except StaticFree Unit :=
  resource.linkAttr.forM coapDeleteAttr

/-- What a loop changes, with the resources it has called `coapFreeResource` on. -/
structure CleanUp where
  topicDB : TopicDB
  resources : ResourceTable
  mqtt : List MqttCall := []
  freed : List CoapResource := []

/-- The test for a topic: `continue` when it does not hold. -/
def isCleaned (r : CoapResource) : Bool :=
  if compareString (some r.uri) (some brokerPath) then false
  else if 3 ≤ r.uri.length then
    -- to delete only broker resource
    !(r.uri.bytes[0]? ≠ some (('p' : Char) : Byte) && r.uri.bytes[1]? ≠ some (('s' : Char) : Byte) &&
      r.uri.bytes[2]? ≠ some (('/' : Char) : Byte))
  else false

/-- Deleting a resource. -/
def CleanUp.delete (mqttBridge : Bool) (r : CoapResource) (s : CleanUp) : CleanUp where
  topicDB := (s.topicDB.deleteTopic r.uri).1
  resources := s.resources.delete r
  mqtt := s.mqtt ++ whenBridged mqttBridge (.unsubscribe r.uri)
  freed := s.freed ++ [r]

/-- The loop over the table. -/
def cleanUpLoop (mqttBridge : Bool) : List CoapResource → CleanUp → CleanUp
  | [], s => s
  | r :: rs, s =>
    if isCleaned r then cleanUpLoop mqttBridge rs (s.delete mqttBridge r)
    else cleanUpLoop mqttBridge rs s

/-- The loop at the end of `main`. -/
def mainCleanUp (b : Broker) : CleanUp :=
  cleanUpLoop b.mqttBridge b.resources { topicDB := b.topicDB, resources := b.resources }

/-- The loop in `handleSIGINT`. -/
def handleSIGINT (b : Broker) : CleanUp :=
  cleanUpLoop b.mqttBridge b.resources { topicDB := b.topicDB, resources := b.resources }

/-! ## What is deleted -/

variable {b : Broker} {r : CoapResource} {uri : CStr}

/-- The loop deletes and frees what passes the test. -/
theorem cleanUpLoop_eq (mqttBridge : Bool) {kept rs : List CoapResource} {s : CleanUp}
    (hs : s.resources = kept ++ rs) (hkept : ∀ r ∈ kept, ¬isCleaned r) :
    (cleanUpLoop mqttBridge rs s).resources = kept ++ rs.filter (fun r => !isCleaned r) ∧
      (cleanUpLoop mqttBridge rs s).freed = s.freed ++ rs.filter isCleaned := by
  induction rs generalizing kept s with
  | nil => exact ⟨hs, (List.append_nil _).symm⟩
  | cons r rs ih =>
    rw [cleanUpLoop]
    by_cases hr : isCleaned r = true
    · have hdelete : (s.delete mqttBridge r).resources = kept ++ rs := by
        have hmem : r ∉ kept := fun h => hkept r h hr
        rw [CleanUp.delete, hs, ResourceTable.delete, List.erase_append_right _ hmem,
          List.erase_cons_head]
      obtain ⟨hres, hfreed⟩ := ih hdelete hkept
      rw [if_pos hr, List.filter_cons_of_neg (by simp [hr]), List.filter_cons_of_pos hr]
      exact ⟨hres, by rw [hfreed, CleanUp.delete, List.append_assoc]; rfl⟩
    · have hkept' : ∀ x ∈ kept ++ [r], ¬isCleaned x := fun x hx => by
        rcases List.mem_append.1 hx with hx | hx
        · exact hkept x hx
        · exact List.mem_singleton.1 hx ▸ hr
      have hs' : s.resources = (kept ++ [r]) ++ rs := by
        rw [hs, List.append_assoc]
        rfl
      obtain ⟨hres, hfreed⟩ := ih hs' hkept'
      rw [if_neg hr, List.filter_cons_of_pos (by simp [hr]), List.filter_cons_of_neg hr]
      exact ⟨by rw [hres, List.append_assoc]; rfl, hfreed⟩

/-- The URI of a topic. -/
def Below (r : CoapResource) : Prop := ascii "ps/" <+: r.uri.bytes

instance (r : CoapResource) : Decidable (Below r) := inferInstanceAs (Decidable (_ <+: _))

/-- A URI that passes for that of a topic: it has `p`, `s` or `/` in its place, but not all
    three. -/
def Lookalike (r : CoapResource) : Prop :=
  3 ≤ r.uri.length ∧ (r.uri.bytes[0]? = some (('p' : Char) : Byte) ∨
    r.uri.bytes[1]? = some (('s' : Char) : Byte) ∨ r.uri.bytes[2]? = some (('/' : Char) : Byte)) ∧
    ¬Below r

theorem isCleaned_iff : isCleaned r ↔ 3 ≤ r.uri.length ∧
    (r.uri.bytes[0]? = some (('p' : Char) : Byte) ∨ r.uri.bytes[1]? = some (('s' : Char) : Byte) ∨
      r.uri.bytes[2]? = some (('/' : Char) : Byte)) := by
  rw [isCleaned]
  by_cases hps : r.uri = brokerPath
  · rw [hps]
    decide
  · rw [if_neg (by simpa [compareString] using hps)]
    by_cases hlen : 3 ≤ r.uri.length
    · rw [if_pos hlen]
      simp only [Bool.not_and, decide_not, Bool.not_not, Bool.or_eq_true, decide_eq_true_eq,
        or_assoc]
      exact (and_iff_right hlen).symm
    · rw [if_neg hlen]
      exact iff_of_false Bool.false_ne_true fun h => hlen h.1

/-- The topics are cleaned, and what passes for one. -/
theorem isCleaned_iff_below : isCleaned r ↔ Below r ∨ Lookalike r := by
  have hbelow : Below r → isCleaned r := fun ⟨t, ht⟩ => by
    rw [isCleaned_iff, CStr.length, ← ht]
    exact ⟨by simp [ascii], .inl rfl⟩
  rw [Lookalike, ← and_assoc, ← isCleaned_iff]
  tauto

/-- A loop has unregistered and freed exactly the topics, so that only allocated strings have
    been freed if those of topics are. -/
def Exact (b : Broker) (s : CleanUp) : Prop :=
  s.resources = b.resources.filter (fun r => ¬Below r) ∧ s.freed = b.resources.filter Below ∧
    ((∀ r ∈ b.resources, Below r → coapFreeResource r = .ok ()) →
      ∀ r ∈ s.freed, coapFreeResource r = .ok ())

theorem exact_iff : Exact b (mainCleanUp b) ↔ ∀ r ∈ b.resources, ¬Lookalike r := by
  obtain ⟨hres, hfreed⟩ := @cleanUpLoop_eq b.mqttBridge [] b.resources
    { topicDB := b.topicDB, resources := b.resources } rfl (by simp)
  rw [List.nil_append] at hres hfreed
  rw [Exact, mainCleanUp, hres, hfreed]
  constructor
  · intro hexact r hr hlook
    have hmem : r ∈ b.resources.filter isCleaned :=
      List.mem_filter.2 ⟨hr, isCleaned_iff_below.2 (.inr hlook)⟩
    rw [hexact.2.1, List.mem_filter] at hmem
    exact hlook.2.2 (of_decide_eq_true hmem.2)
  · intro hno
    have hiff : ∀ r ∈ b.resources, isCleaned r = decide (Below r) := fun r hr => by
      rw [Bool.eq_iff_iff, decide_eq_true_iff, isCleaned_iff_below, or_iff_left (hno r hr)]
    have hfilter : b.resources.filter isCleaned = b.resources.filter Below := List.filter_congr hiff
    refine ⟨List.filter_congr fun r hr => ?_, hfilter, fun hfree r hr => ?_⟩
    · rw [hiff r hr, decide_not]
    · rw [hfilter, List.mem_filter] at hr
      exact hfree r hr.1 (of_decide_eq_true hr.2)

/-- The two loops touch exactly the topics when no other resource passes for one. -/
theorem cleanUp_exact_iff (b : Broker) :
    (Exact b (mainCleanUp b) ∧ Exact b (handleSIGINT b)) ↔ ∀ r ∈ b.resources, ¬Lookalike r := by
  change (Exact b (mainCleanUp b) ∧ Exact b (mainCleanUp b)) ↔ _
  rw [and_self_iff]
  exact exact_iff

/-! ## Without the resource directory -/

/-- The strings of all attributes have been allocated, as the parser does. -/
def Allocated (r : CoapResource) : Prop :=
  ∀ attr ∈ r.linkAttr, attr.flags = coapAttrFlagsReleaseName ||| coapAttrFlagsReleaseValue

theorem Allocated.coapFreeResource (h : Allocated r) : coapFreeResource r = .ok () := by
  rw [Allocated] at h
  rw [Shutdown.coapFreeResource]
  generalize r.linkAttr = attrs at h ⊢
  induction attrs with
  | nil => rfl
  | cons attr attrs ih =>
    obtain ⟨hattr, hattrs⟩ := List.forall_mem_cons.1 h
    have hdelete : coapDeleteAttr attr = .ok () := by
      rw [coapDeleteAttr, hattr]
      rfl
    change (coapDeleteAttr attr >>= fun _ => attrs.forM coapDeleteAttr) = _
    rw [hdelete]
    exact ih hattrs

theorem allocated_of_creates {target : CoapResource} {request : Request}
    (h : Creates target request r) : Allocated (asTopic r) := by
  obtain ⟨-, ⟨p, attrs, -, rfl⟩, -⟩ := h
  intro attr hattr
  change attr ∈ ((resourceAt target p).withAttrs attrs).linkAttr at hattr
  rw [CoapResource.linkAttr_withAttrs] at hattr
  rcases List.mem_append.1 hattr with hattr | hattr
  · obtain ⟨a, -, rfl⟩ := List.mem_map.1 (List.mem_reverse.1 hattr)
    rfl
  · exact absurd hattr List.not_mem_nil

theorem length_of_isBuiltin (h : IsBuiltin r) : r.uri.length = 2 := by
  rcases h with rfl | rfl <;> rfl

/-- In every reachable state, the attributes of the topics have been allocated. -/
theorem allocated_of_reachable {mqttBridge rdServer : Bool}
    (h : Reachable step (boot mqttBridge rdServer) b) :
    ∀ r ∈ b.resources, Below r → Allocated r := by
  have hinv : Agreement b ∧ ∀ r ∈ b.resources, Below r → Allocated r := by
    refine h.invariant (P := fun b => Agreement b ∧ ∀ r ∈ b.resources, Below r → Allocated r) ?_ ?_
    · refine ⟨agreement_boot mqttBridge rdServer, fun r hr hbelow => ?_⟩
      have hlen := hbelow.length_le
      rw [← CStr.length, length_of_isBuiltin (isBuiltin_of_mem_boot hr)] at hlen
      exact absurd hlen (by decide)
    · rintro b e out b' ⟨hb, halloc⟩ hstep
      have heffect := step_effect hb hstep
      refine ⟨heffect.agreement hb, fun r hr hbelow => ?_⟩
      rcases heffect.mem_resources hb hr with ⟨x, hx, s, rfl⟩ | ⟨_, _, x, hx, rfl⟩
      · exact halloc x hx hbelow
      · exact allocated_of_creates hx
  exact hinv.2

/-- As long as nothing has been registered in the resource directory, shutting down touches the
    topics, and frees what has been allocated. -/
theorem cleanUp_of_reachable {mqttBridge rdServer : Bool}
    (h : Reachable step (boot mqttBridge rdServer) b) :
    Exact b (mainCleanUp b) ∧ ∀ r ∈ (mainCleanUp b).freed, coapFreeResource r = .ok () := by
  have hexact : Exact b (mainCleanUp b) := exact_iff.2 fun r hr hlook => by
    rcases h.agreement.resource r hr with htopic | hbuiltin
    · exact hlook.2.2 htopic.below
    · exact absurd hlook.1 (by rw [length_of_isBuiltin hbuiltin]; decide)
  exact ⟨hexact, hexact.2.2 fun r hr hbelow =>
    (allocated_of_reachable h r hr hbelow).coapFreeResource⟩

/-! ## With it -/

/-- Every location of the resource directory passes for a topic, whatever is behind it in
    memory. -/
theorem lookalike_location {query : Option (List Byte)} {id : UInt16} {now : ℕ}
    {l : Directory.Loc} (h : Directory.rdLocation query id now = .ok l) :
    ∃ t, l.loc.take l.locSize = t.map some ∧
      ∀ junk, r.uri = CStr.read (t ++ junk) → Lookalike r := by
  rcases Directory.rdLocation_cases query id now with ⟨-, herror⟩ | ⟨-, l', t, hok, hholds⟩
  · rw [h] at herror
    cases herror
  · obtain rfl : l = l' := Except.ok.inj (h.symm.trans hok)
    refine ⟨ascii "rd/" ++ t, ?_, fun junk hr => ?_⟩
    · have hlen : l.locSize = ((ascii "rd/" ++ t).map some).length := by
        rw [List.length_map, hholds.locSize]
      rw [hlen]
      exact (List.prefix_iff_eq_take.1 hholds.loc).symm
    · have huri : r.uri.bytes = ascii "rd/" ++ (CStr.read (t ++ junk)).bytes := by
        rw [hr, List.append_assoc]
        rfl
      rw [Lookalike, Below, CStr.length, huri]
      refine ⟨by simp [ascii], .inr (.inr rfl), ?_⟩
      rintro ⟨t', ht'⟩
      exact absurd (List.cons.inj ht').1 (by decide)

/-- A location of the resource directory, with the instance of its client and, as `A`, the address
    that `add_source_address` writes for a peer with IPv4. -/
def rdEntry : CoapResource :=
  ((coapResourceInit (CStr.lit "rd/n") coapResourceFlagsReleaseUri).addAttr (CStr.lit "ins")
    (CStr.lit "\"i\"") coapAttrFlagsReleaseValue).addAttr (CStr.lit "A") (CStr.lit "\"\"")
    coapAttrFlagsReleaseValue

/-- With an entry of the resource directory, both loops free a name that is static. -/
theorem cleanUp_frees_static :
    let b : Broker := { boot false true with resources := (boot false true).resources ++ [rdEntry] }
    (mainCleanUp b).freed = [rdEntry] ∧ (handleSIGINT b).freed = [rdEntry] ∧
      coapFreeResource rdEntry =
        .error (.name ⟨CStr.lit "A", CStr.lit "\"\"", coapAttrFlagsReleaseValue⟩) ∧
      ¬(Exact b (mainCleanUp b) ∧ Exact b (handleSIGINT b)) := by
  intro b
  have hfreed : (mainCleanUp b).freed = [rdEntry] := by decide
  refine ⟨hfreed, hfreed, by decide, ?_⟩
  rintro ⟨⟨-, hfreed', -⟩, -⟩
  rw [hfreed] at hfreed'
  exact absurd hfreed' (by decide)

end CoapBroker.Shutdown
