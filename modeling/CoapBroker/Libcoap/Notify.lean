import CoapBroker.Libcoap.Resource

/-!
# Notifying observers

`coap_check_notify`, which calls the `GET` handler of every observable resource that is
dirty, once for each of its observers and without a request. The handler is a parameter
here: it gets the number of the notification, the resource and the observer. Sending is
taken to succeed, so that no resource is dirty afterwards.

Notifying only fails when the handler does (`coapCheckNotify_ok`), and otherwise takes the
marks of the resources away (`coapCheckNotify_eq`).
-/

namespace CoapBroker

/-- A notification sent to an observer. -/
structure Notification where
  subscriber : CoapAddress
  token : List Byte
  response : Pdu
  deriving DecidableEq

/-- Calling the handler for a notification. -/
abbrev NotifyHandler := ℕ → CoapResource → CoapSubscription → Except Fault Pdu

/-- `coap_notify_observers`: the `GET` handler of an observable resource that is dirty,
    which must be there, is called for every observer. The result is the number of the next
    notification. -/
def coapNotifyObservers (h : NotifyHandler) (observe : ℕ) (r : CoapResource) :
    Except Fault (ℕ × List Notification) :=
  if r.observable ∧ r.dirty then
    match r.handler.get with
    | none => .error .assertion
    | some _ => do
      let notifications ← r.subscribers.mapM fun s => do
        let response ← h observe r s
        .ok { subscriber := s.subscriber, token := s.token, response }
      .ok (observe + 1, notifications)
  else .ok (observe, [])

/-- The loop of `coap_check_notify`. -/
def checkNotifyLoop (h : NotifyHandler) (observe : ℕ) :
    List CoapResource → Except Fault (ℕ × List Notification)
  | [] => .ok (observe, [])
  | r :: rs => do
    let (observe, notifications) ← coapNotifyObservers h observe r
    let (observe, notifications') ← checkNotifyLoop h observe rs
    .ok (observe, notifications ++ notifications')

/-- `coap_check_notify`: notifying the observers of all dirty resources, none of which
    is dirty afterwards. -/
def coapCheckNotify (h : NotifyHandler) (observe : ℕ) (t : ResourceTable) :
    Except Fault (ResourceTable × ℕ × List Notification) := do
  let (observe, notifications) ← checkNotifyLoop h observe t
  .ok (t.map fun r => { r with dirty := false }, observe, notifications)

/-! ## What it comes to -/

theorem mapM_ok {ε α β : Type} {f : α → Except ε β} {l : List α} (h : ∀ a ∈ l, ∃ b, f a = .ok b) :
    ∃ bs, l.mapM f = .ok bs := by
  induction l with
  | nil => exact ⟨[], rfl⟩
  | cons a l ih =>
    obtain ⟨b, hb⟩ := h a List.mem_cons_self
    obtain ⟨bs, hbs⟩ := ih fun a ha => h a (List.mem_cons_of_mem _ ha)
    exact ⟨b :: bs, by rw [List.mapM_cons, hb, hbs]; rfl⟩

variable {h : NotifyHandler}

/-- A resource that can be notified: when it is observable, its handler is there and does
    not fail. -/
def Notifiable (h : NotifyHandler) (r : CoapResource) : Prop :=
  r.observable → r.handler.get.isSome ∧ ∀ observe s, ∃ response, h observe r s = .ok response

theorem coapNotifyObservers_ok (observe : ℕ) {r : CoapResource} (hr : Notifiable h r) :
    ∃ res, coapNotifyObservers h observe r = .ok res := by
  rw [coapNotifyObservers]
  split_ifs with hobs
  · obtain ⟨hget, hok⟩ := hr hobs.1
    obtain ⟨g, hg⟩ := Option.isSome_iff_exists.1 hget
    have hsubs : ∃ ns, (r.subscribers.mapM fun s => do
        let response ← h observe r s
        .ok ({ subscriber := s.subscriber, token := s.token, response } : Notification)) =
          .ok ns := by
      refine mapM_ok fun s _ => ?_
      obtain ⟨response, hres⟩ := hok observe s
      exact ⟨⟨s.subscriber, s.token, response⟩, by rw [hres]; rfl⟩
    obtain ⟨ns, hns⟩ := hsubs
    exact ⟨(observe + 1, ns), by rw [hg]; dsimp only; rw [hns]; rfl⟩
  · exact ⟨_, rfl⟩

theorem checkNotifyLoop_ok (observe : ℕ) {rs : List CoapResource}
    (hrs : ∀ r ∈ rs, Notifiable h r) : ∃ res, checkNotifyLoop h observe rs = .ok res := by
  induction rs generalizing observe with
  | nil => exact ⟨_, rfl⟩
  | cons r rs ih =>
    obtain ⟨⟨observe', ns⟩, hr⟩ := coapNotifyObservers_ok observe (hrs r List.mem_cons_self)
    obtain ⟨⟨observe'', ns'⟩, hloop⟩ := ih observe' fun r hr => hrs r (List.mem_cons_of_mem _ hr)
    refine ⟨(observe'', ns ++ ns'), ?_⟩
    rw [checkNotifyLoop, hr]
    simp only [bind, Except.bind, hloop]

/-- Notifying does not fail when all resources can be notified. -/
theorem coapCheckNotify_ok (observe : ℕ) {t : ResourceTable} (ht : ∀ r ∈ t, Notifiable h r) :
    ∃ res, coapCheckNotify h observe t = .ok res := by
  obtain ⟨⟨observe', ns⟩, hloop⟩ := checkNotifyLoop_ok observe ht
  exact ⟨_, by rw [coapCheckNotify, hloop]; rfl⟩

/-- Notifying fails as the handler does when that of every observable resource is there. -/
theorem coapCheckNotify_onlyFails {f : Fault} (hf : ∀ observe r s, OnlyFails f (h observe r s))
    (observe : ℕ) {t : ResourceTable} (ht : ∀ r ∈ t, r.observable → r.handler.get.isSome) :
    OnlyFails f (coapCheckNotify h observe t) := by
  have hone : ∀ observe, ∀ r ∈ t, OnlyFails f (coapNotifyObservers h observe r) := by
    intro observe r hr
    rw [coapNotifyObservers]
    split_ifs with hobs
    · obtain ⟨g, hg⟩ := Option.isSome_iff_exists.1 (ht r hr hobs.1)
      rw [hg]
      exact (OnlyFails.mapM (fun s => (hf observe r s).bind fun _ => onlyFails_ok _) _).bind
        fun _ => onlyFails_ok _
    · exact onlyFails_ok _
  have hloop : ∀ rs, (∀ r ∈ rs, r ∈ t) → ∀ observe, OnlyFails f (checkNotifyLoop h observe rs) := by
    intro rs
    induction rs with
    | nil => exact fun _ _ => onlyFails_ok _
    | cons r rs ih =>
      intro hrs observe
      exact (hone observe r (hrs r List.mem_cons_self)).bind fun x =>
        (ih (fun r hr => hrs r (List.mem_cons_of_mem _ hr)) x.1).bind fun _ => onlyFails_ok _
  exact (hloop t (fun _ hr => hr) observe).bind fun _ => onlyFails_ok _

/-- Notifying takes the marks of the resources away. -/
theorem coapCheckNotify_eq {observe observe' : ℕ} {t t' : ResourceTable} {ns : List Notification}
    (hok : coapCheckNotify h observe t = .ok (t', observe', ns)) :
    t' = t.map fun r => { r with dirty := false } := by
  rw [coapCheckNotify] at hok
  rcases hloop : checkNotifyLoop h observe t with f | ⟨o, ns'⟩ <;> rw [hloop] at hok
  · cases hok
  · cases hok
    rfl

/-! ## Marking a resource -/

/-- Marking a resource as dirty, and notifying its observers. -/
def markAndNotify (h : NotifyHandler) (observe : ℕ) (t : ResourceTable) (r : CoapResource) :
    Except Fault (ResourceTable × ℕ × List Notification) :=
  coapCheckNotify h observe (t.update r fun r => { r with dirty := true })

theorem map_clean {t : ResourceTable} (ht : ∀ r ∈ t, r.dirty = false) :
    (t.map fun r => { r with dirty := false }) = t := by
  refine (List.map_congr_left fun r hr => ?_).trans (List.map_id t)
  rw [← ht r hr, id]

theorem map_clean_update (t : ResourceTable) (r : CoapResource) :
    ((t.update r fun r => { r with dirty := true }).map fun r => { r with dirty := false }) =
      t.map fun r => { r with dirty := false } := by
  rw [ResourceTable.update, List.map_map]
  refine List.map_congr_left fun x _ => ?_
  rw [Function.comp_apply]
  split_ifs <;> rfl

/-- In a table without dirty resources, marking and notifying leaves the table as it is. -/
theorem markAndNotify_eq {observe observe' : ℕ} {t t' : ResourceTable} {r : CoapResource}
    {ns : List Notification} (ht : ∀ r ∈ t, r.dirty = false)
    (hok : markAndNotify h observe t r = .ok (t', observe', ns)) : t' = t := by
  rw [coapCheckNotify_eq hok, map_clean_update, map_clean ht]

theorem markAndNotify_onlyFails {f : Fault} (hf : ∀ observe r s, OnlyFails f (h observe r s))
    (observe : ℕ) {t : ResourceTable} (r : CoapResource)
    (ht : ∀ r ∈ t, r.observable → r.handler.get.isSome) :
    OnlyFails f (markAndNotify h observe t r) := by
  refine coapCheckNotify_onlyFails hf observe fun x hx => ?_
  obtain ⟨x', hx', rfl⟩ := List.mem_map.1 hx
  split_ifs
  · exact ht x' hx'
  · exact ht x' hx'

theorem markAndNotify_ok (observe : ℕ) {t : ResourceTable} (r : CoapResource)
    (ht : ∀ r ∈ t, Notifiable h r ∧ Notifiable h { r with dirty := true }) :
    ∃ res, markAndNotify h observe t r = .ok res := by
  refine coapCheckNotify_ok observe fun x hx => ?_
  obtain ⟨x', hx', rfl⟩ := List.mem_map.1 hx
  split_ifs
  · exact (ht x' hx').2
  · exact (ht x' hx').1

/-! ## The notifications -/

theorem mapM_eq {ε α β : Type} {f : α → Except ε β} {g : α → β} {l : List α}
    (h : ∀ a ∈ l, f a = .ok (g a)) : l.mapM f = .ok (l.map g) := by
  induction l with
  | nil => rfl
  | cons a l ih =>
    rw [List.mapM_cons, h a List.mem_cons_self, ih fun a ha => h a (List.mem_cons_of_mem _ ha)]
    rfl

/-- The notifications of a resource: one for each of its observers. -/
def notificationsOf (r : CoapResource) (g : CoapSubscription → Pdu) : List Notification :=
  r.subscribers.map fun s => { subscriber := s.subscriber, token := s.token, response := g s }

/-- Resources that are not dirty are passed over. -/
theorem checkNotifyLoop_clean (observe : ℕ) {rs : List CoapResource}
    (hrs : ∀ r ∈ rs, r.dirty = false) : checkNotifyLoop h observe rs = .ok (observe, []) := by
  induction rs with
  | nil => rfl
  | cons r rs ih =>
    have hr : r.dirty = false := hrs r List.mem_cons_self
    have hone : coapNotifyObservers h observe r = .ok (observe, []) := by
      rw [coapNotifyObservers, if_neg]
      rintro ⟨-, hdirty⟩
      rw [hr] at hdirty
      exact absurd hdirty Bool.false_ne_true
    rw [checkNotifyLoop, hone]
    simp only [bind, Except.bind, ih fun r hr => hrs r (List.mem_cons_of_mem _ hr), List.append_nil]

/-- A dirty resource among others that are not is the only one whose observers are notified. -/
theorem checkNotifyLoop_dirty (observe : ℕ) {rs rs' : List CoapResource} {r : CoapResource}
    {g : CoapSubscription → Pdu} (hrs : ∀ x ∈ rs, x.dirty = false)
    (hrs' : ∀ x ∈ rs', x.dirty = false) (hobs : r.observable = true) (hdirty : r.dirty = true)
    (hget : r.handler.get.isSome) (hg : ∀ s ∈ r.subscribers, h observe r s = .ok (g s)) :
    checkNotifyLoop h observe (rs ++ r :: rs') = .ok (observe + 1, notificationsOf r g) := by
  induction rs with
  | nil =>
    obtain ⟨get, hget⟩ := Option.isSome_iff_exists.1 hget
    have hmap : (r.subscribers.mapM fun s => do
        let response ← h observe r s
        .ok ({ subscriber := s.subscriber, token := s.token, response } : Notification)) =
          .ok (notificationsOf r g) :=
      mapM_eq fun s hs => by rw [hg s hs]; rfl
    have hone : coapNotifyObservers h observe r = .ok (observe + 1, notificationsOf r g) := by
      rw [coapNotifyObservers, if_pos ⟨hobs, hdirty⟩, hget]
      dsimp only
      rw [hmap]
      rfl
    rw [List.nil_append, checkNotifyLoop, hone]
    simp only [bind, Except.bind, checkNotifyLoop_clean _ hrs', List.append_nil]
  | cons x rs ih =>
    have hone : coapNotifyObservers h observe x = .ok (observe, []) := by
      rw [coapNotifyObservers, if_neg]
      rintro ⟨-, hx⟩
      rw [hrs x List.mem_cons_self] at hx
      exact absurd hx Bool.false_ne_true
    rw [List.cons_append, checkNotifyLoop, hone]
    simp only [bind, Except.bind, ih fun x hx => hrs x (List.mem_cons_of_mem _ hx), List.nil_append]

/-- Marking a resource of a table without dirty ones notifies its observers, and them only. -/
theorem markAndNotify_spec (observe : ℕ) {t : ResourceTable} {r : CoapResource}
    {g : CoapSubscription → Pdu} (hclean : ∀ x ∈ t, x.dirty = false) (ht : t.Nodup) (hr : r ∈ t)
    (hobs : r.observable = true) (hget : r.handler.get.isSome)
    (hg : ∀ s ∈ r.subscribers, h observe { r with dirty := true } s = .ok (g s)) :
    markAndNotify h observe t r = .ok (t, observe + 1, notificationsOf r g) := by
  obtain ⟨rs, rs', rfl⟩ := List.append_of_mem hr
  rw [List.nodup_append, List.nodup_cons] at ht
  obtain ⟨-, ⟨hnot', -⟩, hnot⟩ := ht
  have hkeep : ∀ l : List CoapResource, r ∉ l →
      l.map (fun x => if x = r then { x with dirty := true } else x) = l := by
    intro l hl
    refine (List.map_congr_left fun x hx => ?_).trans (List.map_id l)
    rw [if_neg (ne_of_mem_of_not_mem hx hl), id]
  have hupdate : ResourceTable.update (rs ++ r :: rs') r (fun r => { r with dirty := true }) =
      rs ++ { r with dirty := true } :: rs' := by
    rw [ResourceTable.update, List.map_append, List.map_cons, if_pos rfl,
      hkeep rs fun hmem => hnot r hmem r List.mem_cons_self rfl, hkeep rs' hnot']
  have hloop : checkNotifyLoop h observe (rs ++ { r with dirty := true } :: rs') =
      .ok (observe + 1, notificationsOf r g) :=
    checkNotifyLoop_dirty observe (fun x hx => hclean x (List.mem_append_left _ hx))
      (fun x hx => hclean x (List.mem_append_right _ (List.mem_cons_of_mem _ hx))) hobs rfl hget hg
  have hclear : ((rs ++ { r with dirty := true } :: rs').map fun r => { r with dirty := false }) =
      rs ++ r :: rs' := by
    rw [← hupdate, map_clean_update, map_clean hclean]
  rw [markAndNotify, hupdate, coapCheckNotify, hloop]
  exact congrArg (fun t => Except.ok (t, observe + 1, notificationsOf r g)) hclear

end CoapBroker
