import CoapBroker.System.Agreement

/-!
# A read returns the last publish

For runs without the MQTT bridge, whose clock does not go back: the record of a topic
reflects the last request that has published to it since it was created (`Reflects`),
until the data expires and is swept. Every step keeps this (`Effect.remembers`); what
clients read is `read_last_publish`.

The expiry 0 stands for data that does not expire. A publish whose `Max-Age` ends at the epoch
of the clock is kept as one without `Max-Age` (`read_expiry_zero`).
-/

namespace CoapBroker

/-! ## The clock -/

/-- All readings of the clock for an event lie between `t` and `t'`. -/
def Event.ReadsWithin (t t' : ℤ) : Event → Prop
  | .request _ _ _ _ _ now | .arrival _ _ now => t ≤ now ∧ now ≤ t'
  | .dataSweep time | .topicSweep time => ∀ i, t ≤ time i ∧ time i ≤ t'
  | _ => True

/-- The clock does not go back; it has not passed `t` at the end of the events. -/
inductive Clocked : List Event → ℤ → Prop
  | nil {t : ℤ} : Clocked [] t
  | snoc {es : List Event} {e : Event} {t t' : ℤ} (h : Clocked es t) (hle : t ≤ t')
    (he : e.ReadsWithin t t') : Clocked (es ++ [e]) t'

theorem Clocked.of_concat {es : List Event} {e : Event} {t' : ℤ} (h : Clocked (es ++ [e]) t') :
    ∃ t, Clocked es t ∧ t ≤ t' ∧ e.ReadsWithin t t' := by
  generalize hes : es ++ [e] = es' at h
  cases h with
  | nil => exact absurd hes (by simp)
  | @snoc es₀ e₀ t t' h hle he =>
    obtain ⟨rfl, hee⟩ := List.append_inj' hes rfl
    cases hee
    exact ⟨t, h, hle, he⟩

/-- The bridge is silent, and what is published is free of `NUL`. -/
def PlainStep (x : Transition Broker Event Output) : Prop :=
  match x.ev with
  | .request _ .put req _ _ _ => x.out.code = some (coapResponseCode 204) → (0 : Byte) ∉ req.data
  | .arrival _ _ _ => False
  | _ => True

/-! ## The last publish -/

/-- The path in the response to a request that has created a topic. -/
def Output.location (out : Output) : Option (List Byte) :=
  out.response.bind fun pdu =>
    (pdu.options.find? fun o => o.type = coapOptionLocationPath).map CoapOption.value

/-- The last publish to the topic after a step: a request that has created the topic undoes
    it, one that has published to the topic is the new one. -/
def nextPut (topic : CStr) (last : Option (Request × ℤ)) (x : Transition Broker Event Output) :
    Option (Request × ℤ) :=
  match x.ev with
  | .request _ .post _ _ _ _ =>
    if x.out.code = some (coapResponseCode 201) ∧ x.out.location = some topic.bytes then none
    else last
  | .request uri .put req _ _ now =>
    if uri = topic ∧ x.out.code = some (coapResponseCode 204) then some (req, now) else last
  | _ => last

/-- The last publish accepted on the topic since it was created for the last time, with
    its time. -/
def lastPut (topic : CStr) (tr : List (Transition Broker Event Output)) : Option (Request × ℤ) :=
  tr.foldl (nextPut topic) none

theorem lastPut_concat (topic : CStr) (tr : List (Transition Broker Event Output))
    (x : Transition Broker Event Output) :
    lastPut topic (tr ++ [x]) = nextPut topic (lastPut topic tr) x := by
  rw [lastPut, List.foldl_append]
  rfl

theorem NoChange.nextPut_eq {e : Event} {out : Output} (h : NoChange e out) (topic : CStr)
    (last : Option (Request × ℤ)) (b b' : Broker) : nextPut topic last ⟨b, e, out, b'⟩ = last := by
  have hcode : ∀ n, (∀ pdu, out.response = some pdu → pdu.code ≠ coapResponseCode n) →
      out.code ≠ some (coapResponseCode n) := by
    intro n hn hcode
    obtain ⟨pdu, hpdu, heq⟩ := Option.map_eq_some_iff.1 hcode
    exact hn pdu hpdu heq
  rcases e with ⟨uri, _ | _ | _ | _, req, peer, token, now⟩ | _ | _ | _ | _ | _ | _
  · rfl
  · exact if_neg fun hc => hcode 201 h hc.1
  · exact if_neg fun hc => hcode 204 h hc.2
  all_goals rfl

/-! ## What a record reflects -/

theorem publishedData_eq {req : Request} (h : (0 : Byte) ∉ req.data) :
    (publishedData req).map CStr.bytes = if req.data = [] then none else some req.data := by
  rcases hp : req.payload with _ | mem
  · rw [publishedData, Request.data, hp]
    rfl
  · have hdata : req.data = mem := by rw [Request.data, hp]; rfl
    rw [hdata] at h ⊢
    rw [publishedData, hp, hdata, copyData]
    rcases mem with _ | ⟨c, mem⟩
    · rfl
    · rw [if_pos (by exact Nat.succ_pos _), List.take_length, if_neg (List.cons_ne_nil c mem)]
      exact congrArg some (CStr.read_of_notMem h)

/-- Writing published data back changes nothing. -/
theorem normData_publishedData {req : Request} (h : (0 : Byte) ∉ req.data) :
    TopicDB.normData (publishedData req) = publishedData req := by
  have heq := publishedData_eq h
  rcases hd : publishedData req with _ | d
  · rfl
  · have hne : d ≠ CStr.empty := by
      rintro rfl
      rw [hd] at heq
      split_ifs at heq with hnil
      · cases heq
      · exact hnil (Option.some.inj heq).symm
    exact Option.filter_some_pos (decide_eq_true hne)

/-- What the record of a topic says at the time `now`, after the last publish `last`: the
    data and its expiry, or no data once it has expired. -/
def Reflects (t : TopicData) (now : ℤ) : Option (Request × ℤ) → Prop
  | none => t.data = none
  | some (req, τ) => (0 : Byte) ∉ req.data ∧ τ ≤ now ∧
    (t.data = publishedData req ∧ t.dataMa = dataExpiry req τ ∨
      t.data = none ∧ dataExpiry req τ ≠ 0 ∧ dataExpiry req τ < now)

theorem Reflects.mono {t : TopicData} {now now' : ℤ} {last : Option (Request × ℤ)}
    (h : Reflects t now last) (hle : now ≤ now') : Reflects t now' last := by
  rcases last with _ | ⟨req, τ⟩
  · exact h
  · obtain ⟨hnul, hτ, hdata | ⟨hnone, h0, hexp⟩⟩ := h
    · exact ⟨hnul, hτ.trans hle, .inl hdata⟩
    · exact ⟨hnul, hτ.trans hle, .inr ⟨hnone, h0, hexp.trans_le hle⟩⟩

/-- Renewing the expiry of a topic writes its data back. -/
theorem Reflects.refresh {t : TopicData} {now : ℤ} {last : Option (Request × ℤ)}
    (h : Reflects t now last) (topicMa : ℤ) :
    Reflects { t with data := TopicDB.normData t.data, topicMa } now last := by
  rcases last with _ | ⟨req, τ⟩
  · exact congrArg TopicDB.normData h
  · obtain ⟨hnul, hτ, ⟨hdata, hma⟩ | ⟨hnone, hexp⟩⟩ := h
    · exact ⟨hnul, hτ,
        .inl ⟨(congrArg TopicDB.normData hdata).trans (normData_publishedData hnul), hma⟩⟩
    · exact ⟨hnul, hτ, .inr ⟨congrArg TopicDB.normData hnone, hexp⟩⟩

/-- Data that has expired is cleared. -/
theorem Reflects.clear {t : TopicData} {now τ : ℤ} {last : Option (Request × ℤ)}
    (h : Reflects t now last) (hexp : Expired t.dataMa τ) (hτ : τ ≤ now) :
    Reflects (clearData t) now last := by
  rcases last with _ | ⟨req, σ⟩
  · rfl
  · obtain ⟨hnul, hσ, ⟨hdata, hma⟩ | ⟨hnone, h0, hlt⟩⟩ := h
    · rw [hma] at hexp
      exact ⟨hnul, hσ, .inr ⟨rfl, hexp.2, hexp.1.trans_le hτ⟩⟩
    · exact ⟨hnul, hσ, .inr ⟨rfl, h0, hlt⟩⟩

/-- The record of the topic, if there is one, reflects the last publish. -/
def Remembers (topic : CStr) (db : TopicDB) (now : ℤ) (last : Option (Request × ℤ)) : Prop :=
  ∀ t ∈ db, t.path = topic → Reflects t now last

/-! ## Every step keeps it -/

/-- The answer to a request that has created a topic tells its URI. -/
theorem nextPut_created {b b' : Broker} {uri : CStr} {req : Request} {peer : CoapAddress}
    {token : List Byte} {now : ℤ} {r : CoapResource} (topicMa : ℤ) (topic : CStr)
    (last : Option (Request × ℤ)) :
    nextPut topic last ⟨b, .request uri .post req peer token now, (topicCreated b r topicMa).2, b'⟩ =
      if r.uri = topic then none else last := by
  have hcode := code_topicCreated b r topicMa
  have hloc : (topicCreated b r topicMa).2.location = some r.uri.bytes := rfl
  rw [nextPut]
  dsimp only
  rw [hcode, hloc]
  by_cases h : r.uri = topic
  · rw [if_pos ⟨rfl, h ▸ rfl⟩, if_pos h]
  · rw [if_neg fun hc => h (CStr.bytes_injective (Option.some.inj hc.2)), if_neg h]

/-- Renewing a topic is not a publish. -/
theorem nextPut_refreshed {b b' : Broker} {uri : CStr} {req : Request} {peer : CoapAddress}
    {token : List Byte} {now : ℤ} {r : CoapResource} (topicMa : ℤ) (topic : CStr)
    (last : Option (Request × ℤ)) :
    nextPut topic last ⟨b, .request uri .post req peer token now, (topicExists b r topicMa).2, b'⟩ =
      last := by
  rw [nextPut]
  exact if_neg fun hc => absurd ((code_topicExists b r topicMa).symm.trans hc.1) (by decide)

/-- A sweep clears the data that has expired, and no other. -/
theorem Remembers.dataSwept {b : Broker} {topic : CStr} {t : ℤ} {last : Option (Request × ℤ)}
    (h : Remembers topic b.topicDB t last) (hpaths : Keyed.Distinct TopicData.path b.topicDB)
    {time : ℕ → ℤ} (htime : ∀ i, time i ≤ t) :
    Remembers topic (topicDataMAMonitor b time).topicDB t last := by
  rw [topicDataMAMonitor_eq hpaths]
  split_ifs
  · exact h
  · intro x hx hxpath
    obtain ⟨y, hy, rfl⟩ := List.mem_map.1 hx
    split_ifs at hxpath ⊢ with hexp
    · obtain ⟨i, hi⟩ := exists_expired hpaths hy hexp
      exact (h y hy hxpath).clear hi (htime (i + 1))
    · exact h y hy hxpath

theorem Effect.remembers {b b' : Broker} {e : Event} {out : Output} (h : Effect b e b' out)
    (hb : Agreement b) {topic : CStr} {t t' : ℤ} {last : Option (Request × ℤ)}
    (hle : t ≤ t') (hreads : e.ReadsWithin t t') (hplain : PlainStep ⟨b, e, out, b'⟩)
    (hrem : Remembers topic b.topicDB t last) :
    Remembers topic b'.topicDB t' (nextPut topic last ⟨b, e, out, b'⟩) := by
  have hmono : Remembers topic b.topicDB t' last := fun x hx hpath => (hrem x hx hpath).mono hle
  cases h with
  | idle observe h =>
    rw [h.nextPut_eq]
    exact hmono
  | observers uri f hf h =>
    rw [h.nextPut_eq]
    exact hmono
  | @refreshed uri req peer token now target r htarget hparent hr hmem =>
    rw [nextPut_refreshed]
    intro x hx hpath
    dsimp only [topicExists] at hx
    rw [TopicDB.updateTopicInfo_fst] at hx
    rcases Keyed.mem_modify hx with hx | ⟨y, hy, -, rfl⟩
    · exact hmono x hx hpath
    · exact (hmono y hy hpath).refresh _
  | @created uri req peer token now target r htarget hparent hr hnot =>
    have hpath : r.uri ∉ b.topicDB.paths := fun h => hnot (hb.uri_mem h)
    rw [nextPut_created]
    intro x hx hxpath
    dsimp only [topicCreated] at hx
    rw [TopicDB.addTopicWEC_of_notMem hpath hr.length_pos] at hx
    rcases List.mem_append.1 hx with hx | hx
    · -- a record that was there before is not the topic's, if that is the new one
      have hne : r.uri ≠ topic := fun h =>
        hpath ((h.trans hxpath.symm) ▸ List.mem_map_of_mem hx)
      rw [if_neg hne]
      exact hmono x hx hxpath
    · rw [List.mem_singleton.1 hx] at hxpath ⊢
      rw [if_pos (by exact hxpath)]
      rfl
  | @published uri req peer token now target ct observe ns htarget htopic hct hopt =>
    intro x hx hxpath
    dsimp only at hx
    rw [TopicDB.updateTopicData_fst, Keyed.modify_eq_map hb.paths] at hx
    obtain ⟨y, hy, rfl⟩ := List.mem_map.1 hx
    rw [nextPut]
    dsimp only
    -- whether the record is the one published to, and whether it is the topic's
    split_ifs at hxpath ⊢ with hyuri hput hput
    · exact ⟨hplain rfl, hreads.2, .inl ⟨rfl, rfl⟩⟩
    · exact absurd ⟨hyuri.symm.trans hxpath, rfl⟩ hput
    · exact absurd (hxpath.trans hput.1.symm) hyuri
    · exact hmono y hy hxpath
  | deleted htarget htopic => exact fun x hx => hmono x (List.mem_filter.1 hx).1
  | dataSwept time => exact Remembers.dataSwept hmono hb.paths fun i => (hreads i).2
  | topicSwept time =>
    rw [topicMAMonitor_eq hb.paths hb.uris fun u hu => hb.uri_mem hu]
    split_ifs
    · exact hmono
    · exact fun x hx => hmono x (List.mem_filter.1 hx).1
  | arrived observe ns hfind hclone hdata => exact absurd hplain not_false

/-- At the end of every run, the record of a topic reflects the last publish. -/
theorem remembers_of_run {mqttBridge rdServer : Bool}
    {tr : List (Transition Broker Event Output)} {b : Broker}
    (h : Run step (boot mqttBridge rdServer) tr b) {now : ℤ}
    (hclock : Clocked (tr.map Transition.ev) now)
    (hplain : ∀ x ∈ tr, PlainStep x) (topic : CStr) :
    Remembers topic b.topicDB now (lastPut topic tr) := by
  refine h.invariant_trace (P := fun tr b => ∀ now, Clocked (tr.map Transition.ev) now →
    (∀ x ∈ tr, PlainStep x) → Remembers topic b.topicDB now (lastPut topic tr)) ?_ ?_ now
    hclock hplain
  · exact fun now _ _ x hx => absurd hx List.not_mem_nil
  · intro tr b e out b' hrun ih hstep now' hclock hplain
    have hb : Agreement b := Reachable.agreement ⟨tr, hrun⟩
    rw [List.map_append, List.map_singleton] at hclock
    obtain ⟨now, hclock, hle, hreads⟩ := hclock.of_concat
    have hrem := ih now hclock fun x hx => hplain x (List.mem_append_left _ hx)
    rw [lastPut_concat]
    exact (step_effect hb hstep).remembers hb hle hreads
      (hplain _ (List.mem_append_right _ (List.mem_singleton_self _))) hrem

/-! ## What is read -/

theorem dataExpiry_of_some {put : Request} {v : ℕ} (h : put.firstOption coapOptionMaxage = some v)
    (τ : ℤ) : dataExpiry put τ = v + τ := by
  rw [dataExpiry, h]

theorem dataExpiry_of_none {put : Request} (h : put.firstOption coapOptionMaxage = none) (τ : ℤ) :
    dataExpiry put τ = 0 := by
  rw [dataExpiry, h]

/-- When a publish at the time `τ` expires, if it does: by its `Max-Age`, unless that ends at 0. -/
def deadline (put : Request) (τ : ℤ) : Option ℤ :=
  ((put.firstOption coapOptionMaxage).map fun v : ℕ => τ + v).filter fun d => d ≠ 0

theorem deadline_eq (put : Request) (τ : ℤ) :
    deadline put τ = if dataExpiry put τ = 0 then none else some (dataExpiry put τ) := by
  rw [deadline]
  rcases hv : put.firstOption coapOptionMaxage with _ | v
  · rw [dataExpiry_of_none hv, if_pos rfl]
    rfl
  · rw [dataExpiry_of_some hv, Option.map_some, Option.filter_some, add_comm τ]
    by_cases h0 : (v : ℤ) + τ = 0
    · rw [if_pos h0, if_neg (by simpa using h0)]
    · rw [if_neg h0, if_pos (decide_eq_true h0)]

/-- A publish at the time `τ` is fresh at the time `t`: it has data, and does not expire before. -/
def Fresh (put : Request) (τ t : ℤ) : Prop :=
  put.data ≠ [] ∧ ∀ d, deadline put τ = some d → t ≤ d

theorem fresh_iff {put : Request} {τ t : ℤ} :
    Fresh put τ t ↔ put.data ≠ [] ∧ ¬(dataExpiry put τ < t ∧ dataExpiry put τ ≠ 0) := by
  rw [Fresh, deadline_eq]
  refine and_congr_right fun _ => ?_
  by_cases h0 : dataExpiry put τ = 0
  · rw [if_pos h0]
    exact iff_of_true (fun d h => by cases h) fun h => h.2 h0
  · rw [if_neg h0]
    constructor
    · exact fun h hexp => absurd (h _ rfl) (not_le.2 hexp.1)
    · rintro h d heq
      obtain rfl := Option.some.inj heq
      exact not_lt.1 fun hlt => h ⟨hlt, h0⟩

/-- A record that reflects a fresh publish has its data, not yet expired. -/
theorem Reflects.of_fresh {temp : TopicData} {put : Request} {now τ t : ℤ}
    (h : Reflects temp now (some (put, τ))) (ht : now ≤ t) (hfresh : Fresh put τ t) :
    (∃ d, temp.data = some d ∧ d.bytes = put.data) ∧ temp.dataMa = dataExpiry put τ ∧
      ¬(temp.dataMa < t ∧ temp.dataMa ≠ 0) := by
  obtain ⟨hne, hlive⟩ := fresh_iff.1 hfresh
  obtain ⟨hnul, hτ, ⟨hdata, hma⟩ | ⟨-, h0, hlt⟩⟩ := h
  · have heq := publishedData_eq hnul
    rw [if_neg hne, Option.map_eq_some_iff] at heq
    obtain ⟨d, hd, hbytes⟩ := heq
    exact ⟨⟨d, hdata.trans hd, hbytes⟩, hma, hma ▸ hlive⟩
  · exact absurd ⟨hlt.trans_le ht, h0⟩ hlive

/-- A record that reflects a publish that is not fresh has no data, or data that has expired. -/
theorem Reflects.of_not_fresh {temp : TopicData} {put : Request} {now τ t : ℤ}
    (h : Reflects temp now (some (put, τ))) (hfresh : ¬Fresh put τ t) :
    temp.data = none ∨ temp.dataMa < t ∧ temp.dataMa ≠ 0 := by
  obtain ⟨hnul, hτ, ⟨hdata, hma⟩ | ⟨hnone, -⟩⟩ := h
  · by_cases hnil : put.data = []
    · have heq := publishedData_eq hnul
      rw [if_pos hnil, Option.map_eq_none_iff] at heq
      exact .inl (hdata.trans heq)
    · right
      rw [hma]
      exact not_not.1 fun hlive => hfresh (fresh_iff.2 ⟨hnil, hlive⟩)
  · exact .inl hnone

/-- A read of a topic, asking for its content format, answers with the last publish if it is
    fresh: with its data, the content format and, if it has a deadline, the time left.
    Otherwise the answer is "No Content". -/
theorem read_last_publish (rdServer : Bool) {tr : List (Transition Broker Event Output)}
    {b : Broker} (h : Run step (boot false rdServer) tr b) {now t : ℤ}
    (hclock : Clocked (tr.map Transition.ev) now) (ht : now ≤ t)
    (hplain : ∀ x ∈ tr, PlainStep x) {r : CoapResource} (hr : r ∈ b.resources)
    (hhandler : r.handler = topicHandlers) {attr : CoapAttr}
    (hattr : r.findAttr ctName = some attr) {req : Request} {n : ℕ}
    (hopt : req.firstOption coapOptionContentType = some n) (hn : (n : ℤ) = atoi attr.value)
    (peer : CoapAddress) (token : List Byte) :
    ∃ pdu, step b (.request r.uri .get req peer token t) = .ok (b, { response := some pdu }) ∧
      (∀ put τ, lastPut r.uri tr = some (put, τ) → Fresh put τ t →
        pdu.code = coapResponseCode 205 ∧ pdu.data = put.data ∧
        pdu.number coapOptionContentType = some n ∧
        pdu.number coapOptionMaxage = (deadline put τ).map fun d => (d - t).toNat) ∧
      ((∀ put τ, lastPut r.uri tr = some (put, τ) → ¬Fresh put τ t) →
        pdu.code = coapResponseCode 204 ∧ pdu.data = ascii "No Content") := by
  have hb : Agreement b := Reachable.agreement ⟨tr, h⟩
  have hrem := remembers_of_run h hclock hplain r.uri
  have htopic := (hb.isTopic_iff hr).1 hhandler
  obtain ⟨temp, htemp⟩ := Option.isSome_iff_exists.1
    (TopicDB.getTopic_isSome.2 (hb.mem_paths_of_isTopic hr htopic))
  have hct : toUnsigned (atoi attr.value) = n := by
    have := Request.firstOption_lt hopt
    rw [← hn, toUnsigned_of_lt (by omega) (by omega), Int.toNat_natCast]
  have hreflects := hrem temp (Keyed.mem_of_find htemp) (Keyed.key_of_find htemp)
  -- the answer is the one the record gives
  have hstep : ∃ observe, step b (.request r.uri .get req peer token t) =
      .ok (b, { response := some (readResponse temp observe (atoi attr.value) t) }) := by
    have hfind : b.find r.uri = some r := Keyed.find_of_mem hb.uris hr
    have hget : (r.handler.of .get) = some .hndGetTopic := by rw [hhandler]; rfl
    have hctv : ctAttrValue r = .ok (atoi attr.value) := by rw [ctAttrValue, hattr]
    rw [step, hfind]
    dsimp only
    rw [hget]
    dsimp only
    rw [callHandler, hndGetTopic_request hctv, hopt]
    dsimp only
    rw [hct, if_neg (not_not.2 rfl), TopicDB.cloneTopic, ← TopicDB.getTopic, htemp]
    exact ⟨_, rfl⟩
  obtain ⟨observe, hstep⟩ := hstep
  refine ⟨_, hstep, fun put τ hlast hfresh => ?_, fun hno => ?_⟩
  · rw [hlast] at hreflects
    obtain ⟨⟨d, hd, hbytes⟩, hma, hexp⟩ := hreflects.of_fresh ht hfresh
    have hmax : temp.dataMa ≠ 0 → temp.dataMa - t < 2 ^ 32 := by
      intro h0
      obtain ⟨-, hτ, -⟩ := hreflects
      rw [hma] at h0 ⊢
      rcases hv : put.firstOption coapOptionMaxage with _ | v
      · exact absurd (dataExpiry_of_none hv τ) h0
      · have := Request.firstOption_lt hv
        rw [dataExpiry_of_some hv]
        omega
    obtain ⟨hcode, hdata, hnum, hmaxage⟩ := readResponse_content observe hd hexp hmax
    refine ⟨hcode, hdata.trans hbytes, hnum.trans (congrArg some hct), hmaxage.trans ?_⟩
    rw [hma, deadline_eq, ite_not]
    split_ifs
    · rfl
    · rfl
  · have hnone : temp.data = none ∨ temp.dataMa < t ∧ temp.dataMa ≠ 0 := by
      rcases hlast : lastPut r.uri tr with _ | ⟨put, τ⟩
      · rw [hlast] at hreflects
        exact .inl hreflects
      · rw [hlast] at hreflects
        exact hreflects.of_not_fresh (hno put τ hlast)
    rw [readResponse_noContent hnone]
    cases observe <;> exact ⟨rfl, rfl⟩

/-- Data published at 2 for 5 seconds, the expiry of the topic being renewed at 3: at 4, the
    data is read, with 3 seconds left. -/
theorem read_last_publish_example :
    ∃ b pdu, execRun step (boot false true) [.create "ps" "<a>;ct=0" none 1,
        .publish "ps/a" 0 "x" (some 5) 2, .create "ps" "<a>;ct=0" (some 60) 3] = .ok b ∧
      step b (.request (CStr.lit "ps/a") .get
        { options := [⟨coapOptionContentType, []⟩], payload := none } [] [] 4) =
        .ok (b, { response := some pdu }) ∧
      pdu.code = coapResponseCode 205 ∧ pdu.data = ascii "x" ∧
      pdu.number coapOptionMaxage = some 3 := by
  -- the run, with the resource of the topic and the last publish
  obtain ⟨tr, b, hexec, ⟨r, hr, huri, hhandler, hattr⟩, hlast⟩ :
      ∃ tr b, execTrace step (boot false true) [.create "ps" "<a>;ct=0" none 1,
        .publish "ps/a" 0 "x" (some 5) 2, .create "ps" "<a>;ct=0" (some 60) 3] = .ok (tr, b) ∧
      (∃ r ∈ b.resources, r.uri = CStr.lit "ps/a" ∧ r.handler = topicHandlers ∧
        r.findAttr ctName = some ⟨ctName, CStr.lit "0", 3⟩) ∧
      lastPut (CStr.lit "ps/a") tr = some ({
        options := [⟨coapOptionContentType, []⟩, ⟨coapOptionMaxage, [5]⟩]
        payload := some (ascii "x") }, 2) := ⟨_, _, rfl, by decide, by decide⟩
  obtain ⟨hrun, hev⟩ := Run.nil.of_execTrace hexec
  have hclock : Clocked (tr.map Transition.ev) 3 := by
    rw [hev]
    have h₁ := @Clocked.snoc [] (.create "ps" "<a>;ct=0" none 1) 1 1 .nil le_rfl
      ⟨le_rfl, le_rfl⟩
    have h₂ := @Clocked.snoc _ (.publish "ps/a" 0 "x" (some 5) 2) 1 2 h₁ one_le_two
      ⟨one_le_two, le_rfl⟩
    exact @Clocked.snoc _ (.create "ps" "<a>;ct=0" (some 60) 3) 2 3 h₂ (by decide)
      ⟨by decide, le_rfl⟩
  have hplain : ∀ x ∈ tr, PlainStep x := by
    intro x hx
    have hmem : x.ev ∈ tr.map Transition.ev := List.mem_map_of_mem hx
    rw [hev] at hmem
    simp only [List.mem_cons, List.not_mem_nil, or_false] at hmem
    rcases hmem with h | h | h <;> rw [PlainStep, h]
    · trivial
    · exact fun _ => (by decide : (0 : Byte) ∉ ascii "x")
    · trivial
  have hopt : ({ options := [⟨coapOptionContentType, []⟩], payload := none } : Request).firstOption
      coapOptionContentType = some 0 := rfl
  obtain ⟨pdu, hstep, hfresh, -⟩ := read_last_publish true hrun hclock (t := 4) (by decide)
    hplain hr hhandler hattr hopt (by decide) [] []
  rw [huri] at hstep hfresh
  obtain ⟨hcode, hdata, -, hmaxage⟩ := hfresh _ _ hlast
    ⟨by decide, fun v hv => by cases hv; decide⟩
  refine ⟨b, pdu, ?_, hstep, hcode, hdata, hmaxage⟩
  rw [execRun, hexec]
  rfl

/-- Data published at 0 with a `Max-Age` of 0 has expired at 1, but is read, without `Max-Age`. -/
theorem read_expiry_zero :
    ∃ tr b put pdu, execTrace step (boot false false) [.create "ps" "<a>;ct=0" none 0,
        .publish "ps/a" 0 "x" (some 0) 0] = .ok (tr, b) ∧
      lastPut (CStr.lit "ps/a") tr = some (put, 0) ∧ put.firstOption coapOptionMaxage = some 0 ∧
      step b (.read "ps/a" 1) = .ok (b, { response := some pdu }) ∧
      pdu.code = coapResponseCode 205 ∧ pdu.data = ascii "x" ∧
      pdu.number coapOptionMaxage = none :=
  ⟨_, _, _, _, rfl, rfl, rfl, rfl, rfl, rfl, rfl⟩

end CoapBroker
