import CoapBroker.Cpp.Effect
import CoapBroker.System.Agreement

/-!
# `Max-Age` in the two brokers

The C broker reads the value of `Max-Age` as an `unsigned int` and adds it to the time. In the
C++ broker `decode_value` makes an `int` of it: from 2^31 on, the value is negative, data is
published with an expiry in the past, and topics are created that never expire.

Both brokers are right, and agree, exactly for the smaller values for which the sum is a time
that is not taken for none (`max_age_stored_iff`).
-/

namespace CoapBroker

/-! ## Expiries -/

/-- A 64-bit `time_t`. -/
def IsTimeT (t : ℤ) : Prop := longMin ≤ t ∧ t ≤ longMax

/-- The expiry of data that is published with `Max-Age` `v`. -/
structure DataMaxAge (v : ℕ) (now dataMa : ℤ) : Prop where
  eq : dataMa = now + v
  isTimeT : IsTimeT dataMa
  le : now ≤ dataMa

/-- The expiry of a topic that is created, or renewed, with `Max-Age` `v`. -/
structure TopicMaxAge (v : ℕ) (now topicMa : ℤ) : Prop where
  eq : topicMa = if 1 ≤ v then now + v else 0
  isTimeT : IsTimeT topicMa
  le : topicMa ≠ 0 → now ≤ topicMa
  unlimited : topicMa = 0 → v = 0

theorem dataMaxAge_add_iff {v : ℕ} {now : ℤ} (hnow : IsTimeT now) :
    DataMaxAge v now (now + v) ↔ now + v ≤ longMax := by
  refine ⟨fun h => h.isTimeT.2, fun h => ⟨rfl, ⟨?_, h⟩, by omega⟩⟩
  have hmin := hnow.1
  omega

theorem topicMaxAge_zero_iff {v : ℕ} {now : ℤ} : TopicMaxAge v now 0 ↔ v = 0 := by
  refine ⟨fun h => h.unlimited rfl, ?_⟩
  rintro rfl
  refine ⟨rfl, ?_, fun h => absurd rfl h, fun _ => rfl⟩
  rw [IsTimeT, longMin, longMax]
  omega

theorem topicMaxAge_add_iff {v : ℕ} {now : ℤ} (hnow : IsTimeT now) (hv : 1 ≤ v) :
    TopicMaxAge v now (now + v) ↔ now + v ≤ longMax ∧ now + v ≠ 0 := by
  constructor
  · intro h
    exact ⟨h.isTimeT.2, fun h0 => absurd (h.unlimited h0) (by omega)⟩
  · rintro ⟨hmax, hne⟩
    have hmin := hnow.1
    exact ⟨(if_pos hv).symm, ⟨by omega, hmax⟩, fun _ => by omega, fun h0 => absurd h0 hne⟩

/-! ## What the C broker stores -/

section

variable {b b' : Broker} (hb : Agreement b) {uri : CStr} {req : Request} {peer : CoapAddress}
  {token : List Byte} {now : ℤ} {out : Output}
include hb

/-- Publishing stores the expiry of the data. -/
theorem put_stores (hstep : step b (.request uri .put req peer token now) = .ok (b', out))
    (hcode : out.code = some (coapResponseCode 204)) :
    ∃ t, b'.topicDB.getTopic uri = some t ∧ t.dataMa = dataExpiry req now := by
  rcases step_put_cases hb hstep with
    ⟨-, hne⟩ | ⟨target, ct, t, observe, ns, -, -, -, -, ht, rfl, -⟩
  · exact absurd hcode hne
  · exact ⟨_, TopicDB.cloneTopic_updateTopicData ht _ _ _, rfl⟩

/-- Creating a topic, or renewing its expiry, stores the expiry of the topic. -/
theorem post_stores (hstep : step b (.request uri .post req peer token now) = .ok (b', out))
    (hcode : out.code = some (coapResponseCode 201) ∨ out.code = some (coapResponseCode 403)) :
    ∃ target r t, b.find uri = some target ∧ Creates target req r ∧
      b'.topicDB.getTopic r.uri = some t ∧ t.topicMa = topicExpiry req now := by
  rcases step_post_cases hb hstep with
    ⟨-, h201, h403⟩ | ⟨target, r, hfind, -, hr, ⟨hmem, heq⟩ | ⟨hnot, heq⟩⟩
  · exact absurd hcode (not_or.2 ⟨h201, h403⟩)
  · obtain ⟨p, -, -, huri⟩ := hr.uri_eq
    obtain ⟨t, ht⟩ := Option.isSome_iff_exists.1
      (TopicDB.getTopic_isSome.2 ((hb.mem_uris_iff (huri ▸ by simp)).1 hmem))
    have hfound : Keyed.find TopicData.path b.topicDB r.uri = some t := ht
    refine ⟨target, r, { t with data := TopicDB.normData t.data, topicMa := topicExpiry req now },
      hfind, hr, ?_, rfl⟩
    cases heq
    change Keyed.find TopicData.path (b.topicDB.updateTopicInfo r.uri _).1 r.uri = _
    rw [TopicDB.updateTopicInfo_fst]
    refine (Keyed.find_modify (f := fun t : TopicData =>
      { t with data := TopicDB.normData t.data, topicMa := topicExpiry req now })
      fun _ => rfl).trans ?_
    rw [if_pos rfl, hfound, Option.map_some]
  · have hpath : r.uri ∉ b.topicDB.paths := fun h => hnot (hb.uri_mem h)
    refine ⟨target, r, { path := r.uri, data := none, topicMa := topicExpiry req now, dataMa := 0 },
      hfind, hr, ?_, rfl⟩
    cases heq
    change Keyed.find TopicData.path (b.topicDB.addTopicWEC r.uri _ _).1 r.uri = _
    rw [TopicDB.addTopicWEC_of_notMem hpath hr.length_pos]
    exact Keyed.find_append_cons hpath rfl

end

end CoapBroker

namespace CoapBroker.Cpp

/-! ## What the C++ broker stores -/

section

variable {b b' : Broker} (hb : Agreement b) {uri : CStr} {req : Request} {peer : CoapAddress}
  {token : List Byte} {now : ℤ} {out : Output}
include hb

/-- Publishing stores the expiry of the data. -/
theorem put_stores (hstep : step b (.request uri .put req peer token now) = .ok (b', out))
    (hcode : out.code = some (coapResponseCode 204)) :
    ∃ t, b'.topicDB.getTopic uri = .ok (some t) ∧ t.dataMa = absMaValue req now := by
  rcases step_put_cases hb hstep with
    ⟨-, hne⟩ | ⟨target, n, t, observe, ns, -, -, -, -, ht, rfl, -⟩
  · exact absurd hcode hne
  · exact ⟨_, TopicDB.copyTopic_modify hb.exact (by exact fun _ => rfl) ht, rfl⟩

/-- Creating a topic, or renewing its expiry, stores the expiry of the topic. -/
theorem post_stores (hstep : step b (.request uri .post req peer token now) = .ok (b', out))
    (hcode : out.code = some (coapResponseCode 201) ∨ out.code = some (coapResponseCode 403)) :
    ∃ target lfData t, b.find uri = some target ∧ Creates target req lfData ∧
      b'.topicDB.getTopic lfData.path = .ok (some t) ∧ t.topicMa = absMa req now := by
  rcases hfind : b.find uri with _ | target
  · rw [step, hfind] at hstep
    cases hstep
    exact absurd hcode (by decide)
  rw [step_post hb hfind] at hstep
  rcases hndPostBroker_cases hb hstep with
    ⟨-, pdu, rfl, h⟩ | ⟨lfData, hlf, ⟨hmem, rfl, -⟩ | ⟨hnot, heq⟩⟩
  · rw [Output.code, Option.map_some] at hcode
    rcases h with h | h <;> rw [h] at hcode <;> exact absurd hcode (by decide)
  · obtain ⟨t, ht⟩ := Option.isSome_iff_exists.1
      (Keyed.find_isSome.2 (hb.mem_paths_of_slash hmem hlf.slash_mem))
    have hget : (b.topicDB.modify lfData.path fun t : TopicData =>
        { t with topicMa := absMa req now }).copyTopic lfData.path =
        .ok (some { t with topicMa := absMa req now }) :=
      TopicDB.copyTopic_modify hb.exact (by exact fun _ => rfl) ht
    exact ⟨target, lfData, _, rfl, hlf, hget, rfl⟩
  · have hpath : lfData.path ∉ b.topicDB.paths := fun h => hnot (hb.table.uri_mem h)
    refine ⟨target, lfData, { path := lfData.path, topicMa := absMa req now }, rfl, hlf, ?_, rfl⟩
    cases heq
    change (b.topicDB.addTopic lfData.path _).1.getTopic lfData.path = _
    rw [TopicDB.getTopic_eq (hb.exact.addTopic hlf.path_ne_empty _),
      TopicDB.addTopic_of_notMem hpath hlf.path_ne_empty]
    exact congrArg Except.ok (Keyed.find_append_cons hpath rfl)

end

/-- `decode_value` keeps the numbers below 2^31 and makes the others negative. -/
theorem toInt_eq {n : ℕ} (hn : n < 2 ^ 32) :
    toInt n = if n < 2 ^ 31 then (n : ℤ) else n - 2 ^ 32 := by
  have hbmod : toInt n = if (n : ℤ) % 4294967296 < (4294967296 + 1) / 2 then (n : ℤ) % 4294967296
      else (n : ℤ) % 4294967296 - 4294967296 := Int.bmod_def _ _
  rw [hbmod]
  split_ifs <;> omega

theorem dataMaxAge_toInt_iff {v : ℕ} {now : ℤ} (hv : v < 2 ^ 32) (hnow : IsTimeT now) :
    DataMaxAge v now (toInt v + now) ↔ v < 2 ^ 31 ∧ now + v ≤ longMax := by
  rw [toInt_eq hv]
  split_ifs with hlt
  · rw [add_comm, dataMaxAge_add_iff hnow, and_iff_right hlt]
  · exact iff_of_false (fun h => absurd h.le (by omega)) fun h => hlt h.1

theorem topicMaxAge_toInt_iff {v : ℕ} {now : ℤ} (hv : v < 2 ^ 32) (hnow : IsTimeT now) :
    TopicMaxAge v now (if toInt v < 1 then 0 else now + toInt v) ↔
      v < 2 ^ 31 ∧ (1 ≤ v → now + v ≤ longMax ∧ now + v ≠ 0) := by
  rw [toInt_eq hv]
  by_cases hlt : v < 2 ^ 31
  · rw [if_pos hlt, and_iff_right hlt]
    by_cases hv1 : 1 ≤ v
    · rw [if_neg (by omega), topicMaxAge_add_iff hnow hv1]
      exact ⟨fun h _ => h, fun h => h hv1⟩
    · rw [if_pos (by omega), topicMaxAge_zero_iff]
      exact ⟨fun _ h => absurd h hv1, fun _ => by omega⟩
  · rw [if_neg hlt, if_pos (by omega), topicMaxAge_zero_iff]
    exact ⟨fun h => absurd h (by omega), fun h => absurd h.1 hlt⟩

/-! ## Both brokers -/

/-- In all reachable states of the two brokers, a request with `Max-Age` `v` at the time `now`
    that both accept makes both store the right expiry exactly if `v` is below 2^31 and the sum
    is a time; for topics, it must not be 0 either, which stands for no expiry. -/
theorem max_age_stored_iff {mqttBridge rdServer : Bool} {b : CoapBroker.Broker} {c : Broker}
    (hb : Reachable CoapBroker.step (CoapBroker.boot mqttBridge rdServer) b)
    (hc : Reachable step boot c) {req : Request} {v : ℕ}
    (hv : req.firstOption coapOptionMaxage = some v) {now : ℤ} (hnow : IsTimeT now) (uri : CStr)
    (peer : CoapAddress) (token : List Byte) :
    (∀ b' c' out out', CoapBroker.step b (.request uri .put req peer token now) = .ok (b', out) →
      step c (.request uri .put req peer token now) = .ok (c', out') →
      out.code = some (coapResponseCode 204) → out'.code = some (coapResponseCode 204) →
      ∃ t t', b'.topicDB.getTopic uri = some t ∧ c'.topicDB.getTopic uri = .ok (some t') ∧
        (DataMaxAge v now t.dataMa ∧ DataMaxAge v now t'.dataMa ↔
          v < 2 ^ 31 ∧ now + v ≤ longMax)) ∧
    (∀ b' c' out out', CoapBroker.step b (.request uri .post req peer token now) = .ok (b', out) →
      step c (.request uri .post req peer token now) = .ok (c', out') →
      (out.code = some (coapResponseCode 201) ∨ out.code = some (coapResponseCode 403)) →
      (out'.code = some (coapResponseCode 201) ∨ out'.code = some (coapResponseCode 403)) →
      ∃ target r t target' lfData t', b.find uri = some target ∧
        CoapBroker.Creates target req r ∧ b'.topicDB.getTopic r.uri = some t ∧
        c.find uri = some target' ∧ Creates target' req lfData ∧
        c'.topicDB.getTopic lfData.path = .ok (some t') ∧
        (TopicMaxAge v now t.topicMa ∧ TopicMaxAge v now t'.topicMa ↔
          v < 2 ^ 31 ∧ (1 ≤ v → now + v ≤ longMax ∧ now + v ≠ 0))) := by
  -- the condition of the C broker is a part of that of the C++ broker, which converts to int
  have hlt := Request.firstOption_lt hv
  constructor
  · intro b' c' out out' hstep hstep' hcode hcode'
    obtain ⟨t, ht, hma⟩ := CoapBroker.put_stores hb.agreement hstep hcode
    obtain ⟨t', ht', hma'⟩ := put_stores (Reachable.agreement hc) hstep' hcode'
    refine ⟨t, t', ht, ht', ?_⟩
    have hdata : dataExpiry req now = now + v := by
      rw [dataExpiry, hv]
      exact add_comm _ _
    have hdata' : absMaValue req now = toInt v + now := by rw [absMaValue, hv]
    rw [hma, hma', hdata, hdata', dataMaxAge_add_iff hnow, dataMaxAge_toInt_iff hlt hnow]
    exact and_iff_right_of_imp And.right
  · intro b' c' out out' hstep hstep' hcode hcode'
    obtain ⟨target, r, t, hfind, hr, ht, hma⟩ := CoapBroker.post_stores hb.agreement hstep hcode
    obtain ⟨target', lfData, t', hfind', hlf, ht', hma'⟩ :=
      post_stores (Reachable.agreement hc) hstep' hcode'
    refine ⟨target, r, t, target', lfData, t', hfind, hr, ht, hfind', hlf, ht', ?_⟩
    have htopic : topicExpiry req now = if v < 1 then 0 else now + v := by
      rw [topicExpiry, hv]
    have htopic' : absMa req now = if toInt v < 1 then 0 else now + toInt v := by
      rw [absMa, hv]
    rw [hma, hma', htopic, htopic', topicMaxAge_toInt_iff hlt hnow]
    refine and_iff_right_of_imp fun h => ?_
    split_ifs with hv1
    · exact topicMaxAge_zero_iff.2 (by omega)
    · exact (topicMaxAge_add_iff hnow (not_lt.1 hv1)).2 (h.2 (not_lt.1 hv1))

/-- A request with `Max-Age` `v`, in the content format `ct`. -/
def maxAgeRequest (ct v : ℕ) (payload : String) : Request where
  options := [⟨coapOptionContentType, coapEncodeVarBytes ct⟩,
    ⟨coapOptionMaxage, coapEncodeVarBytes v⟩]
  payload := some (ascii payload)

/-- Data published with `Max-Age` 60. -/
theorem max_age_stored_minute :
    ∃ b b' c c' out out' t t', execRun CoapBroker.step (CoapBroker.boot false false)
        [.create "ps" "<a>;ct=0" none 1] = .ok b ∧
      execRun step boot [.create "ps" "<a>;ct=0" 1] = .ok c ∧
      CoapBroker.step b (.request (CStr.lit "ps/a") .put (maxAgeRequest 0 60 "x") [] [] 2) =
        .ok (b', out) ∧
      step c (.request (CStr.lit "ps/a") .put (maxAgeRequest 0 60 "x") [] [] 2) =
        .ok (c', out') ∧
      b'.topicDB.getTopic (CStr.lit "ps/a") = some t ∧
      c'.topicDB.getTopic (CStr.lit "ps/a") = .ok (some t') ∧
      DataMaxAge 60 2 t.dataMa ∧ DataMaxAge 60 2 t'.dataMa := by
  obtain ⟨b, b', out, hb, hput, hcode⟩ : ∃ b b' out,
      execRun CoapBroker.step (CoapBroker.boot false false)
        [.create "ps" "<a>;ct=0" none 1] = .ok b ∧
      CoapBroker.step b (.request (CStr.lit "ps/a") .put (maxAgeRequest 0 60 "x") [] [] 2) =
        .ok (b', out) ∧ out.code = some (coapResponseCode 204) := ⟨_, _, _, rfl, rfl, rfl⟩
  obtain ⟨c, c', out', hc, hput', hcode'⟩ : ∃ c c' out',
      execRun step boot [.create "ps" "<a>;ct=0" 1] = .ok c ∧
      step c (.request (CStr.lit "ps/a") .put (maxAgeRequest 0 60 "x") [] [] 2) =
        .ok (c', out') ∧ out'.code = some (coapResponseCode 204) := ⟨_, _, _, rfl, rfl, rfl⟩
  have hnow : IsTimeT 2 := by
    rw [IsTimeT, longMin, longMax]
    omega
  have hv : (maxAgeRequest 0 60 "x").firstOption coapOptionMaxage = some 60 := by decide
  obtain ⟨t, t', ht, ht', hiff⟩ := (max_age_stored_iff (Reachable.init.of_execRun hb)
    (Reachable.init.of_execRun hc) hv hnow (CStr.lit "ps/a") [] []).1 b' c' out out' hput hput'
    hcode hcode'
  exact ⟨b, b', c, c', out, out', t, t', hb, hc, hput, hput', ht, ht', hiff.2 (by decide)⟩

/-- With `Max-Age` 2^31, the C++ broker publishes data that has expired long ago, and creates a
    topic that never expires. -/
theorem max_age_negative :
    (∃ c out, execRun step boot [.create "ps" "<a>;ct=0" 1, .request (CStr.lit "ps/a") .put
        (maxAgeRequest 0 (2 ^ 31) "x") [] [] 2] = .ok c ∧
      step c (.request (CStr.lit "ps/a") .get (maxAgeRequest 0 0 "") [] [] 2) = .ok (c, out) ∧
      out.code = some (coapResponseCode 204) ∧ c.topicDB.nodes.map TopicData.dataMa = [2 - 2 ^ 31] ∧
      ¬DataMaxAge (2 ^ 31) 2 (2 - 2 ^ 31)) ∧
    (∃ c, execRun step boot [.request brokerPath .post
        (maxAgeRequest coapMediatypeApplicationLinkFormat (2 ^ 31) "<a>;ct=0") [] [] 2] = .ok c ∧
      c.topicDB.nodes.map TopicData.topicMa = [0] ∧ ¬TopicMaxAge (2 ^ 31) 2 0) := by
  refine ⟨⟨_, _, rfl, rfl, by decide, by decide, fun h => absurd h.le (by decide)⟩,
    ⟨_, rfl, by decide, fun h => absurd (h.unlimited rfl) (by decide)⟩⟩

end CoapBroker.Cpp
