import CoapBroker.Lib.DeltaCode
import CoapBroker.Lib.Run
import CoapBroker.Libcoap.Exchange

/-!
# The send queue

The confirmable messages that wait for an acknowledgement, with the times at which they are due to
be sent again. The queue is kept in the order of these times; a message has the time that is left
after the one before it is due, the first one the time after `sendqueue_basetime`. Messages are put
in by `coap_send_confirmed`. One is taken out when an acknowledgement or a reset arrives
(`coap_remove_from_queue`), or all those to a peer with a token are
(`coap_cancel_all_messages`). Without the times, this is the queue of `CoapBroker.Libcoap.Exchange`
(`messages_send`, `messages_remove`, `messages_cancel`): what a server does to its messages when a
datagram arrives, it does to the queue (`coapHandleMessage_queue`).

What is due when is kept beside the queue, as a list with the times themselves (`dueStep`). The
queue agrees with it until `coap_cancel_all_messages` takes out a message that another one relies
on, as it does not make up for the time that is dropped (`due_times_kept_iff`).

The broker leaves it at that: nothing in its main loop sends the messages again that are due. A tick
is a millisecond, and the clock does not go back; its 64 bits do not overflow.
-/

namespace CoapBroker

/-! ## Timeouts -/

def fracBits : ℕ := 6
def maxBits : ℕ := 8
def coapTicksPerSecond : ℕ := 1000

/-- `Q`, of the fraction `num / den`. -/
def fixedPoint (frac num den : ℕ) : ℕ := (1 <<< frac) * num / den

/-- `SHR_FP`: rounding while shifting. -/
def shrFp (val frac : ℕ) : ℕ := (val + 1 <<< (frac - 1)) >>> frac

/-- `ACK_RANDOM_FACTOR`, which is 1.5. -/
def ackRandomFactor : ℕ := fixedPoint fracBits 3 2

/-- `ACK_TIMEOUT`, which is 2. -/
def ackTimeout : ℕ := fixedPoint fracBits 2 1

/-- `calc_timeout`, from a random byte. -/
def calcTimeout (r : Byte) : ℕ :=
  let result := shrFp ((ackRandomFactor - fixedPoint fracBits 1 1) * r.toNat) maxBits
  let result := shrFp ((result + fixedPoint fracBits 1 1) * ackTimeout) fracBits
  shrFp (coapTicksPerSecond * result) fracBits

/-- A message is due after 2 to 3 seconds. -/
theorem calcTimeout_bounds (r : Byte) : 2000 ≤ calcTimeout r ∧ calcTimeout r ≤ 3000 := by
  have hr := r.toNat_lt
  have hfactor : ackRandomFactor - fixedPoint fracBits 1 1 = 32 := rfl
  have htimeout : ackTimeout = 128 := rfl
  have hone : fixedPoint fracBits 1 1 = 64 := rfl
  rw [calcTimeout, hfactor, htimeout, hone]
  simp only [shrFp, fracBits, maxBits, coapTicksPerSecond, Nat.shiftRight_eq_div_pow,
    Nat.shiftLeft_eq]
  omega

/-! ## The queue -/

/-- `sendqueue` and `sendqueue_basetime`. -/
structure SendQueue where
  basetime : ℕ := 0
  nodes : List (ℕ × Sent) := []
  deriving DecidableEq

namespace SendQueue

variable (q : SendQueue)

/-- `coap_insert_node`. -/
def coapInsertNode (t : ℕ) (sent : Sent) : SendQueue :=
  { q with nodes := insertDelta t sent q.nodes }

/-- The part of `coap_send_confirmed` that puts a message into the queue, at the time `now`. -/
def coapSendConfirmed (now : ℕ) (r : Byte) (sent : Sent) : SendQueue :=
  if q.nodes = [] then { basetime := now, nodes := [(calcTimeout r, sent)] }
  else q.coapInsertNode ((now - q.basetime) + calcTimeout r) sent

/-- `coap_remove_from_queue`: the first message of a transaction. -/
def coapRemoveFromQueue (id : ℕ) : SendQueue × Option Sent :=
  ({ q with nodes := removeDelta (fun sent => sent.id = id) q.nodes },
    (q.nodes.find? fun x => x.2.id = id).map Prod.snd)

/-- `coap_cancel_all_messages`. -/
def coapCancelAllMessages (dst : CoapAddress) (token : List Byte) : SendQueue :=
  { q with nodes := q.nodes.filter fun x => ¬(x.2.remote = dst ∧ x.2.token = token) }

/-- The messages, without their times. -/
def messages : List Sent := q.nodes.map Prod.snd

/-- When each message is due. -/
def due : List (ℕ × Sent) := absolute q.basetime q.nodes

/-- Sending a message, without the times: it waits behind some of the others. -/
theorem messages_send (now : ℕ) (r : Byte) (sent : Sent) :
    ∃ place, (q.coapSendConfirmed now r sent).messages = putBehind q.messages place sent := by
  rw [coapSendConfirmed]
  by_cases hnil : q.nodes = []
  · refine ⟨0, ?_⟩
    rw [if_pos hnil, putBehind, messages, messages, hnil]
    rfl
  · rw [if_neg hnil]
    exact map_insertDelta (now - q.basetime + calcTimeout r) sent q.nodes

/-- Taking a message out, without the times. -/
theorem messages_remove (id : ℕ) :
    ((q.coapRemoveFromQueue id).1.messages, (q.coapRemoveFromQueue id).2) =
      CoapBroker.coapRemoveFromQueue q.messages id := by
  rw [CoapBroker.coapRemoveFromQueue, messages, messages, coapRemoveFromQueue, map_removeDelta,
    List.find?_map]
  rfl

/-- Cancelling messages, without the times. -/
theorem messages_cancel (dst : CoapAddress) (token : List Byte) :
    (q.coapCancelAllMessages dst token).messages =
      CoapBroker.coapCancelAllMessages q.messages dst token := by
  rw [CoapBroker.coapCancelAllMessages, messages, messages, coapCancelAllMessages, List.filter_map]
  rfl

/-! ## What is due -/

/-- What happens to the queue; `elapsed` is the time since the last message was sent. -/
inductive QueueEvent
  | send (elapsed : ℕ) (r : Byte) (sent : Sent)
  | remove (id : ℕ)
  | cancel (dst : CoapAddress) (token : List Byte)

/-- The queue at a time, and what should be due when. -/
structure Timed where
  now : ℕ
  queue : SendQueue := {}
  wanted : List (ℕ × Sent) := []

/-- The order of the times at which messages are due. -/
def Earlier (x y : ℕ × Sent) : Prop := x.1 < y.1

instance : DecidableRel Earlier := fun x y => inferInstanceAs (Decidable (x.1 < y.1))

/-- What should be due after an event at the time `now`: a message is due when its timeout is over,
    whatever becomes of the others. -/
def dueStep (now : ℕ) (wanted : List (ℕ × Sent)) : QueueEvent → List (ℕ × Sent)
  | .send _ r sent => wanted.orderedInsert Earlier (now + calcTimeout r, sent)
  | .remove id => wanted.eraseP fun x => x.2.id = id
  | .cancel dst token => wanted.filter fun x => ¬(x.2.remote = dst ∧ x.2.token = token)

/-- What becomes of the queue. -/
def queueStep (now : ℕ) (q : SendQueue) : QueueEvent → SendQueue
  | .send _ r sent => q.coapSendConfirmed now r sent
  | .remove id => (q.coapRemoveFromQueue id).1
  | .cancel dst token => q.coapCancelAllMessages dst token

/-- The time of an event. -/
def timeOf (now : ℕ) : QueueEvent → ℕ
  | .send elapsed _ _ => now + elapsed
  | _ => now

/-- What becomes of the queue in some events at one time. -/
def after (now : ℕ) (q : SendQueue) (es : List QueueEvent) : SendQueue := es.foldl (queueStep now) q

/-- A step of the queue, with what should be due beside it. -/
def timedStep (s : Timed) (e : QueueEvent) : Except Fault (Timed × Unit) :=
  let now := timeOf s.now e
  .ok (⟨now, queueStep now s.queue e, dueStep now s.wanted e⟩, ())

/-! ## The messages of a server -/

section

variable {σ ω : Type} {srv : Server σ ω} {past : Byte} {peer : CoapAddress} {pdu : CoapPdu}
  {reply : Option CoapPdu} {outs : List ω} {st : σ} {s' : σ × List Sent} {q : SendQueue}

theorem passUp_queue (now : ℕ)
    (h : passUp srv past (st, q.messages) peer pdu = .ok (s', reply, outs)) :
    ∃ es, (q.after now es).messages = s'.2 := by
  have hcancel := messages_cancel q peer pdu.token
  rw [passUp] at h
  split_ifs at h
  · obtain ⟨⟨st', reply', outs'⟩, -, heq⟩ := map_eq_ok h
    cases heq
    exact ⟨[], rfl⟩
  · -- a response ends the wait of all messages with its token
    obtain ⟨x, -, heq⟩ := map_eq_ok h
    cases heq
    exact ⟨[.cancel peer pdu.token], hcancel⟩
  · cases h
    exact ⟨[.cancel peer pdu.token], hcancel⟩
  · obtain ⟨x, -, heq⟩ := map_eq_ok h
    cases heq
    exact ⟨[], rfl⟩

theorem coapDispatch_queue (now : ℕ)
    (h : coapDispatch srv past (st, q.messages) peer pdu = .ok (s', reply, outs)) :
    ∃ es, (q.after now es).messages = s'.2 := by
  rw [coapDispatch] at h
  simp only [← messages_remove] at h
  by_cases hack : pdu.type = coapMessageAck
  · rw [if_pos hack] at h
    by_cases h0 : pdu.code = 0
    · rw [if_pos h0] at h
      cases h
      exact ⟨[.remove _], rfl⟩
    · -- the response on an acknowledgement may end the wait of others
      rw [if_neg h0] at h
      obtain ⟨es, hes⟩ := passUp_queue now h
      exact ⟨.remove (coapTransactionId peer pdu.id) :: es, hes⟩
  rw [if_neg hack] at h
  by_cases hrst : pdu.type = coapMessageRst
  · rw [if_pos hrst] at h
    split at h
    · rename_i sent heq
      cases h
      rw [coapCancel]
      dsimp only
      split_ifs
      · exact ⟨[.remove _], rfl⟩
      · exact ⟨[.remove (coapTransactionId peer pdu.id), .cancel sent.remote sent.token],
          messages_cancel _ _ _⟩
    · cases h
      exact ⟨[.remove _], rfl⟩
  rw [if_neg hrst] at h
  split_ifs at h
  · cases h
    exact ⟨[], rfl⟩
  · exact passUp_queue now h
  · obtain ⟨response, -, heq⟩ := map_eq_ok h
    cases heq
    exact ⟨[], rfl⟩
  · exact passUp_queue now h

/-- What a server does to its messages when a datagram arrives, some events do to the queue. -/
theorem coapHandleMessage_queue (now : ℕ) {msg : List Byte}
    (h : coapHandleMessage srv past (st, q.messages) peer msg = .ok (s', reply, outs)) :
    ∃ es, (q.after now es).messages = s'.2 := by
  rcases coapHandleMessage_cases h with ⟨rfl, -, -⟩ | ⟨m, pdu, -, -, -, hdispatch⟩
  · exact ⟨[], rfl⟩
  · exact coapDispatch_queue now hdispatch

end

/-! ## Due times over a run -/

variable {q}

/-- The times of the queue count from a time in the past, unless it is empty. -/
def BasedBefore (q : SendQueue) (now : ℕ) : Prop := q.nodes = [] ∨ q.basetime ≤ now

/-- A message that is sent is due when its timeout is over. -/
theorem due_send {now : ℕ} (h : q.BasedBefore now) (r : Byte) (sent : Sent) :
    (q.coapSendConfirmed now r sent).due =
      q.due.orderedInsert Earlier (now + calcTimeout r, sent) := by
  rw [coapSendConfirmed]
  -- the first message sets the base, another one counts from it
  by_cases hnil : q.nodes = []
  · rw [if_pos hnil, due, due, hnil]
    rfl
  · have hinsert := absolute_insertDelta q.basetime (now - q.basetime + calcTimeout r) sent q.nodes
    rw [← Nat.add_assoc, Nat.add_sub_cancel' (h.resolve_left hnil)] at hinsert
    rw [if_neg hnil]
    exact hinsert

theorem due_remove (id : ℕ) :
    (q.coapRemoveFromQueue id).1.due = q.due.eraseP fun x => x.2.id = id :=
  absolute_removeDelta q.basetime (fun sent : Sent => sent.id = id) q.nodes

/-- Cancelling loses no time: a message that is cancelled is due together with the one before it, or
    no message behind it is kept. The first one counts from the base. -/
def CancelsLossless (q : SendQueue) (dst : CoapAddress) (token : List Byte) : Prop :=
  Lossless (fun sent => decide ¬(sent.remote = dst ∧ sent.token = token)) q.nodes

theorem due_cancel_iff (dst : CoapAddress) (token : List Byte) :
    (q.coapCancelAllMessages dst token).due =
        q.due.filter (fun x => ¬(x.2.remote = dst ∧ x.2.token = token)) ↔
      q.CancelsLossless dst token :=
  absolute_filter_iff q.basetime
    (fun sent : Sent => decide ¬(sent.remote = dst ∧ sent.token = token)) q.nodes

theorem BasedBefore.elapse {now : ℕ} (h : q.BasedBefore now) (elapsed : ℕ) :
    q.BasedBefore (now + elapsed) :=
  h.imp_right fun hle => hle.trans (Nat.le_add_right _ _)

/-- A message that is sent sets the base of an empty queue; nothing else changes it. -/
theorem BasedBefore.queueStep {now : ℕ} (h : q.BasedBefore now) (e : QueueEvent) :
    (q.queueStep (timeOf now e) e).BasedBefore (timeOf now e) := by
  cases e with
  | send elapsed r sent =>
    right
    change (q.coapSendConfirmed (now + elapsed) r sent).basetime ≤ now + elapsed
    rw [coapSendConfirmed]
    split_ifs with hnil
    · exact le_rfl
    · exact (h.elapse elapsed).resolve_left hnil
  | remove id =>
    refine h.imp_left fun hnil => ?_
    change removeDelta _ q.nodes = []
    rw [hnil]
    rfl
  | cancel dst token =>
    refine h.imp_left fun hnil => ?_
    change q.nodes.filter _ = []
    rw [hnil]
    rfl

/-- After an event, what is due is what should be, unless a cancellation loses time. -/
theorem due_queueStep_iff {now : ℕ} (h : q.BasedBefore now) (e : QueueEvent) :
    (q.queueStep (timeOf now e) e).due = dueStep (timeOf now e) q.due e ↔
      ∀ dst token, e = .cancel dst token → q.CancelsLossless dst token := by
  -- only a cancellation can lose time
  cases e with
  | send elapsed r sent =>
    exact iff_of_true (due_send (h.elapse elapsed) r sent) fun dst token heq => by cases heq
  | remove id => exact iff_of_true (due_remove id) fun dst token heq => by cases heq
  | cancel dst token =>
    refine (due_cancel_iff dst token).trans ⟨?_, fun hall => hall dst token rfl⟩
    rintro hlossless dst' token' heq
    cases heq
    exact hlossless

/-- In a run, every message is due when its timeout is over, in each state, exactly if no
    cancellation takes out a message that is due later than the one before it (or than the base) and
    is followed by one that is kept. -/
theorem due_times_kept_iff {now : ℕ} {s : Timed} {tr : List (Transition Timed QueueEvent Unit)}
    (h : Run timedStep { now } tr s) :
    (∀ x ∈ tr, x.dst.queue.due = x.dst.wanted) ↔
      ∀ x ∈ tr, ∀ dst token, x.ev = .cancel dst token → x.src.queue.CancelsLossless dst token := by
  refine h.forall_dst_iff (I := fun s => s.queue.BasedBefore s.now)
    (P := fun s => s.queue.due = s.wanted)
    (C := fun s e => ∀ dst token, e = .cancel dst token → s.queue.CancelsLossless dst token)
    (.inl rfl) rfl fun s e o s' hbase hstep => ?_
  cases hstep
  refine ⟨hbase.queueStep e, fun hdue => ?_⟩
  rw [← due_queueStep_iff hbase e, hdue]

/-- Messages to two peers are sent, and the first of them is cancelled. -/
def cancelledEvents : List QueueEvent :=
  [.send 0 0 ⟨1, [1], [7]⟩, .send 0 255 ⟨2, [2], [7]⟩, .cancel [1] [7]]

/-- The other message is due 2 seconds too early. -/
theorem due_times_kept_cancelled :
    ∃ tr s, Run timedStep { now := 0 } tr s ∧ tr.map Transition.ev = cancelledEvents ∧
      s.queue.due = [(1000, ⟨2, [2], [7]⟩)] ∧ s.wanted = [(3000, ⟨2, [2], [7]⟩)] ∧
      ((∀ x ∈ tr, x.dst.queue.due = x.dst.wanted) ↔ ∀ x ∈ tr, ∀ dst token,
        x.ev = .cancel dst token → x.src.queue.CancelsLossless dst token) := by
  obtain ⟨tr, s, hexec, hdue, hwanted⟩ : ∃ tr s,
      execTrace timedStep { now := 0 } cancelledEvents = .ok (tr, s) ∧
      s.queue.due = [(1000, ⟨2, [2], [7]⟩)] ∧ s.wanted = [(3000, ⟨2, [2], [7]⟩)] :=
    ⟨_, _, rfl, rfl, rfl⟩
  obtain ⟨hrun, hev⟩ := Run.of_execTrace (.nil : Run timedStep { now := 0 } [] { now := 0 }) hexec
  exact ⟨tr, s, hrun, hev, hdue, hwanted, due_times_kept_iff hrun⟩

end SendQueue

end CoapBroker
