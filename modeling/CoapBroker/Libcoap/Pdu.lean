import CoapBroker.Lib.CStr

/-!
# Messages

What the broker sees of a CoAP message: the options of a request, in the order
of the message, and its payload; and the response it builds, with the code, and the
options and the data that it adds. How much of them there is room for in a message is
not decided here, but when a message is made of the response, with a token
(`CoapBroker.Libcoap.Transmit`, `CoapBroker.Libcoap.Exchange`).

A number travels in an option as at most four bytes, without leading zeros;
decoding undoes encoding on 32-bit numbers (`coapDecodeVarBytes_encode`).
-/

namespace CoapBroker

/-! ## Options -/

def coapOptionObserve : ℕ := 6
def coapOptionLocationPath : ℕ := 8
def coapOptionUriPath : ℕ := 11
def coapOptionContentType : ℕ := 12
def coapOptionMaxage : ℕ := 14
def coapOptionUriQuery : ℕ := 15
def coapOptionBlock2 : ℕ := 23

def coapMediatypeTextPlain : ℕ := 0
def coapMediatypeApplicationLinkFormat : ℕ := 40

/-- An option of a message: its number and its value. -/
structure CoapOption where
  type : ℕ
  value : List Byte
  deriving DecidableEq

/-- Decoding a number, on 32-bit `unsigned int`. -/
def coapDecodeVarBytes (buf : List Byte) : ℕ :=
  buf.foldl (fun n b => (n * 2 ^ 8 + b.toNat) % 2 ^ 32) 0

/-- Writing the bytes of `val`, the lowest one last, at most `n` of them and none
    once `val` is exhausted. -/
def encodeBytes : ℕ → ℕ → List Byte → List Byte
  | 0, _, buf => buf
  | n + 1, val, buf =>
    if val = 0 then buf else encodeBytes n (val / 2 ^ 8) (UInt8.ofNat (val % 2 ^ 8) :: buf)

/-- Encoding an `unsigned int`: as many bytes as the value needs, up to four. -/
def coapEncodeVarBytes (val : ℕ) : List Byte := encodeBytes 4 (val % 2 ^ 32) []

theorem foldl_encodeBytes (n val : ℕ) (hval : val < 2 ^ (8 * n)) (h32 : val < 2 ^ 32)
    (buf : List Byte) :
    (encodeBytes n val buf).foldl (fun n b => (n * 2 ^ 8 + b.toNat) % 2 ^ 32) 0 =
      buf.foldl (fun n b => (n * 2 ^ 8 + b.toNat) % 2 ^ 32) val := by
  induction n generalizing val buf with
  | zero =>
    have : val = 0 := by omega
    simp [encodeBytes, this]
  | succ n ih =>
    by_cases h0 : val = 0
    · simp [encodeBytes, h0]
    · have hdiv : val / 2 ^ 8 < 2 ^ (8 * n) := by
        rw [Nat.div_lt_iff_lt_mul (by norm_num), ← pow_add]
        exact hval
      rw [encodeBytes, if_neg h0, ih _ hdiv (by omega)]
      have hbyte : (UInt8.ofNat (val % 2 ^ 8)).toNat = val % 2 ^ 8 := by simp
      rw [List.foldl_cons, hbyte]
      congr 1
      omega

/-- Decoding undoes encoding, on 32-bit numbers. -/
theorem coapDecodeVarBytes_encode {val : ℕ} (h : val < 2 ^ 32) :
    coapDecodeVarBytes (coapEncodeVarBytes val) = val := by
  rw [coapDecodeVarBytes, coapEncodeVarBytes, Nat.mod_eq_of_lt h,
    foldl_encodeBytes 4 val (by omega) h, List.foldl_nil]

theorem le_length_encodeBytes (n val : ℕ) (buf : List Byte) :
    buf.length ≤ (encodeBytes n val buf).length := by
  induction n generalizing val buf with
  | zero => exact le_rfl
  | succ n ih =>
    rw [encodeBytes]
    split_ifs
    · exact le_rfl
    · exact (Nat.le_succ _).trans (ih _ (UInt8.ofNat (val % 2 ^ 8) :: buf))

/-- A number needs at most `k` bytes exactly if it is below `2 ^ (8 * k)`. -/
theorem length_encodeBytes_le_iff {n k val : ℕ} (hval : val < 2 ^ (8 * n)) (buf : List Byte) :
    (encodeBytes n val buf).length ≤ k + buf.length ↔ val < 2 ^ (8 * k) := by
  induction n generalizing k val buf with
  | zero =>
    have h0 : val = 0 := by omega
    rw [encodeBytes, h0]
    exact iff_of_true (Nat.le_add_left _ _) (Nat.two_pow_pos _)
  | succ n ih =>
    by_cases h0 : val = 0
    · rw [encodeBytes, if_pos h0, h0]
      exact iff_of_true (Nat.le_add_left _ _) (Nat.two_pow_pos _)
    · have hdiv : val / 2 ^ 8 < 2 ^ (8 * n) := by
        rw [Nat.div_lt_iff_lt_mul (by norm_num), ← pow_add]
        exact hval
      rw [encodeBytes, if_neg h0]
      rcases k with _ | k
      · -- one byte is written at least
        have hlong := le_length_encodeBytes n (val / 2 ^ 8) (UInt8.ofNat (val % 2 ^ 8) :: buf)
        rw [List.length_cons] at hlong
        exact iff_of_false (by omega) (by omega)
      · have hbuf : k + 1 + buf.length = k + (UInt8.ofNat (val % 2 ^ 8) :: buf).length := by
          rw [List.length_cons]
          omega
        rw [hbuf, ih hdiv (UInt8.ofNat (val % 2 ^ 8) :: buf),
          Nat.div_lt_iff_lt_mul (by norm_num), ← pow_add]
        rfl

theorem length_coapEncodeVarBytes_le_iff {k val : ℕ} :
    (coapEncodeVarBytes val).length ≤ k ↔ val % 2 ^ 32 < 2 ^ (8 * k) := by
  have h := @length_encodeBytes_le_iff 4 k (val % 2 ^ 32) (Nat.mod_lt _ (by norm_num)) []
  rwa [List.length_nil, Nat.add_zero] at h

/-- What is decoded is a 32-bit number. -/
theorem coapDecodeVarBytes_lt (buf : List Byte) : coapDecodeVarBytes buf < 2 ^ 32 := by
  rw [coapDecodeVarBytes]
  rcases List.eq_nil_or_concat' buf with rfl | ⟨s, b, rfl⟩
  · norm_num
  · rw [List.foldl_append, List.foldl_cons, List.foldl_nil]
    exact Nat.mod_lt _ (by norm_num)

/-! ## Requests -/

/-- A request: its options and its payload (`NULL` when there is none). -/
structure Request where
  options : List CoapOption
  payload : Option (List Byte)
  deriving DecidableEq

namespace Request

/-- The data of a request (`coap_get_data`): of size `0` when there is none. -/
def data (req : Request) : List Byte := req.payload.getD []

/-- The number in the first option of a type, as the handlers read it in their
    loops over the options: later options of the same type are skipped. -/
def firstOption (req : Request) (type : ℕ) : Option ℕ :=
  (req.options.find? fun o => o.type = type).map fun o => coapDecodeVarBytes o.value

/-- The values of the `Uri-Path` options, in order. -/
def uriPath (req : Request) : List (List Byte) :=
  (req.options.filter fun o => o.type = coapOptionUriPath).map CoapOption.value

theorem firstOption_lt {req : Request} {type n : ℕ} (h : req.firstOption type = some n) :
    n < 2 ^ 32 := by
  obtain ⟨o, -, rfl⟩ := Option.map_eq_some_iff.1 h
  exact coapDecodeVarBytes_lt o.value

end Request

/-! ## Responses -/

/-- The code of a response, `n` being its decimal form (e.g., `404`). -/
def coapResponseCode (n : ℕ) : ℕ := (n / 100) <<< 5 ||| n % 100

/-- The phrases of the response codes. -/
def coapError : List (ℕ × String) :=
  [(201, "Created"), (202, "Deleted"), (203, "Valid"), (204, "Changed"), (205, "Content"),
    (231, "Continue"), (400, "Bad Request"), (401, "Unauthorized"), (402, "Bad Option"),
    (403, "Forbidden"), (404, "Not Found"), (405, "Method Not Allowed"),
    (406, "Not Acceptable"), (408, "Request Entity Incomplete"), (412, "Precondition Failed"),
    (413, "Request Entity Too Large"), (415, "Unsupported Content-Format"),
    (500, "Internal Server Error"), (501, "Not Implemented"), (502, "Bad Gateway"),
    (503, "Service Unavailable"), (504, "Gateway Timeout"), (505, "Proxying Not Supported")]

/-- The phrase of a response code (empty for an unknown code). -/
def coapResponsePhrase (code : ℕ) : List Byte :=
  ((coapError.find? fun e => coapResponseCode e.1 = code).map fun e => ascii e.2).getD []

/-- A response. -/
structure Pdu where
  code : ℕ := 0
  options : List CoapOption := []
  data : List Byte := []
  deriving DecidableEq

namespace Pdu

/-- The greatest option number so far. -/
def maxDelta (pdu : Pdu) : ℕ := (pdu.options.getLast?.map CoapOption.type).getD 0

/-- `coap_add_option`: an option numbered below the last one is rejected. -/
def addOption (pdu : Pdu) (type : ℕ) (value : List Byte) : Pdu :=
  if type < pdu.maxDelta then pdu else { pdu with options := pdu.options ++ [⟨type, value⟩] }

/-- `coap_add_data`. -/
def addData (pdu : Pdu) (data : List Byte) : Pdu := { pdu with data := data }

/-- Setting the code. -/
def setCode (pdu : Pdu) (n : ℕ) : Pdu := { pdu with code := coapResponseCode n }

/-- Setting the code, with its phrase for data. -/
def respond (pdu : Pdu) (n : ℕ) : Pdu :=
  (pdu.setCode n).addData (coapResponsePhrase (coapResponseCode n))

/-- The number in the first option of a type. -/
def number (pdu : Pdu) (type : ℕ) : Option ℕ :=
  (pdu.options.find? fun o => o.type = type).map fun o => coapDecodeVarBytes o.value

@[simp] theorem code_respond (pdu : Pdu) (n : ℕ) : (pdu.respond n).code = coapResponseCode n := rfl
@[simp] theorem code_setCode (pdu : Pdu) (n : ℕ) : (pdu.setCode n).code = coapResponseCode n := rfl
@[simp] theorem code_addData (pdu : Pdu) (d : List Byte) : (pdu.addData d).code = pdu.code := rfl
@[simp] theorem data_addData (pdu : Pdu) (d : List Byte) : (pdu.addData d).data = d := rfl

@[simp] theorem code_addOption (pdu : Pdu) (t : ℕ) (v : List Byte) :
    (pdu.addOption t v).code = pdu.code := by
  rw [addOption]; split <;> rfl

end Pdu

end CoapBroker
