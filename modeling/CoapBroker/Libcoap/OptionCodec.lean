import CoapBroker.Lib.DeltaCode
import CoapBroker.Libcoap.Pdu

/-!
# Options on the wire

The functions of libcoap that write and read one option of a message (`option.c`). The first
byte of an option holds the difference of its number to that of the option before and the
length of its value, half a byte each; a half of 13 or 14 says that one or two further bytes
follow.

* `coapOptParse_iff`: what is accepted is exactly what the format (`encodeOption`) makes of a
  difference and a value. A difference of `2 ^ 16` or a little more is not detected; it is
  reduced.
* `coapOptEncode_eq`: what is written is what the format makes of the difference and the value
  unless one of the difference and the length is 269, the one number for which the two disagree
  on how many bytes it takes.
-/

namespace CoapBroker

/-! ## The format -/

/-- A difference or a length: its half of the first byte, and the bytes it is extended by. -/
def encodeNumber (n : ℕ) : ℕ × List Byte :=
  if n < 13 then (n, [])
  else if n < 269 then (13, [UInt8.ofNat (n - 13)])
  else (14, [UInt8.ofNat ((n - 269) / 2 ^ 8), UInt8.ofNat (n - 269)])

/-- The first bytes of an option, up to its value. -/
def encodeHeader (delta length : ℕ) : List Byte :=
  UInt8.ofNat (16 * (encodeNumber delta).1 + (encodeNumber length).1) ::
    ((encodeNumber delta).2 ++ (encodeNumber length).2)

/-- An option with the difference of its number to the one before. -/
def encodeOption (delta : ℕ) (value : List Byte) : List Byte :=
  encodeHeader delta value.length ++ value

/-! ## Reading an option -/

/-- An option as it is read (`coap_option_t`), with the size of its encoding. -/
structure ParsedOption where
  delta : ℕ
  value : List Byte
  size : ℕ
  deriving DecidableEq

/-- `ADVANCE_OPT`, one byte on unless there is none left. -/
def advanceOpt : List Byte → Option (List Byte)
  | [] => none
  | _ :: opt => some opt

/-- What a pointer points at: behind the last byte, whatever is there. -/
def byteAt (past : Byte) (opt : List Byte) : ℕ := (opt.headD past).toNat

/-- The difference, `n` being its half of the first byte. -/
def parseDelta (past : Byte) (n : ℕ) (opt : List Byte) : Option (ℕ × List Byte) :=
  match n with
  | 15 => none
  | 14 => do
    let opt ← advanceOpt opt
    let delta := (byteAt past opt <<< 8 + 269) % 2 ^ 16
    if delta < 269 then none
    else
      let opt ← advanceOpt opt
      some ((delta + byteAt past opt) % 2 ^ 16, opt)
  | 13 => do
    let opt ← advanceOpt opt
    some (13 + byteAt past opt, opt)
  | n => some (n, opt)

/-- The length, `n` being its half of the first byte. -/
def parseLength (past : Byte) (n : ℕ) (opt : List Byte) : Option (ℕ × List Byte) :=
  match n with
  | 15 => none
  | 14 => do
    let opt ← advanceOpt opt
    let length := byteAt past opt <<< 8 + 269
    let opt ← advanceOpt opt
    some (length + byteAt past opt, opt)
  | 13 => do
    let opt ← advanceOpt opt
    some (13 + byteAt past opt, opt)
  | n => some (n, opt)

/-- `coap_opt_parse`. The bytes of an extended number are read before it is found that there
    are none left. -/
def coapOptParse (past : Byte) (opt : List Byte) : Option ParsedOption :=
  if opt.length < 1 then none
  else do
    let n := (byteAt past opt &&& 0xf0) >>> 4
    let m := byteAt past opt &&& 0x0f
    let (delta, opt₁) ← parseDelta past n opt
    let (length, opt₂) ← parseLength past m opt₁
    let value ← advanceOpt opt₂
    if value.length < length then none
    else some ⟨delta, value.take length, opt.length - value.length + length⟩

/-! ## Writing an option -/

/-- A difference or a length in the first `maxlen` bytes, `skip` bytes having been written after
    the first one: its half of the first byte, and the bytes it is extended by. -/
def setNumber (maxlen skip n : ℕ) : Option (ℕ × List Byte) :=
  if n < 13 then some (n, [])
  else if n < 270 then
    if maxlen < skip + 2 then none else some (13, [UInt8.ofNat (n - 13)])
  else
    if maxlen < skip + 3 then none
    else some (14, [UInt8.ofNat ((n - 269) >>> 8 &&& 0xff), UInt8.ofNat ((n - 269) &&& 0xff)])

/-- `coap_opt_setheader`. -/
def coapOptSetheader (maxlen delta length : ℕ) : Option (List Byte) :=
  if maxlen = 0 then none
  else do
    let (n, bytes) ← setNumber maxlen 0 delta
    let (m, bytes') ← setNumber maxlen bytes.length length
    some (UInt8.ofNat (n <<< 4 ||| m) :: (bytes ++ bytes'))

/-- `coap_opt_encode`. -/
def coapOptEncode (maxlen delta : ℕ) (val : List Byte) : Option (List Byte) := do
  let header ← coapOptSetheader maxlen delta val.length
  if maxlen - header.length < val.length then none else some (header ++ val)

/-! ## Numbers -/

section

variable {past c : Byte} {n m d : ℕ} {opt l rest : List Byte}

theorem parseLength_of_lt (h : n < 13) : parseLength past n opt = some (n, opt) := by
  unfold parseLength
  split <;> first | omega | rfl

/-- A difference is read as a length is, except that one that is too large is refused or
    reduced. -/
theorem parseDelta_eq (h : n < 16) :
    parseDelta past n opt = (parseLength past n opt).bind fun x =>
      if x.1 < 65549 then some (x.1 % 2 ^ 16, x.2) else none := by
  have hbyte : ∀ l : List Byte, byteAt past l < 2 ^ 8 := fun l => UInt8.toNat_lt _
  by_cases h13 : n < 13
  · rw [parseLength_of_lt h13, Option.bind_some, if_pos (by omega), Nat.mod_eq_of_lt (by omega)]
    unfold parseDelta
    split <;> first | omega | rfl
  obtain rfl | rfl | rfl : n = 13 ∨ n = 14 ∨ n = 15 := by omega
  · rcases opt with _ | ⟨c, l⟩
    · rfl
    · have hl := hbyte l
      change some (13 + byteAt past l, l) =
        if 13 + byteAt past l < 65549 then some ((13 + byteAt past l) % 2 ^ 16, l) else none
      rw [if_pos (by omega), Nat.mod_eq_of_lt (by omega)]
  · rcases opt with _ | ⟨c, l⟩
    · rfl
    · have hl := hbyte l
      simp only [parseDelta, parseLength, advanceOpt, Option.bind_eq_bind, Option.bind_some,
        Nat.shiftLeft_eq]
      rcases l with _ | ⟨c', l⟩
      · simp
      · have hl' := hbyte l
        simp only [Option.bind_some]
        split_ifs with h1 h2 h2 <;> first | omega | rfl | skip
        · congr 2
          omega
  · rfl

/-- What the format makes of a number is read as that number, up to the last byte of it. -/
theorem parseLength_encodeNumber (h : n < 65805) :
    ∃ c', parseLength past (encodeNumber n).1 (c :: ((encodeNumber n).2 ++ rest)) =
      some (n, c' :: rest) := by
  rw [encodeNumber]
  split_ifs with h13 h269
  · exact ⟨c, parseLength_of_lt h13⟩
  · refine ⟨UInt8.ofNat (n - 13), ?_⟩
    have hbyte : (UInt8.ofNat (n - 13)).toNat = n - 13 := by
      rw [UInt8.toNat_ofNat', Nat.mod_eq_of_lt (by omega)]
    change some (13 + (UInt8.ofNat (n - 13)).toNat, _) = _
    rw [hbyte, Nat.add_sub_cancel' (by omega)]
    rfl
  · refine ⟨UInt8.ofNat (n - 269), ?_⟩
    have hhigh : (UInt8.ofNat ((n - 269) / 2 ^ 8)).toNat = (n - 269) / 2 ^ 8 := by
      rw [UInt8.toNat_ofNat', Nat.mod_eq_of_lt (by omega)]
    have hlow : (UInt8.ofNat (n - 269)).toNat = (n - 269) % 2 ^ 8 := UInt8.toNat_ofNat'
    change some ((UInt8.ofNat ((n - 269) / 2 ^ 8)).toNat <<< 8 + 269 +
      (UInt8.ofNat (n - 269)).toNat, _) = _
    rw [hhigh, hlow, Nat.shiftLeft_eq]
    refine congrArg some (Prod.ext ?_ rfl)
    dsimp only
    omega

theorem parseLength_nil (h : parseLength past m [] = some (n, opt)) : opt = [] := by
  unfold parseLength at h
  split at h
  · cases h
  · cases h
  · cases h
  · cases h
    rfl

/-- What is read as a number, up to a last byte that is there, is what the format makes of
    the number. -/
theorem parseLength_eq_encodeNumber (hm : m < 16)
    (h : parseLength past m (c :: l) = some (n, opt)) (hopt : opt ≠ []) :
    n < 65805 ∧ (encodeNumber n).1 = m ∧ l = (encodeNumber n).2 ++ opt.tail := by
  by_cases h13 : m < 13
  · rw [parseLength_of_lt h13] at h
    cases h
    rw [encodeNumber, if_pos h13]
    exact ⟨by omega, rfl, rfl⟩
  -- one byte follows, or two, or the number is refused
  obtain rfl | rfl | rfl : m = 13 ∨ m = 14 ∨ m = 15 := by omega
  · cases h
    obtain ⟨b, l, rfl⟩ := List.exists_cons_of_ne_nil hopt
    have hb : b.toNat < 256 := b.toNat_lt
    change 13 + b.toNat < _ ∧ (encodeNumber (13 + b.toNat)).1 = _ ∧
      _ = (encodeNumber (13 + b.toNat)).2 ++ _
    rw [encodeNumber, if_neg (by omega), if_pos (by omega), Nat.add_sub_cancel_left,
      UInt8.ofNat_toNat]
    exact ⟨by omega, rfl, rfl⟩
  · rcases l with _ | ⟨b, l⟩
    · cases h
    · cases h
      obtain ⟨b', l, rfl⟩ := List.exists_cons_of_ne_nil hopt
      have hb : b.toNat < 256 := b.toNat_lt
      have hb' : b'.toNat < 256 := b'.toNat_lt
      have hn : byteAt past (b :: b' :: l) <<< 8 + 269 + byteAt past (b' :: l) =
          269 + (b.toNat * 2 ^ 8 + b'.toNat) := by
        change b.toNat <<< 8 + 269 + b'.toNat = _
        rw [Nat.shiftLeft_eq]
        omega
      have hhigh : UInt8.ofNat ((b.toNat * 2 ^ 8 + b'.toNat) / 2 ^ 8) = b := by
        rw [show (b.toNat * 2 ^ 8 + b'.toNat) / 2 ^ 8 = b.toNat by omega, UInt8.ofNat_toNat]
      have hlow : UInt8.ofNat (b.toNat * 2 ^ 8 + b'.toNat) = b' :=
        UInt8.toNat_inj.1 (by rw [UInt8.toNat_ofNat']; omega)
      rw [hn, encodeNumber, if_neg (by omega), if_neg (by omega), Nat.add_sub_cancel_left, hhigh,
        hlow]
      exact ⟨by omega, rfl, rfl⟩
  · cases h

end

/-! ## Reading follows the format -/

theorem encodeNumber_fst_lt (n : ℕ) : (encodeNumber n).1 < 15 := by
  rw [encodeNumber]
  split_ifs <;> dsimp only <;> omega

/-- The halves of a byte. -/
theorem byte_halves {n m : ℕ} (hn : n < 16) (hm : m < 16) :
    ((UInt8.ofNat (16 * n + m)).toNat &&& 0xf0) >>> 4 = n ∧
      (UInt8.ofNat (16 * n + m)).toNat &&& 0x0f = m := by
  rw [UInt8.toNat_ofNat', Nat.mod_eq_of_lt (by omega), Nat.shiftRight_and_distrib,
    Nat.shiftRight_eq_div_pow, show 0xf0 >>> 4 = 2 ^ 4 - 1 from rfl, show 0x0f = 2 ^ 4 - 1 from rfl,
    Nat.and_two_pow_sub_one_eq_mod, Nat.and_two_pow_sub_one_eq_mod]
  omega

theorem byte_eq_halves (b : Byte) :
    b = UInt8.ofNat (16 * ((b.toNat &&& 0xf0) >>> 4) + (b.toNat &&& 0x0f)) ∧
      (b.toNat &&& 0xf0) >>> 4 < 16 ∧ b.toNat &&& 0x0f < 16 := by
  have hb : b.toNat < 256 := b.toNat_lt
  rw [Nat.shiftRight_and_distrib, Nat.shiftRight_eq_div_pow, show 0xf0 >>> 4 = 2 ^ 4 - 1 from rfl,
    show 0x0f = 2 ^ 4 - 1 from rfl, Nat.and_two_pow_sub_one_eq_mod, Nat.and_two_pow_sub_one_eq_mod]
  refine ⟨?_, by omega, by omega⟩
  rw [show 16 * (b.toNat / 2 ^ 4 % 2 ^ 4) + b.toNat % 2 ^ 4 = b.toNat by omega, UInt8.ofNat_toNat]

/-- What the format makes of an option is accepted, whatever comes after it. -/
theorem coapOptParse_encodeOption (past : Byte) {delta : ℕ} {value : List Byte}
    (hdelta : delta < 65549) (hlength : value.length < 65805) (rest : List Byte) :
    coapOptParse past (encodeOption delta value ++ rest) =
      some ⟨delta % 2 ^ 16, value, (encodeOption delta value).length⟩ := by
  have hn := encodeNumber_fst_lt delta
  have hm := encodeNumber_fst_lt value.length
  obtain ⟨hn', hm'⟩ := @byte_halves _ (encodeNumber value.length).1 (hn.trans (by omega))
    (hm.trans (by omega))
  rw [encodeOption, encodeHeader, coapOptParse, if_neg (by simp)]
  simp only [List.cons_append, List.append_assoc, byteAt, List.headD_cons, hn', hm']
  obtain ⟨c, hc⟩ := @parseLength_encodeNumber past (UInt8.ofNat (16 * (encodeNumber delta).1 +
    (encodeNumber value.length).1)) delta ((encodeNumber value.length).2 ++ (value ++ rest))
    (by omega)
  obtain ⟨c', hc'⟩ := @parseLength_encodeNumber past c value.length (value ++ rest) hlength
  rw [parseDelta_eq (hn.trans (by omega)), hc]
  simp only [Option.bind_eq_bind, Option.bind_some, if_pos hdelta, hc', advanceOpt]
  rw [if_neg (by simp), List.take_left]
  congr 2
  simp only [List.length_cons, List.length_append]
  omega

/-- What is accepted is what the format makes of an option, and what comes after it. -/
theorem coapOptParse_eq_some {past : Byte} {opt : List Byte} {o : ParsedOption}
    (h : coapOptParse past opt = some o) :
    ∃ delta rest, delta < 65549 ∧ o.value.length < 65805 ∧ o.delta = delta % 2 ^ 16 ∧
      opt = encodeOption delta o.value ++ rest ∧
      o.size = (encodeOption delta o.value).length := by
  rcases opt with _ | ⟨b, l⟩
  · cases h
  obtain ⟨hb, hn, hm⟩ := byte_eq_halves b
  simp only [coapOptParse, byteAt, List.headD_cons] at h
  rw [if_neg (by simp), parseDelta_eq hn] at h
  obtain ⟨⟨delta, opt₁⟩, hdelta, h⟩ := Option.bind_eq_some_iff.1 h
  obtain ⟨⟨length, opt₂⟩, hlength, h⟩ := Option.bind_eq_some_iff.1 h
  obtain ⟨value, hvalue, h⟩ := Option.bind_eq_some_iff.1 h
  obtain ⟨⟨d, opt₀⟩, hd, hred⟩ := Option.bind_eq_some_iff.1 hdelta
  dsimp only at hlength h hred
  split_ifs at hred with hlt
  cases hred
  split_ifs at h with hroom
  cases h
  -- the last byte read is there each time, as there is a byte after it
  obtain ⟨c', rfl⟩ : ∃ c', opt₂ = c' :: value := by
    rcases opt₂ with _ | ⟨c', l'⟩
    · cases hvalue
    · cases hvalue
      exact ⟨c', rfl⟩
  obtain ⟨c, l', rfl⟩ := List.exists_cons_of_ne_nil (l := opt₁) <| by
    rintro rfl
    exact List.cons_ne_nil _ _ (parseLength_nil hlength)
  obtain ⟨-, hd₁, rfl⟩ := parseLength_eq_encodeNumber hn hd (List.cons_ne_nil _ _)
  obtain ⟨hlen, hl₁, hl⟩ := parseLength_eq_encodeNumber hm hlength (List.cons_ne_nil _ _)
  rw [List.tail_cons] at hl
  have htake : (value.take length).length = length := List.length_take_of_le (by omega)
  refine ⟨d, value.drop length, hlt, by rw [htake]; exact hlen, rfl, ?_, ?_⟩
  · rw [encodeOption, encodeHeader, htake, hd₁, hl₁, ← hb, List.tail_cons, hl]
    simp only [List.cons_append, List.append_assoc, List.take_append_drop]
  · simp only [encodeOption, encodeHeader, htake, List.length_cons, List.length_append,
      List.tail_cons, hl]
    omega

/-- An option is accepted if and only if it is what the format makes of one. -/
theorem coapOptParse_iff {past : Byte} {opt : List Byte} {o : ParsedOption} :
    coapOptParse past opt = some o ↔
      ∃ delta rest, delta < 65549 ∧ o.value.length < 65805 ∧ o.delta = delta % 2 ^ 16 ∧
        opt = encodeOption delta o.value ++ rest ∧
        o.size = (encodeOption delta o.value).length := by
  constructor
  · exact coapOptParse_eq_some
  · rintro ⟨delta, rest, hdelta, hlength, hred, rfl, hsize⟩
    rw [coapOptParse_encodeOption past hdelta hlength, ← hred, ← hsize]

/-! ## Writing follows the format, except for 269 -/

/-- The number that is written for a number: 269 takes the place of 13, being taken for one that
    needs one byte. -/
def writtenNumber (n : ℕ) : ℕ := if n = 269 then 13 else n

/-- What is written for an option. -/
def writtenOption (delta : ℕ) (value : List Byte) : List Byte :=
  encodeHeader (writtenNumber delta) (writtenNumber value.length) ++ value

theorem setNumber_eq {maxlen skip n : ℕ} (hskip : skip < maxlen) (hn : n < 65805) :
    setNumber maxlen skip n =
      if maxlen < skip + 1 + (encodeNumber (writtenNumber n)).2.length then none
      else some (encodeNumber (writtenNumber n)) := by
  by_cases h269 : n = 269
  · rw [h269]
    change (if maxlen < skip + 2 then _ else _) = if maxlen < skip + 2 then _ else _
    rfl
  · rw [writtenNumber, if_neg h269, setNumber, encodeNumber]
    by_cases h13 : n < 13
    · rw [if_pos h13, if_pos h13, List.length_nil, if_neg (by omega)]
    rw [if_neg h13, if_neg h13]
    by_cases h : n < 269
    · rw [if_pos h, if_pos (by omega)]
      rfl
    · have hhigh : (n - 269) >>> 8 &&& 0xff = (n - 269) / 2 ^ 8 := by
        rw [Nat.shiftRight_eq_div_pow, show 0xff = 2 ^ 8 - 1 from rfl,
          Nat.and_two_pow_sub_one_eq_mod, Nat.mod_eq_of_lt (by omega)]
      have hlow : UInt8.ofNat ((n - 269) &&& 0xff) = UInt8.ofNat (n - 269) :=
        UInt8.toNat_inj.1 (by
          rw [show 0xff = 2 ^ 8 - 1 from rfl, Nat.and_two_pow_sub_one_eq_mod, UInt8.toNat_ofNat',
            UInt8.toNat_ofNat', Nat.mod_mod])
      rw [if_neg h, if_neg (by omega), hhigh, hlow]
      rfl

theorem coapOptSetheader_eq {maxlen delta length : ℕ} (hdelta : delta < 65805)
    (hlength : length < 65805) :
    coapOptSetheader maxlen delta length =
      if maxlen < (encodeHeader (writtenNumber delta) (writtenNumber length)).length then none
      else some (encodeHeader (writtenNumber delta) (writtenNumber length)) := by
  rw [coapOptSetheader, encodeHeader, List.length_cons, List.length_append]
  by_cases h0 : maxlen = 0
  · rw [if_pos h0, if_pos (by omega)]
  rw [if_neg h0, setNumber_eq (by omega) hdelta]
  have hm := encodeNumber_fst_lt (writtenNumber length)
  have hbyte : (encodeNumber (writtenNumber delta)).1 <<< 4 ||| (encodeNumber (writtenNumber length)).1 =
      16 * (encodeNumber (writtenNumber delta)).1 + (encodeNumber (writtenNumber length)).1 := by
    rw [Nat.shiftLeft_eq, Nat.mul_comm, show 16 = 2 ^ 4 from rfl,
      ← Nat.two_pow_add_eq_or_of_lt (hm.trans (by norm_num))]
  by_cases h1 : maxlen < 0 + 1 + (encodeNumber (writtenNumber delta)).2.length
  · rw [if_pos h1, if_pos (by omega)]
    rfl
  rw [if_neg h1]
  simp only [Option.bind_eq_bind, Option.bind_some]
  rw [setNumber_eq (by omega) hlength]
  by_cases h2 : maxlen < (encodeNumber (writtenNumber delta)).2.length + 1 +
      (encodeNumber (writtenNumber length)).2.length
  · rw [if_pos h2, if_pos (by omega)]
    rfl
  · rw [if_neg h2, if_neg (by omega), ← hbyte]
    rfl

/-- An option is written if there is room for it. -/
theorem coapOptEncode_eq {maxlen delta : ℕ} {val : List Byte} (hdelta : delta < 65805)
    (hval : val.length < 65805) :
    coapOptEncode maxlen delta val =
      if maxlen < (writtenOption delta val).length then none
      else some (writtenOption delta val) := by
  rw [coapOptEncode, coapOptSetheader_eq hdelta hval, writtenOption, List.length_append]
  split_ifs with h1 h2 h2
  · rfl
  · omega
  · simp only [Option.bind_eq_bind, Option.bind_some]
    rw [if_pos (by omega)]
  · simp only [Option.bind_eq_bind, Option.bind_some]
    rw [if_neg (by omega)]

theorem writtenOption_eq {delta : ℕ} {value : List Byte} (hdelta : delta ≠ 269)
    (hvalue : value.length ≠ 269) : writtenOption delta value = encodeOption delta value := by
  rw [writtenOption, writtenNumber, writtenNumber, if_neg hdelta, if_neg hvalue, encodeOption]

/-- What is written for an option is read as an option with the number and the length that are
    written: the bytes of the value after that many are left. -/
theorem coapOptParse_writtenOption (past : Byte) {delta : ℕ} {value : List Byte}
    (hdelta : delta < 65549) (hvalue : value.length < 65805) (rest : List Byte) :
    ∃ size, coapOptParse past (writtenOption delta value ++ rest) =
      some ⟨writtenNumber delta % 2 ^ 16, value.take (writtenNumber value.length), size⟩ := by
  have hle : writtenNumber value.length ≤ value.length := by
    rw [writtenNumber]
    split_ifs <;> omega
  have hlt : writtenNumber delta < 65549 := by
    rw [writtenNumber]
    split_ifs <;> omega
  have htake : (value.take (writtenNumber value.length)).length = writtenNumber value.length :=
    List.length_take_of_le hle
  refine ⟨_, Eq.trans ?_ (coapOptParse_encodeOption past hlt (by rw [htake]; omega)
    (value.drop (writtenNumber value.length) ++ rest))⟩
  rw [writtenOption, encodeOption, htake]
  simp only [List.append_assoc]
  rw [← List.append_assoc (value.take _), List.take_append_drop]

end CoapBroker
