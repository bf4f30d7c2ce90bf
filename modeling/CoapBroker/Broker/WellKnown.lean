import CoapBroker.Broker.Blockwise

/-!
# The well-known resource

`coap_wellknown_response`, the answer of libcoap to a request for `.well-known/core`: the
descriptions of the registered resources, printed straight into the message, from an offset on
and up to a length. What the query of a request lets pass is a predicate here.

A client that fetches the answer puts it together whole, unless it asks for a block size there is
none of, or it asks for no block and the answer is exactly as long as the room that is left for it
(`wellknown_whole_iff`): then no block option is added, the payload marker takes one byte of the
room, and the last byte of the answer is lost.
-/

namespace CoapBroker

def coapMaxBlockSzx : ℕ := 4

/-! ## Printing -/

/-- One round of the loop of `coap_print_wellknown`; the flag says that it is not the first. -/
def printResource (s : PrintState × Bool) (r : CoapResource) : PrintState × Bool :=
  let p := if s.2 then s.1.print ',' else s.1
  let out := coapPrintLink r (p.cap - p.buf.length) p.offset
  ({ p with buf := p.buf ++ out.buf, offset := out.offset, len := p.len + out.len }, true)

/-- `coap_print_wellknown`, into a buffer of size `len` from the byte `offset` on: what is printed,
    and the length of all that is there to print. -/
def coapPrintWellknown (t : ResourceTable) (passes : CoapResource → Bool) (len offset : ℕ) :
    PrintState :=
  ((t.filter passes).foldl printResource (({ cap := len, offset } : PrintState), false)).1

/-- `get_wkc_len`, printing nothing. -/
def getWkcLen (t : ResourceTable) (passes : CoapResource → Bool) : ℕ :=
  (coapPrintWellknown t passes 0 (2 ^ 32 - 1)).len

/-- The loop that looks for the greatest block that fits, from the exponent `szx` down; `none` when
    there is not even room for the smallest. -/
def fittingSzx (payloadlen : ℕ) : ℕ → Option ℕ
  | 0 => if payloadlen < 2 ^ 4 then none else some 0
  | szx + 1 => if payloadlen < 2 ^ (szx + 1 + 4) then fittingSzx payloadlen szx else some (szx + 1)

/-- The response with what `coap_print_wellknown` prints after the payload marker. -/
def wellknownBody (t : ResourceTable) (passes : CoapResource → Bool) (resp : Pdu)
    (len offset : ℕ) : Pdu :=
  (resp.addData (coapPrintWellknown t passes len offset).buf).setCode 205

/-- The response with a block option, and as much as the block holds. -/
def wellknownBlock (t : ResourceTable) (passes : CoapResource → Bool) (room : ℕ)
    (block : CoapBlock) (offset : ℕ) : Pdu :=
  match coapWriteBlockOpt block coapOptionBlock2 contentResponse room (getWkcLen t passes) with
  | .error _ => ({} : Pdu).setCode 503
  | .ok (block, resp) => wellknownBody t passes resp block.size offset

/-- `coap_wellknown_response`, for a request in which `coap_get_block` finds `block2`, `room` being
    left in the message after its token and its content format (of two bytes). -/
def coapWellknownResponse (t : ResourceTable) (passes : CoapResource → Bool)
    (block2 : Option CoapBlock) (room : ℕ) : Pdu :=
  if getWkcLen t passes = 0 then ({} : Pdu).setCode 400
  else
    match block2 with
    | some block =>
      let offset := block.num * block.size
      if 6 < block.szx then ({} : Pdu).setCode 400
      else if room ≤ 1 then ({} : Pdu).setCode 503
      else if coapMaxBlockSzx < block.szx then
        wellknownBlock t passes room
          { block with szx := coapMaxBlockSzx, num := offset / 2 ^ (coapMaxBlockSzx + 4) }
          offset
      else wellknownBlock t passes room block offset
    | none =>
      if room ≤ 1 then ({} : Pdu).setCode 503
      else if room < getWkcLen t passes then
        match fittingSzx room coapMaxBlockSzx with
        | none => ({} : Pdu).setCode 503
        | some szx => wellknownBlock t passes room { szx } 0
      else wellknownBody t passes contentResponse (room - 1) 0

/-- A request for `.well-known/core` and the answer to it. -/
def fetchWellknown (past : Byte) (t : ResourceTable) (passes : CoapResource → Bool) (type : ℕ)
    (token : List Byte) (id : Byte × Byte) (block2 : Option (List Byte)) :
    Option (BlockAnswer Byte) :=
  (transmit past type id token
    (coapWellknownResponse t passes (coapGetBlock block2) (discoveryRoom token))).bind answerOf

/-! ## What is printed -/

section

variable {t : ResourceTable} {passes : CoapResource → Bool}

theorem PrintState.print_write {p : PrintState} (c : Byte) (hroom : p.buf.length < p.cap)
    (hoff : p.offset = 0) : p.print c = { p with buf := p.buf ++ [c], len := p.len + 1 } := by
  rw [PrintState.print, if_pos hroom, if_pos hoff]

theorem PrintState.print_skip {p : PrintState} (c : Byte) (hroom : p.buf.length < p.cap)
    (hoff : p.offset ≠ 0) : p.print c = { p with offset := p.offset - 1, len := p.len + 1 } := by
  rw [PrintState.print, if_pos hroom, if_neg hoff]

theorem PrintState.print_full {p : PrintState} (c : Byte) (hroom : ¬p.buf.length < p.cap) :
    p.print c = { p with len := p.len + 1 } := by
  rw [PrintState.print, if_neg hroom]

/-- Printing goes on where it was, for as long as there is room. -/
theorem PrintState.copy_spec (p : PrintState) (s : List Byte) :
    (p.copy s).buf = p.buf ++ (s.drop p.offset).take (p.cap - p.buf.length) ∧
      (p.copy s).len = p.len + s.length := by
  induction s generalizing p with
  | nil =>
    refine ⟨?_, rfl⟩
    rw [List.drop_nil, List.take_nil, List.append_nil]
    rfl
  | cons c s ih =>
    obtain ⟨hbuf, hlen⟩ := ih (p.print c)
    have hcons : p.copy (c :: s) = (p.print c).copy s := rfl
    rw [hcons, hbuf, hlen, List.length_cons]
    -- a byte is written, skipped because of the offset, or only counted
    by_cases hroom : p.buf.length < p.cap
    · by_cases hoff : p.offset = 0
      · have hcap : p.cap - p.buf.length = (p.cap - (p.buf ++ [c]).length) + 1 := by
          rw [List.length_append, List.length_singleton]
          omega
        rw [PrintState.print_write c hroom hoff]
        dsimp only
        refine ⟨?_, by omega⟩
        rw [hoff, List.drop_zero, List.drop_zero, hcap, List.take_succ_cons, List.append_assoc]
        rfl
      · rw [PrintState.print_skip c hroom hoff]
        dsimp only
        refine ⟨?_, by omega⟩
        obtain ⟨k, hk⟩ := Nat.exists_eq_succ_of_ne_zero hoff
        rw [hk, Nat.succ_eq_add_one, Nat.add_sub_cancel, List.drop_succ_cons]
    · have hfull : p.cap - p.buf.length = 0 := by omega
      rw [PrintState.print_full c hroom]
      dsimp only
      rw [hfull, List.take_zero, List.take_zero]
      exact ⟨rfl, by omega⟩

/-- The state `p` with the output of `out`, which was printed into the room left in `p`. -/
def PrintState.extend (p out : PrintState) : PrintState :=
  { p with buf := p.buf ++ out.buf, offset := out.offset, len := p.len + out.len }

theorem PrintState.extend_print {p out : PrintState} (h : out.cap = p.cap - p.buf.length)
    (c : Byte) :
    (p.extend out).print c = p.extend (out.print c) ∧ (out.print c).cap = out.cap := by
  have hroom : (p.buf ++ out.buf).length < p.cap ↔ out.buf.length < out.cap := by
    rw [List.length_append, h]
    omega
  by_cases hlt : out.buf.length < out.cap
  · by_cases hoff : out.offset = 0
    · rw [@PrintState.print_write (p.extend out) c (hroom.2 hlt) hoff,
        PrintState.print_write c hlt hoff]
      refine ⟨?_, rfl⟩
      simp only [PrintState.extend, List.append_assoc, Nat.add_assoc]
    · rw [@PrintState.print_skip (p.extend out) c (hroom.2 hlt) hoff,
        PrintState.print_skip c hlt hoff]
      exact ⟨rfl, rfl⟩
  · rw [PrintState.print_full c (mt hroom.1 hlt), PrintState.print_full c hlt]
    exact ⟨rfl, rfl⟩

/-- Printing into the room that is left is printing on. -/
theorem PrintState.extend_copy {p out : PrintState} (h : out.cap = p.cap - p.buf.length)
    (s : List Byte) : p.extend (out.copy s) = (p.extend out).copy s := by
  induction s generalizing out with
  | nil => rfl
  | cons c s ih =>
    obtain ⟨hprint, hcap⟩ := PrintState.extend_print h c
    have hcons : out.copy (c :: s) = (out.print c).copy s := rfl
    rw [hcons, ih (hcap.trans h), ← hprint]
    rfl

/-- The text of one round: a comma unless it is the first, and the description. -/
theorem printResource_eq (p : PrintState) (more : Bool) (r : CoapResource) :
    printResource (p, more) r =
      (p.copy ((if more then [(',' : Byte)] else []) ++ description r), true) := by
  have hround : ∀ q : PrintState,
      (q.extend (coapPrintLink r (q.cap - q.buf.length) q.offset)) = q.copy (description r) :=
    fun q => by
      rw [coapPrintLink_eq_copy, PrintState.extend_copy rfl, PrintState.extend, List.append_nil]
      rfl
  rw [← PrintState.copy_copy, ← hround]
  rcases more with _ | _
  · rfl
  · rfl

/-- The descriptions, after some that are printed already if there is one. -/
theorem foldl_printResource (rs : List CoapResource) (p : PrintState) :
    (rs.foldl printResource (p, true)).1 =
        p.copy (rs.flatMap fun r => (',' : Byte) :: description r) ∧
      (rs.foldl printResource (p, false)).1 = p.copy (descriptions rs) := by
  induction rs generalizing p with
  | nil => exact ⟨rfl, rfl⟩
  | cons r rs ih =>
    rw [List.foldl_cons, List.foldl_cons, printResource_eq, printResource_eq, (ih _).1, (ih _).1,
      PrintState.copy_copy, PrintState.copy_copy]
    refine ⟨rfl, congrArg p.copy ?_⟩
    rw [descriptions, List.map_cons]
    -- a comma before each description but the first
    have hcommas : ∀ (r : CoapResource) (rs : List CoapResource),
        description r ++ rs.flatMap (fun r => (',' : Byte) :: description r) =
          [(',' : Byte)].intercalate (description r :: rs.map description) := by
      intro r rs
      induction rs generalizing r with
      | nil => simp
      | cons r' rs ih =>
        rw [List.map_cons, List.intercalate_cons_cons, ← ih, List.flatMap_cons]
        simp
    exact hcommas r rs

theorem coapPrintWellknown_eq (len offset : ℕ) :
    (coapPrintWellknown t passes len offset).buf =
        ((descriptions (t.filter passes)).drop offset).take len ∧
      (coapPrintWellknown t passes len offset).len = (descriptions (t.filter passes)).length := by
  rw [coapPrintWellknown, (foldl_printResource _ _).2]
  obtain ⟨hbuf, hlen⟩ := PrintState.copy_spec ({ cap := len, offset } : PrintState)
    (descriptions (t.filter passes))
  exact ⟨hbuf, hlen.trans (Nat.zero_add _)⟩

theorem getWkcLen_eq : getWkcLen t passes = (descriptions (t.filter passes)).length :=
  (coapPrintWellknown_eq _ _).2

end

/-! ## One answer -/

section

variable {t : ResourceTable} {passes : CoapResource → Bool} {token : List Byte} {data : CStr}

/-- An answer with a block option that is written for a block within the data holds the data from
    there on. -/
theorem wellknownBlock_spec {block : CoapBlock} {start : ℕ} (htoken : token.length ≤ 8)
    (hdata : data.bytes = descriptions (t.filter passes)) (hlen : data.length ≤ 2 ^ 23)
    (hszx : block.szx ≤ 6) (hblock : block.num * block.size = start)
    (hstart : start < data.length) :
    (wellknownBlock t passes (discoveryRoom token) block start).Fits token.length ∧
      ∃ a, answerOf (wellknownBlock t passes (discoveryRoom token) block start) = some a ∧
        a.Holds blockSize data.bytes start ∧ a.szx ≤ 6 := by
  have hwkc : getWkcLen t passes = data.length := by rw [getWkcLen_eq, ← hdata]; rfl
  subst hblock
  obtain ⟨block', hwrite, hle, hnum, hmore, hroom⟩ :=
    @coapWriteBlockOpt_spec block coapOptionBlock2 (discoveryRoom token) data.length contentResponse
      (room_le htoken).1 hstart
  obtain ⟨hfits, a, ha, hholds, haszx⟩ := blockResponse_spec htoken hlen (by omega) hnum hstart
    hmore hroom
  have hresponse : wellknownBlock t passes (discoveryRoom token) block (block.num * block.size) =
      (coapAddBlock (contentResponse.addOption coapOptionBlock2 block'.encode) data.bytes
        block').setCode 205 := by
    rw [wellknownBlock, hwkc, hwrite]
    dsimp only
    rw [wellknownBody, (coapPrintWellknown_eq _ _).1, ← hdata,
      coapAddBlock_of_lt (by rw [hnum]; exact hstart), hnum]
  rw [hresponse]
  exact ⟨hfits, a, ha, hholds, by omega⟩

/-- An answer to a request for a block within the data holds the data from there on. -/
theorem wellknownResponse_block {block : CoapBlock} (htoken : token.length ≤ 8)
    (hdata : data.bytes = descriptions (t.filter passes)) (hlen : data.length ≤ 2 ^ 23)
    (hszx : block.szx ≤ 6) (hstart : block.num * block.size < data.length) :
    (coapWellknownResponse t passes (some block) (discoveryRoom token)).Fits token.length ∧
      ∃ a, answerOf (coapWellknownResponse t passes (some block) (discoveryRoom token)) = some a ∧
        a.Holds blockSize data.bytes (block.num * block.size) ∧ a.szx ≤ 6 := by
  have hwkc : getWkcLen t passes = data.length := by rw [getWkcLen_eq, ← hdata]; rfl
  have hroom := (room_le htoken).1
  rw [coapWellknownResponse, if_neg (by omega)]
  dsimp only
  rw [if_neg (by omega), if_neg (by omega)]
  by_cases hcap : coapMaxBlockSzx < block.szx
  · -- the block is asked for in a size that is too large: it begins with a smaller one
    rw [if_pos hcap]
    have hsize : block.num * block.size =
        block.num * 2 ^ (block.szx - coapMaxBlockSzx) * 2 ^ (coapMaxBlockSzx + 4) := by
      rw [CoapBlock.size, Nat.mul_assoc, ← pow_add]
      congr 2
      omega
    have hnum : block.num * block.size / 2 ^ (coapMaxBlockSzx + 4) * 2 ^ (coapMaxBlockSzx + 4) =
        block.num * block.size := by
      rw [hsize, Nat.mul_div_cancel _ (Nat.two_pow_pos _)]
    exact wellknownBlock_spec htoken hdata hlen (by decide : coapMaxBlockSzx ≤ 6) hnum hstart
  · rw [if_neg hcap]
    exact wellknownBlock_spec htoken hdata hlen hszx rfl hstart

/-- An answer to a request that asks for no block holds the data from its beginning on, unless it
    is as long as the room. -/
theorem wellknownResponse_none (htoken : token.length ≤ 8)
    (hdata : data.bytes = descriptions (t.filter passes)) (hlen : data.length ≤ 2 ^ 23)
    (hpos : 0 < data.length) :
    (coapWellknownResponse t passes none (discoveryRoom token)).Fits token.length ∧
      ∃ a, answerOf (coapWellknownResponse t passes none (discoveryRoom token)) = some a ∧
        a.szx ≤ 6 ∧
        if data.length = discoveryRoom token then a = ⟨0, 0, false, data.bytes.dropLast⟩
        else a.Holds blockSize data.bytes 0 := by
  have hwkc : getWkcLen t passes = data.length := by rw [getWkcLen_eq, ← hdata]; rfl
  have hroom := room_le htoken
  rw [coapWellknownResponse, if_neg (by omega), if_neg (by omega), hwkc]
  -- what does not fit is sent as the first block
  by_cases hfits : discoveryRoom token < data.length
  · have hszx : fittingSzx (discoveryRoom token) coapMaxBlockSzx = some coapMaxBlockSzx := by
      change fittingSzx (discoveryRoom token) (3 + 1) = some (3 + 1)
      rw [fittingSzx, if_neg (by omega)]
    obtain ⟨hfit, a, ha, hholds, haszx⟩ := @wellknownBlock_spec t passes token data
      { szx := coapMaxBlockSzx } 0 htoken hdata hlen (by decide : coapMaxBlockSzx ≤ 6)
      (Nat.zero_mul _) hpos
    rw [if_pos hfits, hszx]
    exact ⟨hfit, a, ha, haszx, by rw [if_neg (by omega)]; exact hholds⟩
  · rw [if_neg hfits]
    have hbody : wellknownBody t passes contentResponse (discoveryRoom token - 1) 0 =
        (contentResponse.addData (data.bytes.take (discoveryRoom token - 1))).setCode 205 := by
      rw [wellknownBody, (coapPrintWellknown_eq _ _).1, ← hdata, List.drop_zero]
    rw [hbody]
    refine ⟨contentResponse_fits (by rw [List.length_take]; omega), _, rfl, Nat.zero_le _, ?_⟩
    have hbytes : data.length = data.bytes.length := rfl
    split_ifs with heq
    · rw [List.dropLast_eq_take, ← hbytes, heq]
      rfl
    · refine ⟨?_, fun h => absurd h Bool.false_ne_true⟩
      rw [if_neg Bool.false_ne_true, List.drop_zero, List.take_length,
        List.take_of_length_le (by omega)]
      rfl

end

/-! ## The whole transfer -/

/-- A client that fetches the answer to a request for `.well-known/core` block by block puts
    together the descriptions of the resources the query lets pass, whole, exactly if it asks for a
    block size there is, or it asks for none and the answer is not as long as the room for it. -/
theorem wellknown_whole_iff (past : Byte) (t : ResourceTable) (passes : CoapResource → Bool)
    (type : ℕ) (token : List Byte) (htoken : token.length ≤ 8) (id : ℕ → ℕ → Byte × Byte)
    (hlisted : t.filter passes ≠ []) (hlen : (descriptions (t.filter passes)).length ≤ 2 ^ 23)
    (first : Option ℕ) (hfirst : ∀ szx ∈ first, szx ≤ 7) :
    (∃ a, fetchWellknown past t passes type token (id 0 0)
        (first.map fun szx => CoapBlock.encode { szx }) = some a ∧
      assemble (fun num szx => fetchWellknown past t passes type token (id num szx)
          (some (CoapBlock.encode { num, szx })))
        (descriptions (t.filter passes)).length a = some (descriptions (t.filter passes))) ↔
      first ≠ some 7 ∧
        (first = none → (descriptions (t.filter passes)).length ≠ discoveryRoom token) := by
  obtain ⟨data, hdata⟩ : ∃ data : CStr, data = CStr.read (descriptions (t.filter passes)) :=
    ⟨_, rfl⟩
  have hbytes : data.bytes = descriptions (t.filter passes) := by
    rw [hdata]
    exact CStr.read_of_notMem (nul_notMem_descriptions _)
  have hlength : data.length = (descriptions (t.filter passes)).length :=
    congrArg List.length hbytes
  have hpos : 0 < data.length := hlength ▸ descriptions_pos hlisted
  have hget : ∀ {id block2}, (coapWellknownResponse t passes (coapGetBlock block2)
      (discoveryRoom token)).Fits token.length →
      fetchWellknown past t passes type token id block2 =
        answerOf (coapWellknownResponse t passes (coapGetBlock block2) (discoveryRoom token)) :=
    fun hfits => by rw [fetchWellknown, transmit_eq htoken hfits, Option.bind_some]
  rw [← hlength] at hlen ⊢
  rw [← hbytes]
  -- a request for a block within the data is answered with what is there
  have hserve : ∀ num szx, szx ≤ 6 → num * blockSize szx < data.bytes.length →
      ∀ id, ∃ a, fetchWellknown past t passes type token id
          (some (CoapBlock.encode { num, szx })) = some a ∧
        a.Holds blockSize data.bytes (num * blockSize szx) ∧ a.szx ≤ 6 := by
    intro num szx hszx hstart id
    have hsize : 2 ^ 4 ≤ blockSize szx := Nat.pow_le_pow_right (by norm_num) (by omega)
    have hnum : num < 2 ^ 20 := by
      by_contra hge
      have := Nat.mul_le_mul (not_lt.1 hge) hsize
      rw [CStr.length] at hlen
      omega
    obtain ⟨hfits, a, ha, hholds, haszx⟩ :=
      @wellknownResponse_block t passes token data { num, szx } htoken hbytes hlen hszx hstart
    have hblock : coapGetBlock (some (CoapBlock.encode { num, szx })) =
        some { num, szx } := coapGetBlock_encode hnum (by dsimp only; omega)
    exact ⟨a, by rw [hget (by rw [hblock]; exact hfits), hblock, ha], hholds, haszx⟩
  have hwhole : ∀ {a : BlockAnswer Byte}, a.Holds blockSize data.bytes 0 → a.szx ≤ 6 →
      assemble (fun num szx => fetchWellknown past t passes type token (id num szx)
        (some (CoapBlock.encode { num, szx }))) data.length a = some data.bytes :=
    fun hholds hszx => by
      have hall := assemble_eq (fun szx => Nat.two_pow_pos (szx + 4))
        (fun num szx hszx hstart => hserve num szx hszx hstart (id num szx)) hholds hszx
        (Nat.le_add_left _ _)
      rw [List.drop_zero] at hall
      exact hall
  rcases first with _ | szx
  · obtain ⟨hfits, a, ha, hszx, hspec⟩ := wellknownResponse_none htoken hbytes hlen hpos
    have hfetch : fetchWellknown past t passes type token (id 0 0) none = some a :=
      (@hget (id 0 0) none hfits).trans ha
    rw [Option.map_none]
    by_cases heq : data.length = discoveryRoom token
    · refine iff_of_false ?_ fun h => h.2 rfl heq
      rw [if_pos heq] at hspec
      rintro ⟨a', ha', hall⟩
      cases hfetch.symm.trans ha'
      -- one byte is missing
      have hshort : data.bytes.dropLast = data.bytes := by
        rw [hspec, assemble.eq_def] at hall
        exact Option.some.inj hall
      have hlast := congrArg List.length hshort
      rw [List.length_dropLast, ← CStr.length] at hlast
      omega
    · rw [if_neg heq] at hspec
      exact iff_of_true ⟨a, hfetch, hwhole hspec hszx⟩ ⟨Option.some_ne_none 7 ∘ Eq.symm, fun _ => heq⟩
  · have hle : szx ≤ 7 := hfirst szx rfl
    rw [Option.map_some]
    by_cases h7 : szx = 7
    · subst h7
      refine iff_of_false ?_ fun h => h.1 rfl
      -- the size is refused
      have hrefused : coapWellknownResponse t passes (some { szx := 7 }) (discoveryRoom token) =
          ({} : Pdu).setCode 400 := by
        rw [coapWellknownResponse]
        by_cases h0 : getWkcLen t passes = 0
        · exact if_pos h0
        · rw [if_neg h0]
          exact if_pos (by norm_num)
      have hblock : coapGetBlock (some (CoapBlock.encode { szx := 7 })) = some { szx := 7 } :=
        coapGetBlock_encode (by norm_num) (by norm_num)
      have hfits : (({} : Pdu).setCode 400).Fits token.length := by
        refine ⟨⟨(by decide : 0 < coapResponseCode 400), (by decide : coapResponseCode 400 < 2 ^ 8),
          trivial, fun o ho => absurd ho List.not_mem_nil,
          fun g hg => absurd hg List.not_mem_nil⟩, ?_⟩
        change 4 + token.length + 0 ≤ 1400
        omega
      rintro ⟨a, ha, -⟩
      rw [hget (by rw [hblock, hrefused]; exact hfits), hblock, hrefused] at ha
      cases ha
    · obtain ⟨a, ha, hholds, hszx⟩ := hserve 0 szx (by omega)
        (by rw [Nat.zero_mul]; exact hpos) (id 0 0)
      rw [Nat.zero_mul] at hholds
      exact iff_of_true ⟨a, ha, hwhole hholds hszx⟩
        ⟨fun h => h7 (Option.some.inj h), fun h => absurd h (Option.some_ne_none szx)⟩

/-- Fetching the descriptions of all resources but one, in blocks of 16 bytes. -/
theorem wellknown_whole_two :
    let t : ResourceTable := [coapResourceInit brokerPath 0, coapResourceInit (CStr.lit "ps/x") 0,
      coapResourceInit (CStr.lit "ps/y") 0, coapResourceInit (CStr.lit "ps/z") 0]
    let passes : CoapResource → Bool := fun r => r.uri ≠ brokerPath
    ∃ a, fetchWellknown 0 t passes coapMessageAck [1] (0, 0)
        ((some 0 : Option ℕ).map fun szx => CoapBlock.encode { szx }) = some a ∧
      assemble (fun num szx => fetchWellknown 0 t passes coapMessageAck [1] (0, 0)
          (some (CoapBlock.encode { num, szx })))
        (descriptions (t.filter passes)).length a = some (descriptions (t.filter passes)) := by
  intro t passes
  exact (wellknown_whole_iff 0 t passes coapMessageAck [1] (by decide) (fun _ _ => (0, 0)) (by decide)
    (by decide) (some 0) (by decide)).2 ⟨by decide, by decide⟩

end CoapBroker
