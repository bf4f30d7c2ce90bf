import CoapBroker.Libcoap.Pdu

/-!
# Block-wise responses

The functions of libcoap that write a response in blocks (`block.c`). A response has
some room left (`pdu->max_size - pdu->length`), which decides whether data fits and how
large a block may be.
-/

namespace CoapBroker

/-- A block option: its number, whether more blocks follow, and its size exponent. -/
structure CoapBlock where
  num : ℕ := 0
  m : Bool := false
  szx : ℕ := 0
  deriving DecidableEq

/-- The size of the blocks. -/
def CoapBlock.size (block : CoapBlock) : ℕ := 2 ^ (block.szx + 4)

/-- `coap_fls`: the number of bits. -/
def coapFls (i : ℕ) : ℕ := i.size

/-- The value of a block option. -/
def CoapBlock.encode (block : CoapBlock) : List Byte :=
  coapEncodeVarBytes ((block.num <<< 4) ||| (block.m.toNat <<< 3) ||| block.szx)

/-- `coap_write_block_opt`: adding the option, with smaller blocks when those that are
    asked for do not fit; the error is the negative result. -/
def coapWriteBlockOpt (block : CoapBlock) (type : ℕ) (pdu : Pdu) (room dataLength : ℕ) :
    Except ℤ (CoapBlock × Pdu) :=
  let start := block.num * block.size
  if dataLength ≤ start then .error (-2)
  else
    let avail := room - 4
    let want := block.size
    if want ≤ avail then
      let block := { block with m := decide (want < dataLength - start) }
      .ok (block, pdu.addOption type block.encode)
    else if dataLength - start ≤ avail then
      let block := { block with m := false }
      .ok (block, pdu.addOption type block.encode)
    else if avail < 16 then .error (-3)
    else
      let szx := coapFls avail - 5
      let block : CoapBlock :=
        { num := block.num <<< (block.szx - szx), m := true, szx }
      .ok (block, pdu.addOption type block.encode)

/-- The only negative results are `-2` and `-3`. -/
theorem coapWriteBlockOpt_error {block : CoapBlock} {type : ℕ} {pdu : Pdu} {room dataLength : ℕ}
    {res : ℤ} (h : coapWriteBlockOpt block type pdu room dataLength = .error res) :
    res = -2 ∨ res = -3 := by
  simp only [coapWriteBlockOpt] at h
  split_ifs at h <;> cases h
  · exact .inl rfl
  · exact .inr rfl

/-- `coap_add_block`: adding the data of a block. -/
def coapAddBlock (pdu : Pdu) (data : List Byte) (block : CoapBlock) : Pdu :=
  let start := block.num * block.size
  if data.length ≤ start then pdu else pdu.addData ((data.drop start).take block.size)

end CoapBroker
