import CoapBroker.Libcoap.Block
import Mathlib.Data.Nat.Bitwise
import Mathlib.Data.Nat.Size

/-!
# Block options

Reading a block option (`coap_get_block`) gives the block it was made of
(`coapGetBlock_encode`), as long as the number of the block has at most 20 bits. What a block
option that is written says about the data is `coapWriteBlockOpt_spec`.
-/

namespace CoapBroker

/-- The last byte of a block option (`COAP_OPT_BLOCK_LAST`), `0` for an empty one. -/
def coapOptBlockLast (value : List Byte) : ℕ := (value.getLast?.map UInt8.toNat).getD 0

/-- `coap_opt_block_num`, on 32-bit `unsigned int`. -/
def coapOptBlockNum (value : List Byte) : ℕ :=
  if value.length = 0 then 0
  else
    let num := if 1 < value.length then coapDecodeVarBytes value.dropLast else 0
    (num <<< 4) % 2 ^ 32 ||| (coapOptBlockLast value &&& 0xF0) >>> 4

/-- `coap_get_block`, for the value of the option, if there is one. A number of more than 20 bits
    is illegal. -/
def coapGetBlock (value : Option (List Byte)) : Option CoapBlock :=
  match value with
  | none => none
  | some value =>
    let num := coapOptBlockNum value
    if 0xFFFFF < num then none
    else some
      { num, m := decide (coapOptBlockLast value &&& 0x08 ≠ 0)
        szx := coapOptBlockLast value &&& 0x07 }

/-! ## Numbers -/

theorem encodeBytes_append (n val : ℕ) (buf : List Byte) :
    encodeBytes n val buf = encodeBytes n val [] ++ buf := by
  induction n generalizing val buf with
  | zero => rfl
  | succ n ih =>
    rw [encodeBytes, encodeBytes]
    split_ifs
    · rfl
    · rw [ih _ (UInt8.ofNat (val % 2 ^ 8) :: buf), ih _ [UInt8.ofNat (val % 2 ^ 8)],
        List.append_assoc]
      rfl

theorem encodeBytes_succ {n val : ℕ} (h : val < 2 ^ (8 * n)) (buf : List Byte) :
    encodeBytes (n + 1) val buf = encodeBytes n val buf := by
  induction n generalizing val buf with
  | zero =>
    have h0 : val = 0 := by omega
    rw [encodeBytes, encodeBytes, if_pos h0]
  | succ n ih =>
    rw [encodeBytes.eq_def (n + 1 + 1), encodeBytes.eq_def (n + 1)]
    dsimp only
    split_ifs
    · rfl
    · refine ih ?_ _
      rw [Nat.div_lt_iff_lt_mul (by norm_num), ← pow_add]
      exact h

/-- The last byte of a number is encoded last. -/
theorem coapEncodeVarBytes_concat {val : ℕ} (h0 : val ≠ 0) (h : val < 2 ^ 32) :
    coapEncodeVarBytes val = coapEncodeVarBytes (val / 2 ^ 8) ++ [UInt8.ofNat (val % 2 ^ 8)] := by
  rw [coapEncodeVarBytes, coapEncodeVarBytes, Nat.mod_eq_of_lt h,
    Nat.mod_eq_of_lt ((Nat.div_le_self _ _).trans_lt h), encodeBytes, if_neg h0,
    encodeBytes_append, @encodeBytes_succ 3 _ (by omega)]

/-! ## Reading a block option -/

theorem and_eight (n : ℕ) : n &&& 0x08 = 8 * (n / 8 % 2) := by
  have h := Nat.and_two_pow n 3
  rw [Nat.testBit_eq_decide_div_mod_eq] at h
  refine h.trans ?_
  by_cases h1 : n / 2 ^ 3 % 2 = 1
  · rw [decide_eq_true h1]
    simp only [Bool.toNat_true]
    omega
  · rw [decide_eq_false h1]
    simp only [Bool.toNat_false]
    omega

/-- The number a block is encoded as. -/
theorem CoapBlock.encode_eq {block : CoapBlock} (hszx : block.szx < 8) :
    block.encode = coapEncodeVarBytes (16 * block.num + 8 * block.m.toNat + block.szx) := by
  have hm : block.m.toNat < 2 := by
    rcases block.m with _ | _ <;> decide
  have hlow : block.m.toNat <<< 3 ||| block.szx = 8 * block.m.toNat + block.szx := by
    rw [Nat.shiftLeft_eq, Nat.mul_comm, show 8 = 2 ^ 3 from rfl, ← Nat.two_pow_add_eq_or_of_lt hszx]
  have hhigh : block.num <<< 4 ||| (8 * block.m.toNat + block.szx) =
      16 * block.num + (8 * block.m.toNat + block.szx) := by
    rw [Nat.shiftLeft_eq, Nat.mul_comm, show 16 = 2 ^ 4 from rfl,
      ← Nat.two_pow_add_eq_or_of_lt (by omega)]
  rw [CoapBlock.encode, Nat.or_assoc, hlow, hhigh, Nat.add_assoc]

/-- Reading a block option gives the block it was made of. -/
theorem coapGetBlock_encode {block : CoapBlock} (hnum : block.num < 2 ^ 20) (hszx : block.szx < 8) :
    coapGetBlock (some block.encode) = some block := by
  have hm : block.m.toNat < 2 := by
    rcases block.m with _ | _ <;> decide
  rw [CoapBlock.encode_eq hszx]
  obtain ⟨val, hval⟩ : ∃ val, val = 16 * block.num + 8 * block.m.toNat + block.szx := ⟨_, rfl⟩
  rw [← hval]
  -- the last byte holds four bits of the number
  have hlast : coapOptBlockLast (coapEncodeVarBytes val) = val % 2 ^ 8 := by
    by_cases h0 : val = 0
    · rw [h0]
      rfl
    · rw [coapEncodeVarBytes_concat h0 (by omega), coapOptBlockLast, List.getLast?_concat,
        Option.map_some, Option.getD_some, UInt8.toNat_ofNat', Nat.mod_mod]
  have hnum' : coapOptBlockNum (coapEncodeVarBytes val) = block.num := by
    rw [coapOptBlockNum, hlast]
    by_cases h0 : val = 0
    · rw [if_pos (by rw [h0]; rfl)]
      omega
    have hbits : (val % 2 ^ 8 &&& 0xF0) >>> 4 = val / 16 % 16 := by
      rw [Nat.shiftRight_and_distrib, Nat.shiftRight_eq_div_pow, show 0xF0 >>> 4 = 2 ^ 4 - 1 from rfl,
        Nat.and_two_pow_sub_one_eq_mod]
      omega
    have hrest : (if 1 < (coapEncodeVarBytes val).length then
        coapDecodeVarBytes (coapEncodeVarBytes val).dropLast else 0) = val / 2 ^ 8 := by
      rw [coapEncodeVarBytes_concat h0 (by omega), List.dropLast_concat, List.length_append,
        List.length_singleton]
      split_ifs with hlen
      · exact coapDecodeVarBytes_encode (by omega)
      · have hnil : (coapEncodeVarBytes (val / 2 ^ 8)).length ≤ 0 := by omega
        rw [length_coapEncodeVarBytes_le_iff] at hnil
        omega
    have hlen : (coapEncodeVarBytes val).length ≠ 0 := by
      rw [coapEncodeVarBytes_concat h0 (by omega), List.length_append, List.length_singleton]
      omega
    rw [if_neg hlen, hrest, hbits]
    dsimp only
    rw [Nat.mod_eq_of_lt (by rw [Nat.shiftLeft_eq]; omega), Nat.shiftLeft_eq, Nat.mul_comm,
      ← Nat.two_pow_add_eq_or_of_lt (by omega)]
    omega
  have hszx' : val % 2 ^ 8 &&& 0x07 = block.szx := by
    rw [show 0x07 = 2 ^ 3 - 1 from rfl, Nat.and_two_pow_sub_one_eq_mod]
    omega
  have hmore : (val % 2 ^ 8 &&& 0x08 ≠ 0) ↔ block.m = true := by
    have hbit : val % 2 ^ 8 &&& 0x08 = 8 * (val / 8 % 2) := by
      rw [and_eight]
      omega
    rw [hbit]
    rcases hb : block.m with _ | _
    · rw [hb] at hval
      simp only [Bool.toNat_false] at hval
      exact iff_of_false (by omega) Bool.false_ne_true
    · rw [hb] at hval
      simp only [Bool.toNat_true] at hval
      exact iff_of_true (by omega) rfl
  have hm' : decide (val % 2 ^ 8 &&& 0x08 ≠ 0) = block.m := by
    rw [Bool.eq_iff_iff, decide_eq_true_iff]
    exact hmore
  rw [coapGetBlock, hnum', hlast, hszx', if_neg (by omega), hm']

/-! ## Writing a block option -/

theorem coapFls_spec {avail : ℕ} (h : 16 ≤ avail) :
    4 < coapFls avail ∧ 2 ^ (coapFls avail - 1) ≤ avail ∧ avail < 2 ^ coapFls avail := by
  have hlt : 4 < coapFls avail := Nat.lt_size.2 h
  exact ⟨hlt, Nat.lt_size.1 (by rw [← coapFls]; omega), Nat.lt_size_self avail⟩

/-- With a room of 20 bytes or more, and a block that begins within the data, the option that is
    written names a block, possibly a smaller one, which begins at the same place; it is said that
    there are more exactly if there is data after it, and the data to send fits the room. -/
theorem coapWriteBlockOpt_spec {block : CoapBlock} {type room dataLength : ℕ} {pdu : Pdu}
    (hroom : 20 ≤ room) (hstart : block.num * block.size < dataLength) :
    ∃ block', coapWriteBlockOpt block type pdu room dataLength =
        .ok (block', pdu.addOption type block'.encode) ∧
      block'.szx ≤ block.szx ∧ block'.num * block'.size = block.num * block.size ∧
      (block'.m = true ↔ block.num * block.size + block'.size < dataLength) ∧
      min (dataLength - block.num * block.size) block'.size + 4 ≤ room := by
  rw [coapWriteBlockOpt]
  dsimp only
  rw [if_neg (not_le.2 hstart)]
  by_cases hwant : block.size ≤ room - 4
  · rw [if_pos hwant]
    refine ⟨_, rfl, le_rfl, rfl, ?_, ?_⟩
    · rw [decide_eq_true_eq]
      change _ ↔ block.num * block.size + block.size < dataLength
      omega
    · change min _ block.size + 4 ≤ room
      omega
  rw [if_neg hwant]
  by_cases hrest : dataLength - block.num * block.size ≤ room - 4
  · rw [if_pos hrest]
    refine ⟨_, rfl, le_rfl, rfl, ?_, by omega⟩
    refine iff_of_false Bool.false_ne_true ?_
    change ¬block.num * block.size + block.size < dataLength
    omega
  · rw [if_neg hrest, if_neg (by omega)]
    obtain ⟨hfls, hle, hlt⟩ := @coapFls_spec (room - 4) (by omega)
    -- the greatest block that fits is smaller than the one asked for
    have hszx : coapFls (room - 4) - 5 ≤ block.szx := by
      by_contra hgt
      have hpow : block.size ≤ 2 ^ (coapFls (room - 4) - 1) :=
        Nat.pow_le_pow_right (by norm_num) (by omega)
      omega
    have hsize : CoapBlock.size { num := block.num <<< (block.szx - (coapFls (room - 4) - 5))
                                  m := true, szx := coapFls (room - 4) - 5 } =
        2 ^ (coapFls (room - 4) - 1) := by
      rw [CoapBlock.size, show coapFls (room - 4) - 5 + 4 = coapFls (room - 4) - 1 by omega]
    refine ⟨_, rfl, hszx, ?_, ?_, ?_⟩
    · rw [hsize]
      dsimp only
      rw [Nat.shiftLeft_eq, CoapBlock.size, Nat.mul_assoc, ← pow_add,
        show block.szx - (coapFls (room - 4) - 5) + (coapFls (room - 4) - 1) = block.szx + 4 by omega]
    · rw [hsize]
      exact iff_of_true rfl (by omega)
    · rw [hsize]
      omega

end CoapBroker
