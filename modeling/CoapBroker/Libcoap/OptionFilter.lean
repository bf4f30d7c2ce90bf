import CoapBroker.Lib.Run
import CoapBroker.Lib.SlotSet
import CoapBroker.Libcoap.Block
import Mathlib.Data.Nat.Size

/-!
# Option filters

The sets of option numbers of libcoap (`coap_opt_filter_t`), which the iteration over the options
of a message is restricted to, and in which unknown critical options are collected. There are two
slots for numbers above 255 and six for others; a bit of the mask says whether a slot is in use,
and a number is put into the last free one.

A filter behaves as a set with room for two long and six short numbers, over any sequence of
operations (`filterRun_eq`).
-/

namespace CoapBroker

def coapOptFilterShort : ℕ := 6
def coapOptFilterLong : ℕ := 2

/-- A filter. -/
structure OptFilter where
  mask : BitVec 16
  longOpts : Fin coapOptFilterLong → ℕ
  shortOpts : Fin coapOptFilterShort → ℕ

/-- `LONG_MASK`. -/
def longMask : BitVec 16 := 0x03

/-- `SHORT_MASK`. -/
def shortMask : BitVec 16 := 0xfc

/-- `is_long_option`. -/
def isLongOption (type : ℕ) : Bool := 255 < type

/-- `coap_option_filter_clear`. -/
def OptFilter.clear : OptFilter where
  mask := 0
  longOpts _ := 0
  shortOpts _ := 0

/-- `filter_op_t`. -/
inductive FilterOp
  | set
  | clear
  | get
  deriving DecidableEq

/-- `coap_option_filter_op`. -/
def coapOptionFilterOp (filter : OptFilter) (type : ℕ) (op : FilterOp) : OptFilter × Bool :=
  if isLongOption type then
    match (List.finRange coapOptFilterLong).find? fun (i : Fin coapOptFilterLong) =>
      filter.mask.getLsbD i && decide (filter.longOpts i = type) with
    | some i =>
      (if op = .clear then { filter with mask := filter.mask &&& ~~~(1#16 <<< i.val) }
        else filter, true)
    | none =>
      if op = .set then
        let index := coapFls (~~~filter.mask &&& longMask).toNat
        if index = 0 then (filter, false)
        else
          ({ filter with
              longOpts := fun i => if i.val = index - 1 then type else filter.longOpts i
              mask := filter.mask ||| 1#16 <<< (index - 1) }, true)
      else (filter, false)
  else
    match (List.finRange coapOptFilterShort).find? fun (i : Fin coapOptFilterShort) =>
      filter.mask.getLsbD (coapOptFilterLong + i) && decide (filter.shortOpts i = type % 2 ^ 8) with
    | some i =>
      (if op = .clear then
          { filter with mask := filter.mask &&& ~~~(1#16 <<< (coapOptFilterLong + i.val)) }
        else filter, true)
    | none =>
      if op = .set then
        let index := coapFls (~~~filter.mask &&& shortMask).toNat
        if index = 0 then (filter, false)
        else
          ({ filter with
              shortOpts := fun i =>
                if i.val = index - coapOptFilterLong - 1 then type else filter.shortOpts i
              mask := filter.mask ||| 1#16 <<< (index - 1) }, true)
      else (filter, false)

/-- `coap_option_filter_get`, `coap_option_getb`. -/
def coapOptionFilterGet (filter : OptFilter) (type : ℕ) : Bool :=
  (coapOptionFilterOp filter type .get).2

/-! ## The slots of a filter -/

namespace OptFilter

/-- The slots for long numbers. -/
def long (f : OptFilter) : SlotSet coapOptFilterLong ℕ where
  used i := f.mask.getLsbD i
  value := f.longOpts

/-- The slots for short numbers. -/
def short (f : OptFilter) : SlotSet coapOptFilterShort ℕ where
  used i := f.mask.getLsbD (coapOptFilterLong + i)
  value := f.shortOpts

/-- A filter as the operations leave it: all numbers are kept once, in a slot of their kind. -/
structure Good (f : OptFilter) : Prop where
  long_distinct : f.long.Distinct
  short_distinct : f.short.Distinct
  long_long : ∀ t ∈ f.long.elems, isLongOption t = true
  short_short : ∀ t ∈ f.short.elems, isLongOption t = false

/-- The numbers in a filter. -/
def elems (f : OptFilter) : Finset ℕ := f.long.elems ∪ f.short.elems

end OptFilter

/-! ## The set of numbers -/

/-- A set of numbers with room for as many long and short ones as a filter has slots. -/
def filterSetStep (s : Finset ℕ) (op : FilterOp × ℕ) : Finset ℕ × Bool :=
  if op.2 ∈ s then (if op.1 = .clear then s.erase op.2 else s, true)
  else if op.1 = .set ∧ (s.filter fun t => isLongOption t = isLongOption op.2).card <
      (if isLongOption op.2 then coapOptFilterLong else coapOptFilterShort) then
    (insert op.2 s, true)
  else (s, false)

/-! ## The bits of the mask -/

theorem getLsbD_setBit {m : BitVec 16} {k : ℕ} (hk : k < 16) (j : ℕ) :
    (m ||| 1#16 <<< k).getLsbD j = if j = k then true else m.getLsbD j := by
  rw [BitVec.getLsbD_or, BitVec.getLsbD_shiftLeft, BitVec.getLsbD_one]
  split_ifs with h
  · simp [h, hk]
  · by_cases hj : j < k
    · simp [hj]
    · have : j - k ≠ 0 := by omega
      simp [this]

theorem getLsbD_clearBit {m : BitVec 16} {k : ℕ} (hk : k < 16) (j : ℕ) :
    (m &&& ~~~(1#16 <<< k)).getLsbD j = if j = k then false else m.getLsbD j := by
  rw [BitVec.getLsbD_and, BitVec.getLsbD_not, BitVec.getLsbD_shiftLeft, BitVec.getLsbD_one]
  split_ifs with h
  · simp [h, hk]
  · by_cases hj : j < 16
    · by_cases hlt : j < k
      · simp [hj, hlt]
      · have : j - k ≠ 0 := by omega
        simp [hj, this]
    · simp [BitVec.getLsbD_of_ge _ _ (not_lt.1 hj)]

/-- The slot that `coap_fls` finds is one of the kind, and free. -/
theorem coapFls_free {m kind : BitVec 16} (h : coapFls (~~~m &&& kind).toNat ≠ 0) :
    kind.getLsbD (coapFls (~~~m &&& kind).toNat - 1) = true ∧
      m.getLsbD (coapFls (~~~m &&& kind).toNat - 1) = false := by
  have hne : (~~~m &&& kind).toNat ≠ 0 := fun h0 => h (by rw [h0]; rfl)
  have hlog : coapFls (~~~m &&& kind).toNat - 1 = (~~~m &&& kind).toNat.log2 := by
    have hlt : ∀ k, k < coapFls (~~~m &&& kind).toNat ↔ k ≤ (~~~m &&& kind).toNat.log2 := fun k => by
      rw [coapFls, Nat.lt_size, Nat.le_log2 hne]
    have h1 := (hlt (coapFls (~~~m &&& kind).toNat - 1)).1 (by omega)
    have h2 := (hlt _).2 le_rfl
    omega
  have hbit : (~~~m &&& kind).getLsbD (~~~m &&& kind).toNat.log2 = true := Nat.testBit_log2 hne
  rw [hlog]
  simp only [BitVec.getLsbD_and, BitVec.getLsbD_not, Bool.and_eq_true, Bool.not_eq_true',
    decide_eq_true_eq] at hbit
  exact ⟨hbit.2, hbit.1.2⟩

/-- When `coap_fls` finds no slot, all slots of the kind are in use. -/
theorem coapFls_full {m kind : BitVec 16} (h : coapFls (~~~m &&& kind).toNat = 0) {k : ℕ}
    (hk : kind.getLsbD k = true) : m.getLsbD k = true := by
  have h0 : ~~~m &&& kind = 0 := BitVec.toNat_inj.1 (Nat.size_eq_zero.1 h)
  have hbit : (~~~m &&& kind).getLsbD k = false := by rw [h0]; exact BitVec.getLsbD_zero
  have hlt : k < 16 := BitVec.lt_of_getLsbD hk
  rw [BitVec.getLsbD_and, BitVec.getLsbD_not, hk, Bool.and_true, decide_eq_true hlt,
    Bool.true_and, Bool.not_eq_false'] at hbit
  exact hbit

/-! ## An operation on the slots of a kind -/

/-- An operation on slots, of which `free` is free unless all are in use. -/
def slotOp {n : ℕ} (s : SlotSet n ℕ) (type : ℕ) (op : FilterOp) (free : Option (Fin n)) :
    SlotSet n ℕ × Bool :=
  match s.find type with
  | some i => (if op = .clear then s.drop i else s, true)
  | none =>
    if op = .set then
      match free with
      | none => (s, false)
      | some i => (s.put i type, true)
    else (s, false)

/-- Which slot an operation may take: a free one, or none when all are in use. -/
def IsFree {n : ℕ} (s : SlotSet n ℕ) : Option (Fin n) → Prop
  | none => ∀ i, s.used i = true
  | some i => s.used i = false

/-- An operation keeps the slots in order and does to their values what it does to a set of at
    most as many. -/
theorem slotOp_spec {n : ℕ} {s : SlotSet n ℕ} {free : Option (Fin n)} (type : ℕ) (op : FilterOp)
    (hs : s.Distinct) (hfree : IsFree s free) :
    (slotOp s type op free).1.Distinct ∧
      ((slotOp s type op free).1.elems, (slotOp s type op free).2) =
        if type ∈ s.elems then (if op = .clear then s.elems.erase type else s.elems, true)
        else if op = .set ∧ s.elems.card < n then (insert type s.elems, true)
        else (s.elems, false) := by
  rw [slotOp.eq_def]
  rcases hfind : s.find type with _ | i
  · have hnot := SlotSet.find_eq_none.1 hfind
    rw [if_neg hnot]
    by_cases hset : op = .set
    · dsimp only
      rw [if_pos hset]
      rcases free with _ | i
      · have hcard := (SlotSet.card_elems_eq_iff hs).2 hfree
        rw [if_neg fun h => absurd h.2 (by omega)]
        exact ⟨hs, rfl⟩
      · have hcard : s.elems.card ≠ n := fun h => by
          rw [IsFree, (SlotSet.card_elems_eq_iff hs).1 h i] at hfree
          exact Bool.false_ne_true hfree.symm
        rw [if_pos ⟨hset, lt_of_le_of_ne (SlotSet.card_elems_le hs) hcard⟩]
        exact ⟨hs.put hnot, by rw [SlotSet.elems_put hfree]⟩
    · dsimp only
      rw [if_neg hset, if_neg fun h => hset h.1]
      exact ⟨hs, rfl⟩
  · obtain ⟨hused, hvalue⟩ := SlotSet.find_eq_some hfind
    rw [if_pos (SlotSet.mem_elems.2 ⟨i, hused, hvalue⟩)]
    dsimp only
    split_ifs
    · exact ⟨hs.drop, by rw [SlotSet.elems_drop hs hused hvalue]⟩
    · exact ⟨hs, rfl⟩

namespace OptFilter

variable {f : OptFilter}

theorem longMask_iff {k : ℕ} : longMask.getLsbD k = true ↔ k < coapOptFilterLong := by
  by_cases hk : k < 16
  · have : ∀ j : Fin 16, longMask.getLsbD j = true ↔ j.val < coapOptFilterLong := by decide
    exact this ⟨k, hk⟩
  · rw [BitVec.getLsbD_of_ge _ _ (not_lt.1 hk)]
    exact iff_of_false Bool.false_ne_true (by rw [coapOptFilterLong]; omega)

theorem shortMask_iff {k : ℕ} :
    shortMask.getLsbD k = true ↔
      coapOptFilterLong ≤ k ∧ k < coapOptFilterLong + coapOptFilterShort := by
  by_cases hk : k < 16
  · have : ∀ j : Fin 16, shortMask.getLsbD j = true ↔
        coapOptFilterLong ≤ j.val ∧ j.val < coapOptFilterLong + coapOptFilterShort := by decide
    exact this ⟨k, hk⟩
  · rw [BitVec.getLsbD_of_ge _ _ (not_lt.1 hk)]
    exact iff_of_false Bool.false_ne_true
      (by rw [coapOptFilterLong, coapOptFilterShort]; omega)

/-- An operation on a long number is one on the slots for them, and leaves the others alone. -/
theorem op_long {type : ℕ} (hlong : isLongOption type = true) (op : FilterOp) :
    ∃ free, IsFree f.long free ∧
      (coapOptionFilterOp f type op).1.long = (slotOp f.long type op free).1 ∧
      (coapOptionFilterOp f type op).1.short = f.short ∧
      (coapOptionFilterOp f type op).2 = (slotOp f.long type op free).2 := by
  -- the slot that is taken if one has to be
  obtain ⟨free, hfree, hindex⟩ : ∃ free : Option (Fin coapOptFilterLong), IsFree f.long free ∧
      coapFls (~~~f.mask &&& longMask).toNat = (free.map fun i => i.val + 1).getD 0 := by
    by_cases h0 : coapFls (~~~f.mask &&& longMask).toNat = 0
    · exact ⟨none, fun i => coapFls_full h0 (longMask_iff.2 i.isLt), h0⟩
    · obtain ⟨hkind, hbit⟩ := coapFls_free h0
      exact ⟨some ⟨_, longMask_iff.1 hkind⟩, hbit, (Nat.succ_pred h0).symm⟩
  refine ⟨free, hfree, ?_⟩
  rw [coapOptionFilterOp, if_pos hlong, slotOp.eq_def, hindex]
  have hsame : ((List.finRange coapOptFilterLong).find? fun (i : Fin coapOptFilterLong) =>
    f.mask.getLsbD i && decide (f.longOpts i = type)) = f.long.find type := rfl
  rw [hsame]
  have hlt : ∀ i : Fin coapOptFilterLong, i.val < 16 := fun i => i.isLt.trans (by decide)
  rcases f.long.find type with _ | i <;> dsimp only
  · by_cases hset : op = .set
    · rw [if_pos hset, if_pos hset]
      rcases free with _ | i
      · exact ⟨rfl, rfl, rfl⟩
      · refine ⟨?_, ?_, rfl⟩
        · simp only [Option.map_some, Option.getD_some, Nat.succ_ne_zero, if_false,
            Nat.add_sub_cancel, long, SlotSet.put, getLsbD_setBit (hlt i), Fin.ext_iff]
        · simp only [Option.map_some, Option.getD_some, Nat.succ_ne_zero, if_false,
            Nat.add_sub_cancel, short, getLsbD_setBit (hlt i)]
          congr 1
          funext j
          rw [if_neg]
          have := i.isLt
          omega
    · rw [if_neg hset, if_neg hset]
      exact ⟨rfl, rfl, rfl⟩
  · split_ifs with hclear
    · refine ⟨?_, ?_, rfl⟩
      · simp only [long, SlotSet.drop, getLsbD_clearBit (hlt i), Fin.ext_iff]
      · simp only [short, getLsbD_clearBit (hlt i)]
        congr 1
        funext j
        rw [if_neg]
        have := i.isLt
        omega
    · exact ⟨rfl, rfl, rfl⟩

/-- An operation on a short number is one on the slots for them, and leaves the others alone. -/
theorem op_short {type : ℕ} (hshort : isLongOption type = false) (op : FilterOp) :
    ∃ free, IsFree f.short free ∧
      (coapOptionFilterOp f type op).1.short = (slotOp f.short type op free).1 ∧
      (coapOptionFilterOp f type op).1.long = f.long ∧
      (coapOptionFilterOp f type op).2 = (slotOp f.short type op free).2 := by
  -- the highest bit that is not set is that of a free slot, if there is one
  obtain ⟨free, hfree, hindex⟩ : ∃ free : Option (Fin coapOptFilterShort), IsFree f.short free ∧
      coapFls (~~~f.mask &&& shortMask).toNat =
        (free.map fun i => coapOptFilterLong + i.val + 1).getD 0 := by
    by_cases h0 : coapFls (~~~f.mask &&& shortMask).toNat = 0
    · refine ⟨none, fun i => coapFls_full h0 (shortMask_iff.2 ?_), h0⟩
      exact ⟨Nat.le_add_right _ _, Nat.add_lt_add_left i.isLt _⟩
    · obtain ⟨hkind, hbit⟩ := coapFls_free h0
      obtain ⟨hle, hlt⟩ := shortMask_iff.1 hkind
      obtain ⟨k, hk⟩ := Nat.exists_eq_add_of_le hle
      rw [hk] at hlt hbit
      refine ⟨some ⟨k, Nat.lt_of_add_lt_add_left hlt⟩, hbit, ?_⟩
      rw [Option.map_some, Option.getD_some, ← hk]
      omega
  refine ⟨free, hfree, ?_⟩
  have htype : type % 2 ^ 8 = type := by
    rw [isLongOption, decide_eq_false_iff_not] at hshort
    exact Nat.mod_eq_of_lt (by omega)
  rw [coapOptionFilterOp, if_neg (by rw [hshort]; exact Bool.false_ne_true), slotOp.eq_def, hindex,
    htype]
  have hsame : ((List.finRange coapOptFilterShort).find? fun (i : Fin coapOptFilterShort) =>
    f.mask.getLsbD (coapOptFilterLong + i) && decide (f.shortOpts i = type)) =
      f.short.find type := rfl
  rw [hsame]
  have hlt : ∀ i : Fin coapOptFilterShort, coapOptFilterLong + i.val < 16 := fun i =>
    (Nat.add_lt_add_left i.isLt _).trans (by decide)
  -- a number that is not stored may be put in, one that is may be dropped
  rcases f.short.find type with _ | i <;> dsimp only
  · by_cases hset : op = .set
    · rw [if_pos hset, if_pos hset]
      rcases free with _ | i
      · exact ⟨rfl, rfl, rfl⟩
      · have hi : coapOptFilterLong + i.val + 1 - coapOptFilterLong - 1 = i := by omega
        refine ⟨?_, ?_, rfl⟩
        · simp only [Option.map_some, Option.getD_some, Nat.succ_ne_zero, if_false, hi,
            Nat.add_sub_cancel, short, SlotSet.put, getLsbD_setBit (hlt i), Fin.ext_iff,
            Nat.add_left_cancel_iff]
        · simp only [Option.map_some, Option.getD_some, Nat.succ_ne_zero, if_false,
            Nat.add_sub_cancel, long, getLsbD_setBit (hlt i)]
          congr 1
          funext j
          rw [if_neg]
          have := j.isLt
          omega
    · rw [if_neg hset, if_neg hset]
      exact ⟨rfl, rfl, rfl⟩
  · split_ifs with hclear
    · refine ⟨?_, ?_, rfl⟩
      · simp only [short, SlotSet.drop, getLsbD_clearBit (hlt i), Fin.ext_iff,
          Nat.add_left_cancel_iff]
      · simp only [long, getLsbD_clearBit (hlt i)]
        congr 1
        funext j
        rw [if_neg]
        have := j.isLt
        omega
    · exact ⟨rfl, rfl, rfl⟩

end OptFilter

/-! ## A filter is a set -/

/-- What an operation does to the numbers of the kind it is about, of which there may be `n`. -/
def kindStep (n : ℕ) (s : Finset ℕ) (op : FilterOp) (type : ℕ) : Finset ℕ × Bool :=
  if type ∈ s then (if op = .clear then s.erase type else s, true)
  else if op = .set ∧ s.card < n then (insert type s, true)
  else (s, false)

theorem mem_kindStep {n : ℕ} {s : Finset ℕ} {op : FilterOp} {type t : ℕ}
    (h : t ∈ (kindStep n s op type).1) : t ∈ s ∨ t = type := by
  rw [kindStep] at h
  split_ifs at h
  · exact .inl (Finset.mem_of_mem_erase h)
  · exact .inl h
  · exact (Finset.mem_insert.1 h).symm
  · exact .inl h

/-- An operation does nothing to the numbers of the other kind. -/
theorem filterSetStep_union {s others : Finset ℕ} {type : ℕ} (op : FilterOp)
    (hs : ∀ t ∈ s, isLongOption t = isLongOption type)
    (hothers : ∀ t ∈ others, isLongOption t ≠ isLongOption type) :
    filterSetStep (s ∪ others) (op, type) =
      ((kindStep (if isLongOption type then coapOptFilterLong else coapOptFilterShort) s op
          type).1 ∪ others,
        (kindStep (if isLongOption type then coapOptFilterLong else coapOptFilterShort) s op
          type).2) := by
  have hnot : type ∉ others := fun h => hothers type h rfl
  have hmem : type ∈ s ∪ others ↔ type ∈ s := by
    rw [Finset.mem_union, or_iff_left hnot]
  have hkind : ((s ∪ others).filter fun t => isLongOption t = isLongOption type) = s := by
    rw [Finset.filter_union, Finset.filter_true_of_mem hs, Finset.filter_false_of_mem hothers,
      Finset.union_empty]
  have herase : (s ∪ others).erase type = s.erase type ∪ others := by
    rw [Finset.erase_union_distrib, Finset.erase_eq_of_notMem hnot]
  simp only [filterSetStep, kindStep, hmem, hkind]
  by_cases hin : type ∈ s
  · rw [if_pos hin, if_pos hin]
    split_ifs
    · rw [herase]
    · rfl
  · rw [if_neg hin, if_neg hin]
    generalize (if isLongOption type then coapOptFilterLong else coapOptFilterShort) = n
    split_ifs
    · rw [Finset.insert_union]
    · rfl

namespace OptFilter

variable {f : OptFilter}

/-- An operation keeps a filter as it should be, and does to its numbers what it does to a
    set. -/
theorem Good.op (hf : f.Good) (type : ℕ) (op : FilterOp) :
    (coapOptionFilterOp f type op).1.Good ∧
      ((coapOptionFilterOp f type op).1.elems, (coapOptionFilterOp f type op).2) =
        filterSetStep f.elems (op, type) := by
  -- one half of the slots changes; the numbers of the other half are of the other kind
  rcases hkind : isLongOption type with _ | _
  · obtain ⟨free, hfree, hshort, hlong, hres⟩ := @op_short f type hkind op
    obtain ⟨hdistinct, heq⟩ := slotOp_spec type op hf.short_distinct hfree
    rw [← hshort, ← hres] at heq
    rw [← hshort] at hdistinct
    change _ = kindStep coapOptFilterShort f.short.elems op type at heq
    obtain ⟨helems, hres'⟩ := Prod.mk.inj heq
    refine ⟨⟨by rw [hlong]; exact hf.long_distinct, hdistinct,
      by rw [hlong]; exact hf.long_long, fun t ht => ?_⟩, ?_⟩
    · rw [helems] at ht
      rcases mem_kindStep ht with ht | rfl
      · exact hf.short_short t ht
      · exact hkind
    · rw [elems, elems, Finset.union_comm, Finset.union_comm f.long.elems,
        filterSetStep_union op (fun t ht => (hf.short_short t ht).trans hkind.symm)
          (fun t ht => by rw [hf.long_long t ht, hkind]; exact Bool.noConfusion),
        hlong, helems, hres', hkind]
      rfl
  · obtain ⟨free, hfree, hlong, hshort, hres⟩ := @op_long f type hkind op
    obtain ⟨hdistinct, heq⟩ := slotOp_spec type op hf.long_distinct hfree
    rw [← hlong, ← hres] at heq
    rw [← hlong] at hdistinct
    change _ = kindStep coapOptFilterLong f.long.elems op type at heq
    obtain ⟨helems, hres'⟩ := Prod.mk.inj heq
    refine ⟨⟨hdistinct, by rw [hshort]; exact hf.short_distinct, fun t ht => ?_,
      by rw [hshort]; exact hf.short_short⟩, ?_⟩
    · rw [helems] at ht
      rcases mem_kindStep ht with ht | rfl
      · exact hf.long_long t ht
      · exact hkind
    · rw [elems, elems,
        filterSetStep_union op (fun t ht => (hf.long_long t ht).trans hkind.symm)
          (fun t ht => by rw [hf.short_short t ht, hkind]; exact Bool.noConfusion),
        hshort, helems, hres', hkind]
      rfl

theorem elems_clear : clear.long.elems = ∅ ∧ clear.short.elems = ∅ := by
  constructor <;> decide

theorem good_clear : clear.Good where
  long_distinct i j hi := absurd hi (by revert i; decide)
  short_distinct i j hi := absurd hi (by revert i; decide)
  long_long t ht := by
    rw [elems_clear.1] at ht
    exact absurd ht (Finset.notMem_empty t)
  short_short t ht := by
    rw [elems_clear.2] at ht
    exact absurd ht (Finset.notMem_empty t)

end OptFilter

/-- An operation on a filter, as a step. -/
def filterStep (f : OptFilter) (op : FilterOp × ℕ) : OptFilter × Bool :=
  coapOptionFilterOp f op.2 op.1

/-- A filter holds what a set with room for two long and six short numbers holds, and gives the
    same answers, whatever is done to the two. -/
theorem filterRun_eq (ops : List (FilterOp × ℕ)) :
    (specRun filterStep OptFilter.clear ops).1.elems = (specRun filterSetStep ∅ ops).1 ∧
      (specRun filterStep OptFilter.clear ops).2 = (specRun filterSetStep ∅ ops).2 := by
  suffices hall : ∀ f : OptFilter, f.Good →
      (specRun filterStep f ops).1.elems = (specRun filterSetStep f.elems ops).1 ∧
        (specRun filterStep f ops).2 = (specRun filterSetStep f.elems ops).2 by
    have helems : OptFilter.clear.elems = ∅ := by
      rw [OptFilter.elems, OptFilter.elems_clear.1, OptFilter.elems_clear.2, Finset.union_empty]
    rw [← helems]
    exact hall _ OptFilter.good_clear
  induction ops with
  | nil => exact fun f _ => ⟨rfl, rfl⟩
  | cons op ops ih =>
    intro f hf
    obtain ⟨hgood, heq⟩ := hf.op op.2 op.1
    have heq' : ((filterStep f op).1.elems, (filterStep f op).2) = filterSetStep f.elems op := heq
    obtain ⟨hstate, hanswers⟩ := ih _ hgood
    rw [specRun, specRun, ← heq']
    exact ⟨hstate, congrArg ((filterStep f op).2 :: ·) hanswers⟩

/-- Asking a filter that holds one number. -/
theorem coapOptionFilterGet_set (n type : ℕ) :
    coapOptionFilterGet (coapOptionFilterOp OptFilter.clear n .set).1 type = decide (type = n) := by
  obtain ⟨hgood, heq⟩ := OptFilter.good_clear.op n .set
  have hclear : OptFilter.clear.elems = ∅ := by
    rw [OptFilter.elems, OptFilter.elems_clear.1, OptFilter.elems_clear.2, Finset.union_empty]
  have hset : filterSetStep OptFilter.clear.elems (.set, n) = ({n}, true) := by
    rw [hclear, filterSetStep, if_neg (Finset.notMem_empty n), if_pos]
    · rfl
    · refine ⟨rfl, ?_⟩
      rw [Finset.filter_empty, Finset.card_empty]
      split_ifs <;> decide
  have helems : (coapOptionFilterOp OptFilter.clear n .set).1.elems = {n} :=
    congrArg Prod.fst (heq.trans hset)
  have hget := congrArg Prod.snd (hgood.op type .get).2
  dsimp only at hget
  rw [coapOptionFilterGet, hget, helems]
  by_cases h : type = n
  · rw [filterSetStep, if_pos (Finset.mem_singleton.2 h), decide_eq_true h]
  · rw [filterSetStep, if_neg (fun hmem => h (Finset.mem_singleton.1 hmem)),
      if_neg (fun hset => by cases hset.1), decide_eq_false h]

end CoapBroker
