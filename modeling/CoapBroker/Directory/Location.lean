import CoapBroker.Directory.ParseParam

/-!
# Locations in the resource directory

The location of a new entry of the resource directory, as `hnd_post_rd` puts it together in a
buffer of `LOCSIZE` bytes from the parameters `h` and `ins` of the query, the message id and the
time (`rdLocation`). Here it is an error if `LOCSIZE - loc_size - 1` is negative, which unsigned
arithmetic makes a huge number, if `loc_size` grows beyond `LOCSIZE`, or if a byte outside the
buffer is written.

What is appended is cut to what there is room for, but a node name that is cut leaves room for
the separator only. So the buffer overflows exactly when such a name comes with an instance
(`rdLocation_fits_iff`).
-/

namespace CoapBroker.Directory

/-- The size of the buffer for a location. -/
def LOCSIZE : ℕ := 68

/-- `RD_ROOT_STR`. -/
def rdRootStr : List Byte := ascii "rd"

/-- An access to a buffer. -/
def access {α : Type} : Except Access α → Except Fault α := Except.mapError Fault.access

/-- A location while it is built: the buffer `loc` and `loc_size`. -/
structure Loc where
  loc : Buf
  locSize : ℕ
  deriving DecidableEq

/-- `LOCSIZE - loc_size - 1`. -/
def Loc.room (l : Loc) : Except Fault ℕ :=
  if l.locSize + 1 ≤ LOCSIZE then .ok (LOCSIZE - l.locSize - 1) else .error .wrap

/-- `loc_size += n`, after writing to the buffer. -/
def Loc.grow (l : Loc) (loc : Buf) (n : ℕ) : Except Fault Loc :=
  if l.locSize + n ≤ LOCSIZE then .ok ⟨loc, l.locSize + n⟩ else .error (.size (l.locSize + n))

/-- `loc[loc_size++] = b`. -/
def Loc.push (l : Loc) (b : Byte) : Except Fault Loc := do
  let loc ← access (l.loc.store l.locSize b)
  l.grow loc 1

/-- `memcpy(loc + loc_size, s.s, min(s.length, LOCSIZE - loc_size - 1))` and
    `loc_size += min(s.length, LOCSIZE - loc_size - 1)`, for a string in the query. -/
def Loc.append (l : Loc) (query : List Byte) (s : Str) : Except Fault Loc := do
  let room ← l.room
  match s.s with
  | none => .error .null
  | some p =>
    let loc ← access (l.loc.memcpy l.locSize (query.map some) p (min s.length room))
    l.grow loc (min s.length room)

/-- `loc_size += snprintf(loc + loc_size, LOCSIZE - loc_size - 1, ...)`. -/
def Loc.print (l : Loc) (s : List Byte) : Except Fault Loc := do
  let room ← l.room
  let (loc, n) ← access (l.loc.snprintf l.locSize room s)
  l.grow loc n

/-- The output of `%x`. -/
def hex (n : ℕ) : List Byte := (Nat.toDigits 16 n).map Char.toUInt8

/-- A parameter of the query, its string being zero at first. -/
def queryParam (search : List Byte) (query : Option (List Byte)) : Except Fault Str :=
  match query with
  | none => .ok .zero
  | some data => do
    let (_, result) ← parseParam search data (some .zero)
    .ok (result.getD .zero)

/-- The location when the client has specified a node name. -/
def Loc.named (l : Loc) (data : List Byte) (h ins : Str) : Except Fault Loc := do
  let l ← l.append data h
  if ins.length ≠ 0 ∧ l.locSize > 1 then
    let l ← l.push '-'
    l.append data ins
  else .ok l

/-- The location when a node identifier is generated. -/
def Loc.generated (l : Loc) (data : List Byte) (ins : Str) (id : UInt16) (now : ℕ) :
    Except Fault Loc := do
  let l ← l.print (hex id.toNat)
  if l.locSize > 1 then
    if ins.length ≠ 0 then
      let l ← l.push '-'
      l.append data ins
    else l.print ((('-' : Char) : Byte) :: hex (now % 2 ^ 32))
  else .ok l

/-- The location `hnd_post_rd` builds for a request with this `Uri-Query` option and this message
    id, at the time `now`. -/
def rdLocation (query : Option (List Byte)) (id : UInt16) (now : ℕ) : Except Fault Loc := do
  let loc ← access ((Buf.malloc LOCSIZE).write 0 rdRootStr)
  let l ← Loc.push ⟨loc, rdRootStr.length⟩ '/'
  let h ← queryParam (ascii "h") query
  let ins ← queryParam (ascii "ins") query
  if h.length ≠ 0 then l.named (query.getD []) h ins
  else l.generated (query.getD []) ins id now

/-! ## Appending -/

variable {l : Loc} {t v query : List Byte} {s : Str} {b : Byte}

/-- The buffer holds the text `t` so far. -/
structure Loc.Holds (l : Loc) (t : List Byte) : Prop where
  locSize : l.locSize = t.length
  length : l.loc.length = LOCSIZE
  loc : t.map some <+: l.loc

/-- Where there is room for more, the buffer can be split. -/
theorem Loc.Holds.split (h : l.Holds t) :
    ∃ rest, l.loc = t.map some ++ rest ∧ t.length + rest.length = LOCSIZE := by
  obtain ⟨rest, hrest⟩ := h.loc
  refine ⟨rest, hrest.symm, ?_⟩
  rw [← h.length, ← hrest, List.length_append, List.length_map]

theorem Loc.push_holds (h : l.Holds t) (hroom : t.length < LOCSIZE) :
    ∃ l', l.push b = .ok l' ∧ l'.Holds (t ++ [b]) := by
  obtain ⟨rest, hloc, hlen⟩ := h.split
  rcases rest with _ | ⟨x, rest⟩
  · rw [List.length_nil] at hlen
    omega
  have hstore : l.loc.store l.locSize b = .ok (t.map some ++ some b :: rest) := by
    have hmap : (t.length : ℤ) = (t.map some).length := by rw [List.length_map]
    rw [hloc, h.locSize, hmap]
    exact Buf.store_append_cons
  have hgrow : l.locSize + 1 ≤ LOCSIZE := by rw [h.locSize]; exact hroom
  refine ⟨⟨t.map some ++ some b :: rest, l.locSize + 1⟩, ?_, ?_, ?_, ?_⟩
  · rw [Loc.push, hstore]
    exact if_pos hgrow
  · rw [List.length_append, h.locSize]
    rfl
  · rw [← hlen, List.length_append, List.length_map]
    rfl
  · rw [List.map_append, List.map_singleton]
    exact ⟨rest, by rw [List.append_assoc]; rfl⟩

/-- Growing after some bytes have been written behind the text. -/
theorem Loc.grow_holds (h : l.Holds t) {rest : Buf} (hlen : t.length + rest.length = LOCSIZE)
    (hroom : v.length ≤ rest.length) {w : Buf} (hw : v.map some <+: w)
    (hwlen : w.length = rest.length) :
    ∃ l', l.grow (t.map some ++ w) v.length = .ok l' ∧ l'.Holds (t ++ v) := by
  have hgrow : l.locSize + v.length ≤ LOCSIZE := by
    rw [h.locSize]
    omega
  refine ⟨⟨t.map some ++ w, l.locSize + v.length⟩, if_pos hgrow, ?_, ?_, ?_⟩
  · rw [List.length_append, h.locSize]
  · rw [← hlen, ← hwlen, List.length_append, List.length_map]
  · rw [List.map_append, List.prefix_append_right_inj]
    exact hw

/-- What is appended is cut to what there is room for. -/
theorem Loc.append_holds (h : l.Holds t) (hroom : t.length < LOCSIZE) (hs : s.Denotes query v)
    (hne : s.length ≠ 0) :
    ∃ l', l.append query s = .ok l' ∧ l'.Holds (t ++ v.take (LOCSIZE - t.length - 1)) := by
  obtain ⟨rest, hloc, hlen⟩ := h.split
  have hv : v ≠ [] := fun hnil => hne (hs.1.trans (List.length_eq_zero_iff.2 hnil))
  obtain ⟨p, hp, htake⟩ := hs.2 hv
  generalize hw : v.take (LOCSIZE - t.length - 1) = w
  have hwlen : w.length = min s.length (LOCSIZE - t.length - 1) := by
    rw [← hw, List.length_take, hs.1, min_comm]
  have hle : p ≤ query.length := by
    by_contra hp
    rw [List.drop_of_length_le (by omega), List.take_nil] at htake
    exact hv htake.symm
  -- the query around what is copied
  have hquery : query.map some =
      (query.take p).map some ++ (w.map some ++ ((query.drop p).drop w.length).map some) := by
    have hpre : w <+: query.drop p := by
      rw [← hw, ← htake]
      exact (List.take_prefix _ _).trans (List.take_prefix _ _)
    rw [← List.map_append, ← List.map_append]
    conv_lhs => rw [← List.take_append_drop p query, ← List.take_append_drop w.length (query.drop p)]
    rw [← List.prefix_iff_eq_take.1 hpre]
  have hcopy : l.loc.memcpy l.locSize (query.map some) p (min s.length (LOCSIZE - t.length - 1)) =
      .ok (t.map some ++ (w.map some ++ rest.drop w.length)) := by
    have hplen : (p : ℤ) = ((query.take p).map some).length := by
      rw [List.length_map, List.length_take_of_le hle]
    have htlen : (t.length : ℤ) = (t.map some).length := by rw [List.length_map]
    rw [hloc, h.locSize, hquery, ← hwlen, hplen, htlen, ← List.append_assoc (t.map some)]
    exact Buf.memcpy_append (by omega)
  have hsize : l.room = .ok (LOCSIZE - t.length - 1) := by
    rw [Loc.room, h.locSize]
    exact if_pos hroom
  obtain ⟨l', hgrow, hholds⟩ := Loc.grow_holds h hlen (by omega) (List.prefix_append _ _)
    (w := w.map some ++ rest.drop w.length) (by
      rw [List.length_append, List.length_map, List.length_drop]
      omega)
  refine ⟨l', ?_, hholds⟩
  rw [Loc.append, hsize, hp]
  change (access (l.loc.memcpy _ _ _ _) >>= _) = _
  rw [hcopy, ← hwlen]
  exact hgrow

/-- A full buffer makes the room for more wrap around. -/
theorem Loc.append_wrap (h : l.Holds t) (hfull : LOCSIZE ≤ t.length) :
    l.append query s = .error .wrap := by
  have hroom : l.room = .error .wrap := if_neg (by rw [h.locSize]; omega)
  rw [Loc.append, hroom]
  rfl

theorem Loc.print_holds (h : l.Holds t) (hroom : t.length + v.length + 1 < LOCSIZE) :
    ∃ l', l.print v = .ok l' ∧ l'.Holds (t ++ v) := by
  obtain ⟨rest, hloc, hlen⟩ := h.split
  have htake : v.take (LOCSIZE - t.length - 1 - 1) = v := List.take_of_length_le (by omega)
  have hprint : l.loc.snprintf l.locSize (LOCSIZE - t.length - 1) v =
      .ok (t.map some ++ ((v ++ [0]).map some ++ rest.drop (v ++ [0]).length), v.length) := by
    have htlen : (t.length : ℤ) = (t.map some).length := by rw [List.length_map]
    rw [Buf.snprintf, if_neg (by omega), htake, hloc, h.locSize, htlen, Buf.write_append (by
      rw [List.length_append, List.length_singleton]
      omega), List.append_assoc]
    rfl
  have hsize : l.room = .ok (LOCSIZE - t.length - 1) := by
    rw [Loc.room, h.locSize]
    exact if_pos (by omega)
  have hpre : v.map some <+: (v ++ [0]).map some ++ rest.drop (v ++ [0]).length := by
    rw [List.map_append, List.append_assoc]
    exact List.prefix_append _ _
  obtain ⟨l', hgrow, hholds⟩ := Loc.grow_holds h hlen (by omega) hpre (by
    rw [List.length_append, List.length_map, List.length_drop, List.length_append,
      List.length_singleton]
    omega)
  refine ⟨l', ?_, hholds⟩
  rw [Loc.print, hsize]
  change (access (l.loc.snprintf _ _ _) >>= _) = _
  rw [hprint]
  exact hgrow

/-! ## The parts of a location -/

/-- What `parse_param` finds in the query. -/
def queryText (search : List Byte) (query : Option (List Byte)) : List Byte :=
  (query.bind fun data => scanned search (data.splitOn amp)).getD []

theorem queryParam_denotes {search : List Byte} (hne : search ≠ []) (heq : equals ∉ search)
    (hamp : amp ∉ search) (query : Option (List Byte)) :
    ∃ s, queryParam search query = .ok s ∧ s.Denotes (query.getD []) (queryText search query) := by
  rcases query with _ | data
  · exact ⟨.zero, rfl, rfl, fun h => absurd rfl h⟩
  · obtain ⟨out, hparse, hsome, hdenotes⟩ := parseParam_scanned hne heq hamp data (some .zero)
    obtain ⟨s, rfl⟩ := Option.isSome_iff_exists.1 hsome
    refine ⟨s, ?_, hdenotes s rfl⟩
    rw [queryParam, hparse]
    rfl

theorem hex_length_le {n k : ℕ} (hk : 0 < k) (hn : n < 16 ^ k) : (hex n).length ≤ k := by
  rw [hex, List.length_map]
  exact (Nat.length_toDigits_le_iff (by decide) hk).2 hn

/-- A location begins with the root of the directory. -/
theorem start_holds :
    ∃ l, (access ((Buf.malloc LOCSIZE).write 0 rdRootStr) >>= fun loc =>
      Loc.push ⟨loc, rdRootStr.length⟩ '/') = .ok l ∧ l.Holds (ascii "rd/") :=
  ⟨_, rfl, rfl, by decide, by decide⟩

/-- The node's name fills the buffer, and an instance follows. -/
def Overfull (query : Option (List Byte)) : Prop :=
  64 ≤ (queryText (ascii "h") query).length ∧ queryText (ascii "ins") query ≠ []

/-- Appending the instance, behind a separator. -/
theorem Loc.instance_holds (h : l.Holds t) (hroom : t.length + 1 < LOCSIZE) (hs : s.Denotes query v)
    (hne : s.length ≠ 0) :
    ∃ l' u, (l.push '-' >>= fun l => l.append query s) = .ok l' ∧ l'.Holds (t ++ u) := by
  obtain ⟨l₁, hpush, hholds⟩ := Loc.push_holds (b := '-') h (by omega)
  obtain ⟨l₂, happend, hholds⟩ := Loc.append_holds hholds (by simpa using hroom) hs hne
  rw [List.append_assoc] at hholds
  refine ⟨l₂, _, ?_, hholds⟩
  rw [hpush]
  exact happend

/-- A node name of 64 bytes or more leaves room for the separator only. -/
theorem Loc.named_cases {h ins : Str} {w : List Byte} (hl : l.Holds (ascii "rd/"))
    (hh : h.Denotes query v) (hins : ins.Denotes query w) (hne : h.length ≠ 0) :
    (64 ≤ h.length ∧ ins.length ≠ 0) ∧ l.named query h ins = .error .wrap ∨
      ¬(64 ≤ h.length ∧ ins.length ≠ 0) ∧
        ∃ l' t, l.named query h ins = .ok l' ∧ l'.Holds (ascii "rd/" ++ t) := by
  obtain ⟨l₁, happend, hl₁⟩ := Loc.append_holds hl (by decide) hh hne
  have hlen : (ascii "rd/" ++ v.take (LOCSIZE - (ascii "rd/").length - 1)).length =
      3 + min 64 h.length := by
    rw [List.length_append, List.length_take, hh.1]
    rfl
  have hbig : l₁.locSize > 1 := by
    rw [hl₁.locSize, hlen]
    omega
  have hsize : 67 < LOCSIZE := by decide
  rw [Loc.named, happend]
  simp only [bind, Except.bind]
  by_cases hi : ins.length ≠ 0
  swap
  · exact .inr ⟨fun h => hi h.2, l₁, _, if_neg fun h => hi h.1, hl₁⟩
  rw [if_pos ⟨hi, hbig⟩]
  by_cases h64 : 64 ≤ h.length
  · obtain ⟨l₂, hpush, hl₂⟩ := Loc.push_holds (b := '-') hl₁ (by omega)
    refine .inl ⟨⟨h64, hi⟩, ?_⟩
    rw [hpush]
    refine Loc.append_wrap hl₂ ?_
    rw [List.length_append, hlen, min_eq_left h64]
    decide
  · obtain ⟨l₂, u, hinst, hl₂⟩ := Loc.instance_holds hl₁ (by omega) hins hi
    rw [List.append_assoc] at hl₂
    exact .inr ⟨fun h => h64 h.1, l₂, _, hinst, hl₂⟩

/-- A generated identifier is short. -/
theorem Loc.generated_holds {ins : Str} (hl : l.Holds (ascii "rd/")) (hins : ins.Denotes query v)
    (id : UInt16) (now : ℕ) :
    ∃ l' t, l.generated query ins id now = .ok l' ∧ l'.Holds (ascii "rd/" ++ t) := by
  have hid : (hex id.toNat).length ≤ 4 := hex_length_le (by decide) id.toNat_lt
  have htime : (hex (now % 2 ^ 32)).length ≤ 8 :=
    hex_length_le (by decide) (Nat.mod_lt _ (by decide))
  have hlen : (ascii "rd/" ++ hex id.toNat).length ≤ 7 := by
    rw [List.length_append]
    exact Nat.add_le_add_left hid 3
  have hsize : 20 < LOCSIZE := by decide
  obtain ⟨l₁, hprint, hl₁⟩ := Loc.print_holds hl (v := hex id.toNat) (by
    rw [List.length_append] at hlen
    omega)
  have hbig : l₁.locSize > 1 := by
    rw [hl₁.locSize, List.length_append]
    exact Nat.lt_of_lt_of_le (by decide) (Nat.le_add_right 3 _)
  rw [Loc.generated, hprint]
  simp only [bind, Except.bind]
  rw [if_pos hbig]
  by_cases hi : ins.length ≠ 0
  · rw [if_pos hi]
    obtain ⟨l₂, u, hinst, hl₂⟩ := Loc.instance_holds hl₁ (by omega) hins hi
    rw [List.append_assoc] at hl₂
    exact ⟨l₂, _, hinst, hl₂⟩
  · rw [if_neg hi]
    have hroom : (ascii "rd/" ++ hex id.toNat).length +
        ((('-' : Char) : Byte) :: hex (now % 2 ^ 32)).length + 1 < LOCSIZE := by
      rw [List.length_cons]
      omega
    obtain ⟨l₂, hprint', hl₂⟩ := Loc.print_holds hl₁ hroom
    rw [List.append_assoc] at hl₂
    exact ⟨l₂, _, hprint', hl₂⟩

theorem rdLocation_cases (query : Option (List Byte)) (id : UInt16) (now : ℕ) :
    Overfull query ∧ rdLocation query id now = .error .wrap ∨
      ¬Overfull query ∧ ∃ l t, rdLocation query id now = .ok l ∧ l.Holds (ascii "rd/" ++ t) := by
  obtain ⟨l, hstart, hl⟩ := start_holds
  obtain ⟨h, hparam, hh⟩ :=
    queryParam_denotes (by decide : ascii "h" ≠ []) (by decide) (by decide) query
  obtain ⟨ins, hparam', hins⟩ :=
    queryParam_denotes (by decide : ascii "ins" ≠ []) (by decide) (by decide) query
  have hover : Overfull query ↔ 64 ≤ h.length ∧ ins.length ≠ 0 := by
    rw [Overfull, hh.1, hins.1, Ne, Ne, List.length_eq_zero_iff]
  have hloc : rdLocation query id now =
      if h.length ≠ 0 then l.named (query.getD []) h ins
      else l.generated (query.getD []) ins id now := by
    rw [rdLocation, ← bind_assoc, hstart]
    simp only [bind, Except.bind, hparam, hparam']
  rw [hover, hloc]
  by_cases hne : h.length ≠ 0
  · rw [if_pos hne]
    exact Loc.named_cases hl hh hins hne
  · rw [if_neg hne]
    exact .inr ⟨fun h64 => hne fun h0 => absurd h64.1 (by rw [h0]; decide),
      Loc.generated_holds hl hins id now⟩

/-- The location fits its buffer, and no size wraps around, unless the node's name takes all the
    room and an instance is given too. -/
theorem rdLocation_fits_iff (query : Option (List Byte)) (id : UInt16) (now : ℕ) :
    (∃ l, rdLocation query id now = .ok l) ↔ ¬Overfull query := by
  rcases rdLocation_cases query id now with ⟨hover, herror⟩ | ⟨hfits, l, t, hok, -⟩
  · refine iff_of_false ?_ (not_not.2 hover)
    rintro ⟨l, hok⟩
    rw [herror] at hok
    cases hok
  · exact iff_of_true ⟨l, hok⟩ hfits

/-- A node name of 64 bytes with an instance of one byte, in a query of 72 bytes. -/
theorem rdLocation_overflows :
    let query := ascii "h=" ++ List.replicate 64 ('a' : Byte) ++ ascii "&ins=b"
    query.length = 72 ∧ rdLocation (some query) 0 0 = .error .wrap ∧
      ¬∃ l, rdLocation (some query) 0 0 = .ok l := by
  intro query
  have hwrap : rdLocation (some query) 0 0 = .error .wrap := by decide +kernel
  refine ⟨rfl, hwrap, ?_⟩
  rintro ⟨l, hok⟩
  rw [hwrap] at hok
  cases hok

end CoapBroker.Directory
