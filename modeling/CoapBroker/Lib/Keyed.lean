import Mathlib.Data.List.Nodup
import Mathlib.Tactic

/-!
# Lists of records with a key

A list whose records are looked up, changed and deleted by a key, the way a
walk through a linked list does it: the first record with the key counts
(`find`, `modify`, `erase`). When the keys are pairwise distinct (`Distinct`),
the first record is the only one, and these operations are the ones of a finite
map kept in order: `modify_eq_map`, `erase_eq_filter`, `find_of_mem`; the
distinctness is kept by all of them.
-/

namespace CoapBroker.Keyed

variable {α κ : Type*} [DecidableEq κ] (key : α → κ)

/-- The first record with the key `k`. -/
def find (l : List α) (k : κ) : Option α := l.find? fun a => key a = k

/-- Changing the first record with the key `k`. -/
def modify (k : κ) (f : α → α) : List α → List α
  | [] => []
  | a :: l => if key a = k then f a :: l else a :: modify k f l

/-- Deleting the first record with the key `k`. -/
def erase (k : κ) : List α → List α
  | [] => []
  | a :: l => if key a = k then l else a :: erase k l

/-- The keys are pairwise distinct. -/
def Distinct (l : List α) : Prop := (l.map key).Nodup

variable {key} {l : List α} {k k' : κ} {a : α} {f : α → α}

omit [DecidableEq κ] in
theorem ne_of_notMem_keys (ha : key a ∉ l.map key) {b : α} (hb : b ∈ l) : key b ≠ key a :=
  fun h => ha (h ▸ List.mem_map_of_mem hb)

/-! ## Looking up -/

theorem find_eq_none : find key l k = none ↔ k ∉ l.map key := by
  simp [find, List.find?_eq_none]

theorem find_isSome : (find key l k).isSome ↔ k ∈ l.map key := by
  simp [find, List.find?_isSome]

theorem mem_of_find (h : find key l k = some a) : a ∈ l := List.mem_of_find?_eq_some h

theorem key_of_find (h : find key l k = some a) : key a = k := by
  simpa using List.find?_some h

@[simp] theorem find_nil : find key [] k = none := rfl

theorem find_cons : find key (a :: l) k = if key a = k then some a else find key l k := by
  by_cases h : key a = k <;> simp [find, h]

theorem find_append_of_notMem {l' : List α} (h : k ∉ l.map key) :
    find key (l ++ l') k = find key l' k := by
  rw [find, List.find?_append, ← find, find_eq_none.2 h, Option.none_or, find]

theorem find_append_of_mem {l' : List α} (h : k ∈ l.map key) :
    find key (l ++ l') k = find key l k := by
  obtain ⟨b, hb⟩ := Option.isSome_iff_exists.1 (find_isSome.2 h)
  rw [find, List.find?_append, ← find, hb, Option.some_or]

section

variable {β : Type*} {key' : β → κ} {f : α → β} (hf : ∀ a, key' (f a) = key a)
include hf

theorem find_map : find key' (l.map f) k = (find key l k).map f := by
  simp [find, List.find?_map, hf]

theorem modify_map {g : β → β} {g' : α → α} (hg : ∀ a, g (f a) = f (g' a)) :
    modify key' k g (l.map f) = (modify key k g' l).map f := by
  induction l with
  | nil => rfl
  | cons a l ih =>
    rw [List.map_cons, modify, modify, hf]
    split_ifs
    · rw [List.map_cons, hg]
    · rw [List.map_cons, ih]

theorem erase_map : erase key' k (l.map f) = (erase key k l).map f := by
  induction l with
  | nil => rfl
  | cons a l ih =>
    rw [List.map_cons, erase, erase, hf]
    split_ifs
    · rfl
    · rw [List.map_cons, ih]

end

/-- With distinct keys, a record is found by its key. -/
theorem find_of_mem (hl : Distinct key l) (ha : a ∈ l) : find key l (key a) = some a := by
  induction l with
  | nil => exact absurd ha List.not_mem_nil
  | cons b l ih =>
    rw [Distinct, List.map_cons, List.nodup_cons] at hl
    rw [find_cons]
    rcases List.mem_cons.1 ha with rfl | ha
    · rw [if_pos rfl]
    · rw [if_neg (ne_of_notMem_keys hl.1 ha).symm, ih hl.2 ha]

theorem find_eq_some (hl : Distinct key l) : find key l k = some a ↔ a ∈ l ∧ key a = k :=
  ⟨fun h => ⟨mem_of_find h, key_of_find h⟩, fun ⟨ha, hk⟩ => hk ▸ find_of_mem hl ha⟩

/-! ## Changing -/

/-- A change that keeps the key keeps the list of keys. -/
theorem keys_modify (hf : ∀ a, key (f a) = key a) : (modify key k f l).map key = l.map key := by
  induction l with
  | nil => rfl
  | cons a l ih =>
    rw [modify]
    split
    · rw [List.map_cons, List.map_cons, hf]
    · rw [List.map_cons, List.map_cons, ih]

theorem Distinct.modify (hl : Distinct key l) (hf : ∀ a, key (f a) = key a) :
    Distinct key (modify key k f l) := by
  rw [Distinct, keys_modify hf]
  exact hl

theorem modify_of_notMem (h : k ∉ l.map key) : modify key k f l = l := by
  induction l with
  | nil => rfl
  | cons a l ih =>
    rw [List.map_cons, List.mem_cons, not_or] at h
    rw [modify, if_neg (Ne.symm h.1), ih h.2]

theorem modify_id : modify key k id l = l := by
  induction l with
  | nil => rfl
  | cons a l ih => rw [modify, ih, id, ite_self]

@[simp] theorem length_modify : (modify key k f l).length = l.length := by
  induction l with
  | nil => rfl
  | cons a l ih =>
    rw [modify]
    split
    · rfl
    · rw [List.length_cons, List.length_cons, ih]

/-- With distinct keys, a change is a change of the only record with the key. -/
theorem modify_eq_map (hl : Distinct key l) :
    modify key k f l = l.map fun a => if key a = k then f a else a := by
  induction l with
  | nil => rfl
  | cons a l ih =>
    rw [Distinct, List.map_cons, List.nodup_cons] at hl
    rw [modify, List.map_cons]
    by_cases h : key a = k
    · rw [if_pos h, if_pos h]
      congr 1
      refine (List.map_id l).symm.trans (List.map_congr_left fun b hb => ?_)
      rw [if_neg (h ▸ ne_of_notMem_keys hl.1 hb), id]
    · rw [if_neg h, if_neg h, ih hl.2]

/-- What is in the list after a change. -/
theorem mem_modify {x : α} (h : x ∈ modify key k f l) :
    x ∈ l ∨ ∃ y ∈ l, key y = k ∧ x = f y := by
  induction l with
  | nil => exact absurd h List.not_mem_nil
  | cons a l ih =>
    rw [modify] at h
    split_ifs at h with ha
    · rcases List.mem_cons.1 h with rfl | h
      · exact .inr ⟨a, List.mem_cons_self, ha, rfl⟩
      · exact .inl (List.mem_cons_of_mem a h)
    · rcases List.mem_cons.1 h with rfl | h
      · exact .inl List.mem_cons_self
      · rcases ih h with hx | ⟨y, hy, hk, rfl⟩
        · exact .inl (List.mem_cons_of_mem a hx)
        · exact .inr ⟨y, List.mem_cons_of_mem a hy, hk, rfl⟩

theorem find_modify (hf : ∀ a, key (f a) = key a) :
    find key (modify key k f l) k' =
      if k' = k then (find key l k').map f else find key l k' := by
  induction l with
  | nil => simp [modify]
  | cons a l ih =>
    rw [modify, find_cons]
    by_cases ha : key a = k
    · rw [if_pos ha, find_cons, hf]
      by_cases hk : k' = k
      · simp [ha, hk]
      · simp [ha, hk, Ne.symm hk]
    · rw [if_neg ha, find_cons, ih]
      by_cases hk : key a = k'
      · simp [hk ▸ ha, hk]
      · simp [hk]

/-! ## Deleting -/

theorem keys_erase : (erase key k l).map key = (l.map key).erase k := by
  induction l with
  | nil => rfl
  | cons a l ih =>
    rw [erase, List.map_cons, List.erase_cons]
    by_cases h : key a = k <;> simp [h, ih]

theorem length_erase (h : k ∈ l.map key) : (erase key k l).length + 1 = l.length := by
  have hlen := List.length_erase_add_one h
  rwa [← keys_erase, List.length_map, List.length_map] at hlen

theorem erase_sublist : (erase key k l).Sublist l := by
  induction l with
  | nil => exact List.Sublist.refl _
  | cons a l ih =>
    rw [erase]
    split
    · exact List.sublist_cons_self a l
    · exact ih.cons_cons a

omit [DecidableEq κ] in
theorem Distinct.sublist {l' : List α} (hl : Distinct key l) (h : l'.Sublist l) :
    Distinct key l' :=
  List.Nodup.sublist (h.map key) hl

omit [DecidableEq κ] in
theorem Distinct.filter (hl : Distinct key l) (p : α → Bool) : Distinct key (l.filter p) :=
  hl.sublist List.filter_sublist

omit [DecidableEq κ] in
theorem keys_filter (p : κ → Prop) [DecidablePred p] :
    (l.filter fun a => p (key a)).map key = (l.map key).filter fun k => p k := by
  rw [List.filter_map]
  rfl

theorem Distinct.erase (hl : Distinct key l) : Distinct key (erase key k l) :=
  hl.sublist erase_sublist

theorem erase_of_notMem (h : k ∉ l.map key) : erase key k l = l := by
  induction l with
  | nil => rfl
  | cons a l ih =>
    rw [List.map_cons, List.mem_cons, not_or] at h
    rw [erase, if_neg (Ne.symm h.1), ih h.2]

theorem find_erase_of_ne (h : k' ≠ k) : find key (erase key k l) k' = find key l k' := by
  induction l with
  | nil => rfl
  | cons a l ih =>
    rw [erase]
    split_ifs with ha
    · rw [find_cons, if_neg fun hk => h (hk.symm.trans ha)]
    · rw [find_cons, find_cons, ih]

/-- With distinct keys, deleting takes out exactly the record with the key. -/
theorem erase_eq_filter (hl : Distinct key l) : erase key k l = l.filter fun a => key a ≠ k := by
  induction l with
  | nil => rfl
  | cons a l ih =>
    rw [Distinct, List.map_cons, List.nodup_cons] at hl
    rw [erase, List.filter_cons]
    by_cases h : key a = k
    · rw [if_pos h, if_neg (by simpa using h)]
      exact (List.filter_eq_self.2 fun b hb =>
        decide_eq_true (h ▸ ne_of_notMem_keys hl.1 hb)).symm
    · rw [if_neg h, if_pos (by simpa using h), ih hl.2]

/-- With distinct keys, deleting some record takes out that very record. -/
theorem list_erase_eq_filter [DecidableEq α] (hl : Distinct key l) (ha : a ∈ l) :
    l.erase a = l.filter fun b => key b ≠ key a := by
  have hnd : l.Nodup := List.Nodup.of_map key hl
  rw [hnd.erase_eq_filter]
  refine List.filter_congr fun b hb => ?_
  by_cases h : key b = key a
  · have : b = a := Option.some.inj ((find_of_mem hl hb).symm.trans (h ▸ find_of_mem hl ha))
    simp [this]
  · have : b ≠ a := fun hba => h (hba ▸ rfl)
    simp [h, this]

/-! ## At a record -/

section

variable {l' : List α} (hl : k ∉ l.map key) (ha : key a = k)
include hl ha

theorem find_append_cons : find key (l ++ a :: l') k = some a := by
  rw [find_append_of_notMem hl, find_cons, if_pos ha]

theorem modify_append_cons : modify key k f (l ++ a :: l') = l ++ f a :: l' := by
  induction l with
  | nil => rw [List.nil_append, modify, if_pos ha, List.nil_append]
  | cons b l ih =>
    rw [List.map_cons, List.mem_cons, not_or] at hl
    rw [List.cons_append, modify, if_neg (Ne.symm hl.1), ih hl.2, List.cons_append]

theorem erase_append_cons : erase key k (l ++ a :: l') = l ++ l' := by
  induction l with
  | nil => rw [List.nil_append, erase, if_pos ha, List.nil_append]
  | cons b l ih =>
    rw [List.map_cons, List.mem_cons, not_or] at hl
    rw [List.cons_append, erase, if_neg (Ne.symm hl.1), ih hl.2, List.cons_append]

end

/-- A record that is found, among the others. -/
theorem exists_split_of_find (h : find key l k = some a) :
    ∃ l₁ l₂, l = l₁ ++ a :: l₂ ∧ k ∉ l₁.map key ∧ key a = k := by
  obtain ⟨hk, l₁, l₂, rfl, hl₁⟩ := List.find?_eq_some_iff_append.1 h
  refine ⟨l₁, l₂, rfl, fun hmem => ?_, of_decide_eq_true hk⟩
  obtain ⟨b, hb, hkey⟩ := List.mem_map.1 hmem
  simpa [hkey] using hl₁ b hb

/-- Two changes of the record that is found have the same result exactly if they do the same to
    it. -/
theorem modify_eq_modify_iff {g : α → α} (h : find key l k = some a) :
    modify key k f l = modify key k g l ↔ f a = g a := by
  obtain ⟨l₁, l₂, rfl, hl₁, hk⟩ := exists_split_of_find h
  rw [modify_append_cons hl₁ hk, modify_append_cons hl₁ hk, List.append_cancel_left_eq,
    List.cons.injEq, and_iff_left rfl]

/-- Which record another key finds does not depend on this one. -/
theorem find_replace_of_ne {l' : List α} {b : α} (ha : key a ≠ k) (hb : key b ≠ k) :
    find key (l ++ a :: l') k = find key (l ++ b :: l') k := by
  simp [find, List.find?_append, ha, hb]

omit [DecidableEq κ] in
/-- A record among others can be told from all of them, in any order. -/
theorem eq_of_perm {l₁ l₂ : List α} {b : α} (h : (l₁ ++ a :: l₂).Perm (l₁ ++ b :: l₂)) :
    a = b := by
  rw [List.perm_append_left_iff] at h
  have hcons : a ::ₘ (l₂ : Multiset α) = b ::ₘ (l₂ : Multiset α) := Multiset.coe_eq_coe.2 h
  exact (Multiset.cons_inj_left _).1 hcons

/-! ## Adding -/

omit [DecidableEq κ] in
theorem Distinct.append_singleton (hl : Distinct key l) (ha : key a ∉ l.map key) :
    Distinct key (l ++ [a]) := by
  rw [Distinct, List.map_append, List.nodup_append]
  refine ⟨hl, List.nodup_singleton _, fun x hx y hy => ?_⟩
  rw [List.map_singleton, List.mem_singleton] at hy
  exact fun hxy => ha (hy ▸ hxy ▸ hx)

/-! ## Changes at different keys -/

variable (key) in
/-- Changing the first record with the key `k`, or adding a record when there is none. -/
def upsert (k : κ) (f : α → α) (a : α) (l : List α) : List α :=
  if k ∈ l.map key then modify key k f l else l ++ [a]

/-- The keys after a record has been changed or added. -/
theorem mem_keys_upsert (ha : key a = k) (hf : ∀ a, key (f a) = key a) :
    k' ∈ (upsert key k f a l).map key ↔ k' ∈ l.map key ∨ k' = k := by
  rw [upsert]
  split_ifs with hk
  · rw [keys_modify hf]
    exact ⟨.inl, fun h => h.elim id fun h => h ▸ hk⟩
  · rw [List.map_append, List.mem_append, List.map_singleton, List.mem_singleton, ha]

/-- Changing one record leaves the one added at the end alone. -/
theorem modify_concat_of_ne (ha : key a ≠ k) :
    modify key k f (l ++ [a]) = modify key k f l ++ [a] := by
  induction l with
  | nil => exact if_neg ha
  | cons b l ih =>
    rw [List.cons_append, modify, modify, ih]
    split_ifs <;> rfl

theorem modify_comm {g : α → α} (hne : k ≠ k') (hf : ∀ a, key (f a) = key a)
    (hg : ∀ a, key (g a) = key a) :
    modify key k f (modify key k' g l) = modify key k' g (modify key k f l) := by
  induction l with
  | nil => rfl
  | cons a l ih =>
    by_cases hk : key a = k
    · have hk' : key a ≠ k' := fun h => hne (hk.symm.trans h)
      rw [modify, if_neg hk', modify, if_pos hk, modify, if_pos hk, modify, hf, if_neg hk']
    · by_cases hk' : key a = k'
      · rw [modify, if_pos hk', modify, hg, if_neg hk, modify, if_neg hk, modify, if_pos hk']
      · rw [modify, if_neg hk', modify, if_neg hk, modify, if_neg hk, modify, if_neg hk', ih]

theorem modify_upsert_comm {g : α → α} (hne : k ≠ k') (ha : key a = k')
    (hf : ∀ a, key (f a) = key a) (hg : ∀ a, key (g a) = key a) :
    modify key k f (upsert key k' g a l) = upsert key k' g a (modify key k f l) := by
  rw [upsert, upsert, keys_modify hf]
  split_ifs
  · exact modify_comm hne hf hg
  · exact modify_concat_of_ne fun h => hne (h.symm.trans ha)

/-- Records with different keys can be changed or added in either order. -/
theorem upsert_comm {a' : α} {g : α → α} (hne : k ≠ k') (ha : key a = k) (ha' : key a' = k')
    (hf : ∀ a, key (f a) = key a) (hg : ∀ a, key (g a) = key a) :
    (upsert key k f a (upsert key k' g a' l)).Perm (upsert key k' g a' (upsert key k f a l)) := by
  have hmem : k ∈ (upsert key k' g a' l).map key ↔ k ∈ l.map key := by
    rw [mem_keys_upsert ha' hg]
    exact or_iff_left hne
  have hmem' : k' ∈ (upsert key k f a l).map key ↔ k' ∈ l.map key := by
    rw [mem_keys_upsert ha hf]
    exact or_iff_left hne.symm
  by_cases hk : k ∈ l.map key
  · have hupsert : ∀ l', k ∈ l'.map key → upsert key k f a l' = modify key k f l' :=
      fun l' h => if_pos h
    rw [hupsert _ (hmem.2 hk), hupsert _ hk, modify_upsert_comm hne ha' hf hg]
  by_cases hk' : k' ∈ l.map key
  · have hupsert : ∀ l', k' ∈ l'.map key → upsert key k' g a' l' = modify key k' g l' :=
      fun l' h => if_pos h
    rw [hupsert _ (hmem'.2 hk'), hupsert _ hk', modify_upsert_comm hne.symm ha hg hf]
  · rw [upsert, if_neg fun h => hk (hmem.1 h), upsert, if_neg hk', upsert,
      if_neg fun h => hk' (hmem'.1 h), upsert, if_neg hk, List.append_assoc, List.append_assoc]
    exact (List.Perm.swap a a' []).append_left l

/-- With distinct keys, what is found does not depend on the order. -/
theorem find_perm {l' : List α} (h : l.Perm l') (hl : Distinct key l) :
    find key l k = find key l' k := by
  have hl' : Distinct key l' := (h.map key).nodup hl
  refine Option.ext fun a => ?_
  rw [find_eq_some hl, find_eq_some hl', h.mem_iff]

end CoapBroker.Keyed
