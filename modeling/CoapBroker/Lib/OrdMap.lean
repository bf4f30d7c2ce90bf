import CoapBroker.Lib.Keyed

/-!
# Finite maps in order of insertion

A finite map with its keys in the order in which they have been inserted (`OrdMap`): a new key
comes last (`push`), changing a value keeps the order (`modify`), and so does taking a key out
(`erase`). A list of records with distinct keys denotes such a map (`Keyed.toOrdMap`), and the
operations on the list are the ones of the map (`toOrdMap_append`, `toOrdMap_modify`,
`toOrdMap_erase`).
-/

namespace CoapBroker

variable {κ α β : Type*}

/-- A finite map with its keys in order. -/
@[ext] structure OrdMap (κ β : Type*) where
  /-- The keys, in the order of their insertion. -/
  order : List κ
  /-- The value of a key, if there is one. -/
  get : κ → Option β
  nodup : order.Nodup
  mem_order : ∀ k, k ∈ order ↔ (get k).isSome

namespace OrdMap

/-- The map without keys. -/
def empty : OrdMap κ β where
  order := []
  get _ := none
  nodup := List.nodup_nil
  mem_order _ := iff_of_false List.not_mem_nil Bool.false_ne_true

variable [DecidableEq κ] (m : OrdMap κ β)

/-- Inserting a new key. -/
def push (k : κ) (b : β) (hk : m.get k = none) : OrdMap κ β where
  order := m.order ++ [k]
  get := Function.update m.get k (some b)
  nodup := by
    rw [← List.concat_eq_append]
    exact m.nodup.concat fun h => by
      rw [m.mem_order, hk] at h
      exact Bool.false_ne_true h
  mem_order k' := by
    rw [List.mem_append, List.mem_singleton, m.mem_order]
    by_cases h : k' = k
    · simp [h]
    · simp [h]

/-- Changing the value of a key, if it has one. -/
def modify (k : κ) (f : β → β) : OrdMap κ β where
  order := m.order
  get := Function.update m.get k ((m.get k).map f)
  nodup := m.nodup
  mem_order k' := by
    rw [m.mem_order]
    by_cases h : k' = k
    · simp [h]
    · simp [h]

/-- Taking a key out. -/
def erase (k : κ) : OrdMap κ β where
  order := m.order.erase k
  get := Function.update m.get k none
  nodup := m.nodup.erase k
  mem_order k' := by
    rw [m.nodup.mem_erase_iff, m.mem_order]
    by_cases h : k' = k
    · simp [h]
    · simp [h]

end OrdMap

/-! ## Lists of records -/

namespace Keyed

variable [DecidableEq κ] {key : α → κ} {l : List α} {k : κ} {val : α → β}

/-- The map a list of records with distinct keys denotes. -/
def toOrdMap (key : α → κ) (val : α → β) (l : List α) (hl : Distinct key l) : OrdMap κ β where
  order := l.map key
  get k := (find key l k).map val
  nodup := hl
  mem_order k := by rw [Option.isSome_map, find_isSome]

/-- Looking a key up in the map is looking it up in the list. -/
theorem get_toOrdMap (hl : Distinct key l) :
    (toOrdMap key val l hl).get k = (find key l k).map val := rfl

/-- A record at the end is a new key. -/
theorem toOrdMap_append (hl : Distinct key l) {a : α} (ha : key a ∉ l.map key) :
    toOrdMap key val (l ++ [a]) (hl.append_singleton ha) =
      (toOrdMap key val l hl).push (key a) (val a)
        (by rw [get_toOrdMap, find_eq_none.2 ha, Option.map_none]) := by
  ext1
  · exact List.map_append
  · funext k
    change (find key (l ++ [a]) k).map val =
      Function.update (toOrdMap key val l hl).get (key a) (some (val a)) k
    by_cases hk : k = key a
    · rw [hk, find_append_of_notMem ha, find_cons, if_pos rfl, Function.update_self,
        Option.map_some]
    · have hfind : find key [a] k = none :=
        find_eq_none.2 fun h => hk (List.mem_singleton.1 h)
      rw [Function.update_of_ne hk, get_toOrdMap, find, List.find?_append, ← find, ← find, hfind,
        Option.or_none]

/-- Changing a record is changing the value of its key. -/
theorem toOrdMap_modify (hl : Distinct key l) {f : α → α} {g : β → β}
    (hf : ∀ a, key (f a) = key a) (hg : ∀ a, val (f a) = g (val a)) :
    toOrdMap key val (modify key k f l) (hl.modify hf) = (toOrdMap key val l hl).modify k g := by
  ext1
  · exact keys_modify hf
  · funext k'
    change (find key (Keyed.modify key k f l) k').map val = Function.update
      (toOrdMap key val l hl).get k (((toOrdMap key val l hl).get k).map g) k'
    rw [find_modify hf]
    by_cases hk : k' = k
    · rw [if_pos hk, hk, Function.update_self, get_toOrdMap, Option.map_map, Option.map_map]
      exact congrArg (Option.map · _) (funext hg)
    · rw [if_neg hk, Function.update_of_ne hk, get_toOrdMap]

/-- Deleting a record is taking its key out. -/
theorem toOrdMap_erase (hl : Distinct key l) :
    toOrdMap key val (erase key k l) hl.erase = (toOrdMap key val l hl).erase k := by
  ext1
  · exact keys_erase
  · funext k'
    change (find key (Keyed.erase key k l) k').map val =
      Function.update (toOrdMap key val l hl).get k none k'
    by_cases hk : k' = k
    · have hnone : find key (Keyed.erase key k l) k = none :=
        find_eq_none.2 (by rw [keys_erase]; exact hl.not_mem_erase)
      rw [hk, hnone, Function.update_self, Option.map_none]
    · rw [find_erase_of_ne hk, Function.update_of_ne hk, get_toOrdMap]

end Keyed

end CoapBroker
