import Mathlib.Data.List.Basic
import Mathlib.Tactic

/-!
# Transfer in blocks

Data may be fetched block by block: a request names the number of a block and a size exponent,
and the answer holds a block that begins at the same place, the exponent of its size, which may
be lower, and whether there are more. A client that asks for the block after the last one, until
there are no more, puts the data together (`assemble_eq`).
-/

namespace CoapBroker

variable {β : Type*}

/-- An answer to a request for a block. -/
structure BlockAnswer (β : Type*) where
  num : ℕ
  szx : ℕ
  more : Bool
  chunk : List β
  deriving DecidableEq

/-- The answer holds the data from the byte `start` on: one block of it if there are more, and
    the rest of it otherwise. -/
structure BlockAnswer.Holds (size : ℕ → ℕ) (data : List β) (start : ℕ) (a : BlockAnswer β) :
    Prop where
  chunk_eq : a.chunk = (data.drop start).take (if a.more then size a.szx else data.length)
  more_lt : a.more = true → a.num * size a.szx = start ∧ start + size a.szx < data.length

/-- What a client puts together from an answer on, asking at most `n` times. -/
def assemble (serve : ℕ → ℕ → Option (BlockAnswer β)) :
    ℕ → BlockAnswer β → Option (List β)
  | n, a =>
    if a.more then
      match n with
      | 0 => none
      | n + 1 => (serve (a.num + 1) a.szx).bind fun a' =>
        (assemble serve n a').map (a.chunk ++ ·)
    else some a.chunk

variable {size : ℕ → ℕ} {serve : ℕ → ℕ → Option (BlockAnswer β)} {data : List β}

/-- A server whose answers hold the data hands all of it over, from the first answer on. The
    exponents stay in a set the server can deal with. -/
theorem assemble_eq {P : ℕ → Prop} (hsize : ∀ szx, 0 < size szx)
    (hserve : ∀ num szx, P szx → num * size szx < data.length →
      ∃ a, serve num szx = some a ∧ a.Holds size data (num * size szx) ∧ P a.szx)
    {n start : ℕ} {a : BlockAnswer β} (ha : a.Holds size data start) (hP : P a.szx)
    (hn : data.length ≤ start + n) : assemble serve n a = some (data.drop start) := by
  induction n generalizing start a with
  | zero =>
    rw [assemble]
    by_cases hmore : a.more = true
    · obtain ⟨-, hlt⟩ := ha.more_lt hmore
      omega
    · rw [if_neg hmore, ha.chunk_eq, if_neg hmore, List.take_of_length_le]
      rw [List.length_drop]
      omega
  | succ n ih =>
    rw [assemble]
    by_cases hmore : a.more = true
    · obtain ⟨hstart, hlt⟩ := ha.more_lt hmore
      have hpos := hsize a.szx
      have hnext : (a.num + 1) * size a.szx = start + size a.szx := by rw [Nat.succ_mul, hstart]
      obtain ⟨a', ha', hholds, hP'⟩ := hserve (a.num + 1) a.szx hP (by rw [hnext]; exact hlt)
      rw [hnext] at hholds
      rw [if_pos hmore, ha', Option.bind_some, ih hholds hP' (by omega), Option.map_some,
        ha.chunk_eq, if_pos hmore, ← List.drop_drop, List.take_append_drop]
    · rw [if_neg hmore, ha.chunk_eq, if_neg hmore, List.take_of_length_le]
      rw [List.length_drop]
      omega

end CoapBroker
