import Nxos.Fs.Path

/-!
# Buffers

The memory from a pointer on, with whatever it holds behind the bytes that were written.  A string
in a buffer is what stands before the first zero.
-/

namespace Nxos.Fs

/-- The bytes from a pointer on. -/
abbrev Buffer := ℕ → BitVec 8

namespace Buffer

def bytes (b : Buffer) (n : ℕ) : List (BitVec 8) := (List.range n).map b

/-- `NX_MemCopy` to the start of the buffer. -/
def write (b : Buffer) (s : List (BitVec 8)) : Buffer := fun i => s[i]?.getD (b i)

/-- `NX_MemMove` of `len` bytes from the offset `off` to the start of the buffer. -/
def moveDown (b : Buffer) (off len : ℕ) : Buffer := fun i => if i < len then b (off + i) else b i

/-- The buffer holds a string with its terminator. -/
structure Holds (b : Buffer) (s : Str) : Prop where
  noZero : 0 ∉ s
  char : ∀ i (hi : i < s.length), b i = s[i]
  zero : b s.length = 0

variable {b : Buffer} {s t : Str} {n : ℕ}

@[simp] theorem bytes_length : (b.bytes n).length = n := by
  simp [bytes]

theorem Holds.take (h : b.Holds s) (hn : n ≤ s.length) : b.bytes n = s.take n := by
  apply List.ext_getElem
  · rw [bytes_length, List.length_take, Nat.min_eq_left hn]
  · intro i hi hi'
    rw [bytes_length] at hi
    simp only [bytes, List.getElem_map, List.getElem_range, List.getElem_take]
    exact h.char i (by omega)

theorem Holds.cString_bytes (h : b.Holds s) (hn : s.length ≤ n) : cString (b.bytes n) = s := by
  have hskip : ∀ c ∈ s, (c != 0) = true := by
    intro c hc
    rw [bne_iff_ne]
    rintro rfl
    exact h.noZero hc
  obtain ⟨k, rfl⟩ := Nat.exists_eq_add_of_le hn
  have hsplit : b.bytes (s.length + k) =
      s ++ (List.range k).map fun i => b (s.length + i) := by
    have hfirst := h.take (le_refl s.length)
    rw [List.take_length] at hfirst
    rw [bytes, List.range_add, List.map_append, List.map_map]
    exact congrArg (· ++ _) hfirst
  rw [hsplit, cString, List.takeWhile_append_of_pos hskip]
  cases k with
  | zero => simp
  | succ k =>
      rw [List.range_succ_eq_map, List.map_cons, Nat.add_zero, h.zero]
      simp

theorem holds_write (hs : 0 ∉ s) : (b.write (s ++ [0])).Holds s where
  noZero := hs
  char i hi := by
    rw [write, List.getElem?_append_left hi, List.getElem?_eq_getElem hi, Option.getD_some]
  zero := by simp [write]

/-- The end of a string is moved to the start of the buffer. -/
theorem Holds.moveDown (h : b.Holds (s ++ t)) (hn : t.length < n) :
    (b.moveDown s.length n).Holds t where
  noZero hmem := h.noZero (List.mem_append_right _ hmem)
  char i hi := by
    rw [Buffer.moveDown, if_pos (by omega), h.char (s.length + i) (by simp [hi])]
    simp
  zero := by
    rw [Buffer.moveDown, if_pos hn, ← List.length_append]
    exact h.zero

end Buffer

end Nxos.Fs
