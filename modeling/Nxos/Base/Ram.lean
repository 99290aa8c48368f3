import Nxos.Base.Kernel

/-!
# Physical memory

Bytes of the physical memory, addressed by numbers.  A copy of bytes behind one address goes
over the addresses that follow it, whatever virtual memory leads there.
-/

namespace Nxos

def storeBytes (ram : ℕ → BitVec 8) (addr : ℕ) (bytes : List (BitVec 8)) : ℕ → BitVec 8 :=
  fun a => if addr ≤ a then (bytes[a - addr]?).getD (ram a) else ram a

def loadBytes (ram : ℕ → BitVec 8) (addr len : ℕ) : List (BitVec 8) :=
  (List.range len).map fun k => ram (addr + k)

variable {ram : ℕ → BitVec 8} {addr a len : ℕ} {bytes : List (BitVec 8)}

theorem storeBytes_of_mem (hlo : addr ≤ a) (hhi : a < addr + bytes.length) :
    some (storeBytes ram addr bytes a) = bytes[a - addr]? := by
  have hlt : a - addr < bytes.length := by omega
  simp [storeBytes, hlo, hlt]

theorem storeBytes_of_notMem (hout : ¬(addr ≤ a ∧ a < addr + bytes.length)) :
    storeBytes ram addr bytes a = ram a := by
  unfold storeBytes
  split
  · next hlo =>
    rw [List.getElem?_eq_none (by omega), Option.getD_none]
  · rfl

@[simp] theorem length_loadBytes : (loadBytes ram addr len).length = len := by
  simp [loadBytes]

theorem getElem?_loadBytes {k : ℕ} (hk : k < len) :
    (loadBytes ram addr len)[k]? = some (ram (addr + k)) := by
  simp [loadBytes, hk]

end Nxos
