import Mathlib.Data.Nat.Digits.Defs
import Concolic.Proofs.Word
import Concolic.Symbolic

/-
  Consecutive bytes of memory.

  Addresses wrap around, so a place is described by the distance of an address
  above it: the bytes of an access are those at a distance less than its size.
  Writing bytes and binding them change exactly the bytes at such distances, and
  the number at a place is the one whose bytes stand there.
-/

namespace Concolic

variable {address start : Address} {machine : Machine} {bytes count value : Nat}

/-- How far an address lies above another, around the end of memory if need be. -/
def Access.distance (start address : Address) : Nat := (address - start).toNat

namespace Access

theorem distance_self (start : Address) : distance start start = 0 := by
  simp [distance]

theorem distance_succ_self (start : Address) : distance (start + 1) start = 2 ^ 64 - 1 := by
  simp only [distance, UInt64.toNat_sub, UInt64.toNat_add, UInt64.reduceToNat]
  omega

theorem distance_succ (h : address ≠ start) :
    distance start address = distance (start + 1) address + 1 := by
  have hs := UInt64.toNat_lt start
  have ha := UInt64.toNat_lt address
  have hne : address.toNat ≠ start.toNat := fun heq => h (UInt64.toNat.inj heq)
  simp only [distance, UInt64.toNat_sub, UInt64.toNat_add, UInt64.reduceToNat]
  omega

theorem distance_add (start : Address) {i : Nat} (h : i < 2 ^ 64) :
    distance start (start + i.toUInt64) = i := by
  have hs := UInt64.toNat_lt start
  have hi : i.toUInt64.toNat = i := by simpa using Nat.mod_eq_of_lt h
  simp only [distance, UInt64.toNat_sub, UInt64.toNat_add]
  omega

theorem addressesFrom_succ (start : Address) (count : Nat) :
    addressesFrom start (count + 1) = start :: addressesFrom (start + 1) count := by
  simp only [addressesFrom, List.range_succ_eq_map, List.map_cons, List.map_map]
  congr 1
  · simp
  · apply List.map_congr_left
    intro i _
    apply UInt64.toNat.inj
    simp [Nat.toUInt64]
    omega

theorem mem_addressesFrom (h : count ≤ 2 ^ 64) :
    address ∈ addressesFrom start count ↔ distance start address < count := by
  induction count generalizing start with
  | zero => simp [addressesFrom]
  | succ n ih =>
    rw [addressesFrom_succ, List.mem_cons, ih (by omega)]
    by_cases heq : address = start
    · subst heq
      simp [distance_self]
    · rw [distance_succ heq]
      simp [heq]

end Access

open Access (distance addressesFrom)

/-! Values of bytes. -/

namespace Machine

theorem byte_setBytes {values : List UInt8} (h : values.length ≤ 2 ^ 64) (address : Address) :
    (machine.setBytes start values).byte address =
      (values[distance start address]?).getD (machine.byte address) := by
  induction values generalizing machine start with
  | nil => simp [setBytes]
  | cons value rest ih =>
    rw [setBytes, ih (by simp only [List.length_cons] at h; omega), byte_setByte]
    by_cases heq : address = start
    · subst heq
      have hpast : rest.length ≤ distance (address + 1) address := by
        rw [Access.distance_succ_self]
        simp only [List.length_cons] at h
        omega
      simp [List.getElem?_eq_none hpast, Access.distance_self]
    · rw [Access.distance_succ heq, if_neg (Ne.symm heq)]
      simp

theorem byte_setValue (h : bytes ≤ maxBytes) (value : Nat) (address : Address) :
    (machine.setValue start bytes value).byte address =
      if distance start address < bytes then (value >>> (8 * distance start address)).toUInt8
      else machine.byte address := by
  have hlen : (bytesOf value (min bytes maxBytes)).length = bytes := by
    simp [bytesOf, min_eq_left h]
  have hle : bytes ≤ 2 ^ 64 := le_trans h (by decide)
  rw [setValue, byte_setBytes (by rw [hlen]; exact hle)]
  by_cases hlt : distance start address < bytes
  · simp [bytesOf, min_eq_left h, hlt]
  · rw [List.getElem?_eq_none (by rw [hlen]; omega)]
    simp [hlt]

theorem littleEndian_congr {m m' : Machine} {l : List Address}
    (h : ∀ a ∈ l, m.byte a = m'.byte a) : m.littleEndian l = m'.littleEndian l := by
  induction l with
  | nil => rfl
  | cons a l ih =>
    rw [littleEndian, littleEndian, h a (by simp), ih fun b hb => h b (by simp [hb])]

/-- The number that bytes stand for, the lowest first. -/
def ofBytes : List UInt8 → Nat
  | [] => 0
  | byte :: rest => byte.toNat + 256 * ofBytes rest

theorem littleEndian_eq_ofBytes (machine : Machine) (l : List Address) :
    machine.littleEndian l = ofBytes (l.map machine.byte) := by
  induction l with
  | nil => rfl
  | cons a l ih => rw [littleEndian, ih, List.map_cons, ofBytes]

theorem ofBytes_eq_ofDigits (bytes : List UInt8) :
    ofBytes bytes = Nat.ofDigits 256 (bytes.map UInt8.toNat) := by
  induction bytes with
  | nil => rfl
  | cons byte bytes ih => rw [ofBytes, ih, List.map_cons, Nat.ofDigits_cons]

/-- The number at a place where the bytes of another stand is its low part. -/
theorem littleEndian_bytes
    (h : ∀ i < count, (machine.byte (start + i.toUInt64)).toNat = (value >>> (8 * i)) % 256) :
    machine.littleEndian (addressesFrom start count) = value % 2 ^ (8 * count) := by
  induction count generalizing start value with
  | zero => simp [addressesFrom, littleEndian, Nat.mod_one]
  | succ n ih =>
    rw [Access.addressesFrom_succ, littleEndian]
    have hfirst : (machine.byte start).toNat = value % 256 := by
      have h0 := h 0 (by omega)
      simpa using h0
    have hrest : machine.littleEndian (addressesFrom (start + 1) n) =
        (value / 256) % 2 ^ (8 * n) := by
      apply ih
      intro i hi
      have hi1 := h (i + 1) (by omega)
      have haddr : start + 1 + i.toUInt64 = start + (i + 1).toUInt64 := by
        apply UInt64.toNat.inj
        simp [Nat.toUInt64]
        omega
      rw [haddr, hi1]
      rw [Nat.shiftRight_eq_div_pow, Nat.shiftRight_eq_div_pow, Nat.div_div_eq_div_mul]
      rw [show 8 * (i + 1) = 8 + 8 * i by omega, Nat.pow_add]
    have hpow : 2 ^ (8 * (n + 1)) = 256 * 2 ^ (8 * n) := by
      rw [show 8 * (n + 1) = 8 + 8 * n by omega, Nat.pow_add]
    rw [hfirst, hrest, hpow, Nat.mod_mul]

theorem littleEndian_lt (machine : Machine) (l : List Address) :
    machine.littleEndian l < 2 ^ (8 * l.length) := by
  induction l with
  | nil => simp [littleEndian]
  | cons a l ih =>
    have hbyte := UInt8.toNat_lt (machine.byte a)
    have hpow : 2 ^ (8 * (l.length + 1)) = 256 * 2 ^ (8 * l.length) := by
      rw [show 8 * (l.length + 1) = 8 + 8 * l.length by omega, Nat.pow_add]
    rw [littleEndian, List.length_cons, hpow]
    omega

theorem value_lt (machine : Machine) (start : Address) (h : bytes ≤ maxBytes) :
    machine.value start bytes < 2 ^ (8 * bytes) := by
  have hlt := machine.littleEndian_lt (addressesFrom start bytes)
  rw [addressesFrom, List.length_map, List.length_range] at hlt
  rw [value, min_eq_left h]
  exact hlt

/-- The bytes of the number at a place are those that stand there. -/
theorem byte_littleEndian (h : distance start address < count) :
    (machine.littleEndian (addressesFrom start count) >>> (8 * distance start address)) % 256 =
      (machine.byte address).toNat := by
  induction count generalizing start with
  | zero => omega
  | succ n ih =>
    rw [Access.addressesFrom_succ, littleEndian]
    have hbyte := UInt8.toNat_lt (machine.byte start)
    by_cases heq : address = start
    · subst heq
      rw [Access.distance_self, mul_zero, Nat.shiftRight_zero]
      omega
    · have hlow : ((machine.byte start).toNat +
          256 * machine.littleEndian (addressesFrom (start + 1) n)) / 256 =
          machine.littleEndian (addressesFrom (start + 1) n) := by omega
      rw [Access.distance_succ heq] at h ⊢
      rw [show 8 * (distance (start + 1) address + 1) = 8 + 8 * distance (start + 1) address by
          omega,
        Nat.shiftRight_add, Nat.shiftRight_eq_div_pow _ 8, hlow]
      exact ih (by omega)

/-- A write puts its number where it writes. -/
theorem value_setValue {bytes : Nat} (h : bytes ≤ maxBytes) (hv : value < 2 ^ (8 * bytes)) :
    (machine.setValue start bytes value).value start bytes = value := by
  rw [Machine.value, min_eq_left h]
  refine (littleEndian_bytes fun i hi => ?_).trans (Nat.mod_eq_of_lt hv)
  have hlim : i < 2 ^ 64 := lt_of_lt_of_le hi (le_trans h (by decide))
  rw [byte_setValue h, Access.distance_add start hlim, if_pos hi]
  simp

end Machine

/-! Bindings of bytes. -/

namespace Symbolic

theorem getElem?_bindBytes {memory : Std.ExtTreeMap Address Cell} {id byte : Nat}
    (h : count ≤ 2 ^ 64) (address : Address) :
    (bindBytes memory id byte (addressesFrom start count))[address]? =
      if distance start address < count then
        some { expression := id, byte := (byte + distance start address) % 256 }
      else memory[address]? := by
  induction count generalizing memory start byte with
  | zero => simp [addressesFrom, bindBytes]
  | succ n ih =>
    rw [Access.addressesFrom_succ, bindBytes, ih (by omega), Std.ExtTreeMap.getElem?_insert]
    by_cases heq : address = start
    · subst heq
      have hpast : ¬ distance (address + 1) address < n := by
        rw [Access.distance_succ_self]
        omega
      simp [hpast, Access.distance_self]
    · have hcmp : compare start address ≠ .eq := mt Std.LawfulEqCmp.eq_of_compare (Ne.symm heq)
      rw [if_neg hcmp, Access.distance_succ heq]
      simp [add_assoc, add_comm 1]

theorem overlaps_of_distance {w : AlignedWrite} (hw : w.bytes ≤ 16)
    (h₁ : distance w.address address < w.bytes) (h₂ : distance start address < bytes) :
    AlignedWrite.overlaps w start bytes = true := by
  have hs := UInt64.toNat_lt start
  have hwa := UInt64.toNat_lt w.address
  have hb : (w.bytes - 1).toUInt64.toNat = w.bytes - 1 := by
    simpa using Nat.mod_eq_of_lt (show w.bytes - 1 < 2 ^ 64 by omega)
  simp only [distance, UInt64.toNat_sub] at h₁ h₂
  simp only [AlignedWrite.overlaps, UInt64.toNat_sub, decide_eq_true_eq]
  omega

end Symbolic

end Concolic
