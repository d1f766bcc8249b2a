import Concolic.Proofs.Change
import Concolic.Proofs.Denotation

/-
  Memory as one array.

  Under one of the modes memory is an array: a load selects its bytes, and a store puts
  bytes into it. The index of a byte wraps around at the width of the array's index. What
  is built is stated for all valuations of variables and memory: a store gives the array
  that has the stored bytes in their places and the old ones elsewhere
  (`Build.storeBytes_reads`), and a load puts together what stands in the places
  (`Build.Denotes.loadBytes`).
-/

namespace Concolic

open Exec Engine Word Call
open Formula (Hereditary Means WordWidth)

variable {count : Nat} {r : Except Error Formula} {old : Nat → Nat}

/-- A kept array with an index of `width` bits that has a byte at each address under each
valuation. -/
structure Formula.ArrayOf (scope : Scope) (kept : Formula → Prop) (f : Formula) (width : Nat)
    (byte : Valuation → Nat → Nat) : Prop where
  kept : kept f
  array : f.isArray = true
  width_eq : f.width = width
  read_eq : ∀ v, v.Fits scope → ∀ address, f.readArray v address = byte v address

namespace Build

variable {scope : Scope} {kept : Formula → Prop} (hk : Hereditary scope kept) {rules : Rules}
  {width : Nat} (hw : WordWidth width) {array index value : Formula}
  {place number : Valuation → Nat} {byte : Valuation → Nat → Nat}

/-! Storing. -/

/-- The array with the bytes of a word stored from an index on. -/
def storeBytes (index value : Formula) (count : Nat) (array : Formula) : Build Formula :=
  (List.range count).foldlM (fun array i => do
    let place ← arrayPlace index i
    let byte ← Build.extract (i * 8 + 7) (i * 8) value
    Build.store array place byte) array

/-- The byte at an address once the `count` low bytes of a number are stored from a place
on. A byte that is stored later covers an earlier one. -/
def storedByte (width place number : Nat) (old : Nat → Nat) : (count address : Nat) → Nat
  | 0, address => old address
  | n + 1, address =>
    if Word.truncate width (place + n) = address then Word.slice (n * 8 + 7) (n * 8) number
    else storedByte width place number old n address

/-- Around the end of the addresses as elsewhere, the bytes stand in their places. -/
theorem storedByte_of_place {place number : Nat} {t : Nat} (hfits : count ≤ modulus width)
    (ht : t < count) :
    storedByte width place number old count (Word.truncate width (place + t)) =
      slice (t * 8 + 7) (t * 8) number := by
  induction count with
  | zero => omega
  | succ n ih =>
    unfold storedByte
    by_cases hlast : t = n
    · rw [hlast, if_pos rfl]
    · rw [if_neg, ih (by omega) (by omega)]
      intro hsame
      have hmod : n ≡ t [MOD modulus width] := Nat.ModEq.add_left_cancel' place hsame
      rw [Nat.ModEq, Nat.mod_eq_of_lt (by omega), Nat.mod_eq_of_lt (by omega)] at hmod
      omega

theorem storedByte_of_ne {place number : Nat} {address : Nat}
    (h : ∀ t < count, Word.truncate width (place + t) ≠ address) :
    storedByte width place number old count address = old address := by
  induction count with
  | zero => rfl
  | succ n ih =>
    rw [storedByte, if_neg (h n (by omega)), ih fun t ht => h t (by omega)]

/-! Constructions for all valuations. -/

def byteAt (index array : Formula) (offset : Nat) : Build Formula := do
  let place ← arrayPlace index offset
  Build.select array place

def loadBytes (index : Formula) (count : Nat) (array : Formula) : Build Formula := do
  let parts ← (List.range count).reverse.mapM (byteAt index array)
  Build.concatMany parts

include hk hw

section

variable (hindex : index.Means scope kept width place)

include hindex

/-- The place of a byte wraps around at the width of the index. -/
theorem Denotes.arrayPlace (offset : Nat) :
    Denotes scope kept rules (arrayPlace index offset) width
      fun v => Word.truncate width (place v + offset) := by
  unfold Engine.arrayPlace
  rw [hindex.width_eq]
  refine (constant hk hw offset).bind fun k hconstant => ?_
  refine (arith hk hw .add hindex hconstant).of_eq rfl fun v _ => ?_
  rw [ArithOp.apply, Word.add, Word.truncate, Word.truncate, Nat.add_mod_mod]
  rfl

theorem Denotes.byteAt (harray : array.ArrayOf scope kept width byte) (offset : Nat) :
    Denotes scope kept rules (byteAt index array offset) 8
      fun v => byte v (Word.truncate width (place v + offset)) := by
  refine (arrayPlace hk hw hindex offset).bind fun p hp => ?_
  refine (call hk (c := .select array p)
    ⟨harray.array, hp.word, hp.width_eq.trans harray.width_eq.symm⟩ trivial
    (by decide : 1 ≤ 8 ∧ 8 ≤ 128) (by simpa using ⟨harray.kept, hp.kept⟩)).of_eq rfl fun v hv => ?_
  simp only [plain, Formula.eval, harray.read_eq v hv, hp.eval_eq v hv]

/-- What is loaded is the little-endian number of the bytes from the index on. -/
theorem Denotes.loadBytes (harray : array.ArrayOf scope kept width byte) (hpos : 1 ≤ count)
    (hmax : count ≤ 16) :
    Denotes scope kept rules (loadBytes index count array) (8 * count) fun v =>
      Nat.ofDigits 256
        ((List.range count).map fun i => byte v (Word.truncate width (place v + i))) := by
  have hlength : (List.range count).length = count := List.length_range
  rw [← hlength] at hpos hmax
  exact (number hk (fun i _ => byteAt hk hw hindex harray i) hpos hmax).of_eq
    (by rw [hlength]) fun _ _ => rfl

end

theorem store_reads (harray : array.ArrayOf scope kept width byte)
    (hindex : index.Means scope kept width place) (hvalue : value.Means scope kept 8 number) :
    Makes rules True (store array index value) fun r =>
      r.ArrayOf scope kept width fun v address =>
        if place v = address then number v else byte v address := by
  have hl : (Call.store array index value).plain.Lawful :=
    ⟨harray.array, hindex.word, hindex.width_eq.trans harray.width_eq.symm, hvalue.width_eq,
      hvalue.word⟩
  refine (renders hk rules hl (by simpa using
    ⟨harray.kept, hindex.kept, hvalue.kept⟩)).mono
    (fun _ => show WordWidth array.width from harray.width_eq ▸ hw) fun r hr => ?_
  obtain rfl := hr.array rfl
  refine ⟨hr.kept, rfl, harray.width_eq, fun v hv address => ?_⟩
  simp only [plain, Formula.readArray, hindex.eval_eq v hv, hvalue.eval_eq v hv,
    harray.read_eq v hv]

theorem storeBytes_reads {bits : Nat} (hindex : index.Means scope kept width place)
    (hvalue : value.Means scope kept bits number) (harray : array.ArrayOf scope kept width byte)
    (hle : count * 8 ≤ bits) :
    Makes rules True (storeBytes index value count array) fun r =>
      r.ArrayOf scope kept width fun v =>
        storedByte width (place v) (number v) (byte v) count := by
  induction count with
  | zero => exact .pure harray
  | succ n ih =>
    unfold storeBytes
    rw [List.range_succ, List.foldlM_append]
    refine (ih (by omega)).bind fun before hbefore => ?_
    simp only [List.foldlM_cons, List.foldlM_nil, bind_pure]
    refine (Denotes.arrayPlace hk hw hindex n).bind fun p hp => ?_
    refine (Denotes.extract hk hvalue (by omega) (by omega) (by unfold limit; omega)).bind
      fun k hbyte => ?_
    rw [show n * 8 + 7 - n * 8 + 1 = 8 by omega] at hbyte
    exact store_reads hk hw hbefore hp hbyte

end Build

/-! The array of an engine. -/

namespace Exec

theorem build_bind {α β : Type} (x : Build α) (k : α → Build β) :
    build (x >>= k) = build x >>= fun a => build (k a) := by
  funext e
  rw [run_bind]
  simp only [build, Build.run_bind]
  cases x e.modes.rules e.context <;> rfl

theorem build_foldlM {α ι : Type} (step : α → ι → Build α) (l : List ι) (a : α) :
    build (l.foldlM step a) = l.foldlM (fun a i => build (step a i)) a := by
  induction l generalizing a with
  | nil => rfl
  | cons i l ih =>
    rw [List.foldlM_cons, List.foldlM_cons, build_bind]
    exact congrArg _ (funext fun a => ih a)

theorem build_mapM {α ι : Type} (f : ι → Build α) (l : List ι) :
    build (l.mapM f) = l.mapM fun i => build (f i) := by
  induction l with
  | nil => rfl
  | cons i l ih =>
    rw [List.mapM_cons, List.mapM_cons, build_bind]
    refine congrArg _ (funext fun a => ?_)
    rw [build_bind, ih]
    rfl

end Exec

namespace Engine

/-- The memory array as it is, or will be once it is needed. -/
def array (e : Engine) : Formula := e.symbolic.array.getD (.memory e.arch.addressWidth)

def withArray (e : Engine) (array : Formula) : Engine :=
  { e with symbolic := { e.symbolic with array := some array } }

theorem run_memoryArray (e : Engine) :
    ∃ pool, memoryArray e = .ok e.array ((e.withPool pool).withArray e.array) := by
  have hget : (get : Exec Engine) e = .ok e e := rfl
  unfold memoryArray
  rw [run_bind, hget]
  dsimp only
  cases harray : e.symbolic.array with
  | some array =>
    have hsame : (e.withPool e.pool).withArray array = e := by
      obtain ⟨arch, modes, context, ⟨expressions, registers, memory, aligned, kept, constraints⟩,
        taint, machine⟩ := e
      cases harray
      rfl
    refine ⟨e.pool, ?_⟩
    rw [Engine.array, harray, Option.getD_some, hsame]
    rfl
  | none =>
    obtain ⟨pool, hbuild⟩ := run_build_ok (e := e) (x := Build.memoryArray e.arch.addressWidth)
      (.intern _)
    have hlift : (liftM (Build.memoryArray e.arch.addressWidth) : Exec Formula) e =
        .ok (.memory e.arch.addressWidth) (e.withPool pool) := hbuild
    refine ⟨pool, ?_⟩
    dsimp only
    rw [run_bind, hlift, array, harray, Option.getD_none]
    rfl

theorem arrayStore_eq (index value : Formula) :
    arrayStore index value = (do
      let array ← memoryArray
      let array ← build (Build.storeBytes index value (value.width / 8) array)
      modify fun e => e.withArray array) := by
  simp only [Build.storeBytes, build_foldlM]
  rfl

theorem arrayLoad_eq (index : Formula) (bytes : Nat) :
    arrayLoad index bytes = (do
      let array ← memoryArray
      build (Build.loadBytes index bytes array)) := by
  simp only [Build.loadBytes, build_bind, build_mapM]
  rfl

variable {e : Engine} {index value : Formula}

theorem run_arrayStore (h : Build.Answers e.modes.rules
      (Build.storeBytes index value (value.width / 8) e.array) r) :
    ∃ pool, arrayStore index value e = match r with
      | .ok array => .ok () ((e.withPool pool).withArray array)
      | .error error => .error error ((e.withPool pool).withArray e.array) := by
  obtain ⟨pool, hrun⟩ := e.run_memoryArray
  obtain ⟨pool', hbuild⟩ := run_build (e := (e.withPool pool).withArray e.array) h
  refine ⟨pool', ?_⟩
  rw [arrayStore_eq, run_bind, hrun]
  simp only [run_bind, hbuild]
  cases r <;> rfl

theorem run_arrayLoad {bytes : Nat}
    (h : Build.Answers e.modes.rules (Build.loadBytes index bytes e.array) r) :
    ∃ pool, arrayLoad index bytes e = Build.outcome r ((e.withPool pool).withArray e.array) := by
  obtain ⟨pool, hrun⟩ := e.run_memoryArray
  obtain ⟨pool', hbuild⟩ := run_build (e := (e.withPool pool).withArray e.array) h
  refine ⟨pool', ?_⟩
  rw [arrayLoad_eq, run_bind, hrun]
  exact hbuild

end Engine

end Concolic
