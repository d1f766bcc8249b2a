import Concolic.Proofs.Lockstep.Record
import Concolic.Proofs.Representation

/-
  Memory as an instruction reads and writes it.

  Where memory is one array, a load selects bytes from it and a store puts them in,
  at the formula of the address if the modes say so. `Makes s sure x post` says of a
  part of the processing that it only builds formulas. A load leaves everything but
  the pool and the array (`Frame.Quiet`), and so does a store beside what it records
  (`Step.run_store`); only with an array in place of a word can a store fail after it
  has bound its bytes.
-/

namespace Concolic

open Step Build Symbolic Operand

variable {access : Access} {f : Formula} {reg : Register}

/-! Parts that only build formulas. -/

def Frame.quieted (s : Frame) (pool : Pool) (array : Option Formula) : Frame :=
  { s with engine := { s.engine with
    context := { s.context with pool }, symbolic := { s.symbolic with array } } }

/-- The pool and the memory array have no part in an assignment. -/
theorem Frame.assigned_quieted (s : Frame) (pool : Pool) (array : Option Formula) (f : Formula)
    (access : Access) (comment : String) (m : Machine) :
    (s.assigned f (.memory access) comment m).quieted pool array =
      (s.quieted pool array).assigned f (.memory access) comment m := by
  have hbind : ∀ (symbolic : Symbolic) (keep : Bool) (id : Nat),
      { symbolic.bindMemory keep access id with array } =
        ({ symbolic with array } : Symbolic).bindMemory keep access id := by
    intro symbolic keep id
    cases keep <;> rfl
  exact congrArg (fun symbolic : Symbolic => ({ s with engine := { s.engine with
    context := { s.context with pool }, symbolic, machine := m } } : Frame)) (hbind _ _ _)

/-- The second frame differs in the pool and the memory array, which may be made now. -/
def Frame.Quiet (s s' : Frame) : Prop := ∃ pool array, s' = s.quieted pool array

theorem Frame.Quiet.refl (s : Frame) : s.Quiet s := ⟨s.pool, s.symbolic.array, rfl⟩

theorem Frame.quiet_withPool (s : Frame) (pool : Pool) : s.Quiet (s.withPool pool) :=
  ⟨pool, s.symbolic.array, rfl⟩

namespace Frame

/-- The part leaves everything but the pool, what it answers is so, and it answers if
`sure`. Its result is the same for every pool, so that parts can follow one another. -/
def Makes {α : Type} (s : Frame) (sure : Prop) (x : Step α) (post : α → Prop) : Prop :=
  ∃ r : Except Error α,
    (∀ pool, ∃ pool', x (s.withPool pool) = outcome r (s.withPool pool')) ∧
      (∀ a, r = .ok a → post a) ∧ (sure → ∃ a, r = .ok a)

namespace Makes

variable {α β : Type} {s : Frame} {sure : Prop} {x : Step α} {post : α → Prop}

theorem pure {a : α} (h : post a) : s.Makes sure (pure a) post :=
  ⟨.ok a, fun pool => ⟨pool, rfl⟩, fun _ hb => Except.ok.inj hb ▸ h, fun _ => ⟨a, rfl⟩⟩

theorem bind {k : α → Step β} {post' : β → Prop} (hx : s.Makes sure x post)
    (hk : ∀ a, post a → s.Makes sure (k a) post') : s.Makes sure (x >>= k) post' := by
  obtain ⟨r, hr, hpost, hok⟩ := hx
  cases r with
  | ok a =>
    obtain ⟨r', hr', hpost', hok'⟩ := hk a (hpost a rfl)
    refine ⟨r', fun pool => ?_, hpost', hok'⟩
    obtain ⟨pool₁, h₁⟩ := hr pool
    obtain ⟨pool₂, h₂⟩ := hr' pool₁
    exact ⟨pool₂, by rw [Step.run_bind, h₁]; exact h₂⟩
  | error e =>
    refine ⟨.error e, fun pool => ?_, nofun, fun hs => ?_⟩
    · obtain ⟨pool₁, h₁⟩ := hr pool
      exact ⟨pool₁, by rw [Step.run_bind, h₁]; rfl⟩
    · obtain ⟨a, ha⟩ := hok hs
      cases ha

theorem composes : Composes fun {α : Type} (x : Step α) post => s.Makes sure x post :=
  ⟨.pure, .bind⟩

theorem build {b : Build α} (hb : Build.Makes s.modes.rules sure b post)
    (hx : ∀ pool, x (s.withPool pool) = exec (Exec.build b) (s.withPool pool)) :
    s.Makes sure x post := by
  obtain ⟨r, hr, hpost, hok⟩ := hb
  refine ⟨r, fun pool => ?_, hpost, hok⟩
  obtain ⟨pool', hrun⟩ := run_build (s := s.withPool pool) hr
  exact ⟨pool', (hx pool).trans hrun⟩

theorem look {f : Frame → α} (hf : ∀ pool, f (s.withPool pool) = f s) :
    s.Makes sure (fun s => .ok (f s) s) (· = f s) := by
  refine ⟨.ok (f s), fun pool => ⟨pool, ?_⟩, fun a ha => (Except.ok.inj ha).symm, fun _ => ⟨_, rfl⟩⟩
  show EStateM.Result.ok _ _ = _
  rw [hf]
  rfl

theorem arch : s.Makes sure Step.arch (· = s.arch) := look (f := fun s => s.arch) fun _ => rfl

theorem evaluate (f : Formula) : s.Makes sure (evaluate f) (· = s.evaluate f) :=
  look (f := fun s => s.evaluate f) fun _ => rfl

theorem run (h : s.Makes sure x post) :
    ∃ r pool, x s = outcome r (s.withPool pool) ∧ (∀ a, r = .ok a → post a) ∧
      (sure → ∃ a, r = .ok a) := by
  obtain ⟨r, hr, hpost, hok⟩ := h
  obtain ⟨pool, hrun⟩ := hr s.pool
  exact ⟨r, pool, hrun, hpost, hok⟩

end Makes

/-- The formula is a word of the width of addresses. -/
abbrev Locates (s : Frame) (words : Prop) (f : Formula) : Prop :=
  f.Proper s.scope words ∧ f.width = s.arch.addressWidth

end Frame

namespace Step

section

variable {words bytes : Prop} {s : Frame} (h : s.Grounded words bytes)

include h

theorem readRegister_makes (hreg : reg.Known) :
    s.Makes words (readRegister reg) fun f =>
      f.Proper s.scope words ∧ f.width = reg.bits := by
  refine .build (b := if s.arch.isZeroRegister reg then zero reg.bits
    else if s.arch.isProgramCounter reg then
      constant (counterValue s.arch s.instruction).toNat reg.bits
    else s.symbolic.registerFormula s.machine reg) ?_
    fun pool => run_readRegister reg (s.withPool pool)
  split
  · exact .constant _ _ _ fun _ => hreg.wordWidth
  · split
    · exact .constant _ _ _ fun _ => hreg.wordWidth
    · exact Grounded.registerFormula h hreg _ _

theorem addressPart_makes (hreg : reg.Known) :
    s.Makes words (addressPart reg) (s.Locates words) := by
  refine (readRegister_makes h hreg).bind fun f hf => ?_
  refine Frame.Makes.arch.bind fun arch harch => ?_
  subst harch
  exact .build (resize_makes hf.1 s.arch.addressWidth_range) fun _ => rfl

theorem effectiveAddress_makes (haccess : (memory access).Known) :
    s.Makes words (effectiveAddress access) (s.Locates words) := by
  have hword : ∀ n, s.Makes words (exec (Exec.build (constant n s.arch.addressWidth)))
      (s.Locates words) := fun n =>
    .build (.constant _ _ _ fun _ => s.arch.addressWidth_range) fun _ => rfl
  have hop : ∀ (op : ArithOp) {f g : Formula}, s.Locates words f → s.Locates words g →
      s.Makes words (exec (Exec.build (arith op f g))) (s.Locates words) := by
    intro op f g hf hg
    refine .build ((arith_makes _ hf.1 hg.1 fun _ => hf.2.trans hg.2.symm).mono id
      fun r hr => ⟨hr.1, hr.2.trans hf.2⟩) fun _ => rfl
  exact effectiveAddress_composes Frame.Makes.composes (fun _ => s.Locates words) (fun _ => 0) rfl
    .arch (fun _ => hword _) (fun _ => hword _) (fun hreg =>
      addressPart_makes h (hreg.elim (haccess.1 _) (haccess.2 _))) (hop _) (hop _)

theorem arrayIndex_makes (haccess : (memory access).Known) (mode : Mode) :
    s.Makes words (arrayIndex access mode) (s.Locates words) := by
  refine Frame.Makes.bind (.look (f := fun s => s.modes.isOn mode) fun _ => rfl) fun on hon => ?_
  split
  · exact effectiveAddress_makes h haccess
  · refine Frame.Makes.arch.bind fun arch harch => ?_
    subst harch
    exact .build (.constant _ _ _ fun _ => s.arch.addressWidth_range) fun _ => rfl

end

section

variable {words bytes : Prop} {s : Frame}

theorem assigned_grounded (h : s.Grounded words bytes) (hbytes : bytes → words)
    {origin : Origin} (hf : f.Proper s.scope words) (hcheck : checkOrigin f origin = .ok ())
    (hknown : ∀ reg, origin = .register reg → reg.Known) (comment : String) (m : Machine) :
    (s.assigned f origin comment m).Grounded words bytes :=
  h.assign hbytes rfl rfl hf.formed (fun hw => ⟨hf.word hw, (hf.width_range hw).2⟩) hcheck hknown m

theorem quieted_grounded (h : s.Grounded words bytes) (pool : Pool)
    (hf : f.IndexedBy s.scope s.arch.addressWidth) :
    (s.quieted pool (some f)).Grounded words bytes :=
  Grounded.withArray h hf

theorem run_load_array (hmode : s.modes.isOn .memoryArray = true) :
    load access s = (arrayIndex access .symbolizeLoad >>= fun index =>
      exec (Engine.arrayLoad index access.bytes)) s := by
  show (if s.modes.isOn .memoryArray = true then _ else _ : Step Formula) s = _
  rw [hmode]
  rfl

/-- A load answers with a word, whether memory is one array or not. -/
theorem load_yields (h : s.Grounded words bytes)
    (hwords : words → bytes ∨ s.modes.isOn .memoryArray = true) (haccess : (memory access).Known) :
    Yields (fun f s' => (s.Quiet s' ∧ s'.Grounded words bytes) ∧
        f.Proper s.scope words)
      (fun s' => s.Quiet s' ∧ s'.Grounded words bytes) (load access s) := by
  cases hmode : s.modes.isOn .memoryArray with
  | false =>
    have hdown : words → bytes := fun hw => (hwords hw).resolve_right (by simp [hmode])
    obtain ⟨r, hr, hpost, -⟩ := Grounded.memoryFormula h hdown s.machine
      s.modes.rules (s.modes.isOn .alignedMemory) access
    obtain ⟨pool, hrun⟩ := run_build hr
    rw [run_load hmode, hrun]
    cases r with
    | error e => exact ⟨s.quiet_withPool pool, h⟩
    | ok f => exact ⟨⟨s.quiet_withPool pool, h⟩, (hpost f rfl).1⟩
  | true =>
    obtain ⟨r, pool, hrun, hpost, -⟩ := (arrayIndex_makes h haccess .symbolizeLoad).run
    rw [run_load_array hmode, run_bind, hrun]
    cases r with
    | error e => exact ⟨s.quiet_withPool pool, h⟩
    | ok index =>
      obtain ⟨hproper, hwidth⟩ := hpost index rfl
      have hmakes : Makes s.modes.rules _ _ _ :=
        loadBytes_makes h.indexed hproper (fun _ => hwidth) access.bytes
      obtain ⟨r, hr, hloaded, -⟩ := hmakes
      obtain ⟨pool', harray⟩ := Engine.run_arrayLoad (e := (s.withPool pool).engine) hr
      have hquiet : s.Quiet (s.quieted pool' (some s.array)) := ⟨_, _, rfl⟩
      have hkept := quieted_grounded h pool' h.indexed
      show Yields _ _ (exec (Engine.arrayLoad index access.bytes) (s.withPool pool))
      unfold exec
      rw [harray]
      cases r with
      | error e => exact ⟨hquiet, hkept⟩
      | ok f => exact ⟨⟨hquiet, hkept⟩, (hloaded f rfl).1⟩

theorem run_arrayStore {index value : Formula} {r : Except Error Formula}
    (h : Answers s.modes.rules (storeBytes index value (value.width / 8) s.array) r) :
    ∃ pool, exec (Engine.arrayStore index value) s = match r with
      | .ok array => .ok () (s.quieted pool (some array))
      | .error e => .error e (s.quieted pool (some s.array)) := by
  obtain ⟨pool, hrun⟩ := Engine.run_arrayStore h
  refine ⟨pool, ?_⟩
  unfold exec
  cases r <;> (rw [hrun]; rfl)

theorem run_store_error {e : Error} (h : checkOrigin f (.memory access) = .error e)
    (comment : String) : ∃ e', writeMemory access f comment s = .error e' s := by
  unfold writeMemory
  split
  · exact ⟨_, rfl⟩
  · refine ⟨e, ?_⟩
    show (exec (Engine.create f (.memory access) comment (some s.instruction.address)) >>= _) s = _
    rw [run_bind, run_create, h]

/-- A store where memory is one array: the bytes are assigned, then put into the array, and
only then is the expression recorded. -/
theorem run_store_array (hmode : s.modes.isOn .memoryArray = true)
    (hcheck : checkOrigin f (.memory access) = .ok ()) (comment : String) :
    writeMemory access f comment s =
      (arrayIndex access .symbolizeStore >>= fun index =>
        exec (Engine.arrayStore index f) >>= fun _ => recordNew s)
        (s.assigned f (.memory access) comment
          (s.machine.setValue access.address access.bytes (s.evaluate f))) := by
  have hbits := (checkOrigin_memory hcheck).1
  unfold writeMemory
  rw [if_neg (by simp [hbits])]
  show (exec (Engine.create f (.memory access) comment (some s.instruction.address)) >>= _) s = _
  rw [run_bind, run_create, hcheck]
  show (if s.modes.isOn .memoryArray = true then _ else _ : Step Nat) _ = _
  rw [hmode]
  rfl

/-- What a store does: it assigns the bytes, and records the expression; the memory array
may be another then. Only if an array can stand in place of a word may it stop between the
two. -/
theorem run_store (h : s.Grounded words bytes) (hbytes : bytes → words)
    (haccess : (memory access).Known) (hf : f.Proper s.scope words)
    (hcheck : checkOrigin f (.memory access) = .ok ()) (comment : String) {m : Machine}
    (hm : m = s.machine.setValue access.address access.bytes (s.evaluate f)) :
    ∃ s₁, s.Quiet s₁ ∧ s₁.Grounded words bytes ∧
      (writeMemory access f comment s = recordNew s₁ (s₁.assigned f (.memory access) comment m) ∨
        (¬ words ∧ s.modes.isOn .memoryArray = true) ∧
          ∃ e, writeMemory access f comment s =
            .error e (s₁.assigned f (.memory access) comment m)) := by
  have hbits := (checkOrigin_memory hcheck).1
  subst hm
  cases hmode : s.modes.isOn .memoryArray with
  | false =>
    refine ⟨s, .refl s, h, .inl ?_⟩
    rw [run_writeMemory hbits comment hmode, hcheck]
  | true =>
    let s' := s.assigned f (.memory access) comment
      (s.machine.setValue access.address access.bytes (s.evaluate f))
    have h' : s'.Grounded words bytes :=
      assigned_grounded h hbytes hf hcheck (fun _ hreg => by cases hreg) _ _
    obtain ⟨r, pool, hrun, hpost, hsure⟩ := (arrayIndex_makes h' haccess .symbolizeStore).run
    rw [run_store_array hmode hcheck comment, run_bind, hrun]
    cases r with
    | error e =>
      -- there is no index: the bytes are bound by now, and nothing is recorded
      have hwords : ¬ words := fun hw => by
        obtain ⟨a, ha⟩ := hsure hw
        cases ha
      have harray : s.symbolic.array = s'.symbolic.array := (Engine.array_assign _ _ _ _).symm
      refine ⟨s.quieted pool s.symbolic.array, ⟨_, _, rfl⟩, h, .inr ⟨⟨hwords, rfl⟩, e, ?_⟩⟩
      rfl
    | ok index =>
      obtain ⟨hproper, hwidth⟩ := hpost index rfl
      have hmakes : Makes s.modes.rules _ _ _ :=
        storeBytes_makes h'.indexed hproper hf fun _ => hwidth
      obtain ⟨r, hr, hstored, hsure⟩ := hmakes
      obtain ⟨pool', hexec⟩ := run_arrayStore (s := s'.withPool pool) hr
      show ∃ s₁, s.Quiet s₁ ∧ s₁.Grounded words bytes ∧
        ((exec (Engine.arrayStore index f) >>= fun _ => recordNew s) (s'.withPool pool) =
            _ ∨ _ ∧ ∃ e, (exec (Engine.arrayStore index f) >>= fun _ => recordNew s)
              (s'.withPool pool) = _)
      rw [run_bind, hexec]
      cases r with
      | ok array =>
        refine ⟨s.quieted pool' (some array), ⟨_, _, rfl⟩,
          quieted_grounded h pool' (hstored array rfl), .inl ?_⟩
        show recordNew s (s'.quieted pool' (some array)) = _
        rw [s.assigned_quieted]
        rfl
      | error e =>
        -- a byte cannot be put in: the array stays as it was
        have hwords : ¬ words := fun hw => by
          obtain ⟨a, ha⟩ := hsure hw
          cases ha
        refine ⟨s.quieted pool' (some s'.array), ⟨_, _, rfl⟩,
          quieted_grounded h pool' h'.indexed, .inr ⟨⟨hwords, rfl⟩, e, ?_⟩⟩
        exact congrArg (EStateM.Result.error e) (s.assigned_quieted pool' _ f access comment _)

end

end Step

end Concolic
