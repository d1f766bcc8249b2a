import Concolic.Engine
import Concolic.Proofs.Variables

/-
  The outcomes of a jump.

  Each outcome that is listed for a jump has a condition that holds exactly when
  the program counter has its target (`Branch.Decides`), whatever the values of
  the variables; and the one that is marked as taken is the one of the present
  target (`taken_iff`). The predicate of a path tests whether all outcomes happen
  that happened (`Path.answers_predicate`).
-/

namespace Concolic

open Formula Build Call Word Engine

variable {source target : Address} {pc dest g : Formula} {a : Nat} {scope : Scope}
  {now v : Valuation} {bs : List Branch} {q : Valuation → Prop}

/-- The condition of the outcome holds exactly when the program counter has its
target. -/
def Branch.Decides (scope : Scope) (pc : Formula) (b : Branch) : Prop :=
  (b.constraint.OverVariables scope ∧ b.constraint.width = 1) ∧
    ∀ v : Valuation, v.Fits scope → (b.constraint.eval v = 1 ↔ pc.eval v = b.target.toNat)

section

variable {scope : Scope} {pc : Formula} (hpc : pc.OverVariables scope)

include hpc

theorem answers_equal (rules : Rules) (hdest : dest.OverVariables scope)
    (ha : dest.constant? = some a) (hwidth : dest.width = pc.width) :
    ∃ k, Answers rules (eq pc dest) (.ok k) ∧
      (k.OverVariables scope ∧ k.width = 1) ∧
      ∀ v : Valuation, v.Fits scope → (k.eval v = 1 ↔ pc.eval v = a) := by
  have hl : (Call.compare .eq pc dest).plain.Lawful :=
    ⟨hwidth.symm, hpc.memoryless.not_array, hdest.memoryless.not_array⟩
  have hc : ∀ k ∈ (Call.compare .eq pc dest).plain.children, k.WellFormed scope := by
    simpa using ⟨hpc.wellFormed, hdest.wellFormed⟩
  obtain ⟨k, hk, hs, -⟩ := builds rules (wellFormed_plain hl hc)
  have hover := hs.overVariables ⟨hpc.memoryless, hdest.memoryless⟩
  refine ⟨k, hk, ⟨hover, hs.width_eq⟩, fun v hv => ?_⟩
  have hvalue : k.eval v = (pc.eval v == a).toNat := by
    rw [hs.eval_eq v hv]
    simp only [plain, eval, CompareOp.holds, eval_of_constant? ha]
  rw [hvalue]
  by_cases heq : pc.eval v = a
  · simp [heq]
  · simp [heq]

omit hpc in
/-- A word in the place of the program counter is an address. -/
theorem toNat_toUInt64 (hwidth : pc.width ≤ 64) (ha : a < Word.modulus pc.width) :
    a.toUInt64.toNat = a := by
  have hle := Word.modulus_mono hwidth
  have hmod : Word.modulus 64 = 2 ^ 64 := rfl
  simpa using Nat.mod_eq_of_lt (show a < 2 ^ 64 by omega)

theorem answers_outcome (rules : Rules) (hwidth : pc.width ≤ 64) (source target : Address)
    (hdest : dest.OverVariables scope) (ha : dest.constant? = some a) (hw : dest.width = pc.width) :
    ∃ b, Answers rules (outcome pc source target dest a) (.ok b) ∧
      b.Decides scope pc ∧ b.target.toNat = a ∧ b.taken = (a == target.toNat) ∧
      b.source = source := by
  obtain ⟨k, hk, hover, hiff⟩ := answers_equal hpc rules hdest ha hw
  have hlt : a < modulus pc.width := by
    have hwf := hdest.wellFormed
    rw [constant?_eq_some ha, hw] at hwf
    exact hwf.2
  have htarget := toNat_toUInt64 hwidth hlt
  refine ⟨_, hk.bind (.pure _), ⟨hover, fun v hv => ?_⟩, htarget, rfl, rfl⟩
  rw [hiff v hv, htarget]

def Branch.Either (pc : Formula) (x y : Branch) : Prop :=
  x.target ≠ y.target ∧ ∀ v : Valuation, pc.eval v = x.target.toNat ∨ pc.eval v = y.target.toNat

/-- What is said of the outcomes of a jump: their conditions, which of them is taken
where the program counter has the target, and that two are all there can be. -/
structure Outcomes (scope : Scope) (pc : Formula) (source target : Address)
    (bs : List Branch) : Prop where
  decides : ∀ b ∈ bs, b.Decides scope pc
  taken_iff : ∀ v : Valuation, pc.eval v = target.toNat → ∀ place : Address,
    (∃ b ∈ bs, b.taken = true ∧ b.target = place) ↔ place = target
  source_eq : ∀ b ∈ bs, b.source = source
  ways : (∃ x, bs = [x]) ∨ ∃ x y, bs = [x, y] ∧ Branch.Either pc x y

/-- The only outcome of a jump that is no choice between constants. -/
theorem answers_single (rules : Rules) (source : Address)
    (htarget : target.toNat < modulus pc.width) :
    ∃ bs, Answers rules (do
        let dest ← constant target.toNat pc.width
        let constraint ← eq pc dest
        return [{ taken := true, source, target, constraint }]) (.ok bs) ∧
      Outcomes scope pc source target bs := by
  have hw := hpc.wellFormed.width_range
  have hdest : (Formula.constant (truncate pc.width target.toNat) pc.width).OverVariables
      scope := ⟨⟨hw, truncate_lt _ _⟩, trivial⟩
  obtain ⟨k, hk, hover, hiff⟩ := answers_equal hpc rules hdest rfl rfl
  rw [truncate_of_lt htarget] at hiff
  refine ⟨_, (Answers.constant hw _).bind (hk.bind (.pure _)), ?_, ?_, ?_, .inl ⟨_, rfl⟩⟩
  · intro b hb
    obtain rfl := List.mem_singleton.1 hb
    exact ⟨hover, hiff⟩
  · intro v _ place
    constructor
    · rintro ⟨b, hb, -, rfl⟩
      obtain rfl := List.mem_singleton.1 hb
      rfl
    · rintro rfl
      exact ⟨_, List.mem_singleton_self _, rfl, rfl⟩
  · intro b hb
    obtain rfl := List.mem_singleton.1 hb
    rfl

theorem answers_outcomes (rules : Rules) (hwidth : pc.width ≤ 64) (source : Address)
    (htarget : target.toNat < modulus pc.width) :
    ∃ bs, Answers rules (outcomes pc source target) (.ok bs) ∧
      Outcomes scope pc source target bs := by
  have hsingle := answers_single hpc rules source htarget
  unfold outcomes
  split
  · next c onTrue onFalse =>
    split
    · next a b ha hb =>
      split
      · next hne =>
        have htrue := hpc.children (g := onTrue) (by simp)
        have hfalse := hpc.children (g := onFalse) (by simp)
        have hsame : onTrue.width = onFalse.width := hpc.wellFormed.lawful.2.2.1
        obtain ⟨x, hx, hxd, hxt, hxk, hxs⟩ :=
          answers_outcome hpc rules hwidth source target htrue ha rfl
        obtain ⟨y, hy, hyd, hyt, hyk, hys⟩ :=
          answers_outcome hpc rules hwidth source target hfalse hb hsame.symm
        -- the program counter has one of the two constants
        have hchoice : ∀ v, (Formula.ite c onTrue onFalse).eval v = a ∨
            (Formula.ite c onTrue onFalse).eval v = b := by
          intro v
          simp only [eval, eval_of_constant? ha, eval_of_constant? hb]
          split
          · exact .inr rfl
          · exact .inl rfl
        refine ⟨[x, y], hx.bind (hy.bind (.pure _)), ?_, ?_, ?_, .inr ⟨x, y, rfl, ?_, ?_⟩⟩
        · intro b hb
          simp only [List.mem_cons, List.not_mem_nil, or_false] at hb
          rcases hb with rfl | rfl
          · exact hxd
          · exact hyd
        · intro v hvalue place
          constructor
          · rintro ⟨b', hb', htaken, rfl⟩
            simp only [List.mem_cons, List.not_mem_nil, or_false] at hb'
            apply UInt64.toNat.inj
            rcases hb' with rfl | rfl
            · rw [hxk] at htaken
              rw [hxt, beq_iff_eq.1 htaken]
            · rw [hyk] at htaken
              rw [hyt, beq_iff_eq.1 htaken]
          · rintro rfl
            have hplace := hchoice v
            rw [hvalue] at hplace
            rcases hplace with hplace | hplace
            · refine ⟨x, by simp, ?_, UInt64.toNat.inj (hxt.trans hplace.symm)⟩
              rw [hxk, hplace, beq_self_eq_true]
            · refine ⟨y, by simp, ?_, UInt64.toNat.inj (hyt.trans hplace.symm)⟩
              rw [hyk, hplace, beq_self_eq_true]
        · intro b hb
          simp only [List.mem_cons, List.not_mem_nil, or_false] at hb
          rcases hb with rfl | rfl
          · exact hxs
          · exact hys
        · intro heq
          rw [← hxt, ← hyt, heq] at hne
          exact hne rfl
        · intro v
          rw [hxt, hyt]
          exact hchoice v
      · exact hsingle
    · exact hsingle
  · exact hsingle

end

/-- The outcome that happened is one that holds exactly where the program counter has
the target. -/
theorem Outcomes.holds_iff (h : Outcomes scope pc source target bs)
    (hnow : pc.eval now = target.toNat) (hv : v.Fits scope) :
    (∀ b, ({ branches := bs } : PathConstraint).taken? = some b → b.constraint.eval v = 1) ↔
      pc.eval v = target.toNat := by
  have hdecides : ∀ b, ({ branches := bs } : PathConstraint).taken? = some b →
      (b.constraint.eval v = 1 ↔ pc.eval v = target.toNat) := by
    intro b hb
    have hmem := List.mem_of_find?_eq_some hb
    have htarget := (h.taken_iff now hnow b.target).1 ⟨b, hmem, List.find?_some hb, rfl⟩
    rw [← htarget]
    exact (h.decides b hmem).2 v hv
  obtain ⟨b, hb, htaken, -⟩ := (h.taken_iff now hnow target).2 rfl
  obtain ⟨c, hc⟩ := Option.isSome_iff_exists.1 (List.find?_isSome.2 ⟨b, hb, htaken⟩)
  exact ⟨fun hall => (hdecides c hc).1 (hall c hc), fun hpc b hb => (hdecides b hb).2 hpc⟩

/-! Records of decisions. -/

/-- The record of a jump from `source` that went to `target`: one outcome is marked,
the one that happened, and its condition holds. Of two outcomes exactly one happens,
whatever the variables. -/
structure PathConstraint.Records (ctx : Context) (source target : Address)
    (p : PathConstraint) : Prop where
  bits : ∀ b ∈ p.branches, b.constraint.OverVariables ctx.scope ∧ b.constraint.width = 1
  source_eq : ∀ b ∈ p.branches, b.source = source
  taken : ∃ b, p.branches.filter Branch.taken = [b] ∧ b.target = target ∧
    ctx.evaluate b.constraint = 1
  alternatives : p.isMultiple = true → ∃ x y, p.branches = [x, y] ∧
    ∀ v : Valuation, v.Fits ctx.scope → (x.constraint.value v = 1 ↔ y.constraint.value v ≠ 1)

theorem PathConstraint.Records.later {ctx ctx' : Context} {p : PathConstraint}
    (h : p.Records ctx source target) (hle : ctx.Later ctx') : p.Records ctx' source target where
  bits b hb :=
    have ⟨hover, hwidth⟩ := h.bits b hb
    ⟨⟨hover.wellFormed.mono hle.scope, hover.memoryless⟩, hwidth⟩
  source_eq := h.source_eq
  taken := by
    obtain ⟨b, hb, htarget, hone⟩ := h.taken
    have hmem : b ∈ p.branches.filter Branch.taken := hb ▸ List.mem_singleton_self b
    refine ⟨b, hb, htarget, ?_⟩
    rw [hle.evaluate (h.bits b (List.mem_filter.1 hmem).1).1]
    exact hone
  alternatives hmultiple := by
    obtain ⟨x, y, hxy, hone⟩ := h.alternatives hmultiple
    exact ⟨x, y, hxy, fun v hv => hone v fun id width hid => hv id width (hle.scope id width hid)⟩

theorem Outcomes.filter_taken (h : Outcomes scope pc source target bs)
    (hnow : pc.eval now = target.toNat) :
    ∃ b, bs.filter Branch.taken = [b] ∧ b.target = target := by
  have hiff := h.taken_iff now hnow
  obtain ⟨b, hb, htaken, htarget⟩ := (hiff target).2 rfl
  rcases h.ways with ⟨x, rfl⟩ | ⟨x, y, rfl, hne, -⟩
  · obtain rfl := List.mem_singleton.1 hb
    exact ⟨b, List.filter_cons_of_pos htaken, htarget⟩
  · -- two marked outcomes would have one target
    have honly : ¬ (x.taken = true ∧ y.taken = true) := by
      rintro ⟨hx, hy⟩
      apply hne
      rw [(hiff x.target).1 ⟨x, by simp, hx, rfl⟩, (hiff y.target).1 ⟨y, by simp, hy, rfl⟩]
    simp only [List.mem_cons, List.not_mem_nil, or_false] at hb
    rcases hb with rfl | rfl
    · exact ⟨b, by simp_all, htarget⟩
    · exact ⟨b, by simp_all, htarget⟩

theorem Outcomes.records {ctx : Context} (h : Outcomes ctx.scope pc source target bs)
    (hb : ctx.Bounded) (hpc : pc.OverVariables ctx.scope) (hnow : ctx.evaluate pc = target.toNat) :
    ({ branches := bs } : PathConstraint).Records ctx source target where
  bits b hb := (h.decides b hb).1
  source_eq := h.source_eq
  taken := by
    rw [Context.evaluate_eq_eval hpc fun _ => 0] at hnow
    obtain ⟨b, hfilter, htarget⟩ := h.filter_taken hnow
    have hmem : b ∈ bs.filter Branch.taken := hfilter ▸ List.mem_singleton_self b
    obtain ⟨⟨hover, -⟩, hdecides⟩ := h.decides b (List.mem_filter.1 hmem).1
    refine ⟨b, hfilter, htarget, ?_⟩
    rw [Context.evaluate_eq_eval hover fun _ => 0, hdecides _ (hb.fits _), htarget, hnow]
  alternatives hmultiple := by
    rcases h.ways with ⟨x, rfl⟩ | ⟨x, y, rfl, hne, hall⟩
    · cases hmultiple
    · refine ⟨x, y, rfl, fun v hv => ?_⟩
      rw [value_eq_eval, value_eq_eval, (h.decides x (by simp)).2 v hv, Ne,
        (h.decides y (by simp)).2 v hv]
      have hdiffer : x.target.toNat ≠ y.target.toNat := fun heq => hne (UInt64.toNat.inj heq)
      have hone := hall v
      omega

/-! The condition of a path. -/

/-- The formula is a bit over the variables, which is one where `p` holds. -/
structure Formula.Tests (scope : Scope) (p : Valuation → Prop) (f : Formula) : Prop where
  overVariables : f.OverVariables scope
  width_eq : f.width = 1
  eval_iff : ∀ v : Valuation, v.Fits scope → (f.eval v = 1 ↔ p v)

namespace Formula.Tests

variable {scope : Scope} {p : Valuation → Prop} {f : Formula}

theorem eval_eq (h : f.Tests scope p) {scope' : Scope} (hg : g.Tests scope' q) {v' : Valuation}
    (hv : v.Fits scope) (hv' : v'.Fits scope') (hiff : p v ↔ q v') : f.eval v = g.eval v' := by
  have hone : f.eval v = 1 ↔ g.eval v' = 1 := by rw [h.eval_iff v hv, hg.eval_iff v' hv', hiff]
  rcases h.overVariables.wellFormed.eval_bit hv h.width_eq with h0 | h1
  · rcases hg.overVariables.wellFormed.eval_bit hv' hg.width_eq with hg0 | hg1
    · rw [h0, hg0]
    · rw [hone.2 hg1, hg1]
  · rw [h1, hone.1 h1]

theorem mono (h : f.Tests scope p) (hpq : ∀ v, p v ↔ q v) : f.Tests scope q :=
  ⟨h.overVariables, h.width_eq, fun v hv => (h.eval_iff v hv).trans (hpq v)⟩

theorem answers_flag (scope : Scope) (rules : Rules) :
    ∃ f, Answers rules (flag true) (.ok f) ∧ f.Tests scope fun _ => True :=
  ⟨_, .constant ⟨by decide, by decide⟩ _,
    ⟨⟨⟨by decide, by decide⟩, by decide⟩, trivial⟩, rfl, fun _ _ => iff_of_true rfl trivial⟩

theorem answers_and (h : f.Tests scope p) (hg : g.Tests scope q) (rules : Rules) :
    ∃ r, Answers rules (and f g) (.ok r) ∧ r.Tests scope fun v => p v ∧ q v := by
  have hl : (Call.arith .and f g).plain.Lawful :=
    ⟨h.width_eq.trans hg.width_eq.symm, h.overVariables.memoryless.not_array,
      hg.overVariables.memoryless.not_array⟩
  have hc : ∀ k ∈ (Call.arith .and f g).plain.children, k.WellFormed scope := by
    simpa using ⟨h.overVariables.wellFormed, hg.overVariables.wellFormed⟩
  obtain ⟨r, hr, hs, -⟩ := builds rules (wellFormed_plain hl hc)
  refine ⟨r, hr, hs.overVariables ⟨h.overVariables.memoryless, hg.overVariables.memoryless⟩,
    hs.width_eq.trans h.width_eq, fun v hv => ?_⟩
  rw [hs.eval_eq v hv, ← h.eval_iff v hv, ← hg.eval_iff v hv]
  simp only [plain, eval, h.width_eq]
  rcases h.overVariables.wellFormed.eval_bit hv h.width_eq with hf | hf <;>
    rcases hg.overVariables.wellFormed.eval_bit hv hg.width_eq with hg | hg <;>
    rw [hf, hg] <;> decide

end Formula.Tests

/-- What happened on a path tests whether all of it happens. -/
theorem Path.answers_conjoin {scope : Scope} (rules : Rules) : ∀ (path : List PathConstraint)
    {start : Formula} {p : Valuation → Prop}, start.Tests scope p →
    (∀ pc ∈ path, ∀ b ∈ pc.branches,
      b.constraint.OverVariables scope ∧ b.constraint.width = 1) →
    ∃ f, Answers rules (conjoin start path) (.ok f) ∧ f.Tests scope fun v =>
      p v ∧ ∀ pc ∈ path, ∀ b, pc.taken? = some b → b.constraint.eval v = 1
  | [], start, p, hstart, _ => ⟨start, .pure start, hstart.mono fun v => by simp⟩
  | pc :: rest, start, p, hstart, hbits => by
    have hrest : ∀ other ∈ rest, ∀ b ∈ other.branches,
        b.constraint.OverVariables scope ∧ b.constraint.width = 1 :=
      fun other hother => hbits other (List.mem_cons_of_mem _ hother)
    unfold conjoin
    rw [List.foldlM_cons]
    cases htaken : pc.taken? with
    | none =>
      obtain ⟨f, hf, htests⟩ := answers_conjoin rules rest hstart hrest
      exact ⟨f, (Answers.pure start).bind hf, htests.mono fun v => by simp [htaken]⟩
    | some b =>
      obtain ⟨hover, hwidth⟩ := hbits pc List.mem_cons_self b (List.mem_of_find?_eq_some htaken)
      have hbit : b.constraint.Tests scope fun v => b.constraint.eval v = 1 :=
        ⟨hover, hwidth, fun _ _ => Iff.rfl⟩
      obtain ⟨next, hnext, hboth⟩ := hstart.answers_and hbit rules
      obtain ⟨f, hf, htests⟩ := answers_conjoin rules rest hboth hrest
      exact ⟨f, hnext.bind hf, htests.mono fun v => by simp [htaken, and_assoc]⟩

theorem Path.answers_predicate (rules : Rules) {path : List PathConstraint}
    (hbits : ∀ pc ∈ path, ∀ b ∈ pc.branches,
      b.constraint.OverVariables scope ∧ b.constraint.width = 1) :
    ∃ f, Answers rules (predicate path) (.ok f) ∧ f.Tests scope fun v =>
      ∀ pc ∈ path, ∀ b, pc.taken? = some b → b.constraint.eval v = 1 := by
  obtain ⟨start, hstart, htrue⟩ := Tests.answers_flag scope rules
  obtain ⟨f, hf, htests⟩ := answers_conjoin rules path htrue hbits
  exact ⟨f, hstart.bind hf, htests.mono fun v => by simp⟩

end Concolic
