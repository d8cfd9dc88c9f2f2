import Propositional.Inference
import Propositional.Proofs.Semantics.TruthTables
import Propositional.Proofs.Text.ByteOrder

/-!
# Sound Rules Hold in Every Model

A rule says the same as the chain of implications in which each assumption implies the rest
of the rule. It has the variables of the chain (`InferenceRule.vars_implicationChain`), is
covered by the same models, and in a covering model evaluation stops at the first false
assumption with the value of the chain (`InferenceRule.evaluate_of_covers`). The soundness
check compiles assumptions and conclusion one by one, over the variables of the whole rule,
but joins what the programs give to the value of the chain as well. So what is known of
tautologies is known of sound rules: the models over the variables of the rule stand for
all models that cover it.

## Main results

* `InferenceRule.evaluate_of_covers`: the value of a rule in a covering model.
* `InferenceRule.exists_isSound`: the check in terms of the recursive value of the chain.
* `InferenceRule.isSound_decides`: the check in terms of the covering models, and what is
  refused.
* `InferenceRule.isSound_eq_isTautology`: the check of a rule is the check of its chain.
-/

namespace Propositional

namespace InferenceRule

variable {r : InferenceRule} {m : Model}

/-! ### The chain of implications -/

/-- The chain is true unless all assumptions are true and the conclusion is false. -/
theorem value_implicationChain (r : InferenceRule) (v : String → Bool) :
    r.implicationChain.value v =
      (r.assumptions.any (fun f => !f.value v) || r.conclusion.value v) := by
  obtain ⟨assumptions, conclusion⟩ := r
  induction assumptions with
  | nil => rfl
  | cons f fs ih =>
      change (!f.value v || (implicationChain ⟨fs, conclusion⟩).value v) = _
      rw [ih, List.any_cons, Bool.or_assoc]

/-- The chain mentions the names that occur in some formula of the rule. -/
theorem mentions_implicationChain_iff {x : String} :
    r.implicationChain.Mentions x ↔ ∃ f ∈ r.formulas, f.Mentions x := by
  obtain ⟨assumptions, conclusion⟩ := r
  induction assumptions with
  | nil => simp [implicationChain, formulas]
  | cons f fs ih =>
      change f.Mentions x ∨ (implicationChain ⟨fs, conclusion⟩).Mentions x ↔ _
      rw [ih, formulas, formulas, List.cons_append, List.exists_mem_cons_iff]

/-- The chain has the variables of the rule. -/
theorem vars_implicationChain (r : InferenceRule) : r.implicationChain.vars = r.vars :=
  Formula.vars_eq_of_sorted r.sorted_vars fun x => by
    rw [mentions_implicationChain_iff, mem_vars_iff]

/-- The chain of a rule with well-formed formulas is well-formed. -/
theorem wellFormed_implicationChain (hr : ∀ f ∈ r.formulas, f.WellFormed) :
    r.implicationChain.WellFormed := by
  rw [Formula.wellFormed_iff]
  intro x hx
  obtain ⟨f, hf, hmentions⟩ := mentions_implicationChain_iff.mp hx
  exact Formula.wellFormed_iff.mp (hr f hf) x hmentions

/-- The chain is written with a parenthesis for each assumption, closed after the
conclusion. -/
theorem text_implicationChain (r : InferenceRule) :
    r.implicationChain.text =
      String.join (r.assumptions.map fun f => "(" ++ f.text ++ "->") ++ r.conclusion.text ++
        String.ofList (List.replicate r.assumptions.length ')') := by
  obtain ⟨assumptions, conclusion⟩ := r
  simp only [Formula.text_eq, ← String.toList_inj, String.toList_append, String.toList_join,
    String.toList_ofList]
  induction assumptions with
  | nil => simp [implicationChain]
  | cons f fs ih =>
      change ("(" ++ f.standardForm ++ "->" ++
        (implicationChain ⟨fs, conclusion⟩).standardForm ++ ")").toList = _
      simp [ih, List.replicate_succ']

/-- A model covers the chain iff it covers all formulas of the rule. -/
theorem covers_implicationChain_iff :
    m.covers r.implicationChain = true ↔ ∀ f ∈ r.formulas, m.covers f = true := by
  simp only [Model.covers_iff, mentions_implicationChain_iff]
  constructor
  · exact fun h f hf x hx => h x ⟨f, hf, hx⟩
  · rintro h x ⟨f, hf, hx⟩
    exact h f hf x hx

/-! ### The rule in one model -/

/-- In a model that covers all formulas, the first false assumption or else the conclusion
decides, and so it does for the chain. -/
theorem holdsFrom_of_covers {assumptions : List Formula} {conclusion : Formula}
    (hassumptions : ∀ f ∈ assumptions, m.covers f = true)
    (hconclusion : m.covers conclusion = true) :
    holdsFrom conclusion m assumptions =
      .ok ((implicationChain ⟨assumptions, conclusion⟩).value m.valuation) := by
  induction assumptions with
  | nil => exact Formula.evaluate_of_covers hconclusion
  | cons f fs ih =>
      obtain ⟨hf, hfs⟩ := List.forall_mem_cons.mp hassumptions
      change _ = Except.ok
        (!f.value m.valuation || (implicationChain ⟨fs, conclusion⟩).value m.valuation)
      rw [holdsFrom, Formula.evaluate_of_covers hf]
      cases f.value m.valuation with
      | false => rfl
      | true => exact ih hfs

/-- **In a model that covers the rule, evaluation gives the value of the chain.** -/
theorem evaluate_of_covers (h : ∀ f ∈ r.formulas, m.covers f = true) :
    r.evaluate m = .ok (r.implicationChain.value m.valuation) := by
  have hmissing : r.formulas.findSome? m.firstMissing? = none :=
    List.findSome?_eq_none_iff.mpr fun f hf => Model.firstMissing?_eq_none_iff.mpr (h f hf)
  rw [evaluate, hmissing]
  refine holdsFrom_of_covers (fun f hf => h f ?_) (h r.conclusion ?_)
  · exact List.mem_append_left _ hf
  · exact List.mem_append_right _ List.mem_cons_self

/-! ### The rule in all models -/

/-- A rule with too many variables is not checked. -/
theorem isSound_eq_error (config : PoolConfig) (h : variableLimit ≤ r.vars.length) :
    r.isSound config = .error (.tooManyVariables r.vars.length) := by
  rw [isSound, numModels_eq_error h]
  rfl

/-- Formulas compile over a list of distinct names that holds the variables of all of them,
and some program gives `false` iff some formula is false. -/
theorem exists_mapM_compile {vars : List String} (hnodup : vars.Nodup) {fs : List Formula}
    (h : ∀ f ∈ fs, ∀ x, f.Mentions x → x ∈ vars) :
    ∃ programs, fs.mapM (fun f => Program.compile f vars) = .ok programs ∧
      ∀ number, programs.any (fun p => !p.eval number) =
        fs.any fun f => !f.value (Enumeration.modelOf vars number).valuation := by
  induction fs with
  | nil => exact ⟨[], rfl, fun _ => rfl⟩
  | cons f fs ih =>
      obtain ⟨hf, hfs⟩ := List.forall_mem_cons.mp h
      obtain ⟨program, hcompile, heval⟩ := Program.exists_compile hnodup hf
      obtain ⟨programs, hcompiles, hany⟩ := ih hfs
      refine ⟨program :: programs, ?_, fun number => ?_⟩
      · rw [List.mapM_cons, hcompile, hcompiles]
        rfl
      · rw [List.any_cons, List.any_cons, heval, hany]

/-- **The check tells whether the chain is true under every assignment.** -/
theorem exists_isSound (config : PoolConfig) (h : r.vars.length < variableLimit) :
    ∃ b, r.isSound config = .ok b ∧ (b = true ↔ ∀ v, r.implicationChain.value v = true) := by
  have hmem : ∀ f ∈ r.formulas, ∀ x, f.Mentions x → x ∈ r.vars := fun f hf x hx =>
    (mem_vars_iff x r).mpr ⟨f, hf, hx⟩
  have hnodup : r.vars.Nodup := r.sorted_vars.imp String.ne_of_lt
  obtain ⟨assumptions, hassumptions, hany⟩ := exists_mapM_compile hnodup
    (fun f hf => hmem f (List.mem_append_left _ hf) : ∀ f ∈ r.assumptions, _)
  obtain ⟨conclusion, hconclusion, heval⟩ := Program.exists_compile hnodup
    (hmem r.conclusion (List.mem_append_right _ List.mem_cons_self))
  have hcheck : r.isSound config = .ok (config.holdsBelow (2 ^ r.vars.length) fun number =>
      assumptions.any (fun p => !p.eval number) || conclusion.eval number) := by
    simp only [isSound, numModels_eq_ok h, hassumptions, hconclusion, bind, Except.bind]
    rfl
  refine ⟨_, hcheck, ?_⟩
  simp only [config.holdsBelow_iff, hany, heval, ← value_implicationChain]
  rw [← vars_implicationChain, Formula.forall_number_iff]

/-- Evaluation finds the rule true in all covering models iff the chain is true under every
assignment. -/
theorem forall_covering_iff (hr : ∀ f ∈ r.formulas, f.WellFormed) :
    (∀ m : Model, m.WellFormed → (∀ f ∈ r.formulas, m.covers f = true) →
      r.evaluate m = .ok true) ↔ ∀ v, r.implicationChain.value v = true := by
  rw [← Formula.forall_covering_iff (wellFormed_implicationChain hr)]
  simp only [covers_implicationChain_iff]
  refine forall_congr' fun m => imp_congr_right fun _ => imp_congr_right fun hcovers => ?_
  rw [evaluate_of_covers hcovers,
    Formula.evaluate_of_covers (covers_implicationChain_iff.mpr hcovers)]

/-- The models over the variables of the rule cover all its formulas. -/
theorem covers_of_mem_rest (hm : m ∈ (Enumeration.start r.vars).rest) :
    ∀ f ∈ r.formulas, m.covers f = true := by
  rw [← vars_implicationChain] at hm
  obtain ⟨number, -, rfl⟩ := Enumeration.mem_rest_start_iff.mp hm
  exact covers_implicationChain_iff.mp (r.implicationChain.covers_modelOf_vars number)

/-- Already the models over the variables of the rule decide whether the chain is true under
every assignment. -/
theorem forall_mem_rest_iff (r : InferenceRule) :
    (∀ m ∈ (Enumeration.start r.vars).rest, r.evaluate m = .ok true) ↔
      ∀ v, r.implicationChain.value v = true := by
  rw [← Formula.forall_number_iff, vars_implicationChain]
  constructor
  · intro h number hlt
    have hm : Enumeration.modelOf r.vars number ∈ (Enumeration.start r.vars).rest :=
      Enumeration.mem_rest_start_iff.mpr ⟨number, hlt, rfl⟩
    exact Except.ok.inj ((evaluate_of_covers (covers_of_mem_rest hm)).symm.trans (h _ hm))
  · intro h m hm
    rw [evaluate_of_covers (covers_of_mem_rest hm)]
    obtain ⟨number, hlt, rfl⟩ := Enumeration.mem_rest_start_iff.mp hm
    rw [h number hlt]

/-- The variables of a rule with well-formed formulas are valid names. -/
theorem isVariable_of_mem_vars (hr : ∀ f ∈ r.formulas, f.WellFormed) :
    ∀ x ∈ r.vars, isVariable x = true := by
  rw [← vars_implicationChain]
  exact (wellFormed_implicationChain hr).isVariable_of_mem_vars

/-- **Sound rules are those that hold in every model.** Whatever workers are asked for, a
rule with too many variables is refused, and no other one: it is found to be sound iff
evaluation makes it true in all models that cover its formulas, whatever other variables
they give values to. It is enough that evaluation makes it true in the models over its
variables, which are the variables of its formulas, each once, ordered by their bytes. -/
theorem isSound_decides (hr : ∀ f ∈ r.formulas, f.WellFormed) (config : PoolConfig) :
    (64 ≤ r.vars.length → r.isSound config = .error (.tooManyVariables r.vars.length)) ∧
      (r.vars.length < 64 →
        (∃ b, r.isSound config = .ok b ∧ (b = true ↔
          ∀ m : Model, m.WellFormed → (∀ f ∈ r.formulas, m.covers f = true) →
            r.evaluate m = .ok true)) ∧
        ∃ models, Enumeration.ofVariables r.vars = .ok models ∧
          (∀ m ∈ models.rest, m.vars = r.vars ∧ ∀ f ∈ r.formulas, m.covers f = true) ∧
          ((∀ m ∈ models.rest, r.evaluate m = .ok true) ↔
            ∀ m : Model, m.WellFormed → (∀ f ∈ r.formulas, m.covers f = true) →
              r.evaluate m = .ok true)) ∧
      (∀ x, x ∈ r.vars ↔ ∃ f ∈ r.formulas, x ∈ f.vars) ∧
      r.vars.Nodup ∧ r.vars.Pairwise fun x y => bytes x < bytes y := by
  have hnodup : r.vars.Nodup := r.sorted_vars.imp String.ne_of_lt
  refine ⟨isSound_eq_error config, fun hfew => ⟨?_, ?_⟩, fun x => ?_, hnodup, ?_⟩
  · simpa only [forall_covering_iff hr] using exists_isSound config hfew
  · refine ⟨_, Enumeration.ofVariables_eq_ok (isVariable_of_mem_vars hr) hnodup hfew,
      fun m hm => ⟨?_, covers_of_mem_rest hm⟩, ?_⟩
    · obtain ⟨number, -, rfl⟩ := Enumeration.mem_rest_start_iff.mp hm
      exact Enumeration.vars_modelOf r.vars number
    · rw [forall_mem_rest_iff, forall_covering_iff hr]
  · simp only [mem_vars_iff, Formula.mem_vars_iff]
  · exact r.sorted_vars.imp lt_iff_bytes_lt.mp

/-- Four workers that take one number at a time find that `[p, (p->q7)] ==> q7` is sound and
that `[q7, (p->q7)] ==> p` is not. -/
theorem isSound_decides_detachment :
    InferenceRule.isSound ⟨[.var "p", .binary .implies (.var "p") (.var "q7")], .var "q7"⟩ ⟨4, 0⟩ =
        .ok true ∧
      InferenceRule.isSound ⟨[.var "q7", .binary .implies (.var "p") (.var "q7")], .var "p"⟩
        ⟨4, 0⟩ = .ok false := by
  have hp : isVariable "p" = true := by decide
  have hq : isVariable "q7" = true := by decide
  have hwf : ∀ f ∈ InferenceRule.formulas
      ⟨[.var "p", .binary .implies (.var "p") (.var "q7")], .var "q7"⟩, f.WellFormed := by
    simp [formulas, Formula.WellFormed, hp, hq]
  have hwf' : ∀ f ∈ InferenceRule.formulas
      ⟨[.var "q7", .binary .implies (.var "p") (.var "q7")], .var "p"⟩, f.WellFormed := by
    simp [formulas, Formula.WellFormed, hp, hq]
  obtain ⟨-, h, -⟩ := isSound_decides hwf ⟨4, 0⟩
  obtain ⟨-, h', -⟩ := isSound_decides hwf' ⟨4, 0⟩
  obtain ⟨⟨b, hcheck, hb⟩, -⟩ := h (by decide)
  obtain ⟨⟨b', hcheck', hb'⟩, -⟩ := h' (by decide)
  rw [forall_covering_iff hwf] at hb
  rw [forall_covering_iff hwf'] at hb'
  have hsound : b = true := hb.mpr fun v => by
    simp only [value_implicationChain, List.any_cons, List.any_nil, Formula.value,
      Connective.apply]
    cases v "p" <;> cases v "q7" <;> rfl
  have hunsound : b' = false :=
    Bool.eq_false_iff.mpr fun hall => absurd (hb'.mp hall (· == "q7")) (by decide)
  rw [hcheck, hcheck', hsound, hunsound]
  exact ⟨rfl, rfl⟩

/-- **To check a rule is to check its chain of implications.** The two checks have the same
result, whatever workers either of them is asked for: the same truth value if the formulas of
the rule have fewer than 64 distinct variables, and else the same refusal, with their number.
The chain is the formula `(A1->(A2->...(Ak->C)...))`. -/
theorem isSound_eq_isTautology (r : InferenceRule) (config config' : PoolConfig) :
    r.isSound config = r.implicationChain.isTautology config' ∧
      ((∃ b, r.isSound config = .ok b) ↔ r.vars.length < 64) ∧
      (r.isSound config = .error (.tooManyVariables r.vars.length) ↔ 64 ≤ r.vars.length) ∧
      (∀ x, x ∈ r.vars ↔ ∃ f ∈ r.formulas, x ∈ f.vars) ∧ r.vars.Nodup ∧
      r.implicationChain.text =
        String.join (r.assumptions.map fun f => "(" ++ f.text ++ "->") ++ r.conclusion.text ++
          String.ofList (List.replicate r.assumptions.length ')') := by
  have hmem : ∀ x, x ∈ r.vars ↔ ∃ f ∈ r.formulas, x ∈ f.vars := fun x => by
    simp only [mem_vars_iff, Formula.mem_vars_iff]
  have hsame : r.implicationChain.vars.length = r.vars.length := by rw [vars_implicationChain]
  refine ⟨?_, ?_, ?_, hmem, r.sorted_vars.imp String.ne_of_lt, r.text_implicationChain⟩
  all_goals rcases Nat.lt_or_ge r.vars.length variableLimit with hfew | hmany
  · obtain ⟨b, hrule, hb⟩ := exists_isSound config hfew
    obtain ⟨b', hchain, hb'⟩ := Formula.exists_isTautology config' (hsame ▸ hfew)
    rw [hrule, hchain, Bool.eq_iff_iff.mpr (hb.trans hb'.symm)]
  · rw [isSound_eq_error config hmany, Formula.isTautology_eq_error config' (hsame ▸ hmany), hsame]
  · obtain ⟨b, hrule, -⟩ := exists_isSound config hfew
    exact iff_of_true ⟨b, hrule⟩ hfew
  · rw [isSound_eq_error config hmany]
    exact iff_of_false (fun ⟨_, hok⟩ => nomatch hok) (Nat.not_lt.mpr hmany)
  · obtain ⟨b, hrule, -⟩ := exists_isSound config hfew
    rw [hrule]
    exact iff_of_false (fun herror => nomatch herror) (Nat.not_le.mpr hfew)
  · exact iff_of_true (isSound_eq_error config hmany) hmany

end InferenceRule

end Propositional
