import Mathlib.Data.List.Basic

/-!
# Runs of partial transition functions

A program is given by a transition function `step : σ → α → Option σ` on its states: `step s a` is
the state after the action `a`, and `none` when `a` cannot be taken in `s`. This file runs lists of
actions and provides the rules by which a property of single steps becomes a property of runs.

* `run step s as` is the state after the actions `as`.
* `AllSteps step C s as` says that every action of the run meets the condition `C`, which reads the
  state the action is taken in.
* A property that holds of every state of an invariant, and fails right after the first action that
  violates `C`, holds after every prefix of a run exactly when all its steps meet `C`
  (`forall_prefix_iff_allSteps`).
* The same for a comparison of a run with the run in which the actions outside `keep` are left out
  (`forall_prefix_filter_iff_allSteps`).
* `trace step obs s as` is what the run shows: `obs` says what an action shows in the state it is
  taken in.
* Steps that are matched by lists of abstract actions make runs that are matched by abstract runs
  with the same trace (`exists_run_of_simulates`).
* An abstraction function that commutes with steps commutes with runs (`map_run_eq_run`).

## Main definitions

* `Transition.run`, `Transition.AllSteps`, `Transition.trace`.

## Main results

* `Transition.run_induction`, `Transition.exists_run_of_allSteps`,
  `Transition.AllSteps.mono_of_invariant`.
* `Transition.forall_prefix_iff_allSteps`, `Transition.forall_prefix_filter_iff_allSteps`.
* `Transition.exists_run_of_simulates`, `Transition.map_run_eq_run`.
-/

namespace GuruPractice.Transition

variable {σ τ α β : Type*} (step : σ → α → Option σ)

/-! ### Runs -/

/-- The state after the actions of a list, `none` when one of them cannot be taken. -/
def run (s : σ) (as : List α) : Option σ := as.foldlM step s

@[simp] theorem run_nil (s : σ) : run step s [] = some s := rfl

@[simp] theorem run_cons (s : σ) (a : α) (as : List α) :
    run step s (a :: as) = (step s a).bind fun s' => run step s' as :=
  List.foldlM_cons

theorem run_append (s : σ) (as bs : List α) :
    run step s (as ++ bs) = (run step s as).bind fun s' => run step s' bs :=
  List.foldlM_append

theorem run_cons_eq_some {s s' : σ} {a : α} {as : List α} :
    run step s (a :: as) = some s' ↔ ∃ s₁, step s a = some s₁ ∧ run step s₁ as = some s' := by
  rw [run_cons, Option.bind_eq_some_iff]

theorem run_singleton_eq_some {s s' : σ} {a : α} :
    run step s [a] = some s' ↔ step s a = some s' := by
  simp

theorem run_append_eq_some {s s' : σ} {as bs : List α} :
    run step s (as ++ bs) = some s' ↔ ∃ s₁, run step s as = some s₁ ∧ run step s₁ bs = some s' := by
  rw [run_append, Option.bind_eq_some_iff]

/-! ### Invariants -/

variable {step}

/-- **Invariants hold along runs.** -/
theorem run_induction {I : σ → Prop} (hstep : ∀ s a s', I s → step s a = some s' → I s')
    {s s' : σ} {as : List α} (hs : I s) (h : run step s as = some s') : I s' := by
  induction as generalizing s with
  | nil => exact Option.some.inj h ▸ hs
  | cons a as ih =>
    obtain ⟨s₁, hs₁, hrun⟩ := (run_cons_eq_some step).mp h
    exact ih (hstep s a s₁ hs hs₁) hrun

variable (step) in
/-- Every action of the run meets `C` in the state it is taken in. -/
def AllSteps (C : σ → α → Prop) : σ → List α → Prop
  | _, [] => True
  | s, a :: as => C s a ∧ ∀ s', step s a = some s' → AllSteps C s' as

theorem allSteps_cons_iff {C : σ → α → Prop} {s s' : σ} {a : α} {as : List α}
    (h : step s a = some s') :
    AllSteps step C s (a :: as) ↔ C s a ∧ AllSteps step C s' as := by
  simp only [AllSteps, h, Option.some.injEq, forall_eq']

theorem allSteps_append_iff {C : σ → α → Prop} {s s' : σ} {as bs : List α}
    (h : run step s as = some s') :
    AllSteps step C s (as ++ bs) ↔ AllSteps step C s as ∧ AllSteps step C s' bs := by
  induction as generalizing s with
  | nil =>
    obtain rfl := Option.some.inj h
    exact (iff_of_eq (true_and _)).symm
  | cons a as ih =>
    obtain ⟨s₁, hs₁, hrun⟩ := (run_cons_eq_some step).mp h
    rw [List.cons_append, allSteps_cons_iff hs₁, allSteps_cons_iff hs₁, ih hrun, and_assoc]

/-- A condition that does not read the state is one on the actions of the run. -/
theorem allSteps_const_iff {C : α → Prop} {s s' : σ} {as : List α} (h : run step s as = some s') :
    AllSteps step (fun _ a => C a) s as ↔ ∀ a ∈ as, C a := by
  induction as generalizing s with
  | nil => exact iff_of_true trivial (by simp)
  | cons a as ih =>
    obtain ⟨s₁, hs₁, hrun⟩ := (run_cons_eq_some step).mp h
    rw [allSteps_cons_iff hs₁, ih hrun, List.forall_mem_cons]

/-- **Invariants hold along runs** whose steps meet a condition. -/
theorem run_induction_of_allSteps {I : σ → Prop} {C : σ → α → Prop}
    (hstep : ∀ s a s', I s → C s a → step s a = some s' → I s') {s s' : σ} {as : List α} (hs : I s)
    (hC : AllSteps step C s as) (h : run step s as = some s') : I s' := by
  induction as generalizing s with
  | nil => exact Option.some.inj h ▸ hs
  | cons a as ih =>
    obtain ⟨s₁, hs₁, hrun⟩ := (run_cons_eq_some step).mp h
    exact ih (hstep s a s₁ hs hC.1 hs₁) (hC.2 s₁ hs₁) hrun

/-- When the actions meeting `C` can be taken in every state of an invariant they preserve, a list
of such actions is a run. -/
theorem exists_run_of_allSteps {I : σ → Prop} {C : σ → α → Prop}
    (hstep : ∀ s a, I s → C s a → ∃ s', step s a = some s' ∧ I s') {s : σ} {as : List α}
    (hs : I s) (hC : AllSteps step C s as) : ∃ s', run step s as = some s' ∧ I s' := by
  induction as generalizing s with
  | nil => exact ⟨s, rfl, hs⟩
  | cons a as ih =>
    obtain ⟨s₁, hs₁, hI⟩ := hstep s a hs hC.1
    obtain ⟨s', hrun, hI'⟩ := ih hI (hC.2 s₁ hs₁)
    exact ⟨s', (run_cons_eq_some step).mpr ⟨s₁, hs₁, hrun⟩, hI'⟩

/-- A condition can be weakened by what an invariant of the run says. -/
theorem AllSteps.mono_of_invariant {I : σ → Prop} {C D : σ → α → Prop}
    (hstep : ∀ s a s', I s → C s a → step s a = some s' → I s')
    (hCD : ∀ s a, I s → C s a → D s a) {s : σ} {as : List α} (hs : I s)
    (hC : AllSteps step C s as) : AllSteps step D s as := by
  induction as generalizing s with
  | nil => trivial
  | cons a as ih =>
    refine ⟨hCD s a hs hC.1, fun s' hs' => ?_⟩
    exact ih (hstep s a s' hs hC.1 hs') (hC.2 s' hs')

/-! ### Exact conditions on steps -/

/-- **Exact condition on steps.** Suppose the property `P` holds throughout the invariant `I`, that
the steps meeting `C` preserve `I`, and that `P` fails after every other step from `I`. Then `P`
holds after every prefix of a run from `I` if and only if all steps of the run meet `C`. The actions
may be limited to those with `A`. -/
theorem forall_prefix_iff_allSteps {I P : σ → Prop} {C : σ → α → Prop} {A : α → Prop}
    (hP : ∀ s, I s → P s)
    (hstep : ∀ s a s', I s → A a → C s a → step s a = some s' → I s')
    (hviolates : ∀ s a s', I s → A a → ¬C s a → step s a = some s' → ¬P s')
    {s t : σ} {as : List α} (hA : ∀ a ∈ as, A a) (hs : I s) (h : run step s as = some t) :
    (∀ bs, bs <+: as → ∀ s', run step s bs = some s' → P s') ↔ AllSteps step C s as := by
  induction as generalizing s with
  | nil =>
    refine ⟨fun _ => trivial, fun _ bs hbs s' hs' => ?_⟩
    obtain rfl := List.prefix_nil.mp hbs
    exact Option.some.inj hs' ▸ hP s hs
  | cons a as ih =>
    obtain ⟨s₁, hs₁, hrun⟩ := (run_cons_eq_some step).mp h
    obtain ⟨ha, hA⟩ := List.forall_mem_cons.mp hA
    rw [allSteps_cons_iff hs₁]
    constructor
    · intro hall
      have hC : C s a := by
        by_contra hC
        refine hviolates s a s₁ hs ha hC hs₁ (hall [a] ?_ s₁ ?_)
        · exact List.cons_prefix_cons.mpr ⟨rfl, List.nil_prefix⟩
        · exact (run_cons_eq_some step).mpr ⟨s₁, hs₁, rfl⟩
      refine ⟨hC, (ih hA (hstep s a s₁ hs ha hC hs₁) hrun).mp fun bs hbs s' hs' => ?_⟩
      exact hall (a :: bs) (List.cons_prefix_cons.mpr ⟨rfl, hbs⟩) s'
        ((run_cons_eq_some step).mpr ⟨s₁, hs₁, hs'⟩)
    · rintro ⟨hC, hrest⟩ bs hbs s' hs'
      rcases List.prefix_cons_iff.mp hbs with rfl | ⟨cs, rfl, hcs⟩
      · exact Option.some.inj hs' ▸ hP s hs
      · obtain ⟨s₂, hs₂, hrun₂⟩ := (run_cons_eq_some step).mp hs'
        obtain rfl := Option.some.inj (hs₁.symm.trans hs₂)
        exact (ih hA (hstep s a s₁ hs ha hC hs₁) hrun).mpr hrest cs hcs s' hrun₂

/-! ### A run and the run with some actions left out -/

section Filter

variable {keep : α → Bool} {R Agree : σ → σ → Prop} {C : σ → α → Prop}

variable (step) in
/-- The runs of `as` from `s` and of the kept actions of `as` from `t` both exist and end in states
that agree. -/
def AgreesWithKept (keep : α → Bool) (Agree : σ → σ → Prop) (s t : σ) (as : List α) : Prop :=
  ∃ s' t', run step s as = some s' ∧ run step t (as.filter keep) = some t' ∧ Agree s' t'

private theorem agreesWithKept_cons {s t s₁ t₁ : σ} {a : α} (as : List α)
    (hs : step s a = some s₁) (ht : if keep a then step t a = some t₁ else t₁ = t) :
    AgreesWithKept step keep Agree s t (a :: as) ↔
      AgreesWithKept step keep Agree s₁ t₁ as := by
  cases hk : keep a with
  | true =>
    rw [hk, if_pos rfl] at ht
    simp only [AgreesWithKept, run_cons, List.filter_cons, hk, if_true, hs, ht, Option.bind_some]
  | false =>
    rw [hk, if_neg Bool.false_ne_true] at ht
    simp only [AgreesWithKept, run_cons, List.filter_cons, hk, Bool.false_eq_true, if_false, hs,
      ht, Option.bind_some]

/-- **Exact condition for leaving actions out.** The run of a list of actions is compared with the
run of those of them in `keep`. Suppose related states agree; that after an action meeting `C`,
taken on both sides if it is kept and on the left only if not, the states are related again; and
that after any other action they do not agree. Then the two runs agree after every prefix if and
only if all steps of the full run meet `C`. -/
theorem forall_prefix_filter_iff_allSteps
    (hagree : ∀ s t, R s t → Agree s t)
    (hstep : ∀ s t a s', R s t → C s a → step s a = some s' →
      ∃ t', (if keep a then step t a = some t' else t' = t) ∧ R s' t')
    (hviolates : ∀ s t a s' t', R s t → ¬C s a → step s a = some s' →
      (if keep a then step t a = some t' else t' = t) → ¬Agree s' t')
    {s t u : σ} {as : List α} (hst : R s t) (h : run step s as = some u) :
    (∀ bs, bs <+: as → AgreesWithKept step keep Agree s t bs) ↔ AllSteps step C s as := by
  induction as generalizing s t with
  | nil =>
    refine ⟨fun _ => trivial, fun _ bs hbs => ?_⟩
    obtain rfl := List.prefix_nil.mp hbs
    exact ⟨s, t, rfl, rfl, hagree s t hst⟩
  | cons a as ih =>
    obtain ⟨s₁, hs₁, hrun⟩ := (run_cons_eq_some step).mp h
    rw [allSteps_cons_iff hs₁]
    constructor
    · intro hall
      have hone : AgreesWithKept step keep Agree s t [a] :=
        hall [a] (List.cons_prefix_cons.mpr ⟨rfl, List.nil_prefix⟩)
      have hC : C s a := by
        by_contra hC
        obtain ⟨s', t', hs', ht', hA⟩ := hone
        simp only [run_cons, hs₁, Option.bind_some, run_nil, Option.some.injEq] at hs'
        subst hs'
        refine hviolates s t a s₁ t' hst hC hs₁ ?_ hA
        cases hk : keep a with
        | true => simpa [List.filter_cons, hk] using ht'
        | false => simpa [List.filter_cons, hk, eq_comm] using ht'
      obtain ⟨t₁, ht₁, hrel⟩ := hstep s t a s₁ hst hC hs₁
      refine ⟨hC, (ih hrel hrun).mp fun bs hbs => ?_⟩
      exact (agreesWithKept_cons bs hs₁ ht₁).mp
        (hall (a :: bs) (List.cons_prefix_cons.mpr ⟨rfl, hbs⟩))
    · rintro ⟨hC, hrest⟩ bs hbs
      obtain ⟨t₁, ht₁, hrel⟩ := hstep s t a s₁ hst hC hs₁
      rcases List.prefix_cons_iff.mp hbs with rfl | ⟨cs, rfl, hcs⟩
      · exact ⟨s, t, rfl, rfl, hagree s t hst⟩
      · exact (agreesWithKept_cons cs hs₁ ht₁).mpr ((ih hrel hrun).mpr hrest cs hcs)

end Filter

/-! ### Simulations -/

section Simulation

variable {γ : Type*} {absStep : τ → β → Option τ} {obs : σ → α → List γ} {absObs : τ → β → List γ}

variable (step) in
/-- What the actions of a run show, one after the other. -/
def trace (obs : σ → α → List γ) : σ → List α → List γ
  | _, [] => []
  | s, a :: as => obs s a ++ ((step s a).map fun s' => trace obs s' as).getD []

theorem trace_cons {s s' : σ} {a : α} (h : step s a = some s') (as : List α) :
    trace step obs s (a :: as) = obs s a ++ trace step obs s' as := by
  rw [trace, h, Option.map_some, Option.getD_some]

theorem trace_singleton (s : σ) (a : α) : trace step obs s [a] = obs s a := by
  cases h : step s a <;> simp [trace, h]

theorem trace_append {s s' : σ} {as : List α} (h : run step s as = some s') (bs : List α) :
    trace step obs s (as ++ bs) = trace step obs s as ++ trace step obs s' bs := by
  induction as generalizing s with
  | nil =>
    obtain rfl := Option.some.inj h
    rfl
  | cons a as ih =>
    obtain ⟨s₁, hs₁, hrun⟩ := (run_cons_eq_some step).mp h
    rw [List.cons_append, trace_cons hs₁, trace_cons hs₁, ih hrun, List.append_assoc]

/-- **Forward simulation along runs.** When every step that meets `C` is matched, from a related
state, by a list of abstract actions that show the same, a whole run of such steps is matched by an
abstract run with the same trace. -/
theorem exists_run_of_simulates {R : σ → τ → Prop} {C : σ → α → Prop}
    (hstep : ∀ s t a s', R s t → C s a → step s a = some s' →
      ∃ bs t', run absStep t bs = some t' ∧ trace absStep absObs t bs = obs s a ∧ R s' t')
    {s s' : σ} {t : τ} {as : List α} (hR : R s t) (hC : AllSteps step C s as)
    (h : run step s as = some s') :
    ∃ bs t', run absStep t bs = some t' ∧
      trace absStep absObs t bs = trace step obs s as ∧ R s' t' := by
  induction as generalizing s t with
  | nil =>
    obtain rfl := Option.some.inj h
    exact ⟨[], t, rfl, rfl, hR⟩
  | cons a as ih =>
    obtain ⟨s₁, hs₁, hrun⟩ := (run_cons_eq_some step).mp h
    obtain ⟨bs, t₁, ht₁, hobs, hR₁⟩ := hstep s t a s₁ hR hC.1 hs₁
    obtain ⟨cs, t', ht', hobs', hR'⟩ := ih hR₁ (hC.2 s₁ hs₁) hrun
    refine ⟨bs ++ cs, t', (run_append_eq_some absStep).mpr ⟨t₁, ht₁, ht'⟩, ?_, hR'⟩
    rw [trace_append ht₁, hobs, hobs', trace_cons hs₁]

end Simulation

/-! ### Abstraction functions -/

/-- **Runs commute with an abstraction function.** If `abs` takes every step from the invariant `I`
to the abstract step of the translated action, failures included, it takes runs to abstract
runs. -/
theorem map_run_eq_run {absStep : τ → β → Option τ} {abs : σ → τ} {act : β → α} {I : σ → Prop}
    (hI : ∀ s b s', I s → step s (act b) = some s' → I s')
    (habs : ∀ s b, I s → (step s (act b)).map abs = absStep (abs s) b)
    {s : σ} (hs : I s) (bs : List β) :
    (run step s (bs.map act)).map abs = run absStep (abs s) bs := by
  induction bs generalizing s with
  | nil => rfl
  | cons b bs ih =>
    rw [List.map_cons, run_cons, run_cons, ← habs s b hs]
    cases hb : step s (act b) with
    | none => rfl
    | some s₁ => exact ih (hI s b s₁ hs hb)

end GuruPractice.Transition
