/-!
# Steps and runs

A step comes to something or fails. A *run* goes through a list, with a step for each element, and
ends with the first step that fails.

The steps of a run hand on a state. Still, how a run ends can be told from its list alone if each
element's failure can be told from the elements before it, and so can as much of the state as this
takes (`Traced`). Then a run fails as the first element does that fails behind those before it
(`Traced.foldlM_eq_error_iff`), and gets to its end if no element does
(`Traced.exists_foldlM_eq_ok_iff`).
-/

namespace SqlTemplate

/-! ## Steps that come to something -/

section Outcomes

variable {ε α β : Type}

/-- A step behind another comes to something only if both do. -/
theorem bind_eq_ok {step : Except ε α} {next : α → Except ε β} {b : β}
    (h : step.bind next = .ok b) : ∃ a, step = .ok a ∧ next a = .ok b := by
  cases step with
  | error e => cases h
  | ok a => exact ⟨a, rfl, h⟩

theorem map_eq_ok {step : Except ε α} {f : α → β} {b : β} (h : step.map f = .ok b) :
    ∃ a, step = .ok a ∧ f a = b := by
  cases step with
  | error e => cases h
  | ok a => exact ⟨a, rfl, Except.ok.inj h⟩

theorem map_eq_error_iff {step : Except ε α} {f : α → β} {e : ε} :
    step.map f = .error e ↔ step = .error e := by
  cases step <;> simp [Except.map]

end Outcomes

/-! ## Runs -/

section Runs

variable {ε α σ : Type} {step : σ → α → Except ε σ} {Holds : List α → σ → Prop}
  {Fails : List α → α → ε → Prop} {earlier elements : List α} {s last : σ} {a : α} {e : ε}

/-- The first of some elements that fails behind those before it, where all of them stand behind
earlier ones. -/
def FirstFailure (Fails : List α → α → ε → Prop) (earlier elements : List α) (e : ε) : Prop :=
  ∃ front a later, elements = front ++ a :: later ∧ Fails (earlier ++ front) a e ∧
    ∀ before other after, front = before ++ other :: after →
      ∀ e', ¬Fails (earlier ++ before) other e'

/-- The state of a run, and which of its steps fail, told from the elements that came before. -/
structure Traced (step : σ → α → Except ε σ) (Holds : List α → σ → Prop)
    (Fails : List α → α → ε → Prop) : Prop where
  /-- a step that comes to something leads to a state that goes with one more element -/
  holds : ∀ {before : List α} {s next : σ} {a : α},
    Holds before s → step s a = .ok next → Holds (before ++ [a]) next
  /-- a step fails as its element does behind the elements before it -/
  fails_iff : ∀ {before : List α} {s : σ} {a : α} {e : ε},
    Holds before s → (step s a = .error e ↔ Fails before a e)

theorem not_firstFailure_nil : ¬FirstFailure Fails earlier [] e := by
  rintro ⟨front, a, later, none, -⟩
  cases front <;> cases none

/-- The first failure is that of the first element, or that of the others if it does not fail. -/
theorem firstFailure_cons_iff :
    FirstFailure Fails earlier (a :: elements) e ↔
      Fails earlier a e ∨
        (∀ e', ¬Fails earlier a e') ∧ FirstFailure Fails (earlier ++ [a]) elements e := by
  constructor
  · rintro ⟨_ | ⟨head, front⟩, other, later, whole, fails, first⟩
    · obtain ⟨rfl, -⟩ := List.cons.inj whole
      rw [List.append_nil] at fails
      exact .inl fails
    · obtain ⟨rfl, rfl⟩ := List.cons.inj whole
      have sound := first [] a front rfl
      rw [List.append_nil] at sound
      rw [List.append_cons] at fails
      refine .inr ⟨sound, front, other, later, rfl, fails, ?_⟩
      intro before next after same
      rw [← List.append_cons]
      exact first (a :: before) next after (congrArg (List.cons a) same)
  · rintro (fails | ⟨sound, front, other, later, rfl, fails, first⟩)
    · refine ⟨[], a, elements, rfl, ?_, ?_⟩
      · rwa [List.append_nil]
      · intro before other after none
        cases before <;> cases none
    · rw [← List.append_cons] at fails
      refine ⟨a :: front, other, later, rfl, fails, ?_⟩
      intro before next after same
      cases before with
      | nil =>
        obtain ⟨rfl, -⟩ := List.cons.inj same
        rwa [List.append_nil]
      | cons head before =>
        obtain ⟨rfl, behind⟩ := List.cons.inj same
        rw [List.append_cons]
        exact first before next after behind

namespace Traced

/-- The state that a run ends with goes with all elements. -/
theorem holds_foldlM (h : Traced step Holds Fails) (start : Holds earlier s)
    (run : elements.foldlM step s = .ok last) : Holds (earlier ++ elements) last := by
  induction elements generalizing earlier s with
  | nil =>
    rw [List.append_nil, ← Except.ok.inj run]
    exact start
  | cons a rest ih =>
    rw [List.foldlM_cons] at run
    obtain ⟨next, ok, run⟩ := bind_eq_ok run
    rw [List.append_cons]
    exact ih (h.holds start ok) run

/-- A run fails as the first element does that fails behind those before it. -/
theorem foldlM_eq_error_iff (h : Traced step Holds Fails) (start : Holds earlier s) :
    elements.foldlM step s = .error e ↔ FirstFailure Fails earlier elements e := by
  induction elements generalizing earlier s with
  | nil =>
    refine iff_of_false ?_ not_firstFailure_nil
    rintro ⟨⟩
  | cons a rest ih =>
    rw [List.foldlM_cons, firstFailure_cons_iff]
    cases here : step s a with
    | error other =>
      have fails := (h.fails_iff start).mp here
      constructor
      · rintro ⟨⟩
        exact .inl fails
      · rintro (same | ⟨sound, -⟩)
        · exact here.symm.trans ((h.fails_iff start).mpr same)
        · exact absurd fails (sound other)
    | ok next =>
      have sound (e' : ε) : ¬Fails earlier a e' := by
        intro fails
        cases here.symm.trans ((h.fails_iff start).mpr fails)
      constructor
      · intro run
        exact .inr ⟨sound, (ih (h.holds start here)).mp run⟩
      · rintro (fails | ⟨-, first⟩)
        · exact absurd fails (sound e)
        · exact (ih (h.holds start here)).mpr first

/-- A run gets to its end exactly if no element fails behind those before it. -/
theorem exists_foldlM_eq_ok_iff (h : Traced step Holds Fails) (start : Holds earlier s) :
    (∃ last, elements.foldlM step s = .ok last) ↔
      ∀ front a later, elements = front ++ a :: later → ∀ e, ¬Fails (earlier ++ front) a e := by
  constructor
  · rintro ⟨last, run⟩ front a later rfl e fails
    rw [List.foldlM_append] at run
    obtain ⟨middle, begun, run⟩ := bind_eq_ok run
    rw [List.foldlM_cons] at run
    obtain ⟨next, ok, -⟩ := bind_eq_ok run
    -- the state before the element goes with the elements before it, and its step came to something
    cases ok.symm.trans ((h.fails_iff (h.holds_foldlM start begun)).mpr fails)
  · intro sound
    cases run : elements.foldlM step s with
    | ok last => exact ⟨last, rfl⟩
    | error e =>
      obtain ⟨front, a, later, whole, fails, -⟩ := (h.foldlM_eq_error_iff start).mp run
      exact absurd fails (sound front a later whole e)

end Traced

end Runs

end SqlTemplate
