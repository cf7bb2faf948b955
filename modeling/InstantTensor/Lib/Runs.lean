/-
# `InstantTensor.Lib.Runs` — systems that move by choices

A system is a function `next : χ → σ → Option σ`: given what the environment decides,
the next state, or `none` when the system cannot move on that decision.  `Run` is
reachability under some choices, `exec` plays a given list of them.

Two rules are what the rest uses.  `Run.invariant`: what holds at first and is kept by
every step holds in every state reached.  `Inevitable.of_measure`: if outside the goal a
step is always possible and every step lowers a measure, then every way to go on ends up
in the goal, whatever the environment decides among the choices it is allowed.
-/
import Mathlib.Data.Nat.Basic
import Mathlib.Logic.Relation

namespace InstantTensor

section
variable {σ χ : Type} (next : χ → σ → Option σ)

/-- Some choice leads from `s` to `s'`. -/
def Step (s s' : σ) : Prop := ∃ c, next c s = some s'

/-- Some choices lead from `s` to `s'`. -/
def Run : σ → σ → Prop := Relation.ReflTransGen (Step next)

/-- The state after the given choices. -/
def exec : List χ → σ → Option σ
  | [], s => some s
  | c :: cs, s => (next c s).bind (exec cs)

/-- Whatever the environment decides among the choices in `ok`, the system gets to `P`;
until it is there, some choice in `ok` lets it move. -/
inductive Inevitable (ok : χ → Prop) (P : σ → Prop) : σ → Prop
  | now {s : σ} : P s → Inevitable ok P s
  | later {s : σ} : (∃ c s', ok c ∧ next c s = some s') →
      (∀ c s', ok c → next c s = some s' → Inevitable ok P s') → Inevitable ok P s

end

section
variable {σ χ : Type} {next : χ → σ → Option σ} {s s' s'' : σ}

/-! ## Runs -/

theorem Run.refl (s : σ) : Run next s s := Relation.ReflTransGen.refl

theorem Run.trans (h : Run next s s') (h' : Run next s' s'') : Run next s s'' :=
  Relation.ReflTransGen.trans h h'

theorem Run.head (h : Step next s s') (h' : Run next s' s'') : Run next s s'' :=
  Relation.ReflTransGen.head h h'

theorem Run.of_next {c : χ} (h : next c s = some s') : Run next s s' :=
  Relation.ReflTransGen.single ⟨c, h⟩

theorem Run.of_exec {cs : List χ} {s : σ} (h : exec next cs s = some s') : Run next s s' := by
  induction cs generalizing s with
  | nil => exact Option.some.inj h ▸ Run.refl _
  | cons c cs ih =>
      obtain ⟨t, hnext, hrest⟩ := Option.bind_eq_some_iff.mp h
      exact Run.head ⟨c, hnext⟩ (ih hrest)

theorem exec_append {cs cs' : List χ} :
    exec next (cs ++ cs') s = (exec next cs s).bind (exec next cs') := by
  induction cs generalizing s with
  | nil => rfl
  | cons c cs ih =>
      rw [List.cons_append, exec, exec]
      cases next c s with
      | none => rfl
      | some t => exact ih

theorem exec_concat {cs : List χ} {c : χ} :
    exec next (cs ++ [c]) s = some s'' ↔ ∃ s', exec next cs s = some s' ∧ next c s' = some s'' := by
  rw [exec_append, Option.bind_eq_some_iff]
  simp [exec]

/-- A run that plays on has played so far. -/
theorem exec_of_append {cs cs' : List χ} (h : exec next (cs ++ cs') s = some s'') :
    ∃ s', exec next cs s = some s' ∧ exec next cs' s' = some s'' := by
  rw [exec_append] at h
  exact Option.bind_eq_some_iff.mp h

/-- A run found by playing choices. -/
theorem Run.exists_of_exec {cs : List χ} {p : σ → Bool} (h : (exec next cs s).any p = true) :
    ∃ s', Run next s s' ∧ p s' = true := by
  cases hexec : exec next cs s with
  | none => simp [hexec] at h
  | some s' => exact ⟨s', Run.of_exec hexec, by simpa [hexec] using h⟩

/-- What every step keeps, every run keeps. -/
theorem Run.invariant {P : σ → Prop} (hstep : ∀ s s', P s → Step next s s' → P s')
    (h : Run next s s') (hs : P s) : P s' := by
  induction h with
  | refl => exact hs
  | tail _ hlast ih => exact hstep _ _ ih hlast

/-- A run into `P`, found by moving on while a measure falls. -/
theorem Run.exists_of_measure {P I : σ → Prop} (μ : σ → ℕ)
    (hmove : ∀ s, I s → (∃ s', Run next s s' ∧ P s') ∨
      ∃ s', Run next s s' ∧ I s' ∧ μ s' < μ s) (hs : I s) :
    ∃ s', Run next s s' ∧ P s' := by
  induction hμ : μ s using Nat.strong_induction_on generalizing s with
  | _ n ih =>
    rcases hmove s hs with hP | ⟨t, hrun, ht, hlt⟩
    · exact hP
    · obtain ⟨s', hrest, hP⟩ := ih (μ t) (hμ ▸ hlt) ht rfl
      exact ⟨s', hrun.trans hrest, hP⟩

/-! ## Inevitability -/

theorem Inevitable.of_measure {ok : χ → Prop} {P I : σ → Prop} (μ : σ → ℕ)
    (hmove : ∀ s, I s → ¬ P s → ∃ c s', ok c ∧ next c s = some s')
    (hstep : ∀ s, I s → ¬ P s → ∀ c s', ok c → next c s = some s' →
      P s' ∨ I s' ∧ μ s' < μ s) (hs : I s) : Inevitable next ok P s := by
  induction hμ : μ s using Nat.strong_induction_on generalizing s with
  | _ n ih =>
    by_cases hP : P s
    · exact .now hP
    · refine .later (hmove s hs hP) fun c s' hc hnext => ?_
      rcases hstep s hs hP c s' hc hnext with hP' | ⟨hs', hlt⟩
      · exact .now hP'
      · exact ih (μ s') (hμ ▸ hlt) hs' rfl

/-- What is inevitable can be reached. -/
theorem Inevitable.exists_run {ok : χ → Prop} {P : σ → Prop} (h : Inevitable next ok P s) :
    ∃ s', Run next s s' ∧ P s' := by
  induction h with
  | now hP => exact ⟨_, Run.refl _, hP⟩
  | later hmove _ ih =>
      obtain ⟨c, s', hc, hnext⟩ := hmove
      obtain ⟨s'', hrun, hP⟩ := ih c s' hc hnext
      exact ⟨s'', Run.head ⟨c, hnext⟩ hrun, hP⟩

/-- What is inevitable may be put in other words for the states that can be reached. -/
theorem Inevitable.imp_run {ok : χ → Prop} {P Q : σ → Prop} (h : Inevitable next ok P s)
    (hQ : ∀ s', Run next s s' → P s' → Q s') : Inevitable next ok Q s := by
  induction h with
  | now hP => exact .now (hQ _ (Run.refl _) hP)
  | later hmove _ ih =>
      exact .later hmove fun c s' hc hnext =>
        ih c s' hc hnext fun s'' hrun hP => hQ s'' (Run.head ⟨c, hnext⟩ hrun) hP

end

end InstantTensor
