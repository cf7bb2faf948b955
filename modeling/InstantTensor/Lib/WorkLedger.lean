/-
# `InstantTensor.Lib.WorkLedger` — the books of a work queue

Tasks are submitted, run at some later time, and leave a result that is held until it is taken, if
they need one; the order of what waits and of what is held means nothing.  A `WorkLedger` records
this for any queue, cache or pool of workers in between.

`Balanced` says that nothing is lost or doubled: every task waits or was run, and every result
needed is held or was taken.  Each step keeps it.  While a task is only submitted under a key
that no outstanding task has, the keys of the outstanding tasks are distinct.
-/
import Mathlib.Data.List.Perm.Lattice
import Mathlib.Data.List.Count

namespace InstantTensor

structure WorkLedger (τ ρ : Type) where
  submitted : List τ
  waiting : List τ
  ran : List (τ × ρ)
  held : List (τ × ρ)
  taken : List (τ × ρ)

namespace WorkLedger

section
variable {τ ρ κ : Type} (needs : τ → Bool) (key : τ → κ)

/-- What can happen to a task, up to the order of what waits and of what is held. -/
inductive Step (l l' : WorkLedger τ ρ) : Prop
  /-- Things are moved around. -/
  | move : l'.submitted = l.submitted → l'.waiting.Perm l.waiting → l'.ran = l.ran →
      l'.held.Perm l.held → l'.taken = l.taken → Step l l'
  | submit {t : τ} : l'.submitted = t :: l.submitted → l'.waiting.Perm (t :: l.waiting) →
      l'.ran = l.ran → l'.held.Perm l.held → l'.taken = l.taken → Step l l'
  | run {t : τ} {v : ρ} : l'.submitted = l.submitted → l.waiting.Perm (t :: l'.waiting) →
      l'.ran = (t, v) :: l.ran → l'.held.Perm ([(t, v)].filter (needs ·.1) ++ l.held) →
      l'.taken = l.taken → Step l l'
  | take {x : τ × ρ} : l'.submitted = l.submitted → l'.waiting.Perm l.waiting → l'.ran = l.ran →
      l.held.Perm (x :: l'.held) → l'.taken = x :: l.taken → Step l l'

/-- Every task waits or was run once, every result needed is held or was taken once. -/
structure Balanced (l : WorkLedger τ ρ) : Prop where
  tasks : (l.waiting ++ l.ran.map Prod.fst).Perm l.submitted
  results : (l.held ++ l.taken).Perm (l.ran.filter (needs ·.1))

/-- The tasks whose result has yet to be taken. -/
def outstanding (l : WorkLedger τ ρ) : List τ := l.waiting.filter needs ++ l.held.map Prod.fst

/-- The tasks submitted for a result, less those taken. -/
def owing [DecidableEq κ] (l : WorkLedger τ ρ) : List κ :=
  ((l.submitted.filter needs).map key).diff (l.taken.map fun x => key x.1)

end

section
variable {τ ρ κ : Type} {needs : τ → Bool} {key : τ → κ} {l l' : WorkLedger τ ρ}

theorem append_diff_left [DecidableEq κ] (xs ys : List κ) : (xs ++ ys).diff xs = ys := by
  induction xs with
  | nil => exact List.diff_nil ys
  | cons x xs ih => rw [List.cons_append, List.diff_cons, List.erase_cons_head, ih]

theorem Step.balanced (hstep : Step needs l l') (h : Balanced needs l) : Balanced needs l' := by
  obtain ⟨htasks, hresults⟩ := h
  cases hstep with
  | move hsubmitted hwaiting hran hheld htaken =>
      refine ⟨?_, ?_⟩
      · rw [hsubmitted, hran]
        exact (hwaiting.append_right _).trans htasks
      · rw [hran, htaken]
        exact (hheld.append_right _).trans hresults
  | submit hsubmitted hwaiting hran hheld htaken =>
      refine ⟨?_, ?_⟩
      · rw [hsubmitted, hran]
        exact (hwaiting.append_right _).trans (htasks.cons _)
      · rw [hran, htaken]
        exact (hheld.append_right _).trans hresults
  | @run t v hsubmitted hwaiting hran hheld htaken =>
      refine ⟨?_, ?_⟩
      · rw [hsubmitted, hran, List.map_cons]
        exact List.perm_middle.trans ((hwaiting.symm.append_right _).trans htasks)
      · rw [hran, htaken, ← List.singleton_append, List.filter_append]
        refine (hheld.append_right _).trans ?_
        rw [List.append_assoc]
        exact hresults.append_left _
  | @take x hsubmitted hwaiting hran hheld htaken =>
      refine ⟨?_, ?_⟩
      · rw [hsubmitted, hran]
        exact (hwaiting.append_right _).trans htasks
      · rw [hran, htaken]
        exact List.perm_middle.trans ((hheld.symm.append_right _).trans hresults)

/-- Every task submitted for a result is in one place. -/
theorem Balanced.outstanding (h : Balanced needs l) :
    (l.outstanding needs ++ l.taken.map Prod.fst).Perm (l.submitted.filter needs) := by
  have hresults : ((l.held ++ l.taken).map Prod.fst).Perm ((l.ran.map Prod.fst).filter needs) := by
    rw [List.filter_map]
    exact h.results.map Prod.fst
  rw [List.map_append] at hresults
  have htasks := h.tasks.filter needs
  rw [List.filter_append] at htasks
  rw [WorkLedger.outstanding, List.append_assoc]
  exact (hresults.append_left _).trans htasks

/-- What is owed, from the books alone. -/
theorem Balanced.owing [DecidableEq κ] (h : Balanced needs l) :
    (l.owing needs key).Perm ((l.outstanding needs).map key) := by
  have hkeys := h.outstanding.map key
  rw [List.map_append, List.map_map] at hkeys
  refine (hkeys.symm.diff_right _).trans ?_
  refine (List.perm_append_comm.diff_right _).trans ?_
  exact .of_eq (append_diff_left ..)

/-- Which tasks are outstanding after a step. -/
theorem Step.outstanding (hstep : Step needs l l') (h : Balanced needs l) :
    (l'.outstanding needs).Perm (l.outstanding needs) ∨
      (∃ t, l'.submitted = t :: l.submitted ∧
        (l'.outstanding needs).Perm ([t].filter needs ++ l.outstanding needs)) ∨
      ∃ x, l'.taken = x :: l.taken ∧ (l.outstanding needs).Perm (x.1 :: l'.outstanding needs) := by
  have hbooks := h.outstanding
  have hbooks' := (hstep.balanced h).outstanding
  have hsame : l'.submitted = l.submitted → l'.taken = l.taken →
      (l'.outstanding needs).Perm (l.outstanding needs) := by
    intro hsubmitted htaken
    rw [hsubmitted, htaken] at hbooks'
    exact (List.perm_append_right_iff _).mp (hbooks'.trans hbooks.symm)
  cases hstep with
  | move hsubmitted _ _ _ htaken => exact .inl (hsame hsubmitted htaken)
  | run hsubmitted _ _ _ htaken => exact .inl (hsame hsubmitted htaken)
  | @submit t hsubmitted _ _ _ htaken =>
      refine .inr (.inl ⟨t, hsubmitted, ?_⟩)
      rw [hsubmitted, htaken, ← List.singleton_append, List.filter_append] at hbooks'
      have hnew := hbooks.symm.append_left ([t].filter needs)
      rw [← List.append_assoc] at hnew
      exact (List.perm_append_right_iff _).mp (hbooks'.trans hnew)
  | @take x hsubmitted _ _ _ htaken =>
      refine .inr (.inr ⟨x, htaken, ?_⟩)
      rw [hsubmitted, htaken, List.map_cons] at hbooks'
      have hmoved := List.perm_middle.symm.trans hbooks'
      exact (List.perm_append_right_iff _).mp (hbooks.trans hmoved.symm)

/-- The keys of the outstanding tasks stay distinct. -/
theorem Step.distinct (hstep : Step needs l l') (h : Balanced needs l)
    (hdistinct : ((l.outstanding needs).map key).Nodup)
    (hfresh : ∀ t, l'.submitted = t :: l.submitted → needs t = true →
      key t ∉ (l.outstanding needs).map key) : ((l'.outstanding needs).map key).Nodup := by
  rcases hstep.outstanding h with hsame | ⟨t, hsubmitted, hnew⟩ | ⟨x, -, hless⟩
  · exact ((hsame.map key).nodup_iff).mpr hdistinct
  · refine ((hnew.map key).nodup_iff).mpr ?_
    by_cases hneeds : needs t = true
    · rw [List.filter_cons_of_pos hneeds, List.filter_nil, List.singleton_append, List.map_cons,
        List.nodup_cons]
      exact ⟨hfresh t hsubmitted hneeds, hdistinct⟩
    · rw [List.filter_cons_of_neg hneeds, List.filter_nil, List.nil_append]
      exact hdistinct
  · have hall := ((hless.map key).nodup_iff).mp hdistinct
    rw [List.map_cons, List.nodup_cons] at hall
    exact hall.2

end

end WorkLedger

end InstantTensor
