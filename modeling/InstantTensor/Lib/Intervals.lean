/-
# `InstantTensor.Lib.Intervals` — intervals that can be put end to end

A list of intervals is chained if each ends where the next one starts.  Sorting by the start
finds a chain whenever there is one, up to intervals with the same ends, as long as no empty
interval shares its start with one that is not empty (`map_sortByStart`).  Where one does,
the sort keeps the order of the two, and with the empty one behind the result is no chain
(`not_chained_sortByStart`).
-/
import Mathlib.Data.List.Chain
import Mathlib.Order.Lattice
import Mathlib.Data.List.Pairwise

namespace InstantTensor

section
variable {α β : Type} {start stop : β → α} {l c : List β}

/-- Each interval ends where the next one starts. -/
def Chained (start stop : β → α) (l : List β) : Prop :=
  l.IsChain fun a b => stop a = start b

/-- The intervals can be arranged in a chain. -/
def Chainable (start stop : β → α) (l : List β) : Prop := ∃ c, c.Perm l ∧ Chained start stop c

/-- No empty interval shares its start with one that is not empty. -/
def Separated (start stop : β → α) (l : List β) : Prop :=
  ∀ a ∈ l, ∀ b ∈ l, start a = stop a → start b = start a → stop b = start b

theorem Separated.perm {l' : List β} (h : Separated start stop l) (hp : l'.Perm l) :
    Separated start stop l' :=
  fun a ha b hb => h a (hp.mem_iff.mp ha) b (hp.mem_iff.mp hb)

theorem chained_iff_map : Chained start stop l ↔
    (l.map fun a => (start a, stop a)).IsChain fun x y => x.2 = y.1 :=
  (List.isChain_map (R := fun x y : α × α => x.2 = y.1) fun a => (start a, stop a)).symm

/-- Two different members can be put in front, in either order. -/
theorem exists_perm_cons_cons {a b : β} (ha : a ∈ l) (hb : b ∈ l) (hab : b ≠ a) :
    ∃ rest, (a :: b :: rest).Perm l := by
  obtain ⟨s, t, rfl⟩ := List.append_of_mem ha
  have hb' : b ∈ s ++ t := by simpa [hab] using hb
  obtain ⟨s', t', hst⟩ := List.append_of_mem hb'
  refine ⟨s' ++ t', List.Perm.trans (List.Perm.cons a ?_) List.perm_middle.symm⟩
  rw [hst]
  exact List.perm_middle.symm

/-! ## Sorting -/

variable [LinearOrder α]

/-- The intervals in a stable order by their start. -/
def sortByStart (start : β → α) (l : List β) : List β :=
  l.mergeSort fun a b => decide (start a ≤ start b)

theorem sortByStart_perm (start : β → α) (l : List β) : (sortByStart start l).Perm l :=
  List.mergeSort_perm l _

theorem sortByStart_pairwise (start : β → α) (l : List β) :
    (sortByStart start l).Pairwise fun a b => start a ≤ start b := by
  have h := @List.pairwise_mergeSort _ (fun a b => decide (start a ≤ start b))
    (fun a b c hab hbc => by simp at *; exact le_trans hab hbc)
    (fun a b => by simpa using le_total (start a) (start b)) l
  exact h.imp fun h => of_decide_eq_true h

theorem sortByStart_of_pairwise (h : l.Pairwise fun a b => start a ≤ start b) :
    sortByStart start l = l :=
  List.mergeSort_of_pairwise (h.imp fun h => decide_eq_true h)

theorem pair_sublist_sortByStart {a b : β} (hab : start a ≤ start b) (h : [a, b].Sublist l) :
    [a, b].Sublist (sortByStart start l) :=
  List.pair_sublist_mergeSort (fun a b c hab hbc => by simp at *; exact le_trans hab hbc)
    (fun a b => by simpa using le_total (start a) (start b)) (decide_eq_true hab) h

/-! ## Chains -/

/-- In a chain whatever is behind an interval starts at or behind its end. -/
theorem Chained.pairwise (hle : ∀ a ∈ l, start a ≤ stop a) (h : Chained start stop l) :
    l.Pairwise fun a b => stop a ≤ start b := by
  induction l with
  | nil => exact List.Pairwise.nil
  | cons a l ih =>
      have hrest : Chained start stop l := List.IsChain.tail h
      have hpair := ih (fun b hb => hle b (List.mem_cons_of_mem a hb)) hrest
      refine List.pairwise_cons.mpr ⟨fun b hb => ?_, hpair⟩
      cases l with
      | nil => simp at hb
      | cons b' l =>
          have hnext : stop a = start b' := (List.isChain_cons_cons.mp h).1
          rcases List.mem_cons.mp hb with rfl | hb
          · exact le_of_eq hnext
          · calc stop a = start b' := hnext
              _ ≤ stop b' := hle b' (by simp)
              _ ≤ start b := (List.pairwise_cons.mp hpair).1 b hb

/-- Intervals of a chain with the same start have the same end. -/
theorem Chained.stop_eq (hle : ∀ a ∈ c, start a ≤ stop a) (hsep : Separated start stop c)
    (h : Chained start stop c) : ∀ a ∈ c, ∀ b ∈ c, start a = start b → stop a = stop b := by
  have hpair : c.Pairwise fun a b => start a = start b → stop a = stop b := by
    refine (h.pairwise hle).imp_of_mem fun {a b} ha hb hab heq => ?_
    -- the first of the two is empty, and so is the second
    have hempty : start a = stop a := le_antisymm (hle a ha) (heq ▸ hab)
    exact hempty ▸ heq ▸ (hsep a ha b hb hempty heq.symm).symm
  intro a ha b hb
  refine List.Pairwise.forall_of_forall_of_flip (R := fun a b => start a = start b → stop a = stop b)
    (fun _ _ _ => rfl) hpair ?_ ha hb
  exact hpair.imp fun h heq => (h heq.symm).symm

/-- Sorting finds the chain. -/
theorem map_sortByStart (hle : ∀ a ∈ l, start a ≤ stop a) (hsep : Separated start stop l)
    (hc : c.Perm l) (h : Chained start stop c) :
    (sortByStart start l).map (fun a => (start a, stop a)) = c.map fun a => (start a, stop a) := by
  have hlec : ∀ a ∈ c, start a ≤ stop a := fun a ha => hle a (hc.mem_iff.mp ha)
  have hsorted : c.Pairwise fun a b => start a ≤ start b :=
    (h.pairwise hlec).imp_of_mem fun ha _ hab => le_trans (hlec _ ha) hab
  have hperm := (sortByStart_perm start l).trans hc.symm
  refine @List.Perm.eq_of_pairwise _ (fun x y => x.1 ≤ y.1) _ _ ?_
    (List.pairwise_map.mpr (sortByStart_pairwise start l)) (List.pairwise_map.mpr hsorted)
    (hperm.map _)
  intro x y hx hy hxy hyx
  obtain ⟨a, ha, rfl⟩ := List.mem_map.mp hx
  obtain ⟨b, hb, rfl⟩ := List.mem_map.mp hy
  have hstart : start a = start b := le_antisymm hxy hyx
  rw [hstart, h.stop_eq hlec (hsep.perm hc) a (hperm.mem_iff.mp ha) b hb hstart]

/-- With an empty interval behind another one of the same start there is no chain. -/
theorem not_chained_of_sublist {a b : β} (hle : ∀ a ∈ l, start a ≤ stop a)
    (hsub : [a, b].Sublist l) (hb : start b = start a) (ha : start a < stop a) :
    ¬ Chained start stop l := by
  intro h
  have hpair := (h.pairwise hle).sublist hsub
  have hab := (List.pairwise_cons.mp hpair).1 b (by simp)
  exact absurd (hb ▸ hab) (not_le.mpr ha)

/-- An arrangement of intervals that are not separated is not sorted to a chain. -/
theorem not_chained_sortByStart (hle : ∀ a ∈ l, start a ≤ stop a)
    (hsep : ¬ Separated start stop l) :
    ∃ l' : List β, l'.Perm l ∧ ¬ Chained start stop (sortByStart start l') := by
  simp only [Separated, not_forall] at hsep
  obtain ⟨b, hb, a, ha, hempty, hstart, hne⟩ := hsep
  have hlt : start a < stop a := lt_of_le_of_ne (hle a ha) (Ne.symm hne)
  have hab : b ≠ a := by
    rintro rfl
    exact hne hempty.symm
  obtain ⟨rest, hrest⟩ := exists_perm_cons_cons ha hb hab
  refine ⟨a :: b :: rest, hrest, ?_⟩
  refine not_chained_of_sublist (fun x hx => hle x ?_) (pair_sublist_sortByStart (le_of_eq hstart)
    (by simp)) hstart.symm hlt
  exact hrest.mem_iff.mp ((sortByStart_perm start _).mem_iff.mp hx)

end

end InstantTensor
