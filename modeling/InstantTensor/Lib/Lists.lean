/-
# `InstantTensor.Lib.Lists` — places in lists

The place behind a list is that of the first member of what is appended to it, a list whose
members pass a test up to some place is cut at that place by the test, filtering by a key that
occurs once leaves one member, and relations that agree on neighbours have the same chains.  The
numbers below a product are listed row by row.
-/
import Mathlib.Algebra.GroupWithZero.Nat
import Mathlib.Data.List.Basic
import Mathlib.Data.List.Chain
import Mathlib.Data.List.Perm.Basic

namespace InstantTensor

section
variable {α : Type}

theorem modify_length_append (f : α → α) (a : α) (l l' : List α) :
    (l' ++ a :: l).modify l'.length f = l' ++ f a :: l := by
  induction l' with
  | nil => rfl
  | cons x l' ih => exact congrArg (x :: ·) ih

theorem getD_length_append (d a : α) (l l' : List α) : (l' ++ a :: l).getD l'.length d = a := by
  induction l' with
  | nil => rfl
  | cons x l' ih => exact ih

/-- Where a test once failed stays failed, filtering is taking a prefix. -/
theorem take_length_filter {test : α → Bool} {xs : List α}
    (h : xs.Pairwise (fun a b => test b = true → test a = true)) :
    xs.take (xs.filter test).length = xs.filter test := by
  induction xs with
  | nil => rfl
  | cons x xs ih =>
      obtain ⟨hx, hxs⟩ := List.pairwise_cons.mp h
      by_cases htest : test x = true
      · rw [List.filter_cons_of_pos htest, List.length_cons, List.take_succ_cons, ih hxs]
      · have hnil : xs.filter test = [] :=
          List.filter_eq_nil_iff.mpr fun y hy hty => htest (hx y hy hty)
        rw [List.filter_cons_of_neg htest, hnil]
        rfl

/-- Where a test fails for good, place `q` passes it if and only if it is in front of that. -/
theorem lt_length_takeWhile_iff {test : α → Bool} {xs : List α} {q : ℕ}
    (h : xs.Pairwise (fun a b => test b = true → test a = true)) :
    q < (xs.takeWhile test).length ↔ ∃ x, xs[q]? = some x ∧ test x = true := by
  induction xs generalizing q with
  | nil => simp
  | cons x xs ih =>
      obtain ⟨hx, hxs⟩ := List.pairwise_cons.mp h
      by_cases htest : test x = true
      · rw [List.takeWhile_cons_of_pos htest]
        cases q with
        | zero => simp [htest]
        | succ q => simpa using ih hxs
      · rw [List.takeWhile_cons_of_neg htest]
        refine iff_of_false (Nat.not_lt_zero q) ?_
        rintro ⟨y, hy, hty⟩
        rcases List.mem_cons.mp (List.mem_of_getElem? hy) with rfl | hy
        · exact htest hty
        · exact htest (hx y hy hty)

/-- Neighbours that stand in one relation have two others in common. -/
theorem isChain_congr {F R S : α → α → Prop} {xs : List α} (hF : xs.IsChain F)
    (h : ∀ a ∈ xs, ∀ b ∈ xs, F a b → (R a b ↔ S a b)) : xs.IsChain R ↔ xs.IsChain S := by
  induction xs with
  | nil => exact iff_of_true .nil .nil
  | cons x xs ih =>
      obtain ⟨hx, hxs⟩ := List.isChain_cons.mp hF
      have hrest := ih hxs fun a ha b hb =>
        h a (List.mem_cons_of_mem x ha) b (List.mem_cons_of_mem x hb)
      rw [List.isChain_cons, List.isChain_cons, hrest]
      refine and_congr_left fun _ => forall_congr' fun y => forall_congr' fun hy => ?_
      exact h x List.mem_cons_self y (List.mem_cons_of_mem x (List.mem_of_head? hy)) (hx y hy)

/-- Where a key occurs once, filtering by it leaves that member. -/
theorem filter_key_eq {κ : Type} [DecidableEq κ] {key : α → κ} {xs : List α} {x : α}
    (h : (xs.map key).Nodup) (hx : x ∈ xs) : xs.filter (fun y => key y = key x) = [x] := by
  induction xs with
  | nil => cases hx
  | cons y xs ih =>
      rw [List.map_cons, List.nodup_cons] at h
      obtain ⟨hy, hxs⟩ := h
      rcases List.mem_cons.mp hx with rfl | hx
      · have hnil : xs.filter (fun y => key y = key x) = [] := by
          refine List.filter_eq_nil_iff.mpr ?_
          intro y hmem heq
          exact hy (List.mem_map.mpr ⟨y, hmem, of_decide_eq_true heq⟩)
        rw [List.filter_cons_of_pos (by simp), hnil]
      · have hne : key y ≠ key x := fun heq => hy (heq ▸ List.mem_map_of_mem hx)
        rw [List.filter_cons_of_neg (by simpa using hne), ih hxs hx]

/-- What is before a member is found by its place. -/
theorem take_of_concat_prefix {xs ys : List α} {a : α} (h : xs ++ [a] <+: ys) :
    xs = ys.take xs.length ∧ ys[xs.length]? = some a := by
  obtain ⟨rest, rfl⟩ := h
  simp

/-! ## One member replaced -/

theorem set_split {xs : List α} {k : ℕ} {a : α} (h : xs[k]? = some a) :
    ∃ xs₁ xs₂, xs = xs₁ ++ a :: xs₂ ∧ ∀ b, xs.set k b = xs₁ ++ b :: xs₂ := by
  induction xs generalizing k with
  | nil => cases h
  | cons x xs ih =>
      cases k with
      | zero =>
          obtain rfl := Option.some.inj h
          exact ⟨[], xs, rfl, fun _ => rfl⟩
      | succ k =>
          obtain ⟨xs₁, xs₂, hsplit, hset⟩ := ih h
          refine ⟨x :: xs₁, xs₂, congrArg (x :: ·) hsplit, ?_⟩
          intro b
          exact congrArg (x :: ·) (hset b)

theorem flatMap_set_perm {β : Type} {xs : List α} {k : ℕ} {a : α} (h : xs[k]? = some a) (b : α)
    (f : α → List β) : (f a ++ (xs.set k b).flatMap f).Perm (f b ++ xs.flatMap f) := by
  obtain ⟨xs₁, xs₂, hsplit, hset⟩ := set_split h
  rw [hset b, hsplit, List.flatMap_append, List.flatMap_append, List.flatMap_cons,
    List.flatMap_cons]
  refine List.perm_append_comm_assoc .. |>.trans ?_
  refine .trans ?_ (List.perm_append_comm_assoc ..)
  exact (List.perm_append_comm_assoc ..).append_left _

theorem flatMap_set_eq {β : Type} {xs : List α} {k : ℕ} {a b : α} {f : α → List β}
    (h : xs[k]? = some a) (hf : f b = f a) : (xs.set k b).flatMap f = xs.flatMap f := by
  obtain ⟨xs₁, xs₂, hsplit, hset⟩ := set_split h
  rw [hset b, hsplit, List.flatMap_append, List.flatMap_append, List.flatMap_cons,
    List.flatMap_cons, hf]

theorem sum_map_set {xs : List α} {k : ℕ} {a : α} (h : xs[k]? = some a) (b : α) (f : α → ℕ) :
    ((xs.set k b).map f).sum + f a = (xs.map f).sum + f b := by
  obtain ⟨xs₁, xs₂, hsplit, hset⟩ := set_split h
  rw [hset b, hsplit]
  simp only [List.map_append, List.map_cons, List.sum_append, List.sum_cons]
  omega

/-- The first member that passes a test is taken out. -/
theorem perm_eraseP {test : α → Bool} {xs : List α} {a : α} (h : xs.find? test = some a) :
    xs.Perm (a :: xs.eraseP test) := by
  induction xs with
  | nil => cases h
  | cons x xs ih =>
      by_cases hx : test x = true
      · rw [List.find?_cons_of_pos hx] at h
        obtain rfl := Option.some.inj h
        rw [List.eraseP_cons_of_pos hx]
      · rw [List.find?_cons_of_neg hx] at h
        rw [List.eraseP_cons_of_neg hx]
        exact ((ih h).cons x).trans (List.Perm.swap ..)

/-- A list of lists is a chain if each of them is, and the last of one goes with the first of any list
behind it. -/
theorem isChain_flatMap {β : Type} {R : β → β → Prop} {f : α → List β} {l : List α}
    (hself : ∀ a ∈ l, (f a).IsChain R)
    (hnext : l.Pairwise fun a b => ∀ x ∈ (f a).getLast?, ∀ y ∈ (f b).head?, R x y) :
    (l.flatMap f).IsChain R := by
  induction l with
  | nil => exact List.isChain_nil
  | cons a l ih =>
      obtain ⟨hfirst, hrest⟩ := List.pairwise_cons.mp hnext
      rw [List.flatMap_cons]
      refine List.isChain_append.mpr ⟨hself a List.mem_cons_self,
        ih (fun b hb => hself b (List.mem_cons_of_mem a hb)) hrest, ?_⟩
      intro x hx y hy
      obtain ⟨b, hb, hy⟩ : ∃ b ∈ l, y ∈ (f b).head? := by
        clear ih hself hnext hfirst hrest
        induction l with
        | nil => cases hy
        | cons b l ih =>
            rw [List.flatMap_cons, List.head?_append] at hy
            cases hb : (f b).head? with
            | none =>
                rw [hb, Option.none_or] at hy
                obtain ⟨b', hb', hy⟩ := ih hy
                exact ⟨b', List.mem_cons_of_mem b hb', hy⟩
            | some z =>
                rw [hb, Option.some_or] at hy
                exact ⟨b, List.mem_cons_self, hb ▸ hy⟩
      exact hfirst b hb x hx y hy

end

/-- The parts of a list between places that go up are the list, one after the other. -/
theorem flatMap_parts (xs : List α) {start : ℕ → ℕ} (hzero : start 0 = 0) {n : ℕ}
    (hle : ∀ i < n, start i ≤ start (i + 1)) :
    (List.range n).flatMap (fun i => (xs.take (start (i + 1))).drop (start i))
      = xs.take (start n) := by
  induction n with
  | zero => rw [hzero]; rfl
  | succ n ih =>
      have hlast := hle n (Nat.lt_succ_self n)
      have hbefore : xs.take (start n) = (xs.take (start (n + 1))).take (start n) := by
        rw [List.take_take, Nat.min_eq_left hlast]
      rw [List.range_succ, List.flatMap_append, ih fun i hi => hle i (Nat.lt_succ_of_lt hi),
        List.flatMap_singleton, hbefore, List.take_append_drop]

/-- The numbers below `n * m`, in `n` rows of `m`. -/
theorem range_mul_eq_flatMap (n m : ℕ) :
    List.range (n * m) = (List.range n).flatMap fun i => (List.range m).map fun j => i * m + j := by
  induction n with
  | zero => rw [Nat.zero_mul]; rfl
  | succ n ih =>
      rw [Nat.succ_mul, List.range_add, ih, List.range_succ, List.flatMap_append]
      simp

end InstantTensor
