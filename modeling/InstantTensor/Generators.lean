/-
# `InstantTensor.Generators` — the generators of `tensors` and the end of the context

`tensors` is a generator, so its guards run at the first `next` and not when it is called.  They
turn away a generator that is first advanced after `__exit__`, and every generator but the first
one.  A generator that has passed them is suspended in the loop and goes on from there, and
nothing in the loop looks at `_invalidated`: advanced after `__exit__` it asks the closed handle
for the next tensor (`exit_in_loop`).  `no_access_after_exit_iff` says that this is the only way.

A session is what the object and its generators are between two calls.  A lookup of a handle
that has been closed makes an entry without queues, and its use ends the process; here the session
is `crashed` and takes no further step.
-/
import InstantTensor.Extents
import InstantTensor.Lib.Runs

namespace InstantTensor

/-! ## Sessions -/

/-- What an open `safe_open` yields: its tensors in order, and which of them the loader has put
at an aligned address. -/
structure Opened where
  torch : Torch
  orderedTensorMetadatas : List TensorInfo
  aligned : ℕ → Bool

/-- Where a generator of `tensors` is. -/
inductive Gen where
  | created
  /-- In the loop, behind the `yield` of the tensor before `tensorIndex`. -/
  | suspended (tensorIndex : ℕ)
  | finished
deriving DecidableEq, Repr

inductive PyError where
  /-- `RuntimeError`: "tensors() called after safe_open context exited" -/
  | contextExited
  /-- `RuntimeError`: "tensors() can only be called once" -/
  | calledTwice
  /-- `ValueError`: "Unsupported safetensors dtype: …" -/
  | unsupportedDtype (dtype : String)
  /-- `ValueError`: "Tensor … address … is not aligned to dtype …" -/
  | notAligned (name : String)
  /-- `TypeError`: a negative size is no `size_t`. -/
  | negativeSize
deriving DecidableEq, Repr

def PyError.isRuntimeError : PyError → Bool
  | .contextExited | .calledTwice => true
  | .unsupportedDtype _ | .notAligned _ | .negativeSize => false

inductive Result where
  | yielded (name : String)
  | raised (e : PyError)
  | stopIteration
  /-- The process ends in `LoaderManager::call`. -/
  | crashed
deriving DecidableEq, Repr

/-- What comes of a `next`: the result, the call of `get_dl_tensor` on the way to it, and where the
generator is then. -/
structure Outcome where
  result : Result
  getDLTensor : Option (ℕ × ℤ) := none
  gen : Gen := .finished
deriving DecidableEq, Repr

structure Session where
  invalidated : Bool := false
  iterated : Bool := false
  handleClosed : Bool := false
  crashed : Bool := false
  generators : List Gen := []
deriving DecidableEq, Repr

inductive Action where
  | tensors
  | next (g : ℕ)
  | exit
deriving DecidableEq, Repr

section
variable (c : Opened)

/-- The body of the loop of `tensors`, at `tensorIndex`. -/
def loopBody (handleClosed : Bool) (tensorIndex : ℕ) : Outcome :=
  match c.orderedTensorMetadatas[tensorIndex]? with
  | none => { result := .stopIteration }
  | some t =>
      match c.torch.viewSize t with
      | none => { result := .raised (.unsupportedDtype t.dtype) }
      | some tensorSize =>
          if tensorSize < 0 then { result := .raised .negativeSize }
          else if handleClosed then
            { result := .crashed, getDLTensor := some (tensorIndex, tensorSize) }
          else if c.aligned tensorIndex then
            { result := .yielded t.name, getDLTensor := some (tensorIndex, tensorSize)
              gen := .suspended (tensorIndex + 1) }
          else
            { result := .raised (.notAligned t.name), getDLTensor := some (tensorIndex, tensorSize) }

/-- `next` of a generator. -/
def Session.next (s : Session) : Gen → Outcome
  | .created =>
      if s.invalidated then { result := .raised .contextExited }
      else if s.iterated then { result := .raised .calledTwice }
      else loopBody c s.handleClosed 0
  | .suspended tensorIndex => loopBody c s.handleClosed tensorIndex
  | .finished => { result := .stopIteration }

/-- A generator passes the guards. -/
def Session.starts (s : Session) (gen : Gen) : Bool :=
  gen == .created && !s.invalidated && !s.iterated

/-- One call on the object or on one of its generators. -/
def Session.step (a : Action) (s : Session) : Option Session :=
  if s.crashed then none
  else
    match a with
    | .tensors => some { s with generators := s.generators ++ [.created] }
    | .next g =>
        match s.generators[g]? with
        | none => none
        | some gen => some { s with
            iterated := s.iterated || s.starts gen
            crashed := (s.next c gen).result == .crashed
            generators := s.generators.set g (s.next c gen).gen }
    | .exit => some { s with
        invalidated := true
        handleClosed := true
        -- a second `close` looks up a handle that is no longer there
        crashed := s.handleClosed }

/-- In the run of `acts`, generator `g` is advanced where the session is `s` and the generator
`gen`. -/
def NextAt (acts : List Action) (s : Session) (g : ℕ) (gen : Gen) : Prop :=
  ∃ acts₁ acts₂, acts = acts₁ ++ Action.next g :: acts₂ ∧
    exec (Session.step c) acts₁ {} = some s ∧ s.crashed = false ∧ s.generators[g]? = some gen

/-- **No access after exit.** -/
structure NoAccessAfterExit (acts : List Action) : Prop where
  /-- At most one generator ever yields. -/
  one : ∀ s g gen s' g' gen' name name', NextAt c acts s g gen → NextAt c acts s' g' gen' →
    (s.next c gen).result = .yielded name → (s'.next c gen').result = .yielded name' → g = g'
  raises : ∀ s g gen, NextAt c acts s g gen → s.invalidated = true → gen ≠ .finished →
    (∃ e, (s.next c gen).result = .raised e ∧ e.isRuntimeError = true) ∧
      (s.next c gen).getDLTensor = none

end

section
variable {c : Opened} {s s' : Session} {acts : List Action} {owner g : ℕ} {gen : Gen} {a : Action}

/-! ## Steps -/

/-- What a call leaves behind. -/
theorem Session.step_cases (h : s.step c a = some s') :
    s.crashed = false ∧
      (a = .tensors ∧ s' = { s with generators := s.generators ++ [.created] } ∨
      (∃ g gen, a = .next g ∧ s.generators[g]? = some gen ∧ s' = { s with
        iterated := s.iterated || s.starts gen
        crashed := (s.next c gen).result == .crashed
        generators := s.generators.set g (s.next c gen).gen }) ∨
      a = .exit ∧ s' = { s with
        invalidated := true
        handleClosed := true
        crashed := s.handleClosed }) := by
  unfold Session.step at h
  split at h
  · cases h
  · next hcrashed =>
    refine ⟨by simpa using hcrashed, ?_⟩
    cases a with
    | tensors => exact .inl ⟨rfl, (Option.some.inj h).symm⟩
    | next g =>
        simp only at h
        split at h
        · cases h
        · next gen hgen => exact .inr (.inl ⟨g, gen, rfl, hgen, (Option.some.inj h).symm⟩)
    | exit => exact .inr (.inr ⟨rfl, (Option.some.inj h).symm⟩)

/-- The loop never raises a `RuntimeError`. -/
theorem loopBody_raised {handleClosed : Bool} {i : ℕ} {e : PyError}
    (h : (loopBody c handleClosed i).result = .raised e) : e.isRuntimeError = false := by
  unfold loopBody at h
  repeat' split at h
  all_goals cases h
  all_goals rfl

/-- A generator that does not start stays out of the loop unless it is in it. -/
theorem Session.next_gen (hstart : s.starts gen = false) {i : ℕ}
    (h : (s.next c gen).gen = .suspended i) : ∃ j, gen = .suspended j := by
  cases gen with
  | created =>
      rw [Session.next] at h
      split at h
      · cases h
      · next hinvalidated =>
        split at h
        · cases h
        · next hiterated => simp [Session.starts, hinvalidated, hiterated] at hstart
  | suspended j => exact ⟨j, rfl⟩
  | finished => cases h

/-- A generator that yields starts or is in the loop. -/
theorem Session.next_yields {name : String} (h : (s.next c gen).result = .yielded name) :
    s.starts gen = true ∨ ∃ j, gen = .suspended j := by
  cases gen with
  | created =>
      rw [Session.next] at h
      split at h
      · cases h
      · next hinvalidated =>
        split at h
        · cases h
        · next hiterated =>
          left
          simp [Session.starts, hinvalidated, hiterated]
  | suspended j => exact .inr ⟨j, rfl⟩
  | finished => cases h

/-! ## Who is in the loop -/

/-- Nobody has passed the guards. -/
structure Session.Free (s : Session) : Prop where
  iterated : s.iterated = false
  outside : ∀ (g i : ℕ), s.generators[g]? ≠ some (Gen.suspended i)

/-- The guards have been passed, and only `owner` may be in the loop. -/
structure Session.Owned (owner : ℕ) (s : Session) : Prop where
  iterated : s.iterated = true
  only : ∀ (g i : ℕ), s.generators[g]? = some (Gen.suspended i) → g = owner

/-- A new generator is not in the loop. -/
theorem getElem?_append_created {gens : List Gen} {g i : ℕ}
    (h : (gens ++ [Gen.created])[g]? = some (.suspended i)) : gens[g]? = some (.suspended i) := by
  rw [List.getElem?_append] at h
  split at h
  · exact h
  · rw [List.getElem?_singleton] at h
    split at h <;> cases h

/-- Who is in the loop behind a `next` was there before, or has been advanced. -/
theorem getElem?_set_suspended {gens : List Gen} {g g' i : ℕ} {gen : Gen}
    (h : (gens.set g gen)[g']? = some (.suspended i)) :
    gens[g']? = some (.suspended i) ∨ g' = g ∧ gen = .suspended i := by
  rw [List.getElem?_set] at h
  split at h
  · next heq =>
    split at h
    · exact .inr ⟨heq.symm, Option.some.inj h⟩
    · cases h
  · exact .inl h

theorem Session.Owned.step (h : s.Owned owner) (hstep : s.step c a = some s') :
    s'.Owned owner := by
  obtain ⟨-, ⟨rfl, rfl⟩ | ⟨g, gen, rfl, hgen, rfl⟩ | ⟨rfl, rfl⟩⟩ := Session.step_cases hstep
  · exact ⟨h.iterated, fun g i hg => h.only g i (getElem?_append_created hg)⟩
  · refine ⟨by simp [h.iterated], fun g' i hg' => ?_⟩
    rcases getElem?_set_suspended hg' with hbefore | ⟨rfl, hnext⟩
    · exact h.only g' i hbefore
    · obtain ⟨j, rfl⟩ := Session.next_gen (by simp [Session.starts, h.iterated]) hnext
      exact h.only g' j hgen
  · exact ⟨h.iterated, h.only⟩

theorem Session.Free.step (h : s.Free) (hstep : s.step c a = some s') :
    s'.Free ∨ ∃ owner, s'.Owned owner := by
  obtain ⟨-, ⟨rfl, rfl⟩ | ⟨g, gen, rfl, hgen, rfl⟩ | ⟨rfl, rfl⟩⟩ := Session.step_cases hstep
  · exact .inl ⟨h.iterated, fun g i hg => h.outside g i (getElem?_append_created hg)⟩
  · cases hstart : s.starts gen with
    | false =>
        refine .inl ⟨by simp [h.iterated], fun g' i hg' => ?_⟩
        rcases getElem?_set_suspended hg' with hbefore | ⟨rfl, hnext⟩
        · exact h.outside g' i hbefore
        · obtain ⟨j, rfl⟩ := Session.next_gen hstart hnext
          exact h.outside g' j hgen
    | true =>
        refine .inr ⟨g, by simp, fun g' i hg' => ?_⟩
        rcases getElem?_set_suspended hg' with hbefore | ⟨rfl, -⟩
        · exact absurd hbefore (h.outside g' i)
        · rfl
  · exact .inl ⟨h.iterated, h.outside⟩

theorem Session.free_or_owned (h : exec (Session.step c) acts {} = some s) :
    s.Free ∨ ∃ owner, s.Owned owner := by
  refine Run.invariant (P := fun s => s.Free ∨ ∃ owner, s.Owned owner) ?_ (Run.of_exec h)
    (.inl ⟨rfl, by simp⟩)
  rintro s s' (hfree | ⟨owner, howned⟩) ⟨a, hstep⟩
  · exact hfree.step hstep
  · exact .inr ⟨owner, howned.step hstep⟩

theorem Session.Owned.eq_of_yields (h : s.Owned owner) (hgen : s.generators[g]? = some gen)
    {name : String} (hyields : (s.next c gen).result = .yielded name) : g = owner := by
  rcases Session.next_yields hyields with hstart | ⟨j, rfl⟩
  · simp [Session.starts, h.iterated] at hstart
  · exact h.only g j hgen

/-- Behind the `next` that yields, the generator is the only one that may be in the loop. -/
theorem owned_of_yields (hinv : s.Free ∨ ∃ owner, s.Owned owner)
    (hgen : s.generators[g]? = some gen) {name : String}
    (hyields : (s.next c gen).result = .yielded name) (hstep : s.step c (.next g) = some s') :
    s'.Owned g := by
  rcases hinv with hfree | ⟨owner, howned⟩
  · obtain ⟨-, ⟨hact, -⟩ | ⟨g', gen', hact, hgen', rfl⟩ | ⟨hact, -⟩⟩ := Session.step_cases hstep
    · cases hact
    · cases hact
      obtain rfl := Option.some.inj (hgen.symm.trans hgen')
      rcases Session.next_yields hyields with hstart | ⟨j, rfl⟩
      · refine ⟨by simp [hstart], fun g' i hg' => ?_⟩
        rcases getElem?_set_suspended hg' with hbefore | ⟨rfl, -⟩
        · exact absurd hbefore (hfree.outside g' i)
        · rfl
      · exact absurd hgen (hfree.outside g j)
    · cases hact
  · obtain rfl := howned.eq_of_yields hgen hyields
    exact howned.step hstep

/-! ## Runs -/

/-- Once a generator has yielded, no other one does. -/
theorem eq_of_yields_later {acts₁ acts₂ : List Action} {g' : ℕ} {gen' : Gen} {name name' : String}
    (hrun : exec (Session.step c) acts₁ {} = some s) (hgen : s.generators[g]? = some gen)
    (hyields : (s.next c gen).result = .yielded name)
    (hrun' : exec (Session.step c) (acts₁ ++ Action.next g :: acts₂) {} = some s')
    (hgen' : s'.generators[g']? = some gen') (hyields' : (s'.next c gen').result = .yielded name') :
    g' = g := by
  rw [exec_append, hrun, Option.bind_some] at hrun'
  obtain ⟨t, hstep, hrest⟩ := Option.bind_eq_some_iff.mp hrun'
  have howned : t.Owned g := owned_of_yields (Session.free_or_owned hrun) hgen hyields hstep
  have howned' : s'.Owned g := Run.invariant (P := Session.Owned g)
    (fun _ _ h ⟨_, hstep⟩ => h.step hstep) (Run.of_exec hrest) howned
  exact howned'.eq_of_yields hgen' hyields'

/-- At most one generator ever yields. -/
theorem one_yields {g' : ℕ} {gen' : Gen} {name name' : String} (h : NextAt c acts s g gen)
    (h' : NextAt c acts s' g' gen') (hyields : (s.next c gen).result = .yielded name)
    (hyields' : (s'.next c gen').result = .yielded name') : g = g' := by
  obtain ⟨acts₁, acts₂, heq, hrun, -, hgen⟩ := h
  obtain ⟨acts₁', acts₂', heq', hrun', -, hgen'⟩ := h'
  rw [heq] at heq'
  rcases List.append_eq_append_iff.mp heq' with ⟨between, rfl, hrest⟩ | ⟨between, rfl, hrest⟩
  · cases between with
    | nil => exact Action.next.inj (List.cons.inj hrest).1
    | cons a between =>
        obtain ⟨rfl, -⟩ := List.cons.inj hrest
        exact (eq_of_yields_later hrun hgen hyields hrun' hgen' hyields').symm
  · cases between with
    | nil => exact (Action.next.inj (List.cons.inj hrest).1).symm
    | cons a between =>
        obtain ⟨rfl, -⟩ := List.cons.inj hrest
        exact eq_of_yields_later hrun' hgen' hyields' hrun hgen hyields

end

/-- **After the exit no tensor is asked for exactly if no generator is then advanced that the exit
found in its loop.** -/
theorem no_access_after_exit_iff (c : Opened) (acts : List Action) :
    NoAccessAfterExit c acts ↔
      ∀ s g gen, NextAt c acts s g gen → s.invalidated = true →
        ∀ tensorIndex, gen ≠ .suspended tensorIndex := by
  constructor
  · rintro h s g gen hnext hinvalidated i rfl
    obtain ⟨⟨e, he, hruntime⟩, -⟩ := h.raises s g _ hnext hinvalidated (by simp)
    rw [loopBody_raised he] at hruntime
    cases hruntime
  · intro h
    refine ⟨fun s g gen s' g' gen' _ _ hnext hnext' => one_yields hnext hnext', ?_⟩
    intro s g gen hnext hinvalidated hfinished
    cases gen with
    | created =>
        rw [Session.next, if_pos hinvalidated]
        exact ⟨⟨_, rfl, rfl⟩, rfl⟩
    | suspended i => exact absurd rfl (h s g _ hnext hinvalidated i)
    | finished => exact absurd rfl hfinished

/-- Two tensors of eight bytes. -/
def twoTensors : Opened where
  torch := recentTorch
  orderedTensorMetadatas := [⟨"a", "F32", [2], (0, 8)⟩, ⟨"b", "F32", [2], (8, 16)⟩]
  aligned := fun _ => true

/-- A generator advanced once, the exit, and the generator advanced again: the closed handle is
asked for the second tensor. -/
theorem exit_in_loop : ¬ ∀ (c : Opened) (acts : List Action), NoAccessAfterExit c acts := by
  intro h
  have hraises := (h twoTensors [.tensors, .next 0, .exit, .next 0]).raises
    { invalidated := true, iterated := true, handleClosed := true, generators := [.suspended 1] }
    0 (.suspended 1) ⟨[.tensors, .next 0, .exit], [], rfl, by decide, rfl, rfl⟩ rfl (by decide)
  exact absurd hraises.2 (by decide)

end InstantTensor
