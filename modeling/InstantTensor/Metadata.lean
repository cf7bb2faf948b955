/-
# `InstantTensor.Metadata` — how the headers are read

`read_safetensors_metadata` reads a header: eight bytes with its length, and a JSON text of that length.
`_read_metadata` has one thread for each file, which writes what it read to the place of its file; a
thread that raises leaves `None` there, on which the constructor then fails.  With
`distributed_metadata_read` a rank reads a part of the files only, and the parts are gathered.

Whatever the order of the threads, on whichever rank and in either way, the constructor comes to the
headers of all files in order, or fails (`read_metadata`), whatever is made of the text of a header;
what Python makes of it is `InstantTensor.HeaderText`.
-/
import Mathlib.Tactic.IntervalCases
import InstantTensor.HeaderText
import InstantTensor.Lib.Bytes
import InstantTensor.Lib.Lists
import InstantTensor.Lib.Runs

namespace InstantTensor

/-! ## A header -/

/-- `read_safetensors_metadata`, with `fromBytes` for `int.from_bytes(…, "little")`; `read` takes no
size from `2 ^ 63` on. -/
def readSafetensorsMetadata (loads : List UInt8 → Option (Option FileMetadata × List TensorInfo))
    (file : List UInt8) : Option SafetensorsMetadata :=
  let metadataSize := fromBytes (file.take 8)
  if 2 ^ 63 ≤ metadataSize then none
  else do
    let (fileMetadata, tensorMetadata) ← loads ((file.drop 8).take metadataSize)
    return { fileMetadata, tensorMetadata, headerSize := 8 + metadataSize }

/-! ## The threads -/

/-- `_read_metadata` on one rank: the files whose threads have yet to be started, and those whose
threads are running. -/
structure MetadataReads (μ : Type) where
  metaReadResults : List (Option μ)
  todo : List ℕ
  running : List ℕ

inductive MetadataTurn where
  /-- The next thread is started. -/
  | start
  /-- The thread of a file has read it, or raised. -/
  | finish (file : ℕ)
deriving DecidableEq, Repr

namespace MetadataReads

variable {μ : Type} (read : ℕ → Option μ)

/-- Before the loop over `enumerate(self.filename)[meta_read_start:meta_read_end]`. -/
def create (n metaReadStart metaReadEnd : ℕ) : MetadataReads μ where
  metaReadResults := List.replicate n none
  todo := ((List.range n).take metaReadEnd).drop metaReadStart
  running := []

def next (t : MetadataTurn) (s : MetadataReads μ) : Option (MetadataReads μ) :=
  match t with
  | .start =>
      match s.todo with
      | [] => none
      | file :: todo => some { s with todo, running := s.running ++ [file] }
  | .finish file =>
      if file ∈ s.running then
        some { s with
          metaReadResults :=
            match read file with
            | none => s.metaReadResults
            | some m => s.metaReadResults.set file (some m)
          running := s.running.erase file }
      else none

/-- All threads are started and joined. -/
def joined (s : MetadataReads μ) : Bool := s.todo.isEmpty && s.running.isEmpty

end MetadataReads

/-! ## The parts of the ranks -/

def metaReadStart (n worldSize rank : ℕ) : ℕ :=
  n / worldSize * rank + min rank (n % worldSize)

def metaReadCnt (n worldSize rank : ℕ) : ℕ :=
  n / worldSize + if rank < n % worldSize then 1 else 0

/-- The files a rank reads, from which to which. -/
def metaReadRange (distributed : Bool) (n worldSize rank : ℕ) : ℕ × ℕ :=
  if distributed then
    (metaReadStart n worldSize rank, metaReadStart n worldSize rank + metaReadCnt n worldSize rank)
  else (0, n)

/-- What `_read_metadata` returns, where the threads of rank `r` left `results r`. -/
def gatherMetadata {μ : Type} (distributed : Bool) (n worldSize rank : ℕ)
    (results : ℕ → List (Option μ)) : List (Option μ) :=
  if distributed && decide (1 < worldSize) then
    (List.range worldSize).flatMap fun r =>
      ((results r).take (metaReadRange distributed n worldSize r).2).drop
        (metaReadRange distributed n worldSize r).1
  else results rank

/-! ## The constructor -/

inductive InitError where
  | header (e : HeaderError)
  /-- `TypeError`: "cannot unpack non-iterable NoneType object" -/
  | unreadable
deriving DecidableEq, Repr

/-- The loop of the constructor, over what `_read_metadata` returned. -/
def collectHeaders : ℕ → List (Option SafetensorsMetadata) → Headers → Except InitError Headers
  | _, [], h => .ok h
  | _, none :: _, _ => .error .unreadable
  | fileIndex, some m :: ms, h =>
      match readHeader fileIndex m h with
      | .error e => .error (.header e)
      | .ok h => collectHeaders (fileIndex + 1) ms h

theorem collectHeaders_ok {fileIndex : ℕ} {results : List (Option SafetensorsMetadata)}
    {h h' : Headers} : collectHeaders fileIndex results h = .ok h' ↔
      ∃ ms, results = ms.map some ∧ readHeaders fileIndex ms h = .ok h' := by
  induction results generalizing fileIndex h with
  | nil =>
      constructor
      · intro heq
        exact ⟨[], rfl, by simpa [collectHeaders, readHeaders] using heq⟩
      · rintro ⟨ms, hms, heq⟩
        obtain rfl := List.map_eq_nil_iff.mp hms.symm
        simpa [collectHeaders, readHeaders] using heq
  | cons r results ih =>
      cases r with
      | none =>
          constructor
          · intro heq
            cases heq
          · rintro ⟨ms, hms, -⟩
            cases ms with
            | nil => cases hms
            | cons m ms => cases (List.cons.inj hms).1
      | some m =>
          constructor
          · intro heq
            rw [collectHeaders] at heq
            cases hread : readHeader fileIndex m h with
            | error e =>
                rw [hread] at heq
                cases heq
            | ok h₁ =>
                rw [hread] at heq
                obtain ⟨ms, rfl, hrest⟩ := ih.mp heq
                refine ⟨m :: ms, rfl, ?_⟩
                rw [readHeaders, hread]
                exact hrest
          · rintro ⟨ms, hms, heq⟩
            cases ms with
            | nil => cases hms
            | cons m' ms =>
                obtain ⟨hm, hrest⟩ := List.cons.inj hms
                obtain rfl := Option.some.inj hm
                rw [readHeaders] at heq
                cases hread : readHeader fileIndex m h with
                | error e =>
                    rw [hread] at heq
                    cases heq
                | ok h₁ =>
                    rw [hread] at heq
                    rw [collectHeaders, hread]
                    exact ih.mpr ⟨ms, hrest, heq⟩

/-! ## What the threads leave -/

namespace MetadataReads

section
variable {μ : Type} {read : ℕ → Option μ} {n first last : ℕ} {s s' : MetadataReads μ}

/-- The files of a part. -/
def part (n first last : ℕ) : List ℕ := ((List.range n).take last).drop first

theorem part_nodup : (part n first last).Nodup :=
  ((List.nodup_range.sublist (List.take_sublist _ _)).sublist (List.drop_sublist _ _))

theorem lt_of_mem_part {file : ℕ} (h : file ∈ part n first last) : file < n :=
  List.mem_range.mp (List.mem_of_mem_take (List.mem_of_mem_drop h))

/-- The files that have been read are those of the part whose threads are over. -/
structure Kept (read : ℕ → Option μ) (n first last : ℕ) (s : MetadataReads μ) : Prop where
  nodup : (s.todo ++ s.running).Nodup
  subset : ∀ file ∈ s.todo ++ s.running, file ∈ part n first last
  length : s.metaReadResults.length = n
  finished : ∀ file ∈ part n first last, file ∉ s.todo ++ s.running →
    s.metaReadResults[file]? = some (read file)
  untouched : ∀ file < n, (file ∉ part n first last ∨ file ∈ s.todo ++ s.running) →
    s.metaReadResults[file]? = some none

theorem kept_create : Kept read n first last (create n first last) where
  nodup := by
    rw [create, List.append_nil]
    exact part_nodup
  subset := by
    intro file hfile
    rwa [create, List.append_nil] at hfile
  length := List.length_replicate
  finished := by
    intro file hfile hnot
    rw [create, List.append_nil] at hnot
    exact absurd hfile hnot
  untouched := by
    intro file hfile _
    rw [create, List.getElem?_replicate, if_pos hfile]

/-- What is left to do. -/
def toDo (s : MetadataReads μ) : ℕ := 2 * s.todo.length + s.running.length

theorem Kept.step (h : Kept read n first last s) {t : MetadataTurn} (hnext : next read t s = some s') :
    Kept read n first last s' ∧ s'.toDo < s.toDo := by
  cases t with
  | start =>
      rw [next] at hnext
      cases htodo : s.todo with
      | nil =>
          rw [htodo] at hnext
          cases hnext
      | cons file todo =>
          rw [htodo] at hnext
          obtain rfl := Option.some.inj hnext
          have hperm : (todo ++ (s.running ++ [file])).Perm (s.todo ++ s.running) := by
            rw [htodo, ← List.append_assoc]
            exact List.perm_append_singleton _ _
          refine ⟨⟨hperm.nodup_iff.mpr h.nodup, ?_, h.length, ?_, ?_⟩, ?_⟩
          · intro i hi
            exact h.subset i (hperm.mem_iff.mp hi)
          · intro i hi hnot
            exact h.finished i hi fun hmem => hnot (hperm.mem_iff.mpr hmem)
          · intro i hi hout
            exact h.untouched i hi (hout.imp_right hperm.mem_iff.mp)
          · simp only [toDo, htodo, List.length_append, List.length_cons, List.length_nil]
            omega
  | finish file =>
      rw [next] at hnext
      split at hnext
      · next hrunning =>
        obtain rfl := Option.some.inj hnext
        obtain ⟨htodo, hnodup, hdisjoint⟩ := List.nodup_append.mp h.nodup
        have hmem : file ∈ s.todo ++ s.running := List.mem_append_right _ hrunning
        have hpart := h.subset file hmem
        have hplace : file < s.metaReadResults.length := by
          rw [h.length]
          exact lt_of_mem_part hpart
        have hgone : file ∉ s.todo ++ s.running.erase file := by
          intro hin
          rcases List.mem_append.mp hin with hin | hin
          · exact hdisjoint file hin file hrunning rfl
          · exact absurd hin (List.Nodup.not_mem_erase hnodup)
        have hother : ∀ i ≠ file,
            (i ∈ s.todo ++ s.running.erase file ↔ i ∈ s.todo ++ s.running) := by
          intro i hne
          rw [List.mem_append, List.mem_append, List.mem_erase_of_ne hne]
        refine ⟨⟨?_, ?_, ?_, ?_, ?_⟩, ?_⟩
        · exact h.nodup.sublist (List.Sublist.append_left List.erase_sublist _)
        · intro i hi
          rcases eq_or_ne i file with rfl | hne
          · exact hpart
          · exact h.subset i ((hother i hne).mp hi)
        · cases read file with
          | none => exact h.length
          | some m => exact List.length_set.trans h.length
        · intro i hi hnot
          rcases eq_or_ne i file with rfl | hne
          · cases hread : read i with
            | none => exact h.untouched i (lt_of_mem_part hpart) (.inr hmem)
            | some m => exact List.getElem?_set_self hplace
          · have hover := h.finished i hi fun hin => hnot ((hother i hne).mpr hin)
            cases read file with
            | none => exact hover
            | some m => rwa [List.getElem?_set_ne hne.symm]
        · intro i hi hout
          have hne : i ≠ file := by
            rintro rfl
            rcases hout with hout | hout
            · exact hout hpart
            · exact hgone hout
          have hnone := h.untouched i hi (hout.imp_right (hother i hne).mp)
          cases read file with
          | none => exact hnone
          | some m => rwa [List.getElem?_set_ne hne.symm]
        · have hpos := List.length_pos_of_mem hrunning
          simp only [toDo, List.length_erase_of_mem hrunning]
          omega
      · cases hnext

theorem Kept.joined (h : Kept read n first last s) (hjoined : s.joined = true) :
    s.metaReadResults =
      (List.range n).map fun file => if file ∈ part n first last then read file else none := by
  obtain ⟨htodo, hrunning⟩ : s.todo = [] ∧ s.running = [] := by simpa [MetadataReads.joined] using hjoined
  have hnone : ∀ file, file ∉ s.todo ++ s.running := by
    intro file
    rw [htodo, hrunning]
    exact List.not_mem_nil
  refine List.ext_getElem? fun file => ?_
  by_cases hfile : file < n
  · rw [List.getElem?_map, List.getElem?_range hfile, Option.map_some]
    by_cases hpart : file ∈ part n first last
    · rw [if_pos hpart]
      exact h.finished file hpart (hnone file)
    · rw [if_neg hpart]
      exact h.untouched file hfile (.inl hpart)
  · rw [List.getElem?_eq_none (by rw [h.length]; omega), List.getElem?_eq_none (by simp; omega)]

/-- In whatever order the threads read, they all come to an end. -/
theorem inevitable_joined (read : ℕ → Option μ) (n first last : ℕ) :
    Inevitable (next read) (fun _ => True) (fun s => s.joined = true) (create n first last) := by
  refine Inevitable.of_measure (I := Kept read n first last) toDo ?_ ?_ kept_create
  · intro s _ hnot
    cases htodo : s.todo with
    | cons file todo => exact ⟨.start, _, trivial, by rw [next, htodo]⟩
    | nil =>
        cases hrunning : s.running with
        | nil => exact absurd (by rw [MetadataReads.joined, htodo, hrunning]; rfl) hnot
        | cons file running =>
            have hmem : file ∈ s.running := by
              rw [hrunning]
              exact List.mem_cons_self
            exact ⟨.finish file, _, trivial, if_pos hmem⟩
  · intro s hs _ t s' _ hnext
    exact .inr (hs.step hnext)

theorem run_kept (h : Run (next read) (create n first last) s) : Kept read n first last s :=
  h.invariant (fun _ _ hs hstep => (hs.step hstep.choose_spec).1) kept_create

end

end MetadataReads

/-! ## Every rank comes to the same headers -/

section
variable {n worldSize : ℕ}

theorem metaReadStart_succ (n worldSize rank : ℕ) : metaReadStart n worldSize (rank + 1) =
    metaReadStart n worldSize rank + metaReadCnt n worldSize rank := by
  rw [metaReadStart, metaReadStart, metaReadCnt, Nat.mul_succ]
  split
  · next hlt =>
    rw [Nat.min_eq_left hlt, Nat.min_eq_left (Nat.le_of_lt hlt)]
    omega
  · next hle =>
    rw [Nat.min_eq_right (by omega), Nat.min_eq_right (Nat.le_of_not_lt hle)]
    omega

/-- The parts of the ranks are all files. -/
theorem metaReadStart_worldSize (hworld : 0 < worldSize) :
    metaReadStart n worldSize worldSize = n := by
  rw [metaReadStart, Nat.min_eq_right (Nat.le_of_lt (Nat.mod_lt n hworld)), Nat.mul_comm]
  exact Nat.div_add_mod n worldSize

/-- What a rank has read of its part. -/
theorem MetadataReads.Kept.part_read {μ : Type} {read : ℕ → Option μ} {first last : ℕ}
    {s : MetadataReads μ} (h : s.Kept read n first last) (hjoined : s.joined = true) :
    (s.metaReadResults.take last).drop first = (((List.range n).map read).take last).drop first := by
  rw [h.joined hjoined, ← List.map_take, ← List.map_drop, ← List.map_take, ← List.map_drop]
  exact List.map_congr_left fun file hfile => if_pos hfile

end

/-- **All ranks read the same headers**, those of all files in order, whether each reads all files or
only a part, and in whatever order its threads do. -/
theorem read_metadata (loads : List UInt8 → Option (Option FileMetadata × List TensorInfo))
    (contents : List (Option (List UInt8))) (distributed : Bool) {worldSize : ℕ}
    (hworld : 0 < worldSize) :
    let n := contents.length
    let read := fun file => (contents.getD file none).bind (readSafetensorsMetadata loads)
    let start : ℕ → MetadataReads SafetensorsMetadata := fun rank => MetadataReads.create n
      (metaReadRange distributed n worldSize rank).1 (metaReadRange distributed n worldSize rank).2
    (∀ rank, Inevitable (MetadataReads.next read) (fun _ => True) (fun s => s.joined = true)
      (start rank)) ∧
    ∀ s : ℕ → MetadataReads SafetensorsMetadata,
      (∀ rank < worldSize, Run (MetadataReads.next read) (start rank) (s rank) ∧
        (s rank).joined = true) →
      ∀ rank < worldSize,
        gatherMetadata distributed n worldSize rank (fun r => (s r).metaReadResults)
          = contents.map (·.bind (readSafetensorsMetadata loads)) := by
  intro n read start
  have hall : (List.range n).map read
      = contents.map (·.bind (readSafetensorsMetadata loads)) := by
    refine List.ext_getElem? fun file => ?_
    by_cases hfile : file < contents.length
    · rw [List.getElem?_map, List.getElem?_map, List.getElem?_range hfile,
        List.getElem?_eq_getElem hfile]
      simp only [Option.map_some, read, List.getD_eq_getElem?_getD, List.getElem?_eq_getElem hfile,
        Option.getD_some]
    · rw [List.getElem?_eq_none (by simp [n]; omega), List.getElem?_eq_none (by simp; omega)]
  refine ⟨fun rank => MetadataReads.inevitable_joined read n _ _, ?_⟩
  intro s hs rank hrank
  have hpart : ∀ r < worldSize, ((s r).metaReadResults.take
      (metaReadRange distributed n worldSize r).2).drop (metaReadRange distributed n worldSize r).1
        = (((List.range n).map read).take (metaReadRange distributed n worldSize r).2).drop
            (metaReadRange distributed n worldSize r).1 := by
    intro r hr
    obtain ⟨hrun, hjoined⟩ := hs r hr
    exact (MetadataReads.run_kept hrun).part_read hjoined
  rw [← hall, gatherMetadata]
  split
  · next hgather =>
    obtain ⟨rfl, -⟩ : distributed = true ∧ 1 < worldSize := by simpa using hgather
    have hzero : metaReadStart n worldSize 0 = 0 := by simp [metaReadStart]
    have hle : ∀ r < worldSize, metaReadStart n worldSize r ≤ metaReadStart n worldSize (r + 1) := by
      intro r _
      rw [metaReadStart_succ]
      exact Nat.le_add_right _ _
    have hparts := flatMap_parts ((List.range n).map read) hzero hle
    rw [metaReadStart_worldSize hworld, List.take_of_length_le (by simp)] at hparts
    refine Eq.trans ?_ hparts
    refine List.flatMap_congr fun r hr => ?_
    rw [hpart r (List.mem_range.mp hr), metaReadStart_succ]
    rfl
  · next hgather =>
    obtain ⟨hrun, hjoined⟩ := hs rank hrank
    have hwhole : metaReadRange distributed n worldSize rank = (0, n) := by
      cases distributed with
      | false => rfl
      | true =>
          have hone : worldSize = 1 := by simp at hgather; omega
          subst hone
          obtain rfl : rank = 0 := by omega
          simp [metaReadRange, metaReadStart, metaReadCnt, Nat.mod_one]
    have hown := hpart rank hrank
    rw [hwhole] at hown
    have hlength := (MetadataReads.run_kept hrun).length
    rw [List.drop_zero, List.drop_zero, List.take_of_length_le (by rw [hlength]),
      List.take_of_length_le (by simp)] at hown
    exact hown

/-- A file with the header `{}`, and one that cannot be read. -/
def emptyAndMissing : List (Option (List UInt8)) :=
  [some [2, 0, 0, 0, 0, 0, 0, 0, 123, 125], none]

/-- Each of two ranks reads one file, and both have the results of both. -/
theorem read_metadata_emptyAndMissing :
    let read := fun file => (emptyAndMissing.getD file none).bind (readSafetensorsMetadata loads)
    ∃ s : ℕ → MetadataReads SafetensorsMetadata, (∀ rank < 2,
        Run (MetadataReads.next read) (MetadataReads.create 2 rank (rank + 1)) (s rank)) ∧
      gatherMetadata true 2 2 1 (fun r => (s r).metaReadResults) = [some ⟨none, [], 10⟩, none] := by
  intro read
  have hread : ∀ rank < 2, exec (MetadataReads.next read) [.start, .finish rank]
      (MetadataReads.create 2 rank (rank + 1)) = some
        ⟨if rank = 0 then [some ⟨none, [], 10⟩, none] else [none, none], [], []⟩ := by
    intro rank hrank
    interval_cases rank
    · rfl
    · rfl
  refine ⟨fun rank => ⟨if rank = 0 then [some ⟨none, [], 10⟩, none] else [none, none], [], []⟩,
    fun rank hrank => Run.of_exec (hread rank hrank), ?_⟩
  refine ((read_metadata loads emptyAndMissing true (by decide : 0 < 2)).2 _ ?_ 1
    (by decide)).trans rfl
  intro rank hrank
  refine ⟨?_, rfl⟩
  have hrun := Run.of_exec (hread rank hrank)
  interval_cases rank
  · exact hrun
  · exact hrun

end InstantTensor
