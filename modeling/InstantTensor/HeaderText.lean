/-
# `InstantTensor.HeaderText` — the text of a header

`read_safetensors_metadata` decodes the text of a header, gives it to `json.loads` and takes
`__metadata__` out of the dict that comes back; the rest are the tensors, under their names.

A header is written as an object of one line, filled up with blanks.  What is read of it are the
entries it was written for, if no two tensors share a name (`loads_headerText`).
-/
import InstantTensor.Header
import InstantTensor.Lib.Bytes
import InstantTensor.Lib.Json

namespace InstantTensor

abbrev FileMetadata := List (String × String)

/-! ## Reading -/

/-- An entry with the types the format asks for; `__init__` and `tensors` fail on another. -/
def readTensorInfo (name : String) (v : Json) : Option TensorInfo := do
  let d ← v.dict?
  let dtype ← (d.lookup "dtype").bind Json.str?
  let shape ← (d.lookup "shape").bind Json.ints?
  let dataOffsets ← (d.lookup "data_offsets").bind Json.ints?
  match dataOffsets with
  | start :: stop :: _ => return { name, dtype, shape, dataOffsets := (start, stop) }
  | _ => none

/-- `pop("__metadata__", None)`, which the format wants to be of strings. -/
def readFileMetadata : Option Json → Option (Option FileMetadata)
  | none | some .null => some none
  | some v => do
      let d ← v.dict?
      let d ← d.mapM fun e => e.2.str?.map fun s => (e.1, s)
      return some d

def readEntries (v : Json) : Option (Option FileMetadata × List TensorInfo) := do
  let d ← v.dict?
  let fileMetadata ← readFileMetadata (d.lookup "__metadata__")
  let tensorMetadata ← (d.filter fun e => e.1 != "__metadata__").mapM fun e => readTensorInfo e.1 e.2
  return (fileMetadata, tensorMetadata)

/-- `json.loads(metadata_str)` and what is made of it; `none` where one of the steps raises. -/
def loads (text : List UInt8) : Option (Option FileMetadata × List TensorInfo) := do
  let metadataStr ← decodeUtf8 text
  let v ← Json.parse metadataStr
  readEntries v

/-! ## Writing -/

def TensorInfo.attributes (e : TensorInfo) : List (String × Json) :=
  [("dtype", .str e.dtype), ("shape", .arr (e.shape.map .int)),
    ("data_offsets", .arr ([e.start, e.stop].map .int))]

def TensorInfo.member (e : TensorInfo) : String × Json := (e.name, .obj e.attributes)

def metadataMember (d : FileMetadata) : String × Json :=
  ("__metadata__", .obj (d.map fun e => (e.1, .str e.2)))

def headerObject (fileMetadata : Option FileMetadata) (entries : List TensorInfo) : Json :=
  .obj ((fileMetadata.map metadataMember).toList ++ entries.map TensorInfo.member)

/-- A header as it is written, filled up with blanks. -/
def headerText (fileMetadata : Option FileMetadata) (entries : List TensorInfo) (blanks : ℕ) :
    List UInt8 :=
  encodeUtf8 ((headerObject fileMetadata entries).print ++ List.replicate blanks ' ')

/-! ## What is written is read -/

theorem readTensorInfo_member (e : TensorInfo) : readTensorInfo e.member.1 e.member.2 = some e := by
  have hdict : e.member.2.dict? = some e.attributes :=
    congrArg some (dict_of_nodup (by simp [TensorInfo.attributes]))
  have hdtype : (e.attributes.lookup "dtype").bind Json.str? = some e.dtype := rfl
  have hshape : (e.attributes.lookup "shape").bind Json.ints? = some e.shape := Json.ints?_map_int _
  have hoffsets : (e.attributes.lookup "data_offsets").bind Json.ints? = some [e.start, e.stop] :=
    Json.ints?_map_int _
  simp only [readTensorInfo, hdict, hdtype, hshape, hoffsets, Option.bind_eq_bind, Option.bind_some]
  rfl

theorem readFileMetadata_member {d : FileMetadata} (h : (d.map Prod.fst).Nodup) :
    readFileMetadata (some (metadataMember d).2) = some (some d) := by
  have hkeys : ((d.map fun e => (e.1, Json.str e.2)).map Prod.fst).Nodup := by
    rwa [List.map_map]
  have hdict : (metadataMember d).2.dict? = some (d.map fun e => (e.1, .str e.2)) :=
    congrArg some (dict_of_nodup hkeys)
  have hstring : ∀ e : String × String,
      ((e.1, Json.str e.2).2.str?.map fun s => ((e.1, Json.str e.2).1, s)) = some e := fun _ => rfl
  have hstrings := mapM_map_some (f := fun e : String × Json => e.2.str?.map fun s => (e.1, s)) hstring d
  simp only [metadataMember] at hdict ⊢
  simp only [readFileMetadata, hdict, hstrings, Option.bind_eq_bind, Option.bind_some]
  rfl

section
variable {fileMetadata : Option FileMetadata} {entries : List TensorInfo}

theorem members_names (entries : List TensorInfo) :
    (entries.map TensorInfo.member).map Prod.fst = entries.map TensorInfo.name := by
  rw [List.map_map]
  rfl

/-- What the header of some entries is read as. -/
theorem readEntries_headerObject
    (hnames : ("__metadata__" :: entries.map TensorInfo.name).Nodup)
    (hkeys : ∀ d ∈ fileMetadata, (d.map Prod.fst).Nodup) :
    readEntries (headerObject fileMetadata entries) = some (fileMetadata, entries) := by
  obtain ⟨hreserved, hdistinct⟩ := List.nodup_cons.mp hnames
  have hother : ∀ e ∈ entries.map TensorInfo.member, e.1 ≠ "__metadata__" := by
    intro e he heq
    exact hreserved (members_names entries ▸ heq ▸ List.mem_map_of_mem he)
  have hkept : (entries.map TensorInfo.member).filter (fun e => e.1 != "__metadata__")
      = entries.map TensorInfo.member :=
    List.filter_eq_self.mpr fun e he => bne_iff_ne.mpr (hother e he)
  have hentries : (entries.map TensorInfo.member).mapM (fun e => readTensorInfo e.1 e.2) = some entries :=
    mapM_map_some readTensorInfo_member entries
  cases fileMetadata with
  | none =>
      have hdict : (headerObject none entries).dict? = some (entries.map TensorInfo.member) :=
        congrArg some (dict_of_nodup (members_names entries ▸ hdistinct))
      have hlookup : (entries.map TensorInfo.member).lookup "__metadata__" = none :=
        List.lookup_eq_none_iff.mpr fun e he => bne_iff_ne.mpr (hother e he).symm
      simp only [readEntries, hdict, hlookup, hkept, hentries, Option.bind_eq_bind, Option.bind_some]
      rfl
  | some d =>
      have hmembers : ((metadataMember d :: entries.map TensorInfo.member).map Prod.fst).Nodup := by
        rw [List.map_cons, members_names]
        exact hnames
      have hdict : (headerObject (some d) entries).dict?
          = some (metadataMember d :: entries.map TensorInfo.member) :=
        congrArg some (dict_of_nodup hmembers)
      have hlookup : (metadataMember d :: entries.map TensorInfo.member).lookup "__metadata__"
          = some (metadataMember d).2 := List.lookup_cons_self
      have hpopped : (metadataMember d :: entries.map TensorInfo.member).filter
          (fun e => e.1 != "__metadata__") = entries.map TensorInfo.member := hkept
      have hread := readFileMetadata_member (hkeys d rfl)
      simp only [readEntries, hdict, hlookup, hread, hpopped, hentries, Option.bind_eq_bind,
        Option.bind_some]
      rfl

/-- **A header is read as the entries it was written for.** -/
theorem loads_headerText (hnames : ("__metadata__" :: entries.map TensorInfo.name).Nodup)
    (hkeys : ∀ d ∈ fileMetadata, (d.map Prod.fst).Nodup) (blanks : ℕ) :
    loads (headerText fileMetadata entries blanks) = some (fileMetadata, entries) := by
  have hblanks : ∀ c ∈ List.replicate blanks ' ', isBlank c = true := by
    intro c hc
    rw [List.eq_of_mem_replicate hc]
    rfl
  have hread := readEntries_headerObject hnames hkeys
  simp only [loads, headerText, decodeUtf8_encodeUtf8, Json.parse_print _ hblanks, hread,
    Option.bind_eq_bind, Option.bind_some]

end

end InstantTensor
