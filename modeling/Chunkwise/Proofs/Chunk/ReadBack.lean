import Chunkwise.Chunk.Json
import Chunkwise.Proofs.Named

/-!
# Chunks read back

A chunk that was written as JSON reads back. The entries of the chunk and those of its document share one object: an
entry is found there as the last one that was written (`field?_ofFields`), so the chunk finds its own entries
(`field?_written`) and the document what is left of its own (`ofFields?_written`). What a document says under the name
of an entry of the chunk is lost, and nothing else is: `chunks_read_back`.
-/

namespace Chunkwise

namespace Json

variable {fields : List (String × Json)} {name : String}

/-- The value of a field is what is found from behind. -/
theorem field?_eq_find? (fields : List (String × Json)) (name : String) :
    field? fields name = Named.find? name fields.reverse := by
  induction fields with
  | nil => rfl
  | cons f fields ih =>
    obtain ⟨k, v⟩ := f
    rw [field?, ih, List.reverse_cons, Named.find?_append]
    rfl

theorem field?_append (a b : List (String × Json)) (name : String) :
    field? (a ++ b) name = (field? b name).or (field? a name) := by
  rw [field?_eq_find?, field?_eq_find?, field?_eq_find?, List.reverse_append, Named.find?_append]

theorem field?_eq_none (h : ∀ f ∈ fields, f.1 ≠ name) : field? fields name = none := by
  rw [field?_eq_find?]
  exact Named.find?_eq_none fun f hf => h f (List.mem_reverse.1 hf)

/-- Where every name stands once, each field is found. -/
theorem field?_of_mem (hnodup : (fields.map (·.1)).Nodup) {f : String × Json} (hf : f ∈ fields) :
    field? fields f.1 = some f.2 := by
  have hreversed : (fields.reverse.map (·.1)).Nodup := by
    rw [List.map_reverse]
    exact (List.reverse_perm _).nodup_iff.2 hnodup
  rw [field?_eq_find?]
  exact Named.find?_of_nodup hreversed (List.mem_reverse.2 hf)

/-- Leaving out fields by name leaves the others. -/
theorem field?_filter (keep : String → Bool) (fields : List (String × Json)) (name : String) :
    field? (fields.filter fun f => keep f.1) name = if keep name then field? fields name else none := by
  rw [field?_eq_find?, field?_eq_find?, ← List.filter_reverse, Named.find?_filter]

/-- Of the fields that an object is made of, the last one of a name is its field. -/
theorem field?_ofFields (fields : List (String × Json)) (name : String) :
    field? (ofFields fields) name = field? fields name := by
  have hfold : ∀ done, field? (fields.foldl (fun done f => setField done f.1 f.2) done) name =
      (field? fields name).or (field? done name) := by
    induction fields with
    | nil => exact fun done => rfl
    | cons f fields ih =>
      intro done
      obtain ⟨k, v⟩ := f
      rw [List.foldl_cons, ih, field?, Option.or_assoc]
      congr 1
      by_cases hk : k = name
      · subst hk
        rw [field?_setField, if_pos rfl]
        rfl
      · rw [field?_setField_ne fun h => hk h.symm, if_neg hk]
        rfl
  rw [ofFields, hfold, field?, Option.or_none]

end Json

theorem Named.find?_ofList_fields (fields : List (String × Json)) (name : String) :
    Named.find? name (Named.ofList fields) = Json.field? fields name := by
  rw [Named.find?_ofList, Json.field?_eq_find?]

namespace Metadata

open Json

variable {m : Metadata} {name : String}

/-- The names that a document writes itself. -/
def ownNames : List String := ["file_path", "file_type"]

/-! ## What a document writes -/

theorem field?_extra_eq_none (hfree : ∀ e ∈ m.extra, e.1 ∉ ownNames) (h : name ∈ ownNames) :
    field? m.extra name = none :=
  field?_eq_none fun e he heq => hfree e he (heq ▸ h)

theorem field?_toFields_path (hfree : ∀ e ∈ m.extra, e.1 ∉ ownNames) :
    field? m.toFields "file_path" = some (.str m.filePath) := by
  rw [toFields, List.cons_append, field?, field?_append, field?_extra_eq_none hfree (by decide)]
  cases m.fileType <;> simp [field?]

theorem field?_toFields_type (hfree : ∀ e ∈ m.extra, e.1 ∉ ownNames) :
    field? m.toFields "file_type" = m.fileType.map .str := by
  rw [toFields, List.cons_append, field?, field?_append, field?_extra_eq_none hfree (by decide)]
  cases m.fileType <;> simp [field?]

/-- The further entries of a document are found as they are kept. -/
theorem field?_toFields_of_not_mem (hordered : Named.Ordered m.extra) (h : name ∉ ownNames) :
    field? m.toFields name = Named.find? name m.extra := by
  have hpath : ¬ "file_path" = name := fun heq => h (by simp [ownNames, ← heq])
  have htype : ¬ "file_type" = name := fun heq => h (by simp [ownNames, ← heq])
  have hextra : field? m.extra name = Named.find? name m.extra := by
    rw [field?_eq_find?, hordered.find?_reverse]
  rw [toFields, List.cons_append, field?, field?_append, hextra]
  cases m.fileType <;> simp [field?, hpath, htype]

end Metadata

namespace ChunkMetadata

open Json Metadata

variable {m : ChunkMetadata} {name : String}

/-- The entries of chunk and document, as they are written. -/
def written (m : ChunkMetadata) : List (String × Json) := ofFields (m.document.toFields ++ m.engineFields)

/-- The metadata without the further entries of the document that have names of the chunk. -/
def withoutShadowed (m : ChunkMetadata) : ChunkMetadata :=
  { m with document := { m.document with extra := m.document.extra.filter fun e => !engineNames.contains e.1 } }

/-! ## What is found in the object -/

theorem field?_engineFields_eq_none (h : name ∉ engineNames) : field? m.engineFields name = none := by
  apply field?_eq_none
  intro f hf heq
  have hmem : f.1 ∈ engineNames := engineFields_names m ▸ List.mem_map_of_mem hf
  exact h (heq ▸ hmem)

/-- An entry of the chunk is written over what the document says. -/
theorem field?_written {value : Json} (h : field? m.engineFields name = some value) :
    field? m.written name = some value := by
  rw [written, field?_ofFields, field?_append, h]
  rfl

/-- The entries that are left to the document are its own, but for those with names of the chunk. -/
theorem field?_written_filter (m : ChunkMetadata) (name : String) :
    field? (m.written.filter fun f => !engineNames.contains f.1) name =
      if name ∈ engineNames then none else field? m.document.toFields name := by
  rw [field?_filter fun n => !engineNames.contains n]
  by_cases h : name ∈ engineNames
  · simp [h]
  · rw [written, field?_ofFields, field?_append, field?_engineFields_eq_none h]
    simp [h]

/-- The further entries read back in their order, without those that have names of the chunk. -/
theorem ofList_written (hordered : Named.Ordered m.document.extra) (hfree : ∀ e ∈ m.document.extra, e.1 ∉ ownNames) :
    Named.ofList ((m.written.filter fun f => !engineNames.contains f.1).filter
      fun f => f.1 != "file_path" && f.1 != "file_type") = m.withoutShadowed.document.extra := by
  apply Named.Ordered.ext (Named.ordered_ofList _) (hordered.filter _)
  intro n
  rw [Named.find?_ofList_fields, field?_filter fun n => n != "file_path" && n != "file_type", field?_written_filter,
    Named.find?_filter fun n => !engineNames.contains n]
  by_cases hown : n ∈ ownNames
  · have hnone : Named.find? n m.document.extra = none :=
      Named.find?_eq_none fun e he heq => hfree e he (heq ▸ hown)
    have hskip : (n != "file_path" && n != "file_type") = false := by
      simp only [ownNames, List.mem_cons, List.not_mem_nil, or_false] at hown
      rcases hown with rfl | rfl <;> decide
    rw [hskip, hnone]
    simp
  · have hkeep : (n != "file_path" && n != "file_type") = true := by simpa [ownNames] using hown
    rw [hkeep, field?_toFields_of_not_mem hordered hown]
    by_cases hengine : n ∈ engineNames <;> simp [hengine]

/-- The document reads back, without the further entries that have names of the chunk. -/
theorem ofFields?_document (hordered : Named.Ordered m.document.extra)
    (hfree : ∀ e ∈ m.document.extra, e.1 ∉ ownNames) :
    Metadata.ofFields? (m.written.filter fun f => !engineNames.contains f.1) = some m.withoutShadowed.document := by
  have hpath : field? (m.written.filter fun f => !engineNames.contains f.1) "file_path" =
      some (.str m.document.filePath) := by
    rw [field?_written_filter, if_neg (by decide), field?_toFields_path hfree]
  have htype : field? (m.written.filter fun f => !engineNames.contains f.1) "file_type" =
      m.document.fileType.map .str := by
    rw [field?_written_filter, if_neg (by decide), field?_toFields_type hfree]
  rw [Metadata.ofFields?, hpath, htype, ofList_written hordered hfree]
  cases hfileType : m.document.fileType with
  | none => simp [str?, optional?, withoutShadowed, hfileType]
  | some type => simp [str?, optional?, withoutShadowed, hfileType]

/-- The metadata read back, without the further entries that have names of the chunk. -/
theorem ofFields?_written (hordered : Named.Ordered m.document.extra)
    (hfree : ∀ e ∈ m.document.extra, e.1 ∉ ownNames) : ofFields? m.written = some m.withoutShadowed := by
  have hnodup : (m.engineFields.map (·.1)).Nodup := engineFields_names m ▸ by decide
  have hfield : ∀ f ∈ m.engineFields, field? m.written f.1 = some f.2 := fun f hf =>
    field?_written (field?_of_mem hnodup hf)
  simp only [engineFields, List.forall_mem_cons] at hfield
  obtain ⟨hindex, htotal, hsize, htype, hlanguage, hsymbols, hdocumented, hchunker, hoversized, htruncated, hstartLine,
    hendLine, hstartByte, hendByte, htokens, -⟩ := hfield
  simp only [ofFields?, ofFields?_document hordered hfree, hindex, htotal, hsize, htype, hlanguage, hsymbols, hdocumented,
    hchunker, hoversized, htruncated, hstartLine, hendLine, hstartByte, hendByte, htokens]
  simp [withDefault?, name?, str?, bool?, ChunkType.ofName?_name, withoutShadowed]

end ChunkMetadata

namespace Chunk

open ChunkMetadata

/-- The chunk without the further entries of its document that have names of the chunk. -/
def withoutShadowed (c : Chunk) : Chunk := { c with metadata := c.metadata.withoutShadowed }

theorem withoutShadowed_eq_self {c : Chunk} (h : ∀ e ∈ c.metadata.document.extra, e.1 ∉ engineNames) :
    c.withoutShadowed = c := by
  have hall : c.metadata.document.extra.filter (fun e => !engineNames.contains e.1) = c.metadata.document.extra :=
    List.filter_eq_self.2 fun e he => by simpa using h e he
  rw [withoutShadowed, ChunkMetadata.withoutShadowed, hall]

/-- **A chunk reads back.** Of the further entries of its document, which are kept in the order of their names, those
with names of the chunk are lost, and no entry of the chunk is among them; without such entries the chunk is what it
was. -/
theorem chunks_read_back (c : Chunk) (hordered : Named.Ordered c.metadata.document.extra)
    (hfree : ∀ e ∈ c.metadata.document.extra, e.1 ∉ Metadata.ownNames) :
    ofJson? c.toJson = some c.withoutShadowed ∧
      (∀ e, e ∈ c.withoutShadowed.metadata.document.extra ↔
        e ∈ c.metadata.document.extra ∧ e.1 ∉ engineNames) ∧
      ((∀ e ∈ c.metadata.document.extra, e.1 ∉ engineNames) → ofJson? c.toJson = some c) := by
  have hread : ofJson? c.toJson = some c.withoutShadowed := by
    have hmetadata := ofFields?_written hordered hfree
    rw [written] at hmetadata
    simp [toJson, ofJson?, ofParts?, ChunkMetadata.toJson, Json.field?, Json.str?, Json.fields?, hmetadata,
      withoutShadowed]
  refine ⟨hread, fun e => ?_, fun hnone => ?_⟩
  · simp [withoutShadowed, ChunkMetadata.withoutShadowed]
  · rw [hread, withoutShadowed_eq_self hnone]

/-- An entry of a document, and one with a name of the chunk. -/
def mixedEntries : Named Json :=
  [("branch", .obj [("name", .str "main"), ("commits", .arr [.int 3, .null])]), ("chunk_index", .int 7)]

def shadowedChunk : Chunk :=
  { content := "fn f".toList
    metadata :=
      { document := { filePath := "a.rs", fileType := some ".rs", extra := mixedEntries }
        chunkIndex := 0, totalChunks := 1, chunkSize := 4, chunkType := .of .function, language := "rust",
        symbols := ["f"], containsDocumentation := false, chunker := "rust_chunker", oversized := false,
        truncated := false, startLine := 1, endLine := 1, startByte := 0, endByte := 4, estimatedTokens := 1 } }

/-- The entry with a name of the chunk is lost, and the chunk without it reads back. -/
theorem chunks_read_back_shadowed :
    ofJson? shadowedChunk.toJson = some shadowedChunk.withoutShadowed ∧
      shadowedChunk.withoutShadowed.metadata.document.extra = mixedEntries.take 1 ∧
      ofJson? shadowedChunk.withoutShadowed.toJson = some shadowedChunk.withoutShadowed := by
  have hextra : shadowedChunk.withoutShadowed.metadata.document.extra = mixedEntries.take 1 := rfl
  have hordered : Named.Ordered mixedEntries := by
    rw [Named.Ordered, mixedEntries]
    simp only [List.pairwise_cons, List.mem_singleton, forall_eq]
    decide
  have hfree : ∀ e ∈ mixedEntries, e.1 ∉ Metadata.ownNames := by simp [mixedEntries, Metadata.ownNames]
  have hbare : ∀ e ∈ mixedEntries.take 1, e.1 ∉ engineNames := by simp [mixedEntries, engineNames]
  have hshadowed := chunks_read_back shadowedChunk hordered hfree
  have hread := chunks_read_back shadowedChunk.withoutShadowed (hextra ▸ hordered.sublist (List.take_sublist 1 _))
    (hextra ▸ fun e he => hfree e (List.mem_of_mem_take he))
  exact ⟨hshadowed.1, hextra, hread.2.2 (hextra ▸ hbare)⟩

end Chunk
end Chunkwise
