import Chunkwise.Engine

/-!
# Batches keep documents apart

What becomes of a batch is what becomes of each of its documents by itself, in their order: the chunks of those that
succeed (`chunks_chunkAll`) and a record of every other (`skipped_chunkAll`). A document among others therefore keeps
its chunks, and a document that fails takes none away (`chunkAll_among`). The same comes of a batch whose documents are
done in another order, since each result has the place of its document (`getElem?_foldl_fill`, `chunkAllShared_eq`).
Together: `batches_keep_documents_apart`.
-/

namespace Chunkwise
namespace Engine

variable {e : Engine} {document : Document}

/-- The chunks of a document by itself, if it does not fail. -/
def chunksOf? (e : Engine) (document : Document) : Option (List Chunk) := (e.chunkDocument document).toOption

/-- The record of a document by itself, if it fails. -/
def recordOf? (e : Engine) (document : Document) : Option Skipped :=
  match e.chunkDocument document with
  | .ok _ => none
  | .error failure => some ⟨document.metadata.filePath, failure.reason⟩

/-- A document has chunks or a record, and not both. -/
theorem chunks_or_record (e : Engine) (document : Document) :
    (∃ chunks, e.chunksOf? document = some chunks ∧ e.recordOf? document = none) ∨
      ∃ reason, e.chunksOf? document = none ∧
        e.recordOf? document = some ⟨document.metadata.filePath, reason⟩ := by
  unfold chunksOf? recordOf?
  cases e.chunkDocument document with
  | ok chunks => exact Or.inl ⟨chunks, rfl, rfl⟩
  | error failure => exact Or.inr ⟨failure.reason, rfl, rfl⟩

/-! ## In order -/

theorem chunkAll_cons (e : Engine) (document : Document) (documents : List Document) :
    e.chunkAll (document :: documents) = .add (e.isolated document) (e.chunkAll documents) := rfl

/-- The chunks of a batch are those of its documents. -/
theorem chunks_chunkAll (e : Engine) (documents : List Document) :
    (e.chunkAll documents).chunks = (documents.filterMap e.chunksOf?).flatten := by
  induction documents with
  | nil => rfl
  | cons d documents ih =>
    rw [chunkAll_cons, isolated]
    cases hd : e.chunkDocument d with
    | ok chunks =>
      have hchunks : e.chunksOf? d = some chunks := by rw [chunksOf?, hd]; rfl
      rw [List.filterMap_cons_some hchunks, List.flatten_cons, ← ih]
      rfl
    | error failure =>
      have hchunks : e.chunksOf? d = none := by rw [chunksOf?, hd]; rfl
      rw [List.filterMap_cons_none hchunks, ← ih]
      rfl

/-- The documents that a batch leaves out are those that fail. -/
theorem skipped_chunkAll (e : Engine) (documents : List Document) :
    (e.chunkAll documents).skipped = documents.filterMap e.recordOf? := by
  induction documents with
  | nil => rfl
  | cons d documents ih =>
    rw [chunkAll_cons, isolated]
    cases hd : e.chunkDocument d with
    | ok chunks =>
      have hrecord : e.recordOf? d = none := by rw [recordOf?, hd]
      rw [List.filterMap_cons_none hrecord, ← ih]
      rfl
    | error failure =>
      have hrecord : e.recordOf? d = some ⟨d.metadata.filePath, failure.reason⟩ := by rw [recordOf?, hd]
      rw [List.filterMap_cons_some hrecord, ← ih]
      rfl

/-- Every document of a batch counts once. -/
theorem length_chunkAll (e : Engine) (documents : List Document) :
    (documents.filterMap e.chunksOf?).length + (e.chunkAll documents).skipped.length = documents.length := by
  rw [skipped_chunkAll]
  induction documents with
  | nil => rfl
  | cons d documents ih =>
    rcases chunks_or_record e d with ⟨chunks, hchunks, hrecord⟩ | ⟨reason, hchunks, hrecord⟩
    · rw [List.filterMap_cons_some hchunks, List.filterMap_cons_none hrecord, List.length_cons, List.length_cons]
      omega
    · rw [List.filterMap_cons_none hchunks, List.filterMap_cons_some hrecord, List.length_cons, List.length_cons]
      omega

/-- Among others a document adds its own chunks, or its record, and leaves what becomes of the others. -/
theorem chunkAll_among (e : Engine) (before after : List Document) (document : Document) :
    e.chunkAll (before ++ document :: after) =
      ⟨(e.chunkAll before).chunks ++ (e.chunksOf? document).getD [] ++ (e.chunkAll after).chunks,
        (e.chunkAll before).skipped ++ (e.recordOf? document).toList ++ (e.chunkAll after).skipped⟩ := by
  have hone : e.chunkAll [document] = ⟨(e.chunksOf? document).getD [], (e.recordOf? document).toList⟩ := by
    rw [chunkAll_cons, isolated, chunksOf?, recordOf?]
    cases e.chunkDocument document with
    | ok chunks => simp [Outcome.add, chunkAll, Outcome.ofResults, Except.toOption]
    | error failure => rfl
  rw [show before ++ document :: after = before ++ [document] ++ after by simp, chunkAll_append, chunkAll_append, hone]
  rfl

/-! ## In another order -/

/-- After some documents have been done, their results have their places, and the other places are as before. -/
theorem getElem?_foldl_fill (e : Engine) (documents : List Document) (order : List Nat)
    (places : List (Option (Except Skipped (List Chunk)))) (hlength : places.length = documents.length) (i : Nat) :
    (order.foldl (e.fill documents) places)[i]? =
      if i ∈ order ∧ i < documents.length then some (documents[i]?.map e.isolated) else places[i]? := by
  induction order generalizing places with
  | nil => simp
  | cons j order ih =>
    have hfilled : (e.fill documents places j).length = documents.length := by rw [fill, List.length_set, hlength]
    rw [List.foldl_cons, ih _ hfilled]
    by_cases hrest : i ∈ order ∧ i < documents.length
    · rw [if_pos hrest, if_pos ⟨List.mem_cons_of_mem _ hrest.1, hrest.2⟩]
    · rw [if_neg hrest, fill, List.getElem?_set, hlength]
      by_cases hij : j = i
      · subst hij
        by_cases hlt : j < documents.length
        · simp [hlt]
        · simp [hlt, hlength]
      · have hmem : ¬ (i ∈ j :: order ∧ i < documents.length) := by
          rintro ⟨hi, hlt⟩
          rcases List.mem_cons.1 hi with rfl | hi
          · exact hij rfl
          · exact hrest ⟨hi, hlt⟩
        rw [if_neg hij, if_neg hmem]

/-- It makes no difference in which order the documents are done. -/
theorem chunkAllShared_eq (e : Engine) (documents : List Document) (order : List Nat)
    (hdone : ∀ i, i < documents.length → i ∈ order) : e.chunkAllShared order documents = e.chunkAll documents := by
  have hplaces : order.foldl (e.fill documents) (List.replicate documents.length none) =
      documents.map fun d => some (e.isolated d) := by
    apply List.ext_getElem?
    intro i
    rw [getElem?_foldl_fill e documents order _ List.length_replicate, List.getElem?_map]
    by_cases hlt : i < documents.length
    · rw [if_pos ⟨hdone i hlt, hlt⟩, List.getElem?_eq_getElem hlt]
      rfl
    · have hnone : (List.replicate documents.length none)[i]? = (none : Option (Option (Except Skipped (List Chunk)))) :=
        List.getElem?_eq_none (by simpa using hlt)
      rw [if_neg fun h => hlt h.2, List.getElem?_eq_none (Nat.le_of_not_lt hlt), hnone]
      rfl
  rw [chunkAllShared, chunkAll, hplaces, List.filterMap_map]
  exact congrArg Outcome.ofResults (congrFun List.filterMap_eq_map documents)

/-- **Batches keep documents apart.** The chunks of a batch are those of the documents that succeed, in order, and the
records are those of all others, with their paths; every document has one or the other, and counts once. Batches add
up, so that a document keeps its chunks, with their numbers, whatever stands before and after it. Moving documents
moves what becomes of them, and it makes no difference in which order they are done. -/
theorem batches_keep_documents_apart (e : Engine) (documents : List Document) :
    (e.chunkAll documents).chunks = (documents.filterMap e.chunksOf?).flatten ∧
      (e.chunkAll documents).skipped = documents.filterMap e.recordOf? ∧
      (∀ document, (∃ chunks, e.chunksOf? document = some chunks ∧ e.recordOf? document = none) ∨
        ∃ reason, e.chunksOf? document = none ∧
          e.recordOf? document = some ⟨document.metadata.filePath, reason⟩) ∧
      (documents.filterMap e.chunksOf?).length + (e.chunkAll documents).skipped.length = documents.length ∧
      (∀ a b, e.chunkAll (a ++ b) = (e.chunkAll a).append (e.chunkAll b)) ∧
      (∀ before after document, e.chunkAll (before ++ document :: after) =
        ⟨(e.chunkAll before).chunks ++ (e.chunksOf? document).getD [] ++ (e.chunkAll after).chunks,
          (e.chunkAll before).skipped ++ (e.recordOf? document).toList ++ (e.chunkAll after).skipped⟩) ∧
      (∀ others, documents.Perm others → (e.chunkAll documents).chunks.Perm (e.chunkAll others).chunks ∧
        (e.chunkAll documents).skipped.Perm (e.chunkAll others).skipped) ∧
      ∀ order : List Nat, (∀ i, i < documents.length → i ∈ order) →
        e.chunkAllShared order documents = e.chunkAll documents := by
  refine ⟨chunks_chunkAll e documents, skipped_chunkAll e documents, chunks_or_record e, length_chunkAll e documents,
    chunkAll_append e, chunkAll_among e, fun others hperm => ?_, chunkAllShared_eq e documents⟩
  rw [chunks_chunkAll, chunks_chunkAll, skipped_chunkAll, skipped_chunkAll]
  exact ⟨(hperm.filterMap _).flatten, hperm.filterMap _⟩

/-- An engine with a limit of ten bytes, and a chunker that breaks down. -/
def fragileEngine : Engine :=
  ({ config := { Config.default with maxFileSizeMb := 0.00001 }, grammars := {} } : Engine).register
    ⟨"fragile", ["boom"], none, fun _ _ => .error (.breakdown (some "out of order"))⟩

/-- Documents that succeed beside one that breaks the chunker and one that is too large. -/
def mixedDocuments : List Document :=
  [⟨"first".toList, { filePath := "a.txt" }⟩, ⟨"second".toList, { filePath := "b.boom" }⟩,
   ⟨"third but long".toList, { filePath := "c.txt" }⟩, ⟨"fourth".toList, { filePath := "d.txt" }⟩]

theorem batches_keep_documents_apart_mixed :
    (∀ i, i < mixedDocuments.length → i ∈ [2, 0, 3, 1]) ∧
      fragileEngine.chunkAllShared [2, 0, 3, 1] mixedDocuments = fragileEngine.chunkAll mixedDocuments ∧
      (fragileEngine.chunkAll mixedDocuments).chunks.map (fun c => (c.content, c.metadata.document.filePath)) =
        [("first".toList, "a.txt"), ("fourth".toList, "d.txt")] ∧
      (fragileEngine.chunkAll mixedDocuments).skipped =
        [⟨"b.boom", "chunker panicked: out of order"⟩,
         ⟨"c.txt", "Document c.txt is too large: 14 bytes (limit 10 bytes)"⟩] := by
  have happart := batches_keep_documents_apart fragileEngine mixedDocuments
  have hdone : ∀ i, i < mixedDocuments.length → i ∈ [2, 0, 3, 1] := by decide
  refine ⟨hdone, happart.2.2.2.2.2.2.2 _ hdone, ?_, ?_⟩
  · decide +kernel
  · decide +kernel

end Engine
end Chunkwise
