import Chunkwise.Proofs.Engine.Dispatch
import Chunkwise.Proofs.Text.ByteOrder

/-!
# What registration keeps

An engine keeps the index of the chunker of each extension. Whatever chunkers are registered, with whatever extensions in
common, the index of an extension is that of the chunker registered last among those that claim it
(`Consistent`, `consistent_register`). What an engine says of its extensions is read off these indices: the chunker that
a document is given to (`Consistent.chunkerFor_eq`), the extensions that have a chunker, and those that each chunker
still has (`mem_chunkerInfo_iff`, `Consistent.mem_heldBy`). Together: `last_claim_owns`.
-/

namespace Chunkwise

/-- A chunker at an index that claims an extension, and no chunker behind it claims the extension. -/
structure LastClaim (chunkers : List Chunker) (ext : String) (index : Nat) (c : Chunker) : Prop where
  here : chunkers[index]? = some c
  claims : ext ∈ c.extensions
  last : ∀ j d, index < j → chunkers[j]? = some d → ext ∉ d.extensions

namespace LastClaim

variable {chunkers : List Chunker} {ext : String} {index i : Nat} {c d : Chunker}

theorem lt (h : LastClaim chunkers ext index c) : index < chunkers.length :=
  (List.getElem?_eq_some_iff.1 h.here).1

theorem mem (h : LastClaim chunkers ext index c) : c ∈ chunkers := List.mem_of_getElem? h.here

theorem getElem?_concat : (chunkers ++ [c])[index]? = some d ↔
    chunkers[index]? = some d ∨ (index = chunkers.length ∧ d = c) := by
  rw [List.getElem?_append]
  split
  · rename_i hlt
    simp [Nat.ne_of_lt hlt]
  · rename_i hge
    rw [List.getElem?_singleton, List.getElem?_eq_none (Nat.not_lt.1 hge)]
    split
    · rename_i hzero
      simp [show index = chunkers.length by omega, eq_comm]
    · rename_i hpos
      simp [show index ≠ chunkers.length by omega]

/-- One more chunker has the last claim on its extensions, and on the others what was the last claim still is. -/
theorem concat_iff : LastClaim (chunkers ++ [c]) ext index d ↔
    (ext ∈ c.extensions ∧ index = chunkers.length ∧ d = c) ∨ (ext ∉ c.extensions ∧ LastClaim chunkers ext index d) := by
  constructor
  · rintro ⟨hhere, hclaims, hlast⟩
    rcases getElem?_concat.1 hhere with hhere | ⟨rfl, rfl⟩
    · have hlt := (List.getElem?_eq_some_iff.1 hhere).1
      have hnot := hlast _ _ hlt (getElem?_concat.2 (Or.inr ⟨rfl, rfl⟩))
      exact Or.inr ⟨hnot, hhere, hclaims, fun j e hj he => hlast j e hj (getElem?_concat.2 (Or.inl he))⟩
    · exact Or.inl ⟨hclaims, rfl, rfl⟩
  · rintro (⟨hclaims, rfl, rfl⟩ | ⟨hnot, h⟩)
    · refine ⟨getElem?_concat.2 (Or.inr ⟨rfl, rfl⟩), hclaims, fun j e hj he => ?_⟩
      rcases getElem?_concat.1 he with he | ⟨rfl, -⟩
      · exact absurd (List.getElem?_eq_some_iff.1 he).1 (Nat.lt_asymm hj)
      · exact absurd hj (Nat.lt_irrefl _)
    · refine ⟨getElem?_concat.2 (Or.inl h.here), h.claims, fun j e hj he => ?_⟩
      rcases getElem?_concat.1 he with he | ⟨-, rfl⟩
      · exact h.last j e hj he
      · exact hnot

/-- There is one last claim on an extension. -/
theorem unique (h : LastClaim chunkers ext index c) (h' : LastClaim chunkers ext i d) : index = i ∧ c = d := by
  have hindex : index = i := by
    rcases Nat.lt_trichotomy index i with hlt | heq | hgt
    · exact absurd h'.claims (h.last i d hlt h'.here)
    · exact heq
    · exact absurd h.claims (h'.last index c hgt h.here)
  subst hindex
  exact ⟨rfl, Option.some.inj (h.here.symm.trans h'.here)⟩

end LastClaim

namespace Engine

variable {e : Engine} {ext path : String} {index : Nat} {c : Chunker}

/-! ## One registration, and all of them -/

/-- Whether the indices of an engine are those of the last claims. -/
structure Consistent (e : Engine) : Prop where
  ordered : Named.Ordered e.owners
  find?_iff : ∀ ext index, e.owners.find? ext = some index ↔ ∃ c, LastClaim e.chunkers ext index c

theorem consistent_empty (config : Config) (grammars : Grammars) : ({ config, grammars } : Engine).Consistent where
  ordered := List.Pairwise.nil
  find?_iff ext index := by
    constructor
    · intro h
      cases h
    · rintro ⟨c, h⟩
      exact absurd h.lt (Nat.not_lt_zero _)

/-- Registering a chunker keeps the indices those of the last claims. -/
theorem consistent_register (h : e.Consistent) (c : Chunker) : (e.register c).Consistent where
  ordered := Named.ordered_insertAll h.ordered _
  find?_iff ext index := by
    rw [find?_register, show (e.register c).chunkers = e.chunkers ++ [c] from rfl]
    simp only [LastClaim.concat_iff]
    by_cases hclaims : ext ∈ c.extensions
    · simp [hclaims, eq_comm]
    · simp [hclaims, h.find?_iff]

theorem consistent_foldl_register (h : e.Consistent) (chunkers : List Chunker) :
    (chunkers.foldl register e).Consistent := by
  induction chunkers generalizing e with
  | nil => exact h
  | cons c chunkers ih => exact ih (consistent_register h c)

theorem chunkers_foldl_register (e : Engine) (chunkers : List Chunker) :
    (chunkers.foldl register e).chunkers = e.chunkers ++ chunkers := by
  induction chunkers generalizing e with
  | nil => exact (List.append_nil _).symm
  | cons c chunkers ih =>
    rw [List.foldl_cons, ih]
    exact List.append_assoc _ _ _

namespace Consistent

theorem mem_owners_iff (h : e.Consistent) : (ext, index) ∈ e.owners ↔ ∃ c, LastClaim e.chunkers ext index c :=
  ⟨fun hmem => (h.find?_iff ext index).1 (h.ordered.find?_of_mem hmem),
    fun hlast => Named.mem_of_find? ((h.find?_iff ext index).2 hlast)⟩

/-! ## The chunker of an extension -/

theorem owner?_eq (h : e.Consistent) (hlast : LastClaim e.chunkers ext index c) : e.owner? ext = some c := by
  rw [owner?, (h.find?_iff ext index).2 ⟨c, hlast⟩, Option.bind_some, hlast.here]

/-- A file goes to the chunker with the last claim on its extension if the grammar that it needs is loaded, and to no
other one otherwise. -/
theorem chunkerFor_eq (h : e.Consistent) (henabled : e.config.enabled) (hparsing : e.config.useAstParsing)
    (hpath : Path.extension? path = some ext) (hlast : LastClaim e.chunkers ext index c) :
    e.chunkerFor path = if c.language.all e.grammars.isLoaded then c else Chunker.plain := by
  rw [chunkerFor, select, henabled, hparsing, hpath, Bool.and_self, if_pos rfl, Option.bind_some, usable?,
    h.owner?_eq hlast, Option.filter_some]
  split <;> rfl

theorem chunkerFor_eq_iff (h : e.Consistent) (henabled : e.config.enabled) (hparsing : e.config.useAstParsing)
    (hpath : Path.extension? path = some ext) (hlast : LastClaim e.chunkers ext index c) :
    e.chunkerFor path = c ↔ c.language.all e.grammars.isLoaded := by
  rw [h.chunkerFor_eq henabled hparsing hpath hlast]
  constructor
  · intro hc
    split at hc
    · assumption
    · -- The separators need no grammar.
      rw [← hc]
      rfl
  · exact fun hloaded => if_pos hloaded

theorem chunkerFor_of_not_claimed (h : e.Consistent) (hpath : Path.extension? path = some ext)
    (hnone : ∀ index c, ¬ LastClaim e.chunkers ext index c) : e.chunkerFor path = Chunker.plain := by
  have howner : e.owners.find? ext = none := by
    cases hfind : e.owners.find? ext with
    | none => rfl
    | some index =>
      obtain ⟨c, hlast⟩ := (h.find?_iff ext index).1 hfind
      exact absurd hlast (hnone index c)
  rw [chunkerFor, select, hpath, Option.bind_some, usable?, owner?, howner]
  split <;> rfl

/-! ## The extensions that have a chunker -/

theorem names_owners_pairwise (h : e.Consistent) : e.owners.names.Pairwise (· < ·) :=
  List.pairwise_map.2 h.ordered

theorem mem_supportedExtensions (h : e.Consistent) :
    ext ∈ e.supportedExtensions ↔ ∃ index c, LastClaim e.chunkers ext index c := by
  simp only [supportedExtensions, Named.names, List.mem_map, Prod.exists, exists_and_right, exists_eq_right,
    h.mem_owners_iff]

end Consistent

/-- Every extension that is claimed has a chunker. -/
theorem mem_supportedExtensions_foldl_register (e : Engine) (chunkers : List Chunker) (ext : String) :
    ext ∈ (chunkers.foldl register e).supportedExtensions ↔
      (∃ c ∈ chunkers, ext ∈ c.extensions) ∨ ext ∈ e.supportedExtensions := by
  induction chunkers generalizing e with
  | nil => simp
  | cons c chunkers ih =>
    have hnew : ext ∈ (e.register c).supportedExtensions ↔ ext ∈ c.extensions ∨ ext ∈ e.supportedExtensions :=
      Named.mem_names_insertAll.trans (or_congr_left (by simp [Named.names]))
    rw [List.foldl_cons, ih, hnew, ← or_assoc]
    refine or_congr_left ?_
    simp only [List.mem_cons, exists_eq_or_imp, or_comm]

/-! ## What each chunker still has -/

/-- The extensions of some entries whose chunkers have a name. -/
def heldBy (e : Engine) (name : String) (entries : Named Nat) : List String :=
  (entries.filter fun entry => e.chunkers[entry.2]?.any (·.name == name)).map (·.1)

/-- Takes down the extension of an entry under the name of its chunker. -/
def note (e : Engine) (info : Named (List String)) (entry : String × Nat) : Named (List String) :=
  match e.chunkers[entry.2]? with
  | none => info
  | some chunker => info.insert chunker.name (((Named.find? chunker.name info).getD []) ++ [entry.1])

theorem chunkerInfo_eq (e : Engine) : e.chunkerInfo = e.owners.foldl e.note [] := rfl

theorem ordered_foldl_note {info : Named (List String)} (h : Named.Ordered info) (entries : Named Nat) :
    Named.Ordered (entries.foldl e.note info) := by
  induction entries generalizing info with
  | nil => exact h
  | cons entry entries ih =>
    refine ih ?_
    rw [note]
    split
    · exact h
    · exact Named.ordered_insert h _ _

theorem heldBy_cons (e : Engine) (name : String) (entry : String × Nat) (entries : Named Nat) :
    e.heldBy name (entry :: entries) =
      (if e.chunkers[entry.2]?.any (·.name == name) then [entry.1] else []) ++ e.heldBy name entries := by
  rw [heldBy, List.filter_cons]
  split <;> rfl

theorem find?_foldl_note (e : Engine) (name : String) (entries : Named Nat) (info : Named (List String)) :
    (entries.foldl e.note info).find? name =
      if e.heldBy name entries = [] then info.find? name
      else some ((info.find? name).getD [] ++ e.heldBy name entries) := by
  induction entries generalizing info with
  | nil => rfl
  | cons entry entries ih =>
    rw [List.foldl_cons, ih, note, heldBy_cons]
    cases hchunker : e.chunkers[entry.2]? with
    | none => rfl
    | some chunker =>
      by_cases hname : chunker.name = name
      · subst hname
        by_cases hrest : e.heldBy chunker.name entries = []
        · simp [hrest, Named.find?_insert]
        · simp [hrest, Named.find?_insert]
      · simp [hname, Named.find?_insert_ne (Ne.symm hname)]

theorem ordered_chunkerInfo (e : Engine) : Named.Ordered e.chunkerInfo := by
  rw [chunkerInfo_eq]
  exact ordered_foldl_note List.Pairwise.nil e.owners

/-- The engine lists a chunker with the extensions that it holds, unless it holds none. -/
theorem mem_chunkerInfo_iff {name : String} {exts : List String} :
    (name, exts) ∈ e.chunkerInfo ↔ exts = e.heldBy name e.owners ∧ exts ≠ [] := by
  have hfind : e.chunkerInfo.find? name =
      if e.heldBy name e.owners = [] then none else some (e.heldBy name e.owners) := by
    rw [chunkerInfo_eq]
    exact find?_foldl_note e name e.owners []
  have hmem : (name, exts) ∈ e.chunkerInfo ↔ e.chunkerInfo.find? name = some exts :=
    ⟨(ordered_chunkerInfo e).find?_of_mem, Named.mem_of_find?⟩
  rw [hmem, hfind]
  by_cases hnil : e.heldBy name e.owners = []
  · simp [hnil]
  · simp only [hnil, if_false, Option.some.injEq]
    exact ⟨fun h => ⟨h.symm, h ▸ hnil⟩, fun h => h.1.symm⟩

namespace Consistent

variable {name : String}

theorem heldBy_pairwise (h : e.Consistent) (name : String) : (e.heldBy name e.owners).Pairwise (· < ·) :=
  h.names_owners_pairwise.sublist (List.filter_sublist.map _)

/-- A name holds the extensions with a last claim of a chunker of that name. -/
theorem mem_heldBy (h : e.Consistent) :
    ext ∈ e.heldBy name e.owners ↔ ∃ index c, LastClaim e.chunkers ext index c ∧ c.name = name := by
  constructor
  · intro hmem
    obtain ⟨⟨ext, index⟩, hentry, rfl⟩ := List.mem_map.1 hmem
    obtain ⟨howner, hname⟩ := List.mem_filter.1 hentry
    obtain ⟨c, hlast⟩ := h.mem_owners_iff.1 howner
    rw [hlast.here, Option.any_some, beq_iff_eq] at hname
    exact ⟨index, c, hlast, hname⟩
  · rintro ⟨index, c, hlast, rfl⟩
    refine List.mem_map.2 ⟨(ext, index), List.mem_filter.2 ⟨h.mem_owners_iff.2 ⟨c, hlast⟩, ?_⟩, rfl⟩
    rw [hlast.here, Option.any_some, beq_iff_eq]

/-- No extension is listed under two names. -/
theorem eq_of_mem_heldBy (h : e.Consistent) {other : String} (hname : ext ∈ e.heldBy name e.owners)
    (hother : ext ∈ e.heldBy other e.owners) : name = other := by
  obtain ⟨i, c, hc, rfl⟩ := h.mem_heldBy.1 hname
  obtain ⟨j, d, hd, rfl⟩ := h.mem_heldBy.1 hother
  rw [(hc.unique hd).2]

/-- Where names are not shared, what a name holds are the extensions on which its chunker has the last claim. -/
theorem mem_heldBy_of_nodup (h : e.Consistent) (hnodup : (e.chunkers.map (·.name)).Nodup)
    (hc : e.chunkers[index]? = some c) :
    ext ∈ e.heldBy c.name e.owners ↔ LastClaim e.chunkers ext index c := by
  rw [h.mem_heldBy]
  constructor
  · rintro ⟨i, d, hlast, hname⟩
    have hd : (e.chunkers.map (·.name))[i]? = (e.chunkers.map (·.name))[index]? := by
      rw [List.getElem?_map, List.getElem?_map, hlast.here, hc, Option.map_some, Option.map_some, hname]
    have hlt : i < (e.chunkers.map (·.name)).length := by
      rw [List.length_map]
      exact hlast.lt
    obtain rfl : i = index := (List.getElem?_inj hlt hnodup).1 hd
    obtain rfl := Option.some.inj (hc.symm.trans hlast.here)
    exact hlast
  · exact fun hlast => ⟨index, c, hlast, rfl⟩

/-! ## The lists under the names -/

theorem pairwise_of_mem_chunkerInfo (h : e.Consistent) {entry : String × List String} (hentry : entry ∈ e.chunkerInfo) :
    entry.2.Pairwise (· < ·) := by
  rw [(mem_chunkerInfo_iff.1 hentry).1]
  exact h.heldBy_pairwise _

theorem pairwise_chunkerInfo (h : e.Consistent) :
    e.chunkerInfo.Pairwise fun a b => ∀ ext, ext ∈ a.2 → ext ∉ b.2 := by
  refine List.Pairwise.imp_of_mem (fun {a b} ha hb hlt ext hexta hextb => ?_) (ordered_chunkerInfo e)
  rw [(mem_chunkerInfo_iff.1 ha).1] at hexta
  rw [(mem_chunkerInfo_iff.1 hb).1] at hextb
  rw [h.eq_of_mem_heldBy hexta hextb] at hlt
  exact String.lt_irrefl _ hlt

/-- What is listed under the names are the extensions that have a chunker. -/
theorem mem_supportedExtensions_iff_listed (h : e.Consistent) :
    ext ∈ e.supportedExtensions ↔ ∃ entry ∈ e.chunkerInfo, ext ∈ entry.2 := by
  rw [h.mem_supportedExtensions]
  constructor
  · rintro ⟨index, c, hlast⟩
    have hheld : ext ∈ e.heldBy c.name e.owners := h.mem_heldBy.2 ⟨index, c, hlast, rfl⟩
    exact ⟨(c.name, _), mem_chunkerInfo_iff.2 ⟨rfl, List.ne_nil_of_mem hheld⟩, hheld⟩
  · rintro ⟨entry, hentry, hext⟩
    rw [(mem_chunkerInfo_iff.1 hentry).1, h.mem_heldBy] at hext
    obtain ⟨index, c, hlast, -⟩ := hext
    exact ⟨index, c, hlast⟩

/-- Where names are not shared, a list is that of one chunker. -/
theorem exists_chunker_of_mem_chunkerInfo (h : e.Consistent) (hnodup : (e.chunkers.map (·.name)).Nodup)
    {entry : String × List String} (hentry : entry ∈ e.chunkerInfo) :
    ∃ index c, e.chunkers[index]? = some c ∧ c.name = entry.1 ∧
      ∀ ext, ext ∈ entry.2 ↔ LastClaim e.chunkers ext index c := by
  obtain ⟨hheld, hne⟩ := mem_chunkerInfo_iff.1 hentry
  obtain ⟨ext, hext⟩ := List.exists_mem_of_ne_nil _ hne
  rw [hheld, h.mem_heldBy] at hext
  obtain ⟨index, c, hlast, hname⟩ := hext
  refine ⟨index, c, hlast.here, hname, fun ext => ?_⟩
  rw [hheld, ← hname, h.mem_heldBy_of_nodup hnodup hlast.here]

end Consistent

/-- **The last claim on an extension counts.** Whatever chunkers are registered, the index kept for an extension is that
of the chunker registered last among those that claim it. Where grammars are used, a file goes to that chunker exactly
if it needs no grammar or its grammar is loaded, and to the separators otherwise. The extensions that have a chunker are
those that some chunker claims, in the order of their bytes. If no two chunkers have the same name, the extensions
listed with the names are in that order as well, no extension is listed twice, those listed are the ones that have a
chunker, and each chunker is listed with those on which it has the last claim. -/
theorem last_claim_owns (config : Config) (grammars : Grammars) (chunkers : List Chunker) :
    let e := chunkers.foldl register { config, grammars }
    e.chunkers = chunkers ∧
      (∀ ext index, (ext, index) ∈ e.owners ↔ ∃ c, LastClaim chunkers ext index c) ∧
      (config.enabled → config.useAstParsing → ∀ path ext, Path.extension? path = some ext →
        (∀ index c, LastClaim chunkers ext index c →
          (e.chunkerFor path = c ↔ c.language.all grammars.isLoaded) ∧
            (¬ c.language.all grammars.isLoaded → e.chunkerFor path = Chunker.plain)) ∧
        ((∀ c ∈ chunkers, ext ∉ c.extensions) → e.chunkerFor path = Chunker.plain)) ∧
      (e.supportedExtensions.Pairwise (fun a b => bytesOf a < bytesOf b) ∧
        ∀ ext, ext ∈ e.supportedExtensions ↔ ∃ c ∈ chunkers, ext ∈ c.extensions) ∧
      ((chunkers.map (·.name)).Nodup →
        (∀ entry ∈ e.chunkerInfo, entry.2.Pairwise (fun a b => bytesOf a < bytesOf b)) ∧
          e.chunkerInfo.Pairwise (fun a b => ∀ ext, ext ∈ a.2 → ext ∉ b.2) ∧
          (∀ ext, ext ∈ e.supportedExtensions ↔ ∃ entry ∈ e.chunkerInfo, ext ∈ entry.2) ∧
          ∀ entry ∈ e.chunkerInfo, ∃ index c, chunkers[index]? = some c ∧ c.name = entry.1 ∧
            ∀ ext, ext ∈ entry.2 ↔ LastClaim chunkers ext index c) := by
  intro e
  have h : e.Consistent := consistent_foldl_register (consistent_empty config grammars) chunkers
  have hchunkers : e.chunkers = chunkers := chunkers_foldl_register _ chunkers
  obtain ⟨hconfig, hgrammars⟩ : e.config = config ∧ e.grammars = grammars := config_foldl_register chunkers _
  have hsupported : ∀ ext, ext ∈ e.supportedExtensions ↔ ∃ c ∈ chunkers, ext ∈ c.extensions := fun ext =>
    (mem_supportedExtensions_foldl_register _ chunkers ext).trans (or_iff_left List.not_mem_nil)
  refine ⟨hchunkers, fun ext index => hchunkers ▸ h.mem_owners_iff, ?_, ⟨?_, hsupported⟩, fun hnodup => ?_⟩
  · intro henabled hparsing path ext hpath
    refine ⟨fun index c hlast => ?_, fun hnone => ?_⟩
    · rw [← hconfig] at henabled hparsing
      rw [← hchunkers] at hlast
      rw [← hgrammars]
      refine ⟨h.chunkerFor_eq_iff henabled hparsing hpath hlast, fun hunloaded => ?_⟩
      rw [h.chunkerFor_eq henabled hparsing hpath hlast, if_neg hunloaded]
    · refine h.chunkerFor_of_not_claimed hpath fun index c hlast => ?_
      rw [hchunkers] at hlast
      exact hnone c hlast.mem hlast.claims
  · exact h.names_owners_pairwise.imp lt_iff_bytesOf_lt.1
  · refine ⟨fun entry hentry => (h.pairwise_of_mem_chunkerInfo hentry).imp lt_iff_bytesOf_lt.1, h.pairwise_chunkerInfo,
      fun ext => h.mem_supportedExtensions_iff_listed, fun entry hentry => ?_⟩
    have hlisted := h.exists_chunker_of_mem_chunkerInfo (hchunkers.symm ▸ hnodup) hentry
    rwa [hchunkers] at hlisted

/-- A chunker that needs no grammar. -/
def earlyChunker : Chunker := { Chunker.plain with name := "early", extensions := ["py", "zzz"] }

/-- A chunker that takes over one extension of the other and needs a grammar. -/
def lateChunker : Chunker := { Chunker.plain with name := "late", extensions := ["py"], language := some .go }

/-- Where the grammar is not loaded, the extension does not go back to the first chunker. -/
theorem last_claim_owns_late :
    let e := [earlyChunker, lateChunker].foldl register { config := .default, grammars := {} }
    Config.default.enabled ∧ Config.default.useAstParsing ∧
      Path.extension? "a.py" = some "py" ∧ Path.extension? "a.zzz" = some "zzz" ∧
      LastClaim [earlyChunker, lateChunker] "py" 1 lateChunker ∧
      LastClaim [earlyChunker, lateChunker] "zzz" 0 earlyChunker ∧
      e.chunkerFor "a.py" = Chunker.plain ∧ e.chunkerFor "a.zzz" = earlyChunker ∧
      ([earlyChunker, lateChunker].map (·.name)).Nodup ∧
      ∃ entry ∈ e.chunkerInfo, "py" ∈ entry.2 ∧ "zzz" ∉ entry.2 := by
  intro e
  have hpy : Path.extension? "a.py" = some "py" := by decide +kernel
  have hzzz : Path.extension? "a.zzz" = some "zzz" := by decide +kernel
  have hlate : LastClaim [earlyChunker, lateChunker] "py" 1 lateChunker := by
    refine ⟨rfl, by decide, fun j d hj hd => ?_⟩
    have hlt : j < 2 := (List.getElem?_eq_some_iff.1 hd).1
    omega
  have hearly : LastClaim [earlyChunker, lateChunker] "zzz" 0 earlyChunker := by
    refine ⟨rfl, by decide, fun j d hj hd => ?_⟩
    have hlt : j < 2 := (List.getElem?_eq_some_iff.1 hd).1
    obtain rfl : j = 1 := by omega
    cases hd
    decide
  have hnames : ([earlyChunker, lateChunker].map (·.name)).Nodup := by decide
  obtain ⟨-, -, hdispatch, ⟨-, hsupported⟩, hlisted⟩ := last_claim_owns .default {} [earlyChunker, lateChunker]
  have hcut := (hdispatch rfl rfl "a.py" "py" hpy).1 1 lateChunker hlate
  have hkept := (hdispatch rfl rfl "a.zzz" "zzz" hzzz).1 0 earlyChunker hearly
  obtain ⟨-, -, hall, hexact⟩ := hlisted hnames
  refine ⟨rfl, rfl, hpy, hzzz, hlate, hearly, hcut.2 (by decide), hkept.1.2 (by decide), hnames, ?_⟩
  obtain ⟨entry, hentry, hext⟩ := (hall "py").1 ((hsupported "py").2 ⟨lateChunker, by simp, by decide⟩)
  obtain ⟨index, c, -, -, hlast⟩ := hexact entry hentry
  obtain ⟨rfl, rfl⟩ := ((hlast "py").1 hext).unique hlate
  refine ⟨entry, hentry, hext, fun hother => ?_⟩
  exact absurd (((hlast "zzz").1 hother).unique hearly).1 (by decide)

end Engine
end Chunkwise
