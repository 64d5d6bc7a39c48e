import Chunkwise.Proofs.Config.Overlay

/-!
# Configurations read back

A configuration is written as an object with all of its fields and read in two ways: as a configuration, where a missing
field has its default, and as a file, where a missing field stays open. Both find every field as it was written
(`Config.ofSetting?_toJson`, `FileConfig.ofSetting?_toJson`), and laid over the defaults a file that was written from a
configuration adds the default strategies to those it has (`FileConfig.mem_overlay_strategies`).
-/

namespace Chunkwise

/-- A finite number is not infinite. -/
theorem isInf_of_isFinite {x : Float} (h : x.isFinite) : x.isInf = false := by
  rw [Float.isFinite, Float.Model.isFinite] at h
  rw [Float.isInf, Float.Model.isInf]
  cases hx : x.toModel.unpack with
  | zero => rfl
  | finite => rfl
  | infinity => rw [hx] at h; cases h
  | notANumber => rw [hx] at h; cases h

namespace Named

variable {α β : Type} {map : Named α}

/-- Entries in order are in their places. -/
theorem Ordered.ofList_eq (h : Ordered map) : ofList map = map := by
  refine (ordered_ofList map).ext h fun name => ?_
  rw [ofList, find?_insertAll, h.find?_reverse, find?, Option.or_none]

/-- Entries over others are those, and the others of other names. -/
theorem Ordered.mem_insertAll {entries : Named α} (hentries : Ordered entries) (hmap : Ordered map) {e : String × α} :
    e ∈ insertAll entries map ↔ e ∈ entries ∨ (e ∈ map ∧ ∀ f ∈ entries, f.1 ≠ e.1) := by
  have hfind : find? e.1 (insertAll entries map) = (find? e.1 entries).or (find? e.1 map) := by
    rw [find?_insertAll, hentries.find?_reverse]
  constructor
  · intro he
    have hfound := (ordered_insertAll hmap entries).find?_of_mem he
    rw [hfind, Option.or_eq_some_iff] at hfound
    rcases hfound with hfound | ⟨hnone, hfound⟩
    · exact Or.inl (mem_of_find? hfound)
    · refine Or.inr ⟨mem_of_find? hfound, fun f hf heq => ?_⟩
      have hvalue := hentries.find?_of_mem (heq ▸ hf : (e.1, f.2) ∈ entries)
      rw [hnone] at hvalue
      cases hvalue
  · rintro (he | ⟨he, hne⟩)
    · rw [hentries.find?_of_mem he, Option.some_or] at hfind
      exact mem_of_find? hfind
    · rw [find?_eq_none hne, Option.none_or, hmap.find?_of_mem he] at hfind
      exact mem_of_find? hfind

/-- What is written entry by entry reads back entry by entry. -/
theorem mapM_entries (encode : α → β) {decode : β → Option α} (h : ∀ a, decode (encode a) = some a) (map : Named α) :
    (map.map fun e => (e.1, encode e.2)).mapM (fun e => (decode e.2).map (e.1, ·)) = some map := by
  induction map with
  | nil => rfl
  | cons e map ih => simp [List.mapM_cons, h, ih]

end Named

/-! ## Fields -/

namespace Json

/-- What the fields of an object say, field by field. -/
theorem toEntries_eq_map (fields : List (String × Json)) :
    toEntries fields = fields.map fun f => (f.1, f.2.toSetting) := by
  induction fields with
  | nil => rw [toEntries, List.map_nil]
  | cons f fields ih => rw [toEntries, ih, List.map_cons]

@[simp] theorem bool?_toSetting (b : Bool) : (bool b).toSetting.bool? = some b := by
  rw [toSetting]
  rfl

@[simp] theorem count?_toSetting (n : Nat) : (count n).toSetting.count? = some n := by
  rw [count, toSetting, Setting.count?, intReadings]
  simp

theorem number?_toSetting {x : Float} (h : x.isFinite) : (float x).toSetting.number? = some x := by
  rw [toSetting, Setting.number?, floatReadings, isInf_of_isFinite h]
  rfl

/-- Only the value that is not there stands for one. -/
theorem isAbsent_toSetting {v : Json} (h : v ≠ null) : v.toSetting.isAbsent = false := by
  cases v with
  | null => exact absurd rfl h
  | bool | int | float | str | arr | obj => rw [toSetting]; rfl

end Json

namespace Setting

variable {entries : List (String × Setting)}

theorem doubled_eq_false (h : (entries.map (·.1)).Nodup) (name : String) : doubled entries name = false := by
  have hcount : (entries.map (·.1)).count name ≤ 1 := List.nodup_iff_count.1 h name
  rw [List.count, List.countP_map] at hcount
  exact decide_eq_false (Nat.not_lt.2 hcount)

/-- An object whose names stand once each is a record of its fields. -/
theorem record?_obj {fields : List (String × Json)} (h : (fields.map (·.1)).Nodup) (names : List String) :
    record? names (Json.obj fields).toSetting = some (valueOf? (fields.map fun f => (f.1, f.2.toSetting))) := by
  rw [Json.toSetting, Json.toEntries_eq_map]
  refine record?_table fun name _ => doubled_eq_false ?_ name
  rwa [List.map_map]

end Setting

/-! ## Records -/

/-- A strategy reads back. -/
theorem Strategy.ofSetting?_toJson (s : Strategy) : Strategy.ofSetting? s.toJson.toSetting = some s := by
  rw [Strategy.ofSetting?, Strategy.toJson, Setting.record?_obj (by simp)]
  simp [Setting.valueOf?, Setting.field?]

/-- Fallback sizes read back. -/
theorem FallbackSizes.ofSetting?_toJson (f : FallbackSizes) : FallbackSizes.ofSetting? f.toJson.toSetting = some f := by
  rw [FallbackSizes.ofSetting?, FallbackSizes.toJson, Setting.record?_obj (by simp)]
  simp [Setting.valueOf?, Setting.field?]

namespace Config

variable {c : Config}

/-- Strategies read back if they are in order. -/
theorem strategiesOf?_toSetting {strategies : Named Strategy} (h : Named.Ordered strategies) :
    strategiesOf? (Json.obj (strategies.map fun e => (e.1, e.2.toJson))).toSetting = some strategies := by
  have hentries : (strategies.map fun e => (e.1, e.2.toJson.toSetting)).mapM
      (fun e => (Strategy.ofSetting? e.2).map (e.1, ·)) = some strategies :=
    Named.mapM_entries (fun s : Strategy => s.toJson.toSetting) Strategy.ofSetting?_toJson strategies
  rw [strategiesOf?, Json.toSetting, Json.toEntries_eq_map, List.map_map]
  simp only [Setting.entries?, Option.bind_eq_bind, Option.bind_some]
  rw [show (fun f : String × Json => (f.1, f.2.toSetting)) ∘ (fun e : String × Strategy => (e.1, e.2.toJson)) =
    fun e => (e.1, e.2.toJson.toSetting) from rfl, hentries, Option.bind_some, h.ofList_eq]

/-- The fields of a configuration as a record. -/
theorem record?_toJson (c : Config) : c.toJson.toSetting.record? fieldNames =
    some (Setting.valueOf?
      [("enabled", (Json.bool c.enabled).toSetting),
       ("fallback", c.fallback.toJson.toSetting),
       ("max_file_size_mb", (Json.float c.maxFileSizeMb).toSetting),
       ("strategies", (Json.obj (c.strategies.map fun e => (e.1, e.2.toJson))).toSetting),
       ("use_ast_parsing", (Json.bool c.useAstParsing).toSetting)]) := by
  rw [toJson, Setting.record?_obj (by simp)]
  rfl

/-- **A configuration reads back.** -/
theorem ofSetting?_toJson (hfinite : c.maxFileSizeMb.isFinite) (hordered : Named.Ordered c.strategies) :
    ofSetting? c.toJson.toSetting = some c := by
  rw [ofSetting?, record?_toJson]
  simp [Setting.valueOf?, Setting.field?, Json.number?_toSetting hfinite, strategiesOf?_toSetting hordered,
    FallbackSizes.ofSetting?_toJson]

end Config

namespace FileConfig

variable {c : Config}

/-- The file that says all that a configuration says. -/
def ofConfig (c : Config) : FileConfig :=
  { enabled := some c.enabled
    useAstParsing := some c.useAstParsing
    maxFileSizeMb := some c.maxFileSizeMb
    strategies := c.strategies
    fallback := some c.fallback }

theorem ofSetting?_toJson (hfinite : c.maxFileSizeMb.isFinite) (hordered : Named.Ordered c.strategies) :
    ofSetting? c.toJson.toSetting = some (ofConfig c) := by
  rw [ofSetting?, Config.record?_toJson]
  have hfallback : c.fallback.toJson.toSetting.isAbsent = false := Json.isAbsent_toSetting (by simp [FallbackSizes.toJson])
  simp [Setting.valueOf?, Setting.field?, Setting.optional?, Json.isAbsent_toSetting, Json.number?_toSetting hfinite,
    Config.strategiesOf?_toSetting hordered, hfallback, FallbackSizes.ofSetting?_toJson, ofConfig]

/-- Over the defaults, a file that says all that a configuration says adds the default strategies for extensions that
it has none for, if it names every extension in its normal form. -/
theorem overlay_ofConfig (hnormal : ∀ e ∈ c.strategies, Config.normalExtension e.1 = e.1) (base : Config) :
    (ofConfig c).overlay base = { c with strategies := Named.insertAll c.strategies base.strategies } := by
  have hentries : (c.strategies.map fun e => (Config.normalExtension e.1, e.2)) = c.strategies := by
    refine (List.map_congr_left fun e he => ?_).trans (List.map_id _)
    rw [hnormal e he]
    rfl
  simp only [overlay, ofConfig, Option.getD_some, hentries]

end FileConfig

theorem Config.ordered_defaultStrategies : Named.Ordered defaultStrategies := Named.ordered_ofList _

/-- **Writing a configuration loses nothing.** With a finite size limit and its strategies in order, an object that a
configuration was written as reads back as that configuration. Read as a file and laid over the defaults, it gives the
configuration with those default strategies besides that it has none of its own for, provided that it names every
extension in its normal form; so the configuration itself, if it has a strategy for each extension that has one by
default. -/
theorem Config.snapshots_lose_nothing {c : Config} (hfinite : c.maxFileSizeMb.isFinite)
    (hordered : Named.Ordered c.strategies) :
    ofSetting? c.toJson.toSetting = some c ∧
      ((∀ e ∈ c.strategies, normalExtension e.1 = e.1) →
        ∃ file, FileConfig.ofSetting? c.toJson.toSetting = some file ∧
          (∃ strategies, file.overlay default = { c with strategies } ∧ Named.Ordered strategies ∧
            ∀ e, e ∈ strategies ↔
              e ∈ c.strategies ∨ (e ∈ defaultStrategies ∧ ∀ f ∈ c.strategies, f.1 ≠ e.1)) ∧
          ((∀ e ∈ defaultStrategies, ∃ f ∈ c.strategies, f.1 = e.1) → file.overlay default = c)) := by
  refine ⟨ofSetting?_toJson hfinite hordered, fun hnormal => ?_⟩
  have hfile := FileConfig.ofSetting?_toJson hfinite hordered
  have hoverlay := FileConfig.overlay_ofConfig hnormal default
  have hstrategies : Named.Ordered (Named.insertAll c.strategies default.strategies) :=
    Named.ordered_insertAll ordered_defaultStrategies c.strategies
  have hmem : ∀ e, e ∈ Named.insertAll c.strategies default.strategies ↔
      e ∈ c.strategies ∨ (e ∈ defaultStrategies ∧ ∀ f ∈ c.strategies, f.1 ≠ e.1) :=
    fun _ => hordered.mem_insertAll ordered_defaultStrategies
  refine ⟨_, hfile, ⟨_, hoverlay, hstrategies, hmem⟩, fun hall => ?_⟩
  -- Nothing is added, so the strategies are those of the configuration, in the same order.
  have hsame : Named.insertAll c.strategies default.strategies = c.strategies := by
    refine hstrategies.eq_of_mem_iff hordered fun e => (hmem e).trans (or_iff_left ?_)
    rintro ⟨he, hne⟩
    obtain ⟨f, hf, hfe⟩ := hall e he
    exact hne f hf hfe
  rw [hoverlay, hsame]

/-- A configuration with a strategy that differs from the default one, and one for an extension that has none. -/
def zigConfig : Config :=
  { enabled := false, useAstParsing := true, maxFileSizeMb := 0.5,
    strategies := [("py", .markup 300 0), ("zig", .code 200 10)], fallback := { chunkOverlap := 7 } }

/-- Read as a file over the defaults, both stand beside the default strategies of the other extensions. -/
theorem Config.snapshots_lose_nothing_zig :
    zigConfig.maxFileSizeMb.isFinite ∧ Named.Ordered zigConfig.strategies ∧
      (∀ e ∈ zigConfig.strategies, normalExtension e.1 = e.1) ∧
      ofSetting? zigConfig.toJson.toSetting = some zigConfig ∧
      ∃ file strategies, FileConfig.ofSetting? zigConfig.toJson.toSetting = some file ∧
        file.overlay default = { zigConfig with strategies } ∧
        ("py", .markup 300 0) ∈ strategies ∧ ("zig", .code 200 10) ∈ strategies ∧ ("rs", .code 2000 200) ∈ strategies ∧
        ("py", .code 2000 200) ∉ strategies := by
  have hfinite : zigConfig.maxFileSizeMb.isFinite := by decide
  have hordered : Named.Ordered zigConfig.strategies := by decide +kernel
  have hnormal : ∀ e ∈ zigConfig.strategies, normalExtension e.1 = e.1 := by decide +kernel
  obtain ⟨hconfig, hfile⟩ := snapshots_lose_nothing hfinite hordered
  obtain ⟨file, hread, ⟨strategies, hoverlay, -, hmem⟩, -⟩ := hfile hnormal
  refine ⟨hfinite, hordered, hnormal, hconfig, file, strategies, hread, hoverlay, ?_, ?_, ?_, ?_⟩
  · exact (hmem _).2 (Or.inl (by decide +kernel))
  · exact (hmem _).2 (Or.inl (by decide +kernel))
  · exact (hmem _).2 (Or.inr (by decide +kernel))
  · exact fun hpy => absurd ((hmem _).1 hpy) (by decide +kernel)

end Chunkwise
