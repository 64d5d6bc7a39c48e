import Chunkwise.Grammar

/-!
# Calls to a registry of grammars

A registry changes by two kinds of calls (`Call`). After some calls a language is loaded or found to be wrong as the
last call about it says, and as before if there was none (`isLoaded_after`, `failure?_after`; one call:
`isLoaded_call`, `failure?_call`). A registry that was asked for some languages and has seen some calls therefore holds
no language as loaded and wrong at once (`not_loaded_and_failed`), and knows for every language that is not loaded what
was found wrong with it last (`failure?_of_not_loaded`).
-/

namespace Chunkwise
namespace Grammars

/-! ## Calls -/

/-- A call that changes a registry. -/
inductive Call where
  | register (language : Language)
  | markUnavailable (language : Language) (reason : String)

namespace Call

/-- The language that a call is about. -/
def language : Call → Language
  | register language => language
  | markUnavailable language _ => language

/-- What a call finds wrong with its language. -/
def reason? : Call → Option String
  | register _ => none
  | markUnavailable _ reason => some reason

theorem reason?_eq_none {c : Call} : c.reason? = none ↔ c = .register c.language := by
  cases c <;> simp [reason?, language]

end Call

/-- The registry after a call. -/
def call (g : Grammars) : Call → Grammars
  | .register language => g.register language
  | .markUnavailable language reason => g.markUnavailable language reason

/-- The registry after some calls, one after another. -/
def after (g : Grammars) (calls : List Call) : Grammars := calls.foldl call g

/-- The last of some calls about a language. -/
def lastCall? (calls : List Call) (language : Language) : Option Call :=
  calls.reverse.find? fun c => c.language = language

/-- What was found wrong with a language in some calls, the last time that something was. -/
def lastReason? (calls : List Call) (language : Language) : Option String :=
  calls.reverse.findSome? fun c => if c.language = language then c.reason? else none

variable {g : Grammars} {language : Language}

theorem lastCall?_cons (c : Call) (calls : List Call) (language : Language) :
    lastCall? (c :: calls) language =
      (lastCall? calls language).or (if c.language = language then some c else none) := by
  rw [lastCall?, List.reverse_cons, List.find?_append]
  by_cases h : c.language = language <;> simp [h, lastCall?]

theorem language_of_lastCall? {calls : List Call} {c : Call} (h : lastCall? calls language = some c) :
    c.language = language := by
  simpa using List.find?_some h

theorem exists_lastCall? {calls : List Call} {c : Call} (h : c ∈ calls) : ∃ d, lastCall? calls c.language = some d := by
  apply Option.isSome_iff_exists.1
  rw [lastCall?, List.find?_isSome]
  exact ⟨c, List.mem_reverse.2 h, by simp⟩

/-- The last call about a language tells the last reason, unless it binds its grammar. -/
theorem lastReason?_of_lastCall? {calls : List Call} {c : Call} {reason : String}
    (h : lastCall? calls language = some c) (hreason : c.reason? = some reason) :
    lastReason? calls language = some reason := by
  have hlanguage := language_of_lastCall? h
  obtain ⟨-, before, after, hsplit, hbefore⟩ := List.find?_eq_some_iff_append.1 h
  rw [lastReason?, hsplit, List.findSome?_append, List.findSome?_eq_none_iff.2]
  · simp [hlanguage, hreason]
  · intro d hd
    have hd' := hbefore d hd
    simp only [Bool.not_eq_true', decide_eq_false_iff_not] at hd'
    rw [if_neg hd']

theorem lastReason?_of_none {calls : List Call} (h : lastCall? calls language = none) :
    lastReason? calls language = none := by
  apply List.findSome?_eq_none_iff.2
  intro c hc
  have hc' : ¬ c.language = language := by simpa using List.find?_eq_none.1 h c hc
  rw [if_neg hc']

/-! ## What calls do -/

/-- A call decides about its language, and leaves the others. -/
theorem isLoaded_call (g : Grammars) (c : Call) (language : Language) :
    (g.call c).isLoaded language = if c.language = language then c.reason?.isNone else g.isLoaded language := by
  cases c with
  | register l =>
    by_cases h : l = language
    · simp [call, isLoaded_register, Call.language, Call.reason?, h]
    · simp [call, isLoaded_register, Call.language, h, Ne.symm h]
  | markUnavailable l reason =>
    by_cases h : l = language
    · simp [call, isLoaded_markUnavailable, Call.language, Call.reason?, h]
    · simp [call, isLoaded_markUnavailable, Call.language, h, Ne.symm h]

theorem find?_failures_filter (failures : List (Language × String)) (a b : Language) :
    (failures.filter (·.1 != a)).find? (·.1 == b) = if a = b then none else failures.find? (·.1 == b) := by
  induction failures with
  | nil => simp
  | cons f failures ih =>
    obtain ⟨l, reason⟩ := f
    by_cases hla : l = a
    · subst hla
      by_cases hlb : l = b <;> simp_all
    · by_cases hlb : l = b
      · subst hlb
        simp [hla, Ne.symm hla]
      · simp [hla, hlb, ih]

theorem failure?_call (g : Grammars) (c : Call) (language : Language) :
    (g.call c).failure? language = if c.language = language then c.reason? else g.failure? language := by
  cases c with
  | register l =>
    rw [call, failure?, register, find?_failures_filter]
    by_cases h : l = language <;> simp [Call.language, Call.reason?, failure?, h]
  | markUnavailable l reason =>
    rw [call, failure?, markUnavailable, List.find?_cons, find?_failures_filter]
    by_cases h : l = language
    · simp [Call.language, Call.reason?, h]
    · simp only [Call.language, failure?, h, beq_false_of_ne, ne_eq, not_false_eq_true, if_false]

/-- Whether a language is loaded after some calls is as the last of them about it says. -/
theorem isLoaded_after (g : Grammars) (calls : List Call) (language : Language) :
    (g.after calls).isLoaded language =
      ((lastCall? calls language).map fun c => c.reason?.isNone).getD (g.isLoaded language) := by
  induction calls generalizing g with
  | nil => rfl
  | cons c calls ih =>
    have hstep : (g.after (c :: calls)) = (g.call c).after calls := rfl
    rw [hstep, ih, isLoaded_call, lastCall?_cons]
    cases lastCall? calls language with
    | some d => rfl
    | none => by_cases h : c.language = language <;> simp [h]

/-- A language that calls are about is loaded exactly if the last of them binds its grammar. -/
theorem isLoaded_after_iff (g : Grammars) {calls : List Call} (hcall : ∃ c ∈ calls, c.language = language) :
    (g.after calls).isLoaded language ↔ lastCall? calls language = some (.register language) := by
  obtain ⟨c, hc, rfl⟩ := hcall
  obtain ⟨d, hd⟩ := exists_lastCall? hc
  have hdl := language_of_lastCall? hd
  have hloaded : (g.after calls).isLoaded c.language = d.reason?.isNone := by
    rw [isLoaded_after, hd]
    rfl
  rw [hloaded, hd, Option.isNone_iff_eq_none, Call.reason?_eq_none, hdl, Option.some.injEq]

/-- What is known to be wrong with a language after some calls is as the last of them about it says. -/
theorem failure?_after (g : Grammars) (calls : List Call) (language : Language) :
    (g.after calls).failure? language =
      ((lastCall? calls language).map Call.reason?).getD (g.failure? language) := by
  induction calls generalizing g with
  | nil => rfl
  | cons c calls ih =>
    have hstep : (g.after (c :: calls)) = (g.call c).after calls := rfl
    rw [hstep, ih, failure?_call, lastCall?_cons]
    cases lastCall? calls language with
    | some d => rfl
    | none => by_cases h : c.language = language <;> simp [h]

theorem after_append (g : Grammars) (a b : List Call) : g.after (a ++ b) = (g.after a).after b := List.foldl_append

/-! ## Registries with a history -/

/-- The registry that was asked for some languages comes from calls that bind them. -/
theorem ofLanguages_eq (languages : List Language) : ofLanguages languages = after {} (languages.map .register) := by
  rw [ofLanguages, after, List.foldl_map]
  rfl

theorem failure?_ofLanguages (languages : List Language) (language : Language) :
    (ofLanguages languages).failure? language = none := by
  rw [ofLanguages_eq, failure?_after]
  cases h : lastCall? (languages.map .register) language with
  | none => rfl
  | some c =>
    have hmem := List.mem_of_find?_eq_some h
    obtain ⟨l, -, rfl⟩ := List.mem_map.1 (List.mem_reverse.1 hmem)
    rfl

/-- No language is loaded and wrong at once. -/
theorem not_loaded_and_failed (languages : List Language) (calls : List Call) (language : Language) :
    ¬ (((ofLanguages languages).after calls).isLoaded language ∧
      (((ofLanguages languages).after calls).failure? language).isSome) := by
  rw [isLoaded_after, failure?_after, failure?_ofLanguages]
  cases lastCall? calls language with
  | none => simp
  | some c => cases hreason : c.reason? <;> simp [hreason]

/-- What is wrong with a language that is not loaded is what was found last, if anything was. -/
theorem failure?_of_not_loaded {languages : List Language} {calls : List Call}
    (h : ¬ ((ofLanguages languages).after calls).isLoaded language) :
    ((ofLanguages languages).after calls).failure? language = lastReason? calls language := by
  rw [isLoaded_after] at h
  rw [failure?_after, failure?_ofLanguages]
  cases hlast : lastCall? calls language with
  | none => rw [lastReason?_of_none hlast]; rfl
  | some c =>
    cases hreason : c.reason? with
    | none => simp [hlast, hreason] at h
    | some reason => simp [hreason, lastReason?_of_lastCall? hlast hreason]

end Grammars
end Chunkwise
