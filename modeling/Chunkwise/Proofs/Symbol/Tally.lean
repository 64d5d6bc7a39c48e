import Chunkwise.Proofs.Symbol.Vote

/-!
# Counting a vote in a table

A vote can be counted in a table of kinds with 64-bit weights (`Vote.tally?`), which is then gone through in any order
(`Vote.elect?`). No number gets too large as long as all weight is less than half of what 64 bits hold, the table has
the weights of the votes (`Vote.exists_tally?`), and of its kinds the one that comes before all others is found in every
order (`Vote.elect?_eq`). So a vote is settled as `Vote.dominantKind` says (`Vote.vote_settled`).
-/

namespace Chunkwise
namespace Vote

/-! ## Counting -/

/-- A number, if 64 bits hold it. -/
def word? (n : Nat) : Option Nat := if n < UInt64.size then some n else none

/-- A table with more weight for a kind. -/
def addTo? (kind : SymbolKind) (weight : Nat) : List (SymbolKind × Nat) → Option (List (SymbolKind × Nat))
  | [] => some [(kind, weight)]
  | entry :: table =>
    if entry.1 = kind then (word? (entry.2 + weight)).map fun sum => (kind, sum) :: table
    else (addTo? kind weight table).map (entry :: ·)

/-- A table with one more vote, where votes without weight do not count. -/
def count? (table : List (SymbolKind × Nat)) (vote : SymbolKind × Nat) : Option (List (SymbolKind × Nat)) :=
  if 0 < vote.2 then addTo? vote.1 vote.2 table else some table

/-- The table of votes, if no weight in it gets too large. -/
def tally? (votes : List (SymbolKind × Nat)) : Option (List (SymbolKind × Nat)) := votes.foldlM count? []

/-- All weight of a table, if it does not get too large. -/
def sum? (table : List (SymbolKind × Nat)) : Option Nat := table.foldlM (fun sum entry => word? (sum + entry.2)) 0

/-- The one of two entries that stays when a table is gone through for the greatest entry, the second one unless the
first one comes before it. -/
def keep (best next : SymbolKind × Nat) : SymbolKind × Nat := if Ahead best next then best else next

/-- The greatest entry of a table. -/
def leader? : List (SymbolKind × Nat) → Option (SymbolKind × Nat)
  | [] => none
  | first :: rest => some (rest.foldl keep first)

/-- The label that a table gives, gone through in its order, if no number gets too large. -/
def elect? (table : List (SymbolKind × Nat)) : Option ChunkType :=
  (sum? table).bind fun whole =>
    match leader? table with
    | some (kind, weight) =>
      if 0 < whole then (word? (weight * 2)).map fun twice => if whole ≤ twice then .of kind else .mixed
      else some .mixed
    | none => some .mixed

/-! ## Tables -/

variable {votes table order : List (SymbolKind × Nat)} {entry first : SymbolKind × Nat} {kind : SymbolKind}
variable {n weight : Nat}

/-- A table has one entry for a kind, and none without weight. -/
structure IsTable (table : List (SymbolKind × Nat)) : Prop where
  distinct : table.Pairwise fun a b => a.1 ≠ b.1
  positive : ∀ entry ∈ table, 0 < entry.2

theorem IsTable.of_perm (h : IsTable table) (hperm : order.Perm table) : IsTable order where
  distinct := hperm.symm.pairwise h.distinct Ne.symm
  positive := fun entry hentry => h.positive entry (hperm.mem_iff.1 hentry)

theorem IsTable.tail (h : IsTable (entry :: table)) : IsTable table where
  distinct := (List.pairwise_cons.1 h.distinct).2
  positive := fun e he => h.positive e (List.mem_cons_of_mem _ he)

theorem weightOf_eq_zero (h : ∀ entry ∈ table, entry.1 ≠ kind) : weightOf table kind = 0 := by
  induction table with
  | nil => rfl
  | cons entry table ih =>
    rw [weightOf_cons, if_neg (h entry List.mem_cons_self), ih fun e he => h e (List.mem_cons_of_mem _ he)]

/-- An entry of a table has all weight of its kind. -/
theorem IsTable.weightOf_of_mem (h : IsTable table) (hentry : entry ∈ table) : weightOf table entry.1 = entry.2 := by
  induction table with
  | nil => cases hentry
  | cons first table ih =>
    have hdistinct := (List.pairwise_cons.1 h.distinct).1
    rw [weightOf_cons]
    rcases List.mem_cons.1 hentry with rfl | hmem
    · rw [if_pos rfl, weightOf_eq_zero fun e he => (hdistinct e he).symm, Nat.add_zero]
    · rw [if_neg (hdistinct entry hmem), ih h.tail hmem, Nat.zero_add]

theorem weightOf_le_total (table : List (SymbolKind × Nat)) (kind : SymbolKind) :
    weightOf table kind ≤ total table := by
  induction table with
  | nil => exact Nat.le_refl _
  | cons entry table ih =>
    have hcons : total (entry :: table) = entry.2 + total table := rfl
    rw [weightOf_cons, hcons]
    split <;> omega

theorem total_congr {others : List (SymbolKind × Nat)} (h : ∀ kind, weightOf votes kind = weightOf others kind) :
    total votes = total others := by
  rw [total_eq, total_eq, funext h]

/-! ## The table of votes -/

theorem word?_eq (h : n < UInt64.size) : word? n = some n := if_pos h

/-- One more weight for a kind makes a table of a table. -/
theorem exists_addTo? (kind : SymbolKind) (htable : IsTable table) (hpos : 0 < weight)
    (hfits : total table + weight < UInt64.size) :
    ∃ next, addTo? kind weight table = some next ∧ IsTable next ∧
      (∀ entry ∈ next, entry.1 = kind ∨ ∃ old ∈ table, old.1 = entry.1) ∧
      ∀ other, weightOf next other = weightOf ((kind, weight) :: table) other := by
  induction table with
  | nil =>
    refine ⟨[(kind, weight)], rfl, ⟨List.pairwise_singleton _ _, ?_⟩, ?_, fun _ => rfl⟩
    · intro entry hentry
      rw [List.mem_singleton.1 hentry]
      exact hpos
    · intro entry hentry
      rw [List.mem_singleton.1 hentry]
      exact Or.inl rfl
  | cons first table ih =>
    have htotal : total (first :: table) = first.2 + total table := rfl
    have hdistinct := (List.pairwise_cons.1 htable.distinct).1
    by_cases hkind : first.1 = kind
    · refine ⟨(kind, first.2 + weight) :: table, ?_, ⟨?_, ?_⟩, ?_, fun other => ?_⟩
      · rw [addTo?, if_pos hkind, word?_eq (by omega), Option.map_some]
      · exact List.pairwise_cons.2 ⟨fun e he => hkind ▸ hdistinct e he, htable.tail.distinct⟩
      · intro entry hentry
        rcases List.mem_cons.1 hentry with rfl | hentry
        · exact Nat.lt_of_lt_of_le hpos (Nat.le_add_left _ _)
        · exact htable.tail.positive entry hentry
      · intro entry hentry
        rcases List.mem_cons.1 hentry with rfl | hentry
        · exact Or.inl rfl
        · exact Or.inr ⟨entry, List.mem_cons_of_mem _ hentry, rfl⟩
      · simp only [weightOf_cons, hkind]
        split <;> omega
    · obtain ⟨next, hnext, htablenext, hkeys, hweights⟩ := ih htable.tail (by omega)
      refine ⟨first :: next, ?_, ⟨?_, ?_⟩, ?_, fun other => ?_⟩
      · rw [addTo?, if_neg hkind, hnext, Option.map_some]
      · refine List.pairwise_cons.2 ⟨fun e he => ?_, htablenext.distinct⟩
        rcases hkeys e he with heq | ⟨old, hold, heq⟩
        · rw [heq]
          exact hkind
        · rw [← heq]
          exact hdistinct old hold
      · intro entry hentry
        rcases List.mem_cons.1 hentry with rfl | hentry
        · exact htable.positive entry List.mem_cons_self
        · exact htablenext.positive entry hentry
      · intro entry hentry
        rcases List.mem_cons.1 hentry with rfl | hentry
        · exact Or.inr ⟨entry, List.mem_cons_self, rfl⟩
        · rcases hkeys entry hentry with heq | ⟨old, hold, heq⟩
          · exact Or.inl heq
          · exact Or.inr ⟨old, List.mem_cons_of_mem _ hold, heq⟩
      · rw [weightOf_cons, hweights other]
        simp only [weightOf_cons]
        omega

/-- One more vote makes a table of a table. -/
theorem exists_count? (htable : IsTable table) (vote : SymbolKind × Nat)
    (hfits : total table + vote.2 < UInt64.size) :
    ∃ next, count? table vote = some next ∧ IsTable next ∧
      ∀ other, weightOf next other = weightOf (vote :: table) other := by
  by_cases hpos : 0 < vote.2
  · obtain ⟨next, hnext, htablenext, -, hweights⟩ := exists_addTo? vote.1 htable hpos hfits
    exact ⟨next, by rw [count?, if_pos hpos, hnext], htablenext, hweights⟩
  · refine ⟨table, by rw [count?, if_neg hpos], htable, fun other => ?_⟩
    rw [weightOf_cons]
    split <;> omega

/-- Counting on from a table gives a table with the weights of both. -/
theorem exists_foldlM_count? (htable : IsTable table) (hfits : total votes + total table < UInt64.size) :
    ∃ counted, votes.foldlM count? table = some counted ∧ IsTable counted ∧
      ∀ kind, weightOf counted kind = weightOf votes kind + weightOf table kind := by
  induction votes generalizing table with
  | nil => exact ⟨table, rfl, htable, fun kind => (Nat.zero_add _).symm⟩
  | cons vote votes ih =>
    have htotal : total (vote :: votes) = vote.2 + total votes := rfl
    obtain ⟨next, hnext, htablenext, hweights⟩ := exists_count? htable vote (by omega)
    have hsum : total next = vote.2 + total table := total_congr hweights
    obtain ⟨result, hresult, htableresult, hcounted⟩ := ih htablenext (by omega)
    refine ⟨result, ?_, htableresult, fun kind => ?_⟩
    · rw [List.foldlM_cons, hnext]
      exact hresult
    · rw [hcounted kind, hweights kind, weightOf_cons, weightOf_cons]
      omega

/-- **Votes have a table**, with the weight that they give to each kind. -/
theorem exists_tally? (hsum : total votes < UInt64.size) :
    ∃ table, tally? votes = some table ∧ IsTable table ∧ ∀ kind, weightOf table kind = weightOf votes kind := by
  have hnil : IsTable [] := ⟨List.Pairwise.nil, fun _ hentry => nomatch hentry⟩
  obtain ⟨table, htally, htable, hweights⟩ := exists_foldlM_count? hnil hsum
  exact ⟨table, htally, htable, hweights⟩

/-! ## Electing from a table -/

theorem foldlM_sum (start : Nat) (hfits : start + total table < UInt64.size) :
    table.foldlM (fun sum entry => word? (sum + entry.2)) start = some (start + total table) := by
  induction table generalizing start with
  | nil => rfl
  | cons entry table ih =>
    have htotal : total (entry :: table) = entry.2 + total table := rfl
    rw [List.foldlM_cons, word?_eq (by omega), htotal, ← Nat.add_assoc]
    exact ih (start + entry.2) (by omega)

/-- All weight of a table is its total. -/
theorem sum?_eq (hfits : total table < UInt64.size) : sum? table = some (total table) := by
  have hfold := foldlM_sum 0 (show 0 + total table < UInt64.size by omega)
  rw [Nat.zero_add] at hfold
  exact hfold

/-- The entry of two kinds that stays comes before the other. -/
theorem keep_cases {a b : SymbolKind × Nat} (h : a.1 ≠ b.1) :
    (keep a b = b ∧ Ahead b a) ∨ (keep a b = a ∧ Ahead a b) := by
  unfold keep
  by_cases hahead : Ahead a b
  · exact Or.inr ⟨if_pos hahead, hahead⟩
  · exact Or.inl ⟨if_neg hahead, (ahead_total h).resolve_left hahead⟩

/-- The greatest entry of a table is that of the winner, in whatever order it is gone through. -/
theorem leader?_eq (htable : IsTable (first :: table)) :
    leader? (first :: table) = some (counted (first :: table) (best (first :: table))) := by
  obtain ⟨hmem, hahead⟩ := foldl_picks Ahead Ahead.trans keep_cases table htable.distinct
  have hweight := htable.weightOf_of_mem hmem
  have hpositive := htable.positive _ hmem
  have hcounted : counted (first :: table) (table.foldl keep first).1 = table.foldl keep first :=
    Prod.ext rfl hweight
  have hwins : Wins (first :: table) (table.foldl keep first).1 := by
    intro other hother
    rw [hcounted]
    by_cases hentry : ∃ entry ∈ first :: table, entry.1 = other
    · obtain ⟨entry, hentry, rfl⟩ := hentry
      have hself : counted (first :: table) entry.1 = entry := Prod.ext rfl (htable.weightOf_of_mem hentry)
      rw [hself]
      exact hahead entry hentry fun heq => hother (congrArg Prod.fst heq)
    · -- A kind without an entry has no weight, and each entry has some.
      have hzero : weightOf (first :: table) other = 0 :=
        weightOf_eq_zero fun entry hmem heq => hentry ⟨entry, hmem, heq⟩
      refine Or.inl ?_
      simp only [counted, hzero]
      exact hpositive
  rw [leader?, hwins.unique (wins_best _), hcounted]

/-- **A table gives the label of its entries**, in whatever order it is gone through. -/
theorem elect?_eq (htable : IsTable table) (hsum : total table < UInt64.size / 2) :
    elect? table = some (dominantKind table) := by
  rw [elect?, sum?_eq (by omega), Option.bind_some]
  cases table with
  | nil => rfl
  | cons first table =>
    have hle := weightOf_le_total (first :: table) (best (first :: table))
    rw [leader?_eq htable, dominantKind]
    simp only [counted, Bool.and_eq_true, decide_eq_true_eq]
    split
    · rename_i hpos
      rw [word?_eq (by omega), Option.map_some]
      simp only [hpos, true_and]
    · rename_i hzero
      simp only [hzero, false_and, if_false]

/-! ## The outcome of a vote -/

theorem total_eq_zero_iff (votes : List (SymbolKind × Nat)) : total votes = 0 ↔ ¬ ∃ v ∈ votes, 0 < v.2 := by
  induction votes with
  | nil => simp [total]
  | cons v votes ih =>
    have htotal : total (v :: votes) = v.2 + total votes := rfl
    rw [htotal, Nat.add_eq_zero_iff, ih]
    simp

/-- A vote is mixed without any weight, or if the winner has less than half of it. -/
theorem dominantKind_eq_mixed_iff (votes : List (SymbolKind × Nat)) : dominantKind votes = .mixed ↔
    (¬ ∃ v ∈ votes, 0 < v.2) ∨ weightOf votes (best votes) * 2 < total votes := by
  rw [← total_eq_zero_iff, dominantKind]
  simp only [Bool.and_eq_true, decide_eq_true_eq]
  split
  · rename_i h
    simp only [reduceCtorEq, false_iff]
    omega
  · rename_i h
    simp only [true_iff]
    omega

/-- Otherwise it goes to the winner. -/
theorem dominantKind_eq_of_ne (h : dominantKind votes ≠ .mixed) : dominantKind votes = .of (best votes) := by
  rw [dominantKind] at h ⊢
  split
  · rfl
  · rename_i hnot
    exact absurd (if_neg hnot) h

/-- **A vote is well defined.** It has one winner, which is the kind with the greatest weight, of equal weights that of
the highest rank, of equal ranks the one declared first. The vote is mixed without any weight or if the winner has less
than half of it, and goes to the winner otherwise. Counted in a table with 64-bit weights it comes to the same if all
weight is less than `2 ^ 63`, in whatever order the table is gone through. The order of the votes, votes without weight,
and whether the weight of a kind is given by one vote or by two make no difference. -/
theorem vote_settled (votes : List (SymbolKind × Nat)) (hsum : total votes < UInt64.size / 2) :
    (∃ winner, Wins votes winner ∧ (∀ other, Wins votes other → other = winner) ∧
      (dominantKind votes = .mixed ↔ (¬ ∃ v ∈ votes, 0 < v.2) ∨ weightOf votes winner * 2 < total votes) ∧
      (dominantKind votes ≠ .mixed → dominantKind votes = .of winner)) ∧
    (∃ table, tally? votes = some table ∧
      ∀ order : List (SymbolKind × Nat), order.Perm table → elect? order = some (dominantKind votes)) ∧
    (∀ others : List (SymbolKind × Nat), others.Perm votes → dominantKind others = dominantKind votes) ∧
    dominantKind (votes.filter (0 < ·.2)) = dominantKind votes ∧
    ∀ before kind m n after, dominantKind (before ++ (kind, m) :: (kind, n) :: after) =
      dominantKind (before ++ (kind, m + n) :: after) := by
  refine ⟨⟨best votes, wins_best votes, fun other hother => (wins_best votes).unique hother,
    dominantKind_eq_mixed_iff votes, dominantKind_eq_of_ne⟩, ?_, fun others hperm => ?_, ?_,
    fun before kind m n after => ?_⟩
  · obtain ⟨table, htally, htable, hweights⟩ := exists_tally? (show total votes < UInt64.size by omega)
    refine ⟨table, htally, fun order hperm => ?_⟩
    have hkinds : ∀ kind, weightOf order kind = weightOf votes kind := fun kind =>
      (weightOf_of_perm hperm kind).trans (hweights kind)
    rw [elect?_eq (htable.of_perm hperm) (by rw [total_congr hkinds]; exact hsum), dominantKind_congr hkinds]
  · exact dominantKind_congr (weightOf_of_perm hperm)
  · exact dominantKind_congr (weightOf_filter_pos votes)
  · exact dominantKind_congr (weightOf_merge before kind m n after)

/-- Half of all weight for a function, half of it in two parts for a class. -/
def tiedVotes : List (SymbolKind × Nat) := [(.function, 50), (.classDef, 20), (.comment, 0), (.classDef, 30)]

/-- Of equal weights that of the class is taken, whichever the table has first. -/
theorem vote_settled_tie : total tiedVotes < UInt64.size / 2 ∧
    ∃ table, tally? tiedVotes = some table ∧ table = [(.function, 50), (.classDef, 50)] ∧
      elect? table = some (.of .classDef) ∧ elect? table.reverse = some (.of .classDef) := by
  have hsum : total tiedVotes < UInt64.size / 2 := by decide +kernel
  obtain ⟨-, ⟨table, htally, helect⟩, -⟩ := vote_settled tiedVotes hsum
  have hkind : dominantKind tiedVotes = .of .classDef := by decide +kernel
  have htable : tally? tiedVotes = some [(.function, 50), (.classDef, 50)] := by decide +kernel
  rw [hkind] at helect
  exact ⟨hsum, table, htally, Option.some.inj (htally.symm.trans htable), helect table (List.Perm.refl _),
    helect _ (List.reverse_perm _)⟩

end Vote
end Chunkwise
