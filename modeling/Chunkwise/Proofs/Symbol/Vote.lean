import Chunkwise.Symbol.Vote

/-!
# The winner of a vote

Kinds with their weights are in a strict order, by weight, by rank and by the order of declaration (`Ahead`), which
tells any two kinds apart (`ahead_total`). So a vote has one winner (`Wins`, `Wins.unique`): it is the kind that the
pass over all kinds ends with (`wins_best`). A vote is settled by the weights of the kinds alone
(`dominantKind_congr`), and these do not depend on the order of the votes (`weightOf_of_perm`).
-/

namespace Chunkwise

namespace SymbolKind

theorem getElem?_index (kind : SymbolKind) : all[kind.index]? = some kind := by
  cases kind <;> rfl

/-- Kinds are told apart by the order of their declaration. -/
theorem index_inj {a b : SymbolKind} (h : a.index = b.index) : a = b := by
  have ha := getElem?_index a
  rw [h, getElem?_index b] at ha
  exact (Option.some.inj ha).symm

theorem pairwise_index_all : all.Pairwise fun a b => a.index < b.index := by decide

end SymbolKind

namespace Vote

variable {votes others : List (SymbolKind × Nat)} {a b c : SymbolKind × Nat} {kind other first : SymbolKind}

/-! ## Going through a list -/

/-- Going through a list with a choice between any two of it, the one that is left is of the list and comes before all
others. -/
theorem foldl_picks {α : Type} (before : α → α → Prop) {apart : α → α → Prop} {choose : α → α → α}
    (htrans : ∀ {x y z}, before x y → before y z → before x z)
    (hchoose : ∀ {x y}, apart x y → (choose x y = y ∧ before y x) ∨ (choose x y = x ∧ before x y))
    (xs : List α) {first : α} (hapart : (first :: xs).Pairwise apart) :
    xs.foldl choose first ∈ first :: xs ∧
      ∀ x ∈ first :: xs, x ≠ xs.foldl choose first → before (xs.foldl choose first) x := by
  induction xs generalizing first with
  | nil =>
    refine ⟨List.mem_cons_self, fun x hx hne => ?_⟩
    exact absurd (List.mem_singleton.1 hx) hne
  | cons next xs ih =>
    obtain ⟨hfirst, hnext⟩ := List.pairwise_cons.1 hapart
    have hrest := (List.pairwise_cons.1 hnext).2
    -- The one of the two that is dropped comes behind the one that is kept, and this one behind the one picked.
    have hdropped : ∀ {kept dropped : α}, before kept dropped →
        (∀ x ∈ kept :: xs, x ≠ xs.foldl choose kept → before (xs.foldl choose kept) x) →
        before (xs.foldl choose kept) dropped := by
      intro kept dropped hkept hbehind
      by_cases heq : kept = xs.foldl choose kept
      · rw [← heq]
        exact hkept
      · exact htrans (hbehind kept List.mem_cons_self heq) hkept
    rw [List.foldl_cons]
    rcases hchoose (hfirst next List.mem_cons_self) with ⟨hkept, hbefore⟩ | ⟨hkept, hbefore⟩
    · rw [hkept]
      obtain ⟨hmem, hbehind⟩ := ih hnext
      refine ⟨List.mem_cons_of_mem _ hmem, fun x hx hne => ?_⟩
      rcases List.mem_cons.1 hx with rfl | hx
      · exact hdropped hbefore hbehind
      · exact hbehind x hx hne
    · rw [hkept]
      obtain ⟨hmem, hbehind⟩ := ih (List.pairwise_cons.2 ⟨fun x hx => hfirst x (List.mem_cons_of_mem _ hx), hrest⟩)
      refine ⟨?_, fun x hx hne => ?_⟩
      · rcases List.mem_cons.1 hmem with heq | hmem
        · rw [heq]
          exact List.mem_cons_self
        · exact List.mem_cons_of_mem _ (List.mem_cons_of_mem _ hmem)
      · rcases List.mem_cons.1 hx with rfl | hx
        · exact hbehind x List.mem_cons_self hne
        · rcases List.mem_cons.1 hx with rfl | hx
          · exact hdropped hbefore hbehind
          · exact hbehind x (List.mem_cons_of_mem _ hx) hne

/-! ## The order of counted kinds -/

/-- Whether a kind with its weight comes before another one: by the greater weight, then by the higher rank, then as
the one declared first. -/
def Ahead (a b : SymbolKind × Nat) : Prop :=
  b.2 < a.2 ∨ (b.2 = a.2 ∧ (b.1.rank < a.1.rank ∨ (b.1.rank = a.1.rank ∧ a.1.index < b.1.index)))

instance (a b : SymbolKind × Nat) : Decidable (Ahead a b) :=
  inferInstanceAs (Decidable (b.2 < a.2 ∨ (b.2 = a.2 ∧ (b.1.rank < a.1.rank ∨
    (b.1.rank = a.1.rank ∧ a.1.index < b.1.index)))))

theorem Ahead.trans (hab : Ahead a b) (hbc : Ahead b c) : Ahead a c := by
  unfold Ahead at *
  omega

theorem Ahead.asymm (hab : Ahead a b) : ¬ Ahead b a := by
  unfold Ahead at *
  omega

/-- Of two kinds one comes first. -/
theorem ahead_total (h : a.1 ≠ b.1) : Ahead a b ∨ Ahead b a := by
  have hindex : a.1.index ≠ b.1.index := fun heq => h (SymbolKind.index_inj heq)
  unfold Ahead
  omega

/-! ## The winner -/

/-- A kind with its weight. -/
def counted (votes : List (SymbolKind × Nat)) (kind : SymbolKind) : SymbolKind × Nat := (kind, weightOf votes kind)

/-- Whether a kind comes before all others. -/
def Wins (votes : List (SymbolKind × Nat)) (kind : SymbolKind) : Prop :=
  ∀ other, other ≠ kind → Ahead (counted votes kind) (counted votes other)

/-- There is no second winner. -/
theorem Wins.unique (h : Wins votes kind) (h' : Wins votes other) : other = kind := by
  by_cases heq : other = kind
  · exact heq
  · exact absurd (h' kind (Ne.symm heq)) (h other heq).asymm

/-- The better one of two kinds. -/
def better (votes : List (SymbolKind × Nat)) (best kind : SymbolKind) : SymbolKind :=
  if beats votes kind best then kind else best

/-- Of two kinds in the order of their declaration the better one comes before the other. -/
theorem better_cases (votes : List (SymbolKind × Nat)) {a b : SymbolKind} (h : a.index < b.index) :
    (better votes a b = b ∧ Ahead (counted votes b) (counted votes a)) ∨
      (better votes a b = a ∧ Ahead (counted votes a) (counted votes b)) := by
  unfold better
  split
  · rename_i hbeats
    refine Or.inl ⟨rfl, ?_⟩
    simp only [beats, Bool.or_eq_true, Bool.and_eq_true, decide_eq_true_eq, beq_iff_eq] at hbeats
    simp only [Ahead, counted]
    omega
  · rename_i hbeats
    refine Or.inr ⟨rfl, ?_⟩
    simp only [beats, Bool.or_eq_true, Bool.and_eq_true, decide_eq_true_eq, beq_iff_eq] at hbeats
    simp only [Ahead, counted]
    omega

/-- **The pass over all kinds ends with the winner.** -/
theorem wins_best (votes : List (SymbolKind × Nat)) : Wins votes (best votes) := by
  have hbest : best votes = SymbolKind.all.tail.foldl (better votes) .importing := by
    have hself : better votes .importing .importing = .importing := by
      unfold better
      split <;> rfl
    show (SymbolKind.importing :: SymbolKind.all.tail).foldl (better votes) .importing = _
    rw [List.foldl_cons, hself]
  intro kind hne
  rw [hbest] at hne ⊢
  have hpicks := foldl_picks (fun a b => Ahead (counted votes a) (counted votes b)) Ahead.trans
    (better_cases votes) SymbolKind.all.tail SymbolKind.pairwise_index_all
  exact hpicks.2 kind (SymbolKind.mem_all kind) hne

/-! ## What a vote depends on -/

theorem weightOf_cons (v : SymbolKind × Nat) (votes : List (SymbolKind × Nat)) (kind : SymbolKind) :
    weightOf (v :: votes) kind = (if v.1 = kind then v.2 else 0) + weightOf votes kind := by
  by_cases h : v.1 = kind <;> simp [weightOf, total, h]

/-- All weight is that of all kinds. -/
theorem total_eq (votes : List (SymbolKind × Nat)) : total votes = totalOf (weightOf votes) SymbolKind.all := by
  induction votes with
  | nil => rfl
  | cons v votes ih =>
    obtain ⟨kind, weight⟩ := v
    have hcons : weightOf ((kind, weight) :: votes) =
        fun other => (if kind = other then weight else 0) + weightOf votes other :=
      funext (weightOf_cons (kind, weight) votes)
    have hone : totalOf (fun other => if kind = other then weight else 0) SymbolKind.all = weight := by
      cases kind <;> simp [SymbolKind.all]
    rw [hcons, totalOf_add, hone, ← ih]
    rfl

/-- **A vote is settled by the weights of the kinds.** -/
theorem dominantKind_congr (h : ∀ kind, weightOf votes kind = weightOf others kind) :
    dominantKind votes = dominantKind others := by
  have hweight : weightOf votes = weightOf others := funext h
  have htotal : total votes = total others := by rw [total_eq, total_eq, hweight]
  have hbest : best votes = best others := by
    have hbeats : beats votes = beats others := by
      funext a b
      rw [beats, beats, hweight]
    rw [best, best, hbeats]
  rw [dominantKind, dominantKind, htotal, hbest, hweight]

theorem weightOf_of_perm (h : votes.Perm others) (kind : SymbolKind) : weightOf votes kind = weightOf others kind :=
  totalOf_perm _ (h.filter _)

/-- Votes without weight give none to any kind. -/
theorem weightOf_filter_pos (votes : List (SymbolKind × Nat)) (kind : SymbolKind) :
    weightOf (votes.filter (0 < ·.2)) kind = weightOf votes kind := by
  induction votes with
  | nil => rfl
  | cons v votes ih =>
    by_cases hpos : 0 < v.2
    · rw [List.filter_cons_of_pos (by simpa using hpos), weightOf_cons, weightOf_cons, ih]
    · have hzero : v.2 = 0 := by omega
      rw [List.filter_cons_of_neg (by simpa using hpos), weightOf_cons, ih, hzero]
      simp

/-- Two votes for a kind are one with the weight of both. -/
theorem weightOf_merge (before : List (SymbolKind × Nat)) (voted : SymbolKind) (m n : Nat)
    (after : List (SymbolKind × Nat)) (kind : SymbolKind) :
    weightOf (before ++ (voted, m) :: (voted, n) :: after) kind =
      weightOf (before ++ (voted, m + n) :: after) kind := by
  simp only [weightOf_append, weightOf_cons]
  split <;> omega

end Vote
end Chunkwise
