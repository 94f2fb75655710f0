import Mathlib.Data.List.Infix
import Mathlib.Data.List.Induction
import Mathlib.Logic.Function.Basic

/-!
# Longest match

Rules say yes or no to words and to whatever begins with them. Among the rules that are prefixes of a word
the longest one decides, and without a rule the decision is no. A change of a rule reaches the words between
it and the next longer rules (`decision_update`), and rules that say what would be said without them can go
(`decision_eq_of_redundant`).
-/

namespace LongestMatch

variable {α : Type*}

/-- What the rules say; `none` where there is no rule. -/
abbrev Rules (α : Type*) := List α → Option Bool

/-- What the longest rule says that is a prefix of the word. -/
def decision (rules : Rules α) (word : List α) : Bool := (word.inits.reverse.findSome? rules).getD false

/-- What is decided by the rules that are shorter. -/
def above (rules : Rules α) (word : List α) : Bool := if word = [] then false else decision rules word.dropLast

/-- There is no rule for the words that are longer than `k`, up to the word. -/
def Free (rules : Rules α) (k word : List α) : Prop :=
  ∀ k', k <+: k' → k' ≠ k → k' <+: word → rules k' = none

variable {rules rules' : Rules α} {k word : List α} {a : α}

@[simp] theorem decision_nil (rules : Rules α) : decision rules [] = (rules []).getD false := by
  cases h : rules [] <;> simp [decision, h]

@[simp] theorem decision_concat (rules : Rules α) (word : List α) (a : α) :
    decision rules (word ++ [a]) = (rules (word ++ [a])).getD (decision rules word) := by
  have hinits : (word ++ [a]).inits = word.inits ++ [word ++ [a]] := by simp [List.inits_append]
  rw [decision, hinits, List.reverse_append, List.reverse_singleton, List.singleton_append, List.findSome?_cons]
  cases rules (word ++ [a]) with
  | none => rfl
  | some flag => rfl

@[simp] theorem above_concat (rules : Rules α) (word : List α) (a : α) :
    above rules (word ++ [a]) = decision rules word := by
  rw [above, if_neg (by simp), List.dropLast_concat]

/-- A rule for the word itself comes before the shorter ones. -/
theorem decision_eq (rules : Rules α) (word : List α) :
    decision rules word = (rules word).getD (above rules word) := by
  induction word using List.reverseRecOn with
  | nil => rw [decision_nil, above, if_pos rfl]
  | append_singleton word a => rw [decision_concat, above_concat]

/-- Only the prefixes of a word matter. -/
theorem decision_congr (h : ∀ k, k <+: word → rules' k = rules k) : decision rules' word = decision rules word := by
  induction word using List.reverseRecOn with
  | nil => rw [decision_nil, decision_nil, h [] (List.prefix_refl _)]
  | append_singleton word a ih =>
    rw [decision_concat, decision_concat, h _ (List.prefix_refl _), ih fun k hk =>
      h k (hk.trans (List.prefix_append _ _))]

theorem above_congr (h : ∀ k, k <+: word → k ≠ word → rules' k = rules k) : above rules' word = above rules word := by
  induction word using List.reverseRecOn with
  | nil => rfl
  | append_singleton word a =>
    rw [above_concat, above_concat, decision_congr fun k hk => h k (hk.trans (List.prefix_append _ _)) ?_]
    rintro rfl
    exact absurd hk.length_le (by simp)

theorem Free.prefix_left {word' : List α} (h : Free rules k word) (hword : word' <+: word) : Free rules k word' :=
  fun k' hk hne hk' => h k' hk hne (hk'.trans hword)

/-- Without rules the decision is no. -/
theorem decision_eq_default (h : ∀ k, k <+: word → rules k = none) : decision rules word = false := by
  induction word using List.reverseRecOn with
  | nil => rw [decision_nil, h [] (List.prefix_refl _), Option.getD_none]
  | append_singleton word a ih =>
    rw [decision_concat, h _ (List.prefix_refl _), Option.getD_none,
      ih fun k hk => h k (hk.trans (List.prefix_append _ _))]

theorem Free.congr (h : Free rules k word) (hsame : ∀ k' ≠ k, rules' k' = rules k') : Free rules' k word :=
  fun k' hk hne hk' => (hsame k' hne).trans (h k' hk hne hk')

theorem decision_of_rule {flag : Bool} (h : rules word = some flag) : decision rules word = flag := by
  rw [decision_eq, h, Option.getD_some]

/-- Between a rule and the next longer ones nothing changes. -/
theorem decision_of_free (hk : k <+: word) (h : Free rules k word) : decision rules word = decision rules k := by
  induction word using List.reverseRecOn with
  | nil => rw [List.prefix_nil.mp hk]
  | append_singleton word a ih =>
    rcases List.prefix_concat_iff.mp hk with rfl | hk'
    · rfl
    · have hne : word ++ [a] ≠ k := by
        rintro rfl
        exact absurd hk'.length_le (by simp)
      rw [decision_concat, h _ hk hne (List.prefix_refl _), Option.getD_none,
        ih hk' (h.prefix_left (List.prefix_append _ _))]

/-- A longer rule decides what it decided before. -/
theorem decision_of_not_free (hsame : ∀ k', k' ≠ k → k' <+: word → rules' k' = rules k')
    (h : ¬ (k <+: word ∧ Free rules k word)) : decision rules' word = decision rules word := by
  induction word using List.reverseRecOn with
  | nil =>
    have hne : [] ≠ k := by
      rintro rfl
      exact h ⟨List.prefix_refl _, fun k' _ hne hnil => absurd (List.prefix_nil.mp hnil) hne⟩
    rw [decision_nil, decision_nil, hsame [] hne (List.prefix_refl _)]
  | append_singleton word a ih =>
    by_cases hself : word ++ [a] = k
    · subst hself
      refine absurd ⟨List.prefix_refl _, fun k' hk hne hk' => absurd ?_ hne⟩ h
      exact hk'.eq_of_length (Nat.le_antisymm hk'.length_le hk.length_le)
    · rw [decision_concat, decision_concat, hsame _ hself (List.prefix_refl _)]
      cases hrule : rules (word ++ [a]) with
      | some flag => rfl
      | none =>
        refine ih (fun k' hne hk' => hsame k' hne (hk'.trans (List.prefix_append _ _))) ?_
        rintro ⟨hk, hfree⟩
        refine h ⟨hk.trans (List.prefix_append _ _), fun k' hkk' hne hk' => ?_⟩
        rcases List.prefix_concat_iff.mp hk' with rfl | hk'
        · exact hrule
        · exact hfree k' hkk' hne hk'

/-- Rules go that say what the shorter ones say. -/
theorem decision_eq_of_redundant
    (h : ∀ k, k <+: word → rules' k = rules k ∨ rules' k = none ∧ rules k = some (above rules k)) :
    decision rules' word = decision rules word := by
  induction word using List.reverseRecOn with
  | nil =>
    rcases h [] (List.prefix_refl _) with hsame | ⟨hnone, hsome⟩
    · rw [decision_nil, decision_nil, hsame]
    · rw [decision_nil, decision_nil, hnone, hsome]
      rfl
  | append_singleton word a ih =>
    have ih := ih fun k hk => h k (hk.trans (List.prefix_append _ _))
    rcases h _ (List.prefix_refl _) with hsame | ⟨hnone, hsome⟩
    · rw [decision_concat, decision_concat, hsame, ih]
    · rw [decision_concat, decision_concat, hnone, hsome, above_concat, Option.getD_none, Option.getD_some, ih]

/-- Below a rule that says no, it stays no as long as no rule says yes. -/
theorem decision_eq_false (hk : k <+: word) (hfalse : decision rules k = false)
    (h : ∀ k', k <+: k' → k' ≠ k → k' <+: word → rules k' ≠ some true) : decision rules word = false := by
  induction word using List.reverseRecOn with
  | nil => rwa [← List.prefix_nil.mp hk]
  | append_singleton word a ih =>
    rcases List.prefix_concat_iff.mp hk with rfl | hk'
    · exact hfalse
    · have hne : word ++ [a] ≠ k := by
        rintro rfl
        exact absurd hk'.length_le (by simp)
      have ih := ih hk' fun k' hkk' hne hk' => h k' hkk' hne (hk'.trans (List.prefix_append _ _))
      have hrule := h _ hk hne (List.prefix_refl _)
      rw [decision_concat]
      cases hrules : rules (word ++ [a]) with
      | none => exact ih
      | some flag =>
        cases flag with
        | false => rfl
        | true => exact absurd hrules hrule

theorem above_eq_false (hk : k <+: word) (hne : word ≠ k) (hfalse : decision rules k = false)
    (h : ∀ k', k <+: k' → k' ≠ k → k' <+: word → rules k' ≠ some true) : above rules word = false := by
  induction word using List.reverseRecOn with
  | nil => rfl
  | append_singleton word a =>
    rw [above_concat]
    exact decision_eq_false ((List.prefix_concat_iff.mp hk).resolve_left hne.symm) hfalse
      fun k' hkk' hne' hk' => h k' hkk' hne' (hk'.trans (List.prefix_append _ _))

/-- Rules that say no go, and rules that say yes come. -/
theorem decision_mono (hyes : ∀ k, k <+: word → rules k = some true → rules' k = some true)
    (hno : ∀ k, k <+: word → rules k = none → rules' k ≠ some false) (h : decision rules word = true) :
    decision rules' word = true := by
  induction word using List.reverseRecOn with
  | nil =>
    rw [decision_nil] at h ⊢
    cases hrule : rules [] with
    | none => simp [hrule] at h
    | some flag =>
      rw [hrule] at h
      subst h
      rw [hyes [] (List.prefix_refl _) hrule]
      rfl
  | append_singleton word a ih =>
    rw [decision_concat] at h ⊢
    cases hrule : rules (word ++ [a]) with
    | some flag =>
      rw [hrule] at h
      subst h
      rw [hyes _ (List.prefix_refl _) hrule]
      rfl
    | none =>
      rw [hrule] at h
      have ih := ih (fun k hk => hyes k (hk.trans (List.prefix_append _ _)))
        (fun k hk => hno k (hk.trans (List.prefix_append _ _))) h
      have hrule' := hno _ (List.prefix_refl _) hrule
      cases hrules' : rules' (word ++ [a]) with
      | none => exact ih
      | some flag =>
        cases flag with
        | true => rfl
        | false => exact absurd hrules' hrule'

/-! ## What is decided without a rule -/

theorem above_eq_of_redundant
    (h : ∀ k ≠ word, rules' k = rules k ∨ rules' k = none ∧ rules k = some (above rules k)) :
    above rules' word = above rules word := by
  induction word using List.reverseRecOn with
  | nil => rfl
  | append_singleton word a =>
    rw [above_concat, above_concat]
    refine decision_eq_of_redundant fun k hk => h k ?_
    rintro rfl
    exact absurd hk.length_le (by simp)

theorem above_mono (hyes : ∀ k, rules k = some true → rules' k = some true)
    (hno : ∀ k, rules k = none → rules' k ≠ some false) (h : above rules word = true) : above rules' word = true := by
  induction word using List.reverseRecOn with
  | nil => simp [above] at h
  | append_singleton word a =>
    rw [above_concat] at h ⊢
    exact decision_mono (fun k _ => hyes k) (fun k _ => hno k) h

/-! ## Rules that say no -/

/-- A new rule that says no, and rules that say no go where it is no without them. -/
def Excludes (rules rules' : Rules α) (k : List α) : Prop :=
  rules' k = some false ∧ ∀ k' ≠ k, rules' k' = rules k' ∨
    rules' k' = none ∧ rules k' = some false ∧ above rules k' = false

section

variable [DecidableEq α]

theorem Excludes.redundant (h : Excludes rules rules' k) (k' : List α) :
    rules' k' = Function.update rules k (some false) k' ∨
      rules' k' = none ∧ Function.update rules k (some false) k' =
        some (above (Function.update rules k (some false)) k') := by
  by_cases hk : k' = k
  · subst hk
    rw [Function.update_self]
    exact .inl h.1
  · rw [Function.update_of_ne hk]
    refine (h.2 k' hk).imp_right fun hgone => ⟨hgone.1, ?_⟩
    have habove : above (Function.update rules k (some false)) k' = false := by
      refine Bool.eq_false_iff.mpr fun htrue => ?_
      refine Bool.false_ne_true (hgone.2.2.symm.trans (above_mono (fun w hw => ?_) (fun w hw => ?_) htrue))
      · by_cases hwk : w = k
        · simp [hwk] at hw
        · rwa [Function.update_of_ne hwk] at hw
      · by_cases hwk : w = k
        · simp [hwk] at hw
        · rw [Function.update_of_ne hwk] at hw
          simp [hw]
    rw [habove, hgone.2.1]

/-- The decision below the new rule. -/
theorem Excludes.decision_of_free (h : Excludes rules rules' k) (hk : k <+: word) (hfree : Free rules k word) :
    decision rules' word = false := by
  have hfree' : Free (Function.update rules k (some false)) k word :=
    hfree.congr fun k' hne => Function.update_of_ne hne _ _
  rw [decision_eq_of_redundant fun k' _ => h.redundant k', LongestMatch.decision_of_free hk hfree',
    decision_of_rule (Function.update_self ..)]

/-- Elsewhere nothing changes. -/
theorem Excludes.decision_of_not_free (h : Excludes rules rules' k) (hout : ¬ (k <+: word ∧ Free rules k word)) :
    decision rules' word = decision rules word := by
  rw [decision_eq_of_redundant fun k' _ => h.redundant k',
    LongestMatch.decision_of_not_free (fun k' hne _ => Function.update_of_ne hne _ _) hout]

theorem Excludes.above_eq (h : Excludes rules rules' k) : above rules' k = above rules k := by
  rw [above_eq_of_redundant fun k' _ => h.redundant k',
    above_congr fun k' _ hne => Function.update_of_ne hne _ _]

end

/-- A rule goes, and rules that say no go where it is no without them. -/
def Unexcludes (rules rules' : Rules α) (k : List α) : Prop :=
  rules' k = none ∧ ∀ k' ≠ k, rules' k' = rules k' ∨
    rules' k' = none ∧ rules k' = some false ∧ above rules k' = false

/-- The decision below the rule, where no rule is left. -/
theorem Unexcludes.decision_of_free (h : Unexcludes rules rules' k) (hk : k <+: word) (hfree : Free rules' k word) :
    decision rules' word = above rules k := by
  rw [LongestMatch.decision_of_free hk hfree, decision_eq, h.1, Option.getD_none]
  exact above_eq_of_redundant fun k' hne => (h.2 k' hne).imp_right fun hgone => ⟨hgone.1, by rw [hgone.2.2, hgone.2.1]⟩

/-- Elsewhere nothing changes. -/
theorem Unexcludes.decision_of_not_free (h : Unexcludes rules rules' k)
    (hout : ¬ (k <+: word ∧ Free rules' k word)) : decision rules' word = decision rules word := by
  induction word using List.reverseRecOn with
  | nil =>
    have hne : [] ≠ k := by
      rintro rfl
      exact hout ⟨List.prefix_refl _, fun k' _ hne hnil => absurd (List.prefix_nil.mp hnil) hne⟩
    rw [decision_nil, decision_nil]
    rcases h.2 [] hne with hsame | ⟨hnone, hfalse, -⟩
    · rw [hsame]
    · rw [hnone, hfalse]
      rfl
  | append_singleton word a ih =>
    by_cases hself : word ++ [a] = k
    · subst hself
      refine absurd ⟨List.prefix_refl _, fun k' hk hne hk' => absurd ?_ hne⟩ hout
      exact hk'.eq_of_length (Nat.le_antisymm hk'.length_le hk.length_le)
    · have ih : rules' (word ++ [a]) = none → decision rules' word = decision rules word := by
        refine fun hnone => ih ?_
        rintro ⟨hk, hfree⟩
        refine hout ⟨hk.trans (List.prefix_append _ _), fun k' hkk' hne hk' => ?_⟩
        rcases List.prefix_concat_iff.mp hk' with rfl | hk'
        · exact hnone
        · exact hfree k' hkk' hne hk'
      rw [decision_concat, decision_concat]
      rcases h.2 _ hself with hsame | ⟨hnone, hfalse, habove⟩
      · rw [hsame] at ih ⊢
        cases hrule : rules (word ++ [a]) with
        | none => exact ih hrule
        | some flag => rfl
      · rw [hnone, hfalse, Option.getD_none, Option.getD_some, ih hnone, ← above_concat rules word a, habove]

end LongestMatch
