import Mathlib.Data.List.Nodup
import Mathlib.Data.List.Shortlex

/-!
# Replacing a pattern in a text

Wherever a pattern occurs in a text, from left to right, it is replaced by another text. Characters are compared by
a key, for example without regard to case, so what is replaced need not be the pattern itself.

Replacing may leave a text as it is, but a set of texts comes out as the same set only if this is so for each of
them (`fixed_of_map_perm`).
-/

namespace Replace

variable {α β : Type*} [DecidableEq β] (key : α → β)

/-- The text starts with the pattern. -/
def startsWith (text pattern : List α) : Bool := (pattern.map key).isPrefixOf (text.map key)

/-- Some characters are skipped first: they belong to an occurrence that has been replaced. -/
def replaceFrom (before after : List α) : ℕ → List α → List α
  | _, [] => []
  | 0, c :: text =>
    if startsWith key (c :: text) before then after ++ replaceFrom before after (before.length - 1) text
    else c :: replaceFrom before after 0 text
  | skip + 1, _ :: text => replaceFrom before after skip text

/-- Every occurrence of the first text is replaced by the second. -/
def replace (before after text : List α) : List α := replaceFrom key before after 0 text

variable {key}

theorem startsWith_iff {text pattern : List α} :
    startsWith key text pattern = true ↔ ∃ found rest, text = found ++ rest ∧ found.map key = pattern.map key := by
  rw [startsWith, List.isPrefixOf_iff_prefix]
  constructor
  · rintro ⟨rest, h⟩
    obtain ⟨found, rest', rfl, hfound, -⟩ := List.map_eq_append_iff.mp h.symm
    exact ⟨found, rest', rfl, hfound⟩
  · rintro ⟨found, rest, rfl, hfound⟩
    rw [List.map_append, hfound]
    exact List.prefix_append _ _

theorem startsWith_append {pattern rest : List α} : startsWith key (pattern ++ rest) pattern = true :=
  startsWith_iff.mpr ⟨pattern, rest, rfl, rfl⟩

omit [DecidableEq β] in
theorem length_of_map_key {found pattern : List α} (h : found.map key = pattern.map key) :
    found.length = pattern.length := by
  simpa using congrArg List.length h

variable {before after : List α}

theorem replaceFrom_eq_drop (skip : ℕ) (text : List α) :
    replaceFrom key before after skip text = replace key before after (text.drop skip) := by
  induction skip generalizing text with
  | zero => rfl
  | succ skip ih =>
    cases text with
    | nil => rfl
    | cons c text => exact ih text

@[simp] theorem replace_nil : replace key before after [] = [] := rfl

/-- An occurrence is replaced. -/
theorem replace_found {found : List α} (hbefore : before ≠ []) (hfound : found.map key = before.map key)
    (rest : List α) : replace key before after (found ++ rest) = after ++ replace key before after rest := by
  have hlen := length_of_map_key hfound
  obtain ⟨c, found, rfl⟩ : ∃ c tail, found = c :: tail :=
    List.exists_cons_of_ne_nil fun h => hbefore (List.map_eq_nil_iff.mp (by rw [← hfound, h, List.map_nil]))
  have hstarts : startsWith key (c :: (found ++ rest)) before = true := startsWith_iff.mpr ⟨_, rest, rfl, hfound⟩
  rw [List.cons_append, replace, replaceFrom, if_pos hstarts, replaceFrom_eq_drop, ← hlen, List.length_cons,
    Nat.add_sub_cancel, List.drop_left]

theorem replace_pattern (hbefore : before ≠ []) (rest : List α) :
    replace key before after (before ++ rest) = after ++ replace key before after rest :=
  replace_found hbefore rfl rest

/-- A character at which no occurrence starts stays. -/
theorem replace_cons {c : α} {text : List α} (h : ¬ startsWith key (c :: text) before = true) :
    replace key before after (c :: text) = c :: replace key before after text := by
  rw [replace, replaceFrom, if_neg h]
  rfl

/-- A text is empty, starts with an occurrence, or with a character at which none starts. -/
theorem induction_text (key : α → β) {before : List α} {motive : List α → Prop} (hbefore : before ≠ [])
    (nil : motive [])
    (found : ∀ found rest, found.map key = before.map key → motive rest → motive (found ++ rest))
    (cons : ∀ c rest, ¬ startsWith key (c :: rest) before = true → motive rest → motive (c :: rest))
    (text : List α) : motive text := by
  induction hlen : text.length using Nat.strongRecOn generalizing text with
  | ind n ih =>
    subst hlen
    cases text with
    | nil => exact nil
    | cons c text =>
      by_cases hstarts : startsWith key (c :: text) before = true
      · obtain ⟨occurrence, rest, heq, hocc⟩ := startsWith_iff.mp hstarts
        have hpos : 0 < occurrence.length := by
          rw [length_of_map_key hocc]
          exact List.length_pos_iff.mpr hbefore
        rw [heq]
        refine found occurrence rest hocc (ih _ ?_ rest rfl)
        rw [heq, List.length_append]
        omega
      · exact cons c text hstarts (ih _ (by simp) text rfl)

/-- A text in which the pattern does not occur stays as it is. -/
theorem replace_eq_self {text : List α} (h : ∀ rest, rest <:+ text → ¬ startsWith key rest before = true) :
    replace key before after text = text := by
  induction text with
  | nil => rfl
  | cons c text ih =>
    rw [replace_cons (h _ (List.suffix_refl _)), ih fun rest hrest => h rest (hrest.trans (List.suffix_cons c text))]

/-- A text without one of the characters of the pattern stays as it is. -/
theorem replace_eq_self_of_not_mem {c : α} (hc : c ∈ before) {text : List α} (h : key c ∉ text.map key) :
    replace key before after text = text := by
  refine replace_eq_self fun rest hrest hstarts => h ?_
  obtain ⟨found, rest', rfl, hfound⟩ := startsWith_iff.mp hstarts
  have hmem : key c ∈ found.map key := hfound ▸ List.mem_map_of_mem hc
  exact List.map_subset key (fun d hd => hrest.subset (List.mem_append_left _ hd)) hmem

/-- A character that is not in the pattern separates what is replaced. -/
theorem replace_append_cons (hbefore : before ≠ []) {c : α} (hc : key c ∉ before.map key) (a b : List α) :
    replace key before after (a ++ c :: b) = replace key before after a ++ c :: replace key before after b := by
  induction a using induction_text key hbefore with
  | nil =>
    refine replace_cons fun hstarts => ?_
    obtain ⟨_ | ⟨first, found⟩, rest, heq, hfound⟩ := startsWith_iff.mp hstarts
    · exact hbefore (List.map_eq_nil_iff.mp hfound.symm)
    · obtain ⟨rfl, -⟩ := List.cons.inj heq
      exact hc (hfound ▸ List.mem_cons_self)
  | found found rest hfound ih =>
    rw [List.append_assoc, replace_found hbefore hfound, ih, replace_found hbefore hfound, List.append_assoc]
  | cons first rest hnot ih =>
    have hnot' : ¬ startsWith key (first :: (rest ++ c :: b)) before = true := fun hstarts => by
      obtain ⟨found, rest', heq, hfound⟩ := startsWith_iff.mp hstarts
      rw [← List.cons_append] at heq
      rcases List.append_eq_append_iff.mp heq with ⟨middle, rfl, hmiddle⟩ | ⟨middle, hfirst, -⟩
      · cases middle with
        | nil => exact hnot (startsWith_iff.mpr ⟨first :: rest, [], by simp, by simpa using hfound⟩)
        | cons d middle =>
          obtain ⟨rfl, -⟩ := List.cons.inj hmiddle
          exact hc (hfound ▸ List.mem_map_of_mem (List.mem_append_right _ List.mem_cons_self))
      · exact hnot (startsWith_iff.mpr ⟨found, middle, hfirst, hfound⟩)
    rw [List.cons_append, replace_cons hnot', ih, replace_cons hnot, List.cons_append]

/-! ## Texts before and after -/

section

variable {γ : Type*} {r : γ → γ → Prop}

/-- Of texts as long as each other, the smaller one stays smaller, whatever follows. -/
theorem lex_append {a b : List γ} (h : List.Lex r a b) (hlen : a.length = b.length) (x y : List γ) :
    List.Lex r (a ++ x) (b ++ y) := by
  induction h with
  | nil => cases hlen
  | cons _ ih => exact .cons (ih (by simpa using hlen))
  | rel hab => exact .rel hab

/-- A smaller text, followed by one that is no greater. -/
theorem shortlex_append {a b x y : List γ} (h : List.Shortlex r a b) (hxy : x = y ∨ List.Shortlex r x y) :
    List.Shortlex r (a ++ x) (b ++ y) := by
  have hle : x.length ≤ y.length := by
    rcases hxy with rfl | hxy
    · exact le_rfl
    · exact (List.shortlex_def.mp hxy).elim le_of_lt fun h => h.1.le
  rcases List.shortlex_def.mp h with hlt | ⟨heq, hlex⟩
  · refine .of_length_lt ?_
    rw [List.length_append, List.length_append]
    omega
  · rcases hle.lt_or_eq with hlt' | heq'
    · refine .of_length_lt ?_
      rw [List.length_append, List.length_append]
      omega
    · refine .of_lex ?_ (lex_append hlex heq x y)
      rw [List.length_append, List.length_append, heq, heq']

end

/-- In an order on the keys that goes from the front to the back, a text is replaced by a smaller one if the pattern
is. -/
theorem replace_moves (lt : List β → List β → Prop)
    (happend : ∀ a b x y, lt a b → x = y ∨ lt x y → lt (a ++ x) (b ++ y))
    (hcons : ∀ c x y, lt x y → lt (c :: x) (c :: y)) (hbefore : before ≠ [])
    (h : lt (after.map key) (before.map key)) (text : List α) :
    replace key before after text = text ∨ lt ((replace key before after text).map key) (text.map key) := by
  induction text using induction_text key hbefore with
  | nil => exact .inl rfl
  | found found rest hfound ih =>
    refine .inr ?_
    rw [replace_found hbefore hfound, List.map_append, List.map_append, hfound]
    exact happend _ _ _ _ h (ih.imp (congrArg (List.map key)) id)
  | cons c rest hnot ih =>
    rw [replace_cons hnot]
    exact ih.imp (congrArg (c :: ·)) (hcons _ _ _)

theorem map_key_replace (hbefore : before ≠ []) (h : after.map key = before.map key) (text : List α) :
    (replace key before after text).map key = text.map key := by
  induction text using induction_text key hbefore with
  | nil => rfl
  | found found rest hfound ih =>
    rw [replace_found hbefore hfound, List.map_append, List.map_append, h, hfound, ih]
  | cons c rest hnot ih => rw [replace_cons hnot, List.map_cons, List.map_cons, ih]

/-- A pattern that is replaced by itself, up to the key, is found where it was. -/
theorem replace_replace (hbefore : before ≠ []) (h : after.map key = before.map key) (text : List α) :
    replace key before after (replace key before after text) = replace key before after text := by
  induction text using induction_text key hbefore with
  | nil => rfl
  | found found rest hfound ih => rw [replace_found hbefore hfound, replace_found hbefore h, ih]
  | cons c rest hnot ih =>
    have hnot' : ¬ startsWith key (c :: replace key before after rest) before = true := by
      rwa [startsWith, List.map_cons, map_key_replace hbefore h, ← List.map_cons, ← startsWith]
    rw [replace_cons hnot, replace_cons hnot', ih]

/-! ## The same texts before and after -/

/-- A map that permutes a list, and takes each of its elements nowhere or down, takes them nowhere. -/
theorem fixed_of_smaller {f : α → α} {lt : α → α → Prop} (hwf : WellFounded lt) {l : List α} (hnodup : l.Nodup)
    (hperm : (l.map f).Perm l) (h : ∀ x, f x = x ∨ lt (f x) x) : ∀ x ∈ l, f x = x := by
  intro x
  induction x using hwf.induction with
  | h x ih =>
    intro hx
    rcases h x with heq | hlt
    · exact heq
    · have hmem : f x ∈ l := hperm.subset (List.mem_map_of_mem hx)
      exact List.inj_on_of_nodup_map (hperm.nodup_iff.mpr hnodup) hmem hx (ih _ hlt hmem)

/-- The same for a map that takes them up. -/
theorem fixed_of_greater {f : α → α} {lt : α → α → Prop} (hwf : WellFounded lt) {l : List α}
    (hperm : (l.map f).Perm l) (h : ∀ x, f x = x ∨ lt x (f x)) : ∀ x ∈ l, f x = x := by
  intro x
  induction x using hwf.induction with
  | h x ih =>
    intro hx
    obtain ⟨y, hy, rfl⟩ := List.mem_map.mp (hperm.symm.subset hx)
    exact congrArg f ((h y).elim id fun hlt => ih y hlt hy)

/-- The same for a map that leaves alone what it has reached. -/
theorem fixed_of_idempotent {f : α → α} {l : List α} (hperm : (l.map f).Perm l) (h : ∀ x, f (f x) = f x) :
    ∀ x ∈ l, f x = x := by
  intro x hx
  obtain ⟨y, -, rfl⟩ := List.mem_map.mp (hperm.symm.subset hx)
  exact h y

/-- **Replacing permutes a list of texts only if it leaves each of them alone.** -/
theorem fixed_of_map_perm [LinearOrder β] [WellFoundedLT β] (hbefore : before ≠ []) {l : List (List α)}
    (hnodup : l.Nodup) (hperm : (l.map (replace key before after)).Perm l) :
    ∀ text ∈ l, replace key before after text = text := by
  have hwf := InvImage.wf (List.map key) (List.Shortlex.wf (@wellFounded_lt β _ _))
  rcases trichotomous_of (List.Shortlex (· < ·)) (after.map key) (before.map key) with h | h | h
  · refine fixed_of_smaller hwf hnodup hperm (replace_moves _ ?_ ?_ hbefore h)
    · exact fun _ _ _ _ => shortlex_append
    · exact fun _ _ _ => List.Shortlex.cons
  · exact fixed_of_idempotent hperm (replace_replace hbefore h)
  · refine fixed_of_greater hwf hperm fun text => ?_
    refine replace_moves (fun x y => List.Shortlex (· < ·) y x) ?_ ?_ hbefore h text
    · exact fun _ _ _ _ hab hxy => shortlex_append hab (hxy.imp Eq.symm id)
    · exact fun _ _ _ => List.Shortlex.cons

end Replace
