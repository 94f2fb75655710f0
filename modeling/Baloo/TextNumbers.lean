import Baloo.Agreement
import Baloo.Indexers
import Baloo.Lib.Places
import Baloo.Result

/-!
# Numbers of terms

One generator numbers the terms of a document: first those of its text, block after block, then those of
its tags and of its comment. A tag of one term gets no number, and behind every other tag one number is left
free. So the terms of a phrase have numbers one behind another exactly where they stand side by side in the
text, in one tag or in the comment.
-/

namespace Baloo

open Places (places)

/-! ## Documents with texts -/

/-- The prefix of the terms of a tag. -/
def tagPrefix : QByteArray := [84, 65]

/-- The prefix of the terms of a comment. -/
def commentPrefix : QByteArray := [67]

/-- The texts of a document. -/
structure Texts where
  /-- the blocks of its running text -/
  content : List (List QChar)
  /-- its tags -/
  tags : List (List QChar)
  /-- its comment -/
  comment : Option (List QChar)

/-- One generator indexes the texts of a document. -/
def Texts.index (tokens : Tokenizer) (texts : Texts) (doc : Document) : Document :=
  let tg := indexText tokens { doc := doc } texts.content
  let tg := texts.tags.foldl (fun tg tag => tg.indexXattrText tokens tag tagPrefix) tg
  (texts.comment.elim tg fun comment => tg.indexXattrText tokens comment commentPrefix).doc

/-- The terms of the running text. -/
def Texts.contentTerms (tokens : Tokenizer) (texts : Texts) : List Term := texts.content.flatMap tokens.termList

/-! ## What the generator numbers -/

/-- The positions of a term. -/
def positionsOf (terms : OrdMap Term TermData) (t : Term) : List UInt32 := ((terms.get t).getD {}).positions

@[simp] theorem positionsOf_empty (t : Term) : positionsOf ∅ t = [] := by
  rw [positionsOf, OrdMap.get_empty]
  rfl

theorem positionsOf_of_get {terms : OrdMap Term TermData} {t : Term} (h : terms.get t = none) :
    positionsOf terms t = [] := by
  rw [positionsOf, h]
  rfl

/-- A number that the generator has given: to a term of a family, or to nothing. -/
abbrev Slot : Type := Option (Family × Term)

/-- The numbers of the terms of a block. -/
def contentSlots (terms : List Term) : List Slot := terms.map fun t => some (.terms, t)

/-- The numbers of an extended attribute. -/
def xattrSlots (pre : QByteArray) : List Term → List Slot
  | [_] => []
  | terms => terms.map (fun t => some (.xattrTerms, pre ++ t)) ++ [none]

/-- The numbers of the texts of a document. -/
def Texts.slots (tokens : Tokenizer) (texts : Texts) : List Slot :=
  contentSlots (texts.contentTerms tokens) ++
    (texts.tags.flatMap fun tag => xattrSlots tagPrefix (tokens.termList tag)) ++
    texts.comment.elim [] fun comment => xattrSlots commentPrefix (tokens.termList comment)

/-- The generator has given the numbers `slots`, and the terms have them as positions behind those that they
had before. -/
structure Numbered (doc : Document) (tg : TermGenerator) (slots : List Slot) : Prop where
  /-- the next number -/
  position : tg.position = UInt32.ofNat (1 + slots.length)
  /-- the positions -/
  positions : ∀ f t, positionsOf (tg.doc.family f) t =
    positionsOf (doc.family f) t ++ (places 1 (some (f, t)) slots).map UInt32.ofNat

section Numbers

variable {doc : Document} {tg : TermGenerator} {slots : List Slot} (tokens : Tokenizer)

theorem Numbered.start (doc : Document) : Numbered doc { doc := doc } [] :=
  ⟨rfl, fun _ _ => (List.append_nil _).symm⟩

theorem positionsOf_touch (terms : OrdMap Term TermData) (term t : Term) :
    positionsOf (Document.touch terms term) t = positionsOf terms t := by
  rw [Document.touch]
  split
  · rfl
  · next hterm =>
    rw [positionsOf, positionsOf, OrdMap.get_put]
    split
    · next heq =>
      subst heq
      rw [OrdMap.contains, Bool.not_eq_true, Option.isSome_eq_false_iff, Option.isNone_iff_eq_none] at hterm
      rw [hterm]
      rfl
    · rfl

theorem positionsOf_appendPosition (terms : OrdMap Term TermData) (term t : Term) (position : UInt32) :
    positionsOf (Document.appendPosition terms term position) t =
      positionsOf terms t ++ if term = t then [position] else [] := by
  rw [Document.appendPosition, positionsOf, positionsOf, OrdMap.get_put]
  by_cases h : t = term
  · simp [h]
  · simp [h, Ne.symm h]

/-- The next number, given to nothing or to a term. -/
theorem Numbered.snoc (h : Numbered doc tg slots) {tg' : TermGenerator} {slot : Slot}
    (hposition : tg'.position = tg.position + 1)
    (hpositions : ∀ f t, positionsOf (tg'.doc.family f) t =
      positionsOf (tg.doc.family f) t ++ if slot = some (f, t) then [tg.position] else []) :
    Numbered doc tg' (slots ++ [slot]) := by
  constructor
  · rw [hposition, h.position, List.length_append, List.length_singleton, ← Nat.add_assoc,
      UInt32.ofNat_add (1 + slots.length) 1]
    rfl
  · intro f t
    rw [hpositions, h.positions, Places.places_append, List.map_append, ← List.append_assoc, h.position]
    congr 1
    rw [Places.places, Places.places]
    split <;> rfl

/-- The terms of a text get one number after another. -/
theorem Numbered.terms (h : Numbered doc tg slots) {step : TermGenerator → Term → TermGenerator}
    {slot : Term → Slot}
    (hstep : ∀ tg slots term, Numbered doc tg slots → Numbered doc (step tg term) (slots ++ [slot term]))
    (terms : List Term) : Numbered doc (terms.foldl step tg) (slots ++ terms.map slot) := by
  induction terms generalizing tg slots with
  | nil => rwa [List.map_nil, List.append_nil]
  | cons term terms ih =>
    rw [List.map_cons, List.append_cons]
    exact ih (hstep tg slots term h)

/-- `TermGenerator::indexText`. -/
theorem Numbered.indexText (h : Numbered doc tg slots) (text : List QChar) :
    Numbered doc (tg.indexText tokens text) (slots ++ contentSlots (tokens.termList text)) := by
  refine h.terms (fun tg slots term h => h.snoc rfl fun f t => ?_) _
  cases f with
  | terms =>
    refine (positionsOf_appendPosition ..).trans ?_
    simp [Document.family]
  | xattrTerms => simp [Document.family, Document.addPositionTerm]
  | fileNameTerms => simp [Document.family, Document.addPositionTerm]

/-- The blocks of the running text. -/
theorem Numbered.content (h : Numbered doc tg slots) (content : List (List QChar)) :
    Numbered doc (Baloo.indexText tokens tg content) (slots ++ contentSlots (content.flatMap tokens.termList)) := by
  induction content generalizing tg slots with
  | nil => exact (List.append_nil slots).symm ▸ h
  | cons text content ih =>
    have hrest := ih (h.indexText tokens text)
    rw [List.append_assoc, contentSlots, contentSlots, ← List.map_append, ← List.flatMap_cons] at hrest
    exact hrest

/-- `TermGenerator::indexXattrText`. -/
theorem Numbered.indexXattrText (h : Numbered doc tg slots) (text : List QChar) (pre : QByteArray) :
    Numbered doc (tg.indexXattrText tokens text pre) (slots ++ xattrSlots pre (tokens.termList text)) := by
  have hstep : ∀ (tg : TermGenerator) (slots : List Slot) (term : Term), Numbered doc tg slots → Numbered doc
      { doc := tg.doc.addXattrPositionTerm (pre ++ term) tg.position, position := tg.position + 1 }
      (slots ++ [some (Family.xattrTerms, pre ++ term)]) := by
    refine fun tg slots term h => h.snoc rfl fun f t => ?_
    cases f with
    | terms => simp [Document.family, Document.addXattrPositionTerm]
    | xattrTerms =>
      refine (positionsOf_appendPosition ..).trans ?_
      simp [Document.family]
    | fileNameTerms => simp [Document.family, Document.addXattrPositionTerm]
  simp only [TermGenerator.indexXattrText]
  split
  · next term hterm =>
    rw [hterm, xattrSlots, List.append_nil]
    refine ⟨h.position, fun f t => ?_⟩
    rw [← h.positions]
    cases f with
    | terms => rfl
    | xattrTerms => exact positionsOf_touch ..
    | fileNameTerms => rfl
  · next hne =>
    -- one number is left free
    rw [xattrSlots, ← List.append_assoc]
    · exact (h.terms hstep (tokens.termList text)).snoc rfl fun f t => by simp
    · exact hne

/-- The tags. -/
theorem Numbered.tags (h : Numbered doc tg slots) (tags : List (List QChar)) :
    Numbered doc (tags.foldl (fun tg tag => tg.indexXattrText tokens tag tagPrefix) tg)
      (slots ++ tags.flatMap fun tag => xattrSlots tagPrefix (tokens.termList tag)) := by
  induction tags generalizing tg slots with
  | nil => exact (List.append_nil slots).symm ▸ h
  | cons tag tags ih =>
    rw [List.flatMap_cons, ← List.append_assoc]
    exact ih (h.indexXattrText tokens tag tagPrefix)

/-- **All texts.** A term has the positions that it had before and its numbers. -/
theorem Texts.positions_index (texts : Texts) (doc : Document) (f : Family) (t : Term) :
    positionsOf ((texts.index tokens doc).family f) t =
      positionsOf (doc.family f) t ++ (places 1 (some (f, t)) (texts.slots tokens)).map UInt32.ofNat := by
  have htags := ((Numbered.start doc).content tokens texts.content).tags tokens texts.tags
  rw [List.nil_append] at htags
  rw [Texts.index, Texts.slots, contentTerms]
  rcases texts.comment with _ | comment
  · rw [Option.elim_none, Option.elim_none, List.append_nil]
    exact htags.positions f t
  · exact (htags.indexXattrText tokens comment commentPrefix).positions f t

end Numbers

/-! ## What the generator adds -/

/-- All terms of the document, with their families, have the property. -/
def Document.AllTerms (P : Family → Term → Prop) (doc : Document) : Prop :=
  ∀ f t, (doc.family f).contains t = true → P f t

section Terms

variable {P : Family → Term → Prop} {doc : Document} {tg : TermGenerator} {tokens : Tokenizer} {text : List QChar}
  {pre : QByteArray}

theorem contains_appendPosition (terms : OrdMap Term TermData) (term t : Term) (position : UInt32) :
    (Document.appendPosition terms term position).contains t = true ↔ t = term ∨ terms.contains t = true := by
  simp [Document.appendPosition]

theorem Document.AllTerms.foldl {step : TermGenerator → Term → TermGenerator} {terms : List Term}
    (hstep : ∀ tg, AllTerms P tg.doc → ∀ term ∈ terms, AllTerms P (step tg term).doc) (h : AllTerms P tg.doc) :
    AllTerms P (terms.foldl step tg).doc := by
  induction terms generalizing tg with
  | nil => exact h
  | cons term terms ih =>
    exact ih (fun tg h t ht => hstep tg h t (List.mem_cons_of_mem _ ht)) (hstep tg h term List.mem_cons_self)

theorem Document.AllTerms.indexText (h : AllTerms P tg.doc) (hP : ∀ t ∈ tokens.termList text, P .terms t) :
    AllTerms P (tg.indexText tokens text).doc := by
  refine Document.AllTerms.foldl (fun tg h term hterm f t ht => ?_) h
  cases f with
  | terms =>
    rcases (contains_appendPosition ..).mp ht with rfl | ht
    · exact hP _ hterm
    · exact h _ t ht
  | xattrTerms => exact h .xattrTerms t ht
  | fileNameTerms => exact h .fileNameTerms t ht

theorem Document.AllTerms.indexXattrText (h : AllTerms P tg.doc)
    (hP : ∀ t ∈ tokens.termList text, P .xattrTerms (pre ++ t)) :
    AllTerms P (tg.indexXattrText tokens text pre).doc := by
  simp only [TermGenerator.indexXattrText]
  split
  · next term hterm =>
    intro f t ht
    cases f with
    | terms => exact h .terms t ht
    | xattrTerms =>
      rcases (contains_touch ..).mp ht with rfl | ht
      · exact hP term (by rw [hterm]; exact List.mem_singleton_self term)
      · exact h .xattrTerms t ht
    | fileNameTerms => exact h .fileNameTerms t ht
  · refine Document.AllTerms.foldl (fun tg h term hterm f t ht => ?_) h
    cases f with
    | terms => exact h .terms t ht
    | xattrTerms =>
      rcases (contains_appendPosition ..).mp ht with rfl | ht
      · exact hP _ hterm
      · exact h _ t ht
    | fileNameTerms => exact h .fileNameTerms t ht

/-- **All texts** add terms of the running text, of the tags and of the comment. -/
theorem Document.AllTerms.index (h : AllTerms P doc) (texts : Texts)
    (hcontent : ∀ t ∈ texts.contentTerms tokens, P .terms t)
    (htags : ∀ tag ∈ texts.tags, ∀ t ∈ tokens.termList tag, P .xattrTerms (tagPrefix ++ t))
    (hcomment : ∀ comment ∈ texts.comment, ∀ t ∈ tokens.termList comment, P .xattrTerms (commentPrefix ++ t)) :
    AllTerms P (texts.index tokens doc) := by
  have hblocks : ∀ (content : List (List QChar)) (tg : TermGenerator), AllTerms P tg.doc →
      (∀ text ∈ content, ∀ t ∈ tokens.termList text, P .terms t) →
      AllTerms P (Baloo.indexText tokens tg content).doc := by
    intro content
    induction content with
    | nil => exact fun _ h _ => h
    | cons text content ih =>
      intro tg h hP
      obtain ⟨htext, hrest⟩ := List.forall_mem_cons.mp hP
      exact ih _ (h.indexText htext) hrest
  have hattrs : ∀ (tags : List (List QChar)) (tg : TermGenerator), AllTerms P tg.doc →
      (∀ tag ∈ tags, ∀ t ∈ tokens.termList tag, P .xattrTerms (tagPrefix ++ t)) →
      AllTerms P (tags.foldl (fun tg tag => tg.indexXattrText tokens tag tagPrefix) tg).doc := by
    intro tags
    induction tags with
    | nil => exact fun _ h _ => h
    | cons tag tags ih =>
      intro tg h hP
      obtain ⟨htag, hrest⟩ := List.forall_mem_cons.mp hP
      exact ih _ (h.indexXattrText htag) hrest
  have hall := hattrs texts.tags _ (hblocks texts.content { doc := doc } h fun text htext t ht =>
    hcontent t (List.mem_flatMap.mpr ⟨text, htext, ht⟩)) htags
  rw [Texts.index]
  rcases hc : texts.comment with _ | comment
  · exact hall
  · exact hall.indexXattrText (hcomment comment hc)

/-- The texts change nothing but two families of terms. -/
theorem Texts.index_frame (tokens : Tokenizer) (texts : Texts) (doc : Document) : ∃ xattrTerms,
    texts.index tokens doc =
      { doc with
        terms := (Baloo.indexText tokens { doc := doc } texts.content).doc.terms
        xattrTerms := xattrTerms } := by
  have htags : ∀ (tags : List (List QChar)) (tg : TermGenerator), ∃ xattrTerms,
      (tags.foldl (fun tg tag => tg.indexXattrText tokens tag tagPrefix) tg).doc =
        { tg.doc with xattrTerms := xattrTerms } := by
    intro tags
    induction tags with
    | nil => exact fun tg => ⟨tg.doc.xattrTerms, rfl⟩
    | cons tag tags ih =>
      intro tg
      obtain ⟨terms, hterms⟩ := BasicIndexingJob.indexXattrText_frame tokens tg tag tagPrefix
      obtain ⟨terms', hterms'⟩ := ih (tg.indexXattrText tokens tag tagPrefix)
      exact ⟨terms', hterms'.trans (by rw [hterms])⟩
  obtain ⟨terms, hterms⟩ := indexText_frame tokens texts.content { doc := doc }
  obtain ⟨xattrTerms, hxattrTerms⟩ := htags texts.tags (Baloo.indexText tokens { doc := doc } texts.content)
  rw [hterms] at hxattrTerms
  rw [Texts.index, hterms]
  rcases texts.comment with _ | comment
  · exact ⟨xattrTerms, hxattrTerms⟩
  · obtain ⟨terms', hterms'⟩ := BasicIndexingJob.indexXattrText_frame tokens
      (texts.tags.foldl (fun tg tag => tg.indexXattrText tokens tag tagPrefix)
        (Baloo.indexText tokens { doc := doc } texts.content)) comment commentPrefix
    refine ⟨terms', hterms'.trans ?_⟩
    rw [hxattrTerms]

end Terms

/-! ## Where a phrase stands -/

/-- A term that does not begin like those of the tags or of the comment. -/
def Plain (t : Term) : Prop := ¬ tagPrefix <+: t ∧ ¬ commentPrefix <+: t

instance : DecidablePred Plain := fun _ => inferInstanceAs (Decidable (_ ∧ _))

section Slots

variable {tokens : Tokenizer} {texts : Texts} {terms stored : List Term} {pre : QByteArray} {f : Family} {t : Term}

theorem mem_xattrSlots (h : some (f, t) ∈ xattrSlots pre stored) : f = .xattrTerms ∧ pre <+: t := by
  rw [xattrSlots.eq_def] at h
  split at h
  · cases h
  · obtain ⟨x, -, hx⟩ : ∃ x ∈ stored, some (Family.xattrTerms, pre ++ x) = some (f, t) := by simpa using h
    obtain ⟨rfl, rfl⟩ : Family.xattrTerms = f ∧ pre ++ x = t := by simpa using hx
    exact ⟨rfl, List.prefix_append pre x⟩

theorem mem_tagSlots {tags : List (List QChar)}
    (h : some (f, t) ∈ tags.flatMap fun tag => xattrSlots tagPrefix (tokens.termList tag)) :
    f = .xattrTerms ∧ tagPrefix <+: t := by
  obtain ⟨tag, -, htag⟩ := List.mem_flatMap.mp h
  exact mem_xattrSlots htag

theorem mem_commentSlots {comment : Option (List QChar)}
    (h : some (f, t) ∈ comment.elim [] fun comment => xattrSlots commentPrefix (tokens.termList comment)) :
    f = .xattrTerms ∧ commentPrefix <+: t := by
  rcases comment with _ | comment
  · cases h
  · exact mem_xattrSlots h

/-- No term begins like that of a tag and like that of a comment. -/
theorem not_both (htag : tagPrefix <+: t) : ¬ commentPrefix <+: t := by
  rintro ⟨y, hy⟩
  obtain ⟨x, rfl⟩ := htag
  exact absurd (List.cons.inj hy).1 (by decide)

/-- A number of a family goes to a term of the running text, of a tag or of the comment. -/
theorem mem_slots (h : some (f, t) ∈ texts.slots tokens) :
    f = .terms ∧ t ∈ texts.contentTerms tokens ∨ f = .xattrTerms ∧ (tagPrefix <+: t ∨ commentPrefix <+: t) := by
  rw [Texts.slots, List.mem_append, List.mem_append] at h
  rcases h with (h | h) | h
  · obtain ⟨x, hx, heq⟩ := List.mem_map.mp h
    obtain ⟨rfl, rfl⟩ : Family.terms = f ∧ x = t := by simpa using heq
    exact .inl ⟨rfl, hx⟩
  · exact .inr ((mem_tagSlots h).imp_right .inl)
  · exact .inr ((mem_commentSlots h).imp_right .inr)

theorem slot_injective (f : Family) (pre : QByteArray) :
    Function.Injective fun t : Term => (some (f, pre ++ t) : Slot) := by
  intro t u h
  simpa using h

theorem map_ne_nil (slot : Term → Slot) (hlen : 2 ≤ terms.length) : terms.map slot ≠ [] := by
  intro hnil
  rw [List.map_eq_nil_iff.mp hnil] at hlen
  cases hlen

/-- A phrase in the running text. -/
theorem infix_content (hlen : 2 ≤ terms.length) : terms.map (fun t => some (Family.terms, t)) <:+: texts.slots tokens ↔
    terms <:+: texts.contentTerms tokens := by
  have hne := map_ne_nil (fun t => some (Family.terms, t)) hlen
  have havoids : ∀ slot ∈ terms.map (fun t => (some (Family.terms, t) : Slot)),
      ∃ t, slot = some (Family.terms, t) := by
    intro slot hslot
    obtain ⟨t, -, rfl⟩ := List.mem_map.mp hslot
    exact ⟨t, rfl⟩
  rw [Texts.slots, Places.infix_append_of_avoids_right hne, Places.infix_append_of_avoids_right hne]
  · exact Places.map_infix_map_iff (slot_injective .terms [])
  · intro slot hslot hmem
    obtain ⟨t, rfl⟩ := havoids slot hslot
    exact Family.noConfusion (mem_tagSlots hmem).1
  · intro slot hslot hmem
    obtain ⟨t, rfl⟩ := havoids slot hslot
    exact Family.noConfusion (mem_commentSlots hmem).1

theorem sep_notMem (terms : List Term) : none ∉ terms.map fun t => (some (f, pre ++ t) : Slot) := by
  simp

/-- An attribute has no numbers, or the last one is left free. -/
theorem xattrSlots_part (pre : QByteArray) (stored : List Term) :
    xattrSlots pre stored = [] ∨ ∃ xs, xattrSlots pre stored = xs ++ [none] := by
  rw [xattrSlots.eq_def]
  split
  · exact .inl rfl
  · exact .inr ⟨_, rfl⟩

/-- A phrase in one extended attribute. -/
theorem infix_xattrSlots (hlen : 2 ≤ terms.length) :
    terms.map (fun t => some (Family.xattrTerms, pre ++ t)) <:+: xattrSlots pre stored ↔ terms <:+: stored := by
  have hne := map_ne_nil (fun t => some (Family.xattrTerms, pre ++ t)) hlen
  rw [xattrSlots.eq_def]
  split
  · next t =>
    refine ⟨fun h => absurd (List.infix_nil.mp h) hne, fun h => ?_⟩
    have hle := h.length_le
    rw [List.length_singleton] at hle
    omega
  · rw [Places.infix_append_of_avoids_right hne, Places.map_infix_map_iff (slot_injective .xattrTerms pre)]
    intro slot hslot hmem
    obtain ⟨t, -, rfl⟩ := List.mem_map.mp hslot
    cases List.mem_singleton.mp hmem

/-- A phrase in the tags: it does not cross from one tag to the next. -/
theorem infix_tags (hlen : 2 ≤ terms.length) :
    terms.map (fun t => some (Family.xattrTerms, tagPrefix ++ t)) <:+: texts.slots tokens ↔
      ∃ tag ∈ texts.tags, terms <:+: tokens.termList tag := by
  have hne := map_ne_nil (fun t => some (Family.xattrTerms, tagPrefix ++ t)) hlen
  rw [Texts.slots, Places.infix_append_of_avoids_right hne, Places.infix_append_of_avoids_left hne,
    List.flatMap_def, Places.infix_flatten_iff hne (sep_notMem _)]
  · simp only [List.mem_map, exists_exists_and_eq_and, infix_xattrSlots hlen]
  · intro part hpart
    obtain ⟨tag, -, rfl⟩ := List.mem_map.mp hpart
    exact xattrSlots_part _ _
  · intro slot hslot hmem
    obtain ⟨t, -, rfl⟩ := List.mem_map.mp hslot
    obtain ⟨t', -, heq⟩ := List.mem_map.mp hmem
    cases heq
  · intro slot hslot hmem
    obtain ⟨t, -, rfl⟩ := List.mem_map.mp hslot
    exact not_both (List.prefix_append tagPrefix t) (mem_commentSlots hmem).2

/-- A phrase in the comment. -/
theorem infix_comment (hlen : 2 ≤ terms.length) :
    terms.map (fun t => some (Family.xattrTerms, commentPrefix ++ t)) <:+: texts.slots tokens ↔
      ∃ comment ∈ texts.comment, terms <:+: tokens.termList comment := by
  have hne := map_ne_nil (fun t => some (Family.xattrTerms, commentPrefix ++ t)) hlen
  rw [Texts.slots, Places.infix_append_of_avoids_left hne]
  · rcases texts.comment with _ | comment
    · simpa using hne
    · simpa using infix_xattrSlots hlen
  · intro slot hslot hmem
    obtain ⟨t, -, rfl⟩ := List.mem_map.mp hslot
    rcases List.mem_append.mp hmem with hmem | hmem
    · obtain ⟨t', -, heq⟩ := List.mem_map.mp hmem
      cases heq
    · exact not_both (mem_tagSlots hmem).2 (List.prefix_append commentPrefix t)

end Slots

end Baloo
