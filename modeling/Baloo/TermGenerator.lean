import Baloo.QtText
import Baloo.Store

/-!
# Terms from texts

`TermGenerator` splits texts into terms and adds the terms to a document. Terms of a file name start
with `F`, of a mimetype with `M`; the properties and the extended attributes have prefixes of their
own. Only the running text of the content and extended attributes of several terms have positions,
counted from `1` and stored as 32-bit numbers.

How a text is split (`termList`) depends on Unicode tables; here it is any function that gives terms
that are not empty.
-/

namespace Baloo

/-! ## Adding terms to a document -/

namespace Document

/-- `map[term]`: the term gets empty data if it is not there. -/
def touch (terms : OrdMap Term TermData) (term : Term) : OrdMap Term TermData :=
  if terms.contains term then terms else terms.put term {}

/-- The term gets one more position. -/
def appendPosition (terms : OrdMap Term TermData) (term : Term) (position : UInt32) :
    OrdMap Term TermData :=
  terms.put term { positions := ((terms.get term).getD {}).positions ++ [position] }

/-- `Document::addTerm`. -/
def addTerm (doc : Document) (term : Term) : Document := { doc with terms := touch doc.terms term }

/-- `Document::addPositionTerm`. -/
def addPositionTerm (doc : Document) (term : Term) (position : UInt32) : Document :=
  { doc with terms := appendPosition doc.terms term position }

/-- `Document::addXattrPositionTerm`. -/
def addXattrPositionTerm (doc : Document) (term : Term) (position : UInt32) : Document :=
  { doc with xattrTerms := appendPosition doc.xattrTerms term position }

/-- `Document::addXattrTerm`. -/
def addXattrTerm (doc : Document) (term : Term) : Document :=
  { doc with xattrTerms := touch doc.xattrTerms term }

/-- `Document::addFileNameTerm`. -/
def addFileNameTerm (doc : Document) (term : Term) : Document :=
  { doc with fileNameTerms := touch doc.fileNameTerms term }

/-- `Document::setMimetype`, by its effect on `Document::data()` of a document without data of its own;
`json` gives the serialized object with the mimetype. -/
def setMimetype (json : List QChar → QByteArray) (doc : Document) (mimetype : List QChar) : Document :=
  { doc with data := if mimetype = [] then [] else json mimetype }

end Document

theorem contains_touch (terms : OrdMap Term TermData) (term t : Term) :
    (Document.touch terms term).contains t = true ↔ t = term ∨ terms.contains t = true := by
  rw [Document.touch]
  split
  · next h =>
    refine ⟨Or.inr, ?_⟩
    rintro (rfl | ht)
    · exact h
    · exact ht
  · simp

/-- The terms of a list are added to those that are there. -/
theorem contains_foldl_touch (list : List Term) (terms : OrdMap Term TermData) (t : Term) :
    (list.foldl Document.touch terms).contains t = true ↔ t ∈ list ∨ terms.contains t = true := by
  induction list generalizing terms with
  | nil => simp
  | cons term list ih => rw [List.foldl_cons, ih, contains_touch, List.mem_cons]; tauto

/-- Terms added one after another. -/
theorem foldl_addTerm {α : Type} (f : α → Term) (list : List α) (doc : Document) :
    list.foldl (fun doc a => doc.addTerm (f a)) doc =
      { doc with terms := (list.map f).foldl Document.touch doc.terms } := by
  induction list generalizing doc with
  | nil => rfl
  | cons a list ih =>
    rw [List.foldl_cons, ih]
    rfl

theorem foldl_addFileNameTerm {α : Type} (f : α → Term) (list : List α) (doc : Document) :
    list.foldl (fun doc a => doc.addFileNameTerm (f a)) doc =
      { doc with fileNameTerms := (list.map f).foldl Document.touch doc.fileNameTerms } := by
  induction list generalizing doc with
  | nil => rfl
  | cons a list ih =>
    rw [List.foldl_cons, ih]
    rfl

/-! ## The generator -/

/-- `TermGenerator::termList`. -/
structure Tokenizer where
  /-- the terms of a text -/
  termList : List QChar → List Term
  /-- terms are not empty -/
  ne_nil : ∀ text, [] ∉ termList text

/-- `TermGenerator`. -/
structure TermGenerator where
  /-- `m_doc` -/
  doc : Document
  /-- `m_position` -/
  position : UInt32 := 1

namespace TermGenerator

variable (tokens : Tokenizer)

/-- `TermGenerator::indexText`. -/
def indexText (tg : TermGenerator) (text : List QChar) : TermGenerator :=
  (tokens.termList text).foldl (fun tg term =>
    { doc := tg.doc.addPositionTerm term tg.position, position := tg.position + 1 }) tg

/-- `TermGenerator::indexProperty`. -/
def indexProperty (tg : TermGenerator) (text : List QChar) (pre : QByteArray) : TermGenerator :=
  { tg with doc := (tokens.termList text).foldl (fun doc term => doc.addTerm (pre ++ term)) tg.doc }

/-- The prefix of the terms of a file name. -/
def fileNamePrefix : QByteArray := [70]

/-- The prefix of the terms of a mimetype. -/
def mimetypePrefix : QByteArray := [77]

/-- `TermGenerator::indexFileNameText`. -/
def indexFileNameText (tg : TermGenerator) (text : List QChar) : TermGenerator :=
  { tg with
    doc := (tokens.termList text).foldl (fun doc term => doc.addFileNameTerm (fileNamePrefix ++ term))
      tg.doc }

/-- `TermGenerator::indexMimetype`. -/
def indexMimetype (json : List QChar → QByteArray) (tg : TermGenerator) (text : List QChar) :
    TermGenerator :=
  { tg with
    doc := ((tokens.termList text).foldl (fun doc term => doc.addTerm (mimetypePrefix ++ term))
      tg.doc).setMimetype json text }

/-- `TermGenerator::indexXattrText`. -/
def indexXattrText (tg : TermGenerator) (text : List QChar) (pre : QByteArray) : TermGenerator :=
  match tokens.termList text with
  | [term] => { tg with doc := tg.doc.addXattrTerm (pre ++ term) }
  | terms =>
    let tg := terms.foldl (fun tg term =>
      { doc := tg.doc.addXattrPositionTerm (pre ++ term) tg.position
        position := tg.position + 1 }) tg
    { tg with position := tg.position + 1 }

end TermGenerator

/-- The terms of a name, with their prefix. -/
def fileNameTerms (tokens : Tokenizer) (name : List QChar) : OrdMap Term TermData :=
  ((tokens.termList name).map (TermGenerator.fileNamePrefix ++ ·)).foldl Document.touch ∅

/-- A fresh document gets the terms of the name. -/
theorem fileNameTerms_indexFileNameText (tokens : Tokenizer) (tg : TermGenerator) (name : List QChar)
    (h : tg.doc.fileNameTerms = ∅) : (tg.indexFileNameText tokens name).doc =
      { tg.doc with fileNameTerms := fileNameTerms tokens name } := by
  rw [TermGenerator.indexFileNameText, foldl_addFileNameTerm, h]
  rfl

theorem contains_fileNameTerms (tokens : Tokenizer) (name : List QChar) (t : Term) :
    (fileNameTerms tokens name).contains t = true ↔
      ∃ term ∈ tokens.termList name, TermGenerator.fileNamePrefix ++ term = t := by
  rw [fileNameTerms, contains_foldl_touch]
  simp

end Baloo
