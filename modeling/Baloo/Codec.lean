import Mathlib.Algebra.Group.Int.Defs
import Mathlib.Algebra.Group.Nat.Defs
import Mathlib.Data.List.Basic

/-!
# The term list codec

`DocTermsCodec` stores the terms of a document as one byte string. A term is closed by the byte `0`,
or, when it extends the term before it, only the extension is written and closed by the byte `1`.
The bytes `0` and `1` are therefore not available to terms; for term lists that avoid them the
decoder undoes the encoder (`decode_encode_terms`), which is all the rest of the development needs to
know about the stored bytes.
-/

namespace Baloo

/-- Qt's byte array. -/
abbrev QByteArray : Type := List UInt8

namespace DocTermsCodec

/-- The loop of `DocTermsCodec::encode` from the second term on, `prevTerm` being `terms[i-1]`. -/
def encodeLoop (prevTerm : QByteArray) : List QByteArray → QByteArray
  | [] => []
  | term :: terms =>
    (if prevTerm.isPrefixOf term then term.drop prevTerm.length ++ [1] else term ++ [0]) ++
      encodeLoop term terms

/-- `DocTermsCodec::encode`. The source asserts that there is a first term. -/
def encode : List QByteArray → QByteArray
  | [] => []
  | term :: terms => term ++ [0] ++ encodeLoop term terms

/-- The loop of `DocTermsCodec::decode`: `list` is the result so far, `arr` the bytes read since
`prevWordBoundary`. -/
def decodeLoop (list : List QByteArray) (arr : QByteArray) : QByteArray → List QByteArray
  | [] => list
  | b :: full =>
    if b = 1 then
      match list.getLast? with
      | none => list -- corrupted entry - no way to recover
      | some last => decodeLoop (list ++ [last ++ arr]) [] full
    else if b = 0 then decodeLoop (list ++ [arr]) [] full
    else decodeLoop list (arr ++ [b]) full

/-- `DocTermsCodec::decode`. -/
def decode (full : QByteArray) : List QByteArray := decodeLoop [] [] full

/-- A byte string without the two bytes the codec uses as terminators. -/
def Clean (term : QByteArray) : Prop := ∀ b ∈ term, b ≠ 0 ∧ b ≠ 1

instance (term : QByteArray) : Decidable (Clean term) :=
  List.decidableBAll (fun b => b ≠ 0 ∧ b ≠ 1) term

/-- Clean bytes only extend the word being read. -/
theorem decodeLoop_clean {term : QByteArray} (h : Clean term) (list : List QByteArray)
    (arr full : QByteArray) :
    decodeLoop list arr (term ++ full) = decodeLoop list (arr ++ term) full := by
  induction term generalizing arr with
  | nil => simp
  | cons b term ih =>
    obtain ⟨h0, h1⟩ := h b (List.mem_cons_self ..)
    rw [List.cons_append, decodeLoop, if_neg h1, if_neg h0,
      ih fun c hc => h c (List.mem_cons_of_mem _ hc)]
    simp

theorem decodeLoop_zero (list : List QByteArray) (arr full : QByteArray) :
    decodeLoop list arr (0 :: full) = decodeLoop (list ++ [arr]) [] full := by
  simp [decodeLoop]

theorem decodeLoop_one (list : List QByteArray) (last arr full : QByteArray) :
    decodeLoop (list ++ [last]) arr (1 :: full) =
      decodeLoop (list ++ [last] ++ [last ++ arr]) [] full := by
  simp [decodeLoop]

/-- Decoding behind a word boundary, with `prevTerm` the word just read, appends the terms that were
encoded after it. -/
theorem decodeLoop_encodeLoop {terms : List QByteArray} (h : ∀ term ∈ terms, Clean term)
    (list : List QByteArray) (prevTerm : QByteArray) :
    decodeLoop (list ++ [prevTerm]) [] (encodeLoop prevTerm terms) =
      list ++ [prevTerm] ++ terms := by
  induction terms generalizing list prevTerm with
  | nil => simp [encodeLoop, decodeLoop]
  | cons term terms ih =>
    have hterm : Clean term := h term (List.mem_cons_self ..)
    have ih := ih (fun t ht => h t (List.mem_cons_of_mem _ ht)) (list ++ [prevTerm]) term
    rw [encodeLoop]
    split
    · next hpre =>
      -- the extension is glued to the word before it
      obtain ⟨suffix, rfl⟩ := List.isPrefixOf_iff_prefix.mp hpre
      have hsuffix : Clean suffix := fun b hb => hterm b (List.mem_append_right _ hb)
      rw [List.drop_left, List.append_assoc, decodeLoop_clean hsuffix, List.singleton_append,
        decodeLoop_one, List.nil_append, ih]
      simp
    · rw [List.append_assoc, decodeLoop_clean hterm, List.singleton_append, decodeLoop_zero,
        List.nil_append, ih]
      simp

/-- Term lists without the terminators survive a round trip through the store. -/
theorem decode_encode_terms {terms : List QByteArray} (h : ∀ term ∈ terms, Clean term) :
    decode (encode terms) = terms := by
  cases terms with
  | nil => rfl
  | cons term terms =>
    have hterm : Clean term := h term (List.mem_cons_self ..)
    have hloop := decodeLoop_encodeLoop (fun t ht => h t (List.mem_cons_of_mem _ ht)) [] term
    rw [decode, encode, List.append_assoc, decodeLoop_clean hterm, List.singleton_append,
      decodeLoop_zero]
    simpa using hloop

example : decode (encode [[97], [97, 98], [99]]) = [[97], [97, 98], [99]] := by decide

end DocTermsCodec

end Baloo
