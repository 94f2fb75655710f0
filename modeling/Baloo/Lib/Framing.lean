import Mathlib.Data.List.Basic
import Mathlib.Data.List.Induction
import Mathlib.Order.Basic
import Mathlib.Data.Nat.Basic

/-!
# Streams of self-delimiting messages

A sender writes the encodings of messages one after another; the bytes arrive in pieces that have
nothing to do with where the messages end. A receiver keeps what has arrived, and at every arrival it
reads as many messages as are complete and leaves the rest for later.

What this needs of the receiver is said by `Reads`: it takes a complete message from the front and goes
on, and it leaves a part of a message alone. Then after any sequence of arrivals exactly the messages
have been signalled whose bytes have arrived, in order (`Reads.arrivals`).
-/

universe u v w

namespace Framing

variable {B : Type u} {M : Type v} {O : Type w} (encode : M → List B)

/-- The messages whose encodings lie within the first `n` bytes. -/
def complete : List M → ℕ → List M
  | [], _ => []
  | m :: ms, n => if (encode m).length ≤ n then m :: complete ms (n - (encode m).length) else []

/-- The messages that are not complete. -/
def incomplete : List M → ℕ → List M
  | [], _ => []
  | m :: ms, n => if (encode m).length ≤ n then incomplete ms (n - (encode m).length) else m :: ms

/-- How `read` takes messages from a byte string: what it signals, and what it leaves. -/
structure Reads (signal : M → O) (read : List B → List O × List B) : Prop where
  /-- encodings are not empty -/
  ne_nil : ∀ m, encode m ≠ []
  /-- a message and more -/
  message : ∀ m rest, rest ≠ [] → read (encode m ++ rest) = (signal m :: (read rest).1, (read rest).2)
  /-- a message and nothing more -/
  last : ∀ m, read (encode m) = ([signal m], [])
  /-- a part of a message -/
  part : ∀ m p, p <+: encode m → p ≠ [] → p ≠ encode m → read p = ([], p)

variable {encode} {signal : M → O} {read : List B → List O × List B} {ms : List M} {n : ℕ}

theorem complete_append (encode : M → List B) (ms : List M) (n k : ℕ) : complete encode ms (n + k) =
    complete encode ms n ++ complete encode (incomplete encode ms n)
      (n + k - ((complete encode ms n).map encode).flatten.length) := by
  induction ms generalizing n with
  | nil => rfl
  | cons m ms ih =>
    by_cases hn : (encode m).length ≤ n
    · have hstep := ih (n - (encode m).length)
      simp only [complete, incomplete, if_pos hn, if_pos (Nat.le_add_right_of_le hn), List.cons_append,
        List.map_cons, List.flatten_cons, List.length_append]
      rw [show n + k - (encode m).length = n - (encode m).length + k by omega, hstep]
      congr 3
      omega
    · simp only [complete, incomplete, if_neg hn, List.nil_append, List.map_nil, List.flatten_nil,
        List.length_nil, Nat.sub_zero]

theorem Reads.complete_zero (h : Reads encode signal read) (ms : List M) : complete encode ms 0 = [] := by
  cases ms with
  | nil => rfl
  | cons m ms =>
    rw [complete, if_neg]
    exact fun hle => h.ne_nil m (List.length_eq_zero_iff.mp (Nat.le_zero.mp hle))

/-- The receiver on the first bytes of a stream. -/
theorem Reads.take (h : Reads encode signal read) (ms : List M) {p : List B}
    (hp : p <+: (ms.map encode).flatten) (hne : p ≠ []) :
    read p = ((complete encode ms p.length).map signal,
      p.drop ((complete encode ms p.length).map encode).flatten.length) := by
  induction ms generalizing p with
  | nil => exact absurd (List.prefix_nil.mp hp) hne
  | cons m ms ih =>
    rw [List.map_cons, List.flatten_cons] at hp
    by_cases hlen : (encode m).length ≤ p.length
    · -- the first message has arrived
      obtain ⟨rest, rfl⟩ : encode m <+: p :=
        List.prefix_of_prefix_length_le (List.prefix_append _ _) hp hlen
      have hrest : rest <+: (ms.map encode).flatten := (List.prefix_append_right_inj _).mp hp
      have hcomplete : complete encode (m :: ms) (encode m ++ rest).length =
          m :: complete encode ms rest.length := by
        rw [complete, if_pos hlen, List.length_append, Nat.add_sub_cancel_left]
      rw [hcomplete, List.map_cons, List.map_cons, List.flatten_cons, List.length_append,
        List.drop_append, List.drop_eq_nil_of_le (Nat.le_add_right _ _), List.nil_append,
        Nat.add_sub_cancel_left]
      rcases eq_or_ne rest [] with rfl | hmore
      · rw [List.append_nil, h.last, List.length_nil, h.complete_zero]
        rfl
      · rw [h.message m rest hmore, ih hrest hmore]
    · -- only a part of it has
      have hpart : p <+: encode m := List.prefix_of_prefix_length_le hp (List.prefix_append _ _)
        (Nat.le_of_lt (not_le.mp hlen))
      rw [complete, if_neg hlen, h.part m p hpart hne fun heq => hlen (heq ▸ le_refl _)]
      rfl

/-- One arrival: the receiver reads what is left from before and what is new. -/
def arrival (read : List B → List O × List B) (s : List O × List B) (piece : List B) : List O × List B :=
  (s.1 ++ (read (s.2 ++ piece)).1, (read (s.2 ++ piece)).2)

theorem flatten_complete (encode : M → List B) (ms : List M) (n : ℕ) :
    ((complete encode ms n).map encode).flatten ++ ((incomplete encode ms n).map encode).flatten =
      (ms.map encode).flatten := by
  induction ms generalizing n with
  | nil => rfl
  | cons m ms ih =>
    by_cases hn : (encode m).length ≤ n
    · simp only [complete, incomplete, if_pos hn, List.map_cons, List.flatten_cons, List.append_assoc, ih]
    · simp only [complete, incomplete, if_neg hn, List.map_nil, List.flatten_nil, List.nil_append]

/-- All bytes make all messages. -/
theorem complete_all (encode : M → List B) (ms : List M) :
    complete encode ms (ms.map encode).flatten.length = ms := by
  induction ms with
  | nil => rfl
  | cons m ms ih =>
    rw [List.map_cons, List.flatten_cons, List.length_append, complete, if_pos (Nat.le_add_right _ _),
      Nat.add_sub_cancel_left, ih]

theorem length_complete_le (encode : M → List B) (ms : List M) (n : ℕ) :
    ((complete encode ms n).map encode).flatten.length ≤ n := by
  induction ms generalizing n with
  | nil => exact Nat.zero_le n
  | cons m ms ih =>
    by_cases hn : (encode m).length ≤ n
    · have hrest := ih (n - (encode m).length)
      simp only [complete, if_pos hn, List.map_cons, List.flatten_cons, List.length_append]
      omega
    · simp only [complete, if_neg hn, List.map_nil, List.flatten_nil, List.length_nil, Nat.zero_le]

/-- What is kept of a prefix of the stream is a prefix of the messages that are not complete. -/
theorem prefix_drop_complete {ms : List M} {p : List B} (n : ℕ) (hn : n ≤ p.length)
    (hp : p <+: (ms.map encode).flatten) :
    p.drop ((complete encode ms n).map encode).flatten.length <+:
      ((incomplete encode ms n).map encode).flatten := by
  have hlen := length_complete_le encode ms n
  rw [← flatten_complete encode ms n] at hp
  obtain ⟨rest, hrest⟩ := hp
  refine ⟨rest, ?_⟩
  have hdrop := congrArg (List.drop ((complete encode ms n).map encode).flatten.length) hrest
  rw [List.drop_left, List.drop_append_of_le_length (hlen.trans hn)] at hdrop
  exact hdrop

/-- What is kept is left alone if it is read again. -/
theorem Reads.kept (h : Reads encode signal read) (ms : List M) {p : List B}
    (hp : p <+: (ms.map encode).flatten)
    (hne : p.drop ((complete encode ms p.length).map encode).flatten.length ≠ []) :
    (read (p.drop ((complete encode ms p.length).map encode).flatten.length)).1 = [] := by
  have hnone : complete encode (incomplete encode ms p.length)
      (p.length - ((complete encode ms p.length).map encode).flatten.length) = [] :=
    List.self_eq_append_right.mp (complete_append encode ms p.length 0)
  rw [h.take _ (prefix_drop_complete _ (le_refl _) hp) hne, List.length_drop, hnone, List.map_nil]

/-- **After any sequence of arrivals exactly the complete messages have been signalled**, each once and
in order, and the bytes that do not make a message yet are kept. -/
theorem Reads.arrivals (h : Reads encode signal read) (ms : List M) (pieces : List (List B))
    (hp : pieces.flatten <+: (ms.map encode).flatten)
    (hpieces : (∀ piece ∈ pieces, piece ≠ []) ∨ read [] = ([], [])) :
    pieces.foldl (arrival read) ([], []) =
      ((complete encode ms pieces.flatten.length).map signal,
        pieces.flatten.drop ((complete encode ms pieces.flatten.length).map encode).flatten.length) := by
  induction pieces using List.reverseRecOn with
  | nil => simp [h.complete_zero]
  | append_singleton pieces piece ih =>
    rw [List.flatten_append, List.flatten_singleton] at hp ⊢
    have hbefore := ih ((List.prefix_append _ _).trans hp)
      (hpieces.imp_left fun hall q hq => hall q (List.mem_append_left _ hq))
    rw [List.foldl_append, List.foldl_cons, List.foldl_nil, hbefore, arrival]
    have hlen := length_complete_le encode ms pieces.flatten.length
    have hsplit := complete_append encode ms pieces.flatten.length piece.length
    have hrest := prefix_drop_complete pieces.flatten.length
      (List.length_append ▸ Nat.le_add_right _ _) hp
    generalize pieces.flatten = before at *
    generalize hk : ((complete encode ms before.length).map encode).flatten.length = k at *
    -- what is read now: what is left of the earlier pieces, and the new one
    have hread : before.drop k ++ piece = (before ++ piece).drop k :=
      (List.drop_append_of_le_length hlen).symm
    have hlength : ((before ++ piece).drop k).length = before.length + piece.length - k := by
      rw [List.length_drop, List.length_append]
    rw [hread, List.length_append, hsplit, List.map_append, List.map_append, List.flatten_append,
      List.length_append, hk, ← hlength]
    by_cases hne : (before ++ piece).drop k = []
    · -- nothing is left and nothing has come
      have hquiet : read [] = ([], []) := by
        refine hpieces.resolve_left fun hall => ?_
        rw [← hread] at hne
        exact hall piece (List.mem_append_right _ (List.mem_singleton_self _))
          (List.append_eq_nil_iff.mp hne).2
      rw [hne, hquiet, List.length_nil, h.complete_zero, ← List.drop_drop, hne]
      simp
    · rw [h.take _ hrest hne, List.drop_drop]

end Framing
