import Baloo.Lib.Framing

/-!
# A pipe between two processes

The bytes of a message are first in the pipe; from there they arrive at the receiver's device in pieces,
and the device keeps what does not make a message yet. A channel carries the messages that have been
written and have not been signalled (`Carries`). If the sender dies while it writes, the last of them
are cut (`CarriesPart`).
-/

universe u v w

namespace Framing

/-- The bytes on their way, and the bytes that have arrived and are kept. -/
structure Channel (B : Type u) where
  pipe : List B := []
  device : List B := []

namespace Channel

variable {B : Type u} {M : Type v} {O : Type w} {encode : M → List B} {signal : M → O}
  {read : List B → List O × List B} {c : Channel B} {ms ms' : List M} {bytes piece rest : List B}

/-- The sender writes. -/
def write (c : Channel B) (bytes : List B) : Channel B := { c with pipe := c.pipe ++ bytes }

/-- The receiver reads what it has kept and a piece of the pipe; the rest stays in the pipe. -/
def arrive (read : List B → List O × List B) (c : Channel B) (piece rest : List B) :
    List O × Channel B :=
  ((read (c.device ++ piece)).1, { pipe := rest, device := (read (c.device ++ piece)).2 })

/-- At most these messages are on their way, and the last ones may be cut. -/
structure CarriesPart (encode : M → List B) (c : Channel B) (ms : List M) : Prop where
  bytes : c.device ++ c.pipe <+: (ms.map encode).flatten
  /-- what could be read has been read -/
  kept : complete encode ms c.device.length = []

/-- These messages are on their way. -/
structure Carries (encode : M → List B) (c : Channel B) (ms : List M) : Prop where
  bytes : c.device ++ c.pipe = (ms.map encode).flatten
  kept : complete encode ms c.device.length = []

theorem Carries.part (h : Carries encode c ms) : CarriesPart encode c ms :=
  ⟨h.bytes ▸ List.prefix_refl _, h.kept⟩

theorem carries_nil (encode : M → List B) : Carries encode ({} : Channel B) [] := ⟨rfl, rfl⟩

theorem CarriesPart.whole (h : CarriesPart encode c []) : Carries encode c [] :=
  ⟨List.prefix_nil.mp h.bytes, rfl⟩

/-- Nothing in the pipe, nothing to be signalled. -/
theorem Carries.eq_nil (h : Carries encode c ms) (hpipe : c.pipe = []) : ms = [] := by
  have hbytes := h.bytes
  rw [hpipe, List.append_nil] at hbytes
  rw [← complete_all encode ms, ← hbytes]
  exact h.kept

theorem complete_concat (hread : Reads encode signal read) {n : ℕ} (hn : ms = [] → n = 0)
    (h : complete encode ms n = []) : complete encode (ms ++ ms') n = [] := by
  cases ms with
  | nil => rw [hn rfl, List.nil_append, hread.complete_zero]
  | cons m ms =>
    rw [complete] at h
    rw [List.cons_append, complete]
    split at h
    · cases h
    · next hlen => rw [if_neg hlen]

theorem Carries.device_nil (h : Carries encode c ms) (hms : ms = []) : c.device.length = 0 := by
  have hbytes := h.bytes
  rw [hms] at hbytes
  rw [(List.append_eq_nil_iff.mp hbytes).1, List.length_nil]

/-- Messages are written. -/
theorem Carries.write (h : Carries encode c ms) (hread : Reads encode signal read) (ms' : List M) :
    Carries encode (c.write (ms'.map encode).flatten) (ms ++ ms') where
  bytes := by rw [Channel.write, ← List.append_assoc, h.bytes, List.map_append, List.flatten_append]
  kept := complete_concat hread h.device_nil h.kept

/-- Messages are written, until the sender dies. -/
theorem Carries.cut (h : Carries encode c ms) (hread : Reads encode signal read)
    (hbytes : bytes <+: (ms'.map encode).flatten) : CarriesPart encode (c.write bytes) (ms ++ ms') where
  bytes := by
    rw [Channel.write, ← List.append_assoc, h.bytes, List.map_append, List.flatten_append]
    exact (List.prefix_append_right_inj _).mpr hbytes
  kept := complete_concat hread h.device_nil h.kept

theorem complete_incomplete (encode : M → List B) (ms : List M) (n : ℕ) :
    complete encode ms n ++ incomplete encode ms n = ms := by
  induction ms generalizing n with
  | nil => rfl
  | cons m ms ih =>
    by_cases hn : (encode m).length ≤ n
    · rw [complete, incomplete, if_pos hn, if_pos hn, List.cons_append, ih]
    · rw [complete, incomplete, if_neg hn, if_neg hn, List.nil_append]

/-- A piece arrives: the messages that are complete now are signalled, and no longer on their way. -/
theorem CarriesPart.arrive (h : CarriesPart encode c ms) (hread : Reads encode signal read)
    (hpipe : c.pipe = piece ++ rest) (hpiece : piece ≠ []) :
    ∃ taken left, ms = taken ++ left ∧ (c.arrive read piece rest).1 = taken.map signal ∧
      CarriesPart encode (c.arrive read piece rest).2 left ∧
      (Carries encode c ms → Carries encode (c.arrive read piece rest).2 left) := by
  have hprefix : c.device ++ piece <+: (ms.map encode).flatten := by
    refine List.IsPrefix.trans ?_ h.bytes
    rw [hpipe, ← List.append_assoc]
    exact List.prefix_append _ _
  have hne : c.device ++ piece ≠ [] := fun heq => hpiece (List.append_eq_nil_iff.mp heq).2
  have hnone : complete encode (incomplete encode ms (c.device ++ piece).length)
      ((c.device ++ piece).length -
        ((complete encode ms (c.device ++ piece).length).map encode).flatten.length) = [] :=
    List.self_eq_append_right.mp (complete_append encode ms (c.device ++ piece).length 0)
  have hlen := length_complete_le encode ms (c.device ++ piece).length
  have hflatten := flatten_complete encode ms (c.device ++ piece).length
  -- the messages that are not complete yet have the bytes that are left
  have hleft : ∀ tail, c.device ++ c.pipe ++ tail = (ms.map encode).flatten →
      (c.device ++ piece).drop
          ((complete encode ms (c.device ++ piece).length).map encode).flatten.length ++ rest ++ tail =
        ((incomplete encode ms (c.device ++ piece).length).map encode).flatten := fun tail htail => by
    rw [hpipe, ← List.append_assoc, List.append_assoc, ← hflatten] at htail
    have hdrop := congrArg
      (List.drop ((complete encode ms (c.device ++ piece).length).map encode).flatten.length) htail
    rwa [List.drop_append_of_le_length hlen, List.drop_left, ← List.append_assoc] at hdrop
  rw [Channel.arrive, hread.take ms hprefix hne]
  refine ⟨_, _, (complete_incomplete encode ms (c.device ++ piece).length).symm, rfl, ⟨?_, ?_⟩,
    fun hwhole => ⟨?_, ?_⟩⟩
  · obtain ⟨tail, htail⟩ := h.bytes
    exact ⟨tail, hleft tail htail⟩
  · rwa [List.length_drop]
  · rw [← List.append_nil (_ ++ rest), hleft [] (by rw [List.append_nil, hwhole.bytes])]
  · rwa [List.length_drop]

end Channel

end Framing
