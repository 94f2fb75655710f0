import Baloo.TermSegments

/-!
# Surrogates

A text is indexed only if its surrogates come in pairs. The check reads the text unit by unit, and each pair at once,
up to the last unit, which is looked at by itself. Every unit that it reads is one of the text, and it accepts exactly
the texts where a high surrogate stands in front of each low one and a low one behind each high one.
-/

namespace Baloo

namespace VerifySurrogates

open TermList (isHighSurrogate isLowSurrogate isSurrogate verifySurrogates verifySurrogatesLoop)

/-- The loop, from `i`; the value is `none` when a unit is read that is not one of the text. -/
def loop (text : List QChar) (i : ℕ) : Option Bool :=
  if i < text.length - 1 then
    text[i]?.bind fun c =>
      if !isSurrogate c then loop text (i + 1)
      else if isLowSurrogate c then some false
      else text[i + 1]?.bind fun d =>
        if !isLowSurrogate d then some false
        else loop text (i + 2)
  else some true
termination_by text.length - i

/-- `verifySurrogates`, with every unit that it reads. -/
def verify (text : List QChar) : Option Bool :=
  if text.length = 1 then text[text.length - 1]?.map fun back => !isSurrogate back
  else if text.length = 0 then some true
  else (loop text 0).bind fun ok =>
    if !ok then some false
    else text[text.length - 1]?.bind fun back =>
      if !isSurrogate back then some true
      else if isHighSurrogate back then some false
      else text[text.length - 2]?.map fun back2 => isHighSurrogate back2

/-- The text is well-formed UTF-16: no surrogate is without its other half. -/
structure WellFormed (text : List QChar) : Prop where
  /-- every high surrogate is immediately followed by a low surrogate -/
  high : ∀ (i : ℕ) (c : QChar), text[i]? = some c → isHighSurrogate c = true →
    ∃ d, text[i + 1]? = some d ∧ isLowSurrogate d = true
  /-- every low surrogate is immediately preceded by a high one -/
  low : ∀ (i : ℕ) (d : QChar), text[i]? = some d → isLowSurrogate d = true →
    ∃ j c, i = j + 1 ∧ text[j]? = some c ∧ isHighSurrogate c = true

variable {text pre : List QChar} {c d : QChar}

/-! ## The surrogates -/

/-- The bit that tells the low from the high surrogates. -/
theorem and_low_bit (c : QChar) : c &&& 0x0400 = 0 ∨ c &&& 0x0400 = 0x0400 := by
  have hbit : c.toBitVec &&& BitVec.twoPow 16 10 = 0 ∨ c.toBitVec &&& BitVec.twoPow 16 10 = BitVec.twoPow 16 10 := by
    rw [BitVec.and_twoPow]
    split
    · exact .inr rfl
    · exact .inl rfl
  exact hbit.imp (fun h => UInt16.toBitVec_inj.mp h) fun h => UInt16.toBitVec_inj.mp h

theorem and_half (c : QChar) : c &&& 0xfc00 = (c &&& 0xf800) ||| (c &&& 0x0400) :=
  UInt16.toBitVec_inj.mp (BitVec.and_or_distrib_left (x := c.toBitVec) (y := 0xf800) (z := 0x0400))

theorem isSurrogate_iff (c : QChar) : isSurrogate c = true ↔ isHighSurrogate c = true ∨ isLowSurrogate c = true := by
  simp only [isSurrogate, isHighSurrogate, isLowSurrogate, decide_eq_true_eq]
  constructor
  · intro h
    rw [and_half, h]
    exact (and_low_bit c).imp (fun hbit => by rw [hbit]; rfl) fun hbit => by rw [hbit]; rfl
  · have hmask : c &&& 0xf800 = (c &&& 0xfc00) &&& 0xf800 := (UInt16.and_assoc c 0xfc00 0xf800).symm
    rintro (h | h)
    · rw [hmask, h]
      rfl
    · rw [hmask, h]
      rfl

/-- No unit is a surrogate of both kinds. -/
theorem not_isLowSurrogate (h : isHighSurrogate c = true) : isLowSurrogate c = false := by
  simp only [isHighSurrogate, decide_eq_true_eq] at h
  rw [isLowSurrogate, h]
  rfl

theorem not_isHighSurrogate (h : isLowSurrogate c = true) : isHighSurrogate c = false := by
  by_contra hhigh
  rw [not_isLowSurrogate (by simpa using hhigh)] at h
  contradiction

/-- A surrogate that is not low is high. -/
theorem isHighSurrogate_of_not_low (hc : isSurrogate c = true) (hlow : isLowSurrogate c = false) :
    isHighSurrogate c = true := by
  rw [isSurrogate_iff, hlow] at hc
  simpa using hc

/-! ## Well-formed texts -/

theorem wellFormed_nil : WellFormed [] := ⟨by simp, by simp⟩

/-- Nothing is needed in front of a well-formed text. -/
theorem WellFormed.not_low (h : WellFormed (c :: text)) : isLowSurrogate c = false := by
  by_contra hc
  obtain ⟨j, d, hj, -⟩ := h.low 0 c rfl (by simpa using hc)
  omega

/-- What is behind a well-formed text is judged by itself. -/
theorem WellFormed.append_iff (h : WellFormed pre) : WellFormed (pre ++ text) ↔ WellFormed text := by
  have hinside : ∀ {i : ℕ} {c : QChar}, pre[i]? = some c → (pre ++ text)[i]? = some c := fun hc => by
    rw [List.getElem?_append_left (List.getElem?_eq_some_iff.mp hc).1, hc]
  have hbehind : ∀ i, (pre ++ text)[pre.length + i]? = text[i]? := fun i => by
    rw [List.getElem?_append_right (Nat.le_add_right _ _), Nat.add_sub_cancel_left]
  constructor
  · intro htext
    refine ⟨fun i c hc hhigh => ?_, fun i d hd hlow => ?_⟩
    · obtain ⟨d, hd, hlow⟩ := htext.high (pre.length + i) c ((hbehind i).trans hc) hhigh
      exact ⟨d, (hbehind (i + 1)).symm.trans hd, hlow⟩
    · obtain ⟨j, c, hj, hc, hhigh⟩ := htext.low (pre.length + i) d ((hbehind i).trans hd) hlow
      rcases i with _ | i
      · -- the high surrogate would be the last unit of what is in front
        have hlast : pre[j]? = some c := by
          rwa [List.getElem?_append_left (by omega)] at hc
        obtain ⟨e, he, -⟩ := h.high j c hlast hhigh
        have := (List.getElem?_eq_some_iff.mp he).1
        omega
      · obtain rfl : j = pre.length + i := by omega
        exact ⟨i, c, rfl, (hbehind i).symm.trans hc, hhigh⟩
  · intro htext
    refine ⟨fun i c hc hhigh => ?_, fun i d hd hlow => ?_⟩
    · rcases lt_or_ge i pre.length with hi | hi
      · rw [List.getElem?_append_left hi] at hc
        obtain ⟨d, hd, hlow⟩ := h.high i c hc hhigh
        exact ⟨d, hinside hd, hlow⟩
      · obtain ⟨i, rfl⟩ := Nat.exists_eq_add_of_le hi
        obtain ⟨d, hd, hlow⟩ := htext.high i c ((hbehind i).symm.trans hc) hhigh
        exact ⟨d, (hbehind (i + 1)).trans hd, hlow⟩
    · rcases lt_or_ge i pre.length with hi | hi
      · rw [List.getElem?_append_left hi] at hd
        obtain ⟨j, c, hj, hc, hhigh⟩ := h.low i d hd hlow
        exact ⟨j, c, hj, hinside hc, hhigh⟩
      · obtain ⟨i, rfl⟩ := Nat.exists_eq_add_of_le hi
        obtain ⟨j, c, rfl, hc, hhigh⟩ := htext.low i d ((hbehind i).symm.trans hd) hlow
        exact ⟨pre.length + j, c, rfl, (hbehind j).trans hc, hhigh⟩

/-- A unit that is no surrogate stands by itself. -/
theorem wellFormed_cons (hc : isSurrogate c = false) : WellFormed (c :: text) ↔ WellFormed text := by
  have hkinds := isSurrogate_iff c
  simp only [hc, Bool.false_eq_true, false_iff, not_or] at hkinds
  have hunit : WellFormed [c] := by
    constructor
    · rintro (_ | i) d ⟨⟩ hhigh
      exact absurd hhigh hkinds.1
    · rintro (_ | i) d ⟨⟩ hlow
      exact absurd hlow hkinds.2
  exact hunit.append_iff

/-- A pair stands by itself. -/
theorem wellFormed_pair (hc : isHighSurrogate c = true) (hd : isLowSurrogate d = true) :
    WellFormed (c :: d :: text) ↔ WellFormed text := by
  have hpair : WellFormed [c, d] := by
    constructor
    · rintro (_ | _ | i) e ⟨⟩ hhigh
      · exact ⟨d, rfl, hd⟩
      · rw [not_isHighSurrogate hd] at hhigh
        contradiction
    · rintro (_ | _ | i) e ⟨⟩ hlow
      · rw [not_isLowSurrogate hc] at hlow
        contradiction
      · exact ⟨0, c, rfl, rfl, hc⟩
  exact hpair.append_iff

/-- A high surrogate needs its other half. -/
theorem WellFormed.next_low (h : WellFormed (c :: text)) (hc : isHighSurrogate c = true) :
    ∃ d, text.head? = some d ∧ isLowSurrogate d = true := by
  obtain ⟨d, hd, hlow⟩ := h.high 0 c rfl hc
  exact ⟨d, by rw [List.head?_eq_getElem?]; exact hd, hlow⟩

/-- A surrogate by itself is not well-formed. -/
theorem wellFormed_singleton : WellFormed [c] ↔ isSurrogate c = false := by
  constructor
  · intro h
    have hhigh : ¬ isHighSurrogate c = true := by
      intro hhigh
      obtain ⟨d, hd, -⟩ := h.next_low hhigh
      cases hd
    have hlow := h.not_low
    rw [← Bool.not_eq_true, isSurrogate_iff, hlow]
    simp [hhigh]
  · intro hc
    exact (wellFormed_cons hc).mpr wellFormed_nil

/-! ## The loop and the last unit -/

/-- What is tested of the last unit, behind `back2`. -/
def backOk (back2 back : QChar) : Bool :=
  if !isSurrogate back then true
  else if isHighSurrogate back then false
  else isHighSurrogate back2

/-- Where the loop leaves a unit over, the one before it was not taken for the first half of a pair. -/
theorem backOk_iff {back2 back : QChar} (hback2 : isHighSurrogate back2 = false) :
    backOk back2 back = true ↔ WellFormed [back] := by
  rw [wellFormed_singleton, backOk, hback2]
  cases isSurrogate back <;> simp

/-- The last unit may be the second half of a pair. -/
theorem backOk_pair {back2 back : QChar} (hback2 : isHighSurrogate back2 = true) (hback : isLowSurrogate back = true) :
    backOk back2 back = true := by
  rw [backOk, not_isHighSurrogate hback, hback2]
  cases isSurrogate back <;> rfl

/-- The loop and the test of the last unit accept what is left of the text just if it is well-formed: the unit in front
of it is no high surrogate, and if nothing is left, the last two were a pair. -/
theorem loop_backOk (rest pre init : List QChar) (back2 back : QChar) (htext : pre ++ rest = init ++ [back2, back])
    (hpre : ∀ p ∈ pre.getLast?, isHighSurrogate p = false)
    (hend : rest = [] → isHighSurrogate back2 = true ∧ isLowSurrogate back = true) :
    (verifySurrogatesLoop rest && backOk back2 back) = true ↔ WellFormed rest := by
  fun_induction verifySurrogatesLoop rest generalizing pre with
  | case1 c d text hc ih =>
    simp only [Bool.not_eq_true'] at hc
    rw [wellFormed_cons hc]
    refine ih (pre ++ [c]) (by simpa using htext) ?_ (by simp)
    have hkinds := isSurrogate_iff c
    simp_all
  | case2 c d text hc hlow =>
    simp only [Bool.false_and, Bool.false_eq_true, false_iff]
    intro h
    rw [h.not_low] at hlow
    contradiction
  | case3 c d text hc hlow hd =>
    simp only [Bool.not_eq_true', Bool.not_eq_false, Bool.not_eq_true] at hc hlow hd
    simp only [Bool.false_and, Bool.false_eq_true, false_iff]
    intro h
    obtain ⟨e, he, hlow'⟩ := h.next_low (isHighSurrogate_of_not_low hc hlow)
    obtain rfl : d = e := Option.some.inj he
    rw [hd] at hlow'
    contradiction
  | case4 c d text hc hlow hd ih =>
    simp only [Bool.not_eq_true', Bool.not_eq_false, Bool.not_eq_true] at hc hlow hd
    have hhigh := isHighSurrogate_of_not_low hc hlow
    rw [wellFormed_pair hhigh hd]
    refine ih (pre ++ [c, d]) (by simpa using htext) ?_ ?_
    · intro p hp
      obtain rfl : d = p := by simpa using hp
      exact not_isHighSurrogate hd
    · rintro rfl
      have hlast := List.append_inj_right' htext rfl
      simp only [List.cons.injEq, and_true] at hlast
      rw [← hlast.1, ← hlast.2]
      exact ⟨hhigh, hd⟩
  | case5 rest hrest =>
    rw [Bool.true_and]
    rcases rest with _ | ⟨c, _ | ⟨d, text⟩⟩
    · -- the last two units were a pair
      obtain ⟨hback2, hback⟩ := hend rfl
      exact iff_of_true (backOk_pair hback2 hback) wellFormed_nil
    · -- the last unit is left over
      have hlast : pre = init ++ [back2] ∧ [c] = [back] := List.append_inj' (by simpa using htext) rfl
      obtain ⟨rfl, hc⟩ := hlast
      obtain rfl : c = back := by simpa using hc
      exact backOk_iff (hpre back2 (by simp))
    · exact absurd rfl (hrest c d text)

/-- The check accepts the well-formed texts. -/
theorem verifySurrogates_iff (text : List QChar) : verifySurrogates text = true ↔ WellFormed text := by
  rw [verifySurrogates]
  rcases h : text.reverse with _ | ⟨back, _ | ⟨back2, init⟩⟩
  · obtain rfl := List.reverse_eq_nil_iff.mp h
    simp [wellFormed_nil]
  · obtain rfl : text = [back] := by simpa using congrArg List.reverse h
    simp [wellFormed_singleton]
  · obtain rfl : text = init.reverse ++ [back2, back] := by simpa using congrArg List.reverse h
    exact loop_backOk _ [] init.reverse back2 back rfl (by simp) (by simp)

/-! ## What is read -/

/-- The loop reads what is left of the text, and nothing else. -/
theorem loop_eq (text : List QChar) (i : ℕ) : loop text i = some (verifySurrogatesLoop (text.drop i)) := by
  fun_induction loop text i with
  | case1 i hlt ih ih' =>
    have hi : i < text.length := by omega
    have hi' : i + 1 < text.length := by omega
    rw [List.drop_eq_getElem_cons hi, List.drop_eq_getElem_cons hi', verifySurrogatesLoop,
      ← List.drop_eq_getElem_cons hi', List.getElem?_eq_getElem hi, List.getElem?_eq_getElem hi', Option.bind_some,
      Option.bind_some, ih, ih']
    split_ifs <;> rfl
  | case2 i hlt =>
    -- the loop stops in front of the last unit
    have hlength := List.length_drop (i := i) (l := text)
    rcases hdrop : text.drop i with _ | ⟨c, _ | ⟨d, rest⟩⟩
    · rfl
    · rfl
    · rw [hdrop] at hlength
      simp only [List.length_cons] at hlength
      omega

/-- Every unit that is read is one of the text, and the texts that are accepted are the well-formed ones. -/
theorem verify_wellFormed (text : List QChar) :
    verify text = some (verifySurrogates text) ∧ (verifySurrogates text = true ↔ WellFormed text) := by
  refine ⟨?_, verifySurrogates_iff text⟩
  rw [verify, loop_eq, List.drop_zero, verifySurrogates]
  rcases h : text.reverse with _ | ⟨back, _ | ⟨back2, init⟩⟩
  · obtain rfl := List.reverse_eq_nil_iff.mp h
    rfl
  · obtain rfl : text = [back] := by simpa using congrArg List.reverse h
    rfl
  · obtain rfl : text = init.reverse ++ [back2, back] := by simpa using congrArg List.reverse h
    have hlength : (init.reverse ++ [back2, back]).length = init.length + 2 := by simp
    have hback : (init.reverse ++ [back2, back])[init.length + 1]? = some back := by simp
    have hback2 : (init.reverse ++ [back2, back])[init.length]? = some back2 := by simp
    simp only [hlength, Nat.add_sub_cancel, Nat.add_one_sub_one, hback, hback2, Option.bind_some, Option.map_some]
    rw [if_neg (by omega), if_neg (by omega)]
    cases verifySurrogatesLoop (init.reverse ++ [back2, back]) with
    | false => rfl
    | true =>
      simp only [Bool.not_true, Bool.false_eq_true, if_false, Bool.true_and]
      split_ifs <;> rfl

end VerifySurrogates

end Baloo
