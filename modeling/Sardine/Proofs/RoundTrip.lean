import Sardine.Proofs.Language
import Mathlib.Algebra.Ring.Nat

/-! Programs written out as phrases, one on a line, compile to the same programs.
For every phrase but one this is the text it was read from; the number of a tank may have been
written with leading zeros and is written without them. -/
namespace Sardine

namespace Decimal

theorem digits_ne_nil (n : Nat) : digits n ≠ [] := by
  unfold digits
  split <;> simp

theorem digit_bounds {n : Nat} (h : n < 10) : 48 ≤ digit n ∧ digit n ≤ 57 := by
  simp only [UInt8.le_iff_toNat_le, digit_toNat h]
  exact ⟨Nat.le_add_right 48 n, show 48 + n ≤ 57 by omega⟩

theorem bounds_of_mem_digits {n : Nat} {b : UInt8} (h : b ∈ digits n) : 48 ≤ b ∧ b ≤ 57 := by
  fun_induction digits n with
  | case1 n hn =>
    obtain rfl : b = digit n := by simpa using h
    exact digit_bounds hn
  | case2 n hn ih =>
    rcases List.mem_append.mp h with h | h
    · exact ih h
    · obtain rfl : b = digit (n % 10) := by simpa using h
      exact digit_bounds (Nat.mod_lt n (by omega))

theorem length_digits_le {n k : Nat} (h : n < 10 ^ (k + 1)) : (digits n).length ≤ k + 1 := by
  induction k generalizing n with
  | zero =>
    rw [digits, if_pos (by simpa using h)]
    simp
  | succ k ih =>
    unfold digits
    split
    · simp
    · have hdiv : n / 10 < 10 ^ (k + 1) := Nat.div_lt_of_lt_mul (by rwa [Nat.pow_succ'] at h)
      simpa using ih hdiv

theorem unbroken_digits (n : Nat) : Source.Unbroken (digits n) := by
  intro b hb hend
  have hlow := (bounds_of_mem_digits hb).1
  rcases hend with rfl | rfl <;> exact absurd hlow (by decide)

theorem unbroken_ofInt (n : Int) : Source.Unbroken (ofInt n) := by
  unfold ofInt
  split
  · exact List.forall_mem_cons.mpr ⟨by decide, unbroken_digits n.natAbs⟩
  · exact unbroken_digits n.natAbs

theorem digits_injective : Function.Injective digits :=
  Function.LeftInverse.injective value_digits

theorem ofInt_injective : Function.Injective ofInt := by
  -- A number with a sign differs from one without: no digit is a sign.
  have hsign : ∀ n k, (45 : UInt8) :: digits n ≠ digits k := by
    intro n k h
    have hmem : (45 : UInt8) ∈ digits k := h ▸ List.mem_cons_self
    exact absurd (bounds_of_mem_digits hmem).1 (by decide)
  intro n k h
  by_cases hn : n < 0 <;> by_cases hk : k < 0 <;> simp only [ofInt, hn, hk, if_true, if_false] at h
  · have habs := digits_injective (List.tail_eq_of_cons_eq h)
    omega
  · exact absurd h (hsign _ _)
  · exact absurd h.symm (hsign _ _)
  · have habs := digits_injective h
    omega

end Decimal

namespace Phrase

def canonical : Phrase → Phrase
  | lookInto digits => lookInto (Decimal.digits (Decimal.value digits))
  | p => p

@[simp] theorem instruction_canonical (p : Phrase) : p.canonical.instruction = p.instruction := by
  cases p <;> simp [canonical, instruction]

theorem isTank_digits {n : Nat} (h : n ≤ 2018) : IsTank (Decimal.digits n) where
  nonempty := Decimal.digits_ne_nil n
  short := Decimal.length_digits_le (show n < 10 ^ 4 by omega)
  digits := fun _ => Decimal.bounds_of_mem_digits
  bound := by simpa using h

theorem isValid_canonical {p : Phrase} (h : p.IsValid) : p.canonical.IsValid := by
  cases p with
  | lookInto digits => exact isTank_digits h.bound
  | _ => trivial

section Numeral

/-! Texts that look into a tank, whatever its number: such a text begins with a digit and ends like
no other phrase. -/

variable {digits : Bytes} (h : IsNumeral digits)

include h in
theorem IsNumeral.digit_of_prefix {s : Bytes} (hs : s <+: digits ++ lookEnding) :
    ∀ b ∈ s.head?, 48 ≤ b ∧ b ≤ 57 := by
  obtain ⟨first, others, rfl⟩ := List.exists_cons_of_ne_nil h.nonempty
  intro b hb
  obtain ⟨rest, hrest⟩ := hs
  cases s with
  | nil => simp at hb
  | cons c s =>
    simp only [List.cons_append, List.cons.injEq] at hrest
    obtain rfl : c = b := by simpa using hb
    exact hrest.1 ▸ h.digits first List.mem_cons_self

theorem suffix_lookEnding {s : Bytes} (hs : s <:+ digits ++ lookEnding)
    (hlen : s.length ≤ lookEnding.length) : s <:+ lookEnding :=
  List.suffix_of_suffix_length_le hs (List.suffix_append digits lookEnding) hlen

include h in
theorem IsNumeral.says : Says (digits ++ lookEnding) (.lookInto digits) := by
  have hplain : ∀ entry ∈ plainPhrases, ∃ b ∈ entry.1.head?, ¬ (48 ≤ b ∧ b ≤ 57) := by
    decide +kernel
  have hopening : ∃ b ∈ ifNoneOpening.head?, ¬ (48 ≤ b ∧ b ≤ 57) := by decide +kernel
  refine ⟨Form.lookInto h.nonempty, fun q hq => ?_⟩
  cases q with
  | plain op =>
    obtain ⟨b, hb, hnot⟩ := hplain _ hq.mem_plainPhrases
    exact absurd (h.digit_of_prefix (List.prefix_refl _) b hb) hnot
  | swimTo label =>
    have heq := (before?_eq_some_iff.mp (form_swimTo_iff.mp hq)).2
    have hsuffix : swimEnding <:+ lookEnding :=
      suffix_lookEnding ⟨label, heq⟩ (by decide +kernel)
    exact absurd hsuffix (by decide +kernel)
  | arriveAt label =>
    have heq := (before?_eq_some_iff.mp (form_arriveAt_iff.mp hq)).2
    have hsuffix : arrivalEnding <:+ lookEnding :=
      suffix_lookEnding ⟨label, heq⟩ (by decide +kernel)
    exact absurd hsuffix (by decide +kernel)
  | ifNoneGoTo label =>
    have heq := (after?_eq_some_iff.mp (form_ifNoneGoTo_iff.mp hq)).2
    obtain ⟨b, hb, hnot⟩ := hopening
    exact absurd (h.digit_of_prefix ⟨label, heq⟩ b hb) hnot
  | lookInto other => exact Nat.le_refl _

include h in
theorem IsNumeral.isText : Source.IsText (digits ++ lookEnding) := by
  have hfront : ∀ form ∈ Blank.forms, ∃ b ∈ form.head?, ¬ (48 ≤ b ∧ b ≤ 57) := by decide +kernel
  have hback : ∀ form ∈ Blank.forms, form.length ≤ lookEnding.length ∧ ¬ form <:+ lookEnding := by
    decide +kernel
  have hending : ∀ b ∈ lookEnding, ¬ Source.EndsLine b := by decide +kernel
  refine ⟨List.append_ne_nil_of_left_ne_nil h.nonempty _, Blank.trim_of_bare ?_ ?_, ?_⟩
  · intro form hform hp
    obtain ⟨b, hb, hnot⟩ := hfront form hform
    exact hnot (h.digit_of_prefix hp b hb)
  · intro form hform hs
    obtain ⟨hlen, hnot⟩ := hback form hform
    exact hnot (suffix_lookEnding hs hlen)
  · intro b hb hend
    rcases List.mem_append.mp hb with hb | hb
    · have hdigit := (h.digits b hb).1
      rcases hend with rfl | rfl <;> exact absurd hdigit (by decide)
    · exact hending b hb hend

end Numeral

theorem phrase_plain :
    ∀ entry ∈ plainPhrases, ({ op := entry.2 } : Instruction).phrase = entry.1 := by
  decide +kernel

theorem phrase_lookInto (digits : Bytes) :
    (lookInto digits).instruction.phrase =
      Decimal.digits (Decimal.value digits) ++ lookEnding := by
  simp [instruction, Instruction.phrase, Decimal.ofInt, Int.not_lt.mpr (Int.natCast_nonneg _)]

/-- The phrase written for what a text says: the text itself, unless it looks into a tank. -/
theorem Says.phrase_eq {text : Bytes} {p : Phrase} (hp : Says text p)
    (hne : ∀ digits, p ≠ .lookInto digits) : p.instruction.phrase = text := by
  cases p with
  | plain op => exact phrase_plain _ hp.form.mem_plainPhrases
  | swimTo label => exact (before?_eq_some_iff.mp (form_swimTo_iff.mp hp.form)).2
  | arriveAt label => exact (before?_eq_some_iff.mp (form_arriveAt_iff.mp hp.form)).2
  | ifNoneGoTo label => exact (after?_eq_some_iff.mp (form_ifNoneGoTo_iff.mp hp.form)).2
  | lookInto digits => exact absurd rfl (hne digits)

/-- What is written for a text can stand on a line, and says the same. -/
theorem Says.written {text : Bytes} {p : Phrase} (hp : Says text p) (htext : Source.IsText text)
    (hvalid : p.IsValid) :
    Source.IsText p.instruction.phrase ∧ Says p.instruction.phrase p.canonical := by
  by_cases hlook : ∃ digits, p = .lookInto digits
  · obtain ⟨digits, rfl⟩ := hlook
    have hnumeral := (isTank_digits (show Decimal.value digits ≤ 2018 from hvalid.bound)).isNumeral
    rw [phrase_lookInto]
    exact ⟨hnumeral.isText, hnumeral.says⟩
  · have hne : ∀ digits, p ≠ .lookInto digits := fun digits hd => hlook ⟨digits, hd⟩
    rw [hp.phrase_eq hne]
    refine ⟨htext, ?_⟩
    cases p with
    | lookInto digits => exact absurd rfl (hne digits)
    | _ => exact hp

end Phrase

theorem Spoken.written {texts : List Bytes} {ps : List Phrase} (h : Spoken texts ps)
    (htexts : ∀ text ∈ texts, Source.IsText text) {p : Phrase} (hp : p ∈ ps) :
    Source.IsText p.instruction.phrase ∧ Phrase.Says p.instruction.phrase p.canonical ∧
      p.canonical.IsValid := by
  obtain ⟨text, htext, hsaid, hvalid⟩ := h.exists_text hp
  obtain ⟨hstands, hsame⟩ := hsaid.written (htexts text htext) hvalid
  exact ⟨hstands, hsame, Phrase.isValid_canonical hvalid⟩

/-- A program written out as phrases compiles to the same program. -/
theorem compile_written {name source : Bytes} {program : Program}
    (h : compile name source = .ok program) (other : Bytes) :
    compile other
      (Bytes.join [Bytes.newline] (program.code.toList.map Instruction.phrase)) = .ok program := by
  obtain ⟨ps, hps, hdistinct, hresolved, rfl⟩ := compile_eq_ok_iff.mp h
  have hwritten := fun p (hp : p ∈ ps) =>
    hps.written (fun _ => Source.isText_of_mem_texts) hp
  have hphrases : (Program.ofCode (ps.map Phrase.instruction)).code.toList.map Instruction.phrase =
      ps.map fun p => p.instruction.phrase := by
    simp [Program.ofCode]
  rw [hphrases, compile_eq_ok_iff, Source.texts_join]
  · refine ⟨ps.map Phrase.canonical, ?_, ?_⟩
    · rw [Spoken, List.forall₂_map_left_iff, List.forall₂_map_right_iff, List.forall₂_same]
      exact fun p hp => (hwritten p hp).2
    · simp only [List.map_map, Function.comp_def, Phrase.instruction_canonical]
      exact ⟨hdistinct, hresolved, trivial⟩
  · intro text htext
    obtain ⟨p, hp, rfl⟩ := List.mem_map.mp htext
    exact (hwritten p hp).1

/-- White space, a CR LF and leading zeros are gone from what is written, and the program is the
same. -/
theorem compile_written_leadingZeros :
    ∃ program,
      compile [] (utf8 "　ビルに着いた\r\n\n007番目の水槽をのぞく\nビルへ泳いでいこう ") = .ok program ∧
        compile (utf8 "again") (utf8 "ビルに着いた\n7番目の水槽をのぞく\nビルへ泳いでいこう") =
          .ok program := by
  have h : compile [] (utf8 "　ビルに着いた\r\n\n007番目の水槽をのぞく\nビルへ泳いでいこう ") =
      .ok ⟨#[{ op := .nop, label := utf8 "ビル" }, { op := .setPointer, arg := 7 },
        { op := .jumpIfPositive, label := utf8 "ビル" }], [(utf8 "ビル", 0)]⟩ :=
    compile_of_toOption (by decide +kernel)
  have hwritten := compile_written h (utf8 "again")
  refine ⟨_, h, ?_⟩
  rw [← hwritten]
  exact congrArg (compile _) (by decide +kernel)

end Sardine
