import Sardine.Proofs.Report

/-! Sources that differ in the numbers of their lines only.
What a source says is the list of its texts. Blank lines, and white space at the ends of lines, give
the texts other numbers, and these show in nothing but the numbers that diagnostics mention. -/
namespace Sardine

def Complaint.renumber (f : Nat → Nat) : Complaint → Complaint
  | redefinition label previousLine => redefinition label (f previousLine)
  | other => other

def Diagnostic.renumber (name : Bytes) (f : Nat → Nat) (d : Diagnostic) : Diagnostic :=
  ⟨name, f d.line, d.text, d.complaint.renumber f⟩

namespace Source

def Line.renumber (f : Nat → Nat) (line : Line) : Line := { line with number := f line.number }

section Report

variable (f : Nat → Nat)

@[simp] theorem text_renumber (line : Line) : (line.renumber f).text = line.text := rfl

@[simp] theorem arrival?_renumber (line : Line) : (line.renumber f).arrival? = line.arrival? := rfl

@[simp] theorem departure?_renumber (line : Line) :
    (line.renumber f).departure? = line.departure? :=
  rfl

theorem fault?_renumber (before : List Line) (line : Line) :
    fault? (before.map (Line.renumber f)) (line.renumber f) =
      (fault? before line).map (Complaint.renumber f) := by
  simp only [fault?, text_renumber]
  cases Phrase.ofLine? line.text with
  | none => rfl
  | some p =>
    cases p with
    | arriveAt label =>
      simp only [List.find?_map, Function.comp_def, arrival?_renumber, Option.map_map]
      rfl
    | lookInto digits =>
      by_cases htank : (Phrase.tank? digits).isSome <;> simp [htank, Complaint.renumber]
    | _ => rfl

theorem missing?_renumber (all before : List Line) (line : Line) :
    missing? (all.map (Line.renumber f)) (before.map (Line.renumber f)) (line.renumber f) =
      (missing? all before line).map (Complaint.renumber f) := by
  unfold missing?
  rw [departure?_renumber]
  cases line.departure? with
  | none => rfl
  | some label =>
    simp only [Option.bind_some, List.mem_map, exists_exists_and_eq_and, departure?_renumber,
      arrival?_renumber]
    split <;> rfl

theorem report_renumber {say? say'? : List Line → Line → Option Complaint}
    (h : ∀ before line, say'? (before.map (Line.renumber f)) (line.renumber f) =
      (say? before line).map (Complaint.renumber f))
    (name name' : Bytes) (before lines : List Line) :
    report name' say'? (before.map (Line.renumber f)) (lines.map (Line.renumber f)) =
      (report name say? before lines).map (Diagnostic.renumber name' f) := by
  induction lines generalizing before with
  | nil => rfl
  | cons line lines ih =>
    have hrest := ih (before ++ [line])
    rw [List.map_append, List.map_singleton] at hrest
    rw [List.map_cons, report, report, List.map_append, hrest, h]
    cases say? before line <;> rfl

end Report

/-- All that is wrong with a source, if its lines get other numbers. -/
theorem diagnosis_renumber {source other : Bytes} {f : Nat → Nat}
    (h : numberedLines other = (numberedLines source).map (Line.renumber f)) (name name' : Bytes) :
    diagnosis name' other = (diagnosis name source).map (Diagnostic.renumber name' f) := by
  have hfaults := report_renumber f (fault?_renumber f) name name' [] (numberedLines source)
  have hmissing := report_renumber f (missing?_renumber f (numberedLines source)) name name' []
    (numberedLines source)
  rw [diagnosis, diagnosis, List.map_append, h]
  exact congrArg₂ (· ++ ·) hfaults hmissing

/-- Lines with the same texts differ in their numbers, which stand for each other. -/
theorem exists_renumber {lines others : List Line} (hnodup : (lines.map Line.number).Nodup)
    (h : lines.map Line.text = others.map Line.text) :
    ∃ f, others = lines.map (Line.renumber f) := by
  induction lines generalizing others with
  | nil => exact ⟨id, by simpa using h.symm⟩
  | cons line lines ih =>
    obtain ⟨hline, hlines⟩ := List.nodup_cons.mp hnodup
    cases others with
    | nil => simp at h
    | cons other others =>
      simp only [List.map_cons, List.cons.injEq] at h
      obtain ⟨f, rfl⟩ := ih hlines h.2
      refine ⟨Function.update f line.number other.number, ?_⟩
      rw [List.map_cons]
      congr 1
      · simp [Line.renumber, h.1]
      · refine List.map_congr_left fun next hnext => ?_
        have hne : next.number ≠ line.number := fun heq =>
          hline (heq ▸ List.mem_map_of_mem hnext)
        simp [Line.renumber, hne]

theorem numberedLines_trimmed (source : Bytes) :
    numberedLines (Bytes.join [Bytes.newline] ((lines source).map Blank.trim)) =
      numberedLines source := by
  have hunbroken : ∀ line ∈ (scan source).map Blank.trim, Unbroken line := by
    intro line hline b hb
    obtain ⟨part, hpart, rfl⟩ := List.mem_map.mp hline
    obtain ⟨before, after, -, -, hsplit⟩ := (Blank.core_trim part).split
    exact unbroken_of_mem_scan hpart b (hsplit ▸ by simp [hb])
  have hne : (scan source).map Blank.trim ≠ [] := by simpa using scan_ne_nil source
  have hspoken : spoken? ∘ Prod.map Blank.trim id = spoken? := by
    funext entry
    simp [spoken?, Blank.trim_trim]
  rw [numberedLines_eq, lines_eq_scan, scan_join hne hunbroken, List.zipIdx_map, List.filterMap_map,
    hspoken, numberedLines_eq]

end Source

/-- Sources with the same texts are compiled to the same program, or both are rejected, and then
with the same complaints but for the name of the source and the numbers of lines. In particular it
does not matter whether lines have been trimmed before; a trimmed line is trimmed no further, be it
UTF-8 or not. -/
theorem compile_of_texts_eq {source other : Bytes} (h : Source.texts source = Source.texts other)
    (name name' : Bytes) :
    (∃ f : Nat → Nat,
      ((Source.numberedLines source).map Source.Line.number).map f =
        (Source.numberedLines other).map Source.Line.number ∧
      ((∃ program, compile name source = .ok program ∧ compile name' other = .ok program) ∨
        ∃ complaints, compile name source = .error complaints ∧
          compile name' other = .error (complaints.map (Diagnostic.renumber name' f)))) ∧
      compile name (Bytes.join [Bytes.newline] ((Source.lines source).map Blank.trim)) =
        compile name source ∧
      ∀ line, Blank.trim (Blank.trim line) = Blank.trim line := by
  refine ⟨?_, ?_, Blank.trim_trim⟩
  · have hnodup : ((Source.numberedLines source).map Source.Line.number).Nodup :=
      List.pairwise_map.mpr ((Source.pairwise_numberedLines source).imp Nat.ne_of_lt)
    obtain ⟨f, hlines⟩ := Source.exists_renumber hnodup h
    refine ⟨f, by simp [hlines, Source.Line.renumber], ?_⟩
    have hsame : ∀ program,
        compile name source = .ok program ↔ compile name' other = .ok program := by
      intro program
      rw [compile_eq_ok_iff, compile_eq_ok_iff, h]
    cases hsource : compile name source with
    | ok program => exact Or.inl ⟨program, rfl, (hsame program).mp hsource⟩
    | error complaints =>
      cases hother : compile name' other with
      | ok program =>
        rw [(hsame program).mpr hother] at hsource
        exact absurd hsource (by simp)
      | error others =>
        refine Or.inr ⟨complaints, rfl, ?_⟩
        rw [complaints_of_compile hsource, complaints_of_compile hother,
          Source.diagnosis_renumber hlines name name', List.map_take]
  · rw [compile, Source.numberedLines_trimmed, compile]

/-- A label defined twice and a byte that is no text, first on lines one to three and then, with
blank lines and white space, on lines two, four and five. -/
theorem compile_of_texts_eq_blankLines :
    let source := utf8 "あに着いた\nあに着いた\n" ++ [0xA0]
    let other := utf8 "\r\n　あに着いた\n\n\tあに着いた \r" ++ [0xC2, 0xA0, 0xA0]
    Source.texts source = Source.texts other ∧
      ∃ (f : Nat → Nat) (complaints : List Diagnostic), [1, 2, 3].map f = [2, 4, 5] ∧
        compile [] source = .error complaints ∧
        compile (utf8 "t") other = .error (complaints.map (Diagnostic.renumber (utf8 "t") f)) := by
  intro source other
  have htexts : Source.texts source = Source.texts other := by decide +kernel
  have hnumbers : (Source.numberedLines source).map Source.Line.number = [1, 2, 3] := by
    decide +kernel
  have hothers : (Source.numberedLines other).map Source.Line.number = [2, 4, 5] := by
    decide +kernel
  have hrejected : (compile [] source).toOption = none := by decide +kernel
  obtain ⟨⟨f, hf, hresult⟩, -, -⟩ := compile_of_texts_eq htexts [] (utf8 "t")
  rw [hnumbers, hothers] at hf
  rcases hresult with ⟨program, hprogram, -⟩ | ⟨complaints, hsource, hother⟩
  · simp [hprogram, Except.toOption] at hrejected
  · exact ⟨htexts, f, complaints, hf, hsource, hother⟩

end Sardine
