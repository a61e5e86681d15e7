import Sardine.Proofs.Grammar
import Sardine.Proofs.Layout
import Sardine.Proofs.LineScan

/-! Which sources are accepted, and what becomes of them.
As long as nothing is wrong, reading lines lays out the instructions of their phrases. A source is
accepted if every text is a phrase, no label is defined twice and every label used is defined;
the program is then laid out from the phrases. -/
namespace Sardine

def Site.unnumbered (site : Site) : Site := { site with line := 0 }

def Mention.unnumbered (entry : Mention) : Mention :=
  { entry with
    definition := entry.definition.map Site.unnumbered
    firstUse := entry.firstUse.map Site.unnumbered }

namespace Draft

def unnumbered (draft : Draft) : Draft :=
  { draft with mentions := draft.mentions.map Mention.unnumbered }

theorem unnumbered_place (line : Nat) (draft : Draft) (ins : Instruction) :
    (draft.place line ins).unnumbered = draft.unnumbered.place 0 ins := by
  have hdef := map_updateMention Mention.unnumbered (Mention.definedAt ⟨line, draft.code.size⟩)
    (Mention.definedAt ⟨0, draft.code.size⟩) (fun _ => rfl) (fun _ => rfl) ins.label rfl
    draft.mentions
  have huse := map_updateMention Mention.unnumbered (Mention.usedAt ⟨line, draft.code.size⟩)
    (Mention.usedAt ⟨0, draft.code.size⟩) (fun _ => rfl)
    (fun entry => by cases h : entry.firstUse <;> simp [Mention.usedAt, Mention.unnumbered, h,
      Site.unnumbered]) ins.label rfl draft.mentions
  simp only [unnumbered, place, noted, mk.injEq, true_and, and_true]
  split_ifs
  · exact hdef
  · exact huse
  · rfl

@[simp] theorem labels_unnumbered (draft : Draft) : draft.unnumbered.labels = draft.labels := by
  simp only [labels, unnumbered, List.filterMap_map]
  congr 1
  funext entry
  cases h : entry.definition <;> simp [Mention.unnumbered, h, Site.unnumbered]

theorem missing_unnumbered {draft : Draft} :
    missing draft.unnumbered.mentions = [] ↔ missing draft.mentions = [] := by
  simp [missing_eq_nil_iff, unnumbered, Mention.unnumbered]

theorem definition?_unnumbered (draft : Draft) (label : Bytes) :
    draft.unnumbered.definition? label = (draft.definition? label).map Site.unnumbered := by
  simp only [definition?, mention?, unnumbered, List.find?_map, Function.comp_def]
  have hname : ∀ entry : Mention, entry.unnumbered.name = entry.name := fun _ => rfl
  simp only [hname]
  cases draft.mentions.find? (·.name = label) <;> rfl

/-- What is wrong with a line, given what has been read before it. -/
def objection? (draft : Draft) (line : Source.Line) : Option Complaint :=
  match Phrase.ofLine? line.text with
  | none => some (.unknownPhrase line.text)
  | some (.arriveAt label) =>
    (draft.definition? label).map fun previous => .redefinition label previous.line
  | some (.lookInto digits) =>
    if (Phrase.tank? digits).isSome then none else some (.invalidTank digits)
  | some _ => none

theorem objection?_eq_none_iff {draft : Draft} {line : Source.Line} :
    draft.objection? line = none ↔
      ∃ p, Phrase.Says line.text p ∧ p.IsValid ∧
        ∀ label, p = .arriveAt label → draft.definition? label = none := by
  simp only [← Phrase.ofLine?_eq_some_iff]
  unfold objection?
  cases h : Phrase.ofLine? line.text with
  | none => simp
  | some p =>
    cases p with
    | lookInto digits =>
      simp [Phrase.IsValid, Option.isSome_iff_exists, Phrase.tank?_eq_some_iff]
    | _ => simp [Phrase.IsValid]

theorem complaints_complain_ne_nil (draft : Draft) (d : Diagnostic) :
    (draft.complain d).complaints ≠ [] := by
  unfold complain
  split
  · rename_i h
    intro hnil
    simp [isFull, mostComplaints, hnil] at h
  · simp

theorem complaints_readLine {draft : Draft} (h : draft.isFull = false) (name : Bytes)
    (line : Source.Line) :
    (draft.readLine name line).complaints =
      draft.complaints ++ ((draft.objection? line).map
        (⟨name, line.number, line.text, ·⟩)).toList := by
  unfold readLine objection?
  cases hp : Phrase.ofLine? line.text with
  | none => simp [complain, h]
  | some p =>
    cases p with
    | plain op => simp [emit]
    | swimTo label => simp [emit, useLabel]
    | ifNoneGoTo label => simp [emit, useLabel]
    | arriveAt label =>
      simp only [emit, defineLabel, definition?]
      cases (draft.mention? label).bind Mention.definition <;> simp [complain, h]
    | lookInto digits =>
      cases htank : Phrase.tank? digits <;> simp [emit, complain, h, htank]

theorem noLabel_of_mem_plainPhrases :
    ∀ entry ∈ Phrase.plainPhrases, entry.2 ≠ .nop ∧ entry.2.isJump = false := by
  decide +kernel

theorem readLine_eq_place {draft : Draft} {name : Bytes} {line : Source.Line} {p : Phrase}
    (hp : Phrase.Says line.text p) (hvalid : p.IsValid)
    (hnew : ∀ label, p = .arriveAt label → draft.definition? label = none) :
    draft.readLine name line = draft.place line.number p.instruction := by
  unfold readLine
  rw [Phrase.ofLine?_eq_some_iff.mpr hp]
  cases p with
  | plain op =>
    obtain ⟨hnop, hjump⟩ := noLabel_of_mem_plainPhrases _ hp.form.mem_plainPhrases
    simp [place, noted, emit, Phrase.instruction, hnop, hjump]
  | swimTo label => rfl
  | arriveAt label =>
    have hnone : (draft.mention? label).bind Mention.definition = none := hnew label rfl
    simp only [defineLabel, hnone]
    rfl
  | ifNoneGoTo label => rfl
  | lookInto digits =>
    have htank := Phrase.tank?_eq_some_iff.mpr ⟨hvalid, rfl⟩
    simp only [htank]
    rfl

@[simp] theorem readLines_nil (name : Bytes) (draft : Draft) :
    draft.readLines name [] = draft := rfl

@[simp] theorem readLines_cons (name : Bytes) (draft : Draft) (line : Source.Line)
    (lines : List Source.Line) :
    draft.readLines name (line :: lines) =
      (if draft.isFull then draft else draft.readLine name line).readLines name lines := rfl

theorem complaints_readLine_ne_nil {draft : Draft} (h : draft.complaints ≠ []) (name : Bytes)
    (line : Source.Line) :
    (if draft.isFull then draft else draft.readLine name line).complaints ≠ [] := by
  split
  · exact h
  · rename_i hfull
    rw [complaints_readLine (by simpa using hfull)]
    exact List.append_ne_nil_of_left_ne_nil h _

theorem complaints_readLines_ne_nil {draft : Draft} (h : draft.complaints ≠ []) (name : Bytes)
    (lines : List Source.Line) : (draft.readLines name lines).complaints ≠ [] := by
  induction lines generalizing draft with
  | nil => exact h
  | cons line lines ih => exact ih (complaints_readLine_ne_nil h name line)

/-- The draft has come about by laying out the code. -/
structure Holds (draft : Draft) (code : List Instruction) : Prop where
  complaints : draft.complaints = []
  unnumbered : draft.unnumbered = ofCode code
  distinct : Distinct code

theorem Holds.isFull {draft : Draft} {code : List Instruction} (h : draft.Holds code) :
    draft.isFull = false := by
  simp [Draft.isFull, h.complaints, mostComplaints]

theorem Holds.code {draft : Draft} {code : List Instruction} (h : draft.Holds code) :
    draft.code = code.toArray := by
  rw [← code_ofCode, ← h.unnumbered]
  rfl

theorem Holds.definition?_eq_none_iff {draft : Draft} {code : List Instruction}
    (h : draft.Holds code) {label : Bytes} :
    draft.definition? label = none ↔ ∀ ins ∈ code, ¬ ins.Defines label := by
  have hsome : ((ofCode code).definition? label).isSome ↔ _ := isSome_definition?_ofCode
  rw [← h.unnumbered, definition?_unnumbered, Option.isSome_map] at hsome
  rw [← Option.not_isSome_iff_eq_none, hsome]
  simp

end Draft

section Phrases

variable {line label : Bytes} {p : Phrase}

theorem Phrase.defines_instruction_iff (hp : Phrase.Says line p) :
    p.instruction.Defines label ↔ p = .arriveAt label := by
  cases p with
  | plain op =>
    have hnop := (Draft.noLabel_of_mem_plainPhrases _ hp.form.mem_plainPhrases).1
    simp [Phrase.instruction, Instruction.Defines, hnop]
  | _ => simp [Phrase.instruction, Instruction.Defines]

theorem Phrase.uses_instruction_iff (hp : Phrase.Says line p) :
    p.instruction.Uses label ↔ p = .swimTo label ∨ p = .ifNoneGoTo label := by
  cases p with
  | plain op =>
    have hjump := (Draft.noLabel_of_mem_plainPhrases _ hp.form.mem_plainPhrases).2
    simp [Phrase.instruction, Instruction.Uses, hjump]
  | _ => simp [Phrase.instruction, Instruction.Uses, Opcode.isJump]

end Phrases

namespace Draft

/-- One line with which nothing is wrong. -/
theorem Holds.readLine {draft : Draft} {code : List Instruction} (h : draft.Holds code)
    (name : Bytes) {line : Source.Line} {p : Phrase} (hp : Phrase.Says line.text p)
    (hvalid : p.IsValid) (hdistinct : Distinct (code ++ [p.instruction])) :
    (draft.readLine name line).Holds (code ++ [p.instruction]) := by
  have hnew : ∀ label, p = .arriveAt label → draft.definition? label = none := by
    intro label hlabel
    rw [h.definition?_eq_none_iff]
    intro ins hins hdef
    have hlast := (List.pairwise_append.mp hdistinct).2.2 ins hins p.instruction (by simp)
    exact hlast label hdef ((Phrase.defines_instruction_iff hp).mpr hlabel)
  rw [readLine_eq_place hp hvalid hnew]
  refine ⟨h.complaints, ?_, hdistinct⟩
  rw [unnumbered_place, h.unnumbered, ofCode_concat]

theorem Holds.readLines {draft : Draft} {code : List Instruction} (h : draft.Holds code)
    (name : Bytes) {lines : List Source.Line} {ps : List Phrase}
    (hps : List.Forall₂ (fun line p => Phrase.Says line.text p ∧ p.IsValid) lines ps)
    (hdistinct : Distinct (code ++ ps.map Phrase.instruction)) :
    (draft.readLines name lines).Holds (code ++ ps.map Phrase.instruction) := by
  induction hps generalizing draft code with
  | nil => simpa using h
  | @cons line p lines ps hp _ ih =>
    have hsplit : code ++ (p :: ps).map Phrase.instruction =
        code ++ [p.instruction] ++ ps.map Phrase.instruction := by simp
    rw [hsplit] at hdistinct ⊢
    have hstep := h.readLine name hp.1 hp.2 (List.pairwise_append.mp hdistinct).1
    rw [readLines_cons, h.isFull]
    exact ih hstep hdistinct

theorem Holds.exists_phrases {draft : Draft} {code : List Instruction} (h : draft.Holds code)
    (name : Bytes) {lines : List Source.Line}
    (hnil : (draft.readLines name lines).complaints = []) :
    ∃ ps, List.Forall₂ (fun line p => Phrase.Says line.text p ∧ p.IsValid) lines ps ∧
      Distinct (code ++ ps.map Phrase.instruction) := by
  induction lines generalizing draft code with
  | nil => exact ⟨[], List.Forall₂.nil, by simpa using h.distinct⟩
  | cons line lines ih =>
    rw [readLines_cons, h.isFull] at hnil
    simp only [Bool.false_eq_true, if_false] at hnil
    have hclean : (draft.readLine name line).complaints = [] := by
      by_contra hne
      exact complaints_readLines_ne_nil hne name lines hnil
    rw [complaints_readLine h.isFull, h.complaints] at hclean
    have hobjection : draft.objection? line = none := by simpa using hclean
    obtain ⟨p, hp, hvalid, hnew⟩ := objection?_eq_none_iff.mp hobjection
    have hdistinct : Distinct (code ++ [p.instruction]) := by
      refine List.pairwise_append.mpr ⟨h.distinct, List.pairwise_singleton _ _, ?_⟩
      intro ins hins other hother label hdef hdef'
      obtain rfl : other = p.instruction := by simpa using hother
      have hnone := hnew label ((Phrase.defines_instruction_iff hp).mp hdef')
      exact h.definition?_eq_none_iff.mp hnone ins hins hdef
    obtain ⟨ps, hps, hd⟩ := ih (h.readLine name hp hvalid hdistinct) hnil
    refine ⟨p :: ps, List.Forall₂.cons ⟨hp, hvalid⟩ hps, ?_⟩
    simpa using hd

theorem complaints_foldl_complainMissing_ne_nil {draft : Draft} (h : draft.complaints ≠ [])
    (name : Bytes) (entries : List (Bytes × Site)) :
    (entries.foldl (complainMissing name) draft).complaints ≠ [] := by
  induction entries generalizing draft with
  | nil => exact h
  | cons entry entries ih => exact ih (complaints_complain_ne_nil draft _)

theorem finish_eq_ok_iff {draft : Draft} {name : Bytes} {program : Program} :
    draft.finish name = .ok program ↔
      draft.complaints = [] ∧ missing draft.mentions = [] ∧
        ⟨draft.code, draft.labels⟩ = program := by
  unfold finish
  cases hmissing : missing draft.mentions with
  | nil => cases hcomplaints : draft.complaints <;> simp [hcomplaints]
  | cons entry entries =>
    have hfirst : (complainMissing name draft entry).complaints ≠ [] :=
      complaints_complain_ne_nil draft _
    have hne := complaints_foldl_complainMissing_ne_nil hfirst name entries
    simp [hne]

theorem finish_error_ne_nil {draft : Draft} {name : Bytes} {complaints : List Diagnostic}
    (h : draft.finish name = .error complaints) : complaints ≠ [] := by
  unfold finish at h
  simp only at h
  split at h
  · simp at h
  · rename_i hne
    rw [← Except.error.inj h]
    simpa using hne

theorem Holds.missing_eq_nil_iff {draft : Draft} {code : List Instruction} (h : draft.Holds code) :
    missing draft.mentions = [] ↔ Resolved code := by
  rw [← missing_unnumbered, h.unnumbered, missing_eq_nil_iff_views (nodup_ofCode code)]
  simp only [isSome_definition?_ofCode, isSome_firstUse?_ofCode, Resolved]
  exact ⟨fun hall ins hins label huse => hall label ⟨ins, hins, huse⟩,
    fun hall label ⟨ins, hins, huse⟩ => hall ins hins label huse⟩

theorem holds_nil : Holds {} [] := ⟨rfl, rfl, List.Pairwise.nil⟩

end Draft

theorem compile_of_toOption {name source : Bytes} {program : Program}
    (h : (compile name source).toOption = some program) : compile name source = .ok program := by
  cases hresult : compile name source with
  | error complaints => simp [hresult, Except.toOption] at h
  | ok other =>
    rw [hresult] at h
    exact congrArg _ (Option.some.inj h)

/-- The texts and the phrases they say, one by one. -/
def Spoken (texts : List Bytes) (ps : List Phrase) : Prop :=
  List.Forall₂ (fun text p => Phrase.Says text p ∧ p.IsValid) texts ps

/-- A source is compiled to the program laid out from its phrases, if they fit together. -/
theorem compile_eq_ok_iff {name source : Bytes} {program : Program} :
    compile name source = .ok program ↔
      ∃ ps, Spoken (Source.texts source) ps ∧
        Distinct (ps.map Phrase.instruction) ∧ Resolved (ps.map Phrase.instruction) ∧
        Program.ofCode (ps.map Phrase.instruction) = program := by
  rw [compile, Draft.finish_eq_ok_iff, Source.texts]
  simp only [Spoken, List.forall₂_map_left_iff]
  constructor
  · rintro ⟨hcomplaints, hmissing, hprogram⟩
    obtain ⟨ps, hps, hdistinct⟩ := Draft.holds_nil.exists_phrases name hcomplaints
    have h := Draft.holds_nil.readLines name hps hdistinct
    rw [List.nil_append] at h hdistinct
    refine ⟨ps, hps, hdistinct, h.missing_eq_nil_iff.mp hmissing, ?_⟩
    rw [← hprogram, Program.ofCode, ← h.unnumbered, Draft.labels_unnumbered, h.code]
  · rintro ⟨ps, hps, hdistinct, hresolved, hprogram⟩
    have h := Draft.holds_nil.readLines name hps (by simpa using hdistinct)
    rw [List.nil_append] at h
    refine ⟨h.complaints, h.missing_eq_nil_iff.mpr hresolved, ?_⟩
    rw [← hprogram, Program.ofCode, ← h.unnumbered, Draft.labels_unnumbered, h.code]

end Sardine
