import Sardine.Proofs.Language

/-! What reading a line does to a draft, whether or not something is wrong with the line.
A label keeps its first definition and its first use. If no label is defined by two of the lines,
what is wrong with a line can be told before any of them is read; the complaints are then the first
ten of those about the single lines. -/
namespace Sardine.Draft

section Mentions

variable (draft : Draft) (label : Bytes)

@[simp] theorem mentions_complain (d : Diagnostic) :
    (draft.complain d).mentions = draft.mentions := by
  unfold complain
  split <;> rfl

@[simp] theorem definition?_emit (ins : Instruction) :
    (draft.emit ins).definition? label = draft.definition? label := rfl

@[simp] theorem firstUse?_emit (ins : Instruction) :
    (draft.emit ins).firstUse? label = draft.firstUse? label := rfl

@[simp] theorem definition?_complain (d : Diagnostic) :
    (draft.complain d).definition? label = draft.definition? label := by
  simp [definition?, mention?]

@[simp] theorem firstUse?_complain (d : Diagnostic) :
    (draft.complain d).firstUse? label = draft.firstUse? label := by
  simp [firstUse?, mention?]

@[simp] theorem definition?_useLabel (used : Bytes) (line : Nat) :
    (draft.useLabel used line).definition? label = draft.definition? label := by
  have h := field_updateMention (Mention.usedAt ⟨line, draft.code.size⟩) (fun _ => rfl)
    Mention.definition id (fun _ => rfl) used label rfl draft.mentions
  simp only [id_eq, ite_self] at h
  exact h

theorem firstUse?_useLabel (used : Bytes) (line : Nat) :
    (draft.useLabel used line).firstUse? label =
      if used = label then (draft.firstUse? label).or (some ⟨line, draft.code.size⟩)
      else draft.firstUse? label :=
  field_updateMention (Mention.usedAt ⟨line, draft.code.size⟩) (fun _ => rfl) Mention.firstUse
    (·.or (some ⟨line, draft.code.size⟩)) (fun _ => rfl) used label rfl draft.mentions

theorem definition?_defineLabel (name defined : Bytes) (line : Source.Line) :
    (draft.defineLabel name defined line).definition? label =
      if defined = label then
        (draft.definition? label).or (some ⟨line.number, draft.code.size⟩)
      else draft.definition? label := by
  unfold defineLabel
  split
  · rename_i previous hprevious
    have hdefined : draft.definition? defined = some previous := hprevious
    by_cases h : defined = label
    · subst h
      simp [hdefined]
    · simp [h]
  · rename_i hnone
    have hnew : draft.definition? defined = none := hnone
    have h := field_updateMention (Mention.definedAt ⟨line.number, draft.code.size⟩)
      (fun _ => rfl) Mention.definition (fun _ => some ⟨line.number, draft.code.size⟩)
      (fun _ => rfl) defined label rfl draft.mentions
    refine h.trans ?_
    by_cases hlabel : defined = label
    · subst hlabel
      simp [hnew]
    · simp [hlabel]
      rfl

@[simp] theorem firstUse?_defineLabel (name defined : Bytes) (line : Source.Line) :
    (draft.defineLabel name defined line).firstUse? label = draft.firstUse? label := by
  unfold defineLabel
  split
  · exact firstUse?_complain draft label _
  · have h := field_updateMention (Mention.definedAt ⟨line.number, draft.code.size⟩)
      (fun _ => rfl) Mention.firstUse id (fun _ => rfl) defined label rfl draft.mentions
    simp only [id_eq, ite_self] at h
    exact h

theorem definition?_readLine (name : Bytes) (line : Source.Line) :
    (draft.readLine name line).definition? label =
      if Phrase.ofLine? line.text = some (.arriveAt label) then
        (draft.definition? label).or (some ⟨line.number, draft.code.size⟩)
      else draft.definition? label := by
  unfold readLine
  cases hp : Phrase.ofLine? line.text with
  | none => simp
  | some p =>
    cases p with
    | arriveAt defined => simp [definition?_defineLabel]
    | lookInto digits => cases htank : Phrase.tank? digits <;> simp [htank]
    | _ => simp

theorem firstUse?_readLine (name : Bytes) (line : Source.Line) :
    (draft.readLine name line).firstUse? label =
      if Phrase.ofLine? line.text = some (.swimTo label) ∨
          Phrase.ofLine? line.text = some (.ifNoneGoTo label) then
        (draft.firstUse? label).or (some ⟨line.number, draft.code.size⟩)
      else draft.firstUse? label := by
  unfold readLine
  cases hp : Phrase.ofLine? line.text with
  | none => simp
  | some p =>
    cases p with
    | swimTo used => simp [firstUse?_useLabel]
    | ifNoneGoTo used => simp [firstUse?_useLabel]
    | lookInto digits => cases htank : Phrase.tank? digits <;> simp [htank]
    | _ => simp

end Mentions

theorem nodup_readLine {draft : Draft} (h : (draft.mentions.map Mention.name).Nodup)
    (name : Bytes) (line : Source.Line) :
    ((draft.readLine name line).mentions.map Mention.name).Nodup := by
  unfold readLine
  cases Phrase.ofLine? line.text with
  | none => simpa using h
  | some p =>
    cases p with
    | plain op => exact h
    | swimTo label | ifNoneGoTo label =>
      exact nodup_updateMention (Mention.usedAt ⟨line.number, draft.code.size⟩) (fun _ => rfl) h
        label
    | arriveAt label =>
      show ((draft.defineLabel name label line).mentions.map Mention.name).Nodup
      unfold defineLabel
      split
      · simpa using h
      · exact nodup_updateMention (Mention.definedAt ⟨line.number, draft.code.size⟩)
          (fun _ => rfl) h label
    | lookInto digits => cases htank : Phrase.tank? digits <;> simpa [htank, emit] using h

def diagnose? (name : Bytes) (draft : Draft) (line : Source.Line) : Option Diagnostic :=
  (draft.objection? line).map (⟨name, line.number, line.text, ·⟩)

/-- No two of the lines arrive at the same label. -/
def Apart (lines : List Source.Line) : Prop :=
  lines.Pairwise fun a b =>
    ∀ label, Phrase.Says a.text (.arriveAt label) → ¬ Phrase.Says b.text (.arriveAt label)

theorem diagnose?_readLine {name : Bytes} {line other : Source.Line} (draft : Draft)
    (h : ∀ label, Phrase.Says line.text (.arriveAt label) →
      ¬ Phrase.Says other.text (.arriveAt label)) :
    (draft.readLine name line).diagnose? name other = draft.diagnose? name other := by
  simp only [diagnose?, objection?, definition?_readLine]
  cases hp : Phrase.ofLine? other.text with
  | none => rfl
  | some p =>
    cases p with
    | arriveAt label =>
      have hother := Phrase.ofLine?_eq_some_iff.mp hp
      have hline : ¬ Phrase.ofLine? line.text = some (.arriveAt label) := fun hsaid =>
        h label (Phrase.ofLine?_eq_some_iff.mp hsaid) hother
      simp only [if_neg hline]
    | _ => rfl

theorem readLines_append (name : Bytes) (draft : Draft) (lines more : List Source.Line) :
    draft.readLines name (lines ++ more) = (draft.readLines name lines).readLines name more :=
  List.foldl_append

theorem readLines_of_isFull {draft : Draft} (h : draft.isFull = true) (name : Bytes)
    (lines : List Source.Line) : draft.readLines name lines = draft := by
  induction lines with
  | nil => rfl
  | cons line lines ih => rw [readLines_cons, if_pos h, ih]

def findings (name : Bytes) (draft : Draft) : List Source.Line → List Diagnostic
  | [] => []
  | line :: lines =>
    (draft.diagnose? name line).toList ++ findings name (draft.readLine name line) lines

/-- The complaints are the first ten of what is wrong, though no line is read after the tenth. -/
theorem complaints_readLines_findings {draft : Draft}
    (hle : draft.complaints.length ≤ mostComplaints) (name : Bytes) (lines : List Source.Line) :
    (draft.readLines name lines).complaints =
      (draft.complaints ++ draft.findings name lines).take mostComplaints := by
  induction lines generalizing draft with
  | nil => simp [findings, List.take_of_length_le hle]
  | cons line lines ih =>
    by_cases hfull : draft.isFull = true
    · have hge : mostComplaints ≤ draft.complaints.length := by simpa [isFull] using hfull
      have hlength : draft.complaints.length = mostComplaints := by omega
      rw [readLines_of_isFull hfull, ← hlength, List.take_left]
    · have hroom : draft.isFull = false := by simpa using hfull
      have hlt : draft.complaints.length < mostComplaints := by simpa [isFull] using hroom
      have hcomplaints : (draft.readLine name line).complaints =
          draft.complaints ++ (draft.diagnose? name line).toList :=
        complaints_readLine hroom name line
      have hle' : (draft.readLine name line).complaints.length ≤ mostComplaints := by
        rw [hcomplaints, List.length_append]
        cases draft.diagnose? name line <;> simp <;> omega
      rw [readLines_cons, if_neg hfull, ih hle', hcomplaints, findings, List.append_assoc]

/-- If no label is arrived at twice, what is wrong with all lines can be told before the first of
them is read. -/
theorem findings_of_apart (name : Bytes) {lines : List Source.Line} (hapart : Apart lines)
    (draft : Draft) : draft.findings name lines = lines.filterMap (draft.diagnose? name) := by
  induction lines generalizing draft with
  | nil => rfl
  | cons line lines ih =>
    obtain ⟨hline, hlines⟩ := List.pairwise_cons.mp hapart
    have hsame : lines.filterMap ((draft.readLine name line).diagnose? name) =
        lines.filterMap (draft.diagnose? name) :=
      List.filterMap_congr fun other hother => diagnose?_readLine draft (hline other hother)
    rw [findings, ih hlines, hsame, List.filterMap_cons]
    cases draft.diagnose? name line <;> rfl

theorem complaints_readLines (name : Bytes) {lines : List Source.Line} (hapart : Apart lines)
    {draft : Draft} (hle : draft.complaints.length ≤ mostComplaints) :
    (draft.readLines name lines).complaints =
      (draft.complaints ++ lines.filterMap (draft.diagnose? name)).take mostComplaints := by
  rw [complaints_readLines_findings hle, findings_of_apart name hapart]

section Whole

/-! As long as there is room for complaints, all lines are read. -/

variable {name : Bytes} {draft : Draft} {lines : List Source.Line}

theorem isFull_of_readLines (h : (draft.readLines name lines).isFull = false) :
    draft.isFull = false := by
  by_contra hfull
  have hfull : draft.isFull = true := by simpa using hfull
  rw [readLines_of_isFull hfull] at h
  simp [hfull] at h

theorem isSome_definition?_readLines (h : (draft.readLines name lines).isFull = false)
    (label : Bytes) :
    ((draft.readLines name lines).definition? label).isSome ↔
      (draft.definition? label).isSome ∨
        ∃ line ∈ lines, Phrase.Says line.text (.arriveAt label) := by
  induction lines generalizing draft with
  | nil => simp
  | cons line lines ih =>
    have hroom := isFull_of_readLines h
    rw [readLines_cons, hroom, if_neg (by simp)] at h ⊢
    simp only [ih h, definition?_readLine, ← Phrase.ofLine?_eq_some_iff]
    by_cases hsaid : Phrase.ofLine? line.text = some (.arriveAt label) <;> simp [hsaid]

theorem isSome_firstUse?_readLines (h : (draft.readLines name lines).isFull = false)
    (label : Bytes) :
    ((draft.readLines name lines).firstUse? label).isSome ↔
      (draft.firstUse? label).isSome ∨ ∃ line ∈ lines,
        Phrase.Says line.text (.swimTo label) ∨ Phrase.Says line.text (.ifNoneGoTo label) := by
  induction lines generalizing draft with
  | nil => simp
  | cons line lines ih =>
    have hroom := isFull_of_readLines h
    rw [readLines_cons, hroom, if_neg (by simp)] at h ⊢
    simp only [ih h, firstUse?_readLine, ← Phrase.ofLine?_eq_some_iff]
    by_cases hsaid : Phrase.ofLine? line.text = some (.swimTo label) ∨
      Phrase.ofLine? line.text = some (.ifNoneGoTo label) <;> simp [hsaid]

end Whole

theorem nodup_readLines {draft : Draft} (h : (draft.mentions.map Mention.name).Nodup)
    (name : Bytes) (lines : List Source.Line) :
    ((draft.readLines name lines).mentions.map Mention.name).Nodup := by
  induction lines generalizing draft with
  | nil => exact h
  | cons line lines ih =>
    rw [readLines_cons]
    apply ih
    split
    · exact h
    · exact nodup_readLine h name line

theorem exists_line_of_definition? {name label : Bytes} {draft : Draft} {lines : List Source.Line}
    {site : Site} (h : (draft.readLines name lines).definition? label = some site) :
    draft.definition? label = some site ∨
      ∃ line ∈ lines, line.number = site.line ∧ Phrase.Says line.text (.arriveAt label) := by
  induction lines generalizing draft with
  | nil => exact Or.inl h
  | cons line lines ih =>
    rw [readLines_cons] at h
    rcases ih h with hsite | ⟨other, hother, hsaid⟩
    · split at hsite
      · exact Or.inl hsite
      · rw [definition?_readLine] at hsite
        split at hsite
        · rename_i hline
          have hsaid := Phrase.ofLine?_eq_some_iff.mp hline
          cases hbefore : draft.definition? label with
          | some before =>
            rw [hbefore] at hsite
            exact Or.inl hsite
          | none =>
            rw [hbefore, Option.none_or] at hsite
            exact Or.inr ⟨line, List.mem_cons_self, by simp [← Option.some.inj hsite], hsaid⟩
        · exact Or.inl hsite
    · exact Or.inr ⟨other, List.mem_cons_of_mem _ hother, hsaid⟩

/-- Complaints about lines stand alone if there is no room for more or no label is missing. -/
theorem finish_eq_error {draft : Draft} (hne : draft.complaints ≠ [])
    (h : draft.isFull = true ∨ missing draft.mentions = []) (name : Bytes) :
    draft.finish name = .error draft.complaints := by
  have hsame : ((missing draft.mentions).foldl (complainMissing name) draft) = draft := by
    rcases h with hfull | hnil
    · induction missing draft.mentions with
      | nil => rfl
      | cons entry entries ih =>
        have hstays : complainMissing name draft entry = draft := by
          simp [complainMissing, complain, hfull]
        rw [List.foldl_cons, hstays, ih]
    · rw [hnil, List.foldl_nil]
  simp [finish, hsame, hne]

end Sardine.Draft
