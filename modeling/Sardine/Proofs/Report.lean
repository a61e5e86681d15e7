import Sardine.Proofs.RoundTrip
import Sardine.Proofs.Splicing

/-! What is reported of a rejected source.
The whole of what is wrong with a source can be told line by line: first what is wrong with the
lines, each in view of those before it, and then the labels at which no line arrives, each where it
is first used. Of this the first ten are reported, although the reading stops at the tenth complaint
and the missing labels come from a table in no order of its own. -/
namespace Sardine

namespace Source

def Line.departure? (line : Line) : Option Bytes :=
  match Phrase.ofLine? line.text with
  | some (.swimTo label) => some label
  | some (.ifNoneGoTo label) => some label
  | _ => none

def fault? (before : List Line) (line : Line) : Option Complaint :=
  match Phrase.ofLine? line.text with
  | none => some (.unknownPhrase line.text)
  | some (.arriveAt label) =>
    (before.find? (·.arrival? = some label)).map fun first => .redefinition label first.number
  | some (.lookInto digits) =>
    if (Phrase.tank? digits).isSome then none else some (.invalidTank digits)
  | some _ => none

/-- The label that a line is the first to use, if no line at all arrives at it. -/
def missing? (all before : List Line) (line : Line) : Option Complaint :=
  line.departure?.bind fun label =>
    if (∃ other ∈ before, other.departure? = some label) ∨
        ∃ other ∈ all, other.arrival? = some label then none
    else some (.missingLabel label)

/-- What there is to say about each line, in view of those before it. -/
def report (name : Bytes) (say? : List Line → Line → Option Complaint) :
    List Line → List Line → List Diagnostic
  | _, [] => []
  | before, line :: rest =>
    ((say? before line).map (⟨name, line.number, line.text, ·⟩)).toList ++
      report name say? (before ++ [line]) rest

/-- All that is wrong with a source: first with its lines, then with the labels it uses. -/
def diagnosis (name source : Bytes) : List Diagnostic :=
  report name fault? [] (numberedLines source) ++
    report name (missing? (numberedLines source)) [] (numberedLines source)

theorem Line.departure?_eq_some_iff {line : Line} {label : Bytes} :
    line.departure? = some label ↔ Phrase.ofLine? line.text = some (.swimTo label) ∨
      Phrase.ofLine? line.text = some (.ifNoneGoTo label) := by
  unfold departure?
  split <;> simp_all

section Report

variable {name : Bytes} {say? : List Line → Line → Option Complaint}

theorem mem_report_iff {before lines : List Line} {d : Diagnostic} :
    d ∈ report name say? before lines ↔
      ∃ front line back c, lines = front ++ line :: back ∧ say? (before ++ front) line = some c ∧
        d = ⟨name, line.number, line.text, c⟩ := by
  induction lines generalizing before with
  | nil => simp [report]
  | cons first rest ih =>
    rw [report, List.mem_append, ih]
    constructor
    · rintro (hfirst | ⟨front, line, back, c, rfl, hsay, rfl⟩)
      · obtain ⟨c, hsay, rfl⟩ : ∃ c, say? before first = some c ∧
            ⟨name, first.number, first.text, c⟩ = d := by simpa using hfirst
        exact ⟨[], first, rest, c, rfl, by simpa using hsay, rfl⟩
      · exact ⟨first :: front, line, back, c, rfl, by simpa using hsay, rfl⟩
    · rintro ⟨front, line, back, c, heq, hsay, rfl⟩
      cases front with
      | nil =>
        obtain ⟨rfl, rfl⟩ : first = line ∧ rest = back := by simpa using heq
        rw [List.append_nil] at hsay
        exact Or.inl (by simp [hsay])
      | cons other front =>
        obtain ⟨rfl, rfl⟩ : first = other ∧ rest = front ++ line :: back := by simpa using heq
        exact Or.inr ⟨front, line, back, c, rfl, by simpa using hsay, rfl⟩

theorem exists_line_of_mem_report {before lines : List Line} {d : Diagnostic}
    (h : d ∈ report name say? before lines) :
    d.name = name ∧ ∃ line ∈ lines, line.number = d.line ∧ line.text = d.text := by
  obtain ⟨front, line, back, c, rfl, -, rfl⟩ := mem_report_iff.mp h
  exact ⟨rfl, line, by simp, rfl, rfl⟩

theorem pairwise_report {before lines : List Line}
    (h : lines.Pairwise fun a b => a.number < b.number) :
    (report name say? before lines).Pairwise fun a b => a.line < b.line := by
  induction lines generalizing before with
  | nil => exact List.Pairwise.nil
  | cons line rest ih =>
    obtain ⟨hline, hrest⟩ := List.pairwise_cons.mp h
    rw [report]
    refine List.pairwise_append.mpr ⟨?_, ih hrest, fun d hd later hlater => ?_⟩
    · cases say? before line <;> simp
    · obtain ⟨c, -, rfl⟩ : ∃ c, say? before line = some c ∧
          ⟨name, line.number, line.text, c⟩ = d := by simpa using hd
      obtain ⟨-, other, hother, hnumber, -⟩ := exists_line_of_mem_report hlater
      rw [← hnumber]
      exact hline other hother

end Report

theorem pairwise_numberedLines (source : Bytes) :
    (numberedLines source).Pairwise fun a b => a.number < b.number := by
  have hnumbers : ((scan source).zipIdx 1).Pairwise fun a b => a.2 < b.2 := by
    rw [← List.pairwise_map (f := Prod.snd) (R := (· < ·)), List.zipIdx_map_snd]
    exact List.pairwise_lt_range'
  rw [numberedLines_eq]
  refine hnumbers.filterMap spoken? fun a b hab line hline other hother => ?_
  have hnumber : ∀ {entry : Bytes × Nat} {line : Line}, spoken? entry = some line →
      line.number = entry.2 := by
    intro entry line h
    unfold spoken? at h
    split at h
    · simp at h
    · rw [← Option.some.inj h]
  rw [hnumber hline, hnumber hother]
  exact hab

theorem getElem?_of_mem_numberedLines {source : Bytes} {line : Line}
    (h : line ∈ numberedLines source) :
    0 < line.number ∧ ((lines source)[line.number - 1]?).map Blank.trim = some line.text := by
  refine ⟨number_pos h, ?_⟩
  obtain ⟨⟨part, number⟩, hentry, hspoken⟩ := List.mem_filterMap.mp h
  have hpart := List.mk_mem_zipIdx_iff_le_and_getElem?_sub.mp hentry
  simp only at hspoken
  split at hspoken
  · simp at hspoken
  · rw [← Option.some.inj hspoken, hpart.2]
    rfl

end Source

namespace Draft

/-- At a site there stands the instruction of a line. -/
structure Records (draft : Draft) (site : Site) (line : Source.Line) : Prop where
  number : site.line = line.number
  phrase : draft.code[site.address]?.map Instruction.phrase = some line.text

/-- What a draft knows of the lines that have been read into it: where each label is defined and
where it is first used. -/
structure Knows (before : List Source.Line) (draft : Draft) : Prop where
  nodup : (draft.mentions.map Mention.name).Nodup
  definition : ∀ label, (draft.definition? label).map Site.line =
    (before.find? (·.arrival? = some label)).map Source.Line.number
  firstUse : ∀ label, Option.Rel draft.Records (draft.firstUse? label)
    (before.find? (·.departure? = some label))

theorem knows_nil : Knows [] {} := ⟨List.nodup_nil, fun _ => rfl, fun _ => Option.Rel.none⟩

section ReadLine

variable (draft : Draft) (name : Bytes) {line : Source.Line}

@[simp] theorem code_complain (d : Diagnostic) : (draft.complain d).code = draft.code := by
  unfold complain
  split <;> rfl

theorem getElem?_readLine {i : Nat} {ins : Instruction} (h : draft.code[i]? = some ins) :
    (draft.readLine name line).code[i]? = some ins := by
  have hlt : i < draft.code.size := (Array.getElem?_eq_some_iff.mp h).1
  have hpush : ∀ other, (draft.code.push other)[i]? = some ins := by
    intro other
    rw [Array.getElem?_push, if_neg (by omega), h]
  unfold readLine
  cases Phrase.ofLine? line.text with
  | none => simpa using h
  | some p =>
    cases p with
    | arriveAt label =>
      have hcode : (draft.defineLabel name label line).code = draft.code := by
        unfold defineLabel
        split
        · exact draft.code_complain _
        · rfl
      simp only [emit, hcode]
      exact hpush _
    | lookInto digits => cases htank : Phrase.tank? digits <;> simp [emit, hpush, htank]
    | _ => exact hpush _

theorem records_readLine {label : Bytes} (h : line.departure? = some label) :
    (draft.readLine name line).Records ⟨line.number, draft.code.size⟩ line := by
  refine ⟨rfl, ?_⟩
  rcases Source.Line.departure?_eq_some_iff.mp h with hline | hline
  all_goals
    have hphrase := (Phrase.ofLine?_eq_some_iff.mp hline).phrase_eq (by simp)
    simp only [readLine, hline, emit, useLabel, Array.getElem?_push_size, Option.map_some]
    exact congrArg some hphrase

theorem Records.readLine {draft : Draft} {site : Site} {other : Source.Line}
    (h : draft.Records site other) : (draft.readLine name line).Records site other := by
  obtain ⟨ins, hins, hphrase⟩ := Option.map_eq_some_iff.mp h.phrase
  refine ⟨h.number, ?_⟩
  rw [draft.getElem?_readLine name hins, Option.map_some, hphrase]

end ReadLine

/-- The next line adds the label that it defines or uses, unless that is known already. -/
theorem Knows.readLine {before : List Source.Line} {draft : Draft} (h : Knows before draft)
    (name : Bytes) (line : Source.Line) : Knows (before ++ [line]) (draft.readLine name line) := by
  refine ⟨nodup_readLine h.nodup name line, fun label => ?_, fun label => ?_⟩
  · have harrival : line.arrival? = some label ↔
        Phrase.ofLine? line.text = some (.arriveAt label) := by
      rw [Source.Line.arrival?_eq_some_iff, Phrase.ofLine?_eq_some_iff]
    rw [definition?_readLine, List.find?_append, Option.map_or, ← h.definition label]
    by_cases hline : line.arrival? = some label
    · rw [if_pos (harrival.mp hline), Option.map_or]
      simp [hline]
    · rw [if_neg fun hsaid => hline (harrival.mpr hsaid)]
      simp [hline]
  · rw [firstUse?_readLine, List.find?_append]
    have hknown := h.firstUse label
    generalize draft.firstUse? label = use at hknown ⊢
    generalize before.find? (·.departure? = some label) = first at hknown ⊢
    by_cases hline : line.departure? = some label
    · rw [if_pos (Source.Line.departure?_eq_some_iff.mp hline)]
      cases hknown with
      | some hrecords => exact Option.Rel.some (hrecords.readLine name)
      | none =>
        simp only [Option.none_or, List.find?_cons, hline, decide_true]
        exact Option.Rel.some (draft.records_readLine name hline)
    · rw [if_neg fun hsaid => hline (Source.Line.departure?_eq_some_iff.mpr hsaid)]
      cases hknown with
      | some hrecords => exact Option.Rel.some (hrecords.readLine name)
      | none =>
        simp only [Option.none_or, List.find?_cons, hline, decide_false, List.find?_nil]
        exact Option.Rel.none

theorem Knows.objection?_eq {before : List Source.Line} {draft : Draft} (h : Knows before draft)
    (line : Source.Line) : draft.objection? line = Source.fault? before line := by
  unfold objection? Source.fault?
  cases hp : Phrase.ofLine? line.text with
  | none => rfl
  | some p =>
    cases p with
    | arriveAt label =>
      have hdefinition := h.definition label
      have hcomplaint := congrArg (Option.map (Complaint.redefinition label)) hdefinition
      simpa [Function.comp_def] using hcomplaint
    | _ => rfl

theorem Knows.findings_eq {before : List Source.Line} {draft : Draft} (h : Knows before draft)
    (name : Bytes) (lines : List Source.Line) :
    draft.findings name lines = Source.report name Source.fault? before lines := by
  induction lines generalizing before draft with
  | nil => rfl
  | cons line lines ih =>
    rw [findings, Source.report, ih (h.readLine name line), diagnose?, h.objection?_eq line]

theorem take_take_append {α : Type} (n : Nat) (s t : List α) :
    (s.take n ++ t).take n = (s ++ t).take n := by
  rcases Nat.le_total s.length n with hle | hge
  · rw [List.take_of_length_le hle]
  · rw [List.take_append_of_le_length (by simp [hge]), List.take_take, Nat.min_self,
      List.take_append_of_le_length hge]

theorem complaints_complain {draft : Draft} (hle : draft.complaints.length ≤ mostComplaints)
    (d : Diagnostic) :
    (draft.complain d).complaints = (draft.complaints ++ [d]).take mostComplaints := by
  unfold complain
  split
  · rename_i hfull
    have hge : mostComplaints ≤ draft.complaints.length := by simpa [isFull] using hfull
    rw [List.take_append_of_le_length hge, List.take_of_length_le hle]
  · rename_i hroom
    have hlt : draft.complaints.length < mostComplaints := by simpa [isFull] using hroom
    rw [List.take_of_length_le]
    rw [List.length_append]
    exact hlt

theorem Knows.readLines {before : List Source.Line} {draft : Draft} (h : Knows before draft)
    {name : Bytes} {lines : List Source.Line}
    (hroom : (draft.readLines name lines).isFull = false) :
    Knows (before ++ lines) (draft.readLines name lines) := by
  induction lines generalizing before draft with
  | nil => simpa using h
  | cons line lines ih =>
    have hfirst := isFull_of_readLines hroom
    rw [readLines_cons, hfirst, if_neg Bool.false_ne_true] at hroom ⊢
    have hknows := ih (h.readLine name line) hroom
    rwa [List.append_assoc, List.singleton_append] at hknows

/-- The labels that are used and not defined, with their first use, in the order of the table. -/
def unsettled (mentions : List Mention) : List (Bytes × Site) :=
  mentions.filterMap fun entry =>
    match entry.definition, entry.firstUse with
    | none, some site => some (entry.name, site)
    | _, _ => none

def missingDiagnostic (name : Bytes) (draft : Draft) (entry : Bytes × Site) : Diagnostic :=
  ⟨name, entry.2.line, (draft.code[entry.2.address]?.map Instruction.phrase).getD [],
    .missingLabel entry.1⟩

theorem complaints_complainMissing {draft : Draft}
    (hle : draft.complaints.length ≤ mostComplaints) (name : Bytes)
    (entries : List (Bytes × Site)) :
    (entries.foldl (complainMissing name) draft).complaints =
      (draft.complaints ++ entries.map (draft.missingDiagnostic name)).take mostComplaints := by
  induction entries generalizing draft with
  | nil => simp [List.take_of_length_le hle]
  | cons entry entries ih =>
    have hstep : complainMissing name draft entry =
        draft.complain (draft.missingDiagnostic name entry) := rfl
    have hsame : (draft.complain (draft.missingDiagnostic name entry)).missingDiagnostic name =
        draft.missingDiagnostic name := by
      funext other
      simp [missingDiagnostic]
    have hcomplaints := complaints_complain hle (draft.missingDiagnostic name entry)
    have hle' : (draft.complain (draft.missingDiagnostic name entry)).complaints.length ≤
        mostComplaints := by
      rw [hcomplaints]
      exact List.length_take_le _ _
    rw [List.foldl_cons, hstep, ih hle', hsame, hcomplaints, take_take_append, List.append_assoc,
      List.singleton_append, List.map_cons]

section Unsettled

variable {draft : Draft} {lines : List Source.Line}

theorem mem_unsettled_iff (h : (draft.mentions.map Mention.name).Nodup) {label : Bytes}
    {site : Site} : (label, site) ∈ unsettled draft.mentions ↔
      draft.definition? label = none ∧ draft.firstUse? label = some site := by
  rw [unsettled, List.mem_filterMap]
  constructor
  · rintro ⟨entry, hmem, hentry⟩
    have hfind : draft.mention? entry.name = some entry := find?_of_mem h hmem
    split at hentry
    · rename_i hdefinition huse
      obtain ⟨rfl, rfl⟩ : entry.name = label ∧ _ = site := by simpa using hentry
      simp [definition?, firstUse?, hfind, hdefinition, huse]
    · simp at hentry
  · rintro ⟨hdefinition, huse⟩
    obtain ⟨entry, hfind, hfirst⟩ := Option.bind_eq_some_iff.mp huse
    have hnone : entry.definition = none := by simpa [definition?, hfind] using hdefinition
    have hname : entry.name = label := by simpa using List.find?_some hfind
    exact ⟨entry, List.mem_of_find?_eq_some hfind, by simp [hnone, hfirst, hname]⟩

theorem nodup_unsettled {mentions : List Mention} (h : (mentions.map Mention.name).Nodup) :
    ((unsettled mentions).map Prod.fst).Nodup := by
  have hnames : mentions.Pairwise fun a b => a.name ≠ b.name := List.pairwise_map.mp h
  refine List.pairwise_map.mpr (hnames.filterMap _ fun a b hab found hfound other hother => ?_)
  split at hfound
  · split at hother
    · rw [← Option.some.inj hfound, ← Option.some.inj hother]
      exact hab
    · simp at hother
  · simp at hfound

theorem Knows.missingDiagnostic_iff (h : Knows lines draft) {name label : Bytes}
    {d : Diagnostic} :
    (∃ site, (label, site) ∈ unsettled draft.mentions ∧
        draft.missingDiagnostic name (label, site) = d) ↔
      ∃ line, lines.find? (·.departure? = some label) = some line ∧
        lines.find? (·.arrival? = some label) = none ∧
        d = ⟨name, line.number, line.text, .missingLabel label⟩ := by
  have harrival : draft.definition? label = none ↔
      lines.find? (·.arrival? = some label) = none := by
    rw [← Option.map_eq_none_iff (f := Site.line), h.definition, Option.map_eq_none_iff]
  have hshown : ∀ {site : Site} {line : Source.Line}, draft.Records site line →
      draft.missingDiagnostic name (label, site) =
        ⟨name, line.number, line.text, .missingLabel label⟩ := by
    intro site line hrecords
    simp [missingDiagnostic, hrecords.number, hrecords.phrase]
  have hknown := h.firstUse label
  simp only [mem_unsettled_iff h.nodup, harrival]
  generalize draft.firstUse? label = use at hknown ⊢
  generalize lines.find? (·.departure? = some label) = first at hknown ⊢
  cases hknown with
  | none => simp
  | some hrecords => simp [hshown hrecords, eq_comm]

end Unsettled

end Draft

namespace Source

theorem missing?_eq_some_iff {all before : List Line} {line : Line} {c : Complaint} :
    missing? all before line = some c ↔ ∃ label, line.departure? = some label ∧
      (∀ other ∈ before, ¬ other.departure? = some label) ∧
      (∀ other ∈ all, ¬ other.arrival? = some label) ∧ c = .missingLabel label := by
  rw [missing?, Option.bind_eq_some_iff]
  refine exists_congr fun label => and_congr_right fun _ => ?_
  split
  · rename_i hknown
    rcases hknown with ⟨other, hother, hsaid⟩ | ⟨other, hother, hsaid⟩
    · simp only [reduceCtorEq, false_iff]
      exact fun hnone => hnone.1 other hother hsaid
    · simp only [reduceCtorEq, false_iff]
      exact fun hnone => hnone.2.1 other hother hsaid
  · rename_i hnew
    simp only [not_or, not_exists, not_and] at hnew
    exact ⟨fun hc => ⟨hnew.1, hnew.2, (Option.some.inj hc).symm⟩,
      fun hc => congrArg some hc.2.2.symm⟩

/-- What is reported of the missing labels: each is located at the first line that uses it. -/
theorem mem_report_missing_iff {name : Bytes} {lines : List Line} {d : Diagnostic} :
    d ∈ report name (missing? lines) [] lines ↔
      ∃ label line, lines.find? (·.departure? = some label) = some line ∧
        lines.find? (·.arrival? = some label) = none ∧
        d = ⟨name, line.number, line.text, .missingLabel label⟩ := by
  simp only [mem_report_iff, missing?_eq_some_iff, List.nil_append, List.find?_eq_some_iff_append,
    List.find?_eq_none, decide_eq_true_eq, Bool.not_eq_true', decide_eq_false_iff_not]
  constructor
  · rintro ⟨front, line, back, c, heq, ⟨label, hline, hfront, hall, rfl⟩, rfl⟩
    exact ⟨label, line, ⟨hline, front, back, heq, hfront⟩, hall, rfl⟩
  · rintro ⟨label, line, ⟨hline, front, back, heq, hfront⟩, hall, rfl⟩
    exact ⟨front, line, back, _, heq, ⟨label, hline, hfront, hall, rfl⟩, rfl⟩

end Source

namespace Draft

/-- However the table is ordered, and however its missing labels are then sorted by the lines of
their first uses, what is said of them is the same: no line uses two labels. -/
theorem Knows.map_missingDiagnostic {lines : List Source.Line} {draft : Draft}
    (h : Knows lines draft) (hlines : lines.Pairwise fun a b => a.number < b.number) (name : Bytes)
    {table : List Mention} (htable : table.Perm draft.mentions) {entries : List (Bytes × Site)}
    (hentries : entries.Perm (unsettled table))
    (hsorted : entries.Pairwise fun a b => a.2.line ≤ b.2.line) :
    entries.map (draft.missingDiagnostic name) =
      Source.report name (Source.missing? lines) [] lines := by
  let missing := Source.report name (Source.missing? lines) [] lines
  have hstrict : missing.Pairwise fun a b => a.line < b.line := Source.pairwise_report hlines
  have hdistinct : (missing.map Diagnostic.line).Nodup :=
    List.pairwise_map.mpr (hstrict.imp Nat.ne_of_lt)
  have hnodup : ((unsettled draft.mentions).map (draft.missingDiagnostic name)).Nodup := by
    refine List.Nodup.of_map Diagnostic.complaint ?_
    have hcomplaints : ((unsettled draft.mentions).map (draft.missingDiagnostic name)).map
        Diagnostic.complaint = ((unsettled draft.mentions).map Prod.fst).map .missingLabel := by
      simp [Function.comp_def, missingDiagnostic]
    rw [hcomplaints]
    exact (nodup_unsettled h.nodup).map fun a b hab => Complaint.missingLabel.inj hab
  have hsame : ∀ d, d ∈ (unsettled draft.mentions).map (draft.missingDiagnostic name) ↔
      d ∈ missing := by
    intro d
    rw [Source.mem_report_missing_iff, List.mem_map, Prod.exists]
    exact exists_congr fun label => h.missingDiagnostic_iff
  have hperm : (entries.map (draft.missingDiagnostic name)).Perm missing :=
    ((hentries.trans (htable.filterMap _)).map _).trans
      ((List.perm_ext_iff_of_nodup hnodup hdistinct.of_map).mpr hsame)
  have hordered : (entries.map (draft.missingDiagnostic name)).Pairwise fun a b =>
      a.line ≤ b.line := List.pairwise_map.mpr hsorted
  refine hperm.eq_of_pairwise (fun a b ha hb hab hba => ?_) hordered (hstrict.imp Nat.le_of_lt)
  exact List.inj_on_of_nodup_map hdistinct (hperm.mem_iff.mp ha) hb (Nat.le_antisymm hab hba)

/-- The complaints about a source, for any order of the table of labels. -/
theorem complaints_eq_diagnosis (name source : Bytes) {table : List Mention}
    (htable : table.Perm (readLines name {} (Source.numberedLines source)).mentions)
    {entries : List (Bytes × Site)} (hentries : entries.Perm (unsettled table))
    (hsorted : entries.Pairwise fun a b => a.2.line ≤ b.2.line) :
    (entries.foldl (complainMissing name)
      (readLines name {} (Source.numberedLines source))).complaints =
        (Source.diagnosis name source).take mostComplaints := by
  let lines := Source.numberedLines source
  have hcomplaints : (readLines name {} lines).complaints =
      (Source.report name Source.fault? [] lines).take mostComplaints := by
    rw [complaints_readLines_findings (Nat.zero_le _), knows_nil.findings_eq, List.nil_append]
  have hle : (readLines name {} lines).complaints.length ≤ mostComplaints := by
    rw [hcomplaints]
    exact List.length_take_le _ _
  rw [complaints_complainMissing hle, hcomplaints, take_take_append, Source.diagnosis]
  cases hfull : (readLines name {} lines).isFull with
  | true =>
    have hge : mostComplaints ≤ (Source.report name Source.fault? [] lines).length := by
      have hlength : mostComplaints ≤ (readLines name {} lines).complaints.length := by
        simpa [isFull] using hfull
      rw [hcomplaints, List.length_take] at hlength
      omega
    rw [List.take_append_of_le_length hge, List.take_append_of_le_length hge]
  | false =>
    have hknows := knows_nil.readLines hfull
    rw [hknows.map_missingDiagnostic (Source.pairwise_numberedLines source) name htable hentries
      hsorted]
    rfl

end Draft

theorem complaints_of_compile {name source : Bytes} {complaints : List Diagnostic}
    (h : compile name source = .error complaints) :
    complaints = (Source.diagnosis name source).take Draft.mostComplaints := by
  let draft := Draft.readLines name {} (Source.numberedLines source)
  have hresult : ((Draft.missing draft.mentions).foldl (Draft.complainMissing name)
      draft).complaints = complaints := by
    rw [compile, Draft.finish] at h
    split at h
    · simp at h
    · exact Except.error.inj h
  have hsorted : (Draft.missing draft.mentions).Pairwise fun a b => a.2.line ≤ b.2.line := by
    have hsort : (Draft.missing draft.mentions).Pairwise fun a b =>
        decide (a.2.line ≤ b.2.line) = true :=
      List.pairwise_mergeSort (by simp; omega) (by simp; omega) (Draft.unsettled draft.mentions)
    simpa using hsort
  rw [← hresult]
  exact Draft.complaints_eq_diagnosis name source (List.Perm.refl _) (List.mergeSort_perm _ _)
    hsorted

/-- The complaints with which a source is rejected are the first ten of all that is wrong with it.
Each names the source and a line of it, and shows that line, trimmed; and the order of the table of
labels, and of what is sorted in it, does not show. -/
theorem rejected_with_first_complaints {name source : Bytes} {complaints : List Diagnostic}
    (h : compile name source = .error complaints) :
    complaints = (Source.diagnosis name source).take 10 ∧
      (∀ d ∈ complaints, d.name = name ∧ 0 < d.line ∧
        ((Source.lines source)[d.line - 1]?).map Blank.trim = some d.text) ∧
      ∀ (table : List Mention) (entries : List (Bytes × Site)),
        table.Perm (Draft.readLines name {} (Source.numberedLines source)).mentions →
        entries.Perm (Draft.unsettled table) →
        entries.Pairwise (fun a b => a.2.line ≤ b.2.line) →
          (entries.foldl (Draft.complainMissing name)
            (Draft.readLines name {} (Source.numberedLines source))).complaints = complaints := by
  have hfirst : complaints = (Source.diagnosis name source).take 10 := complaints_of_compile h
  refine ⟨hfirst, fun d hd => ?_, fun table entries htable hentries hordered => ?_⟩
  · have hmem : d ∈ Source.diagnosis name source := by
      rw [hfirst] at hd
      exact List.mem_of_mem_take hd
    have hline : d.name = name ∧
        ∃ line ∈ Source.numberedLines source, line.number = d.line ∧ line.text = d.text :=
      (List.mem_append.mp hmem).elim Source.exists_line_of_mem_report
        Source.exists_line_of_mem_report
    obtain ⟨hname, line, hmember, hnumber, htext⟩ := hline
    obtain ⟨hpos, hfound⟩ := Source.getElem?_of_mem_numberedLines hmember
    rw [hnumber] at hpos hfound
    exact ⟨hname, hpos, htext ▸ hfound⟩
  · rw [hfirst]
    exact Draft.complaints_eq_diagnosis name source htable hentries hordered

/-- Eight lines with something wrong, and three labels that are missing: of these the last one used
is not reported. The label that is used in the first line comes behind all that is wrong with
lines. -/
theorem rejected_with_first_complaints_eleven :
    let source := utf8 "あへ泳いでいこう\nいに着いた\r\n いに着いた\n9999番目の水槽をのぞく\na\nb\nc\nd\ne\nf
イワシがいなければう\nえへ泳いでいこう"
    ∃ complaints, compile (utf8 "t") source = .error complaints ∧
      complaints = (Source.diagnosis (utf8 "t") source).take 10 ∧
      (Source.diagnosis (utf8 "t") source).length = 11 ∧
      complaints.map Diagnostic.line = [3, 4, 5, 6, 7, 8, 9, 10, 1, 11] := by
  intro source
  have hwrong : (Draft.readLines (utf8 "t") {} (Source.numberedLines source)).complaints ≠ [] := by
    decide +kernel
  have hlength : (Source.diagnosis (utf8 "t") source).length = 11 := by decide +kernel
  have hlines : ((Source.diagnosis (utf8 "t") source).take 10).map Diagnostic.line =
      [3, 4, 5, 6, 7, 8, 9, 10, 1, 11] := by decide +kernel
  cases hresult : compile (utf8 "t") source with
  | ok program => exact absurd (Draft.finish_eq_ok_iff.mp hresult).1 hwrong
  | error complaints =>
    have hfirst := (rejected_with_first_complaints hresult).1
    exact ⟨complaints, rfl, hfirst, hlength, hfirst ▸ hlines⟩

end Sardine
