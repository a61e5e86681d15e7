import Sardine.Proofs.Diagnosis
import Sardine.Proofs.LabelTable
import Mathlib.Data.Finset.Card

/-! Two sources, one behind the other.
If both can be compiled, so can the two together, unless they share labels: the code of the second
stands behind that of the first, and its labels are moved along. A shared label is complained of
where the second source defines it. -/
namespace Sardine

namespace Source

def Line.moved (k : Nat) (line : Line) : Line := { line with number := k + line.number }

/-- The number of lines in front of what is put on a new line behind a source. -/
def height (source : Bytes) : Nat := (lines (source ++ [Bytes.newline])).length - 1

/-- A newline ends the last line of a source. It adds no line if there is a CR in front of it: then
the line had ended, and an empty one is lost. -/
theorem scan_splice (source : Bytes) :
    ∃ body, body ≠ [] ∧ (scan source = body ∨ scan source = body ++ [[]]) ∧
      ∀ rest, scan (source ++ Bytes.newline :: rest) = body ++ scan rest := by
  have hnewline : ∀ rest, scan (Bytes.newline :: rest) = [] :: scan rest :=
    scan_append_newline (show Unbroken [] by simp [Unbroken])
  fun_induction scan source with
  | case1 => exact ⟨[[]], by simp, Or.inl rfl, hnewline⟩
  | case2 b hb =>
    by_cases hr : b = Bytes.carriageReturn
    · subst hr
      refine ⟨[[]], by simp, Or.inr rfl, fun rest => ?_⟩
      simp [scan]
    · have hn : b = Bytes.newline := by
        rcases hb with h | h
        · exact h
        · exact absurd h hr
      subst hn
      refine ⟨[[], []], by simp, Or.inl rfl, fun rest => ?_⟩
      simp [hnewline]
  | case3 b hb =>
    have hunbroken : Unbroken [b] := by simpa [Unbroken] using hb
    exact ⟨[[b]], by simp, Or.inl rfl, scan_append_newline hunbroken⟩
  | case4 a b rest hab ih =>
    obtain ⟨body, -, hbody, happend⟩ := ih
    refine ⟨[] :: body, by simp, by simpa using hbody, fun more => ?_⟩
    rw [List.cons_append, List.cons_append, scan, if_pos hab, happend, List.cons_append]
  | case5 a b rest hab ha ih =>
    obtain ⟨body, -, hbody, happend⟩ := ih
    refine ⟨[] :: body, by simp, by simpa using hbody, fun more => ?_⟩
    have happend := happend more
    rw [List.cons_append] at happend
    rw [List.cons_append, List.cons_append, scan, if_neg hab, if_pos ha, happend,
      List.cons_append]
  | case6 a b rest hab ha ih =>
    obtain ⟨body, hne, hbody, happend⟩ := ih
    obtain ⟨first, others, rfl⟩ := List.exists_cons_of_ne_nil hne
    refine ⟨(a :: first) :: others, by simp, ?_, fun more => ?_⟩
    · rcases hbody with h | h <;> simp [h]
    · have happend := happend more
      rw [List.cons_append] at happend
      rw [List.cons_append, List.cons_append, scan, if_neg hab, if_neg ha, happend]
      rfl

def spoken? (entry : Bytes × Nat) : Option Line :=
  if (Blank.trim entry.1).isEmpty then none else some ⟨entry.2, Blank.trim entry.1⟩

theorem numberedLines_eq (source : Bytes) :
    numberedLines source = ((scan source).zipIdx 1).filterMap spoken? := by
  rw [numberedLines, lines_eq_scan]
  rfl

theorem filterMap_spoken?_zipIdx (parts : List Bytes) (k : Nat) :
    (parts.zipIdx (k + 1)).filterMap spoken? =
      ((parts.zipIdx 1).filterMap spoken?).map (Line.moved k) := by
  rw [← List.map_snd_add_zipIdx_eq_zipIdx, List.filterMap_map, List.map_filterMap]
  apply List.filterMap_congr
  rintro ⟨part, number⟩ -
  by_cases h : (Blank.trim part).isEmpty <;> simp [spoken?, h, Line.moved, Nat.add_comm]

theorem numberedLines_splice (source rest : Bytes) :
    numberedLines (source ++ Bytes.newline :: rest) =
        numberedLines source ++ (numberedLines rest).map (Line.moved (height source)) ∧
      ∀ line ∈ numberedLines source, line.number ≤ height source := by
  obtain ⟨body, -, hbody, happend⟩ := scan_splice source
  have hheight : height source = body.length := by
    rw [height, lines_eq_scan, happend]
    simp [scan]
  have hlines : numberedLines source = (body.zipIdx 1).filterMap spoken? := by
    rw [numberedLines_eq]
    rcases hbody with h | h
    · rw [h]
    · simp [h, List.zipIdx_append, spoken?]
  constructor
  · rw [numberedLines_eq (source ++ _), happend, List.zipIdx_append, List.filterMap_append,
      ← hlines, Nat.add_comm 1, filterMap_spoken?_zipIdx, ← numberedLines_eq, hheight]
  · intro line hline
    rw [hlines, List.mem_filterMap] at hline
    obtain ⟨⟨part, number⟩, hentry, hspoken⟩ := hline
    have hlt := (List.mem_zipIdx hentry).2.1
    unfold spoken? at hspoken
    split at hspoken
    · simp at hspoken
    · rw [← Option.some.inj hspoken, hheight]
      show number ≤ body.length
      omega

theorem number_pos {source : Bytes} {line : Line} (h : line ∈ numberedLines source) :
    0 < line.number := by
  rw [numberedLines_eq, List.mem_filterMap] at h
  obtain ⟨⟨part, number⟩, hentry, hspoken⟩ := h
  have hle := (List.mem_zipIdx hentry).1
  unfold spoken? at hspoken
  split at hspoken
  · simp at hspoken
  · rw [← Option.some.inj hspoken]
    show 0 < number
    omega

end Source

/-- Where an instruction stands once so many others are put in front of it. -/
def Site.moved (k : Nat) (site : Site) : Site := { site with address := k + site.address }

def Mention.moved (k : Nat) (entry : Mention) : Mention :=
  { entry with
    definition := entry.definition.map (Site.moved k)
    firstUse := entry.firstUse.map (Site.moved k) }

namespace Draft

theorem updateMention_append {label : Bytes} {mentions : List Mention}
    (h : label ∉ mentions.map Mention.name) (change : Mention → Mention) (more : List Mention) :
    updateMention label change (mentions ++ more) =
      mentions ++ updateMention label change more := by
  induction mentions with
  | nil => rfl
  | cons entry mentions ih =>
    simp only [List.map_cons, List.mem_cons, not_or] at h
    have hne : ¬ entry.name = label := fun heq => h.1 heq.symm
    rw [List.cons_append, updateMention, if_neg hne, ih h.2, List.cons_append]

/-- An instruction that has nothing to do with the first labels is noted behind them. -/
theorem noted_append {ins : Instruction} {mentions : List Mention}
    (h : ∀ label, ins.Defines label ∨ ins.Uses label → label ∉ mentions.map Mention.name)
    (site : Site) (more : List Mention) :
    noted site ins (mentions ++ more) = mentions ++ noted site ins more := by
  unfold noted
  split_ifs with hnop hjump
  · exact updateMention_append (h ins.label (Or.inl ⟨hnop, rfl⟩)) _ more
  · exact updateMention_append (h ins.label (Or.inr ⟨hjump, rfl⟩)) _ more
  · rfl

theorem noted_moved (k n : Nat) (ins : Instruction) (mentions : List Mention) :
    noted ⟨0, k + n⟩ ins (mentions.map (Mention.moved k)) =
      (noted ⟨0, n⟩ ins mentions).map (Mention.moved k) := by
  have hdef := map_updateMention (Mention.moved k) (Mention.definedAt ⟨0, n⟩)
    (Mention.definedAt ⟨0, k + n⟩) (fun _ => rfl) (fun _ => rfl) ins.label rfl mentions
  have huse := map_updateMention (Mention.moved k) (Mention.usedAt ⟨0, n⟩)
    (Mention.usedAt ⟨0, k + n⟩) (fun _ => rfl)
    (fun entry => by cases h : entry.firstUse <;> simp [Mention.usedAt, Mention.moved, h,
      Site.moved]) ins.label rfl mentions
  unfold noted
  split_ifs
  · exact hdef.symm
  · exact huse.symm
  · rfl

theorem mem_names_updateMention (change : Mention → Mention)
    (hname : ∀ entry, (change entry).name = entry.name) (label other : Bytes)
    (mentions : List Mention) :
    other ∈ (updateMention label change mentions).map Mention.name ↔
      other ∈ mentions.map Mention.name ∨ label = other := by
  rw [names_updateMention change hname]
  by_cases hmem : label ∈ mentions.map Mention.name
  · rw [if_pos hmem]
    exact ⟨Or.inl, fun h => h.elim id fun heq => heq ▸ hmem⟩
  · rw [if_neg hmem, List.mem_append, List.mem_singleton, eq_comm]

theorem mem_names_noted (site : Site) (ins : Instruction) (label : Bytes)
    (mentions : List Mention) :
    label ∈ (noted site ins mentions).map Mention.name ↔
      label ∈ mentions.map Mention.name ∨ ins.Defines label ∨ ins.Uses label := by
  unfold noted
  split_ifs with hnop hjump
  · rw [mem_names_updateMention (Mention.definedAt site) fun _ => rfl]
    simp [Instruction.Defines, Instruction.Uses, hnop, Opcode.isJump]
  · rw [mem_names_updateMention (Mention.usedAt site) fun _ => rfl]
    simp [Instruction.Defines, Instruction.Uses, hnop, hjump]
  · simp [Instruction.Defines, Instruction.Uses, hnop, hjump]

theorem mem_names_ofCode_iff {code : List Instruction} {label : Bytes} :
    label ∈ (ofCode code).mentions.map Mention.name ↔
      ∃ ins ∈ code, ins.Defines label ∨ ins.Uses label := by
  induction code using List.reverseRecOn with
  | nil => simp
  | append_singleton code ins ih =>
    rw [ofCode_concat, place, mem_names_noted, ih]
    simp [or_and_right, exists_or]

theorem mentions_ofCode_append {code more : List Instruction}
    (h : ∀ ins ∈ more, ∀ label, ins.Defines label ∨ ins.Uses label →
      label ∉ (ofCode code).mentions.map Mention.name) :
    (ofCode (code ++ more)).mentions =
      (ofCode code).mentions ++ (ofCode more).mentions.map (Mention.moved code.length) := by
  induction more using List.reverseRecOn with
  | nil => simp
  | append_singleton more ins ih =>
    have ih := ih fun other hother => h other (List.mem_append_left _ hother)
    have hins := h ins (by simp)
    rw [← List.append_assoc, ofCode_concat, ofCode_concat]
    simp only [place, code_ofCode, List.size_toArray, List.length_append]
    rw [ih, noted_append hins, noted_moved]

end Draft

namespace Program

def keys (program : Program) : Finset Bytes := (program.labels.map Prod.fst).toFinset

theorem mem_keys_ofCode_iff {code : List Instruction} (h : Distinct code) {label : Bytes} :
    label ∈ (ofCode code).keys ↔ ∃ ins ∈ code, ins.Defines label := by
  simp only [keys, List.mem_toFinset, List.mem_map, Prod.exists, exists_and_right, exists_eq_right,
    mem_labels_ofCode_iff h]
  constructor
  · rintro ⟨_, n, -, ins, hins, hdef⟩
    exact ⟨ins, List.mem_of_getElem? hins, hdef⟩
  · rintro ⟨ins, hins, hdef⟩
    obtain ⟨n, hn⟩ := List.mem_iff_getElem?.mp hins
    exact ⟨n, n, rfl, ins, hn, hdef⟩

/-- Two programs one behind the other: the labels of the second are moved along with its code. -/
def append (first second : Program) : Program :=
  ⟨first.code ++ second.code,
    first.labels ++ second.labels.map fun entry => (entry.1, entry.2 + (first.size : Int))⟩

theorem mem_keys_of_mentioned {code : List Instruction} (hdistinct : Distinct code)
    (hresolved : Resolved code) {ins : Instruction} (hins : ins ∈ code) {label : Bytes}
    (h : ins.Defines label ∨ ins.Uses label) : label ∈ (ofCode code).keys := by
  rw [mem_keys_ofCode_iff hdistinct]
  rcases h with hdef | huse
  · exact ⟨ins, hins, hdef⟩
  · exact hresolved ins hins label huse

theorem ofCode_append {code more : List Instruction} (hcode : Distinct code ∧ Resolved code)
    (hmore : Distinct more ∧ Resolved more) (h : Disjoint (ofCode code).keys (ofCode more).keys) :
    ofCode (code ++ more) = (ofCode code).append (ofCode more) := by
  have hapart : ∀ ins ∈ more, ∀ label, ins.Defines label ∨ ins.Uses label →
      label ∉ (Draft.ofCode code).mentions.map Mention.name := by
    intro ins hins label hmentioned hmem
    obtain ⟨other, hother, hfirst⟩ := Draft.mem_names_ofCode_iff.mp hmem
    exact Finset.disjoint_left.mp h (mem_keys_of_mentioned hcode.1 hcode.2 hother hfirst)
      (mem_keys_of_mentioned hmore.1 hmore.2 hins hmentioned)
  have hlabels : (Draft.ofCode (code ++ more)).labels = (Draft.ofCode code).labels ++
      (Draft.ofCode more).labels.map fun entry => (entry.1, entry.2 + (code.length : Int)) := by
    rw [Draft.labels, Draft.mentions_ofCode_append hapart, List.filterMap_append,
      List.filterMap_map, Draft.labels, Draft.labels, List.map_filterMap]
    congr 2
    funext entry
    cases hdef : entry.definition <;>
      simp [Mention.moved, Site.moved, hdef, Int.add_comm]
  rw [ofCode, hlabels]
  simp [append, ofCode, size]

end Program

theorem distinct_append_iff {code more : List Instruction} (hcode : Distinct code)
    (hmore : Distinct more) :
    Distinct (code ++ more) ↔
      Disjoint (Program.ofCode code).keys (Program.ofCode more).keys := by
  have hsplit : Distinct (code ++ more) ↔ ∀ a ∈ code, ∀ b ∈ more, ∀ label,
      a.Defines label → ¬ b.Defines label := by
    rw [Distinct, List.pairwise_append]
    exact ⟨fun h => h.2.2, fun h => ⟨hcode, hmore, h⟩⟩
  simp only [hsplit, Finset.disjoint_left, Program.mem_keys_ofCode_iff hcode,
    Program.mem_keys_ofCode_iff hmore]
  constructor
  · rintro h label ⟨a, ha, hdef⟩ ⟨b, hb, hdef'⟩
    exact h a ha b hb label hdef hdef'
  · intro h a ha b hb label hdef hdef'
    exact h ⟨a, ha, hdef⟩ ⟨b, hb, hdef'⟩

theorem Resolved.append {code more : List Instruction} (hcode : Resolved code)
    (hmore : Resolved more) : Resolved (code ++ more) := by
  intro ins hins label huse
  rcases List.mem_append.mp hins with hins | hins
  · obtain ⟨other, hother, hdef⟩ := hcode ins hins label huse
    exact ⟨other, List.mem_append_left _ hother, hdef⟩
  · obtain ⟨other, hother, hdef⟩ := hmore ins hins label huse
    exact ⟨other, List.mem_append_right _ hother, hdef⟩

theorem Source.texts_splice (source rest : Bytes) :
    texts (source ++ Bytes.newline :: rest) = texts source ++ texts rest := by
  rw [texts, (numberedLines_splice source rest).1, List.map_append, List.map_map]
  rfl

structure Understood (source : Bytes) (ps : List Phrase) : Prop where
  spoken : Spoken (Source.texts source) ps
  distinct : Distinct (ps.map Phrase.instruction)
  resolved : Resolved (ps.map Phrase.instruction)

def Program.ofPhrases (ps : List Phrase) : Program := ofCode (ps.map Phrase.instruction)

theorem compile_eq_ok_iff_understood {name source : Bytes} {program : Program} :
    compile name source = .ok program ↔
      ∃ ps, Understood source ps ∧ Program.ofPhrases ps = program := by
  rw [compile_eq_ok_iff]
  constructor
  · rintro ⟨ps, hps, hdistinct, hresolved, hprogram⟩
    exact ⟨ps, ⟨hps, hdistinct, hresolved⟩, hprogram⟩
  · rintro ⟨ps, h, hprogram⟩
    exact ⟨ps, h.spoken, h.distinct, h.resolved, hprogram⟩

/-- Sources without a common label are compiled together to their programs one behind the other. -/
theorem Understood.compile_append {source rest : Bytes} {ps qs : List Phrase}
    (hs : Understood source ps) (ht : Understood rest qs)
    (h : Disjoint (Program.ofPhrases ps).keys (Program.ofPhrases qs).keys) (name : Bytes) :
    compile name (source ++ Bytes.newline :: rest) =
      .ok ((Program.ofPhrases ps).append (Program.ofPhrases qs)) := by
  rw [compile_eq_ok_iff, Source.texts_splice]
  refine ⟨ps ++ qs, List.rel_append hs.spoken ht.spoken, ?_⟩
  rw [List.map_append]
  exact ⟨(distinct_append_iff hs.distinct ht.distinct).mpr h, hs.resolved.append ht.resolved,
    Program.ofCode_append ⟨hs.distinct, hs.resolved⟩ ⟨ht.distinct, ht.resolved⟩ h⟩

def Source.Line.arrival? (line : Source.Line) : Option Bytes :=
  match Phrase.ofLine? line.text with
  | some (.arriveAt label) => some label
  | _ => none

theorem Source.Line.arrival?_eq_some_iff {line : Source.Line} {label : Bytes} :
    line.arrival? = some label ↔ Phrase.Says line.text (.arriveAt label) := by
  rw [← Phrase.ofLine?_eq_some_iff, arrival?]
  split <;> simp_all

/-- A complaint about a label that a source shares with another one behind it. It is made at the
line where the second source defines the label, and names the line where the first one does. -/
def Redefines (name source rest label : Bytes) (d : Diagnostic) : Prop :=
  ∃ first ∈ Source.numberedLines source, ∃ again ∈ Source.numberedLines rest,
    Phrase.Says first.text (.arriveAt label) ∧ Phrase.Says again.text (.arriveAt label) ∧
      d = ⟨name, Source.height source + again.number, again.text,
        .redefinition label first.number⟩

theorem Redefines.height_lt {name source rest label : Bytes} {d : Diagnostic}
    (h : Redefines name source rest label d) : Source.height source < d.line := by
  obtain ⟨first, -, again, hagain, -, -, rfl⟩ := h
  have hpos := Source.number_pos hagain
  show Source.height source < Source.height source + again.number
  omega

namespace Draft

theorem diagnose?_of_phrase {line : Source.Line} {p : Phrase} (hp : Phrase.Says line.text p)
    (hvalid : p.IsValid) (name : Bytes) (draft : Draft) :
    draft.diagnose? name line = line.arrival?.bind fun label =>
      (draft.definition? label).map fun previous =>
        ⟨name, line.number, line.text, .redefinition label previous.line⟩ := by
  have hline := Phrase.ofLine?_eq_some_iff.mpr hp
  cases p with
  | arriveAt label => simp [diagnose?, objection?, Source.Line.arrival?, hline, Function.comp_def]
  | lookInto digits =>
    have htank := Phrase.tank?_eq_some_iff.mpr ⟨hvalid, rfl⟩
    simp [diagnose?, objection?, Source.Line.arrival?, hline, htank]
  | _ => simp [diagnose?, objection?, Source.Line.arrival?, hline]

end Draft

namespace Understood

open Draft

section Lines

variable {source : Bytes} {ps : List Phrase} (h : Understood source ps)
include h

theorem mem_keys_iff {label : Bytes} :
    label ∈ (Program.ofPhrases ps).keys ↔
      ∃ line ∈ Source.numberedLines source, Phrase.Says line.text (.arriveAt label) := by
  rw [Program.ofPhrases, Program.mem_keys_ofCode_iff h.distinct, h.spoken.exists_defines_iff]
  simp [Source.texts]

theorem apart : Apart (Source.numberedLines source) :=
  List.pairwise_map.mp (h.spoken.distinct_iff.mp h.distinct)

theorem exists_phrase {line : Source.Line} (hline : line ∈ Source.numberedLines source) :
    ∃ p, Phrase.Says line.text p ∧ p.IsValid := by
  obtain ⟨p, -, hp⟩ := h.spoken.exists_of_mem (List.mem_map_of_mem hline)
  exact ⟨p, hp⟩

theorem holds (name : Bytes) : (readLines name {} (Source.numberedLines source)).Holds
    (ps.map Phrase.instruction) := by
  have hlines : List.Forall₂ (fun line p => Phrase.Says line.text p ∧ p.IsValid)
      (Source.numberedLines source) ps := List.forall₂_map_left_iff.mp h.spoken
  have hdistinct : Distinct ([] ++ ps.map Phrase.instruction) := h.distinct
  exact holds_nil.readLines name hlines hdistinct

theorem isSome_definition?_iff (name label : Bytes) :
    ((readLines name {} (Source.numberedLines source)).definition? label).isSome ↔
      label ∈ (Program.ofPhrases ps).keys := by
  rw [isSome_definition?_readLines (h.holds name).isFull, h.mem_keys_iff]
  simp [definition?, mention?]

theorem shared (given : Finset Bytes) :
    ((Source.numberedLines source).filterMap fun line =>
        line.arrival?.filter (· ∈ given)).Nodup ∧
      ((Source.numberedLines source).filterMap fun line =>
        line.arrival?.filter (· ∈ given)).toFinset = given ∩ (Program.ofPhrases ps).keys := by
  constructor
  · rw [List.Nodup, List.pairwise_filterMap]
    refine h.apart.imp fun {a b} hab label hlabel other hother heq => ?_
    subst heq
    rw [Option.filter_eq_some_iff, Source.Line.arrival?_eq_some_iff] at hlabel hother
    exact hab label hlabel.1 hother.1
  · ext label
    simp only [List.mem_toFinset, List.mem_filterMap, Option.filter_eq_some_iff,
      Source.Line.arrival?_eq_some_iff, decide_eq_true_eq, Finset.mem_inter, h.mem_keys_iff]
    constructor
    · rintro ⟨line, hline, hsaid, hgiven⟩
      exact ⟨hgiven, line, hline, hsaid⟩
    · rintro ⟨hgiven, line, hline, hsaid⟩
      exact ⟨line, hline, hsaid, hgiven⟩

end Lines

section Spliced

variable {source rest : Bytes} {ps qs : List Phrase} (hs : Understood source ps)
  (ht : Understood rest qs) (name : Bytes)
include hs ht

/-- A line of the second source is complained of if it arrives at a shared label. -/
theorem rel_diagnose? {line : Source.Line} (hline : line ∈ Source.numberedLines rest) :
    Option.Rel (Redefines name source rest)
      (line.arrival?.filter (· ∈ (Program.ofPhrases ps).keys))
      ((readLines name {} (Source.numberedLines source)).diagnose? name
        (line.moved (Source.height source))) := by
  obtain ⟨p, hp, hvalid⟩ := ht.exists_phrase hline
  have hmoved : Phrase.Says (line.moved (Source.height source)).text p := hp
  have harrival : (line.moved (Source.height source)).arrival? = line.arrival? := rfl
  rw [diagnose?_of_phrase hmoved hvalid, harrival]
  cases hlabel : line.arrival? with
  | none => exact Option.Rel.none
  | some label =>
    have hsome := hs.isSome_definition?_iff name label
    by_cases hkey : label ∈ (Program.ofPhrases ps).keys
    · obtain ⟨site, hsite⟩ := Option.isSome_iff_exists.mp (hsome.mpr hkey)
      have horigin := exists_line_of_definition? hsite
      simp only [definition?, mention?, List.find?_nil, Option.bind_none, reduceCtorEq,
        false_or] at horigin
      obtain ⟨first, hfirst, hnumber, hsaid⟩ := horigin
      have hagain := Source.Line.arrival?_eq_some_iff.mp hlabel
      simp only [Option.filter_some, hkey, decide_true, if_true, Option.bind_some, hsite,
        Option.map_some]
      refine Option.Rel.some ⟨first, hfirst, line, hline, hsaid, hagain, ?_⟩
      rw [hnumber]
      rfl
    · have hnone : (readLines name {} (Source.numberedLines source)).definition? label = none := by
        rw [← Option.not_isSome_iff_eq_none, hsome]
        exact hkey
      simp only [Option.filter_some, hkey, decide_false, Bool.false_eq_true, if_false,
        Option.bind_some, hnone, Option.map_none]
      exact Option.Rel.none

/-- The complaints about the second source, if there were room for all, in the order of its
lines. -/
theorem forall₂_redefines :
    List.Forall₂ (Redefines name source rest)
      ((Source.numberedLines rest).filterMap fun line =>
        line.arrival?.filter (· ∈ (Program.ofPhrases ps).keys))
      (((Source.numberedLines rest).map (Source.Line.moved (Source.height source))).filterMap
        ((readLines name {} (Source.numberedLines source)).diagnose? name)) := by
  rw [List.filterMap_map]
  have hself : List.Forall₂ (fun a b => a = b ∧ a ∈ Source.numberedLines rest)
      (Source.numberedLines rest) (Source.numberedLines rest) :=
    List.forall₂_same.mpr fun line hline => ⟨rfl, hline⟩
  refine List.rel_filterMap (fun {a b} hab => ?_) hself
  obtain ⟨rfl, hline⟩ := hab
  exact hs.rel_diagnose? ht name hline

theorem complaints_spliced :
    let first := readLines name {} (Source.numberedLines source)
    let moved := (Source.numberedLines rest).map (Source.Line.moved (Source.height source))
    (first.readLines name moved).complaints =
      (moved.filterMap (first.diagnose? name)).take 10 := by
  intro first moved
  have hapart : Apart moved := List.pairwise_map.mpr ht.apart
  have hnone : first.complaints = [] := (hs.holds name).complaints
  rw [complaints_readLines name hapart (by simp [hnone]), hnone]
  rfl

/-- Once both sources are read, no label is missing, or there is no room to say so. -/
theorem nothing_missing :
    let draft := (readLines name {} (Source.numberedLines source)).readLines name
      ((Source.numberedLines rest).map (Source.Line.moved (Source.height source)))
    draft.isFull = true ∨ missing draft.mentions = [] := by
  intro draft
  by_cases hfull : draft.isFull = true
  · exact Or.inl hfull
  · right
    have hroom : draft.isFull = false := by simpa using hfull
    have hfirst := hs.holds name
    have hnodup : (draft.mentions.map Mention.name).Nodup :=
      nodup_readLines (nodup_readLines (by simp) name _) name _
    rw [missing_eq_nil_iff_views hnodup]
    intro label huse
    rw [isSome_firstUse?_readLines hroom] at huse
    rw [isSome_definition?_readLines hroom]
    rcases huse with huse | ⟨moved, hmoved, huse⟩
    · have hviews := (missing_eq_nil_iff_views (nodup_readLines (by simp) name _)).mp
        (hfirst.missing_eq_nil_iff.mpr hs.resolved)
      exact Or.inl (hviews label huse)
    · obtain ⟨line, hline, rfl⟩ := List.mem_map.mp hmoved
      have hresolved := ht.spoken.resolved_iff.mp ht.resolved line.text
        (List.mem_map_of_mem hline) label huse
      obtain ⟨text, htext, hsaid⟩ := hresolved
      obtain ⟨other, hother, rfl⟩ := List.mem_map.mp htext
      exact Or.inr ⟨_, List.mem_map_of_mem hother, hsaid⟩

theorem compile_append_error
    (h : ¬ Disjoint (Program.ofPhrases ps).keys (Program.ofPhrases qs).keys) :
    ∃ labels complaints,
      compile name (source ++ Bytes.newline :: rest) = .error complaints ∧
        complaints.length =
          min 10 ((Program.ofPhrases ps).keys ∩ (Program.ofPhrases qs).keys).card ∧
        labels.Nodup ∧
        (∀ label ∈ labels, label ∈ (Program.ofPhrases ps).keys ∩ (Program.ofPhrases qs).keys) ∧
        List.Forall₂ (Redefines name source rest) labels complaints ∧
        ∀ d ∈ complaints, Source.height source < d.line := by
  let common := (Program.ofPhrases ps).keys ∩ (Program.ofPhrases qs).keys
  let labels := (Source.numberedLines rest).filterMap fun line =>
    line.arrival?.filter (· ∈ (Program.ofPhrases ps).keys)
  obtain ⟨hnodup, hcommon⟩ : labels.Nodup ∧ labels.toFinset = common :=
    ht.shared (Program.ofPhrases ps).keys
  let first := readLines name {} (Source.numberedLines source)
  let moved := (Source.numberedLines rest).map (Source.Line.moved (Source.height source))
  have hrelated : List.Forall₂ (Redefines name source rest) labels
      (moved.filterMap (first.diagnose? name)) := hs.forall₂_redefines ht name
  have hcomplaints : (first.readLines name moved).complaints =
      (moved.filterMap (first.diagnose? name)).take 10 := hs.complaints_spliced ht name
  have hlength : (moved.filterMap (first.diagnose? name)).length = common.card := by
    rw [← hrelated.length_eq, ← hcommon, List.toFinset_card_of_nodup hnodup]
  have hsome : (first.readLines name moved).complaints ≠ [] := by
    have hcard : 0 < common.card :=
      Finset.card_pos.mpr (Finset.not_disjoint_iff_nonempty_inter.mp h)
    rw [hcomplaints, ← List.length_pos_iff, List.length_take]
    omega
  have hcompile : compile name (source ++ Bytes.newline :: rest) =
      .error (first.readLines name moved).complaints := by
    rw [compile, (Source.numberedLines_splice source rest).1, readLines_append]
    exact finish_eq_error hsome (hs.nothing_missing ht name) name
  have htaken : List.Forall₂ (Redefines name source rest) (labels.take 10)
      (first.readLines name moved).complaints := by
    rw [hcomplaints]
    exact List.forall₂_take 10 hrelated
  have hbehind : ∀ d ∈ (first.readLines name moved).complaints, Source.height source < d.line := by
    have hboth : List.Forall₂ (fun d label => Source.height source < d.line ∧
        Redefines name source rest label d) (first.readLines name moved).complaints
        (labels.take 10) := htaken.flip.imp fun _ _ h => ⟨Redefines.height_lt h, h⟩
    exact ((List.forall₂_and_left _ _).mp hboth).1
  refine ⟨labels.take 10, _, hcompile, ?_, hnodup.sublist (List.take_sublist 10 labels), ?_, htaken,
    hbehind⟩
  · rw [hcomplaints, List.length_take, hlength]
  · intro label hlabel
    have hmem : label ∈ labels.toFinset := List.mem_toFinset.mpr (List.mem_of_mem_take hlabel)
    rwa [hcommon] at hmem

end Spliced

end Understood

/-- Two sources that can be compiled, the second on a new line behind the first. Together they can
be compiled if and only if no label is in both programs, and then they give the two programs one
behind the other. If labels are shared, there are as many complaints as shared labels, though not
more than ten; each is about another shared label, which is defined again in the second source, that
is in the lines behind those of the first. -/
theorem compile_spliced {name₁ name₂ source rest : Bytes} {first second : Program}
    (hs : compile name₁ source = .ok first) (ht : compile name₂ rest = .ok second)
    (name : Bytes) :
    let joined := source ++ Bytes.newline :: rest
    let common := first.keys ∩ second.keys
    ((∃ program, compile name joined = .ok program) ↔ common = ∅) ∧
      (common = ∅ → compile name joined =
        .ok ⟨first.code ++ second.code, first.labels ++
          second.labels.map fun entry => (entry.1, entry.2 + (first.size : Int))⟩) ∧
      (common ≠ ∅ → ∃ labels complaints,
        compile name joined = .error complaints ∧ complaints.length = min 10 common.card ∧
          labels.Nodup ∧ (∀ label ∈ labels, label ∈ common) ∧
          List.Forall₂ (Redefines name source rest) labels complaints ∧
          ∀ d ∈ complaints, Source.height source < d.line) ∧
      Source.numberedLines joined = Source.numberedLines source ++
        (Source.numberedLines rest).map (Source.Line.moved (Source.height source)) ∧
      ∀ line ∈ Source.numberedLines source, line.number ≤ Source.height source := by
  intro joined common
  obtain ⟨ps, hps, rfl⟩ := compile_eq_ok_iff_understood.mp hs
  obtain ⟨qs, hqs, rfl⟩ := compile_eq_ok_iff_understood.mp ht
  have hdisjoint : common = ∅ ↔
      Disjoint (Program.ofPhrases ps).keys (Program.ofPhrases qs).keys :=
    Finset.disjoint_iff_inter_eq_empty.symm
  have haccepts : common = ∅ → compile name joined =
      .ok ((Program.ofPhrases ps).append (Program.ofPhrases qs)) := fun h =>
    hps.compile_append hqs (hdisjoint.mp h) name
  have hrejects := fun (h : common ≠ ∅) => hps.compile_append_error hqs name (mt hdisjoint.mpr h)
  refine ⟨⟨?_, fun h => ⟨_, haccepts h⟩⟩, haccepts, hrejects,
    Source.numberedLines_splice source rest⟩
  rintro ⟨program, hprogram⟩
  by_contra hne
  obtain ⟨labels, complaints, herror, -⟩ := hrejects hne
  simp [joined, herror] at hprogram

/-- The first source ends with a CR, which is one line end with the newline behind it. Of the two
labels of the second source one is shared, and its second definition is in line 4. -/
theorem compile_spliced_trailingReturn :
    let source := utf8 "ビルに着いた\nビルへ泳いでいこう\r"
    let rest := utf8 "港に着いた\nビルに着いた"
    let first : Program :=
      ⟨#[{ op := .nop, label := utf8 "ビル" }, { op := .jumpIfPositive, label := utf8 "ビル" }],
        [(utf8 "ビル", 0)]⟩
    let second : Program :=
      ⟨#[{ op := .nop, label := utf8 "港" }, { op := .nop, label := utf8 "ビル" }],
        [(utf8 "港", 0), (utf8 "ビル", 1)]⟩
    compile [] source = .ok first ∧ compile [] rest = .ok second ∧
      first.keys ∩ second.keys = {utf8 "ビル"} ∧
      ∃ d, compile [] (source ++ Bytes.newline :: rest) = .error [d] ∧
        Redefines [] source rest (utf8 "ビル") d ∧ Source.height source = 2 ∧
        Source.height source < d.line := by
  intro source rest first second
  have hs : compile [] source = .ok first := compile_of_toOption (by decide +kernel)
  have ht : compile [] rest = .ok second := compile_of_toOption (by decide +kernel)
  have hcommon : first.keys ∩ second.keys = {utf8 "ビル"} := by decide +kernel
  have hne : first.keys ∩ second.keys ≠ ∅ := by simp [hcommon]
  obtain ⟨labels, complaints, herror, hlength, -, hlabels, hrelated, hbehind⟩ :=
    (compile_spliced hs ht []).2.2.1 hne
  rw [hcommon, Finset.card_singleton] at hlength
  obtain ⟨d, rfl⟩ := List.length_eq_one_iff.mp hlength
  obtain ⟨label, others, hlabel, hothers, rfl⟩ := List.forall₂_cons_right_iff.mp hrelated
  obtain rfl : label = utf8 "ビル" := by
    have hmem := hlabels label List.mem_cons_self
    rwa [hcommon, Finset.mem_singleton] at hmem
  exact ⟨hs, ht, hcommon, d, herror, hlabel, by decide +kernel, hbehind d List.mem_cons_self⟩

end Sardine
