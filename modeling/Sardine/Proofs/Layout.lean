import Sardine.Source.Compile
import Mathlib.Data.List.Basic
import Mathlib.Data.List.Induction
import Mathlib.Data.List.Nodup

/-! Instructions laid out one after the other.
A draft in which nothing is wrong is, but for the numbers of the lines, determined by its code; so
the table of labels of a program is determined by its code as well. -/
namespace Sardine

namespace Instruction

def Defines (ins : Instruction) (label : Bytes) : Prop := ins.op = .nop ∧ ins.label = label

def Uses (ins : Instruction) (label : Bytes) : Prop := ins.op.isJump = true ∧ ins.label = label

instance (ins : Instruction) (label : Bytes) : Decidable (ins.Defines label) :=
  inferInstanceAs (Decidable (_ ∧ _))

instance (ins : Instruction) (label : Bytes) : Decidable (ins.Uses label) :=
  inferInstanceAs (Decidable (_ ∧ _))

end Instruction

/-- No label is defined twice. -/
def Distinct (code : List Instruction) : Prop :=
  code.Pairwise fun a b => ∀ label, a.Defines label → ¬ b.Defines label

/-- Every label that is used is defined. -/
def Resolved (code : List Instruction) : Prop :=
  ∀ ins ∈ code, ∀ label, ins.Uses label → ∃ other ∈ code, other.Defines label

def Mention.definedAt (site : Site) (entry : Mention) : Mention :=
  { entry with definition := some site }

def Mention.usedAt (site : Site) (entry : Mention) : Mention :=
  { entry with firstUse := entry.firstUse.or (some site) }

namespace Draft

def definition? (draft : Draft) (label : Bytes) : Option Site :=
  (draft.mention? label).bind Mention.definition

def firstUse? (draft : Draft) (label : Bytes) : Option Site :=
  (draft.mention? label).bind Mention.firstUse

section Mentions

variable (change : Mention → Mention) (hname : ∀ entry, (change entry).name = entry.name)
include hname

theorem find?_updateMention (label other : Bytes) (mentions : List Mention) :
    (updateMention label change mentions).find? (·.name = other) =
      if label = other then
        some (change ((mentions.find? (·.name = label)).getD { name := label }))
      else mentions.find? (·.name = other) := by
  induction mentions with
  | nil => by_cases h : label = other <;> simp [updateMention, hname, h]
  | cons entry mentions ih =>
    by_cases hentry : entry.name = label
    · by_cases h : label = other <;> simp [updateMention, hname, hentry, h]
    · rw [updateMention, if_neg hentry]
      by_cases h : entry.name = other
      · have hne : ¬ label = other := fun hl => hentry (h.trans hl.symm)
        simp [h, hne]
      · simp [hentry, h, ih]

theorem field_updateMention (field : Mention → Option Site) (effect : Option Site → Option Site)
    (heffect : ∀ entry, field (change entry) = effect (field entry)) (label other : Bytes)
    (hnew : field { name := label } = none) (mentions : List Mention) :
    ((updateMention label change mentions).find? (·.name = other)).bind field =
      if label = other then effect ((mentions.find? (·.name = other)).bind field)
      else (mentions.find? (·.name = other)).bind field := by
  rw [find?_updateMention change hname]
  split
  · rename_i hlabel
    subst hlabel
    cases mentions.find? (·.name = label) <;> simp [heffect, hnew]
  · rfl

theorem names_updateMention (label : Bytes) (mentions : List Mention) :
    (updateMention label change mentions).map Mention.name =
      if label ∈ mentions.map Mention.name then mentions.map Mention.name
      else mentions.map Mention.name ++ [label] := by
  induction mentions with
  | nil => simp [updateMention, hname]
  | cons entry mentions ih =>
    by_cases hentry : entry.name = label
    · simp [updateMention, hname, hentry]
    · have hne : label ≠ entry.name := fun h => hentry h.symm
      simp only [updateMention, hentry, if_false, List.map_cons, ih, List.mem_cons, hne, false_or]
      split <;> rfl

theorem nodup_updateMention {mentions : List Mention} (h : (mentions.map Mention.name).Nodup)
    (label : Bytes) : ((updateMention label change mentions).map Mention.name).Nodup := by
  rw [names_updateMention change hname]
  split
  · exact h
  · rename_i hnot
    exact List.nodup_append'.mpr ⟨h, List.nodup_singleton label, by simpa using hnot⟩

end Mentions

/-- Entries that are rewritten one by one, their names kept, are changed as they would be before. -/
theorem map_updateMention (f change change' : Mention → Mention)
    (hname : ∀ entry, (f entry).name = entry.name)
    (h : ∀ entry, f (change entry) = change' (f entry)) (label : Bytes)
    (hnew : f { name := label } = { name := label }) (mentions : List Mention) :
    (updateMention label change mentions).map f =
      updateMention label change' (mentions.map f) := by
  induction mentions with
  | nil => simp [updateMention, h, hnew]
  | cons entry mentions ih =>
    by_cases hentry : entry.name = label <;> simp [updateMention, hname, hentry, h, ih]

/-- What is known of the labels once an instruction stands at a site. -/
def noted (site : Site) (ins : Instruction) (mentions : List Mention) : List Mention :=
  if ins.op = .nop then updateMention ins.label (Mention.definedAt site) mentions
  else if ins.op.isJump then updateMention ins.label (Mention.usedAt site) mentions
  else mentions

def place (line : Nat) (draft : Draft) (ins : Instruction) : Draft :=
  { draft with
    code := draft.code.push ins
    mentions := noted ⟨line, draft.code.size⟩ ins draft.mentions }

theorem nodup_noted {mentions : List Mention} (h : (mentions.map Mention.name).Nodup) (site : Site)
    (ins : Instruction) : ((noted site ins mentions).map Mention.name).Nodup := by
  unfold noted
  split_ifs
  · exact nodup_updateMention (Mention.definedAt site) (fun _ => rfl) h _
  · exact nodup_updateMention (Mention.usedAt site) (fun _ => rfl) h _
  · exact h

theorem definition?_place (line : Nat) (draft : Draft) (ins : Instruction) (label : Bytes) :
    (draft.place line ins).definition? label =
      if ins.Defines label then some ⟨line, draft.code.size⟩ else draft.definition? label := by
  by_cases hnop : ins.op = .nop
  · have h := field_updateMention (Mention.definedAt ⟨line, draft.code.size⟩) (fun _ => rfl)
      Mention.definition (fun _ => some ⟨line, draft.code.size⟩) (fun _ => rfl) ins.label label rfl
      draft.mentions
    simpa [definition?, mention?, place, noted, hnop, Instruction.Defines] using h
  · have hdef : ¬ ins.Defines label := fun h => hnop h.1
    by_cases hjump : ins.op.isJump = true
    · have h := field_updateMention (Mention.usedAt ⟨line, draft.code.size⟩) (fun _ => rfl)
        Mention.definition id (fun _ => rfl) ins.label label rfl draft.mentions
      simpa [definition?, mention?, place, noted, hnop, hjump, hdef] using h
    · simp [definition?, mention?, place, noted, hnop, hjump, hdef]

theorem firstUse?_place (line : Nat) (draft : Draft) (ins : Instruction) (label : Bytes) :
    (draft.place line ins).firstUse? label =
      if ins.Uses label then (draft.firstUse? label).or (some ⟨line, draft.code.size⟩)
      else draft.firstUse? label := by
  by_cases hnop : ins.op = .nop
  · have huse : ¬ ins.Uses label := by
      rintro ⟨hjump, -⟩
      rw [hnop] at hjump
      exact absurd hjump (by decide)
    have h := field_updateMention (Mention.definedAt ⟨line, draft.code.size⟩) (fun _ => rfl)
      Mention.firstUse id (fun _ => rfl) ins.label label rfl draft.mentions
    simpa [firstUse?, mention?, place, noted, hnop, huse] using h
  · by_cases hjump : ins.op.isJump = true
    · have h := field_updateMention (Mention.usedAt ⟨line, draft.code.size⟩) (fun _ => rfl)
        Mention.firstUse (·.or (some ⟨line, draft.code.size⟩)) (fun _ => rfl) ins.label label rfl
        draft.mentions
      simpa [firstUse?, mention?, place, noted, hnop, hjump, Instruction.Uses] using h
    · simp [firstUse?, mention?, place, noted, hnop, hjump, Instruction.Uses]

/-- The draft of a piece of code for which no lines are known. -/
def ofCode (code : List Instruction) : Draft := code.foldl (place 0) {}

@[simp] theorem ofCode_nil : ofCode [] = {} := rfl

@[simp] theorem ofCode_concat (code : List Instruction) (ins : Instruction) :
    ofCode (code ++ [ins]) = (ofCode code).place 0 ins := by
  simp [ofCode]

@[simp] theorem code_ofCode (code : List Instruction) : (ofCode code).code = code.toArray := by
  induction code using List.reverseRecOn with
  | nil => rfl
  | append_singleton code ins ih => simp [place, ih]

theorem nodup_ofCode (code : List Instruction) :
    ((ofCode code).mentions.map Mention.name).Nodup := by
  induction code using List.reverseRecOn with
  | nil => simp
  | append_singleton code ins ih =>
    rw [ofCode_concat]
    exact nodup_noted ih _ ins

theorem isSome_definition?_ofCode {code : List Instruction} {label : Bytes} :
    ((ofCode code).definition? label).isSome ↔ ∃ ins ∈ code, ins.Defines label := by
  induction code using List.reverseRecOn with
  | nil => simp [definition?, mention?]
  | append_singleton code ins ih =>
    rw [ofCode_concat, definition?_place]
    by_cases h : ins.Defines label <;> simp [h, ih, or_and_right, exists_or]

theorem isSome_firstUse?_ofCode {code : List Instruction} {label : Bytes} :
    ((ofCode code).firstUse? label).isSome ↔ ∃ ins ∈ code, ins.Uses label := by
  induction code using List.reverseRecOn with
  | nil => simp [firstUse?, mention?]
  | append_singleton code ins ih =>
    rw [ofCode_concat, firstUse?_place]
    by_cases h : ins.Uses label <;> simp [h, ih, or_and_right, exists_or]

/-- A label stands for the address of the instruction that defines it. -/
theorem definition?_ofCode_iff {code : List Instruction} (h : Distinct code) {label : Bytes}
    {line address : Nat} :
    (ofCode code).definition? label = some ⟨line, address⟩ ↔
      line = 0 ∧ ∃ ins, code[address]? = some ins ∧ ins.Defines label := by
  induction code using List.reverseRecOn with
  | nil => simp [definition?, mention?]
  | append_singleton code last ih =>
    obtain ⟨hcode, -, hlast⟩ := List.pairwise_append.mp h
    have ih := ih hcode
    rw [ofCode_concat, definition?_place, code_ofCode]
    by_cases hdef : last.Defines label
    · -- No instruction before the last one defines the label.
      have hnone : ∀ ins, code[address]? = some ins → ¬ ins.Defines label := fun ins hins hd =>
        hlast ins (List.mem_of_getElem? hins) last (by simp) label hd hdef
      rw [if_pos hdef, List.getElem?_append]
      split
      · rename_i hlt
        simp only [Option.some.injEq, Site.mk.injEq, List.size_toArray]
        exact ⟨fun heq => absurd heq.2 (by omega),
          fun ⟨_, ins, hins, hd⟩ => absurd hd (hnone ins hins)⟩
      · rename_i hge
        rcases Nat.eq_or_lt_of_not_lt hge with heq | hgt
        · simp [heq, hdef, eq_comm]
        · have hne : code.length ≠ address := by omega
          simp [hne, show address - code.length ≠ 0 by omega]
    · rw [if_neg hdef, ih, List.getElem?_append]
      split
      · rfl
      · rename_i hge
        have hnone : code[address]? = none := List.getElem?_eq_none (by omega)
        simp only [hnone, List.getElem?_singleton]
        split <;> simp [hdef]

theorem find?_of_mem {mentions : List Mention} (h : (mentions.map Mention.name).Nodup)
    {entry : Mention} (hmem : entry ∈ mentions) :
    mentions.find? (·.name = entry.name) = some entry := by
  induction mentions with
  | nil => simp at hmem
  | cons first mentions ih =>
    simp only [List.map_cons, List.nodup_cons] at h
    rcases List.mem_cons.mp hmem with rfl | hmem
    · simp
    · have hne : first.name ≠ entry.name := fun heq => h.1 (heq ▸ List.mem_map_of_mem hmem)
      simp [hne, ih h.2 hmem]

theorem missing_eq_nil_iff {mentions : List Mention} :
    missing mentions = [] ↔
      ∀ entry ∈ mentions, entry.definition = none → entry.firstUse = none := by
  rw [missing, ← List.length_eq_zero_iff, List.length_mergeSort, List.length_eq_zero_iff,
    List.filterMap_eq_nil_iff]
  refine forall₂_congr fun entry _ => ?_
  cases entry.definition <;> cases entry.firstUse <;> simp

theorem missing_eq_nil_iff_views {draft : Draft} (h : (draft.mentions.map Mention.name).Nodup) :
    missing draft.mentions = [] ↔
      ∀ label, (draft.firstUse? label).isSome → (draft.definition? label).isSome := by
  rw [missing_eq_nil_iff]
  constructor
  · intro hall label huse
    rw [firstUse?, Option.isSome_bind, Option.any_eq_true] at huse
    obtain ⟨entry, hentry, huse⟩ := huse
    have hdef : entry.definition ≠ none := fun hnone => by
      simp [hall entry (List.mem_of_find?_eq_some hentry) hnone] at huse
    rw [definition?, hentry]
    exact Option.isSome_iff_ne_none.mpr hdef
  · intro hall entry hmem hnone
    have hfind : draft.mention? entry.name = some entry := find?_of_mem h hmem
    have huse := hall entry.name
    simp only [firstUse?, definition?, hfind, Option.bind_some, hnone] at huse
    simpa using huse

theorem address?_labels {draft : Draft} (h : (draft.mentions.map Mention.name).Nodup)
    (label : Bytes) :
    draft.labels.address? label =
      (draft.definition? label).map fun site => (site.address : Int) := by
  unfold labels definition? mention?
  generalize draft.mentions = mentions at h
  induction mentions with
  | nil => rfl
  | cons first mentions ih =>
    simp only [List.map_cons, List.nodup_cons] at h
    by_cases hname : first.name = label
    · cases hdef : first.definition with
      | some site => simp [hdef, hname, Labels.address?]
      | none =>
        have hnone : mentions.find? (·.name = label) = none := by
          simp only [List.find?_eq_none, decide_eq_true_eq]
          intro entry hentry heq
          exact h.1 (hname ▸ heq ▸ List.mem_map_of_mem hentry)
        simp [hdef, hname, ih h.2, hnone]
    · cases hdef : first.definition <;> simp [hdef, hname, Labels.address?, ih h.2]

end Draft

def Program.ofCode (code : List Instruction) : Program := ⟨code.toArray, (Draft.ofCode code).labels⟩

theorem Program.address?_ofCode_iff {code : List Instruction} (h : Distinct code) {label : Bytes}
    {address : Int} :
    (Program.ofCode code).labels.address? label = some address ↔
      ∃ n : Nat, (n : Int) = address ∧ ∃ ins, code[n]? = some ins ∧ ins.Defines label := by
  rw [Program.ofCode, Draft.address?_labels (Draft.nodup_ofCode code), Option.map_eq_some_iff]
  constructor
  · rintro ⟨⟨line, n⟩, hsite, rfl⟩
    exact ⟨n, rfl, ((Draft.definition?_ofCode_iff h).mp hsite).2⟩
  · rintro ⟨n, rfl, hins⟩
    exact ⟨⟨0, n⟩, (Draft.definition?_ofCode_iff h).mpr ⟨rfl, hins⟩, rfl⟩

end Sardine
