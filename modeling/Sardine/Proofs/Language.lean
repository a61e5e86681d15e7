import Sardine.Proofs.Reading

/-! The language of the sources, told without the compiler.
A list of texts is in the language if every text has a form, the labels that the texts define are
all different, and the labels to which they jump are among them. Exactly these texts are
compiled, each to the instruction of the form that counts. -/
namespace Sardine

/-- What a list of texts has to be like to make up a program. -/
structure InLanguage (texts : List Bytes) : Prop where
  phrases : ∀ text ∈ texts, ∃ p, Phrase.Form text p ∧ p.IsValid
  distinct : texts.Pairwise fun a b =>
    ∀ label, Phrase.Says a (.arriveAt label) → ¬ Phrase.Says b (.arriveAt label)
  resolved : ∀ text ∈ texts, ∀ label,
    Phrase.Says text (.swimTo label) ∨ Phrase.Says text (.ifNoneGoTo label) →
      ∃ other ∈ texts, Phrase.Says other (.arriveAt label)

/-- A line with a form that can be compiled says something that can be compiled: a tank is looked
into only if the line has no other form. -/
theorem Phrase.exists_says_of_form {text : Bytes} {p : Phrase} (h : Phrase.Form text p)
    (hvalid : p.IsValid) : ∃ q, Phrase.Says text q ∧ q.IsValid := by
  obtain ⟨q, hq⟩ := Option.isSome_iff_exists.mp (Phrase.ofLine?_isSome_of_form h)
  have hfirst := Phrase.ofLine?_eq_some_iff.mp hq
  refine ⟨q, hfirst, ?_⟩
  cases q with
  | lookInto digits =>
    have hle := hfirst.first p h
    have hrank : (Phrase.lookInto digits).rank = p.rank := by
      refine Nat.le_antisymm hle ?_
      cases p <;> simp [Phrase.rank]
    rw [hfirst.form.unique h hrank]
    exact hvalid
  | _ => trivial

theorem Spoken.exists_of_forms {texts : List Bytes}
    (h : ∀ text ∈ texts, ∃ p, Phrase.Form text p ∧ p.IsValid) : ∃ ps, Spoken texts ps := by
  induction texts with
  | nil => exact ⟨[], List.Forall₂.nil⟩
  | cons text texts ih =>
    obtain ⟨p, hp, hvalid⟩ := h text List.mem_cons_self
    obtain ⟨q, hq⟩ := Phrase.exists_says_of_form hp hvalid
    obtain ⟨ps, hps⟩ := ih fun other hother => h other (List.mem_cons_of_mem _ hother)
    exact ⟨q :: ps, List.Forall₂.cons hq hps⟩

section Spoken

variable {texts : List Bytes} {ps : List Phrase} (h : Spoken texts ps)
include h

theorem Spoken.exists_of_mem {text : Bytes} (htext : text ∈ texts) :
    ∃ p ∈ ps, Phrase.Says text p ∧ p.IsValid := by
  induction h with
  | nil => simp at htext
  | @cons first p texts ps hp _ ih =>
    rcases List.mem_cons.mp htext with rfl | htext
    · exact ⟨p, List.mem_cons_self, hp⟩
    · obtain ⟨q, hq, hsaid⟩ := ih htext
      exact ⟨q, List.mem_cons_of_mem _ hq, hsaid⟩

theorem Spoken.map_ofLine? : texts.map Phrase.ofLine? = ps.map some := by
  rw [← List.forall₂_eq_eq_eq, List.forall₂_map_left_iff, List.forall₂_map_right_iff]
  exact h.imp fun text p hp => Phrase.ofLine?_eq_some_iff.mpr hp.1

theorem Spoken.mem_iff {p : Phrase} : p ∈ ps ↔ ∃ text ∈ texts, Phrase.Says text p := by
  simp only [← Phrase.ofLine?_eq_some_iff]
  rw [← List.mem_map, h.map_ofLine?]
  simp

theorem Spoken.exists_text {p : Phrase} (hp : p ∈ ps) :
    ∃ text ∈ texts, Phrase.Says text p ∧ p.IsValid := by
  obtain ⟨text, htext, hsaid⟩ := h.mem_iff.mp hp
  obtain ⟨q, -, hq, hvalid⟩ := h.exists_of_mem htext
  exact ⟨text, htext, hsaid, hsaid.unique hq ▸ hvalid⟩

theorem Spoken.exists_says {ins : Instruction} (hins : ins ∈ ps.map Phrase.instruction) :
    ∃ text ∈ texts, ∃ p, p.instruction = ins ∧ Phrase.Says text p ∧ p.IsValid := by
  obtain ⟨p, hp, rfl⟩ := List.mem_map.mp hins
  obtain ⟨text, htext, hsaid⟩ := h.exists_text hp
  exact ⟨text, htext, p, rfl, hsaid⟩

theorem Spoken.distinct_iff :
    Distinct (ps.map Phrase.instruction) ↔ texts.Pairwise fun a b =>
      ∀ label, Phrase.Says a (.arriveAt label) → ¬ Phrase.Says b (.arriveAt label) := by
  have hphrases : Distinct (ps.map Phrase.instruction) ↔
      ps.Pairwise fun p q => ∀ label, p = .arriveAt label → ¬ q = .arriveAt label := by
    rw [Distinct, List.pairwise_map]
    refine List.Pairwise.iff_of_mem fun {p q} hp hq => forall_congr' fun label => ?_
    obtain ⟨a, -, ha, -⟩ := h.exists_text hp
    obtain ⟨b, -, hb, -⟩ := h.exists_text hq
    rw [Phrase.defines_instruction_iff ha, Phrase.defines_instruction_iff hb]
  have hlines := List.pairwise_map (f := Phrase.ofLine?) (l := texts) (R := fun p q =>
    ∀ label, p = some (.arriveAt label) → ¬ q = some (.arriveAt label))
  rw [h.map_ofLine?, List.pairwise_map] at hlines
  simp only [Option.some.injEq, Phrase.ofLine?_eq_some_iff] at hlines
  rw [hphrases, hlines]

theorem Spoken.exists_defines_iff {label : Bytes} :
    (∃ ins ∈ ps.map Phrase.instruction, ins.Defines label) ↔
      ∃ text ∈ texts, Phrase.Says text (.arriveAt label) := by
  rw [← h.mem_iff]
  constructor
  · rintro ⟨ins, hins, hdef⟩
    obtain ⟨p, hp, rfl⟩ := List.mem_map.mp hins
    obtain ⟨text, -, hsaid, -⟩ := h.exists_text hp
    exact (Phrase.defines_instruction_iff hsaid).mp hdef ▸ hp
  · intro hp
    exact ⟨_, List.mem_map_of_mem hp, rfl, rfl⟩

theorem Spoken.resolved_iff :
    Resolved (ps.map Phrase.instruction) ↔ ∀ text ∈ texts, ∀ label,
      Phrase.Says text (.swimTo label) ∨ Phrase.Says text (.ifNoneGoTo label) →
        ∃ other ∈ texts, Phrase.Says other (.arriveAt label) := by
  have huses : ∀ p ∈ ps, ∀ label, p.instruction.Uses label ↔
      p = .swimTo label ∨ p = .ifNoneGoTo label := fun p hp label => by
    obtain ⟨text, -, hsaid, -⟩ := h.exists_text hp
    exact Phrase.uses_instruction_iff hsaid
  simp only [Resolved, List.forall_mem_map, h.exists_defines_iff]
  constructor
  · intro hall text htext label hjump
    rcases hjump with hsaid | hsaid
    · exact hall _ (h.mem_iff.mpr ⟨text, htext, hsaid⟩) label ⟨rfl, rfl⟩
    · exact hall _ (h.mem_iff.mpr ⟨text, htext, hsaid⟩) label ⟨rfl, rfl⟩
  · intro hall p hp label huse
    obtain ⟨text, htext, hsaid⟩ := h.mem_iff.mp hp
    rcases (huses p hp label).mp huse with rfl | rfl
    · exact hall text htext label (Or.inl hsaid)
    · exact hall text htext label (Or.inr hsaid)

end Spoken

theorem inLanguage_iff {texts : List Bytes} :
    InLanguage texts ↔ ∃ ps, Spoken texts ps ∧ Distinct (ps.map Phrase.instruction) ∧
      Resolved (ps.map Phrase.instruction) := by
  constructor
  · intro h
    obtain ⟨ps, hps⟩ := Spoken.exists_of_forms h.phrases
    exact ⟨ps, hps, hps.distinct_iff.mpr h.distinct, hps.resolved_iff.mpr h.resolved⟩
  · rintro ⟨ps, hps, hdistinct, hresolved⟩
    refine ⟨fun text htext => ?_, hps.distinct_iff.mp hdistinct, hps.resolved_iff.mp hresolved⟩
    obtain ⟨p, -, hsaid, hvalid⟩ := hps.exists_of_mem htext
    exact ⟨p, hsaid.form, hvalid⟩

/-- The compiler accepts its language and nothing else. The texts of the source are those found by a
scan, trimmed; an accepted source gives for every text the instruction of what it says, in order,
and any other source gives complaints. -/
theorem compile_accepts_exactly (name source : Bytes) :
    ∃ texts, (∀ other, Source.HasTexts source other ↔ other = texts) ∧
      ((∃ program, compile name source = .ok program) ↔ InLanguage texts) ∧
      (∀ program, compile name source = .ok program →
        List.Forall₂ (fun text ins => ∃ p, Phrase.Says text p ∧ p.instruction = ins) texts
          program.code.toList) ∧
      (¬ InLanguage texts →
        ∃ complaints, complaints ≠ [] ∧ compile name source = .error complaints) := by
  have hiff : (∃ program, compile name source = .ok program) ↔
      InLanguage (Source.texts source) := by
    simp only [compile_eq_ok_iff, inLanguage_iff]
    constructor
    · rintro ⟨_, ps, hps, hdistinct, hresolved, -⟩
      exact ⟨ps, hps, hdistinct, hresolved⟩
    · rintro ⟨ps, hps, hdistinct, hresolved⟩
      exact ⟨_, ps, hps, hdistinct, hresolved, rfl⟩
  refine ⟨Source.texts source, fun other => by rw [Source.hasTexts_iff, eq_comm], hiff, ?_, ?_⟩
  · intro program hprogram
    obtain ⟨ps, hps, -, -, rfl⟩ := compile_eq_ok_iff.mp hprogram
    simp only [Program.ofCode, List.forall₂_map_right_iff]
    exact hps.imp fun text p hp => ⟨p, hp.1, rfl⟩
  · intro hnot
    cases hresult : compile name source with
    | ok program => exact absurd (hiff.mp ⟨program, hresult⟩) hnot
    | error complaints => exact ⟨complaints, Draft.finish_error_ne_nil hresult, rfl⟩

end Sardine
