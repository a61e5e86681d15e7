import Sardine.Text.Blank
import Mathlib.Data.List.Basic

/-! What trimming leaves of a byte string.
A string is a run of white space, a core and another run; the core neither begins nor ends with
white space. There is one such core, for strings that are not UTF-8 as well, and trimming finds
it. -/
namespace Sardine.Blank

inductive Run (table : List Bytes) : Bytes → Prop
  | nil : Run table []
  | cons {form rest : Bytes} : form ∈ table → Run table rest → Run table (form ++ rest)

def Bare (table : List Bytes) (s : Bytes) : Prop := ∀ form ∈ table, ¬ form <+: s

/-- A table in which no form is empty or begins with another, so that at most one form stands at
the front of a string. -/
structure Unambiguous (table : List Bytes) : Prop where
  nonempty : [] ∉ table
  apart : ∀ a ∈ table, ∀ b ∈ table, a <+: b → a = b

instance (table : List Bytes) : Decidable (Unambiguous table) :=
  decidable_of_iff ([] ∉ table ∧ ∀ a ∈ table, ∀ b ∈ table, a <+: b → a = b)
    ⟨fun h => ⟨h.1, h.2⟩, fun h => ⟨h.nonempty, h.apart⟩⟩

theorem unambiguous_forms : Unambiguous forms := by decide +kernel

theorem unambiguous_reversed : Unambiguous (forms.map List.reverse) := by decide +kernel

theorem Run.append {table : List Bytes} {s t : Bytes} (hs : Run table s) (ht : Run table t) :
    Run table (s ++ t) := by
  induction hs with
  | nil => exact ht
  | cons hform _ ih =>
    rw [List.append_assoc]
    exact Run.cons hform ih

theorem Run.reverse {table : List Bytes} {s : Bytes} (hs : Run table s) :
    Run (table.map List.reverse) s.reverse := by
  induction hs with
  | nil => exact Run.nil
  | @cons form rest hform _ ih =>
    have hlast : Run (table.map List.reverse) form.reverse := by
      simpa using Run.cons (List.mem_map_of_mem hform) Run.nil
    rw [List.reverse_append]
    exact ih.append hlast

theorem run_of_reverse {table : List Bytes} {s : Bytes}
    (hs : Run (table.map List.reverse) s.reverse) : Run table s := by
  simpa [Function.comp_def] using hs.reverse

theorem bare_reverse_iff {table : List Bytes} {s : Bytes} :
    Bare (table.map List.reverse) s.reverse ↔ ∀ form ∈ table, ¬ form <:+ s := by
  simp only [Bare, List.forall_mem_map, List.reverse_prefix]

theorem strip?_eq_none_iff {table : List Bytes} (h : [] ∉ table) {s : Bytes} :
    strip? table s = none ↔ Bare table s := by
  simp only [strip?, List.findSome?_eq_none_iff, Bare]
  refine forall₂_congr fun form hform => ?_
  have hne : form.isEmpty = false := by
    cases form with
    | nil => exact absurd hform h
    | cons => rfl
  simp only [hne, Bool.false_eq_true, if_false]
  constructor
  · rintro hnone ⟨rest, rfl⟩
    have hsome := List.isPrefixOf?_eq_some_iff_append_eq.mpr (rfl : form ++ rest = form ++ rest)
    simp [hnone] at hsome
  · intro hbare
    cases hrest : form.isPrefixOf? s with
    | none => rfl
    | some rest => exact absurd ⟨rest, append_of_isPrefixOf? hrest⟩ hbare

theorem exists_form_of_strip? {table : List Bytes} {s rest : Bytes}
    (h : strip? table s = some rest) : ∃ form ∈ table, form ++ rest = s := by
  obtain ⟨form, hform, hrest⟩ := List.exists_of_findSome?_eq_some h
  split at hrest
  · simp at hrest
  · exact ⟨form, hform, append_of_isPrefixOf? hrest⟩

theorem strip?_append {table : List Bytes} (h : Unambiguous table) {form : Bytes}
    (hform : form ∈ table) (rest : Bytes) : strip? table (form ++ rest) = some rest := by
  cases hs : strip? table (form ++ rest) with
  | none =>
    have hbare := (strip?_eq_none_iff h.nonempty).mp hs
    exact absurd (List.prefix_append form rest) (hbare form hform)
  | some other =>
    obtain ⟨found, hfound, heq⟩ := exists_form_of_strip? hs
    -- Two forms at the front of one string: the shorter begins the longer.
    have hsame : found = form := by
      rcases List.prefix_or_prefix_of_prefix (List.prefix_append found other)
        (heq ▸ List.prefix_append form rest) with hp | hp
      · exact h.apart found hfound form hform hp
      · exact (h.apart form hform found hfound hp).symm
    subst hsame
    rw [List.append_cancel_left heq]

theorem stripAll_of_bare {table : List Bytes} (h : [] ∉ table) {s : Bytes} (hs : Bare table s) :
    stripAll table s = s := by
  have hnone := (strip?_eq_none_iff h).mpr hs
  rw [stripAll]
  split
  · rename_i rest hrest
    simp [hnone] at hrest
  · rfl

theorem stripAll_of_strip? {table : List Bytes} {s rest : Bytes} (h : strip? table s = some rest) :
    stripAll table s = stripAll table rest := by
  rw [stripAll]
  split
  · rename_i other hother
    rw [h] at hother
    rw [Option.some.inj hother]
  · rename_i hnone
    simp [hnone] at h

theorem stripAll_split {table : List Bytes} (h : [] ∉ table) (s : Bytes) :
    ∃ run, Run table run ∧ run ++ stripAll table s = s ∧ Bare table (stripAll table s) := by
  induction s using stripAll.induct table with
  | case1 s rest hstrip ih =>
    obtain ⟨run, hrun, hsplit, hbare⟩ := ih
    obtain ⟨form, hform, rfl⟩ := exists_form_of_strip? hstrip
    rw [stripAll_of_strip? hstrip]
    exact ⟨form ++ run, Run.cons hform hrun, by rw [List.append_assoc, hsplit], hbare⟩
  | case2 s hstrip =>
    have hbare := (strip?_eq_none_iff h).mp hstrip
    rw [stripAll_of_bare h hbare]
    exact ⟨[], Run.nil, rfl, hbare⟩

theorem stripAll_run_append {table : List Bytes} (h : Unambiguous table) {run s : Bytes}
    (hrun : Run table run) (hs : Bare table s) : stripAll table (run ++ s) = s := by
  induction hrun with
  | nil => exact stripAll_of_bare h.nonempty hs
  | cons hform _ ih =>
    rw [List.append_assoc, stripAll_of_strip? (strip?_append h hform _)]
    exact ih

/-- White space, a core without white space at its ends, and white space again. -/
structure Core (s core : Bytes) : Prop where
  split : ∃ before after, Run forms before ∧ Run forms after ∧ before ++ core ++ after = s
  front : Bare forms core
  back : ∀ form ∈ forms, ¬ form <:+ core

theorem bare_nil {table : List Bytes} (h : [] ∉ table) : Bare table [] := by
  intro form hform hp
  rw [List.prefix_nil.mp hp] at hform
  exact h hform

/-- No form goes on, after its first byte, with a byte that begins a form. -/
theorem head_notMem_tail : ∀ a ∈ forms, ∀ b ∈ forms, ∀ c ∈ a.tail, b.head? ≠ some c := by
  have hall : (forms.all fun a => forms.all fun b => a.tail.all fun c =>
      decide (b.head? ≠ some c)) = true := by decide +kernel
  simp only [List.all_eq_true, decide_eq_true_eq] at hall
  exact hall

theorem Run.head_mem {table : List Bytes} (h : [] ∉ table) {b : UInt8} {s : Bytes}
    (hs : Run table (b :: s)) : ∃ form ∈ table, form.head? = some b := by
  generalize hall : b :: s = all at hs
  cases hs with
  | nil => simp at hall
  | @cons form rest hform _ =>
    cases form with
    | nil => exact absurd hform h
    | cons c form =>
      simp only [List.cons_append, List.cons.injEq] at hall
      exact ⟨c :: form, hform, by simp [hall.1]⟩

/-- A core stays bare with white space behind it: a form that began in the core and ended behind it
would hold the first byte of another form. -/
theorem bare_append_run {core after : Bytes} (hne : core ≠ []) (hcore : Bare forms core)
    (hafter : Run forms after) : Bare forms (core ++ after) := by
  rintro form hform ⟨rest, hrest⟩
  have hnot : ¬ form <+: core := hcore form hform
  rcases List.append_eq_append_iff.mp hrest with ⟨more, hcoreEq, -⟩ | ⟨more, hformEq, hafterEq⟩
  · exact hnot ⟨more, hcoreEq.symm⟩
  · cases more with
    | nil => exact hnot ⟨[], by simpa using hformEq⟩
    | cons c more =>
      rw [hafterEq] at hafter
      obtain ⟨other, hother, hhead⟩ := hafter.head_mem unambiguous_forms.nonempty
      obtain ⟨b, core, rfl⟩ := List.exists_cons_of_ne_nil hne
      exact head_notMem_tail form hform other hother c (by simp [hformEq]) hhead

theorem core_trim (s : Bytes) : Core s (trim s) := by
  obtain ⟨before, hbefore, hfront, hbare⟩ := stripAll_split unambiguous_forms.nonempty s
  obtain ⟨after, hafter, hback, hbareBack⟩ :=
    stripAll_split unambiguous_reversed.nonempty (stripAll forms s).reverse
  have hsplit : trim s ++ after.reverse = stripAll forms s := by
    have h := congrArg List.reverse hback
    simpa [trim] using h
  refine ⟨⟨before, after.reverse, hbefore, run_of_reverse (by simpa using hafter), ?_⟩, ?_, ?_⟩
  · rw [List.append_assoc, hsplit, hfront]
  · intro form hform hp
    exact hbare form hform (hsplit ▸ hp.trans (List.prefix_append _ _))
  · exact bare_reverse_iff.mp (by simpa [trim] using hbareBack)

theorem trim_of_bare {s : Bytes} (front : Bare forms s) (back : ∀ form ∈ forms, ¬ form <:+ s) :
    trim s = s := by
  rw [trim, stripAll_of_bare unambiguous_forms.nonempty front,
    stripAll_of_bare unambiguous_reversed.nonempty (bare_reverse_iff.mpr back),
    List.reverse_reverse]

theorem trim_eq_of_core {s core : Bytes} (h : Core s core) : trim s = core := by
  obtain ⟨before, after, hbefore, hafter, rfl⟩ := h.split
  have hrun := stripAll_run_append unambiguous_reversed hafter.reverse (bare_reverse_iff.mpr h.back)
  by_cases hne : core = []
  · subst hne
    have hall : Run forms (before ++ after) := hbefore.append hafter
    have hstrip := stripAll_run_append unambiguous_forms hall
      (bare_nil unambiguous_forms.nonempty)
    simp only [List.append_nil] at hstrip ⊢
    rw [trim, hstrip, List.reverse_nil, stripAll_of_bare unambiguous_reversed.nonempty
      (bare_nil unambiguous_reversed.nonempty), List.reverse_nil]
  · have hstrip := stripAll_run_append unambiguous_forms hbefore
      (bare_append_run hne h.front hafter)
    rw [trim, List.append_assoc, hstrip, List.reverse_append, hrun, List.reverse_reverse]

/-- Trimming finds the core, and there is no other. -/
theorem core_iff {s core : Bytes} : Core s core ↔ trim s = core :=
  ⟨trim_eq_of_core, fun h => h ▸ core_trim s⟩

theorem trim_trim (s : Bytes) : trim (trim s) = trim s :=
  trim_of_bare (core_trim s).front (core_trim s).back

end Sardine.Blank
