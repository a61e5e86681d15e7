import Sardine.Source.Lines
import Sardine.Proofs.Trimming
import Mathlib.Data.List.Forall2

/-! The texts of a source.
A scan from left to right finds the lines; of each line its core counts, if it is not empty. Texts
put on lines of their own are found again. -/
namespace Sardine

theorem Bytes.splitAt_cons_ne {sep b : UInt8} (h : b ≠ sep) (s : Bytes) :
    splitAt sep (b :: s) = (splitAt sep s).modifyHead (b :: ·) := by
  rw [splitAt, if_neg h]
  cases hs : splitAt sep s with
  | nil => exact absurd hs (splitAt_ne_nil sep s)
  | cons part parts => rfl

@[simp] theorem Bytes.splitAt_cons_self (sep : UInt8) (s : Bytes) :
    splitAt sep (sep :: s) = [] :: splitAt sep s := by
  rw [splitAt, if_pos rfl]

namespace Source

def EndsLine (b : UInt8) : Prop := b = Bytes.newline ∨ b = Bytes.carriageReturn

instance (b : UInt8) : Decidable (EndsLine b) := inferInstanceAs (Decidable (_ ∨ _))

theorem endsLine_newline : EndsLine Bytes.newline := Or.inl rfl

theorem not_pair_of_not_endsLine {a : UInt8} (h : ¬ EndsLine a) (b : UInt8) :
    ¬ (a = Bytes.carriageReturn ∧ b = Bytes.newline) :=
  fun hab => h (Or.inr hab.1)

/-- The lines from left to right: CR LF ends a line once, any other LF or CR by itself. -/
def scan : Bytes → List Bytes
  | [] => [[]]
  | [b] => if EndsLine b then [[], []] else [[b]]
  | a :: b :: rest =>
    if a = Bytes.carriageReturn ∧ b = Bytes.newline then [] :: scan rest
    else if EndsLine a then [] :: scan (b :: rest)
    else (scan (b :: rest)).modifyHead (a :: ·)

theorem splitAt_cons_returnsToNewlines (a : UInt8) (s : Bytes) :
    Bytes.splitAt Bytes.newline (returnsToNewlines (a :: s)) =
      if EndsLine a then [] :: Bytes.splitAt Bytes.newline (returnsToNewlines s)
      else (Bytes.splitAt Bytes.newline (returnsToNewlines s)).modifyHead (a :: ·) := by
  by_cases hr : a = Bytes.carriageReturn
  · simp [returnsToNewlines, EndsLine, hr]
  · by_cases hn : a = Bytes.newline
    · simp [returnsToNewlines, EndsLine, hn]
    · simp [returnsToNewlines, EndsLine, hr, hn, Bytes.splitAt_cons_ne hn]

theorem lines_eq_scan (source : Bytes) : lines source = scan source := by
  unfold lines
  fun_induction scan source with
  | case1 => rfl
  | case2 b h =>
    rw [joinPairs, splitAt_cons_returnsToNewlines, if_pos h]
    rfl
  | case3 b h =>
    rw [joinPairs, splitAt_cons_returnsToNewlines, if_neg h]
    rfl
  | case4 a b rest h ih =>
    rw [joinPairs, if_pos h, splitAt_cons_returnsToNewlines, if_pos endsLine_newline, ih]
  | case5 a b rest h hend ih =>
    rw [joinPairs, if_neg h, splitAt_cons_returnsToNewlines, if_pos hend, ih]
  | case6 a b rest h hend ih =>
    rw [joinPairs, if_neg h, splitAt_cons_returnsToNewlines, if_neg hend, ih]

theorem scan_ne_nil (source : Bytes) : scan source ≠ [] :=
  lines_eq_scan source ▸ lines_ne_nil source

def Unbroken (s : Bytes) : Prop := ∀ b ∈ s, ¬ EndsLine b

theorem unbroken_of_mem_scan {source part : Bytes} (h : part ∈ scan source) : Unbroken part := by
  fun_induction scan source generalizing part with
  | case1 => simp_all [Unbroken]
  | case2 b hb => simp_all [Unbroken]
  | case3 b hb => simp_all [Unbroken]
  | case4 a b rest hab ih =>
    rcases List.mem_cons.mp h with rfl | h
    · simp [Unbroken]
    · exact ih h
  | case5 a b rest hab ha ih =>
    rcases List.mem_cons.mp h with rfl | h
    · simp [Unbroken]
    · exact ih h
  | case6 a b rest hab ha ih =>
    obtain ⟨first, others, hscan⟩ := List.exists_cons_of_ne_nil (scan_ne_nil (b :: rest))
    rw [hscan] at h ih
    rcases List.mem_cons.mp h with rfl | h
    · intro c hc
      rcases List.mem_cons.mp hc with rfl | hc
      · exact ha
      · exact ih List.mem_cons_self c hc
    · exact ih (List.mem_cons_of_mem _ h)

/-- The texts of a source: the cores of its lines, without those that are empty. -/
def HasTexts (source : Bytes) (texts : List Bytes) : Prop :=
  ∃ cores, List.Forall₂ Blank.Core (scan source) cores ∧ cores.filter (! ·.isEmpty) = texts

def texts (source : Bytes) : List Bytes := (numberedLines source).map Line.text

theorem texts_eq (source : Bytes) :
    texts source = ((scan source).map Blank.trim).filter (! ·.isEmpty) := by
  rw [texts, numberedLines, lines_eq_scan]
  generalize scan source = parts
  generalize 1 = number
  induction parts generalizing number with
  | nil => rfl
  | cons part parts ih =>
    have ih := ih (number + 1)
    cases htrim : Blank.trim part <;> simp_all

/-- Every source has its texts, and no others. -/
theorem hasTexts_iff {source : Bytes} {ts : List Bytes} :
    HasTexts source ts ↔ texts source = ts := by
  have hcores : ∀ parts cores,
      List.Forall₂ Blank.Core parts cores ↔ parts.map Blank.trim = cores := by
    intro parts cores
    have hcore : Blank.Core = fun part core => Blank.trim part = core := by
      funext part core
      exact propext Blank.core_iff
    rw [hcore, ← List.forall₂_map_left_iff, List.forall₂_eq_eq_eq]
  simp only [HasTexts, hcores, texts_eq, exists_eq_left']

/-- What can stand on a line of its own and is found there again. -/
structure IsText (t : Bytes) : Prop where
  nonempty : t ≠ []
  trimmed : Blank.trim t = t
  unbroken : Unbroken t

theorem isText_of_mem_texts {source t : Bytes} (h : t ∈ texts source) : IsText t := by
  rw [texts_eq, List.mem_filter] at h
  obtain ⟨hmem, hne⟩ := h
  obtain ⟨part, hpart, rfl⟩ := List.mem_map.mp hmem
  refine ⟨by simpa using hne, Blank.trim_trim part, fun b hb => ?_⟩
  obtain ⟨before, after, -, -, hsplit⟩ := (Blank.core_trim part).split
  exact unbroken_of_mem_scan hpart b (hsplit ▸ by simp [hb])

theorem scan_of_unbroken {part : Bytes} (h : Unbroken part) : scan part = [part] := by
  induction part with
  | nil => rfl
  | cons a part ih =>
    have ha : ¬ EndsLine a := h a List.mem_cons_self
    have ih := ih fun b hb => h b (List.mem_cons_of_mem _ hb)
    cases part with
    | nil => simp [scan, ha]
    | cons b part =>
      rw [scan, if_neg (not_pair_of_not_endsLine ha b), if_neg ha, ih]
      rfl

theorem scan_append_newline {part : Bytes} (h : Unbroken part) (rest : Bytes) :
    scan (part ++ Bytes.newline :: rest) = part :: scan rest := by
  induction part with
  | nil =>
    cases rest with
    | nil => rfl
    | cons b rest =>
      have hpair : ¬ (Bytes.newline = Bytes.carriageReturn ∧ b = Bytes.newline) :=
        fun hab => absurd hab.1 (by decide)
      rw [List.nil_append, scan, if_neg hpair, if_pos endsLine_newline]
  | cons a part ih =>
    have ha : ¬ EndsLine a := h a List.mem_cons_self
    have ih := ih fun b hb => h b (List.mem_cons_of_mem _ hb)
    obtain ⟨b, tail, htail⟩ := List.exists_cons_of_ne_nil
      (List.append_ne_nil_of_right_ne_nil part (List.cons_ne_nil Bytes.newline rest))
    rw [htail] at ih
    rw [List.cons_append, htail, scan, if_neg (not_pair_of_not_endsLine ha b), if_neg ha, ih]
    rfl

theorem scan_join {ts : List Bytes} (hne : ts ≠ []) (h : ∀ t ∈ ts, Unbroken t) :
    scan (Bytes.join [Bytes.newline] ts) = ts := by
  induction ts with
  | nil => exact absurd rfl hne
  | cons t ts ih =>
    have ht : Unbroken t := h t List.mem_cons_self
    cases ts with
    | nil => exact scan_of_unbroken ht
    | cons u ts =>
      have ih := ih (List.cons_ne_nil u ts) fun v hv => h v (List.mem_cons_of_mem _ hv)
      rw [Bytes.join, List.append_assoc, List.singleton_append, scan_append_newline ht, ih]
      simp

theorem texts_join {ts : List Bytes} (h : ∀ t ∈ ts, IsText t) :
    texts (Bytes.join [Bytes.newline] ts) = ts := by
  by_cases hne : ts = []
  · subst hne
    simp [texts_eq, scan]
  · rw [texts_eq, scan_join hne fun t ht => (h t ht).unbroken]
    have htrim : ts.map Blank.trim = ts := by
      rw [List.map_congr_left fun t ht => (h t ht).trimmed, List.map_id']
    rw [htrim, List.filter_eq_self]
    intro t ht
    simpa using (h t ht).nonempty

end Source

end Sardine
