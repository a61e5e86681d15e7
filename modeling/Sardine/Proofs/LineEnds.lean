import Sardine.Source.Compile
import Sardine.Proofs.LineScan

/-! How the lines of a source end does not matter.
A source is cut in one way into lines and their ends, if a CR takes an LF behind it into the end.
Made alike, the ends still are the ends of the same lines, so that the lines keep their numbers. -/
namespace Sardine

namespace Source

inductive Ending
  | newline
  | carriageReturn
  | pair
  deriving DecidableEq, Repr

def Ending.bytes : Ending → Bytes
  | newline => [Bytes.newline]
  | carriageReturn => [Bytes.carriageReturn]
  | pair => [Bytes.carriageReturn, Bytes.newline]

/-- A source cut into lines, each of them but the last one with its end. -/
inductive Cut
  | last (line : Bytes)
  | ended (line : Bytes) (ending : Ending) (rest : Cut)
  deriving DecidableEq, Repr

namespace Cut

def text : Cut → Bytes
  | last line => line
  | ended line ending rest => line ++ (ending.bytes ++ rest.text)

def lines : Cut → List Bytes
  | last line => [line]
  | ended line _ rest => line :: rest.lines

def withEnds (ending : Ending) : Cut → Cut
  | last line => last line
  | ended line _ rest => ended line ending (rest.withEnds ending)

/-- No line holds an end, and no end could take in more of what stands behind it. -/
def Greedy : Cut → Prop
  | last line => Unbroken line
  | ended line ending rest =>
    Unbroken line ∧
      (ending = .carriageReturn → rest.text.head? ≠ some Bytes.newline) ∧ rest.Greedy

def push (b : UInt8) : Cut → Cut
  | last line => last (b :: line)
  | ended line ending rest => ended (b :: line) ending rest

@[simp] theorem text_push (b : UInt8) (c : Cut) : (c.push b).text = b :: c.text := by
  cases c <;> rfl

@[simp] theorem lines_push (b : UInt8) (c : Cut) :
    (c.push b).lines = c.lines.modifyHead (b :: ·) := by
  cases c <;> rfl

@[simp] theorem lines_withEnds (ending : Ending) (c : Cut) :
    (c.withEnds ending).lines = c.lines := by
  induction c with
  | last line => rfl
  | ended line _ rest ih => exact congrArg (line :: ·) ih

theorem Greedy.push {c : Cut} (h : c.Greedy) {b : UInt8} (hb : ¬ EndsLine b) :
    (c.push b).Greedy := by
  cases c with
  | last line => exact List.forall_mem_cons.mpr ⟨hb, h⟩
  | ended line ending rest => exact ⟨List.forall_mem_cons.mpr ⟨hb, h.1⟩, h.2⟩

theorem head?_of_unbroken {line : Bytes} (h : Unbroken line) : line.head? ≠ some Bytes.newline := by
  intro hhead
  exact h _ (List.mem_of_head? hhead) endsLine_newline

/-- With a CR at the end of every line, no CR has an LF behind it. -/
theorem Greedy.withEnds {c : Cut} (h : c.Greedy) (ending : Ending) :
    (c.withEnds ending).Greedy := by
  induction c with
  | last line => exact h
  | ended line _ rest ih =>
    refine ⟨h.1, fun hreturn => ?_, ih h.2.2⟩
    subst hreturn
    cases rest with
    | last next => exact head?_of_unbroken h.2.2
    | ended next _ more =>
      cases next with
      | nil => simp [Cut.withEnds, text, Ending.bytes, Bytes.carriageReturn, Bytes.newline]
      | cons b next =>
        show (b :: next).head? ≠ some Bytes.newline
        exact head?_of_unbroken h.2.2.1

end Cut

/-- The cut found from left to right: a CR takes an LF behind it into the end of the line. -/
def cut : Bytes → Cut
  | [] => .last []
  | [b] =>
    if b = Bytes.newline then .ended [] .newline (.last [])
    else if b = Bytes.carriageReturn then .ended [] .carriageReturn (.last [])
    else .last [b]
  | a :: b :: rest =>
    if a = Bytes.newline then .ended [] .newline (cut (b :: rest))
    else if a = Bytes.carriageReturn then
      if b = Bytes.newline then .ended [] .pair (cut rest)
      else .ended [] .carriageReturn (cut (b :: rest))
    else (cut (b :: rest)).push a

theorem unbroken_nil : Unbroken [] := List.forall_mem_nil _

theorem not_endsLine {b : UInt8} (hn : ¬ b = Bytes.newline) (hr : ¬ b = Bytes.carriageReturn) :
    ¬ EndsLine b := fun h => h.elim hn hr

theorem text_cut (source : Bytes) : (cut source).text = source := by
  fun_induction cut source <;> simp_all [Cut.text, Ending.bytes]

theorem greedy_cut (source : Bytes) : (cut source).Greedy := by
  fun_induction cut source with
  | case1 => exact unbroken_nil
  | case2 => exact ⟨unbroken_nil, by simp, unbroken_nil⟩
  | case3 hne => exact ⟨unbroken_nil, by simp [Cut.text], unbroken_nil⟩
  | case4 b hn hr => exact List.forall_mem_singleton.mpr (not_endsLine hn hr)
  | case5 b rest ih => exact ⟨unbroken_nil, by simp, ih⟩
  | case6 rest hne ih => exact ⟨unbroken_nil, by simp, ih⟩
  | case7 b rest hb hne ih => exact ⟨unbroken_nil, by simpa [text_cut] using hb, ih⟩
  | case8 a b rest hn hr ih => exact ih.push (not_endsLine hn hr)

theorem lines_cut (source : Bytes) : (cut source).lines = scan source := by
  fun_induction cut source <;>
    simp_all [Cut.lines, scan, EndsLine, Bytes.newline, Bytes.carriageReturn]

theorem cut_cons {b : UInt8} (h : ¬ EndsLine b) (s : Bytes) : cut (b :: s) = (cut s).push b := by
  obtain ⟨hn, hr⟩ := not_or.mp h
  cases s <;> simp [cut, hn, hr, Cut.push]

theorem cut_ending {ending : Ending} {rest : Bytes}
    (h : ending = .carriageReturn → rest.head? ≠ some Bytes.newline) :
    cut (ending.bytes ++ rest) = .ended [] ending (cut rest) := by
  have hne : ¬ Bytes.carriageReturn = Bytes.newline := by decide
  cases ending with
  | newline => cases rest <;> simp [Ending.bytes, cut]
  | pair => simp [Ending.bytes, cut, hne]
  | carriageReturn =>
    have hhead := h rfl
    cases rest with
    | nil => simp [Ending.bytes, cut, hne]
    | cons b rest =>
      have hb : ¬ b = Bytes.newline := by simpa using hhead
      simp [Ending.bytes, cut, hne, hb]

theorem cut_of_unbroken {line : Bytes} (h : Unbroken line) : cut line = .last line := by
  induction line with
  | nil => rfl
  | cons b line ih =>
    obtain ⟨hb, hline⟩ := List.forall_mem_cons.mp h
    rw [cut_cons hb, ih hline, Cut.push]

theorem cut_ended {line : Bytes} (hline : Unbroken line) {ending : Ending} {rest : Bytes}
    (h : ending = .carriageReturn → rest.head? ≠ some Bytes.newline) :
    cut (line ++ (ending.bytes ++ rest)) = .ended line ending (cut rest) := by
  induction line with
  | nil => exact cut_ending h
  | cons b line ih =>
    obtain ⟨hb, hline⟩ := List.forall_mem_cons.mp hline
    rw [List.cons_append, cut_cons hb, ih hline, Cut.push]

/-- A cut that takes all it can into the ends is the one that is found. -/
theorem cut_text {c : Cut} (h : c.Greedy) : cut c.text = c := by
  induction c with
  | last line => exact cut_of_unbroken h
  | ended line ending rest ih =>
    obtain ⟨hline, hending, hrest⟩ := h
    rw [Cut.text, cut_ended hline hending, ih hrest]

theorem lines_text_withEnds (source : Bytes) (ending : Ending) :
    lines ((cut source).withEnds ending).text = lines source := by
  rw [lines_eq_scan, ← lines_cut, cut_text ((greedy_cut source).withEnds ending),
    Cut.lines_withEnds, lines_cut, lines_eq_scan]

theorem numberedLines_congr {source other : Bytes} (h : lines source = lines other) :
    numberedLines source = numberedLines other := by
  rw [numberedLines, h, numberedLines]

end Source

/-- The lines of a source are those of one scan from left to right. It cuts the source in the only
way in which every end is as long as it can be, and if all ends are made an LF, or a CR, or a CR LF,
the source compiles to the same program or is rejected with the same diagnostics. -/
theorem line_ends_unobservable (name source : Bytes) :
    Source.lines source = Source.scan source ∧
      Source.lines source = (Source.cut source).lines ∧
      (∀ other : Source.Cut, other.text = source ∧ other.Greedy ↔ other = Source.cut source) ∧
      ∀ ending, compile name ((Source.cut source).withEnds ending).text = compile name source := by
  refine ⟨Source.lines_eq_scan source, ?_, fun other => ⟨?_, ?_⟩, fun ending => ?_⟩
  · rw [Source.lines_cut, Source.lines_eq_scan]
  · rintro ⟨rfl, hgreedy⟩
    exact (Source.cut_text hgreedy).symm
  · rintro rfl
    exact ⟨Source.text_cut source, Source.greedy_cut source⟩
  · have hlines := Source.lines_text_withEnds source ending
    rw [compile, Source.numberedLines_congr hlines, compile]

/-- Of CR CR LF LF CR the first, the pair, the LF and the last CR end a line each. -/
example : Source.lines [13, 13, 10, 10, 13] = [[], [], [], [], []] := by decide

end Sardine
