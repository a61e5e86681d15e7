import Sardine.Text.Bytes

/-! White space and trimming.
A blank is stripped by its encoded form, so bytes that are not UTF-8 stay as they are. -/
namespace Sardine.Blank

def forms : List Bytes :=
  [[9], [10], [11], [12], [13], [32],
    [0xC2, 0x85], [0xC2, 0xA0], [0xE1, 0x9A, 0x80],
    [0xE2, 0x80, 0x80], [0xE2, 0x80, 0x81], [0xE2, 0x80, 0x82], [0xE2, 0x80, 0x83],
    [0xE2, 0x80, 0x84], [0xE2, 0x80, 0x85], [0xE2, 0x80, 0x86], [0xE2, 0x80, 0x87],
    [0xE2, 0x80, 0x88], [0xE2, 0x80, 0x89], [0xE2, 0x80, 0x8A],
    [0xE2, 0x80, 0xA8], [0xE2, 0x80, 0xA9], [0xE2, 0x80, 0xAF],
    [0xE2, 0x81, 0x9F], [0xE3, 0x80, 0x80]]

/-- What follows the first of the given forms that `s` begins with. -/
def strip? (forms : List Bytes) (s : Bytes) : Option Bytes :=
  forms.findSome? fun form => if form.isEmpty then none else form.isPrefixOf? s

theorem append_of_isPrefixOf? {form s rest : Bytes} (h : form.isPrefixOf? s = some rest) :
    form ++ rest = s := by
  induction form generalizing s with
  | nil => exact (Option.some.inj h).symm
  | cons b form ih =>
    cases s with
    | nil =>
      have hnone : (none : Option Bytes) = some rest := h
      simp at hnone
    | cons c s =>
      have hstep : (if b == c then form.isPrefixOf? s else none) = some rest := h
      split at hstep
      · rename_i hbc
        simp [ih hstep, eq_of_beq hbc]
      · simp at hstep

theorem length_strip?_lt {forms : List Bytes} {s rest : Bytes} (h : strip? forms s = some rest) :
    rest.length < s.length := by
  obtain ⟨form, -, hform⟩ := List.exists_of_findSome?_eq_some h
  split at hform
  · simp at hform
  · rename_i hne
    have := append_of_isPrefixOf? hform
    cases form with
    | nil => simp at hne
    | cons b form =>
      simp only [← this, List.length_append, List.length_cons]
      omega

/-- `s` from the first place where none of the given forms stands. -/
def stripAll (forms : List Bytes) (s : Bytes) : Bytes :=
  match _strip : strip? forms s with
  | some rest => stripAll forms rest
  | none => s
termination_by s.length
decreasing_by exact length_strip?_lt _strip

def trim (s : Bytes) : Bytes :=
  (stripAll (forms.map List.reverse) (stripAll forms s).reverse).reverse

@[simp] theorem trim_nil : trim [] = [] := by decide +kernel

end Sardine.Blank
