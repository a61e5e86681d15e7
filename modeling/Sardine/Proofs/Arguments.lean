import Sardine.Settings.Flags
import Mathlib.Data.List.Induction
import Mathlib.Data.List.TakeWhile

/-! The flags among the arguments of an invocation.
A grammar tells which arguments are accepted: flags with their values, each in one of its spellings,
up to the end of the flags, and operands behind it. What comes of them is the last value of every
flag, and of the files to read from all of them in order. -/
namespace Sardine

namespace Flag

abbrev Value : Flag → Type
  | config => Bytes
  | noRaw => Bool
  | debug => Bool
  | dump => Bool
  | disasm => Bool
  | verbosity => Int
  | withFile => Bytes

def read? : (flag : Flag) → Bytes → Option flag.Value
  | config, text => some text
  | noRaw, text => Flags.switch? text
  | debug, text => Flags.switch? text
  | dump, text => Flags.switch? text
  | disasm, text => Flags.switch? text
  | verbosity, text => (Literal.signed text).toOption
  | withFile, text => some text

end Flag

structure Flag.Occurrence where
  flag : Flag
  value : flag.Value

namespace Flag.Occurrence

def valueFor? (flag : Flag) (o : Occurrence) : Option flag.Value :=
  if h : o.flag = flag then some (h ▸ o.value) else none

def values (flag : Flag) (given : List Occurrence) : List flag.Value :=
  given.filterMap (valueFor? flag)

@[simp] theorem values_nil (flag : Flag) : values flag [] = [] := rfl

@[simp] theorem values_concat (flag : Flag) (given : List Occurrence) (o : Occurrence) :
    values flag (given ++ [o]) = values flag given ++ (o.valueFor? flag).toList := by
  rw [values, List.filterMap_append, List.filterMap_cons, List.filterMap_nil]
  cases o.valueFor? flag <;> rfl

end Flag.Occurrence

namespace Flags

def IsDashes (dashes : Bytes) : Prop := dashes = utf8 "-" ∨ dashes = utf8 "--"

/-- An argument that is not taken for a flag. -/
def IsPlain (argument : Bytes) : Prop := argument = utf8 "-" ∨ argument.head? ≠ some dash

/-- Arguments, the flags that they give and the operands that are left. -/
inductive Gives : List Bytes → List Flag.Occurrence → List Bytes → Prop
  | nil : Gives [] [] []
  | operand {argument : Bytes} {rest : List Bytes} (h : IsPlain argument) :
      Gives (argument :: rest) [] (argument :: rest)
  | terminator {rest : List Bytes} : Gives (utf8 "--" :: rest) [] rest
  | bare {dashes : Bytes} {flag : Flag} {v : flag.Value} {rest : List Bytes}
      {given : List Flag.Occurrence} {operands : List Bytes} (hdashes : IsDashes dashes)
      (hswitch : isSwitch flag = true) (hread : flag.read? (utf8 "true") = some v)
      (hrest : Gives rest given operands) :
      Gives ((dashes ++ utf8 flag.name) :: rest) (⟨flag, v⟩ :: given) operands
  | joined {dashes : Bytes} {flag : Flag} {text : Bytes} {v : flag.Value} {rest : List Bytes}
      {given : List Flag.Occurrence} {operands : List Bytes} (hdashes : IsDashes dashes)
      (hread : flag.read? text = some v) (hrest : Gives rest given operands) :
      Gives ((dashes ++ (utf8 flag.name ++ equals :: text)) :: rest) (⟨flag, v⟩ :: given) operands
  | apart {dashes : Bytes} {flag : Flag} {text : Bytes} {v : flag.Value} {rest : List Bytes}
      {given : List Flag.Occurrence} {operands : List Bytes} (hdashes : IsDashes dashes)
      (hswitch : isSwitch flag = false) (hread : flag.read? text = some v)
      (hrest : Gives rest given operands) :
      Gives ((dashes ++ utf8 flag.name) :: text :: rest) (⟨flag, v⟩ :: given) operands

def suffix : Option Bytes → Bytes
  | none => []
  | some value => equals :: value

theorem splitValue_eq_iff {s name : Bytes} {value : Option Bytes} :
    splitValue s = (name, value) ↔ s = name ++ suffix value ∧ equals ∉ name := by
  constructor
  · intro h
    have hsplit := List.takeWhile_append_dropWhile (p := fun b => decide (b ≠ equals)) (l := s)
    have hfront : equals ∉ s.takeWhile (fun b => decide (b ≠ equals)) := fun hmem => by
      simpa using List.mem_takeWhile_imp hmem
    unfold splitValue at h
    split at h
    · rename_i hall
      obtain ⟨rfl, rfl⟩ := Prod.mk.inj h
      rw [hall, List.append_nil] at hsplit
      exact ⟨(List.append_nil s).symm, hsplit ▸ hfront⟩
    · rename_i b rest hrest
      obtain ⟨rfl, rfl⟩ := Prod.mk.inj h
      have hb : b = equals := by
        have hhead := List.head?_dropWhile_not (fun b => decide (b ≠ equals)) s
        rw [hrest] at hhead
        simpa using hhead
      rw [hrest, hb] at hsplit
      exact ⟨hsplit.symm, hfront⟩
  · rintro ⟨rfl, hname⟩
    have hall : ∀ b ∈ name, decide (b ≠ equals) = true := fun b hb =>
      decide_eq_true fun h => hname (h ▸ hb)
    unfold splitValue
    rw [List.takeWhile_append_of_pos hall, List.dropWhile_append_of_pos hall]
    cases value with
    | none => simp [suffix]
    | some value => simp [suffix]

theorem shapeOfName_eq_flag_iff {s name : Bytes} {value : Option Bytes} :
    shapeOfName s = .flag name value ↔
      s = name ++ suffix value ∧ equals ∉ name ∧ ∃ b ∈ name.head?, b ≠ dash := by
  constructor
  · intro h
    unfold shapeOfName at h
    split at h
    · contradiction
    · rename_i b rest
      split at h
      · contradiction
      · rename_i hb
        simp only [Bool.or_eq_true, decide_eq_true_eq, not_or] at hb
        obtain ⟨hname, hvalue⟩ := Shape.flag.inj h
        obtain ⟨hsplit, hequals⟩ := splitValue_eq_iff.mp (Prod.ext hname hvalue)
        refine ⟨hsplit, hequals, ?_⟩
        cases name with
        | nil =>
          cases value with
          | none => simp [suffix] at hsplit
          | some value =>
            obtain ⟨rfl, -⟩ := List.cons.inj hsplit
            exact absurd rfl hb.2
        | cons c name =>
          obtain ⟨rfl, -⟩ := List.cons.inj hsplit
          exact ⟨b, rfl, hb.1⟩
  · rintro ⟨rfl, hequals, b, hb, hdash⟩
    obtain ⟨rest, rfl⟩ := List.head?_eq_some_iff.mp hb
    have hne : b ≠ equals := fun h => hequals (h ▸ List.mem_cons_self)
    have hsplit : splitValue (b :: rest ++ suffix value) = (b :: rest, value) :=
      splitValue_eq_iff.mpr ⟨rfl, hequals⟩
    simp only [List.cons_append] at hsplit ⊢
    simp [shapeOfName, hdash, hne, hsplit]

theorem one_dash : utf8 "-" = [dash] := by decide +kernel

theorem two_dashes : utf8 "--" = [dash, dash] := by decide +kernel

theorem shape_eq_flag_iff {argument name : Bytes} {value : Option Bytes} :
    shape argument = .flag name value ↔ ∃ dashes, IsDashes dashes ∧
      argument = dashes ++ (name ++ suffix value) ∧ equals ∉ name ∧ ∃ b ∈ name.head?, b ≠ dash := by
  constructor
  · intro h
    unfold shape at h
    split at h
    · contradiction
    · obtain ⟨rfl, hname⟩ := shapeOfName_eq_flag_iff.mp h
      exact ⟨utf8 "--", Or.inr rfl, by rw [two_dashes]; rfl, hname⟩
    · obtain ⟨hsplit, hname⟩ := shapeOfName_eq_flag_iff.mp h
      exact ⟨utf8 "-", Or.inl rfl, by rw [one_dash, hsplit]; rfl, hname⟩
    · contradiction
  · rintro ⟨dashes, hdashes, rfl, hequals, b, hb, hdash⟩
    have hname : shapeOfName (name ++ suffix value) = .flag name value :=
      shapeOfName_eq_flag_iff.mpr ⟨rfl, hequals, b, hb, hdash⟩
    obtain ⟨rest, rfl⟩ := List.head?_eq_some_iff.mp hb
    rcases hdashes with rfl | rfl
    · rw [one_dash, ← hname]
      show shape (45 :: b :: (rest ++ suffix value)) = shapeOfName (b :: (rest ++ suffix value))
      unfold shape
      split <;> simp_all [dash]
    · rw [two_dashes, ← hname]
      rfl

theorem shapeOfName_ne (s : Bytes) : shapeOfName s ≠ .operand ∧ shapeOfName s ≠ .terminator := by
  unfold shapeOfName
  split
  · simp
  · split <;> simp

theorem shape_eq_operand_iff {argument : Bytes} : shape argument = .operand ↔ IsPlain argument := by
  rw [IsPlain, one_dash]
  constructor
  · intro h
    unfold shape at h
    split at h
    · contradiction
    · exact absurd h (shapeOfName_ne _).1
    · exact absurd h (shapeOfName_ne _).1
    · rename_i hone
      match argument with
      | [] => exact Or.inr (by simp)
      | [b] => simpa using em (b = dash)
      | b :: c :: rest =>
        exact Or.inr fun hb => hone c rest (congrArg (· :: c :: rest) (Option.some.inj hb))
  · rintro (rfl | hhead)
    · rfl
    · unfold shape
      split
      · exact absurd rfl hhead
      · exact absurd rfl hhead
      · exact absurd rfl hhead
      · rfl

theorem shape_eq_terminator_iff {argument : Bytes} :
    shape argument = .terminator ↔ argument = utf8 "--" := by
  rw [two_dashes]
  constructor
  · intro h
    unfold shape at h
    split at h
    · rfl
    · exact absurd h (shapeOfName_ne _).2
    · exact absurd h (shapeOfName_ne _).2
    · contradiction
  · rintro rfl
    rfl

theorem ofName?_eq_some_iff {name : Bytes} {flag : Flag} :
    Flag.ofName? name = some flag ↔ name = utf8 flag.name := by
  have hnames : ∀ f : Flag, Flag.ofName? (utf8 f.name) = some f := by
    intro f
    cases f <;> decide +kernel
  constructor
  · intro h
    have hname := List.find?_some (show Flag.all.find? _ = some flag from h)
    exact (of_decide_eq_true hname).symm
  · rintro rfl
    exact hnames flag

def note (flags : Flags) : Flag.Occurrence → Flags
  | ⟨.config, name⟩ => { flags with config := some name }
  | ⟨.noRaw, on⟩ => { flags with noRaw := some on }
  | ⟨.debug, on⟩ => { flags with debug := some on }
  | ⟨.dump, on⟩ => { flags with dump := some on }
  | ⟨.disasm, on⟩ => { flags with disasm := some on }
  | ⟨.verbosity, n⟩ => { flags with verbosity := some n }
  | ⟨.withFile, name⟩ => { flags with withFiles := flags.withFiles ++ [name] }

theorem set_eq_ok_iff {flags after : Flags} {flag : Flag} {text : Bytes} :
    flags.set flag text = .ok after ↔
      ∃ v, flag.read? text = some v ∧ after = flags.note ⟨flag, v⟩ := by
  cases flag with
  | config => simp [set, Flag.read?, note, eq_comm]
  | withFile => simp [set, Flag.read?, note, eq_comm]
  | verbosity =>
    simp only [set, Flag.read?, note]
    cases Literal.signed text <;> simp [Except.toOption, eq_comm]
  | noRaw => cases h : switch? text <;> simp [set, Flag.read?, note, setSwitch, h, eq_comm]
  | debug => cases h : switch? text <;> simp [set, Flag.read?, note, setSwitch, h, eq_comm]
  | dump => cases h : switch? text <;> simp [set, Flag.read?, note, setSwitch, h, eq_comm]
  | disasm => cases h : switch? text <;> simp [set, Flag.read?, note, setSwitch, h, eq_comm]

theorem shape_spelled {dashes : Bytes} (h : IsDashes dashes) (flag : Flag) (value : Option Bytes) :
    shape (dashes ++ (utf8 flag.name ++ suffix value)) = .flag (utf8 flag.name) value := by
  have hname : equals ∉ utf8 flag.name ∧ ∃ b ∈ (utf8 flag.name).head?, b ≠ dash := by
    cases flag <;> decide +kernel
  exact shape_eq_flag_iff.mpr ⟨dashes, h, rfl, hname⟩

theorem exists_spelled {argument name : Bytes} {flag : Flag} {value : Option Bytes}
    (hshape : shape argument = .flag name value) (hname : Flag.ofName? name = some flag) :
    ∃ dashes, IsDashes dashes ∧ argument = dashes ++ (utf8 flag.name ++ suffix value) := by
  obtain ⟨dashes, hdashes, harg, -⟩ := shape_eq_flag_iff.mp hshape
  exact ⟨dashes, hdashes, ofName?_eq_some_iff.mp hname ▸ harg⟩

theorem bind_set_eq_ok_iff {flags : Flags} {flag : Flag} {text : Bytes} {rest : List Bytes}
    {result : Flags × List Bytes} :
    ((flags.set flag text).bind fun flags => parse flags rest) = .ok result ↔
      ∃ v, flag.read? text = some v ∧ parse (flags.note ⟨flag, v⟩) rest = .ok result := by
  constructor
  · intro h
    cases hset : flags.set flag text with
    | error fault => simp [hset, Except.bind] at h
    | ok next =>
      obtain ⟨v, hread, rfl⟩ := set_eq_ok_iff.mp hset
      rw [hset] at h
      exact ⟨v, hread, h⟩
  · rintro ⟨v, hread, h⟩
    rw [set_eq_ok_iff.mpr ⟨v, hread, rfl⟩]
    exact h

theorem gives_of_parse {flags after : Flags} {args operands : List Bytes}
    (h : parse flags args = .ok (after, operands)) :
      ∃ given, Gives args given operands ∧ after = given.foldl note flags := by
  fun_induction parse flags args with
  | case1 flags =>
    obtain ⟨rfl, rfl⟩ := Prod.mk.inj (Except.ok.inj h)
    exact ⟨[], .nil, rfl⟩
  | case2 flags argument rest hshape =>
    obtain ⟨rfl, rfl⟩ := Prod.mk.inj (Except.ok.inj h)
    exact ⟨[], .operand (shape_eq_operand_iff.mp hshape), rfl⟩
  | case3 flags argument rest hshape =>
    obtain ⟨rfl, rfl⟩ := Prod.mk.inj (Except.ok.inj h)
    obtain rfl := shape_eq_terminator_iff.mp hshape
    exact ⟨[], .terminator, rfl⟩
  | case4 | case5 | case6 | case9 => contradiction
  | case7 flags argument rest name flag hname text hshape ih =>
    obtain ⟨dashes, hdashes, rfl⟩ := exists_spelled hshape hname
    obtain ⟨v, hread, hrest⟩ := bind_set_eq_ok_iff.mp h
    obtain ⟨given, hgives, rfl⟩ := ih _ hrest
    exact ⟨⟨flag, v⟩ :: given, .joined hdashes hread hgives, rfl⟩
  | case8 flags argument rest name flag hname hswitch hshape ih =>
    obtain ⟨dashes, hdashes, rfl⟩ := exists_spelled hshape hname
    obtain ⟨v, hread, hrest⟩ := bind_set_eq_ok_iff.mp h
    obtain ⟨given, hgives, rfl⟩ := ih _ hrest
    rw [suffix, List.append_nil]
    exact ⟨⟨flag, v⟩ :: given, .bare hdashes hswitch hread hgives, rfl⟩
  | case10 flags argument name flag hname hswitch text rest hshape ih =>
    obtain ⟨dashes, hdashes, rfl⟩ := exists_spelled hshape hname
    obtain ⟨v, hread, hrest⟩ := bind_set_eq_ok_iff.mp h
    obtain ⟨given, hgives, rfl⟩ := ih _ hrest
    rw [suffix, List.append_nil]
    exact ⟨⟨flag, v⟩ :: given, .apart hdashes (by simpa using hswitch) hread hgives, rfl⟩

theorem parse_of_gives {flags : Flags} {args operands : List Bytes} {given : List Flag.Occurrence}
    (h : Gives args given operands) :
    parse flags args = .ok (given.foldl note flags, operands) := by
  induction h generalizing flags with
  | nil => rfl
  | operand hplain => simp [parse, shape_eq_operand_iff.mpr hplain]
  | terminator => simp [parse, shape_eq_terminator_iff.mpr rfl]
  | @bare dashes flag v rest given operands hdashes hswitch hread _ ih =>
    have hshape := shape_spelled hdashes flag none
    rw [suffix, List.append_nil] at hshape
    simp only [parse, hshape, ofName?_eq_some_iff.mpr rfl, hswitch, if_true]
    exact bind_set_eq_ok_iff.mpr ⟨v, hread, ih⟩
  | @joined dashes flag text v rest given operands hdashes hread _ ih =>
    have hshape := shape_spelled hdashes flag (some text)
    simp only [suffix] at hshape
    simp only [parse, hshape, ofName?_eq_some_iff.mpr rfl]
    exact bind_set_eq_ok_iff.mpr ⟨v, hread, ih⟩
  | @apart dashes flag text v rest given operands hdashes hswitch hread _ ih =>
    have hshape := shape_spelled hdashes flag none
    rw [suffix, List.append_nil] at hshape
    simp only [parse, hshape, ofName?_eq_some_iff.mpr rfl, hswitch]
    exact bind_set_eq_ok_iff.mpr ⟨v, hread, ih⟩

theorem parse_eq_ok_iff {flags after : Flags} {args operands : List Bytes} :
    parse flags args = .ok (after, operands) ↔
      ∃ given, Gives args given operands ∧ after = given.foldl note flags := by
  refine ⟨gives_of_parse, ?_⟩
  rintro ⟨given, hgives, rfl⟩
  exact parse_of_gives hgives

open Flag.Occurrence (values) in
/-- What flags come to: of each the last value counts, of the files to read from every one. -/
def ofGiven (given : List Flag.Occurrence) : Flags where
  config := (values .config given).getLast?
  noRaw := (values .noRaw given).getLast?
  debug := (values .debug given).getLast?
  dump := (values .dump given).getLast?
  disasm := (values .disasm given).getLast?
  verbosity := (values .verbosity given).getLast?
  withFiles := values .withFile given

theorem foldl_note (given : List Flag.Occurrence) : given.foldl note {} = ofGiven given := by
  induction given using List.reverseRecOn with
  | nil => rfl
  | append_singleton given o ih =>
    rw [List.foldl_append, List.foldl_cons, List.foldl_nil, ih]
    obtain ⟨flag, v⟩ := o
    cases flag <;> simp [note, ofGiven, Flag.Occurrence.valueFor?]

end Flags

end Sardine
