import Mathlib.Algebra.Group.Nat.Defs
import Mathlib.Data.List.Nodup
import Mathlib.Data.List.TakeWhile
import SevlaMq.Lib.Text

/-!
# A text format for measurements

A page is a list of lines: the help text of a family of series, its type, and samples.  A sample
names its family, has labels whose values are quoted, and a number.

* `lineText`, `pageText` — the text of a line and of a page.
* `readLine`, `readPage` — a reader that knows only the rules of the format.
* `readPage_pageText` — a page is read back, whatever its label values are.
-/

set_option autoImplicit false

namespace SevlaMq.Exposition

/-- `digits` with the last `scale` of them behind the point. -/
structure Number where
  digits : Nat
  scale : Nat
  deriving DecidableEq, Repr

/-- The name of a label and its value. -/
abbrev Label := String × String

inductive Line where
  | help (name text : String)
  | type (name kind : String)
  | sample (name : String) (labels : List Label) (value : Number)
  deriving DecidableEq, Repr

/-- What tells one sample from another: the name and the labels. -/
def Line.series : Line → Option (String × List Label)
  | .sample name labels _ => some (name, labels)
  | _ => none

/-! ## Writing -/

def escapeChar : Char → List Char
  | '\\' => ['\\', '\\']
  | '\n' => ['\\', 'n']
  | '"' => ['\\', '"']
  | c => [c]

def escape (value : List Char) : List Char := value.flatMap escapeChar

def numberText : Number → List Char
  | ⟨n, 0⟩ => Nat.toDigits 10 n
  | ⟨n, k + 1⟩ => Nat.toDigits 10 (n / 10 ^ (k + 1)) ++
      '.' :: (Nat.toDigits 10 (n % 10 ^ (k + 1))).leftpad (k + 1) '0'

def labelText (l : Label) : List Char :=
  l.1.toList ++ '=' :: '"' :: (escape l.2.toList ++ ['"'])

/-- The labels up to the closing brace. -/
def labelsText : List Label → List Char
  | [] => ['}']
  | [l] => labelText l ++ ['}']
  | l :: ls => labelText l ++ ',' :: labelsText ls

def helpMark : List Char := ['#', ' ', 'H', 'E', 'L', 'P', ' ']
def typeMark : List Char := ['#', ' ', 'T', 'Y', 'P', 'E', ' ']

def lineText : Line → List Char
  | .help name text => helpMark ++ (name.toList ++ ' ' :: text.toList)
  | .type name kind => typeMark ++ (name.toList ++ ' ' :: kind.toList)
  | .sample name [] value => name.toList ++ ' ' :: numberText value
  | .sample name (l :: ls) value =>
    name.toList ++ '{' :: (labelsText (l :: ls) ++ ' ' :: numberText value)

def pageText (page : List Line) : List Char := unlines (page.map lineText)

@[simp] theorem pageText_nil : pageText [] = [] := rfl

@[simp] theorem pageText_append (page page' : List Line) :
    pageText (page ++ page') = pageText page ++ pageText page' := by
  simp [pageText, unlines]

theorem pageText_cons (line : Line) (page : List Line) :
    pageText (line :: page) = lineText line ++ '\n' :: pageText page := by
  simp [pageText, unlines]

theorem pageText_flatMap {α : Type} (xs : List α) (page : α → List Line) :
    pageText (xs.flatMap page) = xs.flatMap fun x => pageText (page x) := by
  induction xs with
  | nil => rfl
  | cons x xs ih => rw [List.flatMap_cons, pageText_append, ih, List.flatMap_cons]

/-! ## Reading -/

/-- The characters of names. -/
def nameChar (c : Char) : Bool := c.isAlphanum || c = '_' || c = ':'

/-- A label value up to its closing quote. -/
def readText : List Char → Option (List Char × List Char)
  | '"' :: rest => some ([], rest)
  | '\\' :: '\\' :: rest => (readText rest).map fun (text, rest) => ('\\' :: text, rest)
  | '\\' :: 'n' :: rest => (readText rest).map fun (text, rest) => ('\n' :: text, rest)
  | '\\' :: '"' :: rest => (readText rest).map fun (text, rest) => ('"' :: text, rest)
  | '\\' :: _ => none
  | c :: rest => (readText rest).map fun (text, rest) => (c :: text, rest)
  | [] => none

def readLabel (s : List Char) : Option (Label × List Char) :=
  match s.dropWhile nameChar with
  | '=' :: '"' :: rest =>
    (readText rest).map fun (text, rest) =>
      ((String.ofList (s.takeWhile nameChar), String.ofList text), rest)
  | _ => none

/-- At most `fuel` labels, up to the closing brace. -/
def readLabels : Nat → List Char → Option (List Label × List Char)
  | 0, _ => none
  | fuel + 1, s =>
    match readLabel s with
    | some (l, ',' :: rest) => (readLabels fuel rest).map fun (ls, rest) => (l :: ls, rest)
    | some (l, '}' :: rest) => some ([l], rest)
    | _ => none

def readNumber (s : List Char) : Option Number :=
  let whole := s.takeWhile Char.isDigit
  if whole = [] then none
  else
    match s.dropWhile Char.isDigit with
    | [] => some ⟨Nat.ofDigitChars 10 whole 0, 0⟩
    | '.' :: part =>
      if part = [] ∨ part.any (fun c => !c.isDigit) then none
      else some ⟨Nat.ofDigitChars 10 (whole ++ part) 0, part.length⟩
    | _ => none

def readSample (s : List Char) : Option Line :=
  let name := s.takeWhile nameChar
  if name = [] then none
  else
    match s.dropWhile nameChar with
    | ' ' :: value => (readNumber value).map fun value => .sample (String.ofList name) [] value
    | '{' :: rest =>
      match readLabels rest.length rest with
      | some (labels, ' ' :: value) =>
        (readNumber value).map fun value => .sample (String.ofList name) labels value
      | _ => none
    | _ => none

/-- What stands after a name and a blank. -/
def readNamed (s : List Char) : Option (String × String) :=
  match s.dropWhile nameChar with
  | ' ' :: rest =>
    if s.takeWhile nameChar = [] then none
    else some (String.ofList (s.takeWhile nameChar), String.ofList rest)
  | _ => none

def readLine (s : List Char) : Option Line :=
  if helpMark <+: s then
    (readNamed (s.drop helpMark.length)).map fun (name, text) => .help name text
  else if typeMark <+: s then
    (readNamed (s.drop typeMark.length)).map fun (name, kind) => .type name kind
  else readSample s

/-- Every line of the page; empty lines are skipped. -/
def readPage (s : List Char) : Option (List Line) :=
  ((s.splitOn '\n').filter (· ≠ [])).mapM readLine

/-! ## A line is read back -/

def Named (name : String) : Prop := name.toList ≠ [] ∧ ∀ c ∈ name.toList, nameChar c = true

instance (name : String) : Decidable (Named name) :=
  decidable_of_iff (name.toList ≠ [] ∧ name.toList.all nameChar = true)
    (and_congr_right' List.all_eq_true)

/-- What can be written: names are names, and only label values may have line breaks. -/
def Line.Proper : Line → Prop
  | .help name text => Named name ∧ '\n' ∉ text.toList
  | .type name kind => Named name ∧ '\n' ∉ kind.toList
  | .sample name labels _ => Named name ∧ ∀ l ∈ labels, Named l.1

/-- A name ends where another character follows. -/
theorem takeWhile_name {name rest : List Char} {c : Char} {p : Char → Bool}
    (hname : ∀ x ∈ name, p x = true) (hc : p c = false) :
    (name ++ c :: rest).takeWhile p = name ∧ (name ++ c :: rest).dropWhile p = c :: rest := by
  constructor
  · rw [List.takeWhile_append_of_pos hname, List.takeWhile_cons_of_neg (by simp [hc]),
      List.append_nil]
  · rw [List.dropWhile_append_of_pos hname, List.dropWhile_cons_of_neg (by simp [hc])]

/-- **A label value is read back**, up to the quote that ends it. -/
theorem readText_escape (value rest : List Char) :
    readText (escape value ++ '"' :: rest) = some (value, rest) := by
  induction value with
  | nil => rfl
  | cons c value ih =>
    rw [escape] at ih ⊢
    rw [List.flatMap_cons, List.append_assoc]
    by_cases hback : c = '\\'
    · subst c
      simp [escapeChar, readText, ih]
    by_cases hbreak : c = '\n'
    · subst c
      simp [escapeChar, readText, ih]
    by_cases hquote : c = '"'
    · subst c
      simp [escapeChar, readText, ih]
    simp [escapeChar, readText, hback, ih]

theorem readLabel_labelText {l : Label} (h : Named l.1) (rest : List Char) :
    readLabel (labelText l ++ rest) = some (l, rest) := by
  obtain ⟨htake, hdrop⟩ := @takeWhile_name l.1.toList
    ('"' :: (escape l.2.toList ++ ['"'] ++ rest)) '=' nameChar h.2 rfl
  have htext : labelText l ++ rest =
      l.1.toList ++ '=' :: '"' :: (escape l.2.toList ++ ['"'] ++ rest) := by
    simp [labelText]
  rw [readLabel, htext, hdrop, htake]
  simp only [List.append_assoc, List.singleton_append, readText_escape, Option.map_some,
    String.ofList_toList]

/-- **Labels are read back**, up to the closing brace. -/
theorem readLabels_labelsText (rest : List Char) :
    ∀ {ls : List Label} {fuel : Nat}, ls ≠ [] → ls.length ≤ fuel → (∀ l ∈ ls, Named l.1) →
      readLabels fuel (labelsText ls ++ rest) = some (ls, rest)
  | [], _, hne, _, _ => absurd rfl hne
  | _ :: _, 0, _, hfuel, _ => absurd hfuel (Nat.not_succ_le_zero _)
  | [l], fuel + 1, _, _, hnamed => by
    have hl := hnamed l List.mem_cons_self
    rw [labelsText, List.append_assoc, readLabels, readLabel_labelText hl]
    rfl
  | l :: l' :: ls, fuel + 1, _, hfuel, hnamed => by
    have ih := readLabels_labelsText rest (List.cons_ne_nil l' ls) (Nat.le_of_succ_le_succ hfuel)
      fun x hx => hnamed x (List.mem_cons_of_mem _ hx)
    rw [labelsText, List.append_assoc, readLabels,
      readLabel_labelText (hnamed l List.mem_cons_self)]
    · simp only [List.cons_append, ih, Option.map_some]
    · exact fun h => List.cons_ne_nil _ _ h

theorem labelsText_length : ∀ ls : List Label, ls.length ≤ (labelsText ls).length
  | [] => Nat.zero_le _
  | [l] => by simp [labelsText]
  | l :: l' :: ls => by
    have := labelsText_length (l' :: ls)
    rw [labelsText]
    · simp only [List.length_append, List.length_cons] at this ⊢
      omega
    · exact fun h => List.cons_ne_nil _ _ h

/-- **A number is read back.** -/
theorem readNumber_numberText (n : Number) : readNumber (numberText n) = some n := by
  have hdigits : ∀ m, ∀ c ∈ Nat.toDigits 10 m, c.isDigit = true := fun _ _ => toDigits_isDigit
  obtain ⟨n, k⟩ := n
  cases k with
  | zero =>
    rw [numberText, readNumber]
    simp only [List.takeWhile_eq_self_iff.2 (hdigits n), List.dropWhile_eq_nil_iff.2 (hdigits n),
      Nat.toDigits_ne_nil, if_false, Nat.ofDigitChars_ten_toDigits]
  | succ k =>
    rw [numberText, readNumber]
    generalize hpart : (Nat.toDigits 10 (n % 10 ^ (k + 1))).leftpad (k + 1) '0' = part
    have hlength : part.length = k + 1 := by
      have hle := (Nat.length_toDigits_le_iff (b := 10) (by decide) (Nat.succ_pos k)).2
        (Nat.mod_lt n (Nat.pow_pos (n := k + 1) (by decide : 0 < 10)))
      rw [← hpart, List.length_leftpad, Nat.max_eq_left hle]
    have hall : ∀ c ∈ part, c.isDigit = true := by
      intro c hc
      rw [← hpart, List.leftpad, List.mem_append] at hc
      rcases hc with hc | hc
      · rw [List.eq_of_mem_replicate hc]
        rfl
      · exact hdigits _ c hc
    have hvalue : Nat.ofDigitChars 10 (Nat.toDigits 10 (n / 10 ^ (k + 1)) ++ part) 0 = n := by
      rw [Nat.ofDigitChars_append, Nat.ofDigitChars_ten_toDigits,
        Nat.ofDigitChars_eq_ofDigitChars_zero, hlength, ← hpart, List.leftpad,
        Nat.ofDigitChars_append, Nat.ofDigitChars_replicate_zero, Nat.mul_zero,
        Nat.ofDigitChars_ten_toDigits, Nat.div_add_mod]
    obtain ⟨htake, hdrop⟩ := @takeWhile_name (Nat.toDigits 10 (n / 10 ^ (k + 1))) part '.'
      Char.isDigit (hdigits _) rfl
    have hne : part ≠ [] := fun h => by rw [h] at hlength; cases hlength
    have hany : ¬ (part = [] ∨ (part.any fun c => !c.isDigit) = true) := by
      rintro (h | h)
      · exact hne h
      · obtain ⟨c, hc, hno⟩ := List.any_eq_true.1 h
        rw [hall c hc] at hno
        cases hno
    simp only [htake, hdrop, Nat.toDigits_ne_nil, if_false, if_neg hany, hvalue, hlength]

theorem named_blank {name : String} (h : Named name) (rest : List Char) :
    (name.toList ++ ' ' :: rest).takeWhile nameChar = name.toList ∧
      (name.toList ++ ' ' :: rest).dropWhile nameChar = ' ' :: rest :=
  takeWhile_name h.2 rfl

theorem readNamed_append {name : String} (h : Named name) (rest : String) :
    readNamed (name.toList ++ ' ' :: rest.toList) = some (name, rest) := by
  obtain ⟨htake, hdrop⟩ := named_blank h rest.toList
  rw [readNamed, hdrop]
  simp only [htake, if_neg h.1, String.ofList_toList]

theorem readSample_lineText {name : String} {labels : List Label} {value : Number}
    (hname : Named name) (hlabels : ∀ l ∈ labels, Named l.1) :
    readSample (lineText (.sample name labels value)) = some (.sample name labels value) := by
  cases labels with
  | nil =>
    obtain ⟨htake, hdrop⟩ := named_blank hname (numberText value)
    rw [lineText, readSample]
    simp only [htake, hdrop, if_neg hname.1, readNumber_numberText, Option.map_some,
      String.ofList_toList]
  | cons l ls =>
    obtain ⟨htake, hdrop⟩ := @takeWhile_name name.toList
      (labelsText (l :: ls) ++ ' ' :: numberText value) '{' nameChar hname.2 rfl
    have hfuel : (l :: ls).length ≤ (labelsText (l :: ls) ++ ' ' :: numberText value).length := by
      rw [List.length_append]
      exact Nat.le_trans (labelsText_length _) (Nat.le_add_right _ _)
    rw [lineText, readSample]
    simp only [htake, hdrop, if_neg hname.1,
      readLabels_labelsText _ (List.cons_ne_nil l ls) hfuel hlabels, readNumber_numberText,
      Option.map_some, String.ofList_toList]

/-- A sample does not begin like a comment. -/
theorem sample_not_comment {name : String} {labels : List Label} {value : Number}
    (hname : Named name) {mark : List Char} (hmark : mark.head? = some '#') :
    ¬ mark <+: lineText (.sample name labels value) := by
  obtain ⟨hne, hchars⟩ := hname
  obtain ⟨rest, rfl⟩ := List.head?_eq_some_iff.1 hmark
  intro h
  generalize hlist : name.toList = chars at hne hchars
  cases chars with
  | nil => exact absurd rfl hne
  | cons c chars =>
    have hc : '#' = c := by
      cases labels <;> (rw [lineText, hlist] at h; exact (List.cons_prefix_cons.1 h).1)
    have := hchars c List.mem_cons_self
    rw [← hc] at this
    cases this

/-- **A line is read back.** -/
theorem readLine_lineText {line : Line} (h : line.Proper) :
    readLine (lineText line) = some line := by
  cases line with
  | help name text =>
    rw [lineText, readLine, if_pos (List.prefix_append _ _), List.drop_left' rfl,
      readNamed_append h.1]
    rfl
  | type name kind =>
    rw [lineText, readLine, if_neg ?_, if_pos (List.prefix_append _ _), List.drop_left' rfl,
      readNamed_append h.1]
    · rfl
    · exact fun hmark => absurd ((List.prefix_append_right_inj ['#', ' ']).1 hmark)
        fun hmark => absurd (List.cons_prefix_cons.1 hmark).1 (by decide)
  | sample name labels value =>
    rw [readLine, if_neg (sample_not_comment h.1 rfl), if_neg (sample_not_comment h.1 rfl),
      readSample_lineText h.1 h.2]

/-! ## A page is read back -/

theorem escape_no_break (value : List Char) : '\n' ∉ escape value := by
  intro h
  obtain ⟨c, _, hc⟩ := List.mem_flatMap.1 h
  unfold escapeChar at hc
  split at hc
  · simp at hc
  · simp at hc
  · simp at hc
  · rename_i hbreak _
    exact hbreak (List.mem_singleton.1 hc).symm

theorem nameChar_no_break {name : String} (h : Named name) : '\n' ∉ name.toList :=
  fun hmem => absurd (h.2 _ hmem) (by decide)

theorem labelText_no_break {l : Label} (h : Named l.1) : '\n' ∉ labelText l := by
  simp [labelText, nameChar_no_break h, escape_no_break]

theorem labelsText_no_break : ∀ {ls : List Label}, (∀ l ∈ ls, Named l.1) → '\n' ∉ labelsText ls
  | [], _ => by decide
  | [l], h => by simp [labelsText, labelText_no_break (h l List.mem_cons_self)]
  | l :: l' :: ls, h => by
    have ih := @labelsText_no_break (l' :: ls) fun x hx => h x (List.mem_cons_of_mem _ hx)
    rw [labelsText]
    · simp [labelText_no_break (h l List.mem_cons_self), ih]
    · exact fun h => List.cons_ne_nil _ _ h

theorem numberText_no_break (n : Number) : '\n' ∉ numberText n := by
  obtain ⟨n, k⟩ := n
  have hdigits : ∀ m, '\n' ∉ Nat.toDigits 10 m := fun _ => not_mem_toDigits rfl
  cases k with
  | zero => exact hdigits n
  | succ k => simp [numberText, List.leftpad, hdigits]

theorem lineText_no_break {line : Line} (h : line.Proper) : '\n' ∉ lineText line := by
  cases line with
  | help name text => simp [lineText, helpMark, nameChar_no_break h.1, h.2]
  | type name kind => simp [lineText, typeMark, nameChar_no_break h.1, h.2]
  | sample name labels value =>
    cases labels with
    | nil => simp [lineText, nameChar_no_break h.1, numberText_no_break]
    | cons l ls =>
      simp [lineText, nameChar_no_break h.1, labelsText_no_break h.2, numberText_no_break]

theorem lineText_ne_nil {line : Line} (h : line.Proper) : lineText line ≠ [] := by
  intro hnil
  have := readLine_lineText h
  rw [hnil] at this
  cases this

/-- **A page is read back.** -/
theorem readPage_pageText {page : List Line} (h : ∀ line ∈ page, line.Proper) :
    readPage (pageText page) = some page := by
  have hbreak : ∀ l ∈ page.map lineText, '\n' ∉ l := by
    intro l hl
    obtain ⟨line, hline, rfl⟩ := List.mem_map.1 hl
    exact lineText_no_break (h line hline)
  have hne : ∀ l ∈ page.map lineText, decide (l ≠ []) = true := by
    intro l hl
    obtain ⟨line, hline, rfl⟩ := List.mem_map.1 hl
    exact decide_eq_true (lineText_ne_nil (h line hline))
  rw [readPage, pageText, splitOn_unlines hbreak, List.filter_append, List.filter_eq_self.2 hne]
  simp only [List.filter_cons, ne_eq, not_true_eq_false, decide_false, Bool.false_eq_true, if_false,
    List.filter_nil, List.append_nil]
  rw [List.mapM_map]
  clear hbreak hne
  induction page with
  | nil => rfl
  | cons line page ih =>
    obtain ⟨hline, hpage⟩ := List.forall_mem_cons.1 h
    rw [List.mapM_cons, ih hpage, Function.comp_apply, readLine_lineText hline]
    rfl

/-! ## No series twice -/

/-- Blocks whose names differ. -/
theorem nodup_blocks {blocks : List (List String × List (String × List Label))}
    (hnames : (blocks.flatMap (·.1)).Nodup) (hin : ∀ b ∈ blocks, ∀ x ∈ b.2, x.1 ∈ b.1)
    (hblocks : ∀ b ∈ blocks, b.2.Nodup) : (blocks.flatMap (·.2)).Nodup := by
  induction blocks with
  | nil => exact List.nodup_nil
  | cons b bs ih =>
    rw [List.flatMap_cons, List.nodup_append] at hnames ⊢
    obtain ⟨_, hrest, hdisjoint⟩ := hnames
    obtain ⟨hb, hbs⟩ := List.forall_mem_cons.1 hblocks
    obtain ⟨hb', hbs'⟩ := List.forall_mem_cons.1 hin
    refine ⟨hb, ih hrest hbs' hbs, ?_⟩
    rintro x hx _ hy rfl
    obtain ⟨b', hmem, hy⟩ := List.mem_flatMap.1 hy
    exact hdisjoint _ (hb' x hx) _ (List.mem_flatMap.2 ⟨b', hmem, hbs' b' hmem x hy⟩) rfl

/-- The same names with different labels. -/
theorem nodup_table {α : Type} {xs : List α} {names : List String} {labels : α → List Label}
    (hnames : names.Nodup) (hlabels : xs.Pairwise fun x y => labels x ≠ labels y) :
    (xs.flatMap fun x => names.map fun name => (name, labels x)).Nodup := by
  rw [List.nodup_flatMap]
  refine ⟨fun x _ => hnames.map fun _ _ h => (Prod.mk.inj h).1, hlabels.imp fun hne => ?_⟩
  rintro _ hx hy
  obtain ⟨_, _, rfl⟩ := List.mem_map.1 hx
  obtain ⟨_, _, heq⟩ := List.mem_map.1 hy
  exact hne (Prod.mk.inj heq).2.symm

end SevlaMq.Exposition
