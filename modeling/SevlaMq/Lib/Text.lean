import Mathlib.Data.List.Basic

/-!
# Decimal numbers and lines of text

What a program writes as text and reads back: numbers in decimal, fields that are separated by a
character, lines.

* `parseUnsigned` — the decimal number in a piece of text, up to a limit.
* `parseUnsigned_toDigits` — a printed number is read back.
* `lines_unlines` — so are lines without line breaks.
* `fields` — a line of fields; `List.splitOn_intercalate` reads them back.
-/

set_option autoImplicit false

namespace SevlaMq

/-- An unsigned decimal number; a sign is allowed, an empty string is not. -/
def parseUnsigned (limit : Nat) (s : List Char) : Option Nat :=
  let digits := match s with
    | '+' :: rest => rest
    | s => s
  if digits = [] ∨ digits.any (fun c => !c.isDigit) then none
  else
    let value := digits.foldl (fun n c => 10 * n + (c.toNat - '0'.toNat)) 0
    if value ≤ limit then some value else none

theorem toDigits_isDigit {n : Nat} {c : Char} (h : c ∈ Nat.toDigits 10 n) : c.isDigit = true :=
  Nat.isDigit_of_mem_toDigits (by decide) (by decide) h

/-- A character that is no digit is not in a number. -/
theorem not_mem_toDigits {n : Nat} {c : Char} (hc : c.isDigit = false) : c ∉ Nat.toDigits 10 n := by
  intro h
  rw [toDigits_isDigit h] at hc
  cases hc

/-- **A printed number is read back.** -/
theorem parseUnsigned_toDigits {limit n : Nat} (h : n ≤ limit) :
    parseUnsigned limit (Nat.toDigits 10 n) = some n := by
  have hsign : (match Nat.toDigits 10 n with
      | '+' :: rest => rest
      | s => s) = Nat.toDigits 10 n := by
    split
    · rename_i rest heq
      have hplus : '+' ∈ Nat.toDigits 10 n := by rw [heq]; exact List.mem_cons_self
      exact absurd hplus (not_mem_toDigits (by decide))
    · rfl
  have hdigits : ¬ (Nat.toDigits 10 n = [] ∨
      (Nat.toDigits 10 n).any (fun c => !c.isDigit) = true) := by
    rintro (hnil | hany)
    · exact Nat.toDigits_ne_nil hnil
    · obtain ⟨c, hc, hno⟩ := List.any_eq_true.1 hany
      rw [toDigits_isDigit hc] at hno
      cases hno
  have hvalue : (Nat.toDigits 10 n).foldl (fun n c => 10 * n + (c.toNat - '0'.toNat)) 0 = n := by
    rw [← Nat.ofDigitChars_eq_foldl]
    exact Nat.ofDigitChars_ten_toDigits
  simp only [parseUnsigned, hsign, if_neg hdigits, hvalue, if_pos h]

theorem parseUnsigned_le {limit n : Nat} {s : List Char} (h : parseUnsigned limit s = some n) :
    n ≤ limit := by
  unfold parseUnsigned at h
  generalize (match s with
    | '+' :: rest => rest
    | s => s) = digits at h
  simp only at h
  split at h
  · cases h
  · split at h
    · rename_i hle
      cases h
      exact hle
    · cases h

/-! ## Pieces -/

/-- A piece does not have the separator, and nothing that was not there before. -/
theorem mem_splitOn {sep c : Char} : ∀ {s piece : List Char}, piece ∈ s.splitOn sep → c ∈ piece →
    c ≠ sep ∧ c ∈ s
  | [], piece, h, hc => by
    rw [List.splitOn_nil, List.mem_singleton] at h
    rw [h] at hc
    cases hc
  | x :: s, piece, h, hc => by
    rw [List.splitOn_cons_eq_if_modifyHead] at h
    split at h
    · rcases List.mem_cons.1 h with rfl | h
      · cases hc
      · obtain ⟨hne, hmem⟩ := mem_splitOn h hc
        exact ⟨hne, List.mem_cons_of_mem _ hmem⟩
    · rename_i hx
      cases hs : s.splitOn sep with
      | nil => exact absurd hs (List.splitOn_ne_nil sep s)
      | cons first rest =>
        rw [hs, List.modifyHead_cons] at h
        have hin : ∀ p ∈ first :: rest, c ∈ p → c ≠ sep ∧ c ∈ x :: s := by
          intro p hp hcp
          obtain ⟨hne, hmem⟩ := mem_splitOn (hs ▸ hp) hcp
          exact ⟨hne, List.mem_cons_of_mem _ hmem⟩
        rcases List.mem_cons.1 h with rfl | h
        · rcases List.mem_cons.1 hc with rfl | hc
          · exact ⟨by simpa using hx, List.mem_cons_self⟩
          · exact hin first List.mem_cons_self hc
        · exact hin piece (List.mem_cons_of_mem _ h) hc

/-! ## Lines -/

/-- `str::lines`: a line break ends a line, a carriage return before it belongs to it. -/
def lines (s : List Char) : List (List Char) :=
  let pieces := s.splitOn '\n'
  let ended := pieces.dropLast.map fun line =>
    if line.getLast? = some '\r' then line.dropLast else line
  match pieces.getLast? with
  | none => ended
  | some [] => ended
  | some last => ended ++ [last]

theorem not_mem_lines {s line : List Char} (h : line ∈ lines s) : '\n' ∉ line := by
  intro hc
  have hpieces : ∃ piece ∈ s.splitOn '\n', '\n' ∈ piece := by
    have hended : ∀ l ∈ (s.splitOn '\n').dropLast.map
        (fun line => if line.getLast? = some '\r' then line.dropLast else line),
        '\n' ∈ l → ∃ piece ∈ s.splitOn '\n', '\n' ∈ piece := by
      intro l hl hcl
      obtain ⟨piece, hp, rfl⟩ := List.mem_map.1 hl
      refine ⟨piece, List.dropLast_subset _ hp, ?_⟩
      split at hcl
      · exact List.dropLast_subset _ hcl
      · exact hcl
    simp only [lines] at h
    split at h
    · exact hended line h hc
    · exact hended line h hc
    · rename_i last _ hlast
      rcases List.mem_append.1 h with h | h
      · exact hended line h hc
      · rw [List.mem_singleton.1 h] at hc
        exact ⟨last, List.mem_of_getLast? hlast, hc⟩
  obtain ⟨piece, hp, hcp⟩ := hpieces
  exact (mem_splitOn hp hcp).1 rfl

/-- Lines as they are written. -/
def unlines (ls : List (List Char)) : List Char := ls.flatMap (· ++ ['\n'])

theorem splitOn_unlines : ∀ {ls : List (List Char)}, (∀ l ∈ ls, '\n' ∉ l) →
    (unlines ls).splitOn '\n' = ls ++ [[]]
  | [], _ => rfl
  | l :: ls, h => by
    have hl : '\n' ∉ l := h l List.mem_cons_self
    have hls : ∀ x ∈ ls, '\n' ∉ x := fun x hx => h x (List.mem_cons_of_mem _ hx)
    have hcons : unlines (l :: ls) = l ++ '\n' :: unlines ls := by
      simp [unlines, List.flatMap_cons]
    rw [hcons, List.splitOn_append_cons_self_of_not_mem hl, splitOn_unlines hls]
    rfl

/-- **Lines are read back.** -/
theorem lines_unlines {ls : List (List Char)} (hbreak : ∀ l ∈ ls, '\n' ∉ l)
    (hreturn : ∀ l ∈ ls, l.getLast? ≠ some '\r') : lines (unlines ls) = ls := by
  have hended : ls.map (fun line => if line.getLast? = some '\r' then line.dropLast else line) = ls := by
    refine (List.map_congr_left fun l hl => ?_).trans (List.map_id ls)
    exact if_neg (hreturn l hl)
  simp only [lines, splitOn_unlines hbreak, List.dropLast_concat, List.getLast?_concat, hended]

/-! ## Fields -/

/-- Fields with a separator between them. -/
def fields (sep : Char) (fs : List (List Char)) : List Char := [sep].intercalate fs

theorem mem_fields {sep c : Char} (hc : c ≠ sep) :
    ∀ {fs : List (List Char)}, c ∈ fields sep fs → ∃ f ∈ fs, c ∈ f
  | [], h => by simp [fields] at h
  | [f], h => ⟨f, List.mem_cons_self, by simpa [fields] using h⟩
  | f :: g :: fs, h => by
    have hcons : fields sep (f :: g :: fs) = f ++ sep :: fields sep (g :: fs) := by
      simp [fields, List.intercalate_cons_cons]
    rw [hcons, List.mem_append, List.mem_cons] at h
    rcases h with h | h | h
    · exact ⟨f, List.mem_cons_self, h⟩
    · exact absurd h hc
    · obtain ⟨x, hx, hcx⟩ := mem_fields hc h
      exact ⟨x, List.mem_cons_of_mem _ hx, hcx⟩

/-- A line ends with its last field. -/
theorem getLast?_fields {sep : Char} {last : List Char} (hlast : last ≠ []) :
    ∀ {fs : List (List Char)}, (fields sep (fs ++ [last])).getLast? = last.getLast?
  | [] => by simp [fields]
  | f :: fs => by
    have hne : fs ++ [last] ≠ [] := by simp
    have hcons : fields sep (f :: fs ++ [last]) = f ++ sep :: fields sep (fs ++ [last]) := by
      simp [fields, List.intercalate_cons_of_ne_nil hne]
    have ih := @getLast?_fields sep last hlast fs
    rw [hcons, List.getLast?_append, List.getLast?_cons, ih]
    cases h : last.getLast? with
    | none => exact absurd (List.getLast?_eq_none_iff.1 h) hlast
    | some c => rfl

end SevlaMq
