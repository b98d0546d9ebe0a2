import MessageLayout.Text.DecimalDigit
import MessageLayout.Text.Lines
import MessageLayout.Text.Numeral

/-!
# Fences

A code block is not laid out with the text around it. Its code is put aside and a placeholder with
its number stands in the text instead, so that no other rule touches it; the code comes back last.

`pieces` cuts a text into placeholders and other characters, and `restore` puts the code back.
Main statement: `flatMap_text_pieces` (cutting loses nothing).
-/

namespace MessageLayout.Mrkdwn

structure Placeholder where
  /-- The digits of its number, of any script. -/
  digits : List Char
  /-- Whether the code is to stand on one line. -/
  singleLine : Bool
deriving DecidableEq, Repr

namespace Placeholder

def opening : List Char := "<<pre:".toList

def text (p : Placeholder) : List Char :=
  opening ++ p.digits ++ (if p.singleLine then ['s'] else []) ++ ['>', '>']

def read? : List Char → Option (Placeholder × List Char)
  | '<' :: '<' :: 'p' :: 'r' :: 'e' :: ':' :: s =>
    let ds := s.takeWhile Text.isDecimalDigit
    if ds.isEmpty then none
    else
      match s.dropWhile Text.isDecimalDigit with
      | 's' :: '>' :: '>' :: rest => some (⟨ds, true⟩, rest)
      | '>' :: '>' :: rest => some (⟨ds, false⟩, rest)
      | _ => none
  | _ => none

/-- The placeholder stands at the start of the text that it was read from. -/
theorem eq_append_of_read? {s rest : List Char} {p : Placeholder} (h : read? s = some (p, rest)) :
    s = p.text ++ rest := by
  simp only [read?] at h
  split at h
  next s =>
    have hd := List.takeWhile_append_dropWhile (p := Text.isDecimalDigit) (l := s)
    split at h
    · contradiction
    · split at h <;> simp only [Option.some.injEq, Prod.mk.injEq, reduceCtorEq] at h
      all_goals
        next hr =>
          obtain ⟨rfl, rfl⟩ := h
          rw [hr] at hd
          simp [text, opening, hd]
  · contradiction

theorem length_lt_of_read? {s rest : List Char} {p : Placeholder}
    (h : read? s = some (p, rest)) : rest.length < s.length := by
  rw [eq_append_of_read? h]
  simp [text, opening]
  omega

/-- Whether the number of a placeholder is a nonempty run of digits. -/
def WellFormed (p : Placeholder) : Prop :=
  p.digits ≠ [] ∧ ∀ d ∈ p.digits, Text.isDecimalDigit d = true

theorem wellFormed_of_read? {s rest : List Char} {p : Placeholder}
    (h : read? s = some (p, rest)) : p.WellFormed := by
  simp only [read?] at h
  split at h
  next s =>
    split at h
    · contradiction
    next hd =>
      have hds : ∀ d ∈ s.takeWhile Text.isDecimalDigit, Text.isDecimalDigit d = true :=
        fun d hd => List.all_eq_true.mp List.all_takeWhile d hd
      split at h <;> simp only [Option.some.injEq, Prod.mk.injEq, reduceCtorEq] at h
      all_goals
        obtain ⟨rfl, -⟩ := h
        exact ⟨by simpa using hd, hds⟩
  · contradiction

/-- A placeholder is read wherever its text stands. -/
theorem read?_text_append {p : Placeholder} (hp : p.WellFormed) (rest : List Char) :
    read? (p.text ++ rest) = some (p, rest) := by
  obtain ⟨ds, single⟩ := p
  obtain ⟨hne, hds⟩ := hp
  have hcut : ∀ c t, Text.isDecimalDigit c = false →
      (ds ++ c :: t).takeWhile Text.isDecimalDigit = ds ∧
        (ds ++ c :: t).dropWhile Text.isDecimalDigit = c :: t := by
    intro c t hc
    rw [List.takeWhile_append_of_pos hds, List.dropWhile_append_of_pos hds]
    simp [hc]
  cases single with
  | false =>
    obtain ⟨h₁, h₂⟩ := hcut '>' ('>' :: rest) (by decide)
    simp [text, opening, read?, h₁, h₂, hne]
  | true =>
    obtain ⟨h₁, h₂⟩ := hcut 's' ('>' :: '>' :: rest) (by decide)
    simp [text, opening, read?, h₁, h₂, hne]

end Placeholder

inductive Piece where
  | char (c : Char)
  | mark (p : Placeholder)

def Piece.text : Piece → List Char
  | char c => [c]
  | mark p => p.text

/-- The placeholders of a text and the characters around them. -/
def pieces (s : List Char) : List Piece :=
  match s with
  | [] => []
  | c :: t =>
    match h : Placeholder.read? (c :: t) with
    | some (p, rest) =>
      have := Placeholder.length_lt_of_read? h
      .mark p :: pieces rest
    | none => .char c :: pieces t
termination_by s.length
decreasing_by
  · simpa using this
  · simp

@[simp] theorem pieces_nil : pieces [] = [] := by
  rw [pieces]

theorem pieces_of_read? {s rest : List Char} {p : Placeholder}
    (h : Placeholder.read? s = some (p, rest)) : pieces s = .mark p :: pieces rest := by
  cases s with
  | nil => simp [Placeholder.read?] at h
  | cons c t => rw [pieces]; split <;> simp_all

theorem pieces_cons {c : Char} {t : List Char} (h : Placeholder.read? (c :: t) = none) :
    pieces (c :: t) = .char c :: pieces t := by
  rw [pieces]; split <;> simp_all

theorem read?_cons_of_ne {c : Char} (hc : c ≠ '<') (s : List Char) :
    Placeholder.read? (c :: s) = none := by
  simp [Placeholder.read?, hc]

theorem flatMap_text_pieces (s : List Char) : (pieces s).flatMap Piece.text = s := by
  fun_induction pieces s with
  | case1 => rfl
  | case2 c t p rest h _ ih =>
    rw [List.flatMap_cons, ih, Placeholder.eq_append_of_read? h]; rfl
  | case3 c t h ih => rw [List.flatMap_cons, ih]; rfl

def dropPlaceholders (s : List Char) : List Char :=
  (pieces s).flatMap fun
    | .char c => [c]
    | .mark _ => []

/-- The code of a block put aside. -/
abbrev Fences := List (List Char)

/-- The placeholder for the code with the given number, on a line of its own. -/
def placeholder (index : Nat) (singleLine : Bool) : List Char :=
  '\n' :: (⟨Text.ofNat index, singleLine⟩ : Placeholder).text ++ ['\n']

def fenceMark : List Char := ['\x60', '\x60', '\x60']

/-- Code between fence marks: on lines of its own, or all on one line. -/
def fenced (code : List Char) (singleLine : Bool) : List Char :=
  if singleLine then fenceMark ++ Text.squeeze (· = '\n') ' ' code ++ fenceMark
  else fenceMark ++ '\n' :: code ++ '\n' :: fenceMark

/-- What stands for a piece when the code is back in its place. A placeholder without code stays. -/
def Piece.restore (fences : Fences) : Piece → List Char
  | char c => [c]
  | mark p =>
    match (Text.readNat? p.digits).bind fun i => fences[i]? with
    | some code => fenced code p.singleLine
    | none => p.text

def restore (fences : Fences) (s : List Char) : List Char :=
  (pieces s).flatMap (Piece.restore fences)

theorem restore_nil (fences : Fences) : restore fences [] = [] := by
  simp [restore]

theorem restore_cons {c : Char} {s : List Char} (h : Placeholder.read? (c :: s) = none)
    (fences : Fences) : restore fences (c :: s) = c :: restore fences s := by
  simp only [restore, pieces_cons h, List.flatMap_cons]
  rfl

theorem restore_of_not_mem {s : List Char} (h : '<' ∉ s) (fences : Fences) :
    restore fences s = s := by
  induction s with
  | nil => exact restore_nil fences
  | cons c s ih =>
    simp only [List.mem_cons, not_or] at h
    rw [restore_cons (read?_cons_of_ne (Ne.symm h.1) s), ih h.2]

end MessageLayout.Mrkdwn
