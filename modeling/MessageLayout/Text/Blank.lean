/-!
# Blank characters

`isBlank` is the `White_Space` property of Unicode. Trimming cuts such characters, or any other
class of characters, off the ends of a text.
-/

namespace MessageLayout.Text

/-- Whether a character has the Unicode property `White_Space`. -/
def isBlank (c : Char) : Bool :=
  let n := c.toNat
  (9 ≤ n && n ≤ 13) || n == 0x20 || n == 0x85 || n == 0xA0 || n == 0x1680
    || (0x2000 ≤ n && n ≤ 0x200A) || n == 0x2028 || n == 0x2029 || n == 0x202F
    || n == 0x205F || n == 0x3000

/-- The text without the characters of class `p` at its end. -/
def trimEndWhile (p : Char → Bool) (s : List Char) : List Char :=
  (s.reverse.dropWhile p).reverse

def trimWhile (p : Char → Bool) (s : List Char) : List Char :=
  trimEndWhile p (s.dropWhile p)

/-- The longest ending of the text made of characters of class `p`. -/
def takeEndWhile (p : Char → Bool) (s : List Char) : List Char :=
  (s.reverse.takeWhile p).reverse

def trim (s : List Char) : List Char :=
  trimWhile isBlank s

def isAllBlank (s : List Char) : Bool :=
  s.all isBlank

theorem toNat_of_isAlphanum {c : Char} (h : c.isAlphanum = true) :
    (65 ≤ c.toNat ∧ c.toNat ≤ 90) ∨ (97 ≤ c.toNat ∧ c.toNat ≤ 122) ∨
      (48 ≤ c.toNat ∧ c.toNat ≤ 57) := by
  delta Char.isAlphanum Char.isAlpha Char.isUpper Char.isLower Char.isDigit at h
  simp only [Bool.or_eq_true, Bool.and_eq_true, decide_eq_true_eq, ge_iff_le,
    UInt32.le_iff_toNat_le] at h
  exact or_assoc.mp h

theorem isBlank_of_isAlphanum {c : Char} (h : c.isAlphanum = true) : isBlank c = false := by
  have hn := toNat_of_isAlphanum h
  simp [isBlank]
  omega

theorem forall_mem_of_all {p : Char → Prop} [DecidablePred p] {s : List Char}
    (h : (s.all fun c => decide (p c)) = true) : ∀ c ∈ s, p c :=
  fun c hc => of_decide_eq_true (List.all_eq_true.mp h c hc)

theorem forall_mem_of_eq {p : Char → Prop} {d : Char} (hd : p d) {s : List Char}
    (h : ∀ c ∈ s, c = d) : ∀ c ∈ s, p c :=
  fun c hc => (h c hc).symm ▸ hd

theorem isBlank_of_eq_newline (c : Char) (h : decide (c = '\n') = true) : isBlank c = true := by
  rw [of_decide_eq_true h]
  decide

theorem isBlank_of_eq_space (c : Char) (h : decide (c = ' ') = true) : isBlank c = true := by
  rw [of_decide_eq_true h]
  decide

theorem trimEndWhile_append_takeEndWhile (p : Char → Bool) (s : List Char) :
    trimEndWhile p s ++ takeEndWhile p s = s := by
  simp only [trimEndWhile, takeEndWhile]
  rw [← List.reverse_append, List.takeWhile_append_dropWhile, List.reverse_reverse]

theorem of_mem_takeEndWhile {p : Char → Bool} {c : Char} {s : List Char}
    (hc : c ∈ takeEndWhile p s) : p c = true :=
  List.all_eq_true.mp List.all_takeWhile c (List.mem_reverse.mp hc)

theorem eq_of_mem_takeWhile {c d : Char} {s : List Char} (hc : c ∈ s.takeWhile (· = d)) : c = d :=
  of_decide_eq_true (List.all_eq_true.mp List.all_takeWhile c hc)

theorem eq_of_mem_takeEndWhile {c d : Char} {s : List Char} (hc : c ∈ takeEndWhile (· = d) s) :
    c = d :=
  of_decide_eq_true (of_mem_takeEndWhile hc)

theorem trimEndWhile_concat_of_pos {p : Char → Bool} {c : Char} (hc : p c = true) (s : List Char) :
    trimEndWhile p (s ++ [c]) = trimEndWhile p s := by
  simp [trimEndWhile, hc]

theorem trimEndWhile_concat_of_neg {p : Char → Bool} {c : Char} (hc : p c = false)
    (s : List Char) : trimEndWhile p (s ++ [c]) = s ++ [c] := by
  simp [trimEndWhile, hc]

/-- What is trimmed at the end may as well be missing. -/
theorem trimEndWhile_append_of_forall {p : Char → Bool} {s t : List Char}
    (h : ∀ c ∈ t, p c = true) : trimEndWhile p (s ++ t) = trimEndWhile p s := by
  rw [trimEndWhile, List.reverse_append,
    List.dropWhile_append_of_pos fun c hc => h c (List.mem_reverse.mp hc), ← trimEndWhile]

@[simp] theorem trimEndWhile_nil (p : Char → Bool) : trimEndWhile p [] = [] := rfl

@[simp] theorem trimWhile_nil (p : Char → Bool) : trimWhile p [] = [] := rfl

/-- What is trimmed at either end may as well be missing. -/
theorem trimWhile_append_append {p : Char → Bool} {first last : List Char}
    (hf : ∀ c ∈ first, p c = true) (hl : ∀ c ∈ last, p c = true) (s : List Char) :
    trimWhile p (first ++ s ++ last) = trimWhile p s := by
  rw [trimWhile, List.append_assoc, List.dropWhile_append_of_pos hf, List.dropWhile_append]
  split
  next he =>
    have hlast : (last ++ []).dropWhile p = [].dropWhile p := List.dropWhile_append_of_pos hl
    rw [List.append_nil, List.dropWhile_nil] at hlast
    rw [trimWhile, List.isEmpty_iff.mp he, hlast]
  · exact trimEndWhile_append_of_forall hl

/-- A text whose ends are not of the class in question is trimmed already. -/
theorem trimWhile_of_ends {p : Char → Bool} {s t u : List Char} {c d : Char} (hs : s = c :: t)
    (hc : p c = false) (hu : s = u ++ [d]) (hd : p d = false) : trimWhile p s = s := by
  have hdrop : s.dropWhile p = s := by rw [hs, List.dropWhile_cons_of_neg (by simp [hc])]
  rw [trimWhile, hdrop, hu, trimEndWhile_concat_of_neg hd]

end MessageLayout.Text
