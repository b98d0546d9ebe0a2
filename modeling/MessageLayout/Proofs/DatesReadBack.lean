import MessageLayout.Calendar.Reader
import MessageLayout.Proofs.DateFragments
import MessageLayout.Proofs.DayCounts
import MessageLayout.Proofs.ListLayout

/-!
# Dates that are read back

The plain date that an instant falls back on is read as an instant again. None of the other ways to
write an instant fits the text of a date: it is no number, since a hyphen follows the year, and a time
of day is missing. What is read is the start of the same day.

    readParts? (dateParts ++ ps) {} (dateText d) = readParts? ps (the date d) []   (readParts?_dateText)
    d.IsReal → Instant.read? (dateText d) = some (.ofDate d 0)                     (read?_dateText)
    Instant.read? (the plain date of i) = some (the start of the day of i)         (read?_fallback)
-/

namespace MessageLayout

namespace Text

theorem all_isDigit_padded (width n : Nat) : (padded width n).all Char.isDigit = true :=
  Calendar.all_padded (fun _ hc => hc) width n

theorem length_padded {width n : Nat} (h : (ofNat n).length ≤ width) :
    (padded width n).length = width := by
  rw [padded, List.length_leftpad]
  omega

theorem padded_ne_nil (width n : Nat) : padded width n ≠ [] := by
  simp [padded, List.leftpad, ofNat]

theorem valueOfDigits_padded (width n : Nat) : valueOfDigits (padded width n) = n := by
  have hzeros : ∀ k ds, valueOfDigits (List.replicate k '0' ++ ds) = valueOfDigits ds := by
    intro k ds
    induction k with
    | zero => rfl
    | succ k ih => exact ih
  have hvalue : valueOfDigits (ofNat n) = n := Nat.ofDigitChars_ten_toDigits
  rw [padded, List.leftpad, hzeros, hvalue]

end Text

namespace Calendar

open Text (padded)

/-! ## Numbers of a fixed width -/

section Scanning

variable {width n : Nat} (h : (Text.ofNat n).length ≤ width) (rest : List Char)

include h

theorem scanNumber?_padded : scanNumber? width (padded width n ++ rest) = some (n, rest) := by
  have hlength := Text.length_padded h
  have hdigits : (padded width n).takeWhile Char.isDigit = padded width n := by
    rw [List.takeWhile_eq_self_iff]
    exact List.all_eq_true.mp (Text.all_isDigit_padded width n)
  simp [scanNumber?, List.take_left' hlength, hdigits, Text.padded_ne_nil,
    Text.valueOfDigits_padded]

theorem scanFixed?_padded : scanFixed? width (padded width n ++ rest) = some (n, rest) := by
  have hlength := Text.length_padded h
  simp [scanFixed?, List.take_left' hlength, List.drop_left' hlength, hlength, Text.readNat?,
    Text.padded_ne_nil, Text.all_isDigit_padded, Text.valueOfDigits_padded]

end Scanning

/-! ## The text of a date -/

/-- A date as year, month and day in digits. -/
def dateText (d : Date) : List Char :=
  padded 4 d.year.natAbs ++ '-' :: padded 2 d.month ++ '-' :: padded 2 d.day

/-- A date of which each part fits its digits. -/
structure Date.IsPlain (d : Date) : Prop where
  isReal : d.IsReal
  first : 0 ≤ d.year
  last : d.year ≤ 9999

theorem fallback_dateNum (i : Instant) (h : i.date.IsPlain) :
    fallback i "\x7bdate_num\x7d".toList = dateText i.date := by
  have hfirst := h.first
  have hlast := h.last
  have hscan : Text.scanName? isTokenChar '}' "date_num\x7d".toList
      = some ("date_num".toList, []) := by decide
  have htoken := fallback_token i hscan
  have hyear : yearText i.date.year = padded 4 i.date.year.natAbs := by
    rw [yearText, if_neg (by omega), if_neg (by omega)]
  have hdate : expandToken? i (String.ofList "date_num".toList) = some (dateText i.date) := by
    rw [String.ofList_toList]
    show some (yearText i.date.year ++ _ ++ _) = _
    rw [hyear, dateText]
  rw [hdate, fallback_nil, Option.getD_some, List.append_nil] at htoken
  exact htoken

theorem Date.IsPlain.length_ofNat {d : Date} (h : d.IsPlain) :
    (Text.ofNat d.year.natAbs).length ≤ 4 ∧ (Text.ofNat d.month).length ≤ 2 ∧
      (Text.ofNat d.day).length ≤ 2 := by
  have hfirst := h.first
  have hlast := h.last
  have hmonth := h.isReal.month_le
  have hday := h.isReal.day_le
  have hdays := (daysInMonth_bounds d.year d.month).2
  exact ⟨(Nat.length_toDigits_le_iff (by decide) (by decide)).mpr (by omega),
    (Nat.length_toDigits_le_iff (by decide) (by decide)).mpr (by omega),
    (Nat.length_toDigits_le_iff (by decide) (by decide)).mpr (by omega)⟩

/-! ## Reading the text of a date -/

/-- A digit is no sign and starts no name of a float. -/
theorem ne_of_isDigit {c : Char} (hc : c.isDigit = true) :
    c ≠ '-' ∧ c ≠ '+' ∧ c.toLower ≠ 'i' ∧ c.toLower ≠ 'n' := by
  have hdigits : ∀ n < 58, 48 ≤ n → Char.ofNat n ≠ '-' ∧ Char.ofNat n ≠ '+' ∧
      (Char.ofNat n).toLower ≠ 'i' ∧ (Char.ofNat n).toLower ≠ 'n' := by decide
  obtain ⟨hzero, hnine⟩ := Char.isDigit_iff_toNat.mp hc
  have hne := hdigits c.toNat (Nat.lt_succ_of_le hnine) hzero
  rwa [Char.ofNat_toNat] at hne

theorem isBlank_of_mem_padded {width n : Nat} {c : Char} (hc : c ∈ padded width n) :
    Text.isBlank c = false := by
  have hdigit := List.all_eq_true.mp (Text.all_isDigit_padded width n) c hc
  exact Text.isBlank_of_isAlphanum (by simp [Char.isAlphanum, hdigit])

/-- A number starts with a digit. -/
theorem exists_padded_append (width n : Nat) (rest : List Char) :
    ∃ c s, padded width n ++ rest = c :: s ∧ c.isDigit = true := by
  obtain ⟨c, s, hs⟩ := List.exists_cons_of_ne_nil (Text.padded_ne_nil width n)
  exact ⟨c, s ++ rest, by rw [hs]; rfl,
    List.all_eq_true.mp (Text.all_isDigit_padded width n) c (by simp [hs])⟩

theorem dropWhile_isBlank_padded (width n : Nat) (rest : List Char) :
    (padded width n ++ rest).dropWhile Text.isBlank = padded width n ++ rest := by
  obtain ⟨c, s, hs, hc⟩ := exists_padded_append width n rest
  have hblank := Text.isBlank_of_isAlphanum (c := c) (by simp [Char.isAlphanum, hc])
  rw [hs, List.dropWhile_cons_of_neg (by simp [hblank])]

theorem scanYear?_padded {n : Nat} (h : (Text.ofNat n).length ≤ 4) (rest : List Char) :
    scanYear? (padded 4 n ++ rest) = some ((n : Int), rest) := by
  have hscan := scanNumber?_padded h rest
  obtain ⟨c, s, hs, hc⟩ := exists_padded_append 4 n rest
  have hne := ne_of_isDigit hc
  rw [hs] at hscan ⊢
  rw [scanYear?.eq_3 _ (by simp [hne]) (by simp [hne]), hscan]
  rfl

theorem readParts?_cons {p : Part} {ps : List Part} {r r' : Reading} {s rest : List Char}
    (h : p.read? r s = some (r', rest)) : readParts? (p :: ps) r s = readParts? ps r' rest := by
  rw [readParts?, h]

section

variable {d : Date} (h : d.IsPlain)

include h

theorem readParts?_dateText (ps : List Part) :
    readParts? (dateParts ++ ps) {} (dateText d)
      = readParts? ps ⟨d.year, d.month, d.day, 0, 0, 0⟩ [] := by
  obtain ⟨hyear, hmonth, hday⟩ := h.length_ofNat
  have hnonneg : (d.year.natAbs : Int) = d.year := Int.natAbs_of_nonneg h.first
  have hyearRead : Part.year.read? {} (dateText d)
      = some (⟨d.year, 0, 0, 0, 0, 0⟩, '-' :: (padded 2 d.month ++ '-' :: padded 2 d.day)) := by
    rw [dateText, List.append_assoc, List.cons_append, Part.read?, dropWhile_isBlank_padded,
      scanYear?_padded hyear, hnonneg]
    rfl
  have hmonthRead : Part.month.read? ⟨d.year, 0, 0, 0, 0, 0⟩
      (padded 2 d.month ++ '-' :: padded 2 d.day)
      = some (⟨d.year, d.month, 0, 0, 0, 0⟩, '-' :: padded 2 d.day) := by
    rw [Part.read?, dropWhile_isBlank_padded, scanNumber?_padded hmonth]
    rfl
  have hdayRead : Part.day.read? ⟨d.year, d.month, 0, 0, 0, 0⟩ (padded 2 d.day)
      = some (⟨d.year, d.month, d.day, 0, 0, 0⟩, []) := by
    rw [← List.append_nil (padded 2 d.day), Part.read?, dropWhile_isBlank_padded,
      scanNumber?_padded hday]
    rfl
  show readParts? (.year :: .mark '-' :: .month :: .mark '-' :: .day :: ps) _ _ = _
  rw [readParts?_cons hyearRead, readParts?_cons rfl, readParts?_cons hmonthRead,
    readParts?_cons rfl, readParts?_cons hdayRead]

/-- A date without a time of day is no timestamp. -/
theorem readTimestamp?_dateText : readTimestamp? (dateText d) = none := by
  obtain ⟨hyear, hmonth, hday⟩ := h.length_ofNat
  have hdayScan := scanFixed?_padded hday []
  rw [List.append_nil] at hdayScan
  rw [dateText, List.append_assoc, List.cons_append, readTimestamp?, scanFixed?_padded hyear,
    Option.bind_eq_bind, Option.bind_some]
  dsimp only
  rw [skip?, if_pos rfl, Option.bind_eq_bind, Option.bind_some, scanFixed?_padded hmonth,
    Option.bind_eq_bind, Option.bind_some]
  dsimp only
  rw [skip?, if_pos rfl, Option.bind_eq_bind, Option.bind_some, hdayScan]
  rfl

end

/-- What stands behind the digits of the year is no exponent. -/
theorem readFloat?_dateText (d : Date) : Decimal.readFloat? (dateText d) = none := by
  let rest := '-' :: padded 2 d.month ++ '-' :: padded 2 d.day
  have hd : dateText d = padded 4 d.year.natAbs ++ rest := by simp [dateText, rest]
  have hall := List.all_eq_true.mp (Text.all_isDigit_padded 4 d.year.natAbs)
  have hwhole : (dateText d).takeWhile Char.isDigit = padded 4 d.year.natAbs := by
    rw [hd, List.takeWhile_append_of_pos hall]
    simp [rest]
  have hrest : (dateText d).dropWhile Char.isDigit = rest := by
    rw [hd, List.dropWhile_append_of_pos hall]
    simp [rest]
  obtain ⟨c, s, hs, hc⟩ := exists_padded_append 4 d.year.natAbs rest
  rw [← hd] at hs
  have hne := ne_of_isDigit hc
  have hsign : Decimal.splitSign (dateText d) = (false, dateText d) := by
    rw [hs, Decimal.splitSign.eq_3 _ (by simp [hne]) (by simp [hne])]
  have hnames : Decimal.names.lookup ((dateText d).map Char.toLower) = none := by
    rw [hs]
    simp [Decimal.names, List.lookup_cons, beq_false_of_ne hne.2.2.1, beq_false_of_ne hne.2.2.2]
  simp [Decimal.readFloat?, hsign, hnames, hwhole, hrest, rest, Decimal.readExponent?]

theorem trim_dateText (d : Date) : Text.trim (dateText d) = dateText d := by
  refine Text.trimWhile_of_forall fun c hc => ?_
  simp only [dateText, List.mem_append, List.mem_cons] at hc
  rcases hc with (hc | rfl | hc) | rfl | hc
  · exact isBlank_of_mem_padded hc
  · decide
  · exact isBlank_of_mem_padded hc
  · decide
  · exact isBlank_of_mem_padded hc

/-- The text of a date is read as the start of the day. -/
theorem read?_dateText {d : Date} (h : d.IsPlain) :
    Instant.read? (dateText d) = some (.ofDate d 0) := by
  have hparts := readParts?_dateText h
  have hdate := hparts []
  rw [List.append_nil] at hdate
  have hfirst := h.first
  have hlast := h.last
  have hvalid : Reading.toInstant? ⟨d.year, d.month, d.day, 0, 0, 0⟩ = some (.ofDate d 0) := by
    have hd := h.isReal.isValid (by omega) (by omega)
    simp [Reading.toInstant?, Reading.date, hd]
  simp only [Instant.read?, trim_dateText, readFloat?_dateText, readTimestamp?_dateText h, layouts,
    List.findSome?, hparts, hdate, Option.none_or]
  simp [readParts?, Part.read?, scanNumber?, hvalid]

/-- An instant that falls back on the plain date is read back as the start of its day: the same date
and no time of day. -/
theorem Instant.read?_fallback (i : Instant) (hfirst : 0 ≤ i.date.year) (hlast : i.date.year ≤ 9999) :
    ∃ start, Instant.read? (fallback i "\x7bdate_num\x7d".toList) = some start ∧
      start.seconds = 86400 * (i.seconds / 86400) ∧ start.date = i.date ∧ start.secondOfDay = 0 := by
  have hplain : i.date.IsPlain := ⟨Date.isReal_ofDays i.days, hfirst, hlast⟩
  have hdays : i.date.toDays = i.seconds / 86400 := Date.toDays_ofDays i.days
  have hstart : Instant.ofDate i.date 0 = ⟨86400 * (i.seconds / 86400)⟩ := by
    rw [Instant.ofDate, hdays, add_zero, mul_comm]
  refine ⟨⟨86400 * (i.seconds / 86400)⟩, ?_, rfl, ?_, ?_⟩
  · rw [fallback_dateNum i hplain, read?_dateText hplain, hstart]
  · unfold Instant.date Instant.days
    congr 1
    show 86400 * (i.seconds / 86400) / 86400 = i.seconds / 86400
    omega
  · show (86400 * (i.seconds / 86400) % 86400).toNat = 0
    omega

/-- The last second of the leap day of year zero. -/
theorem Instant.read?_fallback_leapDay :
    let i : Instant := ⟨-62162035201⟩
    0 ≤ i.date.year ∧ i.date.year ≤ 9999 ∧ i.date = ⟨0, 2, 29⟩ ∧
      ∃ start, Instant.read? (fallback i "\x7bdate_num\x7d".toList) = some start ∧
        start.seconds = 86400 * (i.seconds / 86400) ∧ start.date = i.date ∧ start.secondOfDay = 0 := by
  intro i
  have hfirst : 0 ≤ i.date.year := by decide
  have hlast : i.date.year ≤ 9999 := by decide
  exact ⟨hfirst, hlast, by decide, Instant.read?_fallback i hfirst hlast⟩

end Calendar

end MessageLayout
