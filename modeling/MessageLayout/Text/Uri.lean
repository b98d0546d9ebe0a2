/-!
# Percent encoding

`encode` writes the bytes of a text that a link target may not hold as `%` and two hexadecimal
digits, and leaves the letters, digits, marks and reserved signs of a URI alone.
-/

namespace MessageLayout.Text.Uri

def hexDigit (n : Nat) : Char :=
  if n < 10 then Char.ofNat (48 + n) else Char.ofNat (55 + n)

/-- The characters that stand for themselves: ASCII letters and digits, and the marks and reserved
signs of a URI. -/
def isPlain (c : Char) : Bool :=
  c.isAlphanum || ";,/?:@&=+$-_.!~*\x27()#".toList.contains c

def escapeByte (b : UInt8) : List Char :=
  ['%', hexDigit (b.toNat / 16), hexDigit (b.toNat % 16)]

/-- A character as it stands in a link target: itself, or its bytes in UTF-8 escaped. -/
def encodeChar (c : Char) : List Char :=
  if isPlain c then [c] else (String.utf8EncodeChar c).flatMap escapeByte

def encode (s : List Char) : List Char :=
  s.flatMap encodeChar

theorem isPlain_hexDigit : ∀ n < 16, isPlain (hexDigit n) = true := by decide

/-- An encoded text is made of characters that stand for themselves and of percent signs. -/
theorem isPlain_of_mem_encode {s : List Char} {c : Char} (hc : c ∈ encode s) :
    isPlain c = true ∨ c = '%' := by
  obtain ⟨x, -, hx⟩ := List.mem_flatMap.mp hc
  simp only [encodeChar] at hx
  split at hx
  next hp =>
    rw [List.mem_singleton.mp hx]
    exact .inl hp
  · obtain ⟨b, -, hb⟩ := List.mem_flatMap.mp hx
    have h₁ : b.toNat / 16 < 16 := by
      have := b.toNat_lt
      omega
    have h₂ : b.toNat % 16 < 16 := Nat.mod_lt _ (by decide)
    simp only [escapeByte, List.mem_cons, List.not_mem_nil, or_false] at hb
    rcases hb with rfl | rfl | rfl
    · exact .inr rfl
    · exact .inl (isPlain_hexDigit _ h₁)
    · exact .inl (isPlain_hexDigit _ h₂)

theorem encodeChar_ne_nil (c : Char) : encodeChar c ≠ [] := by
  simp only [encodeChar]
  split
  · simp
  · intro h
    rw [List.flatMap_eq_nil_iff] at h
    obtain ⟨b, hb⟩ := List.exists_mem_of_ne_nil _ (String.utf8EncodeChar_ne_nil (c := c))
    exact absurd (h b hb) (by simp [escapeByte])

theorem encode_ne_nil {s : List Char} (h : s ≠ []) : encode s ≠ [] := by
  cases s with
  | nil => contradiction
  | cons c s =>
    rw [encode, List.flatMap_cons]
    exact fun he => encodeChar_ne_nil c (List.append_eq_nil_iff.mp he).1

end MessageLayout.Text.Uri
