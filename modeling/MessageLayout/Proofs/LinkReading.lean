import MessageLayout.Proofs.LinkTokens

/-!
# Links that are read back

The target of a link is written in characters of which none ends the target, and nothing of it is
lost: percent decoding gives the bytes of the target, and these give its characters. So a link can
be read back, up to the ends of lines and the blanks at the ends of its label.

    (decode (encode s)).toByteArray = s.utf8Encode                     (toByteArray_decode_encode)
    encode s = encode t → s = t                                        (encode_injective)
    Mention.ofHref? href = none →
      readLink? (link content href) = some (href, label content)       (link_readable)
-/

namespace MessageLayout

namespace Text.Uri

/-! ## Encoded texts -/

/-- The characters that stand for themselves in a link target. -/
def unescaped : List Char :=
  "ABCDEFGHIJKLMNOPQRSTUVWXYZabcdefghijklmnopqrstuvwxyz0123456789;,/?:@&=+$-_.!~*\x27()#".toList

/-- The digits that bytes are written in. -/
def upperHexDigits : List Char :=
  "0123456789ABCDEF".toList

/-- A text of characters that stand for themselves and of bytes, each written as a percent sign and
two digits. -/
inductive Encoded : List Char → Prop where
  | nil : Encoded []
  | plain {c : Char} {s : List Char} (hc : c ∈ unescaped) (h : Encoded s) : Encoded (c :: s)
  | byte {a b : Char} {s : List Char} (ha : a ∈ upperHexDigits) (hb : b ∈ upperHexDigits)
      (h : Encoded s) : Encoded ('%' :: a :: b :: s)

theorem toNat_lt_of_isPlain {c : Char} (h : isPlain c = true) : c.toNat < 128 := by
  rw [isPlain, Bool.or_eq_true] at h
  rcases h with h | h
  · have hc := toNat_of_isAlphanum h
    omega
  · have hmarks : ∀ c ∈ ";,/?:@&=+$-_.!~*\x27()#".toList, c.toNat < 128 :=
      forall_mem_of_all (by decide +kernel)
    exact hmarks c (List.contains_iff_mem.mp h)

theorem isPlain_iff_mem_unescaped {c : Char} : isPlain c = true ↔ c ∈ unescaped := by
  have hascii : ∀ n < 128, isPlain (Char.ofNat n) = true → Char.ofNat n ∈ unescaped := by
    decide +kernel
  have hplain : ∀ c ∈ unescaped, isPlain c = true := forall_mem_of_all (by decide +kernel)
  refine ⟨fun h => ?_, hplain c⟩
  have hc := hascii c.toNat (toNat_lt_of_isPlain h)
  rw [Char.ofNat_toNat] at hc
  exact hc h

theorem hexDigit_mem_upperHexDigits : ∀ n < 16, hexDigit n ∈ upperHexDigits := by decide

theorem Encoded.flatMap_escapeByte {s : List Char} (h : Encoded s) (bs : List UInt8) :
    Encoded (bs.flatMap escapeByte ++ s) := by
  induction bs with
  | nil => exact h
  | cons b bs ih =>
    have hb := b.toNat_lt
    have hhigh := hexDigit_mem_upperHexDigits (b.toNat / 16) (by omega)
    have hlow := hexDigit_mem_upperHexDigits (b.toNat % 16) (by omega)
    exact .byte hhigh hlow ih

theorem encoded_encode (s : List Char) : Encoded (encode s) := by
  induction s with
  | nil => exact .nil
  | cons c s ih =>
    rw [encode, List.flatMap_cons, encodeChar]
    split
    next hc => exact .plain (isPlain_iff_mem_unescaped.mp hc) ih
    · exact ih.flatMap_escapeByte _

/-- An encoded text holds no blank, no control character and no double quote, and nothing that ends
a target. -/
theorem Encoded.visible {s : List Char} (h : Encoded s) {c : Char} (hc : c ∈ s) :
    33 ≤ c.toNat ∧ c.toNat ≤ 126 ∧ c ∉ ['<', '>', '|', '"'] := by
  have hplain : ∀ c ∈ unescaped, 33 ≤ c.toNat ∧ c.toNat ≤ 126 ∧ c ∉ ['<', '>', '|', '"'] :=
    forall_mem_of_all (by decide +kernel)
  have hdigit : ∀ c ∈ upperHexDigits, c ∈ unescaped := forall_mem_of_all (by decide +kernel)
  induction h with
  | nil => cases hc
  | plain hplainc _ ih =>
    rcases List.mem_cons.mp hc with rfl | hc
    · exact hplain _ hplainc
    · exact ih hc
  | byte ha hb _ ih =>
    simp only [List.mem_cons] at hc
    rcases hc with rfl | rfl | rfl | hc
    · decide
    · exact hplain _ (hdigit _ ha)
    · exact hplain _ (hdigit _ hb)
    · exact ih hc

/-! ## Decoding -/

/-- The bytes of a text in which a percent sign before two hexadecimal digits stands for a byte. Any
other character stands for itself. -/
def decode : List Char → List UInt8
  | [] => []
  | '%' :: a :: b :: s =>
    match Text.hexDigit? a, Text.hexDigit? b with
    | some m, some n => UInt8.ofNat (16 * m + n) :: decode s
    | _, _ => String.utf8EncodeChar '%' ++ decode (a :: b :: s)
  | c :: s => String.utf8EncodeChar c ++ decode s

theorem decode_cons_of_ne {c : Char} (hc : c ≠ '%') (s : List Char) :
    decode (c :: s) = String.utf8EncodeChar c ++ decode s :=
  decode.eq_3 c s fun _ _ _ h _ => hc h

theorem hexDigit?_hexDigit : ∀ n < 16, Text.hexDigit? (hexDigit n) = some n := by decide

theorem decode_escapeByte_append (b : UInt8) (s : List Char) :
    decode (escapeByte b ++ s) = b :: decode s := by
  have hb := b.toNat_lt
  have hvalue : 16 * (b.toNat / 16) + b.toNat % 16 = b.toNat := by omega
  change decode ('%' :: hexDigit (b.toNat / 16) :: hexDigit (b.toNat % 16) :: s) = b :: decode s
  rw [decode, hexDigit?_hexDigit _ (by omega), hexDigit?_hexDigit _ (by omega)]
  simp only [hvalue, UInt8.ofNat_toNat]

theorem decode_flatMap_escapeByte_append (bs : List UInt8) (s : List Char) :
    decode (bs.flatMap escapeByte ++ s) = bs ++ decode s := by
  induction bs with
  | nil => rfl
  | cons b bs ih =>
    rw [List.flatMap_cons, List.append_assoc, decode_escapeByte_append, ih, List.cons_append]

theorem decode_encodeChar_append (c : Char) (s : List Char) :
    decode (encodeChar c ++ s) = String.utf8EncodeChar c ++ decode s := by
  rw [encodeChar]
  split
  next hc =>
    have hpercent : c ≠ '%' := by
      rintro rfl
      exact absurd hc (by decide)
    exact decode_cons_of_ne hpercent s
  · exact decode_flatMap_escapeByte_append _ s

theorem decode_encode (s : List Char) : decode (encode s) = s.flatMap String.utf8EncodeChar := by
  induction s with
  | nil => rfl
  | cons c s ih =>
    rw [encode, List.flatMap_cons, decode_encodeChar_append, ← encode, ih, List.flatMap_cons]

/-- Decoding gives the bytes of the text in UTF-8. -/
theorem toByteArray_decode_encode (s : List Char) :
    (decode (encode s)).toByteArray = s.utf8Encode := by
  rw [decode_encode, List.utf8Encode]

theorem encode_injective : Function.Injective encode := by
  intro s t h
  have hbytes : s.utf8Encode = t.utf8Encode := by
    rw [← toByteArray_decode_encode, ← toByteArray_decode_encode, h]
  have hchars : s.utf8Encode.utf8Decode? = t.utf8Encode.utf8Decode? := by rw [hbytes]
  rw [List.utf8Decode?_utf8Encode, List.utf8Decode?_utf8Encode, Option.some_inj] at hchars
  exact List.toArray_inj hchars

end Text.Uri

namespace Text

theorem head?_trimWhile {p : Char → Bool} {s : List Char} {c : Char}
    (h : (trimWhile p s).head? = some c) : p c = false := by
  have hstart := List.head?_dropWhile_not p s
  have hprefix : trimWhile p s <+: s.dropWhile p := ⟨_, trimEndWhile_append_takeEndWhile p _⟩
  obtain ⟨t, ht⟩ := List.head?_eq_some_iff.mp h
  obtain ⟨u, hu⟩ := hprefix
  rw [← hu, ht] at hstart
  simpa using hstart

theorem getLast?_trimWhile {p : Char → Bool} {s : List Char} {c : Char}
    (h : (trimWhile p s).getLast? = some c) : p c = false := by
  rw [trimWhile, trimEndWhile, List.getLast?_reverse] at h
  have hend := List.head?_dropWhile_not p (s.dropWhile p).reverse
  rw [h] at hend
  simpa using hend

end Text

namespace Mrkdwn

open Text (Uri.encode Uri.decode Uri.Encoded)

/-- The target and the label of a link. -/
def readLink? : List Char → Option (List Char × List Char)
  | '<' :: s => do
    let target := s.takeWhile (· ≠ '|')
    let href ← (Uri.decode target).toByteArray.utf8Decode?
    match s.dropWhile (· ≠ '|') with
    | '|' :: rest => if rest.getLast? = some '>' then some (href.toList, rest.dropLast) else none
    | _ => none
  | _ => none

theorem readLink?_token {href : List Char} (h : '|' ∉ Uri.encode href) (l : List Char) :
    readLink? ('<' :: Uri.encode href ++ '|' :: l ++ ['>']) = some (href, l) := by
  have hall : ∀ c ∈ Uri.encode href, (decide (c ≠ '|')) = true := by
    intro c hc
    exact decide_eq_true fun he => h (he ▸ hc)
  have htake : (Uri.encode href ++ '|' :: (l ++ ['>'])).takeWhile (· ≠ '|') = Uri.encode href := by
    rw [List.takeWhile_append_of_pos hall]
    simp
  have hdrop : (Uri.encode href ++ '|' :: (l ++ ['>'])).dropWhile (· ≠ '|')
      = '|' :: (l ++ ['>']) := by
    rw [List.dropWhile_append_of_pos hall]
    simp
  rw [List.cons_append, List.cons_append, List.append_assoc, List.cons_append, readLink?, htake,
    hdrop, Text.Uri.toByteArray_decode_encode, List.utf8Decode?_utf8Encode]
  simp

/-- A link that mentions no one is its target and its label between brackets. The target is written
in visible ASCII characters of which none ends it, decodes to the bytes of the target, and is not
the same for any other target; the label is on one line, with no blanks at its ends. So both can be
read back. -/
theorem link_readable {content href : List Char} (h : Mention.ofHref? href = none) :
    link content href = '<' :: Uri.encode href ++ '|' :: label content ++ ['>'] ∧
      Uri.Encoded (Uri.encode href) ∧
      (∀ c ∈ Uri.encode href, 33 ≤ c.toNat ∧ c.toNat ≤ 126 ∧ c ∉ ['<', '>', '|', '"']) ∧
      (Uri.decode (Uri.encode href)).toByteArray = href.utf8Encode ∧
      (∀ other, Uri.encode other = Uri.encode href → other = href) ∧
      '\n' ∉ label content ∧
      (∀ c, (label content).head? = some c ∨ (label content).getLast? = some c →
        Text.isBlank c = false) ∧
      readLink? (link content href) = some (href, label content) := by
  have hencoded := Text.Uri.encoded_encode href
  have hlink : link content href = '<' :: Uri.encode href ++ '|' :: label content ++ ['>'] := by
    rw [link, h]
  have hbar : '|' ∉ Uri.encode href := fun hm => (hencoded.visible hm).2.2 (by decide)
  refine ⟨hlink, hencoded, fun c => hencoded.visible, Text.Uri.toByteArray_decode_encode href,
    fun other he => Text.Uri.encode_injective he, newline_not_mem_label content, ?_, ?_⟩
  · rintro c (hc | hc)
    · exact Text.head?_trimWhile hc
    · exact Text.getLast?_trimWhile hc
  · rw [hlink]
    exact readLink?_token hbar (label content)

/-- A target with a percent sign, a bar, a bracket and a letter of two bytes. -/
theorem link_readable_escaped :
    Mention.ofHref? "https://a.b/%7C|>\u00fc".toList = none ∧
      readLink? (link "a<br />\nb ".toList "https://a.b/%7C|>\u00fc".toList)
        = some ("https://a.b/%7C|>\u00fc".toList, "a b".toList) := by
  have h : Mention.ofHref? "https://a.b/%7C|>\u00fc".toList = none := by decide
  obtain ⟨-, -, -, -, -, -, -, hread⟩ := @link_readable "a<br />\nb ".toList _ h
  have hlabel : label "a<br />\nb ".toList = "a b".toList := by decide
  rw [hlabel] at hread
  exact ⟨h, hread⟩

end Mrkdwn

end MessageLayout
