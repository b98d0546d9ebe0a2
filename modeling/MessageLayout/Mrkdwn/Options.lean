/-!
# Formatting options

In exact mode each delimiter stands between zero-width spaces, so that it cannot merge with the
characters next to it.
-/

namespace MessageLayout

structure FormatOptions where
  /-- Whether delimiters are guarded by zero-width spaces. -/
  exactMode : Bool := false
deriving DecidableEq, Repr, Inhabited

namespace Mrkdwn

def zeroWidthSpace : Char := '\u200b'

/-- The delimiters of the inline styles. -/
structure Delimiters where
  strong : List Char
  emphasis : List Char
  strike : List Char
  code : List Char
deriving DecidableEq, Repr

def delimiter (options : FormatOptions) (c : Char) : List Char :=
  if options.exactMode then [zeroWidthSpace, c, zeroWidthSpace] else [c]

def delimiters (options : FormatOptions) : Delimiters where
  strong := delimiter options '*'
  emphasis := delimiter options '_'
  strike := delimiter options '~'
  code := delimiter options '\x60'

end Mrkdwn

end MessageLayout
