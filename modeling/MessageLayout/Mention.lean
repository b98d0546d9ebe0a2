/-!
# Mentions

A link whose target is not an address but a channel, a person, a group of people or an audience.
Such a target is `#` or `@` with an identifier, and is written in a syntax of its own.
-/

namespace MessageLayout

inductive Mention where
  | channel (id : List Char)
  | user (id : List Char)
  | userGroup (id : List Char)
  | audience (word : List Char)
deriving DecidableEq, Repr

namespace Mention

def isIdChar (c : Char) : Bool :=
  c.isUpper || c.isDigit

/-- Whether a text has at least eight characters and all may stand in an identifier. -/
def isIdBody (s : List Char) : Bool :=
  8 ≤ s.length && s.all isIdChar

def audiences : List (List Char) :=
  ["here".toList, "channel".toList, "everyone".toList]

def ofHref? : List Char → Option Mention
  | '#' :: s => if isIdBody s then some (.channel s) else none
  | '@' :: s =>
    match s with
    | 'U' :: body | 'W' :: body => if isIdBody body then some (.user s) else none
    | 'S' :: body => if isIdBody body then some (.userGroup s) else none
    | _ => if audiences.contains s then some (.audience s) else none
  | _ => none

def target : Mention → List Char
  | channel id | user id | userGroup id => id
  | audience word => word

def token : Mention → List Char
  | channel id => "<#".toList ++ id ++ ['>']
  | user id => "<@".toList ++ id ++ ['>']
  | userGroup id => "<!subteam^".toList ++ id ++ ['>']
  | audience word => "<!".toList ++ word ++ '|' :: word ++ ['>']

end Mention

end MessageLayout
