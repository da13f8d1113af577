import FieldRules.Registry

/-!
# Addresses

The syntax of an electronic mail address: words joined by dots, an `@`, and parts of a domain joined
by dots. A word is an atom or a quoted text, a part of a domain is an atom or a literal in square
brackets. One character decides at each place how to go on, so an automaton reads the address.
-/

namespace FieldRules.Email

/-- The characters from `\x80` to `\xff`. -/
def isUpperHalf (c : Char) : Bool :=
  '\u0080' ≤ c && c ≤ '\u00ff'

/-- The characters that stand for themselves in no atom. -/
def isSpecial (c : Char) : Bool :=
  "\"(),.:;<>@[\\]".toList.contains c

/-- The characters of atoms. -/
def isAtomic (c : Char) : Bool :=
  !(c ≤ ' ' || c == '\x7f' || isUpperHalf c || isSpecial c)

/-- The characters that need no backslash in a quoted text. -/
def isQuotable (c : Char) : Bool :=
  !(c == '\r' || c == '"' || c == '\\' || isUpperHalf c)

/-- The characters that need no backslash in a literal. -/
def isLiteral (c : Char) : Bool :=
  !(c == '\r' || c == '[' || c == '\\' || c == ']' || isUpperHalf c)

/-- The characters that may follow a backslash. -/
def isEscapable (c : Char) : Bool :=
  c ≤ '\x7f'

/-- How far an address has been read. -/
inductive State
  /-- A word is to begin. -/
  | word
  | wordAtom
  | quoted
  /-- Behind a backslash in a quoted text. -/
  | quotedEscape
  | quotedEnd
  /-- A part of the domain is to begin. -/
  | domain
  | domainAtom
  | literal
  /-- Behind a backslash in a literal. -/
  | literalEscape
  | literalEnd
  deriving DecidableEq, Repr

namespace State

/-- Goes on by one character behind a complete word. -/
def afterWord (c : Char) : Option State :=
  if c == '.' then some .word else if c == '@' then some .domain else none

/-- Goes on by one character behind a complete part of the domain. -/
def afterDomain (c : Char) : Option State :=
  if c == '.' then some .domain else none

/-- Goes on by one character, unless no address does. -/
def next (c : Char) : State → Option State
  | .word => if c == '"' then some .quoted else if isAtomic c then some .wordAtom else none
  | .wordAtom => if isAtomic c then some .wordAtom else afterWord c
  | .quoted =>
    if c == '"' then some .quotedEnd else if c == '\\' then some .quotedEscape
    else if isQuotable c then some .quoted else none
  | .quotedEscape => if isEscapable c then some .quoted else none
  | .quotedEnd => afterWord c
  | .domain => if c == '[' then some .literal else if isAtomic c then some .domainAtom else none
  | .domainAtom => if isAtomic c then some .domainAtom else afterDomain c
  | .literal =>
    if c == ']' then some .literalEnd else if c == '\\' then some .literalEscape
    else if isLiteral c then some .literal else none
  | .literalEscape => if isEscapable c then some .literal else none
  | .literalEnd => afterDomain c

/-- An address may end here. -/
def isFinal : State → Bool
  | .domainAtom => true
  | .literalEnd => true
  | _ => false

/-- Whether what follows completes an address. -/
def accepts (state : State) : List Char → Bool
  | [] => state.isFinal
  | c :: rest =>
    match state.next c with
    | some state => state.accepts rest
    | none => false

end State

def isAddress (text : String) : Bool :=
  State.word.accepts text.toList

end Email

/-- A text that is an address. -/
def Check.email : Check := fun _ value _ ↦
  match value with
  | .string text => Email.isAddress text
  | _ => false

end FieldRules
