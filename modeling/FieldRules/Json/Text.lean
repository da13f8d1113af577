import FieldRules.Json

/-!
# JSON strings

Between the quotes of a string every character stands for itself, except quotes, backslashes and
control characters, which are escaped. Reading takes an escape for any character; one beyond 16 bits
is a pair of surrogates.
-/

namespace FieldRules.Json

/-- The lower-case hexadecimal digits of a control character, four of them. -/
def controlCode (c : Char) : List Char :=
  let digits := Nat.toDigits 16 c.toNat
  List.replicate (4 - digits.length) '0' ++ digits

def escape (c : Char) : List Char :=
  if c == '"' || c == '\\' then ['\\', c]
  else if c == '\x08' then ['\\', 'b']
  else if c == '\x0c' then ['\\', 'f']
  else if c == '\n' then ['\\', 'n']
  else if c == '\r' then ['\\', 'r']
  else if c == '\t' then ['\\', 't']
  else if c < ' ' then '\\' :: 'u' :: controlCode c
  else [c]

def quoted (text : String) : String :=
  String.ofList ('"' :: text.toList.flatMap escape ++ ['"'])

/-- The character that a letter stands for behind a backslash. -/
def unescape? : Char → Option Char
  | '"' => some '"'
  | '\\' => some '\\'
  | '/' => some '/'
  | 'b' => some '\x08'
  | 'f' => some '\x0c'
  | 'n' => some '\n'
  | 'r' => some '\r'
  | 't' => some '\t'
  | _ => none

def hexDigit? (c : Char) : Option Nat :=
  if c.isDigit then some (c.toNat - '0'.toNat)
  else if 'a' ≤ c ∧ c ≤ 'f' then some (c.toNat - 'a'.toNat + 10)
  else if 'A' ≤ c ∧ c ≤ 'F' then some (c.toNat - 'A'.toNat + 10)
  else none

/-- Reads four hexadecimal digits. A text of less than four bytes ends too early for them. -/
def readHex (cs : List Char) : Except Fault (Nat × List Char) :=
  match cs with
  | a :: b :: c :: d :: rest =>
    match hexDigit? a, hexDigit? b, hexDigit? c, hexDigit? d with
    | some a, some b, some c, some d => .ok (((a * 16 + b) * 16 + c) * 16 + d, rest)
    | _, _, _, _ => .error .malformed
  | _ => .error (if (String.ofList cs).utf8ByteSize < 4 then .endOfText else .malformed)

/-- Reads the second half of a pair of surrogates, whose first half is `high`. -/
def readLow (high : Nat) : List Char → Except Fault (Char × List Char)
  | '\\' :: 'u' :: rest =>
    match readHex rest with
    | .error e => .error e
    | .ok (low, rest) =>
      if 0xdc00 ≤ low ∧ low < 0xe000 then
        .ok (Char.ofNat (0x10000 + (high - 0xd800) * 0x400 + (low - 0xdc00)), rest)
      else .error .malformed
  | [] => .error .endOfText
  | ['\\'] => .error .endOfText
  | _ => .error .malformed

/-- Reads what stands behind a backslash. -/
def readEscape : List Char → Except Fault (Char × List Char)
  | [] => .error .endOfText
  | 'u' :: rest =>
    match readHex rest with
    | .error e => .error e
    | .ok (code, rest) =>
      if 0xd800 ≤ code ∧ code < 0xdc00 then readLow code rest
      else if 0xdc00 ≤ code ∧ code < 0xe000 then .error .malformed
      else .ok (Char.ofNat code, rest)
  | c :: rest =>
    match unescape? c with
    | some c => .ok (c, rest)
    | none => .error .malformed

theorem length_readHex {cs rest : List Char} {code : Nat} (h : readHex cs = .ok (code, rest)) :
    rest.length < cs.length := by
  unfold readHex at h
  split at h
  · split at h
    · obtain ⟨-, rfl⟩ := Prod.mk.inj (Except.ok.inj h)
      simp only [List.length_cons]
      omega
    · cases h
  · cases h

theorem length_readLow {high : Nat} {cs rest : List Char} {c : Char}
    (h : readLow high cs = .ok (c, rest)) : rest.length < cs.length := by
  unfold readLow at h
  split at h
  · split at h
    · cases h
    · next hhex =>
      have := length_readHex hhex
      split at h
      · obtain ⟨-, rfl⟩ := Prod.mk.inj (Except.ok.inj h)
        simp only [List.length_cons]
        omega
      · cases h
  · cases h
  · cases h
  · cases h

theorem length_readEscape {cs rest : List Char} {c : Char} (h : readEscape cs = .ok (c, rest)) :
    rest.length < cs.length := by
  unfold readEscape at h
  split at h
  · cases h
  · split at h
    · cases h
    · next hhex =>
      have := length_readHex hhex
      split at h
      · have := length_readLow h
        simp only [List.length_cons]
        omega
      · split at h
        · cases h
        · obtain ⟨-, rfl⟩ := Prod.mk.inj (Except.ok.inj h)
          simp only [List.length_cons]
          omega
  · split at h
    · obtain ⟨-, rfl⟩ := Prod.mk.inj (Except.ok.inj h)
      simp
    · cases h

/-- Reads a string up to its closing quote, behind the characters `read`, last first. -/
def readString (read : List Char) : List Char → Except Fault (String × List Char)
  | [] => .error .endOfText
  | '"' :: rest => .ok (String.ofList read.reverse, rest)
  | '\\' :: rest =>
    match _h : readEscape rest with
    | .error e => .error e
    | .ok (c, rest) => readString (c :: read) rest
  | c :: rest => if c < ' ' then .error .malformed else readString (c :: read) rest
termination_by cs => cs.length
decreasing_by
  · have := length_readEscape (by assumption)
    simp only [List.length_cons]
    omega
  · simp

theorem length_readString {read cs rest : List Char} {text : String}
    (h : readString read cs = .ok (text, rest)) : rest.length < cs.length := by
  fun_induction readString read cs with
  | case1 => cases h
  | case2 =>
    cases h
    simp
  | case3 => cases h
  | case4 read tail c after hescape ih =>
    have := length_readEscape hescape
    have := ih h
    simp only [List.length_cons]
    omega
  | case5 => cases h
  | case6 read c tail _ _ _ ih =>
    have := ih h
    simp only [List.length_cons]
    omega

end FieldRules.Json
