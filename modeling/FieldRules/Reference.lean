/-!
# Reference texts

What the command line says about the language of rules, by category.
-/

namespace FieldRules.Reference

inductive Category
  | grammar
  | checks
  | crossField
  | errors
  deriving DecidableEq, Repr

/-- The letter in which names of categories are compared: a lower-case one, and `_` for `-`. The
Kelvin sign is the one character outside the alphabet that counts as a letter. -/
def fold (c : Char) : Char :=
  if c == '-' then '_' else if c == '\u212a' then 'k' else c.toLower

namespace Category

/-- The categories by all their names. -/
def named : List (String × Category) :=
  [("grammar", .grammar), ("syntax", .grammar),
    ("checks", .checks), ("check", .checks), ("functions", .checks),
    ("cross_field", .crossField), ("other", .crossField), ("fields", .crossField),
    ("errors", .errors), ("error", .errors)]

/-- The category of a name, in upper or lower case. -/
def ofName? (name : String) : Option Category :=
  named.lookup (name.map fold)

end Category

/-- Ends every line with a line feed. -/
def lines (texts : List String) : String :=
  String.join (texts.map (· ++ "\n"))

/-- The list of the categories. -/
def overview : String :=
  lines [
    "PUPIL DOCUMENTATION",
    "",
    "Pupil rules combine named checks on a value with && and ||, group them with",
    "parentheses, and negate them with !.",
    "",
    "DOCUMENTATION CATEGORIES",
    "",
    "  grammar           Rule syntax and how results are combined",
    "  checks            Built-in checks and their derived variants",
    "  cross-field       Checking one field against another in a batch",
    "  errors            What makes a rule fail to parse or evaluate",
    "",
    "QUICK REFERENCE",
    "",
    "  required              Check with no parameters",
    "  between:3,10          Check with parameters",
    "  a && b                Both",
    "  a || b                Either",
    "  !a                    Negation",
    "  (a || b) && c         Grouping",
    "",
    "Run 'pupil doc <category>' for details."]

def grammar : String :=
  lines [
    "GRAMMAR",
    "",
    "  rule       := term ((\"&&\" | \"||\") term)*",
    "  term       := \"!\"? (identifier | \"(\" rule \")\")",
    "  identifier := name (\":\" param (\",\" param)*)?",
    "",
    "  Parameters are raw text. There is no quoting: a parameter cannot contain",
    "  a comma or a colon. A single & or | is ordinary identifier text.",
    "",
    "COMBINING RESULTS",
    "",
    "  There is no precedence. Inside each group results are folded left to",
    "  right, starting from false under ||:",
    "",
    "    ||   turns the running result true if the next result is true,",
    "         and never turns it false",
    "    &&   keeps the running result true only if the next result is true",
    "",
    "  So \"min:10 && max:1 || min:1\" on \"5\" is true: the final || sees a true",
    "  result and the running result becomes true regardless of what came before.",
    "",
    "  Each group is folded on its own and contributes one result to its parent."]

def checks : String :=
  lines [
    "BUILT-IN CHECKS",
    "",
    "  required          Not absent, null or the empty string",
    "  min:n             Number >= n, or length >= n for non-numbers",
    "  max:n             Number <= n, or length <= n for non-numbers",
    "  between:lo,hi     lo <= number <= hi, or the same bounds on length",
    "  email             RFC 822 address syntax",
    "",
    "  A value is a number if its text parses as a finite number. Lengths are",
    "  counted in characters.",
    "",
    "DERIVED VARIANTS",
    "",
    "  Every check foo also registers:",
    "",
    "    notFoo          Negation of foo",
    "    otherFoo        foo applied to another field, named by the first parameter",
    "    notOtherFoo     Negation of otherFoo",
    "",
    "  Example: notEmail, otherMin:age,18, notOtherRequired:nickname"]

def crossField : String :=
  lines [
    "CROSS-FIELD CHECKS",
    "",
    "  In a batch every field's value is visible to every rule. The other*",
    "  variants read a field by name instead of the value being validated:",
    "",
    "    echo '\x7b\"pwd\": [\"secret\", \"required\"],",
    "           \"confirm\": [\"secret\", \"otherRequired:pwd && min:6\"]\x7d' | pupil batch",
    "",
    "  A field name that isn't in the batch reads as absent.",
    "",
    "  'pupil check' validates a single value, stored under the name \"value\"."]

def errors : String :=
  lines [
    "ERRORS",
    "",
    "  Unknown input type    A batch rule was neither a string nor a token array",
    "  Unclosed blocks       A '(' was never closed",
    "  No block to ascend to A ')' had no open group",
    "  Function not found    A rule names a check that isn't registered",
    "",
    "  Any error stops the whole batch. No partial results are returned."]

def Category.text : Category → String
  | .grammar => Reference.grammar
  | .checks => Reference.checks
  | .crossField => Reference.crossField
  | .errors => Reference.errors

end FieldRules.Reference
