/-!
# Layouts of structured values

A value with parts is written between an opening and a closing text, either on one line with
its parts separated by commas, or with every part on lines of its own, indented by four and
followed by a comma. A value without parts has nothing between the two in either style.
-/

namespace RobinHood

namespace Text

/-- The two ways to lay out a value. -/
inductive Style where
  /-- Everything on one line. -/
  | line
  /-- Each part on lines of its own. -/
  | block
deriving DecidableEq, Repr

/-- Every line of a text moved four to the right. -/
def indent (s : String) : String :=
  String.ofList ([' ', ' ', ' ', ' '] ++
    s.toList.flatMap fun c => if c = '\n' then ['\n', ' ', ' ', ' ', ' '] else [c])

namespace Style

/-- The parts between `opening` and `closing`; on one line `gap` stands inside both. -/
def enclose (style : Style) (opening gap closing : String) (parts : List String) : String :=
  if parts.isEmpty then opening ++ closing
  else
    match style with
    | line => opening ++ gap ++ ", ".intercalate parts ++ gap ++ closing
    | block =>
      opening ++ "\n" ++ String.join (parts.map fun part => indent part ++ ",\n") ++ closing

/-- A sequence of values. -/
def list (style : Style) (items : List String) : String := style.enclose "[" "" "]" items

/-- A set of values. -/
def set (style : Style) (items : List String) : String :=
  style.enclose "\x7b" "" "\x7d" items

/-- Keys with their values. -/
def map (style : Style) (pairs : List (String × String)) : String :=
  style.enclose "\x7b" "" "\x7d" (pairs.map fun (key, value) => key ++ ": " ++ value)

/-- A named record with its fields. -/
def record (style : Style) (name : String) (fields : List (String × String)) : String :=
  style.enclose (name ++ " \x7b") " " "\x7d"
    (fields.map fun (field, value) => field ++ ": " ++ value)

end Style

end Text

end RobinHood
