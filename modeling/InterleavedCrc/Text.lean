/-!
# Outlines and events

A value that people read is outlined as named fields and bracketed groups.  The
same outline is written on one line, or with one item a line under an indent of
four blanks.  An event is what the library tells a log while it works: a severity,
a fixed message and named values.
-/

namespace InterleavedCrc

inductive Bracket where
  | record (name : String)
  | sequence
  | set
  | tuple
deriving DecidableEq

inductive Outline where
  | leaf (text : String)
  | field (name : String) (value : Outline)
  | group (bracket : Bracket) (items : List Outline)

namespace Bracket

def opening : Bracket → String
  | record name => name ++ " \x7b"
  | sequence => "["
  | set => "\x7b"
  | tuple => "("

def closing : Bracket → String
  | record _ => "\x7d"
  | sequence => "]"
  | set => "\x7d"
  | tuple => ")"

/-- What stands between a bracket and the items on the same line. -/
def padding : Bracket → String
  | record _ => " "
  | _ => ""

end Bracket

namespace Outline

def ofNat (n : Nat) : Outline := leaf (toString n)

/-- A text in quotation marks; the texts outlined here hold none themselves. -/
def quoted (text : String) : Outline := leaf ("\"" ++ text ++ "\"")

mutual

/-- The outline on one line. -/
def inline : Outline → String
  | leaf text => text
  | field name value => name ++ ": " ++ inline value
  | group bracket items =>
      bracket.opening ++ bracket.padding ++ ", ".intercalate (inlineItems items)
        ++ bracket.padding ++ bracket.closing

def inlineItems : List Outline → List String
  | [] => []
  | item :: items => inline item :: inlineItems items

end

mutual

/-- The outline over several lines, all but the first behind `margin`.  An empty
group stays on its line. -/
def indented (margin : String) : Outline → String
  | leaf text => text
  | field name value => name ++ ": " ++ indented margin value
  | group bracket [] => bracket.opening ++ bracket.closing
  | group bracket (item :: items) =>
      bracket.opening ++ "\n" ++ indentedItems (margin ++ "    ") (item :: items)
        ++ margin ++ bracket.closing

def indentedItems (margin : String) : List Outline → String
  | [] => ""
  | item :: items => margin ++ indented margin item ++ ",\n" ++ indentedItems margin items

end

end Outline

/-! ## Events -/

inductive Severity where
  | trace
  | debug
deriving DecidableEq

inductive EventValue where
  | number (n : Nat)
  | text (s : String)
  | flag (b : Bool)
deriving DecidableEq

structure Event where
  severity : Severity
  message : String
  values : List (String × EventValue)
deriving DecidableEq

def Severity.name : Severity → String
  | trace => "TRACE"
  | debug => "DEBUG"

end InterleavedCrc
