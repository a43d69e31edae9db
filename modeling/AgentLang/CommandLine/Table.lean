/-!
# Tables for the terminal

A title, a head with heavy lines and a body with light ones. Every column is as wide as its widest
cell.
-/

namespace AgentLang.CommandLine

structure Table where
  title : String
  head : List String
  rows : List (List String)

namespace Table

def repeated (count : Nat) (c : Char) : String := String.ofList (List.replicate count c)

/-- The widths of the columns. -/
def widths (table : Table) : List Nat :=
  table.rows.foldl (fun widths row => List.zipWith max widths (row.map String.length))
    (table.head.map String.length)

def padRight (width : Nat) (cell : String) : String :=
  cell ++ repeated (width - cell.length) ' '

/-- Cells between bars, with a blank at each side. -/
def cells (bar : String) (widths : List Nat) (row : List String) : String :=
  let padded (width : Nat) (cell : String) : String := " " ++ padRight width cell ++ " "
  bar ++ bar.intercalate (List.zipWith padded widths row) ++ bar

/-- A line between rows. -/
def rule (line : Char) (left middle right : String) (widths : List Nat) : String :=
  left ++ middle.intercalate (widths.map fun width => repeated (width + 2) line) ++ right

/-- A text in the middle of a width. The greater half of the blanks goes behind it. -/
def centred (width : Nat) (text : String) : String :=
  let free := width - text.length
  repeated (free / 2) ' ' ++ text ++ repeated (free - free / 2) ' '

def lines (table : Table) : List String :=
  let widths := table.widths
  let top := rule '━' "┏" "┳" "┓" widths
  [centred top.length table.title, top, cells "┃" widths table.head, rule '━' "┡" "╇" "┩" widths]
    ++ table.rows.map (cells "│" widths)
    ++ [rule '─' "└" "┴" "┘" widths]

def toText (table : Table) : String :=
  "\n".intercalate table.lines ++ "\n"

end Table
end AgentLang.CommandLine
