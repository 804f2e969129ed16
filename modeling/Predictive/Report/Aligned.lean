namespace Predictive

def blanks (n : Nat) : String := .ofList (List.replicate n ' ')

/-- Fills up with blanks on the left; the width counts code points. -/
def padLeft (width : Nat) (s : String) : String := blanks (width - s.length) ++ s

def textLines (lines : List String) : String := "\n".intercalate lines

/-- The width of each column: that of its widest cell. -/
def columnWidths (rows : List (List String)) : List Nat :=
  (List.range ((rows.map List.length).max?.getD 0)).map fun j =>
    (rows.filterMap fun row => row[j]?.map String.length).max?.getD 0

/-- Rows of cells, with columns that end at the same place. -/
def aligned (rows : List (List String)) : String :=
  let widths := columnWidths rows
  textLines (rows.map fun row => " | ".intercalate (widths.zipWith padLeft row))

end Predictive
