import LoopConflict.Text.Decimal

/-!
Rows of cells laid out in columns. A column is as wide as its widest cell over consecutive rows that
have a further cell after it, and two more; the last cell of a row is not padded.
-/
namespace LoopConflict.Text

/-- The blanks between a column and the next one. -/
def columnGap : Nat := 2

/-- A cell filled up with blanks. -/
def padded (width : Nat) (cell : String) : String :=
  cell ++ repeated " " (width - cell.length)

/-- The first cell is followed by another one, so it belongs to a column. -/
def opensColumn (row : List String) : Bool :=
  2 ≤ row.length

/-- The rows at the front whose first cell belongs to a column. -/
def columnRun (rows : List (List String)) : List (List String) :=
  rows.takeWhile opensColumn

/-- The width of the first column of some rows. -/
def columnWidth (rows : List (List String)) : Nat :=
  rows.foldl (fun w row => max w ((row.headD "").length + columnGap)) 0

/-- The number of cells in all rows. -/
def cellCount : List (List String) → Nat
  | [] => 0
  | row :: rows => row.length + cellCount rows

theorem cellCount_append (rows others : List (List String)) :
    cellCount (rows ++ others) = cellCount rows + cellCount others := by
  induction rows with
  | nil => simp [cellCount]
  | cons row rows ih => simp [cellCount, ih, Nat.add_assoc]

theorem columnRun_append_drop (rows : List (List String)) :
    columnRun rows ++ rows.drop (columnRun rows).length = rows := by
  induction rows with
  | nil => rfl
  | cons row rows ih =>
    unfold columnRun at *
    by_cases h : opensColumn row <;> simp [h, ih]

theorem cellCount_tail_columnRun (rows : List (List String)) :
    cellCount ((columnRun rows).map List.tail) + (columnRun rows).length = cellCount (columnRun rows) := by
  induction rows with
  | nil => rfl
  | cons row rows ih =>
    unfold columnRun opensColumn at *
    by_cases h : 2 ≤ row.length
    · simp [h, cellCount] at ih ⊢
      omega
    · simp [h, cellCount]

/-- Lays out rows, column by column: a run of rows that share a column is padded there, and its further
    cells are laid out among themselves. -/
def columns (rows : List (List String)) : List String :=
  match _h : rows with
  | [] => []
  | row :: rest =>
    if opensColumn row then
      let run := columnRun (row :: rest)
      let width := columnWidth run
      List.zipWith (fun row tail => padded width (row.headD "") ++ tail) run (columns (run.map List.tail)) ++
        columns ((row :: rest).drop run.length)
    else row.headD "" :: columns rest
termination_by (cellCount rows, rows.length)
decreasing_by
  · have split := congrArg cellCount (columnRun_append_drop (row :: rest))
    have tails := cellCount_tail_columnRun (row :: rest)
    have pos : 0 < (columnRun (row :: rest)).length := by simp_all [columnRun]
    rw [cellCount_append] at split
    exact Prod.Lex.left _ _ (by omega)
  · have split := congrArg cellCount (columnRun_append_drop (row :: rest))
    have tails := cellCount_tail_columnRun (row :: rest)
    have pos : 0 < (columnRun (row :: rest)).length := by simp_all [columnRun]
    rw [cellCount_append] at split
    exact Prod.Lex.left _ _ (by omega)
  · by_cases none : row.length = 0
    · subst _h
      have same : cellCount (row :: rest) = cellCount rest := by simp [cellCount, none]
      rw [same]
      exact Prod.Lex.right _ (by simp)
    · exact Prod.Lex.left _ _ (by subst _h; simp [cellCount]; omega)

end LoopConflict.Text
