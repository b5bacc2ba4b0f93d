/-!
# Lines

A text is cut at line feeds; a carriage return before a line feed belongs to the line end. A final
line feed opens no further line.
-/
namespace CfiSlack.Text

/-- A line without the carriage return of its line end. -/
def dropReturn (line : List Char) : List Char :=
  if line.getLast? = some '\r' then line.dropLast else line

/-- Cut a text into lines; `line` holds the characters since the last cut, latest first. -/
def linesFrom : List Char → List Char → List (List Char)
  | [], [] => []
  | line, [] => [line.reverse]
  | line, '\n' :: cs => dropReturn line.reverse :: linesFrom [] cs
  | line, c :: cs => linesFrom (c :: line) cs

def lines (cs : List Char) : List (List Char) := linesFrom [] cs

theorem linesFrom_append {cs : List Char} (h : '\n' ∉ cs) (line rest : List Char) :
    linesFrom line (cs ++ rest) = linesFrom (cs.reverse ++ line) rest := by
  induction cs generalizing line with
  | nil => rfl
  | cons c cs ih =>
    rw [List.mem_cons, not_or] at h
    rw [List.cons_append, linesFrom.eq_4 _ _ _ (Ne.symm h.1), ih h.2]
    simp

theorem lines_append {line : List Char} (h : '\n' ∉ line) (hreturn : line.getLast? ≠ some '\r')
    (cs : List Char) : lines (line ++ '\n' :: cs) = line :: lines cs := by
  rw [lines, linesFrom_append h, linesFrom]
  simp [dropReturn, hreturn, lines]

theorem lines_flatMap_append {written : List (List Char)} (h : ∀ line ∈ written, '\n' ∉ line)
    (hreturn : ∀ line ∈ written, line.getLast? ≠ some '\r') (cs : List Char) :
    lines (written.flatMap (· ++ ['\n']) ++ cs) = written ++ lines cs := by
  induction written with
  | nil => rfl
  | cons line written ih =>
    have hrest := ih (fun l hl => h l (List.mem_cons_of_mem line hl))
      fun l hl => hreturn l (List.mem_cons_of_mem line hl)
    have hline := lines_append (h line List.mem_cons_self) (hreturn line List.mem_cons_self)
      (written.flatMap (· ++ ['\n']) ++ cs)
    simpa [hrest] using hline

/-- A last line need not be closed. -/
theorem lines_of_notMem {line : List Char} (hne : line ≠ []) (h : '\n' ∉ line) : lines line = [line] := by
  have hlines := linesFrom_append h [] []
  obtain ⟨c, cs, hreverse⟩ := List.exists_cons_of_ne_nil (List.reverse_ne_nil_iff.mpr hne)
  rw [List.append_nil, List.append_nil, hreverse] at hlines
  rw [lines, hlines, linesFrom, ← hreverse, List.reverse_reverse]
  nofun

/-- Without the last line feed, a last line that is not empty is still there. -/
theorem lines_dropLast_flatMap {written : List (List Char)} (h : ∀ line ∈ written, '\n' ∉ line)
    (hreturn : ∀ line ∈ written, line.getLast? ≠ some '\r') (hlast : written.getLast? ≠ some []) :
    lines (written.flatMap (· ++ ['\n'])).dropLast = written := by
  rcases List.eq_nil_or_concat written with rfl | ⟨init, last, rfl⟩
  · rfl
  · simp only [List.concat_eq_append, List.mem_append, List.mem_singleton, List.getLast?_concat] at *
    have hinit := lines_flatMap_append (fun l hl => h l (.inl hl)) (fun l hl => hreturn l (.inl hl)) last
    have hline := lines_of_notMem (fun hnil => hlast (congrArg some hnil)) (h last (.inr rfl))
    rw [List.flatMap_append, List.flatMap_singleton, ← List.append_assoc, List.dropLast_concat, hinit, hline]

end CfiSlack.Text
