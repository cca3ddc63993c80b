/-! Lines of a text, each with the end it has. -/
namespace ModWeave.Text

def isLineEnd (c : Char) : Bool := c == '\n' || c == '\r'

/-- Lines of a text that continues a line whose characters so far are `begun`, last one first. -/
def linesFrom (begun : List Char) : List Char → List (List Char)
  | [] => if begun.isEmpty then [] else [begun.reverse]
  | '\r' :: '\n' :: rest => (begun.reverse ++ ['\r', '\n']) :: linesFrom [] rest
  | c :: rest =>
    if isLineEnd c then (begun.reverse ++ [c]) :: linesFrom [] rest else linesFrom (c :: begun) rest

/-- Lines end with a line feed, a carriage return, or both in that order. The last one may lack its
end; a text that ends with a line end has no empty line behind it. -/
def lines (cs : List Char) : List (List Char) := linesFrom [] cs

theorem linesFrom_flatten (begun cs : List Char) :
    (linesFrom begun cs).flatten = begun.reverse ++ cs := by
  fun_induction linesFrom begun cs with
  | case1 => simp_all
  | case2 => simp_all
  | case3 begun rest ih => simp [ih]
  | case4 begun c rest _ _ ih => simp [ih]
  | case5 begun c rest _ _ ih => simp [ih]

/-- Splitting into lines loses nothing. -/
theorem lines_flatten (cs : List Char) : (lines cs).flatten = cs := linesFrom_flatten [] cs

end ModWeave.Text
