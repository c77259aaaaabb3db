import SamplerPorts.Text.Basic

/-!
The lines that a difference is told in. Other than the lines that ports are set in, they end after
a line feed, after a carriage return with the line feed behind it, and after a carriage return that
stands alone; the end belongs to the line.
-/

namespace SamplerPorts.Diff

/-- The lines of a text with their ends. The last line may have none. -/
def lines : Text → List Text
  | [] => []
  | '\r' :: '\n' :: rest => ['\r', '\n'] :: lines rest
  | c :: rest =>
      if c = '\n' ∨ c = '\r' then [c] :: lines rest
      else match lines rest with
        | [] => [[c]]
        | first :: more => (c :: first) :: more

theorem flatten_lines (t : Text) : (lines t).flatten = t := by
  fun_induction lines t with
  | case1 => rfl
  | case2 rest ih => simp [ih]
  | case3 c rest _ _ ih => simp [ih]
  | case4 c rest _ _ h ih => simp_all
  | case5 c rest _ _ first more h ih => simp_all

/-- Whether the line has its end. -/
def isEnded (line : Text) : Bool :=
  line.getLast? == some '\n' || line.getLast? == some '\r'

end SamplerPorts.Diff
