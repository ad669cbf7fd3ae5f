/-! Taking a text apart into lines. A line ends at a line feed, with a carriage return before it if there
is one, or at the end of the text. -/

namespace Mcfunction.Text

def lines : List Char → List (List Char)
  | [] => []
  | '\n' :: rest => [] :: lines rest
  | '\r' :: '\n' :: rest => [] :: lines rest
  | c :: rest =>
    match lines rest with
    | [] => [[c]]
    | l :: ls => (c :: l) :: ls

end Mcfunction.Text
