set_option autoImplicit false

namespace ThreatModel

inductive Block where
  | panel (text : String) (title subtitle : Option String) (border : String) (width : Int)
  | table (title : Option String) (columns : List String) (rows : List (List String)) (width : Int)
  | text (text : String)
  deriving DecidableEq, Repr

def Block.gap : Block := .text ""

end ThreatModel
