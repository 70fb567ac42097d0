import Multipath.Position
import Multipath.SortedSet

/-!
Path sets: the positions at which some match of a rule can end. Matches that end at the same
position count as one path.
-/

namespace Multipath

abbrev PathSet := SortedSet Position

namespace PathSet

def text (s : PathSet) : String :=
  "\x7b" ++ ", ".intercalate (s.toList.map Position.text) ++ "\x7d"

end PathSet
end Multipath
