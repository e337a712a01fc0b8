import Clausal.Oracle
import Clausal.Search.AddClause
import Clausal.Search.Solve

/-!
# The search as an oracle

The built-in oracle. Each start is a new search with the same configuration, and so with the same
random words.
-/

namespace Clausal.Search

def oracle (clock : Clock) : Oracle Search where
  start atomCount s := new s.config atomCount
  addClause c s := s.addClause c
  solve s :=
    let (report, s) := s.solve clock
    (.ok report, s)

end Clausal.Search
