import Pinyin.CutGraph.Basic

/-!
# Pinyin.CutGraph.Printer

The text that shows a graph: its own text in quotes and its edges in order.
-/

namespace Pinyin.CutGraph

/-- The start and the stop of an edge in parentheses. -/
def describeEdge (p : Nat) (e : Edge) : List Char :=
  '(' :: Nat.toDigits 10 p ++ ", ".toList ++ Nat.toDigits 10 e.stop ++ [')']

/-- The text that shows a graph. -/
def describe (g : CutGraph) : List Char :=
  "SegmentGraph(".toList ++ quoteText g.text ++ ", edges=[".toList ++
    ", ".toList.intercalate (g.allEdges.map fun (p, e) => describeEdge p e) ++ "])".toList

end Pinyin.CutGraph
