import Pinyin.CutGraph.Path

/-!
# Pinyin.Decoder.Span

The ways through a graph that one word can take.
-/

namespace Pinyin.CutGraph

/-- The ways on from a position with at most `most` syllables that end with a
syllable.  Separators may come before a syllable only where the word is `opened`
already. -/
def spansFrom (g : CutGraph) (most : Nat) (opened : Bool) (p : Nat) : List Path :=
  match most with
  | 0 => []
  | rest + 1 =>
    if g.IsSeparator p then
      if opened then
        (g.successors p).attach.flatMap fun q => (g.spansFrom (rest + 1) true q.val).map (p :: ·)
      else []
    else
      (g.successors p).attach.flatMap fun q =>
        [p, q.val] :: (g.spansFrom rest true q.val).map (p :: ·)
termination_by g.size - p
decreasing_by
  all_goals
    have := lt_of_mem_successors q.property
    omega

/-- The ways from a position with one to `most` syllables, a syllable first and last,
each before those that extend it. -/
def spans (g : CutGraph) (most start : Nat) : List Path := g.spansFrom most false start

end Pinyin.CutGraph
