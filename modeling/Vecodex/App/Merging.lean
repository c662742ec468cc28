import Mathlib.Data.List.AList
import Mathlib.Algebra.Order.Field.Rat
import Vecodex.Lib.Machine
import Vecodex.Lib.Sorting

/-!
# Merging the answers of the searchers (`app/include/Merging.h`)

The searchers answer with ids in order of distance, without the distances. The coordinator gives
an id a score for each answer it is in, the larger the earlier it stands there, adds them up and
returns the ids with the largest sums.

Scores are exact rationals here. The order in which the hash table of scores is read and the ties
of the sort are parameters.
-/

namespace Vecodex

open Lib

variable {ID : Type} [DecidableEq ID]

/-- `RFF_CONST`. -/
def rffConst : ℚ := 60

def getScore (id : Nat) : ℚ := 1 / (rffConst + id + 1)

/-- `doc_to_score`. -/
abbrev DocToScore (ID : Type) := AList fun _ : ID => ℚ

namespace DocToScore

/-- The body of the inner loop. -/
def addScore (docToScore : DocToScore ID) (id : ID) (score : ℚ) : DocToScore ID :=
  match docToScore.lookup id with
  | some old => docToScore.insert id (old + score)
  | none => docToScore.insert id score

/-- The body of the outer loop: the scores of the ids of one response. -/
def addResponse (docToScore : DocToScore ID) (response : List ID) : DocToScore ID :=
  response.zipIdx.foldl (fun scores entry => scores.addScore entry.1 (getScore entry.2)) docToScore

def ofResponses (responses : List (List ID)) : DocToScore ID := responses.foldl addResponse ∅

end DocToScore

/-- The comparator of the sort. -/
def scoresAbove (first second : Σ _ : ID, ℚ) : Bool := decide (first.2 > second.2)

def mergeSearcherAnswers (order : IterOrder (Σ _ : ID, ℚ)) (sorting : Sorting (@scoresAbove ID))
    (responses : List (List ID)) (numRequested : Nat) : List ID :=
  let docToScore := DocToScore.ofResponses responses
  let sorted := sorting.sort (order.arrange docToScore.entries)
  (sorted.take numRequested).map Sigma.fst

end Vecodex
