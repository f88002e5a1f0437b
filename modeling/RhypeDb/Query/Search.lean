import RhypeDb.Query.Traverse

/-! Ranked steps: a vector search over a type or over the rows in hand, and a full-text search
that ranks, under rules, only the candidates that may be read. -/

namespace RhypeDb.Query

open Authz ByteOrder Engine

def maxVectorSearchPool : Nat := 10000

structure ResolvedSearch where
  searchK : Nat
  ef : Nat
  exactRescore : Bool
  deriving DecidableEq, Repr

def resolveSearch (ef rerank defaultEf defaultRerank : Option Nat) (k : Nat) (restricted : Bool) :
    ResolvedSearch :=
  let ef := ef.orElse fun _ => defaultEf
  let rerank := (rerank.orElse fun _ => defaultRerank).filter fun r => decide (0 < r)
  let baseK := if restricted then max (saturatingMul k 4) k else k
  let searchK := min ((rerank.map fun r => max r baseK).getD baseK) maxVectorSearchPool
  let heuristicEf := if restricted then max (saturatingMul searchK 2) 64 else max k 50
  { searchK
    ef := min (max (ef.getD heuristicEf) searchK) maxVectorSearchPool
    exactRescore := rerank.isSome }

variable {F : Type} [JsonNumber F] (ctx : ExecContext F) (db : Database)

/-- The objects of the hits, without those that cannot be read. -/
def rankedRows (typeName : String) (hits : List (Id × RowScore)) : List (Object × RowScore) :=
  hits.filterMap fun hit =>
    (Engine.get ctx.schema db.store typeName hit.1).toOption.map fun obj => (obj, hit.2)

def runSimilar (typeName fieldName : String) (query : SimilarQuery) (k : Nat)
    (restrict : Option (List Id)) (ef rerank : Option Nat) : Metered QueryOutput :=
  if restrict = some [] then return .scored []
  else do
    let k := ctx.governor.clampLimit k
    ctx.governor.checkDeadline
    match ctx.vectorizer with
    | none => throw (.type "vector similarity search requires a vectorizer")
    | some vectorizer => do
      let r := resolveSearch ef rerank ctx.defaultEf ctx.defaultRerank k restrict.isSome
      let results ← MonadExcept.ofExcept
        (vectorizer db typeName fieldName query r.searchK r.ef r.exactRescore restrict)
      let hits := (results.filter fun hit => restrict.all fun ids => decide (hit.objectId ∈ ids)).take k
      return .scored (rankedRows ctx db typeName (hits.map fun hit =>
        (hit.objectId, { score := hit.distance, rerankScore := hit.rerankScore })))

def fulltextError : FulltextError → QueryError
  | .scanBudgetExceeded =>
    match ctx.governor.rowsExceededError with
    | .resourceLimitExceeded message => .resourceLimitExceeded
        (message ++ " (a full-text search: use rarer terms or `+` required terms)")
    | other => other
  | .deadlineExceeded => ctx.governor.deadlineError
  | .indexBuilding typeName field e =>
    if ctx.rules.isSome then
      .invalidArgument ("full-text index for '" ++ typeName ++ "." ++ field ++
        "' is still building; retry shortly")
    else .engine e
  | .other e => .engine e

def scoreCandidates (typeName : String) (candidates : FulltextCandidates) (k : Nat)
    (restrict : Option (List Id)) : Metered (List (Id × UInt32)) :=
  match ctx.rules with
  | none => MonadExcept.ofExcept
      ((candidates.score restrict k ctx.governor.deadline).mapError (fulltextError ctx))
  | some rules => do
    let ids := candidates.candidateIds.filter fun id => restrict.all fun set => decide (id ∈ set)
    let visible ← readableIds ctx db.store rules typeName ids
    ctx.governor.checkExhausted
    MonadExcept.ofExcept
      ((candidates.scoreVisible visible k ctx.governor.deadline).mapError (fulltextError ctx))

def runMatches (typeName fieldName : String) (text : Bytes) (k : Nat)
    (restrict : Option (List Id)) : Metered QueryOutput :=
  if restrict = some [] then return .scored []
  else do
    let k := ctx.governor.clampLimit k
    ctx.governor.checkDeadline
    let limits : FulltextLimits :=
      { maxPostings := ctx.governor.remainingScanBudget (← get)
        deadline := ctx.governor.deadline
        deferPrefixCap := ctx.rules.isSome }
    let candidates ← MonadExcept.ofExcept
      ((ctx.fulltext.candidates db typeName fieldName text limits).mapError (fulltextError ctx))
    ctx.governor.charge candidates.postingsScanned
    ctx.governor.charge candidates.scoringWork
    let hits ← scoreCandidates ctx db typeName candidates k restrict
    return .scored (rankedRows ctx db typeName (hits.map fun hit =>
      (hit.1, { score := hit.2, rerankScore := none })))

end RhypeDb.Query
