import RhypeDb.Authz.Metered
import RhypeDb.Engine.FilterScan
import RhypeDb.Engine.Links
import RhypeDb.Query.Governor
import RhypeDb.Query.Predicate

/-! Queries, what they run against, and what they return. The vectorizer and the full-text index
are searched through functions that stand for them. -/

namespace RhypeDb.Query

open Authz ByteOrder Engine Storage

inductive Source
  | get (typeName : String) (id : Id)
  | filter (typeName : String) (predicate : Predicate)
  | create (typeName : String) (fields : LiteralMap)
  | createBatch (typeName : String) (rows : List LiteralMap)
  | all (typeName : String)

inductive SimilarQuery
  | text (s : Bytes)
  | vector (bits : List UInt32)
  deriving DecidableEq

inductive Step
  | traverse (fieldName : String)
  | filter (predicate : Predicate)
  | similar (fieldName : String) (query : SimilarQuery) (k : Nat) (ef rerank : Option Nat)
  | matches (fieldName : String) (query : Bytes) (k : Nat)
  | update (fields : LiteralMap)
  | delete
  | link (targetType : String) (targetId : Id) (edgeFields : LiteralMap)
  | unlink (targetType : String) (targetId : Id)
  | limit (count : Nat)
  | offset (count : Nat)

def Step.isWrite : Step → Bool
  | .update _ => true
  | .delete => true
  | .link _ _ _ => true
  | .unlink _ _ => true
  | _ => false

set_option linter.dupNamespace false in
structure Query where
  source : Source
  steps : List Step

def Source.typeName : Source → String
  | .get typeName _ => typeName
  | .filter typeName _ => typeName
  | .create typeName _ => typeName
  | .createBatch typeName _ => typeName
  | .all typeName => typeName

/-- `point_source`: a get or a create, which inspects no data. -/
def Source.isPoint : Source → Bool
  | .get _ _ => true
  | .create _ _ => true
  | .createBatch _ _ => true
  | _ => false

structure RowScore where
  score : UInt32
  rerankScore : Option UInt32
  deriving DecidableEq

inductive QueryOutput
  | objects (objs : List Object)
  | single (obj : Object)
  | done
  | scored (rows : List (Object × RowScore))
  | idSet (typeName : String) (ids : List Id)
  | idSetWithFields (typeName : String) (items : List (Id × Payload))
  deriving DecidableEq

structure SimilarHit where
  objectId : Id
  distance : UInt32
  rerankScore : Option UInt32

/-- `search_text` and `search_vector`. -/
abbrev Vectorizer := Database → (typeName fieldName : String) → SimilarQuery →
  (searchK ef : Nat) → (exactRescore : Bool) → (restrict : Option (List Id)) →
    Except QueryError (List SimilarHit)

inductive FulltextError
  | scanBudgetExceeded
  | deadlineExceeded
  | indexBuilding (typeName field : String) (e : EngineError)
  | other (e : EngineError)

structure FulltextLimits where
  maxPostings : Option Nat
  deadline : Option Nat
  deferPrefixCap : Bool

structure FulltextCandidates where
  postingsScanned : Nat
  scoringWork : Nat
  candidateIds : List Id
  scoreVisible : (visible : List Id) → Nat → (deadline : Option Nat) →
    Except FulltextError (List (Id × UInt32))
  score : (restrict : Option (List Id)) → Nat → (deadline : Option Nat) →
    Except FulltextError (List (Id × UInt32))

structure Fulltext where
  candidates : Database → (typeName fieldName : String) → Bytes → FulltextLimits →
    Except FulltextError FulltextCandidates
  indexWords : (typeName : String) → FieldMap → Nat
  storedWords : Database → (typeName : String) → List Id → Option FieldMap → Except EngineError Nat

/-- The libraries behind a value's JSON: finite doubles as numbers, texts, base64, RFC 3339 and
parsed JSON. -/
structure JsonCodecs (F : Type) where
  number : (bits : UInt64) → Option F
  text : Bytes → String
  base64 : Bytes → String
  rfc3339 : Int64 → String
  parse : Bytes → Json F

section

variable {F : Type} (json : JsonCodecs F)

def JsonCodecs.ofBits (bits : UInt64) : Json F := ((json.number bits).map Json.number).getD .null

def valueToQueryJson : Value → Json F
  | .string s => .string (json.text s)
  | .u32 n => json.ofBits (f64OfInt n.toNat)
  | .u64 n => json.ofBits (f64OfInt n.toNat)
  | .i32 n => json.ofBits (f64OfInt n.toInt)
  | .i64 n => json.ofBits (f64OfInt n.toInt)
  | .f32 bits => json.ofBits (widenF32 bits)
  | .f64 bits => json.ofBits bits
  | .bool b => .bool b
  | .bytes b => .string (json.base64 b)
  | .dateTime ms => .string (json.rfc3339 ms)
  | .json text => json.parse text
  | .null => .null

end

/-- `rules` is `none` where authorization is off. `pruned` answers for the scans that skip blocks
or cut their layers. -/
structure ExecContext (F : Type) where
  schema : Schema
  codecs : Codecs
  json : JsonCodecs F
  vectorizer : Option Vectorizer
  fulltext : Fulltext
  defaultEf : Option Nat
  defaultRerank : Option Nat
  governor : Governor
  principal : Principal F
  rules : Option (RulesProgram F)
  pruned : Store → Reads

end RhypeDb.Query
