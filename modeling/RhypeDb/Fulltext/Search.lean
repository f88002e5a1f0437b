import RhypeDb.Engine.Value

/-! Ranking decoded postings. Hash maps are association lists; what a map hands out when it is
iterated comes in an order of its own, and scores are of any type with the operations. -/

namespace RhypeDb.Fulltext

open Engine

structure Iteration where
  order : {α : Type} → List α → List α
  perm : ∀ {α : Type} (l : List α), (order l).Perm l

/-- Decoding refuses positions that do not ascend. -/
structure Posting where
  docLen : UInt32
  tf : UInt32
  positions : List UInt32
  ascending : positions.Pairwise (· < ·)
  deriving DecidableEq

abbrev PostingList := List (Id × Posting)

structure CorpusStats where
  docCount : Nat
  totalTokens : Nat
  deriving DecidableEq, Repr

structure Clause where
  required : Bool
  terms : List String
  isPrefix : Bool
  offsets : List UInt32
  nonempty : terms ≠ []

def Clause.isPhrase (clause : Clause) : Bool := decide (1 < clause.terms.length)

def Clause.offset (clause : Clause) (i : Nat) : UInt32 := clause.offsets[i]?.getD (UInt32.ofNat i)

structure ParsedQuery where
  clauses : List Clause

inductive RestrictScope
  | rankOnly
  | corpus
  deriving DecidableEq

structure FulltextHit (F : Type) where
  objectId : Id
  score : F
  deriving DecidableEq, Repr

inductive DeadlineExceeded
  | deadlineExceeded
  deriving DecidableEq

def deadlineCheckEvery : Nat := 1024

def tick (deadline : Option (Nat → Bool)) (visited : Nat) : Except DeadlineExceeded Nat :=
  if (visited + 1) % deadlineCheckEvery = 0 ∧ deadline.any fun late => late (visited + 1) then
    .error .deadlineExceeded
  else .ok (visited + 1)

section

variable {F : Type} [Add F] [Sub F] [Mul F] [Div F] [NatCast F]

def bm25K1 : F := ((12 : ℕ) : F) / ((10 : ℕ) : F)

def bm25B : F := ((75 : ℕ) : F) / ((100 : ℕ) : F)

def half : F := ((1 : ℕ) : F) / ((2 : ℕ) : F)

/-- The document count is at least `df`. -/
def idfWeight (ln : F → F) (docCount df : Nat) : F :=
  let n := max docCount df
  ln (((1 : ℕ) : F) + ((n : F) - (df : F) + half) / ((df : F) + half))

def CorpusStats.avgdl (stats : CorpusStats) : F :=
  if stats.totalTokens = 0 then ((1 : ℕ) : F) else (stats.totalTokens : F) / (stats.docCount : F)

def tfnorm (avgdl : F) (p : Posting) : F :=
  let tf : F := (p.tf.toNat : F)
  let dl : F := (p.docLen.toNat : F)
  let one : F := ((1 : ℕ) : F)
  tf * (bm25K1 + one) / (tf + bm25K1 * (one - bm25B + bm25B * dl / avgdl))

end

structure Acc (F : Type) where
  score : F
  requiredHits : Nat

structure Scored (F : Type) where
  visited : Nat
  acc : AList fun _ : Id => Acc F

section

variable {F : Type} [Zero F] [Add F]

def Acc.add (clause : Clause) (contribution : F) (a : Acc F) : Acc F where
  score := a.score + contribution
  requiredHits := if clause.required then a.requiredHits + 1 else a.requiredHits

def Scored.add (clause : Clause) (s : Scored F) (id : Id) (contribution : F) : Scored F :=
  let a := (s.acc.lookup id).getD { score := 0, requiredHits := 0 }
  { s with acc := s.acc.insert id (a.add clause contribution) }

variable [Mul F]

def scoreTerm (clause : Clause) (w : F) (tfnorm : Posting → F) (allowed : Id → Bool)
    (deadline : Option (Nat → Bool)) (list : PostingList) (s : Scored F) :
    Except DeadlineExceeded (Scored F) :=
  list.foldlM (fun s entry => do
    let visited ← tick deadline s.visited
    let s := { s with visited := visited }
    return if allowed entry.1 then s.add clause entry.1 (w * tfnorm entry.2) else s) s

def indexPostings (list : PostingList) : AList fun _ : Id => Posting :=
  list.foldl (fun m entry => m.insert entry.1 entry.2) ∅

def addPhraseMap (postings : AList fun _ : String => PostingList)
    (maps : AList fun _ : String => AList fun _ : Id => Posting) (t : String) :
    AList fun _ : String => AList fun _ : Id => Posting :=
  match postings.lookup t with
  | none => maps
  | some list => if t ∈ maps then maps else maps.insert t (indexPostings list)

def phraseMaps (query : ParsedQuery) (postings : AList fun _ : String => PostingList) :
    AList fun _ : String => AList fun _ : Id => Posting :=
  ((query.clauses.filter Clause.isPhrase).flatMap Clause.terms).foldl (addPhraseMap postings) ∅

def checkedAdd (p offset : UInt32) : Option UInt32 :=
  if p.toNat + offset.toNat < 2 ^ 32 then some (p + offset) else none

def phraseMatches (clause : Clause) : List Posting → Bool
  | [] => false
  | first :: later => first.positions.any fun p =>
      (later.zipIdx 1).all fun e =>
        (checkedAdd p (clause.offset e.2)).any fun want => decide (want ∈ e.1.positions)

def firstSeen : List String → List (String × Posting) → List (String × Posting)
  | _, [] => []
  | seen, e :: es => if e.1 ∈ seen then firstSeen seen es else e :: firstSeen (e.1 :: seen) es

def phraseContribution (clause : Clause) (idf : String → F) (tfnorm : Posting → F)
    (perTerm : List Posting) : F :=
  ((firstSeen [] (clause.terms.zip perTerm)).map fun e => idf e.1 * tfnorm e.2).foldl (· + ·) 0

def visitDocument (clause : Clause) (perPosition : List (AList fun _ : Id => Posting))
    (idf : String → F) (tfnorm : Posting → F) (allowed : Id → Bool)
    (deadline : Option (Nat → Bool)) (s : Scored F) (id : Id) :
    Except DeadlineExceeded (Scored F) := do
  let visited ← tick deadline s.visited
  let s := { s with visited := visited }
  if allowed id then
    match perPosition.mapM fun m => m.lookup id with
    | none => return s
    | some perTerm =>
      return if phraseMatches clause perTerm then
        s.add clause id (phraseContribution clause idf tfnorm perTerm) else s
  else return s

def scorePhrase (it : Iteration) (clause : Clause)
    (maps : AList fun _ : String => AList fun _ : Id => Posting) (idf : String → F)
    (tfnorm : Posting → F) (allowed : Id → Bool) (deadline : Option (Nat → Bool)) (s : Scored F) :
    Except DeadlineExceeded (Scored F) :=
  match clause.terms.mapM fun t => maps.lookup t with
  -- a term with no postings: the phrase matches nothing
  | none => .ok s
  | some perPosition =>
    let driver := (perPosition.argmin fun m => m.entries.length).getD ∅
    (it.order driver.keys).foldlM
      (visitDocument clause perPosition idf tfnorm allowed deadline) s

def scoreClause (it : Iteration) (maps : AList fun _ : String => AList fun _ : Id => Posting)
    (postings : AList fun _ : String => PostingList) (idf : String → F) (tfnorm : Posting → F)
    (allowed : Id → Bool) (deadline : Option (Nat → Bool)) (s : Scored F) (clause : Clause) :
    Except DeadlineExceeded (Scored F) :=
  if clause.isPhrase then scorePhrase it clause maps idf tfnorm allowed deadline s
  else
    let term := clause.terms.head clause.nonempty
    scoreTerm clause (idf term) tfnorm allowed deadline ((postings.lookup term).getD []) s

end

variable {F : Type} [Zero F] [Add F] [Sub F] [Mul F] [Div F] [NatCast F] [LinearOrder F]

def FulltextHit.before (a b : FulltextHit F) : Prop :=
  b.score < a.score ∨ a.score = b.score ∧ a.objectId ≤ b.objectId

instance FulltextHit.decidableBefore : DecidableRel (FulltextHit.before (F := F)) :=
  fun a b => inferInstanceAs (Decidable (b.score < a.score ∨ _ ∧ _))

def documentFrequency (scope : RestrictScope) (allowed : Id → Bool) (list : PostingList) : Nat :=
  match scope with
  | .rankOnly => list.length
  | .corpus => (list.filter fun e => allowed e.1).length

def scoreClauses (it : Iteration) (query : ParsedQuery)
    (postings : AList fun _ : String => PostingList) (idf : String → F) (tfnorm : Posting → F)
    (allowed : Id → Bool) (deadline : Option (Nat → Bool)) :
    Except DeadlineExceeded (Scored F) :=
  let maps := phraseMaps query postings
  query.clauses.foldlM (scoreClause it maps postings idf tfnorm allowed deadline)
    { visited := 0, acc := ∅ }

def topHits (it : Iteration) (requiredCount k : Nat) (acc : AList fun _ : Id => Acc F) :
    List (FulltextHit F) :=
  let hits := ((it.order acc.entries).filter fun e =>
      decide (e.2.requiredHits = requiredCount ∧ 0 < e.2.score)).map fun e =>
    { objectId := e.1, score := e.2.score : FulltextHit F }
  (hits.insertionSort FulltextHit.before).take k

def scoreQueryWith (it : Iteration) (ln : F → F) (query : ParsedQuery)
    (postings : AList fun _ : String => PostingList) (stats : CorpusStats)
    (restrict : Option (List Id)) (scope : RestrictScope) (k : Nat)
    (deadline : Option (Nat → Bool)) : Except DeadlineExceeded (List (FulltextHit F)) :=
  if k = 0 ∨ stats.docCount = 0 then .ok []
  else do
    let allowed : Id → Bool := fun id => restrict.all fun set => decide (id ∈ set)
    let requiredCount := (query.clauses.filter Clause.required).length
    let idf : String → F := fun t =>
      idfWeight ln stats.docCount (documentFrequency scope allowed ((postings.lookup t).getD []))
    let scored ← scoreClauses it query postings idf (tfnorm stats.avgdl) allowed deadline
    return topHits it requiredCount k scored.acc

end RhypeDb.Fulltext
