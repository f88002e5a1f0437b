import RhypeDb.Basic.KeyedFold
import RhypeDb.Fulltext.Search

/-! The two phases of a full-text search: the postings a query needs, collected first, are ranked
over the whole field or over the documents that may be seen alone. -/

namespace RhypeDb.Fulltext

open Engine KeyedFold

inductive SearchError
  | query (message : String)
  | deadlineExceeded (typeName field : String)
  /-- The object has postings of two lengths under a prefix. -/
  | indexCorrupt (typeName field : String) (object : Id) (first second : UInt32) (key : String)
  deriving DecidableEq

def maxPrefixExpansion : Nat := 64

def prefixCapMessage (key : String) (cap : Nat) : String :=
  "prefix term \"" ++ key ++ "\" matches more than " ++ toString cap ++
    " indexed terms; use a longer prefix"

/-- `prefixTerms` has the lists of the prefixes whose cap was deferred, one for each term; a key
is in one of the two maps at most. -/
structure FulltextCandidates where
  typeName : String
  fieldName : String
  parsed : ParsedQuery
  postings : AList fun _ : String => PostingList
  prefixTerms : AList fun _ : String => List PostingList
  stats : CorpusStats
  separate : ∀ key ∈ prefixTerms, key ∉ postings

def saturatingAdd32 (a b : UInt32) : UInt32 :=
  UInt32.ofNat (min (a.toNat + b.toNat) (2 ^ 32 - 1))

section

structure Merging where
  merged : AList fun _ : Id => Posting
  terms : Nat

def headerOnly (p : Posting) : Posting :=
  { docLen := p.docLen, tf := p.tf, positions := [], ascending := List.Pairwise.nil }

def Posting.absorb (o p : Posting) : Posting := { o with tf := saturatingAdd32 o.tf p.tf }

variable (c : FulltextCandidates) (key : String)

def mergePosting (m : Merging) (entry : Id × Posting) : Except SearchError Merging :=
  match m.merged.lookup entry.1 with
  | none => .ok { m with merged := m.merged.insert entry.1 (headerOnly entry.2) }
  | some o =>
    if o.docLen ≠ entry.2.docLen then
      .error (.indexCorrupt c.typeName c.fieldName entry.1 o.docLen entry.2.docLen key)
    else .ok { m with merged := m.merged.insert entry.1 (o.absorb entry.2) }

def countTerm (s : Merging × Bool) : Except SearchError Merging :=
  if s.2 then .ok s.1
  else if maxPrefixExpansion < s.1.terms + 1 then
    .error (.query (prefixCapMessage key maxPrefixExpansion))
  else .ok { s.1 with terms := s.1.terms + 1 }

def mergeEntry (allowed : Id → Bool) (s : Merging × Bool) (entry : Id × Posting) :
    Except SearchError (Merging × Bool) :=
  if allowed entry.1 then do
    let m ← countTerm key s
    return (← mergePosting c key m entry, true)
  else return s

def mergeList (allowed : Id → Bool) (m : Merging) (list : PostingList) :
    Except SearchError Merging := do
  let s ← list.foldlM (mergeEntry c key allowed) (m, false)
  return s.1

def mergePrefix (it : Iteration) (allowed : Id → Bool) (lists : List PostingList) :
    Except SearchError PostingList := do
  let m ← lists.foldlM (mergeList c key allowed) { merged := ∅, terms := 0 }
  return (it.order m.merged.entries).map fun e => (e.1, e.2)

end

variable {F : Type} [Zero F] [Add F] [Sub F] [Mul F] [Div F] [NatCast F] [LinearOrder F]
variable (it : Iteration) (c : FulltextCandidates)

def mergePrefixes (visible : Option (List Id)) :
    Except SearchError (AList fun _ : String => PostingList) :=
  let allowed : Id → Bool := fun id => visible.all fun v => decide (id ∈ v)
  c.prefixTerms.entries.foldlM (insertResult fun key => mergePrefix c key it allowed) ∅

def lists (merged : AList fun _ : String => PostingList) : AList fun _ : String => PostingList :=
  merged ∪ c.postings

def deadlineError : DeadlineExceeded → SearchError
  | .deadlineExceeded => .deadlineExceeded c.typeName c.fieldName

def score (ln : F → F) (restrict : Option (List Id)) (k : Nat) (deadline : Option (Nat → Bool)) :
    Except SearchError (List (FulltextHit F)) := do
  let merged ← mergePrefixes it c none
  (scoreQueryWith it ln c.parsed (lists c merged) c.stats restrict .rankOnly k deadline).mapError
    (deadlineError c)

def docLens (visible : List Id) (postings : AList fun _ : String => PostingList) :
    AList fun _ : Id => UInt32 :=
  ((it.order postings.entries).flatMap fun e => e.2.filter fun e => decide (e.1 ∈ visible)).foldl
    (fun lens e => if e.1 ∈ lens then lens else lens.insert e.1 e.2.docLen) ∅

def visibleStats (lens : AList fun _ : Id => UInt32) : CorpusStats where
  docCount := lens.entries.length
  totalTokens := ((it.order lens.entries).map fun e => e.2.toNat).sum

def scoreVisible (ln : F → F) (visible : List Id) (k : Nat) (deadline : Option (Nat → Bool)) :
    Except SearchError (List (FulltextHit F)) := do
  let merged ← mergePrefixes it c (some visible)
  let postings := lists c merged
  let stats := visibleStats it (docLens it visible postings)
  (scoreQueryWith it ln c.parsed postings stats (some visible) .corpus k deadline).mapError
    (deadlineError c)

end RhypeDb.Fulltext
