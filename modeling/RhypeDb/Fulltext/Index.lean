import RhypeDb.Engine.IntegrityRun

/-! The inverted index of one full-text field: its rows, and what the object writes stage into
them. The rows are of the keys of one type and field; analyzing a text is a function. -/

namespace RhypeDb.Fulltext

open ByteOrder Engine Storage

/-- `f:` and `l:` keys. -/
inductive RowKey
  | posting (generation : UInt32) (term : String) (id : Id)
  | doc (generation : UInt32) (id : Id)
  deriving DecidableEq

inductive Row
  | posting (docLen tf : UInt32) (positions : List UInt32)
  | docLen (docLen : UInt32)
  deriving DecidableEq

abbrev Index := AList fun _ : RowKey => Row

abbrev RowWrites := Writes RowKey Row

def Index.apply (index : Index) (writes : RowWrites) : Index :=
  writes.foldl (fun index w =>
    match w.2 with
    | some row => index.insert w.1 row
    | none => index.erase w.1) index

section

structure Token where
  term : String
  position : UInt32

structure IndexedDoc where
  docLen : UInt32
  terms : List (String × List UInt32)
  distinct : (terms.map Prod.fst).Nodup

/-- The terms come in the order of the text; the source's ordered map only decides in which
order their rows are staged. -/
def termMap (tokens : List Token) : List (String × List UInt32) :=
  (tokens.map Token.term).dedup.map fun t =>
    (t, (tokens.filter fun token => decide (token.term = t)).map Token.position)

theorem termMap_distinct (tokens : List Token) : ((termMap tokens).map Prod.fst).Nodup := by
  have hterms : (termMap tokens).map Prod.fst = (tokens.map Token.term).dedup := by
    unfold termMap
    rw [List.map_map]
    exact List.map_id _
  rw [hterms]
  exact List.nodup_dedup _

/-- A field with the directive, in a generation of its index; `analyzer` names a definition. -/
structure FulltextField where
  typeId : Id
  name : String
  generation : UInt32
  analyzer : String
  positions : Bool

variable (analyze : String → Bytes → List Token) (ff : FulltextField)

def tokenizeForIndex (text : Bytes) : IndexedDoc where
  docLen := UInt32.ofNat (analyze ff.analyzer text).length
  terms := termMap (analyze ff.analyzer text)
  distinct := termMap_distinct _

def encodePosting (docLen : UInt32) (positions : List UInt32) (storePositions : Bool) : Row :=
  .posting docLen (UInt32.ofNat positions.length) (if storePositions then positions else [])

def textOf : Option Value → Option Bytes
  | some (.string text) => some text
  | _ => none

def storedText (data : Option Payload) : Option Bytes :=
  data.bind fun d => textOf (d.deserializeFields.lookup ff.name)

structure StatsDelta where
  docs : Int
  tokens : Int

def StatsDelta.zero : StatsDelta := ⟨0, 0⟩

def StatsDelta.add (a b : StatsDelta) : StatsDelta := ⟨a.docs + b.docs, a.tokens + b.tokens⟩

structure FulltextStats where
  docCount : Nat
  totalTokens : Nat
  deriving DecidableEq

/-- Both counters saturate at zero. -/
def FulltextStats.apply (stats : FulltextStats) (delta : StatsDelta) : FulltextStats where
  docCount := (stats.docCount + delta.docs).toNat
  totalTokens := (stats.totalTokens + delta.tokens).toNat

abbrev StagedRows := RowWrites × StatsDelta

def stageDocPuts (id : Id) (doc : IndexedDoc) : RowWrites :=
  (doc.terms.map fun e =>
    (.posting ff.generation e.1 id, some (encodePosting doc.docLen e.2 ff.positions))) ++
  [(.doc ff.generation id, some (.docLen doc.docLen))]

def stageCreate (id : Id) (text : Option Bytes) : StagedRows :=
  match text with
  | none => ([], .zero)
  | some text =>
    let doc := tokenizeForIndex analyze ff text
    (stageDocPuts ff id doc, ⟨1, doc.docLen.toNat⟩)

/-- An old value without an `l:` row was never indexed; it counts as none. -/
def indexedText (index : Index) (id : Id) (oldText : Option Bytes) : Option Bytes :=
  if (index.lookup (.doc ff.generation id)).isSome then oldText else none

def goneTerms (id : Id) (old : List (String × List UInt32)) (new : List (String × List UInt32)) :
    RowWrites :=
  (old.filter fun e => decide (e.1 ∉ new.map Prod.fst)).map fun e =>
    (.posting ff.generation e.1 id, none)

def changedTerms (id : Id) (old : List (String × List UInt32)) (oldLen : Option UInt32)
    (new : IndexedDoc) : RowWrites :=
  (new.terms.filter fun e => !decide (e ∈ old ∧ oldLen = some new.docLen)).map fun e =>
    (.posting ff.generation e.1 id, some (encodePosting new.docLen e.2 ff.positions))

/-- The `l:` row moves with the length; where a string goes, its tombstone is staged even if it
was never indexed. -/
def docRowUpdate (id : Id) (oldHadString : Bool) (oldLen newLen : Option UInt32) : RowWrites :=
  match newLen with
  | some len => if oldLen = newLen then [] else [(.doc ff.generation id, some (.docLen len))]
  | none => if oldHadString then [(.doc ff.generation id, none)] else []

def IndexedDoc.weight (doc : Option IndexedDoc) : StatsDelta :=
  match doc with
  | none => .zero
  | some doc => ⟨1, doc.docLen.toNat⟩

def updateRows (id : Id) (oldHadString : Bool) (oldDoc newDoc : Option IndexedDoc) : RowWrites :=
  let oldTerms := (oldDoc.map IndexedDoc.terms).getD []
  let newTerms := (newDoc.map IndexedDoc.terms).getD []
  let oldLen := oldDoc.map IndexedDoc.docLen
  let newLen := newDoc.map IndexedDoc.docLen
  goneTerms ff id oldTerms newTerms ++
    (newDoc.map (changedTerms ff id oldTerms oldLen)).getD [] ++
    docRowUpdate ff id oldHadString oldLen newLen

def stageFulltextUpdate (index : Index) (id : Id) (oldText newText : Option Bytes) : StagedRows :=
  let oldDoc := (indexedText ff index id oldText).map (tokenizeForIndex analyze ff)
  let newDoc := newText.map (tokenizeForIndex analyze ff)
  (updateRows ff id oldText.isSome oldDoc newDoc,
    ⟨(IndexedDoc.weight newDoc).docs - (IndexedDoc.weight oldDoc).docs,
      (IndexedDoc.weight newDoc).tokens - (IndexedDoc.weight oldDoc).tokens⟩)

/-- The index rows of a deleted object. The `l:` row of a string is tombstoned always, its
postings where the row is there. -/
def stageDelete (index : Index) (id : Id) (text : Option Bytes) : StagedRows :=
  match text with
  | none => ([], .zero)
  | some text =>
    if (index.lookup (.doc ff.generation id)).isSome then
      let doc := tokenizeForIndex analyze ff text
      ((doc.terms.map fun e => (.posting ff.generation e.1 id, none)) ++
        [(.doc ff.generation id, none)], ⟨-1, -doc.docLen.toNat⟩)
    else ([(.doc ff.generation id, none)], .zero)

end

inductive Change
  | created (new : Option Bytes)
  | updated (old new : Option Bytes)
  | deleted (old : Option Bytes)

def Change.old : Change → Option Bytes
  | .created _ => none
  | .updated old _ => old
  | .deleted old => old

def Change.new : Change → Option Bytes
  | .created new => new
  | .updated _ new => new
  | .deleted _ => none

variable (analyze : String → Bytes → List Token) (ff : FulltextField)

def stageChange (index : Index) (id : Id) : Change → StagedRows
  | .created new => stageCreate analyze ff id new
  | .updated old new => stageFulltextUpdate analyze ff index id old new
  | .deleted old => stageDelete analyze ff index id old

def stageChanges (index : Index) (changes : List (Id × Change)) : StagedRows :=
  (changes.flatMap fun c => (stageChange analyze ff index c.1 c.2).1,
    (changes.map fun c => (stageChange analyze ff index c.1 c.2).2).foldr StatsDelta.add .zero)

def writtenIds (typeId : Id) (writes : Writes Key Payload) : List Id :=
  (writes.filterMap fun w =>
    match w.1 with
    | .object a id => if a = typeId then some id else none
    | _ => none).dedup

def storedAt (view : View) (typeId id : Id) : Option Payload :=
  match view.get (.object typeId id) with
  | .ok data => data
  | .error _ => none

def changeOf (view : View) (writes : Writes Key Payload) (id : Id) : Change :=
  match lastWrite writes (.object ff.typeId id) with
  | some (some data) => .created (storedText ff (some data))
  | _ => .deleted (storedText ff (storedAt view ff.typeId id))

/-- The texts that a call with these writes changes. An update looks at the fields it names, the
other calls at every object they put or remove. -/
def changes (schema : Schema) (view : View) (call : Database.Call) (writes : Writes Key Payload) :
    List (Id × Change) :=
  match call with
  | .update typeName objectId updates =>
    if schema.typeId typeName = some ff.typeId then
      match updates.lookup ff.name with
      | none => []
      | some newValue =>
        [(objectId, .updated (storedText ff (storedAt view ff.typeId objectId))
          (textOf (some newValue)))]
    else []
  | _ => (writtenIds ff.typeId writes).map fun id => (id, changeOf ff view writes id)

def stageIndexRows (schema : Schema) (view : View) (index : Index) (call : Database.Call)
    (writes : Writes Key Payload) : StagedRows :=
  stageChanges analyze ff index (changes ff schema view call writes)

end RhypeDb.Fulltext
