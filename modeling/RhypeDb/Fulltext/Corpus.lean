import RhypeDb.Fulltext.Index
import RhypeDb.Fulltext.Visible

/-! The documents of a field as token streams: which of them a query is about, and the posting
lists an index of them hands to a search. -/

namespace RhypeDb.Fulltext

open Engine Fallible KeyedFold List

structure TokenStream where
  tokens : List Token
  ascending : (tokens.map Token.position).Pairwise (· < ·)
  short : tokens.length < 2 ^ 32

namespace TokenStream

variable (d : TokenStream) (t : String)

def Occurs (p : Nat) : Prop := ∃ token ∈ d.tokens, token.term = t ∧ token.position.toNat = p

def positions : List UInt32 :=
  (d.tokens.filter fun token => decide (token.term = t)).map Token.position

def docLen : UInt32 := UInt32.ofNat d.tokens.length

theorem ascending_positions : (d.positions t).Pairwise (· < ·) :=
  d.ascending.sublist (filter_sublist.map Token.position)

def posting (withPositions : Bool) : Posting where
  docLen := d.docLen
  tf := UInt32.ofNat (d.positions t).length
  positions := if withPositions then d.positions t else []
  ascending := by
    split_ifs
    · exact d.ascending_positions t
    · exact List.Pairwise.nil

def posting? (withPositions : Bool) : Option Posting :=
  if d.positions t = [] then none else some (d.posting t withPositions)

variable {d t}

theorem mem_positions {p : UInt32} : p ∈ d.positions t ↔ d.Occurs t p.toNat := by
  unfold positions Occurs
  rw [mem_map]
  constructor
  · rintro ⟨token, htoken, rfl⟩
    obtain ⟨hmem, hterm⟩ := mem_filter.mp htoken
    exact ⟨token, hmem, of_decide_eq_true hterm, rfl⟩
  · rintro ⟨token, hmem, hterm, hp⟩
    exact ⟨token, mem_filter.mpr ⟨hmem, decide_eq_true hterm⟩, UInt32.toNat_inj.mp hp⟩

theorem positions_ne_nil : d.positions t ≠ [] ↔ ∃ token ∈ d.tokens, token.term = t := by
  unfold positions
  rw [Ne, map_eq_nil_iff, filter_eq_nil_iff]
  push Not
  exact exists_congr fun token => and_congr_right fun _ => decide_eq_true_iff

theorem posting_tf_pos (withPositions : Bool) (h : d.positions t ≠ []) :
    0 < (d.posting t withPositions).tf := by
  have hle : (d.positions t).length ≤ d.tokens.length := by
    unfold positions
    rw [length_map]
    exact length_filter_le _ _
  have hpos := length_pos_iff.mpr h
  have hshort := d.short
  unfold posting
  rw [UInt32.lt_iff_toNat_lt, UInt32.toNat_ofNat', Nat.mod_eq_of_lt (by omega)]
  exact hpos

theorem posting?_eq_some {withPositions : Bool} {p : Posting} :
    d.posting? t withPositions = some p ↔ d.positions t ≠ [] ∧ p = d.posting t withPositions := by
  unfold posting?
  split_ifs with h
  · exact ⟨nofun, fun hp => absurd h hp.1⟩
  · rw [Option.some.injEq]
    exact ⟨fun hp => ⟨h, hp.symm⟩, fun hp => hp.2.symm⟩

end TokenStream

section

/-- What a query of the parser keeps: a prefix clause has one key, its text with the star, and the
positions of a phrase are counted from its first word. -/
structure ParsedQuery.WellFormed (query : ParsedQuery) : Prop where
  key : ∀ clause ∈ query.clauses, clause.isPrefix → ∃ text, clause.terms = [text ++ "*"]
  anchored : ∀ clause ∈ query.clauses, clause.offset 0 = 0

/-- A prefix matches where some term starts with it, a word or phrase where its terms occur at one
base position plus their offsets. -/
def Clause.Matches (clause : Clause) (d : TokenStream) : Prop :=
  if clause.isPrefix then
    ∃ text, clause.terms = [text ++ "*"] ∧ ∃ token ∈ d.tokens, text.toList <+: token.term.toList
  else ∃ base : Nat, ∀ i t, clause.terms[i]? = some t → d.Occurs t (base + (clause.offset i).toNat)

def ParsedQuery.Matches (query : ParsedQuery) (d : TokenStream) : Prop :=
  (∀ clause ∈ query.clauses, clause.required → clause.Matches d) ∧
    ∃ clause ∈ query.clauses, clause.Matches d

theorem star_injective {a b : String} (h : a ++ "*" = b ++ "*") : a = b := by
  have hlist := congrArg String.toList h
  rw [String.toList_append, String.toList_append] at hlist
  exact String.toList_inj.mp (append_cancel_right hlist)

variable {clause : Clause} {d : TokenStream}

theorem Clause.matches_prefix (hstar : clause.isPrefix) {text : String}
    (hterms : clause.terms = [text ++ "*"]) :
    clause.Matches d ↔ ∃ token ∈ d.tokens, text.toList <+: token.term.toList := by
  unfold Clause.Matches
  rw [if_pos hstar]
  constructor
  · rintro ⟨text', hterms', hstarts⟩
    rw [hterms, List.cons.injEq] at hterms'
    rw [star_injective hterms'.1]
    exact hstarts
  · exact fun hstarts => ⟨text, hterms, hstarts⟩

theorem Clause.matches_word (hstar : clause.isPrefix = false) {t : String}
    (hterms : clause.terms = [t]) (hanchor : clause.offset 0 = 0) :
    clause.Matches d ↔ d.positions t ≠ [] := by
  unfold Clause.Matches
  rw [hstar, if_neg Bool.false_ne_true, hterms, TokenStream.positions_ne_nil]
  constructor
  · rintro ⟨base, hocc⟩
    obtain ⟨token, htoken, hterm, -⟩ := hocc 0 t rfl
    exact ⟨token, htoken, hterm⟩
  · rintro ⟨token, htoken, hterm⟩
    refine ⟨token.position.toNat, fun i t' ht' => ?_⟩
    cases i with
    | zero =>
      cases ht'
      rw [hanchor]
      exact ⟨token, htoken, hterm, rfl⟩
    | succ i => cases ht'

end

abbrev Corpus := AList fun _ : Id => TokenStream

namespace Corpus

variable (docs : Corpus)

def stats : CorpusStats where
  docCount := docs.entries.length
  totalTokens := (docs.entries.map fun e => e.2.tokens.length).sum

def postings (t : String) (withPositions : Bool) : PostingList :=
  (docs.entries.map fun e => (e.1, e.2)).filterMap fun e =>
    (e.2.posting? t withPositions).map fun p => (e.1, p)

def Expands (text : String) (lists : List PostingList) : Prop :=
  ∃ terms : List String, terms.Nodup ∧
    (∀ t, t ∈ terms ↔ text.toList <+: t.toList ∧
      ∃ e ∈ docs.entries, ∃ token ∈ e.2.tokens, token.term = t) ∧
    List.Forall₂ (fun t list => list.Perm (docs.postings t false)) terms lists

/-- What a search of the documents collects: the list of each word, in any order and with the
positions that phrases need, and the lists of each prefix. -/
structure Collected (c : FulltextCandidates) : Prop where
  query : c.parsed.WellFormed
  stats : c.stats = docs.stats
  words : ∀ clause ∈ c.parsed.clauses, clause.isPrefix = false → ∀ t ∈ clause.terms,
    ∃ list withPositions, c.postings.lookup t = some list ∧
      (clause.isPhrase → withPositions = true) ∧ list.Perm (docs.postings t withPositions)
  keys : ∀ clause ∈ c.parsed.clauses, clause.isPrefix → ∀ key ∈ clause.terms, key ∈ c.prefixTerms
  prefixes : ∀ key lists, c.prefixTerms.lookup key = some lists →
    ∃ text, key = text ++ "*" ∧ docs.Expands text lists

variable {docs} {withPositions : Bool} {list : PostingList}

theorem rowsOf_postings {t : String} (h : list.Perm (docs.postings t withPositions)) (id : Id) :
    rowsOf id list = ((docs.lookup id).bind fun d => d.posting? t withPositions).toList := by
  have hdocs : rowsOf id (docs.postings t withPositions) =
      ((docs.lookup id).bind fun d => d.posting? t withPositions).toList := by
    unfold postings
    rw [rowsOf_filterMap fun d : TokenStream => d.posting? t withPositions,
      rowsOf_of_perm_entries .rfl]
    cases docs.lookup id with
    | none => rfl
    | some d => cases hp : d.posting? t withPositions <;> simp [hp]
  have hperm := rowsOf_perm h id
  rw [hdocs] at hperm
  cases hrow : (docs.lookup id).bind fun d => d.posting? t withPositions with
  | none =>
    rw [hrow] at hperm
    exact perm_nil.mp hperm
  | some p =>
    rw [hrow] at hperm
    exact perm_singleton.mp hperm

theorem mem_postings {t : String}
    (h : list.Perm (docs.postings t withPositions)) {id : Id} {p : Posting} :
    (id, p) ∈ list ↔ ∃ d, docs.lookup id = some d ∧ d.positions t ≠ [] ∧
      p = d.posting t withPositions := by
  rw [← mem_rowsOf, rowsOf_postings h, Option.mem_toList, Option.bind_eq_some_iff]
  exact exists_congr fun d => and_congr_right fun _ => TokenStream.posting?_eq_some

end Corpus

end RhypeDb.Fulltext
