import RhypeDb.Sdl.Accepted
import RhypeDb.Sdl.Emit

/-! The parser reads emitted directives back, one construct after the other: each scanner reads
the text that its construct is emitted as, with what stands in front of it that `skipWhitespace`
passes. -/

namespace RhypeDb.Sdl

open Engine (EdgeFieldDef FieldType OnDeletePolicy RelationType ScalarType)
open List Scan

variable {chars : CharTable} {i r : List Char}

theorem isWord_scalarName (s : ScalarType) : IsWord (scalarName s) := by
  cases s <;> exact isWord_ofList rfl

theorem isWord_policyName (policy : OnDeletePolicy) : IsWord (policyName policy) := by
  cases policy <;> exact isWord_ofList rfl

theorem isWord_metricName (metric : DistanceMetric) : IsWord (metricName metric) := by
  cases metric <;> exact isWord_ofList rfl

theorem isWord_quantizationName (quantization : QuantizationType) :
    IsWord (quantizationName quantization) := by
  cases quantization <;> exact isWord_ofList rfl

theorem reads_parseU32 (n : UInt32) {c : Char}
    (h : Skips i ((toString n.toNat).toList ++ c :: r)) (hc : c.isDigit = false) :
    Reads parseU32 i n (c :: r) := by
  have htext : (toString n.toNat).toList = Nat.toDigits 10 n.toNat := Nat.toList_repr
  rw [htext] at h
  have hdigits : ∀ d ∈ Nat.toDigits 10 n.toNat, d.isDigit = true :=
    fun d hd => Nat.isDigit_of_mem_toDigits (by decide) (by decide) hd
  refine h.bind ((Reads.takeWhile hdigits (by rintro _ ⟨⟩; exact hc)).bind ?_)
  rw [if_neg Nat.toDigits_ne_nil, Nat.ofDigitChars_ten_toDigits]
  change Reads (if n.toNat < 2 ^ 32 then pure (UInt32.ofNat n.toNat) else error _) _ _ _
  rw [if_pos n.toNat_lt, UInt32.ofNat_toNat]
  exact .pure

theorem reads_parseStringValue {s : String} (hs : '"' ∉ s.toList)
    (h : Skips i ('"' :: (s.toList ++ '"' :: r))) : Reads parseStringValue i s r := by
  refine h.bind ((reads_mark (by decide)).bind ((Reads.takeWhile (fun c hc => ?_) ?_).bind
    (Reads.advance.bind ?_)))
  · rw [bne_iff_ne]
    rintro rfl
    exact hs hc
  · rintro _ ⟨⟩
    rfl
  · change Reads (pure (String.ofList s.toList)) _ _ _
    rw [String.ofList_toList]
    exact .pure

def boolName (b : Bool) : String := if b then "true" else "false"

theorem reads_parseBoolValue {b : Bool} {c : Char}
    (h : Skips i ((boolName b).toList ++ c :: r)) (hc : IsMark c) :
    Reads (parseBoolValue chars) i b (c :: r) := by
  have hword : IsWord (boolName b) := by cases b <;> decide
  refine h.bind (Reads.peek.bind ?_)
  have halpha : ((boolName b).toList ++ c :: r).head?.any chars.isAlphabetic = true := by
    cases b with
    | true => exact chars.alphabetic_ascii 't' (by decide)
    | false => exact chars.alphabetic_ascii 'f' (by decide)
  rw [if_pos halpha]
  refine (hword.reads hword.skips hc).bind ?_
  cases b with
  | true => exact .pure
  | false => exact .pure

theorem reads_parseOnDelete (policy : OnDeletePolicy) :
    Reads (parseOnDelete chars) ('(' :: ((policyName policy).toList ++ ')' :: r))
      (.onDelete policy) r := by
  have hword := isWord_policyName policy
  refine (reads_mark (by decide)).bind ((hword.reads hword.skips (by decide)).bind
    ((reads_mark (by decide)).bind ?_))
  have hpolicy : onDeletePolicy? (policyName policy) = some policy := by cases policy <;> rfl
  rw [hpolicy]
  exact .pure

theorem reads_parseInverse {inv : InverseDef} (htype : IsIdent chars inv.typeName)
    (hfield : IsIdent chars inv.fieldName) :
    Reads (parseInverse chars)
      ('(' :: (inv.typeName.toList ++ '.' :: (inv.fieldName.toList ++ ')' :: r)))
      (.inverse inv) r := by
  refine (reads_mark (by decide)).bind ((htype.reads_before htype.skips (by decide)).bind
    ((reads_mark (by decide)).bind ((hfield.reads_before hfield.skips (by decide)).bind
    ((reads_mark (by decide)).bind .pure))))

def Marked (r : List Char) : Prop := ∃ c cs, r = c :: cs ∧ IsMark c

variable {key : String}

theorem emitParam_some {text : String} :
    (emitParam key (some text)).toList = ',' :: ' ' :: (key.toList ++ ':' :: ' ' :: text.toList) := by
  change (", " ++ key ++ ": " ++ text).toList = _
  rw [String.toList_append, String.toList_append, String.toList_append, append_assoc,
    append_assoc]
  rfl

theorem Marked.emitParam {value : Option String} (h : Marked r) :
    Marked ((emitParam key value).toList ++ r) := by
  cases value with
  | none => exact h
  | some text =>
    rw [emitParam_some]
    exact ⟨',', _, rfl, by decide⟩

theorem progress_parseIndexParam : Progress (fun _ => True) (parseIndexParam chars) :=
  .of_yields fun idx _ => yields_parseIndexParam idx

variable {m : List Char}

theorem reads_emitParam {α : Type} {text : α → String} {value : Option α}
    (hkey : IsWord key) {idx b : IndexDef} {put : α → IndexDef} (hm : Marked m)
    (hread : ∀ a c cs, IsMark c → Reads (parseIndexValue chars idx key) (' ' :: ((text a).toList ++
      c :: cs)) (put a) (c :: cs))
    (hrest : Reads (loop (parseIndexParam chars) (value.elim idx put)) m b r) :
    Reads (loop (parseIndexParam chars) idx) ((emitParam key (value.map text)).toList ++ m) b r := by
  cases value with
  | none => exact hrest
  | some a =>
    obtain ⟨c, cs, rfl, hc⟩ := hm
    rw [Option.map_some, emitParam_some]
    simp only [cons_append, append_assoc]
    refine Reads.loop_again progress_parseIndexParam trivial ?_ hrest
    have hcomma : IsMark ',' := by decide
    refine hcomma.skips.bind ((reads_accept_not (by rintro _ ⟨⟩; decide)).bind ?_)
    refine (reads_mark hcomma).bind ?_
    refine (hkey.reads hkey.skips.blank (by decide)).bind ((reads_mark (by decide)).bind ?_)
    exact (hread a c cs hc).bind .pure

variable {cs : List Char} {c : Char} {f : FulltextDef} {source : String}

theorem reads_indexMetric (idx : IndexDef) (metric : DistanceMetric) (hc : IsMark c) :
    Reads (parseIndexValue chars idx "metric")
      (' ' :: ((metricName metric).toList ++ c :: cs)) { idx with metric := some metric }
      (c :: cs) := by
  have hword := isWord_metricName metric
  refine (hword.reads hword.skips.blank hc).bind ?_
  have hmetric : distanceMetric? (metricName metric) = some metric := by cases metric <;> rfl
  rw [hmetric]
  exact .pure

theorem reads_indexQuantization (idx : IndexDef) (quantization : QuantizationType) (hc : IsMark c) :
    Reads (parseIndexValue chars idx "quantization")
      (' ' :: ((quantizationName quantization).toList ++ c :: cs))
      { idx with quantization := some quantization } (c :: cs) := by
  have hword := isWord_quantizationName quantization
  refine (hword.reads hword.skips.blank hc).bind ?_
  have hquantization : quantizationType? (quantizationName quantization) = some quantization := by
    cases quantization <;> rfl
  rw [hquantization]
  exact .pure

theorem reads_decimal (n : UInt32) (hc : IsMark c) :
    Reads parseU32 (' ' :: ((decimal n).toList ++ c :: cs)) n (c :: cs) :=
  reads_parseU32 n (isWord_toString n.toNat).skips.blank hc.not_digit

theorem emitIndex_toList (idx : IndexDef) : (emitIndex idx).toList =
    '@' :: ("index".toList ++ '(' :: ("hnsw".toList ++
      ((emitParam "metric" (idx.metric.map metricName)).toList ++
      ((emitParam "quantization" (idx.quantization.map quantizationName)).toList ++
      ((emitParam "m" (idx.m.map decimal)).toList ++
      ((emitParam "ef_construction" (idx.efConstruction.map decimal)).toList ++ [')'])))))) := by
  have hopen : "@index(".toList = '@' :: ("index".toList ++ ['(']) := by
    rfl
  unfold emitIndex
  simp only [String.toList_append, hopen, cons_append, append_assoc]
  rfl

theorem reads_parseIndex (idx : IndexDef) : Reads (parseIndex chars)
    ('(' :: ("hnsw".toList ++
      ((emitParam "metric" (idx.metric.map metricName)).toList ++
      ((emitParam "quantization" (idx.quantization.map quantizationName)).toList ++
      ((emitParam "m" (idx.m.map decimal)).toList ++
      ((emitParam "ef_construction" (idx.efConstruction.map decimal)).toList ++ ')' :: r))))))
    (.index idx) r := by
  obtain ⟨⟨⟩, metric, quantization, m, ef⟩ := idx
  have hend : Marked (')' :: r) := ⟨')', r, rfl, by decide⟩
  have hef : Marked ((emitParam "ef_construction" (ef.map decimal)).toList ++ ')' :: r) :=
    hend.emitParam
  have hm : Marked ((emitParam "m" (m.map decimal)).toList ++ _) := hef.emitParam
  have hquantization : Marked
      ((emitParam "quantization" (quantization.map quantizationName)).toList ++ _) := hm.emitParam
  have hmetric : Marked ((emitParam "metric" (metric.map metricName)).toList ++ _) :=
    hquantization.emitParam
  have hhnsw : IsWord "hnsw" := isWord_ofList rfl
  refine (reads_mark (by decide)).bind ?_
  obtain ⟨c, cs, htext, hc⟩ := hmetric
  rw [htext]
  refine (hhnsw.reads hhnsw.skips hc).bind ?_
  rw [← htext, if_pos rfl]
  refine Reads.bind ?_ .pure
  refine reads_emitParam (by decide) hquantization (fun a _ _ => reads_indexMetric _ a) ?_
  rw [show metric.elim _ _ = (⟨.hnsw, metric, none, none, none⟩ : IndexDef) by cases metric <;> rfl]
  refine reads_emitParam (by decide) hm (fun a _ _ => reads_indexQuantization _ a) ?_
  rw [show quantization.elim _ _ = (⟨.hnsw, metric, quantization, none, none⟩ : IndexDef) by
    cases quantization <;> rfl]
  refine reads_emitParam (by decide) hef (fun a _ _ hc => (reads_decimal a hc).bind .pure) ?_
  rw [show m.elim _ _ = (⟨.hnsw, metric, quantization, m, none⟩ : IndexDef) by cases m <;> rfl]
  refine reads_emitParam (by decide) hend (fun a _ _ hc => (reads_decimal a hc).bind .pure) ?_
  rw [show ef.elim _ _ = (⟨.hnsw, metric, quantization, m, ef⟩ : IndexDef) by cases ef <;> rfl]
  apply Reads.loop_done
  have hclose : IsMark ')' := by decide
  exact hclose.skips.bind (reads_accept.bind .pure)

theorem reads_expectIf (h : IsMark c) : Reads (expectIf true c) (c :: r) () r := reads_mark h

theorem reads_vectorizeSource (hsource : '"' ∉ source.toList) :
    Reads (parseVectorizeParam chars (none, none))
      ("source".toList ++ ':' :: ' ' :: '"' :: (source.toList ++ '"' :: m))
      (.again (some source, none)) m := by
  have hword : IsWord "source" := isWord_ofList rfl
  have hquote : IsMark '"' := by decide
  refine hword.skips.bind ((reads_accept_not ?_).bind (Reads.pure.bind ?_))
  · exact (hword.isIdent : IsIdent chars _).head_ne (by decide) (by decide) (by decide)
  · refine (hword.reads hword.skips (by decide)).bind ((reads_mark (by decide)).bind ?_)
    exact hquote.skips.blank.bind ((reads_parseStringValue hsource hquote.skips).bind .pure)

theorem reads_vectorizeModel {model : String} (hmodel : '"' ∉ model.toList) :
    Reads (parseVectorizeParam chars (some source, none))
      (',' :: ' ' :: ("model".toList ++ ':' :: ' ' :: '"' :: (model.toList ++ '"' :: m)))
      (.again (some source, some model)) m := by
  have hword : IsWord "model" := isWord_ofList rfl
  have hquote : IsMark '"' := by decide
  have hcomma : IsMark ',' := by decide
  refine hcomma.skips.bind ((reads_accept_not (by rintro _ ⟨⟩; decide)).bind
    ((reads_expectIf hcomma).bind ?_))
  refine (hword.reads hword.skips.blank (by decide)).bind ((reads_mark (by decide)).bind ?_)
  exact hquote.skips.blank.bind ((reads_parseStringValue hmodel hquote.skips).bind .pure)

theorem reads_parseVectorize {v : VectorizeDef} (hsource : '"' ∉ v.sourceField.toList)
    (hmodel : '"' ∉ v.model.toList) : Reads (parseVectorize chars)
      ('(' :: ("source".toList ++ ':' :: ' ' :: '"' :: (v.sourceField.toList ++ '"' :: ',' :: ' ' ::
        ("model".toList ++ ':' :: ' ' :: '"' :: (v.model.toList ++ '"' :: ')' :: r)))))
      (.vectorize v) r := by
  have hprogress : Progress Unquoted (parseVectorizeParam chars) :=
    .of_yields fun _ hgiven => yields_parseVectorizeParam hgiven
  have hclose : IsMark ')' := by decide
  have hnone : Unquoted (none, none) := ⟨by rintro _ ⟨⟩, by rintro _ ⟨⟩⟩
  have hone : Unquoted (some v.sourceField, none) :=
    ⟨by rintro _ ⟨⟩; exact hsource, by rintro _ ⟨⟩⟩
  have hdone : Reads (parseVectorizeParam chars (some v.sourceField, some v.model)) (')' :: r)
      (.done (some v.sourceField, some v.model)) r :=
    hclose.skips.bind (reads_accept.bind .pure)
  refine (reads_mark (by decide)).bind (Reads.bind (a := (some v.sourceField, some v.model)) ?_ .pure)
  exact .loop_again hprogress hnone (reads_vectorizeSource hsource)
    (.loop_again hprogress hone (reads_vectorizeModel hmodel) (.loop_done hdone))

theorem reads_fulltextAnalyzer {name : String} (hknown : name ∈ FulltextDef.knownAnalyzers) :
    Reads (parseFulltextParam chars ⟨.default, false, false⟩)
      ("analyzer".toList ++ ':' :: ' ' :: '"' :: (name.toList ++ '"' :: m))
      (.again ⟨⟨name, true⟩, true, false⟩) m := by
  have hword : IsWord "analyzer" := isWord_ofList rfl
  have hquote : IsMark '"' := by decide
  have hunquoted : '"' ∉ name.toList := by
    revert name
    decide
  refine hword.skips.bind ((reads_accept_not ?_).bind (Reads.pure.bind ?_))
  · exact (hword.isIdent : IsIdent chars _).head_ne (by decide) (by decide) (by decide)
  · refine (hword.reads hword.skips (by decide)).bind ((reads_mark (by decide)).bind
      (Reads.bind ((reads_parseStringValue hunquoted hquote.skips.blank).bind ?_) .pure))
    rw [if_pos hknown]
    exact .pure

theorem reads_fulltextPositions :
    Reads (parseFulltextParam chars ⟨⟨f.analyzer, true⟩, true, false⟩)
      (',' :: ' ' :: ("positions".toList ++ ':' :: ' ' :: ((boolName f.positions).toList ++
        ')' :: m))) (.again ⟨f, true, true⟩) (')' :: m) := by
  have hword : IsWord "positions" := isWord_ofList rfl
  have hbool : IsWord (boolName f.positions) := by cases f.positions <;> decide
  have hcomma : IsMark ',' := by decide
  refine hcomma.skips.bind ((reads_accept_not (by rintro _ ⟨⟩; decide)).bind
    ((reads_expectIf hcomma).bind ?_))
  exact (hword.reads hword.skips.blank (by decide)).bind ((reads_mark (by decide)).bind
    (Reads.bind ((reads_parseBoolValue hbool.skips.blank (by decide)).bind .pure) .pure))

theorem reads_parseFulltext (hknown : f.analyzer ∈ FulltextDef.knownAnalyzers) :
    Reads (parseFulltext chars)
      ('(' :: ("analyzer".toList ++ ':' :: ' ' :: '"' :: (f.analyzer.toList ++ '"' :: ',' :: ' ' ::
        ("positions".toList ++ ':' :: ' ' :: ((boolName f.positions).toList ++ ')' :: r)))))
      (.fulltext f) r := by
  have hprogress : Progress
      (fun given : FulltextParams => given.fulltext.analyzer ∈ FulltextDef.knownAnalyzers)
      (parseFulltextParam chars) := .of_yields fun _ hgiven => yields_parseFulltextParam hgiven
  have hopen : IsMark '(' := by decide
  have hclose : IsMark ')' := by decide
  have hdone : Reads (parseFulltextParam chars ⟨f, true, true⟩) (')' :: r) (.done f) r :=
    hclose.skips.bind (reads_accept.bind .pure)
  refine hopen.skips.bind (reads_accept.bind (Reads.bind (a := f) ?_ .pure))
  exact .loop_again hprogress mem_cons_self (reads_fulltextAnalyzer hknown)
    (.loop_again hprogress hknown reads_fulltextPositions (.loop_done hdone))

theorem reads_parseDirective {d : Directive} (hd : d.WellFormed chars) :
    ∃ text, (emitDirective d).toList = '@' :: text ∧
      ∀ r, Broken chars r → Reads (parseDirective chars) (text ++ r) d r := by
  have hident {cs r : List Char} (h) (hr : Broken chars r) :
      Reads (parseIdent chars) ((String.ofList cs).toList ++ r) (String.ofList cs) r :=
    (isWord_ofList h).isIdent.reads (isWord_ofList h).skips hr
  have hparen : ∀ r, Broken chars ('(' :: r) := fun r => broken_cons (by decide) (by decide)
  cases d with
  | unique =>
    exact ⟨"unique".toList, rfl, fun r hr => (hident rfl hr).bind .pure⟩
  | indexed =>
    exact ⟨"indexed".toList, rfl, fun r hr => (hident rfl hr).bind .pure⟩
  | onDelete policy =>
    refine ⟨"on_delete".toList ++ '(' :: ((policyName policy).toList ++ [')']), ?_, fun r _ => ?_⟩
    · have hopen : "@on_delete(".toList = '@' :: ("on_delete".toList ++ ['(']) := by
        rfl
      change ("@on_delete(" ++ policyName policy ++ ")").toList = _
      simp only [String.toList_append, hopen, cons_append, append_assoc]
      rfl
    · simp only [append_assoc, cons_append, nil_append]
      exact (hident rfl (hparen _)).bind (reads_parseOnDelete policy)
  | inverse inv =>
    refine ⟨"inverse".toList ++ '(' :: (inv.typeName.toList ++ '.' ::
      (inv.fieldName.toList ++ [')'])), ?_, fun r _ => ?_⟩
    · have hopen : "@inverse(".toList = '@' :: ("inverse".toList ++ ['(']) := by
        rfl
      change ("@inverse(" ++ inv.typeName ++ "." ++ inv.fieldName ++ ")").toList = _
      simp only [String.toList_append, hopen, cons_append, append_assoc]
      rfl
    · simp only [append_assoc, cons_append, nil_append]
      exact (hident rfl (hparen _)).bind (reads_parseInverse hd.1 hd.2)
  | index idx =>
    refine ⟨_, emitIndex_toList idx, fun r _ => ?_⟩
    simp only [append_assoc, cons_append, nil_append]
    exact (hident rfl (hparen _)).bind (reads_parseIndex idx)
  | vectorize v =>
    refine ⟨"vectorize".toList ++ '(' :: ("source".toList ++ ':' :: ' ' :: '"' ::
      (v.sourceField.toList ++ '"' :: ',' :: ' ' :: ("model".toList ++ ':' :: ' ' :: '"' ::
      (v.model.toList ++ ['"', ')'])))), ?_, fun r _ => ?_⟩
    · have hopen : "@vectorize(source: \"".toList =
          '@' :: ("vectorize".toList ++ '(' :: ("source".toList ++ [':', ' ', '"'])) := by
        rfl
      have hmid : "\", model: \"".toList =
          '"' :: ',' :: ' ' :: ("model".toList ++ [':', ' ', '"']) := by
        rfl
      change ("@vectorize(source: \"" ++ v.sourceField ++ "\", model: \"" ++ v.model ++
        "\")").toList = _
      simp only [String.toList_append, hopen, hmid, cons_append, append_assoc]
      rfl
    · simp only [append_assoc, cons_append, nil_append]
      exact (hident rfl (hparen _)).bind (reads_parseVectorize hd.1 hd.2)
  | fulltext f =>
    refine ⟨"fulltext".toList ++ '(' :: ("analyzer".toList ++ ':' :: ' ' :: '"' ::
      (f.analyzer.toList ++ '"' :: ',' :: ' ' :: ("positions".toList ++ ':' :: ' ' ::
      ((boolName f.positions).toList ++ [')'])))), ?_, fun r _ => ?_⟩
    · have hopen : "@fulltext(analyzer: \"".toList =
          '@' :: ("fulltext".toList ++ '(' :: ("analyzer".toList ++ [':', ' ', '"'])) := by
        rfl
      have hmid : "\", positions: ".toList =
          '"' :: ',' :: ' ' :: ("positions".toList ++ [':', ' ']) := by
        rfl
      change ("@fulltext(analyzer: \"" ++ f.analyzer ++ "\", positions: " ++
        boolName f.positions ++ ")").toList = _
      simp only [String.toList_append, hopen, hmid, cons_append, append_assoc]
      rfl
    · simp only [append_assoc, cons_append, nil_append]
      exact (hident rfl (hparen _)).bind (reads_parseFulltext hd)

end RhypeDb.Sdl
