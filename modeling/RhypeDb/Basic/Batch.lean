import Mathlib.Data.List.Nodup
import Mathlib.Order.Lattice

/-! Batched lookup through layers. A batch of indexed keys in key order is put to one
layer after the other; a key that a layer answers leaves the batch. A layer is `once` when it
answers only the first copy of a repeated key: the later copies then go to the layers below. -/

namespace RhypeDb.Batch

open List

variable {κ β : Type}

section

variable [LinearOrder κ]

/-- What a layer says of each key of a batch; `last` is the key before. -/
def answers (once : Bool) (hit : κ → Option β) : Option κ → List κ → List (Option β)
  | _, [] => []
  | last, k :: ks =>
    (if once = true ∧ last = some k then none else hit k) :: answers once hit (some k) ks

def settle : List ((Nat × κ) × Option β) → List β → List (Nat × κ) × List β
  | [], out => ([], out)
  | (item, some value) :: rest, out => settle rest (out.set item.1 value)
  | (item, none) :: rest, out =>
    let settled := settle rest out
    (item :: settled.1, settled.2)

def probe (once : Bool) (hit : κ → Option β) (remaining : List (Nat × κ)) (out : List β) :
    List (Nat × κ) × List β :=
  settle (remaining.zip (answers once hit none (remaining.map Prod.snd))) out

def probeAll (layers : List (Bool × (κ → Option β))) (remaining : List (Nat × κ))
    (out : List β) : List (Nat × κ) × List β :=
  layers.foldl (fun s layer => probe layer.1 layer.2 s.1 s.2) (remaining, out)

/-- What the layers give to a copy of a key when `spent` copies come before it. -/
def copyRead (layers : List (Bool × (κ → Option β))) (spent : Nat) (k : κ) : Option β :=
  match layers with
  | [] => none
  | (once, hit) :: rest =>
    match hit k with
    | none => copyRead rest spent k
    | some value =>
      match once, spent with
      | true, spent + 1 => copyRead rest spent k
      | _, _ => some value

def copies (k : κ) (remaining : List (Nat × κ)) : List Nat :=
  (remaining.filter fun item => decide (item.2 = k)).map Prod.fst

end

theorem settle_fst (ps : List ((Nat × κ) × Option β)) (out : List β) :
    (settle ps out).1 = (ps.filter fun p => p.2.isNone).map Prod.fst := by
  induction ps generalizing out with
  | nil => rfl
  | cons p ps ih =>
    obtain ⟨item, _ | value⟩ := p
    · simp [settle, ih]
    · simp [settle, ih]

@[simp] theorem length_settle (ps : List ((Nat × κ) × Option β)) (out : List β) :
    (settle ps out).2.length = out.length := by
  induction ps generalizing out with
  | nil => rfl
  | cons p ps ih =>
    obtain ⟨item, _ | value⟩ := p
    · exact ih out
    · rw [settle, ih, length_set]

theorem settle_other {ps : List ((Nat × κ) × Option β)} {i : Nat}
    (h : ∀ p ∈ ps, p.2.isSome → p.1.1 ≠ i) (out : List β) : (settle ps out).2[i]? = out[i]? := by
  induction ps generalizing out with
  | nil => rfl
  | cons p ps ih =>
    rw [forall_mem_cons] at h
    obtain ⟨item, _ | value⟩ := p
    · exact ih h.2 out
    · rw [settle, ih h.2, getElem?_set_ne (h.1 rfl)]

theorem settle_answered {ps : List ((Nat × κ) × Option β)} (hnd : (ps.map (·.1.1)).Nodup)
    {item : Nat × κ} {value : β} (hmem : (item, some value) ∈ ps) {out : List β}
    (hlt : item.1 < out.length) : (settle ps out).2[item.1]? = some value := by
  induction ps generalizing out with
  | nil => cases hmem
  | cons p ps ih =>
    obtain ⟨hhead, htail⟩ := nodup_cons.mp hnd
    rcases mem_cons.mp hmem with rfl | hrest
    · rw [settle, settle_other, getElem?_set_self hlt]
      intro q hq _ heq
      exact hhead (mem_map.mpr ⟨q, hq, heq⟩)
    · obtain ⟨item', _ | value'⟩ := p
      · exact ih htail hrest hlt
      · exact ih htail hrest (by rwa [length_set])

theorem zip_fst_sublist {α γ : Type} (xs : List α) (ys : List γ) :
    ((xs.zip ys).map Prod.fst).Sublist xs := by
  induction xs generalizing ys with
  | nil => exact List.Sublist.slnil
  | cons x xs ih =>
    cases ys with
    | nil => exact nil_sublist _
    | cons y ys => exact (ih ys).cons_cons x

theorem foldl_set_eq_settle {γ : Type} (g : γ → β) (ps : List ((Nat × κ) × γ)) (out : List β) :
    ps.foldl (fun out p => out.set p.1.1 (g p.2)) out =
      (settle (ps.map fun p => (p.1, some (g p.2))) out).2 := by
  induction ps generalizing out with
  | nil => rfl
  | cons p ps ih => exact ih (out.set p.1.1 (g p.2))

section

variable {l : List κ} {k : κ}

theorem exists_first (h : k ∈ l) : ∃ q : Nat, l[q]? = some k ∧ k ∉ l.take q := by
  obtain ⟨front, rest, rfl, hfront⟩ := eq_append_cons_of_mem h
  exact ⟨front.length, by simp, by simpa using hfront⟩

variable [BEq κ] [LawfulBEq κ]

theorem exists_again (h : 1 < l.count k) : ∃ q : Nat, l[q]? = some k ∧ k ∈ l.take q := by
  have hmem : k ∈ l := count_pos_iff.mp (Nat.zero_lt_of_lt h)
  obtain ⟨front, rest, rfl, hfront⟩ := eq_append_cons_of_mem hmem
  have hrest : k ∈ rest := by
    rw [count_append, count_cons_self, count_eq_zero_of_not_mem hfront] at h
    exact count_pos_iff.mp (Nat.lt_of_succ_lt_succ (by simpa using h))
  obtain ⟨q, hq⟩ := mem_iff_getElem?.mp hrest
  refine ⟨front.length + (q + 1), ?_, ?_⟩
  · rw [getElem?_append_right (by omega), Nat.add_sub_cancel_left, getElem?_cons_succ, hq]
  · rw [take_length_add_append, take_succ_cons]
    simp

theorem one_lt_count {q : Nat} (hq : l[q]? = some k) (h : k ∈ l.take q) : 1 < l.count k := by
  obtain ⟨hlt, heq⟩ := List.getElem?_eq_some_iff.mp hq
  have hback : k ∈ l.drop q := by
    rw [drop_eq_getElem_cons hlt, heq]
    exact mem_cons_self
  rw [← take_append_drop q l, count_append]
  have hfront := count_pos_iff.mpr h
  have hrest := count_pos_iff.mpr hback
  omega

end

theorem copyRead_zero (layers : List (Bool × (κ → Option β))) (k : κ) :
    copyRead layers 0 k = layers.findSome? fun layer => layer.2 k := by
  induction layers with
  | nil => rfl
  | cons layer layers ih =>
    obtain ⟨once, hit⟩ := layer
    rw [copyRead, findSome?_cons, ih]
    cases hhit : hit k with
    | none => simp only [hhit]
    | some value => cases once <;> simp only [hhit]

theorem copyRead_append {layers rest : List (Bool × (κ → Option β))}
    (h : ∀ layer ∈ layers, layer.1 = false) (spent : Nat) (k : κ) :
    copyRead (layers ++ rest) spent k =
      (layers.findSome? fun layer => layer.2 k).or (copyRead rest spent k) := by
  induction layers with
  | nil => rfl
  | cons layer layers ih =>
    obtain ⟨once, hit⟩ := layer
    rw [forall_mem_cons] at h
    obtain rfl : once = false := h.1
    rw [cons_append, copyRead, findSome?_cons, ih h.2]
    cases hhit : hit k with
    | none => simp only [hhit]
    | some value => simp only [hhit, Option.some_or]

variable [LinearOrder κ]

theorem answers_once_cons (hit : κ → Option β) (last : Option κ) (k : κ) (ks : List κ) :
    answers true hit last (k :: ks) =
      (if last = some k then none else hit k) :: answers true hit (some k) ks := by
  simp only [answers, true_and]

theorem answers_always (hit : κ → Option β) (last : Option κ) (ks : List κ) :
    answers false hit last ks = ks.map hit := by
  induction ks generalizing last with
  | nil => rfl
  | cons k ks ih => simp [answers, ih]

@[simp] theorem length_answers (once : Bool) (hit : κ → Option β) (last : Option κ) (ks : List κ) :
    (answers once hit last ks).length = ks.length := by
  induction ks generalizing last with
  | nil => rfl
  | cons k ks ih => rw [answers, length_cons, ih, length_cons]

variable {hit : κ → Option β}

theorem getElem?_answers {once : Bool} {last : Option κ} {ks : List κ}
    (hsorted : ks.Pairwise (· ≤ ·)) (hlast : ∀ l ∈ last, ∀ k ∈ ks, l ≤ k) {i : Nat} {k : κ}
    (hi : ks[i]? = some k) :
    (answers once hit last ks)[i]? =
      some (if once = true ∧ (last = some k ∨ k ∈ ks.take i) then none else hit k) := by
  induction ks generalizing last i with
  | nil => cases hi
  | cons k' ks ih =>
    obtain ⟨hhead, htail⟩ := pairwise_cons.mp hsorted
    rw [answers]
    cases i with
    | zero =>
      obtain rfl : k' = k := by simpa using hi
      simp
    | succ i =>
      have hle : k' ≤ k := hhead k (mem_of_getElem? hi)
      have hlast' : ∀ l ∈ some k', ∀ k ∈ ks, l ≤ k := by
        rintro l ⟨⟩
        exact hhead
      have hsame : last = some k → k' = k := fun h =>
        le_antisymm hle (hlast k h k' mem_cons_self)
      have hiff : (some k' = some k ∨ k ∈ ks.take i) ↔ (last = some k ∨ k ∈ k' :: ks.take i) := by
        rw [Option.some.injEq, mem_cons]
        constructor
        · rintro (rfl | h)
          · exact .inr (.inl rfl)
          · exact .inr (.inr h)
        · rintro (h | rfl | h)
          · exact .inl (hsame h)
          · exact .inl rfl
          · exact .inr h
      rw [getElem?_cons_succ, ih htail hlast' hi, take_succ_cons]
      simp only [hiff]

theorem answers_of_silent {once : Bool} {last : Option κ} {ks : List κ} (h : ∀ k ∈ ks, hit k = none) :
    answers once hit last ks = ks.map fun _ => none := by
  induction ks generalizing last with
  | nil => rfl
  | cons k ks ih =>
    rw [forall_mem_cons] at h
    rw [answers, h.1, ite_self, ih h.2, map_cons]

section

variable {once : Bool} {hit : κ → Option β} {k : κ} {last : Option κ} {remaining : List (Nat × κ)}

theorem copies_cons (item : Nat × κ) (rest : List (Nat × κ)) (k : κ) :
    copies k (item :: rest) = if item.2 = k then item.1 :: copies k rest else copies k rest := by
  unfold copies
  by_cases h : item.2 = k <;> simp [h]

theorem copies_eq_nil (h : ∀ item ∈ remaining, item.2 ≠ k) : copies k remaining = [] := by
  rw [copies, map_eq_nil_iff, filter_eq_nil_iff]
  intro item hitem
  simpa using h item hitem

def asked (once : Bool) (hit : κ → Option β) (last : Option κ) (remaining : List (Nat × κ)) :
    List ((Nat × κ) × Option β) :=
  remaining.zip (answers once hit last (remaining.map Prod.snd))

theorem asked_cons (item : Nat × κ) (rest : List (Nat × κ)) :
    asked once hit last (item :: rest) =
      (item, if once = true ∧ last = some item.2 then none else hit item.2) ::
        asked once hit (some item.2) rest := rfl

theorem map_fst_asked : (asked once hit last remaining).map Prod.fst = remaining := by
  induction remaining generalizing last with
  | nil => rfl
  | cons item rest ih => rw [asked_cons, map_cons, ih]

theorem copies_unanswered (hsorted : (remaining.map Prod.snd).Pairwise (· ≤ ·))
    (hlast : ∀ l ∈ last, ∀ item ∈ remaining, l ≤ item.2) :
    copies k (((asked once hit last remaining).filter fun p => p.2.isNone).map Prod.fst) =
      match hit k with
      | none => copies k remaining
      | some _ =>
        if once = false then []
        else if last = some k then copies k remaining
        else (copies k remaining).tail := by
  induction remaining generalizing last with
  | nil =>
    show copies k [] = _
    cases hit k
    · rfl
    · cases once <;> simp [copies]
  | cons item rest ih =>
    obtain ⟨hhead, htail⟩ := pairwise_cons.mp hsorted
    have hnext : ∀ l ∈ some item.2, ∀ x ∈ rest, l ≤ x.2 := by
      rintro l ⟨⟩ x hx
      exact hhead _ (mem_map_of_mem hx)
    have ih := ih htail hnext
    rw [asked_cons, filter_cons]
    by_cases hk : item.2 = k
    · subst hk
      cases hhit : hit item.2 with
      | none =>
        rw [hhit] at ih
        simp [copies_cons, ih]
      | some value =>
        rw [hhit] at ih
        cases once with
        | false => simpa [copies_cons] using ih
        | true =>
          by_cases hl : last = some item.2
          · simpa [copies_cons, hl] using ih
          · simpa [copies_cons, hl] using ih
    · -- another key: whether it is answered does not matter to the copies of `k`
      have hskip : ∀ b : Bool, copies k (List.map Prod.fst (if b = true then
          (item, if once = true ∧ last = some item.2 then none else hit item.2) ::
            (asked once hit (some item.2) rest).filter fun p => p.2.isNone
          else (asked once hit (some item.2) rest).filter fun p => p.2.isNone)) =
          copies k (((asked once hit (some item.2) rest).filter fun p => p.2.isNone).map Prod.fst) := by
        intro b
        cases b <;> simp [copies_cons, hk]
      rw [hskip, ih, copies_cons, if_neg hk]
      have hne : (some item.2 : Option κ) ≠ some k := fun h => hk (Option.some.inj h)
      cases hit k with
      | none => rfl
      | some value =>
        cases once with
        | false => rfl
        | true =>
          by_cases hl : last = some k
          · -- `k` lies before the head, so nothing here is a copy of it
            have hlt : k < item.2 := lt_of_le_of_ne (hlast k hl item mem_cons_self) (Ne.symm hk)
            have hnil : copies k rest = [] := copies_eq_nil fun x hx heq =>
              absurd (hnext _ rfl x hx) (not_le.mpr (heq ▸ hlt))
            simp [hl, hnil]
          · simp [hl, hne]

theorem asked_of_copies {value : β} (hhit : hit k = some value) {r i : Nat}
    (hr : once = false ∨ r = 0 ∧ last ≠ some k) (hi : (copies k remaining)[r]? = some i) :
    ((i, k), some value) ∈ asked once hit last remaining := by
  induction remaining generalizing last r with
  | nil => simp [copies] at hi
  | cons item rest ih =>
    rw [asked_cons]
    rw [copies_cons] at hi
    obtain ⟨j, k'⟩ := item
    by_cases hk : k' = k
    · subst hk
      cases r with
      | zero =>
        obtain rfl : j = i := by simpa using hi
        have hfirst : ¬ (once = true ∧ last = some k') := by
          rintro ⟨ho, hl⟩
          rcases hr with hr | ⟨-, hr⟩
          · simp [ho] at hr
          · exact hr hl
        rw [if_neg hfirst, hhit]
        exact mem_cons_self
      | succ r =>
        have hr' : once = false := hr.resolve_right fun h => absurd h.1 (Nat.succ_ne_zero r)
        exact mem_cons_of_mem _ (ih (.inl hr') (by simpa using hi))
    · rw [if_neg hk] at hi
      refine mem_cons_of_mem _ (ih ?_ hi)
      exact hr.imp_right fun h => ⟨h.1, fun h' => hk (Option.some.inj h')⟩

end

theorem probe_of_silent {once : Bool} {remaining : List (Nat × κ)}
    (h : ∀ item ∈ remaining, hit item.2 = none) (out : List β) :
    probe once hit remaining out = (remaining, out) := by
  rw [probe, answers_of_silent (forall_mem_map.mpr h)]
  induction remaining with
  | nil => rfl
  | cons item rest ih =>
    rw [forall_mem_cons] at h
    have hrest := ih h.2
    simp only [map_cons, zip_cons_cons, settle, hrest]

/-- A batch in key order, each item with an index of its own into `out`. -/
structure Ordered (remaining : List (Nat × κ)) (out : List β) : Prop where
  sorted : (remaining.map Prod.snd).Pairwise (· ≤ ·)
  nodup : (remaining.map Prod.fst).Nodup
  lt : ∀ item ∈ remaining, item.1 < out.length

variable {once : Bool} {hit : κ → Option β} {remaining : List (Nat × κ)} {out : List β}

theorem probe_eq : probe once hit remaining out = settle (asked once hit none remaining) out := rfl

theorem probe_fst_sublist : (probe once hit remaining out).1.Sublist remaining := by
  rw [probe_eq, settle_fst]
  conv_rhs => rw [← @map_fst_asked κ β _ once hit none remaining]
  exact List.Sublist.map _ filter_sublist

theorem Ordered.probe (h : Ordered remaining out) :
    Ordered (probe once hit remaining out).1 (probe once hit remaining out).2 where
  sorted := h.sorted.sublist (probe_fst_sublist.map _)
  nodup := h.nodup.sublist (probe_fst_sublist.map _)
  lt := by
    intro item hitem
    rw [probe_eq, length_settle]
    exact h.lt item (probe_fst_sublist.subset hitem)

theorem probe_other {i : Nat} (h : i ∉ remaining.map Prod.fst) :
    (probe once hit remaining out).2[i]? = out[i]? := by
  rw [probe_eq, settle_other]
  rintro p hp - rfl
  apply h
  have hfst := mem_map_of_mem (f := Prod.fst) hp
  rw [map_fst_asked] at hfst
  exact mem_map_of_mem hfst

variable {layers : List (Bool × (κ → Option β))}

theorem probeAll_other {i : Nat} (h : i ∉ remaining.map Prod.fst) :
    (probeAll layers remaining out).2[i]? = out[i]? := by
  induction layers generalizing remaining out with
  | nil => rfl
  | cons layer layers ih =>
    have hnext : i ∉ (probe layer.1 layer.2 remaining out).1.map Prod.fst :=
      fun hi => h ((probe_fst_sublist.map Prod.fst).subset hi)
    exact (ih hnext).trans (probe_other h)

theorem length_probeAll (layers : List (Bool × (κ → Option β))) (remaining : List (Nat × κ))
    (out : List β) : (probeAll layers remaining out).2.length = out.length := by
  induction layers generalizing remaining out with
  | nil => rfl
  | cons layer layers ih =>
    exact (ih (probe layer.1 layer.2 remaining out).1 (probe layer.1 layer.2 remaining out).2).trans
      (length_settle _ _)

theorem probeAll_nil (layers : List (Bool × (κ → Option β))) (out : List β) :
    probeAll layers [] out = ([], out) := by
  induction layers with
  | nil => rfl
  | cons layer layers ih => exact ih

theorem probeAll_fst_sublist : (probeAll layers remaining out).1.Sublist remaining := by
  induction layers generalizing remaining out with
  | nil => exact List.Sublist.refl _
  | cons layer layers ih => exact ih.trans probe_fst_sublist

theorem probeAll_append (layers rest : List (Bool × (κ → Option β))) :
    probeAll (layers ++ rest) remaining out =
      probeAll rest (probeAll layers remaining out).1 (probeAll layers remaining out).2 := by
  rw [probeAll, foldl_append]
  rfl

theorem Ordered.probeAll (h : Ordered remaining out) :
    Ordered (probeAll layers remaining out).1 (probeAll layers remaining out).2 := by
  induction layers generalizing remaining out with
  | nil => exact h
  | cons layer layers ih => exact ih h.probe

theorem exists_copy {k : κ} {i : Nat} (h : (i, k) ∈ remaining) :
    ∃ r : Nat, (copies k remaining)[r]? = some i := by
  apply mem_iff_getElem?.mp
  rw [copies, mem_map]
  exact ⟨(i, k), mem_filter.mpr ⟨h, by simp⟩, rfl⟩

theorem copies_probe (h : Ordered remaining out) (k : κ) :
    copies k (probe once hit remaining out).1 =
      match hit k with
      | none => copies k remaining
      | some _ => if once = false then [] else (copies k remaining).tail := by
  rw [probe_eq, settle_fst, copies_unanswered h.sorted (by exact nofun)]
  cases hit k with
  | none => rfl
  | some value => cases once <;> rfl

theorem mem_of_copies {k : κ} {r i : Nat} (hi : (copies k remaining)[r]? = some i) :
    (i, k) ∈ remaining := by
  have hmem := mem_of_getElem? hi
  unfold copies at hmem
  rw [mem_map] at hmem
  obtain ⟨⟨j, k'⟩, hfilter, rfl⟩ := hmem
  obtain ⟨hitem, hk⟩ := mem_filter.mp hfilter
  obtain rfl : k' = k := by simpa using hk
  exact hitem

theorem probe_cases (h : Ordered remaining out) {k : κ} {r i : Nat}
    (hi : (copies k remaining)[r]? = some i) :
    (hit k = none ∧ (copies k (probe once hit remaining out).1)[r]? = some i ∧
      (probe once hit remaining out).2[i]? = out[i]?) ∨
    (∃ value, hit k = some value ∧ (once = false ∨ r = 0) ∧
      i ∉ (probe once hit remaining out).1.map Prod.fst ∧
      (probe once hit remaining out).2[i]? = some value) ∨
    (∃ value r', hit k = some value ∧ once = true ∧ r = r' + 1 ∧
      (copies k (probe once hit remaining out).1)[r']? = some i ∧
      (probe once hit remaining out).2[i]? = out[i]?) := by
  have hcopies := @copies_probe κ β _ once hit remaining out h k
  have hnd : ((asked once hit none remaining).map fun p => p.1.1).Nodup := by
    have hfst := h.nodup
    rwa [← @map_fst_asked κ β _ once hit none remaining, map_map] at hfst
  have hkept : (i, k) ∈ (probe once hit remaining out).1 →
      (probe once hit remaining out).2[i]? = out[i]? := by
    intro hmem
    rw [probe_eq, settle_fst, mem_map] at hmem
    obtain ⟨⟨item, _ | value⟩, hp, hitem⟩ := hmem
    · rw [probe_eq, settle_other]
      rintro q hq hsome heq
      have hsame := inj_on_of_nodup_map hnd hq (mem_filter.mp hp).1
        (heq.trans (congrArg Prod.fst hitem).symm)
      rw [hsame] at hsome
      cases hsome
    · simp at hp
  cases hhit : hit k with
  | none =>
    rw [hhit] at hcopies
    have hi' : (copies k (probe once hit remaining out).1)[r]? = some i := by rw [hcopies, hi]
    exact .inl ⟨rfl, hi', hkept (mem_of_copies hi')⟩
  | some value =>
    right
    by_cases hr : once = false ∨ r = 0
    · left
      have hfirst : once = false ∨ r = 0 ∧ (none : Option κ) ≠ some k :=
        hr.imp_right fun h => ⟨h, nofun⟩
      have hmem := asked_of_copies hhit hfirst hi
      refine ⟨value, rfl, hr, ?_, settle_answered hnd hmem (h.lt _ (mem_of_copies hi))⟩
      rw [probe_eq, settle_fst, map_map]
      intro hin
      obtain ⟨p, hp, hpi⟩ := mem_map.mp hin
      obtain ⟨hp, hnone⟩ := mem_filter.mp hp
      have hsame := inj_on_of_nodup_map hnd hp hmem hpi
      rw [hsame] at hnone
      cases hnone
    · right
      obtain ⟨ho, hr⟩ := not_or.mp hr
      obtain ⟨r', rfl⟩ := Nat.exists_eq_succ_of_ne_zero hr
      rw [hhit, if_neg ho] at hcopies
      have hi' : (copies k (probe once hit remaining out).1)[r']? = some i := by
        rw [hcopies, getElem?_tail, hi]
      exact ⟨value, r', rfl, by simpa using ho, rfl, hi', hkept (mem_of_copies hi')⟩

theorem probeAll_spec (h : Ordered remaining out) {k : κ} {r i : Nat}
    (hi : (copies k remaining)[r]? = some i) :
    (probeAll layers remaining out).2[i]? = (copyRead layers r k).or out[i]? := by
  induction layers generalizing remaining out r with
  | nil => rfl
  | cons layer layers ih =>
    obtain ⟨once, hit⟩ := layer
    have hnext := @Ordered.probe κ β _ once hit _ _ h
    show (probeAll layers (probe once hit remaining out).1 (probe once hit remaining out).2).2[i]? = _
    rw [copyRead]
    rcases @probe_cases κ β _ once hit _ _ h _ _ _ hi with
      ⟨hhit, hi', hout⟩ | ⟨value, hhit, hr, hgone, hout⟩ | ⟨value, r', hhit, rfl, rfl, hi', hout⟩
    · rw [hhit, ih hnext hi', hout]
    · rw [hhit, probeAll_other hgone, hout]
      rcases hr with rfl | rfl
      · rfl
      · cases once <;> rfl
    · rw [hhit, ih hnext hi', hout]

end RhypeDb.Batch
