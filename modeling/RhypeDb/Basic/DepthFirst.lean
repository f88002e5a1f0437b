import Mathlib.Data.Finset.Card

/-! Depth-first search that keeps, for each node it enters, the label of the edge by which
the node was first reached. -/

namespace RhypeDb.DepthFirst

open List Option

variable {N C : Type*} [DecidableEq N]

def visited (arrivals : List (N × C)) : List N := arrivals.map Prod.fst

/-- The arrivals after a search from `a`; `none` when the fuel runs out. -/
def search (children : N → List (N × C)) : Nat → List (N × C) → N × C → Option (List (N × C))
  | 0, _, _ => none
  | fuel + 1, arrivals, a =>
    if a.1 ∈ visited arrivals then some arrivals
    else (children a.1).foldlM (search children fuel) (arrivals ++ [a])

variable {children : N → List (N × C)} {fuel : Nat} {arrivals after : List (N × C)} {a : N × C}
  {l l' : List (N × C)}

theorem search_succ (children : N → List (N × C)) (fuel : Nat) (arrivals : List (N × C))
    (a : N × C) : search children (fuel + 1) arrivals a =
      if a.1 ∈ visited arrivals then some arrivals
      else (children a.1).foldlM (search children fuel) (arrivals ++ [a]) := rfl

omit [DecidableEq N] in
theorem visited_append (l l' : List (N × C)) : visited (l ++ l') = visited l ++ visited l' :=
  map_append

omit [DecidableEq N] in
theorem foldlM_induct {σ α : Type*} {f : σ → α → Option σ} {P : σ → Prop} {l : List α}
    (hstep : ∀ s s' x, x ∈ l → P s → f s x = some s' → P s') {s s' : σ} (hs : P s)
    (h : l.foldlM f s = some s') : P s' := by
  induction l generalizing s with
  | nil =>
    cases h
    exact hs
  | cons x l ih =>
    rw [foldlM_cons, bind_eq_bind, bind_eq_some_iff] at h
    obtain ⟨t, ht, h⟩ := h
    apply ih (fun s s' y hy => hstep s s' y (mem_cons_of_mem x hy)) _ h
    exact hstep s t x mem_cons_self hs ht

theorem isPrefix_search (h : search children fuel arrivals a = some after) :
    arrivals <+: after := by
  induction fuel generalizing arrivals after a with
  | zero => cases h
  | succ fuel ih =>
    rw [search_succ] at h
    split_ifs at h with hmem
    · cases h
      exact prefix_rfl
    · apply foldlM_induct (P := fun l => arrivals <+: l) _ (prefix_append _ _) h
      intro s s' x _ hs hx
      exact hs.trans (ih hx)

omit [DecidableEq N] in
theorem visited_subset (h : l <+: l') : visited l ⊆ visited l' :=
  (h.map Prod.fst).subset

theorem isPrefix_foldlM
    (h : l.foldlM (search children fuel) arrivals = some after) : arrivals <+: after := by
  apply foldlM_induct (P := fun l => arrivals <+: l) _ prefix_rfl h
  intro s s' x _ hs hx
  exact hs.trans (isPrefix_search hx)

theorem mem_search_nil (h : search children fuel [] a = some after) : a ∈ after := by
  cases fuel with
  | zero => cases h
  | succ fuel =>
    exact (isPrefix_foldlM h).subset (mem_singleton_self a)

theorem mem_visited_search (h : search children fuel arrivals a = some after) :
    a.1 ∈ visited after := by
  cases fuel with
  | zero => cases h
  | succ fuel =>
    rw [search_succ] at h
    split_ifs at h with hmem
    · cases h
      exact hmem
    · apply visited_subset (isPrefix_foldlM h)
      rw [visited_append]
      exact mem_append_right _ mem_cons_self

theorem mem_visited_foldlM
    (h : l.foldlM (search children fuel) arrivals = some after) {x : N × C} (hx : x ∈ l) :
    x.1 ∈ visited after := by
  induction l generalizing arrivals with
  | nil => cases hx
  | cons y l ih =>
    rw [foldlM_cons, bind_eq_bind, bind_eq_some_iff] at h
    obtain ⟨s, hs, h⟩ := h
    rcases mem_cons.mp hx with rfl | hx
    · exact visited_subset (isPrefix_foldlM h) (mem_visited_search hs)
    · exact ih h hx

/-- Every arrival beyond `old` has all its children visited. -/
def Closed (children : N → List (N × C)) (old arrivals : List (N × C)) : Prop :=
  ∀ b ∈ arrivals, b ∈ old ∨ ∀ c ∈ children b.1, c.1 ∈ visited arrivals

omit [DecidableEq N] in
theorem Closed.trans {l'' : List (N × C)} (h : Closed children l l')
    (h' : Closed children l' l'') (hpre : l' <+: l'') : Closed children l l'' := by
  intro b hb
  rcases h' b hb with hb' | hall
  · refine (h b hb').imp_right fun hall c hc => ?_
    exact visited_subset hpre (hall c hc)
  · exact .inr hall

theorem closed_search (h : search children fuel arrivals a = some after) :
    Closed children arrivals after := by
  induction fuel generalizing arrivals after a with
  | zero => cases h
  | succ fuel ih =>
    rw [search_succ] at h
    split_ifs at h with hmem
    · cases h
      exact fun b hb => .inl hb
    · -- the node's own children are the list the fold runs through
      have hfold : Closed children (arrivals ++ [a]) after := by
        refine (foldlM_induct (P := fun l => Closed children (arrivals ++ [a]) l) ?_ ?_ h)
        · intro s s' x _ hs hx
          exact hs.trans (ih hx) (isPrefix_search hx)
        · exact fun b hb => .inl hb
      intro b hb
      rcases hfold b hb with hb' | hall
      · rcases mem_append.mp hb' with hold | hnew
        · exact .inl hold
        · rw [mem_singleton] at hnew
          subst hnew
          exact .inr fun c hc => mem_visited_foldlM h hc
      · exact .inr hall

theorem forall_search {P : N × C → Prop} (hchild : ∀ b, P b → ∀ c ∈ children b.1, P c)
    (ha : P a) (harr : ∀ b ∈ arrivals, P b) (h : search children fuel arrivals a = some after) :
    ∀ b ∈ after, P b := by
  induction fuel generalizing arrivals after a with
  | zero => cases h
  | succ fuel ih =>
    rw [search_succ] at h
    split_ifs at h with hmem
    · cases h
      exact harr
    · apply foldlM_induct (P := fun l => ∀ b ∈ l, P b) _ _ h
      · intro s s' x hx hs hstep
        exact ih (hchild a ha x hx) hs hstep
      · exact forall_mem_append.mpr ⟨harr, by simpa using ha⟩

theorem nodup_search (h : search children fuel arrivals a = some after)
    (harr : (visited arrivals).Nodup) : (visited after).Nodup := by
  induction fuel generalizing arrivals after a with
  | zero => cases h
  | succ fuel ih =>
    rw [search_succ] at h
    split_ifs at h with hmem
    · cases h
      exact harr
    · apply foldlM_induct (P := fun l => (visited l).Nodup) _ _ h
      · intro s s' x _ hs hstep
        exact ih hstep hs
      · rw [visited_append]
        exact nodup_append.mpr ⟨harr, nodup_singleton _, fun n hn m hm heq =>
          hmem (mem_singleton.mp hm ▸ heq ▸ hn)⟩

theorem isSome_search {U : Finset N} (hU : ∀ n ∈ U, ∀ c ∈ children n, c.1 ∈ U) (ha : a.1 ∈ U)
    (hfuel : (U.filter (· ∉ visited arrivals)).card < fuel) :
    (search children fuel arrivals a).isSome := by
  induction fuel generalizing arrivals a with
  | zero => exact absurd hfuel (Nat.not_lt_zero _)
  | succ fuel ih =>
    rw [search_succ]
    split_ifs with hmem
    · rfl
    · -- entering `a` takes it off the nodes still to visit, and later arrivals only take more
      have hless : ∀ l, arrivals ++ [a] <+: l → (U.filter (· ∉ visited l)).card < fuel := by
        intro l hl
        have hsub : U.filter (· ∉ visited l) ⊂ U.filter (· ∉ visited arrivals) := by
          rw [Finset.ssubset_iff_of_subset]
          · refine ⟨a.1, Finset.mem_filter.mpr ⟨ha, hmem⟩, fun hnot => ?_⟩
            apply (Finset.mem_filter.mp hnot).2
            apply visited_subset hl
            rw [visited_append]
            exact mem_append_right _ mem_cons_self
          · intro n hn
            rw [Finset.mem_filter] at hn ⊢
            exact ⟨hn.1, fun hold => hn.2 (visited_subset ((prefix_append _ _).trans hl) hold)⟩
        have := Finset.card_lt_card hsub
        omega
      have hall : ∀ (cs : List (N × C)) (l : List (N × C)), (∀ c ∈ cs, c.1 ∈ U) →
          arrivals ++ [a] <+: l → (cs.foldlM (search children fuel) l).isSome := by
        intro cs
        induction cs with
        | nil => exact fun _ _ _ => rfl
        | cons c cs ihcs =>
          intro l hcs hl
          rw [forall_mem_cons] at hcs
          obtain ⟨l', hl'⟩ := isSome_iff_exists.mp (ih hcs.1 (hless l hl))
          rw [foldlM_cons, hl']
          exact ihcs l' hcs.2 (hl.trans (isPrefix_search hl'))
      exact hall _ _ (hU a.1 ha) prefix_rfl

end RhypeDb.DepthFirst
