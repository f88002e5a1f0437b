import RhypeDb.Storage.LsmRun
import RhypeDb.Storage.Scan

/-! Layers in age order: a layer's versions of a key are all newer than those of the layers
behind it. A read through such layers gives the newest visible version among all of them, so
it depends on what they hold and not on how it is spread over them. -/

namespace RhypeDb.Storage

open Layered List Option

variable {V : Type} {layers' : List (List (Entry V))} {layers : List (List (Entry V))}
  {es : List (Entry V)} {e : Entry V}

/-- Nothing in `older` is as new as what `newer` holds of the same key. -/
def Outdates (newer older : List (Entry V)) : Prop :=
  ∀ a ∈ newer, ∀ b ∈ older, a.1.userKey = b.1.userKey → b.1.version < a.1.version

def AgeOrdered (layers : List (List (Entry V))) : Prop := layers.Pairwise Outdates

def readLayers (layers : List (List (Entry V))) (k : Bytes) (s : UInt64) : Option V :=
  (layers.findSome? fun layer => readNewest layer k s).join

theorem exists_isNewest {s : UInt64} (he : e ∈ es)
    (hv : e.1.version ≤ s) : ∃ e', IsNewest es e.1.userKey s e' := by
  cases hn : newest es e.1.userKey s with
  | none => exact absurd hv (newest_eq_none.mp hn e he rfl)
  | some e' => exact ⟨e', isNewest_of_newest hn⟩

theorem isNewest_append_right {front : List (Entry V)} {k : Bytes} {s : UInt64}
    (h : ∀ x ∈ front, x.1.userKey = k → ¬ x.1.version ≤ s) :
    IsNewest (front ++ es) k s e ↔ IsNewest es k s e := by
  induction front with
  | nil => rfl
  | cons x front ih =>
    rw [forall_mem_cons] at h
    rw [cons_append, isNewest_cons, ih h.2]
    by_cases hk : x.1.userKey = k
    · exact .inr (h.1 hk)
    · exact .inl hk

theorem isNewest_of_subset {es' : List (Entry V)} {k : Bytes} {s : UInt64}
    (h : IsNewest es k s e) (he : e ∈ es')
    (hsub : ∀ x ∈ es', x.1.version ≤ s → x ∈ es) : IsNewest es' k s e where
  mem := he
  userKey_eq := h.userKey_eq
  version_le := h.version_le
  newest := fun x hx hk hv => h.newest x (hsub x hx hv) hk hv

theorem findSome?_readNewest (hage : AgeOrdered layers)
    (hsorted : ∀ layer ∈ layers, layer.Pairwise fun a b => a.1 < b.1) {k : Bytes} {s : UInt64}
    {value : MemValue V} :
    (layers.findSome? fun layer => readNewest layer k s) = some value ↔
      ∃ e, IsNewest layers.flatten k s e ∧ e.2 = value := by
  induction layers with
  | nil => exact ⟨nofun, fun ⟨_, h, _⟩ => nomatch h.mem⟩
  | cons layer rest ih =>
    rw [AgeOrdered, pairwise_cons] at hage
    rw [forall_mem_cons] at hsorted
    rw [findSome?_cons, flatten_cons, readNewest]
    cases hn : newest layer k s with
    | none =>
      rw [map_none, ih hage.2 hsorted.2]
      exact exists_congr fun e =>
        and_congr_left fun _ => (isNewest_append_right (newest_eq_none.mp hn)).symm
    | some e₀ =>
      have hfirst := isNewest_of_newest hn
      have hrest : ∀ x ∈ rest.flatten, x.1.userKey = k → x.1.version < e₀.1.version := by
        intro x hx hk
        obtain ⟨older, holder, hx⟩ := mem_flatten.mp hx
        exact hage.1 older holder e₀ hfirst.mem x hx (hfirst.userKey_eq.trans hk.symm)
      rw [map_some, some_inj]
      constructor
      · intro hvalue
        refine ⟨e₀, ⟨mem_append_left _ hfirst.mem, hfirst.userKey_eq, hfirst.version_le, ?_⟩,
          hvalue⟩
        intro x hx hk hv
        rcases mem_append.mp hx with hx | hx
        · exact hfirst.newest x hx hk hv
        · exact UInt64.le_of_lt (hrest x hx hk)
      · rintro ⟨e, he, rfl⟩
        have hle := he.newest e₀ (mem_append_left _ hfirst.mem) hfirst.userKey_eq
          hfirst.version_le
        rcases mem_append.mp he.mem with hmem | hmem
        · have hnew : IsNewest layer k s e :=
            isNewest_of_subset he hmem fun x hx _ => mem_append_left _ hx
          rw [(newest_eq_some (m := ⟨layer, hsorted.1⟩)).mpr hnew] at hn
          rw [Option.some.inj hn]
        · exact absurd hle (UInt64.not_le.mpr (hrest e hmem he.userKey_eq))

/-- A snapshot reads the same through both: nothing it sees appears, and what it reads stays,
except that a tombstone may go with all the versions it hides. -/
structure Kept (s : UInt64) (layers layers' : List (List (Entry V))) : Prop where
  stays : ∀ k e, IsNewest layers.flatten k s e → IsNewest layers'.flatten k s e ∨
    e.2 = none ∧ ∀ x ∈ layers'.flatten, x.1.userKey = k → ¬ x.1.version ≤ s
  seen : ∀ e ∈ layers'.flatten, e.1.version ≤ s → e ∈ layers.flatten

theorem kept_of_visible {s : UInt64}
    (h : ∀ e : Entry V, e.1.version ≤ s → (e ∈ layers'.flatten ↔ e ∈ layers.flatten)) :
    Kept s layers layers' where
  stays := fun _ e he => .inl
    (isNewest_of_subset he ((h e he.version_le).mpr he.mem) fun x hx hv => (h x hv).mp hx)
  seen := fun e he hv => (h e hv).mp he

theorem Kept.readLayers_eq {s : UInt64}
    (h : Kept s layers layers') (hage : AgeOrdered layers) (hage' : AgeOrdered layers')
    (hsorted : ∀ layer ∈ layers, layer.Pairwise fun a b => a.1 < b.1)
    (hsorted' : ∀ layer ∈ layers', layer.Pairwise fun a b => a.1 < b.1) (k : Bytes) :
    readLayers layers' k s = readLayers layers k s := by
  have hold := fun {value} => @findSome?_readNewest V layers hage hsorted k s value
  have hnew := fun {value} => @findSome?_readNewest V layers' hage' hsorted' k s value
  have habsent : (∀ x ∈ layers'.flatten, x.1.userKey = k → ¬ x.1.version ≤ s) →
      (layers'.findSome? fun layer => readNewest layer k s) = none := by
    intro hnone
    rw [eq_none_iff_forall_ne_some]
    intro value hvalue
    obtain ⟨e, he, -⟩ := hnew.mp hvalue
    exact hnone e he.mem he.userKey_eq he.version_le
  unfold readLayers
  cases hread : layers.findSome? fun layer => readNewest layer k s with
  | none =>
    rw [habsent]
    intro x hx hk hv
    obtain ⟨e, he⟩ := exists_isNewest (h.seen x hx hv) hv
    rw [hk] at he
    rw [hold.mpr ⟨e, he, rfl⟩] at hread
    cases hread
  | some value =>
    obtain ⟨e, he, rfl⟩ := hold.mp hread
    rcases h.stays k e he with he' | ⟨hnone, habs⟩
    · rw [hnew.mpr ⟨e, he', rfl⟩]
    · rw [habsent habs, hnone]
      rfl

theorem mem_keepNeeded_iff {minSnapshot : Nat}
    (hs : es.Pairwise fun a b => a.1 < b.1) (ho : OrderedByUserKey es) {prev : Option Bytes}
    {floorKept : Bool} (hprev : ∀ p ∈ prev, ∀ x ∈ es, ¬ x.1.userKey < p) :
    e ∈ LsmTree.keepNeeded minSnapshot prev floorKept es ↔
      e ∈ es ∧ ¬ (prev = some e.1.userKey ∧ floorKept = true) ∧
        ∀ x ∈ es, x.1.userKey = e.1.userKey → e.1.version < x.1.version →
          minSnapshot < x.1.version.toNat := by
  induction es generalizing prev floorKept with
  | nil => exact ⟨nofun, fun h => nomatch h.1⟩
  | cons y es ih =>
    obtain ⟨hhead, htail⟩ := pairwise_cons.mp hs
    have ho' : OrderedByUserKey es := fun a ha b hb =>
      ho a (mem_cons_of_mem y ha) b (mem_cons_of_mem y hb)
    have hne : ∀ x ∈ es, x ≠ y := by
      rintro x hx rfl
      exact lt_irrefl _ (hhead x hx)
    rw [LsmTree.keepNeeded]
    split_ifs with hdrop
    · rw [@ih htail ho' prev floorKept fun p hp x hx => hprev p hp x (mem_cons_of_mem y hx),
        mem_cons, forall_mem_cons]
      constructor
      · rintro ⟨hmem, hkeep, hfloor⟩
        refine ⟨.inr hmem, hkeep, fun hk _ => ?_, hfloor⟩
        exact absurd ⟨hdrop.1.trans (congrArg some hk), hdrop.2⟩ hkeep
      · rintro ⟨rfl | hmem, hkeep, hfloor⟩
        · exact absurd hdrop hkeep
        · exact ⟨hmem, hkeep, hfloor.2⟩
    · have hafter : ∀ p ∈ some y.1.userKey, ∀ x ∈ es, ¬ x.1.userKey < p := by
        rintro _ ⟨⟩ x hx hlt
        exact lt_asymm (hhead x hx)
          (ho x (mem_cons_of_mem y hx) y mem_cons_self hlt)
      rw [mem_cons, @ih htail ho' (some y.1.userKey) _ hafter, mem_cons,
        forall_mem_cons]
      by_cases hey : e = y
      · subst hey
        refine ⟨fun _ => ⟨.inl rfl, hdrop, fun _ h => absurd h (UInt64.lt_irrefl _), ?_⟩,
          fun _ => .inl rfl⟩
        intro x hx hk hlt
        exact absurd hlt (UInt64.lt_asymm (lt_version_of_lt hk.symm (hhead x hx)))
      · simp only [hey, false_or]
        refine and_congr_right fun hmem => ?_
        constructor
        · rintro ⟨hkeep, hfloor⟩
          refine ⟨?_, ?_, hfloor⟩
          · rintro ⟨hp, hf⟩
            -- the previous key came back after `y`
            have hle := hprev _ hp y mem_cons_self
            have hne : y.1.userKey ≠ e.1.userKey := fun h => hdrop ⟨h ▸ hp, hf⟩
            have hlt : e.1.userKey < y.1.userKey := lt_of_le_of_ne (not_lt.mp hle) hne.symm
            exact hafter _ rfl e hmem hlt
          · intro hk _
            by_contra hle
            exact hkeep ⟨congrArg some hk, decide_eq_true (Nat.le_of_not_lt hle)⟩
        · rintro ⟨-, hy, hfloor⟩
          refine ⟨?_, hfloor⟩
          rintro ⟨hk, hle⟩
          have hk := Option.some.inj hk
          have hlt := hy hk (lt_version_of_lt hk (hhead e hmem))
          exact absurd (of_decide_eq_true hle) (Nat.not_le.mpr hlt)

end RhypeDb.Storage
