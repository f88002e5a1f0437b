import Mathlib.Data.List.Basic

/-! Committed writes as a history: a transaction reads the state that the first commits make, and
its own commit is refused if a later one wrote a key of its own. What holds from the state of
every earlier snapshot to the last state, given the keys written in between, one commit extends. -/

namespace RhypeDb

open List

structure SnapshotHistory (σ ω : Type*) where
  base : σ
  commits : List ω

namespace SnapshotHistory

variable {σ ω κ : Type*} (apply : σ → ω → σ) (keys : ω → List κ) (h : SnapshotHistory σ ω)

def version : Nat := h.commits.length

def stateAt (snapshot : Nat) : σ := (h.commits.take snapshot).foldl apply h.base

def latest : σ := h.commits.foldl apply h.base

def WrittenSince (snapshot : Nat) (k : κ) : Prop := ∃ c ∈ h.commits.drop snapshot, k ∈ keys c

def Conflicts (snapshot : Nat) (ks : List κ) : Prop := ∃ k ∈ ks, h.WrittenSince keys snapshot k

instance [DecidableEq κ] (snapshot : Nat) (k : κ) : Decidable (h.WrittenSince keys snapshot k) :=
  inferInstanceAs (Decidable (∃ c ∈ h.commits.drop snapshot, k ∈ keys c))

instance [DecidableEq κ] (snapshot : Nat) (ks : List κ) :
    Decidable (h.Conflicts keys snapshot ks) :=
  inferInstanceAs (Decidable (∃ k ∈ ks, h.WrittenSince keys snapshot k))

def commit (c : ω) : SnapshotHistory σ ω := { h with commits := h.commits ++ [c] }

variable {apply keys h} {c : ω} {n : Nat} {k : κ}

theorem stateAt_version : h.stateAt apply h.version = h.latest apply := by
  unfold stateAt version
  rw [take_length]
  rfl

theorem version_commit : (h.commit c).version = h.version + 1 := by
  unfold version commit
  rw [length_append]
  rfl

theorem latest_commit : (h.commit c).latest apply = apply (h.latest apply) c := by
  unfold latest commit
  rw [foldl_append]
  rfl

theorem stateAt_commit (hn : n ≤ h.version) : (h.commit c).stateAt apply n = h.stateAt apply n := by
  unfold stateAt commit
  rw [take_append_of_le_length hn]

theorem not_writtenSince_version : ¬ h.WrittenSince keys h.version k := by
  unfold WrittenSince version
  rw [drop_length]
  rintro ⟨c, hc, -⟩
  cases hc

theorem writtenSince_commit (hn : n ≤ h.version) :
    (h.commit c).WrittenSince keys n k ↔ h.WrittenSince keys n k ∨ k ∈ keys c := by
  unfold WrittenSince commit
  rw [drop_append_of_le_length hn]
  simp only [mem_append, mem_singleton]
  constructor
  · rintro ⟨d, hd | rfl, hk⟩
    · exact .inl ⟨d, hd, hk⟩
    · exact .inr hk
  · rintro (⟨d, hd, hk⟩ | hk)
    · exact ⟨d, .inl hd, hk⟩
    · exact ⟨c, .inr rfl, hk⟩

theorem not_writtenSince_of_not_conflicts {ks : List κ} (hno : ¬ h.Conflicts keys n ks)
    (hk : k ∈ ks) : ¬ h.WrittenSince keys n k := fun hw => hno ⟨k, hk, hw⟩

section

variable {R : σ → σ → (κ → Prop) → Prop}

theorem evolves_commit (hrefl : ∀ s, R s s fun _ => False)
    (htrans : ∀ {a b c P Q}, R a b P → R b c Q → R a c fun k => P k ∨ Q k)
    (hcommit : R (h.latest apply) (apply (h.latest apply) c) fun k => k ∈ keys c)
    (hbefore : ∀ n ≤ h.version, R (h.stateAt apply n) (h.latest apply) (h.WrittenSince keys n)) :
    ∀ n ≤ (h.commit c).version, R ((h.commit c).stateAt apply n) ((h.commit c).latest apply)
      ((h.commit c).WrittenSince keys n) := by
  intro n hn
  rcases Nat.lt_or_ge h.version n with hlast | hn
  · obtain rfl : n = (h.commit c).version := by
      rw [version_commit] at hn ⊢
      omega
    rw [stateAt_version]
    have hnone : (h.commit c).WrittenSince keys (h.commit c).version = fun _ => False :=
      funext fun k => eq_false not_writtenSince_version
    rw [hnone]
    exact hrefl _
  · have hwritten : (h.commit c).WrittenSince keys n =
        fun k => h.WrittenSince keys n k ∨ k ∈ keys c :=
      funext fun k => propext (writtenSince_commit hn)
    rw [stateAt_commit hn, latest_commit, hwritten]
    exact htrans (hbefore n hn) hcommit

end

end SnapshotHistory

end RhypeDb
