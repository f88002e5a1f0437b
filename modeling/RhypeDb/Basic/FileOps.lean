import Mathlib.Data.List.AList

/-! Writes and removals of whole files that take effect in order, and what a cut after some of them
leaves: the operation that it hits is done in part, and the later ones are not done. -/

namespace RhypeDb.FileOps

open AList List Option

variable {P β : Type*} [DecidableEq P]

abbrev Disk (P β : Type*) := AList (fun _ : P => List β)

inductive Op (P β : Type*)
  | write (p : P) (content : List β)
  | remove (p : P)

def Op.path : Op P β → P
  | .write p _ => p
  | .remove p => p

def Op.apply : Op P β → Disk P β → Disk P β
  | .write p content, d => d.insert p content
  | .remove p, d => d.erase p

/-- A cut write leaves the first `n` bytes; a removal is done or not. -/
def Op.applyCut (n : Nat) : Op P β → Disk P β → Disk P β
  | .write p content, d => d.insert p (content.take n)
  | .remove _, d => d

def run (ops : List (Op P β)) (d : Disk P β) : Disk P β := ops.foldl (fun d op => op.apply d) d

/-- `k` operations are done, and of the next one `n` bytes. -/
def runCut : List (Op P β) → (k n : Nat) → Disk P β → Disk P β
  | [], _, _, d => d
  | op :: _, 0, n, d => op.applyCut n d
  | op :: ops, k + 1, n, d => runCut ops k n (op.apply d)

section

variable {ops ops' : List (Op P β)} {d : Disk P β} {I : Disk P β → Prop}

theorem run_append (ops ops' : List (Op P β)) (d : Disk P β) :
    run (ops ++ ops') d = run ops' (run ops d) := foldl_append

theorem runCut_append_left {k : Nat} (hk : k < ops.length) (n : Nat) :
    runCut (ops ++ ops') k n d = runCut ops k n d := by
  induction ops generalizing k d with
  | nil => exact absurd hk (Nat.not_lt_zero k)
  | cons op ops ih =>
    cases k with
    | zero => rfl
    | succ k => exact ih (Nat.lt_of_succ_lt_succ hk)

theorem runCut_append_right (k n : Nat) :
    runCut (ops ++ ops') (ops.length + k) n d = runCut ops' k n (run ops d) := by
  induction ops generalizing d with
  | nil =>
    rw [length_nil, Nat.zero_add]
    rfl
  | cons op ops ih =>
    rw [length_cons, Nat.add_right_comm]
    exact ih

theorem runCut_induct (happly : ∀ op ∈ ops, ∀ d, I d → I (op.apply d))
    (hcut : ∀ op ∈ ops, ∀ n d, I d → I (op.applyCut n d)) (h : I d) (k n : Nat) :
    I (runCut ops k n d) := by
  induction ops generalizing k d with
  | nil => exact h
  | cons op ops ih =>
    rw [forall_mem_cons] at happly hcut
    cases k with
    | zero => exact hcut.1 n d h
    | succ k => exact ih happly.2 hcut.2 (happly.1 d h) k

theorem run_induct (happly : ∀ op ∈ ops, ∀ d, I d → I (op.apply d)) (h : I d) : I (run ops d) := by
  induction ops generalizing d with
  | nil => exact h
  | cons op ops ih =>
    rw [forall_mem_cons] at happly
    exact ih happly.2 (happly.1 d h)

end

variable {d : Disk P β} {p : P} {op : Op P β}

theorem lookup_apply_of_ne (h : p ≠ op.path) : (op.apply d).lookup p = d.lookup p := by
  cases op with
  | write q content => exact lookup_insert_ne h
  | remove q => exact lookup_erase_ne h

theorem lookup_run_of_not_mem {ops : List (Op P β)} (h : ∀ op ∈ ops, p ≠ op.path) :
    (run ops d).lookup p = d.lookup p := by
  refine run_induct (I := fun d' => d'.lookup p = d.lookup p) (fun op hop d' h' => ?_) rfl
  rw [lookup_apply_of_ne (h op hop), h']

def removes (ps : List P) : List (Op P β) := ps.map Op.remove

def copies (source : Disk P β) (ps : List P) : List (Op P β) :=
  ps.filterMap fun p => (source.lookup p).map (Op.write p)

variable {ps : List P}

omit [DecidableEq P] in
theorem mem_removes : op ∈ removes ps ↔ ∃ q ∈ ps, .remove q = op :=
  mem_map

variable {source : Disk P β}

theorem mem_copies :
    op ∈ copies source ps ↔ ∃ q ∈ ps, ∃ content, source.lookup q = some content ∧
      .write q content = op := by
  unfold copies
  simp only [mem_filterMap, map_eq_some_iff]

theorem lookup_run_removes (ps : List P) :
    (run (removes ps) d).lookup p = if p ∈ ps then none else d.lookup p := by
  induction ps generalizing d with
  | nil => exact (if_neg not_mem_nil).symm
  | cons q ps ih =>
    change (run (removes ps) (d.erase q)).lookup p = _
    rw [ih]
    by_cases hpq : p = q
    · subst hpq
      rw [lookup_erase, ite_self, if_pos mem_cons_self]
    · rw [lookup_erase_ne hpq]
      have hmem : p ∈ q :: ps ↔ p ∈ ps := by
        rw [mem_cons, or_iff_right hpq]
      rw [if_congr hmem rfl rfl]

theorem lookup_run_copies (source : Disk P β) (ps : List P) :
    (run (copies source ps) d).lookup p =
      if p ∈ ps then (source.lookup p).or (d.lookup p) else d.lookup p := by
  induction ps generalizing d with
  | nil => exact (if_neg not_mem_nil).symm
  | cons q ps ih =>
    unfold copies at ih ⊢
    rw [filterMap_cons]
    have hmem : p ≠ q → (p ∈ q :: ps ↔ p ∈ ps) := fun hpq => by
      rw [mem_cons, or_iff_right hpq]
    cases hq : source.lookup q with
    | none =>
      rw [map_none]
      rw [ih]
      by_cases hpq : p = q
      · subst hpq
        rw [hq, none_or, ite_self, ite_self]
      · rw [if_congr (hmem hpq) rfl rfl]
    | some content =>
      change (run _ (d.insert q content)).lookup p = _
      rw [ih]
      by_cases hpq : p = q
      · subst hpq
        rw [hq, lookup_insert, if_pos mem_cons_self, some_or, some_or,
          ite_self]
      · rw [lookup_insert_ne hpq, if_congr (hmem hpq) rfl rfl]

theorem lookup_run_copies_of_mem (hp : p ∈ ps) (hsource : (source.lookup p).isSome) :
    (run (copies source ps) d).lookup p = source.lookup p := by
  obtain ⟨content, hcontent⟩ := isSome_iff_exists.mp hsource
  rw [lookup_run_copies, if_pos hp, hcontent, some_or]

theorem lookup_run_copies_of_eq (h : d.lookup p = source.lookup p) :
    (run (copies source ps) d).lookup p = source.lookup p := by
  rw [lookup_run_copies, h, Option.or_self, ite_self]

end RhypeDb.FileOps
