import RhypeDb.Storage.MvccRun

/-! `TransactionManager::begin` as the two actions it is made of: it loads
`visible_version`, and only then counts a hold on the value it loaded. A commit that
lands between the two trims the conflict log against a minimum that does not know the
loaded value yet. The log covers a registered snapshot as long as no commit trims past
a begin in that gap. -/

namespace RhypeDb.Storage

open List

namespace TransactionManager

variable {K V : Type}

/-- The first action of `begin`. -/
def loadVisible (tm : TransactionManager K) : Nat := tm.visibleVersion

/-- The second action of `begin`, for the value the first one loaded. -/
def register (tm : TransactionManager K) (snapshot : Nat) :
    TransactionManager K × Transaction K V :=
  ({ tm with activeSnapshots := tm.activeSnapshots.acquire snapshot },
    { snapshot, writes := [], hold := true })

theorem mem_trim {minActive max : Nat} {log : List (CommittedTxn K)} {c : CommittedTxn K}
    (hc : c ∈ log) (hmin : minActive ≤ c.commitVersion) (hlen : log.length ≤ max) :
    c ∈ trimSize max (trimActive minActive log) := by
  obtain ⟨dropped, hsplit, hdrop⟩ := trim_split minActive max log
  rw [hsplit, mem_append] at hc
  rcases hc with hc | hc
  · rcases hdrop c hc with hlt | hfull
    · exact absurd hmin (Nat.not_le.mpr hlt)
    · have hpos : 0 < dropped.length := length_pos_of_mem hc
      have hsum := congrArg List.length hsplit
      rw [length_append] at hsum
      omega
  · exact hc

theorem length_trim_le (minActive max : Nat) (log : List (CommittedTxn K)) :
    (trimSize max (trimActive minActive log)).length ≤ log.length := by
  obtain ⟨dropped, hsplit, -⟩ := trim_split minActive max log
  have hsum := congrArg List.length hsplit
  rw [length_append] at hsum
  omega

end TransactionManager

namespace BeginGap

open TransactionManager

variable {K V : Type}

/-- The atomic actions: the two halves of a `begin`, the manager's other calls, and a
commit whose `apply` fails. A begin in its gap is named by the position of its load. -/
inductive Event (K V : Type)
  | load
  | register (j : Nat)
  | call (c : Mvcc.Call K V)
  | failedCommit (i : Nat)

structure Sys (K V : Type) where
  sys : Mvcc.Sys K V
  loaded : List (Option Nat)

namespace Sys

variable [DecidableEq K]

/-- `TransactionManager::recover_at_version`; `new` is the one at version 0. -/
def recoverAtVersion (version : Nat) : Sys K V :=
  { sys := { tm := TransactionManager.recoverAtVersion version, txns := [], published := [] }
    loaded := [] }

/-- An apply callback that fails. -/
def applyFails (_ : Nat) (_ : Writes K V) (_ : Unit) : Except Error Unit × Unit :=
  (.error .io, ())

def failedCommit (s : Mvcc.Sys K V) (i : Nat) : Mvcc.Sys K V :=
  match s.handle i with
  | none => s
  | some t =>
    let (_, tm', t', _) := s.tm.commit t applyFails ()
    { s with tm := tm', txns := s.txns.set i (some t') }

def register (s : Sys K V) (j : Nat) : Sys K V :=
  match (s.loaded[j]?).join with
  | none => s
  | some v =>
    let (tm', t) := s.sys.tm.register v
    { sys := { s.sys with tm := tm', txns := s.sys.txns ++ [some t] }
      loaded := s.loaded.set j none }

def step (s : Sys K V) : Event K V → Sys K V
  | .load => { s with loaded := s.loaded ++ [some s.sys.tm.loadVisible] }
  | .register j => s.register j
  | .call c => { s with sys := s.sys.step c }
  | .failedCommit i => { s with sys := failedCommit s.sys i }

end Sys

/-- Every commit newer than `v` is in the conflict log. -/
def Covered (s : Mvcc.Sys K V) (v : Nat) : Prop :=
  ∀ p ∈ s.published, v < p.version → p.entry ∈ s.tm.committedLog

def SnapshotsCovered (s : Mvcc.Sys K V) : Prop :=
  ∀ t, some t ∈ s.txns → t.hold = true → Covered s t.snapshot

/-- A commit that publishes trims no entry newer than a value a begin in its gap has
loaded: such an entry is not older than the oldest held snapshot. -/
def TrimsBehindGaps [DecidableEq K] (s : Sys K V) : Event K V → Prop
  | .call (.commit i) => ∀ t ∈ s.sys.handle i, t.writes ≠ [] → s.sys.tm.conflicts t = false →
      ∀ gap ∈ s.loaded, ∀ v ∈ gap,
        ∀ c ∈ s.sys.tm.committedLog ++ [⟨s.sys.tm.nextVersion, t.keys⟩],
          v < c.commitVersion → s.sys.tm.minActiveSnapshot ≤ c.commitVersion
  | _ => True

instance [DecidableEq K] (s : Sys K V) (e : Event K V) : Decidable (TrimsBehindGaps s e) :=
  match e with
  | .call (.commit i) =>
    inferInstanceAs (Decidable (∀ t ∈ s.sys.handle i, t.writes ≠ [] →
      s.sys.tm.conflicts t = false → ∀ gap ∈ s.loaded, ∀ v ∈ gap,
        ∀ c ∈ s.sys.tm.committedLog ++ [⟨s.sys.tm.nextVersion, t.keys⟩],
          v < c.commitVersion → s.sys.tm.minActiveSnapshot ≤ c.commitVersion))
  | .call .begin | .call (.put ..) | .call (.delete ..) | .call (.abort _) | .call (.drop _)
  | .load | .register _ | .failedCommit _ => inferInstanceAs (Decidable True)

structure Inv (s : Sys K V) : Prop where
  counted : ∀ v, s.sys.tm.activeSnapshots.holds v = s.sys.txns.countP (Mvcc.holding v)
  visible_lt : s.sys.tm.visibleVersion < s.sys.tm.nextVersion
  version_le : ∀ p ∈ s.sys.published, p.version ≤ s.sys.tm.visibleVersion
  short : s.sys.tm.committedLog.length ≤ s.sys.published.length
  registered : s.sys.published.length ≤ s.sys.tm.maxCommittedLogSize → SnapshotsCovered s.sys
  gaps : s.sys.published.length ≤ s.sys.tm.maxCommittedLogSize →
    ∀ v, some v ∈ s.loaded → Covered s.sys v

theorem inv_recoverAtVersion (version : Nat) :
    Inv (Sys.recoverAtVersion version : Sys K V) where
  counted := fun _ => rfl
  visible_lt := Nat.lt_succ_self version
  version_le := forall_mem_nil _
  short := le_rfl
  registered := fun _ _ ht => absurd ht not_mem_nil
  gaps := fun _ _ hv => absurd hv not_mem_nil

variable {s : Sys K V} {i : Nat}

theorem Inv.frame (hs : Inv s) {tm : TransactionManager K} {txns : List (Option (Transaction K V))}
    (hcounted : ∀ v, tm.activeSnapshots.holds v = txns.countP (Mvcc.holding v))
    (hvisible : tm.visibleVersion = s.sys.tm.visibleVersion)
    (hnext : s.sys.tm.nextVersion ≤ tm.nextVersion) (hlog : tm.committedLog = s.sys.tm.committedLog)
    (hmax : tm.maxCommittedLogSize = s.sys.tm.maxCommittedLogSize)
    (hheld : ∀ u, some u ∈ txns → u.hold = true → ∃ t, some t ∈ s.sys.txns ∧ t.hold = true ∧
      t.snapshot = u.snapshot) : Inv { s with sys := { s.sys with tm := tm, txns := txns } } := by
  refine ⟨hcounted, ?_, ?_, ?_, ?_, ?_⟩
  · rw [hvisible]
    exact hs.visible_lt.trans_le hnext
  · rw [hvisible]
    exact hs.version_le
  · rw [hlog]
    exact hs.short
  · rw [hmax]
    intro hlen u hu hhold
    obtain ⟨t, ht, hthold, htu⟩ := hheld u hu hhold
    have hcov := hs.registered hlen t ht hthold
    rw [Covered, hlog, ← htu]
    exact hcov
  · rw [hmax]
    intro hlen v hv
    rw [Covered, hlog]
    exact hs.gaps hlen v hv

theorem Inv.set_same (hs : Inv s) {t t' : Transaction K V} (ht : s.sys.handle i = some t)
    (hsnap : t'.snapshot = t.snapshot) (hhold : t'.hold = t.hold) :
    Inv { s with sys := { s.sys with txns := s.sys.txns.set i (some t') } } := by
  obtain ⟨hi, hget⟩ := Mvcc.handle_eq_some ht
  refine hs.frame ?_ rfl le_rfl rfl rfl ?_
  · intro v
    rw [Mvcc.countP_holding_same hi hget hsnap hhold, hs.counted v]
  · intro u hu huhold
    rcases Mvcc.mem_set_some hu with hu | hu
    · exact ⟨u, hu, huhold, rfl⟩
    · cases hu
      exact ⟨t, Mvcc.handle_mem ht, hhold ▸ huhold, hsnap.symm⟩

variable {t : Transaction K V}

theorem Inv.release (hs : Inv s) (ht : s.sys.handle i = some t)
    {x : Option (Transaction K V)} (hx : x = none ∨ x = some (s.sys.tm.release t).2) :
    Inv { s with sys := { s.sys with
      tm := (s.sys.tm.release t).1, txns := s.sys.txns.set i x } } := by
  obtain ⟨hi, hget⟩ := Mvcc.handle_eq_some ht
  have hcounted := Mvcc.counted_release hs.counted hi hget hx
  rw [Mvcc.release_tm] at hcounted ⊢
  refine hs.frame hcounted rfl le_rfl rfl rfl fun u hu huhold => ?_
  rcases Mvcc.mem_release hx hu with hu | hu
  · exact ⟨u, hu, huhold, rfl⟩
  · rw [hu.2] at huhold
    cases huhold

theorem Inv.acquire (hs : Inv s) {v : Nat}
    (hv : s.sys.published.length ≤ s.sys.tm.maxCommittedLogSize → Covered s.sys v)
    {loaded : List (Option Nat)} (hloaded : ∀ w, some w ∈ loaded → some w ∈ s.loaded) :
    Inv { sys := { s.sys with
            tm := (s.sys.tm.register v : TransactionManager K × Transaction K V).1
            txns := s.sys.txns ++ [some (s.sys.tm.register v).2] }
          loaded := loaded } := by
  refine ⟨?_, hs.visible_lt, hs.version_le, hs.short, ?_,
    fun hlen w hw => hs.gaps hlen w (hloaded w hw)⟩
  · intro w
    simp only [TransactionManager.register, ActiveSnapshots.holds_acquire, hs.counted w,
      countP_append, countP_singleton, Mvcc.holding, Bool.true_and, decide_eq_true_eq,
      eq_comm (a := w)]
  · intro hlen t ht hhold
    rcases mem_append.mp ht with ht | ht
    · exact hs.registered hlen t ht hhold
    · cases mem_singleton.mp ht
      exact hv hlen

theorem Inv.covered_visible (hs : Inv s) : Covered s.sys s.sys.tm.visibleVersion :=
  fun p hp hlt => absurd (hs.version_le p hp) (Nat.not_le.mpr hlt)

theorem Inv.covered_publish (hs : Inv s) {v : Nat} (hv : Covered s.sys v)
    (hlen : (Mvcc.publish s.sys i t).published.length ≤ s.sys.tm.maxCommittedLogSize)
    (hmin : ∀ c ∈ s.sys.tm.committedLog ++ [⟨s.sys.tm.nextVersion, t.keys⟩], v < c.commitVersion →
      s.sys.tm.minActiveSnapshot ≤ c.commitVersion) : Covered (Mvcc.publish s.sys i t) v := by
  intro p hp hlt
  set new : CommittedTxn K := ⟨s.sys.tm.nextVersion, t.keys⟩ with hnew
  have hshort : (s.sys.tm.committedLog ++ [new]).length ≤ s.sys.tm.maxCommittedLogSize := by
    have := hs.short
    simp only [Mvcc.publish, length_append, length_singleton] at hlen ⊢
    omega
  have hpushed : p.entry ∈ s.sys.tm.committedLog ++ [new] := by
    rcases mem_append.mp hp with hp | hp
    · exact mem_append_left _ (hv p hp hlt)
    · rw [mem_singleton.mp hp]
      exact mem_append_right _ (mem_singleton_self _)
  exact mem_trim hpushed (hmin _ hpushed hlt) hshort

theorem Inv.publish (hs : Inv s)
    (hgaps : ∀ v, some v ∈ s.loaded → ∀ c ∈ s.sys.tm.committedLog ++ [⟨s.sys.tm.nextVersion,
      t.keys⟩], v < c.commitVersion → s.sys.tm.minActiveSnapshot ≤ c.commitVersion) :
    Inv { s with sys := Mvcc.publish s.sys i t } := by
  have hbefore : (Mvcc.publish s.sys i t).published.length ≤ s.sys.tm.maxCommittedLogSize →
      s.sys.published.length ≤ s.sys.tm.maxCommittedLogSize := by
    intro hlen
    simp only [Mvcc.publish, length_append] at hlen
    omega
  refine ⟨hs.counted, Nat.lt_succ_self _, ?_, ?_, ?_, ?_⟩
  · intro p hp
    rcases mem_append.mp hp with hp | hp
    · exact (hs.version_le p hp).trans hs.visible_lt.le
    · rw [mem_singleton.mp hp]
      exact le_rfl
  · refine (length_trim_le _ _ _).trans ?_
    have := hs.short
    simp only [Mvcc.publish, length_append, length_singleton]
    omega
  · intro hlen u hu hhold
    refine hs.covered_publish (hs.registered (hbefore hlen) u hu hhold) hlen fun c _ hlt => ?_
    have hheld : 0 < s.sys.tm.activeSnapshots.holds u.snapshot := by
      rw [hs.counted]
      exact countP_pos_iff.mpr ⟨some u, hu, by simp [Mvcc.holding, hhold]⟩
    exact (ActiveSnapshots.minActive_le hheld).trans hlt.le
  · intro hlen v hv
    exact hs.covered_publish (hs.gaps (hbefore hlen) v hv) hlen (hgaps v hv)

section

variable [DecidableEq K]

theorem failedCommit_cases (s : Mvcc.Sys K V) {i : Nat} {t : Transaction K V}
    (ht : s.handle i = some t) :
    Sys.failedCommit s i = { s with tm := (s.tm.release t).1
                                    txns := s.txns.set i (some (s.tm.release t).2) } ∨
    Sys.failedCommit s i = { s with txns := s.txns.set i (some t) } ∨
    Sys.failedCommit s i = { s with tm := { s.tm with nextVersion := s.tm.nextVersion + 1 }
                                    txns := s.txns.set i (some t) } := by
  simp only [Sys.failedCommit, ht]
  by_cases hw : t.writes = []
  · exact .inl (by simp [TransactionManager.commit, hw])
  · have hw' : t.writes.isEmpty = false := by simpa using hw
    cases hc : s.tm.conflicts t with
    | true => exact .inr (.inl (by simp [TransactionManager.commit, hw', hc]))
    | false =>
      exact .inr (.inr (by simp [TransactionManager.commit, hw', hc, Sys.applyFails]))

theorem Inv.failedCommit (hs : Inv s) (i : Nat) :
    Inv { s with sys := Sys.failedCommit s.sys i } := by
  cases ht : s.sys.handle i with
  | none => simpa only [Sys.failedCommit, ht] using hs
  | some t =>
    rcases failedCommit_cases s.sys ht with h | h | h
    · exact h ▸ hs.release ht (.inr rfl)
    · exact h ▸ hs.set_same ht rfl rfl
    · have hsame : Inv { s with sys := { s.sys with txns := s.sys.txns.set i (some t) } } :=
        hs.set_same ht rfl rfl
      rw [h]
      exact hsame.frame hsame.counted rfl (Nat.le_succ _) rfl rfl fun u hu hhold =>
        ⟨u, hu, hhold, rfl⟩

theorem Inv.commit (hs : Inv s) {i : Nat}
    (hC : TrimsBehindGaps s (.call (.commit i))) : Inv { s with sys := s.sys.commit i } := by
  cases ht : s.sys.handle i with
  | none => simpa only [Mvcc.Sys.commit, ht] using hs
  | some t =>
    rcases Mvcc.commit_cases s.sys ht with ⟨-, -, h⟩ | ⟨-, -, -, h⟩ | ⟨hw, hc, -, h⟩
    · exact h ▸ hs.release ht (.inr rfl)
    · exact h ▸ hs.set_same ht rfl rfl
    · have hpub : Inv { s with sys := Mvcc.publish s.sys i t } :=
        hs.publish fun v hv => hC t ht hw hc (some v) hv v rfl
      exact h ▸ hpub.release ht (.inr rfl)

theorem Inv.call (hs : Inv s) {c : Mvcc.Call K V}
    (hC : TrimsBehindGaps s (.call c)) : Inv { s with sys := s.sys.step c } := by
  cases c with
  | begin => exact hs.acquire (fun _ => hs.covered_visible) fun _ hw => hw
  | put i key value =>
    simp only [Mvcc.Sys.step, Mvcc.Sys.buffer]
    cases ht : s.sys.handle i with
    | none => exact hs
    | some t => exact hs.set_same ht (Mvcc.upsert_snapshot t key _).1 (Mvcc.upsert_snapshot t key _).2
  | delete i key =>
    simp only [Mvcc.Sys.step, Mvcc.Sys.buffer]
    cases ht : s.sys.handle i with
    | none => exact hs
    | some t => exact hs.set_same ht (Mvcc.upsert_snapshot t key _).1 (Mvcc.upsert_snapshot t key _).2
  | commit i => exact hs.commit hC
  | abort i =>
    simp only [Mvcc.Sys.step, Mvcc.Sys.finish]
    cases ht : s.sys.handle i with
    | none => exact hs
    | some t => exact hs.release ht (.inr rfl)
  | drop i =>
    simp only [Mvcc.Sys.step, Mvcc.Sys.finish]
    cases ht : s.sys.handle i with
    | none => exact hs
    | some t => exact hs.release ht (.inl rfl)

theorem Inv.load (hs : Inv s) : Inv (s.step .load) := by
  refine ⟨hs.counted, hs.visible_lt, hs.version_le, hs.short, hs.registered, fun hlen v hv => ?_⟩
  rcases mem_append.mp hv with hv | hv
  · exact hs.gaps hlen v hv
  · cases mem_singleton.mp hv
    exact hs.covered_visible

omit [DecidableEq K] in
theorem Inv.register (hs : Inv s) (j : Nat) : Inv (s.register j) := by
  unfold Sys.register
  cases hj : (s.loaded[j]?).join with
  | none => exact hs
  | some v =>
    have hmem : some v ∈ s.loaded := by
      obtain ⟨hlt, hget⟩ := List.getElem?_eq_some_iff.mp (Option.join_eq_some_iff.mp hj)
      exact hget ▸ getElem_mem hlt
    refine hs.acquire (fun hlen => hs.gaps hlen v hmem) fun w hw => ?_
    rcases mem_or_eq_of_mem_set hw with hw | hw
    · exact hw
    · cases hw

theorem Inv.step {e : Event K V} (hs : Inv s) (hC : TrimsBehindGaps s e) : Inv (s.step e) := by
  cases e with
  | load => exact hs.load
  | register j => exact hs.register j
  | call c => exact hs.call hC
  | failedCommit i => exact hs.failedCommit i

end

/-- In every interleaving whose commits trim behind the begins in their gap, and with
fewer commits than the log's capacity, the log covers every registered snapshot. -/
theorem registered_snapshots_covered [DecidableEq K] (version : Nat) (events : List (Event K V))
    (hC : Run.Along Sys.step TrimsBehindGaps (Sys.recoverAtVersion version) events)
    (hlen : (Run.exec Sys.step (Sys.recoverAtVersion version) events).sys.published.length <
      (Run.exec Sys.step (Sys.recoverAtVersion version) events).sys.tm.maxCommittedLogSize) :
    SnapshotsCovered (Run.exec Sys.step (Sys.recoverAtVersion version) events).sys := by
  have hs : Inv (Run.exec Sys.step (Sys.recoverAtVersion version) events) :=
    Run.exec_invariant (fun _ _ hs hC => hs.step hC) (inv_recoverAtVersion version) hC
  exact hs.registered hlen.le

def gapKept : List (Event (List (Fin 256)) (List (Fin 256))) :=
  [.load, .call .begin, .call (.put 0 [107] [1]), .call (.commit 0), .register 0]

theorem registered_snapshots_covered_gapKept :
    SnapshotsCovered (Run.exec Sys.step (Sys.recoverAtVersion 7) gapKept).sys :=
  registered_snapshots_covered 7 gapKept (by decide) (by decide)

/-- Three commits in a reader's gap, each begun after the one before: the second one's
trim drops the first. -/
def gapLost : List (Event (List (Fin 256)) (List (Fin 256))) :=
  [.load,
    .call .begin, .call (.put 0 [107] [1]), .call (.commit 0),
    .call .begin, .call (.put 1 [120] [2]), .call (.commit 1),
    .call .begin, .call (.put 2 [121] [3]), .call (.commit 2),
    .register 0]

theorem registered_snapshot_uncovered :
    ¬ ∀ (version : Nat) (events : List (Event (List (Fin 256)) (List (Fin 256)))),
      (Run.exec Sys.step (Sys.recoverAtVersion version) events).sys.published.length <
        (Run.exec Sys.step (Sys.recoverAtVersion version) events).sys.tm.maxCommittedLogSize →
      SnapshotsCovered (Run.exec Sys.step (Sys.recoverAtVersion version) events).sys := by
  intro hall
  have hlost := hall 0 gapLost (by decide) ⟨0, [], true⟩ (by decide) rfl ⟨0, 0, 1, [[107]]⟩
    (by decide) (by decide)
  exact absurd hlost (by decide)

end BeginGap
end RhypeDb.Storage
