import RhypeDb.Storage.MemTable
import RhypeDb.Storage.Mvcc

/-! The write-ahead log as a list of records behind the framing magic: `append_txn` writes a
transaction's data records and then a footer with their count, and `replay` yields the records
of the batches whose footer agrees. -/

namespace RhypeDb.Storage

open List

variable {V : Type}

inductive WalRecord (V : Type)
  | put (key : Bytes) (value : V) (version : Nat)
  | delete (key : Bytes) (version : Nat)
  | commit (count : Nat) (version : Nat)

namespace WalRecord

def version : WalRecord V → Nat
  | put _ _ version => version
  | delete _ version => version
  | commit _ version => version

def ofWrite (version : Nat) (w : Bytes × Option V) : WalRecord V :=
  match w.2 with
  | some value => put w.1 value version
  | none => delete w.1 version

def apply (m : MemTable V) : WalRecord V → MemTable V
  | put key value version => m.put key (UInt64.ofNat version) value
  | delete key version => m.delete key (UInt64.ofNat version)
  | commit _ _ => m

end WalRecord

namespace Wal

def appendTxn (wal : List (WalRecord V)) (writes : Writes Bytes V) (commitVersion : Nat) :
    List (WalRecord V) :=
  if writes.isEmpty then wal
  else wal ++ writes.map (WalRecord.ofWrite commitVersion) ++ [.commit writes.length commitVersion]

/-- The replay loop; a batch without a footer at the end is dropped. The second component is
the length of the part that replay accepts, here in records. -/
def replayFrom (records pending : List (WalRecord V)) (offset validLen : Nat) :
    List (WalRecord V) → List (WalRecord V) × Nat
  | [] => (records, validLen)
  | .commit count _ :: rest =>
    if count = pending.length then
      replayFrom (records ++ pending) [] (offset + 1) (offset + 1) rest
    else (records, validLen)
  | .put key value version :: rest =>
    replayFrom records (pending ++ [.put key value version]) (offset + 1) validLen rest
  | .delete key version :: rest =>
    replayFrom records (pending ++ [.delete key version]) (offset + 1) validLen rest

def replayWithValidLen (wal : List (WalRecord V)) : List (WalRecord V) × Nat :=
  replayFrom [] [] 0 0 wal

def replay (wal : List (WalRecord V)) : List (WalRecord V) := (replayWithValidLen wal).1

theorem replayFrom_ofWrite (records pending rest : List (WalRecord V)) (writes : Writes Bytes V)
    (v offset validLen : Nat) :
    replayFrom records pending offset validLen (writes.map (WalRecord.ofWrite v) ++ rest) =
      replayFrom records (pending ++ writes.map (WalRecord.ofWrite v)) (offset + writes.length)
        validLen rest := by
  induction writes generalizing pending offset with
  | nil => simp
  | cons w writes ih =>
    obtain ⟨k, _ | value⟩ := w
    · simp [WalRecord.ofWrite, replayFrom, ih, Nat.add_assoc, Nat.add_comm 1]
    · simp [WalRecord.ofWrite, replayFrom, ih, Nat.add_assoc, Nat.add_comm 1]

def Whole (wal : List (WalRecord V)) : Prop :=
  ∀ records offset rest, replayFrom records [] offset offset (wal ++ rest) =
    replayFrom (records ++ replay wal) [] (offset + wal.length) (offset + wal.length) rest

theorem whole_nil : Whole ([] : List (WalRecord V)) := by
  intro records offset rest
  simp [replay, replayWithValidLen, replayFrom]

variable {wal : List (WalRecord V)}

theorem Whole.replayWithValidLen (h : Whole wal) :
    replayWithValidLen wal = (replay wal, wal.length) := by
  have hall := h [] 0 []
  rwa [append_nil, nil_append, Nat.zero_add] at hall

variable {writes : Writes Bytes V}

theorem Whole.replayFrom_appendTxn (h : Whole wal) (hw : writes ≠ []) (v : Nat)
    (records : List (WalRecord V)) (offset : Nat) (rest : List (WalRecord V)) :
    replayFrom records [] offset offset (appendTxn wal writes v ++ rest) =
      replayFrom (records ++ (replay wal ++ writes.map (WalRecord.ofWrite v))) []
        (offset + (appendTxn wal writes v).length) (offset + (appendTxn wal writes v).length)
        rest := by
  have hne : writes.isEmpty = false := by simpa using hw
  have hlen : offset + wal.length + writes.length + 1 =
      offset + (wal ++ writes.map (WalRecord.ofWrite v) ++
        [WalRecord.commit writes.length v]).length := by
    simp only [length_append, length_map, length_singleton]
    omega
  rw [appendTxn, hne, if_neg Bool.false_ne_true, ← hlen, append_assoc, append_assoc, h,
    replayFrom_ofWrite, singleton_append, replayFrom, if_pos (by simp), nil_append,
    append_assoc]

theorem Whole.replay_appendTxn (h : Whole wal) (hw : writes ≠ []) (v : Nat) :
    replay (Wal.appendTxn wal writes v) = replay wal ++ writes.map (WalRecord.ofWrite v) := by
  have happend := h.replayFrom_appendTxn hw v [] 0 []
  rw [append_nil, nil_append] at happend
  rw [replay, Wal.replayWithValidLen, happend, replayFrom]

theorem Whole.appendTxn (h : Whole wal) (hw : writes ≠ []) (v : Nat) :
    Whole (appendTxn wal writes v) := by
  intro records offset rest
  rw [h.replayFrom_appendTxn hw, h.replay_appendTxn hw]

end Wal

end RhypeDb.Storage
