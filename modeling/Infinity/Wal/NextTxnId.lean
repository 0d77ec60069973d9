import Infinity.Wal.WalLog

/-! The transaction id that a restarted system goes on with.

The third phase of `ReplayWalFile` replays the entries and remembers the transaction id of each; the
last one becomes `next_txn_id_`, and the first new transaction has the id after it. The
last entry is the one with the largest `commit_ts`, which need not be of the youngest
transaction, and where the newest checkpoint covers the whole log there is none. -/
namespace Infinity.Wal

open List

/-- The catalog that `AttachCatalog` loads: the `next_txn_id` of the full file, and the ids that
its entries and those of the delta files carry. -/
structure LoadedCatalog where
  nextTxnId : Nat
  txnIds : List Nat
  deriving DecidableEq, Repr

/-- The loop of phase 3: `last_txn_id`. -/
def lastTxnId (entries : List WalEntry) : Nat := entries.foldl (fun _ e => e.txnId) 0

structure Recovered where
  replayed : List WalEntry
  catalog : LoadedCatalog
  deriving DecidableEq, Repr

/-- `ReplayWalFile` as a whole; `none` if there is nothing to recover. -/
def restart (mode : StorageMode) (d : Disk) (catalog : LoadedCatalog) : Except WalFault (Option Recovered) :=
  match replayWalFile mode d with
  | .error fault => .error fault
  | .ok none => .ok none
  | .ok (some entries) => .ok (some ⟨entries, {catalog with nextTxnId := lastTxnId entries}⟩)

/-- `++catalog_ptr->next_txn_id_` in `BeginTxn`. -/
def LoadedCatalog.newTxnId (catalog : LoadedCatalog) : Nat := (catalog.nextTxnId + 1) % 2 ^ 64

/-! ### The newest entry that is replayed -/

/-- The newest entry of the log, or the one before it if that is a checkpoint that does not
cover it. -/
def newestUncovered : List (Option WalEntry) → Option WalEntry
  | some e :: rest =>
    match e.isCheckPoint, rest with
    | none, _ => some e
    | some maxCommitTs, some e' :: _ => if maxCommitTs < e'.commitTs then some e' else none
    | some _, _ => none
  | _ => none

/-- What is collected begins with the newest entry that the checkpoint does not cover. -/
theorem collected_head {log : List (Option WalEntry)} {newest older : List WalEntry} {M ts : Nat}
    {left : List (Option WalEntry)} (h1 : phase1 log = .ok (newest, some (M, ts), left))
    (h2 : phase2 M left = .ok older) : (newest ++ older).head? = newestUncovered log := by
  cases log with
  | nil => cases h1
  | cons entry rest =>
    cases entry with
    | none => cases h1
    | some a =>
      rw [phase1] at h1
      cases hc : a.isCheckPoint with
      | none =>
        rw [hc] at h1
        cases hrest : phase1 rest with
        | error fault =>
          rw [hrest] at h1
          cases h1
        | ok result =>
          obtain ⟨entries, found, left'⟩ := result
          rw [hrest] at h1
          cases h1
          simp [newestUncovered, hc]
      | some maxCommitTs =>
        rw [hc] at h1
        cases h1
        cases left with
        | nil =>
          cases h2
          simp [newestUncovered, hc]
        | cons next rest =>
          cases next with
          | none => cases h2
          | some b =>
            rw [phase2] at h2
            simp only [newestUncovered, hc]
            split at h2
            · rename_i hlt
              split at h2
              · cases h2
              cases h2
              rw [if_pos hlt]
              rfl
            · rename_i hle
              cases h2
              rw [if_neg hle]
              rfl

/-- The entries are replayed in the order of the log, so the first collected is the last. -/
theorem lastTxnId_reverse (entries : List WalEntry) :
    lastTxnId entries.reverse = (entries.head?.map WalEntry.txnId).getD 0 := by
  cases entries <;> simp [lastTxnId]

theorem replayWalFile_some {mode : StorageMode} {d : Disk} {entries : List WalEntry}
    (h : replayWalFile mode d = .ok (some entries)) :
    ∃ newest older M ts left, phase1 (backward (purge [] (walList d))) = .ok (newest, some (M, ts), left) ∧
      phase2 M left = .ok older ∧ entries = (newest ++ older).reverse := by
  unfold replayWalFile at h
  split at h
  · cases h
  split at h
  · cases h
  rename_i newest found left h1
  split at h
  · split at h <;> cases h
  rename_i M ts
  split at h
  · cases h
  rename_i older h2
  split at h
  · split at h <;> cases h
  split at h
  · cases h
  · cases h
    exact ⟨newest, older, M, ts, left, h1, h2, rfl⟩

/-! ### New ids -/

/-- No entry that is replayed and no entry of the catalog has an id above that of the newest entry
that the newest checkpoint does not cover, or above 0 if there is none. -/
def NewestIsYoungest (log : List (Option WalEntry)) (replayed : List WalEntry) (txnIds : List Nat) : Prop :=
  let last := ((newestUncovered log).map WalEntry.txnId).getD 0
  (∀ a ∈ replayed, a.txnId ≤ last) ∧ (∀ id ∈ txnIds, id ≤ last) ∧ last + 1 < 2 ^ 64

/-- **New transactions have new ids**, above all that were replayed and all in the catalog, if and
only if the newest uncovered entry of the log is of the youngest transaction. -/
theorem newTxnId_fresh (mode : StorageMode) (d : Disk) (catalog : LoadedCatalog) (r : Recovered)
    (h : restart mode d catalog = .ok (some r)) :
    ((∀ a ∈ r.replayed, a.txnId < r.catalog.newTxnId) ∧ ∀ id ∈ r.catalog.txnIds, id < r.catalog.newTxnId) ↔
      NewestIsYoungest (backward (purge [] (walList d))) r.replayed catalog.txnIds := by
  unfold restart at h
  split at h
  · cases h
  · cases h
  · rename_i entries hreplay
    cases h
    obtain ⟨newest, older, M, ts, left, h1, h2, rfl⟩ := replayWalFile_some hreplay
    simp only [NewestIsYoungest, LoadedCatalog.newTxnId, lastTxnId_reverse, ← collected_head h1 h2]
    generalize newest ++ older = collected
    have hlast : (collected.head?.map WalEntry.txnId).getD 0 = 0 ∨
        ∃ a ∈ collected.reverse, a.txnId = (collected.head?.map WalEntry.txnId).getD 0 := by
      cases collected with
      | nil => exact .inl rfl
      | cons a rest => exact .inr ⟨a, by simp, rfl⟩
    generalize (collected.head?.map WalEntry.txnId).getD 0 = last at hlast ⊢
    constructor
    · rintro ⟨hreplayed, hcatalog⟩
      -- a number that wraps around would be below the id of the last entry
      have hbound : last + 1 < 2 ^ 64 := by
        rcases hlast with rfl | ⟨a, ha, rfl⟩
        · decide
        · have := hreplayed a ha
          omega
      rw [Nat.mod_eq_of_lt hbound] at hreplayed hcatalog
      exact ⟨fun a ha => Nat.le_of_lt_succ (hreplayed a ha), fun id hid => Nat.le_of_lt_succ (hcatalog id hid), hbound⟩
    · rintro ⟨hreplayed, hcatalog, hbound⟩
      rw [Nat.mod_eq_of_lt hbound]
      exact ⟨fun a ha => Nat.lt_succ_of_le (hreplayed a ha), fun id hid => Nat.lt_succ_of_le (hcatalog id hid)⟩

/-- A log whose last entry is of an older transaction than the checkpoint before it. -/
def orderedDisk : Disk := ⟨some ⟨[⟨1, 2, []⟩, ⟨4, 3, [.checkpoint 2 true]⟩, ⟨2, 5, []⟩, ⟨3, 6, []⟩], false⟩, []⟩

theorem newTxnId_fresh_ordered :
    (∀ a ∈ [WalEntry.mk 2 5 [], WalEntry.mk 3 6 []], a.txnId < LoadedCatalog.newTxnId ⟨3, [1]⟩) ∧
      ∀ id ∈ [1], id < LoadedCatalog.newTxnId ⟨3, [1]⟩ :=
  (newTxnId_fresh .writable orderedDisk ⟨2, [1]⟩ ⟨[⟨2, 5, []⟩, ⟨3, 6, []⟩], ⟨3, [1]⟩⟩ (by decide +kernel)).mpr
    (by unfold NewestIsYoungest; decide +kernel)

/-- Two runs that end in ids used before. Transaction 4 commits before transaction 3, and the next
transaction is a second number 4. A checkpoint is the last entry, and the next transaction is a
second number 1, the id that the catalog has. -/
theorem newTxnId_repeats :
    (∃ s d, walMachine.Run start
        [.commit 1 2 [], .chooseFull 2, .logCheckpoint 2 3 2 true, .commit 4 5 [], .commit 3 6 []] s ∧
      CrashOf s d ∧ ∃ r, restart .writable d ⟨2, [1]⟩ = .ok (some r) ∧
        ∃ a ∈ r.replayed, a.txnId = r.catalog.newTxnId) ∧
    ∃ s d, walMachine.Run start [.commit 1 2 [], .chooseFull 2, .logCheckpoint 2 3 2 true] s ∧
      CrashOf s d ∧ ∃ r, restart .writable d ⟨2, [1]⟩ = .ok (some r) ∧
        ∃ id ∈ r.catalog.txnIds, id = r.catalog.newTxnId := by
  constructor
  · refine ⟨_, ⟨some ⟨[⟨1, 2, []⟩, ⟨2, 3, [.checkpoint 2 true]⟩, ⟨4, 5, []⟩, ⟨3, 6, []⟩], false⟩, []⟩,
      .cons trivial rfl <| .cons ⟨by decide, by decide⟩ rfl <| .cons (mem_singleton_self _) rfl <|
      .cons trivial rfl <| .cons trivial rfl <| .nil _, ⟨rfl, .nil⟩,
      ⟨[⟨4, 5, []⟩, ⟨3, 6, []⟩], ⟨3, [1]⟩⟩, by decide +kernel, ⟨4, 5, []⟩, by decide, rfl⟩
  · refine ⟨_, ⟨some ⟨[⟨1, 2, []⟩, ⟨2, 3, [.checkpoint 2 true]⟩], false⟩, []⟩,
      .cons trivial rfl <| .cons ⟨by decide, by decide⟩ rfl <| .cons (mem_singleton_self _) rfl <| .nil _,
      ⟨rfl, .nil⟩, ⟨[], ⟨0, [1]⟩⟩, by decide +kernel, 1, by decide, rfl⟩

end Infinity.Wal
