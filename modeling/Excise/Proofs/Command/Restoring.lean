import Excise.Proofs.Backup.LastCopies
import Excise.Proofs.Command.Steps

/-!
# What restoring all comes down to

`restore` without ids opens the store, lists the backups that are pending, and restores them in
turn. It succeeds exactly if each of these steps does (`restore_all_cases`, `restore_all_succeeds`).
-/

namespace Excise

namespace Command

open CommandAction
open Ledger (Backup BackupEntry)
open Store (recordsAt)

variable {s after : Session} {store : Store} {home : Location} {host host' : Host}
  {backups : List Backup} {reader : SettingsReader}

/-- The pending ids are those of the backups, where none was restored. -/
theorem run_pending_ids (hopen : store.IsOpen home host.files)
    (hrecords : recordsAt host.files home = .ok (backups.map Backup.record)) :
    (pendingIds store).run host = (.ok (backups.map fun b => .text b.id), host) := by
  have hall : Ledger.pending (backups.map Backup.record) = .ok (backups.map Backup.record) := by
    have hentries := Ledger.pending_entries (backups.map BackupEntry.ofBackup)
    have hnone : (backups.map BackupEntry.ofBackup).filter (fun e => !e.restored) =
        backups.map BackupEntry.ofBackup := by
      simp [List.filter_eq_self, BackupEntry.ofBackup]
    rwa [hnone, List.map_map] at hentries
  have hpending : store.pending.run host = (.ok (backups.map Backup.record), host) := by
    unfold Store.pending
    rw [run_bind_of_ok (by rw [Store.run_records hopen, hrecords]), run_of_except, hall]
  unfold pendingIds
  rw [run_bind_of_ok hpending, List.mapM_map]
  exact run_map_m (fun _ => rfl) backups

/-- Restoring several backups succeeds if there is no failure. -/
theorem restore_many_iff {ids : List Json} :
    (store.restoreMany ids).run host = (.ok (), host') ↔
      (store.restoreEach ids).run host = (.ok [], host') := by
  unfold Store.restoreMany
  constructor
  · intro h
    obtain ⟨error, -, hr⟩ | ⟨failures, middle, heach, hrest⟩ := run_bind_cases h
    · exact nomatch hr
    by_cases hnone : failures = []
    · rw [if_neg (not_not_intro hnone)] at hrest
      obtain ⟨-, rfl⟩ := Prod.mk.inj hrest
      exact hnone ▸ heach
    · rw [if_pos hnone] at hrest
      exact nomatch (Prod.mk.inj hrest).1
  · intro h
    rw [run_bind_of_ok h]
    rfl

/-- Restoring ids that succeeds restores each of them. -/
theorem restore_ids_cases {ids : List Json}
    (h : (restoreIds store ids).run s = (.ok (), after)) :
    (store.restoreEach ids).run s.host = (.ok [], after.host) ∧ after.settings = s.settings := by
  unfold restoreIds at h
  rw [run_bind_of_ok (run_attempt _ s)] at h
  rcases hrun : (store.restoreMany ids).run s.host with ⟨outcome, host⟩
  rw [hrun] at h
  cases outcome with
  | ok u =>
      obtain ⟨-, rfl⟩ := Prod.mk.inj h
      exact ⟨restore_many_iff.mp hrun, rfl⟩
  | error e =>
      cases e <;> exact nomatch (Prod.mk.inj h).1

/-- `restore` without ids opens the store and restores what is pending. -/
theorem restore_all_cases (h : (restore reader ⟨[], false⟩).run s = (.ok (), after)) :
    ∃ store opened ids listed, (Store.openAt after.backupPath).run s.host = (.ok store, opened) ∧
      (pendingIds store).run opened = (.ok ids, listed) ∧
      (store.restoreEach ids).run listed = (.ok [], after.host) := by
  unfold restore at h
  obtain ⟨stop, -, hr⟩ | ⟨loaded, start, hload, hrest⟩ := run_bind_cases h
  · exact nomatch hr
  have hstart : start.host = s.host := (Prod.mk.inj ((keeps_load_settings _ none).eq hload)).1
  cases loaded with
  | error e => exact nomatch (Prod.mk.inj hrest).1
  | ok settings =>
      rw [run_bind_of_ok (rfl : environment.run start = (.ok start.settings.env, start))] at hrest
      obtain ⟨stop, -, hr⟩ | ⟨store, ready, hopen, hrest⟩ := run_bind_cases hrest
      · exact nomatch hr
      obtain ⟨outcome, opened, hrun, rfl, ⟨e, -, hr⟩ | ⟨_, rfl, hr⟩⟩ := or_fail_cases hopen
      · exact nomatch hr
      obtain rfl := Except.ok.inj hr
      rw [hstart] at hrun
      rw [if_neg (by simp), if_pos rfl] at hrest
      obtain ⟨stop, -, hr⟩ | ⟨ids, listing, hlist, hrest⟩ := run_bind_cases hrest
      · exact nomatch hr
      obtain ⟨outcome, listed, hids, rfl, ⟨e, -, hr⟩ | ⟨_, rfl, hr⟩⟩ := or_fail_cases hlist
      · exact nomatch hr
      obtain rfl := Except.ok.inj hr
      dsimp only at hrest
      by_cases hnone : ids.isEmpty
      · rw [if_pos hnone] at hrest
        obtain ⟨-, rfl⟩ := Prod.mk.inj hrest
        obtain rfl := List.isEmpty_iff.mp hnone
        exact ⟨store, opened, [], listed, hrun, hids, rfl⟩
      · rw [if_neg hnone] at hrest
        obtain ⟨heach, hsettings⟩ := restore_ids_cases hrest
        have hpath : after.backupPath =
            Path.ofText (Settings.backupDirectory start.settings.env) := by
          rw [Session.backupPath, hsettings]
        exact ⟨store, opened, ids, listed, hpath ▸ hrun, hids, heach⟩

theorem run_or_fail {α : Type} {action : BackupAction α} {a : α}
    (h : action.run s.host = (.ok a, host)) : (orFail action).run s = (.ok a, { s with host }) := by
  unfold orFail
  rw [run_bind_of_ok (run_attempt action s), h]
  rfl

/-- `restore` without ids succeeds if the store can be opened and all that is pending restored. -/
theorem restore_all_succeeds {start : Session} {settings : Settings} {ids : List Json}
    {opened listed : Host} (hload : (loadSettings reader none).run s = (.ok (.ok settings), start))
    (hopen : (Store.openAt start.backupPath).run s.host = (.ok store, opened))
    (hids : (pendingIds store).run opened = (.ok ids, listed))
    (heach : (store.restoreEach ids).run listed = (.ok [], host)) :
    ∃ after, (restore reader ⟨[], false⟩).run s = (.ok (), after) ∧ after.host = host ∧
      after.settings = start.settings := by
  have hstart : start.host = s.host := (Prod.mk.inj ((keeps_load_settings _ none).eq hload)).1
  rw [← hstart, Session.backupPath] at hopen
  unfold restore
  rw [run_bind_of_ok hload]
  dsimp only
  rw [run_bind_of_ok (rfl : environment.run start = (.ok start.settings.env, start)),
    run_bind_of_ok (run_or_fail hopen), if_neg (by simp), if_pos rfl,
    run_bind_of_ok (run_or_fail hids)]
  dsimp only
  by_cases hnone : ids.isEmpty
  · obtain rfl := List.isEmpty_iff.mp hnone
    obtain ⟨-, rfl⟩ := Prod.mk.inj heach
    exact ⟨_, rfl, rfl, rfl⟩
  · rw [if_neg hnone]
    unfold restoreIds
    rw [run_bind_of_ok (run_attempt _ _), restore_many_iff.mpr heach]
    exact ⟨_, rfl, rfl, rfl⟩

end Command

end Excise
