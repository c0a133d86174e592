import Excise.Files.Disk
import Excise.Proofs.Files.Change

/-!
# What a stopped change leaves

A change that a disk does not carry out leaves the files as they were, or with the first steps of it
(`Disk.Leaves`). Either way it changes no more than it would have changed: a write only the file at
its path, a copy only that at its destination, making directories only those on the way, and a
renaming nothing.
-/

namespace Excise

open FileSystem

namespace Disk

variable {disk : Disk} {fs files : FileSystem} {change : Change} {path : Path} {bytes left : Bytes}
  {outcome : Except FileError Unit} {location : Location} {name : String}

/-- What a change that is not carried out leaves: the files as they were, or what it did before the
disk stopped it. -/
inductive Leaves (disk : Disk) (change : Change) (fs : FileSystem) : FileSystem → Prop where
  | nothing : Leaves disk change fs fs
  | part (e : FileError) (steps : Nat) (stopped : disk.stoppage? fs change = some ⟨e, some steps⟩) :
      Leaves disk change fs (change.part fs steps)

/-- A change is carried out, or it fails and the disk leaves what it leaves. -/
theorem carry_out_cases (h : disk.carryOut fs change = (outcome, files)) :
    (∃ e, outcome = .error e ∧ disk.Leaves change fs files) ∨
      outcome = .ok () ∧ change.whole fs = .ok files := by
  unfold carryOut at h
  split at h
  case h_1 stoppage hstopped =>
    obtain ⟨rfl, rfl⟩ := Prod.mk.inj h
    obtain ⟨e, steps⟩ := stoppage
    cases steps with
    | none => exact .inl ⟨e, rfl, .nothing⟩
    | some steps => exact .inl ⟨e, rfl, .part e steps hstopped⟩
  case h_2 =>
    split at h
    case h_1 after hwhole =>
      obtain ⟨rfl, rfl⟩ := Prod.mk.inj h
      exact .inr ⟨rfl, hwhole⟩
    case h_2 e _ =>
      obtain ⟨rfl, rfl⟩ := Prod.mk.inj h
      exact .inl ⟨e, rfl, .nothing⟩

/-- A reliable disk carries out a change that nothing is in the way of. -/
theorem carry_out_reliable_of_ok (h : change.whole fs = .ok files) :
    reliable.carryOut fs change = (.ok (), files) := by
  simp only [carryOut, reliable, h]

/-- A reliable disk leaves the files as they are where something is in the way of a change. -/
theorem carry_out_reliable_of_error {e : FileError} (h : change.whole fs = .error e) :
    reliable.carryOut fs change = (.error e, fs) := by
  simp only [carryOut, reliable, h]

/-! ## Reading -/

/-- The disk never refuses to read the file at a path. -/
def Reads (disk : Disk) (path : Path) : Prop := ∀ fs, disk.refusal? fs path = none

theorem reads_reliable (path : Path) : reliable.Reads path := fun _ => rfl

/-- What the disk does not refuse is read. -/
theorem Reads.read (h : disk.Reads path) (fs : FileSystem) : disk.read fs path = fs.read path := by
  rw [Disk.read, h fs]

/-- What the disk reads stands there. -/
theorem read_eq_ok (h : disk.read fs path = .ok bytes) : fs.read path = .ok bytes := by
  unfold Disk.read at h
  split at h
  · exact nomatch h
  · exact h

/-! ## Changes of each kind -/

/-- What a write of some bytes to a path may leave there: all of them, or the first ones where the
disk stops the write. -/
def MayLeave (disk : Disk) (path : Path) (bytes left : Bytes) : Prop :=
  left = bytes ∨ ∃ fs e steps,
    disk.stoppage? fs (.write path bytes) = some ⟨e, some steps⟩ ∧ left = bytes.take steps

/-- A reliable disk leaves all that is written. -/
theorem MayLeave.eq_of_reliable (h : reliable.MayLeave path bytes left) : left = bytes := by
  rcases h with rfl | ⟨_, _, _, hstopped, -⟩
  · rfl
  · exact nomatch hstopped

/-- An attempt at files that may fail gives them, or the ones there are. -/
theorem attempt_cases {attempt : Except FileError FileSystem}
    (h : files = attempt.toOption.getD fs) : files = fs ∨ attempt = .ok files := by
  cases attempt with
  | error e => exact .inl h
  | ok after => exact .inr (congrArg Except.ok h.symm)

/-- A write that is not carried out leaves the files as they were, or some of the bytes at its
path. -/
theorem Leaves.write (h : disk.Leaves (.write path bytes) fs files) :
    files = fs ∨ ∃ left, disk.MayLeave path bytes left ∧ fs.write path left = .ok files := by
  cases h with
  | nothing => exact .inl rfl
  | part e steps stopped =>
      exact (attempt_cases rfl).imp_right fun hwrite =>
        ⟨_, .inr ⟨fs, e, steps, stopped, rfl⟩, hwrite⟩

/-- Carried out or not, a write leaves the files as they were, or what it may leave at its path. -/
theorem carry_out_write_cases (h : disk.carryOut fs (.write path bytes) = (outcome, files)) :
    files = fs ∨ ∃ left, disk.MayLeave path bytes left ∧ fs.write path left = .ok files := by
  rcases carry_out_cases h with ⟨-, -, hleaves⟩ | ⟨-, hwhole⟩
  · exact hleaves.write
  · exact .inr ⟨bytes, .inl rfl, hwhole⟩

/-- A write that is not carried out changes no other file. -/
theorem Leaves.write_changes (h : disk.Leaves (.write path bytes) fs files) (hfs : fs.WellFormed)
    (hplain : fs.get? (fs.place path) = none → path.IsPlain) :
    files.WellFormed ∧ fs.ChangesOnly files (· = fs.place path) fun _ => False := by
  rcases h.write with rfl | ⟨left, -, hwrite⟩
  · exact ⟨hfs, .refl _ _ _⟩
  · obtain ⟨hfiles, hchanges, -⟩ := FileSystem.write_changes hfs hplain hwrite
    exact ⟨hfiles, hchanges⟩

/-- Directories that were not all made are on the way. -/
theorem Leaves.make_directories_changes (h : disk.Leaves (.makeDirectories path) fs files)
    (hfs : fs.WellFormed) (hplain : path.IsPlain) :
    files.WellFormed ∧ fs.ChangesOnly files (fun _ => False) (fs.IsOnWay path) := by
  cases h with
  | nothing => exact ⟨hfs, .refl _ _ _⟩
  | part e steps stopped =>
      obtain hsame | hmakes := attempt_cases (rfl : (Change.makeDirectories path).part fs steps = _)
      · rw [hsame]
        exact ⟨hfs, .refl _ _ _⟩
      · have hfront : path.parts.take steps <+: path.parts := List.take_prefix _ _
        obtain ⟨hfiles, hchanges, -⟩ := FileSystem.make_directories_changes hfs
          (fun part hpart => hplain part (hfront.subset hpart)) hmakes
        refine ⟨hfiles, hchanges.mono (fun _ hl => hl) ?_⟩
        rintro l ⟨front, hprefix, rfl⟩
        exact ⟨front, hprefix.trans hfront, rfl⟩

/-- Below a directory that is there, only the one directory is made, if any. -/
theorem Leaves.make_directories_child
    (h : disk.Leaves (.makeDirectories (path.child name)) fs files)
    (hfs : fs.WellFormed) (hpath : fs.locate path = .ok location)
    (hdirectory : fs.get? location = some .directory) (hplain : (path.child name).IsPlain)
    (hname : name ≠ "..") :
    files.WellFormed ∧ fs.ChangesOnly files (fun _ => False) (· = location ++ [name]) := by
  obtain ⟨hfiles, hchanges⟩ := h.make_directories_changes hfs hplain
  exact ⟨hfiles, hchanges.restrict fun l hway hnone =>
    hway.eq_child hpath hdirectory hname hnone⟩

/-- A copy that is stopped on the way is a write of the first bytes, or nothing. -/
theorem part_copy (fs : FileSystem) (source destination : Path) (steps : Nat) :
    (Change.copy source destination).part fs steps = fs ∨
      ∃ bytes, fs.write (fs.copyDestination source destination) bytes =
        .ok ((Change.copy source destination).part fs steps) := by
  rw [Change.part]
  split
  case h_1 bytes _ _ => exact (attempt_cases rfl).imp_right fun hwrite => ⟨_, hwrite⟩
  case h_2 => exact .inl rfl

/-- A copy that is not carried out, to where no directory stands, changes no other file. -/
theorem Leaves.copy_changes {source destination : Path}
    (h : disk.Leaves (.copy source destination) fs files) (hfs : fs.WellFormed)
    (hplain : fs.get? (fs.place destination) = none → destination.IsPlain)
    (hfree : ¬ fs.HasDirectory destination) :
    files.WellFormed ∧ fs.ChangesOnly files (· = fs.place destination) fun _ => False := by
  cases h with
  | nothing => exact ⟨hfs, .refl _ _ _⟩
  | part e steps stopped =>
      rcases part_copy fs source destination steps with hsame | ⟨bytes, hwrite⟩
      · rw [hsame]
        exact ⟨hfs, .refl _ _ _⟩
      · rw [copy_destination_of_free hfree] at hwrite
        obtain ⟨hfiles, hchanges, -⟩ := FileSystem.write_changes hfs hplain hwrite
        exact ⟨hfiles, hchanges⟩

/-- A renaming that is not carried out changes nothing. -/
theorem Leaves.rename_eq {source destination : Path}
    (h : disk.Leaves (.rename source destination) fs files) : files = fs := by
  cases h <;> rfl

end Disk

end Excise
