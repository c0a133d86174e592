import Excise.Proofs.Files.PathText
import Excise.Files.FileSystem

/-!
# Where a path leads

`FileSystem.place` follows a path by its components alone, whatever stands there. If a path can be
followed it leads to its place (`locate_eq_place`), and it can be followed as long as each step on
it is out of a directory (`Leads`): a path that leads somewhere still leads there when no directory
went away (`locate_of_kept`).
-/

namespace Excise

/-- A component that something can stand under: it is plain, not the directory above, has no null
character and is not too long. -/
def IsName (name : String) : Prop :=
  IsPlainPart name ∧ name ≠ ".." ∧ '\x00' ∉ name.toList ∧
    name.utf8ByteSize ≤ FileSystem.nameLimit

/-- The characters are looked at. -/
instance (name : String) : Decidable (IsName name) := inferInstanceAs (Decidable (_ ∧ _))

namespace Path

/-- Every component is a name: the path does not go up. -/
def IsNamed (p : Path) : Prop := ∀ part ∈ p.parts, IsName part

/-- The components are looked at one by one. -/
instance (p : Path) : Decidable p.IsNamed := inferInstanceAs (Decidable (∀ part ∈ p.parts, _))

variable {p : Path}

theorem IsNamed.is_plain (h : p.IsNamed) : p.IsPlain := fun part hpart => (h part hpart).1

theorem IsNamed.ne_up (h : p.IsNamed) : ∀ part ∈ p.parts, part ≠ ".." :=
  fun part hpart => (h part hpart).2.1

theorem IsNamed.parent (h : p.IsNamed) : p.parent.IsNamed :=
  fun part hpart => h part (List.dropLast_subset _ hpart)

theorem IsNamed.name (h : p.IsNamed) (hparts : p.parts ≠ []) : IsName p.name := by
  rw [Path.name, List.getLast?_eq_some_getLast hparts]
  exact h _ (List.getLast_mem hparts)

theorem parent_of_nil (h : p.parts = []) : p.parent = p := by
  rw [parent, h, List.dropLast_nil, ← h]

/-- A path with components is a child of the one above, under its name. -/
theorem parent_child (h : p.parts ≠ []) : p.parent.child p.name = p := by
  rw [child, parent, name, List.getLast?_eq_some_getLast h, Option.getD_some,
    List.dropLast_append_getLast h]

/-- A path has no components, or is a child. -/
theorem nil_or_child (p : Path) : p.parts = [] ∨ ∃ above component, p = child above component := by
  by_cases h : p.parts = []
  · exact .inl h
  · exact .inr ⟨p.parent, p.name, (parent_child h).symm⟩

@[simp]
theorem name_child (p : Path) (component : String) : (p.child component).name = component := by
  simp [name, child]

@[simp]
theorem parent_of_child (p : Path) (component : String) : (p.child component).parent = p := by
  simp [parent, child]

end Path

namespace FileSystem

/-- One step by a component alone. -/
def stepTo (location : Location) (component : String) : Location :=
  if component = ".." then location.dropLast else location ++ [component]

variable (fs : FileSystem)

/-- The location that the components of a path spell. -/
def place (path : Path) : Location := path.parts.foldl stepTo (fs.base path)

/-- Each step of the components is out of a directory, to a name that is not too long. -/
def Leads : Location → List String → Prop
  | _, [] => True
  | location, component :: rest =>
      fs.get? location = some .directory ∧ component.utf8ByteSize ≤ nameLimit ∧
        Leads (stepTo location component) rest

variable {fs} {fs' : FileSystem} {location target : Location} {path : Path}
  {component name : String} {rest components : List String}

@[simp]
theorem stepTo_up (location : Location) : stepTo location ".." = location.dropLast := rfl

theorem stepTo_of_ne (h : component ≠ "..") : stepTo location component = location ++ [component] :=
  if_neg h

/-- A step can be taken out of a directory, to a name that is not too long. -/
theorem step_eq_ok_iff : fs.step location component = .ok target ↔
    fs.get? location = some .directory ∧ component.utf8ByteSize ≤ nameLimit ∧
      target = stepTo location component := by
  unfold step stepTo
  split
  · rename_i hdirectory
    simp only [hdirectory, true_and]
    split
    · rename_i hlong
      simp [Nat.not_le.mpr hlong]
    · rename_i hshort
      simp [Nat.not_lt.mp hshort, eq_comm]
  · rename_i hfile
    simp [hfile]
  · rename_i hnone
    simp [hnone]

/-- Components can be followed exactly if they lead on, and then to where they spell. -/
theorem follow_eq_ok_iff : fs.follow location components = .ok target ↔
    fs.Leads location components ∧ target = components.foldl stepTo location := by
  induction components generalizing location with
  | nil => simp [follow, Leads, eq_comm, pure, Except.pure]
  | cons component rest ih =>
      have hbind : fs.follow location (component :: rest) =
          (fs.step location component >>= fun next => fs.follow next rest) := rfl
      rw [hbind]
      constructor
      · intro h
        cases hstep : fs.step location component with
        | error cause =>
            rw [hstep] at h
            exact nomatch h
        | ok next =>
            rw [hstep] at h
            obtain ⟨hdirectory, hshort, rfl⟩ := step_eq_ok_iff.mp hstep
            obtain ⟨hleads, htarget⟩ := ih.mp h
            exact ⟨⟨hdirectory, hshort, hleads⟩, htarget⟩
      · rintro ⟨⟨hdirectory, hshort, hleads⟩, htarget⟩
        rw [step_eq_ok_iff.mpr ⟨hdirectory, hshort, rfl⟩]
        exact ih.mpr ⟨hleads, htarget⟩

/-- A path without a null character that is not too long. -/
def IsUsable (path : Path) : Prop :=
  (∀ part ∈ path.parts, '\x00' ∉ part.toList) ∧ path.text.utf8ByteSize ≤ pathLimit

/-- The characters are looked at. -/
instance (path : Path) : Decidable (IsUsable path) := inferInstanceAs (Decidable (_ ∧ _))

/-- A usable path can be followed if its components lead on from where it begins. -/
theorem locate_eq_ok_iff : fs.locate path = .ok location ↔
    IsUsable path ∧ fs.Leads (fs.base path) path.parts ∧ location = fs.place path := by
  unfold locate IsUsable
  split
  · rename_i hnull
    constructor
    · exact fun h => nomatch h
    · rintro ⟨⟨hall, -⟩, -⟩
      obtain ⟨part, hpart, hmem⟩ := hnull
      exact absurd hmem (hall part hpart)
  · rename_i hnull
    have hall : ∀ part ∈ path.parts, '\x00' ∉ part.toList :=
      fun part hpart hmem => hnull ⟨part, hpart, hmem⟩
    split
    · rename_i hlong
      constructor
      · exact fun h => nomatch h
      · rintro ⟨⟨-, hshort⟩, -⟩
        exact absurd hshort (Nat.not_le.mpr hlong)
    · rename_i hshort
      rw [follow_eq_ok_iff]
      exact ⟨fun h => ⟨⟨hall, Nat.not_lt.mp hshort⟩, h⟩, fun h => h.2⟩

/-- A path that can be followed leads to its place. -/
theorem locate_eq_place (h : fs.locate path = .ok location) : location = fs.place path :=
  (locate_eq_ok_iff.mp h).2.2

theorem is_usable_of_locate (h : fs.locate path = .ok location) : IsUsable path :=
  (locate_eq_ok_iff.mp h).1

/-- Components lead on through two stretches exactly if they do through each. -/
theorem leads_append_iff : fs.Leads location (components ++ rest) ↔
    fs.Leads location components ∧ fs.Leads (components.foldl stepTo location) rest := by
  induction components generalizing location with
  | nil => simp [Leads]
  | cons component components ih =>
      simp only [List.cons_append, Leads, ih, List.foldl_cons, and_assoc]

/-- What components lead through is a directory. -/
theorem Leads.directory_on_way {front : List String} (h : fs.Leads location components)
    (hfront : front <+: components) (hne : front ≠ components) :
    fs.get? (front.foldl stepTo location) = some .directory := by
  obtain ⟨rest, rfl⟩ := hfront
  cases rest with
  | nil => exact absurd (List.append_nil front).symm hne
  | cons component rest => exact (leads_append_iff.mp h).2.1

@[simp]
theorem base_child (path : Path) (name : String) : fs.base (path.child name) = fs.base path := rfl

@[simp]
theorem base_parent (path : Path) : fs.base path.parent = fs.base path := rfl

/-- The place of a component below a path. -/
theorem place_child (path : Path) (name : String) :
    fs.place (path.child name) = stepTo (fs.place path) name := by
  rw [place, base_child, Path.child, List.foldl_append]
  rfl

/-- The place of a name below a path. -/
theorem place_child_of_name (path : Path) (h : name ≠ "..") :
    fs.place (path.child name) = fs.place path ++ [name] := by
  rw [place_child, stepTo_of_ne h]

/-- Components that do not go up lead below. -/
theorem foldl_step_to (h : ∀ name ∈ components, name ≠ "..") (location : Location) :
    components.foldl stepTo location = location ++ components := by
  induction components generalizing location with
  | nil => simp
  | cons name rest ih =>
      rw [List.foldl_cons, stepTo_of_ne (h name List.mem_cons_self),
        ih fun other hother => h other (List.mem_cons_of_mem _ hother), List.append_assoc]
      rfl

/-- The components of a path of names lead below where it begins. -/
theorem place_of_named (h : path.IsNamed) : fs.place path = fs.base path ++ path.parts :=
  foldl_step_to h.ne_up _

/-- A path of names leads to where it begins, or to a name in the directory above. -/
theorem place_above (fs : FileSystem) (h : path.IsNamed) :
    path.parent = path ∧ fs.place path = fs.base path ∨
      fs.place path = fs.place path.parent ++ [path.name] := by
  by_cases hempty : path.parts = []
  · left
    rw [place_of_named h, Path.parent_of_nil hempty, hempty, List.append_nil]
    exact ⟨rfl, rfl⟩
  · right
    rw [← place_child_of_name _ (h.name hempty).2.1, Path.parent_child hempty]

/-- The components of an absolute path of names spell themselves. -/
theorem place_absolute {location : Location} (h : ∀ name ∈ location, name ≠ "..") :
    fs.place ⟨.absolute, location⟩ = location :=
  foldl_step_to h []

/-- A usable path of which one part can be followed can be followed to a name below. -/
theorem locate_child (hpath : fs.locate path = .ok location)
    (hdirectory : fs.get? location = some .directory) (hname : IsName name)
    (husable : IsUsable (path.child name)) :
    fs.locate (path.child name) = .ok (location ++ [name]) := by
  obtain ⟨-, hleads, rfl⟩ := locate_eq_ok_iff.mp hpath
  refine locate_eq_ok_iff.mpr ⟨husable, leads_append_iff.mpr ⟨hleads, ?_⟩, ?_⟩
  · exact ⟨hdirectory, hname.2.2.2, trivial⟩
  · exact (place_child_of_name path hname.2.1).symm

/-- The directory above a path that can be followed to a name can be reached too. -/
theorem leads_of_locate_child (h : fs.locate (path.child name) = .ok location) :
    fs.Leads (fs.base path) path.parts ∧ fs.get? (fs.place path) = some .directory := by
  obtain ⟨-, hleads, -⟩ := locate_eq_ok_iff.mp h
  obtain ⟨hfront, hlast⟩ := leads_append_iff.mp hleads
  exact ⟨hfront, hlast.1⟩

/-- Paths begin where they did, and no directory went away. -/
structure KeepsDirectories (fs fs' : FileSystem) : Prop where
  workingDirectory : fs'.workingDirectory = fs.workingDirectory
  kept : ∀ location, fs.get? location = some .directory → fs'.get? location = some .directory

theorem KeepsDirectories.refl (fs : FileSystem) : fs.KeepsDirectories fs := ⟨rfl, fun _ h => h⟩

theorem KeepsDirectories.trans {fs'' : FileSystem} (h : fs.KeepsDirectories fs')
    (h' : fs'.KeepsDirectories fs'') : fs.KeepsDirectories fs'' :=
  ⟨h'.workingDirectory.trans h.workingDirectory,
    fun location hlocation => h'.kept location (h.kept location hlocation)⟩

/-- Where a path begins depends on the working directory alone. -/
theorem base_eq (h : fs'.workingDirectory = fs.workingDirectory) (path : Path) :
    fs'.base path = fs.base path := by
  rw [base, base, h]

/-- The place of a path depends on the working directory alone. -/
theorem place_eq (h : fs'.workingDirectory = fs.workingDirectory) (path : Path) :
    fs'.place path = fs.place path := by
  rw [place, place, base_eq h]

/-- Components that lead on still do when no directory went away. -/
theorem Leads.of_kept (hkept : ∀ location, fs.get? location = some .directory →
    fs'.get? location = some .directory) (h : fs.Leads location components) :
    fs'.Leads location components := by
  induction components generalizing location with
  | nil => trivial
  | cons component rest ih => exact ⟨hkept _ h.1, h.2.1, ih h.2.2⟩

/-- A path that can be followed still leads there when no directory went away. -/
theorem locate_of_kept (hkept : fs.KeepsDirectories fs') (h : fs.locate path = .ok location) :
    fs'.locate path = .ok location := by
  obtain ⟨husable, hleads, rfl⟩ := locate_eq_ok_iff.mp h
  have hbase := base_eq hkept.workingDirectory path
  refine locate_eq_ok_iff.mpr ⟨husable, ?_, (place_eq hkept.workingDirectory path).symm⟩
  rw [hbase]
  exact hleads.of_kept hkept.kept

end FileSystem

end Excise
