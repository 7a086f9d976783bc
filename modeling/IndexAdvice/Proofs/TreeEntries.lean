import Mathlib.Data.List.Induction
import Mathlib.Data.List.Nodup
import Mathlib.Data.List.Perm.Basic
import IndexAdvice.Files.Listing

/-!
# The entries of a tree

A disk is a tree if every path has one entry and stands in a directory (`Disk.IsTree`). What it
holds at a path is then the entry that is listed for it, in whatever order its entries are listed.

Routes are followed by looking entries up, so that two disks that hold the same at every path lead
to the same places: `Disk.HoldsSame` is kept below a directory, along a walk and through links.
`Disk.Reordered.holdsSame` gives it for two orders of the same entries.
-/

namespace IndexAdvice.Files

namespace Disk

variable {disk disk' here here' : Disk} {name : String} {names real root : List String}
  {entry : Entry}

/-- Whether the entries of a disk make a tree: every path has one entry, and it stands in a
directory. -/
structure IsTree (disk : Disk) : Prop where
  nodup : (disk.entries.map (·.1)).Nodup
  ne_nil : ∀ e ∈ disk.entries, e.1 ≠ []
  inDirectory : ∀ e ∈ disk.entries, disk.hasDirectory e.1.dropLast = true

instance (disk : Disk) : Decidable disk.IsTree :=
  decidable_of_iff ((disk.entries.map (·.1)).Nodup ∧ (∀ e ∈ disk.entries, e.1 ≠ []) ∧
      ∀ e ∈ disk.entries, disk.hasDirectory e.1.dropLast = true)
    ⟨fun h => ⟨h.1, h.2.1, h.2.2⟩, fun h => ⟨h.nodup, h.ne_nil, h.inDirectory⟩⟩

/-- Whether two disks are the same but for the order in which their entries are listed. -/
structure Reordered (disk disk' : Disk) : Prop where
  home : disk'.home = disk.home
  entries : disk'.entries.Perm disk.entries

/-- Whether two disks hold the same at every path. -/
structure HoldsSame (disk disk' : Disk) : Prop where
  home : disk'.home = disk.home
  entry : ∀ real, disk'.entry? real = disk.entry? real

/-! ### Looking entries up -/

/-- Below the root an entry is looked up by its path. -/
theorem entry?_of_ne_nil (h : real ≠ []) : disk.entry? real = disk.entries.lookup real :=
  if_neg (by simpa using h)

/-- A directory is there if it is the entry of its path. -/
theorem hasDirectory_eq_true_iff :
    disk.hasDirectory real = true ↔ disk.entry? real = some .directory := by
  rw [hasDirectory, Option.any_eq_true]
  constructor
  · rintro ⟨_ | _ | _, hentry, hdir⟩ <;> first | exact hentry | cases hdir
  · exact fun h => ⟨_, h, rfl⟩

/-- Paths that are there once are looked up by membership. -/
theorem lookup_eq_some_iff {entries : List (List String × Entry)}
    (h : (entries.map (·.1)).Nodup) :
    entries.lookup real = some entry ↔ (real, entry) ∈ entries := by
  induction entries with
  | nil => simp
  | cons e entries ih =>
    obtain ⟨path, other⟩ := e
    obtain ⟨hpath, hrest⟩ := List.nodup_cons.mp h
    rw [List.lookup_cons, List.mem_cons, Prod.mk.injEq]
    by_cases hreal : real = path
    · subst hreal
      have hnone : (real, entry) ∉ entries := fun hmem =>
        hpath (List.mem_map.mpr ⟨(real, entry), hmem, rfl⟩)
      simp [hnone, eq_comm]
    · rw [beq_false_of_ne hreal, ih hrest]
      simp [hreal]

/-- On a tree, the entry at a path is the one that is listed for it. -/
theorem IsTree.entry?_eq_some_iff (h : disk.IsTree) (hreal : real ≠ []) :
    disk.entry? real = some entry ↔ (real, entry) ∈ disk.entries := by
  rw [entry?_of_ne_nil hreal, lookup_eq_some_iff h.nodup]

/-- What holds an entry, or stands before a path that does, is a directory. -/
theorem IsTree.entry?_of_isPrefix (h : disk.IsTree) (hreal : (disk.entry? real).isSome)
    (habove : root <+: real) (hne : root ≠ real) : disk.entry? root = some .directory := by
  obtain ⟨rest, rfl⟩ := habove
  -- The path is shortened from its end: where the last name stands there is a directory, and so an
  -- entry again.
  induction rest using List.reverseRecOn with
  | nil => exact absurd (List.append_nil root).symm hne
  | append_singleton rest name ih =>
    obtain ⟨entry, hentry⟩ := Option.isSome_iff_exists.mp hreal
    have hmem := (h.entry?_eq_some_iff (by simp)).mp hentry
    have hdir := hasDirectory_eq_true_iff.mp (h.inDirectory _ hmem)
    rw [← List.append_assoc, List.dropLast_concat] at hdir
    cases rest with
    | nil => rwa [List.append_nil] at hdir
    | cons next rest => exact ih (by rw [hdir]; rfl) (by simp)

/-- **Order does not matter** to what a tree holds. -/
theorem Reordered.holdsSame (hsame : disk.Reordered disk') (h : disk.IsTree) :
    disk.HoldsSame disk' := by
  refine ⟨hsame.home, fun real => ?_⟩
  have hnodup : (disk'.entries.map (·.1)).Nodup := (hsame.entries.map _).nodup_iff.mpr h.nodup
  by_cases hreal : real = []
  · rw [hreal]
    rfl
  · refine Option.ext fun entry => ?_
    rw [h.entry?_eq_some_iff hreal, entry?_of_ne_nil hreal, lookup_eq_some_iff hnodup,
      hsame.entries.mem_iff]

/-- A tree is one in whatever order it lists its entries. -/
theorem Reordered.isTree (hsame : disk.Reordered disk') (h : disk.IsTree) : disk'.IsTree where
  nodup := (hsame.entries.map _).nodup_iff.mpr h.nodup
  ne_nil e he := h.ne_nil e (hsame.entries.mem_iff.mp he)
  inDirectory e he := by
    rw [hasDirectory, (hsame.holdsSame h).entry]
    exact h.inDirectory e (hsame.entries.mem_iff.mp he)

/-! ### Below a directory -/

/-- Entering a directory leaves the entries below it, without its name. -/
theorem mem_enter : (names, entry) ∈ (disk.enter name).entries ↔
    names ≠ [] ∧ (name :: names, entry) ∈ disk.entries := by
  rw [enter, List.mem_filterMap]
  constructor
  · rintro ⟨⟨_ | ⟨first, _ | ⟨second, rest⟩⟩, other⟩, hmem, hsome⟩
    · cases hsome
    · cases hsome
    · dsimp only at hsome
      split at hsome
      · next hname =>
        cases hsome
        exact ⟨List.cons_ne_nil _ _, eq_of_beq hname ▸ hmem⟩
      · cases hsome
  · rintro ⟨hne, hmem⟩
    obtain ⟨second, rest, rfl⟩ := List.exists_cons_of_ne_nil hne
    exact ⟨_, hmem, by simp⟩

/-- What is listed below a directory is what the tree lists with the directory before it. -/
theorem mem_sub (hne : ∀ e ∈ disk.entries, e.1 ≠ []) : (names, entry) ∈ (disk.sub root).entries ↔
    names ≠ [] ∧ (root ++ names, entry) ∈ disk.entries := by
  induction root generalizing disk with
  | nil => exact ⟨fun hmem => ⟨hne _ hmem, hmem⟩, fun hmem => hmem.2⟩
  | cons name root ih =>
    rw [sub, List.foldl_cons, ← sub, ih fun e he => (mem_enter.mp he).1, mem_enter]
    simp +contextual

/-- Entries below a directory are found from inside by the rest of their path. -/
theorem entry?_enter (h : names ≠ []) :
    Disk.entry? (disk.enter name) names = disk.entry? (name :: names) := by
  rw [entry?_of_ne_nil h, entry?_of_ne_nil (List.cons_ne_nil _ _), enter]
  obtain ⟨next, more, rfl⟩ := List.exists_cons_of_ne_nil h
  induction disk.entries with
  | nil => rfl
  | cons e entries ih =>
    obtain ⟨_ | ⟨first, _ | ⟨second, rest⟩⟩, other⟩ := e
    · simpa [List.filterMap_cons, List.lookup_cons] using ih
    · simpa [List.filterMap_cons, List.lookup_cons] using ih
    · by_cases hname : first = name
      · subst hname
        rw [List.filterMap_cons]
        simp [List.lookup_cons, ← ih]
      · have hne : (name == first) = false := beq_false_of_ne (Ne.symm hname)
        simpa [List.filterMap_cons, List.lookup_cons, hname, hne] using ih

/-- The same holds of a directory further down. -/
theorem entry?_sub (h : names ≠ []) :
    Disk.entry? (disk.sub root) names = disk.entry? (root ++ names) := by
  induction root generalizing disk with
  | nil => rfl
  | cons name root ih =>
    rw [sub, List.foldl_cons, ← sub, ih, entry?_enter (by simp [h]), List.cons_append]

theorem home_sub (disk : Disk) (root : List String) : (disk.sub root).home = disk.home := by
  induction root generalizing disk with
  | nil => rfl
  | cons name root ih =>
    rw [sub, List.foldl_cons, ← sub, ih]
    rfl

theorem sublist_map_filterMap {α β : Type} {f : α → Option β} {g : β → α}
    (h : ∀ x y, f x = some y → g y = x) (xs : List α) : ((xs.filterMap f).map g).Sublist xs := by
  induction xs with
  | nil => exact .slnil
  | cons x xs ih =>
    cases hx : f x with
    | none => exact (List.filterMap_cons_none hx ▸ ih).cons x
    | some y =>
      rw [List.filterMap_cons_some hx, List.map_cons, h x y hx]
      exact ih.cons_cons x

/-- Entering a directory keeps the order of listing. -/
theorem sublist_enter (disk : Disk) (name : String) :
    ((disk.enter name).entries.map fun e => (name :: e.1, e.2)).Sublist disk.entries := by
  refine sublist_map_filterMap ?_ _
  rintro ⟨_ | ⟨first, _ | ⟨second, rest⟩⟩, other⟩ e hsome
  · cases hsome
  · cases hsome
  · dsimp only at hsome
    split at hsome
    · next hname =>
      cases hsome
      rw [eq_of_beq hname]
    · cases hsome

/-- What is listed below a directory is listed once. -/
theorem nodup_sub (h : (disk.entries.map (·.1)).Nodup) (root : List String) :
    ((disk.sub root).entries.map (·.1)).Nodup := by
  induction root generalizing disk with
  | nil => exact h
  | cons name root ih =>
    refine ih (List.Nodup.of_map (name :: ·) ?_)
    simpa [Function.comp_def] using h.sublist ((sublist_enter disk name).map (·.1))

/-! ### Disks that hold the same -/

namespace HoldsSame

variable {toWrite : Bool} {onLink : List String → String → List String →
  Except DiskFault (List String)} {done todo : List String} {links : Nat} {text : String}
  {path : Path} {settings : Settings}

/-- Disks that hold the same do so in every directory. -/
theorem enter (h : disk.HoldsSame disk') (name : String) :
    (disk.enter name).HoldsSame (disk'.enter name) := by
  refine ⟨h.home, fun real => ?_⟩
  cases real with
  | nil => rfl
  | cons next rest =>
    rw [entry?_enter (List.cons_ne_nil _ _), entry?_enter (List.cons_ne_nil _ _), h.entry]

theorem sub (h : disk.HoldsSame disk') (root : List String) :
    (disk.sub root).HoldsSame (disk'.sub root) := by
  refine ⟨by rw [home_sub, home_sub, h.home], fun real => ?_⟩
  cases real with
  | nil => rfl
  | cons next rest =>
    rw [entry?_sub (List.cons_ne_nil _ _), entry?_sub (List.cons_ne_nil _ _), h.entry]

theorem hasDirectory (h : disk.HoldsSame disk') (real : List String) :
    disk'.hasDirectory real = disk.hasDirectory real := by
  rw [Disk.hasDirectory, h.entry, Disk.hasDirectory]

/-- Steps lead to the same place. -/
theorem walk (h : disk.HoldsSame disk') (hhere : here.HoldsSame here') :
    disk'.walk toWrite onLink done here' todo = disk.walk toWrite onLink done here todo := by
  -- A step goes on below the directory that is here, or from the one above in the whole tree.
  induction todo generalizing done here here' with
  | nil => rfl
  | cons name rest ih =>
    rw [Disk.walk, Disk.walk, hhere.entry, ih hhere, ih (h.sub _), ih (hhere.enter name)]

/-- Links lead to the same place. -/
theorem follow (h : disk.HoldsSame disk') :
    disk'.follow toWrite links done todo = disk.follow toWrite links done todo := by
  induction links generalizing done todo with
  | zero =>
    rw [Disk.follow, Disk.follow]
    exact h.walk (h.sub done)
  | succ links ih =>
    rw [Disk.follow, Disk.follow]
    simp only [ih]
    exact h.walk (h.sub done)

/-- Paths lead to the same place on both disks, as links and directories are the same. -/
theorem resolve (h : disk.HoldsSame disk') :
    disk'.resolve toWrite text = disk.resolve toWrite text := by
  simp only [Disk.resolve, origin, h.home, h.follow]

theorem realPath (h : disk.HoldsSame disk') : disk'.realPath text = disk.realPath text := by
  simp only [Disk.realPath, h.resolve, h.entry]

theorem isDirectory (h : disk.HoldsSame disk') :
    disk'.isDirectory text = disk.isDirectory text := by
  rw [Disk.isDirectory, Disk.isDirectory, h.resolve, funext h.hasDirectory]

theorem isListed (h : disk.HoldsSame disk') :
    disk'.isListed text entry = disk.isListed text entry := by
  cases entry with
  | directory => rfl
  | file content => rfl
  | link target => exact congrArg not h.isDirectory

/-- A file is read with the same content or the same error. -/
theorem readSource (h : disk.HoldsSame disk') :
    disk'.readSource settings path = disk.readSource settings path := by
  rw [Disk.readSource, Disk.readSource, read?, read?, h.realPath, funext h.entry]

/-- A scan starts at the same place. -/
theorem scanRoot (h : disk.HoldsSame disk') : disk'.scanRoot path = disk.scanRoot path := by
  rw [Disk.scanRoot, Disk.scanRoot, h.realPath, funext h.hasDirectory]

end HoldsSame

end Disk

end IndexAdvice.Files
