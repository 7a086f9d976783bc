import Mathlib.Algebra.Order.BigOperators.Group.List
import IndexAdvice.Advisor
import IndexAdvice.Proofs.GraphEdges
import IndexAdvice.Proofs.TreeEntries
import IndexAdvice.Proofs.WalkOrder

/-!
# The files that are listed

`Disk.IsSource` says which files below a directory are its source files, and `Disk.IsListing` that a
list has these and no others, in the order of `ListedBefore`. There is one such list at most, and
`filesBelow` is one on every tree, so that it does not depend on how the entries are ordered.

`Disk.Walk` is the walk from directory to directory: the names in each come in any order, the files
and the subdirectories among them are sorted apart, and the walk goes on below those subdirectories
that are kept. Whatever the orders are, it finds what `filesBelow` lists (`Disk.walk_iff`).
-/

namespace IndexAdvice.Files

/-! ### Texts of paths -/

/-- The text of a path with a name put after it. -/
def joined (text name : String) : String :=
  text ++ (if text.endsWith "/" then "" else "/") ++ name

/-- The text of a path below another one is built name by name. -/
theorem textWith_eq_foldl (path : Path) (names : List String) :
    path.textWith names = names.foldl joined path.toString :=
  rfl

theorem append_injective (path : Path) : Function.Injective path.append := fun _ _ h =>
  List.append_cancel_left (congrArg Path.parts h)

/-- A text grows at least by the names that are put after it. -/
theorem add_mul_le_foldl_joined {names : List String} {least : Nat}
    (h : ∀ name ∈ names, least ≤ name.utf8ByteSize) (text : String) :
    text.utf8ByteSize + names.length * least ≤ (names.foldl joined text).utf8ByteSize := by
  induction names generalizing text with
  | nil => simp
  | cons name names ih =>
    obtain ⟨hleast, hrest⟩ := List.forall_mem_cons.mp h
    have hname : text.utf8ByteSize + name.utf8ByteSize ≤ (joined text name).utf8ByteSize := by
      simp only [joined, String.utf8ByteSize_append]
      omega
    have hnames := ih hrest (joined text name)
    rw [List.length_cons, Nat.succ_mul, List.foldl_cons]
    omega

/-- Extensions are compared without regard to letter case. -/
theorem hasExtension_eq_true_iff {settings : Settings} {name : String} :
    hasExtension settings name = true ↔
      ∃ extension ∈ settings.extensions, Text.lower extension = Text.lower (Path.suffix name) := by
  rw [hasExtension, List.contains_iff_mem, List.mem_map]

namespace Disk

variable {disk disk' : Disk} {settings : Settings} {path : Path} {text name dir : String}
  {root dirs names : List String} {files files' : List (List String)}

/-! ### Source files -/

/-- A file is listed as such, a link unless it leads to a directory. -/
theorem isListed_eq_true_iff {entry : Entry} : disk.isListed text entry = true ↔
    (∃ content, entry = .file content) ∨
      (∃ target, entry = .link target) ∧ disk.isDirectory text = false := by
  cases entry <;> simp [isListed]

/-- Whether `name`, in the directory to which the names `dirs` lead from `root`, is a source file
below `root`, if `root` is entered by `text`. -/
structure IsSource (disk : Disk) (settings : Settings) (text : String) (root dirs : List String)
    (name : String) : Prop where
  /-- The suffix is one of the extensions, in any letter case. -/
  extension : ∃ extension ∈ settings.extensions,
    Text.lower extension = Text.lower (Path.suffix name)
  /-- There is a file, or a link by which no directory is reached. -/
  file : (∃ content, disk.entry? (root ++ dirs ++ [name]) = some (.file content)) ∨
    (∃ target, disk.entry? (root ++ dirs ++ [name]) = some (.link target)) ∧
      disk.isDirectory ((dirs ++ [name]).foldl joined text) = false
  /-- No directory on the way has an excluded name. -/
  kept : ∀ dir ∈ dirs, dir ∉ settings.excludedDirs
  /-- What stands on the way are directories and no links to them. -/
  real : ∀ outer, outer <+: dirs → disk.entry? (root ++ outer) = some .directory
  /-- The text of the directory is one that a file system takes. -/
  short : (dirs.foldl joined text).utf8ByteSize ≤ Route.maxTextBytes

/-- On a tree, the directories on the way to an entry need not be asked for. -/
theorem isSource_iff (htree : disk.IsTree) : disk.IsSource settings text root dirs name ↔
    hasExtension settings name = true ∧ (∀ dir ∈ dirs, dir ∉ settings.excludedDirs) ∧
      (dirs.foldl joined text).utf8ByteSize ≤ Route.maxTextBytes ∧
      ∃ entry, disk.entry? (root ++ dirs ++ [name]) = some entry ∧
        disk.isListed ((dirs ++ [name]).foldl joined text) entry = true := by
  rw [hasExtension_eq_true_iff]
  constructor
  · intro h
    refine ⟨h.extension, h.kept, h.short, ?_⟩
    obtain ⟨content, hentry⟩ | ⟨⟨target, hentry⟩, hdir⟩ := h.file
    · exact ⟨_, hentry, isListed_eq_true_iff.mpr (.inl ⟨content, rfl⟩)⟩
    · exact ⟨_, hentry, isListed_eq_true_iff.mpr (.inr ⟨⟨target, rfl⟩, hdir⟩)⟩
  · rintro ⟨hextension, hkept, hshort, entry, hentry, hlisted⟩
    refine ⟨hextension, ?_, hkept, fun outer houter => ?_, hshort⟩
    · obtain ⟨content, rfl⟩ | ⟨⟨target, rfl⟩, hdir⟩ := isListed_eq_true_iff.mp hlisted
      · exact .inl ⟨content, hentry⟩
      · exact .inr ⟨⟨target, hentry⟩, hdir⟩
    · -- all that stands before an entry of a tree is a directory
      obtain ⟨rest, rfl⟩ := houter
      refine htree.entry?_of_isPrefix (by rw [hentry]; rfl) ⟨rest ++ [name], by simp⟩ ?_
      simp

/-- Whether a list has the source files below `root` and no others, in the order of a walk. -/
structure IsListing (disk : Disk) (settings : Settings) (text : String) (root : List String)
    (files : List (List String)) : Prop where
  mem_iff : ∀ names, names ∈ files ↔
    ∃ dirs name, names = dirs ++ [name] ∧ disk.IsSource settings text root dirs name
  inOrder : files.Pairwise ListedBefore

/-- There is one listing at most. -/
theorem IsListing.unique (h : disk.IsListing settings text root files)
    (h' : disk.IsListing settings text root files') : files = files' :=
  eq_of_pairwise_listedBefore h.inOrder h'.inOrder fun names =>
    (h.mem_iff names).trans (h'.mem_iff names).symm

/-- The files found below a directory are its source files, each with the directories on the way to
it. -/
theorem mem_filesBelow (htree : disk.IsTree) : names ∈ disk.filesBelow settings path root ↔
    ∃ dirs name, names = dirs ++ [name] ∧ disk.IsSource settings path.toString root dirs name := by
  rw [filesBelow, mem_sortBy, List.mem_map]
  simp only [isSource_iff htree, textWith_eq_foldl]
  constructor
  · rintro ⟨⟨names, entry⟩, hfound, rfl⟩
    obtain ⟨hmem, hkeep⟩ := List.mem_filter.mp hfound
    obtain ⟨hne, hmem⟩ := (mem_sub htree.ne_nil).mp hmem
    obtain rfl | ⟨dirs, name, rfl⟩ := List.eq_nil_or_concat' names
    · exact absurd rfl hne
    · have hentry := (htree.entry?_eq_some_iff (by simp)).mpr hmem
      rw [← List.append_assoc] at hentry
      simp only [List.getLast?_concat, Option.any_some, List.dropLast_concat, Bool.and_eq_true,
        Bool.not_eq_true', List.any_eq_false, List.contains_iff_mem, decide_eq_true_eq] at hkeep
      obtain ⟨⟨⟨hextension, hkept⟩, hshort⟩, hlisted⟩ := hkeep
      exact ⟨dirs, name, rfl, hextension, hkept, hshort, entry, hentry, hlisted⟩
  · rintro ⟨dirs, name, rfl, hextension, hkept, hshort, entry, hentry, hlisted⟩
    rw [List.append_assoc, htree.entry?_eq_some_iff (by simp)] at hentry
    refine ⟨(dirs ++ [name], entry), List.mem_filter.mpr ⟨?_, ?_⟩, rfl⟩
    · exact (mem_sub htree.ne_nil).mpr ⟨by simp, hentry⟩
    · simpa [hextension, hshort] using And.intro hkept hlisted

/-- What is listed on a tree is a listing. -/
theorem isListing_filesBelow (htree : disk.IsTree) (settings : Settings) (path : Path)
    (root : List String) :
    disk.IsListing settings path.toString root (disk.filesBelow settings path root) := by
  refine ⟨fun names => mem_filesBelow htree, pairwise_listedBefore_sortBy ?_ fun names hnames => ?_⟩
  · exact (nodup_sub htree.nodup root).sublist (List.filter_sublist.map _)
  · obtain ⟨e, he, rfl⟩ := List.mem_map.mp hnames
    exact ((mem_sub htree.ne_nil).mp (List.mem_filter.mp he).1).1

/-! ### The walk from directory to directory -/

/-- The names in a directory with their entries. -/
def children (disk : Disk) (real : List String) : List (String × Entry) :=
  (disk.sub real).entries.filterMap fun (names, entry) =>
    match names with
    | [name] => some (name, entry)
    | _ => none

/-- The source files among the names in a directory that is entered by `text`, in order. -/
def ownFiles (disk : Disk) (settings : Settings) (text : String) (found : List (String × Entry)) :
    List String :=
  sortTexts ((found.filter fun (name, entry) =>
    hasExtension settings name && disk.isListed (joined text name) entry).map (·.1))

/-- The directories among the names in a directory that are entered, in order. -/
def keptDirs (settings : Settings) (found : List (String × Entry)) : List String :=
  sortTexts ((found.filter fun (name, entry) =>
    entry.isDirectory && !settings.excludedDirs.contains name).map (·.1))

/-- The files that a walk finds from the directory `root` on, if it enters it by `text`. The names
in a directory are found in any order. -/
inductive Walk (disk : Disk) (settings : Settings) :
    (text : String) → (root : List String) → (files : List (List String)) → Prop
  /-- Nothing is found in a directory if the text of the path to it is too long. -/
  | refused {text : String} {root : List String} (h : Route.maxTextBytes < text.utf8ByteSize) :
    Walk disk settings text root []
  /-- The files that are in a directory come first and then those below its subdirectories. -/
  | visited {text : String} {root : List String} {found : List (String × Entry)}
    (below : String → List (List String))
    (hshort : text.utf8ByteSize ≤ Route.maxTextBytes) (hfound : found.Perm (disk.children root))
    (hbelow : ∀ dir ∈ keptDirs settings found,
      Walk disk settings (joined text dir) (root ++ [dir]) (below dir)) :
    Walk disk settings text root
      ((disk.ownFiles settings text found).map ([·]) ++
        (keptDirs settings found).flatMap fun dir => (below dir).map (dir :: ·))

variable {found : List (String × Entry)} {entry : Entry}

theorem mem_children (htree : disk.IsTree) :
    (name, entry) ∈ disk.children root ↔ disk.entry? (root ++ [name]) = some entry := by
  rw [htree.entry?_eq_some_iff (by simp), children, List.mem_filterMap]
  constructor
  · rintro ⟨⟨_ | ⟨first, _ | ⟨second, rest⟩⟩, other⟩, hmem, hsome⟩ <;> cases hsome
    exact ((mem_sub htree.ne_nil).mp hmem).2
  · exact fun hmem => ⟨_, (mem_sub htree.ne_nil).mpr ⟨by simp, hmem⟩, rfl⟩

theorem nodup_children (htree : disk.IsTree) (root : List String) :
    ((disk.children root).map (·.1)).Nodup := by
  have hsub : ((disk.children root).map fun c => ([c.1], c.2)).Sublist (disk.sub root).entries := by
    refine sublist_map_filterMap ?_ _
    rintro ⟨_ | ⟨first, _ | ⟨second, rest⟩⟩, other⟩ c hsome <;> cases hsome
    rfl
  refine List.Nodup.of_map ([·]) ?_
  simpa [Function.comp_def] using (nodup_sub htree.nodup root).sublist (hsub.map (·.1))

theorem mem_ownFiles (htree : disk.IsTree) (hfound : found.Perm (disk.children root)) :
    name ∈ disk.ownFiles settings text found ↔ hasExtension settings name = true ∧
      ∃ entry, disk.entry? (root ++ [name]) = some entry ∧
        disk.isListed (joined text name) entry = true := by
  simp only [ownFiles, mem_sortTexts, List.mem_map, List.mem_filter, hfound.mem_iff,
    Bool.and_eq_true]
  constructor
  · rintro ⟨⟨_, entry⟩, ⟨hmem, hextension, hlisted⟩, rfl⟩
    exact ⟨hextension, entry, (mem_children htree).mp hmem, hlisted⟩
  · rintro ⟨hextension, entry, hentry, hlisted⟩
    exact ⟨(name, entry), ⟨(mem_children htree).mpr hentry, hextension, hlisted⟩, rfl⟩

/-- A directory is entered unless its name is excluded. -/
theorem mem_keptDirs (htree : disk.IsTree) (hfound : found.Perm (disk.children root)) :
    dir ∈ keptDirs settings found ↔
      disk.entry? (root ++ [dir]) = some .directory ∧ dir ∉ settings.excludedDirs := by
  simp only [keptDirs, mem_sortTexts, List.mem_map, List.mem_filter, hfound.mem_iff,
    Bool.and_eq_true, Bool.not_eq_true', List.contains_eq_mem, decide_eq_false_iff_not]
  constructor
  · rintro ⟨⟨_, _ | _ | _⟩, ⟨hmem, hdir, hkept⟩, rfl⟩
    · exact ⟨(mem_children htree).mp hmem, hkept⟩
    · cases hdir
    · cases hdir
  · exact fun h => ⟨(dir, .directory), ⟨(mem_children htree).mpr h.1, rfl, h.2⟩, rfl⟩

/-- Names that are picked from those in a directory are in strict order when they are sorted. -/
theorem pairwise_sortTexts_filter (htree : disk.IsTree) (hfound : found.Perm (disk.children root))
    (p : String × Entry → Bool) :
    (sortTexts ((found.filter p).map (·.1))).Pairwise (· < ·) := by
  have hnodup : (found.map (·.1)).Nodup := (hfound.map _).nodup_iff.mpr (nodup_children htree root)
  exact pairwise_lt_sortTexts (hnodup.sublist (List.filter_sublist.map _))

/-! ### What a walk finds is a listing -/

theorem isSource_nil (htree : disk.IsTree) (hfound : found.Perm (disk.children root))
    (hshort : text.utf8ByteSize ≤ Route.maxTextBytes) :
    disk.IsSource settings text root [] name ↔ name ∈ disk.ownFiles settings text found := by
  rw [isSource_iff htree, mem_ownFiles htree hfound]
  simp [hshort]

/-- A file further down is a source file of a directory that is entered. -/
theorem isSource_cons (htree : disk.IsTree) (hfound : found.Perm (disk.children root)) :
    disk.IsSource settings text root (dir :: dirs) name ↔ dir ∈ keptDirs settings found ∧
      disk.IsSource settings (joined text dir) (root ++ [dir]) dirs name := by
  rw [mem_keptDirs htree hfound]
  constructor
  · intro h
    refine ⟨⟨h.real [dir] ⟨dirs, rfl⟩, h.kept dir List.mem_cons_self⟩, ?_⟩
    rw [isSource_iff htree] at h ⊢
    simpa using And.imp_right (And.imp_left fun hkept d hd => hkept d (List.mem_cons_of_mem _ hd)) h
  · rintro ⟨⟨hdir, hkept⟩, h⟩
    rw [isSource_iff htree] at h ⊢
    simpa [hkept] using h

/-- **A walk finds the source files in their order**, whatever the order is in which the names in a
directory are found. -/
theorem Walk.isListing (htree : disk.IsTree) (h : disk.Walk settings text root files) :
    disk.IsListing settings text root files := by
  induction h with
  | @refused text root hlong =>
    refine ⟨fun names => iff_of_false (by simp) ?_, .nil⟩
    rintro ⟨dirs, name, rfl, hsource⟩
    -- texts only grow from here on, so that none below is short enough
    have hgrown := add_mul_le_foldl_joined (fun dir (_ : dir ∈ dirs) => Nat.zero_le _) text
    have hshort := hsource.short
    omega
  | @visited text root found below hshort hfound hbelow ih =>
    refine ⟨fun names => ?_, ?_⟩
    · simp only [List.mem_append, List.mem_map, List.mem_flatMap]
      constructor
      · rintro (⟨name, hname, rfl⟩ | ⟨dir, hdir, names, hnames, rfl⟩)
        · exact ⟨[], name, rfl, (isSource_nil htree hfound hshort).mpr hname⟩
        · obtain ⟨dirs, name, rfl, hsource⟩ := ((ih dir hdir).mem_iff names).mp hnames
          exact ⟨dir :: dirs, name, rfl, (isSource_cons htree hfound).mpr ⟨hdir, hsource⟩⟩
      · rintro ⟨_ | ⟨dir, dirs⟩, name, rfl, hsource⟩
        · exact .inl ⟨name, (isSource_nil htree hfound hshort).mp hsource, rfl⟩
        · obtain ⟨hdir, hsource⟩ := (isSource_cons htree hfound).mp hsource
          exact .inr ⟨dir, hdir, _, ((ih dir hdir).mem_iff _).mpr ⟨dirs, name, rfl, hsource⟩, rfl⟩
    · -- paths that are found below a directory have a name after that of the directory
      have hne : ∀ dir ∈ keptDirs settings found, ∀ names ∈ below dir, names ≠ [] := by
        intro dir hdir names hnames
        obtain ⟨dirs, name, rfl, -⟩ := ((ih dir hdir).mem_iff names).mp hnames
        simp
      rw [List.pairwise_append, List.pairwise_flatMap]
      refine ⟨?_, ⟨fun dir hdir => ?_, ?_⟩, fun own hown path hpath => ?_⟩
      · rw [List.pairwise_map]
        exact (pairwise_sortTexts_filter htree hfound _).imp fun h => .files [] h
      · rw [List.pairwise_map]
        exact (ih dir hdir).inOrder.imp fun h => h.cons dir
      · refine (pairwise_sortTexts_filter htree hfound _).imp_of_mem ?_
        intro dir dir' hdir hdir' hlt path hpath path' hpath'
        obtain ⟨names, hnames, rfl⟩ := List.mem_map.mp hpath
        obtain ⟨names', hnames', rfl⟩ := List.mem_map.mp hpath'
        exact .directories [] hlt (hne dir hdir names hnames) (hne dir' hdir' names' hnames')
      · obtain ⟨name, -, rfl⟩ := List.mem_map.mp hown
        obtain ⟨dir, hdir, hpath⟩ := List.mem_flatMap.mp hpath
        obtain ⟨names, hnames, rfl⟩ := List.mem_map.mp hpath
        exact .fileFirst [] name dir (hne dir hdir names hnames)

/-- A walk from any directory comes to an end. The induction is on how many names there can be on a
path after those of the directory. -/
theorem exists_walk (htree : disk.IsTree) (settings : Settings) (depth : Nat) (text : String)
    (root : List String) (hdepth : ∀ e ∈ disk.entries, e.1.length ≤ root.length + depth) :
    ∃ files, disk.Walk settings text root files := by
  induction depth using Nat.strong_induction_on generalizing text root with
  | _ depth ih =>
    obtain hlong | hshort := Nat.lt_or_ge Route.maxTextBytes text.utf8ByteSize
    · exact ⟨[], .refused hlong⟩
    have hbelow : ∀ dir ∈ keptDirs settings (disk.children root),
        ∃ files, disk.Walk settings (joined text dir) (root ++ [dir]) files := by
      intro dir hdir
      have hentry := ((mem_keptDirs htree (.refl _)).mp hdir).1
      -- the directory has an entry of its own, so that `depth` is not zero
      have hlength := hdepth _ ((htree.entry?_eq_some_iff (by simp)).mp hentry)
      rw [List.length_append, List.length_singleton] at hlength
      refine ih (depth - 1) (by omega) _ _ fun e he => (hdepth e he).trans ?_
      rw [List.length_append, List.length_singleton]
      omega
    choose! below hbelow using hbelow
    exact ⟨_, .visited below hshort (.refl _) hbelow⟩

/-- Whatever the orders are in which names are found, a walk finds what is listed. -/
theorem walk_iff (htree : disk.IsTree) :
    disk.Walk settings path.toString root files ↔ files = disk.filesBelow settings path root := by
  have hlisted := isListing_filesBelow htree settings path root
  constructor
  · exact fun h => (h.isListing htree).unique hlisted
  · rintro rfl
    have hdepth : ∀ e ∈ disk.entries, e.1.length ≤ (disk.entries.map (·.1.length)).sum :=
      fun e he => List.le_sum_of_mem (List.mem_map_of_mem he)
    obtain ⟨files, h⟩ := exists_walk htree settings _ path.toString root
      fun e he => Nat.le_add_left_of_le (hdepth e he)
    rwa [(h.isListing htree).unique hlisted] at h

/-! ### The order of the entries -/

/-- The report on the sources at a path. -/
def reportAt (disk : Disk) (advisor : Advisor) (source : String) (path : Path) :
    Except AdviceError Report :=
  (disk.sources advisor.settings path).map (advisor.analyzeSources source)

namespace Reordered

/-- Which files are source files does not depend on the order of listing. -/
theorem isSource_iff (h : disk.Reordered disk') (htree : disk.IsTree) :
    disk'.IsSource settings text root dirs name ↔ disk.IsSource settings text root dirs name := by
  rw [Disk.isSource_iff (h.isTree htree), Disk.isSource_iff htree]
  simp only [(h.holdsSame htree).entry, (h.holdsSame htree).isListed]

/-- A sorted listing forgets the order in which the disk gives its entries. -/
theorem filesBelow (h : disk.Reordered disk') (htree : disk.IsTree) :
    disk'.filesBelow settings path root = disk.filesBelow settings path root := by
  have hlisted := isListing_filesBelow htree settings path root
  refine (isListing_filesBelow (h.isTree htree) settings path root).unique
    ⟨fun names => ?_, hlisted.inOrder⟩
  simp only [hlisted.mem_iff, h.isSource_iff htree]

theorem sourceFiles (h : disk.Reordered disk') (htree : disk.IsTree) :
    disk'.sourceFiles settings path = disk.sourceFiles settings path := by
  simp only [Disk.sourceFiles, (h.holdsSame htree).scanRoot, h.filesBelow htree]

theorem sources (h : disk.Reordered disk') (htree : disk.IsTree) :
    disk'.sources settings path = disk.sources settings path := by
  simp only [Disk.sources, (h.holdsSame htree).scanRoot, (h.holdsSame htree).readSource,
    h.filesBelow htree]

end Reordered

/-- **A listing is exact**. Below a directory of a tree, every source file is listed once and
nothing else, the own files of a directory before those of its subdirectories, and siblings in
code-point order. A walk from directory to directory finds this list in whatever order it comes upon
the names in each, and two orders of the entries lead to the same files, texts and reports. -/
theorem listing_exact (settings : Settings) (htree : disk.IsTree)
    (hroot : disk.scanRoot path = .ok (root, true)) :
    ∃ listing, disk.sourceFiles settings path = .ok (listing.map path.append) ∧
      (∀ names, names ∈ listing ↔ ∃ dirs name, names = dirs ++ [name] ∧
        disk.IsSource settings path.toString root dirs name) ∧
      (listing.map path.append).Nodup ∧ listing.Pairwise ListedBefore ∧
      (∀ files, disk.Walk settings path.toString root files ↔ files = listing) ∧
      ∀ disk', disk.Reordered disk' →
        disk'.sourceFiles settings path = disk.sourceFiles settings path ∧
        disk'.sources settings path = disk.sources settings path ∧
        ∀ (advisor : Advisor) (source : String),
          disk'.reportAt advisor source path = disk.reportAt advisor source path := by
  have hlisted := isListing_filesBelow htree settings path root
  refine ⟨disk.filesBelow settings path root, ?_, hlisted.mem_iff, ?_, hlisted.inOrder,
    fun files => walk_iff htree, fun disk' h => ⟨h.sourceFiles htree, h.sources htree, ?_⟩⟩
  · rw [sourceFiles, hroot]
    rfl
  · exact (nodup_of_pairwise hlisted.inOrder).map (append_injective path)
  · intro advisor source
    rw [reportAt, h.sources htree, reportAt]

/-- A tree with source files, with links to a file and to a directory, and with a directory whose
name is excluded. -/
def smallTree : Disk where
  entries := [(["src"], .directory), (["src", "z.rs"], .file .empty), (["src", "a"], .directory),
    (["src", "a", "x.RS"], .file .empty), (["src", "a", "notes.txt"], .file .empty),
    (["src", "target"], .directory), (["src", "target", "y.rs"], .file .empty),
    (["src", "b.rs"], .link "z.rs"), (["src", "c"], .link "a")]

theorem smallTree_listing : smallTree.IsTree ∧
    smallTree.scanRoot (.ofString "src") = .ok (["src"], true) ∧
    smallTree.sourceFiles {} (.ofString "src") =
      .ok [.ofString "src/b.rs", .ofString "src/z.rs", .ofString "src/a/x.RS"] ∧
    (∀ files, smallTree.Walk {} "src" ["src"] files ↔
      files = [["b.rs"], ["z.rs"], ["a", "x.RS"]]) ∧
    ∀ disk', smallTree.Reordered disk' →
      disk'.sources {} (.ofString "src") = smallTree.sources {} (.ofString "src") := by
  have htree : smallTree.IsTree := by decide +kernel
  have hroot : smallTree.scanRoot (.ofString "src") = .ok (["src"], true) := by decide +kernel
  have hfiles : smallTree.sourceFiles {} (.ofString "src") =
      .ok ([["b.rs"], ["z.rs"], ["a", "x.RS"]].map (Path.ofString "src").append) := by
    decide +kernel
  obtain ⟨listing, hlisting, -, -, -, hwalk, horder⟩ := listing_exact {} htree hroot
  obtain rfl : listing = [["b.rs"], ["z.rs"], ["a", "x.RS"]] :=
    (append_injective _).list_map (Except.ok.inj (hlisting.symm.trans hfiles))
  exact ⟨htree, hroot, by decide +kernel, hwalk, fun disk' h => (horder disk' h).2.1⟩

/-- A tree with a link that leads to nothing. -/
def danglingTree : Disk where
  entries := [(["src"], .directory), (["src", "a.rs"], .link "gone")]

/-- Directories in one another, with names that are as long as a name may be. -/
def deepDirs : List String :=
  List.replicate 17 (String.ofList (List.replicate 255 'd'))

/-- A tree with a file so deep down that the text of the path to it is too long. -/
def deepTree : Disk where
  entries := (deepDirs.inits.map fun dirs => ("src" :: dirs, .directory)) ++
    [("src" :: deepDirs ++ ["a.rs"], .file .empty)]

/-- The tree with a path that is too long is a tree like any other. -/
theorem deepTree_isTree : deepTree.IsTree := by decide +kernel

/-- The one file of the tree lies below too long a path. -/
theorem filesBelow_deepTree (settings : Settings) :
    deepTree.filesBelow settings (.ofString "src") ["src"] = [] := by
  refine List.eq_nil_iff_forall_not_mem.mpr fun names hnames => ?_
  obtain ⟨dirs, name, rfl, hsource⟩ := (mem_filesBelow deepTree_isTree).mp hnames
  obtain ⟨-, -, hshort, entry, hentry, hlisted⟩ := (isSource_iff deepTree_isTree).mp hsource
  have hmem := (deepTree_isTree.entry?_eq_some_iff (by simp)).mp hentry
  rcases List.mem_append.mp hmem with hdir | hfile
  · obtain ⟨outer, -, heq⟩ := List.mem_map.mp hdir
    obtain ⟨-, rfl⟩ := Prod.mk.inj heq
    exact Bool.false_ne_true hlisted
  · obtain ⟨hpath, -⟩ := Prod.mk.inj (List.mem_singleton.mp hfile)
    obtain rfl : dirs = deepDirs := List.append_cancel_left (List.append_inj_left' hpath rfl)
    -- the text itself is too large to be computed here, and its names are enough
    have hlong : ∀ dir ∈ deepDirs, 255 ≤ dir.utf8ByteSize := by decide +kernel
    have hgrown := add_mul_le_foldl_joined hlong (Path.ofString "src").toString
    have hlimit : Route.maxTextBytes < deepDirs.length * 255 := by decide +kernel
    omega

/-- A link that leads to nothing is listed, and a file is not if the text of the path to its
directory is too long. -/
theorem listing_of_danglingTree_and_deepTree :
    (danglingTree.IsTree ∧ danglingTree.scanRoot (.ofString "src") = .ok (["src"], true) ∧
      danglingTree.isThere "src/a.rs" = false ∧
      danglingTree.sourceFiles {} (.ofString "src") = .ok [.ofString "src/a.rs"]) ∧
    (deepTree.IsTree ∧ deepTree.scanRoot (.ofString "src") = .ok (["src"], true) ∧
      deepTree.entry? (["src"] ++ deepDirs ++ ["a.rs"]) = some (.file .empty) ∧
      hasExtension {} "a.rs" = true ∧
      (∀ dir ∈ deepDirs, dir ∉ ({} : Settings).excludedDirs) ∧
      (∀ outer, outer <+: deepDirs → deepTree.entry? (["src"] ++ outer) = some .directory) ∧
      deepTree.sourceFiles {} (.ofString "src") = .ok []) := by
  have hroot : deepTree.scanRoot (.ofString "src") = .ok (["src"], true) := by decide +kernel
  have hentry : deepTree.entry? (["src"] ++ deepDirs ++ ["a.rs"]) = some (.file .empty) :=
    (deepTree_isTree.entry?_eq_some_iff (by simp)).mpr
      (List.mem_append_right _ List.mem_cons_self)
  refine ⟨⟨by decide +kernel, by decide +kernel, by decide +kernel, by decide +kernel⟩,
    deepTree_isTree, hroot, hentry, by decide +kernel, by decide +kernel, ?_, ?_⟩
  · rintro outer ⟨rest, hrest⟩
    refine deepTree_isTree.entry?_of_isPrefix (by rw [hentry]; rfl)
      ⟨rest ++ ["a.rs"], by simp [← hrest]⟩ ?_
    simp [← hrest]
  · rw [sourceFiles, hroot]
    exact congrArg (fun files => Except.ok (files.map (Path.ofString "src").append))
      (filesBelow_deepTree {})

end Disk

end IndexAdvice.Files
