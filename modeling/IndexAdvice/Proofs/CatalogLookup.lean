import IndexAdvice.Catalog

/-!
# Looking up declared tables

A catalog is asked for a table by the variants of its name, in alphabetical order, and answers with
the first declaration that has fields and such a variant (`fieldsFor_cases`). So a table is found
just if a declaration with fields shares a variant with it, and a declared name gets its own fields
just if no declaration with others comes first under the leading variant of the name
(`declared_table_answered`). An exact declaration is not preferred: `Category` is looked up as
`categories`, which is the name of another table in `shopCatalog`.
-/

namespace IndexAdvice

namespace Catalog

variable {catalog : Catalog} {table v : String} {entry : String × List String}

/-- Whether a declaration has fields to offer under a variant. -/
def Offers (entry : String × List String) (v : String) : Prop :=
  entry.2 ≠ [] ∧ v ∈ variants entry.1

/-- Whether a declaration is the first of a catalog that has fields to offer under a variant. -/
def IsFirst (catalog : Catalog) (v : String) (entry : String × List String) : Prop :=
  Offers entry v ∧ ∃ before after, catalog = before ++ entry :: after ∧
    ∀ earlier ∈ before, ¬ Offers earlier v

/-- The variant that a table is looked up by first, if its name has any. -/
def leadingVariant? (table : String) : Option String :=
  (sortTexts (variants table)).head?

/-- What the program tests is whether the entry has fields and goes by the name. -/
theorem offers_iff :
    (!entry.2.isEmpty && (variants entry.1).contains v) = true ↔ Offers entry v := by
  simp [Offers]

theorem IsFirst.mem (h : IsFirst catalog v entry) : entry ∈ catalog := by
  obtain ⟨-, before, after, rfl, -⟩ := h
  exact List.mem_append_right before List.mem_cons_self

/-- A variant is answered with the fields of the first declaration that has it. -/
theorem ofVariant?_eq_some_iff {fields : List String} :
    catalog.ofVariant? v = some fields ↔ ∃ entry, IsFirst catalog v entry ∧ entry.2 = fields := by
  rw [ofVariant?, Option.map_eq_some_iff]
  refine exists_congr fun entry => and_congr_left fun _ => ?_
  rw [List.find?_eq_some_iff_append, offers_iff, IsFirst]
  refine and_congr_right fun _ => exists₂_congr fun before after => and_congr_right fun _ => ?_
  refine forall₂_congr fun earlier _ => ?_
  rw [Bool.not_eq_true', Bool.eq_false_iff, ne_eq, offers_iff]

/-- Nothing is found just if no entry answers to the name. -/
theorem ofVariant?_eq_none_iff :
    catalog.ofVariant? v = none ↔ ∀ entry ∈ catalog, ¬ Offers entry v := by
  rw [ofVariant?, Option.map_eq_none_iff, List.find?_eq_none]
  exact forall₂_congr fun entry _ => not_congr offers_iff

/-- Names that share a variant. -/
theorem shareVariant_iff {a b : String} :
    shareVariant a b = true ↔ ∃ v ∈ variants a, v ∈ variants b := by
  simp [shareVariant]

/-- **The answer.** A table gets the fields of the first declaration under the alphabetically first
of its variants that any declaration offers fields under, and none if there is no such variant. -/
theorem fieldsFor_cases (catalog : Catalog) (table : String) :
    (catalog.fieldsFor table = [] ∧ ∀ v ∈ variants table, ∀ entry ∈ catalog, ¬ Offers entry v) ∨
      ∃ skipped v rest entry, sortTexts (variants table) = skipped ++ v :: rest ∧
        (∀ w ∈ skipped, ∀ entry ∈ catalog, ¬ Offers entry w) ∧ IsFirst catalog v entry ∧
        catalog.fieldsFor table = entry.2 := by
  rw [fieldsFor]
  cases hfound : (sortTexts (variants table)).findSome? catalog.ofVariant? with
  | none =>
    refine .inl ⟨rfl, fun v hv => ofVariant?_eq_none_iff.mp ?_⟩
    exact List.findSome?_eq_none_iff.mp hfound v (mem_sortTexts.mpr hv)
  | some fields =>
    obtain ⟨skipped, v, rest, hsplit, hv, hskipped⟩ := List.findSome?_eq_some_iff.mp hfound
    obtain ⟨entry, hfirst, rfl⟩ := ofVariant?_eq_some_iff.mp hv
    exact .inr ⟨skipped, v, rest, entry, hsplit,
      fun w hw => ofVariant?_eq_none_iff.mp (hskipped w hw), hfirst, rfl⟩

/-- A named table that is declared with fields is looked up by the first of its variants only. -/
theorem exists_isFirst_of_declared {fields : List String} (hmem : (table, fields) ∈ catalog)
    (hfields : fields ≠ []) (hname : table ≠ "") :
    ∃ v entry, leadingVariant? table = some v ∧ IsFirst catalog v entry ∧
      catalog.fieldsFor table = entry.2 := by
  have hoffers {w : String} (hw : w ∈ variants table) : Offers (table, fields) w := ⟨hfields, hw⟩
  have hlower : Text.lower table ∈ variants table := by simp [variants, hname]
  rcases fieldsFor_cases catalog table with ⟨-, hnone⟩ | ⟨skipped, v, rest, entry, h⟩
  · exact absurd (hoffers hlower) (hnone _ hlower _ hmem)
  · obtain ⟨hsplit, hskipped, hfirst, hanswer⟩ := h
    -- the declaration itself offers its fields under every variant, so none is skipped
    cases skipped with
    | nil =>
      refine ⟨v, entry, ?_, hfirst, hanswer⟩
      rw [leadingVariant?, hsplit]
      rfl
    | cons w skipped =>
      have hw : w ∈ variants table := by
        rw [← mem_sortTexts, hsplit]
        exact List.mem_cons_self
      exact absurd (hoffers hw) (hskipped w List.mem_cons_self _ hmem)

/-- There is one first entry only, up to the fields it offers. -/
theorem IsFirst.eq_of_isFirst {other : String × List String} (h : IsFirst catalog v entry)
    (hother : IsFirst catalog v other) : entry.2 = other.2 := by
  have hentry := ofVariant?_eq_some_iff.mpr ⟨entry, h, rfl⟩
  exact Option.some.inj (hentry.symm.trans (ofVariant?_eq_some_iff.mpr ⟨other, hother, rfl⟩))

/-- **Looking up tables.** A table that is declared with fields gets these just if no declaration
with others comes first under the leading variant of its name. Any other name is found just if a
declaration with fields shares a variant with it, and is then answered with the fields of such a
declaration. -/
theorem declared_table_answered (catalog : Catalog) (table : String) :
    (∀ fields, (table, fields) ∈ catalog → fields ≠ [] → table ≠ "" →
      ∃ v, leadingVariant? table = some v ∧
        (catalog.fieldsFor table = fields ↔ ∀ entry, IsFirst catalog v entry → entry.2 = fields)) ∧
    (catalog.fieldsFor table ≠ [] ↔
      ∃ entry ∈ catalog, entry.2 ≠ [] ∧ shareVariant entry.1 table = true) ∧
    (catalog.fieldsFor table ≠ [] → ∃ entry ∈ catalog,
      shareVariant entry.1 table = true ∧ catalog.fieldsFor table = entry.2) := by
  have hfound (h : catalog.fieldsFor table ≠ []) :
      ∃ entry ∈ catalog, shareVariant entry.1 table = true ∧
        catalog.fieldsFor table = entry.2 := by
    rcases fieldsFor_cases catalog table with ⟨hnil, -⟩ | ⟨skipped, v, rest, entry, hsplit, -, h⟩
    · exact absurd hnil h
    · obtain ⟨hfirst, hanswer⟩ := h
      have hv : v ∈ variants table := by
        rw [← mem_sortTexts, hsplit]
        exact List.mem_append_right skipped List.mem_cons_self
      exact ⟨entry, hfirst.mem, shareVariant_iff.mpr ⟨v, hfirst.1.2, hv⟩, hanswer⟩
  refine ⟨fun fields hmem hfields hname => ?_, ⟨fun h => ?_, ?_⟩, hfound⟩
  · obtain ⟨v, entry, hleading, hfirst, hanswer⟩ :=
      exists_isFirst_of_declared hmem hfields hname
    refine ⟨v, hleading, fun heq other hother => ?_, fun h => hanswer.trans (h entry hfirst)⟩
    rw [hother.eq_of_isFirst hfirst, ← hanswer, heq]
  · obtain ⟨entry, hentry, hshare, hanswer⟩ := hfound h
    exact ⟨entry, hentry, hanswer ▸ h, hshare⟩
  · rintro ⟨entry, hentry, hfields, hshare⟩ hnil
    obtain ⟨v, hv, hmem⟩ := shareVariant_iff.mp hshare
    rcases fieldsFor_cases catalog table with ⟨-, hnone⟩ | ⟨_, w, _, first, _, _, hfirst, hanswer⟩
    · exact hnone v hmem entry hentry ⟨hfields, hv⟩
    · exact hfirst.1.1 (hanswer.symm.trans hnil)

/-! ### Two tables of similar names -/

/-- Articles, and two tables of which one has the plural of the other's name. -/
def shopCatalog : Catalog :=
  [("Article", ["id", "category_id"]), ("Categories", ["label"]), ("Category", ["id", "title"])]

/-- Nothing comes before `Article` under the leading variant of its name. -/
theorem shopCatalog_answers_article :
    ("Article", ["id", "category_id"]) ∈ shopCatalog ∧
      shopCatalog.fieldsFor "Article" = ["id", "category_id"] := by
  have hmem : ("Article", ["id", "category_id"]) ∈ shopCatalog := by decide
  obtain ⟨v, hv, hiff⟩ := (declared_table_answered shopCatalog "Article").1 _ hmem
    (by decide) (by decide)
  have hfirst : (leadingVariant? "Article").bind shopCatalog.ofVariant? =
      some ["id", "category_id"] := by
    decide +kernel
  rw [hv, Option.bind_some] at hfirst
  refine ⟨hmem, hiff.mpr fun entry hentry => ?_⟩
  exact Option.some.inj ((ofVariant?_eq_some_iff.mpr ⟨entry, hentry, rfl⟩).symm.trans hfirst)

/-- `Category` is declared with fields and gets those of `Categories`. -/
theorem shopCatalog_answers_category :
    ("Category", ["id", "title"]) ∈ shopCatalog ∧ shopCatalog.fieldsFor "Category" = ["label"] := by
  decide +kernel

end Catalog

end IndexAdvice
