import IndexAdvice.Proofs.Parentheses
import IndexAdvice.Sql.Keyword

/-!
# Where nested queries open

A nested query opens at a parenthesis with `SELECT` or `WITH` after it. `Token.openings` lists all
such places in a list of tokens, however deep and whether or not they are closed, and `Token.around`
those of them that are still open at another place. Both are plain filters over the indices; the
lemmas of this module say how they look from inside a part of the tokens.
-/

namespace IndexAdvice.Token

variable {i j n stop : Nat} {t : Token} {ts us vs front body tail : List Token}

/-- Whether a nested query opens at index `i`. -/
def opensNested (ts : List Token) (i : Nat) : Bool :=
  ts[i]?.any (·.kind == .lparen) && ts[i + 1]?.any (·.isKeyword Keyword.nested)

/-- All indices at which a nested query opens, in increasing order. -/
def openings (ts : List Token) : List Nat :=
  (List.range ts.length).filter (opensNested ts)

/-- The index of the parenthesis that closes the one at index `i`. -/
def closedAt? (ts : List Token) (i : Nat) : Option Nat :=
  (closeOf 0 (ts.drop (i + 1))).map (i + 1 + ·)

/-- Whether the parenthesis at index `j` is still open before index `i`. -/
def isOpenAt (ts : List Token) (j i : Nat) : Bool :=
  (closeOf 0 ((ts.take i).drop (j + 1))).isNone

/-- Whether a nested query opens at index `j` and is still open before index `i`. -/
def encloses (ts : List Token) (j i : Nat) : Bool :=
  opensNested ts j && isOpenAt ts j i

/-- The indices at which the nested queries around index `i` open, outermost first. -/
def around (ts : List Token) (i : Nat) : List Nat :=
  (List.range i).filter (encloses ts · i)

/-- The tokens strictly between two indices. -/
def between (ts : List Token) (i stop : Nat) : List Token :=
  (ts.take stop).drop (i + 1)

/-! ### Openings -/

/-- Whether a nested query opens at `t` when `rest` follows. -/
def opensBefore (t : Token) (rest : List Token) : Bool :=
  t.kind == .lparen && rest.head?.any (·.isKeyword Keyword.nested)

theorem opensNested_zero (t : Token) (ts : List Token) :
    opensNested (t :: ts) 0 = opensBefore t ts := by
  cases ts <;> rfl

theorem opensNested_succ (t : Token) (ts : List Token) (i : Nat) :
    opensNested (t :: ts) (i + 1) = opensNested ts i := by
  simp [opensNested]

/-- The openings of a list are those of its rest, one place on, and maybe its first token. -/
theorem openings_cons (t : Token) (ts : List Token) :
    openings (t :: ts) =
      (if opensBefore t ts then [0] else []) ++ (openings ts).map (1 + ·) := by
  have hrest : (List.range ts.length).filter (opensNested (t :: ts) ∘ Nat.succ) = openings ts :=
    List.filter_congr fun i _ => opensNested_succ t ts i
  have hsucc : Nat.succ = (1 + ·) := funext fun k => Nat.add_comm k 1
  rw [openings, List.length_cons, List.range_succ_eq_map, List.filter_cons, List.filter_map, hrest,
    opensNested_zero, hsucc]
  split <;> rfl

theorem isKeyword_eq_false (h : t.kind ≠ .word) (keywords : List String) :
    t.isKeyword keywords = false := by
  simp [isKeyword, beq_eq_false_iff_ne.mpr h]

/-- Whether a parenthesis opens a nested query is told by the token after it. -/
theorem opensBefore_append (t : Token) (us : List Token)
    (h : ∀ v ∈ vs.head?, v.isKeyword Keyword.nested = false) :
    opensBefore t (us ++ vs) = opensBefore t us := by
  cases us with
  | nil => cases vs <;> simp_all [opensBefore]
  | cons => rfl

/-- Nothing opens across the border of two parts if the second one does not start with a keyword. -/
theorem openings_append (us : List Token)
    (h : ∀ v ∈ vs.head?, v.isKeyword Keyword.nested = false) :
    openings (us ++ vs) = openings us ++ (openings vs).map (us.length + ·) := by
  induction us with
  | nil => simp [openings]
  | cons u us ih =>
    rw [List.cons_append, openings_cons, openings_cons, opensBefore_append u us h, ih,
      List.map_append, List.map_map, List.append_assoc, List.length_cons,
      Nat.add_comm us.length 1]
    simp only [Function.comp_def, Nat.add_assoc]

/-- Tokens among which nothing opens. -/
theorem openings_eq_nil (h : ∀ t ∈ ts, t.kind ≠ .lparen) : openings ts = [] := by
  induction ts with
  | nil => rfl
  | cons t ts ih =>
    have ht : opensBefore t ts = false := by
      simp [opensBefore, h t (by simp)]
    rw [openings_cons, ht, ih fun u hu => h u (by simp [hu])]
    rfl

/-! ### From inside a part of the tokens -/

/-- What comes before a token does not bear on what it opens. -/
theorem opensNested_append_left (front : List Token) (i : Nat) :
    opensNested (front ++ ts) (front.length + i) = opensNested ts i := by
  simp [opensNested, List.getElem?_append_right, Nat.add_assoc]

/-- Nor does what comes after the token that follows it. -/
theorem opensNested_append_right (body : List Token) (h : i + 1 < body.length) (tail) :
    opensNested (body ++ tail) i = opensNested body i := by
  rw [opensNested, opensNested, List.getElem?_append_left h,
    List.getElem?_append_left (Nat.lt_of_succ_lt h)]

/-- Within a part of the tokens a group is open as it is in the part by itself. -/
theorem isOpenAt_append (front body tail : List Token) (j : Nat) (hi : i ≤ body.length) :
    isOpenAt (front ++ (body ++ tail)) (front.length + j) (front.length + i) =
      isOpenAt body j i := by
  rw [isOpenAt, isOpenAt, List.take_length_add_append, List.take_append_of_le_length hi,
    Nat.add_assoc, List.drop_length_add_append]

/-- A group that is closed stays closed. -/
theorem isOpenAt_eq_false_of_le (h : isOpenAt ts j n = false) (hn : n ≤ i) :
    isOpenAt ts j i = false := by
  obtain ⟨k, hk⟩ := Option.isSome_iff_exists.mp <| by
    rwa [isOpenAt, Option.isNone_eq_false_iff] at h
  obtain ⟨more, hmore⟩ : ∃ more, (ts.take i).drop (j + 1) = (ts.take n).drop (j + 1) ++ more := by
    obtain ⟨more, hmore⟩ := List.take_prefix_take_left (l := ts) hn
    rw [← hmore, List.drop_append]
    exact ⟨_, rfl⟩
  rw [isOpenAt, hmore, closeOf_append_of_some hk]
  rfl

/-- Everything that opens before index `n` is closed before it. -/
def ClosedBefore (ts : List Token) (n : Nat) : Prop :=
  ∀ j < n, opensNested ts j = true → isOpenAt ts j n = false

/-- If nothing is open before a token and it opens nothing, nothing is open after it. -/
theorem ClosedBefore.succ (h : ClosedBefore ts n) (hn : opensNested ts n = false) :
    ClosedBefore ts (n + 1) := by
  intro j hj hopens
  rcases Nat.lt_succ_iff_lt_or_eq.mp hj with hlt | rfl
  · exact isOpenAt_eq_false_of_le (h j hlt hopens) (Nat.le_succ n)
  · simp [hn] at hopens

/-- What is closed before a place is not around it. -/
theorem ClosedBefore.filter_range (h : ClosedBefore ts n) (hn : n ≤ i) :
    (List.range n).filter (encloses ts · i) = [] := by
  rw [List.filter_eq_nil_iff]
  intro j hj hencloses
  obtain ⟨hopens, hopen⟩ := Bool.and_eq_true_iff.mp hencloses
  have := isOpenAt_eq_false_of_le (h j (List.mem_range.mp hj) hopens) hn
  simp [this] at hopen

/-- **Around a place in a group** are the group itself, if everything before it is closed, and what
is around the place inside. -/
theorem around_append {pre body tail : List Token}
    (hpre : ClosedBefore (pre ++ t :: (body ++ tail)) pre.length)
    (ht : opensBefore t (body ++ tail)) (hbody : closeOf 0 body = none)
    (hi : i < body.length) :
    around (pre ++ t :: (body ++ tail)) (pre.length + 1 + i) =
      pre.length :: (around body i).map (pre.length + 1 + ·) := by
  have hsplit : pre ++ t :: (body ++ tail) = (pre ++ [t]) ++ (body ++ tail) := by simp
  -- the groups of the body enclose what they enclose in the body by itself
  have hinside (j : Nat) (hj : j < i) :
      encloses (pre ++ t :: (body ++ tail)) (pre.length + (j + 1)) (pre.length + (i + 1)) =
        encloses body j i := by
    have hlen (l : Nat) : pre.length + (l + 1) = (pre ++ [t]).length + l := by simp; omega
    rw [hsplit, hlen, hlen, encloses, encloses, opensNested_append_left,
      opensNested_append_right body (by omega), isOpenAt_append _ _ _ _ (Nat.le_of_lt hi)]
  -- and the one opened before it encloses all of it
  have hself :
      encloses (pre ++ t :: (body ++ tail)) pre.length (pre.length + (i + 1)) = true := by
    rw [encloses, Bool.and_eq_true]
    constructor
    · rw [← Nat.add_zero pre.length, opensNested_append_left, opensNested_zero]
      exact ht
    · rw [isOpenAt, List.take_length_add_append, List.take_succ_cons,
        List.take_append_of_le_length (Nat.le_of_lt hi), List.drop_length_add_append]
      rw [← List.take_append_drop i body] at hbody
      simpa using closeOf_eq_none_of_append hbody
  rw [around, Nat.add_assoc, List.range_add, List.filter_append, hpre.filter_range (by omega),
    List.nil_append, Nat.add_comm 1 i, List.range_succ_eq_map, List.map_cons, List.filter_cons,
    Nat.add_zero, if_pos hself, List.map_map, List.filter_map]
  have hfilter : (List.range i).filter
      ((encloses (pre ++ t :: (body ++ tail)) · (pre.length + (i + 1))) ∘
        ((pre.length + ·) ∘ Nat.succ)) = around body i :=
    List.filter_congr fun j hj => hinside j (List.mem_range.mp hj)
  rw [hfilter]
  congr 2
  funext k
  simp only [Function.comp_apply]
  omega

/-! ### Closed groups -/

/-- A parenthesis before a balanced body is closed by the one after it. -/
theorem closedAt?_self {pre body more : List Token} {u : Token} (hbody : nesting 0 body = some 0)
    (hu : u.kind = .rparen) :
    closedAt? (pre ++ t :: (body ++ u :: more)) pre.length =
      some (pre.length + 1 + body.length) := by
  have hclose : closeOf 0 (body ++ u :: more) = some body.length :=
    closeOf_eq_some_iff.mpr ⟨body, u, more, rfl, rfl, hbody, hu⟩
  rw [closedAt?, List.drop_length_add_append, List.drop_one, List.tail_cons, hclose]
  rfl

theorem between_self (pre body tail : List Token) (t : Token) :
    between (pre ++ t :: (body ++ tail)) pre.length (pre.length + 1 + body.length) = body := by
  have hsplit : pre ++ t :: (body ++ tail) = (pre ++ [t]) ++ (body ++ tail) := by simp
  have hlen : pre.length + 1 = (pre ++ [t]).length := by simp
  rw [between, hsplit, hlen, List.take_length_add_append, List.take_left, List.drop_left]

/-- A parenthesis inside a closed group is closed inside it. -/
theorem isSome_closeOf_drop (hbody : nesting 0 body = some 0) {u : Token}
    (hi : body[i]? = some u) (hu : u.kind = .lparen) :
    (closeOf 0 (body.drop (i + 1))).isSome := by
  obtain ⟨hlt, rfl⟩ := List.getElem?_eq_some_iff.mp hi
  have hsplit : nesting 0 (body.take i ++ body[i] :: body.drop (i + 1)) = some 0 := by
    rwa [List.getElem_cons_drop, List.take_append_drop]
  exact isSome_closeOf_of_balanced hsplit hu

theorem kind_of_opensNested (h : opensNested ts i = true) :
    ∃ t, ts[i]? = some t ∧ t.kind = .lparen := by
  obtain ⟨t, ht, hkind⟩ := (Option.any_eq_true _ _).mp (Bool.and_eq_true_iff.mp h).1
  exact ⟨t, ht, by simpa using hkind⟩

/-- In a balanced part parentheses close as they do in the part by itself. -/
theorem closedAt?_append (front tail : List Token) (hbody : nesting 0 body = some 0)
    (hi : opensNested body i = true) :
    closedAt? (front ++ (body ++ tail)) (front.length + i) =
      (closedAt? body i).map (front.length + ·) := by
  obtain ⟨u, hu, hkind⟩ := kind_of_opensNested hi
  obtain ⟨k, hk⟩ := Option.isSome_iff_exists.mp (isSome_closeOf_drop hbody hu hkind)
  have hlt := (List.getElem?_eq_some_iff.mp hu).1
  rw [closedAt?, closedAt?, Nat.add_assoc, List.drop_length_add_append,
    List.drop_append_of_le_length hlt, closeOf_append_of_some hk, hk]
  simp only [Option.map_some, Nat.add_assoc]

/-- Every opening of a balanced part is closed in it. -/
theorem isSome_closedAt? (hbody : nesting 0 body = some 0) (hi : opensNested body i = true) :
    (closedAt? body i).isSome := by
  obtain ⟨u, hu, hkind⟩ := kind_of_opensNested hi
  rw [closedAt?, Option.isSome_map]
  exact isSome_closeOf_drop hbody hu hkind

theorem lt_of_closedAt? (h : closedAt? ts i = some stop) : stop < ts.length := by
  obtain ⟨k, hk, rfl⟩ := Option.map_eq_some_iff.mp h
  obtain ⟨us, u, vs, hsplit, rfl, -⟩ := closeOf_eq_some_iff.mp hk
  have := congrArg List.length hsplit
  simp only [List.length_drop, List.length_append, List.length_cons] at this
  omega

theorem between_map (f : Token → Token) (ts : List Token) (i stop : Nat) :
    between (ts.map f) i stop = (between ts i stop).map f := by
  rw [between, between, List.map_drop, List.map_take]

/-- The body of a group in some part is cut out of that part. -/
theorem between_append (front body tail : List Token) (i : Nat) (h : stop ≤ body.length) :
    between (front ++ (body ++ tail)) (front.length + i) (front.length + stop) =
      between body i stop := by
  rw [between, between, List.take_length_add_append, List.take_append_of_le_length h,
    Nat.add_assoc, List.drop_length_add_append]

/-- After a closed group, all is closed if it was before. -/
theorem ClosedBefore.group {pre more : List Token} {u : Token}
    (h : ClosedBefore (pre ++ t :: (body ++ u :: more)) pre.length)
    (hbody : nesting 0 body = some 0) (hu : u.kind = .rparen) :
    ClosedBefore (pre ++ t :: (body ++ u :: more)) (pre.length + 1 + (body.length + 1)) := by
  intro j hj hopens
  have hsplit : pre ++ t :: (body ++ u :: more) = (pre ++ [t]) ++ ((body ++ [u]) ++ more) := by simp
  have hbefore : (pre ++ t :: (body ++ u :: more)).take (pre.length + 1 + (body.length + 1)) =
      (pre ++ [t]) ++ (body ++ [u]) := by
    rw [hsplit, ← List.append_assoc, List.take_left' (by simp; omega)]
  -- a group opened before this one, the group itself, or one in its body
  rcases Nat.lt_trichotomy j pre.length with hlt | rfl | hgt
  · exact isOpenAt_eq_false_of_le (h j hlt hopens) (by omega)
  · have hclose : closeOf 0 (body ++ [u]) = some body.length :=
      closeOf_eq_some_iff.mpr ⟨body, u, [], rfl, rfl, hbody, hu⟩
    rw [isOpenAt, hbefore, List.drop_left' (by simp), hclose]
    rfl
  · obtain ⟨i, rfl⟩ : ∃ i, j = (pre ++ [t]).length + i := ⟨j - (pre.length + 1), by simp; omega⟩
    obtain ⟨v, hv, hkind⟩ := kind_of_opensNested hopens
    rw [hsplit, List.getElem?_append_right (by omega), Nat.add_sub_cancel_left,
      List.append_assoc] at hv
    have hi : i < body.length := by
      refine Nat.lt_of_not_le fun hle => ?_
      obtain rfl : i = body.length := by simp at hj; omega
      simp only [List.getElem?_append_right, Nat.le_refl, Nat.sub_self, List.cons_append,
        List.getElem?_cons_zero, Option.some.injEq] at hv
      simp [← hv, hu] at hkind
    rw [List.getElem?_append_left hi] at hv
    obtain ⟨k, hk⟩ := Option.isSome_iff_exists.mp (isSome_closeOf_drop hbody hv hkind)
    rw [isOpenAt, hbefore, Nat.add_assoc, List.drop_length_add_append,
      List.drop_append_of_le_length hi, closeOf_append_of_some hk]
    rfl

/-! ### Kinds and keywords decide -/

/-- What openings depend on: the kind of a token and whether it opens a nested query. -/
def role (t : Token) : TokenKind × Bool :=
  (t.kind, t.isKeyword Keyword.nested)

theorem kinds_of_roles (h : us.map role = vs.map role) : us.map kind = vs.map kind := by
  have := congrArg (List.map Prod.fst) h
  rwa [List.map_map, List.map_map] at this

theorem opensNested_congr (h : us.map role = vs.map role) (i : Nat) :
    opensNested us i = opensNested vs i := by
  have hopt (ts : List Token) : opensNested ts i =
      ((ts.map role)[i]?.any (·.1 == .lparen) && (ts.map role)[i + 1]?.any (·.2)) := by
    simp only [opensNested, List.getElem?_map, Option.any_map]
    rfl
  rw [hopt, hopt, h]

theorem openings_congr (h : us.map role = vs.map role) : openings us = openings vs := by
  have hlen : us.length = vs.length := by simpa using congrArg List.length h
  rw [openings, openings, hlen]
  exact List.filter_congr fun i _ => opensNested_congr h i

theorem isOpenAt_congr (h : us.map role = vs.map role) (j i : Nat) :
    isOpenAt us j i = isOpenAt vs j i := by
  rw [isOpenAt, isOpenAt, closeOf_congr]
  rw [List.map_drop, List.map_drop, List.map_take, List.map_take, kinds_of_roles h]

/-- Which group is around a token is a matter of roles. -/
theorem around_congr (h : us.map role = vs.map role) (i : Nat) : around us i = around vs i :=
  List.filter_congr fun j _ => by
    rw [encloses, encloses, opensNested_congr h, isOpenAt_congr h]

end IndexAdvice.Token
