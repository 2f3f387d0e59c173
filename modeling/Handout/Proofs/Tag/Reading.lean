import Mathlib.Data.List.Basic
import Mathlib.Data.List.TakeWhile
import Handout.Proofs.Tag.Directive

/-!
# The form of a directive line

`Directive.read?` tries many ways to cut a line, but at most one of them is good.  No token begins with a blank, so
only the longest indentation can stand before the opening token, and only all blanks before what follows it
(`read?_eq`).  No closing token ends with a blank, so it can only stand at the end of the line, blanks aside, even if
it occurs before that (`beforeClose?_eq_some_iff`).  The keywords are told apart by the first letters of their words
(`eq_of_readKeyword?`).  So a line is read as a directive just if it has the form of one (`Directive.Fills`), and
this form says what its parts are (`read?_eq_some_iff_fills`).
-/

namespace Handout

variable {p : Nat → Bool} {style : CommentStyle} {closing : Option Text} {token t rest inner : Text}

/-! ### Trimming -/

/-- A text without its end is what stands before the members of a class that end it. -/
theorem Text.trimEnd_eq_iff {x : Text} :
    Text.trimEnd p t = x ↔ (∃ blanks, t = x ++ blanks ∧ ∀ c ∈ blanks, p c) ∧ ∀ c ∈ x.getLast?, p c = false := by
  constructor
  · rintro rfl
    refine ⟨⟨(t.reverse.takeWhile p).reverse, ?_, fun c hc => ?_⟩, fun c hc => ?_⟩
    · rw [trimEnd, ← List.reverse_append, List.takeWhile_append_dropWhile, List.reverse_reverse]
    · exact List.mem_takeWhile_imp (List.mem_reverse.1 hc)
    · rw [trimEnd, List.getLast?_reverse, Option.mem_def] at hc
      have hfirst := List.head?_dropWhile_not p t.reverse
      rw [hc] at hfirst
      exact Bool.eq_false_iff.2 (by simpa using hfirst)
  · rintro ⟨⟨blanks, rfl, hblanks⟩, hlast⟩
    have hdrop : x.reverse.dropWhile p = x.reverse := by
      cases hx : x.reverse with
      | nil => rfl
      | cons c r =>
        rw [List.dropWhile_cons_of_neg]
        rw [hlast c (by rw [List.getLast?_eq_head?_reverse, hx]; rfl)]
        exact Bool.false_ne_true
    rw [trimEnd, List.reverse_append, List.dropWhile_append_of_pos, hdrop, List.reverse_reverse]
    exact fun c hc => hblanks c (List.mem_reverse.1 hc)

/-- A text in which no blank stands at either end. -/
structure Text.IsSolid (t : Text) : Prop where
  ne_nil : t ≠ []
  first : ∀ c ∈ t.head?, Text.isBlank c = false
  last : ∀ c ∈ t.getLast?, Text.isBlank c = false

instance : Decidable (Text.IsSolid t) :=
  decidable_of_iff (t ≠ [] ∧ (∀ c ∈ t.head?, Text.isBlank c = false) ∧ ∀ c ∈ t.getLast?, Text.isBlank c = false)
    ⟨fun ⟨hne, hfirst, hlast⟩ => ⟨hne, hfirst, hlast⟩, fun ⟨hne, hfirst, hlast⟩ => ⟨hne, hfirst, hlast⟩⟩

namespace Text.IsSolid

theorem exists_cons (h : IsSolid token) : ∃ c r, token = c :: r ∧ isBlank c = false := by
  cases token with
  | nil => exact absurd rfl h.ne_nil
  | cons c r => exact ⟨c, r, rfl, h.first c rfl⟩

/-- The blanks before a token are all blanks that the text begins with. -/
theorem takeWhile_append (h : IsSolid token) {blanks : Text} (hblanks : ∀ c ∈ blanks, isBlank c) (r : Text) :
    (blanks ++ (token ++ r)).takeWhile isBlank = blanks ∧ (blanks ++ (token ++ r)).dropWhile isBlank = token ++ r := by
  obtain ⟨c, s, rfl, hc⟩ := h.exists_cons
  rw [List.takeWhile_append_of_pos hblanks, List.dropWhile_append_of_pos hblanks]
  simp [hc]

/-- The blanks behind a token are all blanks that the text ends with. -/
theorem trimEnd_append (h : IsSolid token) (r : Text) {blanks : Text} (hblanks : ∀ c ∈ blanks, isBlank c) :
    trimEnd isBlank (r ++ token ++ blanks) = r ++ token := by
  refine trimEnd_eq_iff.2 ⟨⟨blanks, rfl, hblanks⟩, fun c hc => h.last c ?_⟩
  rwa [List.getLast?_append_of_ne_nil r h.ne_nil] at hc

end Text.IsSolid

/-- No token of a comment has blanks at its ends, and neither have the words of a keyword. -/
theorem CommentStyle.isSolid (h : style ∈ families.flatMap Prod.fst) :
    style.opening.IsSolid ∧ ∀ token ∈ style.closing, token.IsSolid := by
  revert style
  decide +kernel

theorem Keyword.isSolid (k : Keyword) : k.words.1.IsSolid ∧ k.words.2.IsSolid := by
  cases k <;> decide +kernel

/-- The rest of a line is `inner` and then, blanks at the end aside, the closing token of the style; without such a
token it is all of `inner`. -/
def CommentStyle.Closes (style : CommentStyle) (rest inner : Text) : Prop :=
  match style.closing with
  | none => rest = inner
  | some token => Text.trimEnd Text.isBlank rest = inner ++ token

namespace Directive

/-- The indentation of a directive. -/
def indent : Directive → Text
  | keyword indent _ _ | stub indent _ => indent

/-- What stands behind the opening token of a directive and the blanks there: the two words of a keyword with blanks
between them, and a rest that does not go on with the word; or `STUB:` and a rest that holds the replacement. -/
inductive Says (style : CommentStyle) : Text → Directive → Prop where
  | keyword {between rest inner : Text} (indent : Text) (k : Keyword) (hbetween : ∀ c ∈ between, Text.isBlank c)
      (hne : between ≠ []) (hboundary : ∀ c ∈ rest.head?, Text.isWordChar c = false)
      (hcloses : style.Closes rest inner) :
      Says style (k.words.1 ++ between ++ k.words.2 ++ rest) (.keyword indent k (k.words.1 ++ between ++ k.words.2))
  | stub {rest inner : Text} (indent : Text) (hcloses : style.Closes rest inner) :
      Says style (Text.ofString "STUB:" ++ rest) (.stub indent (Text.trim Text.isBlank inner))

/-- The form of a line that is a directive: blanks, which are its indentation, then the opening token, and after more
blanks what the directive says. -/
def Fills (style : CommentStyle) (body : Text) (d : Directive) : Prop :=
  ∃ gap content, body = d.indent ++ (style.opening ++ (gap ++ content)) ∧ (∀ c ∈ d.indent, Text.isBlank c) ∧
    (∀ c ∈ gap, Text.isBlank c) ∧ Says style content d

/-! ### Cutting off blanks -/

theorem mem_blankCuts_iff {cut : Text × Text} :
    cut ∈ blankCuts t ↔ t = cut.1 ++ cut.2 ∧ ∀ c ∈ cut.1, Text.isBlank c := by
  refine ⟨mem_blankCuts, ?_⟩
  obtain ⟨before, after⟩ := cut
  rintro ⟨rfl, hblank⟩
  simp only at hblank ⊢
  induction before with
  | nil =>
    cases after with
    | nil => exact List.mem_singleton_self _
    | cons c r =>
      rw [List.nil_append, blankCuts]
      split
      · exact List.mem_append_right _ (List.mem_singleton_self _)
      · exact List.mem_singleton_self _
  | cons c before ih =>
    obtain ⟨hc, hblank⟩ := List.forall_mem_cons.1 hblank
    rw [List.cons_append, blankCuts, if_pos hc]
    exact List.mem_append_left _ (List.mem_map.2 ⟨_, ih hblank, rfl⟩)

/-- The first cut takes all blanks. -/
theorem exists_blankCuts_eq_cons (t : Text) :
    ∃ others, blankCuts t = (t.takeWhile Text.isBlank, t.dropWhile Text.isBlank) :: others := by
  induction t with
  | nil => exact ⟨[], rfl⟩
  | cons c r ih =>
    unfold blankCuts
    split
    · rename_i hc
      obtain ⟨others, h⟩ := ih
      rw [h, List.takeWhile_cons_of_pos hc, List.dropWhile_cons_of_pos hc]
      exact ⟨_, rfl⟩
    · rename_i hc
      rw [List.takeWhile_cons_of_neg hc, List.dropWhile_cons_of_neg hc]
      exact ⟨[], rfl⟩

/-- Where nothing that begins with a blank will do, only the first cut is left. -/
theorem findSome?_blankCuts {β : Type} {f : Text × Text → Option β}
    (hf : ∀ before c r, Text.isBlank c → f (before, c :: r) = none) :
    (blankCuts t).findSome? f = f (t.takeWhile Text.isBlank, t.dropWhile Text.isBlank) := by
  induction t generalizing f with
  | nil => simp [blankCuts]
  | cons c r ih =>
    unfold blankCuts
    split
    · rename_i hc
      rw [List.findSome?_append, List.findSome?_map, ih fun before => hf (c :: before), List.findSome?_singleton,
        hf [] c r hc, Option.or_none, List.takeWhile_cons_of_pos hc, List.dropWhile_cons_of_pos hc]
      rfl
    · rename_i hc
      rw [List.findSome?_singleton, List.takeWhile_cons_of_neg hc, List.dropWhile_cons_of_neg hc]

/-! ### The end of a line -/

theorem closes_none_iff : closes none t = true ↔ ∀ c ∈ t, Text.isBlank c := List.all_eq_true

theorem closes_some_iff : closes (some token) t = true ↔
    ∃ before after, t = before ++ token ++ after ∧ (∀ c ∈ before, Text.isBlank c) ∧ ∀ c ∈ after, Text.isBlank c := by
  rw [closes, List.any_eq_true]
  constructor
  · rintro ⟨cut, hcut, h⟩
    obtain ⟨rfl, hbefore⟩ := mem_blankCuts hcut
    split at h
    · rename_i after hafter
      refine ⟨cut.1, after, ?_, hbefore, List.all_eq_true.1 h⟩
      rw [dropToken?_eq_some.1 hafter, List.append_assoc]
    · cases h
  · rintro ⟨before, after, rfl, hbefore, hafter⟩
    refine ⟨(before, token ++ after), mem_blankCuts_iff.2 ⟨List.append_assoc .., hbefore⟩, ?_⟩
    rw [dropToken?_eq_some.2 rfl]
    exact List.all_eq_true.2 hafter

theorem closes_of_beforeClose? {r : Text} (h : beforeClose? closing t = some r) :
    ∃ tail, t = r ++ tail ∧ closes closing tail = true := by
  induction t generalizing r with
  | nil =>
    unfold beforeClose? at h
    split at h
    · rename_i hclose
      cases h
      exact ⟨[], rfl, hclose⟩
    · cases h
  | cons c t ih =>
    unfold beforeClose? at h
    split at h
    · rename_i hclose
      cases h
      exact ⟨c :: t, rfl, hclose⟩
    · obtain ⟨shorter, hshorter, rfl⟩ := Option.map_eq_some_iff.1 h
      obtain ⟨tail, rfl, hclose⟩ := ih hshorter
      exact ⟨tail, rfl, hclose⟩

/-- If the proper ends of a text are what is left behind `inner`, or before it with nothing but blanks between, then
the shortest part before a proper end is `inner` without its last blanks. -/
private theorem beforeClose?_of_ends (hinner : inner <+: t)
    (h : ∀ r tail, t = r ++ tail →
      (closes closing tail = true ↔ ∃ blanks, r ++ blanks = inner ∧ ∀ c ∈ blanks, Text.isBlank c)) :
    beforeClose? closing t = some (Text.trimEnd Text.isBlank inner) := by
  induction t generalizing inner with
  | nil =>
    obtain rfl := List.prefix_nil.1 hinner
    rw [beforeClose?, if_pos ((h [] [] rfl).2 ⟨[], rfl, nofun⟩)]
    rfl
  | cons c t ih =>
    by_cases hblank : ∀ c ∈ inner, Text.isBlank c
    · rw [beforeClose?, if_pos ((h [] (c :: t) rfl).2 ⟨inner, rfl, hblank⟩)]
      exact congrArg some (Text.trimEnd_eq_iff.2 ⟨⟨inner, rfl, hblank⟩, by simp⟩).symm
    · have hopen : ¬ closes closing (c :: t) = true := by
        intro hclose
        obtain ⟨blanks, rfl, hall⟩ := (h [] (c :: t) rfl).1 hclose
        exact hblank hall
      cases inner with
      | nil => exact absurd nofun hblank
      | cons d inner =>
        obtain ⟨rfl, hprefix⟩ := List.cons_prefix_cons.1 hinner
        have hrest : beforeClose? closing t = some (Text.trimEnd Text.isBlank inner) := by
          refine ih hprefix fun r tail ht => ?_
          rw [h (d :: r) tail (by rw [ht, List.cons_append])]
          simp only [List.cons_append, List.cons.injEq, true_and]
        rw [beforeClose?, if_neg hopen, hrest, Option.map_some]
        obtain ⟨⟨blanks, heq, hblanks⟩, hlast⟩ := Text.trimEnd_eq_iff.1 (Eq.refl (Text.trimEnd Text.isBlank inner))
        refine congrArg some (Text.trimEnd_eq_iff.2 ⟨⟨blanks, by rw [List.cons_append, ← heq], hblanks⟩, ?_⟩).symm
        generalize Text.trimEnd Text.isBlank inner = core at heq hlast
        cases core with
        | nil =>
          -- all the rest is blank, so the first character is not
          intro e he
          cases he
          rw [heq, List.nil_append] at hblank
          exact Bool.eq_false_iff.2 fun hc => hblank (List.forall_mem_cons.2 ⟨hc, hblanks⟩)
        | cons e core =>
          rw [List.getLast?_cons_cons]
          exact hlast

private theorem prefix_of_closes (h : style.Closes rest inner) : inner <+: rest := by
  unfold CommentStyle.Closes at h
  split at h
  · exact h ▸ List.prefix_rfl
  · obtain ⟨⟨blanks, hrest, -⟩, -⟩ := Text.trimEnd_eq_iff.1 h
    rw [hrest, List.append_assoc]
    exact List.prefix_append _ _

/-- The proper ends of a rest, when one knows what stands before its closing token. -/
private theorem closes_iff_of_closes (hsolid : ∀ token ∈ style.closing, token.IsSolid) (h : style.Closes rest inner)
    {r tail : Text} (hrest : rest = r ++ tail) :
    closes style.closing tail = true ↔ ∃ blanks, r ++ blanks = inner ∧ ∀ c ∈ blanks, Text.isBlank c := by
  unfold CommentStyle.Closes at h
  split at h
  · rename_i hnone
    rw [hnone, closes_none_iff, ← h, hrest]
    refine ⟨fun hblank => ⟨tail, rfl, hblank⟩, ?_⟩
    rintro ⟨blanks, heq, hblank⟩
    rwa [← List.append_cancel_left heq]
  · rename_i token hsome
    rw [hsome, closes_some_iff]
    constructor
    · rintro ⟨before, after, rfl, hbefore, hafter⟩
      have hend : (r ++ before) ++ token = inner ++ token := by
        rw [← h, hrest, ← List.append_assoc, ← List.append_assoc, (hsolid token hsome).trimEnd_append _ hafter]
      exact ⟨before, List.append_cancel_right hend, hbefore⟩
    · rintro ⟨blanks, rfl, hblanks⟩
      obtain ⟨⟨after, heq, hafter⟩, -⟩ := Text.trimEnd_eq_iff.1 h
      have hsplit : r ++ tail = r ++ (blanks ++ token ++ after) := by
        rw [← hrest, heq]
        simp only [List.append_assoc]
      exact ⟨blanks, after, List.append_cancel_left hsplit, hblanks, hafter⟩

/-- The rest of a line can be closed if some part of it is a proper end. -/
private theorem exists_closes (hsolid : ∀ token ∈ style.closing, token.IsSolid) {r tail : Text}
    (h : closes style.closing tail = true) : ∃ inner, style.Closes (r ++ tail) inner := by
  unfold CommentStyle.Closes
  split
  · exact ⟨_, rfl⟩
  · rename_i token hsome
    rw [hsome, closes_some_iff] at h
    obtain ⟨before, after, rfl, -, hafter⟩ := h
    refine ⟨r ++ before, ?_⟩
    rw [← List.append_assoc, ← List.append_assoc, (hsolid token hsome).trimEnd_append _ hafter]

/-- The text before the end of a line is what stands before the closing token at its end, without blanks at the end. -/
theorem beforeClose?_eq_some_iff (hsolid : ∀ token ∈ style.closing, token.IsSolid) {r : Text} :
    beforeClose? style.closing rest = some r ↔
      ∃ inner, style.Closes rest inner ∧ r = Text.trimEnd Text.isBlank inner := by
  have hclosed : ∀ {inner}, style.Closes rest inner →
      beforeClose? style.closing rest = some (Text.trimEnd Text.isBlank inner) := fun h =>
    beforeClose?_of_ends (prefix_of_closes h) fun _ _ => closes_iff_of_closes hsolid h
  constructor
  · intro h
    obtain ⟨tail, rfl, hclose⟩ := closes_of_beforeClose? h
    obtain ⟨inner, hinner⟩ := exists_closes hsolid (r := r) hclose
    exact ⟨inner, hinner, Option.some.inj (h.symm.trans (hclosed hinner))⟩
  · rintro ⟨inner, hinner, rfl⟩
    exact hclosed hinner

/-- Blanks at the start of a rest do not count for its end. -/
private theorem closes_dropWhile (hsolid : ∀ token ∈ style.closing, token.IsSolid) (h : style.Closes rest inner) :
    style.Closes (rest.dropWhile Text.isBlank) (inner.dropWhile Text.isBlank) := by
  unfold CommentStyle.Closes at h ⊢
  split at h
  · rw [h]
  · rename_i token hsome
    have htoken := hsolid token hsome
    obtain ⟨⟨after, rfl, hafter⟩, -⟩ := Text.trimEnd_eq_iff.1 h
    have hdrop : (inner ++ token ++ after).dropWhile Text.isBlank =
        inner.dropWhile Text.isBlank ++ token ++ after := by
      conv => lhs; rw [← List.takeWhile_append_dropWhile (p := Text.isBlank) (l := inner)]
      rw [List.append_assoc, List.append_assoc,
        List.dropWhile_append_of_pos fun c hc => List.mem_takeWhile_imp hc]
      cases hcore : inner.dropWhile Text.isBlank with
      | nil =>
        have hnone : ∀ c ∈ ([] : Text), Text.isBlank c := nofun
        exact (htoken.takeWhile_append hnone after).2
      | cons c r =>
        have hc : Text.isBlank c = false := by
          have hfirst := List.head?_dropWhile_not Text.isBlank inner
          rw [hcore] at hfirst
          exact hfirst
        simp [hc]
    rw [hdrop, htoken.trimEnd_append _ hafter]

/-- A replacement is what stands before the closing token, without blanks at its ends. -/
theorem findSome?_beforeClose?_eq_some_iff (hsolid : ∀ token ∈ style.closing, token.IsSolid) {r : Text} :
    ((blankCuts rest).findSome? fun cut => beforeClose? style.closing cut.2) = some r ↔
      ∃ inner, style.Closes rest inner ∧ r = Text.trim Text.isBlank inner := by
  have hclosed : ∀ {inner}, style.Closes rest inner →
      ((blankCuts rest).findSome? fun cut => beforeClose? style.closing cut.2) =
        some (Text.trim Text.isBlank inner) := by
    intro inner h
    obtain ⟨others, hcuts⟩ := exists_blankCuts_eq_cons rest
    have hfirst := (beforeClose?_eq_some_iff hsolid).2 ⟨_, closes_dropWhile hsolid h, rfl⟩
    rw [hcuts, List.findSome?_cons, hfirst]
    rfl
  constructor
  · intro h
    obtain ⟨cut, hcut, hbefore⟩ := List.exists_of_findSome?_eq_some h
    obtain ⟨tail, htail, hclose⟩ := closes_of_beforeClose? hbefore
    obtain ⟨inner, hinner⟩ := exists_closes hsolid (r := cut.1 ++ r) hclose
    rw [List.append_assoc, ← htail, ← (mem_blankCuts hcut).1] at hinner
    exact ⟨inner, hinner, Option.some.inj (h.symm.trans (hclosed hinner))⟩
  · rintro ⟨inner, hinner, rfl⟩
    exact hclosed hinner

/-! ### Keywords -/

theorem readKeyword?_eq_some_iff {k : Keyword} {written : Text} :
    readKeyword? k t = some (written, rest) ↔
      ∃ between, (∀ c ∈ between, Text.isBlank c) ∧ between ≠ [] ∧ (∀ c ∈ rest.head?, Text.isWordChar c = false) ∧
        written = k.words.1 ++ between ++ k.words.2 ∧ t = written ++ rest := by
  constructor
  · intro h
    obtain ⟨r, hr, h⟩ := Option.bind_eq_some_iff.1 h
    simp only at h
    split at h
    · cases h
    rename_i hne
    obtain ⟨r', hr', h⟩ := Option.bind_eq_some_iff.1 h
    split at h
    · cases h
    rename_i hword
    cases h
    refine ⟨r.takeWhile Text.isBlank, fun c hc => List.mem_takeWhile_imp hc, ?_, fun c hc => ?_, rfl, ?_⟩
    · exact fun hnil => hne (List.isEmpty_iff.2 hnil)
    · rw [Option.mem_def] at hc
      rwa [hc, Option.any_some, Bool.not_eq_true] at hword
    · rw [dropToken?_eq_some.1 hr, List.append_assoc, List.append_assoc, ← dropToken?_eq_some.1 hr',
        List.takeWhile_append_dropWhile]
  · rintro ⟨between, hbetween, hne, hword, rfl, rfl⟩
    have hcut := k.isSolid.2.takeWhile_append hbetween rest
    have hword' : rest.head?.any Text.isWordChar = false := by
      cases rest with
      | nil => rfl
      | cons c r => exact hword c rfl
    unfold readKeyword?
    rw [dropToken?_eq_some.2 (show k.words.1 ++ between ++ k.words.2 ++ rest =
      k.words.1 ++ (between ++ (k.words.2 ++ rest)) by simp only [List.append_assoc])]
    simp only [Option.bind_eq_bind, Option.bind_some, hcut.1, hcut.2, List.isEmpty_eq_false_iff.2 hne, hword',
      dropToken?_eq_some.2 rfl]
    rfl

/-- The first letters of its words tell a keyword. -/
private theorem eq_of_words {k k' : Keyword} (h₁ : k.words.1.head? = k'.words.1.head?)
    (h₂ : k.words.2.head? = k'.words.2.head?) : k = k' := by
  revert h₁ h₂
  cases k <;> cases k' <;> decide +kernel

/-- Two keywords with the same first word are followed by the same blanks, hence by the same second word. -/
theorem eq_of_readKeyword? {k k' : Keyword} {written written' rest' : Text}
    (h : readKeyword? k t = some (written, rest)) (h' : readKeyword? k' t = some (written', rest')) : k = k' := by
  obtain ⟨between, hbetween, -, -, rfl, ht⟩ := readKeyword?_eq_some_iff.1 h
  obtain ⟨between', hbetween', -, -, rfl, ht'⟩ := readKeyword?_eq_some_iff.1 h'
  rw [List.append_assoc, List.append_assoc] at ht ht'
  have hfirst : k.words.1.head? = k'.words.1.head? := by
    rw [← List.head?_append_of_ne_nil _ k.isSolid.1.ne_nil, ← ht, ht',
      List.head?_append_of_ne_nil _ k'.isSolid.1.ne_nil]
  have hwords : k.words.1 = k'.words.1 := by
    revert hfirst
    cases k <;> cases k' <;> decide +kernel
  rw [ht', hwords] at ht
  have hsecond := congrArg (List.dropWhile Text.isBlank) (List.append_cancel_left ht)
  rw [(k.isSolid.2.takeWhile_append hbetween rest).2, (k'.isSolid.2.takeWhile_append hbetween' rest').2] at hsecond
  refine eq_of_words hfirst ?_
  rw [← List.head?_append_of_ne_nil _ k.isSolid.2.ne_nil, ← hsecond,
    List.head?_append_of_ne_nil _ k'.isSolid.2.ne_nil]

private theorem readKeyword?_stub (k : Keyword) (rest : Text) :
    readKeyword? k (Text.ofString "STUB:" ++ rest) = none := by
  have htoken : Text.ofString "STUB:" = [83, 84, 85, 66, 58] := by decide +kernel
  have hdrop : dropToken? k.words.1 (Text.ofString "STUB:" ++ rest) = none := by
    rw [htoken]
    cases k <;> rfl
  rw [readKeyword?, hdrop]
  rfl

/-! ### The whole line -/

private theorem isSolid_stub : (Text.ofString "STUB:").IsSolid := by decide +kernel

/-- What a directive says begins with a token. -/
private theorem Says.exists_token {content : Text} {d : Directive} (h : Says style content d) :
    ∃ token r, content = token ++ r ∧ token.IsSolid := by
  cases h with
  | @keyword between rest _ _ k =>
    exact ⟨k.words.1, between ++ (k.words.2 ++ rest), by simp only [List.append_assoc], k.isSolid.1⟩
  | @stub rest => exact ⟨Text.ofString "STUB:", rest, rfl, isSolid_stub⟩

theorem readContent?_eq_some_iff (hsolid : ∀ token ∈ style.closing, token.IsSolid) {indent : Text} {d : Directive} :
    readContent? style.closing indent t = some d ↔ d.indent = indent ∧ Says style t d := by
  unfold readContent?
  simp only [Option.orElse_eq_or, Option.or_eq_some_iff]
  constructor
  · rintro (h | ⟨-, h⟩)
    · obtain ⟨k, -, hk⟩ := List.exists_of_findSome?_eq_some h
      obtain ⟨⟨written, rest⟩, hread, hends⟩ := Option.bind_eq_some_iff.1 hk
      obtain ⟨between, hbetween, hne, hboundary, rfl, rfl⟩ := readKeyword?_eq_some_iff.1 hread
      split at hends
      · rename_i hends'
        cases hends
        obtain ⟨r, hr⟩ := Option.isSome_iff_exists.1 hends'
        obtain ⟨inner, hcloses, -⟩ := (beforeClose?_eq_some_iff hsolid).1 hr
        exact ⟨rfl, .keyword _ k hbetween hne hboundary hcloses⟩
      · cases hends
    · obtain ⟨rest, hrest, h⟩ := Option.bind_eq_some_iff.1 h
      obtain ⟨replacement, hreplacement, h⟩ := Option.bind_eq_some_iff.1 h
      cases h
      obtain ⟨inner, hcloses, rfl⟩ := (findSome?_beforeClose?_eq_some_iff hsolid).1 hreplacement
      rw [dropToken?_eq_some.1 hrest]
      exact ⟨rfl, .stub _ hcloses⟩
  · rintro ⟨rfl, h⟩
    cases h with
    | @keyword between rest inner indent k hbetween hne hboundary hcloses =>
      have hread : readKeyword? k (k.words.1 ++ between ++ k.words.2 ++ rest) =
          some (k.words.1 ++ between ++ k.words.2, rest) :=
        readKeyword?_eq_some_iff.2 ⟨between, hbetween, hne, hboundary, rfl, rfl⟩
      have hends : (beforeClose? style.closing rest).isSome = true := by
        rw [(beforeClose?_eq_some_iff hsolid).2 ⟨inner, hcloses, rfl⟩]
        rfl
      refine .inl ?_
      cases hfound : Keyword.all.findSome? _ with
      | none =>
        have hk := List.findSome?_eq_none_iff.1 hfound k (by cases k <;> decide)
        rw [hread] at hk
        simp [hends] at hk
      | some found =>
        -- no other keyword can have been found
        obtain ⟨k', -, h⟩ := List.exists_of_findSome?_eq_some hfound
        obtain ⟨⟨written', rest'⟩, hread', h⟩ := Option.bind_eq_some_iff.1 h
        obtain rfl := eq_of_readKeyword? hread hread'
        cases hread.symm.trans hread'
        rw [if_pos hends] at h
        exact h.symm
    | @stub rest inner indent hcloses =>
      refine .inr ⟨?_, ?_⟩
      · refine List.findSome?_eq_none_iff.2 fun k _ => ?_
        rw [readKeyword?_stub]
        rfl
      · rw [dropToken?_eq_some.2 rfl, Option.bind_eq_bind, Option.bind_some,
          (findSome?_beforeClose?_eq_some_iff hsolid).2 ⟨inner, hcloses, rfl⟩]
        rfl

/-- A line is read behind all its blanks. -/
theorem read?_eq (hopening : style.opening.IsSolid) (body : Text) :
    read? style body = (dropToken? style.opening (body.dropWhile Text.isBlank)).bind fun r =>
      readContent? style.closing (body.takeWhile Text.isBlank) (r.dropWhile Text.isBlank) := by
  unfold read?
  rw [findSome?_blankCuts]
  · rfl
  · intro before c r hc
    obtain ⟨c', r', htoken, hc'⟩ := hopening.exists_cons
    have hne : c' ≠ c := by
      rintro rfl
      rw [hc'] at hc
      cases hc
    rw [htoken, dropToken?, if_neg hne]
    rfl

/-- A line is read as a directive in a known style of comment just if it has the form of this directive.  The
indentation is then all of the blanks at its start, and no line has the forms of a keyword and of a stub. -/
theorem read?_eq_some_iff_fills (hstyle : style ∈ CommentStyle.families.flatMap Prod.fst) (body : Text) :
    (∀ d, read? style body = some d ↔ Fills style body d) ∧
    (∀ d, Fills style body d → d.indent = body.takeWhile Text.isBlank) ∧
    ∀ indent k written indent' replacement,
      ¬ (Fills style body (.keyword indent k written) ∧ Fills style body (.stub indent' replacement)) := by
  obtain ⟨hopening, hclosing⟩ := CommentStyle.isSolid hstyle
  have hindent : ∀ d, Fills style body d → d.indent = body.takeWhile Text.isBlank := by
    rintro d ⟨gap, content, rfl, hblank, -, -⟩
    exact (hopening.takeWhile_append hblank _).1.symm
  have hread : ∀ d, read? style body = some d ↔ Fills style body d := by
    intro d
    rw [read?_eq hopening]
    constructor
    · intro h
      obtain ⟨r, hr, h⟩ := Option.bind_eq_some_iff.1 h
      obtain ⟨hindent, hsays⟩ := (readContent?_eq_some_iff hclosing).1 h
      refine ⟨r.takeWhile Text.isBlank, r.dropWhile Text.isBlank, ?_, ?_, fun c hc => List.mem_takeWhile_imp hc, hsays⟩
      · rw [List.takeWhile_append_dropWhile, ← dropToken?_eq_some.1 hr, hindent, List.takeWhile_append_dropWhile]
      · rw [hindent]
        exact fun c hc => List.mem_takeWhile_imp hc
    · rintro ⟨gap, content, rfl, hblank, hgap, hsays⟩
      obtain ⟨token, r, rfl, htoken⟩ := hsays.exists_token
      rw [(hopening.takeWhile_append hblank _).1, (hopening.takeWhile_append hblank _).2, dropToken?_eq_some.2 rfl,
        Option.bind_some, (htoken.takeWhile_append hgap r).2]
      exact (readContent?_eq_some_iff hclosing).2 ⟨rfl, hsays⟩
  refine ⟨hread, hindent, ?_⟩
  rintro indent k written indent' replacement ⟨hkeyword, hstub⟩
  cases ((hread _).2 hkeyword).symm.trans ((hread _).2 hstub)

/-- A closing token in the replacement does not end it.  A keyword may be followed by anything up to the closing
token, but not by the next letter of a longer word. -/
theorem sampleComments_fill :
    let style := CommentStyle.block "/*" "*/"
    Fills style (Text.ofString "\t /*STUB: a */ b*/ ") (.stub (Text.ofString "\t ") (Text.ofString "a */ b")) ∧
    Fills style (Text.ofString "/* END \t HIDDEN*/*/")
      (.keyword [] .endHidden (Text.ofString "END \t HIDDEN")) ∧
    ¬ ∃ d, Fills style (Text.ofString "/* END HIDDENS */") d := by
  intro style
  have hstyle : style ∈ CommentStyle.families.flatMap Prod.fst := by decide +kernel
  have h := fun body => (read?_eq_some_iff_fills hstyle body).1
  refine ⟨(h _ _).1 (by decide +kernel), (h _ _).1 (by decide +kernel), ?_⟩
  rintro ⟨d, hd⟩
  have hnone : read? style (Text.ofString "/* END HIDDENS */") = none := by decide +kernel
  cases hnone.symm.trans ((h _ d).2 hd)

end Directive

end Handout
