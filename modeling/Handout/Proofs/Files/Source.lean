import Handout.Proofs.Files.Store

/-!
# What a path offers

`Session.offers s p` tells what can be copied from a path and from the names below it; links are followed.  A path
avoids a location (`Session.Avoids`) when what is stored there does not matter for where the path and names below it
lead; then it offers the same while the location is being filled (`Within.offers`).  An entry of an offered directory
is recognized for what it is (`isTreeEntry_cases`).
-/

namespace Handout

variable {before s t : Session} {p : Path} {d loc : Location} {c : String} {names : List String} {data : Bytes}
  {executable : Bool}

/-- Nothing or a file: what can be written without a change for paths through other places. -/
def IsLeaf (node : Option Node) : Prop := node = none ∨ ∃ data executable, node = some (.file data executable)

/-- The same directories and links are stored outside a location. -/
def Files.SameShape (f g : Files) (d : Location) : Prop :=
  ∀ x, ¬ d <+: x → f.get? x = g.get? x ∨ IsLeaf (f.get? x) ∧ IsLeaf (g.get? x)

theorem Files.SameShape.refl (f : Files) (d : Location) : f.SameShape f d := fun _ _ => .inl rfl

theorem Files.SameShape.trans {f g h : Files} {d : Location} (hfg : f.SameShape g d) (hgh : g.SameShape h d) :
    f.SameShape h d := by
  intro x hx
  rcases hfg x hx with he | ⟨hf, hg⟩
  · rw [he]
    exact hgh x hx
  · rcases hgh x hx with he | ⟨-, hh⟩
    · exact .inr ⟨hf, he ▸ hg⟩
    · exact .inr ⟨hf, hh⟩

theorem Files.SameShape.mono {f g : Files} {d e : Location} (h : f.SameShape g e) (hd : d <+: e) : f.SameShape g d :=
  fun x hx => h x fun he => hx (hd.trans he)

namespace Session

/-- What can be copied from a path. -/
def offer? (s : Session) (p : Path) : Option Offer :=
  if p.hasZero then none
  else
    match s.find true p with
    | .ok ⟨_, some .directory⟩ => some (if s.locked.contains p then .refused else .directory)
    | .ok ⟨_, some (.file data executable)⟩ => some (.file data executable)
    | _ => if (s.node? false p).isSome then some .refused else none

/-- What can be copied from a path by names. -/
def offers (s : Session) (p : Path) : Offers := fun names =>
  if ∀ c ∈ names, IsPlain c then s.offer? (p.append names) else none

theorem offers_nil : s.offers p [] = s.offer? p := by
  unfold offers
  rw [if_pos (fun c hc => absurd hc List.not_mem_nil), Path.append_nil]

theorem under_offers (hc : IsPlain c) : under (s.offers p) c = s.offers (p.child c) := by
  funext names
  unfold under offers
  simp only [List.forall_mem_cons, hc, true_and]
  rw [Path.child_eq_append, Path.append_append]
  rfl

theorem under_offers_of_not_plain (hc : ¬ IsPlain c) : under (s.offers p) c = fun _ => none := by
  funext names
  unfold under offers
  rw [if_neg]
  exact fun h => hc (h c (List.mem_cons_self ..))

/-! ### Single offers -/

theorem offer?_of_leads (h : s.LeadsTo p loc) (hz : p.hasZero = false) :
    s.offer? p = some (if s.locked.contains p then .refused else .directory) := by
  unfold offer?
  rw [hz, if_neg Bool.false_ne_true, leadsTo_iff_find.1 h]

theorem offer?_of_file (h : s.find true p = .ok ⟨loc, some (.file data executable)⟩) (hz : p.hasZero = false) :
    s.offer? p = some (.file data executable) := by
  unfold offer?
  rw [hz, if_neg Bool.false_ne_true, h]

/-- A path that leads neither to a directory nor to a file offers nothing of use. -/
theorem offer?_of_neither (hd : ∀ loc, ¬ s.LeadsTo p loc)
    (hf : ∀ loc data executable, s.find true p ≠ .ok ⟨loc, some (.file data executable)⟩) :
    s.offer? p = none ∨ s.offer? p = some .refused := by
  unfold offer?
  split
  · exact .inl rfl
  · split
    · rename_i loc h
      exact absurd (leadsTo_iff_find.2 h) (hd loc)
    · rename_i h
      exact absurd h (hf _ _ _)
    · split
      · exact .inr rfl
      · exact .inl rfl

/-- The last component of a path that leads to a file is a proper name. -/
theorem proper_of_file (hs : s.Sound) (h : s.find true p = .ok ⟨loc, some (.file data executable)⟩) :
    ∃ init c, p.parts = init ++ [c] ∧ p.name = c ∧ IsProper c := by
  rcases List.eq_nil_or_concat' p.parts with hp | ⟨init, c, hp⟩
  · have hfind : s.find true p = .ok ⟨s.start p, some .directory⟩ := by
      unfold find
      rw [hp]
      exact Files.walk_nil
    rw [hfind] at h
    cases h
  · refine ⟨init, c, hp, by simp [Path.name, hp], ?_⟩
    have happend : p = (⟨p.anchor, init⟩ : Path).append [c] := by
      unfold Path.append
      rw [← hp]
    rw [happend] at h
    obtain ⟨e, he⟩ := leads_of_find_append h (.inl (by simp))
    obtain ⟨n, hn, hl⟩ := he
    have hwalk : s.files.walk true (maxLinks - n) e [c] = .ok ⟨loc, some (.file data executable)⟩ :=
      (Files.walk_of_leads hl hn (.inl (by simp))).symm.trans h
    by_cases hstay : Files.isStay c = true
    · rw [Files.walk_stay hstay, Files.walk_nil] at hwalk
      cases hwalk
    by_cases hup : c = ".."
    · rw [hup, Files.walk_up, Files.walk_nil] at hwalk
      cases hwalk
    have hplain : IsPlain c := ⟨by simpa using hstay, hup⟩
    by_cases hlong : maxName < c.utf8ByteSize
    · rw [Files.walk_long hplain hlong] at hwalk
      cases hwalk
    rw [Files.walk_name hplain (by omega)] at hwalk
    refine hs.files.proper (?_ : s.files.get? (e ++ [c]) ≠ none)
    intro hnone
    rw [hnone] at hwalk
    cases hwalk

/-! ### The entries of a directory -/

/-- A link is found by its name if it is not followed. -/
theorem find_child_of_link (h : s.LeadsTo p loc) (hc : IsPlain c) (hs : c.utf8ByteSize ≤ maxName) {target : String}
    (hl : s.files.get? (loc ++ [c]) = some (.link target)) :
    s.find false (p.child c) = .ok ⟨loc ++ [c], some (.link target)⟩ := by
  obtain ⟨n, hn, hleads⟩ := h
  have hfind : s.find false (p.child c) = s.files.walk false (maxLinks - n) loc [c] :=
    Files.walk_of_leads hleads hn (.inl (by simp))
  rw [hfind, Files.walk_name hc hs, hl]
  rfl

/-- Nothing is found under a name that is too long. -/
theorem find_child_of_long (follow : Bool) (h : s.LeadsTo p loc) (hc : IsPlain c) (hs : maxName < c.utf8ByteSize) :
    s.find follow (p.child c) = .error .nameTooLong := by
  obtain ⟨n, hn, hleads⟩ := h
  have hfind : s.find follow (p.child c) = s.files.walk follow (maxLinks - n) loc [c] :=
    Files.walk_of_leads hleads hn (.inl (by simp))
  rw [hfind, Files.walk_long hc hs]

/-- The names in a directory are the plain names under which it offers something. -/
theorem offer?_child_eq_none (hs : s.Sound) (h : s.LeadsTo p loc) (hz : p.hasZero = false) (hc : IsPlain c) :
    s.offer? (p.child c) = none ↔ s.files.get? (loc ++ [c]) = none := by
  constructor
  · intro hnone
    by_contra hn
    have hproper : IsProper c := hs.files.proper hn
    have hchild := Path.hasZero_child hz hproper.noZero
    by_cases hlink : ∃ target, s.files.get? (loc ++ [c]) = some (.link target)
    · obtain ⟨target, hlink⟩ := hlink
      have hfind := find_child_of_link h hc hproper.short hlink
      unfold offer? Session.node? at hnone
      rw [hchild, hfind] at hnone
      simp only [Bool.false_eq_true, if_false] at hnone
      split at hnone <;> cases hnone
    · have hfind := find_child true h hc hproper.short fun target ht => hlink ⟨target, ht⟩
      unfold offer? at hnone
      rw [hchild, hfind] at hnone
      cases hnode : s.files.get? (loc ++ [c]) with
      | none => exact hn hnode
      | some node =>
        rw [hnode] at hnone
        cases node with
        | directory => cases hnone
        | file data executable => cases hnone
        | link target => exact hlink ⟨target, hnode⟩
  · intro hnone
    have hl : ∀ target, s.files.get? (loc ++ [c]) ≠ some (.link target) := by
      rw [hnone]
      exact nofun
    have hfind : ∀ follow, (s.find follow (p.child c) = .ok ⟨loc ++ [c], none⟩) ∨
        s.find follow (p.child c) = .error .nameTooLong := by
      intro follow
      by_cases hlong : maxName < c.utf8ByteSize
      · exact .inr (find_child_of_long follow h hc hlong)
      · rw [← hnone]
        exact .inl (find_child follow h hc (by omega) hl)
    unfold offer? Session.node?
    split
    · rfl
    · rcases hfind true with ht | ht <;> rcases hfind false with hf | hf <;> rw [ht, hf] <;> rfl

/-- What is found and is no directory is an entry of one, or a link to an entry. -/
theorem entry_of_find {follow : Bool} {place : Place} (h : s.find follow p = .ok place)
    (hn : place.node ≠ some .directory) :
    ∃ dir, s.LeadsTo p.parent dir ∧ p = p.parent.child p.name ∧ IsPlain p.name ∧ p.name.utf8ByteSize ≤ maxName ∧
      (place = ⟨dir ++ [p.name], s.files.get? (dir ++ [p.name])⟩ ∨
        follow = true ∧ ∃ target, s.files.get? (dir ++ [p.name]) = some (.link target)) := by
  rcases List.eq_nil_or_concat' p.parts with hp | ⟨init, c, hp⟩
  · have hfind : s.find follow p = .ok ⟨s.start p, some .directory⟩ := by
      unfold find
      rw [hp]
      exact Files.walk_nil
    rw [hfind] at h
    cases h
    exact absurd rfl hn
  · have hname : p.name = c := by simp [Path.name, hp]
    have hparent : p.parent = ⟨p.anchor, init⟩ := by simp [Path.parent, hp]
    have hchild : p = p.parent.child c := by
      unfold Path.child
      rw [hparent, ← hp]
    rw [hname]
    have happend : p = p.parent.append [c] := hchild
    rw [happend] at h
    obtain ⟨dir, n, hk, hl⟩ := leads_of_find_append h (.inl (List.cons_ne_nil _ _))
    have hwalk : s.files.walk follow (maxLinks - n) dir [c] = .ok place :=
      (Files.walk_of_leads hl hk (.inl (List.cons_ne_nil _ _))).symm.trans h
    -- a last piece that names no entry leads to a directory
    by_cases hstay : Files.isStay c = true
    · rw [Files.walk_stay hstay, Files.walk_nil] at hwalk
      cases hwalk
      exact absurd rfl hn
    by_cases hup : c = ".."
    · rw [hup, Files.walk_up, Files.walk_nil] at hwalk
      cases hwalk
      exact absurd rfl hn
    have hplain : IsPlain c := ⟨by simpa using hstay, hup⟩
    by_cases hlong : maxName < c.utf8ByteSize
    · rw [Files.walk_long hplain hlong] at hwalk
      cases hwalk
    refine ⟨dir, ⟨n, hk, hl⟩, hchild, hplain, by omega, ?_⟩
    rw [Files.walk_name hplain (by omega)] at hwalk
    cases hnode : s.files.get? (dir ++ [c]) with
    | none =>
      rw [hnode] at hwalk
      cases hwalk
      exact .inl rfl
    | some node =>
      rw [hnode] at hwalk
      cases node with
      | directory =>
        rw [Files.walk_nil] at hwalk
        cases hwalk
        exact absurd rfl hn
      | file data executable =>
        cases hwalk
        exact .inl rfl
      | link target =>
        cases follow with
        | false =>
          cases hwalk
          exact .inl rfl
        | true => exact .inr ⟨rfl, target, rfl⟩

/-! ### Paths that avoid a place -/

/-- However files are written elsewhere, what is stored at or below a location does not matter for where a path and
names below it lead, and they do not lead there. -/
structure Avoids (s : Session) (p : Path) (d : Location) : Prop where
  find : ∀ f g : Files, f.SameShape s.files d → (∀ x, ¬ d <+: x → g.get? x = f.get? x) →
    ∀ names, (∀ c ∈ names, IsPlain c) → ∀ follow,
      { s with files := g }.find follow (p.append names) = { s with files := f }.find follow (p.append names)
  apart : ∀ f : Files, f.SameShape s.files d → ∀ names, (∀ c ∈ names, IsPlain c) → ∀ follow place,
    { s with files := f }.find follow (p.append names) = .ok place → ¬ d <+: place.location

/-- A path that avoids a location avoids what lies below it. -/
theorem Avoids.mono {e : Location} (h : Avoids s p d) (hd : d <+: e) : Avoids s p e := by
  constructor
  · exact fun f g hf hg => h.find f g (hf.mono hd) fun x hx => hg x fun he => hx (hd.trans he)
  · exact fun f hf names hp follow place hplace he => h.apart f (hf.mono hd) names hp follow place hplace (hd.trans he)

/-- What a path avoids depends on the directories and links elsewhere. -/
theorem Avoids.of_shape (h : Avoids s p d) (hw : t.workingDir = s.workingDir) (hf : t.files.SameShape s.files d) :
    Avoids t p d := by
  have hfind : ∀ f follow q, ({ t with files := f } : Session).find follow q = { s with files := f }.find follow q := by
    intro f follow q
    unfold Session.find
    rw [hw]
  constructor
  · intro f g hft hg names hp follow
    rw [hfind, hfind]
    exact h.find f g (hft.trans hf) hg names hp follow
  · intro f hft names hp follow place hplace
    rw [hfind] at hplace
    exact h.apart f (hft.trans hf) names hp follow place hplace

/-- A path of names that meets no link avoids what neither lies below it nor has it below. -/
theorem avoids_of_plain (hp : ∀ c ∈ p.parts, IsPlain c)
    (hl : ∀ names target, s.files.get? (s.start p ++ p.parts ++ names) ≠ some (.link target))
    (hway : ∀ first target, first <+: p.parts → s.files.get? (s.start p ++ first) ≠ some (.link target))
    (hd : ¬ d <+: s.start p ++ p.parts) (hd' : ¬ s.start p ++ p.parts <+: d) : Avoids s p d := by
  have hbelow : ∀ names first, first <+: p.parts ++ names → ¬ d <+: s.start p ++ first := by
    intro names first hfirst h
    have h : d <+: s.start p ++ p.parts ++ names := by
      rw [List.append_assoc]
      exact h.trans ((List.prefix_append_right_inj _).2 hfirst)
    rcases List.prefix_or_prefix_of_prefix h (List.prefix_append _ names) with h | h
    · exact hd h
    · exact hd' h
  have hplain : ∀ names, (∀ c ∈ names, IsPlain c) → ∀ c ∈ p.parts ++ names, IsPlain c := by
    intro names hnames c hc
    rcases List.mem_append.1 hc with hc | hc
    · exact hp c hc
    · exact hnames c hc
  have hclear : ∀ f : Files, f.SameShape s.files d → ∀ names, f.Clear (s.start p) (p.parts ++ names) := by
    intro f hf names first target _ hfirst hlink
    have hs : s.files.get? (s.start p ++ first) = some (.link target) := by
      rcases hf _ (hbelow names first hfirst) with he | ⟨hleaf, -⟩
      · rwa [he] at hlink
      · rw [hlink] at hleaf
        rcases hleaf with hleaf | ⟨_, _, hleaf⟩ <;> cases hleaf
    rcases List.prefix_or_prefix_of_prefix hfirst (List.prefix_append _ names) with h | ⟨rest, rfl⟩
    · exact hway first target h hs
    · rw [← List.append_assoc] at hs
      exact hl rest target hs
  constructor
  · intro f g hf hg names hnames follow
    exact (Files.walk_congr (hplain names hnames) (hclear f hf names)
      fun first _ hfirst => (hg _ (hbelow names first hfirst)).symm).symm
  · intro f hf names hnames follow place hplace
    rw [Files.location_of_walk (hplain names hnames) (hclear f hf names) hplace]
    exact hbelow names _ (List.prefix_refl _)

theorem Avoids.append (h : Avoids s p d) (hp : ∀ c ∈ names, IsPlain c) : Avoids s (p.append names) d := by
  have hnames : ∀ rest, (∀ x ∈ rest, IsPlain x) → ∀ x ∈ names ++ rest, IsPlain x := by
    intro rest hr x hx
    rcases List.mem_append.1 hx with hx | hx
    · exact hp x hx
    · exact hr x hx
  constructor
  · intro f g hf hg rest hr follow
    rw [Path.append_append]
    exact h.find f g hf hg (names ++ rest) (hnames rest hr) follow
  · intro f hf rest hr follow place hplace
    rw [Path.append_append] at hplace
    exact h.apart f hf (names ++ rest) (hnames rest hr) follow place hplace

theorem Avoids.child (h : Avoids s p d) (hc : IsPlain c) : Avoids s (p.child c) d :=
  h.append (show ∀ x ∈ [c], IsPlain x by simpa using hc)

theorem Avoids.place_not_below (h : Avoids s p d) {follow : Bool} {place : Place} (hplace : s.find follow p = .ok place) :
    ¬ d <+: place.location := by
  rw [← Path.append_nil p] at hplace
  exact h.apart s.files (.refl _ _) [] (fun c hc => absurd hc List.not_mem_nil) follow place hplace

theorem Avoids.not_below (h : Avoids s p d) (hl : s.LeadsTo p loc) : ¬ d <+: loc :=
  h.place_not_below (leadsTo_iff_find.1 hl)

theorem Within.find (h : Within before s d) (ha : Avoids before p d) (hp : ∀ c ∈ names, IsPlain c) (follow : Bool) :
    s.find follow (p.append names) = before.find follow (p.append names) := by
  rw [h.only]
  exact ha.find before.files s.files (.refl _ _) h.outside names hp follow

theorem Within.find_self (h : Within before s d) (ha : Avoids before p d) (follow : Bool) :
    s.find follow p = before.find follow p := by
  have := h.find ha (fun c hc => absurd hc List.not_mem_nil) follow
  rwa [Path.append_nil] at this

theorem Within.leadsTo_append (h : Within before s d) (ha : Avoids before p d) (hp : ∀ c ∈ names, IsPlain c) :
    s.LeadsTo (p.append names) loc ↔ before.LeadsTo (p.append names) loc := by
  rw [leadsTo_iff_find, leadsTo_iff_find, h.find ha hp]

theorem Within.leadsTo (h : Within before s d) (ha : Avoids before p d) : s.LeadsTo p loc ↔ before.LeadsTo p loc := by
  rw [leadsTo_iff_find, leadsTo_iff_find, h.find_self ha]

theorem Within.locked (h : Within before s d) : s.locked = before.locked := by rw [h.only]

theorem Within.node? (h : Within before s d) (ha : Avoids before p d) (follow : Bool) :
    s.node? follow p = before.node? follow p := by
  unfold Session.node?
  rw [h.find_self ha]

theorem Within.offer? (h : Within before s d) (ha : Avoids before p d) : s.offer? p = before.offer? p := by
  unfold Session.offer?
  rw [h.find_self ha, h.locked, h.node? ha]

theorem Within.content? (h : Within before s d) {w : WrittenPath} (ha : Avoids before w.path d) :
    s.content? w = before.content? w := by
  unfold Session.content?
  rw [h.find_self ha]

theorem Within.names? (h : Within before s d) {w : WrittenPath} (ha : Avoids before w.path d) :
    s.names? w = before.names? w := by
  unfold Session.names?
  rw [h.find_self ha, h.locked]
  cases hf : before.find true w.path with
  | error code => rfl
  | ok place =>
    obtain ⟨loc, node⟩ := place
    cases node with
    | none => rfl
    | some node =>
      cases node with
      | directory =>
        simp only
        rw [h.names loc (ha.not_below (leadsTo_iff_find.2 hf))]
      | _ => rfl

end Session

namespace Action

open Session

/-- Whether an entry of a directory is treated as a directory; this can only fail for a link. -/
theorem isTreeEntry_cases (hs : s.Sound) (h : s.LeadsTo p loc) (hz : p.hasZero = false)
    (hn : s.files.get? (loc ++ [c]) ≠ none) {w : WrittenPath} (hw : w.path = p.child c) :
    ((isTreeEntry w).perform s = (.ok true, s) ∧ ∃ e, s.LeadsTo (p.child c) e) ∨
      ((isTreeEntry w).perform s = (.ok false, s) ∧ ∀ e, ¬ s.LeadsTo (p.child c) e) ∨
      ∃ code, (isTreeEntry w).perform s = (.error (refuse code w), s) ∧ s.find true (p.child c) = .error code := by
  have hproper : IsProper c := hs.files.proper hn
  have hchild := Path.hasZero_child hz hproper.noZero
  unfold isTreeEntry
  rw [perform_query, hw]
  unfold Session.node?
  rw [hchild]
  simp only [Bool.false_eq_true, if_false]
  by_cases hlink : ∃ target, s.files.get? (loc ++ [c]) = some (.link target)
  · obtain ⟨target, hlink⟩ := hlink
    rw [find_child_of_link h hproper.plain hproper.short hlink]
    simp only
    cases hf : s.find true (p.child c) with
    | ok place =>
      by_cases hd : place.node = some .directory
      · refine .inl ⟨by simp [hd, Session.isDirectoryNode], place.location, leadsTo_iff_find.2 ?_⟩
        rw [hf, ← hd]
      · refine .inr (.inl ⟨?_, fun e he => ?_⟩)
        · simp only [isDirectoryNode_eq_false.2 hd]
        · rw [leadsTo_iff_find.1 he] at hf
          cases hf
          exact hd rfl
    | error code =>
      by_cases hcode : code = .noEntry
      · subst hcode
        refine .inr (.inl ⟨rfl, fun e he => ?_⟩)
        rw [leadsTo_iff_find.1 he] at hf
        cases hf
      · refine .inr (.inr ⟨code, ?_, rfl⟩)
        cases code with
        | noEntry => exact absurd rfl hcode
        | _ => rfl
  · have hfind := fun follow => find_child follow h hproper.plain hproper.short fun target ht => hlink ⟨target, ht⟩
    rw [hfind false]
    cases hnode : s.files.get? (loc ++ [c]) with
    | none => exact absurd hnode hn
    | some node =>
      rw [hnode] at hfind
      cases node with
      | directory => exact .inl ⟨rfl, _, leadsTo_iff_find.2 (hfind true)⟩
      | file data executable =>
        refine .inr (.inl ⟨rfl, fun e he => ?_⟩)
        cases (hfind true).symm.trans (leadsTo_iff_find.1 he)
      | link target => exact absurd ⟨target, hnode⟩ hlink

end Action

end Handout
