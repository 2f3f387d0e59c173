import Handout.Proofs.Archive.Atomic
import Handout.Proofs.Exercise.Walk
import Handout.Proofs.Files.Depth

/-!
# What is stored below a path, in order

A traversal comes to a directory before its entries and to the entries in order of their names.  So what it visits is in
order of the lists of names (`Files.pairwise_listing`): names that part at one place are told apart there, whatever
follows, and whatever lies in `a` comes before `a b`.

Links are found and not entered (`Session.Finds`), but to tell that a link is none to be entered it is followed.
`Obstructs` says what a traversal fails on: a directory that may not be listed, or a link that cannot be followed
because a name is too long.  It visits everything exactly if nothing of this is in its way (`foldBelow_runs`,
`descendants_cases`).
-/

namespace Handout

open Handout.Action

variable {s t : Session} {p : Path} {loc dir : Location} {rel : List String} {f : Files} {levels : Nat}

/-! ### The order of what is stored -/

namespace Files

/-- What is reached from a place through directories, not through links. -/
inductive Reachable (f : Files) (loc : Location) : List String → Prop
  | top : f.get? loc ≠ none → Reachable f loc []
  | entry {rel : List String} {name : String} : Reachable f loc rel → f.get? (loc ++ rel) = some .directory →
      name ∈ f.names (loc ++ rel) → Reachable f loc (rel ++ [name])

theorem reachable_iff (hf : f.WellFormed) : f.Reachable loc rel ↔ f.get? (loc ++ rel) ≠ none := by
  constructor
  · intro h
    cases h with
    | top hn => rwa [List.append_nil]
    | entry _ _ hname =>
      rw [← List.append_assoc]
      exact mem_names.1 hname
  · intro hn
    induction rel using List.reverseRecOn with
    | nil => exact .top (by rwa [List.append_nil] at hn)
    | append_singleton rel name ih =>
      rw [← List.append_assoc] at hn
      have hdir : f.get? (loc ++ rel) = some .directory := hf.parent hn
      exact .entry (ih (by rw [hdir]; exact Option.some_ne_none _)) hdir (mem_names.2 hn)

/-- A directory comes before what is listed below it, and what is listed with different names is told apart by them. -/
theorem pairwise_below : (f.below levels dir).Pairwise (· < ·) := by
  induction levels generalizing dir with
  | zero => exact .nil
  | succ levels ih =>
    unfold below
    split
    · refine List.pairwise_flatMap.2 ⟨fun name _ => List.pairwise_cons.2 ⟨fun x hx => ?_, ih⟩, ?_⟩
      · obtain ⟨rel, hrel, rfl, -⟩ := exists_of_mem_below hx
        obtain ⟨c, rest, rfl⟩ := List.exists_cons_of_ne_nil hrel
        have hless : dir ++ [name] ++ [] < dir ++ [name] ++ c :: rest := List.append_left_lt (List.nil_lt_cons c rest)
        rwa [List.append_nil] at hless
      · refine (pairwise_sortNames nodup_names).imp fun {a b} hab x hx y hy => ?_
        obtain ⟨rest, rfl⟩ := exists_of_mem_entries hx
        obtain ⟨rest', rfl⟩ := exists_of_mem_entries hy
        exact List.append_left_lt (List.cons_lt_cons_iff.2 (.inl hab))
    · exact .nil

theorem pairwise_listing : (f.listing dir).Pairwise (· < ·) := by
  refine List.pairwise_map.2 (pairwise_below.imp_of_mem fun {x y} hx hy hxy => ?_)
  obtain ⟨rel, -, rfl, -⟩ := exists_of_mem_below hx
  obtain ⟨rel', -, rfl, -⟩ := exists_of_mem_below hy
  rw [List.drop_left, List.drop_left]
  by_contra hle
  exact absurd hxy (List.not_lt.2 (List.append_left_le (List.not_lt.1 hle)))

/-- The place itself comes before all that is stored below it. -/
theorem pairwise_cons_listing (hf : f.WellFormed) : ([] :: f.listing dir).Pairwise (· < ·) := by
  refine List.pairwise_cons.2 ⟨fun rel hrel => ?_, pairwise_listing⟩
  obtain ⟨name, rest, rfl⟩ := List.exists_cons_of_ne_nil ((mem_listing hf).1 hrel).1
  exact List.nil_lt_cons name rest

theorem mem_cons_listing (hf : f.WellFormed) (hn : f.get? dir ≠ none) :
    rel ∈ [] :: f.listing dir ↔ f.Reachable dir rel := by
  rw [List.mem_cons, mem_listing hf, reachable_iff hf]
  constructor
  · rintro (rfl | h)
    · rwa [List.append_nil]
    · exact h.2
  · exact fun h => or_iff_not_imp_left.2 fun hne => ⟨hne, h⟩

end Files

/-! ### Paths that stand for something -/

namespace Session

theorem isLinkNode_iff {node : Option Node} : isLinkNode node = true ↔ ∃ target, node = some (.link target) := by
  unfold isLinkNode
  split
  · exact ⟨fun _ => ⟨_, rfl⟩, fun _ => rfl⟩
  · rename_i h
    exact ⟨nofun, fun ⟨target, htarget⟩ => absurd htarget (h target)⟩

/-- A path at which something is found when a link in the last place is not followed. -/
structure Finds (s : Session) (p : Path) (loc : Location) : Prop where
  sound : s.Sound
  find : s.find false p = .ok ⟨loc, s.files.get? loc⟩
  found : s.files.get? loc ≠ none

theorem Sound.finds (hs : s.Sound) {node : Node} (h : s.find false p = .ok ⟨loc, some node⟩) : s.Finds p loc := by
  have hnode : some node = s.files.get? loc := (find_isSound hs h).1
  exact ⟨hs, by rw [h, hnode], by rw [← hnode]; exact Option.some_ne_none _⟩

/-- A directory that is found is led to. -/
theorem Finds.leads (h : s.Finds p loc) (hd : s.files.get? loc = some .directory) : s.LeadsTo p loc := by
  have hfind := h.find
  rw [hd] at hfind
  rw [leadsTo_iff_find]
  rcases List.eq_nil_or_concat' p.parts with hp | ⟨init, c, hp⟩
  · unfold Session.find at hfind ⊢
    rwa [hp, Files.walk_nil] at hfind ⊢
  · have hparent : p = p.parent.append [c] := by
      unfold Path.parent Path.append
      rw [hp, List.dropLast_concat, ← hp]
    rw [hparent] at hfind ⊢
    obtain ⟨dir, n, hn, hl⟩ := leads_of_find_append hfind (.inl (List.cons_ne_nil _ _))
    have hwalk : ∀ follow, s.find follow (p.parent.append [c]) = s.files.walk follow (maxLinks - n) dir [c] :=
      fun _ => Files.walk_of_leads hl hn (.inl (List.cons_ne_nil _ _))
    rw [hwalk] at hfind ⊢
    by_cases hstay : Files.isStay c = true
    · rwa [Files.walk_stay hstay, Files.walk_nil] at hfind ⊢
    by_cases hup : c = ".."
    · rwa [hup, Files.walk_up, Files.walk_nil] at hfind ⊢
    have hplain : IsPlain c := ⟨by simpa using hstay, hup⟩
    by_cases hlong : maxName < c.utf8ByteSize
    · rw [Files.walk_long hplain hlong] at hfind
      cases hfind
    rw [Files.walk_name hplain (by omega)] at hfind ⊢
    -- only a directory under the name is found as one
    rcases hnode : s.files.get? (dir ++ [c]) with _ | _ | _ | _
    all_goals rw [hnode] at hfind
    · cases hfind
    · simpa only [Files.walk_nil] using hfind
    · cases hfind
    · cases hfind

theorem Finds.child (h : s.Finds p loc) {name : String} (hn : s.files.get? (loc ++ [name]) ≠ none) :
    s.Finds (p.child name) (loc ++ [name]) := by
  have hproper : IsProper name := h.sound.files.proper hn
  exact ⟨h.sound, find_entry (h.leads (h.sound.files.parent hn)) hproper.plain hproper.short, hn⟩

/-- What is stored below is found by its names. -/
theorem Finds.append (h : s.Finds p loc) (hn : s.files.get? (loc ++ rel) ≠ none) :
    s.Finds (p.append rel) (loc ++ rel) := by
  induction rel using List.reverseRecOn with
  | nil => rwa [Path.append_nil, List.append_nil]
  | append_singleton rel name ih =>
    rw [← List.append_assoc] at hn ⊢
    have hdir : s.files.get? (loc ++ rel) = some .directory := h.sound.files.parent hn
    have hchild := (ih (by rw [hdir]; exact Option.some_ne_none _)).child hn
    rwa [Path.child_eq_append, Path.append_append] at hchild

theorem Finds.hasZero (h : s.Finds p loc) : p.hasZero = false := by
  by_cases hd : s.files.get? loc = some .directory
  · exact (h.leads hd).hasZero h.sound
  · obtain ⟨dir, hl, hchild, -, -, hplace | ⟨hfollow, -⟩⟩ := entry_of_find h.find hd
    · have hproper : IsProper p.name := by
        refine h.sound.files.proper (?_ : s.files.get? (dir ++ [p.name]) ≠ none)
        rw [← (Place.mk.inj hplace).1]
        exact h.found
      rw [hchild]
      exact Path.hasZero_child (hl.hasZero h.sound) hproper.noZero
    · cases hfollow

theorem Finds.isLink? (h : s.Finds p loc) : s.isLink? p = .ok (isLinkNode (s.files.get? loc)) := by
  unfold Session.isLink? look
  rw [h.hasZero, h.find]
  rfl

/-- What is found and is no link is found as well when links are followed. -/
theorem Finds.follow (h : s.Finds p loc) (hl : isLinkNode (s.files.get? loc) = false) :
    s.find true p = .ok ⟨loc, s.files.get? loc⟩ := by
  by_cases hd : s.files.get? loc = some .directory
  · rw [hd]
    exact leadsTo_iff_find.1 (h.leads hd)
  · obtain ⟨dir, hlead, hchild, hplain, hshort, hplace | ⟨hfollow, -⟩⟩ := entry_of_find h.find hd
    · have hloc : loc = dir ++ [p.name] := (Place.mk.inj hplace).1
      have hfind := find_child true hlead hplain hshort fun target htarget => ?_
      · rwa [← hchild, ← hloc] at hfind
      · rw [hloc, htarget] at hl
        cases hl
    · cases hfollow

/-- What a traversal cannot get over at a path: a directory that may not be listed, or a link that cannot be followed
because a name is too long. -/
inductive Obstructs (s : Session) (p : Path) (loc : Location) : Failure → Prop
  | locked : s.files.get? loc = some .directory → p ∈ s.locked → Obstructs s p loc (refuse .denied p.written)
  | tooLong {target : String} : s.files.get? loc = some (.link target) → s.find true p = .error .nameTooLong →
      Obstructs s p loc (refuse .nameTooLong p.written)

/-- Nothing at or below a path obstructs. -/
def Unobstructed (s : Session) (p : Path) (loc : Location) : Prop :=
  ∀ rel e, ¬ s.Obstructs (p.append rel) (loc ++ rel) e

/-- A failure on something at or below a path that obstructs. -/
def Stopped {α : Type} (s : Session) (p : Path) (loc : Location) (result : Except Failure α) : Prop :=
  ∃ rel e, s.Obstructs (p.append rel) (loc ++ rel) e ∧ result = .error e

theorem Stopped.not_unobstructed {α : Type} {result : Except Failure α} (h : s.Stopped p loc result) :
    ¬ s.Unobstructed p loc := by
  obtain ⟨rel, e, hobstructs, -⟩ := h
  exact fun hfree => hfree rel e hobstructs

theorem Obstructs.exists {e : Failure} (h : s.Obstructs p loc e) : s.files.get? loc ≠ none := by
  cases h with
  | locked hd => rw [hd]; exact Option.some_ne_none _
  | tooLong htarget => rw [htarget]; exact Option.some_ne_none _

/-- Nothing down to a certain depth below a path obstructs. -/
def UnobstructedWithin (s : Session) (levels : Nat) (p : Path) (loc : Location) : Prop :=
  ∀ rel e, rel.length < levels → ¬ s.Obstructs (p.append rel) (loc ++ rel) e

/-- Nothing obstructs if neither the path itself does nor anything at or below an entry. -/
theorem UnobstructedWithin.of_entries (hs : s.Sound) (hself : ∀ e, ¬ s.Obstructs p loc e)
    (hentries : ∀ name ∈ s.files.names loc, s.UnobstructedWithin levels (p.child name) (loc ++ [name])) :
    s.UnobstructedWithin (levels + 1) p loc := by
  intro rel e hlength hobstructs
  cases rel with
  | nil =>
    rw [Path.append_nil, List.append_nil] at hobstructs
    exact hself e hobstructs
  | cons name rel =>
    have hname : name ∈ s.files.names loc := Files.mem_names.2 (hs.files.first hobstructs.exists)
    refine hentries name hname rel e (Nat.lt_of_succ_lt_succ hlength) ?_
    rwa [Path.child_eq_append, Path.append_append, List.append_assoc]

theorem UnobstructedWithin.unobstructed (h : s.UnobstructedWithin (s.files.height + 1) p loc) :
    s.Unobstructed p loc := by
  intro rel e hobstructs
  have hlength := Files.length_le_height hobstructs.exists
  rw [List.length_append] at hlength
  exact h rel e (by omega) hobstructs

/-- What is found can be looked at, unless it is a link that obstructs. -/
theorem Finds.look_cases (h : s.Finds p loc) :
    (∃ node, s.look true p = .ok node ∧ (isLinkNode (s.files.get? loc) = false → node = s.files.get? loc) ∧
      (s.files.get? loc ≠ some .directory → ∀ e, ¬ s.Obstructs p loc e)) ∨
    ∃ e, s.look true p = .error e ∧ s.Obstructs p loc e := by
  unfold look
  rw [h.hasZero, if_neg Bool.false_ne_true]
  cases hlink : isLinkNode (s.files.get? loc) with
  | false =>
    rw [h.follow hlink]
    refine .inl ⟨_, rfl, fun _ => rfl, fun hd e he => ?_⟩
    cases he with
    | locked hd' => exact hd hd'
    | tooLong htarget =>
      rw [htarget] at hlink
      cases hlink
  | true =>
    obtain ⟨target, htarget⟩ := isLinkNode_iff.1 hlink
    have hfree : s.find true p ≠ .error .nameTooLong → ∀ e, ¬ s.Obstructs p loc e := by
      intro hshort e he
      cases he with
      | locked hd =>
        rw [htarget] at hd
        cases hd
      | tooLong _ hfind => exact hshort hfind
    split
    · rename_i hfind
      exact .inl ⟨_, rfl, nofun, fun _ => hfree (by rw [hfind]; exact nofun)⟩
    · rename_i hfind
      exact .inr ⟨_, rfl, .tooLong htarget hfind⟩
    · rename_i hshort hfind
      exact .inl ⟨_, rfl, nofun, fun _ => hfree (by rw [hfind]; exact fun he => hshort (Except.error.inj he))⟩

/-- The question whether something is a directory has an answer, unless it is a link that obstructs. -/
theorem Finds.isDirectory?_cases (h : s.Finds p loc) :
    (∃ b, s.isDirectory? p = .ok b ∧ (b && !isLinkNode (s.files.get? loc)) = isDirectoryNode (s.files.get? loc) ∧
      (s.files.get? loc ≠ some .directory → ∀ e, ¬ s.Obstructs p loc e)) ∨
    ∃ e, s.isDirectory? p = .error e ∧ s.Obstructs p loc e := by
  unfold Session.isDirectory?
  rcases h.look_cases with ⟨node, hlook, hsame, hfree⟩ | ⟨e, hlook, he⟩
  · rw [hlook]
    refine .inl ⟨isDirectoryNode node, rfl, ?_, hfree⟩
    cases hlink : isLinkNode (s.files.get? loc) with
    | false => rw [hsame hlink, Bool.not_false, Bool.and_true]
    | true =>
      obtain ⟨target, htarget⟩ := isLinkNode_iff.1 hlink
      rw [htarget]
      exact Bool.and_false _
  · rw [hlook]
    exact .inr ⟨e, rfl, he⟩

/-- The question whether an entry of a directory is a file has an answer, unless one of the two obstructs. -/
theorem Finds.isFile?_cases (h : s.Finds p loc) {name : String} (hn : s.files.get? (loc ++ [name]) ≠ none) :
    (∃ b, s.isFile? (p.child name) = .ok b) ∨
    (∃ e, s.Obstructs p loc e) ∨ ∃ e, s.Obstructs (p.child name) (loc ++ [name]) e := by
  have hparent : (p.child name).parent = p := by simp [Path.parent, Path.child]
  unfold Session.isFile?
  rw [hparent]
  by_cases hlocked : p ∈ s.locked
  · exact .inr (.inl ⟨_, .locked (h.sound.files.parent hn) hlocked⟩)
  rw [if_neg fun hc => hlocked (List.contains_iff_mem.1 hc)]
  rcases (h.child hn).look_cases with ⟨node, hlook, -⟩ | ⟨e, -, he⟩
  · rw [hlook]
    exact .inl ⟨_, rfl⟩
  · exact .inr (.inr ⟨e, he⟩)

/-- A directory that is found has its names, unless it obstructs. -/
theorem Finds.names?_cases (h : s.Finds p loc) (hd : s.files.get? loc = some .directory) :
    (s.names? p.written = .ok (s.files.names loc) ∧ ∀ e, ¬ s.Obstructs p loc e) ∨
    ∃ e, s.names? p.written = .error e ∧ s.Obstructs p loc e := by
  unfold Session.names?
  rw [show p.written.path = p from rfl]
  by_cases hlocked : p ∈ s.locked
  · refine .inr ⟨_, ?_, .locked hd hlocked⟩
    rw [if_pos (List.contains_iff_mem.2 hlocked)]
  · refine .inl ⟨?_, fun e he => ?_⟩
    · rw [if_neg fun hc => hlocked (List.contains_iff_mem.1 hc), h.hasZero, leadsTo_iff_find.1 (h.leads hd)]
      rfl
    · cases he with
      | locked _ hlocked' => exact hlocked hlocked'
      | tooLong htarget =>
        rw [hd] at htarget
        cases htarget

/-- A session in which the same is stored, found and locked. -/
structure SameSight (s t : Session) : Prop extends SameStore s t where
  locked : t.locked = s.locked

theorem SameSight.refl (s : Session) : SameSight s s := ⟨.refl s, rfl⟩

theorem SameSight.look (h : SameSight s t) (follow : Bool) (p : Path) : t.look follow p = s.look follow p := by
  unfold Session.look
  rw [h.find]

theorem SameSight.isDirectory? (h : SameSight s t) (p : Path) : t.isDirectory? p = s.isDirectory? p :=
  congrArg _ (h.look true p)

theorem SameSight.isLink? (h : SameSight s t) (p : Path) : t.isLink? p = s.isLink? p := congrArg _ (h.look false p)

theorem SameSight.isFile? (h : SameSight s t) (p : Path) : t.isFile? p = s.isFile? p := by
  unfold Session.isFile?
  rw [h.look, h.locked]

theorem SameSight.names? (h : SameSight s t) (w : WrittenPath) : t.names? w = s.names? w := by
  unfold Session.names?
  rw [h.find, h.locked, h.files]

end Session

open Session

/-! ### Traversals -/

section Runs

variable {σ : Type} {visit : σ → Path → Action σ} {E : Failure → Session → Prop} {P : Session → Prop}

private theorem Session.Finds.isDirectory_ensures (hp : s.Finds p loc) (hP : ∀ t, P t → SameSight s t)
    (hE : ∀ t e, P t → s.Obstructs p loc e → E e t) :
    Ensures P (isDirectory p)
      (fun b t => P t ∧ (b && !isLinkNode (s.files.get? loc)) = isDirectoryNode (s.files.get? loc) ∧
        (s.files.get? loc ≠ some .directory → ∀ e, ¬ s.Obstructs p loc e)) E := by
  refine Ensures.query fun t ht => ?_
  rw [(hP t ht).isDirectory?]
  rcases hp.isDirectory?_cases with ⟨b, hb, hboth⟩ | ⟨e, he, hobstructs⟩
  · rw [hb]
    exact ⟨ht, hboth⟩
  · rw [he]
    exact hE t e ht hobstructs

theorem Session.Finds.names_ensures (hp : s.Finds p loc) (hd : s.files.get? loc = some .directory)
    (hP : ∀ t, P t → SameSight s t) (hE : ∀ t e, P t → s.Obstructs p loc e → E e t) :
    Ensures P (names p.written) (fun found t => P t ∧ found = s.files.names loc ∧ ∀ e, ¬ s.Obstructs p loc e) E := by
  refine Ensures.query fun t ht => ?_
  rw [(hP t ht).names?]
  rcases hp.names?_cases hd with ⟨hnames, hfree⟩ | ⟨e, he, hobstructs⟩
  · rw [hnames]
    exact ⟨ht, rfl, hfree⟩
  · rw [he]
    exact hE t e ht hobstructs

/-- A traversal visits everything below its start in order, and has met nothing that obstructs it when it ends. -/
theorem foldBelow_runs {I : List Location → σ → Session → Prop} (hp : s.Finds p loc)
    (same : ∀ done acc t, I done acc t → SameSight s t)
    (obstructed : ∀ done acc t rel e, I done acc t → s.Obstructs (p.append rel) (loc ++ rel) e → E e t)
    (visits : ∀ done rel name acc, s.files.get? (loc ++ (rel ++ [name])) ≠ none →
      Ensures (I done acc) (visit acc (p.append (rel ++ [name]))) (I (done ++ [loc ++ (rel ++ [name])])) E)
    (levels : Nat) (rel : List String) (hn : s.files.get? (loc ++ rel) ≠ none) (done : List Location) (acc : σ) :
    Ensures (I done acc) (foldBelow true visit levels acc (p.append rel))
      (fun acc t => I (done ++ s.files.below levels (loc ++ rel)) acc t ∧
        s.UnobstructedWithin levels (p.append rel) (loc ++ rel)) E := by
  induction levels generalizing rel done acc with
  | zero =>
    rw [Files.below, List.append_nil]
    exact Ensures.pure fun t ht => ⟨ht, fun _ _ hlength => absurd hlength (Nat.not_lt_zero _)⟩
  | succ levels ih =>
    have hrel := hp.append hn
    have hlink : Ensures (I done acc) (isLink (p.append rel))
        (fun b t => I done acc t ∧ b = isLinkNode (s.files.get? (loc ++ rel))) E := by
      refine Ensures.query fun t ht => ?_
      rw [(same done acc t ht).isLink?, hrel.isLink?]
      exact ⟨ht, rfl⟩
    unfold foldBelow
    refine (hrel.isDirectory_ensures (same done acc) fun t e ht => obstructed done acc t rel e ht).bind fun b =>
      Ensures.of_and fun hb => ?_
    refine hlink.bind fun b' => Ensures.of_and fun hb' => ?_
    rw [hb', hb.1]
    by_cases hd : s.files.get? (loc ++ rel) = some .directory
    · rw [hd]
      refine (hrel.names_ensures hd (same done acc) fun t e ht => obstructed done acc t rel e ht).bind fun found =>
        Ensures.of_and fun hfound => ?_
      obtain ⟨rfl, hself⟩ := hfound
      simp only [if_true]
      let entries : String → List Location := fun name =>
        (loc ++ rel ++ [name]) :: s.files.below levels (loc ++ rel ++ [name])
      have hbelow : s.files.below (levels + 1) (loc ++ rel) =
          (sortNames (s.files.names (loc ++ rel))).flatMap entries := by
        rw [Files.below, if_pos hd]
      have hsorted : ∀ {name}, name ∈ sortNames (s.files.names (loc ++ rel)) ↔ name ∈ s.files.names (loc ++ rel) :=
        (sortBy_perm _ _).mem_iff
      rw [hbelow]
      -- when some of the entries are done, nothing at or below them obstructs
      refine (Ensures.foldlM (fun names acc t => I (done ++ names.flatMap entries) acc t ∧
          ∀ name ∈ names, s.UnobstructedWithin levels ((p.append rel).child name) (loc ++ rel ++ [name])) ?_ acc).mono
        (fun t ht => ⟨by simpa using ht, List.forall_mem_nil _⟩)
        (fun _ t ht => ⟨ht.1, .of_entries hp.sound hself fun name hname => ht.2 name (hsorted.2 hname)⟩)
        fun _ _ he => he
      intro before name after acc hsplit
      have hname : s.files.get? (loc ++ (rel ++ [name])) ≠ none := by
        rw [← List.append_assoc]
        exact Files.mem_names.1 (hsorted.1 (by simp [hsplit]))
      have hchild : (p.append rel).child name = p.append (rel ++ [name]) := Path.append_append ..
      have hdone : done ++ (before ++ [name]).flatMap entries =
          (done ++ before.flatMap entries ++ [loc ++ (rel ++ [name])]) ++
            s.files.below levels (loc ++ (rel ++ [name])) := by
        simp [entries]
      rw [hchild, hdone]
      refine Ensures.of_and fun hbefore => ?_
      refine (visits _ rel name acc hname).bind fun acc => ?_
      refine (ih (rel ++ [name]) hname _ acc).mono (fun _ ht => ht) (fun _ t ht => ⟨ht.1, ?_⟩) fun _ _ he => he
      rw [List.forall_mem_append]
      refine ⟨hbefore, fun c hc => ?_⟩
      rw [List.mem_singleton.1 hc, hchild, List.append_assoc]
      exact ht.2
    · rw [Files.below, if_neg hd, List.append_nil, isDirectoryNode_eq_false.2 hd]
      refine Ensures.pure fun t ht => ⟨ht, .of_entries hp.sound (hb.2 hd) fun name hname => ?_⟩
      exact absurd (hp.sound.files.parent (Files.mem_names.1 hname)) hd

/-- With a bound that exceeds the height of the files a traversal leaves nothing out. -/
theorem foldBelow_runs_top (visit : σ → Path → Action σ) {I : List (List String) → σ → Session → Prop}
    (hp : s.Finds p loc) (same : ∀ done acc t, I done acc t → SameSight s t)
    (obstructed : ∀ done acc t rel e, I done acc t → s.Obstructs (p.append rel) (loc ++ rel) e → E e t)
    (visits : ∀ done rel name acc, s.files.get? (loc ++ (rel ++ [name])) ≠ none →
      Ensures (I done acc) (visit acc (p.append (rel ++ [name]))) (I (done ++ [rel ++ [name]])) E) (acc : σ) :
    Ensures (I [] acc) (foldBelow true visit (s.files.height + 1) acc p)
      (fun acc t => I (s.files.listing loc) acc t ∧ s.Unobstructed p loc) E := by
  have hrun := foldBelow_runs (E := E) (I := fun done acc t => I (done.map fun x => x.drop loc.length) acc t) hp
    (fun done => same _) (fun done => obstructed _)
    (fun done rel name acc hn => by simpa using visits (done.map fun x => x.drop loc.length) rel name acc hn)
    (s.files.height + 1) [] (by rw [List.append_nil]; exact hp.found) [] acc
  rw [Path.append_nil, List.append_nil, List.nil_append] at hrun
  exact hrun.mono (fun _ ht => ht) (fun _ t ht => ⟨ht.1, ht.2.unobstructed⟩) fun _ _ he => he

/-- Everything at or below a path is listed, unless something obstructs. -/
theorem descendants_cases (hp : s.Finds p loc) (includeTop : Bool) :
    (s.Unobstructed p loc ∧ (descendants p includeTop true).perform s =
      (.ok ((if includeTop then [p] else []) ++ (s.files.listing loc).map p.append), s)) ∨
    s.Stopped p loc ((descendants p includeTop true).perform s).1 := by
  have hrun := foldBelow_runs_top (fun acc p => return acc ++ [p])
    (I := fun rels acc t => t = s ∧ acc = (if includeTop then [p] else []) ++ rels.map p.append)
    (E := fun e _ => ∃ rel, s.Obstructs (p.append rel) (loc ++ rel) e) hp
    (fun _ _ t ht => by rw [ht.1]; exact .refl s) (fun _ _ _ rel _ _ hobstructs => ⟨rel, hobstructs⟩)
    (fun done rel name acc _ => Ensures.pure fun t ht => ⟨ht.1, by rw [ht.2]; simp⟩) (if includeTop then [p] else [])
  have hends := hrun s ⟨rfl, by simp⟩
  unfold descendants
  rw [perform_bind_ok (perform_get s)]
  rcases hperform : (foldBelow true (fun acc p => (return acc ++ [p] : Action (List Path))) (s.files.height + 1)
    (if includeTop then [p] else []) p).perform s with ⟨r, t⟩
  rw [hperform] at hends
  cases r with
  | ok found =>
    obtain ⟨⟨rfl, rfl⟩, hfree⟩ := hends
    exact .inl ⟨hfree, rfl⟩
  | error e =>
    obtain ⟨rel, hobstructs⟩ := hends
    exact .inr ⟨rel, e, hobstructs, rfl⟩

end Runs

end Handout
