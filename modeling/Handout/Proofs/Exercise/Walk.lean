import Handout.Exercise.Walk
import Handout.Proofs.Files.View

/-!
# The files of an exercise

`visited` is what a walk through an exercise visits, computed from a session that does not change.  A walk whose
visits change files elsewhere visits exactly this list (`foldFiles_ensures`): what counts is that the exercise goes on
showing what it showed at first (`Session.Shows`).
-/

namespace Handout

namespace Session

variable {s t : Session} {p : Path} {loc : Location} {names : List String}

/-- From a path on, a session shows what another one showed, whatever has changed elsewhere. -/
structure Shows (s : Session) (p : Path) (t : Session) : Prop where
  sound : t.Sound
  locked : t.locked = s.locked
  find : ∀ names, (∀ c ∈ names, IsPlain c) → ∀ follow, names ≠ [] ∨ follow = true →
    t.find follow (p.append names) = s.find follow (p.append names)

theorem Shows.refl (hs : s.Sound) : Shows s p s := ⟨hs, rfl, fun _ _ _ _ => rfl⟩

theorem Shows.symm (h : Shows s p t) (hs : s.Sound) : Shows t p s :=
  ⟨hs, h.locked.symm, fun names hp follow hq => (h.find names hp follow hq).symm⟩

theorem Shows.trans {u : Session} (h : Shows s p t) (h' : Shows t p u) : Shows s p u :=
  ⟨h'.sound, h'.locked.trans h.locked, fun names hp follow hq =>
    (h'.find names hp follow hq).trans (h.find names hp follow hq)⟩

theorem Shows.append (h : Shows s p t) (hp : ∀ c ∈ names, IsPlain c) : Shows s (p.append names) t where
  sound := h.sound
  locked := h.locked
  find rest hr follow hq := by
    rw [Path.append_append]
    refine h.find (names ++ rest) (fun c hc => ?_) follow ?_
    · exact (List.mem_append.1 hc).elim (hp c) (hr c)
    · exact hq.imp_left fun hrest => by simp [hrest]

theorem Shows.child {c : String} (h : Shows s p t) (hc : IsPlain c) : Shows s (p.child c) t :=
  h.append (by simpa using hc)

theorem Shows.find_self (h : Shows s p t) : t.find true p = s.find true p := by
  have hfind := h.find [] (fun c hc => absurd hc List.not_mem_nil) true (.inr rfl)
  rwa [Path.append_nil] at hfind

theorem Shows.leadsTo (h : Shows s p t) : t.LeadsTo p loc ↔ s.LeadsTo p loc := by
  rw [leadsTo_iff_find, leadsTo_iff_find, h.find_self]

theorem Shows.isFile? (h : Shows s p t) : t.isFile? p = s.isFile? p := by
  unfold Session.isFile? Session.look
  rw [h.find_self, h.locked]

theorem Shows.content? (h : Shows s p t) : t.content? p.written = s.content? p.written := by
  unfold Session.content?
  rw [show p.written.path = p from rfl, h.find_self]

theorem Shows.node?_child {c : String} (h : Shows s p t) (hc : IsPlain c) (follow : Bool) :
    t.node? follow (p.child c) = s.node? follow (p.child c) := by
  unfold Session.node?
  rw [Path.child_eq_append, h.find [c] (by simpa using hc) follow (.inl (List.cons_ne_nil _ _))]

/-- An entry of a directory is found by its name, also a link, which is not followed. -/
theorem find_entry {c : String} (h : s.LeadsTo p loc) (hc : IsPlain c) (hlength : c.utf8ByteSize ≤ maxName) :
    s.find false (p.child c) = .ok ⟨loc ++ [c], s.files.get? (loc ++ [c])⟩ := by
  by_cases hlink : ∃ target, s.files.get? (loc ++ [c]) = some (.link target)
  · obtain ⟨target, hlink⟩ := hlink
    rw [find_child_of_link h hc hlength hlink, hlink]
  · exact find_child false h hc hlength fun target ht => hlink ⟨target, ht⟩

/-- In a directory that is shown the same names are stored, though perhaps in another order. -/
theorem Shows.sorted_names (h : Shows s p t) (hs : s.Sound) (hl : s.LeadsTo p loc) :
    sortNames (t.files.names loc) = sortNames (s.files.names loc) := by
  have hentry : ∀ c, IsProper c → t.files.get? (loc ++ [c]) = s.files.get? (loc ++ [c]) := by
    intro c hc
    have hsame := h.find [c] (by simpa using hc.plain) false (.inl (List.cons_ne_nil _ _))
    rw [← Path.child_eq_append, find_entry (h.leadsTo.2 hl) hc.plain hc.short, find_entry hl hc.plain hc.short] at hsame
    exact (Place.mk.inj (Except.ok.inj hsame)).2
  refine sortNames_eq_of_perm ((List.perm_ext_iff_of_nodup Files.nodup_names Files.nodup_names).2 fun c => ?_)
  rw [Files.mem_names, Files.mem_names]
  refine ⟨fun hn => ?_, fun hn => ?_⟩
  · rwa [← hentry c (h.sound.files.proper hn)]
  · rwa [hentry c (hs.files.proper hn)]

end Session

namespace Exercise

open Handout.Action

variable {s t : Session} {p f : Path} {loc : Location} {names : List String} {levels : Nat}

/-! ### What is visited -/

/-- The names in a directory, in order; none if it cannot be listed. -/
def sortedNames (s : Session) (dir : Path) : List String :=
  match s.names? dir.written with
  | .ok names => sortNames names
  | .error _ => []

/-- Whether a directory is left out together with its contents; one that may not be inspected is. -/
def prunes (s : Session) (dir : Path) : Bool :=
  isHidden dir.name || isSkipped dir.name ||
    match s.isFile? (dir.child ignoreFileName) with
    | .ok b => b
    | .error _ => true

/-- The names of the files in a directory that are visited. -/
def takenNames (s : Session) (dir : Path) : List String :=
  (sortedNames s dir).filter fun c => !Session.isDirectoryNode (s.node? true (dir.child c)) && !isSkipped c

/-- The names in a directory that lead to directories and are not left out; links may be among them. -/
def openNames (s : Session) (dir : Path) : List String :=
  ((sortedNames s dir).filter fun c => Session.isDirectoryNode (s.node? true (dir.child c))).filter
    fun c => !prunes s (dir.child c)

/-- What a walk visits: the files of a directory, and then those of its subdirectories that are no links. -/
def visited (s : Session) : Nat → Path → List Path
  | 0, _ => []
  | levels + 1, dir =>
    (takenNames s dir).map dir.child ++ (openNames s dir).flatMap fun c =>
      if Session.isLinkNode (s.node? false (dir.child c)) then [] else visited s levels (dir.child c)

theorem mem_sortedNames {c : String} (h : c ∈ sortedNames s p) :
    ∃ loc, s.LeadsTo p loc ∧ s.files.get? (loc ++ [c]) ≠ none := by
  unfold sortedNames at h
  split at h
  · rename_i names hnames
    obtain ⟨loc, hfind, rfl⟩ := Session.names?_eq_ok hnames
    exact ⟨loc, Session.leadsTo_iff_find.2 hfind, Files.mem_names.1 ((sortBy_perm _ _).mem_iff.1 h)⟩
  · cases h

theorem proper_of_mem_sortedNames (hs : s.Sound) {c : String} (h : c ∈ sortedNames s p) : IsProper c := by
  obtain ⟨loc, -, hn⟩ := mem_sortedNames h
  exact hs.files.proper hn

theorem mem_of_mem_openNames {c : String} (h : c ∈ openNames s p) : c ∈ sortedNames s p :=
  (List.mem_filter.1 (List.mem_filter.1 (by exact h)).1).1

/-- What is visited below a subdirectory. -/
private theorem mem_visited_succ (h : f ∈ visited s (levels + 1) p) :
    (∃ c ∈ takenNames s p, f = p.child c) ∨
      ∃ c ∈ openNames s p, Session.isLinkNode (s.node? false (p.child c)) = false ∧ f ∈ visited s levels (p.child c) := by
  unfold visited at h
  rcases List.mem_append.1 h with h | h
  · obtain ⟨c, hc, rfl⟩ := List.mem_map.1 h
    exact .inl ⟨c, hc, rfl⟩
  · obtain ⟨c, hc, h⟩ := List.mem_flatMap.1 h
    split at h
    · cases h
    · rename_i hlink
      exact .inr ⟨c, hc, Bool.not_eq_true _ ▸ hlink, h⟩

/-- A walk comes to a file by its name, or through a subdirectory that is no link. -/
inductive Visits (s : Session) : Path → List String → Prop
  | file {p : Path} {c : String} : c ∈ takenNames s p → Visits s p [c]
  | within {p : Path} {c : String} {rel : List String} : c ∈ openNames s p →
      Session.isLinkNode (s.node? false (p.child c)) = false → Visits s (p.child c) rel → Visits s p (c :: rel)

theorem Visits.ne_nil {rel : List String} (h : Visits s p rel) : rel ≠ [] := by
  cases h <;> exact List.cons_ne_nil _ _

theorem mem_visited_iff : f ∈ visited s levels p ↔ ∃ rel, f = p.append rel ∧ Visits s p rel ∧ rel.length ≤ levels := by
  constructor
  · intro h
    induction levels generalizing p with
    | zero => cases h
    | succ levels ih =>
      rcases mem_visited_succ h with ⟨c, hc, rfl⟩ | ⟨c, hc, hlink, h⟩
      · exact ⟨[c], rfl, .file hc, by simp⟩
      · obtain ⟨rel, rfl, hrel, hlength⟩ := ih h
        refine ⟨c :: rel, ?_, .within hc hlink hrel, by simpa using hlength⟩
        rw [Path.child_eq_append, Path.append_append]
        rfl
  · rintro ⟨rel, rfl, hrel, hlength⟩
    induction hrel generalizing levels with
    | @file p c hc =>
      obtain ⟨levels, rfl⟩ := Nat.exists_eq_succ_of_ne_zero (Nat.ne_of_gt hlength)
      exact List.mem_append_left _ (List.mem_map_of_mem hc)
    | @within p c rel hc hlink hrel ih =>
      obtain ⟨levels, rfl⟩ := Nat.exists_eq_succ_of_ne_zero (Nat.ne_of_gt (Nat.lt_of_lt_of_le (Nat.succ_pos _) hlength))
      refine List.mem_append_right _ (List.mem_flatMap.2 ⟨c, hc, ?_⟩)
      have hnext := @ih levels (Nat.le_of_succ_le_succ hlength)
      rw [Path.child_eq_append, Path.append_append] at hnext
      rwa [hlink, if_neg Bool.false_ne_true]

/-- What is visited is no directory and lies in a directory to which the way leads by proper names. -/
theorem exists_of_mem_visited (hs : s.Sound) (h : f ∈ visited s levels p) :
    ∃ init c loc, f = p.append (init ++ [c]) ∧ (∀ x ∈ init ++ [c], IsProper x) ∧ s.LeadsTo (p.append init) loc ∧
      Session.isDirectoryNode (s.node? true f) = false := by
  induction levels generalizing p with
  | zero => cases h
  | succ levels ih =>
    rcases mem_visited_succ h with ⟨c, hc, rfl⟩ | ⟨c, hc, -, h⟩
    · obtain ⟨hc, htaken⟩ := List.mem_filter.1 hc
      obtain ⟨loc, hl, -⟩ := mem_sortedNames hc
      rw [Bool.and_eq_true, Bool.not_eq_true'] at htaken
      exact ⟨[], c, loc, rfl, by simpa using proper_of_mem_sortedNames hs hc, by rwa [Path.append_nil], htaken.1⟩
    · obtain ⟨init, last, loc, rfl, hproper, hl, hfile⟩ := ih h
      rw [Path.child_eq_append, Path.append_append] at hl
      refine ⟨c :: init, last, loc, ?_, ?_, hl, hfile⟩
      · rw [Path.child_eq_append, Path.append_append]
        rfl
      · exact List.forall_mem_cons.2 ⟨proper_of_mem_sortedNames hs (mem_of_mem_openNames hc), hproper⟩

/-- No file that is visited lies below another one. -/
theorem eq_of_prefix_of_mem_visited (hs : s.Sound) {rel rel' : List String} (h : p.append rel ∈ visited s levels p)
    (h' : p.append rel' ∈ visited s levels p) (hbelow : rel <+: rel') : rel = rel' := by
  obtain ⟨-, -, -, -, -, -, hfile⟩ := exists_of_mem_visited hs h
  obtain ⟨init, c, loc, hf', -, hl, -⟩ := exists_of_mem_visited hs h'
  have hrel : rel' = init ++ [c] := List.append_cancel_left (congrArg Path.parts hf')
  by_contra hne
  -- the shorter one would lead to a directory, on the way to the longer one
  have hinit : rel <+: init := by
    rw [hrel] at hbelow hne
    rcases List.prefix_concat_iff.1 hbelow with he | hinit
    · exact absurd he hne
    · exact hinit
  obtain ⟨rest, rfl⟩ := hinit
  rw [← Path.append_append] at hl
  obtain ⟨e, he⟩ := Session.leads_of_find_append (Session.leadsTo_iff_find.1 hl) (.inr ⟨rfl, rfl⟩)
  have hdir : Session.isDirectoryNode (s.node? true (p.append rel)) = true := by
    unfold Session.node?
    rw [he.hasZero hs, if_neg Bool.false_ne_true, Session.leadsTo_iff_find.1 he]
    rfl
  rw [hdir] at hfile
  cases hfile

/-- The way of a walk to what it visits. -/
theorem visits_of_mem_visited {rel : List String} (h : p.append rel ∈ visited s levels p) : Visits s p rel := by
  obtain ⟨rel', he, hvisits, -⟩ := mem_visited_iff.1 h
  rwa [List.append_cancel_left (congrArg Path.parts he : p.parts ++ rel = p.parts ++ rel')]

/-- A way to what is visited goes by proper names. -/
theorem Visits.proper (hs : s.Sound) {rel : List String} (h : Visits s p rel) : ∀ c ∈ rel, IsProper c := by
  induction h with
  | file hc => exact List.forall_mem_singleton.2 (proper_of_mem_sortedNames hs (List.mem_filter.1 hc).1)
  | within hc _ _ ih =>
    exact List.forall_mem_cons.2 ⟨proper_of_mem_sortedNames hs (mem_of_mem_openNames hc), ih⟩

/-- Nothing is visited from a path that leads to no directory. -/
theorem visited_of_nowhere (h : ∀ loc, ¬ s.LeadsTo p loc) : visited s levels p = [] := by
  have hnames : sortedNames s p = [] := by
    rw [List.eq_nil_iff_forall_not_mem]
    intro c hc
    obtain ⟨loc, hl, -⟩ := mem_sortedNames hc
    exact h loc hl
  cases levels with
  | zero => rfl
  | succ levels =>
    simp [visited, takenNames, openNames, hnames]

/-- A subdirectory in which the walk goes on is stored in the directory. -/
theorem leadsTo_of_mem_openNames (hs : s.Sound) {c : String} (hl : s.LeadsTo p loc) (hc : c ∈ openNames s p)
    (hlink : Session.isLinkNode (s.node? false (p.child c)) = false) : s.LeadsTo (p.child c) (loc ++ [c]) := by
  have hproper := proper_of_mem_sortedNames hs (mem_of_mem_openNames hc)
  have hdir := (List.mem_filter.1 (List.mem_filter.1 (by exact hc)).1).2
  have hz : (p.child c).hasZero = false := Path.hasZero_child (hl.hasZero hs) hproper.noZero
  have hnolink : ∀ target, s.files.get? (loc ++ [c]) ≠ some (.link target) := by
    intro target ht
    unfold Session.node? at hlink
    rw [hz, if_neg Bool.false_ne_true, Session.find_entry hl hproper.plain hproper.short, ht] at hlink
    cases hlink
  have hreach := Session.reaches_child hl hs hproper hnolink
  rw [hreach.node?, Session.isDirectoryNode_iff] at hdir
  exact Session.leadsTo_iff_find.2 (by rw [hreach.find, hdir])

/-- The walk visits the same with any two bounds on the nesting that are large enough. -/
theorem visited_congr (hs : s.Sound) {n m : Nat} (hn : ∀ loc, s.LeadsTo p loc → s.files.height < loc.length + n)
    (hm : ∀ loc, s.LeadsTo p loc → s.files.height < loc.length + m) : visited s n p = visited s m p := by
  -- where a bound is zero, the path leads to no directory
  have hnowhere : ∀ {p : Path}, (∀ loc, s.LeadsTo p loc → s.files.height < loc.length + 0) →
      ∀ loc, ¬ s.LeadsTo p loc := by
    intro p h loc hl
    have hexists : s.files.get? loc ≠ none := by
      rw [hl.directory hs]
      exact Option.some_ne_none _
    have := h loc hl
    have := Files.length_le_height hexists
    omega
  induction n generalizing p m with
  | zero => rw [visited_of_nowhere (hnowhere hn), visited_of_nowhere (hnowhere hn)]
  | succ n ih =>
    cases m with
    | zero => rw [visited_of_nowhere (hnowhere hm), visited_of_nowhere (hnowhere hm)]
    | succ m =>
      simp only [visited]
      refine congrArg _ (List.flatMap_congr fun c hc => ?_)
      split
      · rfl
      · rename_i hlink
        obtain ⟨loc, hl, -⟩ := mem_sortedNames (mem_of_mem_openNames hc)
        have hchild := leadsTo_of_mem_openNames hs hl hc (Bool.not_eq_true _ ▸ hlink)
        have hstep : ∀ {k : Nat}, (∀ loc, s.LeadsTo p loc → s.files.height < loc.length + (k + 1)) →
            ∀ e, s.LeadsTo (p.child c) e → s.files.height < e.length + k := by
          intro k hk e he
          have := hk loc hl
          rw [he.unique hchild, List.length_append, List.length_singleton]
          omega
        exact ih (hstep hn) (hstep hm)

/-! ### Walks where the same is shown -/

theorem sortedNames_of_shows (h : s.Shows p t) (hs : s.Sound) : sortedNames t p = sortedNames s p := by
  unfold sortedNames Session.names?
  rw [h.locked, show p.written.path = p from rfl, h.find_self]
  by_cases hlocked : s.locked.contains p = true
  · rw [if_pos hlocked, if_pos hlocked]
  rw [if_neg hlocked, if_neg hlocked]
  by_cases hz : p.hasZero = true
  · rw [if_pos hz, if_pos hz]
  rw [if_neg hz, if_neg hz]
  cases hf : s.find true p with
  | error code => rfl
  | ok place =>
    obtain ⟨loc, node⟩ := place
    rcases node with _ | _ | _ | _
    · rfl
    · exact h.sorted_names hs (Session.leadsTo_iff_find.2 hf)
    · rfl
    · rfl

theorem prunes_of_shows (h : s.Shows p t) : prunes t p = prunes s p := by
  unfold prunes
  rw [(h.child (by decide : IsPlain ignoreFileName)).isFile?]

theorem takenNames_of_shows (h : s.Shows p t) (hs : s.Sound) : takenNames t p = takenNames s p := by
  unfold takenNames
  rw [sortedNames_of_shows h hs]
  exact List.filter_congr fun c hc => by rw [h.node?_child (proper_of_mem_sortedNames hs hc).plain]

theorem openNames_of_shows (h : s.Shows p t) (hs : s.Sound) : openNames t p = openNames s p := by
  unfold openNames
  rw [sortedNames_of_shows h hs, List.filter_filter, List.filter_filter]
  refine List.filter_congr fun c hc => ?_
  have hplain := (proper_of_mem_sortedNames hs hc).plain
  rw [h.node?_child hplain, prunes_of_shows (h.child hplain)]

/-- The walk visits the same where the same is shown. -/
theorem Visits.of_shows {rel : List String} (hs : s.Sound) (hv : Visits s p rel) (h : s.Shows p t) : Visits t p rel := by
  induction hv with
  | file hc => exact .file (takenNames_of_shows h hs ▸ hc)
  | within hc hlink _ ih =>
    have hplain := (proper_of_mem_sortedNames hs (mem_of_mem_openNames hc)).plain
    refine .within (openNames_of_shows h hs ▸ hc) ?_ (ih (h.child hplain))
    rwa [h.node?_child hplain]

theorem visits_iff_of_shows {rel : List String} (hs : s.Sound) (h : s.Shows p t) : Visits t p rel ↔ Visits s p rel :=
  ⟨fun hv => hv.of_shows h.sound (h.symm hs), fun hv => hv.of_shows hs h⟩

/-! ### Walks that change files elsewhere -/

section Ensures

variable {P : Session → Prop} {E : Failure → Session → Prop} {σ : Type} {visit : σ → Path → Action σ}

private theorem refused_of_names? {w : WrittenPath} {e : Failure} (hz : w.path.hasZero = false)
    (h : s.names? w = .error e) : ∃ code, e = refuse code w := by
  unfold Session.names? at h
  rw [hz] at h
  simp only [Bool.false_eq_true, if_false] at h
  split at h
  · cases h
    exact ⟨_, rfl⟩
  · split at h <;> cases h <;> exact ⟨_, rfl⟩

theorem refused_of_isFile? {e : Failure} (h : s.isFile? p = .error e) :
    ∃ code, e = refuse code p.written := by
  unfold Session.isFile? Session.look at h
  split at h
  · cases h
    exact ⟨_, rfl⟩
  · split at h
    · cases h
    · split at h <;> cases h
      exact ⟨_, rfl⟩

private theorem readNames_ensures (hs : s.Sound) (hP : ∀ t, P t → s.Shows p t)
    (hlog : ∀ t record, P t → P { t with log := t.log ++ [record] }) (hz : p.hasZero = false) :
    Ensures P (readNames p) (fun names t => P t ∧ sortNames names = sortedNames s p) E := by
  intro t ht
  have hsame : sortedNames t p = sortedNames s p := sortedNames_of_shows (hP t ht) hs
  unfold readNames Action.names
  rw [perform_tryCatch, perform_query]
  unfold sortedNames at hsame
  cases hnames : t.names? p.written with
  | ok names =>
    rw [hnames] at hsame
    exact ⟨ht, hsame⟩
  | error e =>
    obtain ⟨code, rfl⟩ := refused_of_names? (w := p.written) hz hnames
    rw [hnames] at hsame
    exact ⟨hlog t _ ht, hsame⟩

private theorem isPruned_ensures (hP : ∀ t, P t → s.Shows p t)
    (hlog : ∀ t record, P t → P { t with log := t.log ++ [record] }) :
    Ensures P (isPruned p) (fun b t => P t ∧ b = prunes s p) E := by
  unfold isPruned prunes
  split
  · rename_i hname
    refine Ensures.pure fun t ht => ⟨ht, ?_⟩
    rw [hname]
    rfl
  · rename_i hname
    intro t ht
    have hfile := ((hP t ht).child (c := ignoreFileName) (by decide)).isFile?
    rw [Bool.not_eq_true] at hname
    rw [hname, Bool.false_or, perform_tryCatch]
    unfold Action.isFile
    rw [perform_query, hfile]
    cases ho : s.isFile? (p.child ignoreFileName) with
    | ok b => exact ⟨ht, rfl⟩
    | error e =>
      obtain ⟨code, rfl⟩ := refused_of_isFile? ho
      exact ⟨hlog t _ ht, rfl⟩

/-- What is read in a directory before anything in it is visited: the names of the files that are visited, and those of
the subdirectories that are not left out. -/
def readDirectory (dir : Path) : Action (List String × List String) := do
  let names ← readNames dir
  let s ← get
  let leadsToDirectory (name : String) : Bool := Session.isDirectoryNode (s.node? true (dir.child name))
  let dirs ← (names.filter leadsToDirectory).filterM fun name => return !(← isPruned (dir.child name))
  return ((sortNames (names.filter fun name => !leadsToDirectory name)).filter fun name => !isSkipped name, sortNames dirs)

/-- Visits the files in a subdirectory, unless it is found out to be a link when its turn comes. -/
def visitBelow (visit : σ → Path → Action σ) (levels : Nat) (dir : Path) (acc : σ) (name : String) : Action σ := do
  let s ← get
  if Session.isLinkNode (s.node? false (dir.child name)) then return acc
  foldFiles visit levels acc (dir.child name)

theorem foldFiles_succ (visit : σ → Path → Action σ) (levels : Nat) (acc : σ) (dir : Path) :
    foldFiles visit (levels + 1) acc dir = (do
      let found ← readDirectory dir
      let acc ← found.1.foldlM (fun acc name => visit acc (dir.child name)) acc
      found.2.foldlM (visitBelow visit levels dir) acc) := by
  unfold readDirectory
  simp only [bind_assoc, pure_bind]
  rfl

/-- Where the exercise is shown as it was at first, the same is found in a directory. -/
private theorem readDirectory_ensures (hs : s.Sound) (hP : ∀ t, P t → s.Shows p t)
    (hlog : ∀ t record, P t → P { t with log := t.log ++ [record] }) (hz : p.hasZero = false) :
    Ensures P (readDirectory p) (fun found t => P t ∧ found = (takenNames s p, openNames s p)) E := by
  have hplain : ∀ c ∈ sortedNames s p, IsPlain c := fun c hc => (proper_of_mem_sortedNames hs hc).plain
  unfold readDirectory
  refine (readNames_ensures hs hP hlog hz).bind fun names => Ensures.of_and fun hnames => ?_
  have hsorted : ∀ c ∈ names, c ∈ sortedNames s p := by
    intro c hc
    rw [← hnames]
    exact (sortBy_perm _ names).mem_iff.2 hc
  refine Ensures.get_bind fun t => ?_
  rintro t ⟨rfl, ht⟩
  -- what is asked about the entries has the answers of the session at first
  have hleads : ∀ c ∈ sortedNames s p, t.node? true (p.child c) = s.node? true (p.child c) := fun c hc =>
    (hP t ht).node?_child (hplain c hc) true
  have htaken : (sortNames (names.filter fun c => !Session.isDirectoryNode (t.node? true (p.child c)))).filter
      (fun c => !isSkipped c) = takenNames s p := by
    rw [sortNames_filter, hnames, List.filter_filter]
    exact List.filter_congr fun c hc => by rw [hleads c hc, Bool.and_comm]
  have hdirs : names.filter (fun c => Session.isDirectoryNode (t.node? true (p.child c))) =
      names.filter fun c => Session.isDirectoryNode (s.node? true (p.child c)) :=
    List.filter_congr fun c hc => by rw [hleads c (hsorted c hc)]
  simp only
  rw [htaken, hdirs]
  refine (?_ : Ensures P _ _ E) t ht
  refine (Ensures.filterM_eq (fun c => !prunes s (p.child c)) fun c hc => ?_).bind fun dirs =>
    Ensures.of_and fun hkept => Ensures.pure fun u hu => ⟨hu, ?_⟩
  · have hc' := hplain c (hsorted c (List.mem_filter.1 hc).1)
    refine (isPruned_ensures (fun u hu => (hP u hu).child hc') hlog).bind fun b => Ensures.pure fun u hu => ⟨hu.1, ?_⟩
    rw [hu.2]
  · rw [hkept, sortNames_filter, sortNames_filter, hnames]
    rfl

/-- A walk whose visits leave alone what the exercise shows visits exactly the files that were there at first. -/
theorem foldFiles_ensures (hs : s.Sound) (hz : p.hasZero = false) (visit : σ → Path → Action σ) (all : List Path)
    (I : List Path → σ → Session → Prop)
    (shows : ∀ done acc t, I done acc t → s.Shows p t)
    (logs : ∀ done acc t record, I done acc t → I done acc { t with log := t.log ++ [record] })
    (visits : ∀ done f rest acc, all = done ++ f :: rest → Ensures (I done acc) (visit acc f) (I (done ++ [f])) E)
    (levels : Nat) (rel : List String) (hrel : ∀ c ∈ rel, IsProper c) (done rest : List Path)
    (hall : all = done ++ visited s levels (p.append rel) ++ rest) (acc : σ) :
    Ensures (I done acc) (foldFiles visit levels acc (p.append rel)) (I (done ++ visited s levels (p.append rel))) E := by
  induction levels generalizing rel done rest acc with
  | zero =>
    rw [visited, List.append_nil]
    exact Ensures.pure fun t ht => ht
  | succ levels ih =>
    let dir := p.append rel
    let below := fun c => if Session.isLinkNode (s.node? false (dir.child c)) then [] else visited s levels (dir.child c)
    have hzdir : dir.hasZero = false := by
      rw [Path.hasZero_append, hz, Bool.false_or, List.any_eq_false]
      intro c hc
      simpa using (hrel c hc).noZero
    have hshows : ∀ done acc t, I done acc t → s.Shows dir t := fun done acc t ht =>
      (shows done acc t ht).append fun c hc => (hrel c hc).plain
    have hproper : ∀ c ∈ openNames s dir, IsProper c := fun c hc => proper_of_mem_sortedNames hs (mem_of_mem_openNames hc)
    have hvisited : visited s (levels + 1) dir = (takenNames s dir).map dir.child ++ (openNames s dir).flatMap below := rfl
    rw [show p.append rel = dir from rfl, hvisited] at hall ⊢
    rw [foldFiles_succ]
    refine (readDirectory_ensures hs (hshows done acc) (logs done acc) hzdir).bind fun found =>
      Ensures.of_and fun hfound => ?_
    rw [hfound]
    -- first the files of the directory
    have hfiles := Ensures.foldlM (E := E) (f := fun acc c => visit acc (dir.child c)) (l := takenNames s dir)
      (fun names acc => I (done ++ names.map dir.child) acc) (fun before c after acc hl => ?_) acc
    · refine (hfiles.mono (fun u hu => by simpa using hu) (fun _ _ hu => hu) fun _ _ hu => hu).bind fun acc => ?_
      -- then its subdirectories
      have hbelow := Ensures.foldlM (E := E) (f := visitBelow visit levels dir) (l := openNames s dir)
        (fun names acc => I (done ++ (takenNames s dir).map dir.child ++ names.flatMap below) acc)
        (fun before c after acc hl => ?_) acc
      · refine hbelow.mono (fun u hu => by simpa using hu) (fun _ u hu => ?_) fun _ _ hu => hu
        rwa [List.append_assoc] at hu
      · have hc : c ∈ openNames s dir := by
          rw [hl]
          simp
        refine Ensures.get_bind fun u => ?_
        rintro u ⟨rfl, hu⟩
        rw [(hshows _ acc u hu).node?_child (hproper c hc).plain false]
        rw [List.flatMap_append, List.flatMap_singleton, ← List.append_assoc]
        cases hlink : Session.isLinkNode (s.node? false (dir.child c)) with
        | true =>
          rw [show below c = [] from if_pos hlink, List.append_nil]
          exact hu
        | false =>
          have hc' : dir.child c = p.append (rel ++ [c]) := Path.append_append p rel [c]
          have hthere : below c = visited s levels (p.append (rel ++ [c])) := by
            rw [← hc']
            exact if_neg (by rw [hlink]; exact Bool.false_ne_true)
          rw [hthere, hc']
          refine ih (rel ++ [c]) (fun x hx => ?_) _ (after.flatMap below ++ rest) ?_ acc u hu
          · rcases List.mem_append.1 hx with hx | hx
            · exact hrel x hx
            · exact List.mem_singleton.1 hx ▸ hproper c hc
          · rw [hall, hl, ← hthere]
            simp
    · refine (visits _ _ (after.map dir.child ++ ((openNames s dir).flatMap below ++ rest)) acc ?_).mono
        (fun _ hu => hu) (fun _ _ hu => by simpa using hu) fun _ _ hu => hu
      rw [hall, hl]
      simp

end Ensures

theorem perform_files (p : Path) (s : Session) : (files p).perform s =
    (foldFiles (fun acc q => pure (acc ++ [q])) (s.files.height + 1) [] p).perform s := by
  unfold files
  rw [perform_bind, perform_get]

/-- The files of an exercise are what a walk visits. -/
theorem files_eq (hs : s.Sound) (hz : p.hasZero = false) :
    ((files p).perform s).1 = .ok (visited s (s.files.height + 1) p) := by
  have hwalk := foldFiles_ensures (E := fun _ _ => False) hs hz (fun acc q => return acc ++ [q])
    (visited s (s.files.height + 1) p) (fun done acc t => s.Shows p t ∧ acc = done) (fun _ _ _ ht => ht.1)
    (fun _ _ t _ ht => ⟨⟨⟨ht.1.sound.files, ht.1.sound.workingDir⟩, ht.1.locked, ht.1.find⟩, ht.2⟩)
    (fun done f rest acc _ => Ensures.pure fun t ht => ⟨ht.1, by rw [ht.2]⟩) (s.files.height + 1) [] (by simp) [] []
    (by simp) []
  have hends := hwalk s ⟨.refl hs, rfl⟩
  rw [Path.append_nil, List.nil_append] at hends
  rw [perform_files]
  rcases hp : (foldFiles (fun acc q => pure (acc ++ [q])) (s.files.height + 1) [] p).perform s with ⟨r, t⟩
  rw [hp] at hends
  cases r with
  | error e => exact hends.elim
  | ok found =>
    rw [hends.2]

/-- From a directory that may not be listed nothing is visited. -/
theorem perform_foldFiles_locked {σ : Type} (visit : σ → Path → Action σ) (hlocked : s.locked.contains p = true)
    (levels : Nat) (acc : σ) : ∃ log, (foldFiles visit (levels + 1) acc p).perform s = (.ok acc, { s with log := log }) := by
  have hnames : s.names? p.written = .error (refuse .denied p.written) := if_pos hlocked
  unfold foldFiles readNames Action.names
  rw [perform_bind, perform_tryCatch, perform_query, hnames]
  exact ⟨_, rfl⟩

theorem perform_foldFiles_hasZero {σ : Type} (visit : σ → Path → Action σ) (hz : p.hasZero = true)
    (hlocked : s.locked.contains p = false) (levels : Nat) (acc : σ) :
    (foldFiles visit (levels + 1) acc p).perform s = (.error .zeroInPath, s) := by
  have hnames : s.names? p.written = .error .zeroInPath := by
    unfold Session.names?
    rw [show p.written.path = p from rfl, hlocked, hz]
    rfl
  unfold foldFiles readNames Action.names
  rw [perform_bind, perform_tryCatch, perform_query, hnames]
  rfl

end Exercise

end Handout
