import Handout.Proofs.Files.Traverse
import Handout.Proofs.Files.View

/-!
# Directories without links

In a directory in which there are no links and nothing is locked, names lead where they say.  Then what is offered is
what is stored (`Listable.offers`), and what a path shows depends on the contents only (`Listable.sameView`).
-/

namespace Handout

/-- What is offered where a node is stored. -/
def Offer.ofNode : Node → Offer
  | .directory => .directory
  | .file data executable => .file data executable
  | .link _ => .refused

/-- Two places hold the same if they agree on everything that is listed for one of them. -/
theorem Files.content_congr {f g : Files} (hf : f.WellFormed) (hg : g.WellFormed) {d e : Location}
    (h : ∀ rel ∈ [] :: (f.listing d ++ g.listing e), f.get? (d ++ rel) = g.get? (e ++ rel)) :
    f.content d = g.content e := by
  funext rel
  unfold Files.content
  by_cases hrel : rel ∈ [] :: (f.listing d ++ g.listing e)
  · exact h rel hrel
  · rw [List.mem_cons, List.mem_append, mem_listing hf, mem_listing hg] at hrel
    have hn : f.get? (d ++ rel) = none ∧ g.get? (e ++ rel) = none := by
      constructor <;> by_contra hn <;> exact hrel (by tauto)
    rw [hn.1, hn.2]

namespace Session

variable {s t : Session} {p : Path} {d e : Location} {rel : List String} {name : String}

/-- A directory that can be listed in full: nothing in it is a link or locked. -/
structure Listable (s : Session) (d : Location) : Prop where
  sound : s.Sound
  directory : s.files.get? d = some .directory
  noLink : ∀ rel target, s.files.get? (d ++ rel) ≠ some (.link target)
  unlocked : ∀ rel, Location.path (d ++ rel) ∉ s.locked

theorem Listable.log (h : s.Listable d) (record : LogRecord) : Listable { s with log := s.log ++ [record] } d :=
  ⟨⟨h.sound.files, h.sound.workingDir⟩, h.directory, h.noLink, h.unlocked⟩

/-- A directory in a directory without links. -/
theorem Listable.below (h : s.Listable d) (hrel : s.files.get? (d ++ rel) = some .directory) : s.Listable (d ++ rel) where
  sound := h.sound
  directory := hrel
  noLink more := by
    rw [List.append_assoc]
    exact h.noLink (rel ++ more)
  unlocked more := by
    rw [List.append_assoc]
    exact h.unlocked (rel ++ more)

theorem Listable.leads (h : s.Listable d) : s.LeadsTo d.path d := leadsTo_path h.sound h.directory

theorem Listable.hasZero (h : s.Listable d) : d.path.hasZero = false :=
  hasZero_path h.sound (by rw [h.directory]; exact Option.some_ne_none _)

/-- The directory is reached by plain names without links. -/
theorem Listable.clear (h : s.Listable d) (hp : ∀ c ∈ rel, IsPlain c) :
    (∀ c ∈ d ++ rel, IsPlain c) ∧ s.files.Clear [] (d ++ rel) := by
  have hn : s.files.get? d ≠ none := by
    rw [h.directory]
    exact Option.some_ne_none _
  constructor
  · intro c hc
    rcases List.mem_append.1 hc with hc | hc
    · exact (proper_of_exists h.sound hn hc).plain
    · exact hp c hc
  · intro first target hne hfirst
    rw [List.nil_append]
    rcases List.prefix_or_prefix_of_prefix hfirst (List.prefix_append d rel) with hway | ⟨rest, rfl⟩
    · rw [h.sound.files.way h.directory hway]
      exact nofun
    · exact h.noLink rest target

/-- Where names lead depends on what is stored on the way. -/
theorem Listable.find_congr (h : s.Listable d) (hp : ∀ c ∈ rel, IsPlain c)
    (hsame : ∀ x, x <+: d ++ rel → s.files.get? x = t.files.get? x) (follow : Bool) :
    s.find follow (Location.path (d ++ rel)) = t.find follow (Location.path (d ++ rel)) := by
  obtain ⟨hplain, hclear⟩ := h.clear hp
  exact Files.walk_congr hplain hclear fun first _ hfirst => hsame first hfirst

/-- Names that lead to nothing. -/
theorem Listable.node?_eq_none (h : s.Listable d) (hp : ∀ c ∈ rel, IsPlain c) (hn : s.files.get? (d ++ rel) = none)
    (follow : Bool) : s.node? follow (Location.path (d ++ rel)) = none := by
  have hne : rel ≠ [] := by
    rintro rfl
    rw [List.append_nil, h.directory] at hn
    cases hn
  have hfind := find_append follow h.leads h.sound hp (fun first target _ _ => h.noLink first target) (.inl hne)
  rw [show d.path.append rel = Location.path (d ++ rel) from rfl] at hfind
  unfold Session.node?
  split
  · rfl
  · rcases hfind with hfind | ⟨code, hfind, -, -⟩
    · rw [hfind, hn]
    · rw [hfind]

/-- What is offered is what is stored. -/
theorem Listable.offers (h : s.Listable d) (hp : ∀ c ∈ rel, IsPlain c) :
    s.offers (Location.path (d ++ rel)) = fun names => (s.files.content (d ++ rel) names).map Offer.ofNode := by
  funext names
  unfold Session.offers Files.content
  rw [List.append_assoc]
  by_cases hplain : ∀ c ∈ names, IsPlain c
  · rw [if_pos hplain]
    have hall : ∀ c ∈ rel ++ names, IsPlain c := by
      intro c hc
      rcases List.mem_append.1 hc with hc | hc
      · exact hp c hc
      · exact hplain c hc
    have happend : (Location.path (d ++ rel)).append names = d.path.append (rel ++ names) := by
      rw [← Path.append_append]
      rfl
    rw [happend]
    have hclear : s.files.Clear d (rel ++ names) := fun first target _ _ => h.noLink first target
    cases hnode : s.files.get? (d ++ (rel ++ names)) with
    | none =>
      have hnone := h.node?_eq_none hall hnode
      rw [show Location.path (d ++ (rel ++ names)) = d.path.append (rel ++ names) from rfl] at hnone
      unfold offer?
      split
      · rfl
      · rename_i hz
        have hfollow := hnone true
        unfold Session.node? at hfollow
        rw [if_neg hz] at hfollow
        split
        · rename_i hfind
          rw [hfind] at hfollow
          cases hfollow
        · rename_i hfind
          rw [hfind] at hfollow
          cases hfollow
        · rw [hnone false]
          rfl
    | some node =>
      have hn : s.files.get? (d ++ (rel ++ names)) ≠ none := by
        rw [hnode]
        exact Option.some_ne_none _
      have hfind := find_append_of_exists true h.leads h.sound hall hclear (.inr rfl) hn
      have hlocked : s.locked.contains (d.path.append (rel ++ names)) = false :=
        Bool.eq_false_iff.2 fun hc => h.unlocked (rel ++ names) (List.contains_iff_mem.1 hc)
      have hz : (d.path.append (rel ++ names)).hasZero = false := hasZero_path h.sound hn
      unfold offer?
      rw [hz, if_neg Bool.false_ne_true, hlocked, hfind, hnode]
      cases node with
      | link target => exact absurd hnode (h.noLink _ _)
      | _ => rfl
  · have hnone : s.files.get? (d ++ (rel ++ names)) = none := by
      by_contra hn
      rw [← List.append_assoc] at hn
      exact hplain fun c hc => (h.sound.files.proper_of_mem hn hc).plain
    rw [if_neg hplain, hnone]
    rfl

/-- From places with the same contents, the same is offered. -/
theorem Listable.offers_congr (h : s.Listable d) (h' : t.Listable d) (hp : ∀ c ∈ rel, IsPlain c)
    (hcontent : s.files.content (d ++ rel) = t.files.content (d ++ rel)) :
    s.offers (Location.path (d ++ rel)) = t.offers (Location.path (d ++ rel)) := by
  rw [h.offers hp, h'.offers hp, hcontent]

/-- Whether there is an entry of the directory. -/
theorem Listable.exists?_entry (h : s.Listable d) (hname : IsProper name) :
    s.exists? (Location.path (d ++ [name])) = .ok (s.files.get? (d ++ [name])).isSome := by
  have hreaches := reaches_child h.leads h.sound hname fun target => h.noLink [name] target
  unfold exists?
  rw [show Location.path (d ++ [name]) = d.path.child name from rfl, hreaches.look]
  rfl

theorem Listable.avoids (h : s.Listable d) (hp : ∀ c ∈ rel, IsPlain c) (he : ¬ e <+: d ++ rel) (he' : ¬ d ++ rel <+: e) :
    Avoids s (Location.path (d ++ rel)) e := by
  obtain ⟨hplain, hclear⟩ := h.clear hp
  refine avoids_of_plain hplain (fun names target => ?_) (fun first target hfirst => ?_) he he'
  · have hbelow := h.noLink (rel ++ names) target
    rwa [← List.append_assoc] at hbelow
  · by_cases hne : first = []
    · rw [hne]
      exact nofun
    · exact hclear first target hne hfirst

/-- A directory shows the same in two sessions if it has the same contents in both. -/
theorem Listable.sameView (h : s.Listable d) (hway : ∀ x, x <+: d → s.files.get? x = t.files.get? x)
    (hcontent : s.files.content d = t.files.content d)
    (hnames : ∀ rel, s.files.names (d ++ rel) = t.files.names (d ++ rel)) (hlocked : s.locked = t.locked) :
    SameView s t d.path where
  find names hp follow := by
    refine h.find_congr hp (fun x hx => ?_) follow
    rcases List.prefix_or_prefix_of_prefix hx (List.prefix_append d names) with hx | ⟨rest, rfl⟩
    · exact hway x hx
    · exact congrFun hcontent rest
  names names hp loc hl := by
    obtain ⟨hplain, hclear⟩ := h.clear hp
    have hplace : loc = d ++ names := Files.location_of_walk hplain hclear (leadsTo_iff_find.1 hl)
    rw [hplace]
    exact hnames names
  locked := hlocked

/-! ### Paths that reach a directory -/

/-- A path that reaches a directory in which there are no links. -/
structure Straight (s : Session) (p : Path) (d : Location) : Prop where
  sound : s.Sound
  reaches : s.Reaches p d
  directory : s.files.get? d = some .directory
  noLink : ∀ rel target, s.files.get? (d ++ rel) ≠ some (.link target)

theorem Straight.leads (h : s.Straight p d) : s.LeadsTo p d := by
  have hfind := h.reaches.find true
  rw [h.directory] at hfind
  exact leadsTo_iff_find.2 hfind

/-- Names behind the path reach what they say. -/
theorem Straight.reaches_append (h : s.Straight p d) (hn : s.files.get? (d ++ rel) ≠ none) :
    s.Reaches (p.append rel) (d ++ rel) := by
  by_cases hne : rel = []
  · subst hne
    rw [Path.append_nil, List.append_nil]
    exact h.reaches
  have hproper : ∀ c ∈ rel, IsProper c := fun c hc => h.sound.files.proper_of_mem hn hc
  constructor
  · rw [Path.hasZero_append, h.reaches.hasZero, Bool.false_or, List.any_eq_false]
    intro c hc
    simpa using (hproper c hc).noZero
  · exact fun follow => find_append_of_exists follow h.leads h.sound (fun c hc => (hproper c hc).plain)
      (fun first target _ _ => h.noLink first target) (.inl hne) hn

theorem Straight.isDirectory? (h : s.Straight p d) (hn : s.files.get? (d ++ rel) ≠ none) :
    s.isDirectory? (p.append rel) = .ok (isDirectoryNode (s.files.get? (d ++ rel))) := by
  unfold Session.isDirectory?
  rw [(h.reaches_append hn).look]
  rfl

theorem Straight.isLink? (h : s.Straight p d) (hn : s.files.get? (d ++ rel) ≠ none) :
    s.isLink? (p.append rel) = .ok false := by
  unfold Session.isLink?
  rw [(h.reaches_append hn).look]
  cases hnode : s.files.get? (d ++ rel) with
  | none => rfl
  | some node =>
    cases node with
    | link target => exact absurd hnode (h.noLink rel target)
    | _ => rfl

/-- The names that a directory is found to hold are those of its entries. -/
theorem Straight.eq_names (h : s.Straight p d) (hd : s.files.get? (d ++ rel) = some .directory) {found : List String}
    (hr : s.names? (p.append rel).written = .ok found) : found = s.files.names (d ++ rel) := by
  obtain ⟨loc, hf, rfl⟩ := names?_eq_ok hr
  have hreaches := h.reaches_append (by rw [hd]; exact Option.some_ne_none _ : s.files.get? (d ++ rel) ≠ none)
  rw [(Place.mk.inj (Except.ok.inj (hf.symm.trans (hreaches.find true)))).1]

/-- Only a locked directory cannot be listed. -/
theorem Straight.mem_locked (h : s.Straight p d) (hd : s.files.get? (d ++ rel) = some .directory) {e : Failure}
    (hr : s.names? (p.append rel).written = .error e) : p.append rel ∈ s.locked := by
  by_contra hlocked
  have hreaches := h.reaches_append (by rw [hd]; exact Option.some_ne_none _ : s.files.get? (d ++ rel) ≠ none)
  unfold Session.names? at hr
  rw [show (p.append rel).written.path = p.append rel from rfl, if_neg fun hc => hlocked (List.contains_iff_mem.1 hc),
    hreaches.hasZero, if_neg Bool.false_ne_true, hreaches.find, hd] at hr
  cases hr

/-- A path that reaches a directory, and what is in the directory can be listed in full by this path. -/
structure Listed (s : Session) (p : Path) (d : Location) : Prop where
  sound : s.Sound
  reaches : s.Reaches p d
  directory : s.files.get? d = some .directory
  noLink : ∀ rel target, s.files.get? (d ++ rel) ≠ some (.link target)
  unlocked : ∀ rel, p.append rel ∉ s.locked

theorem Listed.log (h : s.Listed p d) (record : LogRecord) : Listed { s with log := s.log ++ [record] } p d :=
  ⟨⟨h.sound.files, h.sound.workingDir⟩, ⟨h.reaches.hasZero, h.reaches.find⟩, h.directory, h.noLink, h.unlocked⟩

theorem Listable.listed (h : s.Listable d) : s.Listed d.path d :=
  ⟨h.sound, reaches_path h.sound (by rw [h.directory]; exact Option.some_ne_none _) (by rw [h.directory]; exact nofun),
    h.directory, h.noLink, h.unlocked⟩

theorem Listed.straight (h : s.Listed p d) : s.Straight p d := ⟨h.sound, h.reaches, h.directory, h.noLink⟩

theorem Listed.leads (h : s.Listed p d) : s.LeadsTo p d := h.straight.leads

/-- Names behind the path reach what they say. -/
theorem Listed.reaches_append (h : s.Listed p d) (hn : s.files.get? (d ++ rel) ≠ none) :
    s.Reaches (p.append rel) (d ++ rel) := h.straight.reaches_append hn

/-- The path itself, and names behind it, reach what is stored. -/
theorem Listed.reaches_all (h : s.Listed p d) {rels : List (List String)}
    (hn : ∀ rel ∈ rels, s.files.get? (d ++ rel) ≠ none) :
    ∀ rel ∈ [] :: rels, s.Reaches (p.append rel) (d ++ rel) ∧ s.files.get? (d ++ rel) ≠ none := by
  intro rel hrel
  have hrel : s.files.get? (d ++ rel) ≠ none := by
    rcases List.mem_cons.1 hrel with rfl | hrel
    · rw [List.append_nil, h.directory]
      exact Option.some_ne_none _
    · exact hn rel hrel
  exact ⟨h.reaches_append hrel, hrel⟩

end Session

end Handout
