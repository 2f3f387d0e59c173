import Mathlib.Data.List.Infix
import Handout.Proofs.Exercise.Walk
import Handout.Proofs.Files.Depth

/-!
# What belongs to an exercise

The rules for files and directories are stated here of what is stored: `Processed` says of a file below an exercise
that no rule leaves it out, and `Barred` of a directory that the walk does not enter it.  The walk visits exactly the
files that are processed, each once (`files_exact`): it goes down name by name, as the rules do
(`Readable.visits_iff`), and no path is visited twice as its names tell on which way the walk came to it.
-/

namespace Handout.Exercise

open Handout.Action Session

variable {s : Session} {p : Path} {d : Location} {dirs : List String} {name c : String} {levels : Nat}

/-! ### The rules -/

/-- The names that are skipped, and the ones with the word `Hidden`. -/
def IsOnSkipList (name : String) : Prop :=
  name ∈ [".tmcrc", "metadata.yml", "private"] ∨ "Hidden".toList <:+: name.toList

/-- A directory that is not entered: for its name, or as a file named `.tmcignore` is directly in it. -/
def Barred (s : Session) (dir : Path) : Prop :=
  (∃ rest, dir.name.toList = '.' :: rest) ∨ IsOnSkipList dir.name ∨
    ∃ data flag, s.node? true (dir.child ".tmcignore") = some (.file data flag)

/-- A file in a directory below an exercise that no rule leaves out.  The exercise itself may have any name and hold
a file named `.tmcignore`. -/
structure Processed (s : Session) (p : Path) (d : Location) (dirs : List String) (name : String) : Prop where
  within : s.files.get? (d ++ dirs) = some .directory
  stored : s.files.get? (d ++ (dirs ++ [name])) ≠ none
  noDirectory : s.node? true (p.append (dirs ++ [name])) ≠ some .directory
  named : ¬ IsOnSkipList name
  entered : ∀ way, way ≠ [] → way <+: dirs → ¬ Barred s (p.append way)

/-- An exercise of which every directory can be listed and inspected. -/
structure Readable (s : Session) (p : Path) (d : Location) : Prop where
  sound : s.Sound
  leads : s.LeadsTo p d
  unlocked : ∀ rel, s.files.get? (d ++ rel) = some .directory → p.append rel ∉ s.locked
  inspected : ∀ rel, s.files.get? (d ++ rel) = some .directory →
    ∃ node, s.look true ((p.append rel).child ignoreFileName) = .ok node

theorem occurs_iff {word l : List Char} : occurs word l = true ↔ word <:+: l := by
  induction l with
  | nil => simp [occurs]
  | cons c l ih => rw [occurs, Bool.or_eq_true, ih, List.infix_cons_iff, List.isPrefixOf_iff_prefix]

theorem isSkipped_iff : isSkipped name = true ↔ IsOnSkipList name := by
  unfold isSkipped IsOnSkipList
  rw [Bool.or_eq_true, occurs_iff, List.contains_iff_mem]
  rfl

theorem isHidden_iff : isHidden name = true ↔ ∃ rest, name.toList = '.' :: rest := by
  unfold isHidden
  rw [decide_eq_true_iff, List.head?_eq_some_iff]

private theorem isFileNode_iff {node : Option Node} : isFileNode node = true ↔ ∃ data flag, node = some (.file data flag) := by
  unfold isFileNode
  split <;> simp_all

private theorem node?_of_look {follow : Bool} {node : Option Node} (h : s.look follow p = .ok node) :
    s.node? follow p = node := by
  unfold Session.look at h
  unfold Session.node?
  by_cases hz : p.hasZero = true
  · rw [if_pos hz] at h ⊢
    exact Except.ok.inj h
  · rw [if_neg hz] at h ⊢
    rcases hf : s.find follow p with code | place
    · rw [hf] at h
      cases code <;> cases h <;> rfl
    · rw [hf] at h
      exact Except.ok.inj h

private theorem visits_singleton : Visits s p [c] ↔ c ∈ takenNames s p := by
  constructor
  · rintro (hc | ⟨-, -, hrest⟩)
    · assumption
    · exact absurd rfl hrest.ne_nil
  · exact .file

private theorem visits_cons {rel : List String} (hne : rel ≠ []) : Visits s p (c :: rel) ↔
    (c ∈ openNames s p ∧ isLinkNode (s.node? false (p.child c)) = false) ∧ Visits s (p.child c) rel := by
  constructor
  · rintro (_ | ⟨hc, hlink, hrest⟩)
    · exact absurd rfl hne
    · exact ⟨⟨hc, hlink⟩, hrest⟩
  · rintro ⟨⟨hc, hlink⟩, hrest⟩
    exact .within hc hlink hrest

/-! ### One directory -/

namespace Readable

theorem child (h : Readable s p d) (hc : s.files.get? (d ++ [c]) = some .directory) :
    Readable s (p.child c) (d ++ [c]) where
  sound := h.sound
  leads := h.leads.append h.sound hc
  unlocked rel hrel := by
    rw [List.append_assoc] at hrel
    rw [Path.child_eq_append, Path.append_append]
    exact h.unlocked _ hrel
  inspected rel hrel := by
    rw [List.append_assoc] at hrel
    rw [Path.child_eq_append p c, Path.append_append]
    exact h.inspected _ hrel

theorem directory (h : Readable s p d) : s.files.get? (d ++ []) = some .directory := by
  rw [List.append_nil]
  exact h.leads.directory h.sound

theorem not_locked (h : Readable s p d) : s.locked.contains p = false := by
  have hfree := h.unlocked [] h.directory
  rwa [Path.append_nil, ← List.contains_iff_mem, Bool.not_eq_true] at hfree

theorem mem_sortedNames (h : Readable s p d) : c ∈ sortedNames s p ↔ s.files.get? (d ++ [c]) ≠ none := by
  have hnames : s.names? p.written = .ok (s.files.names d) := by
    unfold Session.names?
    rw [show p.written.path = p from rfl, h.not_locked, h.leads.hasZero h.sound, leadsTo_iff_find.1 h.leads]
    rfl
  unfold sortedNames
  rw [hnames, ← Files.mem_names]
  exact (sortBy_perm _ _).mem_iff

/-- The walk leaves out the directories that are not to be entered. -/
theorem prunes_iff (h : Readable s p d) : prunes s p = true ↔ Barred s p := by
  have hparent : (p.child ignoreFileName).parent = p := by
    rw [Path.child_eq_append, Path.parent_append p (List.cons_ne_nil _ _)]
    exact Path.append_nil p
  have hfile : s.isFile? (p.child ignoreFileName) = .ok (isFileNode (s.node? true (p.child ignoreFileName))) := by
    obtain ⟨node, hnode⟩ := h.inspected [] h.directory
    rw [Path.append_nil] at hnode
    unfold Session.isFile?
    rw [hparent, h.not_locked, if_neg Bool.false_ne_true, hnode, node?_of_look hnode]
    rfl
  unfold prunes Barred
  rw [hfile, Bool.or_eq_true, Bool.or_eq_true, isHidden_iff, isSkipped_iff, or_assoc]
  exact or_congr_right (or_congr_right isFileNode_iff)

theorem mem_takenNames (h : Readable s p d) : c ∈ takenNames s p ↔ Processed s p d [] c := by
  have hstored : c ∈ sortedNames s p ↔ s.files.get? (d ++ ([] ++ [c])) ≠ none := h.mem_sortedNames
  unfold takenNames
  rw [List.mem_filter, hstored, Bool.and_eq_true, Bool.not_eq_true', Bool.not_eq_true', isDirectoryNode_eq_false,
    ← Bool.not_eq_true (isSkipped c), isSkipped_iff]
  constructor
  · rintro ⟨hn, hfile, hname⟩
    exact ⟨h.directory, hn, hfile, hname, fun way hne hway => absurd (List.prefix_nil.1 hway) hne⟩
  · intro hc
    exact ⟨hc.stored, hc.noDirectory, hc.named⟩

/-- The walk goes on in the directories that are stored in a directory and may be entered. -/
theorem mem_openNames (h : Readable s p d) : c ∈ openNames s p ∧ isLinkNode (s.node? false (p.child c)) = false ↔
    s.files.get? (d ++ [c]) = some .directory ∧ ¬ Barred s (p.child c) := by
  constructor
  · rintro ⟨hc, hlink⟩
    have hdir := (leadsTo_of_mem_openNames h.sound h.leads hc hlink).directory h.sound
    have hpasses : (!prunes s (p.child c)) = true := (List.mem_filter.1 hc).2
    rw [Bool.not_eq_true', ← Bool.not_eq_true, (h.child hdir).prunes_iff] at hpasses
    exact ⟨hdir, hpasses⟩
  · rintro ⟨hdir, hpasses⟩
    have hn : s.files.get? (d ++ [c]) ≠ none := hdir ▸ Option.some_ne_none _
    have hreaches := reaches_child h.leads h.sound (h.sound.files.proper hn) (by simp [hdir])
    unfold openNames
    rw [List.mem_filter, List.mem_filter, h.mem_sortedNames, hreaches.node?, hreaches.node?, hdir, Bool.not_eq_true',
      ← Bool.not_eq_true, (h.child hdir).prunes_iff]
    exact ⟨⟨⟨Option.some_ne_none _, rfl⟩, hpasses⟩, rfl⟩

/-! ### All directories -/

/-- Below a directory that is entered the rules are the ones of this directory. -/
theorem processed_cons (h : Readable s p d) : Processed s p d (c :: dirs) name ↔
    (s.files.get? (d ++ [c]) = some .directory ∧ ¬ Barred s (p.child c)) ∧
      Processed s (p.child c) (d ++ [c]) dirs name := by
  have hpath : ∀ rel, (p.child c).append rel = p.append (c :: rel) := fun rel => Path.append_append p [c] rel
  have hloc : ∀ rel, d ++ [c] ++ rel = d ++ c :: rel := fun rel => List.append_assoc d [c] rel
  constructor
  · rintro ⟨hwithin, hstored, hfile, hname, hentered⟩
    refine ⟨⟨h.sound.files.way hwithin ?_, ?_⟩, ?_⟩
    · exact ⟨dirs, hloc dirs⟩
    · exact hentered [c] (List.cons_ne_nil _ _) ⟨dirs, rfl⟩
    · refine ⟨by rwa [hloc], by rwa [hloc], by rwa [hpath], hname, fun way _ hway => ?_⟩
      rw [hpath]
      exact hentered (c :: way) (List.cons_ne_nil _ _) (List.cons_prefix_cons.2 ⟨rfl, hway⟩)
  · rintro ⟨⟨-, hopen⟩, hwithin, hstored, hfile, hname, hentered⟩
    rw [hloc] at hwithin hstored
    rw [hpath] at hfile
    refine ⟨hwithin, hstored, hfile, hname, fun way hne hway => ?_⟩
    cases way with
    | nil => exact absurd rfl hne
    | cons x way =>
      obtain ⟨rfl, hrest⟩ := List.cons_prefix_cons.1 hway
      by_cases hnil : way = []
      · rwa [hnil]
      · rw [← hpath]
        exact hentered way hnil hrest

/-- The walk comes to the files that are processed. -/
theorem visits_iff (h : Readable s p d) : Visits s p (dirs ++ [name]) ↔ Processed s p d dirs name := by
  induction dirs generalizing p d with
  | nil => rw [List.nil_append, visits_singleton, h.mem_takenNames]
  | cons c dirs ih =>
    rw [List.cons_append, visits_cons (List.concat_ne_nil _ _), h.mem_openNames, h.processed_cons]
    exact and_congr_right fun hc => ih (h.child hc.1)

end Readable

/-! ### Each file once -/

private theorem nodup_sortedNames : (sortedNames s p).Nodup := by
  unfold sortedNames
  split
  · rename_i names hnames
    obtain ⟨loc, -, rfl⟩ := names?_eq_ok hnames
    exact (sortBy_perm _ _).nodup_iff.2 Files.nodup_names
  · exact List.nodup_nil

private theorem child_injective (p : Path) : Function.Injective p.child := fun _ _ h =>
  List.singleton_inj.1 (List.append_cancel_left (congrArg Path.parts h))

/-- The way to a path that is visited below a directory begins with the name of an entry and goes on. -/
theorem exists_of_mem_below {f : Path}
    (h : f ∈ if isLinkNode (s.node? false (p.child c)) then [] else visited s levels (p.child c)) :
    ∃ rel, rel ≠ [] ∧ f = p.append (c :: rel) := by
  split at h
  · cases h
  · obtain ⟨rel, rfl, hrel, -⟩ := mem_visited_iff.1 h
    exact ⟨rel, hrel.ne_nil, Path.append_append p [c] rel⟩

/-- Nothing is visited twice. -/
theorem nodup_visited (s : Session) (levels : Nat) (p : Path) : (visited s levels p).Nodup := by
  induction levels generalizing p with
  | zero => exact List.nodup_nil
  | succ levels ih =>
    refine List.nodup_append.2 ⟨?_, List.nodup_flatMap.2 ⟨fun c _ => ?_, ?_⟩, ?_⟩
    · exact (nodup_sortedNames.filter _).map (child_injective p)
    · split
      · exact List.nodup_nil
      · exact ih _
    · refine ((nodup_sortedNames.filter _).filter _).imp fun hne f hf hf' => ?_
      obtain ⟨rel, -, rfl⟩ := exists_of_mem_below hf
      obtain ⟨rel', -, he⟩ := exists_of_mem_below hf'
      exact hne (List.cons.inj (List.append_cancel_left (congrArg Path.parts he))).1
    · intro f hf g hg he
      obtain ⟨c, -, rfl⟩ := List.mem_map.1 hf
      obtain ⟨c', -, hg⟩ := List.mem_flatMap.1 hg
      obtain ⟨rel, hne, hway⟩ := exists_of_mem_below hg
      rw [← he] at hway
      exact hne (List.cons.inj (List.append_cancel_left (congrArg Path.parts hway))).2.symm

/-- The files of an exercise that can be read are the ones that no rule leaves out, each once, whatever links to
directories there are. -/
theorem files_exact (h : Readable s p d) : ∃ found, ((files p).perform s).1 = .ok found ∧ found.Nodup ∧
    ∀ f, f ∈ found ↔ ∃ dirs name, f = p.append (dirs ++ [name]) ∧ Processed s p d dirs name := by
  refine ⟨_, files_eq h.sound (h.leads.hasZero h.sound), nodup_visited _ _ _, fun f => ?_⟩
  rw [mem_visited_iff]
  constructor
  · rintro ⟨rel, rfl, hrel, -⟩
    obtain ⟨dirs, name, rfl⟩ := List.eq_nil_or_concat' rel |>.resolve_left hrel.ne_nil
    exact ⟨dirs, name, rfl, h.visits_iff.1 hrel⟩
  · rintro ⟨dirs, name, rfl, hf⟩
    refine ⟨dirs ++ [name], rfl, h.visits_iff.2 hf, ?_⟩
    -- what is stored is nested no deeper than the walk goes
    have hheight := Files.length_le_height hf.stored
    rw [List.length_append] at hheight
    omega

/-- An exercise that is reached by a link, with links back to it and elsewhere, and with directories that are left out
at two depths.  The rules would leave out the exercise itself. -/
def sampleExtent : Session where
  workingDir := ["home"]
  scratch := ["tmp"]
  files := ⟨[(["home"], .directory), (["home", "via"], .link "/data"), (["data"], .directory),
    (["data", ".Hidden"], .directory), (["data", ".Hidden", ".tmcignore"], .file [] false),
    (["data", ".Hidden", "metadata.yml"], .file [] false), (["data", ".Hidden", "away"], .link "nowhere"),
    (["data", ".Hidden", "private"], .directory), (["data", ".Hidden", "private", "x"], .file [] false),
    (["data", ".Hidden", "src"], .directory), (["data", ".Hidden", "src", "A"], .file [] false),
    (["data", ".Hidden", "src", "AHidden"], .file [] false), (["data", ".Hidden", "src", "top"], .link "../.."),
    (["data", ".Hidden", "src", ".rc"], .file [] false), (["data", ".Hidden", "src", "t"], .directory),
    (["data", ".Hidden", "src", "t", ".tmcignore"], .link "../A"), (["data", ".Hidden", "src", "t", "u"], .directory),
    (["data", ".Hidden", "src", "t", "u", "B"], .file [] false), (["data", ".Hidden", "src", "v"], .directory),
    (["data", ".Hidden", "src", "v", ".tmcignore"], .directory), (["data", ".Hidden", "src", "v", "C"], .file [] false)]⟩

theorem sampleExtent_readable : Readable sampleExtent ⟨.relative, ["via", ".Hidden"]⟩ ["data", ".Hidden"] where
  sound := ⟨Files.wellFormed_of_entries (by decide +kernel), by decide +kernel⟩
  leads := leadsTo_iff_find.2 (by decide +kernel)
  unlocked _ _ := List.not_mem_nil
  inspected rel hrel := by
    have hanswers : ∀ e ∈ sampleExtent.files.entries,
        let ignored := (Path.append ⟨.relative, ["via", ".Hidden"]⟩ (e.1.drop 2)).child ignoreFileName
        sampleExtent.look true ignored = .ok (sampleExtent.node? true ignored) := by decide +kernel
    have hn : sampleExtent.files.get? (["data", ".Hidden"] ++ rel) ≠ none := hrel ▸ Option.some_ne_none _
    obtain ⟨node, hmem⟩ := (Files.get?_eq_some_iff_mem (by simp)).1 hn
    exact ⟨_, hanswers _ hmem⟩

/-- Its files are these; links that lead to no directory and files whose names begin with a dot are among them. -/
theorem sampleExtent_files : ∃ found, ((files ⟨.relative, ["via", ".Hidden"]⟩).perform sampleExtent).1 = .ok found ∧
    found = [[".tmcignore"], ["away"], ["src", ".rc"], ["src", "A"], ["src", "v", "C"]].map
      (Path.append ⟨.relative, ["via", ".Hidden"]⟩) ∧ found.Nodup ∧
    ∀ f, f ∈ found ↔ ∃ dirs name, f = Path.append ⟨.relative, ["via", ".Hidden"]⟩ (dirs ++ [name]) ∧
      Processed sampleExtent ⟨.relative, ["via", ".Hidden"]⟩ ["data", ".Hidden"] dirs name := by
  obtain ⟨found, hfound, hnodup, hexact⟩ := files_exact sampleExtent_readable
  refine ⟨found, hfound, ?_, hnodup, hexact⟩
  have hrun : ((files ⟨.relative, ["via", ".Hidden"]⟩).perform sampleExtent).1 =
      .ok ([[".tmcignore"], ["away"], ["src", ".rc"], ["src", "A"], ["src", "v", "C"]].map
        (Path.append ⟨.relative, ["via", ".Hidden"]⟩)) := by decide +kernel
  exact Except.ok.inj (hfound.symm.trans hrun)

end Handout.Exercise
