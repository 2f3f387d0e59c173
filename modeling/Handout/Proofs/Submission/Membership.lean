import Handout.Proofs.Files.Depth
import Handout.Proofs.Files.Listable
import Handout.Submission.Compress

/-!
# What goes into the archive of a project

The paths that are submitted are put together from the files at the top of a project, some files of the student, and
the directories that lead to these (`mem_includedPaths`).  They are in order and without repetitions
(`pairwise_includedNames`), whichever files are the student's, and the parent of each one is included or is the project
itself (`IsIncluded.dropLast`); so each directory comes before what it holds (`Comprises.before`).
-/

namespace Handout

/-! ### Paths in order -/

namespace Path

variable {p q : Path} {a b : List String}

/-- Sorted paths are in order of their components. -/
theorem pairwise_sort (ps : List Path) : (sort ps).Pairwise fun p q => ¬ q.components < p.components :=
  (sortBy_pairwise Path.le_trans Path.le_total ps).imp le_iff.1

theorem components_append (p : Path) (names : List String) : (p.append names).components = p.components ++ names := by
  unfold components
  rw [isAbsolute_append]
  split <;> rfl

private theorem append_left_lt_iff (first : List String) : first ++ a < first ++ b ↔ a < b := by
  induction first with
  | nil => exact Iff.rfl
  | cons c first ih =>
    rw [List.cons_append, List.cons_append, List.cons_lt_cons_iff, ih]
    exact ⟨fun h => (h.resolve_left (String.lt_irrefl c)).2, fun h => .inr ⟨rfl, h⟩⟩

/-- Paths behind one path are in order of the names behind it. -/
theorem components_append_lt_iff : (p.append a).components < (p.append b).components ↔ a < b := by
  rw [components_append, components_append, append_left_lt_iff]

end Path

namespace Submission

variable {project : Path} {rel : List String} {student : List String → Prop} {content : Content} {f : Files}
  {d : Location}

/-! ### What is included -/

/-- At some names there is something that is included: a file at the top, a file of the student, or a directory that
leads to one. -/
def IsIncluded (student : List String → Prop) (content : Content) (rel : List String) : Prop :=
  Session.isFileNode (content rel) = true ∧ rel.length = 1 ∨ student rel ∨
    rel ≠ [] ∧ ∃ file, student file ∧ rel <+: file ∧ rel ≠ file

private theorem dropLast_ne {names : List String} (h : names ≠ []) : names.dropLast ≠ names := fun he => by
  have hlength := congrArg List.length he
  have hpos := List.length_pos_iff.2 h
  rw [List.length_dropLast] at hlength
  omega

/-- The parent of what is included is included, or is the project itself. -/
theorem IsIncluded.dropLast (hstudent : ∀ rel, student rel → rel ≠ []) (h : IsIncluded student content rel) :
    rel.dropLast = [] ∨ IsIncluded student content rel.dropLast := by
  rcases h with ⟨-, hlength⟩ | hfile | ⟨hne, file, hfile, hbegin, hproper⟩
  · obtain ⟨name, rfl⟩ := List.length_eq_one_iff.1 hlength
    exact .inl rfl
  all_goals by_cases htop : rel.dropLast = []
  · exact .inl htop
  · exact .inr (.inr (.inr ⟨htop, rel, hfile, List.dropLast_prefix rel, dropLast_ne (hstudent rel hfile)⟩))
  · exact .inl htop
  · refine .inr (.inr (.inr ⟨htop, file, hfile, (List.dropLast_prefix rel).trans hbegin, fun he => ?_⟩))
    exact dropLast_ne hne ((List.dropLast_prefix rel).eq_of_length_le (he ▸ hbegin.length_le))

/-- A file is there. -/
theorem exists_of_isFileNode (h : Session.isFileNode (f.content d rel) = true) : f.get? (d ++ rel) ≠ none := by
  intro hn
  unfold Files.content at h
  rw [hn] at h
  cases h

/-- What is included is there. -/
theorem IsIncluded.exists (hf : f.WellFormed)
    (hstudent : ∀ rel, student rel → Session.isFileNode (f.content d rel) = true)
    (h : IsIncluded student (f.content d) rel) : f.get? (d ++ rel) ≠ none := by
  rcases h with ⟨hnode, -⟩ | hmine | ⟨-, file, hmine, ⟨rest, rfl⟩, hne⟩
  · exact exists_of_isFileNode hnode
  · exact exists_of_isFileNode (hstudent rel hmine)
  · have hn := exists_of_isFileNode (hstudent _ hmine)
    rw [← List.append_assoc] at hn
    rw [hf.ancestor hn fun hrest => hne (by rw [hrest, List.append_nil])]
    exact Option.some_ne_none _

theorem IsIncluded.ne_nil (hstudent : ∀ rel, student rel → rel ≠ []) (h : IsIncluded student content rel) : rel ≠ [] := by
  rcases h with ⟨-, hlength⟩ | hfile | ⟨hne, -⟩
  · rintro rfl
    cases hlength
  · exact hstudent rel hfile
  · exact hne

/-! ### The paths of what is included -/

/-- The directories between a project and paths in it. -/
theorem mem_directoriesTo {rels : List (List String)} {p : Path} :
    p ∈ directoriesTo project (rels.map project.append) ↔
      ∃ first, p = project.append first ∧ first ≠ [] ∧ ∃ rel ∈ rels, first <+: rel ∧ first ≠ rel := by
  have hparent : ∀ rel, (p ∈ (project.append rel).parents ∧ p.parents.contains project = true) ↔
      ∃ first, p = project.append first ∧ first ≠ [] ∧ first <+: rel ∧ first ≠ rel := by
    intro rel
    rw [List.contains_iff_mem, Path.mem_parents, Path.mem_parents]
    constructor
    · rintro ⟨⟨-, hbegin, hne⟩, hanchor, ⟨first, hfirst⟩, hne'⟩
      obtain ⟨anchor, parts⟩ := p
      obtain rfl : project.parts ++ first = parts := hfirst
      obtain rfl : project.anchor = anchor := hanchor
      exact ⟨first, rfl, fun hf => hne' (by rw [hf, List.append_nil]), (List.prefix_append_right_inj _).1 hbegin,
        fun he => hne (congrArg (project.parts ++ ·) he)⟩
    · rintro ⟨first, rfl, hne, hbegin, hne'⟩
      exact ⟨⟨rfl, (List.prefix_append_right_inj _).2 hbegin, fun he => hne' (List.append_cancel_left he)⟩, rfl,
        List.prefix_append _ _, fun he => hne (List.append_right_eq_self.1 he.symm)⟩
  unfold directoriesTo
  rw [List.mem_eraseDups, List.mem_flatMap]
  simp only [List.mem_map, List.mem_filter, exists_exists_and_eq_and, hparent]
  constructor
  · rintro ⟨rel, hrel, first, rfl, hne, hfirst⟩
    exact ⟨first, rfl, hne, rel, hrel, hfirst⟩
  · rintro ⟨first, rfl, hne, rel, hrel, hfirst⟩
    exact ⟨rel, hrel, first, rfl, hne, hfirst⟩

/-- The paths of a project that are included, in order, as told by what is stored, when some of its files are the
student's. -/
def includedPaths (project : Path) (student : List String → Bool) (f : Files) (d : Location) : List Path :=
  let files := ((f.listing d).filter student).map project.append
  let top := (sortNames ((f.names d).filter fun name => Session.isFileNode (f.content d [name]))).map project.child
  Path.sort (Path.sort (directoriesTo project files ++ files) ++ top).eraseDups

variable {mine : List String → Bool}

/-- What is included: the files at the top, the student's files, and the directories that lead to these. -/
theorem mem_includedPaths (hf : f.WellFormed)
    (hmine : ∀ rel, mine rel = true → rel ≠ [] ∧ Session.isFileNode (f.content d rel) = true) (p : Path) :
    p ∈ includedPaths project mine f d ↔
      ∃ rel, p = project.append rel ∧ IsIncluded (mine · = true) (f.content d) rel := by
  have hsorted : ∀ {q : Path} {ps : List Path}, q ∈ Path.sort ps ↔ q ∈ ps := (sortBy_perm _ _).mem_iff
  have hexists : ∀ {rel}, IsIncluded (mine · = true) (f.content d) rel → f.get? (d ++ rel) ≠ none := fun hrel =>
    hrel.exists hf fun rel h => (hmine rel h).2
  have hstudent : ∀ rel, rel ∈ (f.listing d).filter mine ↔ mine rel = true := by
    intro rel
    rw [List.mem_filter, Files.mem_listing hf]
    exact ⟨fun h => h.2, fun h => ⟨⟨(hmine rel h).1, hexists (.inr (.inl h))⟩, h⟩⟩
  have htop : p ∈ (sortNames ((f.names d).filter fun name => Session.isFileNode (f.content d [name]))).map project.child ↔
      ∃ rel, p = project.append rel ∧ Session.isFileNode (f.content d rel) = true ∧ rel.length = 1 := by
    rw [List.mem_map]
    constructor
    · rintro ⟨name, hname, rfl⟩
      exact ⟨[name], rfl, (List.mem_filter.1 ((sortBy_perm _ _).mem_iff.1 hname)).2, rfl⟩
    · rintro ⟨rel, rfl, hnode, hlength⟩
      obtain ⟨name, rfl⟩ := List.length_eq_one_iff.1 hlength
      have hn : f.get? (d ++ [name]) ≠ none := hexists (.inl ⟨hnode, rfl⟩)
      exact ⟨name, (sortBy_perm _ _).mem_iff.2 (List.mem_filter.2 ⟨Files.mem_names.2 hn, hnode⟩), rfl⟩
  unfold includedPaths IsIncluded
  dsimp only
  rw [hsorted, List.mem_eraseDups, List.mem_append, hsorted, List.mem_append, mem_directoriesTo, htop, List.mem_map]
  simp only [hstudent]
  constructor
  · rintro ((⟨rel, rfl, h⟩ | ⟨rel, h, rfl⟩) | ⟨rel, rfl, h⟩)
    · exact ⟨rel, rfl, .inr (.inr h)⟩
    · exact ⟨rel, rfl, .inr (.inl h)⟩
    · exact ⟨rel, rfl, .inl h⟩
  · rintro ⟨rel, rfl, h | h | h⟩
    · exact .inr ⟨rel, rfl, h⟩
    · exact .inl (.inr ⟨rel, h, rfl⟩)
    · exact .inl (.inl ⟨rel, rfl, h⟩)

/-- The names of what is included, below the project. -/
def includedNames (project : Path) (student : List String → Bool) (f : Files) (d : Location) : List (List String) :=
  (includedPaths project student f d).map fun p => p.parts.drop project.parts.length

private theorem drop_project (project : Path) (rel : List String) :
    (project.append rel).parts.drop project.parts.length = rel := List.drop_left

theorem mem_includedNames (hf : f.WellFormed)
    (hmine : ∀ rel, mine rel = true → rel ≠ [] ∧ Session.isFileNode (f.content d rel) = true) :
    rel ∈ includedNames project mine f d ↔ IsIncluded (mine · = true) (f.content d) rel := by
  unfold includedNames
  simp only [List.mem_map, mem_includedPaths hf hmine]
  constructor
  · rintro ⟨p, ⟨rel, rfl, h⟩, rfl⟩
    rwa [drop_project]
  · exact fun h => ⟨_, ⟨rel, rfl, h⟩, drop_project project rel⟩

theorem includedPaths_eq (hf : f.WellFormed)
    (hmine : ∀ rel, mine rel = true → rel ≠ [] ∧ Session.isFileNode (f.content d rel) = true) :
    includedPaths project mine f d = (includedNames project mine f d).map project.append := by
  unfold includedNames
  rw [List.map_map]
  conv_lhs => rw [← List.map_id (includedPaths project mine f d)]
  refine List.map_congr_left fun p hp => ?_
  obtain ⟨rel, rfl, -⟩ := (mem_includedPaths hf hmine p).1 hp
  exact congrArg project.append (drop_project project rel).symm

/-- What is included is in order of the names, and nothing is included twice. -/
theorem pairwise_includedNames (hf : f.WellFormed)
    (hmine : ∀ rel, mine rel = true → rel ≠ [] ∧ Session.isFileNode (f.content d rel) = true) :
    (includedNames project mine f d).Pairwise (· < ·) := by
  have hsorted : (includedPaths project mine f d).Pairwise fun p q => ¬ q.components < p.components :=
    Path.pairwise_sort _
  have hnodup : (includedPaths project mine f d).Nodup := (sortBy_perm _ _).nodup_iff.2 (nodup_eraseDups _)
  have hboth := hsorted.and hnodup
  rw [includedPaths_eq hf hmine, List.pairwise_map] at hboth
  refine hboth.imp fun {a b} hab => ?_
  obtain ⟨hle, hne⟩ := hab
  rw [Path.components_append_lt_iff] at hle
  by_contra hlt
  exact hne (congrArg project.append (List.le_antisymm hle hlt))

/-- Some names are those of all that is included, in order. -/
structure Comprises (student : List String → Prop) (content : Content) (rels : List (List String)) : Prop where
  mem_iff : ∀ rel, rel ∈ rels ↔ IsIncluded student content rel
  ordered : ([] :: rels).Pairwise (· < ·)
  parent : ∀ rel ∈ rels, rel.dropLast ∈ [] :: rels

/-- A directory comes before what it holds. -/
theorem Comprises.before {rels first rest : List (List String)} {dir : List String} (h : Comprises student content rels)
    (hsplit : [] :: rels = first ++ rel :: rest) (hdir : dir ∈ [] :: rels) (hbegin : dir <+: rel) (hne : dir ≠ rel) :
    dir ∈ first := by
  have hordered := h.ordered
  rw [hsplit] at hdir hordered
  rcases List.mem_append.1 hdir with hfirst | hrest
  · exact hfirst
  · have hlater : rel < dir := (List.pairwise_cons.1 (List.pairwise_append.1 hordered).2.1).1 dir
      ((List.mem_cons.1 hrest).resolve_left hne)
    obtain ⟨more, rfl⟩ := hbegin
    exact absurd hlater (List.not_lt.2 List.le_append_left)

theorem comprises_includedNames (project : Path) (hf : f.WellFormed)
    (hmine : ∀ rel, mine rel = true → rel ≠ [] ∧ Session.isFileNode (f.content d rel) = true)
    (hiff : ∀ rel, mine rel = true ↔ student rel) : Comprises student (f.content d) (includedNames project mine f d) := by
  obtain rfl : (mine · = true) = student := funext fun rel => propext (hiff rel)
  have hmem : ∀ rel, rel ∈ includedNames project mine f d ↔ IsIncluded (mine · = true) (f.content d) rel := fun rel =>
    mem_includedNames hf hmine
  refine ⟨hmem, List.pairwise_cons.2 ⟨fun rel hrel => ?_, pairwise_includedNames hf hmine⟩, fun rel hrel => ?_⟩
  · obtain ⟨name, rest, rfl⟩ := List.exists_cons_of_ne_nil (((hmem rel).1 hrel).ne_nil fun rel h => (hmine rel h).1)
    exact List.nil_lt_cons name rest
  · rw [List.mem_cons, hmem]
    exact ((hmem rel).1 hrel).dropLast fun rel h => (hmine rel h).1

end Submission

end Handout
